import Phrasebook.Json.Reader
import Phrasebook.Text.Quoted
import Phrasebook.Service.Failure

/-!
Character tables: conversion between two scripts of one language, character by character. Characters
without an entry stay.
-/

namespace Phrasebook

/-- A conversion table; no two entries have the same first character. -/
structure CharTable where
  entries : List (Char × Char)
  deriving DecidableEq, Repr

namespace CharTable

/-- The table without entries. -/
def empty : CharTable := ⟨[]⟩

/-- Sets an entry of a list of entries. -/
def setEntry (c d : Char) : List (Char × Char) → List (Char × Char)
  | [] => [(c, d)]
  | (a, b) :: rest => if a = c then (c, d) :: rest else (a, b) :: setEntry c d rest

/-- Sets what a character becomes; an older entry is replaced. -/
def insert (t : CharTable) (c d : Char) : CharTable := ⟨setEntry c d t.entries⟩

/-- The number of entries. -/
def size (t : CharTable) : Nat := t.entries.length

/-- What a character becomes. -/
def convertChar (t : CharTable) (c : Char) : Char := (t.entries.lookup c).getD c

/-- Converts a text. -/
def convert (t : CharTable) (text : Text) : Text := text.map t.convertChar

/-- The one character of a text. -/
def single (t : Text) : Except Failure Char :=
  match t with
  | [c] => .ok c
  | _ => .error (.configuration
      ("conversion table entries must be single characters, got ".toList ++ Text.quoted t))

/-- Adds the entries of a table of texts. -/
def addEntries (t : CharTable) : List (Text × Text) → Except Failure CharTable
  | [] => .ok t
  | (a, b) :: rest => do
    let c ← single a
    let d ← single b
    addEntries (t.insert c d) rest

/-- Reads a table from JSON: an object whose names and values are single characters. -/
def ofJson (text : Text) : Except Failure CharTable :=
  match (Json.parse? text).bind Json.stringTable? with
  | none => .error .invalidTable
  | some table => addEntries empty table.entries

end CharTable

end Phrasebook
