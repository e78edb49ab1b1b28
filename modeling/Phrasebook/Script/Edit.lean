import Phrasebook.Text.Basic

/-!
Edits of a text. An edit replaces the characters from `start` up to `stop`; an edit with equal bounds
inserts. Edits are applied from left to right, and one that starts inside an earlier edit is dropped.
-/

namespace Phrasebook

/-- The replacement of a range of characters. -/
structure Edit where
  start : Nat
  stop : Nat
  replacement : Text
  deriving DecidableEq, Repr

namespace Edit

/-- An insertion. -/
def insertion (position : Nat) (text : Text) : Edit := ⟨position, position, text⟩

/-- Edits are ordered by where they start, then by where they stop. -/
def before (a b : Edit) : Bool := a.start < b.start || (a.start == b.start && a.stop ≤ b.stop)

/-- Inserts an edit into an ordered list, before the edits of the same range. -/
def insertOrdered (e : Edit) : List Edit → List Edit
  | [] => [e]
  | d :: ds => if e.before d then e :: d :: ds else d :: insertOrdered e ds

/-- Orders edits; edits of the same range keep their order. -/
def order : List Edit → List Edit
  | [] => []
  | e :: es => insertOrdered e (order es)

/-- Applies ordered edits to the part of a text that starts at `position`. -/
def applyOrdered (position : Nat) (rest : Text) : List Edit → Text
  | [] => rest
  | e :: es =>
    if e.start < position then applyOrdered position rest es
    else
      rest.take (e.start - position) ++ e.replacement ++
        applyOrdered e.stop (rest.drop (e.stop - position)) es

/-- Applies edits to a text. -/
def apply (source : Text) (edits : List Edit) : Text := applyOrdered 0 source (order edits)

end Edit

end Phrasebook
