import Phrasebook.Text.Basic

/-!
File trees: files and directories without links. A place in a tree is the list of names that leads
to it. The entries of a directory are kept in the order of their names.

Main statements: what is put at a place is found there (`get?_put_self`), and nothing changes at a
place that lies neither above nor below it (`get?_put_of_apart`).
-/

namespace Phrasebook

/-- What a file holds: a text, or bytes that are no text in UTF-8. -/
inductive Content where
  | text (t : Text)
  | bytes (data : List UInt8)
  deriving DecidableEq, Repr

/-- A file, or a directory with its entries by name. -/
inductive FileTree where
  | file (content : Content)
  | directory (entries : List (Text × FileTree))
  deriving Repr

/-- A place in a tree: the names that lead to it from the top. -/
abbrev Location := List Text

namespace FileTree

/-- A directory without entries. -/
def empty : FileTree := .directory []

/-- Whether a tree is a directory. -/
def isDirectory : FileTree → Bool
  | .file _ => false
  | .directory _ => true

/-- The entries of a directory; a file has none. -/
def entries : FileTree → List (Text × FileTree)
  | .file _ => []
  | .directory es => es

@[simp] theorem entries_directory (es : List (Text × FileTree)) : (directory es).entries = es := rfl

/-- Sets an entry and keeps the order of names. -/
def setEntry (name : Text) (tree : FileTree) : List (Text × FileTree) → List (Text × FileTree)
  | [] => [(name, tree)]
  | e :: es =>
    if e.1 = name then (name, tree) :: es
    else if Text.blt name e.1 then (name, tree) :: e :: es
    else e :: setEntry name tree es

/-- The part of a tree at a place. -/
def get? (tree : FileTree) : Location → Option FileTree
  | [] => some tree
  | name :: rest =>
    match tree.entries.lookup name with
    | some t => t.get? rest
    | none => none

/-- Puts a tree at a place. Directories on the way are made; a file on the way gives room. -/
def put (tree new : FileTree) : Location → FileTree
  | [] => new
  | name :: rest =>
    .directory (setEntry name (((tree.entries.lookup name).getD empty).put new rest) tree.entries)

theorem lookup_setEntry_self (name : Text) (t : FileTree) (es : List (Text × FileTree)) :
    (setEntry name t es).lookup name = some t := by
  induction es with
  | nil => simp [setEntry]
  | cons e es ih =>
    unfold setEntry
    split
    · simp
    · next h =>
      split
      · simp
      · obtain ⟨k, v⟩ := e
        have hne : (name == k) = false := by simpa using fun he => h he.symm
        simpa [List.lookup_cons, hne] using ih

theorem lookup_setEntry_of_ne {name other : Text} (h : other ≠ name) (t : FileTree)
    (es : List (Text × FileTree)) : (setEntry name t es).lookup other = es.lookup other := by
  have hne : (other == name) = false := by simpa using h
  induction es with
  | nil => simp [setEntry, List.lookup_cons, hne]
  | cons e es ih =>
    obtain ⟨k, v⟩ := e
    unfold setEntry
    split
    · next hk =>
      have hk : k = name := hk
      subst hk
      simp [List.lookup_cons, hne]
    · split
      · simp [List.lookup_cons, hne]
      · simp [List.lookup_cons, ih]

/-- What is put at a place is found there. -/
theorem get?_put_self (tree new : FileTree) (place : Location) :
    (tree.put new place).get? place = some new := by
  induction place generalizing tree with
  | nil => rfl
  | cons name rest ih => simp [put, get?, lookup_setEntry_self, ih]

/-- Nothing changes at a place that lies neither above nor below. -/
theorem get?_put_of_apart {place other : Location} (tree new : FileTree)
    (h : ¬ place <+: other) (h' : ¬ other <+: place) :
    (tree.put new place).get? other = tree.get? other := by
  induction place generalizing tree other with
  | nil => exact absurd (List.nil_prefix) h
  | cons name rest ih =>
    cases other with
    | nil => exact absurd (List.nil_prefix) h'
    | cons name' rest' =>
      by_cases hn : name' = name
      · subst hn
        have hr : ¬ rest <+: rest' := fun hp => h (by simpa using hp)
        have hr' : ¬ rest' <+: rest := fun hp => h' (by simpa using hp)
        simp only [put, get?, entries_directory, lookup_setEntry_self, ih _ hr hr']
        cases tree.entries.lookup name' with
        | some t => rfl
        | none =>
          cases rest' with
          | nil => exact absurd (List.nil_prefix) hr'
          | cons a as => simp [empty, get?]
      · simp only [put, get?, entries_directory, lookup_setEntry_of_ne hn]

mutual

/-- The number of files in a tree. -/
def fileCount : FileTree → Nat
  | .file _ => 1
  | .directory es => entriesCount es

/-- The number of files in a row of entries. -/
def entriesCount : List (Text × FileTree) → Nat
  | [] => 0
  | e :: es => fileCount e.2 + entriesCount es

end

end FileTree

end Phrasebook
