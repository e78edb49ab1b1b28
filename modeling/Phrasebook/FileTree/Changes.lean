import Phrasebook.FileTree.Basic

/-!
What a run adds to a file tree: the files that are new or hold something else, and the directories
that are new and empty.
-/

namespace Phrasebook.FileTree

/-- The entry of a directory; a file, or nothing, has none. -/
def child (tree : Option FileTree) (name : Text) : Option FileTree :=
  tree.bind fun t => t.entries.lookup name

/-- Whether there is a file with a content. -/
def holds (tree : Option FileTree) (content : Content) : Bool :=
  match tree with
  | some (.file old) => old == content
  | _ => false

mutual

/-- The changes that lead from what stood at a place before, if anything, to a tree. A file comes
with its content, an empty directory without. -/
def changesAt (place : Location) (before : Option FileTree) :
    FileTree → List (Location × Option Content)
  | .file content => if holds before content then [] else [(place, some content)]
  | .directory [] =>
    match before with
    | some (.directory _) => []
    | _ => [(place, none)]
  | .directory (e :: es) =>
    changesAt (place ++ [e.1]) (child before e.1) e.2 ++ entryChanges place before es

/-- The changes in the entries of a directory. -/
def entryChanges (place : Location) (before : Option FileTree) :
    List (Text × FileTree) → List (Location × Option Content)
  | [] => []
  | e :: es => changesAt (place ++ [e.1]) (child before e.1) e.2 ++ entryChanges place before es

end

/-- The changes from one tree to another. -/
def changes (before after : FileTree) : List (Location × Option Content) :=
  changesAt [] (some before) after

end Phrasebook.FileTree
