import Phrasebook.FileTree.Basic
import Phrasebook.FileTree.Fault
import Phrasebook.Path

/-!
Using a file tree by paths. A path is followed name by name: every name but the last has to be that
of a directory, and `..` leads to the directory above the one that has been reached.

Main statement: what is stored is put at the free place that the path leads to (`put_of_store`).
-/

namespace Phrasebook

namespace FileTree

/-- Where a name leads from a directory. -/
def stepFrom (here : Location) (name : Text) : Location :=
  if Path.isIdle name then here
  else if name = Path.above then here.dropLast
  else here ++ [name]

/-- Follows names from a place. The place that the last one leads to need not exist. -/
def follow (tree : FileTree) : Location → List Text → Except Fault Location
  | here, [] => .ok here
  | here, name :: rest =>
    match tree.get? here with
    | none => .error .notFound
    | some (.file _) => .error .notADirectory
    | some (.directory _) => follow tree (stepFrom here name) rest

/-- The place that an absolute path leads to. -/
def locate (tree : FileTree) (p : Path) : Except Fault Location := follow tree [] p.segments

/-- What stands where a path leads to. -/
def find (tree : FileTree) (p : Path) : Except Fault FileTree :=
  match tree.locate p with
  | .error fault => .error fault
  | .ok place =>
    match tree.get? place with
    | some t => .ok t
    | none => .error .notFound

/-- Whether a path leads to something. -/
def hasPath (tree : FileTree) (p : Path) : Bool := (tree.find p).toOption.isSome

/-- Whether a path leads to a directory. -/
def hasDirectory (tree : FileTree) (p : Path) : Bool :=
  match tree.find p with
  | .ok t => t.isDirectory
  | .error _ => false

/-- Whether a path leads to a file. -/
def hasFile (tree : FileTree) (p : Path) : Bool :=
  match tree.find p with
  | .ok t => !t.isDirectory
  | .error _ => false

/-- Reads the text of a file. -/
def readText (tree : FileTree) (p : Path) : Except Fault Text :=
  match tree.find p with
  | .error fault => .error fault
  | .ok (.directory _) => .error .isADirectory
  | .ok (.file (.bytes _)) => .error .invalidText
  | .ok (.file (.text t)) => .ok t

/-- Stores something new where a path leads to; the directory above has to exist. -/
def store (tree : FileTree) (p : Path) (new : FileTree) : Except Fault FileTree :=
  match tree.locate p with
  | .error fault => .error fault
  | .ok place =>
    match tree.get? place with
    | some _ => .error .alreadyExists
    | none => .ok (tree.put new place)

/-- Makes a directory, or takes the one that is there; the directory above has to exist. -/
def openDirectory (tree : FileTree) (names : List Text) : Except Fault FileTree :=
  match follow tree [] names with
  | .error fault => .error fault
  | .ok place =>
    match tree.get? place with
    | none => .ok (tree.put empty place)
    | some (.directory _) => .ok tree
    | some (.file _) => .error .alreadyExists

/-- Makes a directory together with the missing ones above it; the names come last first. The tree
shows what was made before a fault. -/
def openAll (tree : FileTree) : List Text → FileTree × Option Fault
  | [] => (tree, none)
  | name :: above =>
    match tree.openDirectory (name :: above).reverse with
    | .ok tree => (tree, none)
    | .error .notFound =>
      match tree.openAll above with
      | (tree, some fault) => (tree, some fault)
      | (tree, none) =>
        match tree.openDirectory (name :: above).reverse with
        | .ok tree => (tree, none)
        | .error fault => (tree, some fault)
    | .error fault => (tree, some fault)

/-- Makes the directory of a path together with the missing ones above it. -/
def makeDirectories (tree : FileTree) (p : Path) : FileTree × Option Fault :=
  tree.openAll p.names.reverse

/-- What is stored is put at a free place. -/
theorem put_of_store {tree new tree' : FileTree} {p : Path} (h : tree.store p new = .ok tree') :
    ∃ place, tree.locate p = .ok place ∧ tree.get? place = none ∧ tree' = tree.put new place := by
  unfold store at h
  split at h
  · cases h
  · next place hp =>
    split at h
    · cases h
    · next hn =>
      cases h
      exact ⟨place, hp, hn, rfl⟩

end FileTree

end Phrasebook
