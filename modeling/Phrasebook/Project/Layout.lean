import Phrasebook.CommandLine.Settings
import Phrasebook.FileTree.Access
import Phrasebook.Json.Reader

/-!
The layout of a project: where it lies, where its copy goes, which of its entries are converted, and
which paths are copied all the same. A project has a script, a description and a directory of pages
at its root, and its copy goes to a place outside that holds nothing yet.
-/

namespace Phrasebook

/-- What is wrong with the source or with the place of the copy. -/
inductive LayoutError where
  | sourceMissing (root : Path)
  | notAProject (root : Path) (missing : Text)
  | destinationNotEmpty (destination : Path)
  | destinationInsideSource (root destination : Path)
  /-- Something new would take the place of something that is there. -/
  | collision (target : Path)
  deriving DecidableEq, Repr

/-- What a layout error says. -/
def LayoutError.message : LayoutError → Text
  | .sourceMissing root => root.text ++ " does not exist".toList
  | .notAProject root missing =>
    root.text ++ " is not a mina project path: ".toList ++ missing ++ " is missing".toList
  | .destinationNotEmpty destination =>
    destination.text ++
      " is not empty, the i18n mina project path must be empty or not exist".toList
  | .destinationInsideSource root destination =>
    destination.text ++ " lies inside the source project ".toList ++ root.text
  | .collision target => target.text ++ " already exists in the output".toList

/-- A project and the place of its copy. -/
structure Project where
  root : Path
  destination : Path
  /-- The entries of the root that are converted. -/
  includes : List Path
  /-- What is copied although it lies in a converted entry. -/
  ignored : List Path
  deriving DecidableEq, Repr

namespace Project

/-- The script of the project. -/
def appScript : Text := "app.js".toList

/-- The description of the project. -/
def appDescription : Text := "app.json".toList

/-- The directory of pages. -/
def pages : Text := "pages".toList

/-- The file that lists ignored paths. -/
def ignoreFileName : Text := ".mina_i18n_ignore".toList

/-- The field of that file that holds the list. -/
def ignoreField : Text := "ignore_list".toList

/-- The items of an array of strings. -/
def strings? : Json → Option (List Text)
  | .array items => items.mapM Json.string?
  | _ => none

/-- The list in the document of an ignore file: the field of an object, which may be missing but not
occur twice, or the only item of an array. -/
def ignoreList? : Json → Option (List Text)
  | .object fields =>
    match fields.filter (·.1 = ignoreField) with
    | [] => some []
    | [field] => strings? field.2
    | _ => none
  | .array [] => some []
  | .array [item] => strings? item
  | _ => none

/-- A path without every `./` at its start. -/
def dropHere : Text → Text
  | '.' :: '/' :: rest => dropHere rest
  | t => t

/-- The ignored paths of a project. An ignore file that is missing or malformed ignores nothing. -/
def ignoredPaths (tree : FileTree) (root : Path) : List Path :=
  match tree.readText (root.child ignoreFileName) with
  | .error _ => []
  | .ok text =>
    match (Json.parse? text).bind ignoreList? with
    | none => []
    | some entries => entries.map fun entry => root.join ⟨dropHere entry⟩

/-- Adds a path unless it is there in some spelling. -/
def addPath (paths : List Path) (p : Path) : List Path :=
  if paths.any (·.agrees p) then paths else paths ++ [p]

/-- The converted entries: the pages, the script, and the given ones that exist. -/
def includedPaths (tree : FileTree) (root : Path) (extra : List Text) : List Path :=
  let given := (extra.map fun entry => root.join ⟨entry⟩).filter tree.hasPath
  given.foldl addPath [root.child pages, root.child appScript]

/-- Whether a path leads to nothing, or to a directory without entries. -/
def isVacant (tree : FileTree) (p : Path) : Bool :=
  match tree.find p with
  | .ok (.directory es) => es.isEmpty
  | .ok (.file _) => false
  | .error _ => true

/-- The first part that every project has and this one lacks. -/
def missingPart? (tree : FileTree) (root : Path) : Option Text :=
  if !tree.hasFile (root.child appScript) then some appScript
  else if !tree.hasFile (root.child appDescription) then some appDescription
  else if !tree.hasDirectory (root.child pages) then some pages
  else none

/-- Looks at the source and the destination of a run. Nothing is changed. -/
def ofSettings (directory : Path) (tree : FileTree) (s : CommandLine.Settings) :
    Except LayoutError Project :=
  let root := Path.absolute directory s.source
  let destination := Path.absolute directory s.destination
  if !tree.hasDirectory root then .error (.sourceMissing root)
  else match missingPart? tree root with
    | some missing => .error (.notAProject root missing)
    | none =>
      if destination.isUnder root then .error (.destinationInsideSource root destination)
      else if !isVacant tree destination then .error (.destinationNotEmpty destination)
      else .ok {
        root := root
        destination := destination
        includes := includedPaths tree root s.includePaths
        ignored := ignoredPaths tree root }

/-- Whether a path is one of the converted entries. -/
def converts (p : Project) (path : Path) : Bool := p.includes.any (·.agrees path)

/-- Whether a path is ignored or lies under an ignored one. -/
def ignores (p : Project) (path : Path) : Bool := p.ignored.any path.isUnder

/-- The place of a path in the copy. -/
def placeInCopy (p : Project) (path : Path) : Path :=
  p.destination.join ((path.relativeTo? p.root).getD path)

end Project

end Phrasebook
