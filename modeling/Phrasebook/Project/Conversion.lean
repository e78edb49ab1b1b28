import Phrasebook.LookupModule
import Phrasebook.Project.Task
import Phrasebook.Template.Localize
import Phrasebook.Service.Queue

/-!
Carrying out a conversion. The state is the file tree, the dictionary, the queue of requests and
the report; an error leaves the state as it was reached, so what has been written stays. Nothing is
ever overwritten: a target that exists is an error.
-/

namespace Phrasebook

/-- What happened to the files of a run. -/
structure Report where
  scripts : Nat := 0
  templates : Nat := 0
  copied : Nat := 0
  /-- Scripts that could not be read; nothing is written for them. -/
  failed : List Path := []
  /-- Templates that could not be read and were copied as they are. -/
  copiedTemplates : List Path := []
  deriving DecidableEq, Repr

/-- Why a run ends early. -/
inductive RunError where
  | layout (error : LayoutError)
  | fault (fault : Fault)
  | failure (failure : Failure)
  /-- The concurrency is higher than a queue allows. -/
  | tooManyPermits
  deriving DecidableEq, Repr

/-- What the error of a run says. -/
def RunError.message : RunError → Text
  | .layout e => e.message
  | .fault f => "I/O error: ".toList ++ f.message
  | .failure f => f.message
  | .tooManyPermits =>
    "a semaphore may not have more than MAX_PERMITS permits (".toList ++
      (toString Queue.maxPermits).toList ++ ")".toList

/-- The state of a conversion. -/
structure Conversion where
  files : FileTree
  dictionary : Dictionary
  queue : Queue
  report : Report := {}

/-- How a conversion writes: the names in generated code, and whether the locale is merged into the
data of pages. -/
structure Style where
  bindings : Bindings := {}
  mergeLocale : Bool := false
  deriving DecidableEq, Repr

namespace FileTree

/-- Stores something at a path where nothing may be. -/
def occupy (files : FileTree) (target : Path) (new : FileTree) : Except RunError FileTree :=
  if files.hasPath target then .error (.layout (.collision target))
  else match files.store target new with
    | .ok files => .ok files
    | .error f => .error (.fault f)

end FileTree

namespace Conversion

/-- Puts the form that a source path has in the copy. -/
def place (c : Conversion) (target : Path) (new : FileTree) : Except RunError Conversion :=
  (c.files.occupy target new).map fun files => { c with files := files }

/-- Records texts in the dictionary. -/
def record (c : Conversion) (texts : List Text) : Conversion :=
  { c with dictionary := c.dictionary.recordAll texts }

/-- Lets the queue take the waiting texts. -/
def dispatch (c : Conversion) : Conversion :=
  let (_, queue, dictionary) := c.queue.dispatch c.dictionary
  { c with queue := queue, dictionary := dictionary }

/-- Changes the report. -/
def updateReport (c : Conversion) (f : Report → Report) : Conversion :=
  { c with report := f c.report }

/-- Copies a tree. -/
def copy (p : Project) (c : Conversion) (path : Path) (tree : FileTree) :
    Conversion × Option RunError :=
  match c.place (p.placeInCopy path) tree with
  | .error e => (c, some e)
  | .ok c => (c.updateReport fun r => { r with copied := r.copied + tree.fileCount }, none)

/-- Makes a directory with the missing ones above it. -/
def makeDirectory (c : Conversion) (path : Path) : Conversion × Option RunError :=
  let (files, fault) := c.files.makeDirectories path
  ({ c with files := files }, fault.map .fault)

/-- Records the texts of a localized file, writes it, and counts it. -/
def write (p : Project) (c : Conversion) (path : Path) (r : Localized) (count : Report → Report) :
    Conversion × Option RunError :=
  let c := c.record r.found
  match c.place (p.placeInCopy path) (.file (.text r.output)) with
  | .error e => (c, some e)
  | .ok c => ((c.updateReport count).dispatch, none)

/-- Carries out one task. -/
def perform (p : Project) (style : Style) (c : Conversion) : Task → Conversion × Option RunError
  | .enter path => c.makeDirectory (p.placeInCopy path)
  | .copy path tree => copy p c path tree
  | .script path source =>
    match Script.localizeScript style.bindings style.mergeLocale source with
    | .ok r => write p c path r fun r => { r with scripts := r.scripts + 1 }
    | .error _ => ((c.updateReport fun r => { r with failed := r.failed ++ [path] }).dispatch, none)
  | .template path source depth =>
    match Template.localizeTemplate style.bindings (some (style.bindings.modulePath depth)) source with
    | .ok r => write p c path r fun r => { r with templates := r.templates + 1 }
    | .error _ =>
      match copy p (c.updateReport fun r => { r with copiedTemplates := r.copiedTemplates ++ [path] })
          path (.file (.text source)) with
      | (c, some e) => (c, some e)
      | (c, none) => (c.dispatch, none)

/-- Carries out tasks until one fails. -/
def performAll (p : Project) (style : Style) (c : Conversion) :
    List Task → Conversion × Option RunError
  | [] => (c, none)
  | task :: tasks =>
    match perform p style c task with
    | (c, some e) => (c, some e)
    | (c, none) => performAll p style c tasks

/-- Converts a project: makes the destination, and carries out the tasks for what the root holds
then. -/
def carryOut (p : Project) (style : Style) (c : Conversion) : Conversion × Option RunError :=
  match c.makeDirectory p.destination with
  | (c, some e) => (c, some e)
  | (c, none) =>
    match c.files.find p.root with
    | .error fault => (c, some (.fault fault))
    | .ok tree => performAll p style c (p.tasks tree)

/-- The project and the report in a diagnostic. -/
def describe (p : Project) (c : Conversion) : Text :=
  let paths (ps : List Path) : Text :=
    '[' :: Text.joinWith ", ".toList (ps.map Path.quoted) ++ [']']
  let number (n : Nat) : Text := (toString n).toList
  "Processor \x7b root: ".toList ++ p.root.quoted ++ ", report: RunReport \x7b scripts: ".toList ++
    number c.report.scripts ++ ", templates: ".toList ++ number c.report.templates ++
    ", copied: ".toList ++ number c.report.copied ++ ", failed: ".toList ++ paths c.report.failed ++
    ", copied_templates: ".toList ++ paths c.report.copiedTemplates ++ " \x7d \x7d".toList

end Conversion

end Phrasebook
