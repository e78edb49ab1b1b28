import Phrasebook.Project.Layout

/-!
The tasks of a conversion: what is to be done with each entry of a project, in the order of the walk.
Directories come before what is in them, and entries go by their names. Hidden entries are left out
at the root and in converted directories, and kept in what is copied.
-/

namespace Phrasebook

/-- One thing to do; its path is that of the source. -/
inductive Task where
  /-- Make the directory. -/
  | enter (path : Path)
  /-- Copy a file, or a directory with all that is in it. -/
  | copy (path : Path) (tree : FileTree)
  /-- Convert a script. -/
  | script (path : Path) (source : Text)
  /-- Convert a template that lies `depth` directories below the root. -/
  | template (path : Path) (source : Text) (depth : Nat)
  deriving Repr

namespace Project

/-- Names that start with a dot are hidden. -/
def isHidden (name : Text) : Bool := name.head? == some '.'

/-- What is done with a file: scripts and templates are converted if they are texts and not
ignored. -/
def fileTask (p : Project) (path : Path) (depth : Nat) (content : Content) : Task :=
  if p.ignores path then .copy path (.file content)
  else match content with
    | .bytes _ => .copy path (.file content)
    | .text source =>
      if path.extension? = some "js".toList then .script path source
      else if path.extension? = some "wxml".toList then .template path source depth
      else .copy path (.file content)

mutual

/-- The tasks for a converted entry in a directory `depth` levels below the root. -/
def convertTasks (p : Project) (path : Path) (depth : Nat) : FileTree → List Task
  | .file content => [p.fileTask path depth content]
  | .directory es =>
    if p.ignores path then [.copy path (.directory es)]
    else .enter path :: entryTasks p path (depth + 1) es

/-- The tasks for the entries of a converted directory. -/
def entryTasks (p : Project) (directory : Path) (depth : Nat) : List (Text × FileTree) → List Task
  | [] => []
  | e :: es =>
    (if isHidden e.1 then [] else convertTasks p (directory.child e.1) depth e.2) ++
      entryTasks p directory depth es

end

/-- The tasks for an entry of the root. -/
def rootTasks (p : Project) (e : Text × FileTree) : List Task :=
  let path := p.root.child e.1
  if isHidden e.1 then []
  else if p.converts path then p.convertTasks path 0 e.2
  else [.copy path e.2]

/-- The tasks for a whole project. -/
def tasks (p : Project) (tree : FileTree) : List Task := tree.entries.flatMap p.rootTasks

end Project

end Phrasebook
