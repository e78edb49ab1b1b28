import Phrasebook.FileTree.Changes
import Phrasebook.Run

/-!
The command as a program. It reads the part of the disk that a run looks at into a file tree, runs
the command on it, writes the changes back, and prints. Requests to services are not sent
from here: every one of them counts as failed.
-/

namespace Phrasebook.Disk

/-- The spelling of a place on the disk. -/
def pathText (place : Location) : String := Text.render ('/' :: Text.joinWith ['/'] place)

/-- The content that bytes stand for. -/
def contentOf (data : ByteArray) : Content :=
  match String.fromUTF8? data with
  | some s => .text s.toList
  | none => .bytes data.toList

/-- Reads a file, or a directory with all that is in it. -/
partial def loadAll (path : String) : IO (Option FileTree) := do
  let here := (← IO.currentDir) / path
  if ← here.isDir then
    let mut es := []
    for e in ← here.readDir do
      match ← loadAll (path ++ "/" ++ e.fileName) with
      | some t => es := FileTree.setEntry e.fileName.toList t es
      | none => pure ()
    return some (.directory es)
  else if ← here.pathExists then
    return some (.file (contentOf (← IO.FS.readBinFile here)))
  else
    return none

/-- Reads a file, or a directory with the names that are in it. -/
def loadNames (path : String) : IO (Option FileTree) := do
  let here := (← IO.currentDir) / path
  if ← here.isDir then
    let es ← here.readDir
    return some (.directory (es.foldl (fun es e =>
      FileTree.setEntry e.fileName.toList (.file (.text [])) es) []))
  else loadAll path

/-- Adds what the names of an absolute path lead to, as far as it exists and is not known yet. -/
def mount (load : String → IO (Option FileTree)) (tree : FileTree) (place : Location) :
    List Text → IO FileTree
  | [] =>
    match tree.get? place with
    | some (.directory (_ :: _)) | some (.file _) => return tree
    | _ => do
      match ← load (pathText place) with
      | some t => return tree.put t place
      | none => return tree
  | name :: rest => do
    match tree.get? place with
    | some (.directory _) => mount load tree (FileTree.stepFrom place name) rest
    | some (.file _) => return tree
    | none =>
      let here := (← IO.currentDir) / pathText place
      if ← here.isDir then mount load (tree.put .empty place) (FileTree.stepFrom place name) rest
      else match ← load (pathText place) with
        | some t => return tree.put t place
        | none => return tree

/-- The part of the disk that a run with given settings looks at. -/
def filesFor (directory : Path) (s : CommandLine.Settings) : IO FileTree := do
  let root := Path.absolute directory s.source
  let tree ← mount loadAll .empty [] root.names
  let tree ← mount loadNames tree [] (Path.absolute directory s.destination).names
  let tree ← match s.variantTable with
    | some table => mount loadNames tree [] (directory.join table).names
    | none => pure tree
  s.includePaths.foldlM (fun tree entry => mount loadNames tree [] (root.join ⟨entry⟩).names) tree

/-- Writes changes to the disk. -/
def applyChanges (changes : List (Location × Option Content)) : IO Unit :=
  changes.forM fun (place, content) => do
    match content with
    | none => IO.FS.createDirAll (pathText place)
    | some content =>
      IO.FS.createDirAll (pathText place.dropLast)
      match content with
      | .text t => IO.FS.writeFile (pathText place) (Text.render t)
      | .bytes data => IO.FS.writeBinFile (pathText place) ⟨data.toArray⟩

end Phrasebook.Disk

open Phrasebook in
def main (args : List String) : IO UInt32 := do
  let arguments := args.map String.toList
  let directory : Path := ⟨(← IO.currentDir).toString.toList⟩
  let before ← match CommandLine.Settings.ofArguments arguments with
    | .ok s => Disk.filesFor directory s
    | .error _ => pure FileTree.empty
  let key ← IO.getEnv (Text.render Google.keyVariable)
  let outcome := command directory before (key.map String.toList) Transport.offline arguments
  Disk.applyChanges (FileTree.changes before outcome.files)
  IO.print (Text.render outcome.stdout)
  IO.eprint (Text.render outcome.stderr)
  return outcome.status.toUInt32
