import Phrasebook.Text.Basic

/-!
Faults of file operations, with the words that the system has for them.
-/

namespace Phrasebook

/-- Why a file operation fails. -/
inductive Fault where
  /-- A name on the way, or the last one, does not exist. -/
  | notFound
  /-- A name on the way is that of a file. -/
  | notADirectory
  /-- There is something already where something new should go. -/
  | alreadyExists
  /-- A directory stands where a file is read. -/
  | isADirectory
  /-- A file is not a text. -/
  | invalidText
  deriving DecidableEq, Repr

/-- The system's words for a fault. -/
def Fault.message : Fault → Text
  | .notFound => "No such file or directory (os error 2)".toList
  | .notADirectory => "Not a directory (os error 20)".toList
  | .alreadyExists => "File exists (os error 17)".toList
  | .isADirectory => "Is a directory (os error 21)".toList
  | .invalidText => "stream did not contain valid UTF-8".toList

end Phrasebook
