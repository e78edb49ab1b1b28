import Phrasebook.FileTree.Fault
import Phrasebook.Locale.Reader

/-!
Why a service gives no value or cannot be set up, and the check of locale codes that all services
share.
-/

namespace Phrasebook

/-- Why a service gives no value or cannot be set up. -/
inductive Failure where
  /-- A code that is no locale. -/
  | invalidLocale (detail : Text)
  /-- A missing key or a bad table. -/
  | configuration (detail : Text)
  /-- A request that cannot be sent or answered. -/
  | network
  /-- A text that a service refuses. -/
  | refusedText (detail : Text)
  /-- An answer that is not in the expected form. -/
  | malformedResponse (detail : Text)
  /-- A conversion table that cannot be read. -/
  | unreadableTable (fault : Fault)
  /-- A conversion table that is not an object of strings. -/
  | invalidTable
  deriving DecidableEq, Repr

namespace Failure

/-- The message of a failure. -/
def message : Failure → Text
  | .invalidLocale detail => "invalid locale: ".toList ++ detail
  | .configuration detail => "configuration error: ".toList ++ detail
  | .network => "network error: the request could not be sent".toList
  | .refusedText detail => "translation error: ".toList ++ detail
  | .malformedResponse detail => "malformed response: ".toList ++ detail
  | .unreadableTable fault => "failed to read conversion table: ".toList ++ fault.message
  | .invalidTable => "invalid conversion table: expected an object of strings".toList

end Failure

/-- Reads a locale code; a blank one is told apart from one with bad subtags. -/
def Locale.ofCode (code : Text) : Except Failure Locale :=
  if (Text.trim code).isEmpty then .error (.invalidLocale "locale code is empty".toList)
  else
    match Locale.parse code with
    | .ok l => .ok l
    | .error e => .error (.invalidLocale (code ++ ": ".toList ++ e.reason.toList))

end Phrasebook
