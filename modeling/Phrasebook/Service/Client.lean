import Phrasebook.Dictionary.Basic
import Phrasebook.Service.Provider

/-!
The client tries a provider until it gives a value or the attempts are used up. Every failure counts,
whatever its cause, and in the end there is always a value: the empty text when no attempt succeeds.
-/

namespace Phrasebook

/-- A provider with the locale of the texts and the number of attempts, which is never zero. -/
structure Client where
  provider : Provider
  source : Text
  maxAttempts : Nat := 5
  positive : 1 ≤ maxAttempts := by decide

namespace Client

/-- The client with another number of attempts; zero counts as one. -/
def attemptingAtMost (c : Client) (n : Nat) : Client :=
  { c with maxAttempts := max n 1, positive := Nat.le_max_right n 1 }

/-- Takes answers until one is a value, at most `budget` of them. The result is the value and the
number of calls after it. -/
def firstSuccess (answer : Nat → Except Failure Text) : Nat → Nat → Text × Nat
  | 0, calls => ([], calls)
  | budget + 1, calls =>
    match answer calls with
    | .ok value => (value, calls + 1)
    | .error _ => firstSuccess answer budget (calls + 1)

/-- Translates a waiting text when `calls` calls have been made before. Attempts that were made
already count. -/
def translate (c : Client) (p : Pending) (calls : Nat) : Text × Nat :=
  firstSuccess (fun n => c.provider.answer n p.text c.source p.target.code)
    (c.maxAttempts - p.attempts) calls

/-- The client in a diagnostic. -/
def describe (c : Client) : Text :=
  "TranslationClient \x7b provider: ".toList ++ Text.quoted c.provider.name ++
    ", source_locale: ".toList ++ Text.quoted c.source ++
    ", max_attempts: ".toList ++ (toString c.maxAttempts).toList ++ " \x7d".toList

end Client

end Phrasebook
