import Phrasebook.Text.Natural
import Phrasebook.Text.Units

/-!
Unicode escapes in source text. Dictionary keys are literal text, so generated source carries the
literal characters too: a run of escapes that spells natural characters only is replaced by those
characters. Every other run stays, so that no quote, backslash or line break appears.

A run whose first backslash is itself escaped, that is one with an odd number of backslashes before
it, stays as it is.
-/

namespace Phrasebook

/-- One unicode escape: four hexadecimal digits, or one to six in braces. -/
inductive Escape where
  | plain (digits : Text)
  | braced (digits : Text)
  deriving DecidableEq, Repr

namespace Escape

/-- How an escape is written. -/
def text : Escape → Text
  | .plain digits => '\\' :: 'u' :: digits
  | .braced digits => '\\' :: 'u' :: '{' :: digits ++ ['}']

/-- Reads the escape that a text starts with. -/
def read? : Text → Option (Escape × Text)
  | '\\' :: 'u' :: '{' :: rest =>
    let digits := rest.takeWhile Text.isHexDigit
    match rest.dropWhile Text.isHexDigit with
    | '}' :: after =>
      if 1 ≤ digits.length ∧ digits.length ≤ 6 then some (.braced digits, after) else none
    | _ => none
  | '\\' :: 'u' :: a :: b :: c :: d :: rest =>
    if [a, b, c, d].all Text.isHexDigit then some (.plain [a, b, c, d], rest) else none
  | _ => none

/-- The code units that an escape stands for; a braced escape has to name a character. -/
def units? : Escape → Option (List Units.CodeUnit)
  | .plain digits => some [Text.hexValue digits]
  | .braced digits =>
    let n := Text.hexValue digits
    if n.isValidChar then some (Units.encodeChar (Char.ofNat n)) else none

/-- Reads the longest run of escapes that a text starts with, at most `fuel` of them. -/
def readRun : Nat → Text → List Escape × Text
  | 0, t => ([], t)
  | fuel + 1, t =>
    match read? t with
    | none => ([], t)
    | some (e, rest) =>
      let (run, after) := readRun fuel rest
      (e :: run, after)

/-- How a run of escapes is written. -/
def runText (run : List Escape) : Text := run.flatMap text

/-- The characters that a run of escapes spells. -/
def decodeRun? (run : List Escape) : Option Text := do
  let units ← run.mapM units?
  Units.decode? units.flatten

/-- A run becomes its characters when all of them are natural, and stays otherwise. -/
def restoreRun (run : List Escape) : Text :=
  match decodeRun? run with
  | some t => if t.allNaturalChars then t else runText run
  | none => runText run

/-- Restores the runs of a text; `odd` says whether an odd number of backslashes stands before it.
Each step takes at least one character, so `fuel` may be the length of the text. -/
def normalizeFrom : Nat → Bool → Text → Text
  | 0, _, t => t
  | _ + 1, _, [] => []
  | fuel + 1, odd, c :: t =>
    match readRun (fuel + 1) (c :: t) with
    | ([], _) => c :: normalizeFrom fuel (c == '\\' && !odd) t
    | (run, rest) =>
      (if odd then runText run else restoreRun run) ++ normalizeFrom fuel false rest

end Escape

/-- Replaces each run of unicode escapes that spells natural characters by those characters. -/
def Text.normalizeEscapes (t : Text) : Text := Escape.normalizeFrom t.length false t

end Phrasebook
