import Phrasebook.Script.Tree
import Phrasebook.Text.Units

/-!
The value of a string literal: its fragments and escape sequences as code units, read as a text.
Line continuations contribute nothing, and neither does an escape that names no character.
-/

namespace Phrasebook.Script

/-- The code units of a character. -/
def charUnits (n : Nat) : List Units.CodeUnit :=
  if n.isValidChar then Units.encodeChar (Char.ofNat n) else []

/-- The code units that an escape sequence stands for, given what follows the backslash. -/
def escapeUnits : Text → List Units.CodeUnit
  | [] => []
  | 'u' :: '{' :: rest => charUnits (Text.hexValue (rest.takeWhile Text.isHexDigit))
  | 'u' :: rest => [Text.hexValue rest]
  | 'x' :: rest => [Text.hexValue rest]
  | 'n' :: _ => [0x0A]
  | 't' :: _ => [0x09]
  | 'r' :: _ => [0x0D]
  | 'b' :: _ => [0x08]
  | 'f' :: _ => [0x0C]
  | 'v' :: _ => [0x0B]
  | c :: rest =>
    if '0' ≤ c ∧ c ≤ '7' then [Text.octalValue (c :: rest)]
    else if c = '\r' ∨ isLineBreak c then []
    else Units.encodeChar c

/-- The code units of one part of a string literal. -/
def partUnits : Tree → List Units.CodeUnit
  | .leaf _ .fragment _ text => Units.encode text
  | .leaf _ .escape _ text => escapeUnits (text.drop 1)
  | _ => []

/-- The value of a string literal. -/
def literalValue (literal : Tree) : Text :=
  Units.decodeLossy (literal.children.flatMap partUnits)

/-- The name of a property, whether it is written as a word or as a string. -/
def keyText (key : Tree) : Text :=
  if key.kind = .string then literalValue key else key.text

end Phrasebook.Script
