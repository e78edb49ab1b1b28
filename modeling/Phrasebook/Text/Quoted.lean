import Phrasebook.Text.Printable

/-!
Quoted texts for diagnostics: a text in double quotes, in which quotes, backslashes and characters
that cannot be shown are escaped. A code point is written in braces with as few hexadecimal digits
as it takes.
-/

namespace Phrasebook.Text

/-- The hexadecimal digits of a number, in lower case. -/
def hexDigits (n : Nat) : Text := Nat.toDigits 16 n

/-- How a quoted text shows a character. -/
def quoteChar (c : Char) : Text :=
  if c = '"' then "\\\"".toList
  else if c = '\\' then "\\\\".toList
  else if c = '\n' then "\\n".toList
  else if c = '\r' then "\\r".toList
  else if c = '\t' then "\\t".toList
  else if c.toNat = 0 then "\\0".toList
  else if extendsGrapheme c || !isPrintable c then
    "\\u\x7b".toList ++ hexDigits c.toNat ++ "\x7d".toList
  else [c]

/-- A text in quotes. -/
def quoted (t : Text) : Text := '"' :: t.flatMap quoteChar ++ ['"']

end Phrasebook.Text
