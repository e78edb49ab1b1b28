import Phrasebook.Json.Basic
import Phrasebook.Text.Units

/-!
Reading JSON. A document is one value with white space around it. A string may not hold control
characters, and a surrogate in an escape needs its partner.
-/

namespace Phrasebook.Json

/-- White space between tokens. -/
def isJsonBlank (c : Char) : Bool := c == ' ' || c == '\n' || c == '\t' || c == '\r'

/-- A text without the white space at its start. -/
def skipBlank (t : Text) : Text := t.dropWhile isJsonBlank

/-- Reads four hexadecimal digits. -/
def readHex? : Text → Option (Nat × Text)
  | a :: b :: c :: d :: rest =>
    if [a, b, c, d].all Text.isHexDigit then some (Text.hexValue [a, b, c, d], rest) else none
  | _ => none

/-- Reads what follows `\u`: a character, or a surrogate and the escape of its partner. -/
def readUnicodeEscape? (t : Text) : Option (Char × Text) :=
  match readHex? t with
  | none => none
  | some (high, rest) =>
    if Units.isLow high then none
    else if Units.isHigh high then
      match rest with
      | '\\' :: 'u' :: rest =>
        match readHex? rest with
        | some (low, rest) => if Units.isLow low then some (Units.pair high low, rest) else none
        | none => none
      | _ => none
    else some (Char.ofNat high, rest)

/-- Reads the character that an escape stands for, given what follows the backslash. -/
def readEscape? : Text → Option (Char × Text)
  | '"' :: t => some ('"', t)
  | '\\' :: t => some ('\\', t)
  | '/' :: t => some ('/', t)
  | 'b' :: t => some ('\x08', t)
  | 'f' :: t => some ('\x0c', t)
  | 'n' :: t => some ('\n', t)
  | 'r' :: t => some ('\r', t)
  | 't' :: t => some ('\t', t)
  | 'u' :: t => readUnicodeEscape? t
  | _ => none

/-- Reads a string after its opening quote. -/
def readString : Nat → Text → Option (Text × Text)
  | 0, _ => none
  | _ + 1, [] => none
  | fuel + 1, c :: t =>
    if c = '"' then some ([], t)
    else if c = '\\' then
      match readEscape? t with
      | none => none
      | some (d, rest) => (readString fuel rest).map fun (s, rest) => (d :: s, rest)
    else if c.toNat < 0x20 then none
    else (readString fuel t).map fun (s, rest) => (c :: s, rest)

/-- Length of the digits at the start of a text. -/
def digitCount (t : Text) : Nat := (t.takeWhile Text.isAsciiDigit).length

/-- Length of a fraction: zero without one, nothing if its digits are missing. -/
def fractionLength? : Text → Option Nat
  | '.' :: t => if digitCount t = 0 then none else some (1 + digitCount t)
  | _ => some 0

/-- Length of an exponent: zero without one, nothing if its digits are missing. -/
def exponentLength? : Text → Option Nat
  | e :: t =>
    if e = 'e' ∨ e = 'E' then
      let sign := match t with
        | '+' :: _ => 1
        | '-' :: _ => 1
        | _ => 0
      let n := digitCount (t.drop sign)
      if n = 0 then none else some (1 + sign + n)
    else some 0
  | [] => some 0

/-- Length of the number that a text starts with; no zero stands before another digit. -/
def numberLength? (t : Text) : Option Nat :=
  let sign := match t with
    | '-' :: _ => 1
    | _ => 0
  let digits := t.drop sign
  let n := digitCount digits
  let whole := match digits with
    | '0' :: _ => if n = 1 then some 1 else none
    | _ => if n = 0 then none else some n
  match whole with
  | none => none
  | some n =>
    match fractionLength? (digits.drop n) with
    | none => none
    | some f =>
      match exponentLength? (digits.drop (n + f)) with
      | none => none
      | some e => some (sign + n + f + e)

mutual

/-- Reads a value. -/
def readValue : Nat → Text → Option (Json × Text)
  | 0, _ => none
  | fuel + 1, t =>
    match skipBlank t with
    | '"' :: rest => (readString (rest.length + 1) rest).map fun (s, rest) => (.string s, rest)
    | '[' :: rest =>
      match skipBlank rest with
      | ']' :: rest => some (.array [], rest)
      | rest => (readItems fuel rest).map fun (items, rest) => (.array items, rest)
    | '{' :: rest =>
      match skipBlank rest with
      | '}' :: rest => some (.object [], rest)
      | rest => (readFields fuel rest).map fun (fields, rest) => (.object fields, rest)
    | 'n' :: 'u' :: 'l' :: 'l' :: rest => some (.null, rest)
    | 't' :: 'r' :: 'u' :: 'e' :: rest => some (.bool true, rest)
    | 'f' :: 'a' :: 'l' :: 's' :: 'e' :: rest => some (.bool false, rest)
    | rest => (numberLength? rest).map fun n => (.number (rest.take n), rest.drop n)

/-- Reads the items of an array up to its end. -/
def readItems : Nat → Text → Option (List Json × Text)
  | 0, _ => none
  | fuel + 1, t =>
    match readValue fuel t with
    | none => none
    | some (item, rest) =>
      match skipBlank rest with
      | ']' :: rest => some ([item], rest)
      | ',' :: rest => (readItems fuel rest).map fun (items, rest) => (item :: items, rest)
      | _ => none

/-- Reads the fields of an object up to its end. -/
def readFields : Nat → Text → Option (List (Text × Json) × Text)
  | 0, _ => none
  | fuel + 1, t =>
    match skipBlank t with
    | '"' :: rest =>
      match readString (rest.length + 1) rest with
      | none => none
      | some (key, rest) =>
        match skipBlank rest with
        | ':' :: rest =>
          match readValue fuel rest with
          | none => none
          | some (value, rest) =>
            match skipBlank rest with
            | '}' :: rest => some ([(key, value)], rest)
            | ',' :: rest =>
              (readFields fuel rest).map fun (fields, rest) => ((key, value) :: fields, rest)
            | _ => none
        | _ => none
    | _ => none

end

/-- Reads a document. -/
def parse? (t : Text) : Option Json :=
  match readValue (2 * t.length + 2) t with
  | some (value, rest) => if (skipBlank rest).isEmpty then some value else none
  | none => none

/-- The value of a string. -/
def string? : Json → Option Text
  | .string value => some value
  | _ => none

/-- A field whose value is a string. -/
def stringField? (field : Text × Json) : Option (Text × Text) :=
  field.2.string?.map fun s => (field.1, s)

/-- The fields of an object whose values are all strings; of two fields with the same name the later
one counts. -/
def stringTable? : Json → Option (Table Text)
  | .object fields => (fields.mapM stringField?).map Table.ofList
  | _ => none

end Phrasebook.Json
