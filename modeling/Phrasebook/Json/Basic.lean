import Phrasebook.Dictionary.Basic

/-!
JSON documents and their indented form: four spaces for each level, one entry a line, and an empty
object or array on one line. In strings only quotes, backslashes and control characters are escaped.
-/

namespace Phrasebook

/-- A JSON document. A number is kept as it is written, and an object keeps the order of its
fields. -/
inductive Json where
  | null
  | bool (value : Bool)
  | number (digits : Text)
  | string (value : Text)
  | array (items : List Json)
  | object (fields : List (Text × Json))
  deriving Repr

namespace Json

/-- Four hexadecimal digits of a number below 65536. -/
def fourHexDigits (n : Nat) : Text :=
  [n / 4096 % 16, n / 256 % 16, n / 16 % 16, n % 16].map Nat.digitChar

/-- How a string shows a character. -/
def escapeChar (c : Char) : Text :=
  if c = '"' then "\\\"".toList
  else if c = '\\' then "\\\\".toList
  else if c = '\n' then "\\n".toList
  else if c = '\r' then "\\r".toList
  else if c = '\t' then "\\t".toList
  else if c.toNat = 8 then "\\b".toList
  else if c.toNat = 12 then "\\f".toList
  else if c.toNat < 0x20 then "\\u".toList ++ fourHexDigits c.toNat
  else [c]

/-- A string in quotes. -/
def quote (t : Text) : Text := '"' :: t.flatMap escapeChar ++ ['"']

/-- A line break and the indentation of a level. -/
def newline (level : Nat) : Text := '\n' :: List.replicate (4 * level) ' '

mutual

/-- The indented form of a document that stands at a level. -/
def pretty (level : Nat) : Json → Text
  | .null => "null".toList
  | .bool value => if value then "true".toList else "false".toList
  | .number digits => digits
  | .string value => quote value
  | .array [] => "[]".toList
  | .array (item :: items) =>
    '[' :: newline (level + 1) ++ pretty (level + 1) item ++ prettyItems (level + 1) items ++
      newline level ++ [']']
  | .object [] => "\x7b\x7d".toList
  | .object (field :: fields) =>
    '{' :: newline (level + 1) ++ quote field.1 ++ ": ".toList ++ pretty (level + 1) field.2 ++
      prettyFields (level + 1) fields ++ newline level ++ ['}']

/-- The items after the first one. -/
def prettyItems (level : Nat) : List Json → Text
  | [] => []
  | item :: items => ',' :: newline level ++ pretty level item ++ prettyItems level items

/-- The fields after the first one. -/
def prettyFields (level : Nat) : List (Text × Json) → Text
  | [] => []
  | field :: fields =>
    ',' :: newline level ++ quote field.1 ++ ": ".toList ++ pretty level field.2 ++
      prettyFields level fields

end

/-- The values of one locale as a document. -/
def ofTable (t : Table Text) : Json := .object (t.entries.map fun (k, v) => (k, .string v))

/-- The tables of all locales as a document. -/
def ofTables (ts : LocaleTables) : Json := .object (ts.entries.map fun (k, t) => (k, ofTable t))

end Json

/-- The indented form of the tables of all locales. -/
def LocaleTables.prettyJson (ts : LocaleTables) : Text := (Json.ofTables ts).pretty 0

/-- The indented form of the values of one locale. -/
def Dictionary.prettyJson (d : Dictionary) (locale : Text) : Text :=
  (Json.ofTable ((d.table? locale).getD Table.empty)).pretty 0

end Phrasebook
