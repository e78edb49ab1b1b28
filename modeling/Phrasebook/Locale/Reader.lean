import Phrasebook.Locale.Basic
import Phrasebook.Text.Blank

/-!
Reading locale codes. Subtags are separated by `-` or `_`, in any case. The sort of a subtag follows
from its length and its characters.
-/

namespace Phrasebook

namespace Subtag

/-- ASCII letters and digits. -/
def isAlphanumeric (c : Char) : Bool := Text.isAsciiLetter c || Text.isAsciiDigit c

/-- A subtag of ASCII letters and digits whose length lies between two bounds, in lower case. -/
def between? (least most : Nat) (s : Text) : Option Text :=
  if least ≤ s.length ∧ s.length ≤ most ∧ s.all isAlphanumeric = true then some (Text.lowerAscii s)
  else none

/-- Two or three letters. -/
def language? (s : Text) : Option Text :=
  if (s.length = 2 ∨ s.length = 3) ∧ s.all Text.isAsciiLetter = true then some (Text.lowerAscii s)
  else none

/-- Four letters, the first one in upper case. -/
def script? (s : Text) : Option Text :=
  if s.length = 4 ∧ s.all Text.isAsciiLetter = true then
    match Text.lowerAscii s with
    | c :: rest => some (c.toUpper :: rest)
    | [] => none
  else none

/-- Two letters in upper case, or three digits. -/
def region? (s : Text) : Option Text :=
  if s.length = 2 ∧ s.all Text.isAsciiLetter = true then some (s.map Char.toUpper)
  else if s.length = 3 ∧ s.all Text.isAsciiDigit = true then some s
  else none

/-- Five to eight letters or digits, or four that start with a digit. -/
def variant? (s : Text) : Option Text :=
  if s.length = 4 then if (s.take 1).all Text.isAsciiDigit then between? 4 4 s else none
  else between? 5 8 s

/-- The key of a keyword: a letter or digit, and a letter. -/
def keywordKey? : Text → Option Text
  | [a, b] =>
    if isAlphanumeric a && Text.isAsciiLetter b then some (Text.lowerAscii [a, b]) else none
  | _ => none

/-- The key of a field of a transformation: a letter and a digit. -/
def fieldKey? : Text → Option Text
  | [a, b] =>
    if Text.isAsciiLetter a && Text.isAsciiDigit b then some (Text.lowerAscii [a, b]) else none
  | _ => none

/-- Values of keywords and fields. The value `true` is left out. -/
def value? (s : Text) : Option (List Text) :=
  (between? 3 8 s).map fun v => if v = "true".toList then [] else [v]

end Subtag

/-- Why a code is not a locale. -/
inductive LocaleError where
  | invalidLanguage
  | invalidSubtag
  | invalidExtension
  | duplicatedExtension
  deriving DecidableEq, Repr

namespace LocaleError

/-- The reason in words. -/
def reason : LocaleError → String
  | .invalidLanguage => "The given language subtag is invalid"
  | .invalidSubtag => "Invalid subtag"
  | .invalidExtension => "Invalid extension"
  | .duplicatedExtension => "Duplicated extension"

end LocaleError

namespace Locale

open Subtag

/-- Inserts into an increasing list; nothing if the text is there already. -/
def insertNew? (s : Text) : List Text → Option (List Text)
  | [] => some [s]
  | t :: ts =>
    if s = t then none
    else if Text.blt s t then some (s :: t :: ts)
    else (insertNew? s ts).map (t :: ·)

/-- Inserts a keyword in the order of the keys; the first of two keywords with one key counts. -/
def insertKeyword (k : Keyword) : List Keyword → List Keyword
  | [] => [k]
  | j :: js =>
    if k.key = j.key then j :: js
    else if Text.blt k.key j.key then k :: j :: js
    else j :: insertKeyword k js

/-- Reads variants, each at most once. -/
def readVariants (seen : List Text) : List Text → Except LocaleError (List Text × List Text)
  | [] => .ok (seen, [])
  | s :: rest =>
    match variant? s with
    | none => .ok (seen, s :: rest)
    | some v =>
      match insertNew? v seen with
      | some seen => readVariants seen rest
      | none => .error .invalidSubtag

/-- Takes the first subtag if it is of the given sort. -/
def takeSubtag (sort : Text → Option Text) : List Text → Option Text × List Text
  | [] => (none, [])
  | s :: rest =>
    match sort s with
    | some t => (some t, rest)
    | none => (none, s :: rest)

/-- Reads the subtags of a language and leaves what cannot belong to it. -/
def readLanguageId : List Text → Except LocaleError (LanguageId × List Text)
  | [] => .error .invalidLanguage
  | s :: rest =>
    match language? s with
    | none => .error .invalidLanguage
    | some language => do
      let (script, rest) := takeSubtag script? rest
      let (region, rest) := takeSubtag region? rest
      let (variants, rest) ← readVariants [] rest
      .ok (⟨language, script, region, variants⟩, rest)

/-- Reads attributes: three to eight letters or digits, kept in order and at most once. -/
def readAttributes (seen : List Text) : List Text → List Text × List Text
  | [] => (seen, [])
  | s :: rest =>
    match between? 3 8 s with
    | some a => readAttributes ((insertNew? a seen).getD seen) rest
    | none => (seen, s :: rest)

/-- Reads the values of a keyword. -/
def readValues : List Text → List Text × List Text
  | [] => ([], [])
  | s :: rest =>
    match value? s with
    | some v =>
      let (values, rest) := readValues rest
      (v ++ values, rest)
    | none => ([], s :: rest)

/-- Reads keywords: a key and any number of values. `fuel` bounds their number. -/
def readKeywords : Nat → List Keyword → List Text → Except LocaleError (List Keyword × List Text)
  | 0, seen, rest => .ok (seen, rest)
  | _ + 1, seen, [] => .ok (seen, [])
  | fuel + 1, seen, s :: rest =>
    if s.byteSize = 2 then
      match keywordKey? s with
      | none => .error .invalidExtension
      | some key =>
        let (values, rest) := readValues rest
        readKeywords fuel (insertKeyword ⟨key, values⟩ seen) rest
    else .ok (seen, s :: rest)

/-- Reads the fields of a transformation; each key has at least one value. -/
def readFields : Nat → List Keyword → List Text → Except LocaleError (List Keyword × List Text)
  | 0, seen, rest => .ok (seen, rest)
  | _ + 1, seen, [] => .ok (seen, [])
  | fuel + 1, seen, s :: rest =>
    match fieldKey? s with
    | none => .ok (seen, s :: rest)
    | some key =>
      if (rest.take 1).any fun v => (value? v).isSome then
        let (values, rest) := readValues rest
        readFields fuel (insertKeyword ⟨key, values⟩ seen) rest
      else .error .invalidExtension

/-- Reads attributes and keywords, of which there is at least one. -/
def readUnicode (e : Extensions) (rest : List Text) :
    Except LocaleError (Extensions × List Text) := do
  let (attributes, rest) := readAttributes [] rest
  let (keywords, rest) ← readKeywords (rest.length + 1) [] rest
  if attributes.isEmpty && keywords.isEmpty then .error .invalidExtension
  else .ok ({ e with attributes := attributes, keywords := keywords }, rest)

/-- Reads a transformation: a language or fields, or both. -/
def readTransform (e : Extensions) (rest : List Text) :
    Except LocaleError (Extensions × List Text) := do
  let (language, rest) ←
    if (rest.take 1).any fun s => (language? s).isSome then do
      let (id, rest) ← readLanguageId rest
      .ok (some id, rest)
    else .ok (none, rest)
  let (fields, rest) ← readFields (rest.length + 1) [] rest
  if language.isNone && fields.isEmpty then .error .invalidExtension
  else .ok ({ e with transformLanguage := language, transformFields := fields }, rest)

/-- Reads private subtags up to the end. -/
def readPrivate (e : Extensions) (rest : List Text) :
    Except LocaleError (Extensions × List Text) :=
  match rest.mapM (between? 1 8) with
  | some tags =>
    if tags.isEmpty then .error .invalidExtension else .ok ({ e with privateTags := tags }, [])
  | none => .error .invalidExtension

/-- Reads the subtags of another extension, two to eight bytes each. One that holds anything but
letters and digits is passed over. -/
def readOtherTags : List Text → List Text × List Text
  | [] => ([], [])
  | s :: rest =>
    if 2 ≤ s.byteSize ∧ s.byteSize ≤ 8 then
      let (tags, rest) := readOtherTags rest
      ((between? 2 8 s).toList ++ tags, rest)
    else ([], s :: rest)

/-- Inserts another extension in the order of the letters. -/
def insertOther (o : Char × List Text) : List (Char × List Text) → List (Char × List Text)
  | [] => [o]
  | p :: ps => if o.1.toNat < p.1.toNat then o :: p :: ps else p :: insertOther o ps

/-- Reads another extension. -/
def readOther (letter : Char) (e : Extensions) (rest : List Text) :
    Except LocaleError (Extensions × List Text) :=
  let (tags, rest) := readOtherTags rest
  if tags.isEmpty then .error .invalidExtension
  else .ok ({ e with others := insertOther (letter, tags) e.others }, rest)

/-- Whether an extension with this letter has been read. -/
def hasExtension (e : Extensions) (letter : Char) : Bool :=
  if letter = 'u' then !(e.attributes.isEmpty && e.keywords.isEmpty)
  else if letter = 't' then !(e.transformLanguage.isNone && e.transformFields.isEmpty)
  else if letter = 'x' then !e.privateTags.isEmpty
  else e.others.any (·.1 == letter)

/-- Reads the extension of a letter. -/
def readExtension (letter : Char) (e : Extensions) (rest : List Text) :
    Except LocaleError (Extensions × List Text) :=
  if hasExtension e letter then .error .duplicatedExtension
  else if letter = 'u' then readUnicode e rest
  else if letter = 't' then readTransform e rest
  else if letter = 'x' then readPrivate e rest
  else readOther letter e rest

/-- Reads extensions up to the end. -/
def readExtensions : Nat → Extensions → List Text → Except LocaleError Extensions
  | _, e, [] => .ok e
  | 0, e, _ :: _ => .ok e
  | fuel + 1, e, s :: rest =>
    match s with
    | [c] =>
      if Text.isAsciiLetter c then do
        let (e, rest) ← readExtension c.toLower e rest
        readExtensions fuel e rest
      else .error .invalidExtension
    | _ => .error .invalidExtension

/-- Reads the subtags of a code. -/
def ofSubtags (subtags : List Text) : Except LocaleError Locale := do
  let (id, rest) ← readLanguageId subtags
  match rest with
  | [] => .ok ⟨id, {}⟩
  | s :: _ =>
    if s.byteSize = 1 then do
      let extensions ← readExtensions (rest.length + 1) {} rest
      .ok ⟨id, extensions⟩
    else .error .invalidSubtag

/-- Reads a code. -/
def parse (code : Text) : Except LocaleError Locale :=
  ofSubtags (Text.splitOn (fun c => c == '-' || c == '_') code)

end Locale

end Phrasebook
