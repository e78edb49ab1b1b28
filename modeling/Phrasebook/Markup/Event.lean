import Phrasebook.Markup.Basic

/-!
Markup as a sequence of events: start tags, end tags, texts, raw contents and comments, in the order
in which they are written.

Reading is forgiving: a `<` that opens nothing is text, and a stray `=` or `/` in a tag is skipped.
Only a construct whose end cannot be found is an error, which names the construct and the byte at
which it starts.
-/

namespace Phrasebook.Markup

/-- What can be left without an end. -/
inductive Construct where
  | comment
  | startTag
  | endTag
  | attributeValue
  | rawText
  deriving DecidableEq, Repr

namespace Construct

/-- The name of a construct in messages. -/
def label : Construct → String
  | .comment => "comment"
  | .startTag => "start tag"
  | .endTag => "end tag"
  | .attributeValue => "attribute value"
  | .rawText => "raw text element"

end Construct

/-- A construct that is opened at byte `offset` and never closed. -/
structure Unterminated where
  construct : Construct
  offset : Nat
  deriving DecidableEq, Repr

namespace Unterminated

/-- The message for a construct without an end. -/
def message (e : Unterminated) : String :=
  "unterminated " ++ e.construct.label ++ " starting at byte " ++ toString e.offset

end Unterminated

/-- One step of reading markup. -/
inductive Event where
  /-- A start tag whose element stays open. -/
  | opening (tag : Tag)
  /-- A start tag that closes itself, or one of an element without content. -/
  | empty (tag : Tag)
  /-- A raw text element with its content and its end tag. -/
  | raw (tag : Tag) (content : Text)
  | closing (name : Text)
  | text (data : Text)
  | comment (data : Text)
  deriving DecidableEq, Repr

/-! ## Where a tag or a comment starts -/

/-- Whether a start tag begins here: `<` and an ASCII letter. -/
def startTagHere : Text → Bool
  | '<' :: c :: _ => Text.isAsciiLetter c
  | _ => false

/-- Whether an end tag begins here: `</` and an ASCII letter. -/
def endTagHere : Text → Bool
  | '<' :: '/' :: c :: _ => Text.isAsciiLetter c
  | _ => false

/-- Whether a comment begins here. -/
def atComment (t : Text) : Bool := t.startsWith "<!--".toList

/-- Whether anything but text begins here. -/
def atMarkup (t : Text) : Bool := atComment t || endTagHere t || startTagHere t

/-- The text up to the next tag or comment, and what follows. -/
def spanText : Text → Text × Text
  | [] => ([], [])
  | c :: t =>
    if atMarkup (c :: t) then ([], c :: t)
    else
      let (data, rest) := spanText t
      (c :: data, rest)

/-- Characters of a tag name. -/
def isNameChar (c : Char) : Bool := !isBlank c && c != '/' && c != '>'

/-- Characters of an attribute name. -/
def isAttributeChar (c : Char) : Bool := !isBlank c && c != '=' && c != '>' && c != '/'

/-- Characters of an attribute value without quotes. -/
def isBareValueChar (c : Char) : Bool := !isBlank c && c != '>'

/-! ## Tags -/

/-- Reads the value after an attribute's `=`. -/
def readValue (total : Nat) : Text → Except Unterminated (Text × Text)
  | [] => .ok ([], [])
  | c :: t =>
    if c = '"' ∨ c = '\'' then
      match Text.splitAt? [c] t with
      | some (value, rest) => .ok (value, rest)
      | none => .error ⟨.attributeValue, total - Text.byteSize (c :: t)⟩
    else .ok ((c :: t).takeWhile isBareValueChar, (c :: t).dropWhile isBareValueChar)

/-- Reads an attribute. A stray character that starts no name is skipped. -/
def readAttribute (total : Nat) (t : Text) : Except Unterminated (Option Attribute × Text) :=
  let name := t.takeWhile isAttributeChar
  if name.isEmpty then .ok (none, t.drop 1)
  else
    let rest := t.dropWhile isAttributeChar
    match Text.trimStart rest with
    | '=' :: after => do
      let (value, rest) ← readValue total (Text.trimStart after)
      .ok (some ⟨name, some value⟩, rest)
    | after => .ok (some ⟨name, none⟩, after)

/-- Reads the attributes of a start tag and its end; `true` says that the tag closes itself.
`start` is the byte at which the tag begins. -/
def readAttributes (total start : Nat) :
    Nat → Text → Except Unterminated (List Attribute × Bool × Text)
  | 0, _ => .error ⟨.startTag, start⟩
  | fuel + 1, t =>
    match Text.trimStart t with
    | [] => .error ⟨.startTag, start⟩
    | '>' :: rest => .ok ([], false, rest)
    | '/' :: '>' :: rest => .ok ([], true, rest)
    | '/' :: rest => readAttributes total start fuel rest
    | after => do
      let (found, rest) ← readAttribute total after
      let (attributes, selfClosing, rest) ← readAttributes total start fuel rest
      .ok (found.toList ++ attributes, selfClosing, rest)

/-- Splits a text before the first place where `mark` stands, ignoring the case of ASCII letters. -/
def splitBeforeIgnoringCase? (mark : Text) : Text → Option (Text × Text)
  | [] => if mark.isEmpty then some ([], []) else none
  | c :: t =>
    if Text.startsWith (Text.lowerAscii ((c :: t).take mark.length)) mark then some ([], c :: t)
    else (splitBeforeIgnoringCase? mark t).map fun (before, rest) => (c :: before, rest)

/-- Reads the content of a raw text element up to and with its end tag. -/
def readRaw (total start : Nat) (name : Text) (t : Text) : Except Unterminated (Text × Text) :=
  match splitBeforeIgnoringCase? ('<' :: '/' :: Text.lowerAscii name) t with
  | none => .error ⟨.rawText, start⟩
  | some (content, rest) =>
    match Text.splitAt? ['>'] rest with
    | none => .error ⟨.endTag, total - Text.byteSize rest⟩
    | some (_, after) => .ok (content, after)

/-- Reads an element's start tag, and its content if that is raw. -/
def readElement (total : Nat) (t : Text) : Except Unterminated (Event × Text) := do
  let start := total - Text.byteSize t
  let inside := t.drop 1
  let name := inside.takeWhile isNameChar
  let rest := inside.dropWhile isNameChar
  let (attributes, selfClosing, rest) ← readAttributes total start (rest.length + 1) rest
  let tag : Tag := ⟨name, attributes⟩
  if selfClosing || isVoid name then .ok (.empty tag, rest)
  else if isRaw name then
    let (content, rest) ← readRaw total start name rest
    .ok (.raw tag content, rest)
  else .ok (.opening tag, rest)

/-- Reads an end tag. -/
def readEndTag (total : Nat) (t : Text) : Except Unterminated (Event × Text) :=
  let inside := t.drop 2
  match Text.splitAt? ['>'] (inside.dropWhile isNameChar) with
  | some (_, rest) => .ok (.closing (inside.takeWhile isNameChar), rest)
  | none => .error ⟨.endTag, total - Text.byteSize t⟩

/-- Reads a comment. -/
def readComment (total : Nat) (t : Text) : Except Unterminated (Event × Text) :=
  match Text.splitAt? "-->".toList (t.drop 4) with
  | some (data, rest) => .ok (.comment data, rest)
  | none => .error ⟨.comment, total - Text.byteSize t⟩

/-- Reads the event that a non-empty text starts with. -/
def readEvent (total : Nat) (t : Text) : Except Unterminated (Event × Text) :=
  if atComment t then readComment total t
  else if endTagHere t then readEndTag total t
  else if startTagHere t then readElement total t
  else
    let (data, rest) := spanText t
    .ok (.text data, rest)

/-- Reads all events of a text. Each takes at least one character, so the length of the text is
enough fuel. -/
def readEvents (total : Nat) : Nat → Text → Except Unterminated (List Event)
  | _, [] => .ok []
  | 0, _ :: _ => .ok []
  | fuel + 1, c :: t => do
    let (event, rest) ← readEvent total (c :: t)
    let events ← readEvents total fuel rest
    .ok (event :: events)

/-- The events of a text. -/
def events (t : Text) : Except Unterminated (List Event) := readEvents t.byteSize t.length t

end Phrasebook.Markup
