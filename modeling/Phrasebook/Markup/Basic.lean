import Phrasebook.Text.Blank

/-!
Documents of a page's markup: elements with attributes, texts and comments. Nothing is interpreted;
a document keeps names, values and data as they are written.
-/

namespace Phrasebook.Markup

/-- An attribute; one without a value is written as its name alone. -/
structure Attribute where
  name : Text
  value : Option Text
  deriving DecidableEq, Repr

/-- What a start tag says: a name and attributes in order, repeated names included. -/
structure Tag where
  name : Text
  attributes : List Attribute
  deriving DecidableEq, Repr

/-- A node of a document. -/
inductive Node where
  | element (tag : Tag) (children : List Node)
  | text (data : Text)
  | comment (data : Text)
  deriving Repr

/-- A document is the list of its top-level nodes. -/
structure Document where
  children : List Node
  deriving Repr

namespace Tag

/-- Whether an attribute of this name is written, with or without a value. -/
def hasAttribute (tag : Tag) (name : Text) : Bool := tag.attributes.any (·.name == name)

/-- The value of the first attribute of this name. -/
def attribute? (tag : Tag) (name : Text) : Option Text :=
  (tag.attributes.find? (·.name == name)).bind (·.value)

end Tag

namespace Node

/-- The tag of an element. -/
def tag? : Node → Option Tag
  | .element tag _ => some tag
  | _ => none

end Node

/-- Elements that never have content: a start tag closes them and their end tag is skipped. -/
def voidNames : List Text :=
  ["area", "base", "basefont", "br", "col", "command", "embed", "frame", "hr", "image", "img",
   "input", "isindex", "keygen", "link", "meta", "param", "source", "track", "wbr"].map
    String.toList

/-- Elements whose content is one text, taken as it stands up to the end tag. -/
def rawNames : List Text := ["script", "style", "wxs"].map String.toList

/-- Whether a name, in any case, is one of an element without content. -/
def isVoid (name : Text) : Bool := voidNames.any (Text.eqIgnoringCase name)

/-- Whether a name, in any case, is one of an element with raw content. -/
def isRaw (name : Text) : Bool := rawNames.any (Text.eqIgnoringCase name)

end Phrasebook.Markup
