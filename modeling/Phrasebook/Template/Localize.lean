import Phrasebook.Markup.Nesting
import Phrasebook.Template.Segment

/-!
Localizing templates: the document is written out again with its texts and attribute values
localized. Names lose the mark `wx-`, some elements without content close themselves, and the
contents of raw text elements and of comments stay as they are.
-/

namespace Phrasebook.Template

open Markup

/-- Elements that close themselves when they have no content. -/
def selfClosingNames : List Text :=
  ["progress", "icon", "checkbox", "input", "radio", "slider", "switch", "textarea", "live-player",
   "live-pusher", "import", "include", "template"].map String.toList

/-- The name under which an element is written. -/
def writtenName (name : Text) : Text := (Text.dropLeading? "wx-".toList name).getD name

/-- Writes a double quote as a character reference. -/
def escapeQuotes (t : Text) : Text := t.flatMap fun c => if c = '"' then "&quot;".toList else [c]

/-- An attribute value in quotes. Only a value with double and without single quotes is written in
single quotes; one with both kinds has its double quotes escaped. -/
def quoteValue (value : Text) : Text :=
  if '"' ∈ value then
    if '\'' ∈ value then '"' :: escapeQuotes value ++ ['"'] else '\'' :: value ++ ['\'']
  else '"' :: value ++ ['"']

/-- Writes an attribute. -/
def attributeForm (b : Bindings) (a : Attribute) : Localized :=
  match a.value with
  | none => .plain (' ' :: a.name)
  | some value =>
    let value := localizeText b value
    ⟨' ' :: a.name ++ '=' :: quoteValue value.output, value.found⟩

/-- Writes the attributes of a tag. -/
def attributesForm (b : Bindings) (attributes : List Attribute) : Localized :=
  .concat (attributes.map (attributeForm b))

mutual

/-- Writes a node; `raw` says whether it stands in a raw text element. -/
def nodeForm (b : Bindings) (raw : Bool) : Node → Localized
  | .text data => if raw then .plain data else localizeText b data
  | .comment data => .plain ("<!--".toList ++ data ++ "-->".toList)
  | .element tag children =>
    let name := writtenName tag.name
    let start := .plain ('<' :: name) ++ attributesForm b tag.attributes
    if children.isEmpty && selfClosingNames.contains name then start ++ .plain " />".toList
    else
      start ++ .plain ['>'] ++ nodesForm b (isRaw name) children ++
        .plain ("</".toList ++ name ++ ['>'])

/-- Writes a row of nodes. -/
def nodesForm (b : Bindings) (raw : Bool) : List Node → Localized
  | [] => .plain []
  | n :: ns => nodeForm b raw n ++ nodesForm b raw ns

end

/-- Whether a document refers to the look-up module by itself, at its top level. -/
def declaresModule (b : Bindings) (d : Document) : Bool :=
  (d.children.filterMap Node.tag?).any fun tag =>
    tag.name == "wxs".toList && tag.attribute? "module".toList == some b.receiver

/-- Writes a document; with a module path it gets a reference to the module unless it has one. -/
def documentForm (b : Bindings) (modulePath : Option Text) (d : Document) : Localized :=
  let body := nodesForm b false d.children
  match modulePath with
  | some path =>
    if declaresModule b d then body else .plain (b.moduleReference path ++ ['\n']) ++ body
  | none => body

/-- Localizes a template. -/
def localizeTemplate (b : Bindings) (modulePath : Option Text) (source : Text) :
    Except Unterminated Localized :=
  (parse source).map (documentForm b modulePath)

end Phrasebook.Template
