import Phrasebook.Markup.Event

/-!
Nesting: the document that a sequence of events builds. Elements that are open wait on a stack; an
end tag closes the innermost open element of its name together with everything opened inside it, and
an end tag without such an element changes nothing. What is still open at the end is closed there.
-/

namespace Phrasebook.Markup

/-- An element that is still open, with the children it has so far. -/
structure OpenElement where
  tag : Tag
  children : List Node
  deriving Repr

namespace OpenElement

/-- Adds nodes after the children so far. -/
def add (e : OpenElement) (nodes : List Node) : OpenElement :=
  { e with children := e.children ++ nodes }

/-- The finished element. -/
def close (e : OpenElement) : Node := .element e.tag e.children

end OpenElement

/-- A document under construction. -/
structure Builder where
  /-- Open elements, innermost first. -/
  opened : List OpenElement
  /-- Finished top-level nodes. -/
  roots : List Node
  deriving Repr

namespace Builder

/-- A document without any node. -/
def start : Builder := ⟨[], []⟩

/-- Adds nodes to the innermost open element, or to the top level if none is open. -/
def addNodes (b : Builder) (nodes : List Node) : Builder :=
  match b.opened with
  | [] => { b with roots := b.roots ++ nodes }
  | e :: outer => { b with opened := e.add nodes :: outer }

/-- Closes open elements from the innermost one outwards up to the first of this name; `closed` are
the nodes that closing has produced so far. -/
def closeThrough (name : Text) (roots : List Node) : List OpenElement → List Node → Builder
  | [], closed => ⟨[], roots ++ closed⟩
  | e :: outer, closed =>
    let node := (e.add closed).close
    if Text.eqIgnoringCase e.tag.name name then (Builder.mk outer roots).addNodes [node]
    else closeThrough name roots outer [node]

/-- Handles an end tag. -/
def closeTag (b : Builder) (name : Text) : Builder :=
  if isVoid name then b
  else if b.opened.any fun e => Text.eqIgnoringCase e.tag.name name then
    closeThrough name b.roots b.opened []
  else b

/-- The step of one event. -/
def step (b : Builder) : Event → Builder
  | .opening tag => { b with opened := ⟨tag, []⟩ :: b.opened }
  | .empty tag => b.addNodes [.element tag []]
  | .raw tag content =>
    b.addNodes [.element tag (if content.isEmpty then [] else [.text content])]
  | .closing name => b.closeTag name
  | .text data => b.addNodes [.text data]
  | .comment data => b.addNodes [.comment data]

/-- Closes open elements from the innermost one outwards; the result are the top-level nodes. -/
def closeAll (roots : List Node) : List OpenElement → List Node → List Node
  | [], closed => roots ++ closed
  | e :: outer, closed => closeAll roots outer [(e.add closed).close]

/-- The document, with every open element closed. -/
def finish (b : Builder) : Document := ⟨closeAll b.roots b.opened []⟩

end Builder

/-- The document that a sequence of events builds. -/
def Document.ofEvents (es : List Event) : Document := (es.foldl Builder.step Builder.start).finish

/-- Parses markup. -/
def parse (t : Text) : Except Unterminated Document := (events t).map Document.ofEvents

end Phrasebook.Markup
