import Phrasebook.Script.Trivia

/-!
Syntax trees of scripts. A tree is lossless: the leaves hold every character of the source, each
token together with the gap before it, so the source of a tree is the concatenation of its leaves.
A node says of what kind it is and which role it plays in its parent.

Operators are kept in one flat row: which of two operators binds tighter does not matter to anything
that looks at these trees.
-/

namespace Phrasebook.Script

/-- The role of a tree in its parent. -/
inductive Role where
  | part
  | callee
  | arguments
  | object
  | property
  | key
  | value
  | name
  | source
  /-- A place that is assigned to or bound. -/
  | target
  deriving DecidableEq, Repr

/-- The kinds of leaves and nodes. -/
inductive Kind where
  /-- Keywords, operators and punctuation. -/
  | mark
  | identifier
  | undefined
  | propertyName
  | privateName
  | literal
  | number
  /-- The plain part of a string literal. -/
  | fragment
  | escape
  | reference
  | plainText
  | shorthand
  | program
  | block
  | statement
  | declarator
  | exportStatement
  | exportSpecifier
  | namespaceExport
  | importStatement
  | importSpecifier
  | clause
  | string
  | template
  | substitution
  | regex
  | object
  | pair
  | shorthandDefault
  | method
  | spread
  | array
  | parenthesized
  | parameters
  | function
  | arrow
  | classExpression
  | classBody
  | field
  | decorator
  | computedName
  | call
  | arguments
  | construction
  | member
  | subscript
  | assignment
  | update
  | unary
  | operation
  | sequence
  | element
  | elementAttribute
  deriving DecidableEq, Repr

/-- A syntax tree. -/
inductive Tree where
  | leaf (role : Role) (kind : Kind) (gap : Gap) (text : Text)
  | node (role : Role) (kind : Kind) (children : List Tree)
  deriving Repr

namespace Tree

/-- The role of a tree in its parent. -/
def role : Tree → Role
  | .leaf role _ _ _ => role
  | .node role _ _ => role

/-- The kind of a tree. -/
def kind : Tree → Kind
  | .leaf _ kind _ _ => kind
  | .node _ kind _ => kind

/-- The children of a tree. -/
def children : Tree → List Tree
  | .leaf .. => []
  | .node _ _ children => children

/-- The same tree in another role. -/
def withRole (role : Role) : Tree → Tree
  | .leaf _ kind gap text => .leaf role kind gap text
  | .node _ kind children => .node role kind children

mutual

/-- The source text of a tree, with the gap before its first token. -/
def source : Tree → Text
  | .leaf _ _ gap text => gapText gap ++ text
  | .node _ _ children => sourceAll children

/-- The source text of a row of trees. -/
def sourceAll : List Tree → Text
  | [] => []
  | t :: ts => source t ++ sourceAll ts

end

mutual

/-- The gap before the first token of a tree. -/
def leadingGap : Tree → Gap
  | .leaf _ _ gap _ => gap
  | .node _ _ children => leadingGapAll children

/-- The gap before the first token of a row of trees. -/
def leadingGapAll : List Tree → Gap
  | [] => []
  | t :: _ => leadingGap t

end

/-- The source text of a tree without the gap before it. -/
def text (t : Tree) : Text := t.source.drop (gapText t.leadingGap).length

/-- The first child in a role. -/
def child? (t : Tree) (role : Role) : Option Tree := t.children.find? (·.role == role)

/-- Whether a tree is more than a keyword, an operator or punctuation. -/
def isNamed (t : Tree) : Bool := t.kind != .mark

/-- The first child that is more than punctuation. A markup comment before it hides it. -/
def firstNamed? (t : Tree) : Option Tree :=
  go (t.children.drop 1)
where
  go : List Tree → Option Tree
    | [] => none
    | c :: rest =>
      if c.leadingGap.any (·.kind == .markupComment) then none
      else if c.isNamed then some c
      else go rest

@[simp] theorem source_withRole (role : Role) (t : Tree) : (t.withRole role).source = t.source := by
  cases t <;> simp [withRole, source]

theorem sourceAll_append (ts us : List Tree) :
    sourceAll (ts ++ us) = sourceAll ts ++ sourceAll us := by
  induction ts with
  | nil => simp [sourceAll]
  | cons t ts ih => simp [sourceAll, ih]

end Tree

end Phrasebook.Script
