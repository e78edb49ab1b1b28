import Phrasebook.Script.Tree

/-!
Targets: what can be assigned to or bound. An object or array literal, a row in parentheses and the
arguments of a call are read before it is known whether they are values or targets; that is decided
by the `=` or `=>` that follows. A default in an object literal (`shorthandDefault`) makes sense in
a target only, which `Tree.resolved` checks on the whole tree.
-/

namespace Phrasebook.Script.Tree

mutual

/-- Whether a tree can be a target: a name, a property, or a literal made of targets. -/
def isTarget : Tree → Bool
  | .leaf _ kind _ _ => kind == .identifier || kind == .undefined
  | .node _ kind children =>
    match kind with
    | .member => true
    | .subscript => true
    | .object => areTargetParts children
    | .array => areTargetParts children
    | _ => false

/-- Whether a tree can stand in a row of targets: a target, one with a default, the rest of a row,
or punctuation. -/
def isTargetPart : Tree → Bool
  | .leaf _ kind _ _ =>
    kind == .mark || kind == .shorthand || kind == .identifier || kind == .undefined
  | .node _ kind children =>
    match kind with
    | .assignment => firstIsTarget children
    | .spread => lastIsTargetPart children
    | .pair => lastIsTargetPart children
    | .shorthandDefault => true
    | .member => true
    | .subscript => true
    | .object => areTargetParts children
    | .array => areTargetParts children
    | _ => false

/-- Whether all trees of a row can stand in a row of targets. -/
def areTargetParts : List Tree → Bool
  | [] => true
  | t :: ts => isTargetPart t && areTargetParts ts

/-- Whether the first tree of a row is a target. -/
def firstIsTarget : List Tree → Bool
  | [] => false
  | t :: _ => isTarget t

/-- Whether the last tree of a row is a target, possibly with a default. -/
def lastIsTargetPart : List Tree → Bool
  | [] => false
  | [t] => isTargetPart t
  | _ :: t :: ts => lastIsTargetPart (t :: ts)

end

/-- Whether a tree is the name `w`. -/
def isName (w : String) : Tree → Bool
  | .leaf _ kind _ text => kind == .identifier && text == w.toList
  | .node .. => false

/-- Whether a tree can stand before `=`. -/
def isAssignable (t : Tree) : Bool := t.kind == .parenthesized || t.isTarget

/-- Whether a tree can stand before an operator such as `+=`. -/
def isSimpleTarget (t : Tree) : Bool :=
  match t.kind with
  | .identifier | .undefined | .member | .subscript | .parenthesized => true
  | _ => false

/-- Whether the last tree can head an arrow function: a name, a row of targets in parentheses, or
such a row after the name `async`. -/
def isArrowHead : Tree → Bool
  | .leaf _ kind _ _ => kind == .identifier
  | .node _ kind children =>
    match kind, children with
    | .parenthesized, _ => areTargetParts children
    | .call, [callee, .node _ .arguments args] => callee.isName "async" && areTargetParts args
    | _, _ => false

/-- Whether a row in parentheses, the last tree first, is an expression: it holds something, no rest
of a row, and no comma before its end. -/
def isParenthesizedRow : List Tree → Bool
  | _ :: t :: ts => t.isNamed && (t :: ts).all (·.kind != .spread)
  | _ => false

/-- Whether the children of a node of this kind are targets when the node is one. -/
def passesTarget : Kind → Bool
  | .object | .array | .pair | .spread | .parenthesized | .arguments | .call => true
  | _ => false

mutual

/-- Whether every default in an object literal stands in a target; `target` says whether the tree
itself is one. -/
def resolved (target : Bool) : Tree → Bool
  | .leaf .. => true
  | .node _ kind children =>
    (kind != .shorthandDefault || target) && resolvedAll (target && passesTarget kind) children

/-- The same for a row of children; `target` says whether they stand in a row of targets. -/
def resolvedAll (target : Bool) : List Tree → Bool
  | [] => true
  | t :: ts =>
    resolved (t.role == .target || (target && t.role != .key)) t && resolvedAll target ts

end

end Phrasebook.Script.Tree
