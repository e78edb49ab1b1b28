import Phrasebook.Bindings
import Phrasebook.Localized
import Phrasebook.Script.Edit
import Phrasebook.Script.Literal
import Phrasebook.Script.Parse
import Phrasebook.Text.Escape

/-!
Localizing scripts. A walk over the syntax tree finds the changes to make:

* a string literal with natural text becomes the argument of the look-up function;
* a registered page becomes a localized one;
* on request, the locale is merged into the data of a page.

Changes become edits of the source, so everything else keeps its form. Every rule looks at its
surroundings first and leaves alone what an earlier run has produced.
-/

namespace Phrasebook

namespace Script

/-- What a walk is asked to do. -/
inductive Scope where
  /-- Literals only, as in the expressions of a template. -/
  | expression
  /-- Literals and pages; `mergeLocale` asks for the locale in the data of pages. -/
  | script (mergeLocale : Bool)
  deriving DecidableEq, Repr

/-- A change to make in the source. -/
inductive Change where
  /-- Wrap a literal that stands at `start` and has this value. -/
  | wrap (start : Nat) (literal value : Text)
  /-- Rename the registration of a page, a name at `start`. -/
  | rename (start : Nat) (name : Text)
  /-- Merge the locale into the value between `start` and `stop`. -/
  | merge (start stop : Nat)
  deriving DecidableEq, Repr

namespace Change

/-- The edits that make a change. -/
def edits (b : Bindings) : Change → List Edit
  | .wrap start literal _ => [⟨start, start + literal.length, b.call literal⟩]
  | .rename start name => [⟨start, start + name.length, b.localizedPage⟩]
  | .merge start stop => [Edit.insertion start b.mergeOpening, Edit.insertion stop [')']]

/-- The text that a change adds to the dictionary. -/
def text? : Change → Option Text
  | .wrap _ _ value => some value
  | _ => none

end Change

/-- The place of a tree: the kind of its parent and, for an argument of a call, what is called. -/
structure Place where
  parent : Kind
  callee : Option Tree

/-! ## Guards -/

/-- Whether a call of this callee looks texts up. -/
def isLookup (b : Bindings) (callee : Tree) : Bool :=
  callee.kind == .member &&
    match callee.child? .object, callee.child? .property with
    | some object, some property =>
      object.kind == .identifier && object.text == b.receiver && property.text == b.translate
    | _, _ => false

/-- Whether a call of this callee loads a module. -/
def isRequire (callee : Tree) : Bool :=
  callee.kind == .identifier && callee.text == "require".toList

/-- Whether a literal stands where no call can stand: a key, the name of a method or a field, or the
name of a module. -/
def isFixedPlace (place : Place) (role : Role) : Bool :=
  match place.parent with
  | .pair => role == .key
  | .method => role == .name
  | .field => role == .property
  | .exportStatement => role == .source
  | .importStatement | .importSpecifier | .exportSpecifier | .namespaceExport => true
  | _ => false

/-- Whether a literal is to be wrapped. -/
def wraps (b : Bindings) (place : Place) (literal : Tree) : Bool :=
  !(place.callee.any (isLookup b) || isFixedPlace place literal.role ||
    place.callee.any isRequire) && Text.isNatural (literalValue literal)

/-- The object literal that is the first argument of a call. -/
def optionsOf? (call : Tree) : Option Tree :=
  ((call.child? .arguments).bind Tree.firstNamed?).filter (·.kind == .object)

/-- Whether a value is a call that merges the locale already. -/
def mergesLocale (b : Bindings) (value : Tree) : Bool :=
  value.kind == .call &&
    match (optionsOf? value).bind Tree.firstNamed? with
    | some first =>
      first.kind == .pair && ((first.child? .key).map keyText) == some b.localeKey
    | none => false

/-- Whether a tree is the property `data` with a value. -/
def isDataPair (t : Tree) : Bool :=
  t.kind == .pair && ((t.child? .key).map keyText) == some "data".toList

/-! ## The walk -/

/-- Where a part of a row of trees starts: the length of what stands before it. -/
def startIn (row : List Tree) (found : Tree → Bool) : Nat :=
  (Tree.sourceAll (row.takeWhile fun t => !found t)).length

/-- Length of the gap before a tree. -/
def gapLength (t : Tree) : Nat := (gapText t.leadingGap).length

/-- The merge of the locale into the data of a page whose registration starts at `offset`. -/
def mergeChange (b : Bindings) (offset : Nat) (call : Tree) : List Change :=
  match call.child? .arguments, optionsOf? call with
  | some arguments, some options =>
    match options.children.find? isDataPair with
    | none => []
    | some data =>
      match data.child? .value with
      | none => []
      | some value =>
        if mergesLocale b value then []
        else
          let argumentsAt := offset + startIn call.children (·.role == .arguments)
          let optionsAt := argumentsAt + startIn arguments.children Tree.isNamed
          let dataAt := optionsAt + startIn options.children isDataPair
          let valueAt := dataAt + startIn data.children (·.role == .value)
          [.merge (valueAt + gapLength value) (valueAt + value.source.length)]
  | _, _ => []

/-- The changes for a call itself, whose source starts at `offset`. -/
def callChanges (b : Bindings) (mergeLocale : Bool) (offset : Nat) (call : Tree) : List Change :=
  match call.child? .callee with
  | none => []
  | some callee =>
    if callee.kind != .identifier then []
    else
      let name := callee.text
      let start := offset + startIn call.children (·.role == .callee) + gapLength callee
      let renames := if name == b.page then [Change.rename start name] else []
      let merges :=
        if mergeLocale && (name == b.page || name == b.localizedPage) then
          mergeChange b offset call
        else []
      renames ++ merges

/-- The changes that a node asks for by itself. -/
def nodeChanges (b : Bindings) (scope : Scope) (offset : Nat) (t : Tree) : List Change :=
  match scope, t.kind with
  | .script mergeLocale, .call => callChanges b mergeLocale offset t
  | _, _ => []

/-- The place of the children of a node. -/
def Place.inside (place : Place) (t : Tree) : Place :=
  match t.kind with
  | .call => ⟨.call, t.child? .callee⟩
  | .arguments => ⟨.arguments, if place.parent == .call then place.callee else none⟩
  | kind => ⟨kind, none⟩

/-- The callee that counts for a child: only arguments of a call have one. -/
def Place.forChild (place : Place) : Place :=
  if place.parent == .arguments then place else { place with callee := none }

mutual

/-- The changes in a tree whose source starts at `offset`. -/
def changes (b : Bindings) (scope : Scope) (place : Place) (offset : Nat) : Tree → List Change
  | .leaf .. => []
  | .node role kind children =>
    let t := Tree.node role kind children
    if kind = .string then
      if wraps b place.forChild t then [.wrap (offset + gapLength t) t.text (literalValue t)] else []
    else nodeChanges b scope offset t ++ changesAll b scope (place.inside t) offset children

/-- The changes in a row of trees whose source starts at `offset`. -/
def changesAll (b : Bindings) (scope : Scope) (place : Place) (offset : Nat) :
    List Tree → List Change
  | [] => []
  | t :: ts =>
    changes b scope place offset t ++ changesAll b scope place (offset + t.source.length) ts

end

/-- The changes in a whole script. -/
def changesIn (b : Bindings) (scope : Scope) (script : Tree) : List Change :=
  changes b scope ⟨.program, none⟩ 0 script

/-- Makes changes in a source text. -/
def applyChanges (b : Bindings) (source : Text) (cs : List Change) : Text :=
  Edit.apply source (cs.flatMap (Change.edits b))

/-- Localizes a script file and gives it its header. -/
def localizeScript (b : Bindings) (mergeLocale : Bool) (source : Text) :
    Except SyntaxError Localized :=
  match parse source with
  | .error e => .error e
  | .ok tree =>
    let cs := changesIn b (.script mergeLocale) tree
    .ok ⟨Text.normalizeEscapes (b.withHeader (applyChanges b source cs)), cs.filterMap Change.text?⟩

/-- Localizes the literals of an expression. What is not a script stays as it is, since expressions of
a template need not be scripts. -/
def localizeExpression (b : Bindings) (source : Text) : Localized :=
  match parse source with
  | .error _ => ⟨source, []⟩
  | .ok tree =>
    let cs := changesIn b .expression tree
    ⟨Text.normalizeEscapes (applyChanges b source cs), cs.filterMap Change.text?⟩

end Script

end Phrasebook
