import Phrasebook.Script.Form
import Phrasebook.Script.Semicolon
import Phrasebook.Script.Target

/-!
The rules of the script grammar and the small forms that they share: keywords, symbols, names,
string literals and the ends of statements.
-/

namespace Phrasebook.Script

/-- The rules that forms refer to. -/
inductive Rule where
  | statement
  | block
  | declaration
  | expressions
  | expression
  | operand
  | primary
  | construction
  | object
  | array
  | arguments
  | parameters
  | propertyName
  | method
  | classTail
  | template
  | element
  deriving DecidableEq, Repr

namespace Grammar

/-- Forms of the script grammar. -/
abbrev Piece := Form Rule

/-- A keyword. -/
def keyword (w : String) : Piece := .token false .mark (word w)

/-- A keyword at the start of a statement or an operand. -/
def leadKeyword (w : String) : Piece := .token true .mark (word w)

/-- A symbol. -/
def mark (s : String) : Piece := .token false .mark (symbol s)

/-- A symbol at the start of a statement or an operand. -/
def leadMark (s : String) : Piece := .token true .mark (symbol s)

/-- One of several symbols. -/
def markIn (allowed : List String) : Piece := .token false .mark (symbolIn allowed)

/-- The name of a binding. -/
def binding : Piece := .token false .identifier bindingName

/-- A name in an expression. -/
def operandIdentifier : Piece :=
  .either (.token true .undefined (word "undefined")) (.token true .identifier operandName)

/-- A condition on the text that follows. -/
def ahead (test : Text → Bool) : Piece := .check fun _ rest => test rest

/-- Whether the next token is this symbol. -/
def symbolFollows (s : String) (t : Text) : Bool := (symbol s (afterGap t)).isSome

/-- Whether the next token is this word. -/
def wordFollows (w : String) (t : Text) : Bool := (word w (afterGap t)).isSome

/-- The end of a statement after an expression. -/
def semicolon : Piece := .either (ahead endsExpression) (mark ";")

/-- The end of a statement after a word, where no operator can follow. -/
def wordSemicolon : Piece := .either (ahead endsWord) (mark ";")

/-! ## Literals -/

/-- A string literal in quotes `q`. The closing quote may stand after a line break. -/
def quoted (q : Char) : Piece :=
  let quote := String.singleton q
  .seq [.token true .mark (exactly quote),
    .many (.either (.joined .fragment (stringFragment q)) (.joined .escape escapeSequence)),
    .token false .mark (exactly quote)]

/-- A string literal. -/
def stringLiteral : Piece := .node .string (.either (quoted '"') (quoted '\''))

/-- An attribute string in quotes `q`. -/
def quotedAttribute (q : Char) : Piece :=
  let quote := String.singleton q
  .seq [.token false .mark (exactly quote),
    .many (.either (.joined .fragment (attributeFragment q)) (.joined .reference characterReference)),
    .token false .mark (exactly quote)]

/-- An attribute string. -/
def attributeString : Piece := .node .string (.either (quotedAttribute '"') (quotedAttribute '\''))

/-- A regular expression. -/
def regexLiteral : Piece :=
  .node .regex (.seq [.token true .mark (exactly "/"), .joined .plainText regexPattern,
    .joined .mark (exactly "/"), .opt (.joined .plainText regexFlags)])

/-- A template literal. -/
def templateLiteral : Piece :=
  .node .template (.seq [.token true .mark (exactly "\x60"),
    .many (.any [.joined .plainText templateChars, .joined .escape escapeSequence,
      .node .substitution (.seq [.joined .mark (exactly "$\x7b"), .rule .expressions, mark "\x7d"])]),
    .joined .mark (exactly "\x60")])

/-! ## Bindings -/

/-- An object or array literal that is a target. -/
def destructuring : Piece :=
  .both (.either (.rule .object) (.rule .array))
    (.check fun done _ => (done.head?.map Tree.isTarget).getD false)

/-- A name or a destructuring target. -/
def bindingTarget : Piece := .label .target (.either binding destructuring)

/-- The value of a binding. -/
def initializer : Piece := .both (mark "=") (.label .value (.rule .expression))

/-- A parameter that is a name, possibly with a default. -/
def namedParameter : Piece :=
  .both binding
    (.either
      (.extend (fun _ => true) .target .assignment
        (.both (mark "=") (.label .value (.rule .expression))))
      (ahead fun t => symbolFollows "," t || symbolFollows ")" t))

/-- The parameters of a function: targets, possibly with defaults, and the rest of the row. -/
def parameterList : Piece :=
  let parameter : Piece := .label .target
    (.both
      (.any [namedParameter, .node .spread (.both (leadMark "...") (.rule .operand)),
        .rule .expression])
      (.check fun done _ => (done.head?.map Tree.isTargetPart).getD false))
  .node .parameters (.seq [mark "(",
    .opt (.both (.separated (mark ",") parameter) (.opt (mark ","))), mark ")"])

/-- The parameters and the body of a function. -/
def functionTail : Piece := .both (.rule .parameters) (.rule .block)

end Grammar

end Phrasebook.Script
