import Phrasebook.Script.Grammar.Expression

/-!
Statements, and the grammar of whole scripts.

A declaration or a block is an expression instead when the next token can only continue an
expression, as in `{a} = b` or `function f() {}.name`. A block whose content is not a row of
statements is an object literal if it can be read as one.
-/

namespace Phrasebook.Script.Grammar

/-- Whether the next token continues an expression and cannot start a statement. -/
def continuesExpression (t : Text) : Bool :=
  !endsExpression t &&
    match afterGap t with
    | [] => false
    | '.' :: rest => !(rest.take 1).any Text.isAsciiDigit
    | '!' :: rest => Text.startsWith rest ['=']
    | c :: rest =>
      ",=*%?&|^>".toList.contains c ||
        (word "in" (c :: rest)).isSome || (word "instanceof" (c :: rest)).isSome

/-- A form that no continued expression follows. -/
def complete (f : Piece) : Piece := .both f (ahead fun t => !continuesExpression t)

/-! ## Declarations -/

/-- A binding with or without a value. -/
def declarator : Piece := .node .declarator (.both bindingTarget (.opt initializer))

/-- The end of a declaration: only after a value can an operator follow. -/
def declarationEnd : Piece :=
  .either
    (.check fun done rest =>
      if (done.head?.bind (·.child? .value)).isSome then endsExpression rest else endsWord rest)
    (mark ";")

/-- Bindings between commas, up to the end of the statement. -/
def declarators : Piece := .both (.separated (mark ",") declarator) declarationEnd

/-- A declaration of variables. -/
def variableDeclaration : Piece :=
  .node .statement (.both
    (.any [leadKeyword "var", leadKeyword "let", leadKeyword "const", leadKeyword "using",
      .both (leadKeyword "await") (keyword "using")])
    declarators)

/-- A function with a name. -/
def functionDeclaration : Piece :=
  .node .statement (.seq [.opt (leadKeyword "async"), leadKeyword "function", .opt (mark "*"),
    .label .name binding, functionTail])

/-- A class with a name. -/
def classDeclaration : Piece :=
  .node .statement (.seq [.many decorator, leadKeyword "class", .label .name binding,
    .rule .classTail])

/-- A declaration. -/
def declaration : Piece :=
  .any [variableDeclaration, complete functionDeclaration, complete classDeclaration]

/-! ## Modules -/

/-- A name by which a module offers something. -/
def moduleName : Piece :=
  .any [binding, stringLiteral, .token false .identifier (word "default")]

/-- The module that something comes from. -/
def fromModule : Piece := .both (keyword "from") (.label .source stringLiteral)

/-- Items in braces between commas. -/
def braced (item : Piece) : Piece :=
  .node .clause (.seq [mark "\x7b", .opt (.separated (mark ",") item), .opt (mark ","),
    mark "\x7d"])

/-- An exported name. -/
def exportSpecifier : Piece :=
  .node .exportSpecifier (.both (.label .name moduleName) (.opt (.both (keyword "as") moduleName)))

/-- What is exported from another module or from this one. -/
def exportStatement : Piece :=
  .node .exportStatement (.either
    (.seq [leadKeyword "export",
      .any [
        .both (mark "*") fromModule,
        .both (.node .namespaceExport (.seq [mark "*", keyword "as", moduleName])) fromModule,
        .both (braced exportSpecifier) (.opt fromModule)],
      wordSemicolon])
    (.seq [.many decorator, leadKeyword "export",
      .either (.rule .declaration)
        (.both (keyword "default")
          (.either (.rule .declaration) (.both (.label .value (.rule .expression)) semicolon)))]))

/-- An imported name. -/
def importSpecifier : Piece :=
  .node .importSpecifier (.either
    (.seq [.label .name moduleName, keyword "as", binding]) (.label .name binding))

/-- An import of a whole module under one name. -/
def namespaceImport : Piece := .node .clause (.seq [mark "*", keyword "as", binding])

/-- What is imported. -/
def importClause : Piece :=
  .any [namespaceImport, braced importSpecifier,
    .both binding (.opt (.both (mark ",") (.either namespaceImport (braced importSpecifier))))]

/-- An import. -/
def importStatement : Piece :=
  .node .importStatement (.seq [leadKeyword "import",
    .either (.both (.node .clause importClause) fromModule) (.label .source stringLiteral),
    .opt (.node .clause (.both (keyword "with") (.rule .object))),
    wordSemicolon])

/-! ## Control flow -/

/-- `if`, with or without `else`. -/
def ifStatement : Piece :=
  .node .statement (.seq [leadKeyword "if", condition, .rule .statement,
    .opt (.both (keyword "else") (.rule .statement))])

/-- `switch` with its cases. -/
def switchStatement : Piece :=
  .node .statement (.seq [leadKeyword "switch", condition,
    .node .clause (.seq [mark "\x7b",
      .many (.seq [.either (.both (keyword "case") (.rule .expressions)) (keyword "default"),
        mark ":", .many (.rule .statement)]),
      mark "\x7d"])])

/-- A value before `in`: an expression without that operator. -/
def valueBeforeIn : Piece :=
  let tail : Piece :=
    .any [.both (markIn binaryOperators) (.rule .operand),
      .both (keyword "instanceof") (.rule .operand), branches]
  .both (.rule .operand) (.opt (.extend anyTree .part .operation (.both tail (.many tail))))

/-- What a loop over items or keys binds: a declared name, which has a value only after `var`, or a
target. -/
def iterationTarget : Piece :=
  .any [
    .seq [keyword "var", bindingTarget, .opt (.both (mark "=") (.label .value valueBeforeIn))],
    .both
      (.any [keyword "let", keyword "const", keyword "using",
        .both (keyword "await") (keyword "using")])
      bindingTarget,
    .label .target (.both (.rule .operand) (.check fun done _ =>
      (done.head?.map fun t => t.isTarget || t.kind == .parenthesized).getD false))]

/-- The head of a loop over the items or the keys of something. -/
def iterationHead : Piece :=
  .seq [mark "(", iterationTarget, .either (keyword "in") (keyword "of"), .rule .expressions,
    mark ")"]

/-- The head of a loop with a start, a condition and a step. -/
def loopHead : Piece :=
  .seq [mark "(",
    .any [variableDeclaration, mark ";", .both (.rule .expressions) (mark ";")],
    .either (mark ";") (.both (.rule .expressions) (mark ";")),
    .opt (.rule .expressions), mark ")"]

/-- `for` in its two forms; only a loop over items can wait for them. -/
def forStatement : Piece :=
  .node .statement (.seq [leadKeyword "for",
    .either (.both (.opt (keyword "await")) iterationHead) loopHead, .rule .statement])

/-- `while`. -/
def whileStatement : Piece :=
  .node .statement (.seq [leadKeyword "while", condition, .rule .statement])

/-- `do` with its condition. -/
def doStatement : Piece :=
  .node .statement (.seq [leadKeyword "do", .rule .statement, keyword "while", condition,
    .opt wordSemicolon])

/-- `try`; both of its other blocks may be left out. -/
def tryStatement : Piece :=
  .node .statement (.seq [leadKeyword "try", .rule .block,
    .opt (.seq [keyword "catch", .opt (.seq [mark "(", bindingTarget, mark ")"]), .rule .block]),
    .opt (.both (keyword "finally") (.rule .block))])

/-- `with`. -/
def withStatement : Piece :=
  .node .statement (.seq [leadKeyword "with", condition, .rule .statement])

/-- `break` or `continue`, with or without a label. -/
def jumpStatement : Piece :=
  .node .statement (.both (.either (leadKeyword "break") (leadKeyword "continue"))
    (.either (ahead endsWord) (.both (.opt binding) wordSemicolon)))

/-- `return` with or without a value. -/
def returnStatement : Piece :=
  .node .statement (.both (leadKeyword "return")
    (.any [ahead endsWord, mark ";", .both (.rule .expressions) semicolon]))

/-- `throw`. -/
def throwStatement : Piece :=
  .node .statement (.seq [leadKeyword "throw", .rule .expressions, semicolon])

/-- `debugger`. -/
def debuggerStatement : Piece := .node .statement (.both (leadKeyword "debugger") wordSemicolon)

/-- A statement with a label. -/
def labeledStatement : Piece :=
  .node .statement (.seq [.token true .literal labelName, mark ":", .rule .statement])

/-- Whether the word `export` and a star stand here, which cannot be a multiplication. -/
def exportsAll (t : Text) : Bool :=
  wordFollows "export" t && symbolFollows "*" ((afterGap t).drop 6)

/-- An expression as a statement. -/
def expressionStatement : Piece :=
  .node .statement (.seq [ahead fun t => !exportsAll t, .rule .expressions, semicolon])

/-- Statements in braces. -/
def block : Piece :=
  .node .block (.seq [leadMark "\x7b", .many (.rule .statement), mark "\x7d"])

mutual

/-- Whether a tree ends with the brace of a block, after which no markup comment is looked for
unless the line ends. -/
def endsInBlock : Tree → Bool
  | .leaf .. => false
  | .node _ kind children =>
    match kind with
    | .block => true
    | .classBody => true
    | .statement => lastEndsInBlock children
    | _ => false

/-- Whether the last tree of a row ends with the brace of a block. -/
def lastEndsInBlock : List Tree → Bool
  | [] => false
  | [t] => endsInBlock t
  | _ :: t :: ts => lastEndsInBlock (t :: ts)

end

/-- Whether a markup comment may stand before the next statement. -/
def allowsMarkupComment (done : List Tree) (t : Text) : Bool :=
  match done.head? with
  | some last =>
    !(endsInBlock last) || endsExpression t ||
      !(Text.startsWith (afterGap t) "<!--".toList || Text.startsWith (afterGap t) "-->".toList)
  | none => true

/-- A statement. -/
def statement : Piece :=
  .both (.check allowsMarkupComment)
    (.any [.rule .declaration, complete (.rule .block), exportStatement, importStatement,
      ifStatement, switchStatement, forStatement, whileStatement, doStatement, tryStatement,
      withStatement, jumpStatement, returnStatement, throwStatement, debuggerStatement,
      .node .statement (leadMark ";"), labeledStatement, expressionStatement])

/-- The grammar of scripts. -/
def rules : Rule → Piece
  | .statement => statement
  | .block => block
  | .declaration => declaration
  | .expressions => expressions
  | .expression => expression
  | .operand => operand
  | .primary => primary
  | .construction => construction
  | .object => objectLiteral
  | .array => arrayLiteral
  | .arguments => argumentList
  | .parameters => parameterList
  | .propertyName => propertyName
  | .method => method
  | .classTail => classTail
  | .template => templateLiteral
  | .element => element

end Phrasebook.Script.Grammar
