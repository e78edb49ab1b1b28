import Phrasebook.Script.Grammar.Basic

/-!
Expressions. An operand is a primary expression with everything that may follow it directly, such as
property accesses, calls and assignments; an expression is a row of operands with operators between
them.
-/

namespace Phrasebook.Script.Grammar

/-- Any tree. -/
def anyTree (_ : Tree) : Bool := true

/-- The rest of a row: `...` and an expression. -/
def spreadItem : Piece := .node .spread (.both (leadMark "...") (.rule .expression))

/-- Items between commas; an item may be left out. -/
def itemsWithHoles (item : Piece) : Piece :=
  .both (.opt item) (.many (.both (mark ",") (.opt item)))

/-! ## Functions and classes -/

/-- A function in an expression; its name may be left out. -/
def functionExpression : Piece :=
  .node .function (.seq [.opt (leadKeyword "async"), leadKeyword "function", .opt (mark "*"),
    .opt (.label .name binding), functionTail])

/-- The body of an arrow function. -/
def arrowBody : Piece := .either (.rule .block) (.rule .expression)

/-- An arrow function with one parameter after `async`. -/
def asyncArrow : Piece :=
  .node .arrow (.seq [leadKeyword "async", .label .target binding, mark "=>", arrowBody])

/-- A decorator: a name, its properties, and possibly a call. -/
def decorator : Piece :=
  .node .decorator (.seq [leadMark "@", binding,
    .many (.extend anyTree .object .member
      (.both (mark ".") (.label .property (.token false .propertyName propertyWord)))),
    .opt (.extend anyTree .callee .call (.label .arguments (.rule .arguments)))])

/-- A class in an expression; its name may be left out. -/
def classLiteral : Piece :=
  .node .classExpression (.seq [.many decorator, leadKeyword "class", .opt (.label .name binding),
    .rule .classTail])

/-- Whether a name may follow, so that the word before it is a modifier. -/
def nameFollows (t : Text) : Bool :=
  match afterGap t with
  | [] => false
  | c :: _ => !"(=;\x7d,:".toList.contains c

/-- A word before the name of a member. -/
def modifier (w : String) : Piece := .opt (.both (keyword w) (ahead nameFollows))

/-- The name of a property: a word, a string, a number or an expression in brackets. -/
def propertyName : Piece :=
  .any [stringLiteral, .token false .number number,
    .node .computedName (.seq [mark "[", .rule .expression, mark "]"]),
    .token false .privateName privateName, .token false .propertyName propertyWord]

/-- A method of an object or a class, without its decorators. -/
def method : Piece :=
  .node .method (.seq [modifier "static", modifier "async",
    .any [.both (keyword "get") (ahead nameFollows), .both (keyword "set") (ahead nameFollows),
      mark "*", .nothing],
    .label .name (.rule .propertyName), functionTail])

/-- A field of a class, without its decorators. -/
def field : Piece :=
  .node .field (.seq [modifier "static", .label .property (.rule .propertyName),
    .either (.both initializer semicolon) wordSemicolon])

/-- A member of a class: a method, a block that runs once, or a field. -/
def classMember : Piece :=
  .any [mark ";",
    .node .block (.both (keyword "static") (.rule .block)),
    .both (.many decorator) (.either (.rule .method) field)]

/-- A class from its superclass on. -/
def classTail : Piece :=
  .both (.opt (.node .clause (.both (keyword "extends") (.rule .expression))))
    (.node .classBody (.seq [mark "\x7b", .many classMember, mark "\x7d"]))

/-! ## Literals with items -/

/-- A property with its value. -/
def pair : Piece :=
  .node .pair (.seq [.label .key (.rule .propertyName), mark ":",
    .label .value (.rule .expression)])

/-- A name that stands for the property and its value, possibly with a default. -/
def shorthand : Piece :=
  .either (.node .shorthandDefault (.both (.token false .shorthand shorthandName) initializer))
    (.token false .shorthand shorthandName)

/-- An object literal. -/
def objectLiteral : Piece :=
  .node .object (.seq [leadMark "\x7b",
    itemsWithHoles (.any [spreadItem, pair, .both (.many decorator) (.rule .method), shorthand]),
    mark "\x7d"])

/-- An array literal. -/
def arrayLiteral : Piece :=
  .node .array (.seq [leadMark "[", itemsWithHoles (.either spreadItem (.rule .expression)),
    mark "]"])

/-- The arguments of a call. -/
def argumentList : Piece :=
  .node .arguments (.seq [mark "(", itemsWithHoles (.either spreadItem (.rule .expression)),
    mark ")"])

/-- A row in parentheses: the parameters of an arrow function if `=>` follows, else expressions. -/
def parenthesizedRow : Piece :=
  let item : Piece := .either spreadItem (.rule .expression)
  .node .parenthesized (.seq [leadMark "(",
    .opt (.both (.separated (mark ",") item) (.opt (mark ","))), mark ")",
    .check fun done rest =>
      if symbolFollows "=>" rest then Tree.areTargetParts done else Tree.isParenthesizedRow done])

/-- Expressions in parentheses, as conditions have them. -/
def condition : Piece := .node .parenthesized (.seq [mark "(", .rule .expressions, mark ")"])

/-! ## Operands -/

/-- What an operand can start with. -/
def primary : Piece :=
  .any [asyncArrow, functionExpression, operandIdentifier, stringLiteral,
    .token true .number number, .rule .template, .rule .object, .rule .array, parenthesizedRow,
    .token true .literal (word "this"), .token true .literal (word "super"),
    .token true .literal (word "null"), .token true .literal (word "true"),
    .token true .literal (word "false"),
    .both (.token true .literal (word "import"))
      (ahead fun t => symbolFollows "(" t || symbolFollows "." t),
    classLiteral, regexLiteral, .rule .element,
    .both (.token true .privateName privateName) (ahead (wordFollows "in"))]

/-- Access to a property by name. -/
def memberAccess : Piece :=
  .extend anyTree .object .member
    (.both (markIn [".", "?."])
      (.label .property (.either (.token false .privateName privateName)
        (.token false .propertyName propertyWord))))

/-- Access to a property by an expression. -/
def subscript : Piece :=
  .extend anyTree .object .subscript
    (.seq [.opt (mark "?."), mark "[", .rule .expressions, mark "]"])

/-- A template literal after an operand calls it. -/
def taggedTemplate : Piece :=
  .extend anyTree .callee .call (.label .arguments (.rule .template))

/-- A call. -/
def call : Piece :=
  .extend anyTree .callee .call
    (.both (.opt (mark "?.")) (.label .arguments (.rule .arguments)))

/-- `++` or `--` after an operand, on the same line. -/
def postfixUpdate : Piece :=
  .extend anyTree .part .update
    (.both (ahead fun t => !endsExpression t) (markIn ["++", "--"]))

/-- An assignment. -/
def assignment : Piece :=
  .extend Tree.isAssignable .target .assignment
    (.both (mark "=") (.label .value (.rule .expression)))

/-- An assignment with an operator. -/
def augmentedAssignment : Piece :=
  .extend Tree.isSimpleTarget .part .assignment
    (.both (markIn augmentedOperators) (.rule .expression))

/-- An arrow function whose parameters have been read. -/
def arrow : Piece := .extend Tree.isArrowHead .target .arrow (.both (mark "=>") arrowBody)

/-- `new`, what is constructed, and possibly arguments. -/
def construction : Piece :=
  .either
    (.node .member (.seq [leadKeyword "new", mark ".", keyword "target"]))
    (.node .construction (.seq [leadKeyword "new",
      .either (.rule .construction)
        (.both primary (.many (.any [memberAccess, subscript, taggedTemplate]))),
      .opt (.rule .arguments)]))

/-- `yield` with or without a value. -/
def yieldExpression : Piece :=
  .node .unary (.both (leadKeyword "yield")
    (.any [.both (mark "*") (.rule .expression), ahead endsExpression, .opt (.rule .expression)]))

/-- An operator before an operand. -/
def unaryExpression : Piece :=
  .node .unary (.both
    (.any ([.token true .mark (symbolIn ["!", "~", "+", "-", "++", "--"])] ++
      (["typeof", "void", "delete", "await"].map leadKeyword)))
    (.rule .operand))

/-- What may follow an operand directly. -/
def operandTail : Piece :=
  .any [memberAccess, call, subscript, taggedTemplate, arrow, assignment, augmentedAssignment,
    postfixUpdate]

/-- An operand with its operators before and after it. -/
def operand : Piece :=
  .any [unaryExpression, yieldExpression,
    .both (.either (.rule .construction) (.rule .primary)) (.many operandTail)]

/-- Whether a `?` that follows may ask a condition: the white space just before it is ASCII. -/
def asksCondition (t : Text) : Bool :=
  (readGap false t).1.getLast?.all fun last => last.kind != .blank || last.text.all isAsciiBlank

/-- The two branches of a condition. -/
def branches : Piece :=
  .seq [ahead asksCondition, mark "?", .rule .expression, mark ":", .rule .expression]

/-- An operator with the operand after it, or the two branches of a condition. -/
def operatorTail : Piece :=
  .any [
    .seq [markIn binaryOperators, .rule .operand],
    .seq [.either (keyword "in") (keyword "instanceof"), .rule .operand],
    branches]

/-- A row of operands with operators between them. -/
def expression : Piece :=
  .both (.rule .operand)
    (.opt (.extend anyTree .part .operation (.both operatorTail (.many operatorTail))))

/-- Expressions between commas. -/
def expressions : Piece :=
  .both (.rule .expression)
    (.opt (.extend anyTree .part .sequence
      (.both (.both (mark ",") (.rule .expression)) (.many (.both (mark ",") (.rule .expression))))))

/-! ## Markup in scripts -/

/-- A name of an element or an attribute, with its properties or its name space. -/
def elementLabel : Piece :=
  .both (.token false .identifier elementName)
    (.any [.both (mark ":") (.token false .identifier elementName),
      .many (.both (mark ".") (.token false .identifier elementName))])

/-- Expressions in braces between tags or as an attribute. -/
def embedded : Piece :=
  .node .substitution (.seq [mark "\x7b", .opt (.either spreadItem (.rule .expressions)),
    mark "\x7d"])

/-- The name of an attribute, possibly with its name space. -/
def attributeName : Piece :=
  .both (.token false .identifier elementName)
    (.opt (.both (mark ":") (.token false .identifier elementName)))

/-- The value of an attribute: a string, expressions in braces, or an element. -/
def attributeValue : Piece := .any [attributeString, embedded, .rule .element]

/-- An attribute of an element. -/
def elementAttribute : Piece :=
  .either embedded
    (.node .elementAttribute (.both attributeName (.opt (.both (mark "=") attributeValue))))

/-- What follows the attributes of an element that does not close itself. -/
def elementContent : Piece :=
  .seq [.token false .mark (exactly ">"),
    .many (.any [.joined .plainText elementText, .joined .reference characterReference,
      .both (ahead fun t => !Text.startsWith (afterGap t) "</".toList) (.rule .element),
      embedded]),
    .token false .mark (exactly "</"), .opt elementLabel, .token false .mark (exactly ">")]

/-- An element with its content, or one that closes itself; the latter has a name. -/
def element : Piece :=
  .node .element (.both (.token true .mark (exactly "<"))
    (.either
      (.seq [elementLabel, .many elementAttribute,
        .either (.token false .mark (exactly "/>")) elementContent])
      elementContent))

end Phrasebook.Script.Grammar
