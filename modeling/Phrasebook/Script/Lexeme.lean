import Phrasebook.Script.Trivia

/-!
Lexemes: how long the token is that a text starts with. Each function answers with a length, or with
nothing when no token of its sort stands there. Which sorts are asked for depends on the place in the
script, so a `/` is a division in one place and starts a regular expression in another.
-/

namespace Phrasebook.Script

/-- The sorts of token are told apart by their length functions. -/
abbrev Lexeme := Text → Option Nat

/-- A length that has to be positive. -/
def positive (n : Nat) : Option Nat := if n = 0 then none else some n

/-- Exactly this text, whatever follows. -/
def exactly (s : String) : Lexeme := fun t =>
  if Text.startsWith t s.toList then some s.length else none

/-! ## Names -/

/-- ASCII punctuation that ends a name. -/
def isNamePunctuation (c : Char) : Bool := ":;`\"'@#.,|^&<=>+-*/\\%?!~()[]\x7b\x7d".toList.contains c

/-- Characters of a name: all but control characters, white space and punctuation. -/
def isNameChar (c : Char) : Bool :=
  !(c.toNat < 0x20 || isGapBlank c || isNamePunctuation c)

/-- Length of a unicode escape, with four digits or with any number of digits in braces. -/
def unicodeEscapeLength? : Lexeme
  | '\\' :: 'u' :: '{' :: t =>
    let n := runLength Text.isHexDigit t
    if n ≠ 0 && Text.startsWith (t.drop n) ['}'] then some (n + 4) else none
  | '\\' :: 'u' :: t => if 4 ≤ runLength Text.isHexDigit (t.take 4) then some 6 else none
  | _ => none

/-- Length of the run of name characters and unicode escapes at the start of a text. -/
def nameRun : Nat → Text → Nat
  | 0, _ => 0
  | _ + 1, [] => 0
  | fuel + 1, c :: t =>
    if isNameChar c then 1 + nameRun fuel t
    else
      match unicodeEscapeLength? (c :: t) with
      | some n => n + nameRun fuel ((c :: t).drop n)
      | none => 0

/-- The longest name at the start of a text; a name does not start with a digit. -/
def nameLength? : Lexeme
  | [] => none
  | c :: t => if Text.isAsciiDigit c then none else positive (nameRun (t.length + 1) (c :: t))

/-- Words that are never names of variables. -/
def reservedWords : List Text :=
  ["break", "case", "catch", "class", "const", "continue", "debugger", "default", "delete", "do",
   "else", "export", "extends", "false", "finally", "for", "function", "if", "import", "in",
   "instanceof", "new", "null", "return", "super", "switch", "this", "throw", "true", "try",
   "typeof", "var", "void", "while", "with"].map String.toList

/-- A given word. -/
def word (w : String) : Lexeme := fun t =>
  match nameLength? t with
  | some n => if t.take n = w.toList then some n else none
  | none => none

/-- A name that satisfies `p`. -/
def nameWhere (p : Text → Bool) : Lexeme := fun t =>
  match nameLength? t with
  | some n => if p (t.take n) then some n else none
  | none => none

/-- Names of bindings. -/
def bindingName : Lexeme := nameWhere fun w => !reservedWords.contains w

/-- Names in expressions: `export` may stand as a name there, `yield` and `await` may not. -/
def operandName : Lexeme := nameWhere fun w =>
  w == "export".toList ||
    !(reservedWords.contains w || w == "yield".toList || w == "await".toList)

/-- Names that stand for a property and its value in an object literal. -/
def shorthandName : Lexeme := nameWhere fun w => w == "export".toList || !reservedWords.contains w

/-- Names of labels. -/
def labelName : Lexeme := operandName

/-- Names of properties; reserved words are allowed. -/
def propertyWord : Lexeme := nameLength?

/-- Names of private properties. -/
def privateName : Lexeme
  | '#' :: t => (nameLength? t).map (· + 1)
  | _ => none

/-- Names in markup elements: a name, or an ASCII name with dashes. -/
def elementName : Lexeme := fun t =>
  match nameLength? t with
  | none => none
  | some n =>
    let plain := runLength (fun c => Text.isAsciiLetter c || Text.isAsciiDigit c || c == '_' || c == '$') t
    if Text.startsWith (t.drop plain) ['-'] then
      some (max n (runLength (fun c =>
        Text.isAsciiLetter c || Text.isAsciiDigit c || c == '_' || c == '$' || c == '-') t))
    else some n

/-! ## Symbols -/

/-- The symbols of operators and punctuation, longer ones before the symbols they start with. -/
def symbols : List Text :=
  [">>>=", "...", "===", "!==", "**=", "<<=", ">>=", ">>>", "&&=", "||=", "??=", "=>", "==", "!=",
   "<=", ">=", "++", "--", "**", "<<", ">>", "&&", "||", "??", "?.", "+=", "-=", "*=", "/=", "%=",
   "&=", "|=", "^=", "\x7b", "\x7d", "(", ")", "[", "]", ";", ",", "<", ">", "+", "-", "*", "/",
   "%", "&", "|", "^", "!", "~", "?", ":", "=", ".", "@"].map String.toList

/-- Whether a symbol stands at the start of a text: `?.` before a digit is a `?`. -/
def symbolHere (t s : Text) : Bool :=
  Text.startsWith t s && !(s == "?.".toList && ((t.drop 2).takeWhile Text.isAsciiDigit) != [])

/-- The longest symbol at the start of a text. -/
def symbolAhead? (t : Text) : Option Text := symbols.find? (symbolHere t)

/-- One of the given symbols, when no longer symbol stands there. -/
def symbolIn (allowed : List String) : Lexeme := fun t =>
  match symbolAhead? t with
  | some s => if (allowed.map String.toList).contains s then some s.length else none
  | none => none

/-- A given symbol, when no longer one stands there. -/
def symbol (s : String) : Lexeme := symbolIn [s]

/-- Operators between two operands. -/
def binaryOperators : List String :=
  ["===", "!==", ">>>", "==", "!=", "<=", ">=", "**", "<<", ">>", "&&", "||", "??", "<", ">", "+",
   "-", "*", "/", "%", "&", "|", "^"]

/-- Operators that combine an operation with an assignment. -/
def augmentedOperators : List String :=
  [">>>=", "**=", "<<=", ">>=", "&&=", "||=", "??=", "+=", "-=", "*=", "/=", "%=", "&=", "|=", "^="]

/-! ## Numbers -/

/-- Length of a run of digits in which single underscores may stand between digits. -/
def digitRun (p : Char → Bool) : Text → Nat
  | [] => 0
  | [c] => if p c then 1 else 0
  | c :: d :: t =>
    if p c then 1 + digitRun p (d :: t)
    else if c == '_' && p d then 1 + digitRun p (d :: t)
    else 0

/-- Length of a run of digits that starts with a digit. -/
def digitsLength? (p : Char → Bool) (t : Text) : Option Nat :=
  match t with
  | c :: _ => if p c then some (digitRun p t) else none
  | [] => none

/-- Length of an exponent, zero when there is none. -/
def exponentLength : Text → Nat
  | e :: t =>
    if e == 'e' || e == 'E' then
      let sign := if Text.startsWith t ['+'] || Text.startsWith t ['-'] then 1 else 0
      match digitsLength? Text.isAsciiDigit (t.drop sign) with
      | some n => 1 + sign + n
      | none => 0
    else 0
  | [] => 0

/-- Whether a run of decimal digits may be followed by a fraction or an exponent. -/
def isIntegerPart : Text → Bool
  | ['0'] => true
  | '0' :: c :: _ => '1' ≤ c && c ≤ '9'
  | c :: _ => '1' ≤ c && c ≤ '9'
  | [] => false

/-- Length of a number in base 16, 8 or 2. -/
def radixNumberLength? : Lexeme
  | '0' :: r :: t =>
    let digits : Option (Char → Bool) :=
      if r == 'x' || r == 'X' then some Text.isHexDigit
      else if r == 'o' || r == 'O' then some fun c => '0' ≤ c && c ≤ '7'
      else if r == 'b' || r == 'B' then some fun c => c == '0' || c == '1'
      else none
    match digits.bind (digitsLength? · t) with
    | some n => some (2 + n + if Text.startsWith (t.drop n) ['n'] then 1 else 0)
    | none => none
  | _ => none

/-- Length of a decimal number. -/
def decimalLength? : Lexeme := fun t =>
  match t with
  | '.' :: rest =>
    (digitsLength? Text.isAsciiDigit rest).map fun n => 1 + n + exponentLength (rest.drop n)
  | _ =>
    match digitsLength? Text.isAsciiDigit t with
    | none => none
    | some n =>
      let rest := t.drop n
      if Text.startsWith rest ['n'] then some (n + 1)
      else if isIntegerPart (t.take n) then
        match rest with
        | '.' :: fraction =>
          let k := (digitsLength? Text.isAsciiDigit fraction).getD 0
          some (n + 1 + k + exponentLength (fraction.drop k))
        | _ => some (n + exponentLength rest)
      else some n

/-- A number. -/
def number : Lexeme := fun t => (radixNumberLength? t).or (decimalLength? t)

/-! ## Literals -/

/-- The plain part of a string literal in quotes `q`. -/
def stringFragment (q : Char) : Lexeme := fun t =>
  positive (runLength (fun c => c != q && c != '\\' && c != '\r' && c != '\n') t)

/-- An escape sequence. -/
def escapeSequence : Lexeme
  | '\\' :: c :: t =>
    if c == 'u' then unicodeEscapeLength? ('\\' :: c :: t)
    else if c == 'x' then if runLength Text.isHexDigit (t.take 2) = 2 then some 4 else none
    else if '0' ≤ c && c ≤ '7' then
      some (1 + runLength (fun c => '0' ≤ c && c ≤ '7') ((c :: t).take 3))
    else if (c == '\r' || c == '?') && !(t.take 1).isEmpty && (t.take 1).all isLineBreak then some 3
    else some 2
  | _ => none

/-- Length of the plain text of a template literal up to what ends it. -/
def templateRun : Text → Option Nat
  | [] => none
  | '\x60' :: _ => some 0
  | '\\' :: _ => some 0
  | '$' :: '{' :: _ => some 0
  | c :: t => if c.toNat = 0 then none else (templateRun t).map (· + 1)

/-- The plain part of a template literal. -/
def templateChars : Lexeme := fun t => (templateRun t).bind positive

/-- Length of the pattern of a regular expression; a `/` inside a character class does not end
it. -/
def patternRun : Bool → Text → Option Nat
  | _, [] => none
  | inClass, '\\' :: c :: t => if c == '\n' then none else (patternRun inClass t).map (· + 2)
  | inClass, c :: t =>
    if c == '\n' || c == '\\' then none
    else if inClass then (patternRun (c != ']') t).map (· + 1)
    else if c == '/' then some 0
    else (patternRun (c == '[') t).map (· + 1)

/-- The pattern of a regular expression. -/
def regexPattern : Lexeme := fun t => (patternRun false t).bind positive

/-- The flags of a regular expression. -/
def regexFlags : Lexeme := fun t => positive (runLength (fun c => 'a' ≤ c && c ≤ 'z') t)

/-! ## Markup in scripts -/

/-- A character reference such as `&lt;`. -/
def characterReference : Lexeme
  | '&' :: '#' :: t =>
    let (lead, most, digits) :=
      if Text.startsWith t ['x'] || Text.startsWith t ['X'] then (1, 6, Text.isHexDigit)
      else (0, 5, Text.isAsciiDigit)
    let n := runLength digits (t.drop lead)
    if 1 ≤ n && n ≤ most && Text.startsWith (t.drop (lead + n)) [';'] then some (lead + n + 3) else none
  | '&' :: t =>
    let n := runLength Text.isAsciiLetter t
    if 1 ≤ n && n ≤ 30 && Text.startsWith (t.drop n) [';'] then some (n + 2) else none
  | _ => none

/-- Length of the plain part of an attribute string in quotes `q`. -/
def attributeRun (q : Char) : Text → Nat
  | [] => 0
  | ['&'] => 0
  | '&' :: c :: t => if c == '#' || Text.isAsciiLetter c then 0 else 2 + attributeRun q t
  | c :: t => if c == q then 0 else 1 + attributeRun q t

/-- The plain part of an attribute string. -/
def attributeFragment (q : Char) : Lexeme := fun t => positive (attributeRun q t)

/-- ASCII white space. -/
def isAsciiBlank (c : Char) : Bool := c == ' ' || (9 ≤ c.toNat && c.toNat ≤ 13)

/-- Characters that end the text between two tags. -/
def endsElementText (c : Char) : Bool :=
  c == '<' || c == '>' || c == '{' || c == '}' || c == '&' || c.toNat == 0

/-- Whether a text holds anything but line breaks and the white space after them. -/
def hasElementText : Bool → Text → Bool
  | _, [] => false
  | atLineStart, c :: t =>
    if c == '\n' then hasElementText true t
    else if atLineStart && isAsciiBlank c then hasElementText true t
    else true

/-- Text between two tags. -/
def elementText : Lexeme := fun t =>
  let run := t.takeWhile fun c => !endsElementText c
  if hasElementText false run then some run.length else none

end Phrasebook.Script
