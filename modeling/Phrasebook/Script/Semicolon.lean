import Phrasebook.Script.Lexeme

/-!
Automatic semicolons: whether a statement may end here although no semicolon is written. It may at
the end of the script, before a closing brace, and at a line break that is not followed by a token
that continues an expression.

The scan reads from just after the last token. White space is ASCII white space here, and letters and
digits are ASCII ones.
-/

namespace Phrasebook.Script

/-- What a scan over white space and comments found. -/
inductive CommentScan where
  /-- The scan stands before a token, or after a comment that holds a line break. -/
  | accepted (rest : Text)
  /-- The scan stands after a comment without a line break. -/
  | sameLine (rest : Text)
  /-- A `/` that opens no comment. -/
  | rejected

/-- What follows the first `*/`, and whether a line break stands before it. -/
def skipBlockComment : Bool → Text → Bool × Text
  | seen, [] => (seen, [])
  | seen, '*' :: '/' :: t => (seen, t)
  | seen, c :: t => skipBlockComment (seen || isLineBreak c) t

/-- Skips white space and comments. Unless `through` is set the scan stops after a block comment. -/
def scanComments (through : Bool) : Nat → Bool → Text → CommentScan
  | 0, _, t => .accepted t
  | fuel + 1, seen, t =>
    match t.dropWhile isAsciiBlank with
    | '/' :: '/' :: rest =>
      scanComments through fuel seen (rest.dropWhile fun c => !isLineBreak c)
    | '/' :: '*' :: rest =>
      let (seen, after) := skipBlockComment seen rest
      if !through && !Text.startsWith after ['/'] then
        if seen then .accepted after else .sameLine after
      else scanComments through fuel seen after
    | '/' :: _ => .rejected
    | rest => .accepted rest

/-- Whether the token after a line break starts a new statement. -/
def startsStatement : Text → Bool
  | [] => true
  | '.' :: t => (t.takeWhile Text.isAsciiDigit) != []
  | '+' :: t => Text.startsWith t ['+']
  | '-' :: t => Text.startsWith t ['-']
  | '!' :: t => !Text.startsWith t ['=']
  | 'i' :: 'n' :: t =>
    if !(t.take 1).any Text.isAsciiLetter then false
    else
      match Text.dropLeading? "stanceof".toList t with
      | some after => (after.take 1).any Text.isAsciiLetter
      | none => true
  | c :: _ => !"`,:;*%><=[(?^|&/".toList.contains c

/-- The part of the scan after a line break. -/
def afterLineBreak (t : Text) : Bool :=
  match scanComments true (t.length + 1) false t with
  | .accepted rest => startsStatement rest
  | .sameLine rest => startsStatement rest
  | .rejected => false

/-- One scan for an automatic semicolon. A comment with a line break is enough when no operator may
follow (`alone`). -/
def scanSemicolon (alone : Bool) : Nat → Text → Bool
  | 0, _ => false
  | _ + 1, [] => true
  | fuel + 1, c :: t =>
    if c == '/' then
      match scanComments false (t.length + 2) false (c :: t) with
      | .rejected => false
      | .accepted rest =>
        if alone && !Text.startsWith rest [','] && !Text.startsWith rest ['='] then true
        else scanSemicolon alone fuel rest
      | .sameLine rest =>
        match rest with
        | d :: after =>
          if d == '}' then true
          else if isLineBreak d then afterLineBreak after
          else if isAsciiBlank d then scanSemicolon alone fuel after
          else false
        | [] => scanSemicolon alone fuel []
    else if c == '}' || c.toNat == 0 then true
    else if isLineBreak c then afterLineBreak t
    else if isAsciiBlank c then scanSemicolon alone fuel t
    else false

/-- Whether a statement may end here without a semicolon. When a scan fails before a comment, it is
tried again after the comment. -/
def semicolonAhead (alone : Bool) : Nat → Text → Bool
  | 0, _ => false
  | fuel + 1, t =>
    scanSemicolon alone (t.length + 1) t ||
      let rest := t.dropWhile isGapBlank
      match triviaLength? false rest with
      | some (.comment, n) => semicolonAhead alone fuel (rest.drop n)
      | _ => false

/-- A statement may end here, where an operator could follow as well. -/
def endsExpression (t : Text) : Bool := semicolonAhead false (t.length + 1) t

/-- A statement may end here, where no operator can follow. -/
def endsWord (t : Text) : Bool := semicolonAhead true (t.length + 1) t

end Phrasebook.Script
