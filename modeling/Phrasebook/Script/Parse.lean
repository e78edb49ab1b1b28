import Phrasebook.Script.Grammar.Statement

/-!
Parsing a script: statements up to the end of the text. The tree of a script holds every character
of it (`source_of_parse`).
-/

namespace Phrasebook.Script

/-- A script that cannot be read. The position is that of the first token after the statements that
could be read, counted from one; columns are counted in bytes. -/
structure SyntaxError where
  line : Nat
  column : Nat
  deriving DecidableEq, Repr

namespace SyntaxError

/-- The message for a script that cannot be read. -/
def message (e : SyntaxError) : String :=
  "syntax error at line " ++ toString e.line ++ ", column " ++ toString e.column

/-- The position after a text. -/
def after (before : Text) : SyntaxError :=
  ⟨1 + before.count '\n',
   1 + Text.byteSize (before.reverse.takeWhile (· != '\n')).reverse⟩

end SyntaxError

/-- How deep rules may refer to each other in a text. -/
def depthFor (t : Text) : Nat := 24 * (t.length + 2)

/-- The line that names an interpreter, which only the start of a script can hold. -/
def hashBangLine : Lexeme
  | '#' :: '!' :: t => some (2 + runLength (· != '\n') t)
  | _ => none

/-- The statements of a script, as many as can be read. -/
def statements : Form Rule :=
  .both (.opt (.token true .plainText hashBangLine)) (.many (.rule .statement))

/-- The end of a script, with the gap before it. -/
def endOfScript : Form Rule := .token true .mark fun t => if t.isEmpty then some 0 else none

/-- Reads a form from the start of a text. -/
def readForm (f : Form Rule) (t : Text) : Option Progress :=
  f.run (readRule Grammar.rules (depthFor t)) ⟨[], t⟩

/-- Where a script stops being readable. -/
def firstError (t : Text) : SyntaxError :=
  let rest := match readForm statements t with
    | some p => p.rest
    | none => t
  let token := (readGap true rest).2
  SyntaxError.after (t.take (t.length - token.length))

/-- Parses a script. -/
def parse (t : Text) : Except SyntaxError Tree :=
  match readForm (.both statements endOfScript) t with
  | some p =>
    let tree := Tree.node .part .program p.done.reverse
    if tree.resolved false then .ok tree else .error (firstError t)
  | none => .error (firstError t)

theorem rest_of_endOfScript {call : Rule → Progress → Option Progress} {p q : Progress}
    (h : endOfScript.run call p = some q) : q.rest = [] := by
  obtain ⟨n, hn, rfl⟩ := Option.map_eq_some_iff.1 h
  dsimp only at hn
  split at hn
  · next he => simp [List.isEmpty_iff.1 he]
  · cases hn

/-- The tree of a script is made of exactly the characters of the script. -/
theorem source_of_parse {t : Text} {tree : Tree} (h : parse t = .ok tree) : tree.source = t := by
  unfold parse at h
  split at h
  · next p hp =>
    dsimp only at h
    split at h
    · cases h
      obtain ⟨m, hm, he⟩ := Option.bind_eq_some_iff.1 hp
      have hc := Form.run_conserves (readRule_conserves Grammar.rules (depthFor t)) _ _ _ hp
      have hr := rest_of_endOfScript he
      simpa [Progress.source, hr, Tree.source, Tree.sourceAll] using hc
    · cases h
  · cases h

end Phrasebook.Script
