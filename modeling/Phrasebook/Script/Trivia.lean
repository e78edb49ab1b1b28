import Phrasebook.Text.Blank

/-!
Trivia: what may stand between two tokens of a script without being one, that is white space and
comments. A gap is the list of trivia before a token.

Every reader of this module answers with a length and the text is cut there, so a gap and what
follows it are always the text that was read (`readGap_source`).
-/

namespace Phrasebook.Script

/-- The three sorts of trivia. -/
inductive TriviaKind where
  | blank
  | comment
  /-- A comment opened by `<!--` or `-->`, up to the end of its line. -/
  | markupComment
  deriving DecidableEq, Repr

/-- A piece of trivia. -/
structure Trivia where
  kind : TriviaKind
  text : Text
  deriving DecidableEq, Repr

/-- The trivia before a token. -/
abbrev Gap := List Trivia

/-- The source text of a gap. -/
def gapText (gap : Gap) : Text := gap.flatMap (·.text)

/-- White space between tokens: besides the property White_Space the zero-width space, the word
joiner and the byte order mark. -/
def isGapBlank (c : Char) : Bool :=
  isBlank c || c == '\u200b' || c == '\u2060' || c == '\ufeff'

/-- A line feed or one of the two Unicode separators. -/
def isLineBreak (c : Char) : Bool := c == '\n' || c == '\u2028' || c == '\u2029'

/-- Characters that a line comment cannot hold. -/
def endsLineComment (c : Char) : Bool := c == '\r' || isLineBreak c

/-- Length of the text up to and with the first `*/`. -/
def blockCommentLength? : Text → Option Nat
  | '*' :: '/' :: _ => some 2
  | _ :: t => (blockCommentLength? t).map (· + 1)
  | [] => none

/-- Length of the run of characters at the start of a text that satisfy `p`. -/
def runLength (p : Char → Bool) (t : Text) : Nat := (t.takeWhile p).length

/-- The sort and the length of the trivia that a text starts with; `markup` says whether a markup
comment may stand here. -/
def triviaLength? (markup : Bool) (t : Text) : Option (TriviaKind × Nat) :=
  match t with
  | [] => none
  | c :: rest =>
    if isGapBlank c then some (.blank, runLength isGapBlank t)
    else if c == '/' then
      match rest with
      | '/' :: body => some (.comment, 2 + runLength (fun c => !endsLineComment c) body)
      | '*' :: body => (blockCommentLength? body).map fun n => (.comment, 2 + n)
      | _ => none
    else if markup && (Text.startsWith t "<!--".toList || Text.startsWith t "-->".toList) then
      some (.markupComment, runLength (fun c => !isLineBreak c) t)
    else none

/-- Reads the gap that a text starts with, at most `fuel` pieces of it. -/
def readGapFuel (markup : Bool) : Nat → Text → Gap × Text
  | 0, t => ([], t)
  | fuel + 1, t =>
    match triviaLength? markup t with
    | none => ([], t)
    | some (kind, n) =>
      let (gap, rest) := readGapFuel markup fuel (t.drop n)
      (⟨kind, t.take n⟩ :: gap, rest)

/-- Reads the gap that a text starts with. -/
def readGap (markup : Bool) (t : Text) : Gap × Text := readGapFuel markup t.length t

theorem readGapFuel_source (markup : Bool) (fuel : Nat) (t : Text) :
    gapText (readGapFuel markup fuel t).1 ++ (readGapFuel markup fuel t).2 = t := by
  induction fuel generalizing t with
  | zero => rfl
  | succ fuel ih =>
    unfold readGapFuel
    split
    · rfl
    · next kind n _ =>
      have h := ih (t.drop n)
      simp only [gapText, List.flatMap_cons, List.append_assoc] at h ⊢
      rw [h, List.take_append_drop]

/-- A gap followed by the rest is the text that was read. -/
theorem readGap_source (markup : Bool) (t : Text) :
    gapText (readGap markup t).1 ++ (readGap markup t).2 = t :=
  readGapFuel_source markup t.length t

/-- What follows the gap that a text starts with. -/
def afterGap (t : Text) : Text := (readGap false t).2

end Phrasebook.Script
