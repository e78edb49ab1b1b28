import Phrasebook.Script.Localize
import Phrasebook.Text.Natural

/-!
The texts and attribute values of a template. Such a text is a row of literal spans and of
interpolations, that is code between `{{` and `}}` without a closing brace in it. Runs of Han
characters in a literal span become interpolations that look them up; the code of an interpolation is
localized as an expression.
-/

namespace Phrasebook.Template

/-- A part of a template's text. -/
inductive Span where
  | literal (text : Text)
  /-- Code between double braces. -/
  | code (inner : Text)
  deriving DecidableEq, Repr

/-- The interpolation that a text starts with: its code and what follows. -/
def interpolation? : Text → Option (Text × Text)
  | '{' :: '{' :: t =>
    match t.dropWhile (· != '}') with
    | '}' :: '}' :: rest => some (t.takeWhile (· != '}'), rest)
    | _ => none
  | _ => none

/-- Puts a character in front of a row of spans. -/
def pushLiteral (c : Char) : List Span → List Span
  | .literal t :: rest => .literal (c :: t) :: rest
  | spans => .literal [c] :: spans

/-- The spans of a text; each step takes at least one character. -/
def spansFuel : Nat → Text → List Span
  | 0, _ => []
  | _ + 1, [] => []
  | fuel + 1, c :: t =>
    match interpolation? (c :: t) with
    | some (inner, rest) => .code inner :: spansFuel fuel rest
    | none => pushLiteral c (spansFuel fuel t)

/-- The spans of a text, in order. -/
def spans (t : Text) : List Span := spansFuel t.length t

/-- Localizes a literal of which `rest` is left after byte `position`, given its segments there. -/
def localizeSegments (b : Bindings) (position : Nat) (rest : Text) : List Text.Segment → Localized
  | [] => .plain rest
  | s :: segments =>
    let (before, after) := Text.splitAtByte (s.start - position) rest
    let (_, after) := Text.splitAtByte s.whole.byteSize after
    ⟨before ++ s.leading ++ b.interpolation s.text ++ s.trailing, [s.text]⟩ ++
      localizeSegments b s.stop after segments

/-- Localizes a literal span: each run of Han characters is looked up. -/
def localizeLiteral (b : Bindings) (t : Text) : Localized := localizeSegments b 0 t t.segments

/-- Localizes a span. -/
def localizeSpan (b : Bindings) : Span → Localized
  | .literal t => localizeLiteral b t
  | .code inner =>
    .plain "\x7b\x7b".toList ++ Script.localizeExpression b inner ++ .plain "\x7d\x7d".toList

/-- Localizes a text or an attribute value. -/
def localizeText (b : Bindings) (t : Text) : Localized :=
  .concat ((spans t).map (localizeSpan b))

end Phrasebook.Template
