import Phrasebook.Proofs.EnclosedRuns
import Phrasebook.Proofs.TemplateTraces

/-!
Where the Han characters of a localized text stand.

The output of a pass is split into spans anew, and its spans need not be those of the source: a brace in
front of an inserted interpolation, or one that the source leaves open, moves the start of the code. But
code ends at the first closing brace, and neither a look-up call nor localized code holds one. So every
Han character of the output stands in a block `{{…}}` without closing braces in it (`Covered`), and
splitting a text from the left never cuts into such a block behind its start (`Covered.behind`). Hence no
literal span of the output holds a Han character, and a second pass works on code only
(`literals_localized_in_one_pass`).
-/

namespace Phrasebook

/-! ## Localized code -/

/-- Calls have no closing brace besides those of their argument. -/
theorem Bindings.closingBrace_not_mem_call {b : Bindings} (hb : '}' ∉ b.call []) {argument : Text}
    (h : '}' ∉ argument) : '}' ∉ b.call argument := by
  simp only [call, List.mem_append, List.mem_cons] at hb ⊢
  tauto

/-- Localized code has a closing brace only if the code has one. -/
theorem Script.closingBrace_not_mem_localizeExpression {b : Bindings} (hb : '}' ∉ b.call [])
    {code : Text} (h : '}' ∉ code) : '}' ∉ (localizeExpression b code).output := by
  unfold localizeExpression
  cases hp : parse code with
  | error e => exact h
  | ok tree =>
    have hchanged : '}' ∉ applyChanges b code (changesIn b .expression tree) := by
      intro hm
      rcases Edit.mem_apply hm with hm | ⟨e, he, hm⟩
      · exact h hm
      · obtain ⟨c, hc, hec⟩ := List.mem_flatMap.1 he
        obtain ⟨start, literal, value, rfl⟩ := isWrap_of_mem_changes b tree _ _ c hc
        obtain ⟨before, after, hsource, -⟩ : StandsAt tree.source literal start :=
          located_of_mem_changesIn hc
        rw [source_of_parse hp] at hsource
        rw [Change.edits, List.mem_singleton] at hec
        subst hec
        have hliteral : '}' ∉ literal := fun hl => h (by simp [hsource, hl])
        exact Bindings.closingBrace_not_mem_call hb hliteral hm
    have hcount := Escape.count_normalized_le (c := '}') (by decide) false
      (applyChanges b code (changesIn b .expression tree))
    rw [List.count_eq_zero_of_not_mem hchanged] at hcount
    exact List.count_eq_zero.1 (Nat.le_zero.1 hcount)

namespace Template

/-! ## Blocks -/

/-- Every Han character of a text stands in a block `{{…}}` without closing braces in it. Around the
blocks anything else may stand, braces too. -/
inductive Covered : Text → Prop
  | nil : Covered []
  | char {c : Char} {t : Text} (hc : isHan c = false) (ht : Covered t) : Covered (c :: t)
  | block {inner t : Text} (hb : '}' ∉ inner) (ht : Covered t) : Covered (braced inner ++ t)

/-- What stands behind the first closing braces of a text is covered as well: they end a block or stand
outside of all. -/
theorem Covered.behind {s u t : Text} (h : Covered s) (hs : s = u ++ '}' :: '}' :: t)
    (hu : '}' ∉ u) : Covered t := by
  induction h generalizing u with
  | nil => simp at hs
  | @char c s hc hcovered ih =>
    cases u with
    | nil =>
      obtain ⟨-, rfl⟩ := List.cons.inj hs
      -- the second brace starts no block
      generalize hw : '}' :: t = w at hcovered
      cases hcovered with
      | nil => cases hw
      | char _ ht =>
        cases hw
        exact ht
      | block _ _ => cases hw
    | cons d u => exact ih (List.cons.inj hs).2 fun hm => hu (List.mem_cons_of_mem d hm)
  | @block inner s hb hcovered _ =>
    have hs' : ('{' :: '{' :: inner) ++ '}' :: '}' :: s = u ++ '}' :: '}' :: t := by
      rw [← hs]
      simp [braced]
    obtain ⟨-, hrest⟩ := eq_and_eq_of_append_cons (by simpa using hb) hu hs'
    rw [← (List.cons.inj hrest).2]
    exact hcovered

/-- A pass leaves a text in which the Han characters stand in blocks. -/
theorem covered_localizeText {b : Bindings} (hb : '}' ∉ b.call []) (t : Text) :
    Covered (localizeText b t).output := by
  induction t using text_induction with
  | nil => exact .nil
  | code inner t hi ih =>
    rw [output_code b hi]
    have h := Covered.block (Script.closingBrace_not_mem_localizeExpression hb hi) ih
    simpa [braced] using h
  | char c t hc hi ih =>
    rw [output_char b hc hi]
    exact .char hc ih
  | run w t hne hw hh ih =>
    rw [output_run b hne hw hh]
    have hrun : '}' ∉ '\'' :: w ++ ['\''] := by
      intro hm
      simp only [List.cons_append, List.mem_cons, List.mem_append] at hm
      have hmem : '}' ∈ w := by simpa using hm
      exact absurd (hw '}' hmem) (by decide)
    have hcall : '}' ∉ ' ' :: b.call ('\'' :: w ++ ['\'']) ++ [' '] := by
      simpa using Bindings.closingBrace_not_mem_call hb hrun
    have h := Covered.block hcall ih
    simpa [braced, Bindings.interpolation] using h

/-! ## Spans -/

/-- The spelling of a span. -/
def Span.text : Span → Text
  | .literal t => t
  | .code inner => braced inner

theorem text_pushLiteral (c : Char) (ss : List Span) :
    (pushLiteral c ss).flatMap Span.text = c :: ss.flatMap Span.text := by
  unfold pushLiteral
  split <;> rfl

/-- The spans of a text make up the text. -/
theorem text_spans (t : Text) : (spans t).flatMap Span.text = t := by
  induction t using text_induction with
  | nil => rfl
  | code inner t hb ih =>
    rw [spans_code hb, List.flatMap_cons, ih]
    rfl
  | char c t hc hi ih => rw [spans_char hi, text_pushLiteral, ih]
  | run w t hne hw hh ih =>
    rcases spans_run hne hw t with ⟨l, rest, ht, hs⟩ | hs
    · rw [ht, List.flatMap_cons] at ih
      rw [hs, List.flatMap_cons, Span.text, List.append_assoc]
      exact congrArg (w ++ ·) ih
    · rw [hs, List.flatMap_cons, ih]
      rfl

/-- No literal span holds a Han character. -/
def LiteralsClear (ss : List Span) : Prop := ∀ l, Span.literal l ∈ ss → ∀ c ∈ l, isHan c = false

theorem LiteralsClear.pushLiteral {c : Char} {ss : List Span} (hc : isHan c = false)
    (h : LiteralsClear ss) : LiteralsClear (pushLiteral c ss) := by
  unfold Template.pushLiteral
  split
  · next l rest =>
    intro l' hl'
    rcases List.mem_cons.1 hl' with hl' | hl'
    · cases hl'
      exact List.forall_mem_cons.2 ⟨hc, h l (List.mem_cons_self ..)⟩
    · exact h l' (List.mem_cons_of_mem _ hl')
  · intro l' hl'
    rcases List.mem_cons.1 hl' with hl' | hl'
    · cases hl'
      exact List.forall_mem_singleton.2 hc
    · exact h l' hl'

/-- Where the spans of a covered text end, a covered text is left. So its Han characters are in code. -/
theorem Covered.literalsClear {t : Text} (h : Covered t) : LiteralsClear (spans t) := by
  induction t using text_induction with
  | nil =>
    intro l hl
    cases hl
  | code inner t hb ih =>
    have ht : Covered t := h.behind (u := '{' :: '{' :: inner) (by simp [braced]) (by simpa using hb)
    rw [spans_code hb]
    intro l hl
    exact ih ht l ((List.mem_cons.1 hl).resolve_left (by simp))
  | char c t hc hi ih =>
    rw [spans_char hi]
    refine .pushLiteral hc (ih ?_)
    generalize hs : c :: t = s at h
    cases h with
    | nil => cases hs
    | char _ ht =>
      cases hs
      exact ht
    | block hb _ =>
      -- a block at the start would be found
      rw [hs, interpolation?_eq_some_iff.2 ⟨hb, rfl⟩] at hi
      cases hi
  | run w t hne hw hh ih =>
    obtain ⟨c, w, rfl⟩ := List.exists_cons_of_ne_nil hne
    have hc : isHan c = true := hw c (List.mem_cons_self ..)
    generalize hs : c :: w ++ t = s at h
    cases h with
    | nil => cases hs
    | char hno _ =>
      rw [← (List.cons.inj hs).1, hc] at hno
      cases hno
    | block _ _ =>
      rw [(List.cons.inj hs).1] at hc
      exact absurd hc (by decide)

/-- The character behind `before` stands in the code of a span. -/
def StandsInCode (ss : List Span) (before : Text) (c : Char) : Prop :=
  ∃ front inner rest u v, ss = front ++ .code inner :: rest ∧ inner = u ++ c :: v ∧
    before = front.flatMap Span.text ++ '{' :: '{' :: u

theorem StandsInCode.cons {ss : List Span} {before : Text} {c : Char} (h : StandsInCode ss before c)
    (s : Span) : StandsInCode (s :: ss) (s.text ++ before) c := by
  obtain ⟨front, inner, rest, u, v, rfl, hu, rfl⟩ := h
  exact ⟨s :: front, inner, rest, u, v, rfl, hu, by rw [List.flatMap_cons, List.append_assoc]⟩

/-- A character that stands neither before nor behind the middle of a text stands in it. -/
theorem exists_split_of_middle {x y z before after : Text} {c : Char} (hx : c ∉ x) (hz : c ∉ z)
    (h : x ++ (y ++ z) = before ++ c :: after) : ∃ u v, before = x ++ u ∧ y = u ++ c :: v := by
  obtain ⟨u, rfl, hu⟩ : ∃ u, before = x ++ u ∧ y ++ z = u ++ c :: after := by
    rcases List.append_eq_append_iff.1 h with h | ⟨a, rfl, ha⟩
    · exact h
    · cases a with
      | nil => exact ⟨[], by simp, ha.symm⟩
      | cons d a =>
        obtain ⟨rfl, -⟩ := List.cons.inj ha
        exact absurd (by simp) hx
  rcases List.append_eq_append_iff.1 hu with ⟨a, -, rfl⟩ | ⟨a, rfl, ha⟩
  · exact absurd (by simp) hz
  · cases a with
    | nil =>
      rw [List.nil_append] at ha
      exact absurd (by simp [← ha]) hz
    | cons d v =>
      obtain ⟨rfl, -⟩ := List.cons.inj ha
      exact ⟨u, v, rfl, rfl⟩

/-- A Han character in a span that is not a literal with one stands in its code. -/
theorem standsInCode_of_span {s : Span} {before after : Text} {c : Char} (h : LiteralsClear [s])
    (hs : s.text = before ++ c :: after) (hc : isHan c = true) (ss : List Span) :
    StandsInCode (s :: ss) before c := by
  have hne : ∀ d : Char, isHan d = false → c ≠ d := by
    rintro d hd rfl
    rw [hc] at hd
    cases hd
  cases s with
  | literal l =>
    have hmem : c ∈ l := by
      rw [show l = before ++ c :: after from hs]
      simp
    exact absurd rfl (hne c (h l (List.mem_singleton_self _) c hmem))
  | code inner =>
    obtain ⟨u, v, rfl, rfl⟩ := exists_split_of_middle (x := ['{', '{']) (z := ['}', '}'])
      (by simp [hne '{' (by decide)]) (by simp [hne '}' (by decide)]) hs
    exact ⟨[], u ++ c :: v, ss, u, v, rfl, rfl, rfl⟩

theorem LiteralsClear.standsInCode {ss : List Span} {before after : Text} {c : Char}
    (h : LiteralsClear ss) (hs : ss.flatMap Span.text = before ++ c :: after) (hc : isHan c = true) :
    StandsInCode ss before c := by
  induction ss generalizing before with
  | nil => simp at hs
  | cons s ss ih =>
    have hhere : LiteralsClear [s] := fun l hl =>
      h l (List.mem_cons.2 (.inl (List.mem_singleton.1 hl)))
    have hlater : LiteralsClear ss := fun l hl => h l (List.mem_cons_of_mem s hl)
    rw [List.flatMap_cons] at hs
    -- the character stands in the first span or behind it
    rcases List.append_eq_append_iff.1 hs with ⟨a, rfl, ha⟩ | ⟨a, hsa, ha⟩
    · exact (ih hlater ha).cons s
    · cases a with
      | nil =>
        rw [List.append_nil] at hsa
        have hback : StandsInCode ss [] c := ih hlater ha.symm
        have hfront := hback.cons s
        rwa [List.append_nil, hsa] at hfront
      | cons d a =>
        obtain ⟨rfl, -⟩ := List.cons.inj ha
        exact standsInCode_of_span hhere hsa hc ss

/-! ## A second pass -/

/-- Localizes a span of which only code is touched. -/
def localizeCode (b : Bindings) : Span → Localized
  | .literal t => .plain t
  | .code inner =>
    .plain "\x7b\x7b".toList ++ Script.localizeExpression b inner ++ .plain "\x7d\x7d".toList

theorem localizeLiteral_of_clear (b : Bindings) {t : Text} (h : ∀ c ∈ t, isHan c = false) :
    localizeLiteral b t = .plain t := by
  induction t with
  | nil => rfl
  | cons c t ih =>
    obtain ⟨hc, ht⟩ := List.forall_mem_cons.1 h
    rw [localizeLiteral_char b hc, ih ht]
    rfl

theorem localizeText_of_literalsClear (b : Bindings) {t : Text} (h : LiteralsClear (spans t)) :
    localizeText b t = .concat ((spans t).map (localizeCode b)) := by
  refine congrArg Localized.concat (List.map_congr_left ?_)
  intro s hs
  cases s with
  | literal l => exact localizeLiteral_of_clear b (h l hs)
  | code inner => rfl

/-- After one pass the literal text of a template is done. The spans that the output is split into make
up the output, none of the literal ones holds a Han character, every Han character of the output
stands in the code of one of the others, and a second pass copies the literal spans and finds texts in
code only. -/
theorem literals_localized_in_one_pass (t : Text) :
    (spans (localizeText {} t).output).flatMap Span.text = (localizeText {} t).output ∧
      LiteralsClear (spans (localizeText {} t).output) ∧
      (∀ before c after, (localizeText {} t).output = before ++ c :: after → isHan c = true →
        StandsInCode (spans (localizeText {} t).output) before c) ∧
      localizeText {} (localizeText {} t).output =
        .concat ((spans (localizeText {} t).output).map (localizeCode {})) := by
  have hclear := (covered_localizeText (b := {}) (by decide) t).literalsClear
  refine ⟨text_spans _, hclear, ?_, localizeText_of_literalsClear {} hclear⟩
  intro before c after hout hc
  exact hclear.standsInCode (by rw [text_spans, hout]) hc

/-- A brace of the source in front of an inserted interpolation belongs to the braces of the code. -/
example : spans (localizeText {} "a\x7b你好".toList).output =
    [.literal ['a'], .code "\x7b i18n.t('你好') ".toList] := by decide +kernel

end Template

end Phrasebook
