import Phrasebook.Proofs.Respelling
import Phrasebook.Proofs.Writing

/-!
Which tags and comments localizing brings into the texts of a document.

Interpolations start and end with braces, and restored escapes are no ASCII characters, so neither can
make a tag or a comment of what stands next to it. That leaves the calls that are put around literals in
code: a call starts with a letter, and behind a `<` a letter opens a tag. This is the only way
(`opensMarkup_localizeText`), so a document keeps its structure exactly when no call is put behind a
`<` (`structure_kept_iff`).
-/

namespace Phrasebook

namespace Markup

/-! ## Openers and neighbours -/

theorem opensMarkup_cons {c : Char} (h : c ≠ '<') (t : Text) :
    opensMarkup (c :: t) = opensMarkup t := by
  have hat : atMarkup (c :: t) = false := by
    rw [← Bool.not_eq_true]
    intro hm
    obtain ⟨t', ht⟩ := exists_cons_of_atMarkup hm
    exact h (List.cons.inj ht).1
  rw [opensMarkup, hat, Bool.false_or]

theorem opensMarkup_append {w : Text} (h : '<' ∉ w) (t : Text) :
    opensMarkup (w ++ t) = opensMarkup t := by
  induction w with
  | nil => rfl
  | cons c w ih =>
    rw [List.mem_cons, not_or] at h
    rw [List.cons_append, opensMarkup_cons (Ne.symm h.1), ih h.2]

theorem opensMarkup_of_isInfix {s t : Text} (h : s <:+: t) (ht : opensMarkup t = false) :
    opensMarkup s = false := by
  rw [← Bool.not_eq_true] at ht ⊢
  intro hs
  obtain ⟨w, hw, hin⟩ := opensMarkup_iff.1 hs
  exact ht (opensMarkup_iff.2 ⟨w, hw, hin.trans h⟩)

/-- A closing parenthesis or brace belongs to no opener. -/
theorem opensMarkup_append_separator {c : Char} (hc : isOpenerTail c = false) (hl : c ≠ '<')
    (s t : Text) : opensMarkup (s ++ c :: t) = (opensMarkup s || opensMarkup t) := by
  rw [opensMarkup_append_cons hc, opensMarkup_cons hl]

/-- A text that a letter makes open a tag. -/
def EndsInOpener (s : Text) : Prop := ['<'] <:+ s ∨ ['<', '/'] <:+ s

theorem opensMarkup_append_letter {c : Char} (hc : Text.isAsciiLetter c = true) (s : Text) :
    opensMarkup (s ++ [c]) = true ↔ opensMarkup s = true ∨ EndsInOpener s := by
  rw [opensMarkup_iff, opensMarkup_iff]
  constructor
  · rintro ⟨w, hw, hin⟩
    rcases List.infix_concat_iff.1 hin with hs | hin
    · right
      -- the opener ends with the letter, and the rest of it ends `s`
      have hdash : c ≠ '-' := by
        rintro rfl
        exact absurd hc (by decide)
      obtain ⟨u, hu⟩ := hs
      rcases hw with rfl | ⟨d, -, rfl | rfl⟩
      · have := congrArg List.getLast? hu
        simp at this
        exact absurd this.symm hdash
      · refine .inr ⟨u, ?_⟩
        have := List.append_inj_left' (show (u ++ ['<', '/']) ++ [d] = s ++ [c] by simpa using hu) rfl
        exact this
      · refine .inl ⟨u, ?_⟩
        have := List.append_inj_left' (show (u ++ ['<']) ++ [d] = s ++ [c] by simpa using hu) rfl
        exact this
    · exact .inl ⟨w, hw, hin⟩
  · rintro (⟨w, hw, hin⟩ | ⟨u, rfl⟩ | ⟨u, rfl⟩)
    · exact ⟨w, hw, hin.trans (List.prefix_append _ _).isInfix⟩
    · exact ⟨['<', c], .inr ⟨c, hc, .inr rfl⟩, u, [], by simp⟩
    · exact ⟨['<', '/', c], .inr ⟨c, hc, .inl rfl⟩, u, [], by simp⟩

/-- The start of a call opens a tag exactly behind `<` or `</`. -/
theorem opensMarkup_append_call (s t : Text) :
    opensMarkup (s ++ ("i18n.t(".toList ++ t)) = true ↔
      opensMarkup s = true ∨ EndsInOpener s ∨ opensMarkup t = true := by
  have htext : s ++ ("i18n.t(".toList ++ t) = (s ++ ['i']) ++ '1' :: ("8n.t(".toList ++ t) := by
    simp
  rw [htext, opensMarkup_append_separator (by decide) (by decide), Bool.or_eq_true,
    opensMarkup_append_letter (by decide), opensMarkup_append (by decide), or_assoc]

/-- What stands before a closing parenthesis does not count. -/
theorem endsInOpener_append_cons {c : Char} (h : c ∉ ['<', '/']) (s t : Text) :
    EndsInOpener (s ++ c :: t) ↔ EndsInOpener t := by
  have hsuffix : ∀ w : Text, c ∉ w → (w <:+ s ++ c :: t ↔ w <:+ t) := by
    intro w hw
    constructor
    · intro hs
      rcases List.suffix_or_suffix_of_suffix hs (List.suffix_append s (c :: t)) with h' | h'
      · rcases List.suffix_cons_iff.1 h' with rfl | h'
        · exact absurd (List.mem_cons_self ..) hw
        · exact h'
      · exact absurd (h'.subset (List.mem_cons_self ..)) hw
    · intro hs
      exact (hs.trans (List.suffix_cons _ _)).trans (List.suffix_append _ _)
  unfold EndsInOpener
  rw [hsuffix ['<'] (by simpa using fun h' => h (by simp [h'])), hsuffix ['<', '/'] h]

/-! ## Restored escapes -/

/-- ASCII characters that are not part of an escape stay where they are. -/
theorem isPrefix_normalized_iff {w : Text} (hw : ∀ c ∈ w, c = '<' ∨ isOpenerTail c = true) (odd : Bool)
    (t : Text) : w <+: Escape.normalized odd t ↔ w <+: t := by
  have hchar : ∀ c, c = '<' ∨ isOpenerTail c = true → c ≠ '\\' ∧ isNaturalChar c = false := by
    intro c hc
    have hsmall : c ≠ '\\' ∧ c.toNat < 0x2E80 := by
      rcases hc with rfl | hc
      · decide
      · simp only [isOpenerTail, Bool.or_eq_true, beq_iff_eq] at hc
        rcases hc with ((rfl | rfl) | rfl) | hc
        · decide
        · decide
        · decide
        · refine ⟨?_, ?_⟩
          · rintro rfl
            exact absurd hc (by decide)
          · simp only [Text.isAsciiLetter, Bool.or_eq_true, Bool.and_eq_true, decide_eq_true_eq] at hc
            have hz : c.toNat ≤ 'z'.toNat := by
              rcases hc with hc | hc
              · exact hc.2
              · exact Nat.le_trans hc.2 (by decide)
            exact Nat.lt_of_le_of_lt hz (by decide)
    refine ⟨hsmall.1, ?_⟩
    rw [← Bool.not_eq_true]
    intro hn
    have := Escape.le_toNat_of_isNaturalChar hn
    omega
  induction w generalizing odd t with
  | nil => simp
  | cons c w ih =>
    obtain ⟨hb, hn⟩ := hchar c (hw c (List.mem_cons_self ..))
    have ih' := fun odd t => ih (fun d hd => hw d (List.mem_cons_of_mem _ hd)) odd t
    constructor
    · rintro ⟨rest, h⟩
      obtain ⟨t', rfl, ht'⟩ := Escape.of_normalized_eq_cons hb hn h.symm
      rw [List.cons_prefix_cons]
      exact ⟨rfl, (ih' false t').1 ⟨rest, ht'.symm⟩⟩
    · rintro ⟨rest, rfl⟩
      rw [List.cons_append, Escape.normalized_char (Escape.read?_cons_of_ne hb _),
        List.cons_prefix_cons]
      exact ⟨rfl, (ih' _ _).2 (List.prefix_append _ _)⟩

theorem IsOpener.forall_mem {w : Text} (h : IsOpener w) : ∀ c ∈ w, c = '<' ∨ isOpenerTail c = true := by
  obtain ⟨tail, rfl, -, htail⟩ := h.eq_cons
  intro c hc
  rcases List.mem_cons.1 hc with rfl | hc
  · exact .inl rfl
  · exact .inr (htail c hc)

theorem atMarkup_normalized (odd : Bool) (t : Text) :
    atMarkup (Escape.normalized odd t) = atMarkup t := by
  rw [Bool.eq_iff_iff, atMarkup_iff, atMarkup_iff]
  constructor
  · rintro ⟨w, hw, h⟩
    exact ⟨w, hw, (isPrefix_normalized_iff hw.forall_mem odd t).1 h⟩
  · rintro ⟨w, hw, h⟩
    exact ⟨w, hw, (isPrefix_normalized_iff hw.forall_mem odd t).2 h⟩

/-- Restoring escapes neither makes nor breaks a tag or a comment. -/
theorem opensMarkup_normalized (odd : Bool) (t : Text) :
    opensMarkup (Escape.normalized odd t) = opensMarkup t := by
  induction odd, t using Escape.normalized_induction with
  | nil odd => rfl
  | char odd c t hr ih =>
    have hat := atMarkup_normalized odd (c :: t)
    rw [Escape.normalized_char hr] at hat ⊢
    rw [opensMarkup, opensMarkup, hat, ih]
  | run odd run rest hw hne hr ih =>
    have hrun : '<' ∉ Escape.runText run := by
      intro hm
      rcases Escape.isInner_or_eq_of_mem_runText hw hm with h | h
      · exact absurd h (by decide)
      · exact absurd h (by decide)
    have hrestored : '<' ∉ (if odd then Escape.runText run else Escape.restoreRun run) := by
      split
      · exact hrun
      · rcases Escape.restoreRun_cases run with h | ⟨-, h⟩
        · rw [h]
          exact hrun
        · intro hm
          exact absurd (h '<' hm) (by decide)
    rw [Escape.normalized_run hw hne hr, opensMarkup_append hrestored, opensMarkup_append hrun, ih]

end Markup

/-! ## Calls in code -/

namespace Script

open Markup

mutual

theorem mark_ne_renamed_of_mem_row {b : Bindings} :
    ∀ (t : Tree) (place : Place), ∀ k ∈ row b .expression place false t, k.mark ≠ .renamed
  | .leaf _ _ gap text, place, k, hk => by
    rw [row, List.mem_singleton] at hk
    subst hk
    exact fun h => by cases h
  | .node role kind children, place, k, hk => by
    rw [row] at hk
    split at hk
    · rw [List.mem_singleton] at hk
      subst hk
      dsimp only
      split <;> exact fun h => by cases h
    · exact mark_ne_renamed_of_mem_rowAll children _ k hk

theorem mark_ne_renamed_of_mem_rowAll {b : Bindings} :
    ∀ (ts : List Tree) (place : Place), ∀ k ∈ rowAll b .expression place false ts, k.mark ≠ .renamed
  | [], place, k, hk => by
    rw [rowAll] at hk
    cases hk
  | t :: ts, place, k, hk => by
    rw [rowAll, Bool.false_and, Bool.false_and] at hk
    rcases List.mem_append.1 hk with hk | hk
    · exact mark_ne_renamed_of_mem_row t place k hk
    · exact mark_ne_renamed_of_mem_rowAll ts place k hk

end

/-- Somewhere in a row of tokens a call is written behind `<` or `</`; `before` stands before the row. -/
def PutsCallBehindOpener (before : Text) (ks : List Token) : Prop :=
  ∃ ls k rs, ks = ls ++ k :: rs ∧ k.mark = .wrapped ∧
    EndsInOpener (before ++ respell {} ls ++ k.gap)

theorem putsCallBehindOpener_cons {before : Text} {k : Token} {ks : List Token} :
    PutsCallBehindOpener before (k :: ks) ↔
      (k.mark = .wrapped ∧ EndsInOpener (before ++ k.gap)) ∨
        PutsCallBehindOpener (before ++ k.respelled {}) ks := by
  constructor
  · rintro ⟨ls, l, rs, hks, hl, he⟩
    cases ls with
    | nil =>
      obtain ⟨rfl, -⟩ := List.cons.inj hks
      exact .inl ⟨hl, by simpa [respell] using he⟩
    | cons m ls =>
      obtain ⟨rfl, hks'⟩ := List.cons.inj hks
      exact .inr ⟨ls, l, rs, hks', hl, by simpa [respell] using he⟩
  · rintro (⟨hk, he⟩ | ⟨ls, l, rs, rfl, hl, he⟩)
    · exact ⟨[], k, ks, rfl, hk, by simpa [respell] using he⟩
    · exact ⟨k :: ls, l, rs, rfl, hl, by simpa [respell] using he⟩

/-- What stands before a closing parenthesis does not matter to the calls behind it. -/
theorem putsCallBehindOpener_append_cons {before after : Text} {ks : List Token} :
    PutsCallBehindOpener (before ++ ')' :: after) ks ↔ PutsCallBehindOpener after ks := by
  have hsame : ∀ t : Text, EndsInOpener (before ++ ')' :: after ++ t) ↔ EndsInOpener (after ++ t) := by
    intro t
    rw [List.append_assoc, List.cons_append, endsInOpener_append_cons (by decide)]
  unfold PutsCallBehindOpener
  simp only [List.append_assoc] at hsame ⊢
  simp only [hsame]

/-- Respelling a row of tokens opens a tag exactly where it puts a call behind `<` or `</`. -/
theorem opensMarkup_respell {ks : List Token} (hr : ∀ k ∈ ks, k.mark ≠ .renamed) (before : Text)
    (h : opensMarkup (before ++ rowSource ks) = false) :
    opensMarkup (before ++ respell {} ks) = true ↔ PutsCallBehindOpener before ks := by
  induction ks generalizing before with
  | nil =>
    have hno : ¬ PutsCallBehindOpener before [] := by
      rintro ⟨ls, k, rs, hks, -⟩
      simp at hks
    have hb : opensMarkup (before ++ respell {} []) = false := h
    rw [hb]
    simp [hno]
  | cons k ks ih =>
    obtain ⟨hk, hks⟩ := List.forall_mem_cons.1 hr
    have hsource : before ++ rowSource (k :: ks) = before ++ k.source ++ rowSource ks := by
      simp [rowSource]
    have hspell : before ++ respell {} (k :: ks) = before ++ k.respelled {} ++ respell {} ks := by
      simp [respell]
    rw [hsource] at h
    rw [hspell, putsCallBehindOpener_cons]
    cases hm : k.mark with
    | renamed => exact absurd hm hk
    | kept =>
      have hsame : k.respelled {} = k.source := by
        simp [Token.respelled, Token.pieces, hm, Token.source]
      rw [hsame, ih hks _ h]
      simp
    | wrapped =>
      have hgap : opensMarkup (before ++ k.gap) = false := by
        refine opensMarkup_of_isInfix ?_ h
        exact ⟨[], k.text ++ rowSource ks, by simp [Token.source]⟩
      have htext : opensMarkup k.text = false := by
        refine opensMarkup_of_isInfix ?_ h
        exact ⟨before ++ k.gap, rowSource ks, by simp [Token.source]⟩
      have hrest : opensMarkup (rowSource ks) = false :=
        opensMarkup_of_isInfix (List.suffix_append _ _).isInfix h
      have hcall : k.respelled {} = k.gap ++ "i18n.t(".toList ++ k.text ++ [')'] := by
        simp [Token.respelled, Token.pieces, hm]
      have hout : before ++ k.respelled {} ++ respell {} ks =
          (before ++ k.gap) ++ ("i18n.t(".toList ++ (k.text ++ ')' :: respell {} ks)) := by
        rw [hcall]
        simp
      have hafter : before ++ k.respelled {} =
          (before ++ k.gap ++ "i18n.t(".toList ++ k.text) ++ ')' :: [] := by
        rw [hcall]
        simp
      have ih' := ih hks [] hrest
      rw [List.nil_append] at ih'
      rw [hout, opensMarkup_append_call, hgap,
        opensMarkup_append_separator (by decide) (by decide), htext, Bool.false_or, ih', hafter,
        putsCallBehindOpener_append_cons]
      simp

/-- An expression in which localizing puts a call behind `<` or `</`. -/
def CallBehindOpener (code : Text) : Prop :=
  ∃ tree, parse code = .ok tree ∧ PutsCallBehindOpener [] (tokenRow {} .expression tree)

theorem opensMarkup_localizeExpression {code : Text} (h : opensMarkup code = false) :
    opensMarkup (localizeExpression {} code).output = true ↔ CallBehindOpener code := by
  unfold localizeExpression CallBehindOpener
  cases hp : parse code with
  | error e => simp [h]
  | ok tree =>
    have hsource : rowSource (tokenRow {} .expression tree) = code := by
      rw [tokenRow, rowSource_row, source_of_parse hp]
    have hchanges : applyChanges {} code (changesIn {} .expression tree) = _ :=
      applyChanges_eq_respell (by decide) (by simp) hp
    have hrenamed : ∀ k ∈ tokenRow {} .expression tree, k.mark ≠ .renamed :=
      mark_ne_renamed_of_mem_row tree _
    have hrespell := opensMarkup_respell hrenamed [] (by rw [List.nil_append, hsource]; exact h)
    dsimp only
    rw [hchanges, Text.normalizeEscapes]
    have hnormalized := opensMarkup_normalized false (respell {} (tokenRow {} .expression tree))
    rw [Escape.normalized] at hnormalized
    rw [hnormalized]
    rw [List.nil_append] at hrespell
    rw [hrespell]
    simp

end Script

/-! ## Texts -/

namespace Template

open Markup
open Script (CallBehindOpener)

theorem output_ne_nil (b : Bindings) {t : Text} (h : t ≠ []) : (localizeText b t).output ≠ [] := by
  cases t using text_induction with
  | nil => exact absurd rfl h
  | code inner t hb => simp [output_code b hb]
  | char c t hc hi => simp [output_char b hc hi]
  | run w t hne hw ht => simp [output_run b hne hw ht, Bindings.interpolation]

/-- Localizing a text puts nothing but braces in front of what could be the rest of an opener. -/
theorem isPrefix_of_isPrefix_output (b : Bindings) {w : Text} (hw : ∀ c ∈ w, isOpenerTail c = true)
    {t : Text} (h : w <+: (localizeText b t).output) : w <+: t := by
  cases w with
  | nil => exact List.nil_prefix
  | cons d w =>
    obtain ⟨hd, hw'⟩ := List.forall_mem_cons.1 hw
    have hbrace : d ≠ '{' := by
      rintro rfl
      exact absurd hd (by decide)
    cases t using text_induction with
    | nil => exact h
    | code inner t hb =>
      rw [output_code b hb] at h
      exact absurd (List.cons_prefix_cons.1 h).1 hbrace
    | char c t hc hi =>
      rw [output_char b hc hi] at h
      obtain ⟨rfl, h'⟩ := List.cons_prefix_cons.1 h
      exact List.cons_prefix_cons.2 ⟨rfl, isPrefix_of_isPrefix_output b hw' h'⟩
    | run u t hne hu ht =>
      rw [output_run b hne hu ht] at h
      exact absurd (List.cons_prefix_cons.1 h).1 hbrace

theorem code_mem_pushLiteral {c : Char} {inner : Text} {ss : List Span} :
    .code inner ∈ pushLiteral c ss ↔ .code inner ∈ ss := by
  unfold pushLiteral
  split <;> simp

/-- Localizing a text that opens no tag and no comment opens one exactly when it puts a call behind `<`
or `</` in the code of an interpolation. -/
theorem opensMarkup_localizeText {t : Text} (h : opensMarkup t = false) :
    opensMarkup (localizeText {} t).output = true ↔
      ∃ inner, .code inner ∈ spans t ∧ CallBehindOpener inner := by
  induction t using text_induction with
  | nil =>
    have hno : ∀ inner, Span.code inner ∉ spans [] := by
      intro inner hm
      cases hm
    simp [localizeText_nil, opensMarkup, hno]
  | code inner t hb ih =>
    have hinner : opensMarkup inner = false := by
      refine opensMarkup_of_isInfix ?_ h
      exact ⟨['{', '{'], ['}', '}'] ++ t, by simp [braced]⟩
    have ht : opensMarkup t = false := opensMarkup_of_isInfix (List.suffix_append _ _).isInfix h
    rw [output_code {} hb, opensMarkup_cons (by decide), opensMarkup_cons (by decide),
      opensMarkup_append_separator (by decide) (by decide), opensMarkup_cons (by decide),
      Bool.or_eq_true, Script.opensMarkup_localizeExpression hinner, ih ht, spans_code hb]
    simp
  | char c t hc hi ih =>
    have ht : opensMarkup t = false := opensMarkup_of_isInfix (List.suffix_cons _ _).isInfix h
    have hat : atMarkup (c :: (localizeText {} t).output) = false := by
      rw [← Bool.not_eq_true, atMarkup_iff]
      rintro ⟨w, hw, hp⟩
      obtain ⟨tail, rfl, -, htail⟩ := hw.eq_cons
      obtain ⟨rfl, hp'⟩ := List.cons_prefix_cons.1 hp
      -- the opener would have stood in the text before
      have hbefore : '<' :: tail <+: '<' :: t :=
        List.cons_prefix_cons.2 ⟨rfl, isPrefix_of_isPrefix_output {} htail hp'⟩
      have hopens := opensMarkup_iff.2 ⟨_, hw, hbefore.isInfix⟩
      rw [h] at hopens
      cases hopens
    rw [output_char {} hc hi, opensMarkup, hat, Bool.false_or, ih ht, spans_char hi]
    simp only [code_mem_pushLiteral]
  | run w t hne hw ht' ih =>
    have ht : opensMarkup t = false := opensMarkup_of_isInfix (List.suffix_append _ _).isInfix h
    have hplain : '<' ∉ Bindings.interpolation {} w := by
      have hhan : '<' ∉ w := by
        intro hm
        exact absurd (hw '<' hm) (by decide)
      simp [Bindings.interpolation, Bindings.call, hhan]
    have hcode : ∀ inner, .code inner ∈ spans (w ++ t) ↔ .code inner ∈ spans t := by
      intro inner
      rcases spans_run hne hw t with ⟨l, rest, hl, hs⟩ | hs
      · simp [hs, hl]
      · simp [hs]
    rw [output_run {} hne hw ht', opensMarkup_append hplain, ih ht]
    simp only [hcode]

/-! ## Documents -/

/-- A document whose texts and values are localized and that is otherwise the same. -/
def withLocalizedTexts (b : Bindings) (d : Document) : Document :=
  ⟨mapNodes id (fun t => (localizeText b t).output) (fun v => quotable (localizeText b v).output) false
    d.children⟩

/-- What localizing writes for a well-formed document is read back as the document with its texts and
values localized exactly when, in the interpolations of its texts, no call is put behind `<` or `</`. -/
theorem structure_kept_iff {d : Document} (hl : Legal d.children) (ha : TextsApart d.children)
    (hn : ∀ tag ∈ tagsOf d.children, ¬ "wx-".toList <+: tag.name) :
    parse (nodesForm {} false d.children).output = .ok (withLocalizedTexts {} d) ↔
      ∀ t ∈ textsOf d.children, ∀ code, .code code ∈ spans t → ¬ CallBehindOpener code := by
  have hnodes : localizedNodes {} false d.children = (withLocalizedTexts {} d).children :=
    mapNodes_congr hl (fun tag h => writtenName_eq_self (hn tag h)) (fun _ _ => rfl) fun _ _ => rfl
  have hlegal : ∀ t ∈ textsOf d.children, t ≠ [] ∧ opensMarkup t = false :=
    fun t ht => hl _ (mem_textsOf.1 ht)
  have htexts : (∀ t ∈ textsOf d.children, ∀ code, .code code ∈ spans t → ¬ CallBehindOpener code) ↔
      ∀ t ∈ textsOf d.children, opensMarkup (localizeText {} t).output = false := by
    refine forall₂_congr fun t ht => ?_
    rw [← Bool.not_eq_true, opensMarkup_localizeText (hlegal t ht).2]
    simp
  rw [htexts, output_nodesForm, hnodes]
  constructor
  · intro h t ht
    have hread := legal_of_parse h
    have hmem : (localizeText {} t).output ∈ textsOf (withLocalizedTexts {} d).children := by
      rw [withLocalizedTexts, textsOf_mapNodes]
      exact List.mem_map_of_mem ht
    exact (hread _ (mem_textsOf.1 hmem)).2
  · intro h
    refine parse_nodesText (hl.mapNodes _ _ ?_) (ha.mapNodes _ _) ?_
    · intro t ht
      exact ⟨output_ne_nil {} (hlegal t ht).1, h t ht⟩
    · intro v hv
      rw [withLocalizedTexts, valuesOf_mapNodes] at hv
      obtain ⟨v', -, rfl⟩ := List.mem_map.1 hv
      exact not_both_quotable _

/-- A page with natural text in a value that holds both kinds of quotes and around a condition. -/
def naturalPage : Document :=
  ⟨[.element ⟨"view".toList, [⟨"title".toList, some "标题 \"a\" 'b'".toList⟩]⟩
      [.text "共\x7b\x7b n < 2 ? '一' : '多' \x7d\x7d条".toList]]⟩

theorem structure_kept_on_page :
    parse (nodesForm {} false naturalPage.children).output = .ok (withLocalizedTexts {} naturalPage) := by
  refine (structure_kept_iff (by decide +kernel) (by decide +kernel) (by decide +kernel)).2 ?_
  have htexts : textsOf naturalPage.children =
      ["共\x7b\x7b n < 2 ? '一' : '多' \x7d\x7d条".toList] := by
    decide +kernel
  have hspans : spans "共\x7b\x7b n < 2 ? '一' : '多' \x7d\x7d条".toList =
      [.literal ['共'], .code " n < 2 ? '一' : '多' ".toList, .literal ['条']] := by
    decide +kernel
  intro t ht code hcode
  rw [htexts, List.mem_singleton] at ht
  subst ht
  rw [hspans] at hcode
  simp only [List.mem_cons, reduceCtorEq, Span.code.injEq, List.not_mem_nil, or_false,
    false_or] at hcode
  subst hcode
  rw [← Script.opensMarkup_localizeExpression (by decide)]
  decide +kernel

/-- Localizing can break the structure of a document: in `{{a<'你好'}}` the call is put behind `<`, and
the rest of the text becomes a tag. -/
theorem comparison_becomes_tag :
    ¬ ∀ d : Document, Legal d.children → TextsApart d.children →
      (∀ tag ∈ tagsOf d.children, ¬ "wx-".toList <+: tag.name) →
        parse (nodesForm {} false d.children).output = .ok (withLocalizedTexts {} d) := by
  intro h
  have hread := h ⟨[.element ⟨"view".toList, []⟩ [.text "\x7b\x7ba<'你好'\x7d\x7d".toList]]⟩
    (by decide +kernel) (by decide +kernel) (by decide +kernel)
  have htexts := congrArg (fun r => r.toOption.map fun d => textsOf d.children) hread
  exact absurd htexts (by decide +kernel)

end Template

end Phrasebook
