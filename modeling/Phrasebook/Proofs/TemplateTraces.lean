import Phrasebook.Proofs.SecondRun
import Phrasebook.Proofs.TemplateTexts

/-!
What localizing a text leaves behind.

* Every text that is found leaves a closing parenthesis, and nothing takes one away.
* When no text is found, escapes in code may be restored, and nothing else happens (`Restores`).

So a change always shows: closing parentheses are added, or none is taken away and the text becomes
shorter (`Moves`).
-/

namespace Phrasebook

/-- One text is another one, or at least shorter. -/
def SameOrShorter (s t : Text) : Prop := t = s ∨ t.length < s.length

namespace SameOrShorter

theorem refl (s : Text) : SameOrShorter s s := .inl rfl

theorem length_le {s t : Text} (h : SameOrShorter s t) : t.length ≤ s.length := by
  rcases h with rfl | h
  · exact Nat.le_refl _
  · exact Nat.le_of_lt h

theorem append {s s' t t' : Text} (h : SameOrShorter s t) (h' : SameOrShorter s' t') :
    SameOrShorter (s ++ s') (t ++ t') := by
  have hle := h.length_le
  have hle' := h'.length_le
  rcases h with rfl | h
  · rcases h' with rfl | h'
    · exact .inl rfl
    · right
      simp only [List.length_append]
      omega
  · right
    simp only [List.length_append]
    omega

end SameOrShorter

/-! ## Restoring escapes -/

namespace Units

theorem length_decode_le (units : List CodeUnit) : (decode units).length ≤ units.length := by
  induction units using decode.induct with
  | case1 => exact Nat.le_refl _
  | case2 u => simp [decode]
  | case3 u v rest hu hv ih =>
    simp only [decode, hu, hv, if_true, List.length_cons]
    omega
  | case4 u v rest hu hv ih =>
    simp only [decode, hu, hv, if_true, List.length_cons] at ih ⊢
    simpa using ih
  | case5 u v rest hu ih =>
    simp only [decode, hu, List.length_cons] at ih ⊢
    simpa using ih

theorem length_decode?_le {units : List CodeUnit} {t : Text} (h : decode? units = some t) :
    t.length ≤ units.length := by
  have hlen : ∀ {l : List (Option Char)} {t : Text}, l.mapM id = some t → t.length = l.length := by
    intro l
    induction l with
    | nil =>
      intro t h
      cases h
      rfl
    | cons a l ih =>
      intro t h
      rw [List.mapM_cons] at h
      obtain ⟨c, -, h⟩ := Option.bind_eq_some_iff.1 h
      obtain ⟨t', ht', h⟩ := Option.bind_eq_some_iff.1 h
      cases h
      rw [List.length_cons, List.length_cons, ih ht']
  rw [hlen h]
  exact length_decode_le units

theorem length_encodeChar_le (c : Char) : (encodeChar c).length ≤ 2 := by
  unfold encodeChar
  split <;> simp

end Units

namespace Escape

theorem length_units?_le {e : Escape} {us : List Units.CodeUnit} (h : e.units? = some us) :
    us.length ≤ 2 := by
  unfold units? at h
  split at h
  · cases h
    exact Nat.le_succ 1
  · dsimp only at h
    split at h
    · cases h
      exact Units.length_encodeChar_le _
    · cases h

theorem five_le_length_text {e : Escape} (h : e.WellFormed) : 5 ≤ e.text.length := by
  cases e with
  | plain digits =>
    have := h.1
    simp only [text, List.length_cons]
    omega
  | braced digits =>
    have := h.1
    simp only [text, List.length_cons, List.length_append, List.length_nil]
    omega

/-- A run of escapes is at least twice as long as what it spells. -/
theorem two_mul_length_units_le {run : List Escape} {uss : List (List Units.CodeUnit)}
    (hw : RunWellFormed run) (h : run.mapM units? = some uss) :
    2 * uss.flatten.length ≤ (runText run).length := by
  induction run generalizing uss with
  | nil =>
    cases h
    exact Nat.le_refl _
  | cons e run ih =>
    rw [List.mapM_cons] at h
    obtain ⟨us, hus, h⟩ := Option.bind_eq_some_iff.1 h
    obtain ⟨uss', huss', h⟩ := Option.bind_eq_some_iff.1 h
    cases h
    obtain ⟨he, hrun⟩ := List.forall_mem_cons.1 hw
    have h1 := length_units?_le hus
    have h2 := five_le_length_text he
    have h3 := ih hrun huss'
    simp only [runText, List.flatMap_cons, List.flatten_cons, List.length_append] at h3 ⊢
    omega

theorem sameOrShorter_restoreRun {run : List Escape} (hw : RunWellFormed run) :
    SameOrShorter (runText run) (restoreRun run) := by
  unfold restoreRun
  cases hd : decodeRun? run with
  | none => exact .refl _
  | some t =>
    dsimp only
    split
    · next hn =>
      obtain ⟨uss, huss, ht⟩ := Option.bind_eq_some_iff.1 hd
      have h1 := Units.length_decode?_le ht
      have h2 := two_mul_length_units_le hw huss
      have hpos : 0 < t.length := by
        cases t with
        | nil => cases hn
        | cons c t => simp
      right
      omega
    · exact .refl _

theorem sameOrShorter_normalized (odd : Bool) (t : Text) : SameOrShorter t (normalized odd t) := by
  induction odd, t using normalized_induction with
  | nil odd => exact .refl _
  | char odd c t hr ih =>
    rw [normalized_char hr]
    exact (SameOrShorter.refl [c]).append ih
  | run odd run rest hw hne hr ih =>
    rw [normalized_run hw hne hr]
    refine SameOrShorter.append ?_ ih
    split
    · exact .refl _
    · exact sameOrShorter_restoreRun hw

end Escape

/-! ## Closing parentheses -/

/-- How many closing parentheses stand in a text. -/
def closers (t : Text) : Nat := t.countP (· == ')')

@[simp] theorem closers_append (s t : Text) : closers (s ++ t) = closers s + closers t :=
  List.countP_append

@[simp] theorem closers_cons (c : Char) (t : Text) :
    closers (c :: t) = closers t + if c = ')' then 1 else 0 := by
  simp [closers, List.countP_cons]

@[simp] theorem closers_nil : closers [] = 0 := rfl

/-- Closing parentheses are added, or none is taken away and the text becomes shorter. -/
def Moves (s t : Text) : Prop := closers s < closers t ∨ closers t = closers s ∧ t.length < s.length

theorem not_moves_self (s : Text) : ¬ Moves s s := by
  unfold Moves
  omega

theorem closers_and_length_le {P : Prop} {s t : Text} (hP : P → t = s) (h : P ∨ Moves s t) :
    closers s < closers t ∨ closers t = closers s ∧ t.length ≤ s.length := by
  unfold Moves at h
  rcases h with hp | h
  · rw [hP hp]
    exact .inr ⟨rfl, Nat.le_refl _⟩
  · omega

/-- No change in one part of a text makes up for a change in the other. -/
theorem Moves.append {P Q : Prop} {s s' t t' : Text} (hP : P → t = s) (hQ : Q → t' = s')
    (h : P ∨ Moves s t) (h' : Q ∨ Moves s' t') : (P ∧ Q) ∨ Moves (s ++ s') (t ++ t') := by
  unfold Moves at h h' ⊢
  simp only [closers_append, List.length_append]
  rcases h with hp | h
  · rw [hP hp]
    rcases h' with hq | h'
    · exact .inl ⟨hp, hq⟩
    · right
      omega
  · right
    rcases h' with hq | h'
    · rw [hQ hq]
      omega
    · omega

/-! ## Texts with restored escapes -/

/-- Some escapes of a text are restored. That makes it shorter, and characters that have nothing to do
with escapes stay. -/
structure Restores (s t : Text) : Prop where
  sameOrShorter : SameOrShorter s t
  count_eq : ∀ c : Char, c ≠ '\\' → Escape.isInner c = false → isNaturalChar c = false →
    t.count c = s.count c

namespace Restores

theorem refl (s : Text) : Restores s s := ⟨.refl s, fun _ _ _ _ => rfl⟩

theorem append {s s' t t' : Text} (h : Restores s t) (h' : Restores s' t') :
    Restores (s ++ s') (t ++ t') where
  sameOrShorter := h.sameOrShorter.append h'.sameOrShorter
  count_eq c hb hi hn := by
    rw [List.count_append, List.count_append, h.count_eq c hb hi hn, h'.count_eq c hb hi hn]

theorem closers_eq {s t : Text} (h : Restores s t) : closers t = closers s :=
  h.count_eq ')' (by decide) (by decide) (by decide)

theorem eq_or_moves {s t : Text} (h : Restores s t) : t = s ∨ Moves s t := by
  rcases h.sameOrShorter with he | hlt
  · exact .inl he
  · exact .inr (.inr ⟨h.closers_eq, hlt⟩)

theorem mem_iff {s t : Text} (h : Restores s t) {c : Char} (hb : c ≠ '\\')
    (hi : Escape.isInner c = false) (hn : isNaturalChar c = false) : c ∈ t ↔ c ∈ s := by
  rw [← List.count_pos_iff, ← List.count_pos_iff, h.count_eq c hb hi hn]

end Restores

theorem restores_normalizeEscapes (t : Text) : Restores t (Text.normalizeEscapes t) where
  sameOrShorter := Escape.sameOrShorter_normalized false t
  count_eq c hb hi hn := by
    have hne : ∀ d : Char, d ≠ c → (d == c) = false := fun d h => beq_false_of_ne h
    refine Escape.countP_normalized (hne _ (Ne.symm hb)) ?_ ?_ false t
    · intro d hd
      refine hne d ?_
      rintro rfl
      rw [hd] at hi
      cases hi
    · intro d hd
      refine hne d ?_
      rintro rfl
      rw [hd] at hn
      cases hn

namespace Script

mutual

/-- Localizing an expression wraps literals and does nothing else. -/
theorem isWrap_of_mem_changes (b : Bindings) :
    ∀ (t : Tree) (place : Place) (offset : Nat), ∀ c ∈ changes b .expression place offset t,
      ∃ start literal value, c = .wrap start literal value
  | .leaf .., place, offset, c, hc => by
    rw [changes] at hc
    cases hc
  | .node role kind children, place, offset, c, hc => by
    rw [changes] at hc
    split at hc
    · split at hc
      · exact ⟨_, _, _, List.mem_singleton.1 hc⟩
      · cases hc
    · have hnone : nodeChanges b .expression offset (.node role kind children) = [] := rfl
      rw [hnone, List.nil_append] at hc
      exact isWrap_of_mem_changesAll b children _ offset c hc

theorem isWrap_of_mem_changesAll (b : Bindings) :
    ∀ (ts : List Tree) (place : Place) (offset : Nat), ∀ c ∈ changesAll b .expression place offset ts,
      ∃ start literal value, c = .wrap start literal value
  | [], place, offset, c, hc => by
    rw [changesAll] at hc
    cases hc
  | t :: ts, place, offset, c, hc => by
    rw [changesAll] at hc
    rcases List.mem_append.1 hc with hc | hc
    · exact isWrap_of_mem_changes b t place offset c hc
    · exact isWrap_of_mem_changesAll b ts place _ c hc

end

theorem closers_lt_applyChanges {tree : Tree} (hne : changesIn {} .expression tree ≠ []) :
    closers tree.source <
      closers (applyChanges {} tree.source (changesIn {} .expression tree)) := by
  refine Edit.countP_lt_apply ?_ ?_
  · obtain ⟨c, cs, hc⟩ := List.exists_cons_of_ne_nil hne
    rw [hc, List.flatMap_cons]
    intro hnil
    exact edits_ne_nil {} c (List.append_eq_nil_iff.1 hnil).1
  · intro e he
    obtain ⟨c, hc, hec⟩ := List.mem_flatMap.1 he
    obtain ⟨start, literal, value, rfl⟩ := isWrap_of_mem_changes {} tree _ _ c hc
    have hat : StandsAt tree.source literal start := located_of_mem_changesIn hc
    rw [Change.edits, List.mem_singleton] at hec
    subst hec
    refine ⟨Nat.le_add_right _ _, ?_⟩
    rw [covered_of_standsAt hat]
    show closers literal < closers ("i18n.t(".toList ++ (literal ++ [')']))
    simp

/-- Localizing an expression adds closing parentheses, or it finds nothing and restores escapes at
most. -/
theorem localizeExpression_cases (code : Text) :
    closers code < closers (localizeExpression {} code).output ∨
      (localizeExpression {} code).found = [] ∧ Restores code (localizeExpression {} code).output := by
  unfold localizeExpression
  cases hp : parse code with
  | error e => exact .inr ⟨rfl, .refl code⟩
  | ok tree =>
    dsimp only
    by_cases hnil : changesIn {} .expression tree = []
    · rw [hnil]
      exact .inr ⟨rfl, restores_normalizeEscapes code⟩
    · left
      have hlt := closers_lt_applyChanges hnil
      rw [source_of_parse hp] at hlt
      rw [(restores_normalizeEscapes _).closers_eq]
      exact hlt

theorem eq_or_moves_localizeExpression (code : Text) :
    (localizeExpression {} code).output = code ∨ Moves code (localizeExpression {} code).output := by
  rcases localizeExpression_cases code with hlt | ⟨-, hr⟩
  · exact .inr (.inl hlt)
  · exact hr.eq_or_moves

end Script

/-! ## Texts -/

namespace Template

/-- Localizing a text adds closing parentheses, or it finds nothing and restores escapes at most. -/
theorem localizeText_cases (t : Text) :
    closers t < closers (localizeText {} t).output ∨
      (localizeText {} t).found = [] ∧ Restores t (localizeText {} t).output := by
  induction t using text_induction with
  | nil => exact .inr ⟨rfl, .refl []⟩
  | code inner t hb ih =>
    have hsource : closers (braced inner ++ t) = closers inner + closers t := by
      simp [braced]
    have hout : closers (localizeText {} (braced inner ++ t)).output =
        closers (Script.localizeExpression {} inner).output + closers (localizeText {} t).output := by
      rw [output_code {} hb]
      simp only [closers_cons, closers_append]
      simp
    rcases Script.localizeExpression_cases inner with hlt | ⟨hf, hr⟩
    · left
      rcases ih with hlt' | ⟨-, hr'⟩
      · omega
      · have := hr'.closers_eq
        omega
    · have heq := hr.closers_eq
      rcases ih with hlt' | ⟨hf', hr'⟩
      · left
        omega
      · right
        rw [localizeText_code {} hb, localizeSpan]
        refine ⟨?_, ?_⟩
        · show [] ++ (Script.localizeExpression {} inner).found ++ [] ++ (localizeText {} t).found = []
          rw [hf, hf']
          rfl
        · exact (((Restores.refl ['{', '{']).append hr).append (Restores.refl ['}', '}'])).append hr'
  | char c t hc hi ih =>
    rcases ih with hlt | ⟨hf, hr⟩
    · left
      rw [output_char {} hc hi, closers_cons, closers_cons]
      omega
    · right
      rw [localizeText_char {} hc hi]
      exact ⟨hf, (Restores.refl [c]).append hr⟩
  | run w t hne hw ht ih =>
    left
    have hcall : closers (Bindings.interpolation {} w) = closers w + 1 := by
      simp [Bindings.interpolation, Bindings.call]
    have hle : closers t ≤ closers (localizeText {} t).output := by
      rcases ih with hlt | ⟨-, hr⟩
      · omega
      · exact Nat.le_of_eq hr.closers_eq.symm
    rw [output_run {} hne hw ht, closers_append, closers_append, hcall]
    omega

theorem eq_or_moves_localizeText (t : Text) :
    (localizeText {} t).output = t ∨ Moves t (localizeText {} t).output := by
  rcases localizeText_cases t with hlt | ⟨-, hr⟩
  · exact .inr (.inl hlt)
  · exact hr.eq_or_moves

theorem localizeText_eq_plain_iff {t : Text} :
    localizeText {} t = .plain t ↔ (localizeText {} t).output = t := by
  constructor
  · intro h
    rw [h]
    rfl
  · intro h
    rcases localizeText_cases t with hlt | ⟨hf, -⟩
    · rw [h] at hlt
      omega
    · exact Localized.eq_of h hf

end Template

end Phrasebook
