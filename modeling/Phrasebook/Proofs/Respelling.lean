import Phrasebook.Proofs.Escapes
import Phrasebook.Proofs.TokenRows

/-!
Localizing a script as the respelling of its tokens.

For a script without unicode escapes and without a header, the code that a run writes is the row of
the script's tokens, each after its old gap, in which a wrapped literal `L` is spelled `i18n.t(L)`, a
renamed callee `I18nPage`, and every other token as before (`localizeScript_output`,
`localizeExpression_output`). Nothing else happens to it: what localizing adds makes neither a unicode
escape nor the line that marks a header out of what stands around it, since it only adds the three texts
of `insertedTexts` (`respell_of_stable`).
-/

namespace Phrasebook.Script

/-! ## Parts of a text -/

/-- A part without some character lies on one side of every occurrence of it. -/
theorem isInfix_or_of_isInfix_append_cons {m x y : Text} {c : Char} (hc : c ∉ m)
    (h : m <:+: x ++ c :: y) : m <:+: x ∨ m <:+: y := by
  obtain ⟨u, v, h⟩ := h
  rcases List.append_eq_append_iff.1 h with ⟨a, hx, -⟩ | ⟨a, hum, hy⟩
  · exact .inl ⟨u, a, hx.symm⟩
  · cases a with
    | nil => exact .inl ⟨u, [], by rw [List.append_nil, hum, List.append_nil]⟩
    | cons d a =>
      obtain ⟨rfl, hya⟩ := List.cons.inj hy
      rcases List.append_eq_append_iff.1 hum with ⟨a', -, hm⟩ | ⟨a', -, ha⟩
      · exact absurd (hm ▸ List.mem_append_right a' (List.mem_cons_self ..)) hc
      · cases a' with
        | nil =>
          rw [List.nil_append] at ha
          exact absurd (ha ▸ List.mem_cons_self ..) hc
        | cons d' a' =>
          obtain ⟨-, haa⟩ := List.cons.inj ha
          exact .inr ⟨a', v, by rw [hya, haa]; rfl⟩

/-- A part whose last character is not in `w` does not reach into `w`. -/
theorem isInfix_of_isInfix_append {m s w : Text} {l : Char} (hl : l ∉ w)
    (h : m ++ [l] <:+: s ++ w) : m ++ [l] <:+: s := by
  obtain ⟨u, v, h⟩ := h
  have h' : (u ++ m) ++ l :: v = s ++ w := by
    rw [← h]
    simp only [List.append_assoc, List.singleton_append]
  rcases List.append_eq_append_iff.1 h' with ⟨a, hs, hv⟩ | ⟨a, -, hw⟩
  · cases a with
    | nil =>
      rw [List.nil_append] at hv
      exact absurd (hv ▸ List.mem_cons_self ..) hl
    | cons d a =>
      obtain rfl := (List.cons.inj hv).1
      exact ⟨u, a, by rw [hs]; simp only [List.append_assoc, List.singleton_append]⟩
  · exact absurd (hw ▸ List.mem_append_right a (List.mem_cons_self ..)) hl

/-- A part whose first character is not in `w` does not reach into `w`. -/
theorem isInfix_of_append_isInfix {m w t : Text} {f : Char} (hf : f ∉ w) (h : f :: m <:+: w ++ t) :
    f :: m <:+: t := by
  obtain ⟨u, v, h⟩ := h
  have h' : w ++ t = u ++ f :: (m ++ v) := by
    rw [← h, List.append_assoc]
    rfl
  rcases List.append_eq_append_iff.1 h' with ⟨a, -, ht⟩ | ⟨a, hw, ha⟩
  · exact ⟨a, v, by rw [ht, List.append_assoc]; rfl⟩
  · cases a with
    | nil =>
      rw [List.nil_append] at ha
      exact ⟨[], v, by rw [← ha]; rfl⟩
    | cons d a =>
      obtain rfl := (List.cons.inj ha).1
      exact absurd (hw ▸ List.mem_append_right u (List.mem_cons_self ..)) hf

/-! ## Insertions -/

/-- The texts that localizing adds around literals and in front of the name of a page. -/
def insertedTexts : List Text := ["i18n.t(".toList, [')'], "I18n".toList]

/-- A property of texts that no insertion breaks. -/
def StableUnderInsertion (Q : Text → Prop) : Prop :=
  ∀ s t : Text, ∀ w ∈ insertedTexts, Q (s ++ t) → Q (s ++ (w ++ t))

/-- Respelling a row keeps what no insertion breaks. -/
theorem respell_of_stable {Q : Text → Prop} (hQ : StableUnderInsertion Q) {ks : List Token}
    (hr : ∀ k ∈ ks, k.mark = .renamed → k.text = Bindings.page {}) (before : Text)
    (h : Q (before ++ rowSource ks)) : Q (before ++ respell {} ks) := by
  induction ks generalizing before with
  | nil => exact h
  | cons k ks ih =>
    have htail := ih fun l hl => hr l (List.mem_cons_of_mem k hl)
    have hspell : before ++ respell {} (k :: ks) = (before ++ k.respelled {}) ++ respell {} ks := by
      simp [respell]
    have hsource : before ++ rowSource (k :: ks) = (before ++ k.gap) ++ (k.text ++ rowSource ks) := by
      simp [rowSource, Token.source]
    rw [hspell]
    rw [hsource] at h
    refine htail _ ?_
    cases hm : k.mark with
    | kept =>
      have hk : k.respelled {} = k.gap ++ k.text := by simp [Token.respelled, Token.pieces, hm]
      rw [hk]
      simpa only [List.append_assoc] using h
    | wrapped =>
      have hk : k.respelled {} = k.gap ++ ("i18n.t(".toList ++ (k.text ++ [')'])) := by
        simp [Token.respelled, Token.pieces, hm]
      -- first what stands in front of the literal, then the parenthesis behind it
      have h1 := hQ (before ++ k.gap) (k.text ++ rowSource ks) "i18n.t(".toList (by decide) h
      have h2 := hQ (before ++ k.gap ++ ("i18n.t(".toList ++ k.text)) (rowSource ks) [')']
        (by decide) (by simpa only [List.append_assoc] using h1)
      rw [hk]
      simpa only [List.append_assoc] using h2
    | renamed =>
      have ht := hr k (List.mem_cons_self ..) hm
      have hk : k.respelled {} = k.gap ++ ("I18n".toList ++ k.text) := by
        rw [ht]
        simp only [Token.respelled, Token.pieces, hm]
        rfl
      have h1 := hQ (before ++ k.gap) (k.text ++ rowSource ks) "I18n".toList (by decide) h
      rw [hk]
      simpa only [List.append_assoc] using h1

/-- No insertion makes a unicode escape out of its surroundings. -/
theorem stable_noEscape :
    StableUnderInsertion fun t => t.IsChain fun a c => ¬ Escape.StartsEscape a c := by
  intro s t w hw h
  obtain ⟨hs, ht, -⟩ := List.isChain_append.1 h
  have hends : (w.IsChain fun a c => ¬ Escape.StartsEscape a c) ∧ w.head? ≠ some 'u' ∧
      w.getLast? ≠ some '\\' ∧ w ≠ [] := by
    simp only [insertedTexts, List.mem_cons, List.not_mem_nil, or_false] at hw
    unfold Escape.StartsEscape
    rcases hw with rfl | rfl | rfl <;> decide
  obtain ⟨hchain, hhead, hlast, hne⟩ := hends
  rw [List.isChain_append, List.isChain_append]
  refine ⟨hs, ⟨hchain, ht, ?_⟩, ?_⟩
  · rintro a ha c - ⟨rfl, -⟩
    exact hlast ha
  · rintro a - c hc ⟨-, rfl⟩
    rw [List.head?_append_of_ne_nil _ hne] at hc
    exact hhead hc

/-- An insertion around a character that a part does not hold makes no such part, when neither end of
the part can lie in the insertion. -/
theorem isInfix_of_isInfix_insert {m s t : Text} {f l c : Char} (w₁ w₂ : Text)
    (hc : c ∉ f :: m ++ [l]) (hl : l ∉ w₁) (hf : f ∉ w₂) (h : f :: m ++ [l] <:+: s ++ ((w₁ ++ c :: w₂) ++ t)) :
    f :: m ++ [l] <:+: s ++ t := by
  have h' : f :: m ++ [l] <:+: (s ++ w₁) ++ c :: (w₂ ++ t) := by
    simpa only [List.append_assoc, List.cons_append] using h
  rcases isInfix_or_of_isInfix_append_cons hc h' with h | h
  · exact (isInfix_of_isInfix_append hl h).trans (List.prefix_append s t).isInfix
  · exact (isInfix_of_append_isInfix hf h).trans (List.suffix_append s t).isInfix

/-- No insertion makes the line that marks a header out of its surroundings. -/
theorem stable_noHeader : StableUnderInsertion fun t => ¬ Bindings.headerBegin <:+: t := by
  intro s t w hw h hm
  obtain ⟨m, hbegin⟩ : ∃ m, Bindings.headerBegin = '/' :: m ++ ['/'] :=
    ⟨"*------- auto generated code by mina-i18n begin -------*".toList, by decide⟩
  have hmem : ∀ c, c ∉ Bindings.headerBegin → c ∉ '/' :: m ++ ['/'] := fun c hc => hbegin ▸ hc
  rw [hbegin] at h hm
  simp only [insertedTexts, List.mem_cons, List.not_mem_nil, or_false] at hw
  rcases hw with rfl | rfl | rfl
  · exact h (isInfix_of_isInfix_insert "i18n.t".toList [] (hmem '(' (by decide)) (by decide)
      (by decide) hm)
  · exact h (isInfix_of_isInfix_insert [] [] (hmem ')' (by decide)) (by decide) (by decide) hm)
  · exact h (isInfix_of_isInfix_insert [] "18n".toList (hmem 'I' (by decide)) (by decide)
      (by decide) hm)

/-! ## What a run writes -/

/-- The two characters that start a unicode escape. -/
def escapeStart : Text := ['\\', 'u']

theorem isChain_of_not_contains {t : Text} (h : Text.contains t escapeStart = false) :
    t.IsChain fun a c => ¬ Escape.StartsEscape a c := by
  refine (List.isChain_isInfix t).imp ?_
  rintro a c hac ⟨rfl, rfl⟩
  have hin : Text.contains t escapeStart = true := Text.contains_iff.2 hac
  rw [hin] at h
  cases h

theorem text_of_mark_renamed {source : Text} {tree : Tree} (hp : parse source = .ok tree)
    (scope : Scope) :
    ∀ k ∈ tokenRow {} scope tree, k.mark = .renamed → k.text = Bindings.page {} := by
  intro k hk
  exact (marks_of_mem_row tree _ false (identifiers_are_leaves hp) (by intro h; cases h) k hk).2

/-- What no insertion breaks holds of the respelled script when it holds of the script. -/
theorem respell_tokenRow_of_stable {Q : Text → Prop} (hQ : StableUnderInsertion Q) {source : Text}
    {tree : Tree} (hp : parse source = .ok tree) (scope : Scope) (h : Q source) :
    Q (respell {} (tokenRow {} scope tree)) := by
  refine respell_of_stable hQ (text_of_mark_renamed hp scope) [] ?_
  rw [List.nil_append, tokenRow, rowSource_row, source_of_parse hp]
  exact h

/-- Localizing a script writes its header and the respelled row of its tokens. -/
theorem localizeScript_output {source : Text} {tree : Tree} (hp : parse source = .ok tree)
    (hu : Text.contains source escapeStart = false)
    (hm : Text.contains source Bindings.headerBegin = false) :
    ∃ r, localizeScript {} false source = .ok r ∧
      r.output = Bindings.header {} ++ respell {} (tokenRow {} (.script false) tree) := by
  have hchain := respell_tokenRow_of_stable stable_noEscape hp (.script false)
    (isChain_of_not_contains hu)
  have hnone : ¬ Bindings.headerBegin <:+: source := by
    intro hin
    rw [Text.contains_iff.2 hin] at hm
    cases hm
  have hheader := respell_tokenRow_of_stable stable_noHeader hp (.script false) hnone
  have hchanges : applyChanges {} source (changesIn {} (.script false) tree) = _ :=
    applyChanges_eq_respell (by decide) (by simp) hp
  refine ⟨⟨_, _⟩, localizeScript_eq_ok_iff.2 ⟨tree, hp, ?_, rfl⟩, rfl⟩
  rw [hchanges, Bindings.withHeader, if_neg (fun hc => hheader (Text.contains_iff.1 hc))]
  refine (Escape.normalized_of_isChain (List.isChain_append.2 ⟨?_, hchain, ?_⟩) false).symm
  · unfold Escape.StartsEscape
    decide +kernel
  · -- the header ends with a line break
    rintro a ha c - ⟨rfl, -⟩
    have hlast : (Bindings.header {}).getLast? = some '\n' := by decide +kernel
    rw [hlast] at ha
    cases ha

end Phrasebook.Script
