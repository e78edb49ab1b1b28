import Phrasebook.Proofs.Frames
import Phrasebook.Proofs.Leaves
import Phrasebook.Proofs.LiteralBodies
import Phrasebook.Proofs.Pieces
import Phrasebook.Proofs.Respelling

/-!
Code without Han characters and without unicode escapes.

The other escape sequences cannot make up for them: two hexadecimal digits and three octal ones name
characters below the Han script, and every other sequence stands for the character behind its backslash,
for a control character or for nothing (`spellsNoHan_escapeUnits`). So no string of such code is natural
text (`not_isNatural_of_neutral`), and nothing is looked up:

* an expression stays as it is (`localizeExpression_of_neutral`);
* a script gets the header that it lacks, and its pages are renamed (`localizeScript_of_neutral`).
-/

namespace Phrasebook

/-- A text without Han characters in which no unicode escape starts. -/
def Text.IsNeutral (t : Text) : Prop :=
  (∀ c ∈ t, isHan c = false) ∧ Text.contains t Script.escapeStart = false

-- This runs through the characters of the text, not through all characters there are.
instance (t : Text) : Decidable t.IsNeutral := @instDecidableAnd _ _ (List.decidableBAll _ t) _

theorem Text.IsNeutral.of_isInfix {s t : Text} (ht : t.IsNeutral) (h : s <:+: t) : s.IsNeutral := by
  refine ⟨fun c hc => ht.1 c (h.mem hc), ?_⟩
  rw [← Bool.not_eq_true]
  intro hs
  have hc := Text.contains_iff.2 ((Text.contains_iff.1 hs).trans h)
  rw [ht.2] at hc
  cases hc

/-- Characters that no text to look up needs. -/
def Script.IsPlain (t : Text) : Prop := ∀ c ∈ t, isHan c = false ∧ c ≠ '\\'

instance (t : Text) : Decidable (Script.IsPlain t) := List.decidableBAll _ t

theorem Script.IsPlain.isNeutral {t : Text} (h : IsPlain t) : t.IsNeutral := by
  refine ⟨fun c hc => (h c hc).1, ?_⟩
  rw [← Bool.not_eq_true, Text.contains_iff]
  intro hu
  exact (h '\\' (hu.mem (List.mem_cons_self ..))).2 rfl

theorem isHan_eq_false_of_lt {c : Char} (h : c.toNat < 0x2E80) : isHan c = false := by
  rw [← Bool.not_eq_true]
  intro hh
  have hn : isNaturalChar c = true := by simp [isNaturalChar, hh]
  have := Escape.le_toNat_of_isNaturalChar hn
  omega

/-! ## Code units -/

namespace Units

/-- The code units of a text without Han characters. -/
def SpellsNoHan (us : List CodeUnit) : Prop :=
  ∃ t : Text, us = encode t ∧ ∀ c ∈ t, isHan c = false

namespace SpellsNoHan

theorem nil : SpellsNoHan [] := ⟨[], rfl, by simp⟩

theorem text {t : Text} (h : ∀ c ∈ t, isHan c = false) : SpellsNoHan (encode t) := ⟨t, rfl, h⟩

theorem char {c : Char} (h : isHan c = false) : SpellsNoHan (encodeChar c) :=
  ⟨[c], by simp [encode], by simpa using h⟩

/-- The Han script starts at U+2E80. -/
theorem unit {u : Nat} (h : u < 0x2E80) : SpellsNoHan [u] := by
  have hvalid : u.isValidChar := .inl (by omega)
  have hn : (Char.ofNat u).toNat = u := by
    rw [Char.ofNat, dif_pos hvalid]
    rfl
  rw [← encodeChar_ofNat (.inl (by omega))]
  exact char (isHan_eq_false_of_lt (by omega))

theorem append {us vs : List CodeUnit} (hu : SpellsNoHan us) (hv : SpellsNoHan vs) :
    SpellsNoHan (us ++ vs) := by
  obtain ⟨s, rfl, hs⟩ := hu
  obtain ⟨t, rfl, ht⟩ := hv
  refine ⟨s ++ t, (encode_append s t).symm, fun c hc => ?_⟩
  rcases List.mem_append.1 hc with hc | hc
  · exact hs c hc
  · exact ht c hc

theorem not_isNatural {us : List CodeUnit} (h : SpellsNoHan us) :
    Text.isNatural (decodeLossy us) = false := by
  obtain ⟨t, rfl, ht⟩ := h
  rw [decodeLossy_encode, ← Bool.not_eq_true, Text.isNatural_iff]
  rintro ⟨c, hc, hh⟩
  rw [ht c hc] at hh
  cases hh

end SpellsNoHan

end Units

namespace Script

open Phrasebook.Units (SpellsNoHan)

/-! ## Escape sequences -/

theorem octalValue_lt_pow {digits : Text} (h : digits.all isOctalDigit) :
    Text.octalValue digits < Nat.pow 8 digits.length := by
  have hdigit : ∀ c ∈ digits, c.toNat - 48 < 8 := by
    intro c hc
    have ho := List.all_eq_true.1 h c hc
    rw [isOctalDigit, Bool.and_eq_true, decide_eq_true_eq, decide_eq_true_eq] at ho
    have hle : c.toNat ≤ 55 := ho.2
    omega
  have hlt := foldl_digits_lt hdigit 0
  rwa [Nat.zero_add, Nat.one_mul] at hlt

/-- An escape sequence that starts with none of `u`, `x` and the octal digits looks at no more than its
first character. -/
theorem spellsNoHan_char {c : Char} (hu : c ≠ 'u') (hx : c ≠ 'x') (ho : isOctalDigit c = false)
    (hc : isHan c = false) (rest : Text) : SpellsNoHan (escapeUnits (c :: rest)) := by
  have hno : ¬ ('0' ≤ c ∧ c ≤ '7') := by
    intro h
    simp [isOctalDigit, h.1, h.2] at ho
  unfold escapeUnits
  split
  · exact .nil
  · next heq => exact absurd (List.cons.inj heq).1 hu
  · next heq => exact absurd (List.cons.inj heq).1 hu
  · next heq => exact absurd (List.cons.inj heq).1 hx
  -- control characters
  iterate 6 exact .unit (by decide)
  · next heq =>
    obtain ⟨rfl, -⟩ := List.cons.inj heq
    rw [if_neg hno]
    split
    · exact .nil
    · exact .char hc

theorem escapeUnits_octal {c : Char} (hc : isOctalDigit c = true) (ds : Text) :
    escapeUnits (c :: ds) = [Text.octalValue (c :: ds)] := by
  have ho : '0' ≤ c ∧ c ≤ '7' := by simpa [isOctalDigit] using hc
  -- the other forms start with a letter
  have hletter : ∀ d, isOctalDigit d = false → c ≠ d := by
    rintro d hd rfl
    rw [hd] at hc
    cases hc
  rw [escapeUnits, if_pos ho]
  · exact fun _ h => absurd h (hletter 'u' rfl)
  all_goals exact hletter _ rfl

/-- An escape sequence without a unicode escape and without Han characters spells none. -/
theorem spellsNoHan_escapeUnits {w r : Text} (h : Escaped w r) (hu : w.head? ≠ some 'u')
    (hw : ∀ c ∈ w, isHan c = false) : SpellsNoHan (escapeUnits w) := by
  cases h with
  | unicode => exact absurd rfl hu
  | braced => exact absurd rfl hu
  | @hex digits hl _ =>
    have hlt := hexValue_lt_pow digits
    rw [hl] at hlt
    exact .unit (Nat.lt_trans hlt (by decide))
  | @octal digits _ hne hl hd _ =>
    obtain ⟨c, ds, rfl⟩ := List.exists_cons_of_ne_nil hne
    have hpow : Nat.pow 8 (c :: ds).length ≤ Nat.pow 8 3 := Nat.pow_le_pow_right (by decide) hl
    rw [escapeUnits_octal (List.all_eq_true.1 hd c (List.mem_cons_self ..))]
    exact .unit (Nat.lt_of_lt_of_le (octalValue_lt_pow hd) (Nat.le_trans hpow (by decide)))
  | @lineBreak c l hc _ =>
    rcases hc with rfl | rfl
    · exact .nil
    · exact SpellsNoHan.char (c := '?') (by decide)
  | @single c _ hne hx ho _ =>
    exact spellsNoHan_char hne hx ho (hw c (List.mem_cons_self ..)) []

/-- Escape sequences of the grammar, each as the text of a leaf. -/
def EscapesFormed (kind : Kind) (text : Text) : Prop :=
  kind = .escape → ∃ w r, text = '\\' :: w ∧ Escaped w r

theorem escapesFormed_of_parse {t : Text} {tree : Tree} (h : parse t = .ok tree) :
    tree.LeavesAre EscapesFormed := by
  refine escapes_of_parse (fun t n h => ?_) h
  obtain ⟨w, r, rfl, rfl, hw⟩ := escaped_of_escapeSequence h
  exact ⟨w, r, by rw [List.take_succ_cons, List.take_left], hw⟩

/-! ## Literals -/

theorem spellsNoHan_partUnits {s : Text} (hs : s.IsNeutral) {t : Tree}
    (he : t.LeavesAre EscapesFormed) (hp : t.LeavesAre fun _ text => text <:+: s) :
    SpellsNoHan (partUnits t) := by
  unfold partUnits
  split
  · next text =>
    have ht := hs.of_isInfix hp
    exact .text ht.1
  · next text =>
    have ht := hs.of_isInfix hp
    obtain ⟨w, r, rfl, hw⟩ := he rfl
    refine spellsNoHan_escapeUnits hw ?_ fun c hc => ht.1 c (List.mem_cons_of_mem _ hc)
    intro hu
    obtain ⟨w', rfl⟩ := List.head?_eq_some_iff.1 hu
    have hstart : escapeStart <:+: '\\' :: 'u' :: w' := ⟨[], w', rfl⟩
    have := ht.2
    rw [Text.contains_iff.2 hstart] at this
    cases this
  · exact .nil

theorem spellsNoHan_parts {s : Text} (hs : s.IsNeutral) {children : List Tree}
    (he : Tree.LeavesAreAll EscapesFormed children)
    (hp : Tree.LeavesAreAll (fun _ text => text <:+: s) children) :
    SpellsNoHan (children.flatMap partUnits) := by
  induction children with
  | nil => exact .nil
  | cons c children ih =>
    rw [List.flatMap_cons]
    exact (spellsNoHan_partUnits hs he.1 hp.1).append (ih he.2 hp.2)

/-- A tree whose value is no natural text. -/
def NotNatural (t : Tree) : Prop := Text.isNatural (literalValue t) = false

mutual

theorem all_notNatural {s : Text} (hs : s.IsNeutral) :
    ∀ t : Tree, t.LeavesAre EscapesFormed → (t.LeavesAre fun _ text => text <:+: s) →
      t.All NotNatural
  | .leaf .., _, _ => by
    rw [Tree.All]
    rfl
  | .node role kind children, he, hp => by
    rw [Tree.All]
    exact ⟨(spellsNoHan_parts hs he hp).not_isNatural, allIn_notNatural hs children he hp⟩

theorem allIn_notNatural {s : Text} (hs : s.IsNeutral) :
    ∀ ts : List Tree, Tree.LeavesAreAll EscapesFormed ts →
      Tree.LeavesAreAll (fun _ text => text <:+: s) ts → Tree.AllIn NotNatural ts
  | [], _, _ => trivial
  | t :: ts, he, hp => ⟨all_notNatural hs t he.1 hp.1, allIn_notNatural hs ts he.2 hp.2⟩

end

section

variable {source : Text} {tree : Tree}

/-- No string of neutral code is natural text. -/
theorem not_isNatural_of_neutral (hs : source.IsNeutral) (hp : parse source = .ok tree) :
    tree.All NotNatural := by
  have hsource : tree.source <:+: source := ⟨[], [], by simp [source_of_parse hp]⟩
  exact all_notNatural hs tree (escapesFormed_of_parse hp) (Tree.leavesAre_isInfix tree hsource)

/-! ## Expressions -/

theorem settled_of_neutral (b : Bindings) (hs : source.IsNeutral) (hp : parse source = .ok tree) :
    Settled b .expression tree := by
  intro place t ht
  refine ⟨?_, fun mergeLocale hm => by cases hm⟩
  intro _ hn
  have hnot : Text.isNatural (literalValue t) = false :=
    (ht.all (not_isNatural_of_neutral hs hp)).self
  rw [hnot] at hn
  cases hn

theorem normalizeEscapes_of_neutral {t : Text} (h : t.IsNeutral) : t.normalizeEscapes = t :=
  Escape.normalized_of_isChain (isChain_of_not_contains h.2) false

/-- Localizing a neutral expression changes nothing. -/
theorem localizeExpression_of_neutral (b : Bindings) (hs : source.IsNeutral) :
    localizeExpression b source = .plain source := by
  unfold localizeExpression
  cases hp : parse source with
  | error e => rfl
  | ok tree =>
    have hnil := changesIn_eq_nil_iff.2 (settled_of_neutral b hs hp)
    dsimp only
    rw [hnil]
    show Localized.mk source.normalizeEscapes [] = _
    rw [normalizeEscapes_of_neutral hs]
    rfl

/-! ## Scripts -/

/-- Nothing is found in a neutral script, not even when the locale is merged into its pages. -/
theorem found_of_neutral (b : Bindings) (mergeLocale : Bool) (hs : source.IsNeutral) {r : Localized}
    (h : localizeScript b mergeLocale source = .ok r) : r.found = [] := by
  obtain ⟨tree, hp, -, hfound⟩ := localizeScript_eq_ok_iff.1 h
  -- what is found does not depend on the scope of the walk
  have hnil := changesIn_eq_nil_iff.2 (settled_of_neutral b hs hp)
  rw [hfound, filterMap_text?_changesIn, ← filterMap_text?_changesIn b .expression, hnil]
  rfl

mutual

theorem mark_ne_wrapped_of_mem_row {b : Bindings} {scope : Scope} :
    ∀ (t : Tree) (place : Place) (renamed : Bool), t.All NotNatural →
      ∀ k ∈ row b scope place renamed t, k.mark ≠ .wrapped
  | .leaf _ _ gap text, place, renamed, _, k, hk => by
    rw [row, List.mem_singleton] at hk
    subst hk
    cases renamed <;> exact nofun
  | .node role kind children, place, renamed, ht, k, hk => by
    have hwraps : wraps b place.forChild (.node role kind children) = false := by
      have hnot : Text.isNatural (literalValue (.node role kind children)) = false := ht.self
      rw [wraps, hnot, Bool.and_false]
    rw [Tree.All] at ht
    rw [row, hwraps] at hk
    split at hk
    · obtain rfl := List.mem_singleton.1 hk
      exact nofun
    · exact mark_ne_wrapped_of_mem_rowAll children _ _ ht.2 k hk

theorem mark_ne_wrapped_of_mem_rowAll {b : Bindings} {scope : Scope} :
    ∀ (ts : List Tree) (place : Place) (renamed : Bool), Tree.AllIn NotNatural ts →
      ∀ k ∈ rowAll b scope place renamed ts, k.mark ≠ .wrapped
  | [], place, renamed, _, k, hk => by
    rw [rowAll] at hk
    cases hk
  | t :: ts, place, renamed, h, k, hk => by
    rw [Tree.AllIn] at h
    rw [rowAll] at hk
    rcases List.mem_append.1 hk with hk | hk
    · exact mark_ne_wrapped_of_mem_row t place _ h.1 k hk
    · exact mark_ne_wrapped_of_mem_rowAll ts place _ h.2 k hk

end

/-- A token that is kept, or the name of a page that is renamed. -/
def Token.OnlyRenames (k : Token) : Prop :=
  k.mark = .kept ∨ (k.mark = .renamed ∧ k.text = Bindings.page {})

theorem onlyRenames_of_neutral (hs : source.IsNeutral) (hp : parse source = .ok tree) :
    ∀ k ∈ tokenRow {} (.script false) tree, k.OnlyRenames := by
  intro k hk
  have hwrapped := mark_ne_wrapped_of_mem_row tree _ false (not_isNatural_of_neutral hs hp) k hk
  cases hm : k.mark with
  | kept => exact .inl hm
  | wrapped => exact absurd hm hwrapped
  | renamed => exact .inr ⟨hm, text_of_mark_renamed hp (.script false) k hk hm⟩

/-- A header stays when pages are renamed: there is no `P` in the line that marks it. -/
theorem headerBegin_isInfix_respell {ks : List Token} (hk : ∀ k ∈ ks, k.OnlyRenames) (before : Text)
    (h : Bindings.headerBegin <:+: before ++ rowSource ks) :
    Bindings.headerBegin <:+: before ++ respell {} ks := by
  induction ks generalizing before with
  | nil => exact h
  | cons k ks ih =>
    obtain ⟨hfirst, hks⟩ := List.forall_mem_cons.1 hk
    have hspell : before ++ respell {} (k :: ks) = (before ++ k.respelled {}) ++ respell {} ks := by
      simp [respell]
    rw [hspell]
    refine ih hks _ ?_
    rcases hfirst with hm | ⟨hm, ht⟩
    · have hkept : k.respelled {} = k.source := by
        simp [Token.respelled, Token.pieces, hm, Token.source]
      rw [hkept]
      simpa [rowSource] using h
    · have hsource : before ++ rowSource (k :: ks) =
          (before ++ k.gap) ++ 'P' :: ("age".toList ++ rowSource ks) := by
        simp [rowSource, Token.source, ht]
      have hrenamed : before ++ k.respelled {} ++ rowSource ks =
          (before ++ k.gap) ++ ("I18nP".toList ++ ("age".toList ++ rowSource ks)) := by
        simp [Token.respelled, Token.pieces, hm]
      rw [hsource] at h
      rw [hrenamed]
      rcases isInfix_or_of_isInfix_append_cons (by decide) h with h | h
      · exact h.trans (List.prefix_append _ _).isInfix
      · exact h.trans ((List.suffix_append _ _).trans (List.suffix_append _ _)).isInfix

/-- The header that a script lacks. -/
def missingHeader (source : Text) : Text :=
  if Text.contains source Bindings.headerBegin then [] else Bindings.header {}

/-- A neutral script gets the header that it lacks, and its pages are renamed. -/
theorem localizeScript_of_neutral (hs : source.IsNeutral) {r : Localized}
    (h : localizeScript {} false source = .ok r) :
    ∃ tree, parse source = .ok tree ∧
      rowSource (tokenRow {} (.script false) tree) = source ∧
      (∀ k ∈ tokenRow {} (.script false) tree, k.OnlyRenames) ∧
      r.output = missingHeader source ++ respell {} (tokenRow {} (.script false) tree) := by
  obtain ⟨tree, hp, hout, -⟩ := localizeScript_eq_ok_iff.1 h
  have hsource : rowSource (tokenRow {} (.script false) tree) = source := by
    rw [tokenRow, rowSource_row, source_of_parse hp]
  have hrow := onlyRenames_of_neutral hs hp
  refine ⟨tree, hp, hsource, hrow, ?_⟩
  unfold missingHeader
  split
  · next hheader =>
    rw [← hsource, Text.contains_iff] at hheader
    have hkept : Bindings.headerBegin <:+: respell {} (tokenRow {} (.script false) tree) :=
      headerBegin_isInfix_respell hrow [] hheader
    have hchain := respell_tokenRow_of_stable stable_noEscape hp (.script false)
      (isChain_of_not_contains hs.2)
    rw [hout, applyChanges_eq_respell (by decide) (by simp) hp, Bindings.withHeader,
      if_pos (Text.contains_iff.2 hkept)]
    exact Escape.normalized_of_isChain hchain false
  · next hheader =>
    obtain ⟨r', hr', ho⟩ := localizeScript_output hp hs.2 (by simpa using hheader)
    rw [h] at hr'
    obtain rfl := Except.ok.inj hr'
    exact ho

end

end Script

end Phrasebook
