import Phrasebook.Proofs.MarkupReading

/-!
What reading markup gives. Every event is legal, and reading it takes at least one character
(`of_readEvent`), so the fuel of `readEvents` always suffices and its result is the row of events that
`Reads` describes without any (`events_eq_ok_iff`).
-/

namespace Phrasebook.Markup

/-- What can be said of an event after reading it: what it adds to the document is legal. -/
def Event.Legal : Event → Prop
  | .opening tag => tag.Legal ∧ isVoid tag.name = false ∧ isRaw tag.name = false
  | .empty tag => (Node.element tag []).Legal
  | .raw tag content =>
    isRaw tag.name = true ∧
      (Node.element tag (if content.isEmpty then [] else [.text content])).Legal
  | .closing _ => True
  | .text data => (Node.text data).Legal
  | .comment data => (Node.comment data).Legal

theorem isNameChar_of_isAsciiLetter {c : Char} (h : Text.isAsciiLetter c = true) :
    isNameChar c = true := by
  have hrange : 97 ≤ c.toNat ∧ c.toNat ≤ 122 ∨ 65 ≤ c.toNat ∧ c.toNat ≤ 90 := by
    simp only [Text.isAsciiLetter, Bool.or_eq_true, Bool.and_eq_true, decide_eq_true_eq] at h
    exact h
  have hblank : isBlank c = false := by
    rw [← Bool.not_eq_true]
    intro hb
    simp only [isBlank, blankRanges, inRanges, List.any_cons, List.any_nil, Bool.or_eq_true,
      Bool.and_eq_true, decide_eq_true_eq, Bool.or_false] at hb
    omega
  have hslash : c ≠ '/' := by
    rintro rfl
    exact absurd h (by decide)
  have hgt : c ≠ '>' := by
    rintro rfl
    exact absurd h (by decide)
  simp [isNameChar, hblank, hslash, hgt]

theorem bind_eq_ok_iff {ε α β : Type} {x : Except ε α} {f : α → Except ε β} {r : β} :
    (x >>= f) = .ok r ↔ ∃ a, x = .ok a ∧ f a = .ok r := by
  cases x with
  | error e => simp [bind, Except.bind]
  | ok a => simp [bind, Except.bind]

theorem trimStart_isSuffix (t : Text) : Text.trimStart t <:+ t := List.dropWhile_suffix _

theorem isSuffix_of_readValue {total : Nat} {t v rest : Text} (h : readValue total t = .ok (v, rest)) :
    rest <:+ t := by
  unfold readValue at h
  split at h
  · cases h
    exact List.suffix_rfl
  · next c t =>
    split at h
    · split at h
      · next value after hs =>
        cases h
        refine ⟨c :: (v ++ [c]), ?_⟩
        rw [Text.eq_of_splitAt? hs]
        simp
      · cases h
    · cases h
      exact List.dropWhile_suffix _

theorem of_readAttribute {total : Nat} {t rest : Text} {found : Option Attribute}
    (h : readAttribute total t = .ok (found, rest)) :
    rest <:+ t ∧ ∀ a, found = some a → IsAttributeName a.name := by
  unfold readAttribute at h
  dsimp only at h
  split at h
  · cases h
    exact ⟨List.drop_suffix _ _, fun a ha => by cases ha⟩
  · next hne =>
    have hname : IsAttributeName (t.takeWhile isAttributeChar) :=
      ⟨by simpa using hne, fun c hc => List.all_eq_true.1 List.all_takeWhile c hc⟩
    have htrim : Text.trimStart (t.dropWhile isAttributeChar) <:+ t :=
      (trimStart_isSuffix _).trans (List.dropWhile_suffix _)
    split at h
    · next after hafter =>
      obtain ⟨⟨v, rest'⟩, hv, h⟩ := bind_eq_ok_iff.1 h
      cases h
      rw [hafter] at htrim
      refine ⟨?_, fun a ha => by cases ha; exact hname⟩
      exact ((isSuffix_of_readValue hv).trans (trimStart_isSuffix _)).trans
        ((List.suffix_cons _ _).trans htrim)
    · cases h
      exact ⟨htrim, fun a ha => by cases ha; exact hname⟩

theorem of_readAttributes {total start fuel : Nat} {t rest : Text} {as : List Attribute}
    {selfClosing : Bool} (h : readAttributes total start fuel t = .ok (as, selfClosing, rest)) :
    rest <:+ t ∧ ∀ a ∈ as, IsAttributeName a.name := by
  induction fuel generalizing t as with
  | zero => cases h
  | succ fuel ih =>
    have htrim := trimStart_isSuffix t
    rw [readAttributes] at h
    split at h
    · cases h
    · next hafter =>
      cases h
      rw [hafter] at htrim
      exact ⟨(List.suffix_cons _ _).trans htrim, by simp⟩
    · next hafter =>
      cases h
      rw [hafter] at htrim
      exact ⟨((List.suffix_cons _ _).trans (List.suffix_cons _ _)).trans htrim, by simp⟩
    · next hafter =>
      rw [hafter] at htrim
      obtain ⟨hs, hl⟩ := ih h
      exact ⟨hs.trans ((List.suffix_cons _ _).trans htrim), hl⟩
    · obtain ⟨⟨found, after⟩, ha, h⟩ := bind_eq_ok_iff.1 h
      obtain ⟨⟨bs, sc, rest'⟩, hb, h⟩ := bind_eq_ok_iff.1 h
      cases h
      obtain ⟨hsa, hla⟩ := of_readAttribute ha
      obtain ⟨hsb, hlb⟩ := ih hb
      refine ⟨hsb.trans (hsa.trans htrim), ?_⟩
      intro a hmem
      rcases List.mem_append.1 hmem with hmem | hmem
      · exact hla a (Option.mem_toList.1 hmem)
      · exact hlb a hmem

theorem of_splitBefore {mark t before rest : Text} (hm : mark ≠ [])
    (h : splitBeforeIgnoringCase? mark t = some (before, rest)) :
    t = before ++ rest ∧ ¬ mark <:+: Text.lowerAscii before := by
  induction t generalizing before with
  | nil =>
    rw [splitBeforeIgnoringCase?, if_neg (by simpa using hm)] at h
    cases h
  | cons c t ih =>
    rw [splitBeforeIgnoringCase?] at h
    split at h
    · cases h
      refine ⟨rfl, ?_⟩
      rw [Text.lowerAscii, List.map_nil, List.infix_nil]
      exact hm
    · next hn =>
      obtain ⟨⟨b, r⟩, hb, he⟩ := Option.map_eq_some_iff.1 h
      cases he
      obtain ⟨ht, hinfix⟩ := ih hb
      refine ⟨by rw [ht, List.cons_append], ?_⟩
      rw [Text.lowerAscii, List.map_cons, List.infix_cons_iff]
      rintro (hp | hi)
      · apply hn
        rw [startsWith_lowerAscii_take, ht, ← List.cons_append, Text.lowerAscii, List.map_append]
        exact hp.trans (List.prefix_append _ _)
      · exact hinfix hi

theorem of_readRaw {total start : Nat} {name t content rest : Text}
    (h : readRaw total start name t = .ok (content, rest)) :
    rest <:+ t ∧ ¬ '<' :: '/' :: Text.lowerAscii name <:+: Text.lowerAscii content := by
  unfold readRaw at h
  split at h
  · cases h
  · next before after hs =>
    obtain ⟨ht, hinfix⟩ := of_splitBefore (by simp) hs
    split at h
    · cases h
    · next skipped after' hgt =>
      cases h
      refine ⟨?_, hinfix⟩
      rw [ht, Text.eq_of_splitAt? hgt]
      exact (List.suffix_append _ _).trans (List.suffix_append _ _)

theorem of_readElement {total : Nat} {t rest : Text} {e : Event} (ht : startTagHere t = true)
    (h : readElement total t = .ok (e, rest)) : rest <:+ t.tail ∧ e.Legal := by
  obtain ⟨c, hc, inside, rfl⟩ := startTagHere_iff.1 ht
  have hname : IsTagName ((c :: inside).takeWhile isNameChar) := by
    refine ⟨?_, fun d hd => List.all_eq_true.1 List.all_takeWhile d hd⟩
    rw [List.takeWhile_cons_of_pos (isNameChar_of_isAsciiLetter hc)]
    exact hc
  have hdrop : (c :: inside).dropWhile isNameChar <:+ c :: inside := List.dropWhile_suffix _
  unfold readElement at h
  obtain ⟨⟨as, selfClosing, after⟩, ha, h⟩ := bind_eq_ok_iff.1 h
  obtain ⟨hs, hl⟩ := of_readAttributes ha
  have htag : Tag.Legal ⟨(c :: inside).takeWhile isNameChar, as⟩ := ⟨hname, hl⟩
  replace hs : after <:+ c :: inside := hs.trans hdrop
  show rest <:+ c :: inside ∧ e.Legal
  dsimp only [List.cons_append, List.nil_append, List.drop_one, List.tail_cons] at h
  split at h
  · cases h
    exact ⟨hs, htag, fun _ => rfl, fun _ => trivial⟩
  · next hvoid =>
    simp only [Bool.or_eq_true, not_or, Bool.not_eq_true] at hvoid
    split at h
    · next hraw =>
      obtain ⟨⟨content, after'⟩, hr, h⟩ := bind_eq_ok_iff.1 h
      cases h
      obtain ⟨hsr, hcontent⟩ := of_readRaw hr
      refine ⟨hsr.trans hs, hraw, htag, ?_, ?_⟩
      · intro hv
        rw [hv] at hvoid
        cases hvoid.2
      · intro _
        cases content with
        | nil => trivial
        | cons d ds => exact ⟨by simp, hcontent⟩
    · next hraw =>
      cases h
      exact ⟨hs, htag, hvoid.2, by simpa using hraw⟩

/-- What was read is legal and takes at least one character. -/
theorem of_readEvent {total : Nat} {t rest : Text} {e : Event} (ht : t ≠ [])
    (h : readEvent total t = .ok (e, rest)) : rest <:+ t.tail ∧ e.Legal := by
  have hdrop : ∀ n, t.drop (n + 1) <:+ t.tail := by
    intro n
    rw [← List.drop_one, Nat.add_comm, ← List.drop_drop]
    exact List.drop_suffix _ _
  unfold readEvent at h
  split at h
  · unfold readComment at h
    split at h
    · next data after hs =>
      cases h
      refine ⟨?_, Text.not_isInfix_of_splitAt? (by decide) hs⟩
      refine List.IsSuffix.trans ?_ (hdrop 3)
      rw [Text.eq_of_splitAt? hs]
      exact List.suffix_append _ _
    · cases h
  · split at h
    · unfold readEndTag at h
      dsimp only at h
      split at h
      · next skipped after hs =>
        cases h
        refine ⟨?_, trivial⟩
        refine List.IsSuffix.trans ?_ ((List.dropWhile_suffix isNameChar).trans (hdrop 1))
        rw [Text.eq_of_splitAt? hs]
        exact List.suffix_append _ _
      · cases h
    · split at h
      · next hstart => exact of_readElement hstart h
      · next hcomment hend hstart =>
        cases h
        obtain ⟨hspan, hopens⟩ := of_spanText t
        obtain ⟨c, t, rfl⟩ := List.exists_cons_of_ne_nil ht
        have hat : ¬ atMarkup (c :: t) = true := by
          simp [atMarkup, hcomment, hend, hstart]
        have hne : (spanText (c :: t)).1 = c :: (spanText t).1 := by
          rw [spanText, if_neg hat]
        refine ⟨?_, ?_, hopens⟩
        · rw [hne, List.cons_append, List.cons.injEq] at hspan
          exact ⟨_, hspan.2.symm⟩
        · rw [hne]
          simp

/-! ## All events of a text -/

/-- The events that reading a text gives, one after the other. -/
inductive Reads (total : Nat) : Text → List Event → Prop
  | nil : Reads total [] []
  | cons {t rest : Text} {e : Event} {es : List Event} (ht : t ≠ [])
      (h : readEvent total t = .ok (e, rest)) (hr : Reads total rest es) : Reads total t (e :: es)

theorem reads_nil_iff {total : Nat} {es : List Event} : Reads total [] es ↔ es = [] := by
  constructor
  · rintro (_ | ⟨ht, -, -⟩)
    · rfl
    · exact absurd rfl ht
  · rintro rfl
    exact .nil

theorem readEvents_eq_ok_iff {total fuel : Nat} {t : Text} {es : List Event} (hf : t.length ≤ fuel) :
    readEvents total fuel t = .ok es ↔ Reads total t es := by
  induction fuel generalizing t es with
  | zero =>
    obtain rfl : t = [] := List.length_eq_zero_iff.1 (Nat.le_zero.1 hf)
    rw [readEvents, Except.ok.injEq, eq_comm, reads_nil_iff]
  | succ fuel ih =>
    cases t with
    | nil => rw [readEvents, Except.ok.injEq, eq_comm, reads_nil_iff]
    | cons c t =>
      -- an event takes a character, so the fuel for the rest is enough
      have hlen : ∀ {e rest}, readEvent total (c :: t) = .ok (e, rest) → rest.length ≤ fuel := by
        intro e rest hread
        have := (of_readEvent (by simp) hread).1.length_le
        simp only [List.tail_cons, List.length_cons] at this hf
        omega
      rw [readEvents, bind_eq_ok_iff]
      constructor
      · rintro ⟨⟨e, rest⟩, hread, h⟩
        obtain ⟨es', hes, h⟩ := bind_eq_ok_iff.1 h
        cases h
        exact .cons (by simp) hread ((ih (hlen hread)).1 hes)
      · rintro (_ | ⟨-, hread, hr⟩)
        exact ⟨_, hread, bind_eq_ok_iff.2 ⟨_, (ih (hlen hread)).2 hr, rfl⟩⟩

theorem events_eq_ok_iff {t : Text} {es : List Event} : events t = .ok es ↔ Reads t.byteSize t es :=
  readEvents_eq_ok_iff (Nat.le_refl _)

end Phrasebook.Markup
