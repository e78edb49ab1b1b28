import Phrasebook.Proofs.LetterCase
import Phrasebook.Proofs.MarkupLocality

/-!
What an error of reading markup tells. The construct it names starts at its offset and has no end
behind it (`OpenIn`), reader by reader:

    readEvent total t = error e  →  t = skipped ++ rest, e is at rest, and rest is without an end
                                                                    (of_readEvent_error)

For all of a text, the events before the one that fails are read whatever follows them
(`readEvent_local`), so the text up to them can be read on its own (`exists_failing_event`).
-/

namespace Phrasebook

namespace Text

theorem not_isInfix_of_splitAt?_eq_none {mark t : Text} (h : splitAt? mark t = none) :
    ¬ mark <:+: t := by
  rw [← contains_iff, contains, h]
  simp

end Text

namespace Markup

/-- A text starts with a construct that has no end in it. -/
def Construct.OpenIn : Construct → Text → Prop
  | .comment, t => ∃ rest, t = "<!--".toList ++ rest ∧ ¬ "-->".toList <:+: rest
  | .startTag, t => startTagHere t = true
  | .endTag, t => endTagHere t = true ∧ '>' ∉ t
  | .attributeValue, t => ∃ q rest, t = q :: rest ∧ (q = '"' ∨ q = '\'') ∧ q ∉ rest
  | .rawText, t => ∃ written tag rest, t = written ++ rest ∧ IsStartTag written tag false ∧
      isRaw tag.name = true ∧ ¬ '<' :: '/' :: Text.lowerAscii tag.name <:+: Text.lowerAscii rest

theorem Construct.OpenIn.ne_nil {c : Construct} {t : Text} (h : c.OpenIn t) : t ≠ [] := by
  rintro rfl
  cases c with
  | comment =>
    obtain ⟨rest, ht, -⟩ := h
    cases ht
  | startTag => cases h
  | endTag => cases h.1
  | attributeValue =>
    obtain ⟨q, rest, ht, -⟩ := h
    cases ht
  | rawText =>
    obtain ⟨written, tag, rest, ht, ⟨inside, rfl, -⟩, -⟩ := h
    cases ht

namespace Unterminated

/-- The construct that an error names stands at the beginning of `t`; `total` bytes end with `t`. -/
def At (total : Nat) (t : Text) (e : Unterminated) : Prop :=
  e.offset = total - Text.byteSize t ∧ e.construct.OpenIn t

/-- The construct that an error names is a part of a tag or of a raw text element, and stands
somewhere in `t`. -/
def Within (total : Nat) (t : Text) (e : Unterminated) : Prop :=
  (e.construct = .endTag ∨ e.construct = .attributeValue) ∧
    ∃ skipped rest, t = skipped ++ rest ∧ e.At total rest

theorem Within.of_suffix {total : Nat} {s t : Text} {e : Unterminated} (h : e.Within total s)
    (hs : s <:+ t) : e.Within total t := by
  obtain ⟨hpart, skipped, rest, rfl, hat⟩ := h
  obtain ⟨before, rfl⟩ := hs
  exact ⟨hpart, before ++ skipped, rest, by rw [List.append_assoc], hat⟩

end Unterminated

theorem bind_eq_error_iff {ε α β : Type} {x : Except ε α} {f : α → Except ε β} {e : ε} :
    (x >>= f) = .error e ↔ x = .error e ∨ ∃ a, x = .ok a ∧ f a = .error e := by
  cases x with
  | error e => simp [bind, Except.bind]
  | ok a => simp [bind, Except.bind]

/-! ## Tags -/

theorem within_of_readValue {total : Nat} {t : Text} {e : Unterminated}
    (h : readValue total t = .error e) : e.Within total t := by
  unfold readValue at h
  split at h
  · cases h
  · next q s =>
    split at h
    · next hq =>
      split at h
      · cases h
      · next hs =>
        cases h
        refine ⟨.inr rfl, [], q :: s, rfl, rfl, q, s, rfl, hq, ?_⟩
        intro hmem
        obtain ⟨a, b, rfl⟩ := List.append_of_mem hmem
        exact Text.not_isInfix_of_splitAt?_eq_none hs ⟨a, b, by simp⟩
    · cases h

theorem within_of_readAttribute {total : Nat} {t : Text} {e : Unterminated}
    (h : readAttribute total t = .error e) : e.Within total t := by
  unfold readAttribute at h
  dsimp only at h
  split at h
  · cases h
  · split at h
    · next after hafter =>
      rcases bind_eq_error_iff.1 h with hv | ⟨p, -, hp⟩
      · have hsuffix : '=' :: after <:+ t := by
          rw [← hafter]
          exact (trimStart_isSuffix _).trans (List.dropWhile_suffix _)
        exact (within_of_readValue hv).of_suffix
          ((trimStart_isSuffix after).trans ((List.suffix_cons _ _).trans hsuffix))
      · cases hp
    · cases h

theorem of_readAttributes_error {total start fuel : Nat} {t : Text} {e : Unterminated}
    (h : readAttributes total start fuel t = .error e) :
    e = ⟨.startTag, start⟩ ∨ e.Within total t := by
  induction fuel generalizing t with
  | zero =>
    cases h
    exact .inl rfl
  | succ fuel ih =>
    have htrim := trimStart_isSuffix t
    rw [readAttributes] at h
    split at h
    · cases h
      exact .inl rfl
    · cases h
    · cases h
    · next rest hafter =>
      rw [hafter] at htrim
      rcases ih h with hstart | hwithin
      · exact .inl hstart
      · exact .inr (hwithin.of_suffix ((List.suffix_cons _ _).trans htrim))
    · rcases bind_eq_error_iff.1 h with ha | ⟨⟨found, rest⟩, ha, h⟩
      · exact .inr ((within_of_readAttribute ha).of_suffix htrim)
      · rcases bind_eq_error_iff.1 h with has | ⟨p, -, hp⟩
        · rcases ih has with hstart | hwithin
          · exact .inl hstart
          · exact .inr (hwithin.of_suffix ((of_readAttribute ha).1.trans htrim))
        · cases hp

/-! ## Raw content -/

theorem not_isInfix_of_splitBefore {mark t : Text} (h : splitBeforeIgnoringCase? mark t = none) :
    ¬ mark <:+: Text.lowerAscii t := by
  induction t with
  | nil =>
    rw [splitBeforeIgnoringCase?] at h
    split at h
    · cases h
    · next hm =>
      rw [Text.lowerAscii, List.map_nil, List.infix_nil]
      simpa using hm
  | cons c t ih =>
    rw [splitBeforeIgnoringCase?] at h
    split at h
    · cases h
    · next hn =>
      rw [Text.lowerAscii, List.map_cons, List.infix_cons_iff]
      rintro (hp | hi)
      · exact hn (startsWith_lowerAscii_take.2 hp)
      · exact ih (Option.map_eq_none_iff.1 h) hi

/-- The name of a raw text element starts with a letter. -/
theorem exists_letter_of_isRaw {name : Text} (h : isRaw name = true) :
    ∃ c rest, Text.lowerAscii name = c :: rest ∧ Text.isAsciiLetter c = true := by
  obtain ⟨raw, hmem, heq⟩ := List.any_eq_true.1 h
  have hlower : Text.lowerAscii name = Text.lowerAscii raw := beq_iff_eq.1 heq
  rw [hlower]
  simp only [rawNames, List.map_cons, List.map_nil, List.mem_cons, List.not_mem_nil, or_false] at hmem
  rcases hmem with rfl | rfl | rfl <;> exact ⟨_, _, rfl, by decide⟩

/-- The mark of an end tag, in any case, is one. -/
theorem endTagHere_of_lowerAscii {name t : Text} (hraw : isRaw name = true)
    (h : '<' :: '/' :: Text.lowerAscii name <+: Text.lowerAscii t) : endTagHere t = true := by
  obtain ⟨l, rest, hname, hl⟩ := exists_letter_of_isRaw hraw
  rw [hname] at h
  obtain ⟨more, hmore⟩ := h
  obtain ⟨a, s, rfl, ha, hs⟩ := List.map_eq_cons_iff.1 hmore.symm
  obtain ⟨b, s, rfl, hb, hs⟩ := List.map_eq_cons_iff.1 hs
  obtain ⟨c, s, rfl, hc, -⟩ := List.map_eq_cons_iff.1 hs
  obtain rfl := Text.eq_of_toLower ha (by decide)
  obtain rfl := Text.eq_of_toLower hb (by decide)
  rw [← hc] at hl
  rwa [Text.isAsciiLetter_toLower] at hl

theorem of_readRaw_error {total start : Nat} {name t : Text} {e : Unterminated}
    (hraw : isRaw name = true) (h : readRaw total start name t = .error e) :
    (e = ⟨.rawText, start⟩ ∧ ¬ '<' :: '/' :: Text.lowerAscii name <:+: Text.lowerAscii t) ∨
      e.Within total t := by
  unfold readRaw at h
  split at h
  · next hs =>
    cases h
    exact .inl ⟨rfl, not_isInfix_of_splitBefore hs⟩
  · next content rest hs =>
    split at h
    · next hgt =>
      cases h
      refine .inr ⟨.inl rfl, content, rest, (of_splitBefore (by simp) hs).1, rfl, ?_, ?_⟩
      · exact endTagHere_of_lowerAscii hraw (isPrefix_of_splitBefore (by simp) hs)
      · intro hmem
        obtain ⟨a, b, rfl⟩ := List.append_of_mem hmem
        exact Text.not_isInfix_of_splitAt?_eq_none hgt ⟨a, b, by simp⟩
    · cases h

/-! ## Events -/

theorem of_readElement_error {total : Nat} {t : Text} {e : Unterminated} (ht : startTagHere t = true)
    (h : readElement total t = .error e) : e.At total t ∨ e.Within total t := by
  have hinside : (t.drop 1).dropWhile isNameChar <:+ t :=
    (List.dropWhile_suffix _).trans (List.drop_suffix _ _)
  have hwhole := h
  unfold readElement at h
  rcases bind_eq_error_iff.1 h with ha | ⟨⟨as, selfClosing, after⟩, ha, -⟩
  · rcases of_readAttributes_error ha with rfl | hwithin
    · exact .inl ⟨rfl, ht⟩
    · exact .inr (hwithin.of_suffix hinside)
  · -- the start tag is whole, so the element has raw content
    obtain ⟨written, hwritten, htag⟩ := exists_startTag ht ha
    have hread := htag.readElement total after
    rw [← hwritten, hwhole] at hread
    split at hread
    · cases hread
    · next hempty =>
      simp only [Bool.or_eq_true, not_or, Bool.not_eq_true] at hempty
      obtain ⟨rfl, -⟩ := hempty
      split at hread
      · next hraw =>
        cases hr : readRaw total (total - Text.byteSize t) ((t.drop 1).takeWhile isNameChar) after with
        | ok p =>
          rw [hr] at hread
          cases hread
        | error x =>
          rw [hr] at hread
          cases hread
          rcases of_readRaw_error hraw hr with ⟨rfl, hnone⟩ | hwithin
          · exact .inl ⟨rfl, written, _, after, hwritten, htag, hraw, hnone⟩
          · exact .inr (hwithin.of_suffix ⟨written, hwritten.symm⟩)
      · cases hread

/-- What an error of reading an event names stands at the beginning, or inside a tag or a raw text
element that does. -/
theorem of_readEvent_error {total : Nat} {t : Text} {e : Unterminated}
    (h : readEvent total t = .error e) : e.At total t ∨ e.Within total t := by
  unfold readEvent at h
  split at h
  · next hcomment =>
    obtain ⟨rest, rfl⟩ := Text.startsWith_iff.1 hcomment
    unfold readComment at h
    split at h
    · cases h
    · next hs =>
      cases h
      exact .inl ⟨rfl, rest, rfl, Text.not_isInfix_of_splitAt?_eq_none hs⟩
  · split at h
    · next hend =>
      unfold readEndTag at h
      dsimp only at h
      split at h
      · cases h
      · next hs =>
        cases h
        refine .inl ⟨rfl, hend, ?_⟩
        obtain ⟨c, -, s, rfl⟩ := endTagHere_iff.1 hend
        have hname : '>' ∉ (c :: s).takeWhile isNameChar := by
          intro hmem
          have := List.all_eq_true.1 List.all_takeWhile '>' hmem
          exact absurd this (by decide)
        have hrest : '>' ∉ (c :: s).dropWhile isNameChar := by
          intro hmem
          obtain ⟨a, b, hab⟩ := List.append_of_mem hmem
          exact Text.not_isInfix_of_splitAt?_eq_none hs ⟨a, b, by rw [List.append_assoc]; exact hab.symm⟩
        have hinside : '>' ∉ c :: s := by
          rw [← List.takeWhile_append_dropWhile (p := isNameChar) (l := c :: s), List.mem_append]
          rintro (hmem | hmem)
          · exact hname hmem
          · exact hrest hmem
        simpa using hinside
    · split at h
      · next hstart => exact of_readElement_error hstart h
      · cases h

/-! ## All of a text -/

theorem atMarkup_of_spanText (t : Text) : (spanText t).2 = [] ∨ atMarkup (spanText t).2 = true := by
  induction t with
  | nil => exact .inl rfl
  | cons c t ih =>
    unfold spanText
    split
    · next h => exact .inr h
    · exact ih

/-- The text can end before `here` where an event ends before it, if what is left in between does not
begin in another way. -/
theorem readEvent_without {total : Nat} {t before here : Text} {e : Event} (ht : t ≠ [])
    (h : readEvent total t = .ok (e, before ++ here)) (hne : here ≠ [])
    (hat : atMarkup (before ++ here) = true → before = [] ∨ atMarkup before = true) :
    ∃ used, t = used ++ (before ++ here) ∧ used ++ before ≠ [] ∧
      (∀ total', readEvent total' (used ++ before) = .ok (e, before)) ∧
      (atMarkup t = true → atMarkup (used ++ before) = true) := by
  by_cases hmarkup : atMarkup t = true
  · obtain ⟨used, hused, hagain⟩ := readEvent_local hmarkup h
    refine ⟨used, hused, ?_, fun total' => (hagain total' before).2, fun _ => (hagain total before).1⟩
    intro hnil
    have hnone := (hagain total before).1
    rw [hnil] at hnone
    cases hnone
  · -- a text ends where the next event starts
    obtain ⟨hspan, hopens⟩ := of_spanText t
    have hdata : (spanText t).1 ≠ [] := by
      obtain ⟨c, t, rfl⟩ := List.exists_cons_of_ne_nil ht
      rw [spanText, if_neg hmarkup]
      simp
    rw [readEvent_of_not_atMarkup total hmarkup, Except.ok.injEq, Prod.mk.injEq] at h
    obtain ⟨rfl, hrest⟩ := h
    have hends : before = [] ∨ atMarkup before = true := by
      rcases atMarkup_of_spanText t with hnil | hfollows
      · rw [hrest] at hnil
        exact absurd (List.append_eq_nil_iff.1 hnil).2 hne
      · rw [hrest] at hfollows
        exact hat hfollows
    refine ⟨(spanText t).1, ?_, by simp [hdata], readEvent_text hdata hopens hends,
      fun h => absurd h hmarkup⟩
    rw [← hrest]
    exact hspan

/-- Reading fails at an event, and what stands before that event is read without what follows it. -/
theorem exists_failing_event {total fuel : Nat} {t : Text} {e : Unterminated}
    (h : readEvents total fuel t = .error e) :
    ∃ before here es, t = before ++ here ∧ here ≠ [] ∧ readEvent total here = .error e ∧
      (∀ total', Reads total' before es) ∧ (atMarkup t = true → before = [] ∨ atMarkup before = true) := by
  induction fuel generalizing t with
  | zero =>
    cases t with
    | nil => cases h
    | cons c t => cases h
  | succ fuel ih =>
    cases t with
    | nil => cases h
    | cons c t =>
      rw [readEvents] at h
      rcases bind_eq_error_iff.1 h with hevent | ⟨⟨event, rest⟩, hread, h⟩
      · exact ⟨[], c :: t, [], rfl, by simp, hevent, fun _ => .nil, fun _ => .inl rfl⟩
      · rcases bind_eq_error_iff.1 h with hrest | ⟨es, -, hes⟩
        · obtain ⟨before, here, es, rfl, hne, hfail, hreads, hat⟩ := ih hrest
          obtain ⟨used, hused, hsome, hagain, hmarkup⟩ := readEvent_without (by simp) hread hne hat
          refine ⟨used ++ before, here, event :: es, ?_, hne, hfail, ?_, fun h => .inr (hmarkup h)⟩
          · rw [List.append_assoc]
            exact hused
          · exact fun total' => .cons hsome (hagain total') (hreads total')
        · cases hes

theorem parse_eq_error_iff {t : Text} {e : Unterminated} : parse t = .error e ↔ events t = .error e := by
  unfold parse
  cases events t <;> simp [Except.map]

/-- **A parse error is true.** It names a construct without an end and the byte of the text where that
construct starts, between two characters. What stands before a comment, a start tag or a raw text
element without an end is parsed on its own. -/
theorem openIn_of_parse_eq_error {t : Text} {e : Unterminated} (h : parse t = .error e) :
    ∃ before rest, t = before ++ rest ∧ rest ≠ [] ∧ Text.byteSize before = e.offset ∧
      e.construct.OpenIn rest ∧
      (e.construct = .comment ∨ e.construct = .startTag ∨ e.construct = .rawText →
        ∃ d, parse before = .ok d) := by
  obtain ⟨before, here, es, rfl, -, hfail, hreads, -⟩ :=
    exists_failing_event (parse_eq_error_iff.1 h)
  rw [Text.byteSize_append] at hfail
  rcases of_readEvent_error hfail with ⟨hoffset, hopen⟩ | ⟨hpart, skipped, rest, rfl, hoffset, hopen⟩
  · refine ⟨before, here, rfl, hopen.ne_nil, by omega, hopen, fun _ => ?_⟩
    refine ⟨Document.ofEvents es, ?_⟩
    unfold parse
    rw [events_eq_ok_iff.2 (hreads _)]
    rfl
  · refine ⟨before ++ skipped, rest, by rw [List.append_assoc], hopen.ne_nil, ?_, hopen, ?_⟩
    · rw [Text.byteSize_append] at hoffset ⊢
      omega
    · rintro (hc | hc | hc) <;> rw [hc] at hpart <;> simp at hpart

theorem openIn_wxs :
    parse "<view>a<WXS a='>'>b</x".toList = .error ⟨.rawText, 7⟩ ∧
      ∃ before rest, "<view>a<WXS a='>'>b</x".toList = before ++ rest ∧ Text.byteSize before = 7 ∧
        Construct.rawText.OpenIn rest ∧ ∃ d, parse before = .ok d := by
  have hparse : parse "<view>a<WXS a='>'>b</x".toList = .error ⟨.rawText, 7⟩ := by rfl
  obtain ⟨before, rest, ht, -, hoffset, hopen, hbefore⟩ := openIn_of_parse_eq_error hparse
  exact ⟨hparse, before, rest, ht, hoffset, hopen, hbefore (.inr (.inr rfl))⟩

end Markup

end Phrasebook
