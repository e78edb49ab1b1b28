import Phrasebook.Locale.Reader
import Phrasebook.Proofs.LetterCase

/-!
The sorts of subtags. A sort looks at a subtag without regard to the case of its letters and gives
its canonical spelling, which differs in case at most (`IsSort`). So a canonical subtag is read as
itself, in every case (`IsSort.of_lowerAscii_eq`).

The sorts that may follow one another in a code exclude each other: a script has four letters, a
region two letters or three digits, a variant five characters or a digit in front, the letter of an
extension stands alone.
-/

namespace Phrasebook

namespace Subtag

@[simp] theorem isAlphanumeric_toLower (c : Char) : isAlphanumeric c.toLower = isAlphanumeric c := by
  simp [isAlphanumeric]

theorem byteSize_of_all_isAlphanumeric {s : Text} (h : s.all isAlphanumeric = true) :
    s.byteSize = s.length := by
  induction s with
  | nil => rfl
  | cons c s ih =>
    rw [List.all_cons, Bool.and_eq_true] at h
    have hc : c.toNat < 128 := by
      have hc := h.1
      rw [isAlphanumeric, Bool.or_eq_true, Text.isAsciiLetter_iff, Text.isAsciiDigit_iff] at hc
      omega
    rw [Text.byteSize_cons, ih h.2, Text.utf8Size_eq_one_iff.2 hc, List.length_cons, Nat.add_comm]

theorem all_isAlphanumeric_of_letters {s : Text} (h : s.all Text.isAsciiLetter = true) :
    s.all isAlphanumeric = true :=
  List.all_eq_true.2 fun c hc => by rw [isAlphanumeric, List.all_eq_true.1 h c hc, Bool.true_or]

theorem all_isAlphanumeric_of_digits {s : Text} (h : s.all Text.isAsciiDigit = true) :
    s.all isAlphanumeric = true :=
  List.all_eq_true.2 fun c hc => by rw [isAlphanumeric, List.all_eq_true.1 h c hc, Bool.or_true]

/-- A sort of subtags of letters and digits: the case of the letters is ignored and is all that is
changed. -/
structure IsSort (sort : Text → Option Text) : Prop where
  sort_lowerAscii : ∀ s, sort (Text.lowerAscii s) = sort s
  lowerAscii_eq : ∀ {s t}, sort s = some t → Text.lowerAscii t = Text.lowerAscii s
  all_isAlphanumeric : ∀ {s t}, sort s = some t → s.all isAlphanumeric = true

namespace IsSort

variable {sort : Text → Option Text} (hsort : IsSort sort)
include hsort

/-- Spellings of one subtag are read alike. -/
theorem congr {s t : Text} (h : Text.lowerAscii s = Text.lowerAscii t) : sort s = sort t := by
  rw [← hsort.sort_lowerAscii s, h, hsort.sort_lowerAscii]

/-- A subtag that a sort has given is read as itself. -/
theorem idempotent {s t : Text} (h : sort s = some t) : sort t = some t := by
  rw [hsort.congr (hsort.lowerAscii_eq h), h]

theorem byteSize_eq {s t : Text} (h : sort s = some t) : s.byteSize = s.length :=
  byteSize_of_all_isAlphanumeric (hsort.all_isAlphanumeric h)

/-- A canonical subtag is what every spelling of it is read as. -/
theorem of_lowerAscii_eq {s t : Text} (ht : sort t = some t)
    (h : Text.lowerAscii s = Text.lowerAscii t) : sort s = some t := by
  rw [hsort.congr h, ht]

/-- Canonical subtags are the same if they differ in case only. -/
theorem eq_of_lowerAscii_eq {s t : Text} (hs : sort s = some s) (ht : sort t = some t)
    (h : Text.lowerAscii s = Text.lowerAscii t) : s = t := by
  have hread := hsort.of_lowerAscii_eq ht h
  rw [hs] at hread
  exact Option.some.inj hread

end IsSort

/-! ## The sorts -/

theorem isSort_between? (least most : Nat) : IsSort (between? least most) where
  sort_lowerAscii s := by
    simp [between?, Text.all_lowerAscii isAlphanumeric_toLower]
  lowerAscii_eq {s t} h := by
    unfold between? at h
    split at h
    · cases h
      exact Text.lowerAscii_lowerAscii s
    · cases h
  all_isAlphanumeric {s t} h := by
    unfold between? at h
    split at h
    · next hs => exact hs.2.2
    · cases h

theorem isSort_language? : IsSort language? where
  sort_lowerAscii s := by
    simp [language?, Text.all_lowerAscii Text.isAsciiLetter_toLower]
  lowerAscii_eq {s t} h := by
    unfold language? at h
    split at h
    · cases h
      exact Text.lowerAscii_lowerAscii s
    · cases h
  all_isAlphanumeric {s t} h := by
    unfold language? at h
    split at h
    · next hs => exact all_isAlphanumeric_of_letters hs.2
    · cases h

theorem isSort_script? : IsSort script? where
  sort_lowerAscii s := by
    simp [script?, Text.all_lowerAscii Text.isAsciiLetter_toLower]
  lowerAscii_eq {s t} h := by
    unfold script? at h
    split at h
    · cases s with
      | nil => cases h
      | cons c s =>
        cases h
        simp [Text.lowerAscii]
    · cases h
  all_isAlphanumeric {s t} h := by
    unfold script? at h
    split at h
    · next hs => exact all_isAlphanumeric_of_letters hs.2
    · cases h

theorem map_toUpper_lowerAscii (s : Text) : (Text.lowerAscii s).map Char.toUpper = s.map Char.toUpper := by
  simp [Text.lowerAscii, Function.comp_def]

/-- Digits have one case. -/
theorem lowerAscii_of_digits {s : Text} (h : s.all Text.isAsciiDigit = true) :
    Text.lowerAscii s = s := by
  refine (List.map_congr_left fun c hc => ?_).trans (List.map_id s)
  have hdigit := Text.isAsciiDigit_iff.1 (List.all_eq_true.1 h c hc)
  refine Char.toNat_inj.1 ?_
  rw [Text.toNat_toLower, if_neg (by omega)]
  rfl

theorem isSort_region? : IsSort region? where
  sort_lowerAscii s := by
    unfold region?
    rw [Text.length_lowerAscii, Text.all_lowerAscii Text.isAsciiLetter_toLower,
      Text.all_lowerAscii Text.isAsciiDigit_toLower, map_toUpper_lowerAscii]
    by_cases hs : s.all Text.isAsciiDigit = true
    · rw [lowerAscii_of_digits hs]
    · simp [hs]
  lowerAscii_eq {s t} h := by
    unfold region? at h
    split at h
    · cases h
      simp [Text.lowerAscii, Function.comp_def]
    · split at h <;> cases h
      rfl
  all_isAlphanumeric {s t} h := by
    unfold region? at h
    split at h
    · next hs => exact all_isAlphanumeric_of_letters hs.2
    · split at h
      · next hs => exact all_isAlphanumeric_of_digits hs.2
      · cases h

theorem isSort_variant? : IsSort variant? where
  sort_lowerAscii s := by
    have hdigit : ((Text.lowerAscii s).take 1).all Text.isAsciiDigit =
        (s.take 1).all Text.isAsciiDigit := by
      rw [Text.lowerAscii, ← List.map_take]
      exact Text.all_lowerAscii Text.isAsciiDigit_toLower _
    unfold variant?
    rw [hdigit, Text.length_lowerAscii, (isSort_between? 4 4).sort_lowerAscii,
      (isSort_between? 5 8).sort_lowerAscii]
  lowerAscii_eq {s t} h := by
    unfold variant? at h
    split at h
    · split at h
      · exact (isSort_between? 4 4).lowerAscii_eq h
      · cases h
    · exact (isSort_between? 5 8).lowerAscii_eq h
  all_isAlphanumeric {s t} h := by
    unfold variant? at h
    split at h
    · split at h
      · exact (isSort_between? 4 4).all_isAlphanumeric h
      · cases h
    · exact (isSort_between? 5 8).all_isAlphanumeric h

theorem isSort_keywordKey? : IsSort keywordKey? where
  sort_lowerAscii s := by
    match s with
    | [] | [_] | _ :: _ :: _ :: _ => rfl
    | [a, b] => simp [keywordKey?, Text.lowerAscii]
  lowerAscii_eq {s t} h := by
    unfold keywordKey? at h
    split at h
    · split at h
      · cases h
        exact Text.lowerAscii_lowerAscii _
      · cases h
    · cases h
  all_isAlphanumeric {s t} h := by
    unfold keywordKey? at h
    split at h
    · next a b =>
      split at h
      · next hab =>
        rw [Bool.and_eq_true] at hab
        have hb : isAlphanumeric b = true := by rw [isAlphanumeric, hab.2, Bool.true_or]
        simp [hab.1, hb]
      · cases h
    · cases h

theorem isSort_fieldKey? : IsSort fieldKey? where
  sort_lowerAscii s := by
    match s with
    | [] | [_] | _ :: _ :: _ :: _ => rfl
    | [a, b] => simp [fieldKey?, Text.lowerAscii]
  lowerAscii_eq {s t} h := by
    unfold fieldKey? at h
    split at h
    · split at h
      · cases h
        exact Text.lowerAscii_lowerAscii _
      · cases h
    · cases h
  all_isAlphanumeric {s t} h := by
    unfold fieldKey? at h
    split at h
    · next a b =>
      split at h
      · next hab =>
        rw [Bool.and_eq_true] at hab
        simp [isAlphanumeric, hab.1, hab.2]
      · cases h
    · cases h

/-! ## Shapes -/

/-- A reader that takes only what has some property does not take what has it not. -/
theorem eq_none_of_not {α : Type} {o : Option α} {p : Prop} (hp : ∀ a, o = some a → p) (h : ¬ p) :
    o = none :=
  Option.eq_none_iff_forall_not_mem.2 fun a ha => h (hp a ha)

theorem length_of_language? {s t : Text} (h : language? s = some t) :
    s.length = 2 ∨ s.length = 3 := by
  unfold language? at h
  split at h
  · next hs => exact hs.1
  · cases h

theorem length_of_script? {s t : Text} (h : script? s = some t) : s.length = 4 := by
  unfold script? at h
  split at h
  · next hs => exact hs.1
  · cases h

theorem length_of_region? {s t : Text} (h : region? s = some t) : s.length = 2 ∨ s.length = 3 := by
  unfold region? at h
  split at h
  · next hs => exact .inl hs.1
  · split at h
    · next hs => exact .inr hs.1
    · cases h

theorem length_of_between? {least most : Nat} {s t : Text} (h : between? least most s = some t) :
    least ≤ s.length ∧ s.length ≤ most := by
  unfold between? at h
  split at h
  · next hs => exact ⟨hs.1, hs.2.1⟩
  · cases h

theorem length_of_keywordKey? {s t : Text} (h : keywordKey? s = some t) : s.length = 2 := by
  unfold keywordKey? at h
  split at h
  · rfl
  · cases h

theorem length_of_fieldKey? {s t : Text} (h : fieldKey? s = some t) : s.length = 2 := by
  unfold fieldKey? at h
  split at h
  · rfl
  · cases h

theorem length_of_value? {s : Text} {vs : List Text} (h : value? s = some vs) : 3 ≤ s.length := by
  obtain ⟨v, hv, -⟩ := Option.map_eq_some_iff.1 h
  exact (length_of_between? hv).1

theorem length_of_variant? {s t : Text} (h : variant? s = some t) : 4 ≤ s.length := by
  unfold variant? at h
  split at h
  · omega
  · have hs := length_of_between? h
    omega

/-- A subtag of four letters is no variant: one of four characters starts with a digit. -/
theorem variant?_of_script? {s t : Text} (h : script? s = some t) : variant? s = none := by
  unfold script? at h
  split at h
  · next hs =>
    obtain ⟨hlength, hletters⟩ := hs
    cases s with
    | nil => cases hlength
    | cons c s =>
      have hc := Text.isAsciiLetter_iff.1 (List.all_eq_true.1 hletters c List.mem_cons_self)
      have hdigit : Text.isAsciiDigit c = false := by
        rw [Bool.eq_false_iff]
        intro hd
        have := Text.isAsciiDigit_iff.1 hd
        omega
      simp [variant?, hlength, hdigit]
  · cases h

theorem script?_of_region? {s t : Text} (h : region? s = some t) : script? s = none := by
  have hregion := length_of_region? h
  exact eq_none_of_not (fun _ => length_of_script?) (by omega)

theorem script?_of_variant? {s t : Text} (h : variant? s = some t) : script? s = none :=
  eq_none_of_not (fun _ => variant?_of_script?) (by simp [h])

theorem region?_of_script? {s t : Text} (h : script? s = some t) : region? s = none := by
  have hscript := length_of_script? h
  exact eq_none_of_not (fun _ => length_of_region?) (by omega)

theorem variant?_of_region? {s t : Text} (h : region? s = some t) : variant? s = none := by
  have hregion := length_of_region? h
  exact eq_none_of_not (fun _ => length_of_variant?) (by omega)

theorem region?_of_variant? {s t : Text} (h : variant? s = some t) : region? s = none := by
  have hvariant := length_of_variant? h
  exact eq_none_of_not (fun _ => length_of_region?) (by omega)

end Subtag

end Phrasebook
