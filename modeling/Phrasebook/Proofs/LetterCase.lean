import Phrasebook.Text.Basic

/-!
The case of ASCII letters. Changing it moves a letter by 32 (`toNat_toLower`, `toNat_toUpper`) and
leaves every other character, so it changes neither which characters are letters and digits nor how
long a text is.
-/

namespace Phrasebook

namespace Text

theorem toNat_toLower (c : Char) :
    c.toLower.toNat = if 65 ≤ c.toNat ∧ c.toNat ≤ 90 then c.toNat + 32 else c.toNat := by
  have hcond : (c.val ≥ 'A'.val ∧ c.val ≤ 'Z'.val) ↔ 65 ≤ c.toNat ∧ c.toNat ≤ 90 := Iff.rfl
  unfold Char.toLower
  by_cases h : 65 ≤ c.toNat ∧ c.toNat ≤ 90
  · rw [dif_pos (hcond.2 h), if_pos h]
    show (c.val + (97 - 65)).toNat = c.val.toNat + 32
    have h32 : ((97 : UInt32) - 65).toNat = 32 := by decide
    have hle : c.val.toNat ≤ 90 := h.2
    rw [UInt32.toNat_add]
    omega
  · rw [dif_neg fun hc => h (hcond.1 hc), if_neg h]

theorem toNat_toUpper (c : Char) :
    c.toUpper.toNat = if 97 ≤ c.toNat ∧ c.toNat ≤ 122 then c.toNat - 32 else c.toNat := by
  have hcond : (c.val ≥ 'a'.val ∧ c.val ≤ 'z'.val) ↔ 97 ≤ c.toNat ∧ c.toNat ≤ 122 := Iff.rfl
  unfold Char.toUpper
  by_cases h : 97 ≤ c.toNat ∧ c.toNat ≤ 122
  · rw [dif_pos (hcond.2 h), if_pos h]
    show (c.val + ('A'.val - 'a'.val)).toNat = c.val.toNat - 32
    have h32 : ('A'.val - 'a'.val).toNat = 4294967264 := by decide
    have hle : 97 ≤ c.val.toNat ∧ c.val.toNat ≤ 122 := h
    rw [UInt32.toNat_add]
    omega
  · rw [dif_neg fun hc => h (hcond.1 hc), if_neg h]

theorem isAsciiLetter_iff {c : Char} :
    isAsciiLetter c = true ↔ 97 ≤ c.toNat ∧ c.toNat ≤ 122 ∨ 65 ≤ c.toNat ∧ c.toNat ≤ 90 := by
  simp only [isAsciiLetter, Bool.or_eq_true, Bool.and_eq_true, decide_eq_true_eq]
  rfl

theorem isAsciiDigit_iff {c : Char} : isAsciiDigit c = true ↔ 48 ≤ c.toNat ∧ c.toNat ≤ 57 := by
  simp only [isAsciiDigit, Bool.and_eq_true, decide_eq_true_eq]
  rfl

theorem utf8Size_eq_one_iff {c : Char} : c.utf8Size = 1 ↔ c.toNat < 128 :=
  Char.utf8Size_eq_one_iff.trans Nat.lt_succ_iff.symm

theorem eq_of_toLower {c d : Char} (h : c.toLower = d) (hd : ¬ (97 ≤ d.toNat ∧ d.toNat ≤ 122)) :
    c = d := by
  have hc := toNat_toLower c
  rw [h] at hc
  refine Char.toNat_inj.1 ?_
  split at hc <;> omega

/-! ## Characters whose case changes -/

@[simp] theorem isAsciiLetter_toLower (c : Char) : isAsciiLetter c.toLower = isAsciiLetter c := by
  rw [Bool.eq_iff_iff, isAsciiLetter_iff, isAsciiLetter_iff, toNat_toLower]
  split <;> omega

@[simp] theorem isAsciiLetter_toUpper (c : Char) : isAsciiLetter c.toUpper = isAsciiLetter c := by
  rw [Bool.eq_iff_iff, isAsciiLetter_iff, isAsciiLetter_iff, toNat_toUpper]
  split <;> omega

@[simp] theorem isAsciiDigit_toLower (c : Char) : isAsciiDigit c.toLower = isAsciiDigit c := by
  rw [Bool.eq_iff_iff, isAsciiDigit_iff, isAsciiDigit_iff, toNat_toLower]
  split <;> omega

@[simp] theorem toLower_toLower (c : Char) : c.toLower.toLower = c.toLower := by
  refine Char.toNat_inj.1 ?_
  rw [toNat_toLower, toNat_toLower]
  grind

@[simp] theorem toUpper_toLower (c : Char) : c.toLower.toUpper = c.toUpper := by
  refine Char.toNat_inj.1 ?_
  rw [toNat_toUpper, toNat_toUpper, toNat_toLower]
  grind

@[simp] theorem toLower_toUpper (c : Char) : c.toUpper.toLower = c.toLower := by
  refine Char.toNat_inj.1 ?_
  rw [toNat_toLower, toNat_toLower, toNat_toUpper]
  grind

@[simp] theorem utf8Size_toLower (c : Char) : c.toLower.utf8Size = c.utf8Size := by
  have hc := toNat_toLower c
  split at hc
  · have hlow := utf8Size_eq_one_iff.2 (show c.toLower.toNat < 128 by omega)
    have hhigh := utf8Size_eq_one_iff.2 (show c.toNat < 128 by omega)
    rw [hlow, hhigh]
  · rw [Char.toNat_inj.1 hc]

/-! ## Texts in lower case -/

@[simp] theorem length_lowerAscii (t : Text) : (lowerAscii t).length = t.length := List.length_map ..

@[simp] theorem lowerAscii_lowerAscii (t : Text) : lowerAscii (lowerAscii t) = lowerAscii t := by
  simp [lowerAscii, Function.comp_def]

@[simp] theorem byteSize_lowerAscii (t : Text) : byteSize (lowerAscii t) = byteSize t := by
  induction t with
  | nil => rfl
  | cons c t ih =>
    show c.toLower.utf8Size + byteSize (lowerAscii t) = c.utf8Size + byteSize t
    rw [ih, utf8Size_toLower]

/-- What holds of a character in every case holds of a text in lower case if it holds of the text. -/
theorem all_lowerAscii {p : Char → Bool} (h : ∀ c : Char, p c.toLower = p c) (t : Text) :
    (lowerAscii t).all p = t.all p := by
  rw [lowerAscii, List.all_map]
  congr 1
  exact funext h

end Text

end Phrasebook
