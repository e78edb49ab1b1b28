import Phrasebook.Text.Basic

/-!
Code units of 16 bits. A character beyond U+FFFF is a pair of surrogates; a surrogate without its
partner stands for no character.

Main statement: decoding undoes encoding (`decode_encode_append`, `decodeLossy_encode`).
-/

namespace Phrasebook.Units

/-- A code unit; only values below 65536 occur. -/
abbrev CodeUnit := Nat

/-- The first half of a surrogate pair. -/
def isHigh (u : Nat) : Bool := 0xD800 ≤ u && u ≤ 0xDBFF

/-- The second half of a surrogate pair. -/
def isLow (u : Nat) : Bool := 0xDC00 ≤ u && u ≤ 0xDFFF

/-- The code units of a character. -/
def encodeChar (c : Char) : List CodeUnit :=
  if c.toNat < 0x10000 then [c.toNat]
  else [0xD800 + (c.toNat - 0x10000) / 0x400, 0xDC00 + (c.toNat - 0x10000) % 0x400]

/-- The code units of a text. -/
def encode (t : Text) : List CodeUnit := t.flatMap encodeChar

/-- The character of a surrogate pair. -/
def pair (high low : Nat) : Char :=
  Char.ofNat (0x10000 + (high - 0xD800) * 0x400 + (low - 0xDC00))

/-- Reads code units; `none` stands for a surrogate without its partner. -/
def decode : List CodeUnit → List (Option Char)
  | [] => []
  | [u] => [if isHigh u || isLow u then none else some (Char.ofNat u)]
  | u :: v :: rest =>
    if isHigh u then
      if isLow v then some (pair u v) :: decode rest else none :: decode (v :: rest)
    else (if isLow u then none else some (Char.ofNat u)) :: decode (v :: rest)

/-- The text that code units spell, if every surrogate has its partner. -/
def decode? (units : List CodeUnit) : Option Text := (decode units).mapM id

/-- The text that code units spell, with U+FFFD for a surrogate without its partner. -/
def decodeLossy (units : List CodeUnit) : Text :=
  (decode units).map fun c => c.getD '\ufffd'

theorem toNat_cases (c : Char) :
    c.toNat < 0xD800 ∨ (0xE000 ≤ c.toNat ∧ c.toNat < 0x110000) := by
  have h := c.valid
  simp only [UInt32.isValidChar, Nat.isValidChar] at h
  show c.val.toNat < _ ∨ _ ≤ c.val.toNat ∧ c.val.toNat < _
  omega

theorem decode_encodeChar_append (c : Char) (units : List CodeUnit) :
    decode (encodeChar c ++ units) = some c :: decode units := by
  have hc := toNat_cases c
  by_cases h : c.toNat < 0x10000
  · have hh : isHigh c.toNat = false := by simp [isHigh]; omega
    have hl : isLow c.toNat = false := by simp [isLow]; omega
    cases units with
    | nil => simp [encodeChar, h, decode, hh, hl]
    | cons v rest => simp [encodeChar, h, decode, hh, hl]
  · have hh : isHigh (0xD800 + (c.toNat - 0x10000) / 0x400) = true := by simp [isHigh]; omega
    have hl : isLow (0xDC00 + (c.toNat - 0x10000) % 0x400) = true := by simp [isLow]; omega
    have hp : pair (0xD800 + (c.toNat - 0x10000) / 0x400)
        (0xDC00 + (c.toNat - 0x10000) % 0x400) = c := by
      have : 0x10000 + (0xD800 + (c.toNat - 0x10000) / 0x400 - 0xD800) * 0x400 +
          (0xDC00 + (c.toNat - 0x10000) % 0x400 - 0xDC00) = c.toNat := by omega
      rw [pair, this, Char.ofNat_toNat]
    simp [encodeChar, h, decode, hh, hl, hp]

/-- Decoding undoes encoding, whatever follows. -/
theorem decode_encode_append (t : Text) (units : List CodeUnit) :
    decode (encode t ++ units) = t.map some ++ decode units := by
  induction t with
  | nil => rfl
  | cons c t ih =>
    rw [encode, List.flatMap_cons, List.append_assoc, decode_encodeChar_append]
    exact congrArg (some c :: ·) ih

theorem decodeLossy_encode (t : Text) : decodeLossy (encode t) = t := by
  have h := decode_encode_append t []
  simp only [List.append_nil, decode] at h
  simp [decodeLossy, h, Function.comp_def]

end Phrasebook.Units
