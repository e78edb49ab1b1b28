/-!
Texts. A source text, a dictionary key and a locale code are all lists of characters, so that
scanning them is recursion on the list. Positions that the outside world sees are counted in UTF-8
bytes (`Text.byteSize`).

Main statements: sizes add up over a concatenation (`byteSize_append`), and `dropLeading?` is the
inverse of putting a text in front (`dropLeading?_eq_some_iff`). Searching for a part finds it exactly
when it is there (`contains_iff`).
-/

namespace Phrasebook

/-- A text is the list of its characters. -/
abbrev Text := List Char

namespace Text

/-- Number of bytes that the UTF-8 form of a text takes. -/
def byteSize : Text → Nat
  | [] => 0
  | c :: rest => c.utf8Size + byteSize rest

@[simp] theorem byteSize_nil : byteSize [] = 0 := rfl

@[simp] theorem byteSize_cons (c : Char) (t : Text) :
    byteSize (c :: t) = c.utf8Size + byteSize t := rfl

@[simp] theorem byteSize_append (s t : Text) : byteSize (s ++ t) = byteSize s + byteSize t := by
  induction s with
  | nil => simp
  | cons c s ih => simp [ih, Nat.add_assoc]

/-- Cuts a text at a byte offset. A character that straddles the offset goes to the second part. -/
def splitAtByte : Nat → Text → Text × Text
  | _, [] => ([], [])
  | n, c :: t =>
    if c.utf8Size ≤ n then
      let (before, after) := splitAtByte (n - c.utf8Size) t
      (c :: before, after)
    else ([], c :: t)

/-- Renders a text as a string for messages and output. -/
def render (t : Text) : String := String.ofList t

/-- What follows `lead` in a text that starts with it. -/
def dropLeading? : Text → Text → Option Text
  | [], t => some t
  | _ :: _, [] => none
  | a :: lead, c :: t => if a = c then dropLeading? lead t else none

theorem dropLeading?_append (lead t : Text) : dropLeading? lead (lead ++ t) = some t := by
  induction lead with
  | nil => rfl
  | cons a lead ih => simp [dropLeading?, ih]

theorem eq_append_of_dropLeading? {lead t rest : Text} (h : dropLeading? lead t = some rest) :
    t = lead ++ rest := by
  induction lead generalizing t with
  | nil => simpa [dropLeading?] using h
  | cons a lead ih =>
    cases t with
    | nil => simp [dropLeading?] at h
    | cons c t =>
      by_cases hac : a = c
      · simp only [dropLeading?, hac, if_true] at h
        simp [hac, ih h]
      · simp [dropLeading?, hac] at h

/-- A text starts with `lead` exactly when it is `lead` followed by what is left. -/
theorem dropLeading?_eq_some_iff {lead t rest : Text} :
    dropLeading? lead t = some rest ↔ t = lead ++ rest :=
  ⟨eq_append_of_dropLeading?, fun h => h ▸ dropLeading?_append lead rest⟩

/-- Whether a text starts with `lead`. -/
def startsWith (t lead : Text) : Bool := (dropLeading? lead t).isSome

theorem startsWith_iff {t lead : Text} : startsWith t lead = true ↔ lead <+: t := by
  unfold startsWith
  rw [Option.isSome_iff_exists]
  constructor
  · rintro ⟨rest, h⟩
    exact ⟨rest, (eq_append_of_dropLeading? h).symm⟩
  · rintro ⟨rest, rfl⟩
    exact ⟨rest, dropLeading?_append lead rest⟩

/-- Splits a text at the first occurrence of `mark`: what stands before it and what follows it. -/
def splitAt? (mark : Text) : Text → Option (Text × Text)
  | [] => (dropLeading? mark []).map fun rest => ([], rest)
  | c :: t =>
    match dropLeading? mark (c :: t) with
    | some rest => some ([], rest)
    | none => (splitAt? mark t).map fun (before, rest) => (c :: before, rest)

theorem eq_of_splitAt? {mark t before rest : Text} (h : splitAt? mark t = some (before, rest)) :
    t = before ++ mark ++ rest := by
  induction t generalizing before with
  | nil =>
    obtain ⟨r, hr, he⟩ := Option.map_eq_some_iff.1 h
    cases he
    simpa using eq_append_of_dropLeading? hr
  | cons c t ih =>
    unfold splitAt? at h
    split at h
    · next r hr =>
      cases h
      simpa using eq_append_of_dropLeading? hr
    · obtain ⟨⟨b, r⟩, hb, he⟩ := Option.map_eq_some_iff.1 h
      cases he
      simp [ih hb]

/-- Whether `part` stands anywhere in a text. -/
def contains (t part : Text) : Bool := (splitAt? part t).isSome

theorem isSome_splitAt?_append (mark before rest : Text) :
    (splitAt? mark (before ++ (mark ++ rest))).isSome = true := by
  induction before with
  | nil =>
    have h := dropLeading?_append mark rest
    rw [List.nil_append]
    cases ht : mark ++ rest with
    | nil =>
      rw [ht] at h
      simp [splitAt?, h]
    | cons c t =>
      rw [ht] at h
      simp [splitAt?, h]
  | cons c before ih =>
    rw [List.cons_append, splitAt?]
    split
    · rfl
    · rw [Option.isSome_map]
      exact ih

/-- A part stands in a text exactly when the text is the part with something around it. -/
theorem contains_iff {t part : Text} : contains t part = true ↔ part <:+: t := by
  constructor
  · intro h
    obtain ⟨⟨before, rest⟩, hs⟩ := Option.isSome_iff_exists.1 h
    exact ⟨before, rest, (eq_of_splitAt? hs).symm⟩
  · rintro ⟨before, rest, rfl⟩
    rw [List.append_assoc]
    exact isSome_splitAt?_append part before rest

/-- The value of a hexadecimal digit. -/
def hexDigit? (c : Char) : Option Nat :=
  if '0' ≤ c ∧ c ≤ '9' then some (c.toNat - 48)
  else if 'a' ≤ c ∧ c ≤ 'f' then some (c.toNat - 87)
  else if 'A' ≤ c ∧ c ≤ 'F' then some (c.toNat - 55)
  else none

/-- Whether a character is a hexadecimal digit of either case. -/
def isHexDigit (c : Char) : Bool := (hexDigit? c).isSome

/-- The number that a row of hexadecimal digits writes; other characters count as zero. -/
def hexValue (digits : Text) : Nat :=
  digits.foldl (fun n c => 16 * n + (hexDigit? c).getD 0) 0

/-- The number that a row of octal digits writes. -/
def octalValue (digits : Text) : Nat :=
  digits.foldl (fun n c => 8 * n + (c.toNat - 48)) 0

/-- ASCII letters of either case. -/
def isAsciiLetter (c : Char) : Bool := ('a' ≤ c && c ≤ 'z') || ('A' ≤ c && c ≤ 'Z')

/-- ASCII decimal digits. -/
def isAsciiDigit (c : Char) : Bool := '0' ≤ c && c ≤ '9'

/-- Lower case of the ASCII letters; every other character stays. -/
def lowerAscii (t : Text) : Text := t.map Char.toLower

/-- Equality up to the case of ASCII letters. -/
def eqIgnoringCase (s t : Text) : Bool := lowerAscii s == lowerAscii t

/-- Texts are ordered by their code points, which is also the order of their UTF-8 bytes. -/
def blt : Text → Text → Bool
  | [], [] => false
  | [], _ :: _ => true
  | _ :: _, [] => false
  | a :: s, b :: t => if a = b then blt s t else a.toNat < b.toNat

/-- Joins texts with a separator between neighbours. -/
def joinWith (separator : Text) : List Text → Text
  | [] => []
  | [t] => t
  | t :: rest => t ++ separator ++ joinWith separator rest

/-- Cuts a text at every character that satisfies `p`; there is always at least one piece. -/
def splitOn (p : Char → Bool) : Text → List Text
  | [] => [[]]
  | c :: t =>
    if p c then [] :: splitOn p t
    else match splitOn p t with
      | [] => [[c]]
      | piece :: pieces => (c :: piece) :: pieces

theorem splitOn_ne_nil (p : Char → Bool) (t : Text) : splitOn p t ≠ [] := by
  induction t with
  | nil => simp [splitOn]
  | cons c t ih =>
    unfold splitOn
    split
    · simp
    · split <;> simp

/-- The pieces before and behind a cut are those of the two parts. -/
theorem splitOn_append_cons {p : Char → Bool} {c : Char} (h : p c = true) (s t : Text) :
    splitOn p (s ++ c :: t) = splitOn p s ++ splitOn p t := by
  induction s with
  | nil => simp [splitOn, h]
  | cons d s ih =>
    simp only [List.cons_append, splitOn, ih]
    split
    · rfl
    · cases hs : splitOn p s with
      | nil => exact absurd hs (splitOn_ne_nil p s)
      | cons piece pieces => rfl

end Text

end Phrasebook
