import Phrasebook.Text.Blank

/-!
Natural text: which characters belong to the Han script, which texts are worth an entry in the
dictionary, and where the runs of Han characters of a text lie.

A text is first cut into maximal runs of one character class (`runs`); a segment is a run of Han
characters with the white space next to it. White space between two runs of Han characters belongs
to the first of them.

Main statements: cutting loses nothing (`flatten_runs`), and a text is natural exactly when it
holds a Han character (`isNatural_iff`).
-/

namespace Phrasebook

/-- The ranges of the script Han. -/
def hanRanges : List (Nat × Nat) :=
  [(0x2E80, 0x2E99), (0x2E9B, 0x2EF3), (0x2F00, 0x2FD5), (0x3005, 0x3005), (0x3007, 0x3007),
   (0x3021, 0x3029), (0x3038, 0x303B), (0x3400, 0x4DBF), (0x4E00, 0x9FFF), (0xF900, 0xFA6D),
   (0xFA70, 0xFAD9), (0x16FE2, 0x16FE3), (0x16FF0, 0x16FF1), (0x20000, 0x2A6DF),
   (0x2A700, 0x2B739), (0x2B740, 0x2B81D), (0x2B820, 0x2CEA1), (0x2CEB0, 0x2EBE0),
   (0x2EBF0, 0x2EE5D), (0x2F800, 0x2FA1D), (0x30000, 0x3134A), (0x31350, 0x323AF)]

/-- Characters of the Han script. -/
def isHan (c : Char) : Bool := inRanges hanRanges c.toNat

/-- Han characters, CJK punctuation and the full-width forms. -/
def isNaturalChar (c : Char) : Bool :=
  isHan c || inRanges [(0x3000, 0x303F), (0xFF00, 0xFFEF)] c.toNat

namespace Text

/-- A text is natural language when a Han character stands in it. -/
def isNatural (t : Text) : Bool := t.any isHan

/-- Whether a text is made of natural characters only, and of at least one. -/
def allNaturalChars (t : Text) : Bool := !t.isEmpty && t.all isNaturalChar

theorem isNatural_iff (t : Text) : isNatural t = true ↔ ∃ c ∈ t, isHan c = true := by
  simp [isNatural]

/-! ## Runs -/

/-- The class of a character for the search of natural runs. -/
inductive CharClass where
  | blank
  | han
  | other
  deriving DecidableEq, Repr

/-- Han characters are never white space, so the order of the two tests does not matter. -/
def charClass (c : Char) : CharClass :=
  if isHan c then .han else if isBlank c then .blank else .other

/-- A run of characters of one class. -/
abbrev Run := CharClass × Text

/-- Puts a character in front of a list of runs. -/
def pushRun (c : Char) : List Run → List Run
  | [] => [(charClass c, [c])]
  | (k, t) :: more =>
    if k = charClass c then (k, c :: t) :: more else (charClass c, [c]) :: (k, t) :: more

/-- The maximal runs of one class, in order. -/
def runs : Text → List Run
  | [] => []
  | c :: t => pushRun c (runs t)

theorem flatten_pushRun (c : Char) (rs : List Run) :
    ((pushRun c rs).map Prod.snd).flatten = c :: (rs.map Prod.snd).flatten := by
  cases rs with
  | nil => rfl
  | cons r more =>
    obtain ⟨k, t⟩ := r
    by_cases h : k = charClass c <;> simp [pushRun, h]

/-- The runs of a text put together are the text. -/
theorem flatten_runs (t : Text) : ((runs t).map Prod.snd).flatten = t := by
  induction t with
  | nil => rfl
  | cons c t ih => simp [runs, flatten_pushRun, ih]

/-! ## Segments -/

/-- A maximal run of Han characters with the white space around it. -/
structure Segment where
  leading : Text
  text : Text
  trailing : Text
  /-- Byte offset at which the leading white space starts. -/
  start : Nat
  deriving DecidableEq, Repr

namespace Segment

/-- The part of the text that a segment covers. -/
def whole (s : Segment) : Text := s.leading ++ s.text ++ s.trailing

/-- Byte offset just after the segment. -/
def stop (s : Segment) : Nat := s.start + s.whole.byteSize

end Segment

/-- The segments of a list of runs that starts at byte `offset`, where `leading` is the white space
just before it. -/
def segmentsOfRuns (offset : Nat) (leading : Text) : List Run → List Segment
  | [] => []
  | (.blank, w) :: rest => segmentsOfRuns (offset + byteSize w) w rest
  | (.other, w) :: rest => segmentsOfRuns (offset + byteSize w) [] rest
  | (.han, t) :: (.blank, w) :: rest =>
    ⟨leading, t, w, offset - byteSize leading⟩ ::
      segmentsOfRuns (offset + byteSize t + byteSize w) [] rest
  | (.han, t) :: rest =>
    ⟨leading, t, [], offset - byteSize leading⟩ :: segmentsOfRuns (offset + byteSize t) [] rest

/-- The natural segments of a text, in order. -/
def segments (t : Text) : List Segment := segmentsOfRuns 0 [] (runs t)

end Text

end Phrasebook
