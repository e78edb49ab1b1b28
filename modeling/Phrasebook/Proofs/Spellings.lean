import Phrasebook.Proofs.QuotedLiterals

/-!
The ways of writing a string. A literal is written piece by piece: a piece is a character in one of its
spellings (`Spelling`) or a line continuation, which stands for nothing.

The value of such a literal is the text that its pieces stand for, up to one thing: an escape sequence
reads one more character where a backslash and `?`, or a backslash and a carriage return, stand before a
line or paragraph separator, and this separator gets lost (`isLiteral_heard`). So the value is the
written text exactly when no separator stands there (`spelled_literal_has_value_iff`).
-/

namespace Phrasebook.Script

/-! ## Spellings -/

/-- The letters that name a control character behind a backslash. -/
def controlLetters : List (Char × Char) :=
  [('n', '\n'), ('t', '\t'), ('r', '\r'), ('b', '\x08'), ('f', '\x0c'), ('v', '\x0b')]

/-- The characters that end a line. -/
def isLineEnd (c : Char) : Bool := c == '\r' || isLineBreak c

/-- The characters that a backslash leaves as they are. -/
def standsForItself (c : Char) : Bool :=
  c != 'x' && c != 'u' && !Text.isAsciiDigit c && !isLineEnd c && controlLetters.all (·.1 != c)

/-- The ways of writing a character in a literal with the quotes `q`. -/
inductive Spelling (q : Char) : Char → Text → Prop
  | raw {c : Char} (hc : isFragmentChar q c = true) : Spelling q c [c]
  /-- One escape for each code unit, so two for a character beyond U+FFFF. -/
  | units {c : Char} {rows : List Text}
      (hd : ∀ digits ∈ rows, digits.length = 4 ∧ digits.all Text.isHexDigit)
      (hv : rows.map Text.hexValue = Units.encodeChar c) :
      Spelling q c (rows.flatMap fun digits => '\\' :: 'u' :: digits)
  /-- Any number of zeros may lead the digits. -/
  | braced {c : Char} {digits : Text} (hne : digits ≠ []) (hd : digits.all Text.isHexDigit)
      (hv : Text.hexValue digits = c.toNat) : Spelling q c ('\\' :: 'u' :: '{' :: (digits ++ ['}']))
  | hex {c : Char} {digits : Text} (hl : digits.length = 2) (hd : digits.all Text.isHexDigit)
      (hv : Text.hexValue digits = c.toNat) : Spelling q c ('\\' :: 'x' :: digits)
  | control {c letter : Char} (h : (letter, c) ∈ controlLetters) : Spelling q c ['\\', letter]
  | itself {c : Char} (h : standsForItself c = true) : Spelling q c ['\\', c]

/-- Line continuations. -/
inductive IsContinuation : Text → Prop
  | one {c : Char} (hc : isLineEnd c = true) : IsContinuation ['\\', c]
  | two : IsContinuation ['\\', '\r', '\n']

/-- A piece of a literal and the character that it stands for; a line continuation stands for none. -/
structure Spelled where
  char? : Option Char
  text : Text
  deriving Repr

namespace Spelled

/-- The pieces that may be written between the quotes `q`. -/
inductive Valid (q : Char) : Spelled → Prop
  | char {c : Char} {w : Text} (h : Spelling q c w) : Valid q ⟨some c, w⟩
  | continuation {w : Text} (h : IsContinuation w) : Valid q ⟨none, w⟩

/-- Pieces whose escape sequence reads on when a separator follows. -/
def readsOn (p : Spelled) : Bool := p.text == ['\\', '?'] || p.text == ['\\', '\r']

/-- A line or paragraph separator as it is. -/
def isSeparator (p : Spelled) : Bool := p.text == ['\u2028'] || p.text == ['\u2029']

end Spelled

/-- The body that pieces write. -/
def spelledText (ps : List Spelled) : Text := ps.flatMap Spelled.text

/-- The text that pieces stand for. -/
def spelledValue (ps : List Spelled) : Text := ps.filterMap Spelled.char?

/-- What is left of this text: a separator behind a piece that reads on is lost. -/
def heard : List Spelled → Text
  | [] => []
  | [p] => p.char?.toList
  | p :: p' :: ps =>
    if p.readsOn && p'.isSeparator then p.char?.toList ++ heard ps
    else p.char?.toList ++ heard (p' :: ps)

/-! ## The code units of a piece -/

theorem encodeChar_of_lt {c : Char} (h : c.toNat < 0x10000) : Units.encodeChar c = [c.toNat] :=
  if_pos h

theorem charUnits_toNat (c : Char) : charUnits c.toNat = Units.encodeChar c := by
  have hv : c.toNat.isValidChar := c.valid
  rw [charUnits, if_pos hv, Char.ofNat_toNat]

theorem escapeUnits_braced {digits : Text} (hd : digits.all Text.isHexDigit) :
    escapeUnits ('u' :: '{' :: (digits ++ ['}'])) = charUnits (Text.hexValue digits) := by
  rw [escapeUnits, (Escape.takeWhile_digits hd []).1]

theorem escapeUnits_itself {c : Char} (h : standsForItself c = true) (rest : Text) :
    escapeUnits (c :: rest) = Units.encodeChar c := by
  simp only [standsForItself, isLineEnd, controlLetters, List.all_cons, List.all_nil, Bool.and_eq_true,
    Bool.not_eq_true', Bool.or_eq_false_iff, bne_iff_ne, beq_eq_false_iff_ne, Bool.and_true] at h
  obtain ⟨⟨⟨⟨hx, hu⟩, hdigit⟩, hcr, hbreak⟩, hn, ht, hr, hb, hf, hv⟩ := h
  have hoctal : ¬ ('0' ≤ c ∧ c ≤ '7') := by
    intro ho
    have hnine : c ≤ '9' := Char.le_trans ho.2 (by decide)
    rw [Text.isAsciiDigit, decide_eq_true ho.1, decide_eq_true hnine] at hdigit
    cases hdigit
  unfold escapeUnits
  split <;> simp_all

theorem escaped_itself {c : Char} (h : standsForItself c = true) {r : Text}
    (hr : c = '?' → ∀ d ∈ r.head?, isLineBreak d = false) : Escaped [c] r := by
  simp only [standsForItself, isLineEnd, Bool.and_eq_true, Bool.not_eq_true', Bool.or_eq_false_iff,
    bne_iff_ne, beq_eq_false_iff_ne] at h
  obtain ⟨⟨⟨⟨hx, hu⟩, hdigit⟩, hcr, -⟩, -⟩ := h
  refine .single hu hx ?_ fun hc => hr (hc.resolve_left hcr)
  rw [← Bool.not_eq_true]
  intro ho
  simp only [isOctalDigit, Bool.and_eq_true, decide_eq_true_eq] at ho
  have hnine : c ≤ '9' := Char.le_trans ho.2 (by decide)
  rw [Text.isAsciiDigit, decide_eq_true ho.1, decide_eq_true hnine] at hdigit
  cases hdigit

/-- Most escape sequences of one character end with it, whatever follows. -/
theorem escaped_single {c : Char} (h : c ≠ 'u' ∧ c ≠ 'x' ∧ isOctalDigit c = false ∧ c ≠ '\r' ∧ c ≠ '?')
    (r : Text) : Escaped [c] r := by
  obtain ⟨hu, hx, ho, hcr, hq⟩ := h
  exact .single hu hx ho fun hc => absurd hc (by simp [hcr, hq])

theorem escaped_control {letter c : Char} (h : (letter, c) ∈ controlLetters) (r : Text) :
    Escaped [letter] r ∧ escapeUnits [letter] = Units.encodeChar c := by
  simp only [controlLetters, List.mem_cons, Prod.mk.injEq, List.not_mem_nil, or_false] at h
  rcases h with ⟨rfl, rfl⟩ | ⟨rfl, rfl⟩ | ⟨rfl, rfl⟩ | ⟨rfl, rfl⟩ | ⟨rfl, rfl⟩ | ⟨rfl, rfl⟩ <;>
    exact ⟨escaped_single (by decide) r, by decide⟩

/-- A character behind a backslash is a letter for another one, or stands for itself. -/
theorem Spelling.of_two {q c d : Char} (h : Spelling q c ['\\', d]) :
    (d, c) ∈ controlLetters ∨ d = c ∧ standsForItself c = true := by
  generalize hw : ['\\', d] = w at h
  have hlen := congrArg List.length hw
  cases h with
  | raw hc => simp at hlen
  | @units rows hd hv =>
    cases rows with
    | nil => cases hw
    | cons digits rows =>
      have hl := (hd digits (List.mem_cons_self ..)).1
      simp only [List.flatMap_cons, List.length_append, List.length_cons, List.length_nil] at hlen
      omega
  | braced hne hd hv => simp at hlen
  | hex hl hd hv =>
    simp only [List.length_cons, List.length_nil] at hlen
    omega
  | control hc =>
    simp only [List.cons.injEq, true_and, and_true] at hw
    exact .inl (hw ▸ hc)
  | itself hc =>
    simp only [List.cons.injEq, true_and, and_true] at hw
    exact .inr ⟨hw, hc⟩

section

variable {q : Char} {t rest : Text} {us : List Units.CodeUnit}

theorem body_of_spelling {c : Char} {w : Text} (hw : Spelling q c w)
    (hn : w = ['\\', '?'] → ∀ d ∈ t.head?, isLineBreak d = false) (h : Body q t us rest) :
    Body q (w ++ t) (Units.encodeChar c ++ us) rest := by
  cases hw with
  | raw hc => exact .char hc h
  | @units rows hd hv =>
    have hrun : Escape.RunWellFormed (rows.map Escape.plain) := by
      intro e he
      obtain ⟨digits, hdigits, rfl⟩ := List.mem_map.1 he
      exact hd digits hdigits
    have hunits : (rows.map Escape.plain).flatMap unicodeUnits = Units.encodeChar c := by
      rw [← hv, List.flatMap_map, List.map_eq_flatMap]
      refine List.flatMap_congr fun digits hdigits => ?_
      exact unicodeUnits_of_units? (e := .plain digits) (hd digits hdigits) rfl
    have htext : Escape.runText (rows.map Escape.plain) =
        rows.flatMap fun digits => '\\' :: 'u' :: digits := by
      rw [Escape.runText, List.flatMap_map]
      rfl
    rw [← htext, ← hunits]
    exact h.append_run hrun
  | @braced digits hne hd hv =>
    have hescape := Body.escape (.braced hne hd t) h
    rw [escapeUnits_braced hd, hv, charUnits_toNat] at hescape
    exact hescape
  | @hex digits hl hd hv =>
    have hlt := hexValue_lt_pow digits
    rw [hl, hv] at hlt
    have hescape := Body.escape (.hex hl hd t) h
    rw [escapeUnits, hv] at hescape
    rw [encodeChar_of_lt (Nat.lt_trans hlt (by decide))]
    exact hescape
  | @control letter hc =>
    obtain ⟨hescaped, hunits⟩ := escaped_control hc t
    rw [← hunits]
    exact .escape hescaped h
  | itself hc =>
    rw [← escapeUnits_itself hc []]
    refine .escape (escaped_itself hc ?_) h
    rintro rfl
    exact hn rfl

theorem body_of_continuation {w : Text} (hw : IsContinuation w)
    (hn : w = ['\\', '\r'] → ∀ d ∈ t.head?, isLineBreak d = false) (h : Body q t us rest) :
    Body q (w ++ t) us rest := by
  cases hw with
  | @one c hc =>
    have hunits : escapeUnits [c] = [] := by
      simp only [isLineEnd, isLineBreak, Bool.or_eq_true, beq_iff_eq] at hc
      rcases hc with rfl | (rfl | rfl) | rfl <;> decide
    have hescaped : Escaped [c] t := by
      simp only [isLineEnd, isLineBreak, Bool.or_eq_true, beq_iff_eq] at hc
      rcases hc with rfl | (rfl | rfl) | rfl
      · exact .single (by decide) (by decide) (by decide) fun _ => hn rfl
      · exact escaped_single (by decide) t
      · exact escaped_single (by decide) t
      · exact escaped_single (by decide) t
    have hescape := Body.escape hescaped h
    rwa [hunits] at hescape
  | two => exact Body.escape (.lineBreak (.inl rfl) (by decide) t) h

/-- A piece spells the character that it stands for, if its escape sequence ends with it. -/
theorem body_of_valid {p : Spelled} (hp : p.Valid q)
    (hn : p.readsOn = true → ∀ d ∈ t.head?, isLineBreak d = false) (h : Body q t us rest) :
    Body q (p.text ++ t) (Units.encode p.char?.toList ++ us) rest := by
  cases hp with
  | @char c w hw =>
    rw [Option.toList_some, Units.encode, List.flatMap_singleton]
    refine body_of_spelling hw ?_ h
    rintro rfl
    exact hn rfl
  | continuation hw =>
    refine body_of_continuation hw ?_ h
    rintro rfl
    exact hn rfl

/-- A piece that reads on spells the same when it takes the separator that follows. -/
theorem body_of_readsOn {p p' : Spelled} (hp : p.Valid q) (hon : p.readsOn = true)
    (hs : p'.isSeparator = true) (h : Body q t us rest) :
    Body q (p.text ++ (p'.text ++ t)) (Units.encode p.char?.toList ++ us) rest := by
  obtain ⟨l, hl, hbreak⟩ : ∃ l, p'.text = [l] ∧ isLineBreak l = true := by
    simp only [Spelled.isSeparator, Bool.or_eq_true, beq_iff_eq] at hs
    rcases hs with hs | hs
    · exact ⟨_, hs, by decide⟩
    · exact ⟨_, hs, by decide⟩
  simp only [Spelled.readsOn, Bool.or_eq_true, beq_iff_eq] at hon
  rw [hl]
  cases hp with
  | @char c w hw =>
    rcases hon with rfl | rfl
    · rcases hw.of_two with hc | ⟨rfl, -⟩
      · simp [controlLetters] at hc
      · exact Body.escape (w := ['?', l]) (.lineBreak (.inr rfl) hbreak t) h
    · rcases hw.of_two with hc | ⟨rfl, hc⟩
      · simp [controlLetters] at hc
      · cases hc
  | continuation hw =>
    rcases hon with rfl | rfl
    · obtain ⟨hc⟩ := hw
      cases hc
    · exact Body.escape (w := ['\r', l]) (.lineBreak (.inl rfl) hbreak t) h

end

/-! ## The value of a literal -/

/-- A piece starts with a backslash or is a character as it is. -/
theorem Spelled.Valid.starts {q : Char} {p : Spelled} (hp : p.Valid q) :
    (∃ w, p.text = '\\' :: w) ∨
      ∃ c, p.char? = some c ∧ p.text = [c] ∧ isFragmentChar q c = true := by
  cases hp with
  | @char c w hw =>
    cases hw with
    | raw hc => exact .inr ⟨c, rfl, rfl, hc⟩
    | @units rows hd hv =>
      cases rows with
      | nil =>
        unfold Units.encodeChar at hv
        split at hv <;> cases hv
      | cons digits rows => exact .inl ⟨_, rfl⟩
    | braced | hex | control | itself => exact .inl ⟨_, rfl⟩
  | continuation hw => cases hw <;> exact .inl ⟨_, rfl⟩

theorem Spelled.Valid.char?_of_isSeparator {q : Char} {p : Spelled} (hp : p.Valid q)
    (hs : p.isSeparator = true) : ∃ c, p.char? = some c := by
  rcases hp.starts with ⟨w, hw⟩ | ⟨c, hc, -⟩
  · rw [isSeparator, hw] at hs
    simp at hs
  · exact ⟨c, hc⟩

/-- Only a separator brings a line break to the start of a piece. -/
theorem not_isLineBreak_of_valid {q : Char} {p : Spelled} (hp : p.Valid q)
    (hs : p.isSeparator = false) (t : Text) : ∀ d ∈ (p.text ++ t).head?, isLineBreak d = false := by
  intro d hd
  rcases hp.starts with ⟨w, hw⟩ | ⟨c, -, hc, hfragment⟩
  · rw [hw] at hd
    obtain rfl : '\\' = d := by simpa using hd
    decide
  · rw [hc] at hd
    obtain rfl : c = d := by simpa using hd
    rw [Spelled.isSeparator, hc] at hs
    simp_all [isLineBreak, isFragmentChar]

theorem spelledText_cons (p : Spelled) (ps : List Spelled) :
    spelledText (p :: ps) = p.text ++ spelledText ps := List.flatMap_cons

theorem spelledValue_cons (p : Spelled) (ps : List Spelled) :
    spelledValue (p :: ps) = p.char?.toList ++ spelledValue ps := by
  rw [spelledValue, List.filterMap_cons, spelledValue]
  cases p.char? <;> rfl

theorem body_quote {q : Char} (hq : IsQuote q) : Body q [q] [] [q] := by
  refine .stop ?_ ?_
  · intro c hc
    obtain rfl : q = c := by simpa using hc
    simp [isFragmentChar]
  · rcases hq with rfl | rfl <;> rfl

/-- The code units that a row of pieces spells. -/
theorem body_heard {q : Char} (hq : IsQuote q) {ps : List Spelled} (hps : ∀ p ∈ ps, p.Valid q) :
    Body q (spelledText ps ++ [q]) (Units.encode (heard ps)) [q] := by
  fun_induction heard ps with
  | case1 => exact body_quote hq
  | case2 p =>
    have hquote : isLineBreak q = false := by rcases hq with rfl | rfl <;> decide
    have hbody := body_of_valid (hps p (List.mem_singleton_self p)) (fun _ d hd => ?_) (body_quote hq)
    · simpa [spelledText] using hbody
    · obtain rfl : q = d := by simpa using hd
      exact hquote
  | case3 p p' ps hlost ih =>
    obtain ⟨hon, hs⟩ := Bool.and_eq_true_iff.1 hlost
    obtain ⟨hp, hps'⟩ := List.forall_mem_cons.1 hps
    obtain ⟨hp', hrest⟩ := List.forall_mem_cons.1 hps'
    rw [spelledText_cons, spelledText_cons, List.append_assoc, List.append_assoc, Units.encode_append]
    exact body_of_readsOn hp hon hs (ih hrest)
  | case4 p p' ps hkept ih =>
    obtain ⟨hp, hps'⟩ := List.forall_mem_cons.1 hps
    rw [spelledText_cons, List.append_assoc, Units.encode_append]
    refine body_of_valid hp ?_ (ih hps')
    intro hon
    have hs : p'.isSeparator = false := by simpa [hon] using hkept
    rw [spelledText_cons, List.append_assoc]
    exact not_isLineBreak_of_valid (hps' p' (List.mem_cons_self ..)) hs _

/-- The value of a literal that is written in pieces, in all cases. -/
theorem isLiteral_heard {q : Char} (hq : IsQuote q) {ps : List Spelled}
    (hps : ∀ p ∈ ps, p.Valid q) : IsLiteral (q :: (spelledText ps ++ [q])) (heard ps) := by
  have hliteral := isLiteral_of_body hq (g := []) (body_heard hq hps) .nil
  rwa [Units.decodeLossy_encode] at hliteral

theorem IsLiteral.unique {text value value' : Text} (h : IsLiteral text value)
    (h' : IsLiteral text value') : value = value' := by
  obtain ⟨literal, hrun, rfl⟩ := h (fun _ _ => none) [] []
  obtain ⟨literal', hrun', rfl⟩ := h' (fun _ _ => none) [] []
  rw [hrun, Option.some.injEq, Progress.mk.injEq] at hrun'
  rw [(List.cons.inj hrun'.1).1]

/-- A separator that stands behind a piece that reads on. -/
def LosesSeparator (p p' : Spelled) : Prop := p.readsOn = true ∧ p'.isSeparator = true

theorem length_heard_le (ps : List Spelled) : (heard ps).length ≤ (spelledValue ps).length := by
  fun_induction heard ps with
  | case1 => exact Nat.le_refl _
  | case2 p =>
    rw [spelledValue_cons]
    simp [spelledValue]
  | case3 p p' ps _ ih =>
    rw [spelledValue_cons, spelledValue_cons]
    simp only [List.length_append]
    omega
  | case4 p p' ps _ ih =>
    rw [spelledValue_cons]
    simp only [List.length_append]
    omega

/-- Nothing is lost exactly when no separator stands where it is read with an escape sequence. -/
theorem heard_eq_iff {q : Char} {ps : List Spelled} (hps : ∀ p ∈ ps, p.Valid q) :
    heard ps = spelledValue ps ↔ ps.IsChain fun p p' => ¬ LosesSeparator p p' := by
  fun_induction heard ps with
  | case1 => simp [spelledValue]
  | case2 p =>
    rw [spelledValue_cons]
    simp [spelledValue]
  | case3 p p' ps hlost ih =>
    obtain ⟨hon, hs⟩ := Bool.and_eq_true_iff.1 hlost
    obtain ⟨c, hc⟩ := (hps p' (by simp)).char?_of_isSeparator hs
    have hle := length_heard_le ps
    constructor
    · intro heq
      rw [spelledValue_cons, spelledValue_cons, hc] at heq
      have := congrArg List.length (List.append_cancel_left heq)
      simp only [Option.toList_some, List.length_append, List.length_singleton] at this
      omega
    · intro hchain
      exact absurd ⟨hon, hs⟩ (List.isChain_cons_cons.1 hchain).1
  | case4 p p' ps hkept ih =>
    have hfirst : ¬ LosesSeparator p p' := fun h => hkept (by rw [h.1, h.2]; rfl)
    rw [spelledValue_cons, List.append_cancel_left_eq, ih fun r hr => hps r (List.mem_cons_of_mem p hr),
      List.isChain_cons_cons]
    exact (and_iff_right hfirst).symm

/-- The value of a literal is the text that was written, whichever spelling was chosen for each of its
characters and wherever line continuations stand, exactly when no separator stands as it is directly
behind a backslash with `?` or a line continuation by a lone carriage return. -/
theorem spelled_literal_has_value_iff {q : Char} (hq : IsQuote q) {ps : List Spelled}
    (hps : ∀ p ∈ ps, p.Valid q) :
    IsLiteral (q :: (spelledText ps ++ [q])) (spelledValue ps) ↔
      ps.IsChain fun p p' => ¬ LosesSeparator p p' := by
  rw [← heard_eq_iff hps]
  constructor
  · intro h
    exact (isLiteral_heard hq hps).unique h
  · intro h
    rw [← h]
    exact isLiteral_heard hq hps

/-- Every kind of spelling once: `你\u597D\uD83D\uDE00\u{00041}\x41\n\'?`, with a line continuation
before the last character. -/
def mixedPieces : List Spelled :=
  [⟨some '你', ['你']⟩, ⟨some '好', "\\u597D".toList⟩, ⟨some '😀', "\\uD83D\\uDE00".toList⟩,
    ⟨some 'A', "\\u\x7b00041\x7d".toList⟩, ⟨some 'A', "\\x41".toList⟩, ⟨some '\n', "\\n".toList⟩,
    ⟨some '\'', "\\'".toList⟩, ⟨none, "\\\r\n".toList⟩, ⟨some '?', ['?']⟩]

theorem mixedPieces_valid : ∀ p ∈ mixedPieces, p.Valid '\'' := by
  have hraw : ∀ {c : Char}, isFragmentChar '\'' c = true → Spelled.Valid '\'' ⟨some c, [c]⟩ :=
    fun hc => .char (.raw hc)
  simp only [mixedPieces, List.forall_mem_cons]
  refine ⟨hraw (by decide), ?_, ?_, ?_, ?_, ?_, ?_, ?_, hraw (by decide), by simp⟩
  · exact .char (@Spelling.units _ _ ["597D".toList] (by decide) (by decide))
  · exact .char (@Spelling.units _ _ ["D83D".toList, "DE00".toList] (by decide) (by decide))
  · exact .char (@Spelling.braced _ _ "00041".toList (by decide) (by decide) (by decide))
  · exact .char (@Spelling.hex _ _ "41".toList (by decide) (by decide) (by decide))
  · exact .char (.control (by decide))
  · exact .char (.itself (by decide))
  · exact .continuation .two

theorem mixed_literal_has_value :
    IsLiteral ('\'' :: (spelledText mixedPieces ++ ['\''])) "你好😀AA\n'?".toList := by
  refine (spelled_literal_has_value_iff (.inr rfl) mixedPieces_valid).2 ?_
  simp [mixedPieces, LosesSeparator, Spelled.readsOn, Spelled.isSeparator]

/-- In `'你\?好'` with a line separator behind the question mark, the separator is not in the value. -/
theorem separator_behind_question_mark_is_lost :
    ¬ ∀ (q : Char) (ps : List Spelled), IsQuote q → (∀ p ∈ ps, p.Valid q) →
      IsLiteral (q :: (spelledText ps ++ [q])) (spelledValue ps) := by
  intro h
  have hvalid : ∀ p ∈ [⟨some '你', ['你']⟩, ⟨some '?', ['\\', '?']⟩, ⟨some '\u2028', ['\u2028']⟩,
      ⟨some '好', ['好']⟩], Spelled.Valid '\'' p := by
    simp only [List.forall_mem_cons]
    exact ⟨.char (.raw (by decide)), .char (.itself (by decide)), .char (.raw (by decide)),
      .char (.raw (by decide)), by simp⟩
  have hvalue := (isLiteral_heard (.inr rfl) hvalid).unique (h '\'' _ (.inr rfl) hvalid)
  exact absurd hvalue (by decide)

end Phrasebook.Script
