import Phrasebook.Proofs.EscapeSequences

/-!
The body of a string literal: what stands between its quotes, and the code units that it spells.

The grammar reads a body as longest fragments and escape sequences. Here it is read one character or one
escape sequence at a time (`Body`), which leaves nothing to choose (`Body.unique`); what follows a body
matters by its first character only (`Body.replace_rest`).

Main statement: restoring unicode escapes keeps the code units that a body spells (`Body.normalized`).
The two readings of unicode escapes agree on runs that are restored (`encode_of_decodeRun?`), and a run
that stays is read as before.
-/

namespace Phrasebook.Script

/-! ## Bodies -/

/-- A text that starts with a body of a literal in quotes `q`, the code units that the body spells, and
what follows it. -/
inductive Body (q : Char) : Text → List Units.CodeUnit → Text → Prop
  | stop {t : Text} (hf : ∀ c ∈ t.head?, isFragmentChar q c = false) (he : escapeSequence t = none) :
      Body q t [] t
  | char {c : Char} {t rest : Text} {us : List Units.CodeUnit} (hc : isFragmentChar q c = true)
      (h : Body q t us rest) : Body q (c :: t) (Units.encodeChar c ++ us) rest
  | escape {w t rest : Text} {us : List Units.CodeUnit} (hw : Escaped w t) (h : Body q t us rest) :
      Body q ('\\' :: (w ++ t)) (escapeUnits w ++ us) rest

namespace Body

variable {q : Char} {t rest : Text} {us : List Units.CodeUnit}

/-- An escape sequence cannot be read in two ways. -/
theorem escaped_unique {w w' t t' : Text} (hw : Escaped w t) (hw' : Escaped w' t')
    (h : w ++ t = w' ++ t') : w = w' ∧ t = t' := by
  have h1 := escapeSequence_of_escaped hw
  have h2 := escapeSequence_of_escaped hw'
  rw [h, h2, Option.some.injEq] at h1
  exact List.append_inj h (by omega)

/-- What stands at the start of a text and can only be an escape sequence. -/
theorem of_escaped {w : Text} (hw : Escaped w t) (h : Body q ('\\' :: (w ++ t)) us rest) :
    ∃ us', us = escapeUnits w ++ us' ∧ Body q t us' rest := by
  generalize hx : '\\' :: (w ++ t) = x at h
  cases h with
  | stop hf he =>
    rw [← hx, escapeSequence_of_escaped hw] at he
    cases he
  | char hc h =>
    obtain ⟨rfl, -⟩ := List.cons.inj hx
    rw [isFragmentChar_backslash] at hc
    cases hc
  | escape hw' h =>
    obtain ⟨rfl, rfl⟩ := escaped_unique hw hw' (List.cons.inj hx).2
    exact ⟨_, rfl, h⟩

/-- What stands at the start of a text and can only be a part of a fragment. -/
theorem of_char {c : Char} (hc : isFragmentChar q c = true) (h : Body q (c :: t) us rest) :
    ∃ us', us = Units.encodeChar c ++ us' ∧ Body q t us' rest := by
  generalize hx : c :: t = x at h
  cases h with
  | stop hf he =>
    subst hx
    rw [hf c rfl] at hc
    cases hc
  | char hc' h =>
    obtain ⟨rfl, rfl⟩ := List.cons.inj hx
    exact ⟨_, rfl, h⟩
  | escape hw h =>
    obtain ⟨rfl, -⟩ := List.cons.inj hx
    rw [isFragmentChar_backslash] at hc
    cases hc

/-- A body can be read in one way only. -/
theorem unique {us' : List Units.CodeUnit} {rest' : Text} (h : Body q t us rest)
    (h' : Body q t us' rest') : us = us' ∧ rest = rest' := by
  induction h generalizing us' with
  | stop hf he =>
    generalize hx : t = x at h'
    cases h' with
    | stop =>
      subst hx
      exact ⟨rfl, rfl⟩
    | char hc h =>
      subst hx
      rw [hf _ rfl] at hc
      cases hc
    | escape hw h =>
      subst hx
      rw [escapeSequence_of_escaped hw] at he
      cases he
  | char hc _ ih =>
    obtain ⟨us'', rfl, h''⟩ := of_char hc h'
    obtain ⟨rfl, rfl⟩ := ih h''
    exact ⟨rfl, rfl⟩
  | escape hw _ ih =>
    obtain ⟨us'', rfl, h''⟩ := of_escaped hw h'
    obtain ⟨rfl, rfl⟩ := ih h''
    exact ⟨rfl, rfl⟩

/-- Characters of fragments spell themselves. -/
theorem append {w : Text} (hw : ∀ c ∈ w, isFragmentChar q c = true) (h : Body q t us rest) :
    Body q (w ++ t) (Units.encode w ++ us) rest := by
  induction w with
  | nil => exact h
  | cons c w ih =>
    have hrow := ih fun d hd => hw d (List.mem_cons_of_mem c hd)
    rw [Units.encode_cons, List.append_assoc]
    exact .char (hw c (List.mem_cons_self ..)) hrow

theorem of_append {w : Text} (hw : ∀ c ∈ w, isFragmentChar q c = true)
    (h : Body q (w ++ t) us rest) : ∃ us', us = Units.encode w ++ us' ∧ Body q t us' rest := by
  induction w generalizing us with
  | nil => exact ⟨us, rfl, h⟩
  | cons c w ih =>
    obtain ⟨us', rfl, h'⟩ := of_char (hw c (List.mem_cons_self ..)) h
    obtain ⟨us'', rfl, h''⟩ := ih (fun d hd => hw d (List.mem_cons_of_mem c hd)) h'
    exact ⟨us'', by rw [Units.encode_cons, List.append_assoc], h''⟩

/-- What follows a body matters by its first character only. -/
theorem replace_rest (h : Body q t us rest) (hb : rest.head? ≠ some '\\') {rest' : Text}
    (hhead : rest'.head? = rest.head?) : ∃ x, t = x ++ rest ∧ Body q (x ++ rest') us rest' := by
  induction h with
  | stop hf he =>
    refine ⟨[], rfl, .stop (by rw [List.nil_append, hhead]; exact hf) ?_⟩
    cases hr : escapeSequence rest' with
    | none => rw [List.nil_append, hr]
    | some n =>
      obtain ⟨w, r, rfl, -, -⟩ := escaped_of_escapeSequence hr
      exact absurd hhead.symm hb
  | @char c t rest us hc _ ih =>
    obtain ⟨x, rfl, h'⟩ := ih hb hhead
    exact ⟨c :: x, rfl, .char hc h'⟩
  | @escape w t rest us hw _ ih =>
    obtain ⟨x, rfl, h'⟩ := ih hb hhead
    refine ⟨'\\' :: (w ++ x), by rw [List.cons_append, List.append_assoc], ?_⟩
    rw [List.cons_append, List.append_assoc]
    refine .escape (hw.congr fun d hd => .inl ?_) h'
    -- the first character after the escape is in the body or the first one after it
    cases x with
    | nil => rwa [List.nil_append, ← hhead]
    | cons c x => exact hd

end Body

/-! ## Runs of unicode escapes in a body -/

/-- The code units that a unicode escape spells in a literal. -/
def unicodeUnits (e : Escape) : List Units.CodeUnit := escapeUnits (e.text.drop 1)

/-- A unicode escape is an escape sequence, whatever follows it. -/
theorem exists_escaped {e : Escape} (h : e.WellFormed) (r : Text) :
    ∃ w, e.text = '\\' :: w ∧ Escaped w r := by
  cases e with
  | plain digits => exact ⟨'u' :: digits, rfl, .unicode h.1 h.2 r⟩
  | braced digits =>
    refine ⟨'u' :: '{' :: (digits ++ ['}']), rfl, .braced ?_ h.2.2 r⟩
    rintro rfl
    exact absurd h.1 (by decide)

theorem unicodeUnits_eq {e : Escape} {w : Text} (h : e.text = '\\' :: w) :
    unicodeUnits e = escapeUnits w := by
  rw [unicodeUnits, h, List.drop_one, List.tail_cons]

/-- The two readings of an escape agree on those that name a character or a code unit. -/
theorem unicodeUnits_of_units? {e : Escape} (hw : e.WellFormed) {us : List Units.CodeUnit}
    (h : e.units? = some us) : unicodeUnits e = us := by
  cases e with
  | plain digits =>
    cases h
    have hd : ∃ a ds, digits = a :: ds ∧ a ≠ '{' := by
      obtain ⟨hl, hd⟩ := hw
      cases digits with
      | nil => cases hl
      | cons a ds =>
        refine ⟨a, ds, rfl, ?_⟩
        rintro rfl
        simp [Escape.not_isHexDigit_brace] at hd
    obtain ⟨a, ds, rfl, ha⟩ := hd
    rw [unicodeUnits_eq (w := 'u' :: a :: ds) rfl]
    exact escapeUnits.eq_3 _ fun rest hrest => ha (List.cons.inj hrest).1
  | braced digits =>
    simp only [Escape.units?] at h
    have hdigits := (Escape.takeWhile_digits hw.2.2 []).1
    split at h
    · next hv =>
      cases h
      rw [unicodeUnits_eq (w := 'u' :: '{' :: (digits ++ ['}'])) rfl]
      simp only [escapeUnits, hdigits, charUnits, if_pos hv]
    · cases h

theorem hexDigit?_lt {c : Char} {n : Nat} (h : Text.hexDigit? c = some n) : n < 16 := by
  have hle : ∀ d : Char, c ≤ d → c.toNat ≤ d.toNat := fun d hd => hd
  unfold Text.hexDigit? at h
  split at h
  · next hc =>
    cases h
    have : c.toNat ≤ 57 := hle '9' hc.2
    omega
  · split at h
    · next hc =>
      cases h
      have : c.toNat ≤ 102 := hle 'f' hc.2
      omega
    · split at h
      · next hc =>
        cases h
        have : c.toNat ≤ 70 := hle 'F' hc.2
        omega
      · cases h

/-- A row of digits writes a number below the power of its base. -/
theorem foldl_digits_lt {base : Nat} {f : Char → Nat} {digits : Text}
    (hf : ∀ c ∈ digits, f c < base) (n : Nat) :
    digits.foldl (fun m c => base * m + f c) n < (n + 1) * Nat.pow base digits.length := by
  induction digits generalizing n with
  | nil => simp
  | cons c digits ih =>
    obtain ⟨hc, hdigits⟩ := List.forall_mem_cons.1 hf
    have hstep : base * n + f c + 1 ≤ (n + 1) * base := by
      rw [Nat.add_mul, Nat.one_mul, Nat.mul_comm]
      omega
    calc List.foldl (fun m c => base * m + f c) n (c :: digits)
        < (base * n + f c + 1) * Nat.pow base digits.length := ih hdigits _
      _ ≤ (n + 1) * base * Nat.pow base digits.length := Nat.mul_le_mul_right _ hstep
      _ = (n + 1) * (Nat.pow base digits.length * base) := by
        rw [Nat.mul_assoc, Nat.mul_comm base]

theorem hexValue_lt_pow (digits : Text) : Text.hexValue digits < Nat.pow 16 digits.length := by
  have hdigit : ∀ c ∈ digits, (Text.hexDigit? c).getD 0 < 16 := by
    intro c _
    cases h : Text.hexDigit? c with
    | none => decide
    | some k => exact hexDigit?_lt h
  have hlt := foldl_digits_lt hdigit 0
  rwa [Nat.zero_add, Nat.one_mul] at hlt

theorem encodeChar_lt {c : Char} {u : Nat} (h : u ∈ Units.encodeChar c) : u < 0x10000 := by
  have hc := Units.toNat_cases c
  unfold Units.encodeChar at h
  split at h
  · rw [List.mem_singleton.1 h]
    assumption
  · simp only [List.mem_cons, List.not_mem_nil, or_false] at h
    omega

theorem units?_lt {e : Escape} (hw : e.WellFormed) {us : List Units.CodeUnit}
    (h : e.units? = some us) {u : Nat} (hu : u ∈ us) : u < 0x10000 := by
  cases e with
  | plain digits =>
    cases h
    rw [List.mem_singleton.1 hu]
    have hlt := hexValue_lt_pow digits
    rw [hw.1] at hlt
    exact hlt
  | braced digits =>
    simp only [Escape.units?] at h
    split at h
    · cases h
      exact encodeChar_lt hu
    · cases h

/-- A run that spells characters spells the code units of these characters. -/
theorem encode_of_decodeRun? {run : List Escape} (hw : Escape.RunWellFormed run) {t : Text}
    (h : Escape.decodeRun? run = some t) : Units.encode t = run.flatMap unicodeUnits := by
  obtain ⟨uss, huss, ht⟩ := Option.bind_eq_some_iff.1 h
  have hall : uss.flatten = run.flatMap unicodeUnits ∧ ∀ u : Nat, u ∈ uss.flatten → u < 0x10000 := by
    clear h ht
    induction run generalizing uss with
    | nil =>
      cases huss
      exact ⟨rfl, fun u hu => absurd hu List.not_mem_nil⟩
    | cons e run ih =>
      rw [List.mapM_cons] at huss
      obtain ⟨us, hus, huss⟩ := Option.bind_eq_some_iff.1 huss
      obtain ⟨uss', huss', he⟩ := Option.bind_eq_some_iff.1 huss
      cases he
      have hew := hw e (List.mem_cons_self ..)
      obtain ⟨hflat, hlt⟩ := ih (fun d hd => hw d (List.mem_cons_of_mem e hd)) uss' huss'
      refine ⟨?_, ?_⟩
      · rw [List.flatten_cons, List.flatMap_cons, hflat, unicodeUnits_of_units? hew hus]
      · intro u hu
        rw [List.flatten_cons, List.mem_append] at hu
        rcases hu with hu | hu
        · exact units?_lt hew hus hu
        · exact hlt u hu
  rw [← hall.1]
  exact Units.encode_of_decode? hall.2 ht

namespace Body

variable {q : Char} {t rest : Text} {us : List Units.CodeUnit}

/-- A run of unicode escapes spells its code units. -/
theorem append_run {run : List Escape} (hw : Escape.RunWellFormed run) (h : Body q t us rest) :
    Body q (Escape.runText run ++ t) (run.flatMap unicodeUnits ++ us) rest := by
  induction run with
  | nil => exact h
  | cons e run ih =>
    have hrow := ih fun d hd => hw d (List.mem_cons_of_mem e hd)
    obtain ⟨w, hew, hesc⟩ := exists_escaped (hw e (List.mem_cons_self ..)) (Escape.runText run ++ t)
    rw [Escape.runText, List.flatMap_cons, List.flatMap_cons, List.append_assoc, List.append_assoc,
      hew, unicodeUnits_eq hew]
    exact .escape hesc hrow

theorem of_append_run {run : List Escape} (hw : Escape.RunWellFormed run)
    (h : Body q (Escape.runText run ++ t) us rest) :
    ∃ us', us = run.flatMap unicodeUnits ++ us' ∧ Body q t us' rest := by
  induction run generalizing us with
  | nil => exact ⟨us, rfl, h⟩
  | cons e run ih =>
    obtain ⟨w, hew, hesc⟩ := exists_escaped (hw e (List.mem_cons_self ..)) (Escape.runText run ++ t)
    rw [Escape.runText, List.flatMap_cons, List.append_assoc, hew] at h
    obtain ⟨us', rfl, h'⟩ := of_escaped hesc h
    obtain ⟨us'', rfl, h''⟩ := ih (fun d hd => hw d (List.mem_cons_of_mem e hd)) h'
    exact ⟨us'', by rw [List.flatMap_cons, unicodeUnits_eq hew, List.append_assoc], h''⟩

end Body

/-! ## Restoring escapes keeps what a body spells -/

/-- The two quotes. -/
def IsQuote (q : Char) : Prop := q = '"' ∨ q = '\''

/-- Restoring a text keeps its first character, or puts a natural one there. -/
theorem head?_normalized (odd : Bool) (t : Text) :
    ∀ d ∈ (Escape.normalized odd t).head?, d ∈ t.head? ∨ isNaturalChar d = true := by
  induction odd, t using Escape.normalized_induction with
  | nil odd => exact fun d hd => absurd hd (by simp [Escape.normalized, Escape.normalizeFrom])
  | char odd c t hr _ =>
    rw [Escape.normalized_char hr]
    exact fun d hd => .inl hd
  | run odd run rest hw hne hn _ =>
    intro d hd
    obtain ⟨inner, hi⟩ := Escape.runText_eq_cons hw hne
    rw [Escape.normalized_run hw hne hn] at hd
    have hkept : d ∈ (Escape.runText run ++ Escape.normalized false rest).head? →
        d ∈ (Escape.runText run ++ rest).head? := by
      rw [hi]
      exact id
    cases odd with
    | true => exact .inl (hkept hd)
    | false =>
      rw [if_neg Bool.false_ne_true] at hd
      rcases Escape.restoreRun_cases run with he | ⟨hne', hall⟩
      · rw [he] at hd
        exact .inl (hkept hd)
      · right
        obtain ⟨c, cs, hc⟩ := List.exists_cons_of_ne_nil hne'
        rw [hc] at hd
        obtain rfl : c = d := by simpa using hd
        exact hall c (hc ▸ List.mem_cons_self ..)

theorem not_octal_of_natural {c : Char} (h : isNaturalChar c = true) :
    isOctalDigit c = false ∧ isLineBreak c = false := by
  have hle := Escape.le_toNat_of_isNaturalChar h
  refine ⟨?_, ?_⟩
  · rw [← Bool.not_eq_true]
    intro ho
    simp only [isOctalDigit, Bool.and_eq_true, decide_eq_true_eq] at ho
    have : c.toNat ≤ 55 := ho.2
    omega
  · rw [← Bool.not_eq_true]
    intro hl
    simp only [isLineBreak, Bool.or_eq_true, beq_iff_eq] at hl
    rcases hl with (rfl | rfl) | rfl <;> exact absurd hle (by decide)

theorem isFragmentChar_of_natural {q c : Char} (hq : IsQuote q) (h : isNaturalChar c = true) :
    isFragmentChar q c = true := by
  have hle := Escape.le_toNat_of_isNaturalChar h
  have hne : ∀ d : Char, d.toNat < 0x2E80 → c ≠ d := by
    rintro d hd rfl
    omega
  simp only [isFragmentChar, Bool.and_eq_true, bne_iff_ne]
  refine ⟨⟨⟨?_, hne _ (by decide)⟩, hne _ (by decide)⟩, hne _ (by decide)⟩
  rcases hq with rfl | rfl
  · exact hne _ (by decide)
  · exact hne _ (by decide)

theorem isFragmentChar_of_isInner {q c : Char} (hq : IsQuote q) (h : Escape.isInner c = true) :
    isFragmentChar q c = true := by
  have hne : ∀ d : Char, Escape.isInner d = false → c ≠ d := by
    rintro d hd rfl
    rw [h] at hd
    cases hd
  simp only [isFragmentChar, Bool.and_eq_true, bne_iff_ne]
  refine ⟨⟨⟨?_, hne _ (by decide)⟩, hne _ (by decide)⟩, hne _ (by decide)⟩
  rcases hq with rfl | rfl
  · exact hne _ (by decide)
  · exact hne _ (by decide)

theorem ne_backslash_of_isHexDigit {c : Char} (h : Text.isHexDigit c = true) : c ≠ '\\' := by
  rintro rfl
  exact absurd h (by decide)

/-- Only the first character of an escape sequence can be a backslash. -/
theorem Escaped.tail_ne_backslash {c : Char} {w r : Text} (h : Escaped (c :: w) r) :
    ∀ d ∈ w, d ≠ '\\' := by
  have hhex : ∀ {ds : Text}, ds.all Text.isHexDigit = true → ∀ d ∈ ds, d ≠ '\\' := by
    intro ds hds d hd
    exact ne_backslash_of_isHexDigit (List.all_eq_true.1 hds d hd)
  generalize hx : c :: w = x at h
  cases h with
  | unicode hl hd =>
    obtain ⟨-, rfl⟩ := List.cons.inj hx
    exact hhex hd
  | braced hne hd =>
    obtain ⟨-, rfl⟩ := List.cons.inj hx
    intro d hd'
    simp only [List.mem_cons, List.mem_append, List.not_mem_nil, or_false] at hd'
    rcases hd' with rfl | hd' | rfl
    · decide
    · exact hhex hd d hd'
    · decide
  | hex hl hd =>
    obtain ⟨-, rfl⟩ := List.cons.inj hx
    exact hhex hd
  | octal hne hl hd hr =>
    subst hx
    rintro d hd' rfl
    exact absurd (List.all_eq_true.1 hd '\\' (List.mem_cons_of_mem c hd')) (by decide)
  | lineBreak hc hl =>
    obtain ⟨-, rfl⟩ := List.cons.inj hx
    rintro d hd rfl
    obtain rfl := List.mem_singleton.1 hd
    cases hl
  | single hu hx' ho hr =>
    obtain ⟨-, rfl⟩ := List.cons.inj hx
    exact fun d hd => absurd hd List.not_mem_nil

theorem escaped_backslash (r : Text) : Escaped ['\\'] r :=
  .single (by decide) (by decide) (by decide) fun hc => by rcases hc with hc | hc <;> cases hc

/-- An escaped backslash is an escape sequence of its own. -/
theorem Escaped.eq_nil_of_backslash {w r : Text} (h : Escaped ('\\' :: w) r) : w = [] := by
  generalize hx : '\\' :: w = x at h
  cases h with
  | unicode | braced | hex => cases (List.cons.inj hx).1
  | octal hne hl hd hr =>
    subst hx
    exact absurd (List.all_eq_true.1 hd '\\' (List.mem_cons_self ..)) (by decide)
  | lineBreak hc hl =>
    rcases hc with rfl | rfl <;> cases (List.cons.inj hx).1
  | single hu hx' ho hr => exact (List.cons.inj hx).2

/-- A text that starts with an escape starts with a longest run of them. -/
theorem exists_run {t : Text} (h : Escape.read? t ≠ none) :
    ∃ e run r, Escape.RunWellFormed (e :: run) ∧ t = Escape.runText (e :: run) ++ r ∧
      Escape.read? r = none := by
  obtain ⟨hw, ht, hn⟩ := Escape.readRun_spec (Nat.le_refl t.length)
  cases hrun : (Escape.readRun t.length t).1 with
  | nil =>
    have ht' : t = (Escape.readRun t.length t).2 := by
      rw [hrun] at ht
      exact ht
    rw [← ht'] at hn
    exact absurd hn h
  | cons e run =>
    rw [hrun] at hw ht
    exact ⟨e, run, _, hw, ht, hn⟩

/-- Restoring unicode escapes keeps the code units that a body spells. -/
theorem Body.normalized {q : Char} (hq : IsQuote q) {t rest : Text} {us : List Units.CodeUnit}
    (h : Body q t us rest) (hb : rest.head? ≠ some '\\') :
    Body q (Escape.normalized false t) us (Escape.normalized false rest) := by
  -- on the length, since a run takes several escape sequences at once
  induction hn : t.length using Nat.strong_induction_on generalizing t us with
  | _ n ih =>
    subst hn
    cases h with
    | stop hf he =>
      cases rest with
      | nil => exact .stop hf he
      | cons c t =>
        have hc : c ≠ '\\' := by
          rintro rfl
          exact hb rfl
        rw [Escape.normalized_char (Escape.read?_cons_of_ne hc t)]
        refine .stop hf ?_
        cases hs : escapeSequence (c :: Escape.normalized (c == '\\' && !false) t) with
        | none => rfl
        | some k =>
          obtain ⟨w, r, hwr, -, -⟩ := escaped_of_escapeSequence hs
          exact absurd (List.cons.inj hwr).1 hc
    | @char c t _ us hc h =>
      have hne : c ≠ '\\' := by
        rintro rfl
        rw [isFragmentChar_backslash] at hc
        cases hc
      have hodd : (c == '\\' && !false) = false := by simp [hne]
      rw [Escape.normalized_char (Escape.read?_cons_of_ne hne t), hodd]
      exact .char hc (ih t.length (by simp) h rfl)
    | @escape w t _ us hw h =>
      obtain ⟨c, w, rfl⟩ := List.exists_cons_of_ne_nil hw.ne_nil
      by_cases hr : Escape.read? ('\\' :: (c :: w ++ t)) = none
      · -- an escape sequence that is not a unicode escape, or one of too many digits
        have htail := hw.tail_ne_backslash
        rw [Escape.normalized_char hr]
        by_cases hr' : Escape.read? (c :: w ++ t) = none
        · have hkeep : Escape.normalized true (c :: w ++ t) = c :: w ++ Escape.normalized false t := by
            rw [List.cons_append] at hr' ⊢
            rw [Escape.normalized_char hr', Bool.not_true, Bool.and_false,
              Escape.normalized_append_of_forall_ne htail]
            rfl
          rw [show ('\\' == '\\' && !false) = true from rfl, hkeep]
          refine .escape (hw.congr fun d hd => ?_) (ih t.length (by simp; omega) h rfl)
          exact (head?_normalized false t d hd).imp_right not_octal_of_natural
        · -- an escaped backslash before what looks like a run
          obtain rfl : c = '\\' := by
            by_contra hne
            exact hr' (Escape.read?_cons_of_ne hne _)
          obtain rfl := hw.eq_nil_of_backslash
          obtain ⟨e, run, r, hrw, ht, hnone⟩ := exists_run hr'
          obtain ⟨inner, hei, hinner⟩ := Escape.text_eq_cons (hrw e (List.mem_cons_self ..))
          have hrun : Escape.RunWellFormed run := fun d hd => hrw d (List.mem_cons_of_mem e hd)
          have ht' : t = inner ++ (Escape.runText run ++ r) := by
            rw [Escape.runText, List.flatMap_cons, hei] at ht
            simpa [Escape.runText] using ht
          have hfragment : ∀ d ∈ inner, isFragmentChar q d = true := fun d hd =>
            isFragmentChar_of_isInner hq (hinner d hd)
          have hkeep : Escape.normalized true ('\\' :: t) =
              '\\' :: (inner ++ (Escape.runText run ++ Escape.normalized false r)) := by
            have := Escape.normalized_run hrw (List.cons_ne_nil _ _) hnone true
            rw [show '\\' :: t = _ from ht, this, if_pos rfl, Escape.runText, List.flatMap_cons, hei]
            simp [Escape.runText]
          subst ht'
          obtain ⟨us', rfl, h'⟩ := of_append hfragment h
          obtain ⟨us'', rfl, h''⟩ := of_append_run hrun h'
          have hlen : r.length < ('\\' :: (['\\'] ++ (inner ++ (Escape.runText run ++ r)))).length := by
            simp only [List.length_cons, List.length_append]
            omega
          have hrest := ((ih r.length hlen h'' rfl).append_run hrun).append hfragment
          rw [show ('\\' == '\\' && !false) = true from rfl,
            show ['\\'] ++ (inner ++ (Escape.runText run ++ r)) =
              '\\' :: (inner ++ (Escape.runText run ++ r)) from rfl, hkeep]
          exact .escape (escaped_backslash _) hrest
      · -- a run of unicode escapes
        obtain ⟨e, run, r, hrw, ht, hnone⟩ := exists_run hr
        have hbody : Body q (Escape.runText (e :: run) ++ r) (escapeUnits (c :: w) ++ us) rest :=
          ht ▸ .escape hw h
        obtain ⟨us', hus, h'⟩ := of_append_run hrw hbody
        have hlen : r.length < ('\\' :: (c :: w ++ t)).length := by
          obtain ⟨inner, hi⟩ := Escape.runText_eq_cons hrw (List.cons_ne_nil _ _)
          rw [ht, hi, List.length_append, List.length_cons]
          omega
        have hrest := ih r.length hlen h' rfl
        rw [ht, Escape.normalized_run hrw (List.cons_ne_nil _ _) hnone, if_neg Bool.false_ne_true, hus]
        unfold Escape.restoreRun
        split
        · next s hs =>
          split
          · next hall =>
            rw [← encode_of_decodeRun? hrw hs]
            refine hrest.append fun d hd => isFragmentChar_of_natural hq ?_
            simp only [Text.allNaturalChars, Bool.and_eq_true, List.all_eq_true] at hall
            exact hall.2 d hd
          · exact hrest.append_run hrw
        · exact hrest.append_run hrw

end Phrasebook.Script
