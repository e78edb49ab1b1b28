import Phrasebook.Script.Grammar.Basic
import Phrasebook.Script.Literal
import Phrasebook.Proofs.Escapes

/-!
Code units and escape sequences.

* Encoding undoes decoding where every surrogate has its partner (`Units.encode_of_decode?`), so code
  units that spell a text are the code units of that text.
* What the grammar reads as an escape sequence comes in six forms, of which two look at the character
  behind them (`Escaped`, `escaped_of_escapeSequence`, `escapeSequence_of_escaped`).
-/

namespace Phrasebook

/-! ## Code units -/

namespace Units

theorem encode_append (s t : Text) : encode (s ++ t) = encode s ++ encode t := List.flatMap_append

theorem encode_cons (c : Char) (t : Text) : encode (c :: t) = encodeChar c ++ encode t :=
  List.flatMap_cons

theorem encodeChar_ofNat {u : Nat} (h : u < 0xD800 ∨ (0xDFFF < u ∧ u < 0x10000)) :
    encodeChar (Char.ofNat u) = [u] := by
  have hv : u.isValidChar := by
    unfold Nat.isValidChar
    omega
  have hn : (Char.ofNat u).toNat = u := by
    rw [Char.ofNat, dif_pos hv]
    rfl
  rw [encodeChar, hn, if_pos (by omega)]

theorem encodeChar_pair {u v : Nat} (hu : isHigh u = true) (hv : isLow v = true) :
    encodeChar (pair u v) = [u, v] := by
  simp only [isHigh, isLow, Bool.and_eq_true, decide_eq_true_eq] at hu hv
  have hvalid : (0x10000 + (u - 0xD800) * 0x400 + (v - 0xDC00)).isValidChar := by
    unfold Nat.isValidChar
    omega
  have hn : (pair u v).toNat = 0x10000 + (u - 0xD800) * 0x400 + (v - 0xDC00) := by
    rw [pair, Char.ofNat, dif_pos hvalid]
    rfl
  have hu' : 0xD800 + (0x10000 + (u - 0xD800) * 0x400 + (v - 0xDC00) - 0x10000) / 0x400 = u := by
    omega
  have hv' : 0xDC00 + (0x10000 + (u - 0xD800) * 0x400 + (v - 0xDC00) - 0x10000) % 0x400 = v := by
    omega
  rw [encodeChar, hn, if_neg (by omega), hu', hv']

/-- Encoding undoes decoding, where every surrogate has its partner. -/
theorem encode_of_decode {us : List CodeUnit} (hus : ∀ u : Nat, u ∈ us → u < 0x10000) {t : Text}
    (h : decode us = t.map some) : encode t = us := by
  induction us using decode.induct generalizing t with
  | case1 =>
    rw [decode] at h
    obtain rfl := List.map_eq_nil_iff.1 h.symm
    rfl
  | case2 u =>
    rw [decode] at h
    have hu := hus u (List.mem_cons_self ..)
    obtain ⟨c, t, rfl⟩ : ∃ c t', t = c :: t' := by
      cases t with
      | nil => cases h
      | cons c t => exact ⟨c, t, rfl⟩
    rw [List.map_cons, List.cons.injEq] at h
    obtain ⟨hc, ht⟩ := h
    obtain rfl := List.map_eq_nil_iff.1 ht.symm
    split at hc
    · cases hc
    · next hs =>
      cases hc
      rw [encode, List.flatMap_singleton]
      refine encodeChar_ofNat ?_
      simp only [isHigh, isLow, Bool.or_eq_true, Bool.and_eq_true, decide_eq_true_eq] at hs
      omega
  | case3 u v rest hh hl ih =>
    rw [decode, if_pos hh, if_pos hl] at h
    cases t with
    | nil => cases h
    | cons c t =>
      rw [List.map_cons, List.cons.injEq] at h
      obtain ⟨hc, ht⟩ := h
      obtain rfl := Option.some.inj hc
      have hrest := ih (fun w hw => hus w (List.mem_cons_of_mem u (List.mem_cons_of_mem v hw))) ht
      rw [encode_cons, encodeChar_pair hh hl, hrest]
      rfl
  | case4 u v rest hh hl _ =>
    rw [decode, if_pos hh, if_neg hl] at h
    cases t with
    | nil => cases h
    | cons c t => cases (List.cons.inj h).1
  | case5 u v rest hh ih =>
    rw [decode, if_neg hh] at h
    have hu := hus u (List.mem_cons_self ..)
    cases t with
    | nil => cases h
    | cons c t =>
      rw [List.map_cons, List.cons.injEq] at h
      obtain ⟨hc, ht⟩ := h
      split at hc
      · cases hc
      · next hl =>
        cases hc
        have hrest := ih (fun w hw => hus w (List.mem_cons_of_mem u hw)) ht
        have hchar : encodeChar (Char.ofNat u) = [u] := by
          refine encodeChar_ofNat ?_
          simp only [isHigh, isLow, Bool.and_eq_true, decide_eq_true_eq] at hh hl
          omega
        rw [encode_cons, hchar, hrest]
        rfl

theorem encode_of_decode? {us : List CodeUnit} (hus : ∀ u : Nat, u ∈ us → u < 0x10000) {t : Text}
    (h : decode? us = some t) : encode t = us := by
  have hall : ∀ (cs : List (Option Char)) (t : Text), cs.mapM id = some t → cs = t.map some := by
    intro cs
    induction cs with
    | nil =>
      intro t ht
      cases ht
      rfl
    | cons c cs ih =>
      intro t ht
      rw [List.mapM_cons] at ht
      obtain ⟨d, hd, ht⟩ := Option.bind_eq_some_iff.1 ht
      obtain ⟨t', ht', he⟩ := Option.bind_eq_some_iff.1 ht
      cases he
      rw [ih t' ht', List.map_cons]
      exact congrArg (· :: t'.map some) hd
  exact encode_of_decode hus (hall _ t h)

end Units

namespace Script

open Grammar

/-! ## Escape sequences -/

/-- The characters of a fragment in a literal with the quotes `q`. -/
def isFragmentChar (q c : Char) : Bool := c != q && c != '\\' && c != '\r' && c != '\n'

theorem isFragmentChar_backslash (q : Char) : isFragmentChar q '\\' = false := by
  simp [isFragmentChar]

/-- Octal digits. -/
def isOctalDigit (c : Char) : Bool := '0' ≤ c && c ≤ '7'

/-- An escape sequence, given by what follows its backslash and by the text after it. -/
inductive Escaped : Text → Text → Prop
  | unicode {digits : Text} (hl : digits.length = 4) (hd : digits.all Text.isHexDigit) (r : Text) :
      Escaped ('u' :: digits) r
  | braced {digits : Text} (hne : digits ≠ []) (hd : digits.all Text.isHexDigit) (r : Text) :
      Escaped ('u' :: '{' :: (digits ++ ['}'])) r
  | hex {digits : Text} (hl : digits.length = 2) (hd : digits.all Text.isHexDigit) (r : Text) :
      Escaped ('x' :: digits) r
  | octal {digits r : Text} (hne : digits ≠ []) (hl : digits.length ≤ 3)
      (hd : digits.all isOctalDigit)
      (hr : digits.length = 3 ∨ ∀ d ∈ r.head?, isOctalDigit d = false) : Escaped digits r
  /-- A line break of two characters. -/
  | lineBreak {c l : Char} (hc : c = '\r' ∨ c = '?') (hl : isLineBreak l = true) (r : Text) :
      Escaped [c, l] r
  | single {c : Char} {r : Text} (hu : c ≠ 'u') (hx : c ≠ 'x') (ho : isOctalDigit c = false)
      (hr : c = '\r' ∨ c = '?' → ∀ d ∈ r.head?, isLineBreak d = false) : Escaped [c] r

theorem Escaped.ne_nil {w r : Text} (h : Escaped w r) : w ≠ [] := by
  cases h with
  | octal hne => exact hne
  | unicode | braced | hex | lineBreak | single => exact List.cons_ne_nil _ _

/-- What follows an escape sequence matters by its first character only, and only if that is an octal
digit or a line break. -/
theorem Escaped.congr {w r r' : Text} (h : Escaped w r)
    (hr : ∀ d ∈ r'.head?, d ∈ r.head? ∨ (isOctalDigit d = false ∧ isLineBreak d = false)) :
    Escaped w r' := by
  cases h with
  | unicode hl hd => exact .unicode hl hd r'
  | braced hne hd => exact .braced hne hd r'
  | hex hl hd => exact .hex hl hd r'
  | octal hne hl hd hlook =>
    refine .octal hne hl hd (hlook.imp_right fun h d hd => ?_)
    rcases hr d hd with hd | hd
    · exact h d hd
    · exact hd.1
  | lineBreak hc hl => exact .lineBreak hc hl r'
  | single hu hx ho hlook =>
    refine .single hu hx ho fun hc d hd => ?_
    rcases hr d hd with hd | hd
    · exact hlook hc d hd
    · exact hd.2

theorem drop_runLength (p : Char → Bool) (t : Text) : t.drop (runLength p t) = t.dropWhile p := by
  have h : (t.takeWhile p ++ t.dropWhile p).drop (t.takeWhile p).length = t.dropWhile p :=
    List.drop_left
  rwa [List.takeWhile_append_dropWhile] at h

theorem runLength_take_eq {p : Char → Bool} {n : Nat} {t : Text}
    (h : runLength p (t.take n) = n) : (t.take n).length = n ∧ (t.take n).all p := by
  have hle : (t.take n).length ≤ n := List.length_take_le n t
  have hpre := List.takeWhile_prefix (l := t.take n) p
  have hlen := hpre.length_le
  unfold runLength at h
  have heq : (t.take n).takeWhile p = t.take n := hpre.eq_of_length_le (by omega)
  refine ⟨by omega, ?_⟩
  rw [← heq]
  exact List.all_takeWhile

theorem startsWith_singleton_iff {t : Text} {c : Char} :
    Text.startsWith t [c] = true ↔ ∃ r, t = c :: r := by
  rw [Text.startsWith, Option.isSome_iff_exists]
  simp [Text.dropLeading?_eq_some_iff]

/-- What is read as a unicode escape of a name or a literal. -/
theorem escaped_of_unicodeEscapeLength? {t : Text} {n : Nat}
    (h : unicodeEscapeLength? ('\\' :: 'u' :: t) = some n) :
    ∃ w r, 'u' :: t = w ++ r ∧ n = w.length + 1 ∧ Escaped w r := by
  unfold unicodeEscapeLength? at h
  split at h
  · next t' heq =>
    cases heq
    dsimp only at h
    split at h
    · next hcond =>
      cases h
      rw [Bool.and_eq_true, decide_eq_true_eq, startsWith_singleton_iff] at hcond
      obtain ⟨hne, r, hr⟩ := hcond
      have hsplit : t' = t'.takeWhile Text.isHexDigit ++ '}' :: r := by
        rw [← hr, drop_runLength, List.takeWhile_append_dropWhile]
      refine ⟨'u' :: '{' :: (t'.takeWhile Text.isHexDigit ++ ['}']), r, ?_, ?_, ?_⟩
      · simpa using hsplit
      · simp [runLength]
      · refine .braced ?_ List.all_takeWhile r
        intro hnil
        rw [runLength, hnil] at hne
        exact hne rfl
    · cases h
  · next t' _ heq =>
    cases heq
    split at h
    · next h4 =>
      cases h
      have hle : runLength Text.isHexDigit (t.take 4) ≤ 4 := by
        have := (List.takeWhile_prefix (l := t.take 4) Text.isHexDigit).length_le
        have := List.length_take_le 4 t
        unfold runLength
        omega
      obtain ⟨hl, hd⟩ := runLength_take_eq (Nat.le_antisymm hle h4)
      refine ⟨'u' :: t.take 4, t.drop 4, ?_, ?_, .unicode hl hd _⟩
      · rw [List.cons_append, List.take_append_drop]
      · rw [List.length_cons, hl]
    · cases h
  · cases h

/-- At most three octal digits at the start of a text, as many as there are. -/
theorem escaped_of_octal {c : Char} (hc : isOctalDigit c = true) (t : Text) :
    ∃ w r, c :: t = w ++ r ∧ 1 + runLength isOctalDigit ((c :: t).take 3) = w.length + 1 ∧
      Escaped w r := by
  have hsplit := List.takeWhile_append_dropWhile (p := isOctalDigit) (l := (c :: t).take 3)
  have hle := List.length_take_le 3 (c :: t)
  have hlen := congrArg List.length hsplit
  rw [List.length_append] at hlen
  refine ⟨((c :: t).take 3).takeWhile isOctalDigit,
    ((c :: t).take 3).dropWhile isOctalDigit ++ (c :: t).drop 3, ?_, Nat.add_comm _ _, ?_⟩
  · rw [← List.append_assoc, hsplit, List.take_append_drop]
  · refine .octal ?_ (by omega) List.all_takeWhile ?_
    · rw [List.take_succ_cons, List.takeWhile_cons_of_pos hc]
      exact List.cons_ne_nil _ _
    · -- either three digits, or the text ends, or a character that is no digit follows
      cases hdrop : ((c :: t).take 3).dropWhile isOctalDigit with
      | nil =>
        rw [hdrop, List.length_nil, Nat.add_zero] at hlen
        rw [hlen, List.nil_append]
        by_cases h3 : 3 ≤ (c :: t).length
        · exact .inl (by rw [List.length_take]; omega)
        · right
          rw [List.drop_eq_nil_of_le (by omega)]
          intro d hd
          cases hd
      | cons d ds =>
        right
        intro e he
        obtain rfl : d = e := by simpa using he
        have := List.head?_dropWhile_not isOctalDigit ((c :: t).take 3)
        rw [hdrop] at this
        simpa using this

/-- What is read as an escape sequence. -/
theorem escaped_of_escapeSequence {t : Text} {n : Nat} (h : escapeSequence t = some n) :
    ∃ w r, t = '\\' :: (w ++ r) ∧ n = w.length + 1 ∧ Escaped w r := by
  unfold escapeSequence at h
  split at h
  · next c t =>
    split at h
    · next hu =>
      obtain rfl : c = 'u' := by simpa using hu
      obtain ⟨w, r, hwr, hn, hw⟩ := escaped_of_unicodeEscapeLength? h
      exact ⟨w, r, by rw [hwr], hn, hw⟩
    · next hu =>
      split at h
      · next hx =>
        obtain rfl : c = 'x' := by simpa using hx
        split at h
        · next h2 =>
          cases h
          obtain ⟨hl, hd⟩ := runLength_take_eq h2
          refine ⟨'x' :: t.take 2, t.drop 2, ?_, ?_, .hex hl hd _⟩
          · rw [List.cons_append, List.take_append_drop]
          · rw [List.length_cons, hl]
        · cases h
      · next hx =>
        split at h
        · next ho =>
          cases h
          obtain ⟨w, r, hwr, hn, hw⟩ := escaped_of_octal ho t
          exact ⟨w, r, by rw [hwr], hn, hw⟩
        · next ho =>
          have ho' : isOctalDigit c = false := by
            rw [isOctalDigit]
            simpa using ho
          split at h
          · next hb =>
            cases h
            cases t with
            | nil => simp at hb
            | cons l t =>
              have hcl : (c = '\r' ∨ c = '?') ∧ isLineBreak l = true := by simpa using hb
              exact ⟨[c, l], t, rfl, rfl, .lineBreak hcl.1 hcl.2 t⟩
          · next hb =>
            cases h
            refine ⟨[c], t, rfl, rfl, .single (by simpa using hu) (by simpa using hx) ho' ?_⟩
            intro hc d hd
            cases t with
            | nil => cases hd
            | cons e t =>
              obtain rfl : e = d := by simpa using hd
              rw [← Bool.not_eq_true]
              intro hl
              exact hb (by simpa [hl] using hc)
  · cases h

theorem runLength_of_all {p : Char → Bool} {t : Text} (h : t.all p) : runLength p t = t.length := by
  have hall : ∀ c ∈ t, p c = true := by simpa using h
  have hself : (t ++ []).takeWhile p = t ++ [].takeWhile p := List.takeWhile_append_of_pos hall
  rw [List.append_nil, List.takeWhile_nil, List.append_nil] at hself
  rw [runLength, hself]

theorem unicodeEscapeLength?_of_unicode {digits : Text} (hl : digits.length = 4)
    (hd : digits.all Text.isHexDigit) (r : Text) :
    unicodeEscapeLength? ('\\' :: 'u' :: (digits ++ r)) = some 6 := by
  have htake : (digits ++ r).take 4 = digits := by rw [← hl, List.take_left]
  obtain ⟨a, ds, rfl⟩ : ∃ a ds, digits = a :: ds := by
    cases digits with
    | nil => cases hl
    | cons a ds => exact ⟨a, ds, rfl⟩
  have ha : a ≠ '{' := by
    rintro rfl
    simp [Escape.not_isHexDigit_brace] at hd
  unfold unicodeEscapeLength?
  split
  · next heq =>
    simp only [List.cons_append, List.cons.injEq, true_and] at heq
    exact absurd heq.1 ha
  · next heq =>
    simp only [List.cons.injEq, true_and] at heq
    subst heq
    rw [htake, runLength_of_all hd, hl, if_pos (Nat.le_refl 4)]
  · next h => exact absurd rfl (h _)

theorem unicodeEscapeLength?_of_braced {digits : Text} (hne : digits ≠ [])
    (hd : digits.all Text.isHexDigit) (r : Text) :
    unicodeEscapeLength? ('\\' :: 'u' :: '{' :: (digits ++ '}' :: r)) = some (digits.length + 4) := by
  obtain ⟨ht, -⟩ := Escape.takeWhile_digits hd r
  have hn : runLength Text.isHexDigit (digits ++ '}' :: r) = digits.length := by
    rw [runLength, ht]
  have hpos : digits.length ≠ 0 := by simpa using hne
  have hclose : Text.startsWith ('}' :: r) ['}'] = true := startsWith_singleton_iff.2 ⟨r, rfl⟩
  simp only [unicodeEscapeLength?, hn, List.drop_left, hclose]
  simp [hne]

/-- Such escape sequences are read again. -/
theorem escapeSequence_of_escaped {w r : Text} (h : Escaped w r) :
    escapeSequence ('\\' :: (w ++ r)) = some (w.length + 1) := by
  cases h with
  | unicode hl hd =>
    rw [List.cons_append, escapeSequence, if_pos (by decide), unicodeEscapeLength?_of_unicode hl hd r,
      List.length_cons, hl]
  | braced hne hd =>
    rw [List.cons_append, escapeSequence, if_pos (by decide), List.cons_append, List.append_assoc,
      List.singleton_append, unicodeEscapeLength?_of_braced hne hd r]
    simp
  | @hex digits hl hd =>
    have htake : (digits ++ r).take 2 = digits := by rw [← hl, List.take_left]
    rw [List.cons_append, escapeSequence, if_neg (by decide), if_pos (by decide), htake,
      runLength_of_all hd, if_pos hl, List.length_cons, hl]
  | @octal digits _ hne hl hd hr =>
    obtain ⟨c, ds, rfl⟩ := List.exists_cons_of_ne_nil hne
    have hall : ∀ d ∈ c :: ds, isOctalDigit d = true := by simpa using hd
    have hc : isOctalDigit c = true := hall c (List.mem_cons_self ..)
    have hrun : runLength isOctalDigit (((c :: ds) ++ r).take 3) = (c :: ds).length := by
      have hnone : (r.take (3 - (c :: ds).length)).takeWhile isOctalDigit = [] := by
        rcases hr with h3 | hr
        · simp [h3]
        · cases r with
          | nil => simp
          | cons d r =>
            cases 3 - (c :: ds).length with
            | zero => rfl
            | succ k => rw [List.take_succ_cons, List.takeWhile_cons_of_neg (by simp [hr d rfl])]
      rw [List.take_append, List.take_of_length_le hl, runLength, List.takeWhile_append_of_pos hall,
        hnone, List.append_nil]
    have hu : (c == 'u') = false := by
      rw [beq_eq_false_iff_ne]
      rintro rfl
      cases hc
    have hx : (c == 'x') = false := by
      rw [beq_eq_false_iff_ne]
      rintro rfl
      cases hc
    have ho : ('0' ≤ c && c ≤ '7') = true := hc
    rw [List.cons_append, escapeSequence, hu, hx, ho]
    simp only [Bool.false_eq_true, if_false, if_true, Option.some.injEq]
    rw [← List.cons_append, Nat.add_comm 1]
    exact congrArg (· + 1) hrun
  | @lineBreak c l hc hl =>
    rcases hc with rfl | rfl <;> simp [escapeSequence, hl]
  | @single c _ hu hx ho hr =>
    have ho' : ('0' ≤ c && c ≤ '7') = false := ho
    have hcond : ((c == '\r' || c == '?') && !(r.take 1).isEmpty && (r.take 1).all isLineBreak) =
        false := by
      rw [← Bool.not_eq_true]
      intro h
      simp only [Bool.and_eq_true, Bool.or_eq_true, beq_iff_eq] at h
      obtain ⟨⟨hc, hne⟩, hl⟩ := h
      cases r with
      | nil => cases hne
      | cons d r =>
        have := hr hc d rfl
        simp [this] at hl
    rw [List.singleton_append, escapeSequence, if_neg (by simpa using hu), if_neg (by simpa using hx),
      ho', hcond]
    rfl

end Script

end Phrasebook
