import Phrasebook.Text.Escape
import Mathlib.Data.List.Chain

/-!
What escape restoration does to a text. The definition works with fuel; here it is taken apart into
two steps that need none:

* a character at which no escape starts is copied (`normalized_char`);
* a maximal run of escapes is restored as a whole or copied as a whole (`normalized_run`).

Every text falls apart into such steps (`normalized_induction`), and all statements below are proved
along them: restoring twice is restoring once (`normalized_normalized`), a character that cannot be
part of an escape separates what stands on its two sides (`normalized_barrier`), characters that
neither an escape nor a restored run holds keep their number (`countP_normalized`), only natural
characters are added (`count_normalized_le`), and a text without the two characters that start an escape
stays (`normalized_of_isChain`).
-/

namespace Phrasebook

namespace Escape

/-! ## Single escapes -/

/-- The digits of an escape are as many as its form asks for. -/
def WellFormed : Escape → Prop
  | .plain digits => digits.length = 4 ∧ digits.all Text.isHexDigit
  | .braced digits => 1 ≤ digits.length ∧ digits.length ≤ 6 ∧ digits.all Text.isHexDigit

/-- The characters that may follow the backslash in an escape. -/
def isInner (c : Char) : Bool := c == 'u' || c == '{' || c == '}' || Text.isHexDigit c

theorem not_isHexDigit_brace : Text.isHexDigit '}' = false ∧ Text.isHexDigit '{' = false := by
  decide

theorem takeWhile_digits {digits : Text} (h : digits.all Text.isHexDigit) (rest : Text) :
    (digits ++ '}' :: rest).takeWhile Text.isHexDigit = digits ∧
      (digits ++ '}' :: rest).dropWhile Text.isHexDigit = '}' :: rest := by
  have hd : ∀ c ∈ digits, Text.isHexDigit c := by simpa using h
  constructor
  · rw [List.takeWhile_append_of_pos hd]
    simp [not_isHexDigit_brace]
  · rw [List.dropWhile_append_of_pos hd]
    simp [not_isHexDigit_brace]

/-- A well-formed escape is read back, whatever follows it. -/
theorem read?_text_append {e : Escape} (h : e.WellFormed) (rest : Text) :
    read? (e.text ++ rest) = some (e, rest) := by
  cases e with
  | plain digits =>
    obtain ⟨hl, hd⟩ := h
    match digits, hl with
    | [a, b, c, d], _ =>
      have ha : a ≠ '{' := by
        rintro rfl
        simp [not_isHexDigit_brace] at hd
      simp only [text, List.cons_append, List.nil_append]
      unfold read?
      split
      · next heq => simp_all
      · next heq =>
        simp only [List.cons.injEq, true_and] at heq
        obtain ⟨rfl, rfl, rfl, rfl, rfl⟩ := heq
        rw [if_pos hd]
      · next hn => exact absurd rfl (hn a b c d rest)
  | braced digits =>
    obtain ⟨h1, h6, hd⟩ := h
    obtain ⟨ht, hr⟩ := takeWhile_digits hd rest
    simp only [text, List.cons_append, List.append_assoc, List.nil_append, read?, ht, hr]
    rw [if_pos ⟨h1, h6⟩]

/-- What is read as an escape is well-formed, and stands at the start of the text. -/
theorem of_read? {t rest : Text} {e : Escape} (h : read? t = some (e, rest)) :
    e.WellFormed ∧ t = e.text ++ rest := by
  unfold read? at h
  split at h
  · next t =>
    split at h
    · next after hr =>
      dsimp only at h
      split at h
      · next hl =>
        cases h
        refine ⟨⟨hl.1, hl.2, List.all_takeWhile⟩, ?_⟩
        have hsplit := List.takeWhile_append_dropWhile (p := Text.isHexDigit) (l := t)
        rw [hr] at hsplit
        simpa [text] using hsplit.symm
      · cases h
    · cases h
  · split at h
    · next hd =>
      cases h
      exact ⟨⟨rfl, hd⟩, rfl⟩
    · cases h
  · cases h

/-- An escape is a backslash and inner characters. -/
theorem text_eq_cons {e : Escape} (h : e.WellFormed) :
    ∃ inner, e.text = '\\' :: inner ∧ ∀ c ∈ inner, isInner c := by
  cases e with
  | plain digits =>
    have hd : ∀ c ∈ digits, Text.isHexDigit c := by simpa using h.2
    refine ⟨'u' :: digits, rfl, ?_⟩
    intro c hc
    rcases List.mem_cons.1 hc with rfl | hc
    · rfl
    · simp [isInner, hd c hc]
  | braced digits =>
    have hd : ∀ c ∈ digits, Text.isHexDigit c := by simpa using h.2.2
    refine ⟨'u' :: '{' :: digits ++ ['}'], rfl, ?_⟩
    intro c hc
    simp only [List.cons_append, List.mem_cons, List.mem_append, List.not_mem_nil, or_false] at hc
    rcases hc with rfl | rfl | hc | rfl
    · rfl
    · rfl
    · simp [isInner, hd c hc]
    · rfl

theorem read?_cons_of_ne {c : Char} (h : c ≠ '\\') (t : Text) : read? (c :: t) = none := by
  rw [Option.eq_none_iff_forall_ne_some]
  rintro ⟨e, rest⟩ hr
  obtain ⟨hw, ht⟩ := of_read? hr
  obtain ⟨inner, hi, -⟩ := text_eq_cons hw
  rw [hi] at ht
  exact h (List.cons.inj ht).1

/-! ## Runs of escapes -/

/-- The escapes of a run are well-formed. -/
def RunWellFormed (run : List Escape) : Prop := ∀ e ∈ run, e.WellFormed

theorem length_lt_of_read? {t rest : Text} {e : Escape} (h : read? t = some (e, rest)) :
    rest.length < t.length := by
  obtain ⟨hw, rfl⟩ := of_read? h
  obtain ⟨inner, hi, -⟩ := text_eq_cons hw
  simp only [hi, List.cons_append, List.length_cons, List.length_append]
  omega

/-- Reading a run takes as many escapes as there are, when the fuel suffices. -/
theorem readRun_spec {fuel : Nat} {t : Text} (h : t.length ≤ fuel) :
    RunWellFormed (readRun fuel t).1 ∧ t = runText (readRun fuel t).1 ++ (readRun fuel t).2 ∧
      read? (readRun fuel t).2 = none := by
  induction fuel generalizing t with
  | zero =>
    have ht : t = [] := List.length_eq_zero_iff.1 (Nat.le_zero.1 h)
    subst ht
    exact ⟨by simp [RunWellFormed, readRun], rfl, rfl⟩
  | succ fuel ih =>
    cases hr : read? t with
    | none =>
      have he : readRun (fuel + 1) t = ([], t) := by simp [readRun, hr]
      rw [he]
      exact ⟨by simp [RunWellFormed], rfl, hr⟩
    | some p =>
      obtain ⟨e, rest⟩ := p
      have hl := length_lt_of_read? hr
      obtain ⟨hw, ht, hn⟩ := ih (t := rest) (by omega)
      obtain ⟨hew, het⟩ := of_read? hr
      have he : readRun (fuel + 1) t = (e :: (readRun fuel rest).1, (readRun fuel rest).2) := by
        simp [readRun, hr]
      rw [he]
      refine ⟨?_, ?_, hn⟩
      · intro d hd
        rcases List.mem_cons.1 hd with rfl | hd
        · exact hew
        · exact hw d hd
      · show t = (e.text ++ runText (readRun fuel rest).1) ++ (readRun fuel rest).2
        rw [List.append_assoc, ← ht, het]

/-- A run is read back when no escape follows it. -/
theorem readRun_runText_append {run : List Escape} (hw : RunWellFormed run) {rest : Text}
    (hn : read? rest = none) {fuel : Nat} (hf : (runText run ++ rest).length ≤ fuel) :
    readRun fuel (runText run ++ rest) = (run, rest) := by
  induction run generalizing fuel with
  | nil =>
    cases fuel with
    | zero => rfl
    | succ fuel => simp [readRun, runText, hn]
  | cons e run ih =>
    have he : e.WellFormed := hw e (List.mem_cons_self ..)
    have hr : RunWellFormed run := fun d hd => hw d (List.mem_cons_of_mem e hd)
    have ht : runText (e :: run) ++ rest = e.text ++ (runText run ++ rest) := by
      simp [runText]
    obtain ⟨inner, hi, -⟩ := text_eq_cons he
    rw [ht] at hf ⊢
    cases fuel with
    | zero => simp [hi] at hf
    | succ fuel =>
      have hl : (runText run ++ rest).length ≤ fuel := by
        rw [hi] at hf
        simp only [List.cons_append, List.length_cons, List.length_append] at hf ⊢
        omega
      simp only [readRun, read?_text_append he, ih hr hl]

/-- A run that is not empty starts with a backslash. -/
theorem runText_eq_cons {run : List Escape} (hw : RunWellFormed run) (hne : run ≠ []) :
    ∃ inner, runText run = '\\' :: inner := by
  obtain ⟨e, es, rfl⟩ := List.exists_cons_of_ne_nil hne
  obtain ⟨inner, hi, -⟩ := text_eq_cons (hw e (List.mem_cons_self ..))
  exact ⟨inner ++ runText es, by simp [runText, hi]⟩

/-! ## The two steps -/

/-- Restores the runs of a text; `odd` says whether an odd number of backslashes stands before it. -/
def normalized (odd : Bool) (t : Text) : Text := normalizeFrom t.length odd t

/-- One step: a character is copied, or a whole run is restored or copied. -/
theorem normalizeFrom_cons (fuel : Nat) (odd : Bool) (c : Char) (t : Text) :
    normalizeFrom (fuel + 1) odd (c :: t) =
      if (readRun (fuel + 1) (c :: t)).1 = [] then
        c :: normalizeFrom fuel (c == '\\' && !odd) t
      else
        (if odd then runText (readRun (fuel + 1) (c :: t)).1
          else restoreRun (readRun (fuel + 1) (c :: t)).1) ++
          normalizeFrom fuel false (readRun (fuel + 1) (c :: t)).2 := by
  rw [normalizeFrom]
  generalize readRun (fuel + 1) (c :: t) = p
  obtain ⟨run, rest⟩ := p
  cases run <;> rfl

theorem readRun_eq_nil_of_read? {t : Text} (h : read? t = none) (fuel : Nat) :
    readRun fuel t = ([], t) := by
  cases fuel with
  | zero => rfl
  | succ fuel => simp [readRun, h]

/-- More fuel than characters reads no other run. -/
theorem readRun_congr {fuel more : Nat} {t : Text} (h : t.length ≤ fuel) (hm : t.length ≤ more) :
    readRun more t = readRun fuel t := by
  obtain ⟨hw, ht, hn⟩ := readRun_spec h
  rw [ht] at hm
  have hr := readRun_runText_append hw hn hm
  rw [← ht] at hr
  exact hr

/-- More fuel than characters changes nothing. -/
theorem normalizeFrom_congr {fuel more : Nat} {odd : Bool} {t : Text} (h : t.length ≤ fuel)
    (hm : t.length ≤ more) : normalizeFrom more odd t = normalizeFrom fuel odd t := by
  induction fuel generalizing more odd t with
  | zero =>
    have ht : t = [] := List.length_eq_zero_iff.1 (Nat.le_zero.1 h)
    subst ht
    cases more <;> rfl
  | succ fuel ih =>
    cases t with
    | nil => cases more <;> rfl
    | cons c t =>
      cases more with
      | zero => simp at hm
      | succ more =>
        rw [normalizeFrom_cons, normalizeFrom_cons, readRun_congr h hm]
        obtain ⟨hw, ht, -⟩ := readRun_spec h
        simp only [List.length_cons] at h hm
        split
        · rw [ih (by omega) (by omega)]
        · next hne =>
          -- the run takes at least its first backslash
          obtain ⟨inner, hi⟩ := runText_eq_cons hw hne
          have hl := congrArg List.length ht
          rw [hi] at hl
          simp only [List.cons_append, List.length_cons, List.length_append] at hl
          rw [ih (by omega) (by omega)]

/-- A character at which no escape starts is copied. -/
theorem normalized_char {c : Char} {t : Text} (h : read? (c :: t) = none) (odd : Bool) :
    normalized odd (c :: t) = c :: normalized (c == '\\' && !odd) t := by
  show normalizeFrom (t.length + 1) odd (c :: t) = _
  rw [normalizeFrom_cons, readRun_eq_nil_of_read? h, if_pos rfl]
  rfl

/-- A maximal run is copied after an odd number of backslashes, and restored otherwise. -/
theorem normalized_run {run : List Escape} (hw : RunWellFormed run) (hne : run ≠ []) {rest : Text}
    (hn : read? rest = none) (odd : Bool) :
    normalized odd (runText run ++ rest) =
      (if odd then runText run else restoreRun run) ++ normalized false rest := by
  obtain ⟨inner, hi⟩ := runText_eq_cons hw hne
  have hr := readRun_runText_append hw hn (Nat.le_refl _)
  rw [hi, List.cons_append] at hr ⊢
  show normalizeFrom ((inner ++ rest).length + 1) odd ('\\' :: (inner ++ rest)) = _
  rw [List.length_cons] at hr
  rw [normalizeFrom_cons, hr, if_neg hne, hi]
  congr 1
  exact normalizeFrom_congr (Nat.le_refl _) (by simp)

/-- A text is made of characters at which no escape starts and of maximal runs of escapes. -/
theorem normalized_induction {motive : Bool → Text → Prop} (nil : ∀ odd, motive odd [])
    (char : ∀ odd c t, read? (c :: t) = none → motive (c == '\\' && !odd) t → motive odd (c :: t))
    (run : ∀ odd run rest, RunWellFormed run → run ≠ [] → read? rest = none → motive false rest →
      motive odd (runText run ++ rest)) (odd : Bool) (t : Text) : motive odd t := by
  -- on the length, since a run takes several characters at once
  suffices h : ∀ n, ∀ odd t, t.length ≤ n → motive odd t from h t.length odd t (Nat.le_refl _)
  intro n
  induction n with
  | zero =>
    intro odd t h
    have ht : t = [] := List.length_eq_zero_iff.1 (Nat.le_zero.1 h)
    exact ht ▸ nil odd
  | succ n ih =>
    intro odd t h
    cases t with
    | nil => exact nil odd
    | cons c t =>
      cases hr : read? (c :: t) with
      | none => exact char odd c t hr (ih _ t (by simpa using h))
      | some p =>
        obtain ⟨run', rest, hw, ht, hn⟩ :
            ∃ run' rest, RunWellFormed run' ∧ c :: t = runText run' ++ rest ∧ read? rest = none :=
          ⟨_, _, readRun_spec (Nat.le_refl _)⟩
        have hne : run' ≠ [] := by
          rintro rfl
          rw [ht] at hr
          exact absurd (hn.symm.trans hr) (by simp)
        obtain ⟨inner, hi⟩ := runText_eq_cons hw hne
        have hl := congrArg List.length ht
        rw [hi] at hl
        simp only [List.cons_append, List.length_cons, List.length_append] at hl h
        rw [ht]
        exact run odd run' rest hw hne hn (ih false rest (by omega))

/-! ## Natural characters are never part of an escape -/

theorem le_toNat_of_isNaturalChar {c : Char} (h : isNaturalChar c) : 0x2E80 ≤ c.toNat := by
  simp only [isNaturalChar, isHan, hanRanges, inRanges, List.any_cons, List.any_nil, Bool.or_eq_true,
    Bool.and_eq_true, decide_eq_true_eq, Bool.or_false] at h
  omega

theorem toNat_lt_of_isHexDigit {c : Char} (h : Text.isHexDigit c) : c.toNat < 0x80 := by
  simp only [Text.isHexDigit, Text.hexDigit?] at h
  have hle : ∀ d : Char, c ≤ d → c.toNat ≤ d.toNat := fun d hd => hd
  split at h
  · next hc => exact Nat.lt_of_le_of_lt (hle _ hc.2) (by decide)
  · split at h
    · next hc => exact Nat.lt_of_le_of_lt (hle _ hc.2) (by decide)
    · split at h
      · next hc => exact Nat.lt_of_le_of_lt (hle _ hc.2) (by decide)
      · cases h

theorem toNat_lt_of_isInner {c : Char} (h : isInner c) : c.toNat < 0x80 := by
  simp only [isInner, Bool.or_eq_true, beq_iff_eq] at h
  rcases h with ((rfl | rfl) | rfl) | h
  · decide
  · decide
  · decide
  · exact toNat_lt_of_isHexDigit h

theorem ne_backslash_of_isNaturalChar {c : Char} (h : isNaturalChar c) : c ≠ '\\' := by
  rintro rfl
  exact absurd (le_toNat_of_isNaturalChar h) (by decide)

/-- A restored run is the run itself or made of natural characters only. -/
theorem restoreRun_cases (run : List Escape) :
    restoreRun run = runText run ∨
      restoreRun run ≠ [] ∧ ∀ c ∈ restoreRun run, isNaturalChar c := by
  unfold restoreRun
  split
  · next t _ =>
    split
    · next h =>
      right
      simpa [Text.allNaturalChars] using h
    · exact .inl rfl
  · exact .inl rfl

/-- What starts with a character that is neither a backslash nor natural was there before. -/
theorem of_normalized_eq_cons {odd : Bool} {s t : Text} {c : Char} (hb : c ≠ '\\')
    (hc : isNaturalChar c = false) (h : normalized odd s = c :: t) :
    ∃ s', s = c :: s' ∧ normalized false s' = t := by
  induction odd, s using normalized_induction with
  | nil odd => cases h
  | char odd d s hr _ =>
    rw [normalized_char hr] at h
    obtain ⟨rfl, ht⟩ := List.cons.inj h
    refine ⟨s, rfl, ?_⟩
    have hf : (d == '\\' && !odd) = false := by simp [hb]
    rwa [hf] at ht
  | run odd run rest hw hne hn _ =>
    exfalso
    obtain ⟨inner, hi⟩ := runText_eq_cons hw hne
    rw [normalized_run hw hne hn] at h
    have hrun : ∀ u, runText run ++ u ≠ c :: t := by
      intro u hu
      rw [hi] at hu
      exact hb (List.cons.inj hu).1.symm
    cases odd with
    | true => exact hrun _ h
    | false =>
      rcases restoreRun_cases run with he | ⟨hne', hall⟩
      · rw [if_neg Bool.false_ne_true, he] at h
        exact hrun _ h
      · obtain ⟨d, ds, hd⟩ := List.exists_cons_of_ne_nil hne'
        rw [if_neg Bool.false_ne_true, hd] at h
        obtain rfl := (List.cons.inj h).1
        rw [hall d (hd ▸ List.mem_cons_self ..)] at hc
        cases hc

/-- A row of inner characters in front was there before. -/
theorem of_normalized_eq_append {odd : Bool} {s t w : Text} (hw : ∀ c ∈ w, isInner c)
    (h : normalized odd s = w ++ t) : ∃ s', s = w ++ s' := by
  induction w generalizing odd s with
  | nil => exact ⟨s, rfl⟩
  | cons c w ih =>
    have hc := toNat_lt_of_isInner (hw c (List.mem_cons_self ..))
    have hb : c ≠ '\\' := by
      rintro rfl
      exact absurd (hw '\\' (List.mem_cons_self ..)) (by decide)
    have hn : isNaturalChar c = false := by
      rw [← Bool.not_eq_true]
      intro hn
      have := le_toNat_of_isNaturalChar hn
      omega
    obtain ⟨s', rfl, hs'⟩ := of_normalized_eq_cons hb hn h
    obtain ⟨s'', rfl⟩ := ih (fun d hd => hw d (List.mem_cons_of_mem c hd)) hs'
    exact ⟨s'', rfl⟩

/-- Restoring what follows a backslash makes no escape out of it. -/
theorem read?_backslash_normalized {t : Text} (h : read? ('\\' :: t) = none) (odd : Bool) :
    read? ('\\' :: normalized odd t) = none := by
  rw [Option.eq_none_iff_forall_ne_some]
  rintro ⟨e, rest⟩ hr
  obtain ⟨hw, ht⟩ := of_read? hr
  obtain ⟨inner, hi, hinner⟩ := text_eq_cons hw
  rw [hi, List.cons_append, List.cons.injEq] at ht
  obtain ⟨t', rfl⟩ := of_normalized_eq_append hinner ht.2
  have : read? ('\\' :: (inner ++ t')) = some (e, t') := by
    rw [← List.cons_append, ← hi, read?_text_append hw]
  rw [h] at this
  cases this

/-- Restoring makes no escape at the start of a text. -/
theorem read?_normalized {t : Text} (h : read? t = none) (odd : Bool) :
    read? (normalized odd t) = none := by
  cases t with
  | nil => rfl
  | cons c t =>
    rw [normalized_char h]
    by_cases hc : c = '\\'
    · subst hc
      exact read?_backslash_normalized h _
    · exact read?_cons_of_ne hc _

/-! ## Restoring twice -/

/-- Characters other than the backslash are copied. -/
theorem normalized_append_of_forall_ne {w : Text} (hw : ∀ c ∈ w, c ≠ '\\') (t : Text) :
    normalized false (w ++ t) = w ++ normalized false t := by
  induction w with
  | nil => rfl
  | cons c w ih =>
    have hc := hw c (List.mem_cons_self ..)
    have hf : (c == '\\' && !false) = false := by simp [hc]
    rw [List.cons_append, normalized_char (read?_cons_of_ne hc _), hf,
      ih fun d hd => hw d (List.mem_cons_of_mem c hd), List.cons_append]

/-- Restoring twice is restoring once. -/
theorem normalized_normalized (odd : Bool) (t : Text) :
    normalized odd (normalized odd t) = normalized odd t := by
  induction odd, t using normalized_induction with
  | nil odd => rfl
  | char odd c t hr ih =>
    have hr' : read? (c :: normalized (c == '\\' && !odd) t) = none := by
      have := read?_normalized hr odd
      rwa [normalized_char hr] at this
    rw [normalized_char hr, normalized_char hr', ih]
  | run odd run rest hw hne hn ih =>
    have hcopy : ∀ odd, (if odd then runText run else restoreRun run) = runText run →
        normalized odd (normalized odd (runText run ++ rest)) =
          normalized odd (runText run ++ rest) := by
      intro odd he
      rw [normalized_run hw hne hn, he, normalized_run hw hne (read?_normalized hn false), he, ih]
    cases odd with
    | true => exact hcopy true rfl
    | false =>
      rcases restoreRun_cases run with he | ⟨-, hall⟩
      · exact hcopy false he
      · rw [normalized_run hw hne hn, if_neg Bool.false_ne_true,
          normalized_append_of_forall_ne fun c hc => ne_backslash_of_isNaturalChar (hall c hc), ih]

/-! ## What restoring leaves alone -/

theorem isInner_or_eq_of_mem_runText {run : List Escape} (hw : RunWellFormed run) {c : Char}
    (h : c ∈ runText run) : c = '\\' ∨ isInner c = true := by
  obtain ⟨e, he, hc⟩ := List.mem_flatMap.1 h
  obtain ⟨inner, hi, hinner⟩ := text_eq_cons (hw e he)
  rw [hi] at hc
  rcases List.mem_cons.1 hc with rfl | hc
  · exact .inl rfl
  · exact .inr (hinner c hc)

/-- No escape reaches beyond a character that cannot be part of one. -/
theorem read?_append_barrier {s t : Text} {c : Char} (hb : c ≠ '\\') (hc : isInner c = false)
    (h : read? s = none) : read? (s ++ c :: t) = none := by
  rw [Option.eq_none_iff_forall_ne_some]
  rintro ⟨e, rest⟩ hr
  obtain ⟨hw, ht⟩ := of_read? hr
  obtain ⟨inner, hi, hinner⟩ := text_eq_cons hw
  have hmem : c ∉ e.text := by
    rw [hi]
    intro hm
    rcases List.mem_cons.1 hm with rfl | hm
    · exact hb rfl
    · rw [hinner c hm] at hc
      cases hc
  rcases List.append_eq_append_iff.1 ht with ⟨u, he, hu⟩ | ⟨u, hs, -⟩
  · cases u with
    | nil =>
      rw [List.append_nil] at he
      have := read?_text_append hw []
      rw [List.append_nil, he, h] at this
      cases this
    | cons d u =>
      obtain rfl := (List.cons.inj hu).1
      exact hmem (he ▸ List.mem_append_right s (List.mem_cons_self ..))
  · have := read?_text_append hw u
    rw [← hs, h] at this
    cases this

/-- A character that cannot be part of an escape separates what stands on its two sides. -/
theorem normalized_barrier {c : Char} (hb : c ≠ '\\') (hc : isInner c = false) (odd : Bool)
    (s t : Text) : normalized odd (s ++ c :: t) = normalized odd s ++ c :: normalized false t := by
  have hf : ∀ odd, (c == '\\' && !odd) = false := by simp [hb]
  induction odd, s using normalized_induction with
  | nil odd =>
    rw [List.nil_append, normalized_char (read?_cons_of_ne hb t), hf]
    rfl
  | char odd d s hr ih =>
    have hr' : read? (d :: (s ++ c :: t)) = none := read?_append_barrier hb hc hr
    rw [List.cons_append, normalized_char hr', normalized_char hr, ih, List.cons_append]
  | run odd run rest hw hne hn ih =>
    rw [List.append_assoc, normalized_run hw hne (read?_append_barrier hb hc hn),
      normalized_run hw hne hn, ih, List.append_assoc]

/-- Characters that neither an escape nor a restored run holds keep their number. -/
theorem countP_normalized {p : Char → Bool} (hb : p '\\' = false)
    (hi : ∀ c, isInner c = true → p c = false) (hn : ∀ c, isNaturalChar c = true → p c = false)
    (odd : Bool) (t : Text) : (normalized odd t).countP p = t.countP p := by
  induction odd, t using normalized_induction with
  | nil odd => rfl
  | char odd c t hr ih => rw [normalized_char hr, List.countP_cons, List.countP_cons, ih]
  | run odd run rest hw hne hnr ih =>
    have hrun : (runText run).countP p = 0 := by
      rw [List.countP_eq_zero]
      intro c hc
      rcases isInner_or_eq_of_mem_runText hw hc with rfl | hc
      · simp [hb]
      · simp [hi c hc]
    have hrestore : (restoreRun run).countP p = 0 := by
      rcases restoreRun_cases run with he | ⟨-, hall⟩
      · rw [he, hrun]
      · rw [List.countP_eq_zero]
        intro c hc
        simp [hn c (hall c hc)]
    rw [normalized_run hw hne hnr, List.countP_append, List.countP_append, ih, hrun]
    cases odd
    · rw [if_neg Bool.false_ne_true, hrestore]
    · rw [if_pos rfl, hrun]

/-- A character that is not natural is never added. -/
theorem count_normalized_le {c : Char} (hc : isNaturalChar c = false) (odd : Bool) (t : Text) :
    (normalized odd t).count c ≤ t.count c := by
  induction odd, t using normalized_induction with
  | nil odd => exact Nat.le_refl _
  | char odd d t hr ih =>
    rw [normalized_char hr, List.count_cons, List.count_cons]
    omega
  | run odd run rest hw hne hn ih =>
    rw [normalized_run hw hne hn, List.count_append, List.count_append]
    refine Nat.add_le_add ?_ ih
    split
    · exact Nat.le_refl _
    · rcases restoreRun_cases run with he | ⟨-, hall⟩
      · rw [he]
      · have hmem : c ∉ restoreRun run := by
          intro hmem
          rw [hall c hmem] at hc
          cases hc
        rw [List.count_eq_zero_of_not_mem hmem]
        exact Nat.zero_le _

/-- Whether two neighbours start an escape. -/
def StartsEscape (a c : Char) : Prop := a = '\\' ∧ c = 'u'

/-- A text in which no two neighbours start an escape stays as it is. -/
theorem normalized_of_isChain {t : Text} (h : t.IsChain fun a c => ¬ StartsEscape a c) (odd : Bool) :
    normalized odd t = t := by
  induction t generalizing odd with
  | nil => rfl
  | cons c t ih =>
    have hr : read? (c :: t) = none := by
      rw [Option.eq_none_iff_forall_ne_some]
      rintro ⟨e, rest⟩ he
      rw [(of_read? he).2] at h
      cases e <;> simp [text, StartsEscape] at h
    rw [normalized_char hr, ih h.tail]

end Escape

/-! ## Whole texts -/

namespace Text

theorem normalizeEscapes_normalizeEscapes (t : Text) :
    normalizeEscapes (normalizeEscapes t) = normalizeEscapes t :=
  Escape.normalized_normalized false t

end Text

end Phrasebook
