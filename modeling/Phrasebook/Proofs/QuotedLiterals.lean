import Phrasebook.Proofs.Frames
import Phrasebook.Proofs.LiteralBodies

/-!
String literals as the grammar reads them: a quote, the parts of a body, and the closing quote after a
gap, which may hold line breaks and comments.

* The parts that are read spell what the body spells (`exists_parts`, `of_run_quoted`), and a body with a
  gap and a quote behind it is read back (`run_quoted`).
* A gap stays a gap when unicode escapes in its comments are restored (`Gaps.normalized`).

So a text that reads as a literal still does when its escapes are restored, and with the same value
(`isLiteral_normalized`).
-/

namespace Phrasebook.Script

open Grammar

/-! ## Comments -/

/-- A text in which a block comment does not end, with or without the start of its end behind it. -/
def StaysOpen (body : Text) : Prop :=
  ∀ r, blockCommentLength? (body ++ '*' :: '/' :: r) = some (body.length + 2)

theorem staysOpen_nil : StaysOpen [] := fun _ => rfl

theorem blockCommentLength?_cons {c : Char} {t : Text} (h : ¬ (c = '*' ∧ t.head? = some '/')) :
    blockCommentLength? (c :: t) = (blockCommentLength? t).map (· + 1) := by
  rw [blockCommentLength?.eq_def]
  split
  · next heq =>
    obtain ⟨rfl, rfl⟩ := List.cons.inj heq
    exact absurd ⟨rfl, rfl⟩ h
  · next heq =>
    obtain ⟨rfl, rfl⟩ := List.cons.inj heq
    rfl
  · next heq => cases heq

theorem staysOpen_cons_iff {c : Char} {t : Text} :
    StaysOpen (c :: t) ↔ StaysOpen t ∧ ¬ (c = '*' ∧ t.head? = some '/') := by
  have hstar : ∀ r : Text, ¬ (c = '*' ∧ t.head? = some '/') →
      ¬ (c = '*' ∧ (t ++ '*' :: '/' :: r).head? = some '/') := by
    rintro r h ⟨hc, ht⟩
    cases t with
    | nil => cases ht
    | cons d t => exact h ⟨hc, ht⟩
  constructor
  · intro h
    have hne : ¬ (c = '*' ∧ t.head? = some '/') := by
      rintro ⟨rfl, ht⟩
      cases t with
      | nil => cases ht
      | cons d t =>
        obtain rfl : d = '/' := by simpa using ht
        have := h []
        rw [List.cons_append, List.cons_append, blockCommentLength?] at this
        simp at this
    refine ⟨fun r => ?_, hne⟩
    have := h r
    rw [List.cons_append, blockCommentLength?_cons (hstar r hne), Option.map_eq_some_iff] at this
    obtain ⟨n, hn, he⟩ := this
    rw [hn, List.length_cons] at *
    congr 1
    omega
  · rintro ⟨h, hne⟩ r
    rw [List.cons_append, blockCommentLength?_cons (hstar r hne), h r, List.length_cons,
      Option.map_some]

/-- A block comment that is read ends where its text stops to stay open. -/
theorem of_blockCommentLength? {t : Text} {n : Nat} (h : blockCommentLength? t = some n) :
    ∃ body r, t = body ++ '*' :: '/' :: r ∧ n = body.length + 2 ∧ StaysOpen body := by
  induction t generalizing n with
  | nil => cases h
  | cons c t ih =>
    by_cases hc : c = '*' ∧ t.head? = some '/'
    · obtain ⟨rfl, ht⟩ := hc
      cases t with
      | nil => cases ht
      | cons d t =>
        obtain rfl : d = '/' := by simpa using ht
        rw [blockCommentLength?] at h
        cases h
        exact ⟨[], t, rfl, rfl, staysOpen_nil⟩
    · rw [blockCommentLength?_cons hc, Option.map_eq_some_iff] at h
      obtain ⟨m, hm, rfl⟩ := h
      obtain ⟨body, r, rfl, rfl, hbody⟩ := ih hm
      refine ⟨c :: body, r, rfl, rfl, staysOpen_cons_iff.2 ⟨hbody, ?_⟩⟩
      rintro ⟨hstar, hhead⟩
      refine hc ⟨hstar, ?_⟩
      cases body with
      | nil => cases hhead
      | cons d body => exact hhead

theorem staysOpen_append {w t : Text} (hw : ∀ c ∈ w, c ≠ '*') : StaysOpen (w ++ t) ↔ StaysOpen t := by
  induction w with
  | nil => exact Iff.rfl
  | cons c w ih =>
    rw [List.cons_append, staysOpen_cons_iff, ih fun d hd => hw d (List.mem_cons_of_mem c hd)]
    exact and_iff_left fun h => hw c (List.mem_cons_self ..) h.1

theorem ne_of_natural {c d : Char} (h : isNaturalChar c = true) (hd : d.toNat < 0x2E80) : c ≠ d := by
  rintro rfl
  have := Escape.le_toNat_of_isNaturalChar h
  omega

/-- Restoring escapes ends no comment. -/
theorem StaysOpen.normalized {body : Text} (h : StaysOpen body) (odd : Bool) :
    StaysOpen (Escape.normalized odd body) := by
  induction odd, body using Escape.normalized_induction with
  | nil odd => exact h
  | char odd c t hr ih =>
    rw [staysOpen_cons_iff] at h
    rw [Escape.normalized_char hr, staysOpen_cons_iff]
    refine ⟨ih h.1, ?_⟩
    rintro ⟨hc, hhead⟩
    rcases head?_normalized _ t '/' hhead with ht | hn
    · exact h.2 ⟨hc, ht⟩
    · exact ne_of_natural hn (by decide) rfl
  | run odd run rest hw hne hn ih =>
    have hrun : ∀ c ∈ Escape.runText run, c ≠ '*' := by
      rintro c hc rfl
      rcases Escape.isInner_or_eq_of_mem_runText hw hc with h | h <;> cases h
    rw [staysOpen_append hrun] at h
    rw [Escape.normalized_run hw hne hn]
    refine (staysOpen_append ?_).2 (ih h)
    cases odd with
    | true => exact hrun
    | false =>
      rw [if_neg Bool.false_ne_true]
      rcases Escape.restoreRun_cases run with he | ⟨-, hall⟩
      · rw [he]
        exact hrun
      · exact fun c hc => ne_of_natural (hall c hc) (by decide)

/-! ## Gaps -/

/-- A piece of trivia that is read as a whole when the character `d` follows it. -/
inductive TriviaBefore : Text → Char → Prop
  | blank {p : Text} {d : Char} (hne : p ≠ []) (hp : ∀ c ∈ p, isGapBlank c = true)
      (hd : isGapBlank d = false) : TriviaBefore p d
  | line {body : Text} {d : Char} (hb : ∀ c ∈ body, endsLineComment c = false)
      (hd : endsLineComment d = true) : TriviaBefore ('/' :: '/' :: body) d
  | block {body : Text} (hb : StaysOpen body) (d : Char) :
      TriviaBefore ('/' :: '*' :: (body ++ ['*', '/'])) d

theorem TriviaBefore.ne_nil {p : Text} {d : Char} (h : TriviaBefore p d) : p ≠ [] := by
  cases h with
  | blank hne => exact hne
  | line | block => exact List.cons_ne_nil _ _

theorem isGapBlank_slash : isGapBlank '/' = false := by decide

/-- A piece of trivia in front of a character is read, whatever follows. -/
theorem triviaLength?_of_triviaBefore {p : Text} {d : Char} (h : TriviaBefore p d) (r : Text) :
    ∃ kind, triviaLength? false (p ++ d :: r) = some (kind, p.length) := by
  cases h with
  | blank hne hp hd =>
    obtain ⟨c, p, rfl⟩ := List.exists_cons_of_ne_nil hne
    have hrun : runLength isGapBlank ((c :: p) ++ d :: r) = (c :: p).length := by
      rw [runLength, List.takeWhile_append_of_pos hp, List.takeWhile_cons_of_neg (by simp [hd]),
        List.append_nil]
    refine ⟨.blank, ?_⟩
    rw [List.cons_append] at hrun ⊢
    unfold triviaLength?
    dsimp only
    rw [if_pos (hp c (List.mem_cons_self ..)), hrun]
  | @line body _ hb hd =>
    have hrun : runLength (fun c => !endsLineComment c) (body ++ d :: r) = body.length := by
      rw [runLength, List.takeWhile_append_of_pos (fun c hc => by rw [hb c hc]; rfl),
        List.takeWhile_cons_of_neg (by simp [hd]), List.append_nil]
    refine ⟨.comment, ?_⟩
    rw [List.cons_append, List.cons_append, triviaLength?, if_neg (by simp [isGapBlank_slash]),
      if_pos (by decide), hrun, List.length_cons, List.length_cons]
    exact congrArg (fun n => some (TriviaKind.comment, n)) (by omega)
  | @block body hb =>
    have hrun := hb (d :: r)
    refine ⟨.comment, ?_⟩
    have htext : '/' :: '*' :: (body ++ ['*', '/']) ++ d :: r =
        '/' :: '*' :: (body ++ '*' :: '/' :: d :: r) := by simp
    rw [htext, triviaLength?, if_neg (by simp [isGapBlank_slash]), if_pos (by decide), hrun,
      Option.map_some]
    refine congrArg (fun n => some (TriviaKind.comment, n)) ?_
    simp only [List.length_cons, List.length_append, List.length_nil]
    omega

theorem take_runLength (p : Char → Bool) (t : Text) : t.take (runLength p t) = t.takeWhile p :=
  (List.prefix_iff_eq_take.1 (List.takeWhile_prefix p)).symm

theorem head_dropWhile {p : Char → Bool} {t r : Text} {d : Char} (h : t.dropWhile p = d :: r) :
    p d = false := by
  have := List.head?_dropWhile_not p t
  rw [h] at this
  simpa using this

/-- What is read as trivia with a character behind it. -/
theorem triviaBefore_of_triviaLength? {t r : Text} {d : Char} {kind : TriviaKind} {n : Nat}
    (h : triviaLength? false t = some (kind, n)) (hr : t.drop n = d :: r) :
    TriviaBefore (t.take n) d := by
  unfold triviaLength? at h
  split at h
  · cases h
  · next c rest =>
    split at h
    · next hc =>
      cases h
      rw [drop_runLength] at hr
      rw [take_runLength]
      refine .blank ?_ (fun c hc => List.all_eq_true.1 List.all_takeWhile c hc) ?_
      · rw [List.takeWhile_cons_of_pos hc]
        exact List.cons_ne_nil _ _
      · simpa using head_dropWhile hr
    · split at h
      · next hslash =>
        obtain rfl : c = '/' := by simpa using hslash
        split at h
        · next body =>
          cases h
          have htake : ('/' :: '/' :: body).take (2 + runLength (fun c => !endsLineComment c) body) =
              '/' :: '/' :: body.takeWhile fun c => !endsLineComment c := by
            rw [Nat.add_comm, List.take_succ_cons, List.take_succ_cons, take_runLength]
          have hdrop : body.dropWhile (fun c => !endsLineComment c) = d :: r := by
            rw [← drop_runLength, ← hr, Nat.add_comm, List.drop_succ_cons, List.drop_succ_cons]
          rw [htake]
          refine .line (fun c hc => ?_) ?_
          · simpa using List.all_eq_true.1 List.all_takeWhile c hc
          · simpa using head_dropWhile hdrop
        · next body =>
          obtain ⟨m, hm, he⟩ := Option.map_eq_some_iff.1 h
          cases he
          obtain ⟨inner, r', rfl, rfl, hopen⟩ := of_blockCommentLength? hm
          have htake : ('/' :: '*' :: (inner ++ '*' :: '/' :: r')).take (2 + (inner.length + 2)) =
              '/' :: '*' :: (inner ++ ['*', '/']) := by
            have hl : (inner ++ ['*', '/']).length = inner.length + 2 := by simp
            have ht : inner ++ '*' :: '/' :: r' = (inner ++ ['*', '/']) ++ r' := by simp
            rw [Nat.add_comm, List.take_succ_cons, List.take_succ_cons, ht, ← hl, List.take_left]
          rw [htake]
          exact .block hopen d
        · cases h
      · cases h

theorem ne_backslash_of_isGapBlank {c : Char} (h : isGapBlank c = true) : c ≠ '\\' := by
  rintro rfl
  exact absurd h (by decide)

/-- Restoring escapes leaves trivia trivia. -/
theorem TriviaBefore.normalized {p : Text} {d : Char} (h : TriviaBefore p d) :
    TriviaBefore (Escape.normalized false p) d := by
  cases h with
  | blank hne hp hd =>
    have hkeep := Escape.normalized_append_of_forall_ne
      (fun c hc => ne_backslash_of_isGapBlank (hp c hc)) []
    rw [List.append_nil] at hkeep
    rw [hkeep]
    exact (List.append_nil p).symm ▸ .blank hne hp hd
  | @line body _ hb hd =>
    have hkeep : Escape.normalized false ('/' :: '/' :: body) =
        '/' :: '/' :: Escape.normalized false body :=
      Escape.normalized_append_of_forall_ne (w := ['/', '/']) (by simp) body
    rw [hkeep]
    refine .line (fun c hc => ?_) hd
    -- no line break is added
    have hcount : (Escape.normalized false body).countP endsLineComment = 0 := by
      rw [Escape.countP_normalized (by decide) ?_ ?_]
      · rw [List.countP_eq_zero]
        intro c hc
        simp [hb c hc]
      · intro c hc
        have hlt := Escape.toNat_lt_of_isInner hc
        rw [← Bool.not_eq_true]
        intro hl
        simp only [endsLineComment, isLineBreak, Bool.or_eq_true, beq_iff_eq] at hl
        rcases hl with rfl | (rfl | rfl) | rfl
        · cases hc
        · cases hc
        · exact absurd hlt (by decide)
        · exact absurd hlt (by decide)
      · intro c hc
        have hlb := (not_octal_of_natural hc).2
        simp [endsLineComment, hlb, ne_of_natural hc (d := '\r') (by decide)]
    simpa using List.countP_eq_zero.1 hcount c hc
  | @block body hb =>
    have hkeep : Escape.normalized false ('/' :: '*' :: (body ++ ['*', '/'])) =
        '/' :: '*' :: (Escape.normalized false body ++ ['*', '/']) := by
      have hlead := Escape.normalized_append_of_forall_ne (w := ['/', '*']) (by simp)
        (body ++ ['*', '/'])
      rw [Escape.normalized_barrier (by decide) (by decide)] at hlead
      exact hlead
    rw [hkeep]
    exact .block (hb.normalized false) d

theorem le_toNat_of_isInner {c : Char} (h : Escape.isInner c = true) : 48 ≤ c.toNat := by
  have hle : ∀ d : Char, d ≤ c → d.toNat ≤ c.toNat := fun d hd => hd
  simp only [Escape.isInner, Bool.or_eq_true, beq_iff_eq] at h
  rcases h with ((rfl | rfl) | rfl) | h
  · decide
  · decide
  · decide
  · simp only [Text.isHexDigit, Text.hexDigit?] at h
    split at h
    · next hc => exact hle '0' hc.1
    · split at h
      · next hc => exact Nat.le_trans (by decide) (hle 'a' hc.1)
      · split at h
        · next hc => exact Nat.le_trans (by decide) (hle 'A' hc.1)
        · cases h

theorem not_isInner_of_isGapBlank {c : Char} (h : isGapBlank c = true) :
    Escape.isInner c = false := by
  rw [← Bool.not_eq_true]
  intro hi
  have hlow := le_toNat_of_isInner hi
  have hhigh := Escape.toNat_lt_of_isInner hi
  simp only [isGapBlank, isBlank, inRanges, blankRanges, List.any_cons, List.any_nil, Bool.or_eq_true,
    Bool.and_eq_true, decide_eq_true_eq, beq_iff_eq, Bool.or_false] at h
  rcases h with ((h | rfl) | rfl) | rfl
  · omega
  · exact absurd hhigh (by decide)
  · exact absurd hhigh (by decide)
  · exact absurd hhigh (by decide)

/-- The first character of trivia is no backslash and no part of an escape. -/
theorem TriviaBefore.head {p : Text} {d : Char} (h : TriviaBefore p d) :
    ∃ c t, p = c :: t ∧ c ≠ '\\' ∧ Escape.isInner c = false := by
  cases h with
  | blank hne hp hd =>
    obtain ⟨c, t, rfl⟩ := List.exists_cons_of_ne_nil hne
    have hc := hp c (List.mem_cons_self ..)
    exact ⟨c, t, rfl, ne_backslash_of_isGapBlank hc, not_isInner_of_isGapBlank hc⟩
  | line => exact ⟨'/', _, rfl, by decide, by decide⟩
  | block => exact ⟨'/', _, rfl, by decide, by decide⟩

/-- A row of trivia before the character `q`. -/
inductive Gaps (q : Char) : Text → Prop
  | nil : Gaps q []
  | cons {p g : Text} {d : Char} (hd : (g ++ [q]).head? = some d) (hp : TriviaBefore p d)
      (h : Gaps q g) : Gaps q (p ++ g)

theorem IsQuote.ne_backslash {q : Char} (hq : IsQuote q) : q ≠ '\\' := by
  rcases hq with rfl | rfl <;> decide

theorem IsQuote.not_isInner {q : Char} (hq : IsQuote q) : Escape.isInner q = false := by
  rcases hq with rfl | rfl <;> decide

/-- The first character of a gap and the quote behind it is no backslash and no part of an escape. -/
theorem Gaps.head {q : Char} (hq : IsQuote q) {g : Text} (h : Gaps q g) {d : Char}
    (hd : (g ++ [q]).head? = some d) : d ≠ '\\' ∧ Escape.isInner d = false := by
  cases h with
  | nil =>
    obtain rfl : q = d := by simpa using hd
    exact ⟨hq.ne_backslash, hq.not_isInner⟩
  | cons _ hp _ =>
    obtain ⟨c, t, rfl, hb, hi⟩ := hp.head
    obtain rfl : c = d := by simpa using hd
    exact ⟨hb, hi⟩

/-- Restoring escapes leaves a gap a gap, and restores its pieces one by one. -/
theorem Gaps.normalized {q : Char} (hq : IsQuote q) {g : Text} (h : Gaps q g) :
    Gaps q (Escape.normalized false g) ∧
      (Escape.normalized false g ++ [q]).head? = (g ++ [q]).head? := by
  induction h with
  | nil => exact ⟨.nil, rfl⟩
  | @cons p g d hd hp h ih =>
    obtain ⟨hb, hi⟩ := h.head hq hd
    have hsplit : Escape.normalized false (p ++ g) =
        Escape.normalized false p ++ Escape.normalized false g := by
      cases g with
      | nil => rw [List.append_nil]; exact (List.append_nil _).symm
      | cons c g =>
        obtain rfl : c = d := by simpa using hd
        have hodd : (c == '\\' && !false) = false := by simp [hb]
        rw [Escape.normalized_barrier hb hi, Escape.normalized_char (Escape.read?_cons_of_ne hb g),
          hodd]
    obtain ⟨c, t, rfl, hcb, -⟩ := hp.head
    have hhead : (Escape.normalized false (c :: t)).head? = some c := by
      rw [Escape.normalized_char (Escape.read?_cons_of_ne hcb t)]
      rfl
    refine ⟨?_, ?_⟩
    · rw [hsplit]
      exact .cons (ih.2.trans hd) hp.normalized ih.1
    · rw [hsplit, List.append_assoc, List.append_assoc, List.head?_append, hhead, List.head?_append]
      rfl

theorem triviaLength?_quote {q : Char} (hq : IsQuote q) (markup : Bool) (r : Text) :
    triviaLength? markup (q :: r) = none := by
  rcases hq with rfl | rfl <;> cases markup <;> rfl

theorem readGap_quote {q : Char} (hq : IsQuote q) (markup : Bool) (r : Text) :
    readGap markup (q :: r) = ([], q :: r) := by
  rw [readGap, List.length_cons, readGapFuel, triviaLength?_quote hq]

/-- A row of trivia before a quote is read up to the quote. -/
theorem readGap_of_gaps {q : Char} (hq : IsQuote q) {g : Text} (h : Gaps q g) (r : Text) :
    ∃ gap, readGap false (g ++ q :: r) = (gap, q :: r) := by
  suffices hfuel : ∀ fuel, (g ++ q :: r).length ≤ fuel →
      ∃ gap, readGapFuel false fuel (g ++ q :: r) = (gap, q :: r) from hfuel _ (Nat.le_refl _)
  induction h with
  | nil =>
    intro fuel hf
    refine ⟨[], ?_⟩
    cases fuel with
    | zero => rfl
    | succ fuel => rw [List.nil_append, readGapFuel, triviaLength?_quote hq]
  | @cons p g d hd hp h ih =>
    intro fuel hf
    have hne := List.length_pos_iff.2 hp.ne_nil
    obtain ⟨x, hx⟩ : ∃ x, g ++ q :: r = d :: x := by
      cases g with
      | nil => exact ⟨r, by rw [show q = d by simpa using hd]; rfl⟩
      | cons c g => exact ⟨g ++ q :: r, by rw [show c = d by simpa using hd]; rfl⟩
    obtain ⟨kind, hkind⟩ := triviaLength?_of_triviaBefore hp x
    rw [← hx, ← List.append_assoc] at hkind
    rw [List.append_assoc, List.length_append] at hf
    cases fuel with
    | zero => omega
    | succ fuel =>
      obtain ⟨gap, hgap⟩ := ih fuel (by omega)
      refine ⟨⟨kind, p⟩ :: gap, ?_⟩
      rw [readGapFuel, hkind]
      dsimp only
      rw [List.append_assoc, List.drop_left, List.take_left, hgap]

/-- What is read as a gap before a quote is a row of trivia. -/
theorem gaps_of_readGap {q : Char} {t r : Text} {gap : Gap} (h : readGap false t = (gap, q :: r)) :
    Gaps q (gapText gap) := by
  suffices hfuel : ∀ fuel t gap, readGapFuel false fuel t = (gap, q :: r) → Gaps q (gapText gap) from
    hfuel _ t gap h
  intro fuel
  induction fuel with
  | zero =>
    intro t gap h
    cases h
    exact .nil
  | succ fuel ih =>
    intro t gap h
    rw [readGapFuel] at h
    split at h
    · cases h
      exact .nil
    · next kind n hn =>
      generalize hrest : readGapFuel false fuel (t.drop n) = rest at h
      obtain ⟨gap', after⟩ := rest
      cases h
      have hsource := readGapFuel_source false fuel (t.drop n)
      rw [hrest] at hsource
      obtain ⟨d, x, hd, hx⟩ : ∃ d x, (gapText gap' ++ [q]).head? = some d ∧ t.drop n = d :: x := by
        rw [← hsource]
        cases gapText gap' with
        | nil => exact ⟨q, r, rfl, rfl⟩
        | cons c g => exact ⟨c, g ++ q :: r, rfl, rfl⟩
      exact .cons hd (triviaBefore_of_triviaLength? hn hx) (ih _ gap' hrest)

/-! ## Parts -/

/-- A part of a literal in quotes `q`. -/
def IsPart (q : Char) (c : Tree) : Prop :=
  (∃ text, c = .leaf .part .fragment [] text ∧ ∀ d ∈ text, isFragmentChar q d = true) ∨
    ∃ text, c = .leaf .part .escape [] text

/-- The form of one part of a literal. -/
def literalPart (q : Char) : Form Rule :=
  .either (.joined .fragment (stringFragment q)) (.joined .escape escapeSequence)

/-- One part is read: a longest fragment or an escape sequence, if there is one. -/
theorem run_literalPart_cases (call : Rule → Progress → Option Progress) (q : Char) (p : Progress) :
    ((literalPart q).run call p = none ∧ Body q p.rest [] p.rest) ∨
      ∃ part rest, (literalPart q).run call p = some ⟨part :: p.done, rest⟩ ∧ IsPart q part ∧
        p.rest = part.source ++ rest ∧ rest.length < p.rest.length ∧
        ∀ us after, Body q rest us after → Body q p.rest (partUnits part ++ us) after := by
  by_cases hn : runLength (isFragmentChar q) p.rest = 0
  · have hfragment : stringFragment q p.rest = none := by
      show positive (runLength (isFragmentChar q) p.rest) = none
      rw [hn, positive, if_pos rfl]
    have hhead : ∀ c ∈ p.rest.head?, isFragmentChar q c = false := by
      intro c hc
      rw [← Bool.not_eq_true]
      intro hf
      cases ht : p.rest with
      | nil =>
        rw [ht] at hc
        cases hc
      | cons d t =>
        rw [ht] at hc hn
        obtain rfl : d = c := by simpa using hc
        rw [runLength, List.takeWhile_cons_of_pos hf] at hn
        cases hn
    cases he : escapeSequence p.rest with
    | none =>
      refine .inl ⟨?_, .stop hhead he⟩
      simp [literalPart, Form.run, Form.readToken, hfragment, he]
    | some n =>
      obtain ⟨w, r, hwr, rfl, hw⟩ := escaped_of_escapeSequence he
      have htake : p.rest.take (w.length + 1) = '\\' :: w := by
        rw [hwr, List.take_succ_cons, List.take_left]
      have hdrop : p.rest.drop (w.length + 1) = r := by
        rw [hwr, List.drop_succ_cons, List.drop_left]
      refine .inr ⟨.leaf .part .escape [] ('\\' :: w), r, ?_, .inr ⟨_, rfl⟩, ?_, ?_, ?_⟩
      · simp [literalPart, Form.run, Form.readToken, hfragment, he, htake, hdrop]
      · rw [hwr]
        rfl
      · rw [hwr, List.length_cons, List.length_append]
        omega
      · intro us after hbody
        rw [hwr]
        exact .escape hw hbody
  · have hfragment : stringFragment q p.rest = some (runLength (isFragmentChar q) p.rest) := by
      show positive (runLength (isFragmentChar q) p.rest) = _
      rw [positive, if_neg hn]
    have hall : ∀ d ∈ p.rest.takeWhile (isFragmentChar q), isFragmentChar q d = true :=
      fun d hd => List.all_eq_true.1 List.all_takeWhile d hd
    have hsplit : p.rest = p.rest.takeWhile (isFragmentChar q) ++
        p.rest.dropWhile (isFragmentChar q) := List.takeWhile_append_dropWhile.symm
    refine .inr ⟨.leaf .part .fragment [] (p.rest.takeWhile (isFragmentChar q)),
      p.rest.dropWhile (isFragmentChar q), ?_, .inl ⟨_, rfl, hall⟩, hsplit, ?_, ?_⟩
    · simp [literalPart, Form.run, Form.readToken, hfragment, take_runLength, drop_runLength]
    · have hl := congrArg List.length hsplit
      rw [List.length_append] at hl
      unfold runLength at hn
      omega
    · intro us after hbody
      have := hbody.append hall
      rw [← hsplit] at this
      exact this

/-- Reading parts as long as there are some: what holds of no parts where none can be read, and what
adding a part in front keeps, holds of the parts that are read. -/
theorem repeatStep_parts {step : Progress → Option Progress} {R : Text → List Tree → Text → Prop}
    (hnil : R [] [] [])
    (hstep : ∀ p, (step p = none ∧ R p.rest [] p.rest) ∨
      ∃ part rest, step p = some ⟨part :: p.done, rest⟩ ∧ rest.length < p.rest.length ∧
        ∀ parts after, R rest parts after → R p.rest (part :: parts) after)
    (fuel : Nat) (p : Progress) (hf : p.rest.length ≤ fuel) :
    ∃ (parts : List Tree) (rest : Text),
      Form.repeatStep step fuel p = ⟨parts.reverse ++ p.done, rest⟩ ∧ R p.rest parts rest := by
  induction fuel generalizing p with
  | zero =>
    have hrest : p.rest = [] := List.length_eq_zero_iff.1 (Nat.le_zero.1 hf)
    exact ⟨[], p.rest, rfl, by rw [hrest]; exact hnil⟩
  | succ fuel ih =>
    rcases hstep p with ⟨hnone, hR⟩ | ⟨part, rest, hsome, hlt, hR⟩
    · refine ⟨[], p.rest, ?_, hR⟩
      rw [Form.repeatStep, hnone]
      rfl
    · obtain ⟨parts, after, hrun, hparts⟩ := ih ⟨part :: p.done, rest⟩ (by dsimp only; omega)
      refine ⟨part :: parts, after, ?_, hR parts after hparts⟩
      rw [Form.repeatStep, hsome]
      dsimp only
      rw [if_pos hlt, hrun, List.reverse_cons, List.append_assoc]
      rfl

/-- The parts that are read spell what the body spells. -/
theorem exists_parts (call : Rule → Progress → Option Progress) (q : Char) (p : Progress) :
    ∃ (parts : List Tree) (rest : Text),
      Form.repeatStep ((literalPart q).run call) p.rest.length p = ⟨parts.reverse ++ p.done, rest⟩ ∧
      (∀ c ∈ parts, IsPart q c) ∧ p.rest = Tree.sourceAll parts ++ rest ∧
      Body q p.rest (parts.flatMap partUnits) rest := by
  refine repeatStep_parts (R := fun t parts rest => (∀ c ∈ parts, IsPart q c) ∧
    t = Tree.sourceAll parts ++ rest ∧ Body q t (parts.flatMap partUnits) rest) ?_ ?_ _ p
    (Nat.le_refl _)
  · exact ⟨fun c hc => absurd hc List.not_mem_nil, rfl, .stop (fun c hc => by cases hc) rfl⟩
  · intro p
    rcases run_literalPart_cases call q p with ⟨hnone, hbody⟩ | ⟨part, rest, hsome, hpart, hs, hlt, hb⟩
    · exact .inl ⟨hnone, fun c hc => absurd hc List.not_mem_nil, rfl, hbody⟩
    · refine .inr ⟨part, rest, hsome, hlt, ?_⟩
      rintro parts after ⟨hparts, hsource, hbody⟩
      refine ⟨List.forall_mem_cons.2 ⟨hpart, hparts⟩, ?_, hb _ _ hbody⟩
      rw [hs, hsource, Tree.sourceAll, List.append_assoc]

/-! ## Literals -/

theorem exactly_quote {q : Char} (hq : IsQuote q) (r : Text) :
    exactly (String.singleton q) (q :: r) = some 1 := by
  rcases hq with rfl | rfl <;> rfl

theorem of_exactly_quote {q : Char} (hq : IsQuote q) {t : Text} {n : Nat}
    (h : exactly (String.singleton q) t = some n) : n = 1 ∧ ∃ r, t = q :: r := by
  have hquote : (String.singleton q).toList = [q] ∧ (String.singleton q).length = 1 := by
    rcases hq with rfl | rfl <;> exact ⟨rfl, rfl⟩
  unfold exactly at h
  split at h
  · next hs =>
    rw [hquote.1, startsWith_singleton_iff] at hs
    cases h
    exact ⟨hquote.2, hs⟩
  · cases h

/-- The token of a quote is read after its gap. -/
theorem of_run_quote {call : Rule → Progress → Option Progress} {q : Char} (hq : IsQuote q)
    {markup : Bool} {s p : Progress}
    (h : (Form.token markup .mark (exactly (String.singleton q))).run call s = some p) :
    ∃ gap, p.done = .leaf .part .mark gap [q] :: s.done ∧
      readGap markup s.rest = (gap, q :: p.rest) := by
  obtain ⟨n, hn, rfl⟩ := Option.map_eq_some_iff.1 h
  obtain ⟨rfl, r, hr⟩ := of_exactly_quote hq hn
  refine ⟨(readGap markup s.rest).1, ?_, ?_⟩
  · rw [hr]
    rfl
  · rw [hr]
    exact Prod.ext rfl hr

/-- What is read as a literal in quotes `q`. -/
theorem of_run_quoted {call : Rule → Progress → Option Progress} {q : Char} (hq : IsQuote q)
    {s p : Progress} (h : (quoted q).run call s = some p) :
    ∃ gap parts gap',
      p.done = .leaf .part .mark gap' [q] ::
        (parts.reverse ++ .leaf .part .mark gap [q] :: s.done) ∧
      readGap true s.rest =
        (gap, q :: (Tree.sourceAll parts ++ (gapText gap' ++ q :: p.rest))) ∧
      (∀ c ∈ parts, IsPart q c) ∧ Gaps q (gapText gap') ∧
      Body q (Tree.sourceAll parts ++ (gapText gap' ++ q :: p.rest)) (parts.flatMap partUnits)
        (gapText gap' ++ q :: p.rest) := by
  obtain ⟨m, hm, h⟩ := Option.bind_eq_some_iff.1 h
  obtain ⟨m', hm', h⟩ := Option.bind_eq_some_iff.1 h
  obtain ⟨gap, hdone, hgap⟩ := of_run_quote hq hm
  obtain ⟨parts, rest, hparts, hall, hsource, hbody⟩ :=
    exists_parts call q m
  have hmany : Form.repeatStep ((literalPart q).run call) m.rest.length m = m' := Option.some.inj hm'
  rw [hmany] at hparts
  subst hparts
  obtain ⟨gap', hdone', hgap'⟩ := of_run_quote hq h
  have hr := readGap_source false rest
  rw [show readGap false rest = _ from hgap'] at hr
  dsimp only at hr
  refine ⟨gap, parts, gap', ?_, ?_, hall, gaps_of_readGap hgap', ?_⟩
  · rw [hdone', hdone]
  · rw [hr, ← hsource]
    exact hgap
  · rw [hr, ← hsource]
    exact hbody

/-- A body with a gap and a quote behind it is read as a literal. -/
theorem run_quoted (call : Rule → Progress → Option Progress) {q : Char} (hq : IsQuote q)
    {t g r : Text} {us : List Units.CodeUnit} (hbody : Body q t us (g ++ q :: r)) (hg : Gaps q g)
    (done : List Tree) :
    ∃ (gap : Gap) (parts : List Tree), (quoted q).run call ⟨done, q :: t⟩ =
        some ⟨.leaf .part .mark gap [q] :: (parts.reverse ++ .leaf .part .mark [] [q] :: done), r⟩ ∧
      parts.flatMap partUnits = us := by
  obtain ⟨gap, hgap⟩ := readGap_of_gaps hq hg r
  obtain ⟨parts, rest, hparts, -, -, hbody'⟩ :=
    exists_parts call q ⟨.leaf .part .mark [] [q] :: done, t⟩
  obtain ⟨hus, rfl⟩ := hbody'.unique hbody
  refine ⟨gap, parts, ?_, hus⟩
  have hopen : (Form.token true .mark (exactly (String.singleton q))).run call ⟨done, q :: t⟩ =
      some ⟨.leaf .part .mark [] [q] :: done, t⟩ := by
    simp [Form.run, Form.readToken, readGap_quote hq, exactly_quote hq]
  have hclose : (Form.token false .mark (exactly (String.singleton q))).run call
      ⟨parts.reverse ++ .leaf .part .mark [] [q] :: done, g ++ q :: r⟩ =
        some ⟨.leaf .part .mark gap [q] :: (parts.reverse ++ .leaf .part .mark [] [q] :: done), r⟩ := by
    simp [Form.run, Form.readToken, hgap, exactly_quote hq]
  have hmany : (Form.many (literalPart q)).run call ⟨.leaf .part .mark [] [q] :: done, t⟩ =
      some ⟨parts.reverse ++ .leaf .part .mark [] [q] :: done, g ++ q :: r⟩ := congrArg some hparts
  show ((Form.token true .mark (exactly (String.singleton q))).run call ⟨done, q :: t⟩).bind
    (fun m => ((Form.many (literalPart q)).run call m).bind
      ((Form.token false .mark (exactly (String.singleton q))).run call)) = _
  rw [hopen, Option.bind_some, hmany, Option.bind_some, hclose]

/-- A text that is one string literal with the given value, whatever follows it. -/
def IsLiteral (text value : Text) : Prop :=
  ∀ (call : Rule → Progress → Option Progress) (done : List Tree) (rest : Text),
    ∃ literal, stringLiteral.run call ⟨done, text ++ rest⟩ = some ⟨literal :: done, rest⟩ ∧
      literalValue literal = value

theorem literalValue_of_parts {role : Role} {kind : Kind} {gap gap' : Gap} {q : Char}
    (parts : List Tree) :
    literalValue (.node role kind
      (.leaf .part .mark gap [q] :: (parts ++ [.leaf .part .mark gap' [q]]))) =
      Units.decodeLossy (parts.flatMap partUnits) := by
  simp [literalValue, Tree.children, partUnits]

/-- A quote, a body, a gap and the quote again are a literal. -/
theorem isLiteral_of_body {q : Char} (hq : IsQuote q) {x g : Text} {us : List Units.CodeUnit}
    (hbody : Body q (x ++ (g ++ [q])) us (g ++ [q])) (hg : Gaps q g) :
    IsLiteral (q :: (x ++ (g ++ [q]))) (Units.decodeLossy us) := by
  intro call done rest
  have hhead : ∀ d, (g ++ [q]).head? = some d → d ≠ '\\' := fun d hd => (hg.head hq hd).1
  obtain ⟨y, hy, hbody'⟩ := hbody.replace_rest (fun h => hhead '\\' h rfl)
    (show (g ++ q :: rest).head? = (g ++ [q]).head? by cases g <;> rfl)
  obtain rfl := List.append_cancel_right hy
  obtain ⟨gap, parts, hrun, hus⟩ := run_quoted call hq hbody' hg []
  refine ⟨.node .part .string (.leaf .part .mark [] [q] :: (parts ++ [.leaf .part .mark gap [q]])),
    ?_, by rw [literalValue_of_parts, hus]⟩
  have htext : q :: (x ++ (g ++ [q])) ++ rest = q :: (x ++ (g ++ q :: rest)) := by simp
  have heither : (Form.either (quoted '"') (quoted '\'')).run call ⟨[], q :: (x ++ (g ++ q :: rest))⟩ =
      some ⟨.leaf .part .mark gap [q] :: (parts.reverse ++ [.leaf .part .mark [] [q]]), rest⟩ := by
    rcases hq with rfl | rfl
    · rw [Form.run, hrun]
    · have hnone : (quoted '"').run call ⟨[], '\'' :: (x ++ (g ++ '\'' :: rest))⟩ = none := by
        cases hcase : (quoted '"').run call ⟨[], '\'' :: (x ++ (g ++ '\'' :: rest))⟩ with
        | none => rfl
        | some p =>
          obtain ⟨m, hm, -⟩ := Option.bind_eq_some_iff.1 hcase
          obtain ⟨gap, -, hgap⟩ := of_run_quote (.inl rfl) hm
          rw [readGap_quote (.inr rfl)] at hgap
          simp at hgap
      rw [Form.run, hnone, hrun]
  rw [htext, stringLiteral, Form.run, heither]
  simp

/-- Such a text is a literal with the same value when its escapes are restored. -/
theorem isLiteral_normalized {q : Char} (hq : IsQuote q) {x g : Text} {us : List Units.CodeUnit}
    (hbody : Body q (x ++ (g ++ [q])) us (g ++ [q])) (hg : Gaps q g) :
    IsLiteral (Text.normalizeEscapes (q :: (x ++ (g ++ [q])))) (Units.decodeLossy us) := by
  have hhead : ∀ d, (g ++ [q]).head? = some d → d ≠ '\\' := fun d hd => (hg.head hq hd).1
  have hrest : Escape.normalized false (g ++ [q]) = Escape.normalized false g ++ [q] :=
    Escape.normalized_barrier hq.ne_backslash hq.not_isInner false g []
  have hnorm := hbody.normalized hq fun h => hhead '\\' h rfl
  rw [hrest] at hnorm
  obtain ⟨hgaps, hsame⟩ := hg.normalized hq
  obtain ⟨y, hy, -⟩ := hnorm.replace_rest (fun h => hhead '\\' (hsame ▸ h) rfl) rfl
  have hquote : Text.normalizeEscapes (q :: (x ++ (g ++ [q]))) =
      q :: Escape.normalized false (x ++ (g ++ [q])) :=
    Escape.normalized_barrier hq.ne_backslash hq.not_isInner false [] _
  rw [hy] at hnorm
  rw [hquote, hy]
  exact isLiteral_of_body hq hnorm hgaps

end Phrasebook.Script
