import Phrasebook.Proofs.LiteralBodies
import Phrasebook.Proofs.TemplateTraces

/-!
Which runs of escapes are restored, and what restoring adds to a text.

A text with backslashes has a reading of its own, from left to right: a backslash takes the character
behind it along, unless the two start a unicode escape (`tokens`). So an escape is genuine when its
backslash is not taken by another one, and one expects that the maximal runs of genuine escapes are
restored (`restoreGenuine`). Restoring looks at a row of escapes as a whole instead: it asks whether the
backslash of the first one is escaped, and then leaves all of them. The escapes behind the first are
genuine all the same:

    text       \\u4F60\u597D        t.normalizeEscapes   \\u4F60\u597D
    tokens     \\ u 4 F 6 0 \u597D  restoreGenuine t     \\u4F60好

This is the only difference (`genuine_runs_restored_iff`). What restoring adds are natural
characters, in the place of a run that spells them (`exists_parts`), so it never adds a character that
ends a literal or starts an escape, and doing it twice changes nothing more.
-/

namespace Phrasebook

/-! ## What a run spells -/

namespace Units

theorem decode?_encode (t : Text) : decode? (encode t) = some t := by
  have hdecode : decode (encode t) = t.map some := by
    have h := decode_encode_append t []
    rwa [List.append_nil, decode, List.append_nil] at h
  have hall : ∀ t : Text, (t.map some).mapM id = some t := by
    intro t
    induction t with
    | nil => rfl
    | cons c t ih => simp [List.mapM_cons, ih]
  rw [decode?, hdecode, hall]

end Units

namespace Escape

/-- A run of escapes spells a text when its code units are those of the text. -/
def Spells (run : List Escape) (w : Text) : Prop :=
  ∃ uss, run.mapM units? = some uss ∧ uss.flatten = Units.encode w

/-- Only code units come out of an escape. -/
theorem units_lt_of_mapM {run : List Escape} (hw : RunWellFormed run)
    {uss : List (List Units.CodeUnit)} (h : run.mapM units? = some uss) :
    ∀ u : Nat, u ∈ uss.flatten → u < 0x10000 := by
  induction run generalizing uss with
  | nil =>
    cases h
    intro u hu
    cases hu
  | cons e run ih =>
    rw [List.mapM_cons] at h
    obtain ⟨us, hus, h⟩ := Option.bind_eq_some_iff.1 h
    obtain ⟨uss', huss', h⟩ := Option.bind_eq_some_iff.1 h
    cases h
    obtain ⟨he, hrun⟩ := List.forall_mem_cons.1 hw
    intro u hu
    rw [List.flatten_cons, List.mem_append] at hu
    rcases hu with hu | hu
    · exact Script.units?_lt he hus hu
    · exact ih hrun huss' u hu

theorem decodeRun?_eq_some_iff {run : List Escape} (hw : RunWellFormed run) {w : Text} :
    decodeRun? run = some w ↔ Spells run w := by
  constructor
  · intro h
    obtain ⟨uss, huss, hd⟩ := Option.bind_eq_some_iff.1 h
    exact ⟨uss, huss, (Units.encode_of_decode? (units_lt_of_mapM hw huss) hd).symm⟩
  · rintro ⟨uss, huss, he⟩
    refine Option.bind_eq_some_iff.2 ⟨uss, huss, ?_⟩
    rw [he, Units.decode?_encode]

/-- A run that spells natural characters becomes them. -/
theorem restoreRun_of_spells {run : List Escape} (hw : RunWellFormed run) {w : Text}
    (h : Spells run w) (hn : w.allNaturalChars = true) : restoreRun run = w := by
  simp [restoreRun, (decodeRun?_eq_some_iff hw).2 h, hn]

/-- Every other run stays, and no run stays that spells natural characters. -/
theorem restoreRun_eq_runText_iff {run : List Escape} (hw : RunWellFormed run) :
    restoreRun run = runText run ↔ ∀ w, Spells run w → w.allNaturalChars = false := by
  constructor
  · intro h w hs
    rw [← Bool.not_eq_true]
    intro hn
    rw [restoreRun_of_spells hw hs hn] at h
    -- a text that is not empty and made of natural characters holds no backslash
    have hne : run ≠ [] := by
      rintro rfl
      rw [h] at hn
      cases hn
    obtain ⟨inner, hi⟩ := runText_eq_cons hw hne
    rw [h, hi] at hn
    cases hn
  · intro h
    unfold restoreRun
    cases hd : decodeRun? run with
    | none => rfl
    | some w => simp [h w ((decodeRun?_eq_some_iff hw).1 hd)]

theorem restoreRun_nil : restoreRun [] = [] := rfl

/-! ## Tokens -/

/-- A part of a text with backslashes. -/
inductive Token where
  /-- A backslash and the character that it escapes. -/
  | pair (c : Char)
  /-- A unicode escape. -/
  | escape (e : Escape)
  /-- Any other character. -/
  | char (c : Char)
  deriving DecidableEq, Repr

/-- How a token is written. -/
def Token.text : Token → Text
  | .pair c => ['\\', c]
  | .escape e => e.text
  | .char c => [c]

/-- The tokens of a text, from left to right. -/
def tokens (t : Text) : List Token :=
  match _h : read? t with
  | some (e, rest) => .escape e :: tokens rest
  | none =>
    match t with
    | [] => []
    | '\\' :: c :: rest => .pair c :: tokens rest
    | c :: rest => .char c :: tokens rest
termination_by t.length
decreasing_by
  · exact length_lt_of_read? _h
  · simp only [List.length_cons]
    omega
  · simp

/-- Writes tokens down; `run` are the escapes directly before them. A maximal run of escapes becomes the
natural characters that it spells, and everything else stays. -/
def restoreTokens (run : List Escape) : List Token → Text
  | [] => restoreRun run
  | .escape e :: ts => restoreTokens (run ++ [e]) ts
  | .pair c :: ts => restoreRun run ++ '\\' :: c :: restoreTokens [] ts
  | .char c :: ts => restoreRun run ++ c :: restoreTokens [] ts

/-- Restores the maximal runs of genuine escapes of a text. -/
def restoreGenuine (t : Text) : Text := restoreTokens [] (tokens t)

theorem tokens_runText_append {run : List Escape} (hw : RunWellFormed run) (rest : Text) :
    tokens (runText run ++ rest) = run.map .escape ++ tokens rest := by
  induction run with
  | nil => rfl
  | cons e run ih =>
    obtain ⟨he, hrun⟩ := List.forall_mem_cons.1 hw
    have ht : runText (e :: run) ++ rest = e.text ++ (runText run ++ rest) := by simp [runText]
    rw [ht, tokens]
    split
    · next e' rest' hr =>
      rw [read?_text_append he] at hr
      cases hr
      rw [ih hrun, List.map_cons, List.cons_append]
    · next hr =>
      rw [read?_text_append he] at hr
      cases hr

theorem tokens_char {c : Char} (h : c ≠ '\\') (t : Text) : tokens (c :: t) = .char c :: tokens t := by
  rw [tokens]
  split
  · next hr =>
    rw [read?_cons_of_ne h] at hr
    cases hr
  · split
    · next ht _ => cases ht
    · next ht _ => exact absurd (List.cons.inj ht).1 h
    · next ht _ =>
      obtain ⟨rfl, rfl⟩ := List.cons.inj ht
      rfl

theorem tokens_pair {c : Char} {t : Text} (h : read? ('\\' :: c :: t) = none) :
    tokens ('\\' :: c :: t) = .pair c :: tokens t := by
  rw [tokens]
  split
  · next hr =>
    rw [h] at hr
    cases hr
  · rfl

theorem head?_tokens {t : Text} (h : read? t = none) (e : Escape) :
    (tokens t).head? ≠ some (.escape e) := by
  rw [tokens]
  split
  · next hr =>
    rw [h] at hr
    cases hr
  · split <;> simp

/-- The tokens of a text put together are the text. -/
theorem flatMap_text_tokens (t : Text) : (tokens t).flatMap Token.text = t := by
  induction t using tokens.induct with
  | case1 t e rest hr ih =>
    obtain ⟨hw, rfl⟩ := of_read? hr
    have hrun : RunWellFormed [e] := by simpa [RunWellFormed] using hw
    have h := tokens_runText_append hrun rest
    rw [runText, List.flatMap_singleton] at h
    rw [h, List.map_singleton, List.singleton_append, List.flatMap_cons, ih]
    rfl
  | case2 h => decide +kernel
  | case3 c rest h ih =>
    rw [tokens_pair h, List.flatMap_cons, ih]
    rfl
  | case4 c rest h hn ih =>
    by_cases hc : c = '\\'
    · subst hc
      cases rest with
      | nil => decide +kernel
      | cons d rest => exact (hn d rest h HEq.rfl rfl rfl).elim
    · rw [tokens_char hc, List.flatMap_cons, ih]
      rfl

theorem restoreTokens_escapes (run run' : List Escape) (ts : List Token) :
    restoreTokens run (run'.map .escape ++ ts) = restoreTokens (run ++ run') ts := by
  induction run' generalizing run with
  | nil => rw [List.map_nil, List.nil_append, List.append_nil]
  | cons e run' ih =>
    rw [List.map_cons, List.cons_append, restoreTokens, ih, List.append_assoc, List.singleton_append]

/-- A run ends where no escape follows. -/
theorem restoreTokens_of_head {ts : List Token} (h : ∀ e, ts.head? ≠ some (.escape e))
    (run : List Escape) : restoreTokens run ts = restoreRun run ++ restoreTokens [] ts := by
  cases ts with
  | nil => rw [restoreTokens, restoreTokens, restoreRun_nil, List.append_nil]
  | cons k ts =>
    cases k with
    | escape e => exact absurd rfl (h e)
    | pair c => rw [restoreTokens, restoreTokens, restoreRun_nil, List.nil_append]
    | char c => rw [restoreTokens, restoreTokens, restoreRun_nil, List.nil_append]

/-! ## Genuine escapes -/

theorem restoreGenuine_run {run : List Escape} (hw : RunWellFormed run) {rest : Text}
    (hn : read? rest = none) :
    restoreGenuine (runText run ++ rest) = restoreRun run ++ restoreGenuine rest := by
  rw [restoreGenuine, tokens_runText_append hw, restoreTokens_escapes, List.nil_append]
  exact restoreTokens_of_head (head?_tokens hn) run

theorem restoreGenuine_char {c : Char} (h : c ≠ '\\') (t : Text) :
    restoreGenuine (c :: t) = c :: restoreGenuine t := by
  rw [restoreGenuine, tokens_char h]
  rfl

theorem restoreGenuine_append {w : Text} (hw : ∀ c ∈ w, c ≠ '\\') (t : Text) :
    restoreGenuine (w ++ t) = w ++ restoreGenuine t := by
  induction w with
  | nil => rfl
  | cons c w ih =>
    obtain ⟨hc, hw⟩ := List.forall_mem_cons.1 hw
    rw [List.cons_append, restoreGenuine_char hc, ih hw, List.cons_append]

/-- Restores the genuine escapes of a text that stands behind an odd number of backslashes or not: its
first character may be escaped. -/
def restoreGenuineFrom : Bool → Text → Text
  | true, c :: t => c :: restoreGenuine t
  | _, t => restoreGenuine t

theorem restoreGenuineFrom_char {c : Char} {t : Text} (h : read? (c :: t) = none) (odd : Bool) :
    restoreGenuineFrom odd (c :: t) = c :: restoreGenuineFrom (c == '\\' && !odd) t := by
  cases odd with
  | true =>
    rw [Bool.not_true, Bool.and_false]
    rfl
  | false =>
    by_cases hc : c = '\\'
    · subst hc
      cases t with
      | nil => decide +kernel
      | cons d t =>
        show restoreTokens [] (tokens ('\\' :: d :: t)) = _
        rw [tokens_pair h]
        rfl
    · have hf : (c == '\\' && !false) = false := by simp [hc]
      rw [hf]
      exact restoreGenuine_char hc t

/-- An escape is a backslash and other characters, at least one. -/
theorem text_eq_cons_cons {e : Escape} (h : e.WellFormed) :
    ∃ inner, e.text = '\\' :: inner ∧ inner ≠ [] ∧ ∀ c ∈ inner, c ≠ '\\' := by
  obtain ⟨inner, hi, hinner⟩ := text_eq_cons h
  refine ⟨inner, hi, ?_, ?_⟩
  · rintro rfl
    cases e <;> cases hi
  · rintro c hc rfl
    exact absurd (hinner _ hc) (by decide)

/-- Behind an odd number of backslashes the first escape of a run is none, and the others are. -/
theorem restoreGenuineFrom_run {e : Escape} {run : List Escape} (hw : RunWellFormed (e :: run))
    {rest : Text} (hn : read? rest = none) :
    restoreGenuineFrom true (runText (e :: run) ++ rest) =
      e.text ++ (restoreRun run ++ restoreGenuine rest) := by
  obtain ⟨he, hrun⟩ := List.forall_mem_cons.1 hw
  obtain ⟨inner, hi, -, hplain⟩ := text_eq_cons_cons he
  have ht : runText (e :: run) ++ rest = '\\' :: (inner ++ (runText run ++ rest)) := by
    simp [runText, hi]
  rw [ht, restoreGenuineFrom, restoreGenuine_append hplain, restoreGenuine_run hrun hn, hi,
    List.cons_append]

/-! ## Shadowed runs -/

/-- Whether an odd number of backslashes ends a text, if `odd` says so of what stands before it. -/
def oddBackslashes (odd : Bool) (t : Text) : Bool := t.foldl (fun odd c => c == '\\' && !odd) odd

/-- A run of escapes directly behind one whose backslash is escaped, up to the end of the row. -/
def Shadowed (odd : Bool) (t : Text) (run : List Escape) : Prop :=
  ∃ before e rest, t = before ++ (runText (e :: run) ++ rest) ∧ RunWellFormed (e :: run) ∧
    read? rest = none ∧ oddBackslashes odd before = true

theorem oddBackslashes_append (odd : Bool) (s t : Text) :
    oddBackslashes odd (s ++ t) = oddBackslashes (oddBackslashes odd s) t := List.foldl_append

theorem oddBackslashes_of_forall_ne {t : Text} (hne : t ≠ []) (h : ∀ c ∈ t, c ≠ '\\') (odd : Bool) :
    oddBackslashes odd t = false := by
  induction t generalizing odd with
  | nil => exact absurd rfl hne
  | cons c t ih =>
    obtain ⟨hc, ht⟩ := List.forall_mem_cons.1 h
    have hf : (c == '\\' && !odd) = false := by simp [hc]
    show oddBackslashes (c == '\\' && !odd) t = false
    rw [hf]
    by_cases hnil : t = []
    · rw [hnil]
      rfl
    · exact ih hnil ht false

/-- Where an escape of a run ends, no backslash ends; so all escapes of a run but the first have a
backslash that is not escaped. -/
theorem oddBackslashes_of_runText {run : List Escape} (hw : RunWellFormed run) {before after : Text}
    (hne : before ≠ []) (h : runText run = before ++ after) (hafter : ∀ c ∈ after.head?, c = '\\')
    (odd : Bool) : oddBackslashes odd before = false := by
  induction run generalizing before odd with
  | nil => exact absurd (List.append_eq_nil_iff.1 h.symm).1 hne
  | cons e run ih =>
    obtain ⟨he, hrun⟩ := List.forall_mem_cons.1 hw
    obtain ⟨inner, hi, hinner, hplain⟩ := text_eq_cons_cons he
    have hone : ∀ odd, oddBackslashes odd e.text = false := by
      intro odd
      rw [hi]
      exact oddBackslashes_of_forall_ne hinner hplain _
    have ht : e.text ++ runText run = before ++ after := by
      rw [← h]
      simp [runText]
    rcases List.append_eq_append_iff.1 ht with ⟨x, hx, hrest⟩ | ⟨x, hx, hrest⟩
    · rw [hx, oddBackslashes_append, hone]
      by_cases hnil : x = []
      · rw [hnil]
        rfl
      · exact ih hrun hnil hrest false
    · -- the text breaks off inside of the escape, before a character that is no backslash
      cases x with
      | nil =>
        rw [List.append_nil] at hx
        rw [← hx]
        exact hone odd
      | cons d x =>
        rw [hrest] at hafter
        obtain rfl : d = '\\' := hafter d rfl
        obtain ⟨a, before, rfl⟩ := List.exists_cons_of_ne_nil hne
        rw [hi, List.cons_append, List.cons.injEq] at hx
        exact absurd rfl (hplain '\\' (hx.2 ▸ by simp))

theorem not_shadowed_nil (odd : Bool) (run : List Escape) : ¬ Shadowed odd [] run := by
  rintro ⟨before, e, rest, ht, hw, -, -⟩
  obtain ⟨inner, hi⟩ := runText_eq_cons hw (List.cons_ne_nil e run)
  rw [hi] at ht
  simp at ht

theorem shadowed_char {c : Char} {t : Text} (h : read? (c :: t) = none) (odd : Bool)
    (run : List Escape) :
    Shadowed odd (c :: t) run ↔ Shadowed (c == '\\' && !odd) t run := by
  constructor
  · rintro ⟨before, e, rest, ht, hw, hn, ho⟩
    cases before with
    | nil =>
      have hr : read? (c :: t) = some (e, runText run ++ rest) := by
        rw [ht, ← read?_text_append (hw e List.mem_cons_self)]
        simp [runText]
      rw [h] at hr
      cases hr
    | cons d before =>
      rw [List.cons_append, List.cons.injEq] at ht
      obtain ⟨rfl, ht'⟩ := ht
      exact ⟨before, e, rest, ht', hw, hn, ho⟩
  · rintro ⟨before, e, rest, rfl, hw, hn, ho⟩
    exact ⟨c :: before, e, rest, rfl, hw, hn, ho⟩

theorem shadowed_run {run : List Escape} (hw : RunWellFormed run) (hne : run ≠ []) {rest : Text}
    (hn : read? rest = none) (odd : Bool) (run' : List Escape) :
    Shadowed odd (runText run ++ rest) run' ↔
      (odd = true ∧ ∃ e, run = e :: run') ∨ Shadowed false rest run' := by
  have hend : oddBackslashes odd (runText run) = false := by
    obtain ⟨inner, hi⟩ := runText_eq_cons hw hne
    have htext : runText run ≠ [] := by
      rw [hi]
      exact List.cons_ne_nil _ _
    exact oddBackslashes_of_runText hw htext (List.append_nil _).symm (by simp) odd
  constructor
  · rintro ⟨before, e, rest', ht, hw', hn', ho⟩
    by_cases hb : before = []
    · subst hb
      -- both rows are read up to the same place
      have hread := readRun_runText_append hw hn (Nat.le_refl _)
      have hread' := readRun_runText_append hw' hn' (Nat.le_refl _)
      rw [List.nil_append] at ht
      rw [ht, hread'] at hread
      exact .inl ⟨ho, e, (Prod.mk.inj hread).1.symm⟩
    · right
      rcases List.append_eq_append_iff.1 ht with ⟨x, hx, hrest⟩ | ⟨x, hx, hrest⟩
      · rw [hx, oddBackslashes_append, hend] at ho
        exact ⟨x, e, rest', hrest, hw', hn', ho⟩
      · exfalso
        have hstart : ∀ c ∈ x.head?, c = '\\' := by
          intro c hc
          obtain ⟨inner, hi⟩ := runText_eq_cons hw' (List.cons_ne_nil e run')
          rw [hi] at hrest
          cases x with
          | nil => cases hc
          | cons d x =>
            obtain rfl : d = c := by simpa using hc
            exact (List.cons.inj hrest).1.symm
        rw [oddBackslashes_of_runText hw hb hx hstart] at ho
        cases ho
  · rintro (⟨rfl, e, rfl⟩ | ⟨before, e, rest', rfl, hw', hn', ho⟩)
    · exact ⟨[], e, rest, rfl, hw, hn, rfl⟩
    · refine ⟨runText run ++ before, e, rest', (List.append_assoc ..).symm, hw', hn', ?_⟩
      rw [oddBackslashes_append, hend]
      exact ho

end Escape

/-! ## Restoring and restoring what is genuine -/

/-- Where no part grows, no change in one part makes up for a change in another. -/
theorem SameOrShorter.append_eq_iff {s s' t t' : Text} (h : SameOrShorter s t)
    (h' : SameOrShorter s' t') : s ++ s' = t ++ t' ↔ s = t ∧ s' = t' := by
  constructor
  · intro he
    have hlen := congrArg List.length he
    rw [List.length_append, List.length_append] at hlen
    have hle := h.length_le
    have hle' := h'.length_le
    exact List.append_inj he (by omega)
  · rintro ⟨rfl, rfl⟩
    rfl

namespace Escape

/-- Restoring leaves at least as much of a text as restoring all that is genuine, and it leaves the same
exactly when no shadowed run is one to restore. -/
theorem normalized_eq_restoreGenuineFrom_iff (odd : Bool) (t : Text) :
    SameOrShorter (normalized odd t) (restoreGenuineFrom odd t) ∧
      (normalized odd t = restoreGenuineFrom odd t ↔
        ∀ run, Shadowed odd t run → runText run = restoreRun run) := by
  induction odd, t using normalized_induction with
  | nil odd =>
    have hnil : restoreGenuineFrom odd [] = [] := by cases odd <;> decide +kernel
    refine ⟨.inl hnil, iff_of_true hnil.symm ?_⟩
    intro run hs
    exact absurd hs (not_shadowed_nil odd run)
  | char odd c t hr ih =>
    obtain ⟨hle, hiff⟩ := ih
    rw [normalized_char hr, restoreGenuineFrom_char hr]
    refine ⟨(SameOrShorter.refl [c]).append hle, ?_⟩
    simp only [shadowed_char hr]
    rw [List.cons.injEq, ← hiff]
    simp
  | run odd run rest hw hne hn ih =>
    obtain ⟨hle, hiff⟩ := ih
    have hfrom : ∀ t, restoreGenuineFrom false t = restoreGenuine t := fun _ => rfl
    rw [hfrom] at hle hiff
    rw [normalized_run hw hne hn]
    simp only [shadowed_run hw hne hn]
    cases odd with
    | false =>
      rw [if_neg Bool.false_ne_true, hfrom, restoreGenuine_run hw hn]
      refine ⟨(SameOrShorter.refl _).append hle, ?_⟩
      simp only [Bool.false_eq_true, false_and, false_or]
      rw [← hiff, List.append_cancel_left_eq]
    | true =>
      obtain ⟨e, run, rfl⟩ := List.exists_cons_of_ne_nil hne
      have hrun := (List.forall_mem_cons.1 hw).2
      have htext : runText (e :: run) = e.text ++ runText run := by simp [runText]
      have htail := sameOrShorter_restoreRun hrun
      rw [if_pos rfl, restoreGenuineFrom_run hw hn, htext, List.append_assoc]
      refine ⟨(SameOrShorter.refl _).append (htail.append hle), ?_⟩
      rw [List.append_cancel_left_eq, htail.append_eq_iff hle]
      constructor
      · rintro ⟨hhead, hrest⟩ run' (⟨-, e', he⟩ | hs)
        · obtain ⟨-, rfl⟩ := List.cons.inj he
          exact hhead
        · exact hiff.1 hrest run' hs
      · intro h
        exact ⟨h run (.inl ⟨rfl, e, rfl⟩), hiff.2 fun run' hs => h run' (.inr hs)⟩

/-! ## What restoring adds -/

/-- A text falls apart into parts that are copied and runs of escapes that become the natural characters
which they spell. -/
theorem exists_parts (odd : Bool) (t : Text) :
    ∃ parts : List (Text × Text), (parts.map Prod.fst).flatten = t ∧
      (parts.map Prod.snd).flatten = normalized odd t ∧
      ∀ p ∈ parts, p.2 = p.1 ∨ p.2.allNaturalChars = true ∧
        ∃ run, RunWellFormed run ∧ p.1 = runText run ∧ Spells run p.2 := by
  induction odd, t using normalized_induction with
  | nil odd => exact ⟨[], rfl, rfl, by simp⟩
  | char odd c t hr ih =>
    obtain ⟨parts, hsource, hout, hparts⟩ := ih
    refine ⟨([c], [c]) :: parts, ?_, ?_, ?_⟩
    · rw [List.map_cons, List.flatten_cons, hsource]
      rfl
    · rw [List.map_cons, List.flatten_cons, hout, normalized_char hr]
      rfl
    · exact List.forall_mem_cons.2 ⟨.inl rfl, hparts⟩
  | run odd run rest hw hne hn ih =>
    obtain ⟨parts, hsource, hout, hparts⟩ := ih
    refine ⟨(runText run, if odd then runText run else restoreRun run) :: parts, ?_, ?_, ?_⟩
    · rw [List.map_cons, List.flatten_cons, hsource]
    · rw [List.map_cons, List.flatten_cons, hout, normalized_run hw hne hn]
    · refine List.forall_mem_cons.2 ⟨?_, hparts⟩
      cases odd with
      | true => exact .inl rfl
      | false =>
        by_cases h : restoreRun run = runText run
        · exact .inl h
        · obtain ⟨w, hs, hn⟩ : ∃ w, Spells run w ∧ w.allNaturalChars = true := by
            rw [restoreRun_eq_runText_iff hw] at h
            simpa using h
          have he := restoreRun_of_spells hw hs hn
          right
          show (restoreRun run).allNaturalChars = true ∧ ∃ run', _
          rw [he]
          exact ⟨hn, run, hw, rfl, hs⟩

end Escape

/-! ## Main results -/

namespace Text

open Escape

/-- **Genuine runs.** A run that spells natural characters is restored to them and every other run stays.
Restoring a text restores its maximal runs of genuine escapes and leaves everything else, exactly when no
run that spells natural characters stands directly behind an escape whose backslash is escaped. -/
theorem genuine_runs_restored_iff (t : Text) :
    (tokens t).flatMap Token.text = t ∧
    (∀ run w, RunWellFormed run → Spells run w → w.allNaturalChars = true → restoreRun run = w) ∧
    (∀ run, RunWellFormed run → (∀ w, Spells run w → w.allNaturalChars = false) →
      restoreRun run = runText run) ∧
    (t.normalizeEscapes = restoreGenuine t ↔
      ∀ run w, Shadowed false t run → Spells run w → w.allNaturalChars = false) := by
  refine ⟨flatMap_text_tokens t, fun run w hw hs hn => restoreRun_of_spells hw hs hn,
    fun run hw h => (restoreRun_eq_runText_iff hw).2 h, ?_⟩
  have hwell : ∀ run, Shadowed false t run → RunWellFormed run := by
    rintro run ⟨before, e, rest, -, hw, -, -⟩
    exact (List.forall_mem_cons.1 hw).2
  refine (normalized_eq_restoreGenuineFrom_iff false t).2.trans ?_
  constructor
  · intro h run w hs
    exact (restoreRun_eq_runText_iff (hwell run hs)).1 (h run hs).symm w
  · intro h run hs
    exact ((restoreRun_eq_runText_iff (hwell run hs)).2 fun w => h run w hs).symm

/-- In `\\u4F60\u597D` the second escape is genuine and spells a natural character, and it stays. -/
theorem escape_behind_escaped_backslash_stays : ¬ ∀ t : Text, t.normalizeEscapes = restoreGenuine t := by
  intro h
  have hkept : normalizeEscapes "\\\\u4F60\\u597D".toList = "\\\\u4F60\\u597D".toList := by
    decide +kernel
  have hgenuine : restoreGenuine "\\\\u4F60\\u597D".toList = "\\\\u4F60好".toList := by
    decide +kernel
  have hall := h "\\\\u4F60\\u597D".toList
  rw [hkept, hgenuine] at hall
  exact absurd hall (by decide)

/-- **Restoring is final.** Restoring twice is restoring once. What is added are natural characters in the
place of a run of escapes that spells them, so no other character becomes more frequent; neither an ASCII
character nor a line break is natural. -/
theorem restoring_is_final (t : Text) :
    t.normalizeEscapes.normalizeEscapes = t.normalizeEscapes ∧
    (∃ parts : List (Text × Text), (parts.map Prod.fst).flatten = t ∧
      (parts.map Prod.snd).flatten = t.normalizeEscapes ∧
      ∀ p ∈ parts, p.2 = p.1 ∨ p.2.allNaturalChars = true ∧
        ∃ run, RunWellFormed run ∧ p.1 = runText run ∧ Spells run p.2) ∧
    (∀ c, isNaturalChar c = false → t.normalizeEscapes.count c ≤ t.count c) ∧
    ∀ c : Char, c.toNat < 0x80 ∨ c = '\u2028' ∨ c = '\u2029' → isNaturalChar c = false := by
  refine ⟨normalizeEscapes_normalizeEscapes t, exists_parts false t,
    fun c hc => count_normalized_le hc false t, ?_⟩
  intro c hc
  rw [← Bool.not_eq_true]
  intro hn
  have hle := le_toNat_of_isNaturalChar hn
  rcases hc with hc | rfl | rfl
  · omega
  · exact absurd hle (by decide)
  · exact absurd hle (by decide)

end Text

end Phrasebook
