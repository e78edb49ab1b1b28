import Phrasebook.Template.Segment

/-!
Localizing the texts of templates, without spans, runs, positions and fuel. A text starts in one of four
ways, and each has its equation:

* `localizeText_nil`: nothing is left;
* `localizeText_code`: an interpolation, whose code is localized as an expression;
* `localizeText_char`: any other character that is not Han, which is copied;
* `localizeText_run`: a run of Han characters up to the next character that is not Han, which becomes
  an interpolation.

Together they cover every text (`text_induction`), so the statements about localized texts never look
at how the spans are found.
-/

namespace Phrasebook

namespace Localized

theorem eq_of {a b : Localized} (ho : a.output = b.output) (hf : a.found = b.found) : a = b := by
  cases a
  cases b
  simp_all

@[simp] theorem output_plain (t : Text) : (plain t).output = t := rfl

@[simp] theorem found_plain (t : Text) : (plain t).found = [] := rfl

theorem append_assoc (a b c : Localized) : a ++ b ++ c = a ++ (b ++ c) :=
  eq_of (by simp) (by simp)

theorem plain_nil_append (a : Localized) : plain [] ++ a = a := eq_of (by simp) (by simp)

theorem append_plain_nil (a : Localized) : a ++ plain [] = a := eq_of (by simp) (by simp)

theorem plain_append (s t : Text) : plain (s ++ t) = plain s ++ plain t :=
  eq_of (by simp) (by simp)

end Localized

namespace Template

/-! ## Interpolations -/

/-- The spelling of an interpolation. -/
def braced (inner : Text) : Text := '{' :: '{' :: inner ++ ['}', '}']

theorem interpolation?_eq_some_iff {t inner rest : Text} :
    interpolation? t = some (inner, rest) ↔ '}' ∉ inner ∧ t = braced inner ++ rest := by
  have hspan : ∀ s : Text, s.takeWhile (· != '}') ++ s.dropWhile (· != '}') = s :=
    fun s => List.takeWhile_append_dropWhile
  constructor
  · intro h
    unfold interpolation? at h
    split at h
    · next s =>
      split at h
      · next rest' hd =>
        cases h
        refine ⟨?_, ?_⟩
        · intro hm
          have := List.all_eq_true.1 List.all_takeWhile _ hm
          simp at this
        · have := hspan s
          rw [hd] at this
          simp [braced, this]
      · cases h
    · cases h
  · rintro ⟨hn, rfl⟩
    have hin : ∀ c ∈ inner, (c != '}') = true := by
      intro c hc
      simp only [bne_iff_ne]
      rintro rfl
      exact hn hc
    have htake : (inner ++ '}' :: '}' :: rest).takeWhile (· != '}') = inner := by
      rw [List.takeWhile_append_of_pos hin]
      simp
    have hdrop : (inner ++ '}' :: '}' :: rest).dropWhile (· != '}') = '}' :: '}' :: rest := by
      rw [List.dropWhile_append_of_pos hin]
      simp
    have hb : braced inner ++ rest = '{' :: '{' :: (inner ++ '}' :: '}' :: rest) := by
      simp [braced]
    rw [hb]
    simp only [interpolation?, hdrop, htake]

theorem interpolation?_cons_of_ne {c : Char} (h : c ≠ '{') (t : Text) :
    interpolation? (c :: t) = none := by
  rw [Option.eq_none_iff_forall_ne_some]
  rintro ⟨inner, rest⟩ hi
  obtain ⟨-, ht⟩ := interpolation?_eq_some_iff.1 hi
  exact h (List.cons.inj ht).1

/-! ## Spans -/

theorem spansFuel_congr {fuel more : Nat} {t : Text} (hf : t.length ≤ fuel) (hm : t.length ≤ more) :
    spansFuel more t = spansFuel fuel t := by
  induction fuel generalizing more t with
  | zero =>
    obtain rfl : t = [] := List.length_eq_zero_iff.1 (Nat.le_zero.1 hf)
    cases more <;> rfl
  | succ fuel ih =>
    cases t with
    | nil => cases more <;> rfl
    | cons c t =>
      obtain ⟨more, rfl⟩ : ∃ m, more = m + 1 := ⟨more - 1, by simp at hm; omega⟩
      simp only [List.length_cons, Nat.add_le_add_iff_right] at hf hm
      rw [spansFuel, spansFuel]
      split
      · next inner rest hi =>
        have hlen : rest.length ≤ t.length := by
          have := congrArg List.length (interpolation?_eq_some_iff.1 hi).2
          simp [braced] at this
          omega
        rw [ih (by omega) (by omega)]
      · rw [ih hf hm]

theorem spans_code {inner : Text} (h : '}' ∉ inner) (rest : Text) :
    spans (braced inner ++ rest) = .code inner :: spans rest := by
  have hi : interpolation? (braced inner ++ rest) = some (inner, rest) :=
    interpolation?_eq_some_iff.2 ⟨h, rfl⟩
  have hcons : braced inner ++ rest = '{' :: ('{' :: inner ++ ['}', '}'] ++ rest) := by
    simp [braced]
  unfold spans
  rw [hcons] at hi ⊢
  rw [List.length_cons, spansFuel, hi]
  dsimp only
  rw [spansFuel_congr (Nat.le_refl _)]
  simp only [List.length_append, List.length_cons]
  omega

theorem spans_char {c : Char} {t : Text} (h : interpolation? (c :: t) = none) :
    spans (c :: t) = pushLiteral c (spans t) := by
  unfold spans
  rw [List.length_cons, spansFuel, h]

/-! ## Literal spans -/

/-- What becomes of a run of characters of one class. -/
def localizeRun (b : Bindings) (r : Text.Run) : Localized :=
  if r.1 = .han then ⟨b.interpolation r.2, [r.2]⟩ else .plain r.2

theorem splitAtByte_append (s t : Text) : Text.splitAtByte s.byteSize (s ++ t) = (s, t) := by
  induction s with
  | nil =>
    cases t with
    | nil => rfl
    | cons c t =>
      have hc : ¬ c.utf8Size ≤ 0 := by
        have := c.utf8Size_pos
        omega
      rw [List.nil_append, Text.byteSize_nil, Text.splitAtByte, if_neg hc]
  | cons c s ih =>
    rw [List.cons_append, Text.byteSize_cons, Text.splitAtByte, if_pos (Nat.le_add_right _ _),
      Nat.add_sub_cancel_left, ih]

/-- One segment: what stands before it is copied and its run of Han characters looked up. -/
theorem localizeSegments_cons (b : Bindings) {offset position : Nat} {before leading : Text}
    (t w rest : Text) (segments : List Text.Segment)
    (ho : offset = position + before.byteSize + leading.byteSize) :
    localizeSegments b position (before ++ leading ++ (t ++ (w ++ rest)))
        (⟨leading, t, w, offset - leading.byteSize⟩ :: segments) =
      .plain (before ++ leading) ++ (⟨b.interpolation t, [t]⟩ ++ (.plain w ++
        localizeSegments b (offset + t.byteSize + w.byteSize) rest segments)) := by
  have hstop : Text.Segment.stop ⟨leading, t, w, offset - leading.byteSize⟩ =
      offset + t.byteSize + w.byteSize := by
    simp only [Text.Segment.stop, Text.Segment.whole, Text.byteSize_append]
    omega
  have hcut : offset - leading.byteSize - position = before.byteSize := by omega
  have htext : before ++ leading ++ (t ++ (w ++ rest)) = before ++ (leading ++ t ++ w ++ rest) := by
    simp only [List.append_assoc]
  rw [localizeSegments, hstop, hcut, htext, splitAtByte_append]
  dsimp only
  rw [Text.Segment.whole, splitAtByte_append]
  exact Localized.eq_of (by simp) (by simp)

/-- The segments of a row of runs localize it run by run. `before` and `leading` are the part of the
text between the last segment and the row. -/
theorem localizeSegments_segmentsOfRuns (b : Bindings) (offset position : Nat) (before leading : Text)
    (rs : List Text.Run) (ho : offset = position + before.byteSize + leading.byteSize) :
    localizeSegments b position (before ++ leading ++ (rs.map Prod.snd).flatten)
        (Text.segmentsOfRuns offset leading rs) =
      .plain (before ++ leading) ++ .concat (rs.map (localizeRun b)) := by
  induction offset, leading, rs using Text.segmentsOfRuns.induct generalizing position before with
  | case1 offset leading =>
    rw [Text.segmentsOfRuns, localizeSegments]
    exact Localized.eq_of (by simp [Localized.concat]) (by simp [Localized.concat])
  | case2 offset leading w rest ih =>
    have h := ih position (before ++ leading) (by rw [Text.byteSize_append]; omega)
    rw [Text.segmentsOfRuns, List.map_cons, List.flatten_cons, ← List.append_assoc, h]
    rw [Localized.plain_append, Localized.append_assoc]
    rfl
  | case3 offset leading w rest ih =>
    have h := ih position (before ++ leading ++ w)
      (by simp only [Text.byteSize_append, Text.byteSize_nil]; omega)
    rw [List.append_nil] at h
    rw [Text.segmentsOfRuns, List.map_cons, List.flatten_cons, ← List.append_assoc, h]
    rw [Localized.plain_append, Localized.append_assoc]
    rfl
  | case4 offset leading t w rest ih =>
    have h := ih (offset + t.byteSize + w.byteSize) [] rfl
    rw [List.append_nil, List.nil_append, Localized.plain_nil_append] at h
    rw [Text.segmentsOfRuns]
    simp only [List.map_cons, List.flatten_cons]
    rw [localizeSegments_cons b _ _ _ _ ho, h]
    rfl
  | case5 offset leading t rest hn ih =>
    have h := ih (offset + t.byteSize) [] rfl
    rw [List.append_nil, List.nil_append, Localized.plain_nil_append] at h
    have hcons := localizeSegments_cons b t [] (rest.map Prod.snd).flatten
      (Text.segmentsOfRuns (offset + t.byteSize) [] rest) ho
    rw [Text.byteSize_nil, Nat.add_zero, h, List.nil_append, Localized.plain_nil_append] at hcons
    rw [Text.segmentsOfRuns]
    · exact hcons
    · exact hn

/-- A literal span is localized run by run. -/
theorem localizeLiteral_eq_concat (b : Bindings) (t : Text) :
    localizeLiteral b t = .concat (t.runs.map (localizeRun b)) := by
  have h := localizeSegments_segmentsOfRuns b 0 0 [] [] t.runs rfl
  rw [Text.flatten_runs, List.nil_append, List.nil_append, Localized.plain_nil_append] at h
  exact h

theorem charClass_eq_han_iff {c : Char} : Text.charClass c = .han ↔ isHan c = true := by
  unfold Text.charClass
  split
  · next h => simp [h]
  · next h =>
    split <;> simp [h]

theorem localizeLiteral_char (b : Bindings) {c : Char} (hc : isHan c = false) (t : Text) :
    localizeLiteral b (c :: t) = .plain [c] ++ localizeLiteral b t := by
  have hclass : Text.charClass c ≠ .han := by
    rw [Ne, charClass_eq_han_iff, hc]
    exact Bool.false_ne_true
  rw [localizeLiteral_eq_concat, localizeLiteral_eq_concat, Text.runs]
  cases hr : t.runs with
  | nil => simp [Text.pushRun, localizeRun, hclass, Localized.concat]
  | cons r more =>
    obtain ⟨k, w⟩ := r
    by_cases hk : k = Text.charClass c
    · subst hk
      rw [Text.pushRun, if_pos rfl, List.map_cons, List.map_cons, Localized.concat, Localized.concat,
        localizeRun, localizeRun, if_neg hclass, if_neg hclass, ← Localized.append_assoc]
      rfl
    · rw [Text.pushRun, if_neg hk, List.map_cons, Localized.concat, localizeRun, if_neg hclass]

/-- A run of Han characters is one run when no Han character follows it. -/
theorem runs_append {w t : Text} (hne : w ≠ []) (hw : ∀ c ∈ w, isHan c = true)
    (ht : t.head?.any isHan = false) : Text.runs (w ++ t) = (.han, w) :: Text.runs t := by
  induction w with
  | nil => exact absurd rfl hne
  | cons c w ih =>
    have hc : Text.charClass c = .han := charClass_eq_han_iff.2 (hw c (List.mem_cons_self ..))
    rw [List.cons_append, Text.runs]
    cases w with
    | nil =>
      -- the run before which `c` is put, if there is one, is not of its class
      rw [List.nil_append]
      cases t with
      | nil => simp [Text.runs, Text.pushRun, hc]
      | cons d t =>
        have hd : isHan d = false := ht
        have hclass : Text.charClass d ≠ .han := by
          rw [Ne, charClass_eq_han_iff, hd]
          exact Bool.false_ne_true
        obtain ⟨x, more, hruns⟩ : ∃ x more, Text.runs (d :: t) = (Text.charClass d, x) :: more := by
          rw [Text.runs]
          cases Text.runs t with
          | nil => exact ⟨_, _, rfl⟩
          | cons r more =>
            obtain ⟨k, x⟩ := r
            rw [Text.pushRun]
            split
            · next hk => exact ⟨_, _, by rw [hk]⟩
            · exact ⟨_, _, rfl⟩
        rw [hruns, Text.pushRun, hc, if_neg hclass]
    | cons d w =>
      rw [ih (by simp) (fun e he => hw e (List.mem_cons_of_mem _ he)), Text.pushRun, if_pos hc.symm]

theorem localizeLiteral_run (b : Bindings) {w t : Text} (hne : w ≠ [])
    (hw : ∀ c ∈ w, isHan c = true) (ht : t.head?.any isHan = false) :
    localizeLiteral b (w ++ t) = ⟨b.interpolation w, [w]⟩ ++ localizeLiteral b t := by
  rw [localizeLiteral_eq_concat, localizeLiteral_eq_concat, runs_append hne hw ht]
  rfl

/-! ## The four equations -/

theorem localizeText_nil (b : Bindings) : localizeText b [] = .plain [] := rfl

theorem localizeText_code (b : Bindings) {inner : Text} (h : '}' ∉ inner) (rest : Text) :
    localizeText b (braced inner ++ rest) = localizeSpan b (.code inner) ++ localizeText b rest := by
  unfold localizeText
  rw [spans_code h]
  rfl

theorem localizeText_char (b : Bindings) {c : Char} {t : Text} (hc : isHan c = false)
    (hi : interpolation? (c :: t) = none) :
    localizeText b (c :: t) = .plain [c] ++ localizeText b t := by
  have hsingle : localizeLiteral b [c] = .plain [c] := by
    rw [localizeLiteral_char b hc]
    exact Localized.append_plain_nil _
  unfold localizeText
  rw [spans_char hi]
  cases spans t with
  | nil => exact congrArg (· ++ _) hsingle
  | cons s rest =>
    cases s with
    | code inner => exact congrArg (· ++ _) hsingle
    | literal l =>
      show localizeLiteral b (c :: l) ++ _ = .plain [c] ++ (localizeLiteral b l ++ _)
      rw [localizeLiteral_char b hc, Localized.append_assoc]

/-- A run of Han characters joins the literal span behind it, or is one by itself. -/
theorem spans_run {w : Text} (hne : w ≠ []) (hw : ∀ c ∈ w, isHan c = true) (t : Text) :
    (∃ l rest, spans t = .literal l :: rest ∧ spans (w ++ t) = .literal (w ++ l) :: rest) ∨
      spans (w ++ t) = .literal w :: spans t := by
  induction w with
  | nil => exact absurd rfl hne
  | cons c w ih =>
    have hc : c ≠ '{' := by
      rintro rfl
      exact absurd (hw '{' (List.mem_cons_self ..)) (by decide)
    rw [List.cons_append, spans_char (interpolation?_cons_of_ne hc _)]
    cases w with
    | nil =>
      rw [List.nil_append]
      cases spans t with
      | nil => exact .inr rfl
      | cons s rest =>
        cases s with
        | literal l => exact .inl ⟨l, rest, rfl, rfl⟩
        | code inner => exact .inr rfl
    | cons d w =>
      rcases ih (by simp) fun e he => hw e (List.mem_cons_of_mem _ he) with ⟨l, rest, ht, hs⟩ | hs
      · exact .inl ⟨l, rest, ht, by rw [hs]; rfl⟩
      · exact .inr (by rw [hs]; rfl)

/-- A literal span at the start of a text starts with its first character. -/
theorem head?_of_spans_eq_literal {t l : Text} {rest : List Span}
    (h : spans t = .literal l :: rest) : l.head? = t.head? := by
  cases t with
  | nil => cases h
  | cons c t =>
    cases hi : interpolation? (c :: t) with
    | some p =>
      obtain ⟨inner, after⟩ := p
      obtain ⟨hn, ht⟩ := interpolation?_eq_some_iff.1 hi
      rw [ht, spans_code hn] at h
      cases h
    | none =>
      rw [spans_char hi] at h
      unfold pushLiteral at h
      split at h
      · cases h
        rfl
      · cases h
        rfl

theorem localizeText_run (b : Bindings) {w t : Text} (hne : w ≠ []) (hw : ∀ c ∈ w, isHan c = true)
    (ht : t.head?.any isHan = false) :
    localizeText b (w ++ t) = ⟨b.interpolation w, [w]⟩ ++ localizeText b t := by
  have hsingle : localizeLiteral b w = ⟨b.interpolation w, [w]⟩ := by
    have h := localizeLiteral_run b hne hw (t := []) rfl
    rw [List.append_nil] at h
    rw [h]
    exact Localized.append_plain_nil _
  unfold localizeText
  rcases spans_run hne hw t with ⟨l, rest, hl, hs⟩ | hs
  · have hhead : l.head?.any isHan = false := by
      rw [head?_of_spans_eq_literal hl]
      exact ht
    rw [hs, hl]
    show localizeLiteral b (w ++ l) ++ _ = _ ++ (localizeLiteral b l ++ _)
    rw [localizeLiteral_run b hne hw hhead, Localized.append_assoc]
  · rw [hs]
    exact congrArg (· ++ _) hsingle

section

variable (b : Bindings)

theorem output_code {inner : Text} (h : '}' ∉ inner) (rest : Text) :
    (localizeText b (braced inner ++ rest)).output =
      '{' :: '{' :: ((Script.localizeExpression b inner).output ++
        '}' :: '}' :: (localizeText b rest).output) := by
  rw [localizeText_code b h, localizeSpan]
  simp

theorem output_char {c : Char} {t : Text} (hc : isHan c = false)
    (hi : interpolation? (c :: t) = none) :
    (localizeText b (c :: t)).output = c :: (localizeText b t).output := by
  rw [localizeText_char b hc hi]
  rfl

theorem output_run {w t : Text} (hne : w ≠ []) (hw : ∀ c ∈ w, isHan c = true)
    (ht : t.head?.any isHan = false) :
    (localizeText b (w ++ t)).output = b.interpolation w ++ (localizeText b t).output := by
  rw [localizeText_run b hne hw ht]
  rfl

end

/-- Every text is covered by the four equations. -/
theorem text_induction {motive : Text → Prop} (nil : motive [])
    (code : ∀ inner t, '}' ∉ inner → motive t → motive (braced inner ++ t))
    (char : ∀ c t, isHan c = false → interpolation? (c :: t) = none → motive t → motive (c :: t))
    (run : ∀ w t, w ≠ [] → (∀ c ∈ w, isHan c = true) → t.head?.any isHan = false → motive t →
      motive (w ++ t)) (t : Text) : motive t := by
  -- each step takes at least one character
  induction hn : t.length using Nat.strongRecOn generalizing t with
  | ind n ih =>
    subst hn
    cases t with
    | nil => exact nil
    | cons c t =>
      cases hi : interpolation? (c :: t) with
      | some p =>
        obtain ⟨inner, rest⟩ := p
        obtain ⟨hb, ht⟩ := interpolation?_eq_some_iff.1 hi
        have hlen := congrArg List.length ht
        simp only [braced, List.length_append, List.length_cons] at hlen
        rw [ht]
        exact code inner rest hb (ih rest.length (by rw [List.length_cons]; omega) rest rfl)
      | none =>
        by_cases hc : isHan c = true
        · have hsplit : (c :: t).takeWhile isHan ++ (c :: t).dropWhile isHan = c :: t :=
            List.takeWhile_append_dropWhile
          have htake : (c :: t).takeWhile isHan = c :: t.takeWhile isHan :=
            List.takeWhile_cons_of_pos hc
          have hhead : ((c :: t).dropWhile isHan).head?.any isHan = false := by
            have := List.head?_dropWhile_not isHan (c :: t)
            cases hd : ((c :: t).dropWhile isHan).head? with
            | none => rfl
            | some d =>
              rw [hd] at this
              simpa using this
          have hlen := congrArg List.length hsplit
          rw [htake, List.length_append, List.length_cons] at hlen
          rw [← hsplit]
          refine run _ _ (by rw [htake]; simp) ?_ hhead (ih _ (by omega) _ rfl)
          intro d hd
          exact List.all_eq_true.1 List.all_takeWhile d hd
        · exact char c t (by simpa using hc) hi (ih t.length (by simp) t rfl)

end Template

end Phrasebook
