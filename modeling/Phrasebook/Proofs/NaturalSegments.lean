import Mathlib.Data.List.SplitBy
import Phrasebook.Proofs.DictionaryContents

/-!
The natural segments of a text against a plain scan of its characters. The scan cuts a text wherever a
Han character stands next to one that is not (`hanPieces`), and knows nothing of white space, of
positions and of the segment before.

* The segments of a text lie in it one behind the other, each where it says (`laid_segments`).
* Their runs of Han characters are those that the scan finds (`map_text_segments`).
* A literal span is localized piece by piece of the scan (`localizeLiteral_eq_scan`).
-/

namespace Phrasebook

namespace Text

/-! ## The plain scan -/

/-- A text cut wherever a Han character stands next to one that is not Han. -/
def hanPieces (t : Text) : List Text := t.splitBy fun c d => isHan c == isHan d

/-- The maximal runs of Han characters, in order. -/
def hanRuns (t : Text) : List Text := (hanPieces t).filter fun w => w.any isHan

/-- A block of a text: characters that are all Han, or all not, up to one of the other kind. -/
structure Block (han : Bool) (w t : Text) : Prop where
  ne_nil : w ≠ []
  same : ∀ c ∈ w, isHan c = han
  ends : ∀ d ∈ t.head?, isHan d ≠ han

theorem Block.any_isHan {han : Bool} {w t : Text} (h : Block han w t) : w.any isHan = han := by
  obtain ⟨c, w, rfl⟩ := List.exists_cons_of_ne_nil h.ne_nil
  have hc := h.same c (List.mem_cons_self ..)
  cases han with
  | true => simp [hc]
  | false =>
    rw [List.any_eq_false]
    intro d hd
    rw [h.same d hd]
    exact Bool.false_ne_true

theorem Block.hanPieces {han : Bool} {w t : Text} (h : Block han w t) :
    hanPieces (w ++ t) = w :: hanPieces t := by
  unfold Text.hanPieces
  have hchain : w.IsChain fun c d => (isHan c == isHan d) = true := by
    apply List.Pairwise.isChain
    apply List.pairwise_of_forall_mem_list
    intro c hc d hd
    rw [h.same c hc, h.same d hd]
    exact beq_self_eq_true _
  rw [List.splitBy_append, List.splitBy_of_isChain h.ne_nil hchain, List.singleton_append]
  intro c hc d hd
  rw [h.same c (List.mem_of_mem_getLast? hc)]
  exact beq_false_of_ne fun he => h.ends d hd he.symm

/-- Every text is a row of blocks. -/
theorem block_induction {motive : Text → Prop} (nil : motive [])
    (block : ∀ han w t, Block han w t → motive t → motive (w ++ t)) (t : Text) : motive t := by
  -- each block takes at least one character
  induction hn : t.length using Nat.strongRecOn generalizing t with
  | ind n ih =>
    subst hn
    cases t with
    | nil => exact nil
    | cons c t =>
      have hsplit := List.takeWhile_append_dropWhile (p := fun d => isHan d == isHan c) (l := c :: t)
      have hblock : Block (isHan c) ((c :: t).takeWhile fun d => isHan d == isHan c)
          ((c :: t).dropWhile fun d => isHan d == isHan c) := by
        refine ⟨?_, ?_, ?_⟩
        · rw [List.takeWhile_cons_of_pos (by simp)]
          simp
        · exact fun d hd => beq_iff_eq.1 (List.all_eq_true.1 List.all_takeWhile d hd)
        · intro d hd
          have hhead := List.head?_dropWhile_not (fun d => isHan d == isHan c) (c :: t)
          rw [Option.mem_def.1 hd] at hhead
          simpa using hhead
      have hlen := congrArg List.length hsplit
      have hpos := List.length_pos_iff.2 hblock.ne_nil
      rw [List.length_append] at hlen
      rw [← hsplit]
      exact block _ _ _ hblock (ih _ (by omega) _ rfl)

theorem hanRuns_eq_nil_iff {t : Text} : hanRuns t = [] ↔ isNatural t = false := by
  have hflat : (hanPieces t).flatten = t := List.flatten_splitBy _ t
  unfold hanRuns isNatural
  rw [List.filter_eq_nil_iff, ← hflat, List.any_flatten, List.any_eq_false, hflat]

/-! ## Where segments lie -/

/-- Segments of a text whose first byte has the number `offset`: one behind the other, each at the
place that it names, with white space around its run. -/
inductive Laid : Nat → Text → List Segment → Prop
  | nil {offset : Nat} {t : Text} : Laid offset t []
  | cons {offset : Nat} {before after : Text} {s : Segment} {rest : List Segment}
      (hs : s.start = offset + before.byteSize) (hl : ∀ c ∈ s.leading, isBlank c = true)
      (ht : ∀ c ∈ s.trailing, isBlank c = true) (hr : Laid s.stop after rest) :
      Laid offset (before ++ s.whole ++ after) (s :: rest)

theorem Laid.append {offset start : Nat} {before t : Text} {ss : List Segment}
    (h : Laid start t ss) (hs : start = offset + before.byteSize) : Laid offset (before ++ t) ss := by
  cases h with
  | nil => exact .nil
  | @cons _ more after s rest hstart hl ht hr =>
    have htext : before ++ (more ++ s.whole ++ after) = before ++ more ++ s.whole ++ after := by
      simp only [List.append_assoc]
    rw [htext]
    refine .cons ?_ hl ht hr
    rw [hstart, hs, byteSize_append]
    omega

/-- A segment in front of those of the rest. -/
theorem Laid.segment {offset : Nat} {leading t w rest : Text} {ss : List Segment}
    (ho : leading.byteSize ≤ offset) (hl : ∀ c ∈ leading, isBlank c = true)
    (hw : ∀ c ∈ w, isBlank c = true) (h : Laid (offset + t.byteSize + w.byteSize) rest ss) :
    Laid (offset - leading.byteSize) (leading ++ (t ++ (w ++ rest)))
      (⟨leading, t, w, offset - leading.byteSize⟩ :: ss) := by
  have hstop : Segment.stop ⟨leading, t, w, offset - leading.byteSize⟩ =
      offset + t.byteSize + w.byteSize := by
    simp only [Segment.stop, Segment.whole, byteSize_append]
    omega
  have htext : leading ++ (t ++ (w ++ rest)) =
      [] ++ Segment.whole ⟨leading, t, w, offset - leading.byteSize⟩ ++ rest := by
    simp only [Segment.whole, List.nil_append, List.append_assoc]
  rw [htext]
  refine .cons rfl hl hw ?_
  rw [hstop]
  exact h

theorem Laid.pairwise {offset : Nat} {t : Text} {ss : List Segment} (h : Laid offset t ss) :
    (∀ s ∈ ss, offset ≤ s.start) ∧ ss.Pairwise fun s s' => s.stop ≤ s'.start := by
  induction h with
  | nil => exact ⟨by simp, .nil⟩
  | @cons offset before after s rest hs _ _ _ ih =>
    obtain ⟨hlater, hpair⟩ := ih
    refine ⟨?_, List.pairwise_cons.2 ⟨hlater, hpair⟩⟩
    intro s' hs'
    rcases List.mem_cons.1 hs' with rfl | hs'
    · omega
    · have hstop : s.start ≤ s.stop := Nat.le_add_right _ _
      have := hlater s' hs'
      omega

theorem Laid.of_mem {offset : Nat} {t : Text} {ss : List Segment} (h : Laid offset t ss)
    {s : Segment} (hs : s ∈ ss) :
    (∃ before after, t = before ++ s.whole ++ after ∧ s.start = offset + before.byteSize) ∧
      ∀ c ∈ s.leading ++ s.trailing, isBlank c = true := by
  induction h with
  | nil => cases hs
  | @cons offset before after first rest hstart hl ht _ ih =>
    rcases List.mem_cons.1 hs with rfl | hs
    · refine ⟨⟨before, after, rfl, hstart⟩, ?_⟩
      intro c hc
      rcases List.mem_append.1 hc with hc | hc
      · exact hl c hc
      · exact ht c hc
    · obtain ⟨⟨more, after, rfl, hbytes⟩, hblank⟩ := ih hs
      refine ⟨⟨before ++ first.whole ++ more, after, by simp only [List.append_assoc], ?_⟩, hblank⟩
      rw [hbytes, Segment.stop, hstart]
      simp only [byteSize_append]
      omega

/-- The segments of a row of runs, and the white space before it. -/
theorem laid_segmentsOfRuns (offset : Nat) (leading : Text) (rs : List Run)
    (ho : leading.byteSize ≤ offset) (hl : ∀ c ∈ leading, isBlank c = true)
    (hrs : ∀ r ∈ rs, ∀ c ∈ r.2, charClass c = r.1) :
    Laid (offset - leading.byteSize) (leading ++ (rs.map Prod.snd).flatten)
      (segmentsOfRuns offset leading rs) := by
  have hblank : ∀ {w : Text}, (∀ c ∈ w, charClass c = .blank) → ∀ c ∈ w, isBlank c = true := by
    intro w hw c hc
    have hclass := hw c hc
    unfold charClass at hclass
    split at hclass
    · cases hclass
    · split at hclass
      · next hb => exact hb
      · cases hclass
  induction offset, leading, rs using segmentsOfRuns.induct with
  | case1 offset leading =>
    rw [segmentsOfRuns]
    exact .nil
  | case2 offset leading w rest ih =>
    have h := ih (Nat.le_add_left _ _) (hblank (hrs _ (List.mem_cons_self ..)))
      fun r hr => hrs r (List.mem_cons_of_mem _ hr)
    rw [segmentsOfRuns]
    exact h.append (by omega)
  | case3 offset leading w rest ih =>
    have h := ih (Nat.zero_le _) (by simp) fun r hr => hrs r (List.mem_cons_of_mem _ hr)
    rw [segmentsOfRuns, List.map_cons, List.flatten_cons, ← List.append_assoc]
    refine h.append ?_
    simp only [byteSize_append, byteSize_nil]
    omega
  | case4 offset leading t w rest ih =>
    have h := ih (Nat.zero_le _) (by simp)
      fun r hr => hrs r (List.mem_cons_of_mem _ (List.mem_cons_of_mem _ hr))
    rw [segmentsOfRuns]
    exact h.segment ho hl (hblank (hrs (.blank, w) (by simp)))
  | case5 offset leading t rest hn ih =>
    have h := ih (Nat.zero_le _) (by simp) fun r hr => hrs r (List.mem_cons_of_mem _ hr)
    rw [segmentsOfRuns]
    · exact Laid.segment ho hl (w := []) (by simp) h
    · exact hn

theorem laid_segments (t : Text) : Laid 0 t (segments t) := by
  have h := laid_segmentsOfRuns 0 [] (runs t) (Nat.le_refl _) (by simp)
    fun r hr => (of_mem_runs hr).2
  rw [flatten_runs] at h
  exact h

end Text

namespace Template

/-! ## Localizing a literal span -/

theorem found_localizeSegments (b : Bindings) (position : Nat) (rest : Text)
    (ss : List Text.Segment) : (localizeSegments b position rest ss).found = ss.map Text.Segment.text := by
  induction ss generalizing position rest with
  | nil => rfl
  | cons s ss ih => exact congrArg (s.text :: ·) (ih ..)

/-- What becomes of a piece of the scan. -/
def localizePiece (b : Bindings) (w : Text) : Text := if w.any isHan then b.interpolation w else w

theorem localizeLiteral_block (b : Bindings) {han : Bool} {w t : Text} (h : Text.Block han w t) :
    localizeLiteral b (w ++ t) =
      ⟨localizePiece b w, if han then [w] else []⟩ ++ localizeLiteral b t := by
  unfold localizePiece
  rw [h.any_isHan]
  cases han with
  | true =>
    have ht : t.head?.any isHan = false := by
      have hends := h.ends
      cases hd : t.head? with
      | none => rfl
      | some d =>
        rw [hd] at hends
        simpa using hends d rfl
    exact localizeLiteral_run b h.ne_nil h.same ht
  | false =>
    have hplain : ∀ w : Text, (∀ c ∈ w, isHan c = false) →
        localizeLiteral b (w ++ t) = .plain w ++ localizeLiteral b t := by
      intro w hw
      induction w with
      | nil => exact (Localized.plain_nil_append _).symm
      | cons c w ih =>
        rw [List.cons_append, localizeLiteral_char b (hw c (List.mem_cons_self ..)),
          ih fun d hd => hw d (List.mem_cons_of_mem _ hd), ← Localized.append_assoc]
        rfl
    exact hplain w h.same

/-- A literal span is localized piece by piece of the plain scan. -/
theorem localizeLiteral_eq_scan (b : Bindings) (t : Text) :
    localizeLiteral b t = ⟨(Text.hanPieces t).flatMap (localizePiece b), Text.hanRuns t⟩ := by
  induction t using Text.block_induction with
  | nil => rfl
  | block han w t h ih =>
    rw [localizeLiteral_block b h, ih]
    unfold Text.hanRuns
    rw [h.hanPieces, List.flatMap_cons, List.filter_cons, h.any_isHan]
    refine Localized.eq_of rfl ?_
    cases han <;> rfl

theorem map_text_segments (t : Text) : t.segments.map Text.Segment.text = Text.hanRuns t := by
  have h := congrArg Localized.found (localizeLiteral_eq_scan {} t)
  rw [localizeLiteral, found_localizeSegments] at h
  exact h

/-- **Segments are what a plain scan finds.** -/
theorem segments_eq_scan (t : Text) :
    t.segments.map Text.Segment.text = Text.hanRuns t ∧
      (t.segments.Pairwise fun s s' => s.stop ≤ s'.start) ∧
      (∀ s ∈ t.segments, (∃ before after, t = before ++ s.whole ++ after ∧
          s.start = Text.byteSize before) ∧ ∀ c ∈ s.leading ++ s.trailing, isBlank c = true) ∧
      (t.segments = [] ↔ t.isNatural = false) ∧
      ∀ b, localizeLiteral b t =
        ⟨(Text.hanPieces t).flatMap fun w => if w.any isHan then b.interpolation w else w,
          Text.hanRuns t⟩ := by
  have hlaid := Text.laid_segments t
  refine ⟨map_text_segments t, hlaid.pairwise.2, ?_, ?_, fun b => localizeLiteral_eq_scan b t⟩
  · intro s hs
    have h := hlaid.of_mem hs
    simp only [Nat.zero_add] at h
    exact h
  · rw [← Text.hanRuns_eq_nil_iff, ← map_text_segments, List.map_eq_nil_iff]

end Template

end Phrasebook
