import Phrasebook.Proofs.Replacement

/-!
Edits of a text, part by part.

Ordering edits goes through parts of a text one after the other (`order_append`), and an edit may be
listed before or behind edits that start before it (`order_move`). So a text can be edited in parts:
`Rewrites n s es out` says that the edits `es` turn the part `s` of a text, which starts at `n`, into
`out`, and parts that follow each other are put together (`Rewrites.append`), also when the edits of all
parts of one sort are listed first (`Rewrites.interleave`).
-/

namespace Phrasebook.Edit

/-! ## The order of listed edits -/

theorem insertOrdered_append {e : Edit} {fs : List Edit} (h : ∀ f ∈ fs, e.before f = true)
    (es : List Edit) : insertOrdered e (es ++ fs) = insertOrdered e es ++ fs := by
  induction es with
  | nil =>
    cases fs with
    | nil => rfl
    | cons f fs => exact if_pos (h f (List.mem_cons_self ..))
  | cons d ds ih =>
    rw [List.cons_append, insertOrdered, insertOrdered]
    split
    · rfl
    · rw [ih, List.cons_append]

/-- Edits that all come before other edits are ordered on their own. -/
theorem order_append {es fs : List Edit} (h : ∀ e ∈ es, ∀ f ∈ fs, e.before f = true) :
    order (es ++ fs) = order es ++ order fs := by
  induction es with
  | nil => rfl
  | cons e es ih =>
    obtain ⟨he, hes⟩ := List.forall_mem_cons.1 h
    rw [List.cons_append, order, ih hes, order]
    exact insertOrdered_append (fun f hf => he f ((order_perm fs).mem_iff.1 hf)) _

theorem insertOrdered_comm {d e : Edit} (h : d.start < e.start) (es : List Edit) :
    insertOrdered e (insertOrdered d es) = insertOrdered d (insertOrdered e es) := by
  have hde : d.before e = true := (before_iff d e).2 (.inl h)
  have hed : ¬ e.before d = true := by
    rw [before_iff]
    omega
  induction es with
  | nil => simp [insertOrdered, hde, hed]
  | cons f fs ih =>
    by_cases hdf : d.before f = true
    · by_cases hef : e.before f = true
      · simp [insertOrdered, hdf, hef, hde, hed]
      · simp [insertOrdered, hdf, hef, hed]
    · -- what does not come behind the first does not come behind the second either
      have hef : ¬ e.before f = true := fun hef => hdf (before_trans hde hef)
      simp [insertOrdered, hdf, hef, ih]

/-- An edit may be listed behind edits that start before it. -/
theorem order_cons_append {e : Edit} {ds : List Edit} (h : ∀ d ∈ ds, d.start < e.start)
    (es : List Edit) : order (e :: (ds ++ es)) = order (ds ++ e :: es) := by
  induction ds with
  | nil => rfl
  | cons d ds ih =>
    obtain ⟨hd, hds⟩ := List.forall_mem_cons.1 h
    calc order (e :: d :: (ds ++ es))
        = insertOrdered d (order (e :: (ds ++ es))) := insertOrdered_comm hd _
      _ = insertOrdered d (order (ds ++ e :: es)) := by rw [ih hds]

theorem order_append_congr {es fs : List Edit} (h : order es = order fs) (ds : List Edit) :
    order (ds ++ es) = order (ds ++ fs) := by
  induction ds with
  | nil => exact h
  | cons d ds ih => rw [List.cons_append, order, ih, List.cons_append, order]

/-- Edits may be listed behind edits that start before them. -/
theorem order_move {xs ds : List Edit} (h : ∀ d ∈ ds, ∀ x ∈ xs, d.start < x.start)
    (es : List Edit) : order (xs ++ (ds ++ es)) = order (ds ++ (xs ++ es)) := by
  induction xs with
  | nil => rfl
  | cons x xs ih =>
    have hx : ∀ d ∈ ds, d.start < x.start := fun d hd => h d hd x (List.mem_cons_self ..)
    have hxs := ih fun d hd y hy => h d hd y (List.mem_cons_of_mem x hy)
    calc order (x :: (xs ++ (ds ++ es)))
        = order (x :: (ds ++ (xs ++ es))) := order_append_congr hxs [x]
      _ = order (ds ++ x :: (xs ++ es)) := order_cons_append hx _

/-! ## Applying edits to parts -/

/-- A part without edits is kept. -/
theorem applyOrdered_append_of_le {n : Nat} {s s' : Text} {es : List Edit}
    (h : ∀ e ∈ es, n + s.length ≤ e.start ∧ e.start ≤ e.stop) :
    applyOrdered n (s ++ s') es = s ++ applyOrdered (n + s.length) s' es := by
  cases es with
  | nil => rfl
  | cons e es =>
    obtain ⟨hstart, hstop⟩ := h e (List.mem_cons_self ..)
    have hmiddle : e.start - n = s.length + (e.start - (n + s.length)) := by omega
    have hend : e.stop - n = s.length + (e.stop - (n + s.length)) := by omega
    rw [applyOrdered, if_neg (by omega), applyOrdered, if_neg (by omega), hmiddle, hend,
      List.take_length_add_append, List.drop_length_add_append, List.append_assoc, List.append_assoc,
      List.append_assoc]

/-- Edits of two parts that follow each other are applied to each part. -/
theorem applyOrdered_append {n : Nat} {s s' : Text} {es fs : List Edit}
    (hes : ∀ e ∈ es, e.start ≤ e.stop ∧ e.stop ≤ n + s.length)
    (hfs : ∀ f ∈ fs, n + s.length ≤ f.start ∧ f.start ≤ f.stop) :
    applyOrdered n (s ++ s') (es ++ fs) =
      applyOrdered n s es ++ applyOrdered (n + s.length) s' fs := by
  induction es generalizing n s with
  | nil => exact applyOrdered_append_of_le hfs
  | cons e es ih =>
    obtain ⟨⟨hrange, hstop⟩, hrest⟩ := List.forall_mem_cons.1 hes
    rw [List.cons_append, applyOrdered, applyOrdered]
    split
    · exact ih hrest hfs
    · next hle =>
      have hlength : e.stop + (s.drop (e.stop - n)).length = n + s.length := by
        rw [List.length_drop]
        omega
      have hlater := @ih e.stop (s.drop (e.stop - n)) (by rwa [hlength]) (by rwa [hlength])
      rw [List.take_append_of_le_length (by omega), List.drop_append_of_le_length (by omega), hlater,
        hlength]
      simp only [List.append_assoc]

/-- The edits `es` turn the part `s` of a text, which starts at `n`, into `out`. -/
structure Rewrites (n : Nat) (s : Text) (es : List Edit) (out : Text) : Prop where
  within : ∀ e ∈ es, e.Within n (n + s.length)
  result : applyOrdered n s (order es) = out

namespace Rewrites

variable {n : Nat} {s s' out out' : Text} {es es' xs xs' : List Edit}

theorem keep (n : Nat) (s : Text) : Rewrites n s [] s := ⟨nofun, rfl⟩

/-- A part that is replaced as a whole; replacing nothing inserts. -/
theorem replace (n : Nat) (s out : Text) : Rewrites n s [⟨n, n + s.length, out⟩] out := by
  refine ⟨List.forall_mem_singleton.2 ⟨Nat.le_refl _, Nat.le_add_right _ _, Nat.le_refl _⟩, ?_⟩
  simp [order, insertOrdered, applyOrdered]

theorem within_order (h : Rewrites n s es out) : ∀ e ∈ order es, e.Within n (n + s.length) :=
  fun e he => h.within e ((order_perm es).mem_iff.1 he)

theorem append (h : Rewrites n s es out) (h' : Rewrites (n + s.length) s' es' out') :
    Rewrites n (s ++ s') (es ++ es') (out ++ out') := by
  refine ⟨?_, ?_⟩
  · intro e he
    rw [List.length_append]
    rcases List.mem_append.1 he with he | he
    · exact (h.within e he).mono (Nat.le_refl _) (by omega)
    · exact (h'.within e he).mono (Nat.le_add_right _ _) (by omega)
  · have hbefore : ∀ e ∈ es, ∀ f ∈ es', e.before f = true := by
      intro e he f hf
      have hw := h.within e he
      have hw' := h'.within f hf
      unfold Within at hw hw'
      rw [before_iff]
      omega
    rw [order_append hbefore, applyOrdered_append, h.result, h'.result]
    · exact fun e he => (h.within_order e he).2
    · exact fun f hf => ⟨(h'.within_order f hf).1, (h'.within_order f hf).2.1⟩

/-- The order in which edits are listed matters only where it is kept. -/
theorem of_order_eq (h : Rewrites n s es out) (he : order es' = order es) :
    Rewrites n s es' out := by
  refine ⟨?_, he ▸ h.result⟩
  intro e hm
  exact h.within_order e (he ▸ (order_perm es').mem_iff.2 hm)

/-- Two parts, with some edits of both listed before the others. -/
theorem interleave (h : Rewrites n s (xs ++ es) out) (hes : ∀ e ∈ es, e.start < n + s.length)
    (h' : Rewrites (n + s.length) s' (xs' ++ es') out') :
    Rewrites n (s ++ s') (xs ++ xs' ++ (es ++ es')) (out ++ out') := by
  refine (h.append h').of_order_eq ?_
  have hmove : ∀ e ∈ es, ∀ x ∈ xs', e.start < x.start := by
    intro e he x hx
    exact Nat.lt_of_lt_of_le (hes e he) (h'.within x (List.mem_append_left _ hx)).1
  rw [List.append_assoc, List.append_assoc]
  exact order_append_congr (order_move hmove es') xs

/-- A part at the front without edits can be left out. -/
theorem drop_keep (h : Rewrites n (s ++ s') es (s ++ out))
    (hes : ∀ e ∈ es, n + s.length ≤ e.start) : Rewrites (n + s.length) s' es out := by
  have hw : ∀ e ∈ es, e.Within (n + s.length) (n + s.length + s'.length) := by
    intro e he
    have hw := h.within e he
    rw [List.length_append, ← Nat.add_assoc] at hw
    exact ⟨hes e he, hw.2.1, hw.2.2⟩
  refine ⟨hw, ?_⟩
  have hresult := h.result
  rw [applyOrdered_append_of_le] at hresult
  · exact List.append_cancel_left hresult
  · intro e he
    have hw := hw e ((order_perm es).mem_iff.1 he)
    exact ⟨hw.1, hw.2.1⟩

end Rewrites

end Phrasebook.Edit
