import Phrasebook.Script.Edit

/-!
Edits of a text, taken as a whole.

Ordering edits neither loses nor adds one (`order_perm`), and edits of pairwise different ranges have
only one order (`order_eq_of_perm`), so it does not matter in which order a walk finds them.

Applying edits never makes a text poorer: if every edit puts more characters of some sort in than it
takes out, and there is an edit at all, the result holds more of them (`countP_lt_apply`). An edit
that starts inside an earlier one is dropped, so this is a statement about the edits that are left; the
first one always is. Nor does a character appear that stood neither in the text nor in an edit
(`mem_apply`).
-/

namespace Phrasebook.Edit

/-! ## The order -/

/-- The strict order of ranges: by start, then by stop. -/
def Precedes (a b : Edit) : Prop := a.start < b.start ∨ (a.start = b.start ∧ a.stop < b.stop)

theorem before_iff (a b : Edit) :
    a.before b = true ↔ a.start < b.start ∨ (a.start = b.start ∧ a.stop ≤ b.stop) := by
  simp [before]

theorem before_trans {a b c : Edit} (hab : a.before b) (hbc : b.before c) : a.before c := by
  rw [before_iff] at *
  omega

theorem before_of_not_before {a b : Edit} (h : ¬ a.before b) : b.before a := by
  rw [before_iff] at *
  omega

theorem insertOrdered_perm (e : Edit) (es : List Edit) : (insertOrdered e es).Perm (e :: es) := by
  induction es with
  | nil => exact List.Perm.refl _
  | cons d ds ih =>
    unfold insertOrdered
    split
    · exact List.Perm.refl _
    · exact (ih.cons d).trans (List.Perm.swap e d ds)

/-- Ordering neither loses nor adds an edit. -/
theorem order_perm (es : List Edit) : (order es).Perm es := by
  induction es with
  | nil => exact List.Perm.refl _
  | cons e es ih => exact (insertOrdered_perm e (order es)).trans (ih.cons e)

theorem pairwise_insertOrdered {e : Edit} {es : List Edit}
    (h : es.Pairwise fun a b => a.before b = true) :
    (insertOrdered e es).Pairwise fun a b => a.before b = true := by
  induction es with
  | nil => exact List.pairwise_singleton _ e
  | cons d ds ih =>
    obtain ⟨hd, hds⟩ := List.pairwise_cons.1 h
    unfold insertOrdered
    split
    · next hed =>
      refine List.pairwise_cons.2 ⟨?_, h⟩
      intro f hf
      rcases List.mem_cons.1 hf with rfl | hf
      · exact hed
      · exact before_trans hed (hd f hf)
    · next hed =>
      refine List.pairwise_cons.2 ⟨?_, ih hds⟩
      intro f hf
      rcases List.mem_cons.1 ((insertOrdered_perm e ds).mem_iff.1 hf) with rfl | hf
      · exact before_of_not_before hed
      · exact hd f hf

theorem pairwise_order (es : List Edit) : (order es).Pairwise fun a b => a.before b = true := by
  induction es with
  | nil => exact List.Pairwise.nil
  | cons e es ih => exact pairwise_insertOrdered ih

/-- Edits of different ranges have only one order. -/
theorem order_eq_of_perm {es fs : List Edit} (h : es.Perm fs) (hs : fs.Pairwise Precedes) :
    order es = fs := by
  have hp : (order es).Perm fs := (order_perm es).trans h
  have hf : fs.Pairwise fun a b => a.before b = true := by
    refine hs.imp ?_
    intro a b hab
    rw [before_iff]
    unfold Precedes at hab
    omega
  -- two edits of the list that come before each other are the same one
  have hanti : ∀ ⦃a⦄, a ∈ fs → ∀ ⦃b⦄, b ∈ fs → a.before b = true → b.before a = true → a = b := by
    refine List.Pairwise.forall_of_forall_of_flip (fun _ _ _ _ => rfl) (hs.imp ?_) (hs.imp ?_)
    · intro a b hab _ hba
      rw [before_iff] at hba
      unfold Precedes at hab
      omega
    · intro a b hab hba _
      rw [before_iff] at hba
      unfold Precedes at hab
      omega
  refine hp.eq_of_pairwise ?_ (pairwise_order es) hf
  intro a b ha hb hab hba
  exact hanti (hp.mem_iff.1 ha) hb hab hba

/-! ## Characters -/

theorem mem_applyOrdered {c : Char} {es : List Edit} {position : Nat} {rest : Text}
    (h : c ∈ applyOrdered position rest es) : c ∈ rest ∨ ∃ e ∈ es, c ∈ e.replacement := by
  induction es generalizing position rest with
  | nil => exact .inl h
  | cons e es ih =>
    -- what stands in the text behind an edit stands in the text itself
    have hlater : ∀ {position : Nat} {rest' : Text}, c ∈ applyOrdered position rest' es →
        rest' ⊆ rest → c ∈ rest ∨ ∃ f ∈ e :: es, c ∈ f.replacement := by
      intro position rest' h hsub
      rcases ih h with hc | ⟨f, hf, hc⟩
      · exact .inl (hsub hc)
      · exact .inr ⟨f, List.mem_cons_of_mem e hf, hc⟩
    rw [applyOrdered] at h
    split at h
    · exact hlater h (List.Subset.refl rest)
    · rcases List.mem_append.1 h with h | h
      · rcases List.mem_append.1 h with h | h
        · exact .inl (List.mem_of_mem_take h)
        · exact .inr ⟨e, List.mem_cons_self .., h⟩
      · exact hlater h (List.drop_subset _ _)

/-- A character of the result stood in the text or comes from an edit. -/
theorem mem_apply {c : Char} {source : Text} {es : List Edit} (h : c ∈ apply source es) :
    c ∈ source ∨ ∃ e ∈ es, c ∈ e.replacement := by
  rcases mem_applyOrdered h with hc | ⟨e, he, hc⟩
  · exact .inl hc
  · exact .inr ⟨e, (order_perm es).mem_iff.1 he, hc⟩

/-! ## Growth -/

/-- The part of a text that an edit takes out. -/
def covered (source : Text) (e : Edit) : Text := (source.drop e.start).take (e.stop - e.start)

/-- An edit puts more characters that satisfy `p` in than it takes out. -/
def Grows (p : Char → Bool) (source : Text) (e : Edit) : Prop :=
  e.start ≤ e.stop ∧ (e.covered source).countP p < e.replacement.countP p

/-- The text from a position on is the part before an edit, what the edit takes out, and the rest. -/
theorem drop_eq_append_covered (source : Text) {position : Nat} {e : Edit}
    (hp : position ≤ e.start) (he : e.start ≤ e.stop) :
    source.drop position =
      (source.drop position).take (e.start - position) ++ (e.covered source ++ source.drop e.stop) := by
  have hstart : (source.drop position).drop (e.start - position) = source.drop e.start := by
    rw [List.drop_drop]
    congr 1
    omega
  have hstop : (source.drop e.start).drop (e.stop - e.start) = source.drop e.stop := by
    rw [List.drop_drop]
    congr 1
    omega
  rw [covered, ← hstop, List.take_append_drop, ← hstart, List.take_append_drop]

/-- One step of the application: an edit that is not dropped. -/
theorem applyOrdered_cons_of_le (source : Text) {position : Nat} {e : Edit} (es : List Edit)
    (hp : position ≤ e.start) (he : e.start ≤ e.stop) :
    applyOrdered position (source.drop position) (e :: es) =
      (source.drop position).take (e.start - position) ++ e.replacement ++
        applyOrdered e.stop (source.drop e.stop) es := by
  have hstop : (source.drop position).drop (e.stop - position) = source.drop e.stop := by
    rw [List.drop_drop]
    congr 1
    omega
  rw [applyOrdered, if_neg (by omega), hstop]

theorem countP_le_applyOrdered {p : Char → Bool} {source : Text} {es : List Edit}
    (h : ∀ e ∈ es, e.Grows p source) (position : Nat) :
    (source.drop position).countP p ≤
      (applyOrdered position (source.drop position) es).countP p := by
  induction es generalizing position with
  | nil => exact Nat.le_refl _
  | cons e es ih =>
    obtain ⟨he, hgrows⟩ := h e (List.mem_cons_self ..)
    have htail := ih fun f hf => h f (List.mem_cons_of_mem e hf)
    by_cases hp : position ≤ e.start
    · rw [applyOrdered_cons_of_le source es hp he, List.countP_append, List.countP_append]
      have hsplit := congrArg (List.countP p) (drop_eq_append_covered source hp he)
      rw [List.countP_append, List.countP_append] at hsplit
      have hrest := htail e.stop
      omega
    · rw [applyOrdered, if_pos (by omega)]
      exact htail position

/-- Edits that put more in than they take out make the text richer, since the first is applied. -/
theorem countP_lt_apply {p : Char → Bool} {source : Text} {es : List Edit} (hne : es ≠ [])
    (h : ∀ e ∈ es, e.Grows p source) : source.countP p < (apply source es).countP p := by
  have horder : ∀ e ∈ order es, e.Grows p source := fun e he => h e ((order_perm es).mem_iff.1 he)
  have hone : order es ≠ [] := by
    intro hnil
    have hl := (order_perm es).length_eq
    rw [hnil] at hl
    exact hne (List.length_eq_zero_iff.1 hl.symm)
  obtain ⟨e, rest, he⟩ := List.exists_cons_of_ne_nil hone
  rw [he] at horder
  obtain ⟨hstop, hgrows⟩ := horder e (List.mem_cons_self ..)
  have hsplit := congrArg (List.countP p)
    (drop_eq_append_covered source (Nat.zero_le e.start) hstop)
  have hrest := countP_le_applyOrdered (fun f hf => horder f (List.mem_cons_of_mem e hf)) e.stop
  have happly := congrArg (List.countP p)
    (applyOrdered_cons_of_le source rest (Nat.zero_le e.start) hstop)
  simp only [List.countP_append, List.drop_zero] at hsplit happly
  rw [apply, he]
  omega

end Phrasebook.Edit
