import Mathlib.Data.List.Perm.Basic
import Phrasebook.Proofs.Edits

/-!
Edits that do not meet. Their ranges may touch, and any number of insertions may share a place.

Such edits, put in order, follow each other (`sequential_order`), so none of them is dropped
(`dropped_eq_nil`), and applying them replaces parts of the text: with every edit labelled by what it
stands for, the text before and the text afterwards are two readings of one row of labels (`weave`,
`flatMap_before_weave`, `flatMap_after_weave`).
-/

namespace Phrasebook.Edit

/-- Two edits whose ranges do not meet. -/
def Apart (e f : Edit) : Prop := e.stop ≤ f.start ∨ f.stop ≤ e.start

theorem Apart.symm {e f : Edit} (h : e.Apart f) : f.Apart e := Or.symm h

/-- An edit of a part of the text between two positions. -/
def Within (start stop : Nat) (e : Edit) : Prop := start ≤ e.start ∧ e.start ≤ e.stop ∧ e.stop ≤ stop

theorem Within.mono {start stop start' stop' : Nat} {e : Edit} (h : e.Within start stop)
    (hstart : start' ≤ start) (hstop : stop ≤ stop') : e.Within start' stop' :=
  ⟨Nat.le_trans hstart h.1, h.2.1, Nat.le_trans h.2.2 hstop⟩

/-- Edits of parts of the text that follow each other do not meet. -/
theorem Within.apart {start middle middle' stop : Nat} {e f : Edit} (he : e.Within start middle)
    (hf : f.Within middle' stop) (h : middle ≤ middle') : e.Apart f :=
  .inl (Nat.le_trans he.2.2 (Nat.le_trans h hf.1))

/-- Edits that follow each other. -/
def Sequential (es : List Edit) : Prop := es.Pairwise fun e f => e.stop ≤ f.start

/-- Edits that do not meet follow each other once they are ordered. -/
theorem sequential_order {es : List Edit} (hrange : ∀ e ∈ es, e.start ≤ e.stop)
    (h : es.Pairwise Apart) : Sequential (order es) := by
  have hapart : (order es).Pairwise Apart :=
    (order_perm es).symm.pairwise h fun hab => hab.symm
  have hboth := (pairwise_order es).and hapart
  refine hboth.imp_of_mem ?_
  rintro a b - hb ⟨hbefore, hab⟩
  have hrb := hrange b ((order_perm es).mem_iff.1 hb)
  rw [before_iff] at hbefore
  -- if the second ends where the first starts, both are insertions in one place
  rcases hab with hab | hba
  · exact hab
  · omega

/-! ## No edit is dropped -/

/-- The edits that an application of ordered edits leaves out. -/
def dropped (position : Nat) : List Edit → List Edit
  | [] => []
  | e :: es => if e.start < position then e :: dropped position es else dropped e.stop es

theorem dropped_eq_nil {es : List Edit} {position : Nat} (hp : ∀ e ∈ es, position ≤ e.start)
    (h : Sequential es) : dropped position es = [] := by
  induction es generalizing position with
  | nil => rfl
  | cons e es ih =>
    have hle : position ≤ e.start := hp e (List.mem_cons_self ..)
    obtain ⟨he, hes⟩ := List.pairwise_cons.1 h
    rw [dropped, if_neg (by omega)]
    exact ih he hes

/-! ## The text before and afterwards -/

section Weave

variable {α : Type} (keep : Text → α)

/-- The labels of edits in order, with the parts of the text between the edits. -/
def weave (source : Text) (position : Nat) : List (Edit × α) → List α
  | [] => [keep (source.drop position)]
  | (e, a) :: es =>
    keep ((source.drop position).take (e.start - position)) :: a :: weave source e.stop es

/-- Apart from the parts between the edits, the row holds the labels of the edits in their order. -/
theorem filterMap_weave {β : Type} {source : Text} {f : α → Option β} (hf : ∀ t, f (keep t) = none)
    (es : List (Edit × α)) (position : Nat) :
    (weave keep source position es).filterMap f = (es.map Prod.snd).filterMap f := by
  induction es generalizing position with
  | nil => simp [weave, hf]
  | cons x es ih => simp [weave, hf, List.filterMap_cons, ih]

variable {keep} {before after : α → Text}

/-- If every label says what its edit takes out, the row spells the text before. -/
theorem flatMap_before_weave (hkeep : ∀ t, before (keep t) = t) {source : Text}
    {es : List (Edit × α)} {position : Nat} (hlabel : ∀ x ∈ es, before x.2 = x.1.covered source)
    (hrange : ∀ x ∈ es, x.1.start ≤ x.1.stop) (hp : ∀ x ∈ es, position ≤ x.1.start)
    (h : Sequential (es.map Prod.fst)) :
    (weave keep source position es).flatMap before = source.drop position := by
  induction es generalizing position with
  | nil => simp [weave, hkeep]
  | cons x es ih =>
    obtain ⟨he, hes⟩ := List.pairwise_cons.1 h
    have hx := List.mem_cons_self (a := x) (l := es)
    have htail : (weave keep source x.1.stop es).flatMap before = source.drop x.1.stop := by
      refine ih (fun y hy => hlabel y (List.mem_cons_of_mem x hy))
        (fun y hy => hrange y (List.mem_cons_of_mem x hy)) ?_ hes
      intro y hy
      exact he y.1 (List.mem_map_of_mem hy)
    rw [weave, List.flatMap_cons, List.flatMap_cons, hkeep, hlabel x hx, htail]
    exact (drop_eq_append_covered source (hp x hx) (hrange x hx)).symm

/-- If every label says what its edit puts in, the row spells the text afterwards. -/
theorem flatMap_after_weave (hkeep : ∀ t, after (keep t) = t) {source : Text}
    {es : List (Edit × α)} {position : Nat} (hlabel : ∀ x ∈ es, after x.2 = x.1.replacement)
    (hrange : ∀ x ∈ es, x.1.start ≤ x.1.stop) (hp : ∀ x ∈ es, position ≤ x.1.start)
    (h : Sequential (es.map Prod.fst)) :
    (weave keep source position es).flatMap after =
      applyOrdered position (source.drop position) (es.map Prod.fst) := by
  induction es generalizing position with
  | nil => simp [weave, hkeep, applyOrdered]
  | cons x es ih =>
    obtain ⟨he, hes⟩ := List.pairwise_cons.1 h
    have hx := List.mem_cons_self (a := x) (l := es)
    have htail : (weave keep source x.1.stop es).flatMap after =
        applyOrdered x.1.stop (source.drop x.1.stop) (es.map Prod.fst) := by
      refine ih (fun y hy => hlabel y (List.mem_cons_of_mem x hy))
        (fun y hy => hrange y (List.mem_cons_of_mem x hy)) ?_ hes
      intro y hy
      exact he y.1 (List.mem_map_of_mem hy)
    rw [weave, List.flatMap_cons, List.flatMap_cons, hkeep, hlabel x hx, htail, List.map_cons,
      applyOrdered_cons_of_le source _ (hp x hx) (hrange x hx), List.append_assoc]

end Weave

/-- A reordering of labelled things can be made along with their labels. -/
theorem exists_perm_map {α β : Type} {f : α → β} {l : List β} {ts : List α} (h : l.Perm (ts.map f)) :
    ∃ us : List α, us.Perm ts ∧ us.map f = l := by
  have h' : Relation.Comp (fun l us => l = List.map f us) List.Perm l ts := by
    rw [List.eq_map_comp_perm]
    exact h
  obtain ⟨us, hl, hp⟩ := h'
  exact ⟨us, hp, hl.symm⟩

/-- Labelled edits can be put in order with their labels. -/
theorem exists_order_labelled {α : Type} (ts : List (Edit × α)) :
    ∃ us : List (Edit × α), us.Perm ts ∧ us.map Prod.fst = order (ts.map Prod.fst) :=
  exists_perm_map (order_perm _)

end Phrasebook.Edit
