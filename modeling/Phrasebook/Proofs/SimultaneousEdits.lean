import Phrasebook.Proofs.Replacement

/-!
Edits of a text, made at once. This is said place by place, without an order of edits: at a place stands
what is inserted there, then what replaces the range that starts there, then the character of the text
itself, unless a range takes it out (`partsAt`).

* A row of parts has two readings, the text before and the text afterwards (`flatMap_before_partsFrom`,
  `flatMap_after_partsFrom`), and it holds every edit once (`edits_partsFrom`). All three follow from what
  the first of some ordered edits adds to the row (`partsFrom_cons`).
* Edits with disjoint ranges make the same row however they are listed (`parts_of_perm`), so applying
  them is the replacement of all ranges at once (`apply_is_simultaneous`).
-/

namespace Phrasebook.Edit

variable {source : Text} {e f : Edit} {es fs : List Edit} {p n : Nat}

/-- Two edits with disjoint ranges. An insertion may stand at either end of the other range, but two
insertions have different places. -/
def Separate (e f : Edit) : Prop := e.Apart f ∧ ¬ (e.start = f.start ∧ e.stop = f.stop)

/-! ## The parts of the outcome -/

/-- A part of a text that is edited: a character that is kept, or a range with an edit. -/
inductive Part where
  | kept (c : Char)
  | put (e : Edit)
  deriving DecidableEq, Repr

/-- What a part was before the edits. -/
def Part.before (source : Text) : Part → Text
  | .kept c => [c]
  | .put e => e.covered source

/-- What a part is afterwards. -/
def Part.after : Part → Text
  | .kept c => [c]
  | .put e => e.replacement

/-- The edit that a part stands for. -/
def Part.edit? : Part → Option Edit
  | .kept _ => none
  | .put e => some e

/-- The insertions at a place. -/
def insertionsAt (es : List Edit) (p : Nat) : List Edit :=
  es.filter fun e => e.start = p ∧ e.stop = p

/-- The replacements of a range that starts at a place. -/
def replacementsAt (es : List Edit) (p : Nat) : List Edit :=
  es.filter fun e => e.start = p ∧ p < e.stop

/-- Whether some edit takes the character at a place out. -/
def takesOut (es : List Edit) (p : Nat) : Bool := es.any fun e => e.start ≤ p ∧ p < e.stop

/-- The character that is kept at a place. -/
def keptAt (source : Text) (es : List Edit) (p : Nat) : Option Char :=
  if takesOut es p then none else source[p]?

/-- The parts at a place. -/
def partsAt (source : Text) (es : List Edit) (p : Nat) : List Part :=
  (insertionsAt es p).map .put ++ (replacementsAt es p).map .put ++
    ((keptAt source es p).map .kept).toList

/-- The parts from a place on. The end of the text is a place as well. -/
def partsFrom (source : Text) (es : List Edit) (n : Nat) : List Part :=
  (List.range' n (source.length + 1 - n)).flatMap (partsAt source es)

/-- The parts of a text with all its edits. -/
def parts (source : Text) (es : List Edit) : List Part := partsFrom source es 0

/-! ## Places before, in and behind an edit -/

/-- Edits that start behind a place are not found by what asks for a start up to it. -/
theorem filter_eq_nil_of_lt {q : Edit → Bool} (hq : ∀ e, q e = true → e.start ≤ p)
    (h : ∀ e ∈ es, p < e.start) : es.filter q = [] :=
  List.filter_eq_nil_iff.2 fun e he hqe => absurd (hq e hqe) (Nat.not_le.2 (h e he))

theorem insertionsAt_eq_nil (h : ∀ e ∈ es, p < e.start) : insertionsAt es p = [] :=
  filter_eq_nil_of_lt (fun _ hq => Nat.le_of_eq (of_decide_eq_true hq).1) h

theorem replacementsAt_eq_nil (h : ∀ e ∈ es, p < e.start) : replacementsAt es p = [] :=
  filter_eq_nil_of_lt (fun _ hq => Nat.le_of_eq (of_decide_eq_true hq).1) h

theorem takesOut_eq_false (h : ∀ e ∈ es, p < e.start) : takesOut es p = false :=
  List.any_eq_false.2 fun e he hq => absurd (of_decide_eq_true hq).1 (Nat.not_le.2 (h e he))

/-- Where no edit has begun, the text is kept. -/
theorem partsAt_of_lt (h : ∀ e ∈ es, p < e.start) :
    partsAt source es p = ((source[p]?).map Part.kept).toList := by
  rw [partsAt, insertionsAt_eq_nil h, replacementsAt_eq_nil h, keptAt, takesOut_eq_false h]
  rfl

/-- An insertion adds itself to what stands at its place. -/
theorem partsAt_cons_insertion (he : e.start = e.stop) :
    partsAt source (e :: es) e.stop = .put e :: partsAt source es e.stop := by
  simp [partsAt, insertionsAt, replacementsAt, keptAt, takesOut, he]

/-- In a range that is replaced nothing stands but, at its start, the edit. -/
theorem partsAt_cons_inside (hp : e.start ≤ p) (hp' : p < e.stop) (hes : ∀ f ∈ es, e.stop ≤ f.start) :
    partsAt source (e :: es) p = if e.start = p then [.put e] else [] := by
  have hlt : ∀ f ∈ es, p < f.start := fun f hf => Nat.lt_of_lt_of_le hp' (hes f hf)
  have hins : insertionsAt (e :: es) p = [] := by
    rw [insertionsAt, List.filter_cons_of_neg (by simp only [decide_eq_true_eq]; omega)]
    exact insertionsAt_eq_nil hlt
  have hrep : replacementsAt (e :: es) p = if e.start = p then [e] else [] := by
    rw [replacementsAt, List.filter_cons, ← replacementsAt, replacementsAt_eq_nil hlt]
    simp [hp']
  have hout : takesOut (e :: es) p = true := by simp [takesOut, hp, hp']
  rw [partsAt, hins, hrep, keptAt, if_pos hout]
  split <;> rfl

/-- Behind an edit it does not matter. -/
theorem partsAt_cons_behind (hp : e.start < p) (hp' : e.stop ≤ p) :
    partsAt source (e :: es) p = partsAt source es p := by
  have hins : insertionsAt (e :: es) p = insertionsAt es p :=
    List.filter_cons_of_neg (by simp only [decide_eq_true_eq]; omega)
  have hrep : replacementsAt (e :: es) p = replacementsAt es p :=
    List.filter_cons_of_neg (by simp only [decide_eq_true_eq]; omega)
  have hout : takesOut (e :: es) p = takesOut es p := by simp [takesOut, Nat.not_lt.2 hp']
  rw [partsAt, hins, hrep, keptAt, hout]
  rfl

/-! ## Runs of places -/

theorem partsFrom_eq_append (k : Nat) (h : n + k ≤ source.length + 1) :
    partsFrom source es n =
      (List.range' n k).flatMap (partsAt source es) ++ partsFrom source es (n + k) := by
  have hlength : source.length + 1 - n = k + (source.length + 1 - (n + k)) := by omega
  rw [partsFrom, partsFrom, hlength, ← List.range'_append_1, List.flatMap_append]

/-- A run of places where no edit has begun. -/
theorem flatMap_partsAt_of_lt (k : Nat) (h : ∀ e ∈ es, n + k ≤ e.start) :
    (List.range' n k).flatMap (partsAt source es) = ((source.drop n).take k).map .kept := by
  induction k generalizing n with
  | zero => rfl
  | succ k ih =>
    have hhere : ∀ e ∈ es, n < e.start := by
      intro e he
      have hle := h e he
      omega
    have hlater : ∀ e ∈ es, n + 1 + k ≤ e.start := by
      intro e he
      have hle := h e he
      omega
    rw [List.range'_succ, List.flatMap_cons, partsAt_of_lt hhere, ih hlater]
    rcases Nat.lt_or_ge n source.length with hn | hn
    · rw [List.getElem?_eq_getElem hn, List.drop_eq_getElem_cons hn]
      rfl
    · rw [List.getElem?_eq_none hn, List.drop_eq_nil_of_le hn,
        List.drop_eq_nil_of_le (Nat.le_succ_of_le hn)]
      simp

theorem partsFrom_nil (n : Nat) : partsFrom source [] n = (source.drop n).map .kept := by
  rw [partsFrom, flatMap_partsAt_of_lt _ (by simp), List.take_of_length_le]
  rw [List.length_drop]
  omega

/-- Behind an edit the row goes on without it. -/
theorem partsFrom_cons_behind (h : e.start < n) (h' : e.stop ≤ n) :
    partsFrom source (e :: es) n = partsFrom source es n := by
  refine List.flatMap_congr fun p hp => ?_
  have hle := (List.mem_range'_1.1 hp).1
  exact partsAt_cons_behind (by omega) (by omega)

/-- Where an edit starts, the row goes on with the edit and with what follows it. -/
theorem partsFrom_cons_start (he : e.start ≤ e.stop) (hstop : e.stop ≤ source.length)
    (hes : ∀ f ∈ es, e.stop ≤ f.start) :
    partsFrom source (e :: es) e.start = .put e :: partsFrom source es e.stop := by
  rcases Nat.eq_or_lt_of_le he with heq | hlt
  · -- an insertion takes nothing out, so what follows it may stand at the same place
    have hplace : ∀ es, partsFrom source es e.stop =
        partsAt source es e.stop ++ partsFrom source es (e.stop + 1) := by
      intro es
      rw [partsFrom_eq_append 1 (by omega), List.range'_one, List.flatMap_singleton]
    rw [heq, hplace, partsAt_cons_insertion heq, partsFrom_cons_behind (by omega) (by omega),
      hplace es, List.cons_append]
  · obtain ⟨k, hk⟩ := Nat.exists_eq_add_of_lt hlt
    have hinside : (List.range' (e.start + 1) k).flatMap (partsAt source (e :: es)) = [] := by
      refine List.flatMap_eq_nil_iff.2 fun p hp => ?_
      obtain ⟨hp, hp'⟩ := List.mem_range'_1.1 hp
      rw [partsAt_cons_inside (by omega) (by omega) hes, if_neg (by omega)]
    have hstart : partsAt source (e :: es) e.start = [.put e] := by
      rw [partsAt_cons_inside (Nat.le_refl _) hlt hes, if_pos rfl]
    rw [partsFrom_eq_append (k + 1) (by omega), List.range'_succ, List.flatMap_cons, hstart, hinside,
      ← Nat.add_assoc, ← hk, partsFrom_cons_behind hlt (Nat.le_refl _)]
    rfl

/-- The first of some ordered edits: the text before it is kept, and the row goes on behind it. -/
theorem partsFrom_cons (he : e.Within n source.length) (hes : ∀ f ∈ es, e.stop ≤ f.start) :
    partsFrom source (e :: es) n =
      ((source.drop n).take (e.start - n)).map .kept ++ .put e :: partsFrom source es e.stop := by
  obtain ⟨hn, hrange, hstop⟩ := he
  have hbefore : ∀ f ∈ e :: es, n + (e.start - n) ≤ f.start := by
    intro f hf
    rcases List.mem_cons.1 hf with rfl | hf
    · omega
    · have hle := hes f hf
      omega
  rw [partsFrom_eq_append (e.start - n) (by omega), flatMap_partsAt_of_lt _ hbefore,
    Nat.add_sub_cancel' hn, partsFrom_cons_start hrange hstop hes]

/-! ## Readings of a row -/

/-- Edits that follow each other are gone through one by one, each from where the last one stops. -/
theorem sequential_induction {motive : Nat → List Edit → Prop} (nil : ∀ n, motive n [])
    (cons : ∀ n e es, e.Within n source.length → (∀ f ∈ es, e.stop ≤ f.start) → motive e.stop es →
      motive n (e :: es))
    (hs : Sequential es) (hw : ∀ e ∈ es, e.Within n source.length) : motive n es := by
  induction es generalizing n with
  | nil => exact nil n
  | cons e es ih =>
    obtain ⟨hes, hs⟩ := List.pairwise_cons.1 hs
    obtain ⟨he, hw⟩ := List.forall_mem_cons.1 hw
    exact cons n e es he hes (ih hs fun f hf => ⟨hes f hf, (hw f hf).2⟩)

theorem flatMap_before_kept (t : Text) : (t.map Part.kept).flatMap (Part.before source) = t := by
  simp [List.flatMap_map, Part.before]

theorem flatMap_after_kept (t : Text) : (t.map Part.kept).flatMap Part.after = t := by
  simp [List.flatMap_map, Part.after]

theorem filterMap_edit?_kept (t : Text) : (t.map Part.kept).filterMap Part.edit? = [] := by
  simp [List.filterMap_map, Part.edit?, Function.comp_def]

theorem flatMap_before_partsFrom (hs : Sequential es) (hw : ∀ e ∈ es, e.Within n source.length) :
    (partsFrom source es n).flatMap (Part.before source) = source.drop n := by
  refine sequential_induction
    (motive := fun n es => (partsFrom source es n).flatMap (Part.before source) = source.drop n)
    ?_ ?_ hs hw
  · intro n
    rw [partsFrom_nil, flatMap_before_kept]
  · intro n e es he hes ih
    rw [partsFrom_cons he hes, List.flatMap_append, List.flatMap_cons, flatMap_before_kept, ih]
    exact (drop_eq_append_covered source he.1 he.2.1).symm

theorem flatMap_after_partsFrom (hs : Sequential es) (hw : ∀ e ∈ es, e.Within n source.length) :
    (partsFrom source es n).flatMap Part.after = applyOrdered n (source.drop n) es := by
  refine sequential_induction
    (motive := fun n es =>
      (partsFrom source es n).flatMap Part.after = applyOrdered n (source.drop n) es)
    ?_ ?_ hs hw
  · intro n
    rw [partsFrom_nil, flatMap_after_kept, applyOrdered]
  · intro n e es he hes ih
    rw [partsFrom_cons he hes, List.flatMap_append, List.flatMap_cons, flatMap_after_kept, ih,
      applyOrdered_cons_of_le source es he.1 he.2.1, List.append_assoc]
    rfl

/-- The edits of a row are the edits it is made of, from left to right. -/
theorem edits_partsFrom (hs : Sequential es) (hw : ∀ e ∈ es, e.Within n source.length) :
    (partsFrom source es n).filterMap Part.edit? = es := by
  refine sequential_induction
    (motive := fun n es => (partsFrom source es n).filterMap Part.edit? = es) ?_ ?_ hs hw
  · intro n
    rw [partsFrom_nil, filterMap_edit?_kept]
  · intro n e es he hes ih
    have hput : (Part.put e).edit? = some e := rfl
    rw [partsFrom_cons he hes, List.filterMap_append, filterMap_edit?_kept, List.nil_append,
      List.filterMap_cons_some hput, ih]

/-! ## The order in which edits are listed -/

theorem Separate.symm (h : e.Separate f) : f.Separate e := by
  refine ⟨h.1.symm, ?_⟩
  rintro ⟨hstart, hstop⟩
  exact h.2 ⟨hstart.symm, hstop.symm⟩

/-- What only one of some separate edits can satisfy picks the same edit however they are listed. -/
theorem filter_eq_of_perm {q : Edit → Bool} (hq : ∀ e f, q e = true → q f = true → ¬ e.Separate f)
    (hsep : es.Pairwise Separate) (h : fs.Perm es) : fs.filter q = es.filter q := by
  have hone : ∀ gs : List Edit, gs.Pairwise Separate → (gs.filter q).Pairwise fun _ _ => False := by
    intro gs hgs
    refine (hgs.filter q).imp_of_mem ?_
    intro e f he hf hef
    exact hq e f (List.mem_filter.1 he).2 (List.mem_filter.1 hf).2 hef
  have hfs : fs.Pairwise Separate := h.symm.pairwise hsep Separate.symm
  exact (h.filter q).eq_of_pairwise (fun _ _ _ _ hf => hf.elim) (hone fs hfs) (hone es hsep)

theorem partsAt_of_perm (hsep : es.Pairwise Separate) (h : fs.Perm es) (p : Nat) :
    partsAt source fs p = partsAt source es p := by
  have hins : insertionsAt fs p = insertionsAt es p := by
    refine filter_eq_of_perm ?_ hsep h
    intro e f he hf hef
    simp only [decide_eq_true_eq] at he hf
    exact hef.2 ⟨he.1.trans hf.1.symm, he.2.trans hf.2.symm⟩
  have hrep : replacementsAt fs p = replacementsAt es p := by
    refine filter_eq_of_perm ?_ hsep h
    intro e f he hf hef
    simp only [decide_eq_true_eq] at he hf
    have happart := hef.1
    unfold Apart at happart
    omega
  have hout : takesOut fs p = takesOut es p := h.any_eq
  rw [partsAt, partsAt, hins, hrep, keptAt, keptAt, hout]

theorem parts_of_perm (hsep : es.Pairwise Separate) (h : fs.Perm es) :
    parts source fs = parts source es :=
  List.flatMap_congr fun p _ => partsAt_of_perm hsep h p

/-- Of two edits, the one that starts earlier, or in one place stops earlier, is ordered first. -/
theorem pair_sublist_order (he : e ∈ es) (hf : f ∈ es) (h : e.Precedes f) :
    [e, f].Sublist (order es) := by
  obtain ⟨xs, ys, hsplit⟩ := List.append_of_mem ((order_perm es).mem_iff.2 he)
  have hpair := pairwise_order es
  have hmem := (order_perm es).mem_iff.2 hf
  rw [hsplit] at hpair hmem ⊢
  have hnot : ¬ f.before e = true := by
    rw [before_iff]
    unfold Precedes at h
    omega
  rcases List.mem_append.1 hmem with hx | hy
  · exact absurd ((List.pairwise_append.1 hpair).2.2 f hx e (List.mem_cons_self ..)) hnot
  · rcases List.mem_cons.1 hy with rfl | hy
    · exact absurd ((before_iff f f).2 (.inr ⟨rfl, Nat.le_refl _⟩)) hnot
    · exact (List.Sublist.cons_cons e (List.singleton_sublist.2 hy)).trans
        (List.sublist_append_right xs _)

/-! ## All edits at once -/

section AtOnce

variable (hin : ∀ e ∈ es, e.Within 0 source.length) (hsep : es.Pairwise Separate)
include hin hsep

theorem sequential_order_of_separate : Sequential (order es) :=
  sequential_order (fun e he => (hin e he).2.1) (hsep.imp And.left)

theorem flatMap_after_parts : (parts source es).flatMap Part.after = apply source es := by
  rw [← parts_of_perm hsep (order_perm es)]
  exact flatMap_after_partsFrom (sequential_order_of_separate hin hsep)
    fun e he => hin e ((order_perm es).mem_iff.1 he)

theorem flatMap_before_parts : (parts source es).flatMap (Part.before source) = source := by
  rw [← parts_of_perm hsep (order_perm es)]
  exact flatMap_before_partsFrom (sequential_order_of_separate hin hsep)
    fun e he => hin e ((order_perm es).mem_iff.1 he)

theorem edits_parts : (parts source es).filterMap Part.edit? = order es := by
  rw [← parts_of_perm hsep (order_perm es)]
  exact edits_partsFrom (sequential_order_of_separate hin hsep)
    fun e he => hin e ((order_perm es).mem_iff.1 he)

end AtOnce

/-- Edits inside a text with disjoint ranges are made at once. However they are listed the result is the
same and no edit is dropped. The text and the result are two readings of one row of parts, which holds
every edit once; an insertion comes before a replacement that starts at its place and after one that
ends there. -/
theorem apply_is_simultaneous (hin : ∀ e ∈ es, e.Within 0 source.length)
    (hsep : es.Pairwise Separate) :
    (∀ fs : List Edit, fs.Perm es → apply source fs = apply source es) ∧
      dropped 0 (order es) = [] ∧
      (parts source es).flatMap (Part.before source) = source ∧
      (parts source es).flatMap Part.after = apply source es ∧
      ((parts source es).filterMap Part.edit?).Perm es ∧
      ∀ e ∈ es, ∀ f ∈ es, e.start = e.stop → f.start < f.stop →
        (f.start = e.start → [e, f].Sublist ((parts source es).filterMap Part.edit?)) ∧
        (f.stop = e.start → [f, e].Sublist ((parts source es).filterMap Part.edit?)) := by
  have hedits := edits_parts hin hsep
  refine ⟨?_, ?_, flatMap_before_parts hin hsep, flatMap_after_parts hin hsep, ?_, ?_⟩
  · intro fs h
    have hfs : fs.Pairwise Separate := h.symm.pairwise hsep Separate.symm
    rw [← flatMap_after_parts (fun e he => hin e (h.mem_iff.1 he)) hfs, parts_of_perm hsep h,
      flatMap_after_parts hin hsep]
  · exact dropped_eq_nil (fun e _ => Nat.zero_le _) (sequential_order_of_separate hin hsep)
  · exact hedits ▸ order_perm es
  · intro e he f hf hempty hrange
    rw [hedits]
    constructor
    · intro hplace
      exact pair_sublist_order he hf (.inr ⟨hplace.symm, by omega⟩)
    · intro hplace
      exact pair_sublist_order hf he (.inl (by omega))

/-- Two ranges that touch, with an insertion at the start and at the end of the first. -/
def touchingEdits : List Edit :=
  [insertion 3 [')'], ⟨3, 4, ['Z']⟩, ⟨1, 3, ['X', 'Y']⟩, insertion 1 ['(']]

theorem touching_edits_are_simultaneous :
    (∀ e ∈ touchingEdits, e.Within 0 ['a', 'b', 'c', 'd'].length) ∧
      touchingEdits.Pairwise Separate ∧
      parts ['a', 'b', 'c', 'd'] touchingEdits =
        [.kept 'a', .put (insertion 1 ['(']), .put ⟨1, 3, ['X', 'Y']⟩, .put (insertion 3 [')']),
          .put ⟨3, 4, ['Z']⟩] ∧
      apply ['a', 'b', 'c', 'd'] touchingEdits = ['a', '(', 'X', 'Y', ')', 'Z'] ∧
      apply ['a', 'b', 'c', 'd'] touchingEdits.reverse = ['a', '(', 'X', 'Y', ')', 'Z'] := by
  have hin : ∀ e ∈ touchingEdits, e.Within 0 ['a', 'b', 'c', 'd'].length := by
    simp [touchingEdits, insertion, Within]
  have hsep : touchingEdits.Pairwise Separate := by
    simp [touchingEdits, insertion, Separate, Apart]
  obtain ⟨hperm, -, -, hafter, -, -⟩ := apply_is_simultaneous hin hsep
  have hparts : parts ['a', 'b', 'c', 'd'] touchingEdits =
      [.kept 'a', .put (insertion 1 ['(']), .put ⟨1, 3, ['X', 'Y']⟩, .put (insertion 3 [')']),
        .put ⟨3, 4, ['Z']⟩] := by
    decide
  have happly : apply ['a', 'b', 'c', 'd'] touchingEdits = ['a', '(', 'X', 'Y', ')', 'Z'] := by
    rw [← hafter, hparts]
    rfl
  exact ⟨hin, hsep, hparts, happly, (hperm _ (List.reverse_perm _)).trans happly⟩

end Phrasebook.Edit
