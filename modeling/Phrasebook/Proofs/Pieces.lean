import Phrasebook.Proofs.Spans
import Phrasebook.Proofs.TokenRows

/-!
What a run makes of a script, piece by piece. Every edit of a walk is labelled by what it does: wrap a
literal, rename a page, or open or close a merge of the locale. Since no two edits meet, the source and
the code that a run writes are two readings of one row of pieces, the labels of all edits with the parts
of the source between them (`exists_row`).

The literals of a script, in the order of the source and each with its place (`Tree.literals`), say
which texts a run finds: the values of those that ask for a look-up, in their order. The same literals
are the wrapped pieces of the row. So edits, code and texts never drift apart
(`run_accounts_for_source`).
-/

namespace Phrasebook.Script

/-! ## Pieces -/

/-- A piece of the code that a run writes. -/
inductive Piece where
  /-- A part of the source that stays as it is. -/
  | kept (text : Text)
  /-- A literal that becomes the argument of the look-up function. -/
  | wrapped (literal : Text)
  /-- The name of a page that becomes that of a localized one. -/
  | renamed
  /-- What stands in front of data that the locale is merged into. -/
  | opened
  /-- What stands behind such data. -/
  | closed
  deriving DecidableEq, Repr

namespace Piece

/-- What stands in the source in the place of a piece. -/
def before (b : Bindings) : Piece → Text
  | kept text => text
  | wrapped literal => literal
  | renamed => b.page
  | opened => []
  | closed => []

/-- What a run writes in the place of a piece. -/
def after (b : Bindings) : Piece → Text
  | kept text => text
  | wrapped literal => b.call literal
  | renamed => b.localizedPage
  | opened => b.mergeOpening
  | closed => [')']

/-- The literal that is wrapped. -/
def literal? : Piece → Option Text
  | wrapped literal => some literal
  | _ => none

/-- The piece itself, unless it is a part of the source that stays. -/
def edit? : Piece → Option Piece
  | kept _ => none
  | piece => some piece

end Piece

namespace Change

/-- The pieces that a change writes. -/
def pieces : Change → List Piece
  | .wrap _ literal _ => [.wrapped literal]
  | .rename _ _ => [.renamed]
  | .merge _ _ => [.opened, .closed]

/-- The edits of a change, each with its piece. -/
def labelled (b : Bindings) (c : Change) : List (Edit × Piece) := (c.edits b).zip c.pieces

@[simp] theorem map_fst_labelled (b : Bindings) (c : Change) :
    (c.labelled b).map Prod.fst = c.edits b := by
  cases c <;> rfl

@[simp] theorem map_snd_labelled (b : Bindings) (c : Change) :
    (c.labelled b).map Prod.snd = c.pieces := by
  cases c <;> rfl

end Change

/-- The edits of changes, each with its piece. -/
def labelled (b : Bindings) (cs : List Change) : List (Edit × Piece) :=
  cs.flatMap (Change.labelled b)

theorem map_fst_labelled (b : Bindings) (cs : List Change) :
    (labelled b cs).map Prod.fst = cs.flatMap (Change.edits b) := by
  simp [labelled, List.map_flatMap]

theorem map_snd_labelled (b : Bindings) (cs : List Change) :
    (labelled b cs).map Prod.snd = cs.flatMap Change.pieces := by
  simp [labelled, List.map_flatMap]

theorem covered_insertion (source : Text) (position : Nat) (text : Text) :
    Edit.covered source (Edit.insertion position text) = [] := by
  simp [Edit.covered, Edit.insertion]

/-- A piece says what its edit takes out and what it puts in. -/
theorem label_eq {b : Bindings} {source : Text} {c : Change} (h : c.Located b source)
    {x : Edit × Piece} (hx : x ∈ c.labelled b) :
    x.2.before b = x.1.covered source ∧ x.2.after b = x.1.replacement := by
  cases c with
  | wrap start literal value =>
    obtain rfl := List.mem_singleton.1 hx
    exact ⟨(covered_of_standsAt h _).symm, rfl⟩
  | rename start name =>
    obtain ⟨rfl, hat⟩ := h
    obtain rfl := List.mem_singleton.1 hx
    exact ⟨(covered_of_standsAt hat _).symm, rfl⟩
  | merge start stop =>
    rcases List.mem_cons.1 hx with rfl | hx
    · exact ⟨(covered_insertion source start _).symm, rfl⟩
    · obtain rfl := List.mem_singleton.1 hx
      exact ⟨(covered_insertion source stop _).symm, rfl⟩

/-! ## Literals in order -/

mutual

/-- The string literals of a tree, from left to right, each in its place. -/
def Tree.literals (place : Place) : Tree → List (Place × Tree)
  | .leaf .. => []
  | .node role kind children =>
    if kind = .string then [(place.forChild, .node role kind children)]
    else Tree.literalsIn (place.inside (.node role kind children)) children

/-- The same for a row of trees. -/
def Tree.literalsIn (place : Place) : List Tree → List (Place × Tree)
  | [] => []
  | t :: ts => Tree.literals place t ++ Tree.literalsIn place ts

end

/-- Whether a literal asks for a look-up: it is natural text, it is not looked up already, a call can
stand in its place, and it does not name a module that is loaded. -/
def asksForLookup (b : Bindings) (l : Place × Tree) : Bool :=
  Text.isNatural (literalValue l.2) && !l.1.callee.any (isLookup b) && !isFixedPlace l.1 l.2.role &&
    !l.1.callee.any isRequire

/-- The literals of a script that ask for a look-up, from left to right. -/
def soughtLiterals (b : Bindings) (script : Tree) : List Tree :=
  ((script.literals ⟨.program, none⟩).filter (asksForLookup b)).map Prod.snd

theorem wraps_eq_asksForLookup (b : Bindings) (place : Place) (t : Tree) :
    wraps b place t = asksForLookup b (place, t) := by
  unfold wraps asksForLookup
  cases Text.isNatural (literalValue t) <;> cases place.callee.any (isLookup b) <;>
    cases isFixedPlace place t.role <;> cases place.callee.any isRequire <;> rfl

/-- The literal that a change wraps, with its value. -/
def Change.wrapped? : Change → Option (Text × Text)
  | .wrap _ literal value => some (literal, value)
  | _ => none

/-- A node asks by itself for no literal to be wrapped. -/
theorem wrapped?_of_mem_nodeChanges {b : Bindings} {scope : Scope} {offset : Nat} {t : Tree}
    {c : Change} (h : c ∈ nodeChanges b scope offset t) : c.wrapped? = none := by
  unfold nodeChanges at h
  split at h
  · unfold callChanges at h
    split at h
    · cases h
    · split at h
      · cases h
      · rcases List.mem_append.1 h with h | h
        · split at h
          · rw [List.mem_singleton.1 h]
            rfl
          · cases h
        · split at h
          · rcases mergeChange_cases b offset t with he | ⟨start, stop, he⟩
            · rw [he] at h
              cases h
            · rw [he, List.mem_singleton] at h
              rw [h]
              rfl
          · cases h
  · cases h

theorem filterMap_wrapped?_nodeChanges (b : Bindings) (scope : Scope) (offset : Nat) (t : Tree) :
    (nodeChanges b scope offset t).filterMap Change.wrapped? = [] := by
  rw [List.filterMap_eq_nil_iff]
  exact fun c hc => wrapped?_of_mem_nodeChanges hc

mutual

/-- A walk wraps the literals that ask for a look-up, from left to right. -/
theorem filterMap_wrapped?_changes (b : Bindings) (scope : Scope) :
    ∀ (t : Tree) (place : Place) (offset : Nat),
      (changes b scope place offset t).filterMap Change.wrapped? =
        ((t.literals place).filter (asksForLookup b)).map fun l => (l.2.text, literalValue l.2)
  | .leaf .., place, offset => by
    rw [changes, Tree.literals]
    rfl
  | .node role kind children, place, offset => by
    rw [changes, Tree.literals]
    split
    · rw [wraps_eq_asksForLookup, List.filter_cons, List.filter_nil]
      split
      · rfl
      · rfl
    · rw [List.filterMap_append, filterMap_wrapped?_nodeChanges, List.nil_append]
      exact filterMap_wrapped?_changesAll b scope children _ offset

theorem filterMap_wrapped?_changesAll (b : Bindings) (scope : Scope) :
    ∀ (ts : List Tree) (place : Place) (offset : Nat),
      (changesAll b scope place offset ts).filterMap Change.wrapped? =
        ((Tree.literalsIn place ts).filter (asksForLookup b)).map fun l =>
          (l.2.text, literalValue l.2)
  | [], place, offset => by
    rw [changesAll, Tree.literalsIn]
    rfl
  | t :: ts, place, offset => by
    rw [changesAll, Tree.literalsIn, List.filterMap_append, filterMap_wrapped?_changes b scope t,
      filterMap_wrapped?_changesAll b scope ts, List.filter_append, List.map_append]

end

/-- The texts that a walk finds are the values of the literals that ask for a look-up. -/
theorem filterMap_text?_changesIn (b : Bindings) (scope : Scope) (script : Tree) :
    (changesIn b scope script).filterMap Change.text? =
      (soughtLiterals b script).map literalValue := by
  have htext : ∀ c : Change, c.text? = c.wrapped?.map Prod.snd := by
    intro c
    cases c <;> rfl
  have h := congrArg (List.map Prod.snd) (filterMap_wrapped?_changes b scope script ⟨.program, none⟩ 0)
  rw [List.map_filterMap] at h
  rw [changesIn, funext htext, h, soughtLiterals, List.map_map, List.map_map]
  rfl

/-- The literals that a walk wraps are those that ask for a look-up. -/
theorem filterMap_literal?_changesIn (b : Bindings) (scope : Scope) (script : Tree) :
    ((changesIn b scope script).flatMap Change.pieces).filterMap Piece.literal? =
      (soughtLiterals b script).map Tree.text := by
  have hliteral : ∀ c : Change, c.pieces.filterMap Piece.literal? =
      (c.wrapped?.map Prod.fst).toList := by
    intro c
    cases c <;> rfl
  have h := congrArg (List.map Prod.fst) (filterMap_wrapped?_changes b scope script ⟨.program, none⟩ 0)
  rw [List.map_filterMap] at h
  rw [List.filterMap_flatMap, funext hliteral, ← List.filterMap_eq_flatMap_toList, changesIn, h,
    soughtLiterals, List.map_map, List.map_map]
  rfl

/-! ## Wrapped literals keep their order -/

/-- Whether a labelled edit wraps a literal. -/
def wrapsLiteral (x : Edit × Piece) : Bool := x.2.literal?.isSome

/-- The edits of changes that wrap literals, with their pieces. -/
def wrapping (b : Bindings) (cs : List Change) : List (Edit × Piece) :=
  (labelled b cs).filter wrapsLiteral

theorem wrapping_append (b : Bindings) (cs ds : List Change) :
    wrapping b (cs ++ ds) = wrapping b cs ++ wrapping b ds := by
  rw [wrapping, labelled, List.flatMap_append, List.filter_append]
  rfl

theorem wrapping_nodeChanges (b : Bindings) (scope : Scope) (offset : Nat) (t : Tree) :
    wrapping b (nodeChanges b scope offset t) = [] := by
  rw [wrapping, List.filter_eq_nil_iff]
  intro x hx
  obtain ⟨c, hc, hxc⟩ := List.mem_flatMap.1 hx
  have hnone := wrapped?_of_mem_nodeChanges hc
  cases c with
  | wrap start literal value => cases hnone
  | rename start name =>
    obtain rfl := List.mem_singleton.1 hxc
    exact Bool.false_ne_true
  | merge start stop =>
    rcases List.mem_cons.1 hxc with rfl | hxc
    · exact Bool.false_ne_true
    · obtain rfl := List.mem_singleton.1 hxc
      exact Bool.false_ne_true

theorem mem_edits_of_mem_wrapping {b : Bindings} {cs : List Change} {x : Edit × Piece}
    (h : x ∈ wrapping b cs) : x.1 ∈ cs.flatMap (Change.edits b) := by
  rw [← map_fst_labelled]
  exact List.mem_map_of_mem (List.mem_filter.1 h).1

mutual

/-- A walk finds the literals to wrap from left to right. -/
theorem sequential_wrapping (b : Bindings) (scope : Scope) :
    ∀ (t : Tree) (place : Place) (offset : Nat), t.All Tree.Sound →
      (wrapping b (changes b scope place offset t)).Pairwise fun x y => x.1.stop ≤ y.1.start
  | .leaf .., place, offset, _ => by
    rw [changes]
    exact List.Pairwise.nil
  | .node role kind children, place, offset, hs => by
    rw [changes]
    split
    · split
      · exact List.pairwise_singleton _ _
      · exact List.Pairwise.nil
    · rw [Tree.All] at hs
      rw [wrapping_append, wrapping_nodeChanges, List.nil_append]
      exact sequential_wrappingAll b scope children _ offset hs.2

theorem sequential_wrappingAll (b : Bindings) (scope : Scope) :
    ∀ (ts : List Tree) (place : Place) (offset : Nat), Tree.AllIn Tree.Sound ts →
      (wrapping b (changesAll b scope place offset ts)).Pairwise fun x y => x.1.stop ≤ y.1.start
  | [], place, offset, _ => by
    rw [changesAll]
    exact List.Pairwise.nil
  | t :: ts, place, offset, hs => by
    rw [Tree.AllIn] at hs
    rw [changesAll, wrapping_append]
    refine List.pairwise_append.2 ⟨sequential_wrapping b scope t place offset hs.1,
      sequential_wrappingAll b scope ts place _ hs.2, ?_⟩
    intro x hx y hy
    have hfirst := within_editsOf b scope t place offset hs.1 x.1 (mem_edits_of_mem_wrapping hx)
    have hrest := within_editsOfAll b scope ts place _ hs.2 y.1 (mem_edits_of_mem_wrapping hy)
    exact Nat.le_trans hfirst.2.2 (Nat.le_trans (Nat.le_add_right _ _) hrest.1)

end

mutual

/-- What is wrapped is not empty. -/
theorem start_lt_stop_of_mem_wrapping {b : Bindings} {scope : Scope} :
    ∀ (t : Tree) (place : Place) (offset : Nat),
      ∀ x ∈ wrapping b (changes b scope place offset t), x.1.start < x.1.stop
  | .leaf .., place, offset, x, hx => by
    rw [changes] at hx
    cases hx
  | .node role kind children, place, offset, x, hx => by
    rw [changes] at hx
    split at hx
    · split at hx
      · next hw =>
        have hne := List.length_pos_iff.2 (text_ne_nil_of_wraps hw)
        obtain rfl := List.mem_singleton.1 hx
        dsimp only
        omega
      · cases hx
    · rw [wrapping_append, wrapping_nodeChanges, List.nil_append] at hx
      exact start_lt_stop_of_mem_wrappingAll children _ offset x hx

theorem start_lt_stop_of_mem_wrappingAll {b : Bindings} {scope : Scope} :
    ∀ (ts : List Tree) (place : Place) (offset : Nat),
      ∀ x ∈ wrapping b (changesAll b scope place offset ts), x.1.start < x.1.stop
  | [], place, offset, x, hx => by
    rw [changesAll] at hx
    cases hx
  | t :: ts, place, offset, x, hx => by
    rw [changesAll, wrapping_append, List.mem_append] at hx
    rcases hx with hx | hx
    · exact start_lt_stop_of_mem_wrapping t place offset x hx
    · exact start_lt_stop_of_mem_wrappingAll ts place _ x hx

end

/-- Ordering the edits keeps the order of the wrapped literals. -/
theorem filter_wrapsLiteral_eq {us ts : List (Edit × Piece)} (hp : us.Perm ts)
    (hu : Edit.Sequential (us.map Prod.fst))
    (ht : (ts.filter wrapsLiteral).Pairwise fun x y => x.1.stop ≤ y.1.start)
    (hne : ∀ x ∈ ts.filter wrapsLiteral, x.1.start < x.1.stop) :
    us.filter wrapsLiteral = ts.filter wrapsLiteral := by
  have hperm := hp.filter wrapsLiteral
  have hus : (us.filter wrapsLiteral).Pairwise fun x y => x.1.stop ≤ y.1.start :=
    (List.pairwise_map.1 hu).filter wrapsLiteral
  refine hperm.eq_of_pairwise ?_ hus ht
  -- two literals cannot stand behind each other
  intro x y hx hy hxy hyx
  have hx' := hne x (hperm.mem_iff.1 hx)
  have hy' := hne y hy
  omega

/-! ## A run accounts for its source -/

section Run

variable {source : Text} {tree : Tree}

/-- No two edits of a run meet, and all lie in the source. -/
theorem edits_of_parse (hp : parse source = .ok tree) (b : Bindings) (scope : Scope) :
    ((changesIn b scope tree).flatMap (Change.edits b)).Pairwise Edit.Apart ∧
      ∀ e ∈ (changesIn b scope tree).flatMap (Change.edits b), e.Within 0 source.length := by
  have hs := sound_of_parse hp
  refine ⟨apart_editsOf b scope tree _ 0 (identifiers_are_leaves hp) hs, ?_⟩
  intro e he
  have hw := within_editsOf b scope tree _ 0 hs e he
  rw [source_of_parse hp] at hw
  exact hw.mono (Nat.zero_le _) (by omega)

/-- The source and the code that a run writes are two readings of one row of pieces. -/
theorem exists_row (hp : parse source = .ok tree) (b : Bindings) (scope : Scope) :
    ∃ row : List Piece, row.flatMap (Piece.before b) = source ∧
      row.flatMap (Piece.after b) = applyChanges b source (changesIn b scope tree) ∧
      (row.filterMap Piece.edit?).Perm ((changesIn b scope tree).flatMap Change.pieces) ∧
      row.filterMap Piece.literal? = (soughtLiterals b tree).map Tree.text := by
  obtain ⟨hapart, hwithin⟩ := edits_of_parse hp b scope
  obtain ⟨us, hperm, hus⟩ := Edit.exists_order_labelled (labelled b (changesIn b scope tree))
  rw [map_fst_labelled] at hus
  have hseq : Edit.Sequential (us.map Prod.fst) :=
    hus ▸ Edit.sequential_order (fun e he => (hwithin e he).2.1) hapart
  have hrange : ∀ x ∈ us, x.1.start ≤ x.1.stop := by
    intro x hx
    refine (hwithin x.1 ?_).2.1
    rw [← map_fst_labelled]
    exact List.mem_map_of_mem (hperm.mem_iff.1 hx)
  have hlabel : ∀ x ∈ us, x.2.before b = x.1.covered source ∧ x.2.after b = x.1.replacement := by
    intro x hx
    obtain ⟨c, hc, hxc⟩ := List.mem_flatMap.1 (hperm.mem_iff.1 hx)
    have hlocated := located_of_mem_changesIn hc
    rw [source_of_parse hp] at hlocated
    exact label_eq hlocated hxc
  have hzero : ∀ x ∈ us, 0 ≤ x.1.start := fun x _ => Nat.zero_le _
  refine ⟨Edit.weave Piece.kept source 0 us, ?_, ?_, ?_, ?_⟩
  · exact Edit.flatMap_before_weave (fun _ => rfl) (fun x hx => (hlabel x hx).1) hrange hzero hseq
  · rw [applyChanges, Edit.apply, ← hus]
    exact Edit.flatMap_after_weave (fun _ => rfl) (fun x hx => (hlabel x hx).2) hrange hzero hseq
  · rw [Edit.filterMap_weave Piece.kept (fun _ => rfl)]
    have hpieces : (us.map Prod.snd).Perm ((changesIn b scope tree).flatMap Change.pieces) := by
      rw [← map_snd_labelled b]
      exact hperm.map Prod.snd
    refine (hpieces.filterMap Piece.edit?).trans (List.Perm.of_eq ?_)
    -- no change writes a part that is kept
    have hedit : ∀ c : Change, c.pieces.filterMap Piece.edit? = c.pieces := by
      intro c
      cases c <;> rfl
    rw [List.filterMap_flatMap, funext hedit]
  · have hs := sound_of_parse hp
    have hfilter := filter_wrapsLiteral_eq hperm hseq (sequential_wrapping b scope tree _ 0 hs)
      (start_lt_stop_of_mem_wrapping tree _ 0)
    have hsome : ∀ xs : List (Edit × Piece), (xs.map Prod.snd).filterMap Piece.literal? =
        (xs.filter wrapsLiteral).filterMap fun x => x.2.literal? := by
      intro xs
      rw [List.filterMap_map, List.filterMap_filter]
      refine congrArg (List.filterMap · xs) (funext fun x => ?_)
      unfold wrapsLiteral
      cases hx : x.2.literal? <;> simp [hx]
    rw [Edit.filterMap_weave Piece.kept (fun _ => rfl), hsome, hfilter, ← hsome, map_snd_labelled,
      filterMap_literal?_changesIn]

/-- Edits, code and texts of a run never drift apart. In a script that can be parsed no two edits meet
and none is dropped; taking out what they put in, and giving pages their old names back, leaves the
source; and the texts that are found are the values of the literals that ask for a look-up, from left to
right, one for every literal that is wrapped. -/
theorem run_accounts_for_source (hp : parse source = .ok tree) (b : Bindings) (scope : Scope) :
    ((changesIn b scope tree).flatMap (Change.edits b)).Pairwise Edit.Apart ∧
      (∀ e ∈ (changesIn b scope tree).flatMap (Change.edits b), e.Within 0 source.length) ∧
      Edit.dropped 0 (Edit.order ((changesIn b scope tree).flatMap (Change.edits b))) = [] ∧
      (∃ row : List Piece, row.flatMap (Piece.before b) = source ∧
        row.flatMap (Piece.after b) = applyChanges b source (changesIn b scope tree) ∧
        (row.filterMap Piece.edit?).Perm ((changesIn b scope tree).flatMap Change.pieces) ∧
        row.filterMap Piece.literal? = (soughtLiterals b tree).map Tree.text) ∧
      (∀ mergeLocale, ∃ r, localizeScript b mergeLocale source = .ok r ∧
        r.found = (soughtLiterals b tree).map literalValue) ∧
      (localizeExpression b source).found = (soughtLiterals b tree).map literalValue := by
  obtain ⟨hapart, hwithin⟩ := edits_of_parse hp b scope
  have hseq := Edit.sequential_order (fun e he => (hwithin e he).2.1) hapart
  refine ⟨hapart, hwithin, Edit.dropped_eq_nil (fun e _ => Nat.zero_le _) hseq,
    exists_row hp b scope, ?_, ?_⟩
  · intro mergeLocale
    refine ⟨⟨_, _⟩, localizeScript_eq_ok_iff.2 ⟨tree, hp, rfl, rfl⟩, ?_⟩
    exact filterMap_text?_changesIn b (.script mergeLocale) tree
  · simp only [localizeExpression, hp]
    exact filterMap_text?_changesIn b .expression tree

end Run

/-- A page whose name, data and literal are all edited. -/
theorem page_accounts_for_source :
    ∃ tree r, parse "Page(\x7b data: \x7b a: '你好' \x7d \x7d)".toList = .ok tree ∧
      ((changesIn {} (.script true) tree).flatMap (Change.edits {})).length = 4 ∧
      Edit.dropped 0
        (Edit.order ((changesIn {} (.script true) tree).flatMap (Change.edits {}))) = [] ∧
      localizeScript {} true "Page(\x7b data: \x7b a: '你好' \x7d \x7d)".toList = .ok r ∧
      r.found = ["你好".toList] := by
  have hrun : ((parse "Page(\x7b data: \x7b a: '你好' \x7d \x7d)".toList).map fun tree =>
      (((changesIn {} (.script true) tree).flatMap (Change.edits {})).length,
        (soughtLiterals {} tree).map literalValue)).toOption = some (4, ["你好".toList]) := by
    decide +kernel
  cases hp : parse "Page(\x7b data: \x7b a: '你好' \x7d \x7d)".toList with
  | error e =>
    rw [hp] at hrun
    cases hrun
  | ok tree =>
    rw [hp] at hrun
    obtain ⟨hlength, htexts⟩ := Prod.mk.inj (Option.some.inj hrun)
    obtain ⟨-, -, hdropped, -, hscript, -⟩ := run_accounts_for_source hp {} (.script true)
    obtain ⟨r, hr, hfound⟩ := hscript true
    exact ⟨tree, r, rfl, hlength, hdropped, hr, hfound.trans htexts⟩

end Phrasebook.Script
