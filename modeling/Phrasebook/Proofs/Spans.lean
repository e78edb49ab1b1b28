import Phrasebook.Proofs.Frames
import Phrasebook.Proofs.NodeKinds
import Phrasebook.Proofs.Replacement

/-!
The spans of a syntax tree and the edits in them. The span of a tree is the part of the source from the
end of the gap before it to its own end; the spans of siblings follow each other.

* Every edit that a walk finds in a tree lies in the span of the tree (`within_changes`).
* The value that the locale is merged into is found on a path of nodes that ask for no change by
  themselves (`Below`, `mergeChange_cases_below`). An edit that the walk finds around such a path belongs
  to the value or lies apart from it (`mem_or_outside_of_below`).
* So no two edits of a walk meet (`apart_changes`): a literal is not entered, a name that is replaced is
  a single token, and what is inserted stands at the two ends of a span.
-/

namespace Phrasebook.Script

/-! ## Rows and spans -/

theorem gapLength_le (t : Tree) : gapLength t ≤ t.source.length := t.leadingGap_isPrefix.length_le

theorem source_length_eq (t : Tree) : t.source.length = gapLength t + t.text.length := by
  rw [← t.gapText_append_text, List.length_append, gapLength]

/-- Where a child starts, and that it ends before its parent does. -/
theorem length_sourceAll_append (before : List Tree) (c : Tree) (after : List Tree) :
    (Tree.sourceAll (before ++ c :: after)).length =
      (Tree.sourceAll before).length + c.source.length + (Tree.sourceAll after).length := by
  simp only [Tree.sourceAll_append, Tree.sourceAll, List.length_append]
  omega

/-- The span of a child does not start before that of its parent. -/
theorem gapLength_node_le (role : Role) (kind : Kind) (before : List Tree) (c : Tree)
    (after : List Tree) :
    gapLength (.node role kind (before ++ c :: after)) ≤
      (Tree.sourceAll before).length + gapLength c := by
  cases before with
  | nil => exact Nat.le_add_left _ _
  | cons d ds =>
    have hd : gapLength (.node role kind (d :: ds ++ c :: after)) = gapLength d := by
      simp only [gapLength, Tree.leadingGap, List.cons_append, Tree.leadingGapAll]
    have hle := gapLength_le d
    rw [hd, Tree.sourceAll, List.length_append]
    omega

/-- Two different children of a row follow each other. -/
theorem siblings_apart {before after before' after' : List Tree} {c d : Tree} (hne : c ≠ d)
    (h : before ++ c :: after = before' ++ d :: after') :
    (Tree.sourceAll before).length + c.source.length ≤ (Tree.sourceAll before').length ∨
      (Tree.sourceAll before').length + d.source.length ≤ (Tree.sourceAll before).length := by
  rcases List.append_eq_append_iff.1 h with ⟨a, hb, hc⟩ | ⟨a, hb, hd⟩
  · cases a with
    | nil =>
      rw [List.nil_append] at hc
      exact absurd (List.cons.inj hc).1 hne
    | cons x a =>
      obtain ⟨rfl, -⟩ := List.cons.inj hc
      left
      rw [hb, length_sourceAll_append]
      omega
  · cases a with
    | nil =>
      rw [List.nil_append] at hd
      exact absurd (List.cons.inj hd).1.symm hne
    | cons x a =>
      obtain ⟨rfl, -⟩ := List.cons.inj hd
      right
      rw [hb, length_sourceAll_append]
      omega

/-! ## Paths to a value -/

/-- A tree that starts `n` characters after the start of another, on a path of nodes that are neither
calls nor strings. -/
inductive Below : Tree → Nat → Tree → Prop
  | here (t : Tree) : Below t 0 t
  | child {role : Role} {kind : Kind} {children before after : List Tree} {c t : Tree} {n : Nat}
      (hk : kind ≠ .call ∧ kind ≠ .string) (hrow : children = before ++ c :: after)
      (h : Below c n t) :
      Below (.node role kind children) ((Tree.sourceAll before).length + n) t

theorem Below.span {t c : Tree} {n : Nat} (h : Below t n c) :
    gapLength t ≤ n + gapLength c ∧ n + c.source.length ≤ t.source.length := by
  induction h with
  | here => simp
  | @child role kind children before after c t n _ hrow _ ih =>
    have hgap := gapLength_node_le role kind before c after
    rw [Tree.source, hrow, length_sourceAll_append]
    omega

/-- Going down to a child that is found in a row. -/
theorem Below.of_find? {t c d : Tree} {n : Nat} {found : Tree → Bool}
    (hk : t.kind ≠ .call ∧ t.kind ≠ .string) (hf : t.children.find? found = some c)
    (h : Below c n d) : Below t (startIn t.children found + n) d := by
  cases t with
  | leaf => cases hf
  | node role kind children =>
    obtain ⟨after, hrow⟩ := row_eq_of_find? hf
    exact .child hk hrow h

theorem Below.all {P : Tree → Prop} {t c : Tree} {n : Nat} (h : Below t n c) (ht : t.All P) :
    c.All P := by
  induction h with
  | here => exact ht
  | child _ hrow _ ih =>
    exact ih (ht.child (hrow ▸ List.mem_append_right _ (List.mem_cons_self ..)))

theorem Tree.find?_of_firstNamed?_go {ts : List Tree} {c : Tree} (h : Tree.firstNamed?.go ts = some c) :
    ts.find? Tree.isNamed = some c := by
  induction ts with
  | nil => cases h
  | cons d ts ih =>
    rw [Tree.firstNamed?.go] at h
    split at h
    · cases h
    · split at h
      · next hd =>
        cases h
        exact List.find?_cons_of_pos hd
      · next hd => rw [List.find?_cons_of_neg hd, ih h]

/-- In a row that opens with a symbol, the first part that is named is the first named one at all. -/
theorem find?_isNamed_of_firstNamed? {t c : Tree}
    (h : ∃ first others, t.children = first :: others ∧ first.isNamed = false)
    (hc : t.firstNamed? = some c) : t.children.find? Tree.isNamed = some c := by
  obtain ⟨first, others, hrow, hfirst⟩ := h
  rw [Tree.firstNamed?, hrow] at hc
  rw [hrow, List.find?_cons_of_neg (by simp [hfirst])]
  exact Tree.find?_of_firstNamed?_go hc

/-- A child in a role, seen in the row of children. -/
theorem row_of_child? {t c : Tree} {role : Role} (h : t.child? role = some c) :
    ∃ before after, t.children = before ++ c :: after ∧ c.role = role ∧
      (Tree.sourceAll before).length = startIn t.children (·.role == role) := by
  obtain ⟨after, hrow⟩ := row_eq_of_find? h
  exact ⟨_, after, hrow, by simpa using List.find?_some h, rfl⟩

/-- The locale is merged, if at all, into a value below the arguments of the call. -/
theorem mergeChange_cases_below (b : Bindings) (offset : Nat) {call : Tree}
    (hs : call.All Tree.Sound) :
    mergeChange b offset call = [] ∨
      ∃ before arguments after n value, call.children = before ++ arguments :: after ∧
        arguments.role = .arguments ∧ Below arguments n value ∧
        mergeChange b offset call =
          [.merge (offset + (Tree.sourceAll before).length + n + gapLength value)
            (offset + (Tree.sourceAll before).length + n + value.source.length)] := by
  unfold mergeChange
  split
  · next arguments options ha ho =>
    split
    · exact .inl rfl
    · next data hd =>
      split
      · exact .inl rfl
      · next value hv =>
        split
        · exact .inl rfl
        · -- down the path: arguments, options, the property `data`, its value
          obtain ⟨before, after, hrow, hrole, hstart⟩ := row_of_child? ha
          have hargs := hs.child (List.mem_of_find?_eq_some ha)
          obtain ⟨hcall, hstring, hopen⟩ := hargs.self.opens hrole
          obtain ⟨hfirst, hobject⟩ := Option.filter_eq_some_iff.1 ho
          rw [ha, Option.bind_some] at hfirst
          have hok : options.kind = .object := by simpa using hobject
          have hdk : data.kind = .pair := by
            have := List.find?_some hd
            rw [isDataPair, Bool.and_eq_true] at this
            simpa using this.1
          have hpath := (((Below.here value).of_find? (by simp [hdk]) hv).of_find?
            (by simp [hok]) hd).of_find? ⟨hcall, hstring⟩ (find?_isNamed_of_firstNamed? hopen hfirst)
          refine .inr ⟨before, arguments, after, _, value, hrow, hrole, hpath, ?_⟩
          simp only [hstart, Nat.add_zero, Nat.add_assoc]
  · exact .inl rfl

/-- The changes for a call: its callee, a single token, is renamed, and the locale is merged into a
value below its arguments; or one of the two, or none. -/
theorem callChanges_cases (b : Bindings) (mergeLocale : Bool) (offset : Nat) {call : Tree}
    (hs : call.All Tree.Sound) :
    ∃ renamed merged, callChanges b mergeLocale offset call = renamed ++ merged ∧
      (renamed = [] ∨ ∃ before callee after, call.children = before ++ callee :: after ∧
        callee.role = .callee ∧ callee.kind = .identifier ∧
        renamed = [.rename (offset + (Tree.sourceAll before).length + gapLength callee)
          callee.text]) ∧
      (merged = [] ∨ ∃ before arguments after n value,
        call.children = before ++ arguments :: after ∧ arguments.role = .arguments ∧
        Below arguments n value ∧
        merged = [.merge (offset + (Tree.sourceAll before).length + n + gapLength value)
          (offset + (Tree.sourceAll before).length + n + value.source.length)]) := by
  unfold callChanges
  cases hc : call.child? .callee with
  | none => exact ⟨[], [], rfl, .inl rfl, .inl rfl⟩
  | some callee =>
    dsimp only
    split
    · exact ⟨[], [], rfl, .inl rfl, .inl rfl⟩
    · next hk =>
      refine ⟨_, _, rfl, ?_, ?_⟩
      · split
        · obtain ⟨before, after, hrow, hrole, hstart⟩ := row_of_child? hc
          rw [← hstart]
          exact .inr ⟨before, callee, after, hrow, hrole, by simpa using hk, rfl⟩
        · exact .inl rfl
      · split
        · exact mergeChange_cases_below b offset hs
        · exact .inl rfl

/-! ## Edits of rows -/

section Edits

variable (b : Bindings) (scope : Scope)

/-- The edits that a walk finds in a tree whose source starts at `offset`. -/
def editsOf (place : Place) (offset : Nat) (t : Tree) : List Edit :=
  (changes b scope place offset t).flatMap (Change.edits b)

/-- The same for a row of trees. -/
def editsOfAll (place : Place) (offset : Nat) (ts : List Tree) : List Edit :=
  (changesAll b scope place offset ts).flatMap (Change.edits b)

@[simp] theorem editsOfAll_nil (place : Place) (offset : Nat) :
    editsOfAll b scope place offset [] = [] := by
  simp [editsOfAll, changesAll]

theorem editsOfAll_cons (place : Place) (offset : Nat) (t : Tree) (ts : List Tree) :
    editsOfAll b scope place offset (t :: ts) =
      editsOf b scope place offset t ++ editsOfAll b scope place (offset + t.source.length) ts := by
  rw [editsOfAll, changesAll, List.flatMap_append, editsOf, editsOfAll]

theorem editsOfAll_append (place : Place) (offset : Nat) (ts us : List Tree) :
    editsOfAll b scope place offset (ts ++ us) =
      editsOfAll b scope place offset ts ++
        editsOfAll b scope place (offset + (Tree.sourceAll ts).length) us := by
  induction ts generalizing offset with
  | nil => simp [Tree.sourceAll]
  | cons t ts ih =>
    rw [List.cons_append, editsOfAll_cons, editsOfAll_cons, ih, Tree.sourceAll, List.length_append,
      List.append_assoc, Nat.add_assoc]

/-- A node that is no string adds the edits of its own to those of its children. -/
theorem editsOf_node {role : Role} {kind : Kind} (hk : kind ≠ .string) (children : List Tree)
    (place : Place) (offset : Nat) :
    editsOf b scope place offset (.node role kind children) =
      (nodeChanges b scope offset (.node role kind children)).flatMap (Change.edits b) ++
        editsOfAll b scope (place.inside (.node role kind children)) offset children := by
  rw [editsOf, changes, if_neg hk, List.flatMap_append, editsOfAll]

/-- A node that is neither a string nor a call has the edits of its children only. -/
theorem editsOf_node_of_ne_call {role : Role} {kind : Kind} (hk : kind ≠ .call ∧ kind ≠ .string)
    (children : List Tree) (place : Place) (offset : Nat) :
    editsOf b scope place offset (.node role kind children) =
      editsOfAll b scope (place.inside (.node role kind children)) offset children := by
  have hnone : nodeChanges b scope offset (.node role kind children) = [] := by
    unfold nodeChanges
    split
    · next h => exact absurd h hk.1
    · rfl
  rw [editsOf_node b scope hk.2, hnone, List.flatMap_nil, List.nil_append]

/-- A string gives one edit of its span, or none. -/
theorem editsOf_string (role : Role) (children : List Tree) (place : Place) (offset : Nat) :
    editsOf b scope place offset (.node role .string children) = [] ∨
      editsOf b scope place offset (.node role .string children) =
        [⟨offset + gapLength (.node role .string children),
          offset + gapLength (.node role .string children) +
            (Tree.node role .string children).text.length,
          b.call (Tree.node role .string children).text⟩] := by
  rw [editsOf, changes, if_pos rfl]
  split
  · exact .inr rfl
  · exact .inl rfl

theorem editsOf_leaf (role : Role) (kind : Kind) (gap : Gap) (text : Text) (place : Place)
    (offset : Nat) : editsOf b scope place offset (.leaf role kind gap text) = [] := by
  rw [editsOf, changes]
  rfl

/-! ## Edits lie in the span of their tree -/

/-- What a call asks for by itself lies in its span. -/
theorem within_callChanges {mergeLocale : Bool} {role : Role} {kind : Kind} {children : List Tree}
    {offset : Nat} (hs : (Tree.node role kind children).All Tree.Sound) {e : Edit}
    (he : e ∈ (callChanges b mergeLocale offset (.node role kind children)).flatMap
      (Change.edits b)) :
    e.Within (offset + gapLength (.node role kind children))
      (offset + (Tree.sourceAll children).length) := by
  obtain ⟨renamed, merged, hcs, hr, hm⟩ := callChanges_cases b mergeLocale offset hs
  rw [hcs, List.flatMap_append, List.mem_append] at he
  rcases he with he | he
  · rcases hr with rfl | ⟨before, callee, after, hrow, -, -, rfl⟩
    · cases he
    · obtain rfl : children = before ++ callee :: after := hrow
      have hgap := gapLength_node_le role kind before callee after
      have hlength := source_length_eq callee
      simp only [Change.edits, List.flatMap_singleton, List.mem_singleton] at he
      subst he
      rw [length_sourceAll_append]
      refine ⟨?_, ?_, ?_⟩ <;> dsimp only <;> omega
  · rcases hm with rfl | ⟨before, arguments, after, n, value, hrow, -, hb, rfl⟩
    · cases he
    · obtain rfl : children = before ++ arguments :: after := hrow
      have hgap := gapLength_node_le role kind before arguments after
      have hspan := hb.span
      have hvalue := gapLength_le value
      simp only [Change.edits, List.flatMap_singleton, List.mem_cons, List.not_mem_nil, or_false] at he
      rw [length_sourceAll_append]
      rcases he with rfl | rfl
      · refine ⟨?_, ?_, ?_⟩ <;> dsimp only [Edit.insertion] <;> omega
      · refine ⟨?_, ?_, ?_⟩ <;> dsimp only [Edit.insertion] <;> omega

theorem within_nodeChanges {role : Role} {kind : Kind} {children : List Tree} {offset : Nat}
    (hs : (Tree.node role kind children).All Tree.Sound) {e : Edit}
    (he : e ∈ (nodeChanges b scope offset (.node role kind children)).flatMap (Change.edits b)) :
    e.Within (offset + gapLength (.node role kind children))
      (offset + (Tree.sourceAll children).length) := by
  unfold nodeChanges at he
  split at he
  · exact within_callChanges b hs he
  · cases he

mutual

/-- Every edit that a walk finds in a tree lies in the span of the tree. -/
theorem within_editsOf :
    ∀ (t : Tree) (place : Place) (offset : Nat), t.All Tree.Sound →
      ∀ e ∈ editsOf b scope place offset t,
        e.Within (offset + gapLength t) (offset + t.source.length)
  | .leaf role kind gap text, place, offset, _, e, he => by
    rw [editsOf_leaf] at he
    cases he
  | .node role kind children, place, offset, hs, e, he => by
    by_cases hk : kind = .string
    · subst hk
      have hlength := source_length_eq (.node role .string children)
      rcases editsOf_string b scope role children place offset with h | h
      · rw [h] at he
        cases he
      · rw [h, List.mem_singleton] at he
        subst he
        refine ⟨?_, ?_, ?_⟩ <;> dsimp only <;> omega
    · rw [editsOf_node b scope hk, List.mem_append] at he
      rw [Tree.source]
      rcases he with he | he
      · exact within_nodeChanges b scope hs he
      · rw [Tree.All] at hs
        exact within_editsOfAll children _ offset hs.2 e he

theorem within_editsOfAll :
    ∀ (ts : List Tree) (place : Place) (offset : Nat), Tree.AllIn Tree.Sound ts →
      ∀ e ∈ editsOfAll b scope place offset ts,
        e.Within (offset + (gapText (Tree.leadingGapAll ts)).length)
          (offset + (Tree.sourceAll ts).length)
  | [], place, offset, _, e, he => by
    rw [editsOfAll_nil] at he
    cases he
  | t :: ts, place, offset, hs, e, he => by
    have hgap := gapLength_le t
    rw [editsOfAll_cons, List.mem_append] at he
    rw [Tree.AllIn] at hs
    rw [Tree.sourceAll, Tree.leadingGapAll, List.length_append]
    rcases he with he | he
    · exact (within_editsOf t place offset hs.1 e he).mono (Nat.le_refl _) (by omega)
    · refine (within_editsOfAll ts place _ hs.2 e he).mono ?_ (by omega)
      unfold gapLength at hgap
      omega

end

/-! ## Edits around a part of a tree -/

/-- An edit that does not reach into the part of the text between two positions. -/
def Outside (start stop : Nat) (e : Edit) : Prop := e.stop ≤ start ∨ stop ≤ e.start

/-- An edit of a row belongs to a given child or lies outside of it. -/
theorem mem_or_outside_of_row {children before after : List Tree} {c : Tree} {place : Place}
    {offset : Nat} (hs : Tree.AllIn Tree.Sound children) (hrow : children = before ++ c :: after)
    {e : Edit} (he : e ∈ editsOfAll b scope place offset children) :
    e ∈ editsOf b scope place (offset + (Tree.sourceAll before).length) c ∨
      Outside (offset + (Tree.sourceAll before).length)
        (offset + (Tree.sourceAll before).length + c.source.length) e := by
  subst hrow
  rw [Tree.allIn_iff] at hs
  rw [editsOfAll_append, editsOfAll_cons, List.mem_append, List.mem_append] at he
  rcases he with he | he | he
  · refine .inr (.inl ?_)
    refine (within_editsOfAll b scope before place offset ?_ e he).2.2
    exact Tree.allIn_iff.2 fun t ht => hs t (List.mem_append_left _ ht)
  · exact .inl he
  · refine .inr (.inr ?_)
    have hafter : Tree.AllIn Tree.Sound after :=
      Tree.allIn_iff.2 fun t ht => hs t (List.mem_append_right _ (List.mem_cons_of_mem c ht))
    exact Nat.le_trans (Nat.le_add_right _ _) (within_editsOfAll b scope after place _ hafter e he).1

/-- The same at the end of a path: an edit around it belongs to what stands there or lies outside. -/
theorem mem_or_outside_of_below {t c : Tree} {n : Nat} (h : Below t n c) {place : Place}
    {offset : Nat} (hs : t.All Tree.Sound) {e : Edit} (he : e ∈ editsOf b scope place offset t) :
    (∃ place', e ∈ editsOf b scope place' (offset + n) c) ∨
      Outside (offset + n) (offset + n + c.source.length) e := by
  induction h generalizing place offset with
  | here => exact .inl ⟨place, he⟩
  | @child role kind children before after c t n hk hrow hb ih =>
    have hspan := hb.span.2
    have hchild : c ∈ children := hrow ▸ List.mem_append_right _ (List.mem_cons_self ..)
    rw [editsOf_node_of_ne_call b scope hk] at he
    rw [← Nat.add_assoc]
    have hsc := hs.child hchild
    rw [Tree.All] at hs
    rcases mem_or_outside_of_row b scope hs.2 hrow he with he | ho
    · exact ih hsc he
    · right
      rcases ho with ho | ho
      · exact .inl (by omega)
      · exact .inr (by omega)

/-- What is inserted at the two ends of a value meets no edit around it. -/
theorem apart_insertion {arguments value : Tree} {n : Nat} (hb : Below arguments n value)
    {place : Place} {offset : Nat} (hs : arguments.All Tree.Sound) {e : Edit}
    (he : e ∈ editsOf b scope place offset arguments) (text : Text) :
    (Edit.insertion (offset + n + gapLength value) text).Apart e ∧
      (Edit.insertion (offset + n + value.source.length) text).Apart e := by
  have hgap := gapLength_le value
  rcases mem_or_outside_of_below b scope hb hs he with ⟨place', he⟩ | ho
  · have hw := within_editsOf b scope value place' (offset + n) (hb.all hs) e he
    exact ⟨.inl hw.1, .inr hw.2.2⟩
  · rcases ho with ho | ho
    · exact ⟨.inr (Nat.le_trans ho (Nat.le_add_right _ _)),
        .inr (Nat.le_trans ho (Nat.le_add_right _ _))⟩
    · exact ⟨.inl (Nat.le_trans (by dsimp only [Edit.insertion]; omega) ho), .inl ho⟩

/-! ## No two edits meet -/

/-- A token has no edits. -/
theorem editsOf_identifier {t : Tree} (hid : t.nodesAre (fun kind => kind != .identifier) = true)
    (hk : t.kind = .identifier) (place : Place) (offset : Nat) : editsOf b scope place offset t = [] := by
  cases t with
  | leaf role kind gap text => exact editsOf_leaf b scope role kind gap text place offset
  | node role kind children =>
    obtain rfl : kind = .identifier := hk
    rw [Tree.nodesAre] at hid
    cases hid

/-- What a call asks for by itself does not meet, neither among itself nor with what the walk finds in
the call. -/
theorem apart_callChanges {mergeLocale : Bool} {role : Role} {kind : Kind} {children : List Tree}
    {offset : Nat} (hid : Tree.nodesAreAll (fun kind => kind != .identifier) children = true)
    (hs : (Tree.node role kind children).All Tree.Sound) :
    ((callChanges b mergeLocale offset (.node role kind children)).flatMap
        (Change.edits b)).Pairwise Edit.Apart ∧
      ∀ e ∈ (callChanges b mergeLocale offset (.node role kind children)).flatMap (Change.edits b),
        ∀ (place : Place), ∀ f ∈ editsOfAll b scope place offset children, e.Apart f := by
  obtain ⟨renamed, merged, hcs, hr, hm⟩ := callChanges_cases b mergeLocale offset hs
  have hchildren := hs
  rw [Tree.All] at hchildren
  rw [hcs, List.flatMap_append]
  have hrenamed : ∀ e ∈ renamed.flatMap (Change.edits b), ∀ (place : Place),
      ∀ f ∈ editsOfAll b scope place offset children, e.Apart f := by
    rcases hr with rfl | ⟨before, callee, after, hrow, -, hk, rfl⟩
    · exact fun e he => absurd he List.not_mem_nil
    · intro e he place f hf
      have hlength := source_length_eq callee
      have hmem : callee ∈ children := by
        rw [show children = _ from hrow]
        exact List.mem_append_right _ (List.mem_cons_self ..)
      simp only [Change.edits, List.flatMap_singleton, List.mem_singleton] at he
      subst he
      rcases mem_or_outside_of_row b scope hchildren.2 hrow hf with hf | ho
      · rw [editsOf_identifier b scope (Tree.nodesAreAll_iff.1 hid callee hmem) hk] at hf
        cases hf
      · rcases ho with ho | ho
        · exact .inr (by dsimp only; omega)
        · exact .inl (by dsimp only; omega)
  have hmerged : ∀ e ∈ merged.flatMap (Change.edits b), ∀ (place : Place),
      ∀ f ∈ editsOfAll b scope place offset children, e.Apart f := by
    rcases hm with rfl | ⟨before, arguments, after, n, value, hrow, -, hb, rfl⟩
    · exact fun e he => absurd he List.not_mem_nil
    · intro e he place f hf
      have hspan := hb.span
      have hgap := gapLength_le value
      have hmem : arguments ∈ (Tree.node role kind children).children := by
        rw [hrow]
        exact List.mem_append_right _ (List.mem_cons_self ..)
      simp only [Change.edits, List.flatMap_singleton, List.mem_cons, List.not_mem_nil, or_false] at he
      rcases mem_or_outside_of_row b scope hchildren.2 hrow hf with hf | ho
      · have hins := apart_insertion b scope hb (hs.child hmem) hf
        rcases he with rfl | rfl
        · exact (hins _).1
        · exact (hins _).2
      · unfold Edit.Apart
        rcases he with rfl | rfl <;> dsimp only [Edit.insertion] <;> rcases ho with ho | ho <;> omega
  refine ⟨List.pairwise_append.2 ⟨?_, ?_, ?_⟩, ?_⟩
  · rcases hr with rfl | ⟨_, _, _, -, -, -, rfl⟩
    · exact List.Pairwise.nil
    · exact List.pairwise_singleton _ _
  · rcases hm with rfl | ⟨before, arguments, after, n, value, -, -, hb, rfl⟩
    · exact List.Pairwise.nil
    · have hgap := gapLength_le value
      refine List.pairwise_pair.2 (.inl ?_)
      dsimp only [Edit.insertion]
      omega
  · -- the callee and the arguments are different children
    rcases hr with rfl | ⟨before, callee, after, hrow, hrole, -, rfl⟩
    · exact fun e he => absurd he List.not_mem_nil
    · rcases hm with rfl | ⟨before', arguments, after', n, value, hrow', hrole', hb, rfl⟩
      · exact fun e _ f hf => absurd hf List.not_mem_nil
      · intro e he f hf
        have hne : callee ≠ arguments := by
          rintro rfl
          rw [hrole] at hrole'
          cases hrole'
        have hlength := source_length_eq callee
        have hspan := hb.span
        have hgap := gapLength_le value
        have hsiblings := siblings_apart hne (hrow.symm.trans hrow')
        simp only [Change.edits, List.flatMap_singleton, List.mem_singleton] at he
        simp only [Change.edits, List.flatMap_singleton, List.mem_cons, List.not_mem_nil,
          or_false] at hf
        subst he
        unfold Edit.Apart
        rcases hf with rfl | rfl <;> dsimp only [Edit.insertion] <;>
          rcases hsiblings with h | h <;> omega
  · intro e he
    rcases List.mem_append.1 he with he | he
    · exact hrenamed e he
    · exact hmerged e he

mutual

/-- No two edits that a walk finds in a tree meet. -/
theorem apart_editsOf :
    ∀ (t : Tree) (place : Place) (offset : Nat),
      t.nodesAre (fun kind => kind != .identifier) = true → t.All Tree.Sound →
      (editsOf b scope place offset t).Pairwise Edit.Apart
  | .leaf role kind gap text, place, offset, _, _ => by
    rw [editsOf_leaf]
    exact List.Pairwise.nil
  | .node role kind children, place, offset, hid, hs => by
    by_cases hk : kind = .string
    · subst hk
      rcases editsOf_string b scope role children place offset with h | h
      · rw [h]
        exact List.Pairwise.nil
      · rw [h]
        exact List.pairwise_singleton _ _
    · rw [Tree.nodesAre, Bool.and_eq_true] at hid
      have hall := hs
      rw [Tree.All] at hall
      have hrow := apart_editsOfAll children (place.inside (.node role kind children)) offset hid.2
        hall.2
      rw [editsOf_node b scope hk]
      unfold nodeChanges
      split
      · next mergeLocale _ =>
        obtain ⟨hown, hcross⟩ := apart_callChanges b (Scope.script mergeLocale) hid.2 hs
        exact List.pairwise_append.2 ⟨hown, hrow, fun e he f hf => hcross e he _ f hf⟩
      · exact hrow

theorem apart_editsOfAll :
    ∀ (ts : List Tree) (place : Place) (offset : Nat),
      Tree.nodesAreAll (fun kind => kind != .identifier) ts = true → Tree.AllIn Tree.Sound ts →
      (editsOfAll b scope place offset ts).Pairwise Edit.Apart
  | [], place, offset, _, _ => by
    rw [editsOfAll_nil]
    exact List.Pairwise.nil
  | t :: ts, place, offset, hid, hs => by
    rw [Tree.nodesAreAll, Bool.and_eq_true] at hid
    rw [Tree.AllIn] at hs
    rw [editsOfAll_cons]
    refine List.pairwise_append.2
      ⟨apart_editsOf t place offset hid.1 hs.1, apart_editsOfAll ts place _ hid.2 hs.2, ?_⟩
    intro e he f hf
    have hfirst := within_editsOf b scope t place offset hs.1 e he
    have hrest := within_editsOfAll b scope ts place _ hs.2 f hf
    exact hfirst.apart hrest (Nat.le_add_right _ _)

end

end Edits

end Phrasebook.Script
