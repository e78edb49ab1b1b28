import Phrasebook.Proofs.Edits
import Phrasebook.Proofs.NodeKinds
import Phrasebook.Proofs.Walk

/-!
A script as the row of its tokens. Instead of positions in a text, every token carries a mark that says
what localizing does to it: keep it, wrap it, or rename it. What the edits of a walk make of a script
is then read off the row, token by token:

    applyChanges b tree.source (changesIn b scope tree) = respell b (tokenRow b scope tree)

(`applyChanges_eq_respell`). The edits come from a walk that finds the renaming of a page before the
literals on its left, so the edits of the row are a reordering of those of the walk
(`perm_changes`). Merging the locale into data is not a matter of single tokens and is left out here.
-/

namespace Phrasebook.Script

/-! ## Tokens -/

/-- What localizing does to a token. -/
inductive Mark where
  | kept
  | wrapped
  | renamed
  deriving DecidableEq, Repr

/-- A token with the gap before it. A string literal is one token. -/
structure Token where
  gap : Text
  text : Text
  mark : Mark
  deriving DecidableEq, Repr

namespace Token

/-- The source text of a token, with its gap. -/
def source (k : Token) : Text := k.gap ++ k.text

/-- The tokens that stand in the place of a token afterwards. -/
def pieces (b : Bindings) (k : Token) : List Text :=
  match k.mark with
  | .kept => [k.text]
  | .wrapped => [b.receiver, ['.'], b.translate, ['('], k.text, [')']]
  | .renamed => [b.localizedPage]

/-- What is written in the place of a token, with its gap. -/
def respelled (b : Bindings) (k : Token) : Text := k.gap ++ (k.pieces b).flatten

end Token

/-- The source text of a row of tokens. -/
def rowSource (row : List Token) : Text := row.flatMap Token.source

/-- What is written in the place of a row of tokens. -/
def respell (b : Bindings) (row : List Token) : Text := row.flatMap (Token.respelled b)

theorem flatten_pieces_wrapped (b : Bindings) (gap text : Text) :
    (Token.pieces b ⟨gap, text, .wrapped⟩).flatten = b.call text := by
  simp [Token.pieces, Bindings.call]

/-! ## The row of a tree -/

mutual

/-- The tokens of a tree. -/
def Tree.tokens : Tree → List Text
  | .leaf _ _ _ text => [text]
  | .node role kind children =>
    if kind = .string then [(Tree.node role kind children).text] else Tree.tokensAll children

/-- The tokens of a row of trees. -/
def Tree.tokensAll : List Tree → List Text
  | [] => []
  | t :: ts => Tree.tokens t ++ Tree.tokensAll ts

end

/-- Whether a tree is a call that registers a page under the old name. -/
def renames (b : Bindings) (scope : Scope) (t : Tree) : Bool :=
  match scope with
  | .expression => false
  | .script _ =>
    t.kind == .call &&
      (t.child? .callee).any fun callee => callee.kind == .identifier && callee.text == b.page

mutual

/-- The marked tokens of a tree; `renamed` says whether the tree is a callee to rename. -/
def row (b : Bindings) (scope : Scope) (place : Place) (renamed : Bool) : Tree → List Token
  | .leaf _ _ gap text => [⟨gapText gap, text, if renamed then .renamed else .kept⟩]
  | .node role kind children =>
    let t := Tree.node role kind children
    if kind = .string then
      [⟨gapText t.leadingGap, t.text, if wraps b place.forChild t then .wrapped else .kept⟩]
    else rowAll b scope (place.inside t) (renames b scope t) children

/-- The marked tokens of a row of trees; `renamed` says whether its callee is to be renamed. -/
def rowAll (b : Bindings) (scope : Scope) (place : Place) (renamed : Bool) : List Tree → List Token
  | [] => []
  | t :: ts =>
    row b scope place (renamed && t.role == .callee) t ++
      rowAll b scope place (renamed && t.role != .callee) ts

end

/-- The marked tokens of a script. -/
def tokenRow (b : Bindings) (scope : Scope) (script : Tree) : List Token :=
  row b scope ⟨.program, none⟩ false script

mutual

/-- The row of a tree holds every character of its source. -/
theorem rowSource_row (b : Bindings) (scope : Scope) :
    ∀ (t : Tree) (place : Place) (renamed : Bool),
      rowSource (row b scope place renamed t) = t.source
  | .leaf _ _ gap text, place, renamed => by
    simp [row, rowSource, Token.source, Tree.source]
  | .node role kind children, place, renamed => by
    rw [row]
    split
    · rw [rowSource, List.flatMap_singleton]
      exact Tree.gapText_append_text _
    · rw [Tree.source]
      exact rowSource_rowAll b scope children _ _

theorem rowSource_rowAll (b : Bindings) (scope : Scope) :
    ∀ (ts : List Tree) (place : Place) (renamed : Bool),
      rowSource (rowAll b scope place renamed ts) = Tree.sourceAll ts
  | [], place, renamed => by
    rw [rowAll]
    rfl
  | t :: ts, place, renamed => by
    have ht := rowSource_row b scope t place (renamed && t.role == .callee)
    have hts := rowSource_rowAll b scope ts place (renamed && t.role != .callee)
    rw [rowAll, rowSource, List.flatMap_append, Tree.sourceAll, ← ht, ← hts]
    rfl

end

mutual

/-- The row of a tree holds the tokens of the tree. -/
theorem map_text_row (b : Bindings) (scope : Scope) :
    ∀ (t : Tree) (place : Place) (renamed : Bool),
      (row b scope place renamed t).map Token.text = t.tokens
  | .leaf _ _ gap text, place, renamed => by simp [row, Tree.tokens]
  | .node role kind children, place, renamed => by
    rw [row, Tree.tokens]
    split
    · rfl
    · exact map_text_rowAll b scope children _ _

theorem map_text_rowAll (b : Bindings) (scope : Scope) :
    ∀ (ts : List Tree) (place : Place) (renamed : Bool),
      (rowAll b scope place renamed ts).map Token.text = Tree.tokensAll ts
  | [], place, renamed => by
    rw [rowAll, Tree.tokensAll]
    rfl
  | t :: ts, place, renamed => by
    rw [rowAll, Tree.tokensAll, List.map_append, map_text_row b scope t,
      map_text_rowAll b scope ts]

end

/-! ## The edits of a row -/

/-- The edit of a token that starts at `offset` with its gap. -/
def tokenEdits (b : Bindings) (offset : Nat) (k : Token) : List Edit :=
  if k.mark = .kept then []
  else
    [⟨offset + k.gap.length, offset + k.gap.length + k.text.length, (k.pieces b).flatten⟩]

/-- The edits of a row of tokens that starts at `offset`, from left to right. -/
def rowEdits (b : Bindings) (offset : Nat) : List Token → List Edit
  | [] => []
  | k :: ks => tokenEdits b offset k ++ rowEdits b (offset + k.source.length) ks

theorem rowEdits_append (b : Bindings) (offset : Nat) (ks ls : List Token) :
    rowEdits b offset (ks ++ ls) =
      rowEdits b offset ks ++ rowEdits b (offset + (rowSource ks).length) ls := by
  induction ks generalizing offset with
  | nil => rfl
  | cons k ks ih =>
    have hl : offset + (rowSource (k :: ks)).length =
        offset + k.source.length + (rowSource ks).length := by
      simp only [rowSource, List.flatMap_cons, List.length_append]
      omega
    rw [List.cons_append, rowEdits, rowEdits, ih, List.append_assoc, hl]

/-- Applying the edits of a row from left to right respells the row. -/
theorem applyOrdered_rowEdits (b : Bindings) (ks : List Token) (position : Nat) (before : Text) :
    Edit.applyOrdered position (before ++ rowSource ks)
        (rowEdits b (position + before.length) ks) = before ++ respell b ks := by
  induction ks generalizing position before with
  | nil => simp [rowEdits, rowSource, respell, Edit.applyOrdered]
  | cons k ks ih =>
    have hsource : rowSource (k :: ks) = k.source ++ rowSource ks := by
      simp [rowSource]
    have hspell : respell b (k :: ks) = k.respelled b ++ respell b ks := by
      simp [respell]
    rw [hsource, hspell, rowEdits, tokenEdits]
    split
    · next hk =>
      -- a kept token joins what stands before the next edit
      have hr : k.respelled b = k.source := by simp [Token.respelled, Token.pieces, hk, Token.source]
      have := ih position (before ++ k.source)
      rw [List.length_append, ← Nat.add_assoc] at this
      rw [List.nil_append, hr, ← List.append_assoc, ← List.append_assoc, this]
    · have hdrop : (before ++ (k.source ++ rowSource ks)).drop
          (position + before.length + k.gap.length + k.text.length - position) = rowSource ks := by
        have hl : position + before.length + k.gap.length + k.text.length - position =
            (before ++ k.source).length := by
          simp only [Token.source, List.length_append]
          omega
        rw [hl, ← List.append_assoc, List.drop_left]
      have htake : (before ++ (k.source ++ rowSource ks)).take
          (position + before.length + k.gap.length - position) = before ++ k.gap := by
        have hl : position + before.length + k.gap.length - position =
            (before ++ k.gap).length := by
          simp only [List.length_append]
          omega
        rw [hl, Token.source, List.append_assoc, ← List.append_assoc before, List.take_left]
      have hrest := ih (position + before.length + k.gap.length + k.text.length) []
      have hl : position + before.length + k.source.length =
          position + before.length + k.gap.length + k.text.length := by
        simp only [Token.source, List.length_append]
        omega
      simp only [List.nil_append, List.length_nil, Nat.add_zero] at hrest
      have hnot : ¬ position + before.length + k.gap.length < position := by omega
      rw [List.singleton_append, Edit.applyOrdered, if_neg hnot]
      dsimp only
      rw [hdrop, htake, hl, hrest, Token.respelled]
      simp only [List.append_assoc]

/-- Marked tokens are not empty. -/
def MarkedNonempty (ks : List Token) : Prop := ∀ k ∈ ks, k.mark ≠ .kept → k.text ≠ []

theorem le_start_of_mem_rowEdits {b : Bindings} {ks : List Token} {offset : Nat} {e : Edit}
    (h : e ∈ rowEdits b offset ks) : offset ≤ e.start := by
  induction ks generalizing offset with
  | nil => cases h
  | cons k ks ih =>
    rw [rowEdits, List.mem_append, tokenEdits] at h
    rcases h with h | h
    · split at h
      · cases h
      · rw [List.mem_singleton] at h
        subst h
        exact Nat.le_add_right _ _
    · have := ih h
      omega

/-- The edits of a row stand in order, one after the other. -/
theorem pairwise_rowEdits {b : Bindings} {ks : List Token} (h : MarkedNonempty ks) (offset : Nat) :
    (rowEdits b offset ks).Pairwise Edit.Precedes := by
  induction ks generalizing offset with
  | nil => exact List.Pairwise.nil
  | cons k ks ih =>
    have htail := ih (fun l hl => h l (List.mem_cons_of_mem k hl)) (offset + k.source.length)
    rw [rowEdits, tokenEdits]
    split
    · exact htail
    · next hk =>
      rw [List.singleton_append, List.pairwise_cons]
      refine ⟨?_, htail⟩
      intro e he
      have hle := le_start_of_mem_rowEdits he
      have hne := List.length_pos_iff.2 (h k (List.mem_cons_self ..) hk)
      simp only [Token.source, List.length_append] at hle
      left
      show offset + k.gap.length < e.start
      omega

/-! ## Marked tokens are not empty -/

theorem text_leaf (role : Role) (kind : Kind) (gap : Gap) (text : Text) :
    (Tree.leaf role kind gap text).text = text := by
  rw [Tree.text, Tree.source, Tree.leadingGap, List.drop_left]

theorem exists_leaf_of_partUnits_ne_nil {c : Tree} (h : partUnits c ≠ []) :
    ∃ role kind gap text, c = .leaf role kind gap text ∧ text ≠ [] := by
  unfold partUnits at h
  split at h
  · next role gap text =>
    refine ⟨role, _, gap, text, rfl, ?_⟩
    rintro rfl
    exact h rfl
  · next role gap text =>
    refine ⟨role, _, gap, text, rfl, ?_⟩
    rintro rfl
    exact h rfl
  · exact absurd rfl h

/-- A row of trees that is all leading gap holds no characters in its leaves. -/
theorem text_eq_nil_of_mem {role : Role} {kind : Kind} {children : List Tree}
    (h : (Tree.node role kind children).text = []) {c : Tree} (hc : c ∈ children) : c.text = [] := by
  cases children with
  | nil => cases hc
  | cons d ds =>
    have hd := d.gapText_append_text
    have hnode := (Tree.node role kind (d :: ds)).gapText_append_text
    rw [h, List.append_nil, Tree.source, Tree.sourceAll, ← hd, List.append_assoc] at hnode
    have hnil := List.append_right_eq_self.1 hnode.symm
    obtain ⟨hdt, hds⟩ := List.append_eq_nil_iff.1 hnil
    rcases List.mem_cons.1 hc with rfl | hc
    · exact hdt
    · obtain ⟨u, w, rfl⟩ := List.append_of_mem hc
      rw [Tree.sourceAll_append, Tree.sourceAll] at hds
      have hcs := (List.append_eq_nil_iff.1 (List.append_eq_nil_iff.1 hds).2).1
      rw [← c.gapText_append_text] at hcs
      exact (List.append_eq_nil_iff.1 hcs).2

/-- A literal that is wrapped is not empty. -/
theorem text_ne_nil_of_wraps {b : Bindings} {place : Place} {role : Role} {kind : Kind}
    {children : List Tree} (h : wraps b place (.node role kind children) = true) :
    (Tree.node role kind children).text ≠ [] := by
  intro hnil
  have hnatural : Text.isNatural (literalValue (.node role kind children)) = true := by
    rw [wraps, Bool.and_eq_true] at h
    exact h.2
  have hunits : children.flatMap partUnits ≠ [] := by
    intro hu
    rw [literalValue, Tree.children, hu] at hnatural
    cases hnatural
  obtain ⟨c, hc, hp⟩ : ∃ c ∈ children, partUnits c ≠ [] := by
    simpa [List.flatMap_eq_nil_iff] using hunits
  obtain ⟨role', kind', gap, text, rfl, hne⟩ := exists_leaf_of_partUnits_ne_nil hp
  have := text_eq_nil_of_mem hnil hc
  rw [text_leaf] at this
  exact hne this

/-! ## Renaming -/

/-- The callee of a row of trees is one token with the name of a page. -/
def HasPageCallee (b : Bindings) (ts : List Tree) : Prop :=
  ∃ role kind gap, ts.find? (·.role == .callee) = some (.leaf role kind gap b.page)

/-- A call is renamed when its callee is the name of a page, and a parsed callee is one token. -/
theorem hasPageCallee_of_renames {b : Bindings} {scope : Scope} {role : Role} {kind : Kind}
    {children : List Tree} (hid : Tree.nodesAreAll (fun kind => kind != .identifier) children = true)
    (h : renames b scope (.node role kind children) = true) : HasPageCallee b children := by
  cases scope with
  | expression => cases h
  | script mergeLocale =>
    rw [renames, Bool.and_eq_true] at h
    obtain ⟨callee, hc, hcallee⟩ := (Option.any_eq_true _ _).1 h.2
    rw [Bool.and_eq_true, beq_iff_eq, beq_iff_eq] at hcallee
    have hmem : callee ∈ children := List.mem_of_find?_eq_some hc
    cases callee with
    | leaf role' kind' gap text =>
      have ht : text = b.page := by
        rw [← hcallee.2, text_leaf]
      exact ⟨role', kind', gap, ht ▸ hc⟩
    | node role' kind' children' =>
      have hk : kind' = .identifier := hcallee.1
      have := Tree.nodesAreAll_iff.1 hid _ hmem
      rw [Tree.nodesAre, hk] at this
      cases this

theorem nodeChanges_of_renames {b : Bindings} {scope : Scope} {t : Tree} (hm : scope ≠ .script true)
    (h : renames b scope t = true) (offset : Nat) {callee : Tree}
    (hc : t.child? .callee = some callee) :
    nodeChanges b scope offset t =
      [.rename (offset + startIn t.children (·.role == .callee) + gapLength callee) b.page] := by
  cases scope with
  | expression => cases h
  | script mergeLocale =>
    cases mergeLocale with
    | true => exact absurd rfl hm
    | false =>
      rw [renames, hc, Bool.and_eq_true, Option.any_some, Bool.and_eq_true] at h
      simp only [beq_iff_eq] at h
      obtain ⟨hk, hkc, hn⟩ := h
      simp [nodeChanges, hk, callChanges, hc, hkc, hn]

theorem nodeChanges_of_not_renames {b : Bindings} {scope : Scope} {t : Tree}
    (hm : scope ≠ .script true) (h : renames b scope t = false) (offset : Nat) :
    nodeChanges b scope offset t = [] := by
  rw [nodeChanges_eq_nil_iff]
  intro mergeLocale hs hk callee hc hi
  subst hs
  rw [renames, hk] at h
  rw [Option.mem_def.1 hc] at h
  refine ⟨?_, fun hml => absurd (by rw [hml]) hm⟩
  intro hp
  simp [hi, hp] at h

/-- Renaming the callee of a row adds one edit to those of the row. -/
theorem rowEdits_renamed {b : Bindings} {scope : Scope} {place : Place} {ts : List Tree} {role : Role}
    {kind : Kind} {gap : Gap} {text : Text}
    (h : ts.find? (·.role == .callee) = some (.leaf role kind gap text)) (offset : Nat) :
    (rowEdits b offset (rowAll b scope place true ts)).Perm
      (⟨offset + startIn ts (·.role == .callee) + (gapText gap).length,
        offset + startIn ts (·.role == .callee) + (gapText gap).length + text.length,
        b.localizedPage⟩ :: rowEdits b offset (rowAll b scope place false ts)) := by
  induction ts generalizing offset with
  | nil => cases h
  | cons t ts ih =>
    rw [rowAll, rowAll, Bool.true_and, Bool.true_and, Bool.false_and, Bool.false_and]
    by_cases hr : (t.role == .callee) = true
    · simp only [List.find?_cons, hr] at h
      cases h
      have hn : ((Tree.leaf role kind gap text).role != .callee) = false := by
        rw [bne, hr]
        rfl
      have hstart : startIn (Tree.leaf role kind gap text :: ts) (·.role == .callee) = 0 := by
        rw [startIn, List.takeWhile_cons_of_neg (by simp [hr])]
        rfl
      rw [hr, hn, hstart, row, row, if_pos rfl, if_neg Bool.false_ne_true, rowEdits_append,
        rowEdits_append]
      simp [rowEdits, tokenEdits, Token.pieces, rowSource, Token.source]
    · have hf : (t.role == .callee) = false := by simpa using hr
      simp only [List.find?_cons, hf] at h
      have hn : (t.role != .callee) = true := by rw [bne, hf]; rfl
      have hstart : startIn (t :: ts) (·.role == .callee) =
          t.source.length + startIn ts (·.role == .callee) := by
        rw [startIn, List.takeWhile_cons_of_pos (by simp [hf]), Tree.sourceAll, List.length_append]
        rfl
      rw [hf, hn, hstart, rowEdits_append, rowEdits_append, rowSource_row]
      refine ((ih h (offset + t.source.length)).append_left _).trans ?_
      simp only [Nat.add_assoc]
      exact List.perm_middle

mutual

/-- Wrapped tokens of a row are not empty, and renamed ones are names of pages. -/
theorem marks_of_mem_row {b : Bindings} {scope : Scope} :
    ∀ (t : Tree) (place : Place) (renamed : Bool),
      t.nodesAre (fun kind => kind != .identifier) = true →
      (renamed = true → ∃ role kind gap, t = .leaf role kind gap b.page) →
      ∀ k ∈ row b scope place renamed t,
        (k.mark = .wrapped → k.text ≠ []) ∧ (k.mark = .renamed → k.text = b.page)
  | .leaf role kind gap text, place, renamed, _, hr, k, hk => by
    rw [row, List.mem_singleton] at hk
    subst hk
    cases renamed with
    | false => exact ⟨(by intro h; cases h), (by intro h; cases h)⟩
    | true =>
      obtain ⟨_, _, _, ht⟩ := hr rfl
      cases ht
      exact ⟨(by intro h; cases h), fun _ => rfl⟩
  | .node role kind children, place, renamed, hid, hr, k, hk => by
    rw [row] at hk
    split at hk
    · rw [List.mem_singleton] at hk
      subst hk
      split
      · next hw => exact ⟨fun _ => text_ne_nil_of_wraps hw, (by intro h; cases h)⟩
      · exact ⟨(by intro h; cases h), (by intro h; cases h)⟩
    · rw [Tree.nodesAre, Bool.and_eq_true] at hid
      exact marks_of_mem_rowAll children _ _ hid.2 (hasPageCallee_of_renames hid.2) k hk

theorem marks_of_mem_rowAll {b : Bindings} {scope : Scope} :
    ∀ (ts : List Tree) (place : Place) (renamed : Bool),
      Tree.nodesAreAll (fun kind => kind != .identifier) ts = true →
      (renamed = true → HasPageCallee b ts) →
      ∀ k ∈ rowAll b scope place renamed ts,
        (k.mark = .wrapped → k.text ≠ []) ∧ (k.mark = .renamed → k.text = b.page)
  | [], place, renamed, _, _, k, hk => by
    rw [rowAll] at hk
    cases hk
  | t :: ts, place, renamed, hid, hr, k, hk => by
    rw [Tree.nodesAreAll, Bool.and_eq_true] at hid
    rw [rowAll] at hk
    rcases List.mem_append.1 hk with hk | hk
    · refine marks_of_mem_row t place _ hid.1 ?_ k hk
      intro hb
      rw [Bool.and_eq_true] at hb
      obtain ⟨role, kind, gap, hf⟩ := hr hb.1
      simp only [List.find?_cons, hb.2, Option.some.injEq] at hf
      exact ⟨role, kind, gap, hf⟩
    · refine marks_of_mem_rowAll ts place _ hid.2 ?_ k hk
      intro hb
      rw [Bool.and_eq_true] at hb
      have hf' : (t.role == .callee) = false := by simpa using hb.2
      obtain ⟨role, kind, gap, hf⟩ := hr hb.1
      simp only [List.find?_cons, hf'] at hf
      exact ⟨role, kind, gap, hf⟩

end

/-! ## The edits of the walk are those of the row -/

mutual

theorem perm_changes (b : Bindings) {scope : Scope} (hm : scope ≠ .script true) :
    ∀ (t : Tree) (place : Place) (offset : Nat),
      t.nodesAre (fun kind => kind != .identifier) = true →
      ((changes b scope place offset t).flatMap (Change.edits b)).Perm
        (rowEdits b offset (row b scope place false t))
  | .leaf role kind gap text, place, offset, _ => by
    rw [changes, row, rowEdits, rowEdits, tokenEdits, if_neg Bool.false_ne_true, if_pos rfl]
    exact List.Perm.refl _
  | .node role kind children, place, offset, hid => by
    rw [changes, row]
    split
    · rw [rowEdits, rowEdits, tokenEdits]
      split
      · rw [if_neg (by simp), flatten_pieces_wrapped]
        exact List.Perm.refl _
      · rw [if_pos rfl]
        exact List.Perm.refl _
    · rw [Tree.nodesAre, Bool.and_eq_true] at hid
      have hrow := perm_changesAll b hm children (place.inside (.node role kind children)) offset hid.2
      rw [List.flatMap_append]
      cases hr : renames b scope (.node role kind children) with
      | false =>
        rw [nodeChanges_of_not_renames hm hr]
        exact hrow
      | true =>
        obtain ⟨role', kind', gap, hc⟩ := hasPageCallee_of_renames hid.2 hr
        rw [nodeChanges_of_renames hm hr offset hc]
        exact (hrow.cons _).trans (rowEdits_renamed hc offset).symm

theorem perm_changesAll (b : Bindings) {scope : Scope} (hm : scope ≠ .script true) :
    ∀ (ts : List Tree) (place : Place) (offset : Nat),
      Tree.nodesAreAll (fun kind => kind != .identifier) ts = true →
      ((changesAll b scope place offset ts).flatMap (Change.edits b)).Perm
        (rowEdits b offset (rowAll b scope place false ts))
  | [], place, offset, _ => by
    rw [changesAll, rowAll]
    exact List.Perm.refl _
  | t :: ts, place, offset, hid => by
    rw [Tree.nodesAreAll, Bool.and_eq_true] at hid
    rw [changesAll, rowAll, Bool.false_and, Bool.false_and, List.flatMap_append, rowEdits_append,
      rowSource_row]
    exact (perm_changes b hm t place offset hid.1).append
      (perm_changesAll b hm ts place (offset + t.source.length) hid.2)

end

/-- Making the changes of a walk in a parsed script respells its row of tokens. -/
theorem applyChanges_eq_respell {b : Bindings} (hb : b.page ≠ []) {scope : Scope}
    (hm : scope ≠ .script true) {source : Text} {tree : Tree} (hp : parse source = .ok tree) :
    applyChanges b source (changesIn b scope tree) = respell b (tokenRow b scope tree) := by
  have hid := identifiers_are_leaves hp
  have hperm := perm_changes b hm tree ⟨.program, none⟩ 0 hid
  have hmarked : MarkedNonempty (tokenRow b scope tree) := by
    intro k hk hne
    obtain ⟨hw, hr⟩ := marks_of_mem_row tree _ false hid (fun h => by cases h) k hk
    cases hmark : k.mark with
    | kept => exact absurd hmark hne
    | wrapped => exact hw hmark
    | renamed =>
      rw [hr hmark]
      exact hb
  have horder := Edit.order_eq_of_perm hperm (pairwise_rowEdits hmarked 0)
  have hsource : rowSource (tokenRow b scope tree) = source := by
    rw [tokenRow, rowSource_row, source_of_parse hp]
  have happly := applyOrdered_rowEdits b (tokenRow b scope tree) 0 []
  rw [hsource] at happly
  rw [applyChanges, Edit.apply, changesIn, horder]
  exact happly

end Phrasebook.Script
