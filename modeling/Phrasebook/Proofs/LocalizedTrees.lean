import Phrasebook.Proofs.Spans
import Phrasebook.Proofs.TreeShapes

/-!
The tree of a script after its localization. `localized` makes the changes that the walk finds in the
tree itself: a literal that is wrapped becomes a call of the look-up function, a page that is renamed
gets its new name, and the value that the locale is merged into becomes a call that merges it. Everything
else stays where it was.

What stands around a tree sees little of these changes: its role, the gap before it and whether it is
more than punctuation stay (`role_localized`, `leadingGap_localized`, `isNamed_localized`), and so does
the kind of all trees but wrapped literals (`kind_localized`).
-/

namespace Phrasebook.Script

/-! ## Changing one tree of a row -/

/-- Changes the first tree of a row that satisfies `p`. -/
def mapFirst (p : Tree → Bool) (f : Tree → Tree) : List Tree → List Tree
  | [] => []
  | t :: ts => if p t then f t :: ts else t :: mapFirst p f ts

section

variable {p q : Tree → Bool} {f : Tree → Tree}

theorem find?_mapFirst (h : ∀ t, p t = true → p (f t) = true) (ts : List Tree) :
    (mapFirst p f ts).find? p = (ts.find? p).map f := by
  induction ts with
  | nil => rfl
  | cons t ts ih =>
    rw [mapFirst]
    split
    · next hp =>
      rw [List.find?_cons_of_pos (h t hp), List.find?_cons_of_pos hp]
      rfl
    · next hp => rw [List.find?_cons_of_neg hp, List.find?_cons_of_neg hp, ih]

theorem find?_mapFirst_of_ne (h : ∀ t, p t = true → q t = false ∧ q (f t) = false)
    (ts : List Tree) : (mapFirst p f ts).find? q = ts.find? q := by
  induction ts with
  | nil => rfl
  | cons t ts ih =>
    rw [mapFirst]
    split
    · next hp =>
      obtain ⟨hq, hqf⟩ := h t hp
      rw [List.find?_cons_of_neg (by simp [hqf]), List.find?_cons_of_neg (by simp [hq])]
    · rw [List.find?_cons, List.find?_cons, ih]

theorem mem_mapFirst {c : Tree} {ts : List Tree} (h : c ∈ mapFirst p f ts) :
    c ∈ ts ∨ ∃ d, ts.find? p = some d ∧ c = f d := by
  induction ts with
  | nil => cases h
  | cons t ts ih =>
    rw [mapFirst] at h
    split at h
    · next hp =>
      rcases List.mem_cons.1 h with rfl | h
      · exact .inr ⟨t, List.find?_cons_of_pos hp, rfl⟩
      · exact .inl (List.mem_cons_of_mem t h)
    · next hp =>
      rcases List.mem_cons.1 h with rfl | h
      · exact .inl (List.mem_cons_self ..)
      · refine (ih h).imp (List.mem_cons_of_mem t) ?_
        rintro ⟨d, hd, rfl⟩
        exact ⟨d, by rw [List.find?_cons_of_neg hp, hd], rfl⟩

theorem leadingGapAll_mapFirst (hf : ∀ t, (f t).leadingGap = t.leadingGap) (ts : List Tree) :
    Tree.leadingGapAll (mapFirst p f ts) = Tree.leadingGapAll ts := by
  cases ts with
  | nil => rfl
  | cons t ts =>
    rw [mapFirst]
    split
    · exact hf t
    · rfl

end

/-! ## Changing a child -/

namespace Tree

/-- Changes the first child that satisfies `p`. -/
def onChild (p : Tree → Bool) (f : Tree → Tree) : Tree → Tree
  | .leaf role kind gap text => .leaf role kind gap text
  | .node role kind children => .node role kind (mapFirst p f children)

/-- Changes the child that `firstNamed?` finds. -/
def onFirstNamed (f : Tree → Tree) : Tree → Tree
  | .node role kind (c :: cs) => .node role kind (c :: mapFirst isNamed f cs)
  | t => t

section

variable {p : Tree → Bool} {f : Tree → Tree} (t : Tree)

@[simp] theorem role_onChild : (t.onChild p f).role = t.role := by cases t <;> rfl

@[simp] theorem kind_onChild : (t.onChild p f).kind = t.kind := by cases t <;> rfl

theorem children_onChild : (t.onChild p f).children = mapFirst p f t.children := by cases t <;> rfl

theorem leadingGap_onChild (hf : ∀ c, (f c).leadingGap = c.leadingGap) :
    (t.onChild p f).leadingGap = t.leadingGap := by
  cases t with
  | leaf => rfl
  | node role kind children => exact leadingGapAll_mapFirst hf children

@[simp] theorem role_onFirstNamed : (t.onFirstNamed f).role = t.role := by
  unfold onFirstNamed
  split <;> rfl

@[simp] theorem kind_onFirstNamed : (t.onFirstNamed f).kind = t.kind := by
  unfold onFirstNamed
  split <;> rfl

@[simp] theorem leadingGap_onFirstNamed : (t.onFirstNamed f).leadingGap = t.leadingGap := by
  unfold onFirstNamed
  split <;> rfl

variable {t}

/-- The child that is changed, seen by its role. -/
theorem child?_onChild {role : Role} (hf : ∀ c, (f c).role = c.role) :
    (t.onChild (·.role == role) f).child? role = (t.child? role).map f := by
  rw [child?, children_onChild]
  exact find?_mapFirst (fun c hc => by rwa [hf]) _

theorem child?_onChild_of_ne {role role' : Role} (hne : role ≠ role') (hf : ∀ c, (f c).role = c.role) :
    (t.onChild (·.role == role) f).child? role' = t.child? role' := by
  rw [child?, children_onChild]
  refine find?_mapFirst_of_ne (fun c hc => ?_) _
  rw [beq_iff_eq] at hc
  rw [hf, hc]
  simp [hne]

theorem isNamed_eq_of_kind {s t : Tree} (h : s.kind = t.kind) : s.isNamed = t.isNamed := by
  rw [isNamed, h, isNamed]

/-- The first named tree of a row that is changed as a whole. -/
theorem firstNamed?_go_map (hgap : ∀ c, (f c).leadingGap = c.leadingGap)
    (hnamed : ∀ c, (f c).isNamed = c.isNamed) (ts : List Tree) :
    firstNamed?.go (ts.map f) = (firstNamed?.go ts).map f := by
  induction ts with
  | nil => rfl
  | cons c ts ih =>
    rw [List.map_cons, firstNamed?.go, firstNamed?.go, hgap, hnamed, ih]
    split
    · rfl
    · split <;> rfl

/-- A row in which one tree is changed. -/
theorem firstNamed?_go_mapFirst (hgap : ∀ c, (f c).leadingGap = c.leadingGap)
    (hnamed : ∀ c, (f c).isNamed = c.isNamed) (ts : List Tree) :
    firstNamed?.go (mapFirst p f ts) = firstNamed?.go ts ∨
      firstNamed?.go (mapFirst p f ts) = (firstNamed?.go ts).map f := by
  induction ts with
  | nil => exact .inl rfl
  | cons c ts ih =>
    rw [mapFirst]
    split
    · rw [firstNamed?.go, firstNamed?.go, hgap, hnamed]
      split
      · exact .inl rfl
      · split
        · exact .inr rfl
        · exact .inl rfl
    · rw [firstNamed?.go, firstNamed?.go]
      split
      · exact .inl rfl
      · split
        · exact .inl rfl
        · exact ih

theorem firstNamed?_go_mapFirst_isNamed (hgap : ∀ c, (f c).leadingGap = c.leadingGap)
    (hnamed : ∀ c, (f c).isNamed = c.isNamed) (ts : List Tree) :
    firstNamed?.go (mapFirst isNamed f ts) = (firstNamed?.go ts).map f := by
  induction ts with
  | nil => rfl
  | cons c ts ih =>
    rw [mapFirst]
    split
    · next hc =>
      rw [firstNamed?.go, firstNamed?.go, hgap, hnamed, if_pos hc, if_pos hc]
      split <;> rfl
    · next hc =>
      rw [firstNamed?.go, firstNamed?.go, if_neg hc, if_neg hc, ih]
      split <;> rfl

theorem firstNamed?_onFirstNamed (hgap : ∀ c, (f c).leadingGap = c.leadingGap)
    (hnamed : ∀ c, (f c).isNamed = c.isNamed) :
    (t.onFirstNamed f).firstNamed? = t.firstNamed?.map f := by
  unfold onFirstNamed
  split
  · exact firstNamed?_go_mapFirst_isNamed hgap hnamed _
  · next hnone =>
    -- a tree without children
    cases t with
    | leaf => rfl
    | node role kind children =>
      cases children with
      | nil => rfl
      | cons c cs => exact absurd rfl (hnone role kind c cs)

/-- The child that `firstNamed?` finds when any one child is changed. -/
theorem firstNamed?_onChild (hgap : ∀ c, (f c).leadingGap = c.leadingGap)
    (hnamed : ∀ c, (f c).isNamed = c.isNamed) :
    (t.onChild p f).firstNamed? = t.firstNamed? ∨
      (t.onChild p f).firstNamed? = t.firstNamed?.map f := by
  cases t with
  | leaf => exact .inl rfl
  | node role kind children =>
    cases children with
    | nil => exact .inl rfl
    | cons c cs =>
      show firstNamed?.go ((mapFirst p f (c :: cs)).drop 1) = firstNamed?.go cs ∨
        firstNamed?.go ((mapFirst p f (c :: cs)).drop 1) = (firstNamed?.go cs).map f
      rw [mapFirst]
      split
      · exact .inl rfl
      · exact firstNamed?_go_mapFirst hgap hnamed cs

theorem mem_children_of_firstNamed? {c : Tree} (h : t.firstNamed? = some c) : c ∈ t.children :=
  List.mem_of_mem_drop (List.mem_of_find?_eq_some (find?_of_firstNamed?_go h))

theorem mem_children_onFirstNamed {c o : Tree} (ho : t.firstNamed? = some o)
    (h : c ∈ (t.onFirstNamed f).children) : c ∈ t.children ∨ c = f o := by
  unfold onFirstNamed at h
  split at h
  · next d ds =>
    rcases List.mem_cons.1 h with rfl | h
    · exact .inl (List.mem_cons_self ..)
    · refine (mem_mapFirst h).imp (List.mem_cons_of_mem d) ?_
      rintro ⟨o', ho', rfl⟩
      have hfound : ds.find? isNamed = some o := find?_of_firstNamed?_go ho
      rw [hfound, Option.some.injEq] at ho'
      rw [ho']
  · exact .inl h

theorem mem_children_of_child? {c : Tree} {role : Role} (h : t.child? role = some c) :
    c ∈ t.children ∧ c.role = role :=
  ⟨List.mem_of_find?_eq_some h, by simpa using List.find?_some h⟩

end

end Tree

/-! ## Changing the gap before a tree -/

namespace Tree

mutual

/-- The same tree after another gap. -/
def withGap (gap : Gap) : Tree → Tree
  | .leaf role kind _ text => .leaf role kind gap text
  | .node role kind children => .node role kind (withGapAll gap children)

def withGapAll (gap : Gap) : List Tree → List Tree
  | [] => []
  | t :: ts => withGap gap t :: ts

end

section

variable (gap : Gap) (t : Tree)

@[simp] theorem role_withGap : (t.withGap gap).role = t.role := by cases t <;> rfl

@[simp] theorem kind_withGap : (t.withGap gap).kind = t.kind := by cases t <;> rfl

theorem children_withGap : (t.withGap gap).children = withGapAll gap t.children := by
  cases t <;> simp [withGap, children, withGapAll]

@[simp] theorem firstNamed?_withGap : (t.withGap gap).firstNamed? = t.firstNamed? := by
  rw [firstNamed?, children_withGap, firstNamed?]
  cases t.children <;> rfl

mutual

/-- A tree is its gap and something else, and only the gap changes. -/
theorem exists_source_withGap (gap : Gap) : ∀ t : Tree, ∃ body,
    t.source = gapText t.leadingGap ++ body ∧
      (t.withGap gap).source = gapText (t.withGap gap).leadingGap ++ body
  | .leaf _ _ _ text => ⟨text, rfl, rfl⟩
  | .node _ _ children => exists_sourceAll_withGap gap children

theorem exists_sourceAll_withGap (gap : Gap) : ∀ ts : List Tree, ∃ body,
    sourceAll ts = gapText (leadingGapAll ts) ++ body ∧
      sourceAll (withGapAll gap ts) = gapText (leadingGapAll (withGapAll gap ts)) ++ body
  | [] => ⟨[], rfl, rfl⟩
  | t :: ts => by
    obtain ⟨body, ht, hg⟩ := exists_source_withGap gap t
    refine ⟨body ++ sourceAll ts, ?_, ?_⟩
    · rw [sourceAll, ht, leadingGapAll, List.append_assoc]
    · rw [withGapAll, sourceAll, hg, leadingGapAll, List.append_assoc]

end

@[simp] theorem text_withGap : (t.withGap gap).text = t.text := by
  obtain ⟨body, ht, hg⟩ := exists_source_withGap gap t
  rw [text, hg, List.drop_left, text, ht, List.drop_left]

/-- A child in a role is the same, or the first child after the new gap. -/
theorem child?_withGap (role : Role) :
    (t.withGap gap).child? role = t.child? role ∨
      (t.withGap gap).child? role = (t.child? role).map (withGap gap) := by
  rw [child?, children_withGap, child?]
  cases t.children with
  | nil => exact .inl rfl
  | cons c cs =>
    rw [withGapAll]
    by_cases hc : c.role = role
    · exact .inr (by simp [hc])
    · exact .inl (by simp [hc])

theorem literalValue_withGap : literalValue (t.withGap gap) = literalValue t := by
  rw [literalValue, children_withGap, literalValue]
  cases t.children with
  | nil => rfl
  | cons c cs =>
    have hc : partUnits (c.withGap gap) = partUnits c := by
      cases c with
      | leaf role kind g text => cases kind <;> rfl
      | node role kind children => rw [withGap, partUnits, partUnits] <;> simp
    rw [withGapAll, List.flatMap_cons, hc, List.flatMap_cons]

end

end Tree

/-! ## The code that is generated, as trees -/

/-- A space between two tokens. -/
def space : Gap := [⟨.blank, [' ']⟩]

def symbolLeaf (gap : Gap) (s : String) : Tree := .leaf .part .mark gap s.toList

/-- The tree of `object.property`, which is called. -/
def methodCallee (gap : Gap) (object property : Text) : Tree :=
  .node .callee .member
    [.leaf .object .identifier gap object, symbolLeaf [] ".", .leaf .property .propertyName [] property]

/-- The tree of `object.property(arguments)`. -/
def methodCall (role : Role) (gap : Gap) (object property : Text) (arguments : List Tree) : Tree :=
  .node role .call
    [methodCallee gap object property,
     .node .arguments .arguments (symbolLeaf [] "(" :: arguments ++ [symbolLeaf [] ")"])]

/-- The look-up of a literal, in the place of the literal. -/
def lookupCall (b : Bindings) (literal : Tree) : Tree :=
  methodCall literal.role literal.leadingGap b.receiver b.translate
    [(literal.withGap []).withRole .part]

/-- An object with the current locale. -/
def localeObject (b : Bindings) : Tree :=
  .node .part .object
    [symbolLeaf [] "\x7b",
     .node .part .pair [.leaf .key .propertyName space b.localeKey, symbolLeaf [] ":",
       methodCall .value space b.receiver b.localeGetter []],
     symbolLeaf space "\x7d"]

/-- A value with the locale merged into it, in the place of the value. -/
def mergedValue (b : Bindings) (value : Tree) : Tree :=
  methodCall value.role value.leadingGap "Object".toList "assign".toList
    [localeObject b, symbolLeaf [] ",", (value.withGap space).withRole .part]

/-- The name of a localized page, in the place of another callee. -/
def renamedCallee (b : Bindings) (callee : Tree) : Tree :=
  .leaf callee.role .identifier callee.leadingGap b.localizedPage

/-- The options of a page with the locale merged into its data. -/
def mergeOptions (b : Bindings) : Tree → Tree :=
  Tree.onChild isDataPair (Tree.onChild (·.role == .value) (mergedValue b))

def Change.isRename : Change → Bool
  | .rename .. => true
  | _ => false

def Change.isMerge : Change → Bool
  | .merge .. => true
  | _ => false

/-- Makes the changes that a node asks for by itself. -/
def amend (b : Bindings) (cs : List Change) (t : Tree) : Tree :=
  let named :=
    if cs.any Change.isRename then t.onChild (·.role == .callee) (renamedCallee b) else t
  if cs.any Change.isMerge then
    named.onChild (·.role == .arguments) (Tree.onFirstNamed (mergeOptions b))
  else named

mutual

/-- The tree with all changes made that a walk finds in it. -/
def localized (b : Bindings) (scope : Scope) (place : Place) : Tree → Tree
  | .leaf role kind gap text => .leaf role kind gap text
  | .node role kind children =>
    let t := Tree.node role kind children
    if kind = .string then if wraps b place.forChild t then lookupCall b t else t
    else
      amend b (nodeChanges b scope 0 t)
        (.node role kind (localizedAll b scope (place.inside t) children))

def localizedAll (b : Bindings) (scope : Scope) (place : Place) : List Tree → List Tree
  | [] => []
  | t :: ts => localized b scope place t :: localizedAll b scope place ts

end

/-- The tree of a whole script with all its changes made. -/
def localizedTree (b : Bindings) (scope : Scope) (script : Tree) : Tree :=
  localized b scope ⟨.program, none⟩ script

/-! ## What the changes keep -/

section

variable (b : Bindings) (scope : Scope) (place : Place) (t : Tree)

theorem localizedAll_eq_map (ts : List Tree) :
    localizedAll b scope place ts = ts.map (localized b scope place) := by
  induction ts with
  | nil => rw [localizedAll, List.map_nil]
  | cons t ts ih => rw [localizedAll, ih, List.map_cons]

@[simp] theorem leadingGap_mergedValue : (mergedValue b t).leadingGap = t.leadingGap := rfl

@[simp] theorem role_mergedValue : (mergedValue b t).role = t.role := rfl

@[simp] theorem kind_mergeOptions : (mergeOptions b t).kind = t.kind := Tree.kind_onChild t

theorem leadingGap_onValue :
    (t.onChild (·.role == .value) (mergedValue b)).leadingGap = t.leadingGap :=
  t.leadingGap_onChild fun c => leadingGap_mergedValue b c

@[simp] theorem leadingGap_mergeOptions : (mergeOptions b t).leadingGap = t.leadingGap :=
  t.leadingGap_onChild fun c => leadingGap_onValue b c

theorem amend_keeps (cs : List Change) :
    (amend b cs t).role = t.role ∧ (amend b cs t).kind = t.kind ∧
      (amend b cs t).leadingGap = t.leadingGap := by
  have hrename := fun s : Tree => s.leadingGap_onChild (p := (·.role == .callee)) (f := renamedCallee b)
    fun _ => rfl
  have hmerge := fun s : Tree => s.leadingGap_onChild (p := (·.role == .arguments))
    (f := Tree.onFirstNamed (mergeOptions b)) fun c => Tree.leadingGap_onFirstNamed c
  unfold amend
  split <;> split <;> simp [hrename, hmerge]

end

section

variable {b : Bindings} {scope : Scope} {place : Place}

theorem localized_string {role : Role} {children : List Tree} :
    localized b scope place (.node role .string children) =
      if wraps b place.forChild (.node role .string children) then
        lookupCall b (.node role .string children)
      else .node role .string children := by
  rw [localized]
  simp

theorem localized_node {role : Role} {kind : Kind} (hk : kind ≠ .string) (children : List Tree) :
    localized b scope place (.node role kind children) =
      amend b (nodeChanges b scope 0 (.node role kind children))
        (.node role kind
          (children.map (localized b scope (place.inside (.node role kind children))))) := by
  rw [localized, localizedAll_eq_map]
  simp [hk]

theorem nodeChanges_of_ne_call {offset : Nat} {t : Tree} (hk : t.kind ≠ .call) :
    nodeChanges b scope offset t = [] := by
  unfold nodeChanges
  split
  · next h => exact absurd h hk
  · rfl

/-- A node other than a call or a string only has its children changed. -/
theorem localized_node_of_ne {role : Role} {kind : Kind} (hk : kind ≠ .call ∧ kind ≠ .string)
    (children : List Tree) :
    localized b scope place (.node role kind children) =
      .node role kind
        (children.map (localized b scope (place.inside (.node role kind children)))) := by
  have hcall : (Tree.node role kind children).kind ≠ .call := hk.1
  rw [localized_node hk.2, nodeChanges_of_ne_call hcall]
  rfl

theorem localized_of_ne {t : Tree} (hk : t.kind ≠ .call ∧ t.kind ≠ .string) :
    (localized b scope place t).kind = t.kind ∧
      (localized b scope place t).children =
        t.children.map (localized b scope (place.inside t)) := by
  cases t with
  | leaf => exact ⟨rfl, rfl⟩
  | node role kind children =>
    have hne : kind ≠ .call ∧ kind ≠ .string := hk
    rw [localized_node_of_ne hne]
    exact ⟨rfl, rfl⟩

/-- A tree without children stays. -/
theorem localized_of_children_nil {t : Tree} (h : t.children = []) : localized b scope place t = t := by
  cases t with
  | leaf => rfl
  | node role kind children =>
    obtain rfl : children = [] := h
    by_cases hk : kind = .string
    · subst hk
      have hw : wraps b place.forChild (.node role .string []) = false := by
        simp [wraps, literalValue, Tree.children, Units.decodeLossy, Units.decode, Text.isNatural]
      rw [localized_string, hw]
      rfl
    · have hnone : nodeChanges b scope 0 (.node role kind []) = [] := by
        unfold nodeChanges
        split
        · rfl
        · rfl
      rw [localized_node hk, hnone]
      rfl

theorem kind_localized (t : Tree) :
    (localized b scope place t).kind = t.kind ∨
      t.kind = .string ∧ (localized b scope place t).kind = .call := by
  cases t with
  | leaf => exact .inl rfl
  | node role kind children =>
    by_cases hk : kind = .string
    · subst hk
      rw [localized_string]
      split
      · exact .inr ⟨rfl, rfl⟩
      · exact .inl rfl
    · rw [localized_node hk]
      exact .inl (amend_keeps b _ _).2.1

@[simp] theorem role_localized (t : Tree) : (localized b scope place t).role = t.role := by
  cases t with
  | leaf => rfl
  | node role kind children =>
    by_cases hk : kind = .string
    · subst hk
      rw [localized_string]
      split <;> rfl
    · rw [localized_node hk]
      exact (amend_keeps b _ _).1

@[simp] theorem isNamed_localized (t : Tree) :
    (localized b scope place t).isNamed = t.isNamed := by
  rcases @kind_localized b scope place t with h | ⟨h, h'⟩
  · exact Tree.isNamed_eq_of_kind h
  · rw [Tree.isNamed, h', Tree.isNamed, h]
    rfl

end

mutual

@[simp] theorem leadingGap_localized {b : Bindings} {scope : Scope} :
    ∀ (t : Tree) (place : Place), (localized b scope place t).leadingGap = t.leadingGap
  | .leaf .., _ => rfl
  | .node role kind children, place => by
    by_cases hk : kind = .string
    · subst hk
      rw [localized_string]
      split <;> rfl
    · rw [localized_node hk, (amend_keeps b _ _).2.2, ← localizedAll_eq_map]
      exact leadingGapAll_localized children _

theorem leadingGapAll_localized {b : Bindings} {scope : Scope} :
    ∀ (ts : List Tree) (place : Place),
      Tree.leadingGapAll (localizedAll b scope place ts) = Tree.leadingGapAll ts
  | [], _ => rfl
  | t :: _, place => leadingGap_localized t place

end

/-! ## What a node asks for -/

section

variable {b : Bindings} {scope : Scope}

/-- Only the call of a name asks for changes by itself. -/
theorem exists_callee_of_mem_nodeChanges {t : Tree} {offset : Nat} {c : Change}
    (h : c ∈ nodeChanges b scope offset t) :
    ∃ mergeLocale callee, scope = .script mergeLocale ∧ t.kind = .call ∧
      t.child? .callee = some callee ∧ callee.kind = .identifier := by
  unfold nodeChanges at h
  split at h
  · next mergeLocale hk =>
    unfold callChanges at h
    split at h
    · cases h
    · next callee hc =>
      split at h
      · cases h
      · next hid => exact ⟨mergeLocale, callee, rfl, hk, hc, by simpa using hid⟩
  · cases h

/-- The changes that the call of a name asks for. -/
theorem any_nodeChanges {t callee : Tree} {offset : Nat} {mergeLocale : Bool} (hk : t.kind = .call)
    (hc : t.child? .callee = some callee) (hid : callee.kind = .identifier) :
    ((nodeChanges b (.script mergeLocale) offset t).any Change.isRename = true ↔
      callee.text = b.page) ∧
    ((nodeChanges b (.script mergeLocale) offset t).any Change.isMerge = true ↔
      mergeLocale = true ∧ (callee.text = b.page ∨ callee.text = b.localizedPage) ∧
        ¬ DataSettled b t) := by
  have hchanges : nodeChanges b (.script mergeLocale) offset t =
      callChanges b mergeLocale offset t := by simp [nodeChanges, hk]
  rw [hchanges, callChanges, hc, ← @mergeChange_eq_nil_iff b offset t]
  rcases mergeChange_cases b offset t with hm | ⟨start, stop, hm⟩ <;>
    by_cases hp : callee.text = b.page <;> by_cases hl : callee.text = b.localizedPage <;>
    cases mergeLocale <;> simp [hid, hp, hl, hm, Change.isRename, Change.isMerge]

end

end Phrasebook.Script
