import Phrasebook.Proofs.EditedParts
import Phrasebook.Proofs.LocalizedNames
import Phrasebook.Proofs.TokenRows

/-!
What the tree of a localized script is written as. Its source is the source of the script with all
changes made that a walk finds (`source_localizedTree`).

The edits of a tree are followed part by part (`Edit.Rewrites`, `Spells`). A walk lists the edits of a
call before those of its children, which does not matter, since every edit starts before the end of its
tree (`StartsInside`): what is inserted behind a value comes behind all edits in the value, and the value
ends before the symbol that closes the options (`MergePath.value_lt`). What is inserted at the two ends
of a value changes the trees on the path to it, one after the other (`rewrites_onChild`).
-/

namespace Phrasebook.Script

/-! ## Trees that start with a token -/

namespace Tree

/-- A tree that starts with a token, so that it can stand after any gap. -/
def Fronted (t : Tree) : Prop := ∀ gap, (t.withGap gap).leadingGap = gap

/-- The same for a row of trees. -/
def FrontedAll (ts : List Tree) : Prop := ∀ gap, leadingGapAll (withGapAll gap ts) = gap

theorem fronted_leaf (role : Role) (kind : Kind) (gap : Gap) (text : Text) :
    (Tree.leaf role kind gap text).Fronted := fun _ => rfl

mutual

theorem fronted_of_formed : ∀ t : Tree, t.All Formed → t.Fronted
  | .leaf role kind gap text, _ => fronted_leaf role kind gap text
  | .node role kind children, h => by
    have hne : children ≠ [] := fun hnil => h.1.filled role kind (hnil ▸ rfl)
    exact frontedAll_of_formed children hne h.2

theorem frontedAll_of_formed : ∀ ts : List Tree, ts ≠ [] → AllIn Formed ts → FrontedAll ts
  | [], hne, _ => absurd rfl hne
  | t :: _, _, h => fronted_of_formed t h.1

end

theorem Fronted.onChild {t : Tree} {p : Tree → Bool} {f : Tree → Tree} (h : t.Fronted)
    (hf : ∀ c : Tree, c.Fronted → (f c).Fronted) : (t.onChild p f).Fronted := by
  cases t with
  | leaf => exact h
  | node role kind children =>
    cases children with
    | nil => exact h
    | cons c cs =>
      rw [Tree.onChild, mapFirst]
      split
      · exact hf c h
      · exact h

theorem Fronted.onFirstNamed {t : Tree} {f : Tree → Tree} (h : t.Fronted) :
    (t.onFirstNamed f).Fronted := by
  unfold Tree.onFirstNamed
  split
  · exact h
  · exact h

/-- A tree after another gap is written as the gap and its text. -/
theorem source_withGap {t : Tree} (h : t.Fronted) (gap : Gap) :
    (t.withGap gap).source = gapText gap ++ t.text := by
  rw [← gapText_append_text, h gap, text_withGap]

end Tree

section

variable {b : Bindings} {scope : Scope}

theorem Tree.Fronted.amend {t : Tree} (h : t.Fronted) (cs : List Change) : (amend b cs t).Fronted := by
  have hrename : (t.onChild (·.role == .callee) (renamedCallee b)).Fronted :=
    h.onChild fun _ _ => Tree.fronted_leaf _ _ _ _
  unfold Script.amend
  split <;> dsimp only <;> split
  · exact hrename.onChild fun _ hc => hc.onFirstNamed
  · exact hrename
  · exact h.onChild fun _ hc => hc.onFirstNamed
  · exact h

mutual

theorem fronted_localized : ∀ (t : Tree) (place : Place), t.Fronted →
    (localized b scope place t).Fronted
  | .leaf .., _, h => h
  | .node role kind children, place, h => by
    by_cases hk : kind = .string
    · subst hk
      rw [localized_string]
      split
      · exact fun _ => rfl
      · exact h
    · rw [localized_node hk, ← localizedAll_eq_map]
      refine Tree.Fronted.amend ?_ _
      exact frontedAll_localized children _ h

theorem frontedAll_localized : ∀ (ts : List Tree) (place : Place), Tree.FrontedAll ts →
    Tree.FrontedAll (localizedAll b scope place ts)
  | [], _, h => h
  | t :: _, place, h => fronted_localized t place h

end

/-! ## The code that is generated, as text -/

theorem source_methodCall (role : Role) (gap : Gap) (object property : Text) (arguments : List Tree) :
    (methodCall role gap object property arguments).source =
      gapText gap ++ (object ++ '.' :: property ++ '(' :: Tree.sourceAll arguments ++ [')']) := by
  simp [methodCall, methodCallee, symbolLeaf, Tree.source, Tree.sourceAll, Tree.sourceAll_append,
    gapText]

/-- A wrapped literal is written as a call of the look-up function. -/
theorem source_lookupCall {t : Tree} (h : t.Fronted) :
    (lookupCall b t).source = gapText t.leadingGap ++ b.call t.text := by
  have hliteral : Tree.sourceAll [(t.withGap []).withRole .part] = t.text := by
    rw [Tree.sourceAll, Tree.source_withRole, Tree.source_withGap h]
    simp [gapText, Tree.sourceAll]
  rw [lookupCall, source_methodCall, hliteral, Bindings.call]

theorem source_localeObject (b : Bindings) :
    (localeObject b).source =
      '\x7b' :: ' ' :: (b.localeKey ++ ':' :: ' ' :: (b.currentLocaleCall ++ [' ', '\x7d'])) := by
  simp [localeObject, symbolLeaf, Tree.source, Tree.sourceAll, source_methodCall, gapText, space,
    Bindings.currentLocaleCall]

theorem mergeOpening_eq (b : Bindings) :
    b.mergeOpening = "Object".toList ++ '.' :: "assign".toList ++ '(' ::
      ((localeObject b).source ++ [',', ' ']) := by
  have hcall : "Object.assign(\x7b ".toList =
      "Object".toList ++ '.' :: "assign".toList ++ ['(', '\x7b', ' '] := by decide
  have hcolon : ": ".toList = [':', ' '] := by decide
  have hcomma : " \x7d, ".toList = [' ', '\x7d', ',', ' '] := by decide
  unfold Bindings.mergeOpening
  rw [source_localeObject, hcall, hcolon, hcomma]
  generalize "Object".toList = object, "assign".toList = property
  simp only [List.append_assoc, List.cons_append, List.nil_append]

/-- A value that the locale is merged into is written between two pieces of code. -/
theorem source_mergedValue {t : Tree} (h : t.Fronted) :
    (mergedValue b t).source = gapText t.leadingGap ++ (b.mergeOpening ++ (t.text ++ [')'])) := by
  have hvalue : ((t.withGap space).withRole .part).source = ' ' :: t.text := by
    rw [Tree.source_withRole, Tree.source_withGap h]
    rfl
  have harguments : Tree.sourceAll
      [localeObject b, symbolLeaf [] ",", (t.withGap space).withRole .part] =
        (localeObject b).source ++ ',' :: ' ' :: t.text := by
    simp only [Tree.sourceAll, hvalue, List.append_nil]
    rfl
  rw [mergedValue, source_methodCall, harguments, mergeOpening_eq]
  generalize "Object".toList = object, "assign".toList = property
  simp only [List.append_assoc, List.cons_append, List.nil_append]

end

/-! ## Where the locale is merged into a value -/

/-- The path from a call to the value that the locale is merged into. -/
structure MergePath (call arguments options data value : Tree) : Prop where
  toArguments : call.child? .arguments = some arguments
  toOptions : arguments.firstNamed? = some options
  isObject : options.kind = .object
  toData : options.children.find? isDataPair = some data
  toValue : data.child? .value = some value

/-- The start of the value at the end of a path, counted from the start of the call. -/
def pathLength (call arguments options data : Tree) : Nat :=
  startIn call.children (·.role == .arguments) + (startIn arguments.children Tree.isNamed +
    (startIn options.children isDataPair + startIn data.children (·.role == .value)))

/-- The locale is merged, if at all, into the value at the end of a path. -/
theorem mergeChange_cases_path (b : Bindings) (offset : Nat) (call : Tree) :
    mergeChange b offset call = [] ∨
      ∃ arguments options data value, MergePath call arguments options data value ∧
        mergeChange b offset call =
          [.merge (offset + pathLength call arguments options data + gapLength value)
            (offset + pathLength call arguments options data + value.source.length)] := by
  unfold mergeChange
  split
  · next arguments options ha ho =>
    split
    · exact .inl rfl
    · next data hd =>
      split
      · exact .inl rfl
      · next value hv =>
        split
        · exact .inl rfl
        · obtain ⟨hfirst, hobject⟩ := Option.filter_eq_some_iff.1 ho
          rw [ha, Option.bind_some] at hfirst
          refine .inr ⟨arguments, options, data, value, ⟨ha, hfirst, beq_iff_eq.1 hobject, hd, hv⟩, ?_⟩
          simp only [pathLength, Nat.add_assoc]
  · exact .inl rfl

section

variable {call arguments options data value : Tree}

theorem source_of_find? {t c : Tree} {found : Tree → Bool} (h : t.children.find? found = some c) :
    t.source = Tree.sourceAll t.children := by
  cases t with
  | leaf => cases h
  | node => rw [Tree.source, Tree.children]

theorem startIn_cons_of_pos {t : Tree} {found : Tree → Bool} (h : found t = true) (ts : List Tree) :
    startIn (t :: ts) found = 0 := by
  rw [startIn, List.takeWhile_cons_of_neg (by simp [h])]
  rfl

theorem startIn_cons_of_neg {t : Tree} {found : Tree → Bool} (h : ¬ found t = true) (ts : List Tree) :
    startIn (t :: ts) found = t.source.length + startIn ts found := by
  rw [startIn, List.takeWhile_cons_of_pos (by simpa using h), Tree.sourceAll, List.length_append,
    startIn]

theorem startIn_append {ts : List Tree} {c : Tree} {found : Tree → Bool} (h : ts.find? found = some c)
    (us : List Tree) : startIn (ts ++ us) found = startIn ts found := by
  induction ts with
  | nil => cases h
  | cons t ts ih =>
    by_cases ht : found t = true
    · rw [List.cons_append, startIn_cons_of_pos ht, startIn_cons_of_pos ht]
    · rw [List.find?_cons_of_neg ht] at h
      rw [List.cons_append, startIn_cons_of_neg ht, startIn_cons_of_neg ht, ih h]

/-- A part that is found in a row ends before the row does. -/
theorem startIn_add_le {ts : List Tree} {c : Tree} {found : Tree → Bool} (h : ts.find? found = some c) :
    startIn ts found + c.source.length ≤ (Tree.sourceAll ts).length := by
  obtain ⟨before, after, hrow, hstart⟩ := sourceAll_eq_of_find? h
  rw [hrow, List.length_append, List.length_append]
  omega

/-- The data of an object literal end before the symbol that closes it. -/
theorem startIn_add_lt (ht : options.Formed) (hk : options.kind = .object)
    (h : options.children.find? isDataPair = some data) :
    startIn options.children isDataPair + data.source.length < options.source.length := by
  obtain ⟨row, gap, hclose⟩ := ht.closes hk
  rw [source_of_find? h, hclose]
  -- the symbol is not what is found
  have hrow : row.find? isDataPair = some data := by
    rw [hclose, List.find?_append] at h
    have hmark : List.find? isDataPair [.leaf .part .mark gap ['\x7d']] = none := rfl
    rwa [hmark, Option.or_none] at h
  have hle := startIn_add_le hrow
  have hclosing : 0 < (Tree.sourceAll [.leaf .part .mark gap ['\x7d']]).length := by
    simp [Tree.sourceAll, Tree.source]
  rw [startIn_append hrow, Tree.sourceAll_append, List.length_append]
  omega

/-- The value at the end of a path ends before the call does. -/
theorem MergePath.value_lt (h : MergePath call arguments options data value)
    (hs : call.All Tree.Written) :
    pathLength call arguments options data + value.source.length < call.source.length := by
  obtain ⟨hargs, hrole⟩ := Tree.mem_children_of_child? h.toArguments
  have hsound := (hs.child hargs).self.opens hrole
  have hnamed := find?_isNamed_of_firstNamed? hsound.2.2 h.toOptions
  have hformed := ((hs.child hargs).child (List.mem_of_find?_eq_some hnamed)).self.toFormed
  have hcall := startIn_add_le h.toArguments
  have harguments := startIn_add_le hnamed
  have hoptions := startIn_add_lt hformed h.isObject h.toData
  have hdata := startIn_add_le h.toValue
  rw [← source_of_find? h.toArguments] at hcall
  rw [← source_of_find? hnamed] at harguments
  rw [← source_of_find? h.toValue] at hdata
  unfold pathLength
  omega

end

/-! ## Edits start inside their tree -/

section

variable {b : Bindings} {scope : Scope}

/-- Every edit in a tree starts before the end of the tree. -/
def StartsInside (b : Bindings) (scope : Scope) (t : Tree) : Prop :=
  ∀ place offset, ∀ e ∈ editsOf b scope place offset t, e.start < offset + t.source.length

theorem start_lt_of_mem_mergeChange {offset : Nat} {call : Tree} (hs : call.All Tree.Written) {e : Edit}
    (he : e ∈ (mergeChange b offset call).flatMap (Change.edits b)) :
    e.start < offset + call.source.length := by
  rcases mergeChange_cases_path b offset call with hnil | ⟨_, _, _, value, hpath, hmerge⟩
  · rw [hnil] at he
    cases he
  · have hlt := hpath.value_lt hs
    have hgap := gapLength_le value
    rw [hmerge] at he
    simp only [Change.edits, List.flatMap_singleton, List.mem_cons, List.not_mem_nil, or_false] at he
    rcases he with rfl | rfl <;> dsimp only [Edit.insertion] <;> omega

theorem start_lt_of_mem_nodeChanges (hb : b.page ≠ []) {offset : Nat} {t : Tree}
    (hs : t.All Tree.Written) {e : Edit}
    (he : e ∈ (nodeChanges b scope offset t).flatMap (Change.edits b)) :
    e.start < offset + t.source.length := by
  unfold nodeChanges at he
  split at he
  · unfold callChanges at he
    split at he
    · cases he
    · next callee hc =>
      split at he
      · cases he
      · rw [List.flatMap_append, List.mem_append] at he
        rcases he with he | he
        · split at he
          · next hpage =>
            have hlength := source_length_eq callee
            have hcallee := startIn_add_le hc
            rw [← source_of_find? hc] at hcallee
            have htext : 0 < callee.text.length := by
              rw [beq_iff_eq.1 hpage]
              exact List.length_pos_iff.2 hb
            simp only [Change.edits, List.flatMap_singleton, List.mem_singleton] at he
            subst he
            dsimp only
            omega
          · cases he
        · split at he
          · exact start_lt_of_mem_mergeChange hs he
          · cases he
  · cases he

theorem start_lt_of_mem_editsOfAll {place : Place} {ts : List Tree}
    (h : ∀ t ∈ ts, StartsInside b scope t) {offset : Nat} {e : Edit}
    (he : e ∈ editsOfAll b scope place offset ts) :
    e.start < offset + (Tree.sourceAll ts).length := by
  induction ts generalizing offset with
  | nil =>
    rw [editsOfAll_nil] at he
    cases he
  | cons t ts ih =>
    obtain ⟨ht, hts⟩ := List.forall_mem_cons.1 h
    rw [editsOfAll_cons, List.mem_append] at he
    rw [Tree.sourceAll, List.length_append]
    rcases he with he | he
    · have hlt := ht place offset e he
      omega
    · have hlt := ih hts he
      omega

theorem startsInside (hb : b.page ≠ []) (t : Tree) (ht : t.All Tree.Written) :
    t.All (StartsInside b scope) := by
  refine Tree.all_of_step ?_ t ht
  intro t ht hchildren place offset e he
  cases t with
  | leaf role kind gap text =>
    rw [editsOf_leaf] at he
    cases he
  | node role kind children =>
    by_cases hk : kind = .string
    · subst hk
      rw [editsOf, changes, if_pos rfl] at he
      split at he
      · next hw =>
        have htext := List.length_pos_iff.2 (text_ne_nil_of_wraps hw)
        have hlength := source_length_eq (.node role .string children)
        simp only [Change.edits, List.flatMap_singleton, List.mem_singleton] at he
        subst he
        dsimp only
        omega
      · cases he
    · rw [editsOf_node b scope hk, List.mem_append] at he
      rcases he with he | he
      · exact start_lt_of_mem_nodeChanges hb ht he
      · rw [Tree.source]
        exact start_lt_of_mem_editsOfAll (fun c hc => (hchildren c hc).self) he

/-! ## Rows of trees -/

/-- The edits in a tree make the localized tree of it. -/
def Spells (b : Bindings) (scope : Scope) (t : Tree) : Prop :=
  ∀ place offset, Edit.Rewrites offset t.source (editsOf b scope place offset t)
    (localized b scope place t).source

variable {place : Place} {ts : List Tree}

theorem rewrites_row (h : ∀ t ∈ ts, Spells b scope t) (offset : Nat) :
    Edit.Rewrites offset (Tree.sourceAll ts) (editsOfAll b scope place offset ts)
      (Tree.sourceAll (ts.map (localized b scope place))) := by
  induction ts generalizing offset with
  | nil =>
    rw [editsOfAll_nil]
    exact Edit.Rewrites.keep offset []
  | cons t ts ih =>
    obtain ⟨ht, hts⟩ := List.forall_mem_cons.1 h
    rw [editsOfAll_cons]
    exact (ht place offset).append (ih hts _)

/-- With additional edits in one tree of a row, that tree is changed further. -/
theorem rewrites_mapFirst {found : Tree → Bool} {f : Tree → Tree} {c : Tree} {xs : List Edit}
    {offset : Nat} (h : ∀ t ∈ ts, Spells b scope t) (hlt : ∀ t ∈ ts, StartsInside b scope t)
    (hfound : ∀ t ∈ ts, found (localized b scope place t) = found t)
    (hc : ts.find? found = some c)
    (hf : Edit.Rewrites (offset + startIn ts found) c.source
      (xs ++ editsOf b scope place (offset + startIn ts found) c)
      (f (localized b scope place c)).source) :
    Edit.Rewrites offset (Tree.sourceAll ts) (xs ++ editsOfAll b scope place offset ts)
      (Tree.sourceAll (mapFirst found f (ts.map (localized b scope place)))) := by
  induction ts generalizing offset with
  | nil => cases hc
  | cons t ts ih =>
    obtain ⟨ht, hts⟩ := List.forall_mem_cons.1 h
    obtain ⟨htlt, htslt⟩ := List.forall_mem_cons.1 hlt
    obtain ⟨htfound, htsfound⟩ := List.forall_mem_cons.1 hfound
    rw [editsOfAll_cons, List.map_cons, mapFirst, htfound]
    by_cases hp : found t = true
    · rw [List.find?_cons_of_pos hp] at hc
      obtain rfl := Option.some.inj hc
      rw [startIn_cons_of_pos hp] at hf
      rw [if_pos hp]
      have hrest := @rewrites_row b scope place ts hts (offset + t.source.length)
      have hboth := @Edit.Rewrites.interleave _ _ _ _ _ _ _ xs [] hf (htlt place offset) hrest
      rwa [List.append_nil] at hboth
    · rw [List.find?_cons_of_neg hp] at hc
      rw [startIn_cons_of_neg hp, ← Nat.add_assoc] at hf
      rw [if_neg hp]
      have hrest := ih hts htslt htsfound hc hf
      exact @Edit.Rewrites.interleave _ _ _ _ _ _ _ [] xs (ht place offset) (htlt place offset) hrest

/-! ## Nodes -/

/-- Additional edits in a child of a node that asks for no change by itself. -/
theorem rewrites_onChild {found : Tree → Bool} {f : Tree → Tree} {t c : Tree} {xs : List Edit}
    {offset : Nat} (hk : t.kind ≠ .call ∧ t.kind ≠ .string) (h : t.All (Spells b scope))
    (hlt : t.All (StartsInside b scope))
    (hfound : ∀ d ∈ t.children, found (localized b scope (place.inside t) d) = found d)
    (hc : t.children.find? found = some c)
    (hf : Edit.Rewrites (offset + startIn t.children found) c.source
      (xs ++ editsOf b scope (place.inside t) (offset + startIn t.children found) c)
      (f (localized b scope (place.inside t) c)).source) :
    Edit.Rewrites offset t.source (xs ++ editsOf b scope place offset t)
      ((localized b scope place t).onChild found f).source := by
  cases t with
  | leaf => cases hc
  | node role kind children =>
    have hne : kind ≠ .call ∧ kind ≠ .string := hk
    rw [editsOf_node_of_ne_call b scope hne, localized_node_of_ne hne, Tree.onChild, Tree.source,
      Tree.source]
    exact rewrites_mapFirst (fun d hd => (h.child hd).self) (fun d hd => (hlt.child hd).self) hfound
      hc hf

/-- What is inserted at the two ends of a value merges the locale into it. -/
theorem rewrites_mergedValue {t : Tree} (hw : t.All Tree.Written) (h : Spells b scope t)
    (hlt : StartsInside b scope t) (place : Place) (offset : Nat) :
    Edit.Rewrites offset t.source
      (Change.edits b (.merge (offset + gapLength t) (offset + t.source.length)) ++
        editsOf b scope place offset t)
      (mergedValue b (localized b scope place t)).source := by
  have hsource := t.gapText_append_text
  have hnew := (localized b scope place t).gapText_append_text
  rw [leadingGap_localized] at hnew
  have hwithin := within_editsOf b scope t place offset (hw.imp fun _ h => h.toSound)
  -- the gap stays in front of what is inserted
  have htext : Edit.Rewrites (offset + gapLength t) t.text (editsOf b scope place offset t)
      (localized b scope place t).text := by
    have hall := h place offset
    rw [← hsource, ← hnew] at hall
    exact hall.drop_keep fun e he => (hwithin e he).1
  have hparts := (Edit.Rewrites.keep offset (gapText t.leadingGap)).append
    ((Edit.Rewrites.replace (offset + gapLength t) [] b.mergeOpening).append
      (htext.append (Edit.Rewrites.replace (offset + gapLength t + t.text.length) [] [')'])))
  have hfronted : (localized b scope place t).Fronted :=
    fronted_localized t place (Tree.fronted_of_formed t (hw.imp fun _ h => h.toFormed))
  have horder : Edit.order (Change.edits b (.merge (offset + gapLength t) (offset + t.source.length)) ++
        editsOf b scope place offset t) =
      Edit.order ([] ++ ([Edit.insertion (offset + gapLength t) b.mergeOpening] ++
        (editsOf b scope place offset t ++
          [Edit.insertion (offset + gapLength t + t.text.length) [')']]))) := by
    have hstop : offset + t.source.length = offset + gapLength t + t.text.length := by
      rw [source_length_eq, Nat.add_assoc]
    have hstart : ∀ e ∈ editsOf b scope place offset t,
        e.start < (Edit.insertion (offset + gapLength t + t.text.length) [')']).start := by
      intro e he
      rw [← hstop]
      exact hlt place offset e he
    have hmove := Edit.order_cons_append hstart []
    rw [List.append_nil] at hmove
    rw [hstop]
    exact Edit.order_append_congr hmove [Edit.insertion (offset + gapLength t) b.mergeOpening]
  have hresult := hparts.of_order_eq horder
  rwa [List.nil_append, List.append_nil, hsource, ← leadingGap_localized t place,
    ← source_mergedValue hfronted] at hresult

theorem onFirstNamed_eq_onChild {t : Tree} {f : Tree → Tree}
    (h : ∃ first others, t.children = first :: others ∧ first.isNamed = false) :
    t.onFirstNamed f = t.onChild Tree.isNamed f := by
  obtain ⟨first, others, hrow, hfirst⟩ := h
  cases t with
  | leaf => cases hrow
  | node role kind children =>
    obtain rfl : children = first :: others := hrow
    rw [Tree.onFirstNamed, Tree.onChild, mapFirst, hfirst]
    rfl

/-- What is inserted at the two ends of a value on a path changes the arguments of the call. -/
theorem rewrites_mergedArguments {call arguments options data value : Tree}
    (hpath : MergePath call arguments options data value) (hw : call.All Tree.Written)
    (h : arguments.All (Spells b scope)) (hlt : arguments.All (StartsInside b scope)) (place : Place)
    {offset start : Nat}
    (hstart : start = offset + (startIn arguments.children Tree.isNamed +
      (startIn options.children isDataPair + startIn data.children (·.role == .value)))) :
    Edit.Rewrites offset arguments.source
      (Change.edits b (.merge (start + gapLength value) (start + value.source.length)) ++
        editsOf b scope place offset arguments)
      ((localized b scope place arguments).onFirstNamed (mergeOptions b)).source := by
  obtain ⟨hmem, hrole⟩ := Tree.mem_children_of_child? hpath.toArguments
  have hwa := hw.child hmem
  obtain ⟨hcall, hstring, hopen⟩ := hwa.self.opens hrole
  have hnamed := find?_isNamed_of_firstNamed? hopen hpath.toOptions
  have hoptions := List.mem_of_find?_eq_some hnamed
  have hdata := List.mem_of_find?_eq_some hpath.toData
  have hvalue := List.mem_of_find?_eq_some hpath.toValue
  have hobject : options.kind ≠ .call ∧ options.kind ≠ .string := by simp [hpath.isObject]
  have hpair : data.kind ≠ .call ∧ data.kind ≠ .string := by
    have hk := kind_of_isDataPair (List.find?_some hpath.toData)
    simp [hk]
  have hopen' : ∃ first others, (localized b scope place arguments).children = first :: others ∧
      first.isNamed = false := by
    obtain ⟨first, others, hrow, hfirst⟩ := hopen
    rw [(localized_of_ne ⟨hcall, hstring⟩).2, hrow]
    exact ⟨_, _, rfl, (isNamed_localized first).trans hfirst⟩
  rw [onFirstNamed_eq_onChild hopen']
  -- up the path: the value, the property `data`, the options, the arguments
  refine rewrites_onChild ⟨hcall, hstring⟩ h hlt (fun d _ => isNamed_localized d) hnamed ?_
  refine rewrites_onChild hobject (h.child hoptions) (hlt.child hoptions) ?_ hpath.toData ?_
  · intro d hd
    have hguarded := ((hwa.child hoptions).child hd).imp fun _ h => h.toGuarded
    exact isDataPair_localized hguarded
  refine rewrites_onChild hpair ((h.child hoptions).child hdata) ((hlt.child hoptions).child hdata)
    (fun d _ => congrArg (· == Role.value) (role_localized d)) hpath.toValue ?_
  rw [← Nat.add_assoc, ← Nat.add_assoc] at hstart
  rw [hstart]
  exact rewrites_mergedValue (((hwa.child hoptions).child hdata).child hvalue)
    (((h.child hoptions).child hdata).child hvalue).self
    (((hlt.child hoptions).child hdata).child hvalue).self _ _

/-! ## Calls -/

/-- The changes that a call asks for by itself: its name, and the locale. -/
theorem nodeChanges_parts {t callee : Tree} {others : List Tree} (hrow : t.children = callee :: others)
    (hrole : callee.role = .callee) (offset : Nat) :
    ∃ renamed merged, nodeChanges b scope offset t = renamed ++ merged ∧
      ((nodeChanges b scope 0 t).any Change.isRename = false ∧ renamed = [] ∨
        (nodeChanges b scope 0 t).any Change.isRename = true ∧ callee.kind = .identifier ∧
          renamed = [.rename (offset + gapLength callee) callee.text]) ∧
      ((nodeChanges b scope 0 t).any Change.isMerge = false ∧ merged = [] ∨
        (nodeChanges b scope 0 t).any Change.isMerge = true ∧ merged = mergeChange b offset t ∧
          merged ≠ []) := by
  by_cases hn : ∃ mergeLocale, scope = .script mergeLocale ∧ t.kind = .call ∧ callee.kind = .identifier
  · obtain ⟨mergeLocale, rfl, hk, hid⟩ := hn
    have hchild : t.child? .callee = some callee := by
      rw [Tree.child?, hrow, List.find?_cons_of_pos (by simp [hrole])]
    have hstart : startIn t.children (·.role == .callee) = 0 := by
      rw [hrow, startIn_cons_of_pos (by simp [hrole])]
    have hparts : nodeChanges b (.script mergeLocale) offset t =
        (if callee.text = b.page then [.rename (offset + gapLength callee) callee.text] else []) ++
          if mergeLocale = true ∧ (callee.text = b.page ∨ callee.text = b.localizedPage) then
            mergeChange b offset t
          else [] := by
      have hcall : nodeChanges b (.script mergeLocale) offset t =
          callChanges b mergeLocale offset t := by simp [nodeChanges, hk]
      rw [hcall, callChanges, hchild]
      simp [hid, hstart]
    obtain ⟨hrename, hmerge⟩ := @any_nodeChanges b t callee 0 mergeLocale hk hchild hid
    refine ⟨_, _, hparts, ?_, ?_⟩
    · by_cases hp : callee.text = b.page
      · rw [if_pos hp]
        exact .inr ⟨hrename.2 hp, hid, rfl⟩
      · rw [if_neg hp]
        exact .inl ⟨Bool.eq_false_iff.2 (mt hrename.1 hp), rfl⟩
    · by_cases hm : (nodeChanges b (.script mergeLocale) 0 t).any Change.isMerge = true
      · obtain ⟨hlocale, hname, hdata⟩ := hmerge.1 hm
        rw [if_pos ⟨hlocale, hname⟩]
        exact .inr ⟨hm, rfl, mt mergeChange_eq_nil_iff.1 hdata⟩
      · refine .inl ⟨Bool.eq_false_iff.2 hm, ?_⟩
        split
        · next hname =>
          have hdata : DataSettled b t := by
            by_contra hd
            exact hm (hmerge.2 ⟨hname.1, hname.2, hd⟩)
          exact mergeChange_eq_nil_iff.2 hdata
        · rfl
  · -- nothing but the call of a name asks for a change
    have hnil : ∀ n, nodeChanges b scope n t = [] := by
      intro n
      refine List.eq_nil_iff_forall_not_mem.2 fun c hc => hn ?_
      obtain ⟨mergeLocale, callee', hscope, hk, hchild, hid⟩ := exists_callee_of_mem_nodeChanges hc
      rw [Tree.child?, hrow, List.find?_cons_of_pos (by simp [hrole])] at hchild
      obtain rfl := Option.some.inj hchild
      exact ⟨mergeLocale, hscope, hk, hid⟩
    refine ⟨[], [], hnil offset, .inl ⟨?_, rfl⟩, .inl ⟨?_, rfl⟩⟩ <;> rw [hnil 0] <;> rfl

/-- An amended call is written as its callee and the row behind it. -/
theorem source_amend (cs : List Change) {role : Role} {kind : Kind} {callee : Tree} {others : List Tree}
    (hrole : callee.role = .callee) :
    (amend b cs (.node role kind (callee :: others))).source =
      (if cs.any Change.isRename then renamedCallee b callee else callee).source ++
        Tree.sourceAll (if cs.any Change.isMerge then
          mapFirst (·.role == .arguments) (Tree.onFirstNamed (mergeOptions b)) others else others) := by
  have hcallee : (renamedCallee b callee).role = .callee := hrole
  unfold amend
  split <;> dsimp only <;> split <;>
    simp [Tree.onChild, mapFirst, hrole, hcallee, Tree.source, Tree.sourceAll]

/-- The callee of a call, renamed if asked for. -/
theorem rewrites_callee {callee : Tree} (hw : callee.All Tree.Written) (h : Spells b scope callee)
    {offset : Nat} {asked : Bool} {renamed : List Change}
    (hr : asked = false ∧ renamed = [] ∨ asked = true ∧ callee.kind = .identifier ∧
      renamed = [.rename (offset + gapLength callee) callee.text]) :
    Edit.Rewrites offset callee.source
      (renamed.flatMap (Change.edits b) ++ editsOf b scope place offset callee)
      (if asked then renamedCallee b (localized b scope place callee)
        else localized b scope place callee).source := by
  rcases hr with ⟨rfl, rfl⟩ | ⟨rfl, hid, rfl⟩
  · exact h place offset
  · -- an identifier is a single token
    cases callee with
    | node role kind children =>
      have hnil : children = [] := hw.self.identifier hid
      exact absurd (hnil ▸ rfl) (hw.self.filled role kind)
    | leaf role kind gap text =>
      rw [editsOf_leaf, List.append_nil, List.flatMap_singleton, text_leaf]
      exact (Edit.Rewrites.keep offset (gapText gap)).append
        (Edit.Rewrites.replace (offset + (gapText gap).length) text b.localizedPage)

/-- What stands behind the callee, with the locale merged if asked for. -/
theorem rewrites_others {t callee : Tree} {others : List Tree} (hw : t.All Tree.Written)
    (hrow : t.children = callee :: others) (hrole : callee.role = .callee)
    (h : ∀ c ∈ others, c.All (Spells b scope)) (hlt : ∀ c ∈ others, c.All (StartsInside b scope))
    {offset : Nat} {asked : Bool} {merged : List Change}
    (hm : asked = false ∧ merged = [] ∨ asked = true ∧ merged = mergeChange b offset t ∧ merged ≠ []) :
    Edit.Rewrites (offset + callee.source.length) (Tree.sourceAll others)
      (merged.flatMap (Change.edits b) ++
        editsOfAll b scope place (offset + callee.source.length) others)
      (Tree.sourceAll (if asked then mapFirst (·.role == .arguments)
          (Tree.onFirstNamed (mergeOptions b)) (others.map (localized b scope place))
        else others.map (localized b scope place))) := by
  rcases hm with ⟨rfl, rfl⟩ | ⟨rfl, rfl, hne⟩
  · exact rewrites_row (fun t ht => (h t ht).self) _
  · obtain ⟨arguments, options, data, value, hpath, hmerge⟩ :=
      (mergeChange_cases_path b offset t).resolve_left hne
    have hfind : others.find? (·.role == .arguments) = some arguments := by
      have hchild := hpath.toArguments
      rwa [Tree.child?, hrow, List.find?_cons_of_neg (by simp [hrole])] at hchild
    have hstart : offset + pathLength t arguments options data =
        offset + callee.source.length + startIn others (·.role == .arguments) +
          (startIn arguments.children Tree.isNamed +
            (startIn options.children isDataPair + startIn data.children (·.role == .value))) := by
      rw [pathLength, hrow, startIn_cons_of_neg (by simp [hrole])]
      omega
    have hmem := List.mem_of_find?_eq_some hfind
    rw [hmerge, List.flatMap_singleton]
    refine rewrites_mapFirst (fun t ht => (h t ht).self) (fun t ht => (hlt t ht).self)
      (fun t _ => congrArg (· == Role.arguments) (role_localized t)) hfind ?_
    exact rewrites_mergedArguments hpath hw (h arguments hmem) (hlt arguments hmem) place hstart

/-- A call is written with its changes. -/
theorem spells_call {role : Role} {children : List Tree}
    (hw : (Tree.node role .call children).All Tree.Written)
    (h : ∀ c ∈ children, c.All (Spells b scope)) (hlt : ∀ c ∈ children, c.All (StartsInside b scope)) :
    Spells b scope (.node role .call children) := by
  intro place offset
  have hne : Kind.call ≠ .string := nofun
  obtain ⟨callee, others, hrow, hrole⟩ := hw.self.callee rfl
  obtain ⟨renamed, merged, hchanges, hrenamed, hmerged⟩ :=
    @nodeChanges_parts b scope _ callee others hrow hrole offset
  obtain rfl : children = callee :: others := hrow
  obtain ⟨hcallee, hothers⟩ := List.forall_mem_cons.1 h
  obtain ⟨hcalleelt, hotherslt⟩ := List.forall_mem_cons.1 hlt
  have hwc := hw.child (List.mem_cons_self ..)
  rw [localized_node hne, List.map_cons, source_amend _ ((role_localized callee).trans hrole),
    editsOf_node b scope hne, hchanges, List.flatMap_append, editsOfAll_cons, Tree.source,
    Tree.sourceAll]
  exact (rewrites_callee hwc hcallee.self hrenamed).interleave (hcalleelt.self _ offset)
    (rewrites_others hw rfl hrole hothers hotherslt hmerged)

/-! ## Whole trees -/

theorem spells_string {role : Role} {children : List Tree}
    (hw : (Tree.node role .string children).All Tree.Written) :
    Spells b scope (.node role .string children) := by
  intro place offset
  rw [editsOf, changes, if_pos rfl, localized_string]
  split
  · have hfronted := Tree.fronted_of_formed _ (hw.imp fun _ h => h.toFormed)
    have hsource := (Tree.node role .string children).gapText_append_text
    have hgap := Edit.Rewrites.keep offset (gapText (Tree.node role .string children).leadingGap)
    have hwrapped := hgap.append (Edit.Rewrites.replace _ (Tree.node role .string children).text
      (b.call (Tree.node role .string children).text))
    rw [source_lookupCall hfronted]
    rwa [hsource] at hwrapped
  · exact Edit.Rewrites.keep offset _

/-- The edits that a walk finds in a tree make the localized tree of it. -/
theorem spells (hb : b.page ≠ []) (t : Tree) (hw : t.All Tree.Written) : t.All (Spells b scope) := by
  refine Tree.all_of_step ?_ t hw
  intro t ht hchildren
  have hlt : t.All (StartsInside b scope) := startsInside hb t ht
  cases t with
  | leaf role kind gap text =>
    intro place offset
    rw [editsOf_leaf]
    exact Edit.Rewrites.keep offset _
  | node role kind children =>
    by_cases hs : kind = .string
    · subst hs
      exact spells_string ht
    by_cases hc : kind = .call
    · subst hc
      exact spells_call ht hchildren fun c hc => hlt.child hc
    · intro place offset
      rw [editsOf_node_of_ne_call b scope ⟨hc, hs⟩, localized_node_of_ne ⟨hc, hs⟩, Tree.source,
        Tree.source]
      exact rewrites_row (fun c hc => (hchildren c hc).self) offset

/-- The localized tree of a script is written as the source with all its changes made. -/
theorem source_localizedTree {source : Text} {tree : Tree} (hp : parse source = .ok tree)
    (hb : b.page ≠ []) (scope : Scope) :
    (localizedTree b scope tree).source = applyChanges b source (changesIn b scope tree) := by
  have hsource := source_of_parse hp
  obtain ⟨children, rfl, hwritten⟩ := written_of_parse hp
  have hne : Kind.program ≠ .call ∧ Kind.program ≠ .string := by decide
  have hrow : Edit.Rewrites 0 (Tree.sourceAll children)
      (editsOfAll b scope (Place.inside ⟨.program, none⟩ (.node .part .program children)) 0 children)
      (Tree.sourceAll (children.map
        (localized b scope (Place.inside ⟨.program, none⟩ (.node .part .program children))))) :=
    rewrites_row (fun c hc => (spells hb c (hwritten c hc)).self) 0
  rw [localizedTree, localized_node_of_ne hne, Tree.source, ← hrow.result,
    ← editsOf_node_of_ne_call b scope hne, ← hsource]
  rfl

end

end Phrasebook.Script
