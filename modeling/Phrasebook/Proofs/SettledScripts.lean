import Phrasebook.Proofs.Guards
import Phrasebook.Proofs.SpelledTrees

/-!
The guards of the walk recognise what its rules produce. In the tree of a localized script, which is
written as the code that a run makes, nothing is left to change (`localized_tree_is_settled`).

The proof follows the tree from above, with a place of the old tree and one of the new tree that is
guarded by the same. A callee that looks up texts or loads a module is still one (`isLookup_localized`,
`isRequire_localized`), since a renamed callee was neither. A page has its new name, and its data merge
the locale, since they did so before (`mergesLocale_localized`) or because the locale is merged into
them now (`optionsSettled_mergeOptions`). All of this hangs on names of properties, which read the same
in both trees (`keyText_localized`).
-/

namespace Phrasebook.Script

/-- Names that keep the rules of the walk apart. -/
structure PlainBindings (b : Bindings) : Prop where
  translate : isWord b.translate = true
  localeKey : isWord b.localeKey = true
  localizedPage : b.localizedPage ≠ b.page
  page : b.page ≠ "require".toList

theorem plainBindings_default : PlainBindings {} := ⟨by decide, by decide, by decide, by decide⟩

/-! ## Callees in the new tree -/

section

variable {b : Bindings} {scope : Scope} {place : Place}

theorem localized_of_identifier {t : Tree} (ht : t.All Tree.Guarded) (hk : t.kind = .identifier) :
    localized b scope place t = t :=
  localized_of_children_nil (ht.self.identifier hk)

theorem isRequire_localized {t : Tree} (ht : t.All Tree.Guarded) (h : isRequire t = true) :
    isRequire (localized b scope place t) = true := by
  have hk : t.kind = .identifier := by
    rw [isRequire, Bool.and_eq_true, beq_iff_eq] at h
    exact h.1
  rwa [localized_of_identifier ht hk]

theorem isLookup_localized (hb : PlainBindings b) {t : Tree} (ht : t.All Tree.Guarded)
    (h : isLookup b t = true) : isLookup b (localized b scope place t) = true := by
  rw [isLookup, Bool.and_eq_true, beq_iff_eq] at h
  obtain ⟨hk, hparts⟩ := h
  have hne : t.kind ≠ .call ∧ t.kind ≠ .string := by simp [hk]
  rw [isLookup, (localized_of_ne hne).1, child?_localized hne, child?_localized hne]
  cases ho : t.child? .object with
  | none => simp [ho] at hparts
  | some object =>
    cases hp : t.child? .property with
    | none => simp [ho, hp] at hparts
    | some property =>
      simp only [ho, hp, Bool.and_eq_true, beq_iff_eq] at hparts
      obtain ⟨⟨hkind, hobject⟩, hproperty⟩ := hparts
      obtain ⟨homem, -⟩ := Tree.mem_children_of_child? ho
      obtain ⟨hpmem, hrole⟩ := Tree.mem_children_of_child? hp
      have hname := (ht.child hpmem).self.name (.inr hrole)
      have hnil := hname.children_eq_nil (by rw [hproperty]; exact hb.translate)
      simp only [Option.map_some, localized_of_identifier (ht.child homem) hkind,
        localized_of_children_nil hnil]
      simp [hk, hkind, hobject, hproperty]

end

/-! ## Calls in the new tree -/

/-- A change of a tree, if it is asked for. -/
def changeIf (asked : Bool) (f : Tree → Tree) : Tree → Tree := if asked then f else id

section

variable {b : Bindings} {scope : Scope} {place : Place}

theorem child?_callee_amend (cs : List Change) (t : Tree) :
    (amend b cs t).child? .callee =
      (t.child? .callee).map (changeIf (cs.any Change.isRename) (renamedCallee b)) := by
  have hrename : (t.onChild (·.role == .callee) (renamedCallee b)).child? .callee =
      (t.child? .callee).map (renamedCallee b) := Tree.child?_onChild fun _ => rfl
  have hmerge : ∀ s : Tree, (s.onChild (·.role == .arguments)
      (Tree.onFirstNamed (mergeOptions b))).child? .callee = s.child? .callee :=
    fun s => Tree.child?_onChild_of_ne nofun Tree.role_onFirstNamed
  unfold amend changeIf
  split <;> split <;> simp [hmerge, hrename]

theorem child?_arguments_rename (t : Tree) :
    (t.onChild (·.role == .callee) (renamedCallee b)).child? .arguments = t.child? .arguments :=
  Tree.child?_onChild_of_ne nofun fun _ => rfl

theorem child?_arguments_amend (cs : List Change) (t : Tree) :
    (amend b cs t).child? .arguments =
      (t.child? .arguments).map
        (changeIf (cs.any Change.isMerge) (Tree.onFirstNamed (mergeOptions b))) := by
  have hmerge : ∀ s : Tree, (s.onChild (·.role == .arguments)
      (Tree.onFirstNamed (mergeOptions b))).child? .arguments =
        (s.child? .arguments).map (Tree.onFirstNamed (mergeOptions b)) :=
    fun s => Tree.child?_onChild Tree.role_onFirstNamed
  unfold amend changeIf
  split <;> split <;> simp [hmerge, child?_arguments_rename]

/-- A child of an amended node is an old child, a new callee or new arguments. -/
theorem mem_children_amend {cs : List Change} {t c : Tree} (h : c ∈ (amend b cs t).children) :
    c ∈ t.children ∨ (∃ callee, c = renamedCallee b callee) ∨
      cs.any Change.isMerge = true ∧
        ∃ arguments, t.child? .arguments = some arguments ∧
          c = arguments.onFirstNamed (mergeOptions b) := by
  have hrename : ∀ d ∈ (t.onChild (·.role == .callee) (renamedCallee b)).children,
      d ∈ t.children ∨ ∃ callee, d = renamedCallee b callee := by
    intro d hd
    rw [Tree.children_onChild] at hd
    exact (mem_mapFirst hd).imp_right fun ⟨callee, _, he⟩ => ⟨callee, he⟩
  -- what is changed at last are the arguments, in a node with the same arguments as before
  have hmerge : ∀ s : Tree, s.child? .arguments = t.child? .arguments →
      c ∈ (s.onChild (·.role == .arguments) (Tree.onFirstNamed (mergeOptions b))).children →
      c ∈ s.children ∨ ∃ arguments, t.child? .arguments = some arguments ∧
        c = arguments.onFirstNamed (mergeOptions b) := by
    intro s hs hc
    rw [Tree.children_onChild] at hc
    exact (mem_mapFirst hc).imp_right fun ⟨arguments, ha, he⟩ => ⟨arguments, hs ▸ ha, he⟩
  unfold amend at h
  split at h <;> dsimp only at h <;> split at h
  · next hm =>
    rcases hmerge _ (child?_arguments_rename t) h with h | h
    · exact (hrename c h).imp_right .inl
    · exact .inr (.inr ⟨hm, h⟩)
  · exact (hrename c h).imp_right .inl
  · next hm => exact (hmerge t rfl h).imp_right fun h => .inr ⟨hm, h⟩
  · exact .inl h

/-- A call has its children changed, and then what it asks for by itself. -/
theorem exists_localized_eq_amend {t : Tree} (hk : t.kind = .call) :
    ∃ s : Tree, s.children = t.children.map (localized b scope (place.inside t)) ∧
      localized b scope place t = amend b (nodeChanges b scope 0 t) s := by
  cases t with
  | leaf role kind gap text =>
    have hnil : nodeChanges b scope 0 (.leaf role kind gap text) = [] := by
      refine List.eq_nil_iff_forall_not_mem.2 fun c hc => ?_
      obtain ⟨_, _, -, -, hchild, -⟩ := exists_callee_of_mem_nodeChanges hc
      cases hchild
    exact ⟨.leaf role kind gap text, rfl, by rw [hnil]; rfl⟩
  | node role kind children =>
    have hne : kind ≠ .string := by
      rintro rfl
      cases hk
    exact ⟨.node role kind _, rfl, localized_node hne children⟩

theorem child?_of_children {s t : Tree}
    (h : s.children = t.children.map (localized b scope (place.inside t))) (role : Role) :
    s.child? role = (t.child? role).map (localized b scope (place.inside t)) := by
  rw [Tree.child?, h, find?_role_map]
  rfl

theorem child?_callee_localized {t : Tree} (hk : t.kind = .call) :
    (localized b scope place t).child? .callee =
      (t.child? .callee).map fun callee =>
        changeIf ((nodeChanges b scope 0 t).any Change.isRename) (renamedCallee b)
          (localized b scope (place.inside t) callee) := by
  obtain ⟨s, hs, hamend⟩ := @exists_localized_eq_amend b scope place t hk
  rw [hamend, child?_callee_amend, child?_of_children hs, Option.map_map]
  rfl

theorem child?_arguments_localized {t : Tree} (hk : t.kind = .call) :
    (localized b scope place t).child? .arguments =
      (t.child? .arguments).map fun arguments =>
        changeIf ((nodeChanges b scope 0 t).any Change.isMerge) (Tree.onFirstNamed (mergeOptions b))
          (localized b scope (place.inside t) arguments) := by
  obtain ⟨s, hs, hamend⟩ := @exists_localized_eq_amend b scope place t hk
  rw [hamend, child?_arguments_amend, child?_of_children hs, Option.map_map]
  rfl

theorem isNamed_mergeOptions (t : Tree) : (mergeOptions b t).isNamed = t.isNamed :=
  Tree.isNamed_eq_of_kind (kind_mergeOptions b t)

theorem firstNamed?_changeIf (asked : Bool) (t : Tree) :
    (changeIf asked (Tree.onFirstNamed (mergeOptions b)) t).firstNamed? =
      t.firstNamed?.map (changeIf asked (mergeOptions b)) := by
  unfold changeIf
  split
  · exact Tree.firstNamed?_onFirstNamed (leadingGap_mergeOptions b) isNamed_mergeOptions
  · simp

/-- The options of a call are changed as a whole, and then merged with the locale if asked for. -/
theorem optionsOf?_localized {t : Tree} (ht : t.All Tree.Guarded) (hk : t.kind = .call) :
    ∃ inner, optionsOf? (localized b scope place t) =
      (optionsOf? t).map fun options =>
        changeIf ((nodeChanges b scope 0 t).any Change.isMerge) (mergeOptions b)
          (localized b scope inner options) := by
  unfold optionsOf?
  rw [child?_arguments_localized hk]
  cases ha : t.child? .arguments with
  | none => exact ⟨place, rfl⟩
  | some arguments =>
    obtain ⟨hmem, hrole⟩ := Tree.mem_children_of_child? ha
    have hne := (ht.child hmem).self.arguments hrole
    refine ⟨(place.inside t).inside arguments, ?_⟩
    rw [Option.map_some, Option.bind_some, firstNamed?_changeIf, firstNamed?_localized hne,
      Option.map_map, Option.filter_map, Option.bind_some]
    congr 2
    funext options
    have hkind : ∀ s : Tree, (changeIf ((nodeChanges b scope 0 t).any Change.isMerge)
        (mergeOptions b) s).kind = s.kind := by
      intro s
      unfold changeIf
      split <;> simp
    rw [Function.comp_apply, Function.comp_apply, hkind, Bool.eq_iff_iff, beq_iff_eq, beq_iff_eq]
    exact kind_localized_eq_iff nofun nofun

/-- Where the options of a call stand. -/
theorem exists_arguments_of_optionsOf? {t options : Tree} (h : optionsOf? t = some options) :
    ∃ arguments, t.child? .arguments = some arguments ∧ arguments.firstNamed? = some options ∧
      options.kind = .object := by
  obtain ⟨hoptions, hkind⟩ := Option.filter_eq_some_iff.1 h
  obtain ⟨arguments, ha, ho⟩ := Option.bind_eq_some_iff.1 hoptions
  exact ⟨arguments, ha, ho, beq_iff_eq.1 hkind⟩

theorem Tree.All.options {P : Tree → Prop} {t options : Tree} (ht : t.All P)
    (h : optionsOf? t = some options) : options.All P := by
  obtain ⟨arguments, ha, ho, -⟩ := exists_arguments_of_optionsOf? h
  exact (ht.child (Tree.mem_children_of_child? ha).1).child (Tree.mem_children_of_firstNamed? ho)

/-- Merging the locale into a pair keeps its key. -/
theorem child?_key_onValue (t : Tree) :
    (t.onChild (·.role == .value) (mergedValue b)).child? .key = t.child? .key :=
  Tree.child?_onChild_of_ne nofun (role_mergedValue b)

/-- The first property of options, after merging the locale if asked for. -/
theorem firstNamed?_options (asked : Bool) {t first : Tree} (h : t.firstNamed? = some first) :
    ∃ first', (changeIf asked (mergeOptions b) t).firstNamed? = some first' ∧
      first'.kind = first.kind ∧ first'.child? .key = first.child? .key := by
  unfold changeIf
  split
  · have hchange := @Tree.firstNamed?_onChild isDataPair
      (Tree.onChild (·.role == .value) (mergedValue b)) t (leadingGap_onValue b)
      fun c => Tree.isNamed_eq_of_kind (Tree.kind_onChild c)
    rcases hchange with hsame | hvalue
    · exact ⟨first, hsame.trans h, rfl, rfl⟩
    · rw [h] at hvalue
      exact ⟨_, hvalue, Tree.kind_onChild first, child?_key_onValue first⟩
  · exact ⟨first, h, rfl, rfl⟩

/-- A value that merges the locale still does so. -/
theorem mergesLocale_localized (hb : PlainBindings b) {t : Tree} (ht : t.All Tree.Guarded)
    (h : mergesLocale b t = true) : mergesLocale b (localized b scope place t) = true := by
  rw [mergesLocale, Bool.and_eq_true, beq_iff_eq] at h
  obtain ⟨hk, hfirst⟩ := h
  split at hfirst
  · next first hoptions =>
    rw [Bool.and_eq_true, beq_iff_eq, beq_iff_eq] at hfirst
    obtain ⟨hpair, hkey⟩ := hfirst
    obtain ⟨options, ho, hf⟩ := Option.bind_eq_some_iff.1 hoptions
    obtain ⟨inner, hlocalized⟩ := @optionsOf?_localized b scope place t ht hk
    obtain ⟨-, -, -, hobject⟩ := exists_arguments_of_optionsOf? ho
    have hne : options.kind ≠ .call ∧ options.kind ≠ .string := by simp [hobject]
    have hnepair : first.kind ≠ .call ∧ first.kind ≠ .string := by simp [hpair]
    have hnamed : (localized b scope inner options).firstNamed? =
        some (localized b scope (inner.inside options) first) := by
      rw [firstNamed?_localized hne, hf, Option.map_some]
    obtain ⟨first', hfirst', hkind', hkey'⟩ := @firstNamed?_options b
      ((nodeChanges b scope 0 t).any Change.isMerge) _ _ hnamed
    rw [mergesLocale, kind_localized_call hk, hlocalized, ho, Option.map_some, Option.bind_some, hfirst']
    obtain ⟨key, hchild, hword⟩ := Option.map_eq_some_iff.1 hkey
    obtain ⟨hmem, hrole⟩ := Tree.mem_children_of_child? hchild
    have hname := (((ht.options ho).child (Tree.mem_children_of_firstNamed? hf)).child hmem).self.name
    have hplace : (inner.inside options).inside first = ⟨.pair, none⟩ := by
      rw [Place.inside, hpair]
    have hkeyText := (@keyText_localized b scope key hname hrole _ hb.localeKey).2 hword
    rw [child?_localized hnepair, hplace, hchild] at hkey'
    simp [hkind', (localized_of_ne hnepair).1, hpair, hkey', hkeyText]
  · cases hfirst

/-! ## Data in the new tree -/

/-- The data of options merge the locale. -/
def OptionsSettled (b : Bindings) (options : Tree) : Prop :=
  ∀ data ∈ options.children.find? isDataPair, ∀ value ∈ data.child? .value,
    mergesLocale b value = true

theorem optionsSettled_mergeOptions (t : Tree) : OptionsSettled b (mergeOptions b t) := by
  intro data hdata value hvalue
  have hpair : ∀ s, isDataPair s = true →
      isDataPair (s.onChild (·.role == .value) (mergedValue b)) = true := by
    intro s hs
    rw [isDataPair, Tree.kind_onChild, child?_key_onValue]
    exact hs
  rw [mergeOptions, Tree.children_onChild, find?_mapFirst hpair] at hdata
  obtain ⟨old, -, rfl⟩ := Option.map_eq_some_iff.1 hdata
  rw [Tree.child?_onChild (role_mergedValue b)] at hvalue
  obtain ⟨oldValue, -, rfl⟩ := Option.map_eq_some_iff.1 hvalue
  exact mergesLocale_mergedValue oldValue

theorem find?_isDataPair_localized {ts : List Tree} (h : ∀ t ∈ ts, t.All Tree.Guarded) :
    (ts.map (localized b scope place)).find? isDataPair =
      (ts.find? isDataPair).map (localized b scope place) := by
  induction ts with
  | nil => rfl
  | cons t ts ih =>
    obtain ⟨ht, hts⟩ := List.forall_mem_cons.1 h
    rw [List.map_cons, List.find?_cons, List.find?_cons, isDataPair_localized ht, ih hts]
    cases isDataPair t <;> rfl

theorem OptionsSettled.localized (hb : PlainBindings b) {t : Tree} (ht : t.All Tree.Guarded)
    (hk : t.kind = .object) (h : OptionsSettled b t) :
    OptionsSettled b (localized b scope place t) := by
  intro data hdata value hvalue
  have hne : t.kind ≠ .call ∧ t.kind ≠ .string := by simp [hk]
  rw [(localized_of_ne hne).2, find?_isDataPair_localized fun c hc => ht.child hc] at hdata
  obtain ⟨old, hold, rfl⟩ := Option.map_eq_some_iff.1 hdata
  have hpair := kind_of_isDataPair (List.find?_some hold)
  have hnepair : old.kind ≠ .call ∧ old.kind ≠ .string := by simp [hpair]
  rw [child?_localized hnepair] at hvalue
  obtain ⟨oldValue, holdValue, rfl⟩ := Option.map_eq_some_iff.1 hvalue
  have hguarded := (ht.child (List.mem_of_find?_eq_some hold)).child
    (Tree.mem_children_of_child? holdValue).1
  exact mergesLocale_localized hb hguarded (h old hold oldValue holdValue)

/-- The data of a call merge the locale when they did so before, or when it is merged into them. -/
theorem dataSettled_localized (hb : PlainBindings b) {t : Tree} (ht : t.All Tree.Guarded)
    (hk : t.kind = .call)
    (h : (nodeChanges b scope 0 t).any Change.isMerge = true ∨ DataSettled b t) :
    DataSettled b (Script.localized b scope place t) := by
  intro options hoptions
  obtain ⟨inner, hlocalized⟩ := @optionsOf?_localized b scope place t ht hk
  rw [hlocalized] at hoptions
  obtain ⟨old, ho, rfl⟩ := Option.map_eq_some_iff.1 hoptions
  obtain ⟨-, -, -, hobject⟩ := exists_arguments_of_optionsOf? ho
  unfold changeIf
  split
  · exact optionsSettled_mergeOptions _
  · next hmerge =>
    have hold : OptionsSettled b old := h.resolve_left hmerge old ho
    exact hold.localized hb (ht.options ho) hobject

/-- The callee of a call is the old name of a page and gets the new one, or it is another callee. -/
theorem callee_localized_cases {t callee : Tree} (hk : t.kind = .call)
    (hc : t.child? .callee = some callee) :
    callee.kind = .identifier ∧ callee.text = b.page ∧
        (∃ old, (localized b scope place t).child? .callee = some (renamedCallee b old)) ∨
      (∀ mergeLocale, scope = .script mergeLocale → callee.kind = .identifier → callee.text ≠ b.page) ∧
        (localized b scope place t).child? .callee =
          some (localized b scope (place.inside t) callee) := by
  have hnew := @child?_callee_localized b scope place t hk
  rw [hc, Option.map_some, changeIf] at hnew
  split at hnew
  · next hrename =>
    obtain ⟨c, hmem, -⟩ := List.any_eq_true.1 hrename
    obtain ⟨mergeLocale, callee', rfl, -, hc', hid⟩ := exists_callee_of_mem_nodeChanges hmem
    obtain rfl : callee = callee' := Option.some.inj (hc.symm.trans hc')
    exact .inl ⟨hid, (any_nodeChanges hk hc hid).1.1 hrename, _, hnew⟩
  · next hrename =>
    refine .inr ⟨?_, hnew⟩
    rintro mergeLocale rfl hid hpage
    exact hrename ((any_nodeChanges hk hc hid).1.2 hpage)

/-- A call asks for no further change. -/
theorem callSettled_localized (hb : PlainBindings b) {mergeLocale : Bool} {t : Tree}
    (ht : t.All Tree.Guarded) (hk : t.kind = .call) :
    CallSettled b mergeLocale (localized b (.script mergeLocale) place t) := by
  -- the data of a page are settled, whichever name it had
  have hdata : ∀ callee, t.child? .callee = some callee → callee.kind = .identifier →
      callee.text = b.page ∨ callee.text = b.localizedPage → mergeLocale = true →
      DataSettled b (localized b (.script mergeLocale) place t) := by
    intro callee hc hid hname hm
    refine dataSettled_localized hb ht hk ?_
    by_cases hd : DataSettled b t
    · exact .inr hd
    · exact .inl ((any_nodeChanges hk hc hid).2.2 ⟨hm, hname, hd⟩)
  intro _ callee' hc' hid'
  have hold := hc'
  rw [Option.mem_def, child?_callee_localized hk] at hold
  obtain ⟨callee, hc, -⟩ := Option.map_eq_some_iff.1 hold
  rcases @callee_localized_cases b (.script mergeLocale) place t callee hk hc with
    ⟨hid, hpage, old, hnew⟩ | ⟨hpage, hnew⟩
  · obtain rfl : renamedCallee b old = callee' := Option.some.inj (hnew.symm.trans hc')
    have htext : (renamedCallee b old).text = b.localizedPage := text_leaf _ _ _ _
    rw [htext]
    exact ⟨hb.localizedPage, fun hm _ => hdata callee hc hid (.inl hpage) hm⟩
  · have hguarded := ht.child (Tree.mem_children_of_child? hc).1
    obtain rfl := Option.some.inj (hnew.symm.trans hc')
    have hid := (@kind_localized_eq_iff b _ _ callee .identifier nofun nofun).1 hid'
    rw [localized_of_identifier hguarded hid]
    exact ⟨hpage mergeLocale rfl hid, fun hm hname => hdata callee hc hid (.inr hname) hm⟩

/-- The callee of a call guards its arguments as before. -/
theorem guards_inside_call (hb : PlainBindings b) {t : Tree} (ht : t.All Tree.Guarded)
    (hk : t.kind = .call) (place' : Place) :
    (place.inside t).Guards b (place'.inside (localized b scope place t)) := by
  rw [Place.inside_call hk, Place.inside_call (kind_localized_call hk)]
  cases hc : t.child? .callee with
  | none => exact ⟨rfl, nofun, nofun⟩
  | some callee =>
    rcases @callee_localized_cases b scope place t callee hk hc with
      ⟨hid, hpage, old, hnew⟩ | ⟨-, hnew⟩
    · refine ⟨rfl, ?_, ?_⟩
      · intro h
        simp [isLookup, hid] at h
      · intro h
        simp only [Option.any_some, isRequire, hpage, Bool.and_eq_true, beq_iff_eq] at h
        exact absurd h.2 hb.page
    · have hguarded := ht.child (Tree.mem_children_of_child? hc).1
      rw [hnew]
      exact ⟨rfl, isLookup_localized hb hguarded, isRequire_localized hguarded⟩

end

/-! ## Whole trees -/

section

variable {b : Bindings} {scope : Scope} {place place' : Place} {t : Tree}

/-- The new arguments of a call, once the locale is merged into its data. -/
theorem settledIn_mergedArguments {arguments : Tree} (ht : t.All Tree.Guarded)
    (ha : t.child? .arguments = some arguments)
    (hmerge : (nodeChanges b scope 0 t).any Change.isMerge = true)
    (h : SettledIn b scope place' (localized b scope place arguments)) :
    SettledIn b scope place'
      ((localized b scope place arguments).onFirstNamed (mergeOptions b)) := by
  obtain ⟨c, hmem, -⟩ := List.any_eq_true.1 hmerge
  obtain ⟨mergeLocale, callee, rfl, hk, hc, hid⟩ := exists_callee_of_mem_nodeChanges hmem
  obtain ⟨-, -, hunsettled⟩ := (any_nodeChanges hk hc hid).2.1 hmerge
  -- without options there would be nothing to merge the locale into
  obtain ⟨options, ho⟩ : ∃ options, optionsOf? t = some options := by
    cases ho : optionsOf? t with
    | none => exact absurd (fun _ h => by rw [ho] at h; cases h) hunsettled
    | some options => exact ⟨options, rfl⟩
  obtain ⟨arguments', ha', hfirst, hobject⟩ := exists_arguments_of_optionsOf? ho
  obtain rfl : arguments = arguments' := Option.some.inj (ha.symm.trans ha')
  obtain ⟨hmem, hrole⟩ := Tree.mem_children_of_child? ha
  have hne := (ht.child hmem).self.arguments hrole
  have hne' : (localized b (.script mergeLocale) place arguments).kind ≠ .call ∧
      (localized b (.script mergeLocale) place arguments).kind ≠ .string := by
    rwa [(localized_of_ne hne).1]
  have hfirst' := @firstNamed?_localized b (.script mergeLocale) place arguments hne
  rw [hfirst, Option.map_some] at hfirst'
  refine h.onFirstNamed hne' hfirst' (SettledIn.mergeOptions ?_ ?_)
  · exact (@kind_localized_eq_iff b _ _ options .object nofun nofun).2 hobject
  · exact (settledIn_iff_of_ne hne').1 h _ (Tree.mem_children_of_firstNamed? hfirst')

theorem settledIn_localized_call (hb : PlainBindings b) (ht : t.All Tree.Guarded)
    (hk : t.kind = .call)
    (h : ∀ c ∈ t.children, SettledIn b scope (place'.inside (localized b scope place t))
      (localized b scope (place.inside t) c)) :
    SettledIn b scope place' (localized b scope place t) := by
  have hstring : (localized b scope place t).kind ≠ .string := by
    rw [kind_localized_call hk]
    nofun
  refine (settledIn_iff hstring).2 ⟨?_, ?_⟩
  · rintro mergeLocale rfl
    exact callSettled_localized hb ht hk
  · intro c hc
    obtain ⟨s, hs, hamend⟩ := @exists_localized_eq_amend b scope place t hk
    have hamended := hc
    rw [hamend] at hamended
    rcases mem_children_amend hamended with hold | ⟨callee, rfl⟩ | ⟨hmerge, arguments', ha', rfl⟩
    · rw [hs] at hold
      obtain ⟨d, hd, rfl⟩ := List.mem_map.1 hold
      exact h d hd
    · exact settledIn_leaf _ _ _ _
    · rw [child?_of_children hs] at ha'
      obtain ⟨arguments, ha, rfl⟩ := Option.map_eq_some_iff.1 ha'
      exact settledIn_mergedArguments ht ha hmerge (h arguments (List.mem_of_find?_eq_some ha))

theorem settledIn_localized_of_ne (hk : t.kind ≠ .call ∧ t.kind ≠ .string)
    (h : ∀ c ∈ t.children, SettledIn b scope (place'.inside (localized b scope place t))
      (localized b scope (place.inside t) c)) :
    SettledIn b scope place' (localized b scope place t) := by
  obtain ⟨hkind, hchildren⟩ := @localized_of_ne b scope place t hk
  refine settledIn_of_ne (by rwa [hkind]) ?_
  intro c hc
  rw [hchildren] at hc
  obtain ⟨d, hd, rfl⟩ := List.mem_map.1 hc
  exact h d hd

mutual

/-- Nothing is left to change in a tree with its changes made, in a place that is guarded by the
same. -/
theorem settledIn_localized (hb : PlainBindings b) :
    ∀ (t : Tree) {place place' : Place}, t.All Tree.Guarded → place.Guards b place' →
      SettledIn b scope place' (localized b scope place t)
  | .leaf .., _, _, _, _ => settledIn_leaf _ _ _ _
  | .node role kind children, place, place', ht, hg => by
    by_cases hs : kind = .string
    · subst hs
      rw [localized_string]
      split
      · exact settledIn_lookupCall role children
      · next hw =>
        have hstays := (wraps_eq_false_iff rfl).1 (Bool.eq_false_iff.2 hw)
        exact settledIn_string_iff.2 (hstays.of_guards hg rfl rfl rfl)
    have hrow := fun hguards => @settledIn_localized_row hb children
      (place.inside (.node role kind children))
      (place'.inside (localized b scope place (.node role kind children)))
      (fun _ hc => ht.child hc) hguards
    by_cases hc : (Tree.node role kind children).kind = .call
    · exact settledIn_localized_call hb ht hc (hrow (guards_inside_call hb ht hc place'))
    · have hne := And.intro hc hs
      exact settledIn_localized_of_ne hne (hrow (hg.inside hc (localized_of_ne hne).1))

theorem settledIn_localized_row (hb : PlainBindings b) :
    ∀ (ts : List Tree) {place place' : Place}, (∀ t ∈ ts, t.All Tree.Guarded) →
      place.Guards b place' → ∀ t ∈ ts, SettledIn b scope place' (localized b scope place t)
  | [], _, _, _, _ => nofun
  | t :: ts, _, _, ht, hg => by
    obtain ⟨hhead, htail⟩ := List.forall_mem_cons.1 ht
    exact List.forall_mem_cons.2
      ⟨settledIn_localized hb t hhead hg, settledIn_localized_row hb ts htail hg⟩

end

end

/-- Nothing is left to change in the tree of a localized script. -/
theorem settled_localizedTree {source : Text} {tree : Tree} (hp : parse source = .ok tree)
    (scope : Scope) : Settled {} scope (localizedTree {} scope tree) :=
  settledIn_localized plainBindings_default tree (guarded_of_parse hp) (Place.Guards.refl {} _)

/-- The tree of a localized script, with literals wrapped, pages renamed and the locale merged into data,
is written as the source with all changes made that a walk finds in it. In this tree a walk finds nothing
more to edit and no text to record. -/
theorem localized_tree_is_settled {source : Text} {tree : Tree} (hp : parse source = .ok tree)
    (scope : Scope) :
    (localizedTree {} scope tree).source = applyChanges {} source (changesIn {} scope tree) ∧
      (changesIn {} scope (localizedTree {} scope tree)).flatMap (Change.edits {}) = [] ∧
      (changesIn {} scope (localizedTree {} scope tree)).filterMap Change.text? = [] := by
  rw [changesIn_eq_nil_iff.2 (settled_localizedTree hp scope)]
  exact ⟨source_localizedTree hp (by decide) scope, rfl, rfl⟩

/-- A page in the data of a page, whose data are a literal, before and after its localization. -/
def nestedPage (localized : Bool) : Text :=
  if localized then
    ("I18nPage(\x7b data: Object.assign(\x7b $language: i18n.getLocale() \x7d, I18nPage(\x7b data: " ++
      "Object.assign(\x7b $language: i18n.getLocale() \x7d, i18n.t('你好')) \x7d)) \x7d)").toList
  else "Page(\x7b data: Page(\x7b data: '你好' \x7d) \x7d)".toList

theorem nestedPage_is_settled :
    ∃ tree, parse (nestedPage false) = .ok tree ∧
      (localizedTree {} (.script true) tree).source = nestedPage true ∧
      (localizedTree {} (.script true) tree).source =
        applyChanges {} (nestedPage false) (changesIn {} (.script true) tree) ∧
      (changesIn {} (.script true) (localizedTree {} (.script true) tree)).flatMap
        (Change.edits {}) = [] ∧
      (changesIn {} (.script true) (localizedTree {} (.script true) tree)).filterMap
        Change.text? = [] := by
  have hspelled : ((parse (nestedPage false)).map fun tree =>
      (localizedTree {} (.script true) tree).source).toOption = some (nestedPage true) := by
    decide +kernel
  cases hp : parse (nestedPage false) with
  | error e =>
    rw [hp] at hspelled
    cases hspelled
  | ok tree =>
    rw [hp] at hspelled
    exact ⟨tree, rfl, Option.some.inj hspelled, localized_tree_is_settled hp (.script true)⟩

end Phrasebook.Script
