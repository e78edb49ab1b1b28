import Phrasebook.Proofs.LocalizedNames
import Phrasebook.Proofs.TokenRows

/-!
The guards of the walk, seen from the trees they guard. A tree in a place is settled when the walk finds
nothing to change in it (`SettledIn`).

* A literal that stays does so because of its place, so it also stays in another place that is guarded by
  the same (`Place.Guards`, `SettledIn.of_guards`).
* The code that the rules produce is settled: a wrapped literal is guarded by its own call
  (`settledIn_lookupCall`), and so are options with the locale merged into their data, if they were
  settled before (`SettledIn.mergeOptions`).
-/

namespace Phrasebook.Script

/-! ## Settled trees -/

/-- A tree in a place, with nothing left to change in it. -/
def SettledIn (b : Bindings) (scope : Scope) (place : Place) (t : Tree) : Prop :=
  ∀ inner s, Occurs place t inner s → SettledHere b scope inner s

/-- A place whose literals stay for the same reasons as in another one. -/
structure Place.Guards (b : Bindings) (place place' : Place) : Prop where
  parent : place'.parent = place.parent
  lookup : place.callee.any (isLookup b) = true → place'.callee.any (isLookup b) = true
  require : place.callee.any isRequire = true → place'.callee.any isRequire = true

section

variable {b : Bindings} {scope : Scope} {place place' : Place}

theorem settledIn_leaf (role : Role) (kind : Kind) (gap : Gap) (text : Text) :
    SettledIn b scope place (.leaf role kind gap text) :=
  (changes_eq_nil_iff b scope (.leaf role kind gap text) place 0).1 (by rw [changes])

theorem settledIn_string_iff {role : Role} {children : List Tree} :
    SettledIn b scope place (.node role .string children) ↔
      LiteralSettled b place (.node role .string children) := by
  constructor
  · intro h
    exact (h _ _ (.here _ _)).1
  · intro h inner s ho
    cases ho with
    | here => exact ⟨h, fun _ _ hcall => by cases hcall⟩
    | child hne _ _ => exact absurd rfl hne

theorem settledIn_node_iff {role : Role} {kind : Kind} {children : List Tree} (hk : kind ≠ .string) :
    SettledIn b scope place (.node role kind children) ↔
      (∀ mergeLocale, scope = .script mergeLocale →
        CallSettled b mergeLocale (.node role kind children)) ∧
      ∀ c ∈ children, SettledIn b scope (place.inside (.node role kind children)) c := by
  rw [SettledIn, forall_occurs_node hk]
  have hliteral : LiteralSettled b place (.node role kind children) := fun h => absurd h hk
  simp only [SettledHere, hliteral, true_and]
  rfl

theorem settledIn_iff {t : Tree} (hk : t.kind ≠ .string) :
    SettledIn b scope place t ↔
      (∀ mergeLocale, scope = .script mergeLocale → CallSettled b mergeLocale t) ∧
      ∀ c ∈ t.children, SettledIn b scope (place.inside t) c := by
  cases t with
  | leaf role kind gap text =>
    constructor
    · exact fun _ => ⟨fun _ _ _ _ hc => (by cases hc), nofun⟩
    · exact fun _ => settledIn_leaf role kind gap text
  | node role kind children => exact settledIn_node_iff hk

/-- A node that is neither a call nor a string is settled when its children are. -/
theorem settledIn_iff_of_ne {t : Tree} (hk : t.kind ≠ .call ∧ t.kind ≠ .string) :
    SettledIn b scope place t ↔ ∀ c ∈ t.children, SettledIn b scope (place.inside t) c := by
  rw [settledIn_iff hk.2]
  exact and_iff_right fun _ _ h => absurd h hk.1

theorem settledIn_of_ne {t : Tree} (hk : t.kind ≠ .call ∧ t.kind ≠ .string)
    (h : ∀ c ∈ t.children, SettledIn b scope (place.inside t) c) : SettledIn b scope place t :=
  (settledIn_iff_of_ne hk).2 h

/-- The place of children depends on the kind of their parent only, unless that is a call. -/
theorem Place.inside_congr {s t : Tree} (hk : s.kind ≠ .call) (h : t.kind = s.kind) (place : Place) :
    place.inside t = place.inside s := by
  unfold Place.inside
  rw [h]
  split
  · next hcall => exact absurd hcall hk
  · rfl
  · rfl

theorem Place.Guards.refl (b : Bindings) (place : Place) : place.Guards b place := ⟨rfl, id, id⟩

theorem Place.Guards.inside {t t' : Tree} (hg : place.Guards b place') (hk : t.kind ≠ .call)
    (h : t'.kind = t.kind) : (place.inside t).Guards b (place'.inside t') := by
  rw [Place.inside_congr hk h]
  unfold Place.inside
  split
  · next hcall => exact absurd hcall hk
  · rw [hg.parent]
    split
    · exact ⟨rfl, hg.lookup, hg.require⟩
    · exact Place.Guards.refl b _
  · exact Place.Guards.refl b _

theorem Place.inside_call {t : Tree} (hk : t.kind = .call) (place : Place) :
    place.inside t = ⟨.call, t.child? .callee⟩ := by
  rw [Place.inside, hk]

/-- A literal stays in a place that is guarded by the same. -/
theorem LiteralSettled.of_guards {t t' : Tree} (h : LiteralSettled b place t)
    (hg : place.Guards b place') (hkind : t'.kind = t.kind) (hrole : t'.role = t.role)
    (hvalue : literalValue t' = literalValue t) : LiteralSettled b place' t' := by
  intro hk hn
  rw [hkind] at hk
  rw [hvalue] at hn
  have hsettled := h hk hn
  unfold Place.forChild at hsettled ⊢
  rw [hg.parent, hrole]
  split at hsettled
  · next harguments =>
    rw [if_pos harguments]
    have hfixed : isFixedPlace place' t.role = isFixedPlace place t.role := by
      rw [isFixedPlace, hg.parent, isFixedPlace]
    rw [hfixed]
    exact hsettled.imp hg.lookup (Or.imp_right hg.require)
  · next harguments =>
    rw [if_neg harguments]
    exact hsettled

end

/-! ## Another gap -/

section

variable {b : Bindings} {scope : Scope} (gap : Gap)

theorem isLookup_withGap (t : Tree) : isLookup b (t.withGap gap) = isLookup b t := by
  have hobject := t.child?_withGap gap .object
  have hproperty := t.child?_withGap gap .property
  unfold isLookup
  rw [Tree.kind_withGap]
  rcases hobject with ho | ho <;> rcases hproperty with hp | hp <;> rw [ho, hp] <;>
    cases t.child? .object <;> cases t.child? .property <;> simp

theorem isRequire_withGap (t : Tree) : isRequire (t.withGap gap) = isRequire t := by
  simp [isRequire]

theorem optionsOf?_withGap (t : Tree) : optionsOf? (t.withGap gap) = optionsOf? t := by
  unfold optionsOf?
  rcases t.child?_withGap gap .arguments with h | h
  · rw [h]
  · rw [h]
    cases t.child? .arguments <;> simp

theorem CallSettled.withGap {mergeLocale : Bool} {t : Tree} (h : CallSettled b mergeLocale t) :
    CallSettled b mergeLocale (t.withGap gap) := by
  intro hk callee hc hid
  rw [Tree.kind_withGap] at hk
  have hdata : DataSettled b (t.withGap gap) ↔ DataSettled b t := by
    rw [DataSettled, optionsOf?_withGap, DataSettled]
  rw [hdata]
  rcases t.child?_withGap gap .callee with hchild | hchild
  · rw [hchild] at hc
    exact h hk callee hc hid
  · rw [hchild] at hc
    obtain ⟨c, hchild, rfl⟩ := Option.map_eq_some_iff.1 hc
    rw [Tree.kind_withGap] at hid
    rw [Tree.text_withGap]
    exact h hk c hchild hid

theorem guards_inside_withGap {place place' : Place} (hg : place.Guards b place') (t : Tree) :
    (place.inside t).Guards b (place'.inside t) ∧
      (place.inside t).Guards b (place'.inside (t.withGap gap)) := by
  by_cases hk : t.kind = .call
  · rw [Place.inside_call hk, Place.inside_call hk,
      Place.inside_call ((Tree.kind_withGap gap t).trans hk)]
    refine ⟨Place.Guards.refl b _, ?_⟩
    rcases t.child?_withGap gap .callee with h | h
    · rw [h]
      exact Place.Guards.refl b _
    · rw [h]
      cases t.child? .callee with
      | none => exact Place.Guards.refl b _
      | some c => exact ⟨rfl, by simp [isLookup_withGap], by simp [isRequire_withGap]⟩
  · exact ⟨hg.inside hk rfl, hg.inside hk (Tree.kind_withGap gap t)⟩

mutual

/-- A settled tree stays settled in a place that is guarded by the same, also after another gap. -/
theorem SettledIn.of_guards : ∀ (t : Tree) {place place' : Place}, place.Guards b place' →
    SettledIn b scope place t →
      SettledIn b scope place' t ∧ SettledIn b scope place' (t.withGap gap)
  | .leaf .., _, _, _, _ => ⟨settledIn_leaf _ _ _ _, settledIn_leaf _ _ _ _⟩
  | .node role kind children, place, place', hg, h => by
    by_cases hk : kind = .string
    · subst hk
      rw [settledIn_string_iff] at h
      refine ⟨settledIn_string_iff.2 (h.of_guards hg rfl rfl rfl), settledIn_string_iff.2 ?_⟩
      exact h.of_guards hg rfl rfl (Tree.literalValue_withGap gap (.node role .string children))
    · obtain ⟨hcall, hchildren⟩ := (settledIn_node_iff hk).1 h
      obtain ⟨hsame, hgap⟩ := guards_inside_withGap gap hg (.node role kind children)
      refine ⟨(settledIn_node_iff hk).2 ⟨hcall, ?_⟩, (settledIn_node_iff hk).2 ⟨?_, ?_⟩⟩
      · exact (SettledIn.of_guards_row children hsame hchildren).1
      · exact fun m hm => (hcall m hm).withGap gap
      · exact (SettledIn.of_guards_row children hgap hchildren).2

theorem SettledIn.of_guards_row : ∀ (ts : List Tree) {place place' : Place}, place.Guards b place' →
    (∀ c ∈ ts, SettledIn b scope place c) →
      (∀ c ∈ ts, SettledIn b scope place' c) ∧
        ∀ c ∈ Tree.withGapAll gap ts, SettledIn b scope place' c
  | [], _, _, _, _ => ⟨nofun, nofun⟩
  | t :: ts, place, place', hg, h => by
    obtain ⟨ht, hts⟩ := List.forall_mem_cons.1 h
    obtain ⟨hsame, hgap⟩ := SettledIn.of_guards t hg ht
    obtain ⟨hrest, -⟩ := SettledIn.of_guards_row ts hg hts
    exact ⟨List.forall_mem_cons.2 ⟨hsame, hrest⟩, List.forall_mem_cons.2 ⟨hgap, hrest⟩⟩

end

end

/-! ## Generated calls -/

section

variable {b : Bindings} {scope : Scope} {place : Place}

theorem isLookup_methodCallee (b : Bindings) (gap : Gap) :
    isLookup b (methodCallee gap b.receiver b.translate) = true := by
  simp [isLookup, methodCallee, Tree.child?, Tree.children, Tree.kind, Tree.role, symbolLeaf, text_leaf]

theorem settledIn_methodCallee (gap : Gap) (object property : Text) :
    SettledIn b scope place (methodCallee gap object property) := by
  refine settledIn_of_ne ⟨nofun, nofun⟩ ?_
  intro c hc
  simp only [methodCallee, symbolLeaf, Tree.children, List.mem_cons, List.not_mem_nil, or_false] at hc
  rcases hc with rfl | rfl | rfl <;> exact settledIn_leaf _ _ _ _

/-- A call of a method asks for nothing by itself. -/
theorem settledIn_methodCall {role : Role} {gap : Gap} {object property : Text}
    {arguments : List Tree}
    (h : ∀ a ∈ arguments,
      SettledIn b scope ⟨.arguments, some (methodCallee gap object property)⟩ a) :
    SettledIn b scope place (methodCall role gap object property arguments) := by
  have hcall : Kind.call ≠ .string := nofun
  refine (settledIn_node_iff hcall).2 ⟨?_, ?_⟩
  · intro m _ _ callee hc hid
    obtain rfl : methodCallee gap object property = callee := Option.some.inj hc
    cases hid
  · refine List.forall_mem_cons.2 ⟨settledIn_methodCallee gap object property, ?_⟩
    refine List.forall_mem_cons.2 ⟨settledIn_of_ne ⟨nofun, nofun⟩ ?_, nofun⟩
    intro c hc
    simp only [Tree.children, List.cons_append, List.mem_cons, List.mem_append, List.not_mem_nil,
      or_false] at hc
    rcases hc with rfl | hc | rfl
    · exact settledIn_leaf _ _ _ _
    · exact h c hc
    · exact settledIn_leaf _ _ _ _

/-- A wrapped literal is guarded by its own call. -/
theorem settledIn_lookupCall (role : Role) (children : List Tree) :
    SettledIn b scope place (lookupCall b (.node role .string children)) := by
  refine settledIn_methodCall (List.forall_mem_cons.2 ⟨?_, nofun⟩)
  refine settledIn_string_iff.2 fun _ _ => .inl ?_
  exact isLookup_methodCallee b _

theorem settledIn_localeObject : SettledIn b scope place (localeObject b) := by
  refine settledIn_of_ne ⟨nofun, nofun⟩ ?_
  refine List.forall_mem_cons.2 ⟨settledIn_leaf _ _ _ _, List.forall_mem_cons.2 ⟨?_, ?_⟩⟩
  · refine settledIn_of_ne ⟨nofun, nofun⟩ ?_
    refine List.forall_mem_cons.2 ⟨settledIn_leaf _ _ _ _, ?_⟩
    refine List.forall_mem_cons.2 ⟨settledIn_leaf _ _ _ _, List.forall_mem_cons.2 ⟨?_, nofun⟩⟩
    exact settledIn_methodCall nofun
  · exact List.forall_mem_cons.2 ⟨settledIn_leaf _ _ _ _, nofun⟩

/-- The value of a property is as settled as an argument. -/
theorem SettledIn.argument {t : Tree} (hr : t.role = .value)
    (h : SettledIn b scope ⟨.pair, none⟩ t) (callee : Option Tree) :
    SettledIn b scope ⟨.arguments, callee⟩ (t.withRole .part) := by
  cases t with
  | leaf => exact settledIn_leaf _ _ _ _
  | node role kind children =>
    obtain rfl : role = .value := hr
    by_cases hk : kind = .string
    · subst hk
      refine settledIn_string_iff.2 fun hk hn => ?_
      -- in a pair, a natural literal that stays is the key
      have hkey := (settledIn_string_iff.1 h) hk hn
      simp [Place.forChild, isFixedPlace, Tree.role] at hkey
    · obtain ⟨hcall, hchildren⟩ := (settledIn_node_iff hk).1 h
      refine (settledIn_node_iff hk).2 ⟨hcall, ?_⟩
      have hinside : Place.inside ⟨.arguments, callee⟩ (.node .part kind children) =
          Place.inside ⟨.pair, none⟩ (.node .value kind children) := by
        unfold Place.inside
        cases kind <;> rfl
      rw [hinside]
      exact hchildren

/-- A value that the locale is merged into is as settled as before. -/
theorem SettledIn.mergedValue {t : Tree} (hr : t.role = .value)
    (h : SettledIn b scope ⟨.pair, none⟩ t) :
    SettledIn b scope ⟨.pair, none⟩ (mergedValue b t) := by
  refine settledIn_methodCall (List.forall_mem_cons.2 ⟨settledIn_localeObject, ?_⟩)
  refine List.forall_mem_cons.2 ⟨settledIn_leaf _ _ _ _, List.forall_mem_cons.2 ⟨?_, nofun⟩⟩
  have hgap := (SettledIn.of_guards space t (Place.Guards.refl b _) h).2
  exact hgap.argument ((Tree.role_withGap space t).trans hr) _

theorem mergesLocale_mergedValue (t : Tree) : mergesLocale b (mergedValue b t) = true := by
  have hfirst : (optionsOf? (mergedValue b t)).bind Tree.firstNamed? =
      some (.node .part .pair [.leaf .key .propertyName space b.localeKey, symbolLeaf [] ":",
        methodCall .value space b.receiver b.localeGetter []]) := rfl
  have hkey : keyText (.leaf .key .propertyName space b.localeKey) = b.localeKey := text_leaf _ _ _ _
  have hkind : (mergedValue b t).kind = .call := rfl
  rw [mergesLocale, hkind, hfirst]
  simp [Tree.child?, Tree.children, Tree.kind, Tree.role, hkey]

/-- Changing a child of a node that is neither a call nor a string. -/
theorem SettledIn.onChild {t : Tree} {p : Tree → Bool} {f : Tree → Tree}
    (hk : t.kind ≠ .call ∧ t.kind ≠ .string) (h : SettledIn b scope place t)
    (hf : ∀ d, t.children.find? p = some d → SettledIn b scope (place.inside t) (f d)) :
    SettledIn b scope place (t.onChild p f) := by
  have hchildren := (settledIn_iff_of_ne hk).1 h
  refine settledIn_of_ne (by simpa using hk) ?_
  rw [Place.inside_congr hk.1 (Tree.kind_onChild t), Tree.children_onChild]
  intro c hc
  rcases mem_mapFirst hc with hc | ⟨d, hd, rfl⟩
  · exact hchildren c hc
  · exact hf d hd

theorem SettledIn.onFirstNamed {t o : Tree} {f : Tree → Tree}
    (hk : t.kind ≠ .call ∧ t.kind ≠ .string) (h : SettledIn b scope place t)
    (ho : t.firstNamed? = some o) (hf : SettledIn b scope (place.inside t) (f o)) :
    SettledIn b scope place (t.onFirstNamed f) := by
  have hchildren := (settledIn_iff_of_ne hk).1 h
  refine settledIn_of_ne (by simpa using hk) ?_
  rw [Place.inside_congr hk.1 (Tree.kind_onFirstNamed t)]
  intro c hc
  rcases Tree.mem_children_onFirstNamed ho hc with hc | rfl
  · exact hchildren c hc
  · exact hf

/-- Merging the locale into the data of settled options. -/
theorem SettledIn.mergeOptions {t : Tree} (hk : t.kind = .object) (h : SettledIn b scope place t) :
    SettledIn b scope place (mergeOptions b t) := by
  have hne : t.kind ≠ .call ∧ t.kind ≠ .string := by simp [hk]
  refine h.onChild hne fun data hdata => ?_
  have hpair := kind_of_isDataPair (List.find?_some hdata)
  have hplace : (place.inside t).inside data = ⟨.pair, none⟩ := by rw [Place.inside, hpair]
  have hsettled := (settledIn_iff_of_ne hne).1 h data (List.mem_of_find?_eq_some hdata)
  have hnepair : data.kind ≠ .call ∧ data.kind ≠ .string := by simp [hpair]
  refine hsettled.onChild hnepair fun value hvalue => ?_
  have hin := (settledIn_iff_of_ne hnepair).1 hsettled value (List.mem_of_find?_eq_some hvalue)
  rw [hplace] at hin ⊢
  exact hin.mergedValue (by simpa using List.find?_some hvalue)

end

end Phrasebook.Script
