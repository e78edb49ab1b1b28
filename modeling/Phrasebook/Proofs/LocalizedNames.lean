import Phrasebook.Proofs.LocalizedTrees

/-!
Names in the tree of a localized script. The rules of the walk look for children by their roles and by
the names of properties, and find the same children in both trees (`child?_localized`,
`firstNamed?_localized`, `isDataPair_localized`): a name that reads like a word is a single token, which
stays, and any other name still opens with a bracket or a quote (`keyText_localized`).
-/

namespace Phrasebook.Script

/-- A text that does not start like a name of several tokens. -/
def isWord (w : Text) : Bool := !w.head?.any opensName

theorem text_of_children {t : Tree} {gap : Gap} {c : Char} {others : List Tree}
    (h : t.children = .leaf .part .mark gap [c] :: others) :
    t.text = c :: Tree.sourceAll others := by
  cases t with
  | leaf => cases h
  | node role kind children =>
    obtain rfl : children = .leaf .part .mark gap [c] :: others := h
    rw [Tree.text, Tree.source, Tree.sourceAll, Tree.source, Tree.leadingGap, Tree.leadingGapAll,
      Tree.leadingGap, List.append_assoc, List.drop_left]
    rfl

/-- A name that reads like a word is a single token. -/
theorem Tree.IsName.children_eq_nil {t : Tree} (h : t.IsName) (hw : isWord t.text = true) :
    t.children = [] := by
  rcases h with h | ⟨-, gap, c, others, hrow, hc⟩
  · exact h
  · rw [text_of_children hrow, isWord] at hw
    simp [hc] at hw

section

variable {b : Bindings} {scope : Scope} {place : Place}

theorem find?_role_map (role : Role) (ts : List Tree) :
    (ts.map (localized b scope place)).find? (·.role == role) =
      (ts.find? (·.role == role)).map (localized b scope place) := by
  rw [List.find?_map]
  congr 2
  funext c
  exact congrArg (· == role) (role_localized c)

theorem child?_localized {t : Tree} (hk : t.kind ≠ .call ∧ t.kind ≠ .string) (role : Role) :
    (localized b scope place t).child? role =
      (t.child? role).map (localized b scope (place.inside t)) := by
  rw [Tree.child?, (localized_of_ne hk).2, find?_role_map]
  rfl

theorem firstNamed?_localized {t : Tree} (hk : t.kind ≠ .call ∧ t.kind ≠ .string) :
    (localized b scope place t).firstNamed? =
      t.firstNamed?.map (localized b scope (place.inside t)) := by
  rw [Tree.firstNamed?, (localized_of_ne hk).2, ← List.map_drop, Tree.firstNamed?]
  exact Tree.firstNamed?_go_map (fun c => leadingGap_localized c _) isNamed_localized _

/-- A key reads like a given word in both trees or in none. -/
theorem keyText_localized {k : Tree} (hk : k.NameShaped) (hr : k.role = .key) {w : Text}
    (hw : isWord w = true) :
    keyText (localized b scope ⟨.pair, none⟩ k) = w ↔ keyText k = w := by
  rcases hk (.inl hr) with hnil | ⟨hcall, gap, c, others, hrow, hc⟩
  · rw [localized_of_children_nil hnil]
  · by_cases hs : k.kind = .string
    · -- a key stays as it is
      cases k with
      | leaf => cases hrow
      | node role kind children =>
        obtain rfl : kind = .string := hs
        obtain rfl : role = .key := hr
        rw [localized_string]
        simp [wraps, Place.forChild, isFixedPlace, Tree.role]
    · obtain ⟨hkind, hchildren⟩ := @localized_of_ne b scope ⟨.pair, none⟩ k ⟨hcall, hs⟩
      have hrow' : (localized b scope ⟨.pair, none⟩ k).children = .leaf .part .mark gap [c] ::
          others.map (localized b scope (Place.inside ⟨.pair, none⟩ k)) := by
        rw [hchildren, hrow]
        rfl
      have hne : ∀ rest, c :: rest ≠ w := by
        rintro rest rfl
        simp [isWord, hc] at hw
      rw [keyText, hkind, if_neg hs, text_of_children hrow', keyText, if_neg hs, text_of_children hrow]
      exact iff_of_false (hne _) (hne _)

theorem kind_localized_eq_iff {t : Tree} {kind : Kind} (hc : kind ≠ .call) (hs : kind ≠ .string) :
    (localized b scope place t).kind = kind ↔ t.kind = kind := by
  rcases @kind_localized b scope place t with h | ⟨h, h'⟩
  · rw [h]
  · rw [h, h']
    exact iff_of_false hc.symm hs.symm

theorem kind_localized_call {t : Tree} (hk : t.kind = .call) :
    (localized b scope place t).kind = .call := by
  rcases @kind_localized b scope place t with h | ⟨-, h⟩
  · rw [h, hk]
  · exact h

theorem kind_of_isDataPair {t : Tree} (h : isDataPair t = true) : t.kind = .pair := by
  rw [isDataPair, Bool.and_eq_true, beq_iff_eq] at h
  exact h.1

theorem isDataPair_localized {t : Tree} (ht : t.All Tree.Guarded) :
    isDataPair (localized b scope place t) = isDataPair t := by
  by_cases hk : t.kind = .pair
  · have hne : t.kind ≠ .call ∧ t.kind ≠ .string := by simp [hk]
    have hplace : place.inside t = ⟨.pair, none⟩ := by rw [Place.inside, hk]
    rw [isDataPair, (localized_of_ne hne).1, child?_localized hne, hplace, isDataPair]
    cases hkey : t.child? .key with
    | none => rfl
    | some k =>
      obtain ⟨hmem, hrole⟩ := Tree.mem_children_of_child? hkey
      have hiff := @keyText_localized b scope k (ht.child hmem).self.name hrole "data".toList (by decide)
      rw [Bool.eq_iff_iff]
      simpa [hk] using hiff
  · have hk' := mt (@kind_localized_eq_iff b scope place t .pair (by decide) (by decide)).1 hk
    rw [isDataPair, beq_eq_false_iff_ne.2 hk', isDataPair, beq_eq_false_iff_ne.2 hk]
    rfl

end

end Phrasebook.Script
