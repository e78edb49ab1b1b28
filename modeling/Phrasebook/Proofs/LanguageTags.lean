import Phrasebook.Proofs.CanonicalForms
import Phrasebook.Proofs.Tables

/-!
The tags of a language. The sort of a tag tells its place, so a language can be told from its tags in any
order, as long as the first one stays (`LanguageId.eq_of_perm`). Tags of two languages say the same
(`SameLanguage`) exactly if the languages are the same (`sameLanguage_iff`).
-/

namespace Phrasebook

open Phrasebook.Locale Subtag

namespace LanguageId

theorem filterMap_eq_self {f : Text → Option Text} {l : List Text} (h : ∀ s ∈ l, f s = some s) :
    l.filterMap f = l :=
  (List.filterMap_congr h).trans List.filterMap_some

theorem eq_of_toList_perm {o p : Option Text} (h : o.toList.Perm p.toList) : o = p := by
  cases o <;> cases p
  · rfl
  · exact absurd h.length_eq (by simp)
  · exact absurd h.length_eq (by simp)
  · exact congrArg some (by simpa using h)

/-- The subtags behind the language of which only those of a sort are left. -/
theorem filterMap_tags {id : LanguageId} (hid : id.Canonical) {vs : List Text}
    (hvs : vs.Perm id.variants) :
    let tags := (id.script.toList ++ id.region.toList ++ vs).map Text.lowerAscii
    tags.filterMap script? = id.script.toList ∧ tags.filterMap region? = id.region.toList ∧
      tags.filterMap variant? = vs := by
  have hscript : ∀ s ∈ id.script.toList, script? s = some s := fun s hs =>
    hid.script s (Option.mem_toList.1 hs)
  have hregion : ∀ r ∈ id.region.toList, region? r = some r := fun r hr =>
    hid.region r (Option.mem_toList.1 hr)
  have hvariant : ∀ v ∈ vs, variant? v = some v := fun v hv => hid.variants v (hvs.mem_iff.1 hv)
  have hlower : ∀ {sort : Text → Option Text}, IsSort sort → ∀ l : List Text,
      (l.map Text.lowerAscii).filterMap sort = l.filterMap sort := by
    intro sort hsort l
    rw [List.filterMap_map]
    exact List.filterMap_congr fun s _ => hsort.sort_lowerAscii s
  dsimp only
  rw [hlower isSort_script?, hlower isSort_region?, hlower isSort_variant?]
  simp only [List.filterMap_append]
  refine ⟨?_, ?_, ?_⟩
  · rw [filterMap_eq_self hscript,
      List.filterMap_eq_nil_iff.2 fun r hr => script?_of_region? (hregion r hr),
      List.filterMap_eq_nil_iff.2 fun v hv => script?_of_variant? (hvariant v hv),
      List.append_nil, List.append_nil]
  · rw [filterMap_eq_self hregion,
      List.filterMap_eq_nil_iff.2 fun s hs => region?_of_script? (hscript s hs),
      List.filterMap_eq_nil_iff.2 fun v hv => region?_of_variant? (hvariant v hv),
      List.append_nil, List.nil_append]
  · rw [filterMap_eq_self hvariant,
      List.filterMap_eq_nil_iff.2 fun s hs => variant?_of_script? (hscript s hs),
      List.filterMap_eq_nil_iff.2 fun r hr => variant?_of_region? (hregion r hr),
      List.append_nil, List.nil_append]

/-- Languages whose tags are the same in some order behind the first are the same: the sort of a tag tells
its place. -/
theorem eq_of_perm {i j : LanguageId} (hi : i.Canonical) (hj : j.Canonical) {vs ws : List Text}
    (hvs : vs.Perm i.variants) (hws : ws.Perm j.variants)
    (hlanguage : Text.lowerAscii i.language = Text.lowerAscii j.language)
    (hperm : ((i.script.toList ++ i.region.toList ++ vs).map Text.lowerAscii).Perm
      ((j.script.toList ++ j.region.toList ++ ws).map Text.lowerAscii)) : i = j := by
  obtain ⟨hscripti, hregioni, hvariantsi⟩ := filterMap_tags hi hvs
  obtain ⟨hscriptj, hregionj, hvariantsj⟩ := filterMap_tags hj hws
  have hscript := hperm.filterMap script?
  have hregion := hperm.filterMap region?
  have hvariants := hperm.filterMap variant?
  rw [hscripti, hscriptj] at hscript
  rw [hregioni, hregionj] at hregion
  rw [hvariantsi, hvariantsj] at hvariants
  have hrow : i.variants = j.variants := by
    refine Table.eq_of_increasing (f := id) hi.increasing hj.increasing fun v => ?_
    exact ((hvs.symm.trans hvariants).trans hws).mem_iff
  obtain ⟨l, s, r, v⟩ := i
  obtain ⟨l', s', r', v'⟩ := j
  have hl : l = l' := isSort_language?.eq_of_lowerAscii_eq hi.language hj.language hlanguage
  have hs : s = s' := eq_of_toList_perm hscript
  have hr : r = r' := eq_of_toList_perm hregion
  have hv : v = v' := hrow
  rw [hl, hs, hr, hv]

end LanguageId

namespace Locale

/-- The tags of two languages say the same: the first ones are equal, the others are in some order. -/
structure SameLanguage (a b : List Text) : Prop where
  head : a.head? = b.head?
  perm : a.Perm b

/-- A language is the one that tags have, or both lack one. -/
def MatchesLanguage (language : Option LanguageId) (ts : List Text) : Prop :=
  match language with
  | none => ts = []
  | some id => ∃ vs, vs.Perm id.variants ∧
      ts = ({ id with variants := vs } : LanguageId).subtags.map Text.lowerAscii

/-- Languages are the same exactly if their tags say the same. -/
theorem sameLanguage_iff {i j : LanguageId} (hi : i.Canonical) (hj : j.Canonical) {vs ws : List Text}
    (hvs : vs.Perm i.variants) (hws : ws.Perm j.variants) :
    SameLanguage (({ i with variants := vs } : LanguageId).subtags.map Text.lowerAscii)
      (({ j with variants := ws } : LanguageId).subtags.map Text.lowerAscii) ↔ i = j := by
  constructor
  · rintro ⟨hhead, hperm⟩
    have hlanguage : Text.lowerAscii i.language = Text.lowerAscii j.language :=
      Option.some.inj hhead
    refine LanguageId.eq_of_perm hi hj hvs hws hlanguage ?_
    simp only [LanguageId.subtags, List.map_cons, List.cons_append, hlanguage] at hperm
    exact hperm.cons_inv
  · rintro rfl
    refine ⟨rfl, List.Perm.map _ ?_⟩
    exact (hvs.trans hws.symm).append_left _

theorem sameLanguage_iff_of_matches {o p : Option LanguageId} (ho : ∀ id ∈ o, id.Canonical)
    (hp : ∀ id ∈ p, id.Canonical) {x y : List Text} (hx : MatchesLanguage o x)
    (hy : MatchesLanguage p y) : SameLanguage x y ↔ o = p := by
  cases o with
  | none =>
    cases p with
    | none =>
      cases hx
      cases hy
      exact iff_of_true ⟨rfl, .refl _⟩ rfl
    | some j =>
      cases hx
      obtain ⟨ws, -, rfl⟩ := hy
      exact iff_of_false (fun h => by cases h.head) (by simp)
  | some i =>
    obtain ⟨vs, hvs, rfl⟩ := hx
    cases p with
    | none =>
      cases hy
      exact iff_of_false (fun h => by cases h.head) (by simp)
    | some j =>
      obtain ⟨ws, hws, rfl⟩ := hy
      rw [sameLanguage_iff (ho i rfl) (hp j rfl) hvs hws, Option.some.injEq]

/-- A tag of a sort to which no field belongs is neither a field nor, if it is long enough, a letter of an
extension. -/
theorem not_key_of_sort {sort : Text → Option Text} (hsort : IsSort sort) {s : Text}
    (hs : sort s = some s) (hkey : ∀ {key}, fieldKey? s = some key → sort s = none)
    (hlength : 2 ≤ s.length) : fieldKey? s = none ∧ s.byteSize ≠ 1 := by
  refine ⟨eq_none_of_not (fun _ => hkey) (by simp [hs]), ?_⟩
  rw [hsort.byteSize_eq hs]
  omega

/-- The tags of a language are neither fields nor letters of extensions. -/
theorem of_mem_languageTags {id : LanguageId} (hid : id.Canonical) {vs : List Text}
    (hvs : vs.Perm id.variants) :
    ∀ t ∈ ({ id with variants := vs } : LanguageId).subtags.map Text.lowerAscii,
      fieldKey? t = none ∧ t.byteSize ≠ 1 := by
  intro t ht
  obtain ⟨s, hs, rfl⟩ := List.mem_map.1 ht
  rw [Text.byteSize_lowerAscii, isSort_fieldKey?.sort_lowerAscii]
  simp only [LanguageId.subtags, List.cons_append, List.append_assoc, List.mem_cons,
    List.mem_append, Option.mem_toList] at hs
  rcases hs with rfl | hs | hs | hs
  · have := length_of_language? hid.language
    exact not_key_of_sort isSort_language? hid.language language?_of_fieldKey? (by omega)
  · have := length_of_script? (hid.script s hs)
    exact not_key_of_sort isSort_script? (hid.script s hs)
      (fun h => (endsLanguage_of_fieldKey? h).1) (by omega)
  · have := length_of_region? (hid.region s hs)
    exact not_key_of_sort isSort_region? (hid.region s hs)
      (fun h => (endsLanguage_of_fieldKey? h).2.1) (by omega)
  · have hvariant := hid.variants s (hvs.mem_iff.1 hs)
    have := length_of_variant? hvariant
    exact not_key_of_sort isSort_variant? hvariant
      (fun h => (endsLanguage_of_fieldKey? h).2.2) (by omega)

end Locale

end Phrasebook
