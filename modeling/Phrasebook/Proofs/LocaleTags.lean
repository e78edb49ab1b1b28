import Phrasebook.Proofs.MarkupEvents
import Phrasebook.Proofs.SubtagSorts
import Phrasebook.Proofs.Tables
import Phrasebook.Service.Failure

/-!
How the locale of a code is written in it. The tags of a code are its subtags in lower case. A code is
read from the left:

    tags code  =  language, script, region, variants in any order   ++   extensions

(`tags_eq_of_ofCode`), where the extensions, if there are any, start with the first tag of one letter. What
is read has canonical subtags and increasing variants (`LanguageId.Canonical`).
-/

namespace Phrasebook

/-- Every subtag of a language is in its canonical spelling, and the variants increase. -/
structure LanguageId.Canonical (id : LanguageId) : Prop where
  language : Subtag.language? id.language = some id.language
  script : ∀ s ∈ id.script, Subtag.script? s = some s
  region : ∀ r ∈ id.region, Subtag.region? r = some r
  variants : ∀ v ∈ id.variants, Subtag.variant? v = some v
  increasing : id.variants.Pairwise fun v w => Text.blt v w = true

namespace Locale

open Subtag

/-! ## Rows in increasing order -/

section
variable {α : Type} {r : α → α → Prop} {a b : α} {l m : List α}

/-- What comes before the first of a row comes before all of it. -/
theorem pairwise_cons_first (htrans : ∀ {a b c}, r a b → r b c → r a c) (hab : r a b)
    (h : (b :: l).Pairwise r) : (a :: b :: l).Pairwise r := by
  refine List.pairwise_cons.2 ⟨?_, h⟩
  intro c hc
  rcases List.mem_cons.1 hc with rfl | hc
  · exact hab
  · exact htrans hab ((List.pairwise_cons.1 h).1 c hc)

/-- The first of a row stays the first when something behind it is inserted. -/
theorem pairwise_cons_inserted (hba : r b a) (h : (b :: l).Pairwise r)
    (hmem : ∀ c ∈ m, c = a ∨ c ∈ l) (hm : m.Pairwise r) : (b :: m).Pairwise r := by
  refine List.pairwise_cons.2 ⟨?_, hm⟩
  intro c hc
  rcases hmem c hc with rfl | hc
  · exact hba
  · exact (List.pairwise_cons.1 h).1 c hc

end

theorem perm_of_insertNew? {s : Text} {ts us : List Text} (h : insertNew? s ts = some us) :
    us.Perm (s :: ts) := by
  induction ts generalizing us with
  | nil =>
    cases h
    rfl
  | cons t ts ih =>
    rw [insertNew?] at h
    split at h
    · cases h
    · split at h
      · cases h
        rfl
      · obtain ⟨us, hus, rfl⟩ := Option.map_eq_some_iff.1 h
        exact ((ih hus).cons t).trans (.swap s t ts)

theorem increasing_of_insertNew? {s : Text} {ts us : List Text} (h : insertNew? s ts = some us)
    (hts : ts.Pairwise fun v w => Text.blt v w = true) :
    us.Pairwise fun v w => Text.blt v w = true := by
  induction ts generalizing us with
  | nil =>
    cases h
    exact List.pairwise_singleton _ _
  | cons t ts ih =>
    rw [insertNew?] at h
    split at h
    · cases h
    · next hne =>
      split at h
      · next hlt =>
        cases h
        exact pairwise_cons_first Text.blt_trans hlt hts
      · next hlt =>
        obtain ⟨us, hus, rfl⟩ := Option.map_eq_some_iff.1 h
        have hts' := Text.blt_trichotomy hne (Bool.eq_false_iff.2 hlt)
        refine pairwise_cons_inserted hts' hts (fun v hv => ?_) (ih hus hts.of_cons)
        exact List.mem_cons.1 ((perm_of_insertNew? hus).mem_iff.1 hv)

/-! ## The subtags of a language -/

theorem of_takeSubtag {sort : Text → Option Text} (hsort : IsSort sort) {ts rest : List Text}
    {o : Option Text} (h : takeSubtag sort ts = (o, rest)) :
    (∀ t ∈ o, sort t = some t) ∧
      ts.map Text.lowerAscii = o.toList.map Text.lowerAscii ++ rest.map Text.lowerAscii := by
  unfold takeSubtag at h
  split at h
  · cases h
    exact ⟨by simp, rfl⟩
  · next s rest' =>
    split at h
    · next t ht =>
      cases h
      refine ⟨?_, ?_⟩
      · rintro _ ⟨⟩
        exact hsort.idempotent ht
      · simp [hsort.lowerAscii_eq ht]
    · cases h
      exact ⟨by simp, rfl⟩

theorem of_readVariants {seen ts vs rest : List Text} (h : readVariants seen ts = .ok (vs, rest))
    (hseen : ∀ v ∈ seen, variant? v = some v)
    (hincreasing : seen.Pairwise fun v w => Text.blt v w = true) :
    (∀ v ∈ vs, variant? v = some v) ∧ vs.Pairwise (fun v w => Text.blt v w = true) ∧
      ∃ ws, vs.Perm (ws ++ seen) ∧
        ts.map Text.lowerAscii = ws.map Text.lowerAscii ++ rest.map Text.lowerAscii := by
  induction ts generalizing seen with
  | nil =>
    cases h
    exact ⟨hseen, hincreasing, [], .refl _, rfl⟩
  | cons s ts ih =>
    rw [readVariants] at h
    split at h
    · cases h
      exact ⟨hseen, hincreasing, [], .refl _, rfl⟩
    · next v hv =>
      split at h
      · next seen' hinsert =>
        have hperm := perm_of_insertNew? hinsert
        have hseen' : ∀ w ∈ seen', variant? w = some w := by
          intro w hw
          rcases List.mem_cons.1 (hperm.mem_iff.1 hw) with rfl | hw
          · exact isSort_variant?.idempotent hv
          · exact hseen w hw
        obtain ⟨hvs, hvsi, ws, hws, hts⟩ :=
          ih h hseen' (increasing_of_insertNew? hinsert hincreasing)
        refine ⟨hvs, hvsi, v :: ws, hws.trans ?_, ?_⟩
        · exact (hperm.append_left ws).trans List.perm_middle
        · simp [hts, isSort_variant?.lowerAscii_eq hv]
      · cases h

/-- What is read as a language is canonical and stands in front of the rest. -/
theorem of_readLanguageId {ts rest : List Text} {id : LanguageId}
    (h : readLanguageId ts = .ok (id, rest)) :
    id.Canonical ∧ ∃ vs, vs.Perm id.variants ∧ ts.map Text.lowerAscii =
      ({ id with variants := vs } : LanguageId).subtags.map Text.lowerAscii ++
        rest.map Text.lowerAscii := by
  unfold readLanguageId at h
  split at h
  · cases h
  · next s ts =>
    split at h
    · cases h
    · next language hlanguage =>
      dsimp only at h
      cases hscript : takeSubtag script? ts with | mk script afterScript =>
      cases hregion : takeSubtag region? afterScript with | mk region afterRegion =>
      rw [hscript] at h
      dsimp only at h
      rw [hregion] at h
      obtain ⟨⟨variants, afterVariants⟩, hvariants, h⟩ := Markup.bind_eq_ok_iff.1 h
      cases h
      obtain ⟨hs, htags⟩ := of_takeSubtag isSort_script? hscript
      obtain ⟨hr, htags'⟩ := of_takeSubtag isSort_region? hregion
      obtain ⟨hv, hvi, vs, hperm, htags''⟩ := of_readVariants hvariants (by simp) .nil
      rw [List.append_nil] at hperm
      refine ⟨⟨isSort_language?.idempotent hlanguage, hs, hr, hv, hvi⟩, vs, hperm.symm, ?_⟩
      simp [LanguageId.subtags, htags, htags', htags'', isSort_language?.lowerAscii_eq hlanguage]

/-! ## Codes -/

/-- The subtags of a code in lower case. -/
def tags (code : Text) : List Text :=
  (Text.splitOn (fun c => c == '-' || c == '_') code).map Text.lowerAscii

theorem parse_of_ofCode {code : Text} {l : Locale} (h : ofCode code = .ok l) : parse code = .ok l := by
  unfold ofCode at h
  split at h
  · cases h
  · split at h
    · next hl =>
      cases h
      exact hl
    · cases h

theorem of_ofSubtags {ts : List Text} {l : Locale} (h : ofSubtags ts = .ok l) :
    ∃ rest, readLanguageId ts = .ok (l.id, rest) ∧ (∀ s ∈ rest.head?, s.byteSize = 1) ∧
      readExtensions (rest.length + 1) {} rest = .ok l.extensions := by
  obtain ⟨⟨id, rest⟩, hid, h⟩ := Markup.bind_eq_ok_iff.1 h
  refine ⟨rest, ?_⟩
  dsimp only at h
  split at h
  · cases h
    exact ⟨hid, by simp, rfl⟩
  · next s rest =>
    split at h
    · next hs =>
      obtain ⟨extensions, hextensions, h⟩ := Markup.bind_eq_ok_iff.1 h
      cases h
      exact ⟨hid, by simpa using hs, hextensions⟩
    · cases h

theorem byteSize_head?_map_lowerAscii {ts : List Text} (h : ∀ s ∈ ts.head?, s.byteSize = 1) :
    ∀ t ∈ (ts.map Text.lowerAscii).head?, t.byteSize = 1 := by
  intro t ht
  rw [List.head?_map] at ht
  obtain ⟨s, hs, rfl⟩ := Option.map_eq_some_iff.1 ht
  rw [Text.byteSize_lowerAscii, h s hs]

/-- The tags of a code are those of its language, with the variants in some order, and then those of its
extensions. -/
theorem tags_eq_of_ofCode {code : Text} {l : Locale} (h : ofCode code = .ok l) :
    l.id.Canonical ∧ ∃ vs rest, vs.Perm l.id.variants ∧ (∀ s ∈ rest.head?, s.byteSize = 1) ∧
      readExtensions (rest.length + 1) {} rest = .ok l.extensions ∧
      tags code = ({ l.id with variants := vs } : LanguageId).subtags.map Text.lowerAscii ++
        rest.map Text.lowerAscii := by
  obtain ⟨rest, hid, hrest, hextensions⟩ := of_ofSubtags (parse_of_ofCode h)
  obtain ⟨hcanonical, vs, hvs, htags⟩ := of_readLanguageId hid
  exact ⟨hcanonical, vs, rest, hvs, hrest, hextensions, htags⟩

end Locale

end Phrasebook
