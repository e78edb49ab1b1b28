import Phrasebook.Proofs.CanonicalLocales
import Phrasebook.Proofs.Paths

/-!
The canonical form of a locale is read back as this locale (`ofSubtags_subtags`, `parse_canonical`). Each
reader takes the subtags of a canonical part, in front of anything that cannot belong to the part, and
leaves the rest:

    read (subtags of x ++ rest)  =  (x, rest)

For the extensions this is `Absorbs`, which is composed along the parts. So locales that are read are the
same if their canonical forms are (`eq_of_canonical_eq`).
-/

namespace Phrasebook

namespace Text

theorem splitOn_joinWith {p : Char → Bool} {c : Char} (hc : p c = true) {ts : List Text}
    (hne : ts ≠ []) (h : ∀ t ∈ ts, ∀ d ∈ t, p d = false) : splitOn p (joinWith [c] ts) = ts := by
  induction ts with
  | nil => exact absurd rfl hne
  | cons t ts ih =>
    have ht := splitOn_eq_singleton (h t List.mem_cons_self)
    cases ts with
    | nil => exact ht
    | cons u us =>
      rw [joinWith, List.append_assoc, List.singleton_append, splitOn_append_cons hc, ht,
        ih (by simp) fun v hv => h v (List.mem_cons_of_mem t hv)]
      · rfl
      · simp

theorem length_le_byteSize (t : Text) : t.length ≤ t.byteSize := by
  induction t with
  | nil => exact Nat.le_refl 0
  | cons c t ih =>
    have := c.utf8Size_pos
    rw [byteSize_cons, List.length_cons]
    omega

theorem ne_of_blt {s t : Text} (h : blt s t = true) : t ≠ s := by
  rintro rfl
  rw [blt_irrefl] at h
  cases h

theorem blt_asymm {s t : Text} (h : blt s t = true) : blt t s = false := by
  rw [Bool.eq_false_iff]
  intro hts
  exact ne_of_blt (blt_trans h hts) rfl

end Text

open Phrasebook.Locale Subtag

theorem forall_head?_append {P : Text → Prop} {xs ys : List Text} (hxs : ∀ x ∈ xs, P x)
    (hys : ∀ y ∈ ys.head?, P y) : ∀ s ∈ (xs ++ ys).head?, P s := by
  cases xs with
  | nil => exact hys
  | cons x xs =>
    rintro s ⟨⟩
    exact hxs x List.mem_cons_self

namespace Subtag

/-- A key of a field ends with a digit, so it is no subtag of a language. -/
theorem not_letters_of_fieldKey? {s t : Text} (h : fieldKey? s = some t) :
    s.all Text.isAsciiLetter = false := by
  unfold fieldKey? at h
  split at h
  · next a b =>
    split at h
    · next hab =>
      rw [Bool.and_eq_true, Text.isAsciiDigit_iff] at hab
      have hb : Text.isAsciiLetter b = false := by
        rw [Bool.eq_false_iff]
        intro hletter
        have := Text.isAsciiLetter_iff.1 hletter
        omega
      simp [hb]
    · cases h
  · cases h

end Subtag

/-! ## Languages -/

/-- The subtag cannot follow in a language. -/
def Subtag.EndsLanguage (s : Text) : Prop := script? s = none ∧ region? s = none ∧ variant? s = none

theorem Subtag.endsLanguage_of_length {s : Text} (h : s.length ≤ 1) : EndsLanguage s := by
  refine ⟨?_, ?_, ?_⟩
  · exact eq_none_of_not (fun _ => length_of_script?) (by omega)
  · exact eq_none_of_not (fun _ => length_of_region?) (by omega)
  · exact eq_none_of_not (fun _ => length_of_variant?) (by omega)

theorem Subtag.endsLanguage_of_fieldKey? {s t : Text} (h : fieldKey? s = some t) :
    EndsLanguage s := by
  have hlength := length_of_fieldKey? h
  have hletters := not_letters_of_fieldKey? h
  refine ⟨?_, ?_, ?_⟩
  · exact eq_none_of_not (fun _ => length_of_script?) (by omega)
  · unfold region?
    rw [if_neg (by simp [hletters]), if_neg fun hs => by omega]
  · exact eq_none_of_not (fun _ => length_of_variant?) (by omega)

theorem Subtag.language?_of_fieldKey? {s t : Text} (h : fieldKey? s = some t) :
    language? s = none := by
  have hletters := not_letters_of_fieldKey? h
  exact if_neg fun hs => by simp [hletters] at hs

theorem insertNew?_of_lt {s : Text} {ts : List Text} (h : ∀ t ∈ ts, Text.blt t s = true) :
    insertNew? s ts = some (ts ++ [s]) := by
  induction ts with
  | nil => rfl
  | cons t ts ih =>
    have ht := h t List.mem_cons_self
    rw [insertNew?, if_neg (Text.ne_of_blt ht), Text.blt_asymm ht,
      ih fun u hu => h u (List.mem_cons_of_mem t hu)]
    rfl

section
variable {spell : Text → Text} (hspell : ∀ s, Text.lowerAscii (spell s) = Text.lowerAscii s)
include hspell

theorem takeSubtag_append {sort : Text → Option Text} (hsort : IsSort sort) {o : Option Text}
    {rest : List Text} (ho : ∀ t ∈ o, sort t = some t) (hrest : ∀ s ∈ rest.head?, sort s = none) :
    takeSubtag sort (o.toList.map spell ++ rest) = (o, rest) := by
  cases o with
  | some t =>
    have ht : sort (spell t) = some t := hsort.of_lowerAscii_eq (ho t rfl) (hspell t)
    simp [takeSubtag, ht]
  | none =>
    cases rest with
    | nil => rfl
    | cons s rest => simp [takeSubtag, hrest s rfl]

theorem readVariants_append {seen vs rest : List Text} (hvs : ∀ v ∈ vs, variant? v = some v)
    (hincreasing : (seen ++ vs).Pairwise fun v w => Text.blt v w = true)
    (hrest : ∀ s ∈ rest.head?, variant? s = none) :
    readVariants seen (vs.map spell ++ rest) = .ok (seen ++ vs, rest) := by
  induction vs generalizing seen with
  | nil =>
    cases rest with
    | nil => simp [readVariants]
    | cons s rest => simp [readVariants, hrest s rfl]
  | cons v vs ih =>
    have hv : variant? (spell v) = some v :=
      isSort_variant?.of_lowerAscii_eq (hvs v List.mem_cons_self) (hspell v)
    have hinsert : insertNew? v seen = some (seen ++ [v]) :=
      insertNew?_of_lt fun t ht =>
        (List.pairwise_append.1 hincreasing).2.2 t ht v List.mem_cons_self
    have hmore := @ih (seen ++ [v]) (fun w hw => hvs w (List.mem_cons_of_mem v hw))
      (by simpa using hincreasing)
    simpa [readVariants, hv, hinsert] using hmore

/-- The subtags of a canonical language are read as this language, in every spelling. -/
theorem readLanguageId_append {id : LanguageId} (hid : id.Canonical) {rest : List Text}
    (hrest : ∀ s ∈ rest.head?, EndsLanguage s) :
    readLanguageId (id.subtags.map spell ++ rest) = .ok (id, rest) := by
  obtain ⟨language, script, region, variants⟩ := id
  have hlanguage : language? (spell language) = some language :=
    isSort_language?.of_lowerAscii_eq hid.language (hspell language)
  have hvariants : readVariants [] (variants.map spell ++ rest) = .ok ([] ++ variants, rest) :=
    readVariants_append hspell hid.variants hid.increasing fun s hs => (hrest s hs).2.2
  have hregion : takeSubtag region? (region.toList.map spell ++ (variants.map spell ++ rest)) =
      (region, variants.map spell ++ rest) := by
    refine takeSubtag_append hspell isSort_region? hid.region ?_
    refine forall_head?_append ?_ fun s hs => (hrest s hs).2.1
    intro s hs
    obtain ⟨v, hv, rfl⟩ := List.mem_map.1 hs
    rw [isSort_region?.congr (hspell v), region?_of_variant? (hid.variants v hv)]
  have hscript : takeSubtag script? (script.toList.map spell ++
      (region.toList.map spell ++ (variants.map spell ++ rest))) =
      (script, region.toList.map spell ++ (variants.map spell ++ rest)) := by
    refine takeSubtag_append hspell isSort_script? hid.script ?_
    refine forall_head?_append ?_ (forall_head?_append ?_ fun s hs => (hrest s hs).1)
    · intro s hs
      obtain ⟨r, hr, rfl⟩ := List.mem_map.1 hs
      rw [isSort_script?.congr (hspell r), script?_of_region? (hid.region r (Option.mem_toList.1 hr))]
    · intro s hs
      obtain ⟨v, hv, rfl⟩ := List.mem_map.1 hs
      rw [isSort_script?.congr (hspell v), script?_of_variant? (hid.variants v hv)]
  simp only [LanguageId.subtags, List.map_append, List.map_cons, List.cons_append,
    List.append_assoc, List.nil_append, readLanguageId, hlanguage, hscript, hregion, hvariants, bind,
    Except.bind]

end

/-! ## Keywords and fields -/

theorem insertKeyword_of_lt {k : Keyword} {ks : List Keyword}
    (h : ∀ j ∈ ks, Text.blt j.key k.key = true) : insertKeyword k ks = ks ++ [k] := by
  induction ks with
  | nil => rfl
  | cons j ks ih =>
    have hj := h j List.mem_cons_self
    rw [insertKeyword, if_neg (Text.ne_of_blt hj), Text.blt_asymm hj,
      ih fun i hi => h i (List.mem_cons_of_mem j hi)]
    rfl

theorem readValues_append {vs rest : List Text} (hvs : ∀ v ∈ vs, value? v = some [v])
    (hrest : ∀ s ∈ rest.head?, value? s = none) : readValues (vs ++ rest) = (vs, rest) := by
  induction vs with
  | nil =>
    cases rest with
    | nil => rfl
    | cons s rest => simp [readValues, hrest s rfl]
  | cons v vs ih =>
    have hmore := ih fun w hw => hvs w (List.mem_cons_of_mem v hw)
    simp [readValues, hvs v List.mem_cons_self, hmore]

/-- What follows is nothing or the letter of an extension. -/
def AtExtension (rest : List Text) : Prop := ∀ s ∈ rest.head?, s.byteSize = 1

theorem AtExtension.length_le {rest : List Text} (h : AtExtension rest) :
    ∀ s ∈ rest.head?, s.length ≤ 1 := by
  intro s hs
  rw [← h s hs]
  exact s.length_le_byteSize

theorem value?_eq_none_of_length {s : Text} (h : s.length ≤ 2) : value? s = none :=
  eq_none_of_not (fun _ => length_of_value?) (by omega)

theorem forall_head?_keywords {P : Text → Prop} {written : Keyword → List Text} {ks : List Keyword}
    {rest : List Text} (hks : ∀ k ∈ ks, P k.key) (hrest : ∀ s ∈ rest.head?, P s) :
    ∀ s ∈ (ks.flatMap (fun k => k.key :: written k) ++ rest).head?, P s := by
  cases ks with
  | nil => exact hrest
  | cons k ks =>
    rintro s ⟨⟩
    exact hks k List.mem_cons_self

theorem length_le_length_keywords (written : Keyword → List Text) (ks : List Keyword)
    (rest : List Text) :
    ks.length ≤ (ks.flatMap (fun k => k.key :: written k) ++ rest).length := by
  induction ks with
  | nil => exact Nat.zero_le _
  | cons k ks ih =>
    simp only [List.flatMap_cons, List.cons_append, List.append_assoc, List.length_cons,
      List.length_append] at ih ⊢
    omega

/-- No value follows: a key has two characters, the letter of an extension one. -/
theorem value?_head?_keywords (written : Keyword → List Text) {ks : List Keyword}
    {rest : List Text} (hks : ∀ k ∈ ks, k.key.length = 2) (hrest : AtExtension rest) :
    ∀ s ∈ (ks.flatMap (fun k => k.key :: written k) ++ rest).head?, value? s = none := by
  refine forall_head?_keywords (fun k hk => value?_eq_none_of_length (hks k hk).le) fun s hs => ?_
  exact value?_eq_none_of_length (Nat.le_succ_of_le (hrest.length_le s hs))

theorem readKeywords_append {fuel : Nat} {seen ks : List Keyword} {rest : List Text}
    (hks : Keyword.CanonicalRow keywordKey? (seen ++ ks)) (hfuel : ks.length ≤ fuel)
    (hrest : AtExtension rest) :
    readKeywords fuel seen (ks.flatMap (fun k => k.key :: k.values) ++ rest) =
      .ok (seen ++ ks, rest) := by
  induction ks generalizing fuel seen with
  | nil =>
    cases fuel with
    | zero => simp [readKeywords]
    | succ fuel =>
      cases rest with
      | nil => simp [readKeywords]
      | cons s rest => simp [readKeywords, hrest s rfl]
  | cons k ks ih =>
    cases fuel with
    | zero => cases hfuel
    | succ fuel =>
      have hk := hks.canonical k (by simp)
      have hlength : ∀ j ∈ ks, j.key.length = 2 := fun j hj =>
        length_of_keywordKey? (hks.canonical j (by simp [hj])).key
      have hvalues := readValues_append hk.values (value?_head?_keywords Keyword.values hlength hrest)
      have hinsert : insertKeyword k seen = seen ++ [k] :=
        insertKeyword_of_lt fun j hj =>
          (List.pairwise_append.1 hks.increasing).2.2 j hj k List.mem_cons_self
      have hmore := @ih fuel (seen ++ [k]) (by simpa using hks)
        (Nat.le_of_succ_le_succ hfuel)
      simp only [List.flatMap_cons, List.cons_append, List.append_assoc, readKeywords,
        isSort_keywordKey?.byteSize_eq hk.key,
        length_of_keywordKey? hk.key, if_true, hk.key, hvalues]
      rw [hinsert, hmore]
      simp

/-- The values of a field as they are written. -/
def Keyword.writtenValues (f : Keyword) : List Text :=
  if f.values.isEmpty then ["true".toList] else f.values

theorem readValues_written {f : Keyword} {rest : List Text} (hf : ∀ v ∈ f.values, value? v = some [v])
    (hrest : ∀ s ∈ rest.head?, value? s = none) :
    readValues (f.writtenValues ++ rest) = (f.values, rest) := by
  unfold Keyword.writtenValues
  split
  · next hempty =>
    have htrue : value? "true".toList = some [] := by decide
    have hmore : readValues ([] ++ rest) = ([], rest) := readValues_append (by simp) hrest
    rw [List.nil_append] at hmore
    rw [List.singleton_append, readValues, htrue]
    simp only [hmore, List.nil_append, List.isEmpty_iff.1 hempty]
  · exact readValues_append hf hrest

theorem starts_with_value {f : Keyword} {rest : List Text}
    (hf : ∀ v ∈ f.values, value? v = some [v]) :
    ((f.writtenValues ++ rest).take 1).any (fun v => (value? v).isSome) = true := by
  unfold Keyword.writtenValues
  cases hvalues : f.values with
  | nil =>
    have htrue : (value? "true".toList).isSome = true := by decide
    simpa using htrue
  | cons v vs =>
    have hv := hf v (by simp [hvalues])
    simp [hv]

theorem readFields_append {fuel : Nat} {seen fs : List Keyword} {rest : List Text}
    (hfs : Keyword.CanonicalRow fieldKey? (seen ++ fs)) (hfuel : fs.length ≤ fuel)
    (hrest : AtExtension rest) :
    readFields fuel seen (fs.flatMap (fun f => f.key :: f.writtenValues) ++ rest) =
      .ok (seen ++ fs, rest) := by
  induction fs generalizing fuel seen with
  | nil =>
    cases fuel with
    | zero => simp [readFields]
    | succ fuel =>
      cases rest with
      | nil => simp [readFields]
      | cons s rest =>
        have hlength := hrest.length_le s rfl
        have hs : fieldKey? s = none := eq_none_of_not (fun _ => length_of_fieldKey?) (by omega)
        simp [readFields, hs]
  | cons f fs ih =>
    cases fuel with
    | zero => cases hfuel
    | succ fuel =>
      have hf := hfs.canonical f (by simp)
      have hlength : ∀ g ∈ fs, g.key.length = 2 := fun g hg =>
        length_of_fieldKey? (hfs.canonical g (by simp [hg])).key
      have hvalues :=
        readValues_written hf.values (value?_head?_keywords Keyword.writtenValues hlength hrest)
      have hinsert : insertKeyword f seen = seen ++ [f] :=
        insertKeyword_of_lt fun g hg =>
          (List.pairwise_append.1 hfs.increasing).2.2 g hg f List.mem_cons_self
      have hmore := @ih fuel (seen ++ [f]) (by simpa using hfs)
        (Nat.le_of_succ_le_succ hfuel)
      simp only [List.flatMap_cons, List.cons_append, List.append_assoc, readFields, hf.key,
        starts_with_value hf.values, if_true, hvalues]
      rw [hinsert, hmore]
      simp

/-! ## Extensions -/

theorem readAttributes_append {seen as rest : List Text} (has : ∀ a ∈ as, between? 3 8 a = some a)
    (hincreasing : (seen ++ as).Pairwise fun a b => Text.blt a b = true)
    (hrest : ∀ s ∈ rest.head?, between? 3 8 s = none) :
    readAttributes seen (as ++ rest) = (seen ++ as, rest) := by
  induction as generalizing seen with
  | nil =>
    cases rest with
    | nil => simp [readAttributes]
    | cons s rest => simp [readAttributes, hrest s rfl]
  | cons a as ih =>
    have hinsert : insertNew? a seen = some (seen ++ [a]) :=
      insertNew?_of_lt fun t ht =>
        (List.pairwise_append.1 hincreasing).2.2 t ht a List.mem_cons_self
    have hmore := @ih (seen ++ [a]) (fun b hb => has b (List.mem_cons_of_mem a hb))
      (by simpa using hincreasing)
    simpa [readAttributes, has a List.mem_cons_self, hinsert] using hmore

theorem readUnicode_append {e x : Extensions} (hx : x.Canonical) {rest : List Text}
    (hne : (x.attributes.isEmpty && x.keywords.isEmpty) = false) (hrest : AtExtension rest) :
    readUnicode e (x.attributes ++ x.keywords.flatMap (fun k => k.key :: k.values) ++ rest) =
      .ok ({ e with attributes := x.attributes, keywords := x.keywords }, rest) := by
  have hhead : ∀ s ∈ (x.keywords.flatMap (fun k => k.key :: k.values) ++ rest).head?,
      between? 3 8 s = none := by
    refine forall_head?_keywords (fun k hk => ?_) fun s hs => ?_
    · have hlength := length_of_keywordKey? (hx.keywords.canonical k hk).key
      exact eq_none_of_not (fun _ => length_of_between?) (by omega)
    · have hlength := hrest.length_le s hs
      exact eq_none_of_not (fun _ => length_of_between?) (by omega)
  have hattributes : readAttributes []
      (x.attributes ++ (x.keywords.flatMap (fun k => k.key :: k.values) ++ rest)) =
        ([] ++ x.attributes, x.keywords.flatMap (fun k => k.key :: k.values) ++ rest) :=
    readAttributes_append hx.attributes hx.attributesIncrease hhead
  have hkeywords : readKeywords
      ((x.keywords.flatMap (fun k => k.key :: k.values) ++ rest).length + 1) []
      (x.keywords.flatMap (fun k => k.key :: k.values) ++ rest) = .ok ([] ++ x.keywords, rest) :=
    readKeywords_append hx.keywords (Nat.le_succ_of_le (length_le_length_keywords _ _ _)) hrest
  rw [List.nil_append] at hattributes hkeywords
  simp only [readUnicode, List.append_assoc, hattributes, hkeywords, bind, Except.bind, hne]
  rfl

theorem any_take_one_iff {p : Text → Bool} {ts : List Text} :
    (ts.take 1).any p = true ↔ ∃ s ∈ ts.head?, p s = true := by
  cases ts <;> simp

theorem finishTransform_append {e x : Extensions} (hx : x.Canonical) {rest : List Text}
    (hne : (x.transformLanguage.isNone && x.transformFields.isEmpty) = false)
    (hrest : AtExtension rest) :
    finishTransform e x.transformLanguage
        (x.transformFields.flatMap (fun f => f.key :: f.writtenValues) ++ rest) =
      .ok ({ e with
        transformLanguage := x.transformLanguage
        transformFields := x.transformFields }, rest) := by
  have hfields : readFields
      ((x.transformFields.flatMap (fun f => f.key :: f.writtenValues) ++ rest).length + 1) []
      (x.transformFields.flatMap (fun f => f.key :: f.writtenValues) ++ rest) =
        .ok ([] ++ x.transformFields, rest) :=
    readFields_append hx.transformFields (Nat.le_succ_of_le (length_le_length_keywords _ _ _)) hrest
  rw [List.nil_append] at hfields
  simp only [finishTransform, hfields, bind, Except.bind, hne]
  rfl

theorem readTransform_append {e x : Extensions} (hx : x.Canonical) {rest : List Text}
    (hne : (x.transformLanguage.isNone && x.transformFields.isEmpty) = false)
    (hrest : AtExtension rest) :
    readTransform e ((x.transformLanguage.map fun id => id.subtags.map Text.lowerAscii).getD [] ++
        x.transformFields.flatMap (fun f => f.key :: f.writtenValues) ++ rest) =
      .ok ({ e with
        transformLanguage := x.transformLanguage
        transformFields := x.transformFields }, rest) := by
  have hfinish := finishTransform_append (e := e) hx hne hrest
  rw [readTransform_eq]
  cases hlanguage : x.transformLanguage with
  | none =>
    rw [hlanguage] at hfinish
    have hhead : ∀ s ∈ (x.transformFields.flatMap (fun f => f.key :: f.writtenValues) ++
        rest).head?, language? s = none := by
      refine forall_head?_keywords (fun f hf => ?_) fun s hs => ?_
      · exact language?_of_fieldKey? (hx.transformFields.canonical f hf).key
      · have hlength := hrest.length_le s hs
        exact eq_none_of_not (fun _ => length_of_language?) (by omega)
    rw [if_neg]
    · exact hfinish
    · rw [any_take_one_iff]
      rintro ⟨s, hs, hsome⟩
      rw [Option.map_none, Option.getD_none, List.nil_append] at hs
      rw [hhead s hs] at hsome
      cases hsome
  | some id =>
    rw [hlanguage] at hfinish
    have hid := hx.transformLanguage id hlanguage
    have hhead : ∀ s ∈ (x.transformFields.flatMap (fun f => f.key :: f.writtenValues) ++
        rest).head?, EndsLanguage s := by
      refine forall_head?_keywords (fun f hf => ?_) fun s hs => ?_
      · exact endsLanguage_of_fieldKey? (hx.transformFields.canonical f hf).key
      · exact endsLanguage_of_length (hrest.length_le s hs)
    have hread := readLanguageId_append Text.lowerAscii_lowerAscii hid hhead
    rw [Option.map_some, Option.getD_some, List.append_assoc, if_pos, hread]
    · exact hfinish
    · rw [any_take_one_iff]
      refine ⟨Text.lowerAscii id.language, rfl, ?_⟩
      rw [isSort_language?.sort_lowerAscii, hid.language]
      rfl

theorem readOtherTags_append {ts rest : List Text} (hts : ∀ t ∈ ts, between? 2 8 t = some t)
    (hrest : AtExtension rest) : readOtherTags (ts ++ rest) = (ts, rest) := by
  induction ts with
  | nil =>
    cases rest with
    | nil => rfl
    | cons s rest => simp [readOtherTags, hrest s rfl]
  | cons t ts ih =>
    have ht := hts t List.mem_cons_self
    have hsize : 2 ≤ t.byteSize ∧ t.byteSize ≤ 8 := by
      rw [(isSort_between? 2 8).byteSize_eq ht]
      exact length_of_between? ht
    have hmore := ih fun u hu => hts u (List.mem_cons_of_mem t hu)
    rw [List.cons_append, readOtherTags, if_pos hsize]
    simp [hmore, ht]

theorem insertOther_of_lt {o : Char × List Text} {os : List (Char × List Text)}
    (h : ∀ p ∈ os, p.1.toNat < o.1.toNat) : insertOther o os = os ++ [o] := by
  induction os with
  | nil => rfl
  | cons p os ih =>
    have hp := h p List.mem_cons_self
    rw [insertOther, if_neg (by omega), ih fun q hq => h q (List.mem_cons_of_mem p hq)]
    rfl

/-- In front of other extensions or the end, reading these subtags takes extensions from one state to
another. -/
structure Absorbs (e : Extensions) (ts : List Text) (e' : Extensions) : Prop where
  atExtension : AtExtension ts
  reads : ∃ n ≤ ts.length, ∀ fuel rest, AtExtension rest →
    readExtensions (fuel + n) e (ts ++ rest) = readExtensions fuel e' rest

theorem AtExtension.append {ts rest : List Text} (hts : AtExtension ts) (hrest : AtExtension rest) :
    AtExtension (ts ++ rest) := by
  cases ts with
  | nil => exact hrest
  | cons t ts => exact hts

namespace Absorbs

variable {e e' e'' : Extensions} {ts us : List Text}

theorem refl (e : Extensions) : Absorbs e [] e :=
  ⟨by simp [AtExtension], 0, Nat.le_refl 0, fun _ _ _ => rfl⟩

theorem trans (h : Absorbs e ts e') (h' : Absorbs e' us e'') : Absorbs e (ts ++ us) e'' := by
  obtain ⟨n, hn, hreads⟩ := h.reads
  obtain ⟨n', hn', hreads'⟩ := h'.reads
  refine ⟨h.atExtension.append h'.atExtension, n' + n, ?_, ?_⟩
  · rw [List.length_append]
    omega
  · intro fuel rest hrest
    rw [List.append_assoc, ← Nat.add_assoc, hreads _ _ (h'.atExtension.append hrest),
      hreads' _ _ hrest]

/-- One extension is absorbed when its reader takes it. -/
theorem of_readExtension {letter : Char} (hletter : Text.isAsciiLetter letter = true)
    (hlower : letter.toLower = letter)
    (h : ∀ rest, AtExtension rest → readExtension letter e (ts ++ rest) = .ok (e', rest)) :
    Absorbs e ([letter] :: ts) e' where
  atExtension := by
    rintro s ⟨⟩
    exact byteSize_of_all_isAlphanumeric (by simp [isAlphanumeric, hletter])
  reads := by
    refine ⟨1, Nat.succ_le_succ (Nat.zero_le _), ?_⟩
    intro fuel rest hrest
    rw [List.cons_append]
    simp only [readExtensions, hletter, if_true, hlower, h rest hrest, bind, Except.bind]

end Absorbs

namespace Extensions

variable {e x : Extensions}

theorem absorbs_others {os : List (Char × List Text)} (hos : ∀ o ∈ os, CanonicalOther o)
    (hincreasing : (e.others ++ os).Pairwise fun o p => o.1.toNat < p.1.toNat) :
    Absorbs e (os.flatMap fun o => [o.1] :: o.2) { e with others := e.others ++ os } := by
  induction os generalizing e with
  | nil => simpa using Absorbs.refl e
  | cons o os ih =>
    have ho := hos o List.mem_cons_self
    have hlast : ∀ p ∈ e.others, p.1.toNat < o.1.toNat := fun p hp =>
      (List.pairwise_append.1 hincreasing).2.2 p hp o List.mem_cons_self
    have hnew : hasExtension e o.1 = false := by
      simp only [hasExtension, ho.ne_u, ho.ne_t, ho.ne_x, if_false]
      refine List.any_eq_false.2 fun p hp heq => ?_
      have := hlast p hp
      rw [beq_iff_eq.1 heq] at this
      omega
    have hfirst : Absorbs e ([o.1] :: o.2) { e with others := e.others ++ [o] } := by
      refine .of_readExtension ho.isLetter ho.toLower_eq fun rest hrest => ?_
      simp only [readExtension, hnew, ho.ne_u, ho.ne_t, ho.ne_x, if_false, Bool.false_eq_true,
        readOther, readOtherTags_append ho.tags hrest, List.isEmpty_eq_false_iff.2 ho.ne_nil,
        insertOther_of_lt hlast]
    have hmore := ih (e := { e with others := e.others ++ [o] })
      (fun p hp => hos p (List.mem_cons_of_mem o hp)) (by simpa using hincreasing)
    simpa using hfirst.trans hmore

theorem transformSubtags_eq (x : Extensions) :
    x.transformSubtags =
      if (x.transformLanguage.isNone && x.transformFields.isEmpty) = true then []
      else ['t'] :: ((x.transformLanguage.map fun id => id.subtags.map Text.lowerAscii).getD [] ++
        x.transformFields.flatMap fun f => f.key :: f.writtenValues) := by
  unfold transformSubtags
  cases x.transformLanguage <;> cases x.transformFields <;> rfl

theorem absorbs_transform (hx : x.Canonical) (hlanguage : e.transformLanguage = none)
    (hfields : e.transformFields = []) :
    Absorbs e x.transformSubtags { e with
      transformLanguage := x.transformLanguage
      transformFields := x.transformFields } := by
  rw [transformSubtags_eq]
  split
  · next hempty =>
    rw [Bool.and_eq_true, Option.isNone_iff_eq_none, List.isEmpty_iff] at hempty
    have hsame : { e with
        transformLanguage := x.transformLanguage
        transformFields := x.transformFields } = e := by
      rw [hempty.1, hempty.2, ← hlanguage, ← hfields]
    rw [hsame]
    exact .refl e
  · next hne =>
    refine .of_readExtension (by decide) (by decide) fun rest hrest => ?_
    have hnew : hasExtension e 't' = false := by simp [hasExtension, hlanguage, hfields]
    have hread := readTransform_append (e := e) hx (Bool.eq_false_iff.2 hne) hrest
    simpa [readExtension, hnew] using hread

theorem absorbs_unicode (hx : x.Canonical) (hattributes : e.attributes = [])
    (hkeywords : e.keywords = []) :
    Absorbs e x.unicodeSubtags { e with attributes := x.attributes, keywords := x.keywords } := by
  unfold unicodeSubtags
  split
  · next hempty =>
    rw [Bool.and_eq_true, List.isEmpty_iff, List.isEmpty_iff] at hempty
    have hsame : { e with attributes := x.attributes, keywords := x.keywords } = e := by
      rw [hempty.1, hempty.2, ← hattributes, ← hkeywords]
    rw [hsame]
    exact .refl e
  · next hne =>
    refine .of_readExtension (by decide) (by decide) fun rest hrest => ?_
    have hnew : hasExtension e 'u' = false := by simp [hasExtension, hattributes, hkeywords]
    have hread := readUnicode_append (e := e) hx (Bool.eq_false_iff.2 hne) hrest
    simpa [readExtension, hnew] using hread

/-- Rows in increasing order without some letter are the letters before it and those behind it. -/
theorem filter_append_filter {os : List (Char × List Text)} {c : Char}
    (h : os.Pairwise fun o p => o.1.toNat < p.1.toNat) (hne : ∀ o ∈ os, o.1 ≠ c) :
    os.filter (fun o => o.1.toNat < c.toNat) ++ os.filter (fun o => c.toNat < o.1.toNat) = os := by
  induction os with
  | nil => rfl
  | cons o os ih =>
    obtain ⟨ho, hrest⟩ := List.pairwise_cons.1 h
    have hmore := ih hrest fun p hp => hne p (List.mem_cons_of_mem o hp)
    have hc : o.1.toNat ≠ c.toNat := fun heq => hne o List.mem_cons_self (Char.toNat_inj.1 heq)
    by_cases hlt : o.1.toNat < c.toNat
    · have hgt : ¬ c.toNat < o.1.toNat := by omega
      simp [hlt, hgt, hmore]
    · have hgt : c.toNat < o.1.toNat := by omega
      have hnone : os.filter (fun p => p.1.toNat < c.toNat) = [] :=
        List.filter_eq_nil_iff.2 fun p hp => by
          have := ho p hp
          simp only [decide_eq_true_eq]
          omega
      rw [hnone, List.nil_append] at hmore
      simp [hlt, hgt, hnone, hmore]

/-- All extensions but the private subtags. -/
theorem absorbs_subtags (hx : x.Canonical) :
    Absorbs {} (x.otherSubtags (·.toNat < 't'.toNat) ++ x.transformSubtags ++ x.unicodeSubtags ++
      x.otherSubtags ('t'.toNat < ·.toNat)) { x with privateTags := [] } := by
  have hothers := filter_append_filter hx.othersIncrease fun o ho => (hx.others o ho).ne_t
  have hincreasing := hx.othersIncrease
  have hall : ∀ o ∈ x.others, CanonicalOther o := hx.others
  unfold otherSubtags
  rw [← hothers] at hincreasing hall
  generalize x.others.filter (fun o => o.1.toNat < 't'.toNat) = before at *
  generalize x.others.filter (fun o => 't'.toNat < o.1.toNat) = behind at *
  have hbefore : Absorbs {} (before.flatMap fun o => [o.1] :: o.2) { others := [] ++ before } :=
    absorbs_others (fun o ho => hall o (List.mem_append_left behind ho))
      (List.pairwise_append.1 hincreasing).1
  have htransform := absorbs_transform (e := { others := before }) hx rfl rfl
  have hunicode := absorbs_unicode (e := {
      others := before
      transformLanguage := x.transformLanguage
      transformFields := x.transformFields }) hx rfl rfl
  have hbehind := absorbs_others (e := { x with others := before, privateTags := [] })
    (fun o ho => hall o (List.mem_append_right before ho)) hincreasing
  rw [hothers] at hbehind
  exact ((hbefore.trans htransform).trans hunicode).trans hbehind

theorem mapM_eq_self {sort : Text → Option Text} {ts : List Text} (h : ∀ t ∈ ts, sort t = some t) :
    ts.mapM sort = some ts := by
  induction ts with
  | nil => rfl
  | cons t ts ih =>
    rw [List.mapM_cons, h t List.mem_cons_self, ih fun u hu => h u (List.mem_cons_of_mem t hu)]
    rfl

/-- The private subtags end the extensions. -/
theorem readExtensions_private (hx : x.Canonical) {fuel : Nat} (hfuel : 0 < fuel) :
    readExtensions fuel { x with privateTags := [] }
      (if x.privateTags.isEmpty then [] else ['x'] :: x.privateTags) = .ok x := by
  obtain ⟨fuel, rfl⟩ := Nat.exists_eq_succ_of_ne_zero hfuel.ne'
  split
  · next hempty =>
    obtain ⟨attributes, keywords, language, fields, privateTags, others⟩ := x
    cases List.isEmpty_iff.1 hempty
    rfl
  · next hne =>
    have hletter : Text.isAsciiLetter 'x' = true := by decide
    have hlower : 'x'.toLower = 'x' := by decide
    have hread : readExtension 'x' { x with privateTags := [] } x.privateTags = .ok (x, []) := by
      simp [readExtension, hasExtension, readPrivate, mapM_eq_self hx.privateTags,
        Bool.eq_false_iff.2 hne]
    simp [readExtensions, hletter, hlower, hread, bind, Except.bind]

theorem readExtensions_subtags (hx : x.Canonical) :
    AtExtension x.subtags ∧ readExtensions (x.subtags.length + 1) {} x.subtags = .ok x := by
  have hprivate : AtExtension (if x.privateTags.isEmpty then [] else ['x'] :: x.privateTags) := by
    split
    · simp [AtExtension]
    · rintro s ⟨⟩
      rfl
  obtain ⟨hat, n, hn, hreads⟩ := absorbs_subtags hx
  refine ⟨hat.append hprivate, ?_⟩
  have hlength : n ≤ x.subtags.length := by
    unfold subtags
    rw [List.length_append]
    omega
  have hfuel : x.subtags.length + 1 = x.subtags.length + 1 - n + n := by omega
  rw [hfuel]
  refine (hreads _ _ hprivate).trans (readExtensions_private hx ?_)
  omega

end Extensions

/-! ## Locales -/

/-- The canonical subtags of a locale are read as this locale. -/
theorem Locale.ofSubtags_subtags {l : Locale} (hl : l.Canonical) :
    ofSubtags (l.id.subtags ++ l.extensions.subtags) = .ok l := by
  obtain ⟨id, extensions⟩ := l
  obtain ⟨hat, hextensions⟩ := Extensions.readExtensions_subtags hl.extensions
  have hid : readLanguageId (id.subtags ++ extensions.subtags) = .ok (id, extensions.subtags) := by
    have hread := readLanguageId_append (fun s => congrArg Text.lowerAscii (id_eq s)) hl.id
      fun s hs => endsLanguage_of_length (hat.length_le s hs)
    rwa [List.map_id] at hread
  dsimp only at hat hextensions ⊢
  simp only [ofSubtags, hid, bind, Except.bind]
  cases hsubtags : extensions.subtags with
  | nil =>
    rw [hsubtags] at hextensions
    cases hextensions
    rfl
  | cons s rest =>
    rw [hsubtags] at hat hextensions
    simp only [hat s rfl, if_true, hextensions]

theorem LanguageId.Canonical.all_isAlphanumeric {id : LanguageId} (hid : id.Canonical) :
    ∀ t ∈ id.subtags, t.all isAlphanumeric = true := by
  intro t ht
  simp only [LanguageId.subtags, List.cons_append, List.append_assoc, List.mem_cons,
    List.mem_append, Option.mem_toList] at ht
  rcases ht with rfl | ht | ht | ht
  · exact isSort_language?.all_isAlphanumeric hid.language
  · exact isSort_script?.all_isAlphanumeric (hid.script t ht)
  · exact isSort_region?.all_isAlphanumeric (hid.region t ht)
  · exact isSort_variant?.all_isAlphanumeric (hid.variants t ht)

theorem Keyword.CanonicalRow.all_isAlphanumeric {sort : Text → Option Text} (hsort : IsSort sort)
    {ks : List Keyword} (hks : CanonicalRow sort ks) {k : Keyword} (hk : k ∈ ks) :
    ∀ t ∈ k.key :: k.values, t.all isAlphanumeric = true := by
  intro t ht
  rcases List.mem_cons.1 ht with rfl | ht
  · exact hsort.all_isAlphanumeric (hks.canonical k hk).key
  · obtain ⟨v, hv, -⟩ := Option.map_eq_some_iff.1 ((hks.canonical k hk).values t ht)
    exact (isSort_between? 3 8).all_isAlphanumeric hv

namespace Extensions.Canonical

variable {x : Extensions} (hx : x.Canonical)
include hx

theorem all_isAlphanumeric_others (p : Char → Bool) :
    ∀ t ∈ x.otherSubtags p, t.all isAlphanumeric = true := by
  intro t ht
  obtain ⟨o, ho, ht⟩ := List.mem_flatMap.1 ht
  have hother := hx.others o (List.mem_filter.1 ho).1
  rcases List.mem_cons.1 ht with rfl | ht
  · simp [isAlphanumeric, hother.isLetter]
  · exact (isSort_between? 2 8).all_isAlphanumeric (hother.tags t ht)

theorem all_isAlphanumeric_transform : ∀ t ∈ x.transformSubtags, t.all isAlphanumeric = true := by
  intro t ht
  rw [transformSubtags_eq] at ht
  split at ht
  · cases ht
  · rcases List.mem_cons.1 ht with rfl | ht
    · decide
    · rcases List.mem_append.1 ht with ht | ht
      · cases hlanguage : x.transformLanguage with
        | none =>
          rw [hlanguage] at ht
          cases ht
        | some id =>
          rw [hlanguage] at ht
          obtain ⟨s, hs, rfl⟩ := List.mem_map.1 ht
          rw [Text.all_lowerAscii isAlphanumeric_toLower]
          exact (hx.transformLanguage id hlanguage).all_isAlphanumeric s hs
      · obtain ⟨f, hf, ht⟩ := List.mem_flatMap.1 ht
        have hfield := hx.transformFields.all_isAlphanumeric isSort_fieldKey? hf
        rcases List.mem_cons.1 ht with rfl | ht
        · exact hfield f.key List.mem_cons_self
        · unfold Keyword.writtenValues at ht
          split at ht
          · cases List.mem_singleton.1 ht
            decide
          · exact hfield t (List.mem_cons_of_mem f.key ht)

theorem all_isAlphanumeric_unicode : ∀ t ∈ x.unicodeSubtags, t.all isAlphanumeric = true := by
  intro t ht
  unfold unicodeSubtags at ht
  split at ht
  · cases ht
  · rcases List.mem_cons.1 ht with rfl | ht
    · decide
    · rcases List.mem_append.1 ht with ht | ht
      · exact (isSort_between? 3 8).all_isAlphanumeric (hx.attributes t ht)
      · obtain ⟨k, hk, ht⟩ := List.mem_flatMap.1 ht
        exact hx.keywords.all_isAlphanumeric isSort_keywordKey? hk t ht

theorem all_isAlphanumeric : ∀ t ∈ x.subtags, t.all isAlphanumeric = true := by
  intro t ht
  simp only [Extensions.subtags, List.mem_append] at ht
  rcases ht with (((ht | ht) | ht) | ht) | ht
  · exact hx.all_isAlphanumeric_others _ t ht
  · exact hx.all_isAlphanumeric_transform t ht
  · exact hx.all_isAlphanumeric_unicode t ht
  · exact hx.all_isAlphanumeric_others _ t ht
  · split at ht
    · cases ht
    · rcases List.mem_cons.1 ht with rfl | ht
      · decide
      · exact (isSort_between? 1 8).all_isAlphanumeric (hx.privateTags t ht)

end Extensions.Canonical

namespace Locale

/-- The canonical form of a locale is read as this locale. -/
theorem parse_canonical {l : Locale} (hl : l.Canonical) : parse l.canonical = .ok l := by
  have hne : l.id.subtags ++ l.extensions.subtags ≠ [] := by simp [LanguageId.subtags]
  have hplain : ∀ t ∈ l.id.subtags ++ l.extensions.subtags, ∀ c ∈ t,
      (c == '-' || c == '_') = false := by
    intro t ht c hc
    have hall : t.all isAlphanumeric = true := by
      rcases List.mem_append.1 ht with ht | ht
      · exact hl.id.all_isAlphanumeric t ht
      · exact hl.extensions.all_isAlphanumeric t ht
    rw [Bool.or_eq_false_iff, beq_eq_false_iff_ne, beq_eq_false_iff_ne]
    constructor
    · rintro rfl
      exact absurd (List.all_eq_true.1 hall '-' hc) (by decide)
    · rintro rfl
      exact absurd (List.all_eq_true.1 hall '_' hc) (by decide)
  unfold parse canonical
  rw [Text.splitOn_joinWith (by decide) hne hplain]
  exact ofSubtags_subtags hl

/-- Canonical locales are the same if their canonical forms are. -/
theorem eq_of_canonical_eq {l m : Locale} (hl : l.Canonical) (hm : m.Canonical)
    (h : l.canonical = m.canonical) : l = m := by
  have hread := parse_canonical hl
  rw [h, parse_canonical hm] at hread
  exact (Except.ok.inj hread).symm

end Locale

end Phrasebook
