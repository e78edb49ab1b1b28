import Phrasebook.Proofs.CanonicalForms
import Phrasebook.Proofs.Tables

/-!
Keys and values in the tags of a code. A key of two bytes is followed by its values, and of two keywords
with one key the first one counts. So the values of a key are the tags behind the first one that is this
key, up to the next key (`keyValues?`), and what is read has them (`mem_insertGroups_nil_iff`).
-/

namespace Phrasebook

open Phrasebook.Locale Subtag

namespace Locale

/-! ## Values of a key -/

/-- The tags behind the first one that is `t`. -/
def behind? (t : Text) : List Text → Option (List Text)
  | [] => none
  | s :: ts => if s = t then some ts else behind? t ts

/-- The values of a key where it comes first: the tags up to the next key, which has two bytes. The value
`true` is left out. -/
def keyValues? (key : Text) (ts : List Text) : Option (List Text) :=
  (behind? key ts).map fun ts => (ts.takeWhile (·.byteSize ≠ 2)).filter (· ≠ "true".toList)

theorem behind?_cons_self (t : Text) (ts : List Text) : behind? t (t :: ts) = some ts := if_pos rfl

theorem behind?_append_of_not_mem {t : Text} {ts : List Text} (h : t ∉ ts) (us : List Text) :
    behind? t (ts ++ us) = behind? t us := by
  induction ts with
  | nil => rfl
  | cons s ts ih =>
    rw [List.mem_cons, not_or] at h
    rw [List.cons_append, behind?, if_neg (Ne.symm h.1), ih h.2]

/-- A run of tags up to one that does not belong to it, or to the end. -/
theorem takeWhile_append_stop {p : Text → Bool} {ts rest : List Text} (hts : ∀ t ∈ ts, p t = true)
    (hrest : ∀ s ∈ rest.head?, p s = false) : (ts ++ rest).takeWhile p = ts := by
  rw [List.takeWhile_append_of_pos hts]
  cases rest with
  | nil => simp
  | cons s rest => simp [hrest s rfl]

/-- Rows of keywords are the same exactly if their keys have the same values in the tags. -/
theorem rows_eq_iff {sort : Text → Option Text} {ks ls : List Keyword} {x y : List Text}
    (hks : Keyword.CanonicalRow sort ks) (hls : Keyword.CanonicalRow sort ls)
    (hx : ∀ k : Keyword, (sort k.key).isSome = true → (k ∈ ks ↔ keyValues? k.key x = some k.values))
    (hy : ∀ k : Keyword, (sort k.key).isSome = true → (k ∈ ls ↔ keyValues? k.key y = some k.values)) :
    (∀ key, (sort key).isSome = true → keyValues? key x = keyValues? key y) ↔ ks = ls := by
  constructor
  · intro h
    refine Table.eq_of_increasing hks.increasing hls.increasing fun k => ?_
    have hsort : ∀ {row}, Keyword.CanonicalRow sort row → k ∈ row → (sort k.key).isSome = true := by
      intro row hrow hk
      rw [(hrow.canonical k hk).key]
      rfl
    constructor
    · intro hk
      have hkey := hsort hks hk
      rw [hy k hkey, ← h _ hkey, ← hx k hkey]
      exact hk
    · intro hk
      have hkey := hsort hls hk
      rw [hx k hkey, h _ hkey, ← hy k hkey]
      exact hk
  · rintro rfl key hkey
    refine Option.ext fun values => ?_
    rw [← hx ⟨key, values⟩ hkey, ← hy ⟨key, values⟩ hkey]

/-! ## Tags in lower case -/

/-- Every tag is in lower case. -/
def InLowerCase (ts : List Text) : Prop := ∀ t ∈ ts, Text.lowerAscii t = t

theorem InLowerCase.of_append {ts us : List Text} (h : InLowerCase (ts ++ us)) : InLowerCase us :=
  fun t ht => h t (List.mem_append_right ts ht)

theorem InLowerCase.tail {t : Text} {ts : List Text} (h : InLowerCase (t :: ts)) : InLowerCase ts :=
  fun u hu => h u (List.mem_cons_of_mem t hu)

theorem InLowerCase.map_eq {ts : List Text} (h : InLowerCase ts) : ts.map Text.lowerAscii = ts :=
  (List.map_congr_left h).trans (List.map_id ts)

theorem inLowerCase_map (ts : List Text) : InLowerCase (ts.map Text.lowerAscii) := by
  intro t ht
  obtain ⟨s, -, rfl⟩ := List.mem_map.1 ht
  exact Text.lowerAscii_lowerAscii s

theorem between?_eq_some_of_lower {least most : Nat} {s t : Text} (hs : Text.lowerAscii s = s)
    (h : between? least most s = some t) : t = s := by
  unfold between? at h
  split at h
  · rw [← Option.some.inj h, hs]
  · cases h

theorem keywordKey?_eq_some_of_lower {s t : Text} (hs : Text.lowerAscii s = s)
    (h : keywordKey? s = some t) : t = s := by
  unfold keywordKey? at h
  split at h
  · split at h
    · rw [← Option.some.inj h, hs]
    · cases h
  · cases h

theorem fieldKey?_eq_some_of_lower {s t : Text} (hs : Text.lowerAscii s = s)
    (h : fieldKey? s = some t) : t = s := by
  unfold fieldKey? at h
  split at h
  · split at h
    · rw [← Option.some.inj h, hs]
    · cases h
  · cases h

theorem byteSize_of_keywordKey? {s t : Text} (h : keywordKey? s = some t) : s.byteSize = 2 := by
  rw [isSort_keywordKey?.byteSize_eq h, length_of_keywordKey? h]

theorem byteSize_of_fieldKey? {s t : Text} (h : fieldKey? s = some t) : s.byteSize = 2 := by
  rw [isSort_fieldKey?.byteSize_eq h, length_of_fieldKey? h]

/-! ## Groups of a key and its values -/

/-- A key with the tags of its values. -/
abbrev Group := Text × List Text

/-- The tags of keys with their values. -/
def groupTags (gs : List Group) : List Text := gs.flatMap fun g => g.1 :: g.2

/-- The tags of a key of a sort with its values, in lower case. -/
structure Group.IsOf (sort : Text → Option Text) (g : Group) : Prop where
  key : sort g.1 = some g.1
  values : ∀ v ∈ g.2, between? 3 8 v = some v

/-- What the tags of a key are read as. -/
def Group.keyword (g : Group) : Keyword := ⟨g.1, g.2.filter (· ≠ "true".toList)⟩

/-- Reads keys one after the other. -/
def insertGroups (seen : List Keyword) (gs : List Group) : List Keyword :=
  gs.foldl (fun ks g => insertKeyword g.keyword ks) seen

theorem Group.IsOf.canonical {sort : Text → Option Text} {g : Group} (hg : g.IsOf sort) :
    g.keyword.Canonical sort where
  key := hg.key
  values v hv := by
    obtain ⟨hmem, hne⟩ := List.mem_filter.1 hv
    rw [value?, hg.values v hmem, Option.map_some, if_neg (by simpa using hne)]

theorem le_byteSize_of_between? {least most : Nat} {v t : Text} (h : between? least most v = some t) :
    least ≤ v.byteSize := by
  rw [(isSort_between? least most).byteSize_eq h]
  exact (length_of_between? h).1

/-- No letter of an extension stands among keys and values. -/
theorem byteSize_ne_one_of_mem_groupTags {sort : Text → Option Text}
    (hsort : ∀ {s t}, sort s = some t → s.byteSize = 2) {gs : List Group}
    (hgs : ∀ g ∈ gs, g.IsOf sort) : ∀ t ∈ groupTags gs, t.byteSize ≠ 1 := by
  intro t ht
  obtain ⟨g, hg, htg⟩ := List.mem_flatMap.1 ht
  rcases List.mem_cons.1 htg with rfl | hv
  · rw [hsort (hgs g hg).key]
    omega
  · have := le_byteSize_of_between? ((hgs g hg).values t hv)
    omega

theorem head?_groupTags {sort : Text → Option Text} {gs : List Group} (hgs : ∀ g ∈ gs, g.IsOf sort) :
    ∀ t ∈ (groupTags gs).head?, sort t = some t := by
  cases gs with
  | nil => simp [groupTags]
  | cons g gs =>
    rintro t ⟨⟩
    exact (hgs g List.mem_cons_self).key

theorem exists_run_of_readValues {ts vs rest : List Text} (hts : InLowerCase ts)
    (h : readValues ts = (vs, rest)) :
    ∃ run, ts = run ++ rest ∧ (∀ v ∈ run, between? 3 8 v = some v) ∧
      vs = run.filter (· ≠ "true".toList) := by
  induction ts generalizing vs with
  | nil =>
    cases h
    exact ⟨[], rfl, by simp, rfl⟩
  | cons s ts ih =>
    rw [readValues] at h
    split at h
    · next w hw =>
      cases h
      obtain ⟨run, hrun, hvalues, hvs⟩ := ih hts.tail rfl
      obtain ⟨v, hv, rfl⟩ := Option.map_eq_some_iff.1 hw
      obtain rfl := between?_eq_some_of_lower (hts s List.mem_cons_self) hv
      refine ⟨v :: run, ?_, List.forall_mem_cons.2 ⟨hv, hvalues⟩, ?_⟩
      · exact congrArg (v :: ·) hrun
      · rw [hvs]
        by_cases htrue : v = "true".toList
        · rw [if_pos htrue, List.filter_cons_of_neg (by simp [htrue]), List.nil_append]
        · rw [if_neg htrue, List.filter_cons_of_pos (by simpa using htrue), List.singleton_append]
    · cases h
      exact ⟨[], rfl, by simp, rfl⟩

theorem inLowerCase_rest_of_readValues {ts : List Text} (hts : InLowerCase ts) :
    InLowerCase (readValues ts).2 := by
  obtain ⟨run, hrun, -, -⟩ := exists_run_of_readValues hts rfl
  exact InLowerCase.of_append (hrun ▸ hts)

/-- A key and its values in front of other groups. -/
theorem exists_groups_cons {sort : Text → Option Text} {seen ks : List Keyword} {key : Text}
    {ts rest : List Text} (hkey : sort key = some key) (hts : InLowerCase ts)
    (h : ∃ gs, (readValues ts).2 = groupTags gs ++ rest ∧ (∀ g ∈ gs, g.IsOf sort) ∧
      ks = insertGroups (insertKeyword ⟨key, (readValues ts).1⟩ seen) gs) :
    ∃ gs, key :: ts = groupTags gs ++ rest ∧ (∀ g ∈ gs, g.IsOf sort) ∧ ks = insertGroups seen gs := by
  obtain ⟨run, hrun, hvalues, hvs⟩ := exists_run_of_readValues hts rfl
  obtain ⟨gs, hgs, hof, hks⟩ := h
  refine ⟨(key, run) :: gs, ?_, List.forall_mem_cons.2 ⟨⟨hkey, hvalues⟩, hof⟩, ?_⟩
  · rw [hrun, hgs]
    simp [groupTags]
  · rw [hks, hvs]
    rfl

theorem exists_groups_of_readKeywords {fuel : Nat} {seen ks : List Keyword} {ts rest : List Text}
    (hts : InLowerCase ts) (h : readKeywords fuel seen ts = .ok (ks, rest)) :
    ∃ gs, ts = groupTags gs ++ rest ∧ (∀ g ∈ gs, g.IsOf keywordKey?) ∧ ks = insertGroups seen gs := by
  induction fuel generalizing seen ts with
  | zero =>
    cases h
    exact ⟨[], rfl, by simp, rfl⟩
  | succ fuel ih =>
    cases ts with
    | nil =>
      cases h
      exact ⟨[], rfl, by simp, rfl⟩
    | cons s ts =>
      rw [readKeywords] at h
      split at h
      · split at h
        · cases h
        · next key hkey =>
          obtain rfl := keywordKey?_eq_some_of_lower (hts s List.mem_cons_self) hkey
          exact exists_groups_cons hkey hts.tail (ih (inLowerCase_rest_of_readValues hts.tail) h)
      · cases h
        exact ⟨[], rfl, by simp, rfl⟩

theorem exists_groups_of_readFields {fuel : Nat} {seen ks : List Keyword} {ts rest : List Text}
    (hts : InLowerCase ts) (h : readFields fuel seen ts = .ok (ks, rest)) :
    ∃ gs, ts = groupTags gs ++ rest ∧ (∀ g ∈ gs, g.IsOf fieldKey?) ∧ ks = insertGroups seen gs := by
  induction fuel generalizing seen ts with
  | zero =>
    cases h
    exact ⟨[], rfl, by simp, rfl⟩
  | succ fuel ih =>
    cases ts with
    | nil =>
      cases h
      exact ⟨[], rfl, by simp, rfl⟩
    | cons s ts =>
      rw [readFields] at h
      split at h
      · cases h
        exact ⟨[], rfl, by simp, rfl⟩
      · next key hkey =>
        split at h
        · obtain rfl := fieldKey?_eq_some_of_lower (hts s List.mem_cons_self) hkey
          exact exists_groups_cons hkey hts.tail (ih (inLowerCase_rest_of_readValues hts.tail) h)
        · cases h

/-! ## The first of two keywords with one key counts -/

theorem exists_mem_insertKeyword (k : Keyword) (ks : List Keyword) :
    ∃ j ∈ insertKeyword k ks, j.key = k.key := by
  induction ks with
  | nil => exact ⟨k, List.mem_singleton_self k, rfl⟩
  | cons i ks ih =>
    rw [insertKeyword]
    split
    · next hkey => exact ⟨i, List.mem_cons_self, hkey.symm⟩
    · split
      · exact ⟨k, List.mem_cons_self, rfl⟩
      · obtain ⟨j, hj, hkey⟩ := ih
        exact ⟨j, List.mem_cons_of_mem i hj, hkey⟩

theorem mem_insertKeyword_iff {j k : Keyword} {ks : List Keyword}
    (hks : ks.Pairwise fun i j => Text.blt i.key j.key = true) :
    j ∈ insertKeyword k ks ↔ j ∈ ks ∨ j = k ∧ ∀ i ∈ ks, i.key ≠ k.key := by
  induction ks with
  | nil => simp [insertKeyword]
  | cons i ks ih =>
    obtain ⟨hi, hks⟩ := List.pairwise_cons.1 hks
    rw [insertKeyword]
    split
    · next hkey => simp [hkey]
    · next hne =>
      split
      · next hlt =>
        -- every key behind comes later than the new one
        have hnew : ∀ i' ∈ i :: ks, i'.key ≠ k.key := by
          refine List.forall_mem_cons.2 ⟨Ne.symm hne, fun i' hi' heq => ?_⟩
          have hafter := Text.blt_trans hlt (hi i' hi')
          rw [heq, Text.blt_irrefl] at hafter
          cases hafter
        rw [List.mem_cons, or_comm, and_iff_left hnew]
      · rw [List.mem_cons, ih hks, List.mem_cons, List.forall_mem_cons, or_assoc,
          and_iff_right (Ne.symm hne)]

/-- What a key has in groups with this key in front. -/
theorem keyValues?_groupTags_cons {sort : Text → Option Text}
    (hsort : ∀ {s t}, sort s = some t → s.byteSize = 2) {key : Text} (hkey : key.byteSize = 2)
    {g : Group} {gs : List Group} (hg : g.IsOf sort) (hgs : ∀ g ∈ gs, g.IsOf sort) :
    keyValues? key (groupTags (g :: gs)) =
      if g.1 = key then some g.keyword.values else keyValues? key (groupTags gs) := by
  obtain ⟨s, run⟩ := g
  have hrun : ∀ v ∈ run, v.byteSize ≠ 2 := by
    intro v hv
    have := le_byteSize_of_between? (hg.values v hv)
    omega
  have hrest : ∀ t ∈ (groupTags gs).head?, t.byteSize = 2 := by
    cases gs with
    | nil => simp [groupTags]
    | cons g' gs =>
      rintro t ⟨⟩
      exact hsort (hgs g' List.mem_cons_self).key
  have hcons : groupTags ((s, run) :: gs) = s :: (run ++ groupTags gs) := by simp [groupTags]
  rw [hcons]
  unfold keyValues?
  by_cases hs : s = key
  · rw [if_pos hs, hs, behind?_cons_self, Option.map_some,
      takeWhile_append_stop (by simpa using hrun) (by simpa using hrest)]
    rfl
  · have hnot : key ∉ run := fun hmem => hrun key hmem hkey
    rw [if_neg hs, behind?, if_neg hs, behind?_append_of_not_mem hnot]

/-- The keywords that have been read are those seen before, and of the others those that come first with
their key. -/
theorem mem_insertGroups_iff {sort : Text → Option Text}
    (hsort : ∀ {s t}, sort s = some t → s.byteSize = 2) {seen : List Keyword} {gs : List Group}
    (hseen : Keyword.CanonicalRow sort seen) (hgs : ∀ g ∈ gs, g.IsOf sort) {k : Keyword}
    (hk : k.key.byteSize = 2) :
    k ∈ insertGroups seen gs ↔ k ∈ seen ∨ (∀ j ∈ seen, j.key ≠ k.key) ∧
      keyValues? k.key (groupTags gs) = some k.values := by
  induction gs generalizing seen with
  | nil => simp [insertGroups, groupTags, keyValues?, behind?]
  | cons g gs ih =>
    obtain ⟨hg, hgs⟩ := List.forall_mem_cons.1 hgs
    have hmem := fun j => mem_insertKeyword_iff (j := j) (k := g.keyword) hseen.increasing
    rw [show insertGroups seen (g :: gs) = insertGroups (insertKeyword g.keyword seen) gs from rfl,
      ih (hseen.insertKeyword hg.canonical) hgs, hmem, keyValues?_groupTags_cons hsort hk hg hgs]
    by_cases hkey : g.1 = k.key
    · obtain ⟨j, hj, hjk⟩ := exists_mem_insertKeyword g.keyword seen
      have hlater : ¬ ((∀ j ∈ insertKeyword g.keyword seen, j.key ≠ k.key) ∧
          keyValues? k.key (groupTags gs) = some k.values) := fun h => h.1 j hj (hjk.trans hkey)
      have hsame : k = g.keyword ↔ some g.keyword.values = some k.values := by
        obtain ⟨key, values⟩ := k
        obtain rfl : g.1 = key := hkey
        simp [Group.keyword, eq_comm]
      have hkey' : g.keyword.key = k.key := hkey
      rw [if_pos hkey, or_iff_left hlater, hsame, hkey', and_comm]
    · have hnot : ¬ (k = g.keyword ∧ ∀ i ∈ seen, i.key ≠ g.keyword.key) := fun h =>
        hkey (congrArg Keyword.key h.1).symm
      have hkeys : (∀ j ∈ insertKeyword g.keyword seen, j.key ≠ k.key) ↔
          ∀ j ∈ seen, j.key ≠ k.key := by
        refine ⟨fun h j hj => h j ((hmem j).2 (.inl hj)), fun h j hj => ?_⟩
        rcases (hmem j).1 hj with hj | ⟨rfl, -⟩
        · exact h j hj
        · exact hkey
      rw [if_neg hkey, or_iff_left hnot, hkeys]

/-- A keyword is read from tags if its key has its values there. -/
theorem mem_insertGroups_nil_iff {sort : Text → Option Text}
    (hsort : ∀ {s t}, sort s = some t → s.byteSize = 2) {gs : List Group}
    (hgs : ∀ g ∈ gs, g.IsOf sort) {lead : List Text} (hlead : ∀ t ∈ lead, sort t = none)
    {k : Keyword} (hk : sort k.key ≠ none) :
    k ∈ insertGroups [] gs ↔ keyValues? k.key (lead ++ groupTags gs) = some k.values := by
  obtain ⟨key, hkey⟩ := Option.ne_none_iff_exists'.1 hk
  have hnot : k.key ∉ lead := fun hmem => hk (hlead _ hmem)
  rw [mem_insertGroups_iff hsort .nil hgs (hsort hkey), keyValues?, keyValues?,
    behind?_append_of_not_mem hnot]
  simp

end Locale

end Phrasebook
