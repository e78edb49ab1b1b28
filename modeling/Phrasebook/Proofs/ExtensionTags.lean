import Phrasebook.Proofs.CodeSpellings
import Phrasebook.Proofs.KeywordTags
import Phrasebook.Proofs.LanguageTags

/-!
What the tags of the extensions of a code say. The tags of an extension are those behind its letter
(`extensionTags`). Not all of them count, and not their whole order: attributes are a set, the first of
two keywords with one key counts, the value `true` is left out, and an extension without a meaning of its
own keeps its tags of letters and digits.

The readers take the tags of one extension after the other, and what is read for a letter matches its
tags (`Extensions.Matches`):

    readExtensions {} ts = e   →   for every letter, e matches extensionTags letter ts

So extensions are the same exactly if their tags say the same, letter by letter
(`Extensions.eq_iff_sameExtension`).
-/

namespace Phrasebook

open Phrasebook.Locale Subtag

namespace Locale

/-! ## Tags that say the same -/

/-- The tags of the extension with a letter. Private tags go on up to the end, and no other extension
starts among them. -/
def extensionTags (letter : Char) (ts : List Text) : List Text :=
  if letter = 'x' then (behind? ['x'] ts).getD []
  else ((behind? [letter] (ts.takeWhile (· ≠ ['x']))).getD []).takeWhile (·.byteSize ≠ 1)

/-- The tags of `u` say the same: the attributes, which stand in front of the first key, are the same in
some order and number, and every key has the same values. -/
structure SameKeywords (a b : List Text) : Prop where
  attributes : ∀ t, t ∈ a.takeWhile (·.byteSize ≠ 2) ↔ t ∈ b.takeWhile (·.byteSize ≠ 2)
  keywords : ∀ key, (keywordKey? key).isSome = true → keyValues? key a = keyValues? key b

/-- The tags of `t` say the same: those of the language, which stand in front of the first field, do, and
every field has the same values. -/
structure SameTransform (a b : List Text) : Prop where
  language : SameLanguage (a.takeWhile fun t => (fieldKey? t).isNone)
    (b.takeWhile fun t => (fieldKey? t).isNone)
  fields : ∀ key, (fieldKey? key).isSome = true → keyValues? key a = keyValues? key b

/-- The tags of two extensions with one letter say the same. Private tags are equal, and so are, in an
extension without a meaning of its own, the tags of letters and digits. -/
def SameExtension (letter : Char) (a b : List Text) : Prop :=
  if letter = 'u' then SameKeywords a b
  else if letter = 't' then SameTransform a b
  else if letter = 'x' then a = b
  else a.filter (·.all isAlphanumeric) = b.filter (·.all isAlphanumeric)

theorem byteSize_letter {c : Char} (hc : Text.isAsciiLetter c = true) : Text.byteSize [c] = 1 :=
  byteSize_of_all_isAlphanumeric (by simp [isAlphanumeric, hc])

/-- Tags without the letter do not belong to its extension. -/
theorem extensionTags_append {letter : Char} {lead : List Text} (hletter : [letter] ∉ lead)
    (hx : ['x'] ∉ lead) (ts : List Text) : extensionTags letter (lead ++ ts) = extensionTags letter ts := by
  have hpublic : (lead ++ ts).takeWhile (· ≠ ['x']) = lead ++ ts.takeWhile (· ≠ ['x']) := by
    refine List.takeWhile_append_of_pos fun t ht => ?_
    have hne : t ≠ ['x'] := fun heq => hx (heq ▸ ht)
    simpa using hne
  rw [extensionTags, extensionTags, hpublic, behind?_append_of_not_mem hx,
    behind?_append_of_not_mem hletter]

/-- The tags of the first extension, and those of the others. -/
theorem extensionTags_cons {letter c : Char} {body rest : List Text}
    (hletter : Text.isAsciiLetter letter = true) (hc : Text.isAsciiLetter c = true)
    (hpublic : c ≠ 'x' → ∀ t ∈ body, t.byteSize ≠ 1) (hprivate : c = 'x' → rest = [])
    (hrest : AtExtension rest) :
    extensionTags letter ([c] :: (body ++ rest)) =
      if letter = c then body else extensionTags letter rest := by
  by_cases hx : c = 'x'
  · subst hx
    obtain rfl := hprivate rfl
    by_cases hl : letter = 'x'
    · simp [extensionTags, hl, behind?]
    · simp [extensionTags, hl, behind?]
  · have hskip : ∀ d : Char, Text.isAsciiLetter d = true → [d] ∉ body := fun d hd hmem =>
      hpublic hx _ hmem (byteSize_letter hd)
    by_cases hl : letter = c
    · subst hl
      have hbefore : ([letter] :: (body ++ rest)).takeWhile (· ≠ ['x']) =
          [letter] :: (body ++ rest.takeWhile (· ≠ ['x'])) := by
        rw [List.takeWhile_cons_of_pos (by simpa using hx), List.takeWhile_append_of_pos]
        intro t ht
        have hne : t ≠ ['x'] := fun heq => hskip 'x' (by decide) (heq ▸ ht)
        simpa using hne
      have hnext : AtExtension (rest.takeWhile (· ≠ ['x'])) := by
        intro s hs
        refine hrest s ?_
        cases rest with
        | nil => cases hs
        | cons t rest =>
          rw [List.takeWhile_cons] at hs
          split at hs
          · exact hs
          · cases hs
      rw [if_pos rfl, extensionTags, if_neg hx, hbefore, behind?_cons_self, Option.getD_some]
      exact takeWhile_append_stop (by simpa using hpublic hx) (by simpa [AtExtension] using hnext)
    · have hfirst : ∀ d : Char, Text.isAsciiLetter d = true → d ≠ c → [d] ∉ [c] :: body := by
        intro d hd hdc
        rw [List.mem_cons, not_or]
        exact ⟨by simpa using hdc, hskip d hd⟩
      rw [if_neg hl, ← List.cons_append]
      exact extensionTags_append (hfirst letter hletter hl) (hfirst 'x' (by decide) (Ne.symm hx)) rest

/-! ## What is read matches its tags -/

/-- Attributes and keywords are those that the tags of `u` have. -/
structure MatchesKeywords (as : List Text) (ks : List Keyword) (ts : List Text) : Prop where
  attributes : ∀ a, a ∈ as ↔ a ∈ ts.takeWhile (·.byteSize ≠ 2)
  keywords : ∀ k : Keyword, (keywordKey? k.key).isSome = true →
    (k ∈ ks ↔ keyValues? k.key ts = some k.values)

/-- The language and the fields are those that the tags of `t` have. -/
structure MatchesTransform (language : Option LanguageId) (fs : List Keyword) (ts : List Text) :
    Prop where
  language : MatchesLanguage language (ts.takeWhile fun t => (fieldKey? t).isNone)
  fields : ∀ f : Keyword, (fieldKey? f.key).isSome = true →
    (f ∈ fs ↔ keyValues? f.key ts = some f.values)

theorem mem_of_insertNew?_eq_none {s : Text} {ts : List Text} (h : insertNew? s ts = none) :
    s ∈ ts := by
  induction ts with
  | nil => cases h
  | cons t ts ih =>
    rw [insertNew?] at h
    split at h
    · next heq => exact heq ▸ List.mem_cons_self
    · split at h
      · cases h
      · exact List.mem_cons_of_mem t (ih (Option.map_eq_none_iff.1 h))

theorem mem_getD_insertNew? {a s : Text} {ts : List Text} :
    a ∈ (insertNew? s ts).getD ts ↔ a ∈ ts ∨ a = s := by
  cases h : insertNew? s ts with
  | none =>
    have hs := mem_of_insertNew?_eq_none h
    refine ⟨.inl, ?_⟩
    rintro (ha | rfl)
    · exact ha
    · exact hs
  | some us => rw [Option.getD_some, (perm_of_insertNew? h).mem_iff, List.mem_cons, or_comm]

theorem exists_lead_of_readAttributes {seen ts as rest : List Text} (hts : InLowerCase ts)
    (h : readAttributes seen ts = (as, rest)) :
    ∃ lead, ts = lead ++ rest ∧ (∀ t ∈ lead, between? 3 8 t = some t) ∧
      ∀ a, a ∈ as ↔ a ∈ seen ∨ a ∈ lead := by
  induction ts generalizing seen with
  | nil =>
    cases h
    exact ⟨[], rfl, by simp, by simp⟩
  | cons s ts ih =>
    rw [readAttributes] at h
    split at h
    · next a ha =>
      obtain rfl := between?_eq_some_of_lower (hts s List.mem_cons_self) ha
      obtain ⟨lead, hlead, hbetween, has⟩ := ih hts.tail h
      refine ⟨a :: lead, congrArg (a :: ·) hlead, List.forall_mem_cons.2 ⟨ha, hbetween⟩, fun b => ?_⟩
      rw [has, mem_getD_insertNew?, List.mem_cons, or_assoc]
    · cases h
      exact ⟨[], rfl, by simp, by simp⟩

theorem matchesKeywords_of_readUnicode {e e' : Extensions} {ts rest : List Text} (hts : InLowerCase ts)
    (h : readUnicode e ts = .ok (e', rest)) :
    ∃ as ks body, e' = { e with attributes := as, keywords := ks } ∧
      (as.isEmpty && ks.isEmpty) = false ∧ ts = body ++ rest ∧ (∀ t ∈ body, t.byteSize ≠ 1) ∧
      MatchesKeywords as ks body := by
  obtain ⟨⟨ks, rest'⟩, hks, h⟩ := Markup.bind_eq_ok_iff.1 h
  dsimp only at h
  split at h
  · cases h
  · next hne =>
    cases h
    obtain ⟨lead, hlead, hbetween, has⟩ :=
      exists_lead_of_readAttributes hts (Prod.eta (readAttributes [] ts)).symm
    obtain ⟨gs, hgs, hof, rfl⟩ :=
      exists_groups_of_readKeywords (InLowerCase.of_append (hlead ▸ hts)) hks
    have hsize : ∀ t ∈ lead, 3 ≤ t.byteSize := fun t ht => le_byteSize_of_between? (hbetween t ht)
    have hstop : (lead ++ groupTags gs).takeWhile (·.byteSize ≠ 2) = lead := by
      refine takeWhile_append_stop (fun t ht => ?_) fun t ht => ?_
      · have := hsize t ht
        simp
        omega
      · simpa using byteSize_of_keywordKey? (head?_groupTags hof t ht)
    refine ⟨_, _, lead ++ groupTags gs, rfl, Bool.eq_false_iff.2 hne, ?_, ?_, ?_, ?_⟩
    · rw [List.append_assoc, ← hgs, ← hlead]
    · refine List.forall_mem_append.2 ⟨fun t ht => ?_, ?_⟩
      · have := hsize t ht
        omega
      · exact byteSize_ne_one_of_mem_groupTags byteSize_of_keywordKey? hof
    · intro a
      rw [has, hstop]
      simp
    · intro k hk
      refine mem_insertGroups_nil_iff byteSize_of_keywordKey? hof (fun t ht => ?_)
        (Option.isSome_iff_ne_none.1 hk)
      refine eq_none_of_not (fun _ => byteSize_of_keywordKey?) ?_
      have := hsize t ht
      omega

/-- What a language leaves of tags in lower case is in lower case. -/
theorem readLanguageId_in_lower_case {ts rest : List Text} {id : LanguageId} (hts : InLowerCase ts)
    (h : readLanguageId ts = .ok (id, rest)) : InLowerCase rest := by
  have hlower := readLanguageId_map_lowerAscii ts
  rw [hts.map_eq, h] at hlower
  have hrest : rest = rest.map Text.lowerAscii := (Prod.mk.inj (Except.ok.inj hlower)).2
  rw [hrest]
  exact inLowerCase_map rest

/-- A language in front of fields. -/
theorem matchesTransform_of_finishTransform {e e' : Extensions} {language : Option LanguageId}
    {lead ts rest : List Text} (hts : InLowerCase ts)
    (hlead : ∀ t ∈ lead, fieldKey? t = none ∧ t.byteSize ≠ 1) (hlanguage : MatchesLanguage language lead)
    (h : finishTransform e language ts = .ok (e', rest)) :
    ∃ fs body, e' = { e with transformLanguage := language, transformFields := fs } ∧
      (language.isNone && fs.isEmpty) = false ∧ lead ++ ts = body ++ rest ∧
      (∀ t ∈ body, t.byteSize ≠ 1) ∧ MatchesTransform language fs body := by
  obtain ⟨⟨fs, rest'⟩, hfs, h⟩ := Markup.bind_eq_ok_iff.1 h
  dsimp only at h
  split at h
  · cases h
  · next hne =>
    cases h
    obtain ⟨gs, hgs, hof, rfl⟩ := exists_groups_of_readFields hts hfs
    have hstop : (lead ++ groupTags gs).takeWhile (fun t => (fieldKey? t).isNone) = lead := by
      refine takeWhile_append_stop (fun t ht => ?_) fun t ht => ?_
      · rw [(hlead t ht).1]
        rfl
      · rw [head?_groupTags hof t ht]
        rfl
    refine ⟨_, lead ++ groupTags gs, rfl, Bool.eq_false_iff.2 hne, ?_, ?_, ?_, ?_⟩
    · rw [hgs, List.append_assoc]
    · refine List.forall_mem_append.2 ⟨fun t ht => (hlead t ht).2, ?_⟩
      exact byteSize_ne_one_of_mem_groupTags byteSize_of_fieldKey? hof
    · rw [hstop]
      exact hlanguage
    · intro f hf
      exact mem_insertGroups_nil_iff byteSize_of_fieldKey? hof (fun t ht => (hlead t ht).1)
        (Option.isSome_iff_ne_none.1 hf)

theorem matchesTransform_of_readTransform {e e' : Extensions} {ts rest : List Text}
    (hts : InLowerCase ts) (h : readTransform e ts = .ok (e', rest)) :
    ∃ language fs body, e' = { e with transformLanguage := language, transformFields := fs } ∧
      (language.isNone && fs.isEmpty) = false ∧ ts = body ++ rest ∧ (∀ t ∈ body, t.byteSize ≠ 1) ∧
      MatchesTransform language fs body := by
  rw [readTransform_eq] at h
  split at h
  · obtain ⟨⟨id, after⟩, hid, h⟩ := Markup.bind_eq_ok_iff.1 h
    obtain ⟨hcanonical, vs, hvs, htags⟩ := of_readLanguageId hid
    have hafter := readLanguageId_in_lower_case hts hid
    rw [hts.map_eq, hafter.map_eq] at htags
    rw [htags]
    exact ⟨some id, matchesTransform_of_finishTransform hafter (of_mem_languageTags hcanonical hvs)
      ⟨vs, hvs, rfl⟩ h⟩
  · have hnone : ∀ t ∈ ([] : List Text), fieldKey? t = none ∧ t.byteSize ≠ 1 := by simp
    exact ⟨none, matchesTransform_of_finishTransform hts hnone rfl h⟩

theorem mapM_between?_eq_some {ts us : List Text} (hts : InLowerCase ts)
    (h : ts.mapM (between? 1 8) = some us) : us = ts := by
  induction ts generalizing us with
  | nil =>
    cases h
    rfl
  | cons t ts ih =>
    rw [List.mapM_cons] at h
    obtain ⟨v, hv, h⟩ := Option.bind_eq_some_iff.1 h
    obtain ⟨vs, hvs, h⟩ := Option.bind_eq_some_iff.1 h
    cases h
    rw [between?_eq_some_of_lower (hts t List.mem_cons_self) hv, ih hts.tail hvs]

theorem of_readPrivate {e e' : Extensions} {ts rest : List Text} (hts : InLowerCase ts)
    (h : readPrivate e ts = .ok (e', rest)) :
    e' = { e with privateTags := ts } ∧ ts ≠ [] ∧ rest = [] := by
  unfold readPrivate at h
  split at h
  · next tags htags =>
    obtain rfl := mapM_between?_eq_some hts htags
    split at h
    · cases h
    · next hne =>
      cases h
      exact ⟨rfl, by simpa using hne, rfl⟩
  · cases h

/-- The tags of another extension of which only those of letters and digits are kept. -/
theorem exists_body_of_readOtherTags {ts us rest : List Text} (hts : InLowerCase ts)
    (h : readOtherTags ts = (us, rest)) :
    ∃ body, ts = body ++ rest ∧ (∀ t ∈ body, t.byteSize ≠ 1) ∧
      us = body.filter (·.all isAlphanumeric) := by
  induction ts generalizing us with
  | nil =>
    cases h
    exact ⟨[], rfl, by simp, rfl⟩
  | cons s ts ih =>
    rw [readOtherTags] at h
    split at h
    · next hsize =>
      cases h
      obtain ⟨body, hbody, hne, hus⟩ := ih hts.tail rfl
      refine ⟨s :: body, congrArg (s :: ·) hbody, List.forall_mem_cons.2 ⟨by omega, hne⟩, ?_⟩
      rw [hus]
      by_cases hall : s.all isAlphanumeric = true
      · have hlength := byteSize_of_all_isAlphanumeric hall
        have hs : between? 2 8 s = some (Text.lowerAscii s) :=
          if_pos ⟨by omega, by omega, hall⟩
        rw [List.filter_cons, if_pos hall, hs, hts s List.mem_cons_self]
        rfl
      · have hs : between? 2 8 s = none :=
          eq_none_of_not (fun _ => (isSort_between? 2 8).all_isAlphanumeric) hall
        rw [List.filter_cons, if_neg hall, hs]
        rfl
    · cases h
      exact ⟨[], rfl, by simp, rfl⟩

theorem exists_body_of_readOther {letter : Char} {e e' : Extensions} {ts rest : List Text}
    (hts : InLowerCase ts) (h : readOther letter e ts = .ok (e', rest)) :
    ∃ body, e' = { e with
        others := insertOther (letter, body.filter (·.all isAlphanumeric)) e.others } ∧
      ts = body ++ rest ∧ ∀ t ∈ body, t.byteSize ≠ 1 := by
  unfold readOther at h
  dsimp only at h
  split at h
  · cases h
  · cases h
    obtain ⟨body, hbody, hpublic, htags⟩ := exists_body_of_readOtherTags hts
      (Prod.eta (readOtherTags ts)).symm
    exact ⟨body, by rw [htags], hbody, hpublic⟩

end Locale

namespace Extensions

/-- What extensions hold for a letter is what tags say it is. -/
def Matches (e : Extensions) (letter : Char) (ts : List Text) : Prop :=
  if letter = 'u' then MatchesKeywords e.attributes e.keywords ts
  else if letter = 't' then MatchesTransform e.transformLanguage e.transformFields ts
  else if letter = 'x' then e.privateTags = ts
  else ∀ tags, tags ≠ [] → ((letter, tags) ∈ e.others ↔ tags = ts.filter (·.all isAlphanumeric))

theorem matches_nil (letter : Char) : ({} : Extensions).Matches letter [] := by
  unfold Matches
  split
  · exact ⟨by simp, by simp [keyValues?, behind?]⟩
  · split
    · exact ⟨rfl, by simp [keyValues?, behind?]⟩
    · split
      · rfl
      · simp

theorem mem_insertOther_iff {o p : Char × List Text} {os : List (Char × List Text)} :
    p ∈ insertOther o os ↔ p = o ∨ p ∈ os := by
  induction os with
  | nil => simp [insertOther]
  | cons q os ih =>
    rw [insertOther]
    split
    · rw [List.mem_cons]
    · rw [List.mem_cons, ih, List.mem_cons, or_left_comm]

/-- The extensions of one letter have been read from some tags; the others are as before. -/
structure ReadFrom (letter : Char) (e e' : Extensions) (body : List Text) : Prop where
  before : hasExtension e letter = false
  after : hasExtension e' letter = true
  tags : e'.Matches letter body
  other : ∀ d, d ≠ letter → hasExtension e' d = hasExtension e d ∧
    ∀ ts, e'.Matches d ts ↔ e.Matches d ts

theorem ReadFrom.insertOther {letter : Char} {e : Extensions} {body : List Text} (hu : letter ≠ 'u')
    (ht : letter ≠ 't') (hx : letter ≠ 'x') (hnew : hasExtension e letter = false) :
    ReadFrom letter e
      { e with others := insertOther (letter, body.filter (·.all isAlphanumeric)) e.others } body where
  before := hnew
  after := by
    simp only [hasExtension, hu, ht, hx, if_false]
    exact List.any_eq_true.2 ⟨_, mem_insertOther_iff.2 (.inl rfl), beq_self_eq_true letter⟩
  tags := by
    simp only [hasExtension, hu, ht, hx, if_false, List.any_eq_false, beq_iff_eq] at hnew
    simp only [Matches, hu, ht, hx, if_false]
    intro us _
    rw [mem_insertOther_iff, or_iff_left fun h => hnew _ h rfl, Prod.mk.injEq, and_iff_right rfl]
  other d hd := by
    have hmem : ∀ us, (d, us) ∈ Locale.insertOther (letter, body.filter (·.all isAlphanumeric)) e.others ↔
        (d, us) ∈ e.others := by
      intro us
      rw [mem_insertOther_iff, or_iff_right fun h => hd (congrArg Prod.fst h)]
    have hany : (Locale.insertOther (letter, body.filter (·.all isAlphanumeric)) e.others).any
        (·.1 == d) = e.others.any (·.1 == d) := by
      rw [Bool.eq_iff_iff, List.any_eq_true, List.any_eq_true]
      simp [hmem]
    refine ⟨by simp only [hasExtension, hany], fun ts => ?_⟩
    simp only [Matches, hmem]

/-- The reader of a letter takes the tags of its extension. -/
theorem exists_readFrom {letter : Char} {e e' : Extensions} {ts rest : List Text}
    (hts : InLowerCase ts) (h : readExtension letter e ts = .ok (e', rest)) :
    ∃ body, ts = body ++ rest ∧ (letter ≠ 'x' → ∀ t ∈ body, t.byteSize ≠ 1) ∧
      (letter = 'x' → rest = []) ∧ ReadFrom letter e e' body := by
  unfold readExtension at h
  split at h
  · cases h
  · next hnew =>
    have hnew := Bool.eq_false_iff.2 hnew
    split at h
    · next hu =>
      subst hu
      obtain ⟨as, ks, body, rfl, hne, hbody, hpublic, hmatches⟩ := matchesKeywords_of_readUnicode hts h
      refine ⟨body, hbody, fun _ => hpublic, by simp, hnew, ?_, hmatches, fun d hd => ?_⟩
      · simp [hasExtension, hne]
      · simp [hasExtension, Matches, hd]
    · next hu =>
      split at h
      · next ht =>
        subst ht
        obtain ⟨language, fs, body, rfl, hne, hbody, hpublic, hmatches⟩ :=
          matchesTransform_of_readTransform hts h
        refine ⟨body, hbody, fun _ => hpublic, by simp, hnew, ?_, hmatches, fun d hd => ?_⟩
        · simp [hasExtension, hne]
        · simp [hasExtension, Matches, hd]
      · next ht =>
        split at h
        · next hx =>
          subst hx
          obtain ⟨rfl, hne, rfl⟩ := of_readPrivate hts h
          refine ⟨ts, (List.append_nil ts).symm, by simp, fun _ => rfl, hnew, ?_, rfl, fun d hd => ?_⟩
          · simpa [hasExtension] using hne
          · simp [hasExtension, Matches, hd]
        · next hx =>
          obtain ⟨body, rfl, hbody, hpublic⟩ := exists_body_of_readOther hts h
          exact ⟨body, hbody, fun _ => hpublic, fun h => absurd h hx, .insertOther hu ht hx hnew⟩

theorem atExtension_of_readExtensions {fuel : Nat} {e e' : Extensions} {ts : List Text}
    (hfuel : ts.length ≤ fuel) (h : readExtensions fuel e ts = .ok e') : AtExtension ts := by
  cases ts with
  | nil => simp [AtExtension]
  | cons s ts =>
    cases fuel with
    | zero => cases hfuel
    | succ fuel =>
      rintro t ⟨⟩
      unfold readExtensions at h
      split at h
      · split at h
        · next hc => exact byteSize_letter hc
        · cases h
      · cases h

/-- Reading extensions leaves what is held for a letter if there are no tags for it, and otherwise nothing
was held for it before, and what is held matches its tags. -/
theorem kept_or_matches {fuel : Nat} {e e' : Extensions} {ts : List Text} (hts : InLowerCase ts)
    (hfuel : ts.length ≤ fuel) (h : readExtensions fuel e ts = .ok e') {letter : Char}
    (hletter : Text.isAsciiLetter letter = true) :
    (extensionTags letter ts = [] ∧ ∀ us, e'.Matches letter us ↔ e.Matches letter us) ∨
      (hasExtension e letter = false ∧ e'.Matches letter (extensionTags letter ts)) := by
  induction fuel generalizing e ts with
  | zero =>
    obtain rfl := List.eq_nil_of_length_eq_zero (Nat.le_zero.1 hfuel)
    cases h
    exact .inl ⟨by simp [extensionTags, behind?], fun _ => Iff.rfl⟩
  | succ fuel ih =>
    cases ts with
    | nil =>
      cases h
      exact .inl ⟨by simp [extensionTags, behind?], fun _ => Iff.rfl⟩
    | cons s ts =>
      unfold readExtensions at h
      split at h
      · next c =>
        split at h
        · next hc =>
          obtain ⟨⟨e₁, rest⟩, hread, hnext⟩ := Markup.bind_eq_ok_iff.1 h
          have hlower : c.toLower = c := by simpa [Text.lowerAscii] using hts [c] List.mem_cons_self
          rw [hlower] at hread
          obtain ⟨body, rfl, hpublic, hprivate, hfrom⟩ := exists_readFrom hts.tail hread
          have hfuel' : rest.length ≤ fuel := by
            simp only [List.length_cons, List.length_append] at hfuel
            omega
          have hmore := ih (InLowerCase.of_append hts.tail) hfuel' hnext
          rw [extensionTags_cons hletter hc hpublic hprivate (atExtension_of_readExtensions hfuel' hnext)]
          by_cases hl : letter = c
          · subst hl
            rw [if_pos rfl]
            -- the letter does not come again
            rcases hmore with ⟨-, hkept⟩ | ⟨hnew, -⟩
            · exact .inr ⟨hfrom.before, (hkept _).2 hfrom.tags⟩
            · rw [hfrom.after] at hnew
              cases hnew
          · obtain ⟨hhas, hother⟩ := hfrom.other letter hl
            rw [if_neg hl]
            rcases hmore with ⟨hnone, hkept⟩ | ⟨hnew, hmatches⟩
            · exact .inl ⟨hnone, fun us => (hkept us).trans (hother us)⟩
            · exact .inr ⟨hhas ▸ hnew, hmatches⟩
        · cases h
      · cases h

/-- What has been read matches the tags, letter by letter. -/
theorem matches_of_readExtensions {fuel : Nat} {e : Extensions} {ts : List Text} (hts : InLowerCase ts)
    (hfuel : ts.length ≤ fuel) (h : readExtensions fuel {} ts = .ok e) {letter : Char}
    (hletter : Text.isAsciiLetter letter = true) : e.Matches letter (extensionTags letter ts) := by
  rcases kept_or_matches hts hfuel h hletter with ⟨hnone, hkept⟩ | ⟨-, hmatches⟩
  · rw [hnone]
    exact (hkept []).2 (matches_nil letter)
  · exact hmatches

/-! ## Extensions that are the same -/

theorem sameKeywords_iff {e f : Extensions} (he : e.Canonical) (hf : f.Canonical) {x y : List Text}
    (hx : MatchesKeywords e.attributes e.keywords x) (hy : MatchesKeywords f.attributes f.keywords y) :
    SameKeywords x y ↔ e.attributes = f.attributes ∧ e.keywords = f.keywords := by
  have hrows := rows_eq_iff he.keywords hf.keywords hx.keywords hy.keywords
  constructor
  · rintro ⟨hattributes, hkeywords⟩
    refine ⟨?_, hrows.1 hkeywords⟩
    refine Table.eq_of_increasing (f := id) he.attributesIncrease hf.attributesIncrease fun a => ?_
    rw [hx.attributes, hy.attributes, hattributes]
  · rintro ⟨hattributes, hkeywords⟩
    refine ⟨fun a => ?_, hrows.2 hkeywords⟩
    rw [← hx.attributes, ← hy.attributes, hattributes]

theorem sameTransform_iff {e f : Extensions} (he : e.Canonical) (hf : f.Canonical) {x y : List Text}
    (hx : MatchesTransform e.transformLanguage e.transformFields x)
    (hy : MatchesTransform f.transformLanguage f.transformFields y) :
    SameTransform x y ↔
      e.transformLanguage = f.transformLanguage ∧ e.transformFields = f.transformFields := by
  rw [← sameLanguage_iff_of_matches he.transformLanguage hf.transformLanguage hx.language hy.language,
    ← rows_eq_iff he.transformFields hf.transformFields hx.fields hy.fields]
  exact ⟨fun h => ⟨h.language, h.fields⟩, fun h => ⟨h.1, h.2⟩⟩

/-- Other extensions in the order of their letters are the same if they have the same members. -/
theorem others_eq_of_mem {os ps : List (Char × List Text)}
    (hos : os.Pairwise fun o p => o.1.toNat < p.1.toNat)
    (hps : ps.Pairwise fun o p => o.1.toNat < p.1.toNat) (h : ∀ o, o ∈ os ↔ o ∈ ps) : os = ps := by
  have hnodup : ∀ {row : List (Char × List Text)},
      (row.Pairwise fun o p => o.1.toNat < p.1.toNat) → row.Nodup := by
    intro row hrow
    refine hrow.imp fun hlt heq => ?_
    subst heq
    omega
  refine ((List.perm_ext_iff_of_nodup (hnodup hos) (hnodup hps)).2 h).eq_of_pairwise ?_ hos hps
  intro o p _ _ hop hpo
  omega

theorem mem_others_of_matches {e f : Extensions} (he : e.Canonical) {x y : Char → List Text}
    (hx : ∀ letter, Text.isAsciiLetter letter = true → e.Matches letter (x letter))
    (hy : ∀ letter, Text.isAsciiLetter letter = true → f.Matches letter (y letter))
    {o : Char × List Text} (ho : o ∈ e.others)
    (hsame : (x o.1).filter (·.all isAlphanumeric) = (y o.1).filter (·.all isAlphanumeric)) :
    o ∈ f.others := by
  obtain ⟨letter, tags⟩ := o
  have hcanonical := he.others _ ho
  have hex := hx letter hcanonical.isLetter
  have hfy := hy letter hcanonical.isLetter
  simp only [Matches, hcanonical.ne_u, hcanonical.ne_t, hcanonical.ne_x, if_false] at hex hfy
  rw [hfy tags hcanonical.ne_nil, ← hsame, ← hex tags hcanonical.ne_nil]
  exact ho

/-- Tags that match the same extensions say the same. -/
theorem sameExtension_of_matches {e : Extensions} (he : e.Canonical) {letter : Char} {x y : List Text}
    (hx : e.Matches letter x) (hy : e.Matches letter y) : SameExtension letter x y := by
  unfold Matches at hx hy
  unfold SameExtension
  split
  · next hu =>
    rw [if_pos hu] at hx hy
    exact (sameKeywords_iff he he hx hy).2 ⟨rfl, rfl⟩
  · next hu =>
    rw [if_neg hu] at hx hy
    split
    · next ht =>
      rw [if_pos ht] at hx hy
      exact (sameTransform_iff he he hx hy).2 ⟨rfl, rfl⟩
    · next ht =>
      rw [if_neg ht] at hx hy
      split
      · next hl =>
        rw [if_pos hl] at hx hy
        exact hx.symm.trans hy
      · next hl =>
        rw [if_neg hl] at hx hy
        by_cases hnil : x.filter (·.all isAlphanumeric) = []
        · by_cases hnil' : y.filter (·.all isAlphanumeric) = []
          · rw [hnil, hnil']
          · exact ((hx _ hnil').1 ((hy _ hnil').2 rfl)).symm
        · exact (hy _ hnil).1 ((hx _ hnil).2 rfl)

/-- Extensions are the same exactly if their tags say the same for every letter. -/
theorem eq_iff_sameExtension {e f : Extensions} (he : e.Canonical) (hf : f.Canonical)
    {x y : Char → List Text}
    (hx : ∀ letter, Text.isAsciiLetter letter = true → e.Matches letter (x letter))
    (hy : ∀ letter, Text.isAsciiLetter letter = true → f.Matches letter (y letter)) :
    e = f ↔ ∀ letter, Text.isAsciiLetter letter = true →
      SameExtension letter (x letter) (y letter) := by
  constructor
  · rintro rfl letter hletter
    exact sameExtension_of_matches he (hx letter hletter) (hy letter hletter)
  · intro h
    obtain ⟨hattributes, hkeywords⟩ := (sameKeywords_iff he hf (hx 'u' (by decide))
      (hy 'u' (by decide))).1 (h 'u' (by decide))
    obtain ⟨hlanguage, hfields⟩ := (sameTransform_iff he hf (hx 't' (by decide))
      (hy 't' (by decide))).1 (h 't' (by decide))
    have hprivate : e.privateTags = f.privateTags := by
      have hex : e.privateTags = x 'x' := hx 'x' (by decide)
      have hfy : f.privateTags = y 'x' := hy 'x' (by decide)
      have hsame : x 'x' = y 'x' := h 'x' (by decide)
      rw [hex, hfy, hsame]
    have hsame : ∀ {g : Extensions}, g.Canonical → ∀ o ∈ g.others,
        (x o.1).filter (·.all isAlphanumeric) = (y o.1).filter (·.all isAlphanumeric) := by
      intro g hg o ho
      have hcanonical := hg.others o ho
      have hletter := h o.1 hcanonical.isLetter
      simpa only [SameExtension, hcanonical.ne_u, hcanonical.ne_t, hcanonical.ne_x, if_false]
        using hletter
    have hothers : e.others = f.others :=
      others_eq_of_mem he.othersIncrease hf.othersIncrease fun o =>
        ⟨fun ho => mem_others_of_matches he hx hy ho (hsame he o ho),
          fun ho => mem_others_of_matches hf hy hx ho (hsame hf o ho).symm⟩
    cases e
    cases f
    rw [Extensions.mk.injEq]
    exact ⟨hattributes, hkeywords, hlanguage, hfields, hprivate, hothers⟩

end Extensions

end Phrasebook
