import Phrasebook.Proofs.LocaleTags

/-!
What is read as a locale is canonical: its subtags are in their canonical spelling, keys and letters
increase, and nothing stands where a code could not have put it (`Canonical.of_ofSubtags`). Every reader
keeps this of the part that it fills.
-/

namespace Phrasebook

open Phrasebook.Locale Subtag

/-- A keyword or field whose key is of a sort and whose values are canonical. -/
structure Keyword.Canonical (sort : Text → Option Text) (k : Keyword) : Prop where
  key : sort k.key = some k.key
  values : ∀ v ∈ k.values, value? v = some [v]

/-- Canonical keywords in the order of their keys. -/
structure Keyword.CanonicalRow (sort : Text → Option Text) (ks : List Keyword) : Prop where
  canonical : ∀ k ∈ ks, k.Canonical sort
  increasing : ks.Pairwise fun j k => Text.blt j.key k.key = true

/-- An extension that is neither of `u`, `t` and `x`, with its subtags. -/
structure Extensions.CanonicalOther (o : Char × List Text) : Prop where
  isLetter : Text.isAsciiLetter o.1 = true
  toLower_eq : o.1.toLower = o.1
  ne_u : o.1 ≠ 'u'
  ne_t : o.1 ≠ 't'
  ne_x : o.1 ≠ 'x'
  ne_nil : o.2 ≠ []
  tags : ∀ t ∈ o.2, between? 2 8 t = some t

/-- Every part of the extensions is canonical and in order. -/
structure Extensions.Canonical (e : Extensions) : Prop where
  attributes : ∀ a ∈ e.attributes, between? 3 8 a = some a
  attributesIncrease : e.attributes.Pairwise fun a b => Text.blt a b = true
  keywords : Keyword.CanonicalRow keywordKey? e.keywords
  transformLanguage : ∀ id ∈ e.transformLanguage, id.Canonical
  transformFields : Keyword.CanonicalRow fieldKey? e.transformFields
  privateTags : ∀ t ∈ e.privateTags, between? 1 8 t = some t
  others : ∀ o ∈ e.others, CanonicalOther o
  othersIncrease : e.others.Pairwise fun o p => o.1.toNat < p.1.toNat

/-- A canonical locale. -/
structure Locale.Canonical (l : Locale) : Prop where
  id : l.id.Canonical
  extensions : l.extensions.Canonical

/-! ## Keywords -/

theorem mem_of_mem_insertKeyword {j k : Keyword} {ks : List Keyword} (h : j ∈ insertKeyword k ks) :
    j = k ∨ j ∈ ks := by
  induction ks with
  | nil => exact .inl (List.mem_singleton.1 h)
  | cons i ks ih =>
    rw [insertKeyword] at h
    split at h
    · exact .inr h
    · split at h
      · exact List.mem_cons.1 h
      · rcases List.mem_cons.1 h with rfl | h
        · exact .inr List.mem_cons_self
        · exact (ih h).imp_right (List.mem_cons_of_mem i)

theorem Keyword.CanonicalRow.nil {sort : Text → Option Text} : CanonicalRow sort [] :=
  ⟨by simp, .nil⟩

theorem Keyword.CanonicalRow.insertKeyword {sort : Text → Option Text} {k : Keyword}
    {ks : List Keyword} (hk : k.Canonical sort) (hks : CanonicalRow sort ks) :
    CanonicalRow sort (insertKeyword k ks) where
  canonical j hj := by
    rcases mem_of_mem_insertKeyword hj with rfl | hj
    · exact hk
    · exact hks.canonical j hj
  increasing := by
    have hincreasing := hks.increasing
    clear hks
    induction ks with
    | nil => exact List.pairwise_singleton _ _
    | cons i ks ih =>
      rw [Locale.insertKeyword]
      split
      · exact hincreasing
      · next hne =>
        split
        · next hlt => exact pairwise_cons_first Text.blt_trans hlt hincreasing
        · next hlt =>
          have hik := Text.blt_trichotomy hne (Bool.eq_false_iff.2 hlt)
          exact pairwise_cons_inserted hik hincreasing (fun _ => mem_of_mem_insertKeyword)
            (ih hincreasing.of_cons)

theorem value?_of_value? {s : Text} {vs : List Text} (h : value? s = some vs) :
    ∀ v ∈ vs, value? v = some [v] := by
  obtain ⟨v, hv, rfl⟩ := Option.map_eq_some_iff.1 h
  intro w hw
  split at hw
  · cases hw
  · next hne =>
    cases List.mem_singleton.1 hw
    unfold value?
    rw [(isSort_between? 3 8).idempotent hv, Option.map_some, if_neg hne]

theorem value?_of_mem_readValues {ts vs rest : List Text} (h : readValues ts = (vs, rest)) :
    ∀ v ∈ vs, value? v = some [v] := by
  induction ts generalizing vs with
  | nil =>
    cases h
    simp
  | cons s ts ih =>
    rw [readValues] at h
    split at h
    · next w hw =>
      dsimp only at h
      cases h
      intro v hv
      rcases List.mem_append.1 hv with hv | hv
      · exact value?_of_value? hw v hv
      · exact ih rfl v hv
    · cases h
      simp

theorem canonicalRow_of_readKeywords {fuel : Nat} {seen ks : List Keyword} {ts rest : List Text}
    (h : readKeywords fuel seen ts = .ok (ks, rest)) (hseen : Keyword.CanonicalRow keywordKey? seen) :
    Keyword.CanonicalRow keywordKey? ks := by
  induction fuel generalizing seen ts with
  | zero =>
    cases h
    exact hseen
  | succ fuel ih =>
    cases ts with
    | nil =>
      cases h
      exact hseen
    | cons s ts =>
      rw [readKeywords] at h
      split at h
      · split at h
        · cases h
        · next key hkey =>
          refine ih h (hseen.insertKeyword ⟨?_, ?_⟩)
          · exact isSort_keywordKey?.idempotent hkey
          · exact value?_of_mem_readValues rfl
      · cases h
        exact hseen

theorem canonicalRow_of_readFields {fuel : Nat} {seen ks : List Keyword} {ts rest : List Text}
    (h : readFields fuel seen ts = .ok (ks, rest)) (hseen : Keyword.CanonicalRow fieldKey? seen) :
    Keyword.CanonicalRow fieldKey? ks := by
  induction fuel generalizing seen ts with
  | zero =>
    cases h
    exact hseen
  | succ fuel ih =>
    cases ts with
    | nil =>
      cases h
      exact hseen
    | cons s ts =>
      rw [readFields] at h
      split at h
      · cases h
        exact hseen
      · next key hkey =>
        split at h
        · refine ih h (hseen.insertKeyword ⟨?_, ?_⟩)
          · exact isSort_fieldKey?.idempotent hkey
          · exact value?_of_mem_readValues rfl
        · cases h

/-! ## Attributes and other extensions -/

theorem of_readAttributes {seen ts as rest : List Text} (h : readAttributes seen ts = (as, rest))
    (hseen : ∀ a ∈ seen, between? 3 8 a = some a)
    (hincreasing : seen.Pairwise fun a b => Text.blt a b = true) :
    (∀ a ∈ as, between? 3 8 a = some a) ∧ as.Pairwise fun a b => Text.blt a b = true := by
  induction ts generalizing seen with
  | nil =>
    cases h
    exact ⟨hseen, hincreasing⟩
  | cons s ts ih =>
    rw [readAttributes] at h
    split at h
    · next a ha =>
      cases hinsert : insertNew? a seen with
      | none =>
        rw [hinsert] at h
        exact ih h hseen hincreasing
      | some seen' =>
        rw [hinsert] at h
        refine ih h ?_ (increasing_of_insertNew? hinsert hincreasing)
        intro b hb
        rcases List.mem_cons.1 ((perm_of_insertNew? hinsert).mem_iff.1 hb) with rfl | hb
        · exact (isSort_between? 3 8).idempotent ha
        · exact hseen b hb
    · cases h
      exact ⟨hseen, hincreasing⟩

theorem between?_of_readOtherTags {ts tags rest : List Text} (h : readOtherTags ts = (tags, rest)) :
    ∀ t ∈ tags, between? 2 8 t = some t := by
  induction ts generalizing tags with
  | nil =>
    cases h
    simp
  | cons s ts ih =>
    rw [readOtherTags] at h
    split at h
    · dsimp only at h
      cases h
      intro t ht
      rcases List.mem_append.1 ht with ht | ht
      · exact (isSort_between? 2 8).idempotent (Option.mem_toList.1 ht)
      · exact ih rfl t ht
    · cases h
      simp

theorem mem_of_mem_insertOther {o p : Char × List Text} {os : List (Char × List Text)}
    (h : p ∈ insertOther o os) : p = o ∨ p ∈ os := by
  induction os with
  | nil => exact .inl (List.mem_singleton.1 h)
  | cons q os ih =>
    rw [insertOther] at h
    split at h
    · exact List.mem_cons.1 h
    · rcases List.mem_cons.1 h with rfl | h
      · exact .inr List.mem_cons_self
      · exact (ih h).imp_right (List.mem_cons_of_mem q)

theorem increasing_insertOther {o : Char × List Text} {os : List (Char × List Text)}
    (hnew : ∀ p ∈ os, p.1 ≠ o.1) (h : os.Pairwise fun o p => o.1.toNat < p.1.toNat) :
    (insertOther o os).Pairwise fun o p => o.1.toNat < p.1.toNat := by
  induction os with
  | nil => exact List.pairwise_singleton _ _
  | cons q os ih =>
    rw [insertOther]
    split
    · next hlt => exact pairwise_cons_first Nat.lt_trans hlt h
    · next hlt =>
      have hne : q.1.toNat ≠ o.1.toNat := fun heq =>
        hnew q List.mem_cons_self (Char.toNat_inj.1 heq)
      have hqo : q.1.toNat < o.1.toNat := by omega
      exact pairwise_cons_inserted hqo h (fun _ => mem_of_mem_insertOther)
        (ih (fun p hp => hnew p (List.mem_cons_of_mem q hp)) h.of_cons)

theorem sort_of_mem_mapM {sort : Text → Option Text} (hsort : IsSort sort) {ts us : List Text}
    (h : ts.mapM sort = some us) : ∀ u ∈ us, sort u = some u := by
  induction ts generalizing us with
  | nil =>
    cases h
    simp
  | cons t ts ih =>
    rw [List.mapM_cons] at h
    obtain ⟨v, hv, h⟩ := Option.bind_eq_some_iff.1 h
    obtain ⟨vs, hvs, h⟩ := Option.bind_eq_some_iff.1 h
    cases h
    intro u hu
    rcases List.mem_cons.1 hu with rfl | hu
    · exact hsort.idempotent hv
    · exact ih hvs u hu

/-! ## Extensions -/

/-- The part of `readTransform` behind the language. -/
def Locale.finishTransform (e : Extensions) (language : Option LanguageId) (ts : List Text) :
    Except LocaleError (Extensions × List Text) := do
  let (fields, rest) ← readFields (ts.length + 1) [] ts
  if language.isNone && fields.isEmpty then .error .invalidExtension
  else .ok ({ e with transformLanguage := language, transformFields := fields }, rest)

theorem Locale.readTransform_eq (e : Extensions) (ts : List Text) :
    readTransform e ts =
      if ((ts.take 1).any fun s => (language? s).isSome) = true then
        readLanguageId ts >>= fun p => finishTransform e (some p.1) p.2
      else finishTransform e none ts :=
  rfl

namespace Extensions.Canonical

variable {e e' : Extensions} {ts rest : List Text}

theorem of_readUnicode (he : e.Canonical) (h : readUnicode e ts = .ok (e', rest)) :
    e'.Canonical := by
  obtain ⟨⟨ks, rest'⟩, hks, h⟩ := Markup.bind_eq_ok_iff.1 h
  dsimp only at h
  split at h
  · cases h
  · cases h
    obtain ⟨ha, hai⟩ := of_readAttributes (Prod.eta (readAttributes [] ts)).symm (by simp) .nil
    exact { he with
      attributes := ha
      attributesIncrease := hai
      keywords := canonicalRow_of_readKeywords hks .nil }

theorem of_finishTransform {language : Option LanguageId} (he : e.Canonical)
    (hlanguage : ∀ id ∈ language, id.Canonical)
    (h : finishTransform e language ts = .ok (e', rest)) : e'.Canonical := by
  obtain ⟨⟨fields, rest'⟩, hfields, h⟩ := Markup.bind_eq_ok_iff.1 h
  dsimp only at h
  split at h
  · cases h
  · cases h
    exact { he with
      transformLanguage := hlanguage
      transformFields := canonicalRow_of_readFields hfields .nil }

theorem of_readTransform (he : e.Canonical) (h : readTransform e ts = .ok (e', rest)) :
    e'.Canonical := by
  rw [readTransform_eq] at h
  split at h
  · obtain ⟨⟨id, after⟩, hid, h⟩ := Markup.bind_eq_ok_iff.1 h
    refine he.of_finishTransform ?_ h
    rintro _ ⟨⟩
    exact (of_readLanguageId hid).1
  · exact he.of_finishTransform (by simp) h

theorem of_readPrivate (he : e.Canonical) (h : readPrivate e ts = .ok (e', rest)) :
    e'.Canonical := by
  unfold readPrivate at h
  split at h
  · next tags htags =>
    split at h
    · cases h
    · cases h
      exact { he with privateTags := sort_of_mem_mapM (isSort_between? 1 8) htags }
  · cases h

theorem of_readOther {letter : Char} (he : e.Canonical) (hletter : Text.isAsciiLetter letter = true)
    (hlower : letter.toLower = letter) (hu : letter ≠ 'u') (ht : letter ≠ 't') (hx : letter ≠ 'x')
    (hnew : hasExtension e letter = false) (h : readOther letter e ts = .ok (e', rest)) :
    e'.Canonical := by
  unfold readOther at h
  dsimp only at h
  split at h
  · cases h
  · next hne =>
    cases h
    have hnew' : ∀ o ∈ e.others, o.1 ≠ letter := by
      intro o ho heq
      simp only [hasExtension, hu, ht, hx, if_false] at hnew
      exact List.any_eq_false.1 hnew o ho (beq_iff_eq.2 heq)
    refine { he with others := ?_, othersIncrease := increasing_insertOther hnew' he.othersIncrease }
    intro o ho
    rcases mem_of_mem_insertOther ho with rfl | ho
    · exact ⟨hletter, hlower, hu, ht, hx, by simpa using hne,
        between?_of_readOtherTags (Prod.eta (readOtherTags ts)).symm⟩
    · exact he.others o ho

theorem of_readExtension {letter : Char} (he : e.Canonical)
    (hletter : Text.isAsciiLetter letter = true) (hlower : letter.toLower = letter)
    (h : readExtension letter e ts = .ok (e', rest)) : e'.Canonical := by
  unfold readExtension at h
  split at h
  · cases h
  · next hnew =>
    split at h
    · exact he.of_readUnicode h
    · next hu =>
      split at h
      · exact he.of_readTransform h
      · next ht =>
        split at h
        · exact he.of_readPrivate h
        · next hx =>
          exact he.of_readOther hletter hlower hu ht hx (Bool.eq_false_iff.2 hnew) h

theorem of_readExtensions {fuel : Nat} (he : e.Canonical)
    (h : readExtensions fuel e ts = .ok e') : e'.Canonical := by
  induction fuel generalizing e ts with
  | zero =>
    cases ts <;> cases h <;> exact he
  | succ fuel ih =>
    cases ts with
    | nil =>
      cases h
      exact he
    | cons s ts =>
      unfold readExtensions at h
      split at h
      · next c =>
        split at h
        · next hc =>
          obtain ⟨⟨e'', rest⟩, hread, h⟩ := Markup.bind_eq_ok_iff.1 h
          refine ih (he.of_readExtension ?_ ?_ hread) h
          · rw [Text.isAsciiLetter_toLower, hc]
          · exact Text.toLower_toLower c
        · cases h
      · cases h

theorem empty : ({} : Extensions).Canonical where
  attributes := by simp
  attributesIncrease := .nil
  keywords := .nil
  transformLanguage := by simp
  transformFields := .nil
  privateTags := by simp
  others := by simp
  othersIncrease := .nil

end Extensions.Canonical

/-- What is read as a locale is canonical. -/
theorem Locale.Canonical.of_ofSubtags {ts : List Text} {l : Locale} (h : ofSubtags ts = .ok l) :
    l.Canonical := by
  obtain ⟨rest, hid, -, hextensions⟩ := Locale.of_ofSubtags h
  exact ⟨(of_readLanguageId hid).1, Extensions.Canonical.empty.of_readExtensions hextensions⟩

end Phrasebook
