import Phrasebook.Proofs.CanonicalLocales

/-!
The readers of locale codes do not see the case of letters. Lower case in what a reader is given is lower
case in what it leaves, and nothing else changes (`lowerRest`):

    read (ts in lower case)  =  read ts, with the rest in lower case

So codes with the same tags, which differ in case and in the separators at most, denote the same locale
(`parse_eq_of_tags_eq`).
-/

namespace Phrasebook

namespace Locale

open Subtag

/-- What a reader has read, with the rest in lower case. -/
def lowerRest {α : Type} (p : α × List Text) : α × List Text := (p.1, p.2.map Text.lowerAscii)

theorem map_bind {α β γ ε : Type} (x : Except ε α) (f : α → Except ε β) (g : β → γ) :
    (x >>= f).map g = x >>= fun a => (f a).map g := by
  cases x <;> rfl

theorem bind_map {α β γ ε : Type} (x : Except ε α) (f : α → β) (g : β → Except ε γ) :
    x.map f >>= g = x >>= fun a => g (f a) := by
  cases x <;> rfl

/-! ## Languages -/

theorem takeSubtag_map_lowerAscii {sort : Text → Option Text} (hsort : IsSort sort)
    (ts : List Text) :
    takeSubtag sort (ts.map Text.lowerAscii) = lowerRest (takeSubtag sort ts) := by
  cases ts with
  | nil => rfl
  | cons s ts =>
    rw [List.map_cons, takeSubtag, takeSubtag, hsort.sort_lowerAscii]
    cases sort s <;> rfl

theorem readVariants_map_lowerAscii (seen ts : List Text) :
    readVariants seen (ts.map Text.lowerAscii) = (readVariants seen ts).map lowerRest := by
  induction ts generalizing seen with
  | nil => rfl
  | cons s ts ih =>
    rw [List.map_cons, readVariants, readVariants, isSort_variant?.sort_lowerAscii]
    cases variant? s with
    | none => rfl
    | some v =>
      simp only
      cases insertNew? v seen with
      | none => rfl
      | some seen => exact ih seen

theorem readLanguageId_map_lowerAscii (ts : List Text) :
    readLanguageId (ts.map Text.lowerAscii) = (readLanguageId ts).map lowerRest := by
  cases ts with
  | nil => rfl
  | cons s ts =>
    rw [List.map_cons, readLanguageId, readLanguageId, isSort_language?.sort_lowerAscii]
    cases language? s with
    | none => rfl
    | some language =>
      simp only [takeSubtag_map_lowerAscii isSort_script?, takeSubtag_map_lowerAscii isSort_region?,
        readVariants_map_lowerAscii, lowerRest, map_bind, bind_map]
      rfl

/-! ## Keywords, fields and attributes -/

theorem value?_lowerAscii (s : Text) : value? (Text.lowerAscii s) = value? s := by
  rw [value?, value?, (isSort_between? 3 8).sort_lowerAscii]

theorem readValues_map_lowerAscii (ts : List Text) :
    readValues (ts.map Text.lowerAscii) = lowerRest (readValues ts) := by
  induction ts with
  | nil => rfl
  | cons s ts ih =>
    rw [List.map_cons, readValues, readValues, value?_lowerAscii]
    cases value? s with
    | none => rfl
    | some v => simp only [ih, lowerRest]

theorem readKeywords_map_lowerAscii (fuel : Nat) (seen : List Keyword) (ts : List Text) :
    readKeywords fuel seen (ts.map Text.lowerAscii) =
      (readKeywords fuel seen ts).map lowerRest := by
  induction fuel generalizing seen ts with
  | zero => rfl
  | succ fuel ih =>
    cases ts with
    | nil => rfl
    | cons s ts =>
      rw [List.map_cons, readKeywords, readKeywords, Text.byteSize_lowerAscii,
        isSort_keywordKey?.sort_lowerAscii]
      split
      · cases keywordKey? s with
        | none => rfl
        | some key => simp only [readValues_map_lowerAscii, lowerRest, ih]
      · rfl

theorem any_take_map_lowerAscii {p : Text → Bool} (h : ∀ s, p (Text.lowerAscii s) = p s)
    (ts : List Text) : ((ts.map Text.lowerAscii).take 1).any p = (ts.take 1).any p := by
  cases ts with
  | nil => rfl
  | cons s ts => simp [h]

theorem readFields_map_lowerAscii (fuel : Nat) (seen : List Keyword) (ts : List Text) :
    readFields fuel seen (ts.map Text.lowerAscii) = (readFields fuel seen ts).map lowerRest := by
  induction fuel generalizing seen ts with
  | zero => rfl
  | succ fuel ih =>
    cases ts with
    | nil => rfl
    | cons s ts =>
      rw [List.map_cons, readFields, readFields, isSort_fieldKey?.sort_lowerAscii]
      cases fieldKey? s with
      | none => rfl
      | some key =>
        simp only
        rw [any_take_map_lowerAscii fun t => by rw [value?_lowerAscii]]
        split
        · simp only [readValues_map_lowerAscii, lowerRest, ih]
        · rfl

theorem readAttributes_map_lowerAscii (seen ts : List Text) :
    readAttributes seen (ts.map Text.lowerAscii) = lowerRest (readAttributes seen ts) := by
  induction ts generalizing seen with
  | nil => rfl
  | cons s ts ih =>
    rw [List.map_cons, readAttributes, readAttributes, (isSort_between? 3 8).sort_lowerAscii]
    cases between? 3 8 s with
    | none => rfl
    | some a => exact ih _

/-! ## Extensions -/

theorem readUnicode_map_lowerAscii (e : Extensions) (ts : List Text) :
    readUnicode e (ts.map Text.lowerAscii) = (readUnicode e ts).map lowerRest := by
  unfold readUnicode
  simp only [readAttributes_map_lowerAscii, lowerRest, List.length_map, readKeywords_map_lowerAscii,
    map_bind, bind_map]
  congr 1
  funext p
  rw [apply_ite (Except.map lowerRest)]
  rfl

theorem finishTransform_map_lowerAscii (e : Extensions) (language : Option LanguageId)
    (ts : List Text) :
    finishTransform e language (ts.map Text.lowerAscii) =
      (finishTransform e language ts).map lowerRest := by
  unfold finishTransform
  simp only [List.length_map, readFields_map_lowerAscii, map_bind, bind_map, lowerRest]
  congr 1
  funext p
  rw [apply_ite (Except.map lowerRest)]
  rfl

theorem readTransform_map_lowerAscii (e : Extensions) (ts : List Text) :
    readTransform e (ts.map Text.lowerAscii) = (readTransform e ts).map lowerRest := by
  rw [readTransform_eq, readTransform_eq,
    any_take_map_lowerAscii fun t => by rw [isSort_language?.sort_lowerAscii]]
  split
  · simp only [readLanguageId_map_lowerAscii, map_bind, bind_map, lowerRest,
      finishTransform_map_lowerAscii]
  · exact finishTransform_map_lowerAscii e none ts

theorem mapM_map_lowerAscii {sort : Text → Option Text} (hsort : IsSort sort) (ts : List Text) :
    (ts.map Text.lowerAscii).mapM sort = ts.mapM sort := by
  induction ts with
  | nil => rfl
  | cons t ts ih => rw [List.map_cons, List.mapM_cons, List.mapM_cons, hsort.sort_lowerAscii, ih]

theorem readPrivate_map_lowerAscii (e : Extensions) (ts : List Text) :
    readPrivate e (ts.map Text.lowerAscii) = (readPrivate e ts).map lowerRest := by
  unfold readPrivate
  rw [mapM_map_lowerAscii (isSort_between? 1 8)]
  cases ts.mapM (between? 1 8) with
  | none => rfl
  | some tags =>
    simp only
    split <;> rfl

theorem readOtherTags_map_lowerAscii (ts : List Text) :
    readOtherTags (ts.map Text.lowerAscii) = lowerRest (readOtherTags ts) := by
  induction ts with
  | nil => rfl
  | cons s ts ih =>
    rw [List.map_cons, readOtherTags, readOtherTags, Text.byteSize_lowerAscii,
      (isSort_between? 2 8).sort_lowerAscii]
    split
    · simp only [ih, lowerRest]
    · rfl

theorem readOther_map_lowerAscii (letter : Char) (e : Extensions) (ts : List Text) :
    readOther letter e (ts.map Text.lowerAscii) = (readOther letter e ts).map lowerRest := by
  unfold readOther
  simp only [readOtherTags_map_lowerAscii, lowerRest]
  split <;> rfl

theorem readExtension_map_lowerAscii (letter : Char) (e : Extensions) (ts : List Text) :
    readExtension letter e (ts.map Text.lowerAscii) =
      (readExtension letter e ts).map lowerRest := by
  unfold readExtension
  split
  · rfl
  · split
    · exact readUnicode_map_lowerAscii e ts
    · split
      · exact readTransform_map_lowerAscii e ts
      · split
        · exact readPrivate_map_lowerAscii e ts
        · exact readOther_map_lowerAscii letter e ts

theorem readExtensions_map_lowerAscii (fuel : Nat) (e : Extensions) (ts : List Text) :
    readExtensions fuel e (ts.map Text.lowerAscii) = readExtensions fuel e ts := by
  induction fuel generalizing e ts with
  | zero => cases ts <;> rfl
  | succ fuel ih =>
    match ts with
    | [] | [] :: _ | (_ :: _ :: _) :: _ => rfl
    | [c] :: ts =>
      simp only [List.map_cons, Text.lowerAscii, List.map_nil, readExtensions,
        Text.isAsciiLetter_toLower, Text.toLower_toLower]
      split
      · have hread := readExtension_map_lowerAscii c.toLower e ts
        rw [hread, bind_map]
        congr 1
        funext p
        exact ih p.1 p.2
      · rfl

/-! ## Codes -/

theorem ofSubtags_map_lowerAscii (ts : List Text) :
    ofSubtags (ts.map Text.lowerAscii) = ofSubtags ts := by
  unfold ofSubtags
  rw [readLanguageId_map_lowerAscii, bind_map]
  congr 1
  funext p
  obtain ⟨id, rest⟩ := p
  cases rest with
  | nil => rfl
  | cons s rest =>
    have hrest := readExtensions_map_lowerAscii ((s :: rest).length + 1) {} (s :: rest)
    rw [List.map_cons] at hrest
    simp only [lowerRest, List.map_cons, List.length_cons, List.length_map,
      Text.byteSize_lowerAscii] at hrest ⊢
    rw [hrest]

/-- Codes with the same tags are read alike. -/
theorem parse_eq_of_tags_eq {a b : Text} (h : tags a = tags b) : parse a = parse b := by
  unfold parse
  rw [← ofSubtags_map_lowerAscii, ← ofSubtags_map_lowerAscii (Text.splitOn _ b)]
  exact congrArg ofSubtags h

end Locale

end Phrasebook
