import Phrasebook.Proofs.Documents

/-!
Reading back what was written, construct by construct: a text (`readEvent_text`), a comment
(`readEvent_comment`), an end tag (`readEvent_endTag`), a start tag with its attributes
(`readEvent_start`, `readElement_append`) and the content of a raw text element (`readRaw_append`) are
read as they were written, whatever follows them.

A text ends where a tag or a comment starts. No character of what follows can turn the end of a text
into such a start, since what follows starts with `<` (`IsOpener.isPrefix_of_append_cons`).
-/

namespace Phrasebook

namespace Text

theorem takeWhile_append_cons {p : Char → Bool} {w : Text} {c : Char} (hw : ∀ a ∈ w, p a = true)
    (hc : p c = false) (t : Text) :
    (w ++ c :: t).takeWhile p = w ∧ (w ++ c :: t).dropWhile p = c :: t := by
  constructor
  · rw [List.takeWhile_append_of_pos hw]
    simp [hc]
  · rw [List.dropWhile_append_of_pos hw]
    simp [hc]

/-- A text that does not have `c` behind its first character does not reach beyond a `c`. -/
theorem isPrefix_of_append_cons {w s t : Text} {c : Char} (hs : s ≠ []) (hc : c ∉ w.tail)
    (h : w <+: s ++ c :: t) : w <+: s := by
  rcases List.prefix_or_prefix_of_prefix h (List.prefix_append s (c :: t)) with h' | ⟨v, rfl⟩
  · exact h'
  · cases v with
    | nil =>
      exact ⟨[], by simp⟩
    | cons d v =>
      rw [List.prefix_append_right_inj, List.cons_prefix_cons] at h
      obtain ⟨rfl, -⟩ := h
      obtain ⟨a, s, rfl⟩ := List.exists_cons_of_ne_nil hs
      exact absurd (by simp) hc

theorem lowerAscii_append (s t : Text) : lowerAscii (s ++ t) = lowerAscii s ++ lowerAscii t :=
  List.map_append

/-- A split at the first place where the mark stands. -/
theorem splitAt?_append {mark before rest : Text}
    (h : ∀ a s, before = a ++ s → s ≠ [] → ¬ mark <+: s ++ (mark ++ rest)) :
    splitAt? mark (before ++ (mark ++ rest)) = some (before, rest) := by
  induction before with
  | nil =>
    have hd := dropLeading?_append mark rest
    rw [List.nil_append]
    cases hm : mark ++ rest with
    | nil =>
      rw [hm] at hd
      simp [splitAt?, hd]
    | cons c t =>
      rw [hm] at hd
      simp [splitAt?, hd]
  | cons c before ih =>
    have hhere := h [] (c :: before) rfl (by simp)
    have hrest := ih fun a s hs hne => h (c :: a) s (by rw [hs]; rfl) hne
    rw [← startsWith_iff, startsWith, Bool.not_eq_true, Option.isSome_eq_false_iff,
      Option.isNone_iff_eq_none] at hhere
    rw [List.cons_append] at hhere ⊢
    rw [splitAt?, hhere, hrest]
    rfl

theorem splitAt?_char {c : Char} {before : Text} (h : c ∉ before) (rest : Text) :
    splitAt? [c] (before ++ c :: rest) = some (before, rest) := by
  show splitAt? [c] (before ++ ([c] ++ rest)) = _
  apply splitAt?_append
  intro a s hs hne hp
  obtain ⟨d, s, rfl⟩ := List.exists_cons_of_ne_nil hne
  obtain ⟨rfl, -⟩ := List.cons_prefix_cons.1 hp
  exact h (by simp [hs])

theorem not_isInfix_of_splitAt? {mark t before rest : Text} (hm : mark ≠ [])
    (h : splitAt? mark t = some (before, rest)) : ¬ mark <:+: before := by
  induction t generalizing before with
  | nil =>
    obtain ⟨r, -, he⟩ := Option.map_eq_some_iff.1 h
    cases he
    rw [List.infix_nil]
    exact hm
  | cons c t ih =>
    unfold splitAt? at h
    split at h
    · cases h
      rw [List.infix_nil]
      exact hm
    · next hd =>
      obtain ⟨⟨b, r⟩, hb, he⟩ := Option.map_eq_some_iff.1 h
      cases he
      rw [List.infix_cons_iff]
      rintro (hp | hi)
      · have hp' : mark <+: c :: t := by
          rw [eq_of_splitAt? hb, List.append_assoc]
          exact hp.trans (List.prefix_append (c :: b) _)
        rw [← startsWith_iff, startsWith, hd] at hp'
        cases hp'
      · exact ih hb hi

end Text

namespace Markup

/-- The texts with which tags and comments start. -/
def IsOpener (w : Text) : Prop :=
  w = "<!--".toList ∨ ∃ c, Text.isAsciiLetter c = true ∧ (w = ['<', '/', c] ∨ w = ['<', c])

theorem startTagHere_iff {t : Text} :
    startTagHere t = true ↔ ∃ c, Text.isAsciiLetter c = true ∧ ['<', c] <+: t := by
  unfold startTagHere
  split
  · next c t =>
    simp only [List.cons_prefix_cons, List.nil_prefix, true_and, and_true]
    simp
  · next hn =>
    simp only [Bool.false_eq_true, false_iff]
    rintro ⟨c, -, rest, rfl⟩
    exact hn c rest rfl

theorem endTagHere_iff {t : Text} :
    endTagHere t = true ↔ ∃ c, Text.isAsciiLetter c = true ∧ ['<', '/', c] <+: t := by
  unfold endTagHere
  split
  · next c t =>
    simp only [List.cons_prefix_cons, List.nil_prefix, true_and, and_true]
    simp
  · next hn =>
    simp only [Bool.false_eq_true, false_iff]
    rintro ⟨c, -, rest, rfl⟩
    exact hn c rest rfl

theorem atMarkup_iff {t : Text} : atMarkup t = true ↔ ∃ w, IsOpener w ∧ w <+: t := by
  unfold atMarkup atComment
  rw [Bool.or_eq_true, Bool.or_eq_true, Text.startsWith_iff, endTagHere_iff, startTagHere_iff]
  constructor
  · rintro ((h | ⟨c, hc, h⟩) | ⟨c, hc, h⟩)
    · exact ⟨_, .inl rfl, h⟩
    · exact ⟨_, .inr ⟨c, hc, .inl rfl⟩, h⟩
    · exact ⟨_, .inr ⟨c, hc, .inr rfl⟩, h⟩
  · rintro ⟨w, rfl | ⟨c, hc, rfl | rfl⟩, h⟩
    · exact .inl (.inl h)
    · exact .inl (.inr ⟨c, hc, h⟩)
    · exact .inr ⟨c, hc, h⟩

theorem opensMarkup_iff {t : Text} : opensMarkup t = true ↔ ∃ w, IsOpener w ∧ w <:+: t := by
  induction t with
  | nil =>
    simp only [opensMarkup, Bool.false_eq_true, List.infix_nil, false_iff]
    rintro ⟨w, rfl | ⟨c, -, rfl | rfl⟩, h⟩ <;> cases h
  | cons c t ih =>
    rw [opensMarkup, Bool.or_eq_true, atMarkup_iff, ih]
    simp only [List.infix_cons_iff]
    constructor
    · rintro (⟨w, hw, h⟩ | ⟨w, hw, h⟩)
      · exact ⟨w, hw, .inl h⟩
      · exact ⟨w, hw, .inr h⟩
    · rintro ⟨w, hw, h | h⟩
      · exact .inl ⟨w, hw, h⟩
      · exact .inr ⟨w, hw, h⟩

/-- Characters that can stand behind the `<` with which a tag or a comment starts. -/
def isOpenerTail (c : Char) : Bool := c == '!' || c == '-' || c == '/' || Text.isAsciiLetter c

theorem IsOpener.eq_cons {w : Text} (h : IsOpener w) :
    ∃ tail, w = '<' :: tail ∧ tail ≠ [] ∧ ∀ c ∈ tail, isOpenerTail c = true := by
  rcases h with rfl | ⟨c, hc, rfl | rfl⟩
  · exact ⟨"!--".toList, rfl, by decide, List.all_eq_true.1 (by decide)⟩
  · exact ⟨['/', c], rfl, by simp, by simp [isOpenerTail, hc]⟩
  · exact ⟨[c], rfl, by simp, by simp [isOpenerTail, hc]⟩

/-- An opener does not reach beyond a character that cannot stand behind its `<`. -/
theorem IsOpener.isPrefix_of_append_cons {w s t : Text} {c : Char} (hw : IsOpener w) (hs : s ≠ [])
    (hc : isOpenerTail c = false) (h : w <+: s ++ c :: t) : w <+: s := by
  obtain ⟨tail, rfl, -, htail⟩ := hw.eq_cons
  refine Text.isPrefix_of_append_cons hs ?_ h
  intro hmem
  rw [htail c hmem] at hc
  cases hc

theorem atMarkup_append_cons {s : Text} (hs : s ≠ []) {c : Char} (hc : isOpenerTail c = false)
    (t : Text) : atMarkup (s ++ c :: t) = atMarkup s := by
  rw [Bool.eq_iff_iff, atMarkup_iff, atMarkup_iff]
  constructor
  · rintro ⟨w, hw, h⟩
    exact ⟨w, hw, hw.isPrefix_of_append_cons hs hc h⟩
  · rintro ⟨w, hw, h⟩
    exact ⟨w, hw, h.trans (List.prefix_append _ _)⟩

theorem opensMarkup_append_cons {c : Char} (hc : isOpenerTail c = false) (s t : Text) :
    opensMarkup (s ++ c :: t) = (opensMarkup s || opensMarkup (c :: t)) := by
  induction s with
  | nil => rfl
  | cons a s ih =>
    have h := atMarkup_append_cons (s := a :: s) (by simp) hc t
    rw [List.cons_append] at h ⊢
    rw [opensMarkup, h, ih, ← Bool.or_assoc]
    rfl

theorem exists_cons_of_atMarkup {t : Text} (h : atMarkup t = true) : ∃ t', t = '<' :: t' := by
  obtain ⟨w, hw, rest, rfl⟩ := atMarkup_iff.1 h
  obtain ⟨tail, rfl, -⟩ := hw.eq_cons
  exact ⟨tail ++ rest, rfl⟩

/-! ## Texts -/

theorem spanText_append {data rest : Text} (hd : opensMarkup data = false)
    (hr : rest = [] ∨ atMarkup rest = true) : spanText (data ++ rest) = (data, rest) := by
  induction data with
  | nil =>
    rcases hr with rfl | hr
    · rfl
    · obtain ⟨t, rfl⟩ := exists_cons_of_atMarkup hr
      rw [List.nil_append, spanText, if_pos hr]
  | cons c data ih =>
    rw [opensMarkup, Bool.or_eq_false_iff] at hd
    have hhere : atMarkup (c :: data ++ rest) = false := by
      rcases hr with rfl | hr
      · rw [List.append_nil]
        exact hd.1
      · obtain ⟨t, rfl⟩ := exists_cons_of_atMarkup hr
        rw [atMarkup_append_cons (by simp) (by decide)]
        exact hd.1
    rw [List.cons_append] at hhere ⊢
    rw [spanText, hhere, ih hd.2]
    rfl

theorem of_spanText (t : Text) :
    t = (spanText t).1 ++ (spanText t).2 ∧ opensMarkup (spanText t).1 = false := by
  induction t with
  | nil => exact ⟨rfl, rfl⟩
  | cons c t ih =>
    unfold spanText
    split
    · exact ⟨rfl, rfl⟩
    · next hn =>
      dsimp only
      refine ⟨by rw [List.cons_append, ← ih.1], ?_⟩
      rw [opensMarkup, ih.2, Bool.or_false, ← Bool.not_eq_true, atMarkup_iff]
      rintro ⟨w, hw, h⟩
      apply hn
      rw [atMarkup_iff]
      refine ⟨w, hw, ?_⟩
      rw [ih.1]
      exact h.trans (List.prefix_append _ _)

/-! ## Attributes -/

theorem trimStart_cons {c : Char} (h : isBlank c = false) (t : Text) :
    Text.trimStart (c :: t) = c :: t := by
  simp [Text.trimStart, h]

theorem trimStart_space (t : Text) : Text.trimStart (' ' :: t) = Text.trimStart t := by
  simp [Text.trimStart, show isBlank ' ' = true by decide]

theorem trimStart_trimStart (t : Text) : Text.trimStart (Text.trimStart t) = Text.trimStart t := by
  unfold Text.trimStart
  induction t with
  | nil => rfl
  | cons c t ih =>
    by_cases h : isBlank c = true
    · simp [h, ih]
    · simp [h]

theorem readValue_quoteValue {v : Text} (h : ¬ ('"' ∈ v ∧ '\'' ∈ v)) (total : Nat) (rest : Text) :
    readValue total (Template.quoteValue v ++ rest) = .ok (v, rest) := by
  unfold Template.quoteValue
  by_cases hd : '"' ∈ v
  · have hs : '\'' ∉ v := fun hs => h ⟨hd, hs⟩
    simp [hd, hs, readValue, Text.splitAt?_char hs]
  · simp [hd, readValue, Text.splitAt?_char hd]

/-- What follows a name in a tag: it ends the name and gives it no value. -/
def EndsName (rest : Text) : Prop :=
  (∃ c t, rest = c :: t ∧ isNameChar c = false) ∧ (Text.trimStart rest).head? ≠ some '='

theorem isAttributeChar_eq_false {c : Char} (h : isNameChar c = false) :
    isAttributeChar c = false := by
  rw [← Bool.not_eq_true] at h ⊢
  intro ha
  apply h
  simp only [isAttributeChar, Bool.and_eq_true] at ha
  simp [isNameChar, ha.1.1.1, ha.1.2, ha.2]

theorem readAttribute_append {a : Attribute} (hn : IsAttributeName a.name)
    (hq : ∀ v, a.value = some v → ¬ ('"' ∈ v ∧ '\'' ∈ v)) (total : Nat) {rest : Text}
    (hr : EndsName rest) :
    ∃ after, readAttribute total ((Template.attributeText a).drop 1 ++ rest) = .ok (some a, after) ∧
      Text.trimStart after = Text.trimStart rest := by
  obtain ⟨hne, hchars⟩ := hn
  obtain ⟨⟨c, t, rfl, hc⟩, heq⟩ := hr
  have hc := isAttributeChar_eq_false hc
  obtain ⟨name, value⟩ := a
  have hempty : name.isEmpty = false := by simpa using hne
  cases value with
  | none =>
    obtain ⟨htake, hdrop⟩ := Text.takeWhile_append_cons hchars hc t
    refine ⟨Text.trimStart (c :: t), ?_, trimStart_trimStart _⟩
    have htext : (Template.attributeText ⟨name, none⟩).drop 1 ++ c :: t = name ++ c :: t := by
      simp [Template.attributeText]
    rw [htext]
    unfold readAttribute
    simp only [htake, hdrop, hempty, Bool.false_eq_true, if_false]
    split
    · next after h =>
      rw [h] at heq
      exact absurd rfl heq
    · rfl
  | some v =>
    have hv := readValue_quoteValue (hq v rfl) total (c :: t)
    obtain ⟨htake, hdrop⟩ := Text.takeWhile_append_cons (c := '=') hchars (by decide)
      (Template.quoteValue v ++ c :: t)
    refine ⟨c :: t, ?_, rfl⟩
    have htext : (Template.attributeText ⟨name, some v⟩).drop 1 ++ c :: t =
        name ++ '=' :: (Template.quoteValue v ++ c :: t) := by
      simp [Template.attributeText]
    have hquote : Text.trimStart (Template.quoteValue v ++ c :: t) =
        Template.quoteValue v ++ c :: t := by
      unfold Template.quoteValue
      split
      · split
        · exact trimStart_cons (by decide) _
        · exact trimStart_cons (by decide) _
      · exact trimStart_cons (by decide) _
    rw [htext]
    unfold readAttribute
    simp only [htake, hdrop, hempty, Bool.false_eq_true, if_false,
      trimStart_cons (c := '=') (by decide), hquote, hv]
    rfl

theorem readAttributes_congr {t t' : Text} (h : Text.trimStart t = Text.trimStart t')
    (total start fuel : Nat) :
    readAttributes total start fuel t = readAttributes total start fuel t' := by
  cases fuel with
  | zero => rfl
  | succ fuel => rw [readAttributes, readAttributes, h]

section

variable (total start fuel : Nat)

theorem readAttributes_end {t rest : Text} (h : Text.trimStart t = '>' :: rest) :
    readAttributes total start (fuel + 1) t = .ok ([], false, rest) := by
  rw [readAttributes, h]
  rfl

theorem readAttributes_selfClosing {t rest : Text} (h : Text.trimStart t = '/' :: '>' :: rest) :
    readAttributes total start (fuel + 1) t = .ok ([], true, rest) := by
  rw [readAttributes, h]
  rfl

/-- A slash in a tag is skipped unless it closes the element. -/
theorem readAttributes_slash {t rest : Text} (h : Text.trimStart t = '/' :: rest)
    (hr : rest.head? ≠ some '>') :
    readAttributes total start (fuel + 1) t = readAttributes total start fuel rest := by
  rw [readAttributes, h]
  split
  · next he => cases he
  · next he => cases he
  · next he =>
    cases he
    exact absurd rfl hr
  · next he =>
    cases he
    rfl
  · next hn => exact absurd rfl (hn rest)

/-- Any other character starts an attribute or is skipped. -/
theorem readAttributes_other {t after : Text} {c : Char} (h : Text.trimStart t = c :: after)
    (hc : c ≠ '>' ∧ c ≠ '/') :
    readAttributes total start (fuel + 1) t = (do
      let (found, rest) ← readAttribute total (c :: after)
      let (attributes, selfClosing, rest) ← readAttributes total start fuel rest
      .ok (found.toList ++ attributes, selfClosing, rest)) := by
  rw [readAttributes, h]
  split
  · next he => cases he
  · next he => exact absurd (List.cons.inj he).1 hc.1
  · next he => exact absurd (List.cons.inj he).1 hc.2
  · next he => exact absurd (List.cons.inj he).1 hc.2
  · rfl

end

theorem endsName_append (as : List Attribute) (hl : ∀ a ∈ as, IsAttributeName a.name)
    (selfClosing : Bool) (rest : Text) :
    EndsName (as.flatMap Template.attributeText ++ (Template.tagEnd selfClosing ++ rest)) := by
  cases as with
  | nil =>
    cases selfClosing with
    | false =>
      refine ⟨⟨'>', rest, rfl, by decide⟩, ?_⟩
      show (Text.trimStart ('>' :: rest)).head? ≠ _
      rw [trimStart_cons (by decide)]
      simp
    | true =>
      refine ⟨⟨' ', '/' :: '>' :: rest, rfl, by decide⟩, ?_⟩
      show (Text.trimStart (' ' :: '/' :: '>' :: rest)).head? ≠ _
      rw [trimStart_space, trimStart_cons (by decide)]
      simp
  | cons a as =>
    obtain ⟨hne, hchars⟩ := hl a (by simp)
    obtain ⟨c, name, hname⟩ := List.exists_cons_of_ne_nil hne
    have hc := hchars c (by simp [hname])
    simp only [isAttributeChar, Bool.and_eq_true, bne_iff_ne, Bool.not_eq_true'] at hc
    refine ⟨⟨' ', _, rfl, by decide⟩, ?_⟩
    simp only [List.flatMap_cons, Template.attributeText, List.cons_append, trimStart_space, hname]
    rw [trimStart_cons hc.1.1.1]
    simpa using hc.1.1.2

theorem readAttributes_append {as : List Attribute} (hl : ∀ a ∈ as, IsAttributeName a.name)
    (hq : ∀ a ∈ as, ∀ v, a.value = some v → ¬ ('"' ∈ v ∧ '\'' ∈ v)) (total start : Nat)
    (selfClosing : Bool) (rest : Text) {fuel : Nat} (hf : as.length < fuel) :
    readAttributes total start fuel
        (as.flatMap Template.attributeText ++ (Template.tagEnd selfClosing ++ rest)) =
      .ok (as, selfClosing, rest) := by
  induction as generalizing fuel with
  | nil =>
    obtain ⟨fuel, rfl⟩ : ∃ n, fuel = n + 1 := ⟨fuel - 1, by simp at hf; omega⟩
    cases selfClosing with
    | false =>
      exact readAttributes_end total start fuel (trimStart_cons (by decide) rest)
    | true =>
      refine readAttributes_selfClosing total start fuel ?_
      exact (trimStart_space _).trans (trimStart_cons (by decide) _)
  | cons a as ih =>
    obtain ⟨fuel, rfl⟩ : ∃ n, fuel = n + 1 := ⟨fuel - 1, by simp at hf; omega⟩
    have hla : ∀ d ∈ as, IsAttributeName d.name := fun d hd => hl d (by simp [hd])
    have hqa : ∀ d ∈ as, ∀ v, d.value = some v → ¬ ('"' ∈ v ∧ '\'' ∈ v) :=
      fun d hd => hq d (by simp [hd])
    obtain ⟨hne, hchars⟩ := hl a (by simp)
    obtain ⟨c, name, hname⟩ := List.exists_cons_of_ne_nil hne
    have hc := hchars c (by simp [hname])
    simp only [isAttributeChar, Bool.and_eq_true, Bool.not_eq_true', bne_iff_ne] at hc
    obtain ⟨⟨⟨hblank, -⟩, hgt⟩, hslash⟩ := hc
    obtain ⟨after, hread, htrim⟩ := readAttribute_append (hl a (by simp)) (hq a (by simp)) total
      (endsName_append as hla selfClosing rest)
    have hrest := @ih hla hqa fuel (by simp at hf; omega)
    rw [← readAttributes_congr htrim] at hrest
    have htext : (Template.attributeText a).drop 1 ++
        (as.flatMap Template.attributeText ++ (Template.tagEnd selfClosing ++ rest)) =
        c :: ((Template.attributeText a).drop 2 ++
        (as.flatMap Template.attributeText ++ (Template.tagEnd selfClosing ++ rest))) := by
      simp [Template.attributeText, hname]
    have hstart : Text.trimStart ((a :: as).flatMap Template.attributeText ++
        (Template.tagEnd selfClosing ++ rest)) =
        c :: ((Template.attributeText a).drop 2 ++
        (as.flatMap Template.attributeText ++ (Template.tagEnd selfClosing ++ rest))) := by
      rw [← htext]
      simp only [List.flatMap_cons, Template.attributeText, List.cons_append, trimStart_space, hname]
      rw [trimStart_cons hblank]
      simp
    rw [htext] at hread
    rw [readAttributes_other total start fuel hstart ⟨hgt, hslash⟩, hread]
    simp only [bind, Except.bind, hrest]
    rfl

/-! ## Tags and comments -/

theorem length_le_flatMap_attributeText (as : List Attribute) :
    as.length ≤ (as.flatMap Template.attributeText).length := by
  induction as with
  | nil => exact Nat.le_refl _
  | cons a as ih =>
    simp only [List.flatMap_cons, List.length_append, List.length_cons, Template.attributeText,
      List.cons_append]
    omega

theorem readElement_append {tag : Tag} (hl : tag.Legal)
    (hq : ∀ a ∈ tag.attributes, ∀ v, a.value = some v → ¬ ('"' ∈ v ∧ '\'' ∈ v)) (total : Nat)
    (selfClosing : Bool) (rest : Text) :
    ∃ start, readElement total (Template.startText tag ++ (Template.tagEnd selfClosing ++ rest)) =
      if selfClosing || isVoid tag.name then .ok (.empty tag, rest)
      else if isRaw tag.name then
        (readRaw total start tag.name rest).map fun p => (.raw tag p.1, p.2)
      else .ok (.opening tag, rest) := by
  obtain ⟨⟨-, hname⟩, hattrs⟩ := hl
  obtain ⟨⟨c, t, hrest, hc⟩, -⟩ := endsName_append tag.attributes hattrs selfClosing rest
  have hlen : tag.attributes.length < (c :: t).length + 1 := by
    have := length_le_flatMap_attributeText tag.attributes
    rw [← hrest, List.length_append]
    omega
  obtain ⟨htake, hdrop⟩ := Text.takeWhile_append_cons hname hc t
  have hinside : (Template.startText tag ++ (Template.tagEnd selfClosing ++ rest)).drop 1 =
      tag.name ++ c :: t := by
    rw [← hrest]
    simp [Template.startText]
  unfold readElement
  generalize total - Text.byteSize _ = start
  refine ⟨start, ?_⟩
  have hread := readAttributes_append hattrs hq total start selfClosing rest hlen
  rw [hrest] at hread
  simp only [hinside, htake, hdrop, hread, bind, Except.bind]
  cases selfClosing || isVoid tag.name with
  | true => rfl
  | false =>
    cases isRaw tag.name with
    | false => rfl
    | true =>
      cases readRaw total start tag.name rest <;> rfl

theorem startsWith_lowerAscii_take {mark t : Text} :
    Text.startsWith (Text.lowerAscii (t.take mark.length)) mark = true ↔
      mark <+: Text.lowerAscii t := by
  rw [Text.startsWith_iff, Text.lowerAscii, List.map_take, List.prefix_take_iff]
  simp [Text.lowerAscii]

theorem splitBefore_append {mark before rest : Text} (hm : mark <+: Text.lowerAscii rest)
    (hne : rest ≠ [])
    (h : ∀ a s, before = a ++ s → s ≠ [] → ¬ mark <+: Text.lowerAscii (s ++ rest)) :
    splitBeforeIgnoringCase? mark (before ++ rest) = some (before, rest) := by
  induction before with
  | nil =>
    obtain ⟨c, t, rfl⟩ := List.exists_cons_of_ne_nil hne
    rw [List.nil_append, splitBeforeIgnoringCase?, if_pos (startsWith_lowerAscii_take.2 hm)]
  | cons c before ih =>
    have hhere := h [] (c :: before) rfl (by simp)
    have hrest := ih fun a s hs hne => h (c :: a) s (by rw [hs]; rfl) hne
    rw [List.cons_append] at hhere ⊢
    rw [splitBeforeIgnoringCase?, if_neg (fun ht => hhere (startsWith_lowerAscii_take.1 ht)), hrest]
    rfl

/-- The marks of tags do not stand in the name of a raw text element. -/
theorem not_mem_lowerAscii_of_isRaw {name : Text} (h : isRaw name = true) :
    '<' ∉ Text.lowerAscii name ∧ '>' ∉ Text.lowerAscii name := by
  simp only [isRaw, rawNames, List.any_map, List.any_eq_true, List.mem_cons, List.not_mem_nil,
    or_false, Function.comp_apply, Text.eqIgnoringCase, beq_iff_eq] at h
  obtain ⟨r, hr, hname⟩ := h
  rw [hname]
  rcases hr with rfl | rfl | rfl <;> decide

/-- The content of a raw text element ends at the first end tag of its name, in any case and whatever
else the end tag holds. -/
theorem readRaw_of_closing {name content closing : Text} (hraw : isRaw name = true)
    (hc : ¬ '<' :: '/' :: Text.lowerAscii name <:+: Text.lowerAscii content)
    (hm : '<' :: '/' :: Text.lowerAscii name <+: Text.lowerAscii closing) (hgt : '>' ∉ closing)
    (total start : Nat) (rest : Text) :
    readRaw total start name (content ++ (closing ++ '>' :: rest)) = .ok (content, rest) := by
  have hlt := (not_mem_lowerAscii_of_isRaw hraw).1
  have hsplit : splitBeforeIgnoringCase? ('<' :: '/' :: Text.lowerAscii name)
      (content ++ (closing ++ '>' :: rest)) = some (content, closing ++ '>' :: rest) := by
    apply splitBefore_append
    · rw [Text.lowerAscii_append]
      exact hm.trans (List.prefix_append _ _)
    · simp
    · intro a s hs hne hp
      -- the end tag starts with `<`, which the mark holds only in front
      obtain ⟨more, hmore⟩ := hm
      have hp' : '<' :: '/' :: Text.lowerAscii name <+: Text.lowerAscii s := by
        refine Text.isPrefix_of_append_cons (c := '<')
          (t := '/' :: Text.lowerAscii name ++ more ++ Text.lowerAscii ('>' :: rest)) ?_ ?_ ?_
        · simpa [Text.lowerAscii] using hne
        · simpa using hlt
        · rw [Text.lowerAscii_append, Text.lowerAscii_append, ← hmore] at hp
          simpa using hp
      apply hc
      rw [hs, Text.lowerAscii_append]
      exact hp'.isInfix.trans (List.suffix_append _ _).isInfix
  unfold readRaw
  rw [hsplit]
  simp only [Text.splitAt?_char hgt rest]

theorem readRaw_append {name content : Text} (hraw : isRaw name = true)
    (hc : ¬ '<' :: '/' :: Text.lowerAscii name <:+: Text.lowerAscii content) (total start : Nat)
    (rest : Text) :
    readRaw total start name (content ++ ("</".toList ++ name ++ ['>'] ++ rest)) =
      .ok (content, rest) := by
  have hgt : '>' ∉ "</".toList ++ name := by
    intro hmem
    simp only [List.mem_append] at hmem
    rcases hmem with hmem | hmem
    · exact absurd hmem (by decide)
    · exact (not_mem_lowerAscii_of_isRaw hraw).2 (List.mem_map.2 ⟨'>', hmem, by decide⟩)
  have hclosing : '<' :: '/' :: Text.lowerAscii name <+: Text.lowerAscii ("</".toList ++ name) := by
    simp [Text.lowerAscii]
  have hread := readRaw_of_closing hraw hc hclosing hgt total start rest
  simpa using hread

theorem readEndTag_append {name : Text} (hn : ∀ c ∈ name, isNameChar c = true) (total : Nat)
    (rest : Text) :
    readEndTag total ("</".toList ++ name ++ ['>'] ++ rest) = .ok (.closing name, rest) := by
  obtain ⟨htake, hdrop⟩ := Text.takeWhile_append_cons (c := '>') hn (by decide) rest
  have hinside : ("</".toList ++ name ++ ['>'] ++ rest).drop 2 = name ++ '>' :: rest := by
    simp
  have hsplit := @Text.splitAt?_char '>' [] (by simp) rest
  unfold readEndTag
  simp only [hinside, htake, hdrop]
  rw [List.nil_append] at hsplit
  rw [hsplit]

theorem readComment_append {data : Text} (hd : ¬ "-->".toList <:+: data) (total : Nat) (rest : Text) :
    readComment total ("<!--".toList ++ data ++ "-->".toList ++ rest) = .ok (.comment data, rest) := by
  have hinside : ("<!--".toList ++ data ++ "-->".toList ++ rest).drop 4 =
      data ++ ("-->".toList ++ rest) := by
    simp
  have hsplit : Text.splitAt? "-->".toList (data ++ ("-->".toList ++ rest)) = some (data, rest) := by
    apply Text.splitAt?_append
    intro a s hs hne hp
    match s, hne with
    | [c], _ => simp at hp
    | [c, d], _ => simp at hp
    | c :: d :: e :: s, _ =>
      apply hd
      rw [hs]
      have hp' : "-->".toList <+: c :: d :: e :: s := by
        simpa using hp
      exact hp'.isInfix.trans (List.suffix_append _ _).isInfix
  unfold readComment
  rw [hinside, hsplit]

/-! ## Events -/

theorem IsTagName.eq_cons {name : Text} (h : IsTagName name) :
    ∃ c t, name = c :: t ∧ Text.isAsciiLetter c = true := by
  obtain ⟨hc, -⟩ := h
  cases name with
  | nil => cases hc
  | cons c t => exact ⟨c, t, rfl, hc⟩

/-! What starts at a place decides how it is read; at most one of the three does. -/

section

variable {t : Text} (total : Nat)

theorem readEvent_of_atComment (h : atComment t = true) : readEvent total t = readComment total t := by
  unfold readEvent
  rw [if_pos h]

theorem readEvent_of_endTagHere (h : endTagHere t = true) : readEvent total t = readEndTag total t := by
  obtain ⟨c, -, s, rfl⟩ := endTagHere_iff.1 h
  have hcomment : ¬ atComment ('<' :: '/' :: c :: s) = true := by
    rw [atComment, Text.startsWith_iff]
    intro hp
    obtain ⟨-, hp⟩ := List.cons_prefix_cons.1 hp
    exact absurd (List.cons_prefix_cons.1 hp).1 (by decide)
  unfold readEvent
  exact (if_neg hcomment).trans (if_pos h)

theorem readEvent_of_startTagHere (h : startTagHere t = true) :
    readEvent total t = readElement total t := by
  obtain ⟨c, hc, s, rfl⟩ := startTagHere_iff.1 h
  have hcomment : ¬ atComment (['<', c] ++ s) = true := by
    rw [atComment, Text.startsWith_iff]
    intro hp
    obtain ⟨-, hp⟩ := List.cons_prefix_cons.1 hp
    obtain ⟨rfl, -⟩ := List.cons_prefix_cons.1 hp
    exact absurd hc (by decide)
  have hend : ¬ endTagHere (['<', c] ++ s) = true := by
    rw [endTagHere_iff]
    rintro ⟨d, -, hp⟩
    obtain ⟨-, hp⟩ := List.cons_prefix_cons.1 hp
    obtain ⟨rfl, -⟩ := List.cons_prefix_cons.1 hp
    exact absurd hc (by decide)
  unfold readEvent
  rw [if_neg hcomment, if_neg hend, if_pos h]

theorem readEvent_of_not_atMarkup (h : ¬ atMarkup t = true) :
    readEvent total t = .ok (.text (spanText t).1, (spanText t).2) := by
  simp only [atMarkup, Bool.or_eq_true, not_or] at h
  unfold readEvent
  rw [if_neg h.1.1, if_neg h.1.2, if_neg h.2]

end

theorem readEvent_text {data : Text} (hne : data ≠ []) (hd : opensMarkup data = false) {rest : Text}
    (hr : rest = [] ∨ atMarkup rest = true) (total : Nat) :
    readEvent total (data ++ rest) = .ok (.text data, rest) := by
  have hspan := spanText_append hd hr
  obtain ⟨c, data, rfl⟩ := List.exists_cons_of_ne_nil hne
  have hat : ¬ atMarkup (c :: data ++ rest) = true := by
    rw [List.cons_append] at hspan ⊢
    unfold spanText at hspan
    split at hspan
    · cases hspan
    · next h => exact h
  rw [readEvent_of_not_atMarkup total hat, hspan]

theorem readEvent_comment {data : Text} (hd : ¬ "-->".toList <:+: data) (total : Nat) (rest : Text) :
    readEvent total ("<!--".toList ++ data ++ "-->".toList ++ rest) = .ok (.comment data, rest) := by
  have hat : atComment ("<!--".toList ++ data ++ "-->".toList ++ rest) = true := by
    unfold atComment
    rw [Text.startsWith_iff, List.append_assoc, List.append_assoc]
    exact List.prefix_append _ _
  rw [readEvent_of_atComment total hat, readComment_append hd]

theorem readEvent_endTag {name : Text} (hn : IsTagName name) (total : Nat) (rest : Text) :
    readEvent total ("</".toList ++ name ++ ['>'] ++ rest) = .ok (.closing name, rest) := by
  have hread := readEndTag_append hn.2 total rest
  obtain ⟨c, t, rfl, hc⟩ := hn.eq_cons
  have hend : endTagHere ("</".toList ++ (c :: t) ++ ['>'] ++ rest) = true := hc
  rw [readEvent_of_endTagHere total hend, hread]

theorem readEvent_start {tag : Tag} (hn : IsTagName tag.name) (total : Nat) (rest : Text) :
    readEvent total (Template.startText tag ++ rest) =
      readElement total (Template.startText tag ++ rest) := by
  obtain ⟨c, t, hname, hc⟩ := hn.eq_cons
  have htext : Template.startText tag ++ rest =
      '<' :: c :: (t ++ tag.attributes.flatMap Template.attributeText ++ rest) := by
    simp [Template.startText, hname]
  have hstart : startTagHere (Template.startText tag ++ rest) = true := by
    rw [htext]
    exact hc
  exact readEvent_of_startTagHere total hstart

end Markup

end Phrasebook
