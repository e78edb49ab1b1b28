import Phrasebook.Proofs.MarkupEvents

/-!
What follows a construct does not matter for reading it. A reader looks ahead by one character at most
(`Stops`), and the end of a tag, of a comment and of a raw text element is part of it, so the whole
construct is read in the same way wherever it stands (`readAttributes_local`, `readRaw_local`):

    readEvent total t = ok (e, rest)  →  t = used ++ rest, and used is read as e whatever follows it
                                                                    (readEvent_local)

Only a text ends by what follows it.
-/

namespace Phrasebook

namespace Text

/-- What a row of characters is cut into does not depend on what stands behind the first character that
ends it. -/
theorem takeWhile_of_dropWhile {p : Char → Bool} {t w rest : Text} (h : t.dropWhile p = w ++ rest)
    (hw : w ≠ []) (rest' : Text) :
    (t.takeWhile p ++ (w ++ rest')).takeWhile p = t.takeWhile p ∧
      (t.takeWhile p ++ (w ++ rest')).dropWhile p = w ++ rest' := by
  obtain ⟨c, w, rfl⟩ := List.exists_cons_of_ne_nil hw
  have hc : p c = false := by
    have hhead := List.head?_dropWhile_not p t
    rw [h] at hhead
    simpa using hhead
  exact takeWhile_append_cons (fun a ha => List.all_eq_true.1 List.all_takeWhile a ha) hc (w ++ rest')

/-- The first character behind white space is none. -/
theorem isBlank_of_trimStart_eq_cons {t rest : Text} {c : Char} (h : trimStart t = c :: rest) :
    isBlank c = false := by
  have hhead := List.head?_dropWhile_not isBlank t
  unfold trimStart at h
  rw [h] at hhead
  simpa using hhead

theorem trimStart_of_eq {t w rest : Text} (h : trimStart t = w ++ rest) (hw : w ≠ []) (rest' : Text) :
    trimStart (t.takeWhile isBlank ++ (w ++ rest')) = w ++ rest' :=
  (takeWhile_of_dropWhile h hw rest').2

/-- Before the first place of a character it does not stand. -/
theorem not_mem_of_splitAt? {c : Char} {t before rest : Text} (h : splitAt? [c] t = some (before, rest)) :
    c ∉ before := by
  intro hm
  obtain ⟨a, b, rfl⟩ := List.append_of_mem hm
  exact not_isInfix_of_splitAt? (by simp) h ⟨a, b, by simp⟩

theorem eq_of_trimStart {t s : Text} (h : trimStart t = s) : t = t.takeWhile isBlank ++ s := by
  rw [← h]
  exact List.takeWhile_append_dropWhile.symm

end Text

namespace Markup

/-! ## Attributes -/

theorem readValue_local {total : Nat} {t v rest : Text} {c : Char}
    (h : readValue total t = .ok (v, c :: rest)) :
    ∃ used, t = used ++ c :: rest ∧
      ∀ total' rest', readValue total' (used ++ c :: rest') = .ok (v, c :: rest') := by
  unfold readValue at h
  split at h
  · cases h
  · next q s =>
    split at h
    · next hq =>
      split at h
      · next value after hs =>
        cases h
        refine ⟨q :: (v ++ [q]), ?_, ?_⟩
        · rw [Text.eq_of_splitAt? hs]
          simp
        · intro total' rest'
          have hsplit := Text.splitAt?_char (Text.not_mem_of_splitAt? hs) (c :: rest')
          simp only [readValue, List.cons_append, List.append_assoc, List.nil_append]
          rw [if_pos hq, hsplit]
      · cases h
    · next hq =>
      obtain ⟨rfl, hrest⟩ : (q :: s).takeWhile isBareValueChar = v ∧
          (q :: s).dropWhile isBareValueChar = c :: rest := by
        simpa using h
      refine ⟨(q :: s).takeWhile isBareValueChar, ?_, ?_⟩
      · rw [← hrest]
        exact List.takeWhile_append_dropWhile.symm
      · intro total' rest'
        obtain ⟨htake, hdrop⟩ := Text.takeWhile_of_dropWhile (w := [c]) hrest (by simp) rest'
        -- the first character stays the same, and it is no quote
        obtain ⟨s', hs'⟩ : ∃ s', (q :: s).takeWhile isBareValueChar ++ c :: rest' = q :: s' := by
          by_cases hb : isBareValueChar q = true
          · rw [List.takeWhile_cons_of_pos hb]
            exact ⟨_, rfl⟩
          · rw [List.dropWhile_cons_of_neg hb] at hrest
            rw [List.takeWhile_cons_of_neg hb, (List.cons.inj hrest).1]
            exact ⟨_, rfl⟩
        rw [List.singleton_append, hs'] at htake hdrop
        rw [hs']
        simp only [readValue]
        rw [if_neg hq, htake, hdrop]

/-- A name and the white space behind it end at the first character behind them. -/
theorem name_local {p : Char → Bool} {t s : Text} {c : Char}
    (h : Text.trimStart (t.dropWhile p) = c :: s) :
    ∃ blanks, t = t.takeWhile p ++ blanks ++ c :: s ∧ ∀ s',
      (t.takeWhile p ++ blanks ++ c :: s').takeWhile p = t.takeWhile p ∧
      Text.trimStart ((t.takeWhile p ++ blanks ++ c :: s').dropWhile p) = c :: s' := by
  have hblanks := Text.eq_of_trimStart h
  refine ⟨(t.dropWhile p).takeWhile isBlank, ?_, ?_⟩
  · rw [List.append_assoc, ← hblanks]
    exact List.takeWhile_append_dropWhile.symm
  · intro s'
    have hcut : t.dropWhile p = (t.dropWhile p).takeWhile isBlank ++ [c] ++ s := by
      simpa using hblanks
    obtain ⟨htake, hdrop⟩ := Text.takeWhile_of_dropWhile hcut (by simp) s'
    have htext : t.takeWhile p ++ (t.dropWhile p).takeWhile isBlank ++ c :: s' =
        t.takeWhile p ++ ((t.dropWhile p).takeWhile isBlank ++ [c] ++ s') := by simp
    rw [htext, htake, hdrop, List.append_assoc]
    exact ⟨rfl, Text.trimStart_of_eq (w := [c]) h (by simp) s'⟩

theorem readAttribute_of_value {t after : Text} (hne : t.takeWhile isAttributeChar ≠ [])
    (h : Text.trimStart (t.dropWhile isAttributeChar) = '=' :: after) (total : Nat) :
    readAttribute total t = (readValue total (Text.trimStart after)).map fun p =>
      (some ⟨t.takeWhile isAttributeChar, some p.1⟩, p.2) := by
  unfold readAttribute
  dsimp only
  rw [h, if_neg (by simpa using hne)]
  show (readValue total (Text.trimStart after) >>= _) = _
  cases readValue total (Text.trimStart after) <;> rfl

theorem readAttribute_of_name {t rest : Text} {c : Char} (hne : t.takeWhile isAttributeChar ≠ [])
    (h : Text.trimStart (t.dropWhile isAttributeChar) = c :: rest) (hc : c ≠ '=') (total : Nat) :
    readAttribute total t = .ok (some ⟨t.takeWhile isAttributeChar, none⟩, c :: rest) := by
  unfold readAttribute
  dsimp only
  rw [h, if_neg (by simpa using hne)]
  split
  · next after he => exact absurd (List.cons.inj he).1 hc
  · rfl

/-- An attribute and the first character behind it. -/
theorem readAttribute_local {total : Nat} {t rest : Text} {found : Option Attribute} {c : Char}
    (h : readAttribute total t = .ok (found, c :: rest)) :
    ∃ used, t = used ++ c :: rest ∧ used ≠ [] ∧
      ∀ total' rest', readAttribute total' (used ++ c :: rest') = .ok (found, c :: rest') := by
  by_cases hne : t.takeWhile isAttributeChar = []
  · -- a character that starts no name is skipped
    have hread : ∀ total s, s.takeWhile isAttributeChar = [] →
        readAttribute total s = .ok (none, s.drop 1) := by
      intro total s hs
      unfold readAttribute
      rw [hs]
      rfl
    rw [hread total t hne] at h
    obtain ⟨rfl, hrest⟩ : none = found ∧ t.drop 1 = c :: rest := by simpa using h
    obtain ⟨a, rfl⟩ : ∃ a, t = a :: c :: rest := by
      cases t with
      | nil => cases hrest
      | cons a t => exact ⟨a, congrArg (a :: ·) hrest⟩
    have ha : ¬ isAttributeChar a = true := by
      intro ha
      rw [List.takeWhile_cons_of_pos ha] at hne
      cases hne
    refine ⟨[a], rfl, by simp, ?_⟩
    intro total' rest'
    exact hread total' _ (List.takeWhile_cons_of_neg ha)
  · have hused : ∀ blanks s, t.takeWhile isAttributeChar ++ blanks ++ s ≠ [] := by simp [hne]
    cases hafter : Text.trimStart (t.dropWhile isAttributeChar) with
    | nil =>
      unfold readAttribute at h
      dsimp only at h
      rw [hafter, if_neg (by simpa using hne)] at h
      cases h
    | cons d after =>
      obtain ⟨blanks, ht, hagain⟩ := name_local hafter
      by_cases hd : d = '='
      · subst hd
        rw [readAttribute_of_value hne hafter] at h
        cases hv : readValue total (Text.trimStart after) with
        | error e =>
          rw [hv] at h
          cases h
        | ok p =>
          obtain ⟨v, behind⟩ := p
          rw [hv] at h
          cases h
          obtain ⟨value, hvalue, hread⟩ := readValue_local hv
          have hafter' := Text.eq_of_trimStart hvalue
          refine ⟨t.takeWhile isAttributeChar ++ blanks ++
            '=' :: (after.takeWhile isBlank ++ value), ?_, hused _ _, ?_⟩
          · rw [List.append_assoc, List.cons_append, List.append_assoc _ value, ← hafter']
            exact ht
          · intro total' rest'
            have htrim : Text.trimStart (after.takeWhile isBlank ++ (value ++ c :: rest')) =
                value ++ c :: rest' := by
              have hcons : Text.trimStart after = (value ++ [c]) ++ rest := by simpa using hvalue
              have htrim := Text.trimStart_of_eq hcons (by simp) rest'
              simpa using htrim
            obtain ⟨htake, hdrop⟩ := hagain (after.takeWhile isBlank ++ (value ++ c :: rest'))
            have htext : t.takeWhile isAttributeChar ++ blanks ++
                '=' :: (after.takeWhile isBlank ++ value) ++ c :: rest' =
                t.takeWhile isAttributeChar ++ blanks ++
                  '=' :: (after.takeWhile isBlank ++ (value ++ c :: rest')) := by simp
            rw [htext, readAttribute_of_value (by rw [htake]; exact hne) hdrop, htake, htrim, hread]
            rfl
      · rw [readAttribute_of_name hne hafter hd] at h
        cases h
        refine ⟨t.takeWhile isAttributeChar ++ blanks, ht, by simp [hne], ?_⟩
        intro total' rest'
        obtain ⟨htake, hdrop⟩ := hagain rest'
        have hread := readAttribute_of_name (by rw [htake]; exact hne) hdrop hd total'
        rw [htake] at hread
        exact hread

/-! ## Tags -/

/-- What a tag holds up to its end is read in the same way whatever follows it. -/
def TagLocal (inside : Text) (as : List Attribute) (selfClosing : Bool) : Prop :=
  ∀ total start rest fuel, inside.length < fuel →
    readAttributes total start fuel (inside ++ '>' :: rest) = .ok (as, selfClosing, rest)

/-- A row that ends in `>` starts with the same character whatever follows it. -/
theorem exists_head_of_end (inside : Text) :
    ∃ d s, ∀ rest, inside ++ '>' :: rest = d :: (s ++ rest) := by
  cases inside with
  | nil => exact ⟨'>', [], fun rest => rfl⟩
  | cons d inside => exact ⟨d, inside ++ ['>'], fun rest => by simp⟩

section TagLocal

variable {blanks inside : Text} {as : List Attribute} {selfClosing : Bool}

theorem trimStart_blanks (hb : ∀ c ∈ blanks, isBlank c = true) {c : Char} (hc : isBlank c = false)
    (t : Text) : Text.trimStart (blanks ++ c :: t) = c :: t := (Text.takeWhile_append_cons hb hc t).2

theorem tagLocal_end (hb : ∀ c ∈ blanks, isBlank c = true) : TagLocal blanks [] false := by
  intro total start rest fuel hf
  obtain ⟨fuel, rfl⟩ : ∃ n, fuel = n + 1 := ⟨fuel - 1, by omega⟩
  exact readAttributes_end total start fuel (trimStart_blanks hb (by decide) rest)

theorem tagLocal_selfClosing (hb : ∀ c ∈ blanks, isBlank c = true) :
    TagLocal (blanks ++ ['/']) [] true := by
  intro total start rest fuel hf
  obtain ⟨fuel, rfl⟩ : ∃ n, fuel = n + 1 := ⟨fuel - 1, by omega⟩
  rw [List.append_assoc]
  exact readAttributes_selfClosing total start fuel (trimStart_blanks hb (by decide) ('>' :: rest))

theorem TagLocal.slash (h : TagLocal inside as selfClosing) (hb : ∀ c ∈ blanks, isBlank c = true)
    (hne : ∀ rest, (inside ++ '>' :: rest).head? ≠ some '>') :
    TagLocal (blanks ++ '/' :: inside) as selfClosing := by
  intro total start rest fuel hf
  simp only [List.length_append, List.length_cons] at hf
  obtain ⟨fuel, rfl⟩ : ∃ n, fuel = n + 1 := ⟨fuel - 1, by omega⟩
  rw [List.append_assoc, List.cons_append,
    readAttributes_slash total start fuel (trimStart_blanks hb (by decide) _) (hne rest)]
  exact h total start rest fuel (by omega)

theorem TagLocal.attribute (h : TagLocal inside as selfClosing)
    (hb : ∀ c ∈ blanks, isBlank c = true) {c : Char} (hc : isBlank c = false)
    (hother : c ≠ '>' ∧ c ≠ '/') {used : Text} {found : Option Attribute}
    (hread : ∀ total rest, readAttribute total (c :: used ++ (inside ++ '>' :: rest)) =
      .ok (found, inside ++ '>' :: rest)) :
    TagLocal (blanks ++ (c :: used ++ inside)) (found.toList ++ as) selfClosing := by
  intro total start rest fuel hf
  simp only [List.length_append, List.length_cons] at hf
  obtain ⟨fuel, rfl⟩ : ∃ n, fuel = n + 1 := ⟨fuel - 1, by omega⟩
  have hrest := h total start rest fuel (by omega)
  rw [List.append_assoc, List.append_assoc, List.cons_append,
    readAttributes_other total start fuel (trimStart_blanks hb hc _) hother, ← List.cons_append, hread]
  simp only [bind, Except.bind, hrest]

end TagLocal

/-- The attributes of a start tag and its end. -/
theorem readAttributes_local {total start fuel : Nat} {t rest : Text} {as : List Attribute}
    {selfClosing : Bool} (h : readAttributes total start fuel t = .ok (as, selfClosing, rest)) :
    ∃ inside, t = inside ++ '>' :: rest ∧ TagLocal inside as selfClosing := by
  induction fuel generalizing t as with
  | zero => cases h
  | succ fuel ih =>
    -- the first character behind the white space decides
    cases hafter : Text.trimStart t with
    | nil =>
      rw [readAttributes, hafter] at h
      cases h
    | cons c after =>
      have ht := Text.eq_of_trimStart hafter
      have hb : ∀ a ∈ t.takeWhile isBlank, isBlank a = true :=
        fun a ha => List.all_eq_true.1 List.all_takeWhile a ha
      by_cases hgt : c = '>'
      · subst hgt
        rw [readAttributes_end total start fuel hafter] at h
        cases h
        exact ⟨_, ht, tagLocal_end hb⟩
      · by_cases hslash : c = '/'
        · subst hslash
          by_cases hclose : after.head? = some '>'
          · obtain ⟨rest₁, rfl⟩ := List.head?_eq_some_iff.1 hclose
            rw [readAttributes_selfClosing total start fuel hafter] at h
            cases h
            exact ⟨_, by simpa using ht, tagLocal_selfClosing hb⟩
          · rw [readAttributes_slash total start fuel hafter hclose] at h
            obtain ⟨inside, rfl, hinside⟩ := ih h
            obtain ⟨d, s, hhead⟩ := exists_head_of_end inside
            refine ⟨t.takeWhile isBlank ++ '/' :: inside, by simpa using ht, hinside.slash hb ?_⟩
            intro rest'
            rw [hhead] at hclose ⊢
            exact hclose
        · rw [readAttributes_other total start fuel hafter ⟨hgt, hslash⟩] at h
          obtain ⟨⟨found, behind⟩, ha, h⟩ := bind_eq_ok_iff.1 h
          obtain ⟨⟨bs, sc, rest'⟩, hbs, h⟩ := bind_eq_ok_iff.1 h
          cases h
          obtain ⟨inside, rfl, hinside⟩ := ih hbs
          -- the attribute ends before the first character of the rest of the tag
          obtain ⟨d, s, hhead⟩ := exists_head_of_end inside
          rw [hhead] at ha
          obtain ⟨used, hused, hne, hread⟩ := readAttribute_local ha
          obtain ⟨u, used, rfl⟩ := List.exists_cons_of_ne_nil hne
          obtain rfl : c = u := (List.cons.inj hused).1
          refine ⟨t.takeWhile isBlank ++ (c :: used ++ inside), ?_, hinside.attribute hb
            (Text.isBlank_of_trimStart_eq_cons hafter) ⟨hgt, hslash⟩ fun total' rest' => ?_⟩
          · rw [List.append_assoc, List.append_assoc, hhead, ← hused]
            exact ht
          · rw [hhead]
            exact hread total' _

/-! ## Raw content -/

theorem isPrefix_of_splitBefore {mark t before rest : Text} (hm : mark ≠ [])
    (h : splitBeforeIgnoringCase? mark t = some (before, rest)) : mark <+: Text.lowerAscii rest := by
  induction t generalizing before with
  | nil =>
    rw [splitBeforeIgnoringCase?, if_neg (by simpa using hm)] at h
    cases h
  | cons c t ih =>
    rw [splitBeforeIgnoringCase?] at h
    split at h
    · next hs =>
      cases h
      exact startsWith_lowerAscii_take.1 hs
    · obtain ⟨⟨b, r⟩, hb, he⟩ := Option.map_eq_some_iff.1 h
      cases he
      exact ih hb

/-- The content of a raw text element and its end tag. -/
theorem readRaw_local {total start : Nat} {name t content rest : Text} (hraw : isRaw name = true)
    (h : readRaw total start name t = .ok (content, rest)) :
    ∃ used, t = used ++ rest ∧ ∀ total' start' rest',
      readRaw total' start' name (used ++ rest') = .ok (content, rest') := by
  have hcontent := (of_readRaw h).2
  unfold readRaw at h
  split at h
  · cases h
  · next before behind hs =>
    split at h
    · cases h
    · next closing after hgt =>
      cases h
      have hbehind : behind = closing ++ '>' :: rest := by simpa using Text.eq_of_splitAt? hgt
      have hmark := isPrefix_of_splitBefore (by simp) hs
      rw [hbehind, Text.lowerAscii_append] at hmark
      have hne : Text.lowerAscii closing ≠ [] := by
        intro he
        rw [he, List.nil_append] at hmark
        exact absurd (List.cons_prefix_cons.1 hmark).1 (by decide)
      -- the mark of the end tag does not reach beyond its `>`
      have hclosing : '<' :: '/' :: Text.lowerAscii name <+: Text.lowerAscii closing := by
        refine Text.isPrefix_of_append_cons (c := '>') hne ?_ hmark
        simpa using (not_mem_lowerAscii_of_isRaw hraw).2
      refine ⟨content ++ (closing ++ ['>']), ?_, ?_⟩
      · rw [(of_splitBefore (by simp) hs).1, hbehind]
        simp
      · intro total' start' rest'
        have hread := readRaw_of_closing hraw hcontent hclosing (Text.not_mem_of_splitAt? hgt) total'
          start' rest'
        simpa using hread

/-! ## Elements -/

/-- A text is a start tag: a name, and then the attributes and the end of the tag. -/
def IsStartTag (written : Text) (tag : Tag) (selfClosing : Bool) : Prop :=
  ∃ inside, written = '<' :: (tag.name ++ (inside ++ ['>'])) ∧ IsTagName tag.name ∧
    (∀ c ∈ (inside ++ ['>']).head?, isNameChar c = false) ∧
    TagLocal inside tag.attributes selfClosing

theorem IsStartTag.startTagHere {written : Text} {tag : Tag} {selfClosing : Bool}
    (h : IsStartTag written tag selfClosing) (rest : Text) : startTagHere (written ++ rest) = true := by
  obtain ⟨inside, rfl, hname, -⟩ := h
  obtain ⟨c, name, hc, hletter⟩ := hname.eq_cons
  rw [hc]
  exact hletter

/-- Reading an element whose start tag is known. -/
theorem IsStartTag.readElement {written : Text} {tag : Tag} {selfClosing : Bool}
    (h : IsStartTag written tag selfClosing) (total : Nat) (rest : Text) :
    Markup.readElement total (written ++ rest) =
      if selfClosing || isVoid tag.name then .ok (.empty tag, rest)
      else if isRaw tag.name then
        (readRaw total (total - Text.byteSize (written ++ rest)) tag.name rest).map fun p =>
          (.raw tag p.1, p.2)
      else .ok (.opening tag, rest) := by
  obtain ⟨inside, rfl, ⟨-, hname⟩, hend, hinside⟩ := h
  obtain ⟨d, s, hhead⟩ := exists_head_of_end inside
  have hd : isNameChar d = false := by
    have hone := hhead []
    rw [List.append_nil] at hone
    rw [hone] at hend
    exact hend d rfl
  obtain ⟨htake, hdrop⟩ := Text.takeWhile_append_cons hname hd (s ++ rest)
  rw [← hhead rest] at htake hdrop
  have hdrop1 : ('<' :: (tag.name ++ (inside ++ ['>'])) ++ rest).drop 1 =
      tag.name ++ (inside ++ '>' :: rest) := by simp
  have hfuel : inside.length < (inside ++ '>' :: rest).length + 1 := by
    simp only [List.length_append, List.length_cons]
    omega
  unfold Markup.readElement
  generalize total - Text.byteSize _ = start
  have hread := hinside total start rest _ hfuel
  simp only [hdrop1, htake, hdrop, hread, bind, Except.bind]
  cases selfClosing || isVoid tag.name with
  | true => rfl
  | false =>
    cases isRaw tag.name with
    | false => rfl
    | true => cases readRaw total start tag.name rest <;> rfl

/-- What is read as an element starts with a start tag. -/
theorem exists_startTag {total start fuel : Nat} {t after : Text} {as : List Attribute}
    {selfClosing : Bool} (ht : startTagHere t = true)
    (h : readAttributes total start fuel ((t.drop 1).dropWhile isNameChar) = .ok (as, selfClosing, after)) :
    ∃ written, t = written ++ after ∧
      IsStartTag written ⟨(t.drop 1).takeWhile isNameChar, as⟩ selfClosing := by
  obtain ⟨c, hc, s, rfl⟩ := startTagHere_iff.1 ht
  have hdrop1 : (['<', c] ++ s).drop 1 = c :: s := rfl
  rw [hdrop1] at h ⊢
  obtain ⟨inside, hinside, hlocal⟩ := readAttributes_local h
  have hsplit : c :: s = (c :: s).takeWhile isNameChar ++ (c :: s).dropWhile isNameChar :=
    List.takeWhile_append_dropWhile.symm
  refine ⟨'<' :: ((c :: s).takeWhile isNameChar ++ (inside ++ ['>'])), ?_, inside, rfl, ⟨?_, ?_⟩, ?_,
    hlocal⟩
  · show '<' :: c :: s = _
    rw [List.cons_append, List.append_assoc, List.append_assoc, List.singleton_append, ← hinside,
      ← hsplit]
  · rw [List.takeWhile_cons_of_pos (isNameChar_of_isAsciiLetter hc)]
    exact hc
  · exact fun a ha => List.all_eq_true.1 List.all_takeWhile a ha
  · intro d hd
    have hhead := List.head?_dropWhile_not isNameChar (c :: s)
    obtain ⟨e, s', he⟩ := exists_head_of_end inside
    rw [hinside, he] at hhead
    have hone := he []
    rw [List.append_nil] at hone
    rw [hone] at hd
    cases hd
    simpa using hhead

theorem readElement_local {total : Nat} {t rest : Text} {e : Event} (ht : startTagHere t = true)
    (h : readElement total t = .ok (e, rest)) :
    ∃ used, t = used ++ rest ∧ ∀ total' rest', startTagHere (used ++ rest') = true ∧
      readElement total' (used ++ rest') = .ok (e, rest') := by
  have hwhole := h
  unfold readElement at h
  obtain ⟨⟨as, selfClosing, after⟩, ha, -⟩ := bind_eq_ok_iff.1 h
  obtain ⟨written, hwritten, htag⟩ := exists_startTag ht ha
  have hread := htag.readElement
  generalize (⟨(t.drop 1).takeWhile isNameChar, as⟩ : Tag) = tag at htag hread
  rw [hwritten, hread] at hwhole
  split at hwhole
  · next hempty =>
    cases hwhole
    refine ⟨written, hwritten, ?_⟩
    intro total' rest'
    rw [hread, if_pos hempty]
    exact ⟨htag.startTagHere rest', rfl⟩
  · next hempty =>
    split at hwhole
    · next hraw =>
      cases hr : readRaw total (total - Text.byteSize (written ++ after)) tag.name after with
      | error x =>
        rw [hr] at hwhole
        cases hwhole
      | ok p =>
        obtain ⟨content, behind⟩ := p
        rw [hr] at hwhole
        cases hwhole
        obtain ⟨used, hused, hagain⟩ := readRaw_local hraw hr
        refine ⟨written ++ used, ?_, ?_⟩
        · rw [List.append_assoc, ← hused]
          exact hwritten
        · intro total' rest'
          rw [List.append_assoc, hread, if_neg hempty, if_pos hraw, hagain]
          exact ⟨htag.startTagHere _, rfl⟩
    · next hraw =>
      cases hwhole
      refine ⟨written, hwritten, ?_⟩
      intro total' rest'
      rw [hread, if_neg hempty, if_neg hraw]
      exact ⟨htag.startTagHere rest', rfl⟩

/-! ## Events -/

theorem readComment_local {total : Nat} {t rest : Text} {e : Event} (ht : atComment t = true)
    (h : readComment total t = .ok (e, rest)) :
    ∃ used, t = used ++ rest ∧ ∀ total' rest', atComment (used ++ rest') = true ∧
      readComment total' (used ++ rest') = .ok (e, rest') := by
  obtain ⟨s, rfl⟩ := Text.startsWith_iff.1 ht
  have hdrop : ("<!--".toList ++ s).drop 4 = s := rfl
  unfold readComment at h
  rw [hdrop] at h
  split at h
  · next data after hs =>
    cases h
    have hdata : ¬ "-->".toList <:+: data := Text.not_isInfix_of_splitAt? (by decide) hs
    refine ⟨"<!--".toList ++ data ++ "-->".toList, ?_, ?_⟩
    · rw [Text.eq_of_splitAt? hs]
      simp only [List.append_assoc]
    · intro total' rest'
      refine ⟨?_, readComment_append hdata total' rest'⟩
      rw [atComment, Text.startsWith_iff, List.append_assoc, List.append_assoc]
      exact List.prefix_append _ _
  · cases h

theorem readEndTag_local {total : Nat} {t rest : Text} {e : Event} (ht : endTagHere t = true)
    (h : readEndTag total t = .ok (e, rest)) :
    ∃ used, t = used ++ rest ∧ ∀ total' rest', endTagHere (used ++ rest') = true ∧
      readEndTag total' (used ++ rest') = .ok (e, rest') := by
  obtain ⟨c, hc, s, rfl⟩ := endTagHere_iff.1 ht
  have hdrop : ∀ s : Text, ('<' :: '/' :: s).drop 2 = s := fun s => rfl
  show ∃ used, '<' :: '/' :: c :: s = _ ∧ _
  unfold readEndTag at h
  dsimp only at h
  rw [List.cons_append, List.cons_append, hdrop] at h
  split at h
  · next skipped after hs =>
    cases h
    have hskipped := Text.not_mem_of_splitAt? hs
    have hbehind : (c :: s).dropWhile isNameChar = skipped ++ ['>'] ++ rest := Text.eq_of_splitAt? hs
    have hname : (c :: s).takeWhile isNameChar = c :: s.takeWhile isNameChar :=
      List.takeWhile_cons_of_pos (isNameChar_of_isAsciiLetter hc)
    refine ⟨'<' :: '/' :: ((c :: s).takeWhile isNameChar ++ (skipped ++ ['>'])), ?_, ?_⟩
    · rw [List.cons_append, List.cons_append, List.append_assoc, ← hbehind,
        List.takeWhile_append_dropWhile]
    · intro total' rest'
      refine ⟨by rw [hname]; exact hc, ?_⟩
      obtain ⟨htake, hrest⟩ := Text.takeWhile_of_dropWhile hbehind (by simp) rest'
      have hclose : skipped ++ ['>'] ++ rest' = skipped ++ '>' :: rest' := by simp
      rw [hclose] at htake hrest
      have htext : '<' :: '/' :: ((c :: s).takeWhile isNameChar ++ (skipped ++ ['>'])) ++ rest' =
          '<' :: '/' :: ((c :: s).takeWhile isNameChar ++ (skipped ++ '>' :: rest')) := by simp
      unfold readEndTag
      simp only [htext, hdrop, htake, hrest, Text.splitAt?_char hskipped rest']
      rfl
  · cases h

/-- An event that is no text is read in the same way whatever follows it. -/
theorem readEvent_local {total : Nat} {t rest : Text} {e : Event} (ht : atMarkup t = true)
    (h : readEvent total t = .ok (e, rest)) :
    ∃ used, t = used ++ rest ∧ ∀ total' rest', atMarkup (used ++ rest') = true ∧
      readEvent total' (used ++ rest') = .ok (e, rest') := by
  simp only [atMarkup, Bool.or_eq_true] at ht ⊢
  rcases ht with (hcomment | hend) | hstart
  · rw [readEvent_of_atComment total hcomment] at h
    obtain ⟨used, hused, hread⟩ := readComment_local hcomment h
    refine ⟨used, hused, ?_⟩
    intro total' rest'
    obtain ⟨hat, hread⟩ := hread total' rest'
    rw [readEvent_of_atComment total' hat]
    exact ⟨.inl (.inl hat), hread⟩
  · rw [readEvent_of_endTagHere total hend] at h
    obtain ⟨used, hused, hread⟩ := readEndTag_local hend h
    refine ⟨used, hused, ?_⟩
    intro total' rest'
    obtain ⟨hat, hread⟩ := hread total' rest'
    rw [readEvent_of_endTagHere total' hat]
    exact ⟨.inl (.inr hat), hread⟩
  · rw [readEvent_of_startTagHere total hstart] at h
    obtain ⟨used, hused, hread⟩ := readElement_local hstart h
    refine ⟨used, hused, ?_⟩
    intro total' rest'
    obtain ⟨hat, hread⟩ := hread total' rest'
    rw [readEvent_of_startTagHere total' hat]
    exact ⟨.inr hat, hread⟩

end Markup

end Phrasebook
