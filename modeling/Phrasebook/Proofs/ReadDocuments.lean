import Phrasebook.Proofs.RoundTrip

/-!
What every document that is read from markup looks like, whatever the markup was. Its names, texts and
comments are those of a legal document (`legal_of_parse`). Beyond that, an attribute value holds both
quotes only if it was written without any, and then white space or `>` would have ended it
(`IsValue`): this is followed from the value to its tag, to the event of the tag and to the document.

`read_document_is_representable` spells the conditions out, character by character.
-/

namespace Phrasebook.Markup

/-! ## Attribute values -/

/-- Values with both quotes hold no white space and no `>`. -/
def IsValue (v : Text) : Prop := '"' ∈ v → '\'' ∈ v → ∀ c ∈ v, isBareValueChar c = true

def Tag.HasValues (tag : Tag) : Prop := ∀ a ∈ tag.attributes, ∀ v ∈ a.value, IsValue v

theorem isValue_of_readValue {total : Nat} {t v rest : Text}
    (h : readValue total t = .ok (v, rest)) : IsValue v := by
  intro hdouble hsingle
  unfold readValue at h
  split at h
  · cases h
    cases hdouble
  · next c t =>
    split at h
    · next hquote =>
      split at h
      · next value after hs =>
        cases h
        -- a quoted value ends at the first quote of its kind
        have hend : c ∉ v := by
          intro hc
          refine Text.not_isInfix_of_splitAt? (by simp) hs ?_
          obtain ⟨before, behind, rfl⟩ := List.append_of_mem hc
          exact ⟨before, behind, by simp⟩
        rcases hquote with rfl | rfl
        · exact absurd hdouble hend
        · exact absurd hsingle hend
      · cases h
    · cases h
      exact fun c hc => List.all_eq_true.1 List.all_takeWhile c hc

theorem isValue_of_readAttribute {total : Nat} {t rest v : Text} {found : Option Attribute}
    (h : readAttribute total t = .ok (found, rest)) {a : Attribute} (ha : a ∈ found)
    (hv : v ∈ a.value) : IsValue v := by
  unfold readAttribute at h
  dsimp only at h
  split at h
  · cases h
    cases ha
  · split at h
    · obtain ⟨⟨value, rest'⟩, hread, h⟩ := bind_eq_ok_iff.1 h
      cases h
      cases ha
      obtain rfl := Option.some.inj hv
      exact isValue_of_readValue hread
    · cases h
      cases ha
      cases hv

theorem isValue_of_readAttributes {total start fuel : Nat} {t rest : Text} {as : List Attribute}
    {selfClosing : Bool} (h : readAttributes total start fuel t = .ok (as, selfClosing, rest)) :
    ∀ a ∈ as, ∀ v ∈ a.value, IsValue v := by
  induction fuel generalizing t as with
  | zero => cases h
  | succ fuel ih =>
    rw [readAttributes] at h
    split at h
    · cases h
    · cases h
      simp
    · cases h
      simp
    · exact ih h
    · obtain ⟨⟨found, after⟩, hfound, h⟩ := bind_eq_ok_iff.1 h
      obtain ⟨⟨bs, sc, rest'⟩, hrest, h⟩ := bind_eq_ok_iff.1 h
      cases h
      intro a ha v hv
      rcases List.mem_append.1 ha with ha | ha
      · exact isValue_of_readAttribute hfound (Option.mem_toList.1 ha) hv
      · exact ih hrest a ha v hv

/-! ## The tags of a document -/

/-- The tag of an event that adds an element. -/
def Event.tag? : Event → Option Tag
  | .opening tag => some tag
  | .empty tag => some tag
  | .raw tag _ => some tag
  | _ => none

theorem hasValues_of_readElement {total : Nat} {t rest : Text} {e : Event}
    (h : readElement total t = .ok (e, rest)) : ∀ tag ∈ e.tag?, tag.HasValues := by
  unfold readElement at h
  obtain ⟨⟨as, selfClosing, after⟩, ha, h⟩ := bind_eq_ok_iff.1 h
  have htag : Tag.HasValues ⟨(t.drop 1).takeWhile isNameChar, as⟩ := isValue_of_readAttributes ha
  dsimp only at h
  split at h
  · cases h
    simpa [Event.tag?] using htag
  · split at h
    · obtain ⟨⟨content, after'⟩, -, h⟩ := bind_eq_ok_iff.1 h
      cases h
      simpa [Event.tag?] using htag
    · cases h
      simpa [Event.tag?] using htag

theorem hasValues_of_readEvent {total : Nat} {t rest : Text} {e : Event}
    (h : readEvent total t = .ok (e, rest)) : ∀ tag ∈ e.tag?, tag.HasValues := by
  unfold readEvent at h
  split at h
  · unfold readComment at h
    split at h
    · cases h
      simp [Event.tag?]
    · cases h
  · split at h
    · unfold readEndTag at h
      dsimp only at h
      split at h
      · cases h
        simp [Event.tag?]
      · cases h
    · split at h
      · exact hasValues_of_readElement h
      · cases h
        simp [Event.tag?]

theorem hasValues_of_reads {total : Nat} {t : Text} {es : List Event} (h : Reads total t es) :
    ∀ e ∈ es, ∀ tag ∈ e.tag?, tag.HasValues := by
  induction h with
  | nil => simp
  | cons _ hread _ ih => exact List.forall_mem_cons.2 ⟨hasValues_of_readEvent hread, ih⟩

theorem tagsOf_append (ns ms : List Node) : tagsOf (ns ++ ms) = tagsOf ns ++ tagsOf ms := by
  rw [tagsOf, nodesOf_append, List.filterMap_append, tagsOf, tagsOf]

/-- A property of tags is one of documents. -/
theorem composes_tagsOf (P : Tag → Prop) : Composes (fun ns => ∀ tag ∈ tagsOf ns, P tag) P where
  nil := by simp [tagsOf]
  append hns hms := by
    intro tag htag
    rw [tagsOf_append, List.mem_append] at htag
    exact htag.elim (hns tag) (hms tag)
  element := by
    intro tag children htag hchildren tag' htag'
    have hnil : tagsOf [] = [] := rfl
    rw [tagsOf_element, hnil, List.append_nil, List.mem_cons] at htag'
    rcases htag' with rfl | htag'
    · exact htag
    · split at htag'
      · cases htag'
      · exact hchildren tag' htag'

theorem Event.holds_tagsOf {P : Tag → Prop} {e : Event} (h : ∀ tag ∈ e.tag?, P tag) :
    e.Holds (fun ns => ∀ tag ∈ tagsOf ns, P tag) P := by
  have hc := composes_tagsOf P
  cases e with
  | opening tag => exact h tag rfl
  | empty tag => exact hc.element (h tag rfl) hc.nil
  | raw tag content =>
    refine hc.element (h tag rfl) ?_
    split
    · exact hc.nil
    · simp [tagsOf, Node.tag?]
  | closing name => trivial
  | text data => simp [Event.Holds, tagsOf, Node.tag?]
  | comment data => simp [Event.Holds, tagsOf, Node.tag?]

theorem hasValues_of_parse {t : Text} {d : Document} (h : parse t = .ok d) :
    ∀ tag ∈ tagsOf d.children, tag.HasValues :=
  holds_of_parse (composes_tagsOf Tag.HasValues) h fun _ hes e he =>
    Event.holds_tagsOf (hasValues_of_reads hes e he)

/-! ## Documents -/

/-- The names and values of a tag that was read. -/
structure Tag.Representable (tag : Tag) : Prop where
  letter : ∃ c rest, tag.name = c :: rest ∧ Text.isAsciiLetter c = true
  name : ∀ c ∈ tag.name, isBlank c = false ∧ c ≠ '/' ∧ c ≠ '>'
  attributeName : ∀ a ∈ tag.attributes, a.name ≠ [] ∧
    ∀ c ∈ a.name, isBlank c = false ∧ c ≠ '=' ∧ c ≠ '>' ∧ c ≠ '/'
  value : ∀ a ∈ tag.attributes, ∀ v, a.value = some v → '"' ∈ v → '\'' ∈ v →
    ∀ c ∈ v, isBlank c = false ∧ c ≠ '>'

/-- A node that was read outside of raw text elements, with the content of such an element. -/
def Node.Representable : Node → Prop
  | .text data =>
    data ≠ [] ∧ ¬ "<!--".toList <:+: data ∧
      ∀ c, Text.isAsciiLetter c = true → ¬ ['<', c] <:+: data ∧ ¬ ['<', '/', c] <:+: data
  | .comment data => ¬ "-->".toList <:+: data
  | .element tag children =>
    tag.Representable ∧ (isVoid tag.name = true → children = []) ∧
      (isRaw tag.name = true → children = [] ∨ ∃ data, children = [.text data] ∧ data ≠ [] ∧
        ¬ Text.lowerAscii ("</".toList ++ tag.name) <:+: Text.lowerAscii data)

theorem Tag.Legal.representable {tag : Tag} (hl : tag.Legal) (hv : tag.HasValues) :
    tag.Representable where
  letter := by
    obtain ⟨c, rest, hname, hc⟩ := hl.1.eq_cons
    exact ⟨c, rest, hname, hc⟩
  name c hc := by simpa [isNameChar, and_assoc] using hl.1.2 c hc
  attributeName a ha := by
    obtain ⟨hne, hchars⟩ := hl.2 a ha
    exact ⟨hne, fun c hc => by simpa [isAttributeChar, and_assoc] using hchars c hc⟩
  value a ha v hav hdouble hsingle c hc := by
    simpa [isBareValueChar] using hv a ha v hav hdouble hsingle c hc

theorem IsRawContent.cases {name : Text} {children : List Node} (h : IsRawContent name children) :
    children = [] ∨ ∃ data, children = [.text data] ∧ data ≠ [] ∧
      ¬ Text.lowerAscii ("</".toList ++ name) <:+: Text.lowerAscii data := by
  unfold IsRawContent at h
  split at h
  · exact .inl rfl
  · exact .inr ⟨_, rfl, h.1, h.2⟩
  · exact h.elim

theorem not_isInfix_of_opensMarkup {data w : Text} (h : opensMarkup data = false) (hw : IsOpener w) :
    ¬ w <:+: data := by
  intro hi
  rw [opensMarkup_iff.2 ⟨w, hw, hi⟩] at h
  cases h

theorem Node.Legal.representable {n : Node} (hl : n.Legal) (hv : ∀ tag ∈ n.tag?, tag.HasValues) :
    n.Representable := by
  cases n with
  | text data =>
    obtain ⟨hne, hopens⟩ := hl
    refine ⟨hne, not_isInfix_of_opensMarkup hopens (.inl rfl), ?_⟩
    intro c hc
    exact ⟨not_isInfix_of_opensMarkup hopens (.inr ⟨c, hc, .inr rfl⟩),
      not_isInfix_of_opensMarkup hopens (.inr ⟨c, hc, .inl rfl⟩)⟩
  | comment data => exact hl
  | element tag children =>
    obtain ⟨htag, hvoid, hraw⟩ := hl
    exact ⟨htag.representable (hv tag rfl), hvoid, fun hr => (hraw hr).cases⟩

/-- Every node of a document that is read obeys the conditions on names, attribute values, texts,
comments and the contents of elements without content and of raw text elements. -/
theorem read_document_is_representable {t : Text} {d : Document} (h : parse t = .ok d) :
    ∀ n ∈ nodesOf d.children, n.Representable := by
  intro n hn
  refine (legal_of_parse h n hn).representable ?_
  intro tag htag
  exact hasValues_of_parse h tag (List.mem_filterMap.2 ⟨n, hn, htag⟩)

/-- Markup with a stray `=`, a lone `/`, a value with both quotes, a `<` that opens nothing and a raw text
element. -/
def malformedPage : Text := "<View = / a=x'\"y b>1 < 2</view><br><wxs>a</b</WXS >".toList

theorem malformed_page_is_representable :
    ∃ d, parse malformedPage = .ok d ∧ ∀ n ∈ nodesOf d.children, n.Representable := by
  have hparse : parse malformedPage = .ok
      ⟨[.element ⟨"View".toList, [⟨"a".toList, some "x'\"y".toList⟩, ⟨"b".toList, none⟩]⟩
          [.text "1 < 2".toList],
        .element ⟨"br".toList, []⟩ [],
        .element ⟨"wxs".toList, []⟩ [.text "a</b".toList]]⟩ := by
    rfl
  exact ⟨_, hparse, read_document_is_representable hparse⟩

end Phrasebook.Markup
