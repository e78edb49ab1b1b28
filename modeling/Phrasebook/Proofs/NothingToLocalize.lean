import Phrasebook.Proofs.DictionaryContents
import Phrasebook.Proofs.Writing

/-!
Sources in which there is nothing to localize: those without Han characters and without unicode escapes.

Reading markup takes texts and attribute values out of the source as they stand (`partsOf_of_parse`), so
those of such a template are neutral too, with all code in them, and localizing writes the template with
the same texts and values (`nodesForm_of_neutral`). Together with what holds of neutral code this says
what is done to such a source, whichever way it is localized (`neutral_source_kept`).
-/

namespace Phrasebook

namespace Markup

/-! ## The contents of markup -/

/-- The values that a tag gives to its attributes. -/
def Tag.values (tag : Tag) : List Text := tag.attributes.filterMap Attribute.value

theorem mem_values {tag : Tag} {v : Text} :
    v ∈ tag.values ↔ ∃ a ∈ tag.attributes, a.value = some v := List.mem_filterMap

mutual

def Node.contents : Node → List Text
  | .text data => [data]
  | .comment _ => []
  | .element tag children => tag.values ++ contentsOf children

/-- The texts and attribute values of a row of trees, raw texts included. -/
def contentsOf : List Node → List Text
  | [] => []
  | n :: ns => n.contents ++ contentsOf ns

end

@[simp] theorem contentsOf_nil : contentsOf [] = [] := by simp [contentsOf]

@[simp] theorem contentsOf_text (data : Text) (ns : List Node) :
    contentsOf (.text data :: ns) = data :: contentsOf ns := by
  simp [contentsOf, Node.contents]

@[simp] theorem contentsOf_comment (data : Text) (ns : List Node) :
    contentsOf (.comment data :: ns) = contentsOf ns := by
  simp [contentsOf, Node.contents]

@[simp] theorem contentsOf_element (tag : Tag) (children ns : List Node) :
    contentsOf (.element tag children :: ns) =
      tag.values ++ (contentsOf children ++ contentsOf ns) := by
  simp [contentsOf, Node.contents]

theorem contentsOf_append (ns ms : List Node) :
    contentsOf (ns ++ ms) = contentsOf ns ++ contentsOf ms := by
  induction ns with
  | nil => simp
  | cons n ns ih => simp [contentsOf, ih]

/-! ## Contents are parts of the source -/

/-- The contents of a row of trees stand in a text. -/
def PartsOf (s : Text) (ns : List Node) : Prop := ∀ x ∈ contentsOf ns, x <:+: s

/-- The values of a tag stand in a text. -/
def Tag.PartsOf (s : Text) (tag : Tag) : Prop := ∀ v ∈ tag.values, v <:+: s

theorem composes_partsOf (s : Text) : Composes (PartsOf s) (Tag.PartsOf s) where
  nil := by simp [PartsOf]
  append hns hms := by
    intro x hx
    rw [contentsOf_append, List.mem_append] at hx
    exact hx.elim (hns x) (hms x)
  element htag hchildren := by
    intro x hx
    rw [contentsOf_element, contentsOf_nil, List.append_nil, List.mem_append] at hx
    exact hx.elim (htag x) (hchildren x)

theorem isInfix_of_readValue {total : Nat} {t v rest : Text}
    (h : readValue total t = .ok (v, rest)) : v <:+: t := by
  unfold readValue at h
  split at h
  · cases h
    exact List.infix_rfl
  · next c t =>
    split at h
    · split at h
      · next value after hs =>
        cases h
        exact ⟨[c], c :: rest, by rw [Text.eq_of_splitAt? hs]; simp⟩
      · cases h
    · cases h
      exact (List.takeWhile_prefix _).isInfix

theorem isInfix_of_readAttribute {total : Nat} {t rest v : Text} {found : Option Attribute}
    (h : readAttribute total t = .ok (found, rest)) {a : Attribute} (ha : a ∈ found)
    (hv : a.value = some v) : v <:+: t := by
  unfold readAttribute at h
  dsimp only at h
  split at h
  · cases h
    cases ha
  · split at h
    · next after hafter =>
      obtain ⟨⟨value, rest'⟩, hread, h⟩ := bind_eq_ok_iff.1 h
      cases h
      cases ha
      obtain rfl := Option.some.inj hv
      have hrest : '=' :: after <:+ t := by
        rw [← hafter]
        exact (trimStart_isSuffix _).trans (List.dropWhile_suffix _)
      have hvalue := (isInfix_of_readValue hread).trans (trimStart_isSuffix after).isInfix
      exact hvalue.trans ((List.suffix_cons _ _).trans hrest).isInfix
    · cases h
      cases ha
      cases hv

theorem isInfix_of_readAttributes {total start fuel : Nat} {t rest v : Text} {as : List Attribute}
    {selfClosing : Bool} (h : readAttributes total start fuel t = .ok (as, selfClosing, rest))
    {a : Attribute} (ha : a ∈ as) (hv : a.value = some v) : v <:+: t := by
  induction fuel generalizing t as with
  | zero => cases h
  | succ fuel ih =>
    have htrim := trimStart_isSuffix t
    rw [readAttributes] at h
    split at h
    · cases h
    · cases h
      cases ha
    · cases h
      cases ha
    · next hafter =>
      rw [hafter] at htrim
      exact (ih h ha).trans ((List.suffix_cons _ _).trans htrim).isInfix
    · obtain ⟨⟨found, after⟩, hfound, h⟩ := bind_eq_ok_iff.1 h
      obtain ⟨⟨bs, sc, rest'⟩, hrest, h⟩ := bind_eq_ok_iff.1 h
      cases h
      rcases List.mem_append.1 ha with ha | ha
      · exact (isInfix_of_readAttribute hfound (Option.mem_toList.1 ha) hv).trans htrim.isInfix
      · exact (ih hrest ha).trans ((of_readAttribute hfound).1.trans htrim).isInfix

theorem isInfix_of_readRaw {total start : Nat} {name t content rest : Text}
    (h : readRaw total start name t = .ok (content, rest)) : content <:+: t := by
  unfold readRaw at h
  split at h
  · cases h
  · next before after hs =>
    obtain ⟨rfl, -⟩ := of_splitBefore (by simp) hs
    split at h
    · cases h
    · cases h
      exact (List.prefix_append _ _).isInfix

section

variable {total : Nat} {s t rest : Text} {e : Event}

theorem partsOf_of_readElement (hs : t <:+: s) (h : readElement total t = .ok (e, rest)) :
    e.Holds (PartsOf s) (Tag.PartsOf s) := by
  unfold readElement at h
  obtain ⟨⟨as, selfClosing, after⟩, ha, h⟩ := bind_eq_ok_iff.1 h
  have hinside : (t.drop 1).dropWhile isNameChar <:+: s :=
    ((List.dropWhile_suffix _).trans (List.drop_suffix _ _)).isInfix.trans hs
  have htag : Tag.PartsOf s ⟨(t.drop 1).takeWhile isNameChar, as⟩ := by
    intro v hv
    obtain ⟨a, hmem, hvalue⟩ := mem_values.1 hv
    exact (isInfix_of_readAttributes ha hmem hvalue).trans hinside
  have helement : ∀ children, PartsOf s children → PartsOf s [.element ⟨_, as⟩ children] :=
    fun _ => (composes_partsOf s).element htag
  dsimp only at h
  split at h
  · cases h
    exact helement [] (composes_partsOf s).nil
  · split at h
    · obtain ⟨⟨content, after'⟩, hr, h⟩ := bind_eq_ok_iff.1 h
      cases h
      refine helement _ ?_
      have hcontent := ((isInfix_of_readRaw hr).trans (of_readAttributes ha).1.isInfix).trans hinside
      split
      · exact (composes_partsOf s).nil
      · simpa [PartsOf] using hcontent
    · cases h
      exact htag

/-- What an event adds to a document stands in the text that was read. -/
theorem partsOf_of_readEvent (hs : t <:+: s) (h : readEvent total t = .ok (e, rest)) :
    e.Holds (PartsOf s) (Tag.PartsOf s) := by
  unfold readEvent at h
  split at h
  · unfold readComment at h
    split at h
    · cases h
      simp [Event.Holds, PartsOf]
    · cases h
  · split at h
    · unfold readEndTag at h
      dsimp only at h
      split at h
      · cases h
        trivial
      · cases h
    · split at h
      · exact partsOf_of_readElement hs h
      · cases h
        have hdata : (spanText t).1 <:+: s := by
          refine List.IsInfix.trans ?_ hs
          exact ⟨[], (spanText t).2, (of_spanText t).1.symm⟩
        simpa [Event.Holds, PartsOf] using hdata

theorem partsOf_of_reads {es : List Event} (h : Reads total t es) (hs : t <:+: s) :
    ∀ e ∈ es, e.Holds (PartsOf s) (Tag.PartsOf s) := by
  induction h with
  | nil => simp
  | cons ht hread _ ih =>
    have hrest := (of_readEvent ht hread).1.trans (List.tail_suffix _)
    exact List.forall_mem_cons.2 ⟨partsOf_of_readEvent hs hread, ih (hrest.isInfix.trans hs)⟩

end

/-- The contents of a document stand in the markup that it was read from. -/
theorem partsOf_of_parse {t : Text} {d : Document} (h : parse t = .ok d) : PartsOf t d.children :=
  holds_of_parse (composes_partsOf t) h fun _ hes => partsOf_of_reads hes List.infix_rfl

/-- Only the contents of a document matter to a change of its texts and values. -/
theorem mapNodes_congr_of_contents {f g h g' h' : Text → Text} {ns : List Node} (raw : Bool)
    (hg : ∀ x ∈ contentsOf ns, g x = g' x) (hh : ∀ x ∈ contentsOf ns, h x = h' x) :
    mapNodes f g h raw ns = mapNodes f g' h' raw ns := by
  induction ns using nodes_induction generalizing raw with
  | nil => simp [mapNodes]
  | text data ns ih =>
    simp only [contentsOf_text, List.forall_mem_cons] at hg hh
    simp [mapNodes, Node.map, hg.1, ih raw hg.2 hh.2]
  | comment data ns ih =>
    simp only [contentsOf_comment] at hg hh
    simp [mapNodes, Node.map, ih raw hg hh]
  | element tag children ns ihc ih =>
    simp only [contentsOf_element, List.forall_mem_append] at hg hh
    obtain ⟨-, hgc, hgns⟩ := hg
    obtain ⟨hvalues, hhc, hhns⟩ := hh
    have hattrs : tag.attributes.map (Attribute.mapValue h) =
        tag.attributes.map (Attribute.mapValue h') :=
      map_mapValue_congr fun a ha v hv => hvalues v (mem_values.2 ⟨a, ha, hv⟩)
    simp [mapNodes, Node.map, hattrs, ihc _ hgc hhc, ih raw hgns hhns]

end Markup

/-! ## Templates -/

namespace Template

open Markup

/-- Nothing is found in a document when nothing is found in its contents. -/
theorem found_nodesForm_of_contents (b : Bindings) {ns : List Node} (raw : Bool)
    (h : ∀ x ∈ contentsOf ns, (localizeText b x).found = []) : (nodesForm b raw ns).found = [] := by
  induction ns using nodes_induction generalizing raw with
  | nil => rfl
  | text data ns ih =>
    obtain ⟨hdata, hns⟩ := List.forall_mem_cons.1 (contentsOf_text data ns ▸ h)
    rw [nodesForm, Localized.found_append, ih raw hns, nodeForm, List.append_nil]
    cases raw with
    | true => rfl
    | false => exact hdata
  | comment data ns ih =>
    rw [nodesForm, Localized.found_append, ih raw (contentsOf_comment data ns ▸ h), nodeForm]
    rfl
  | element tag children ns ihc ih =>
    simp only [contentsOf_element, List.forall_mem_append] at h
    obtain ⟨hvalues, hc, hns⟩ := h
    have hattrs : (attributesForm b tag.attributes).found = [] :=
      found_attributesForm_eq_nil b fun a ha v hv => hvalues v (mem_values.2 ⟨a, ha, hv⟩)
    rw [nodesForm, Localized.found_append, ih raw hns, nodeForm]
    split
    · simp [hattrs]
    · simp [hattrs, ihc _ hc]

/-- Localizing neutral trees writes them with the same texts and values. -/
theorem nodesForm_of_neutral (b : Bindings) {ns : List Node} (h : ∀ x ∈ contentsOf ns, x.IsNeutral)
    (raw : Bool) :
    nodesForm b raw ns = .plain (nodesText (mapNodes writtenName id quotable raw ns)) := by
  have htext : ∀ x ∈ contentsOf ns, localizeText b x = .plain x :=
    fun x hx => localizeText_of_neutral b (h x hx)
  have hnodes : localizedNodes b raw ns = mapNodes writtenName id quotable raw ns := by
    refine mapNodes_congr_of_contents raw (fun x hx => ?_) fun x hx => ?_
    · rw [htext x hx]
      rfl
    · rw [htext x hx]
      rfl
  refine Localized.eq_of ?_ ?_
  · rw [output_nodesForm, hnodes]
    rfl
  · exact found_nodesForm_of_contents b raw fun x hx => by rw [htext x hx]; rfl

/-- The line with the reference to the look-up module that a template lacks. -/
def missingReference (b : Bindings) (modulePath : Option Text) (d : Document) : Text :=
  match modulePath with
  | some path => if declaresModule b d then [] else b.moduleReference path ++ ['\n']
  | none => []

theorem documentForm_eq (b : Bindings) (modulePath : Option Text) (d : Document) :
    documentForm b modulePath d =
      .plain (missingReference b modulePath d) ++ nodesForm b false d.children := by
  unfold documentForm missingReference
  cases modulePath with
  | none => exact (Localized.plain_nil_append _).symm
  | some path =>
    dsimp only
    split
    · exact (Localized.plain_nil_append _).symm
    · rfl

/-- A neutral template gets the reference that it lacks, and keeps its texts and values. -/
theorem localizeTemplate_of_neutral (b : Bindings) {source : Text} (hs : source.IsNeutral)
    {modulePath : Option Text} {r : Localized} (h : localizeTemplate b modulePath source = .ok r) :
    ∃ d, parse source = .ok d ∧
      r = .plain (missingReference b modulePath d ++
        nodesText (mapNodes writtenName id quotable false d.children)) := by
  unfold localizeTemplate at h
  cases hp : parse source with
  | error e =>
    rw [hp] at h
    cases h
  | ok d =>
    rw [hp] at h
    obtain rfl := Except.ok.inj h
    refine ⟨d, rfl, ?_⟩
    rw [documentForm_eq, nodesForm_of_neutral b fun x hx => hs.of_isInfix (partsOf_of_parse hp x hx)]
    exact (Localized.plain_append _ _).symm

end Template

/-! ## All rewrites -/

/-- No rewrite of a neutral source hands a text to the dictionary. -/
theorem Rewrite.found_of_neutral (b : Bindings) {source : Text} (hs : source.IsNeutral)
    (mergeLocale : Bool) (modulePath : Option Text) :
    (Rewrite.script b mergeLocale source).found = [] ∧ (Rewrite.expression b source).found = [] ∧
      (Rewrite.template b modulePath source).found = [] := by
  refine ⟨?_, ?_, ?_⟩
  · rw [found]
    split
    · next r hr => exact Script.found_of_neutral b mergeLocale hs hr
    · rfl
  · rw [found, Script.localizeExpression_of_neutral b hs]
    rfl
  · rw [found]
    split
    · next r hr =>
      obtain ⟨d, -, rfl⟩ := Template.localizeTemplate_of_neutral b hs hr
      rfl
    · rfl

section

open Script Template

/-- **Nothing to localize.** A source without Han characters and without `\u` stays as it is, apart from
what is done to every source, and the dictionary does not change:

* as an expression it is not changed at all;
* as a script it gets the header that it lacks, and the name `Page` of a callee becomes `I18nPage`;
* as a template it gets the reference that it lacks and is written with the names that elements have in
  the output, with all its texts and with all its values. A value stands between quotes of a kind that
  it does not hold, and only one with both kinds has its double quotes written as references;
* a dictionary stays the same, also when the locale is merged into the data of pages and when the source
  cannot be read. -/
theorem neutral_source_kept {source : Text} (hs : source.IsNeutral) :
    localizeExpression {} source = .plain source ∧
    (∀ r, localizeScript {} false source = .ok r → ∃ tree, Script.parse source = .ok tree ∧
      rowSource (tokenRow {} (.script false) tree) = source ∧
      (∀ k ∈ tokenRow {} (.script false) tree, k.OnlyRenames) ∧
      r.output = missingHeader source ++ respell {} (tokenRow {} (.script false) tree)) ∧
    (∀ modulePath r, localizeTemplate {} modulePath source = .ok r →
      ∃ d, Markup.parse source = .ok d ∧
        r.output = missingReference {} modulePath d ++
          nodesText (Markup.mapNodes writtenName id quotable false d.children)) ∧
    (∀ v, ∃ q ∈ ['"', '\''], q ∉ quotable v ∧ quoteValue (quotable v) = q :: quotable v ++ [q]) ∧
    ∀ (d : Dictionary) (mergeLocale : Bool) (modulePath : Option Text),
      d.recordAll (Rewrite.script {} mergeLocale source).found = d ∧
      d.recordAll (Rewrite.expression {} source).found = d ∧
      d.recordAll (Rewrite.template {} modulePath source).found = d := by
  refine ⟨localizeExpression_of_neutral {} hs, fun r => localizeScript_of_neutral hs,
    fun modulePath r hr => ?_, quoteValue_quotable_eq, fun d mergeLocale modulePath => ?_⟩
  · obtain ⟨d, hd, rfl⟩ := localizeTemplate_of_neutral {} hs hr
    exact ⟨d, hd, rfl⟩
  · obtain ⟨hscript, hexpression, htemplate⟩ := Rewrite.found_of_neutral {} hs mergeLocale modulePath
    rw [hscript, hexpression, htemplate]
    exact ⟨rfl, rfl, rfl⟩

/-- A page that is a script and a template at once, with an escape sequence and quotes in a value. -/
def neutralPage : Text := "Page(<view a='say \"hi\"'>\x7b\x7b n: '\\x41' \x7d\x7d</view>)".toList

/-- All rewrites accept this page, and the name at its start is all that changes. -/
theorem neutral_page_kept :
    neutralPage.IsNeutral ∧ localizeExpression {} neutralPage = .plain neutralPage ∧
      (∃ r tree, localizeScript {} false neutralPage = .ok r ∧ Script.parse neutralPage = .ok tree ∧
        respell {} (tokenRow {} (.script false) tree) = "I18n".toList ++ neutralPage ∧
        r.output = Bindings.header {} ++ respell {} (tokenRow {} (.script false) tree)) ∧
      (∃ r d, localizeTemplate {} none neutralPage = .ok r ∧ Markup.parse neutralPage = .ok d ∧
        r.output = nodesText (Markup.mapNodes writtenName id quotable false d.children)) ∧
      ∀ d : Dictionary, d.recordAll (Rewrite.script {} true neutralPage).found = d := by
  have hs : neutralPage.IsNeutral := by decide +kernel
  obtain ⟨hexpression, hscript, htemplate, -, hdictionary⟩ := neutral_source_kept hs
  refine ⟨hs, hexpression, ?_, ?_, fun d => (hdictionary d true none).1⟩
  · have hrun : (localizeScript {} false neutralPage).toOption.isSome = true := by decide +kernel
    have hrow : ((Script.parse neutralPage).map fun tree =>
        respell {} (tokenRow {} (.script false) tree)).toOption =
          some ("I18n".toList ++ neutralPage) := by
      decide +kernel
    cases hr : localizeScript {} false neutralPage with
    | error e =>
      rw [hr] at hrun
      cases hrun
    | ok r =>
      obtain ⟨tree, hp, -, -, ho⟩ := hscript r hr
      have hheader : missingHeader neutralPage = Bindings.header {} := by decide +kernel
      rw [hheader] at ho
      rw [hp] at hrow
      exact ⟨r, tree, rfl, hp, Option.some.inj hrow, ho⟩
  · have hrun : (localizeTemplate {} none neutralPage).toOption.isSome = true := by decide +kernel
    cases hr : localizeTemplate {} none neutralPage with
    | error e =>
      rw [hr] at hrun
      cases hrun
    | ok r =>
      obtain ⟨d, hp, ho⟩ := htemplate none r hr
      exact ⟨r, d, rfl, hp, ho⟩

end

end Phrasebook
