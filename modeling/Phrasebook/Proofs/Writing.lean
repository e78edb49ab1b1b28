import Phrasebook.Proofs.NeutralCode
import Phrasebook.Proofs.RoundTrip
import Phrasebook.Proofs.TemplateTexts

/-!
Writing a document and reading it back. What localizing writes for a document is the markup of another
one, in which names have lost their mark and texts and values are localized (`output_nodesForm`). So
documents in which there is nothing to localize come back as they are
(`plain_document_round_trip`).
-/

namespace Phrasebook.Template

open Markup
open Script (IsPlain)

/-! ## Values -/

/-- A value as it is written between quotes: with both kinds of quotes in it, the double ones are
escaped. -/
def quotable (value : Text) : Text :=
  if '"' ∈ value ∧ '\'' ∈ value then escapeQuotes value else value

theorem not_mem_escapeQuotes (t : Text) : '"' ∉ escapeQuotes t := by
  intro h
  obtain ⟨c, -, hc⟩ := List.mem_flatMap.1 h
  by_cases hq : c = '"'
  · rw [if_pos hq] at hc
    exact absurd hc (by decide)
  · rw [if_neg hq, List.mem_singleton] at hc
    exact hq hc.symm

theorem quotable_eq_self {v : Text} (h : ¬ ('"' ∈ v ∧ '\'' ∈ v)) : quotable v = v := if_neg h

theorem not_both_quotable (v : Text) : ¬ ('"' ∈ quotable v ∧ '\'' ∈ quotable v) := by
  unfold quotable
  split
  · exact fun h => not_mem_escapeQuotes v h.1
  · next h => exact h

/-- Escaping before writing makes no difference. -/
theorem quoteValue_quotable (v : Text) : quoteValue (quotable v) = quoteValue v := by
  by_cases h : '"' ∈ v ∧ '\'' ∈ v
  · rw [quotable, if_pos h, quoteValue, if_neg (not_mem_escapeQuotes v), quoteValue, if_pos h.1,
      if_pos h.2]
  · rw [quotable_eq_self h]

/-- A value as it is written stands between quotes of a kind that it does not hold. -/
theorem quoteValue_quotable_eq (v : Text) :
    ∃ q ∈ ['"', '\''], q ∉ quotable v ∧ quoteValue (quotable v) = q :: quotable v ++ [q] := by
  have hboth := not_both_quotable v
  by_cases hd : '"' ∈ quotable v
  · have hs : '\'' ∉ quotable v := fun hs => hboth ⟨hd, hs⟩
    exact ⟨'\'', by simp, hs, by rw [quoteValue, if_pos hd, if_neg hs]⟩
  · exact ⟨'"', by simp, hd, by rw [quoteValue, if_neg hd]⟩

/-! ## Documents -/

/-- A document as localizing writes it. -/
def localizedNodes (b : Bindings) (raw : Bool) (ns : List Node) : List Node :=
  mapNodes writtenName (fun t => (localizeText b t).output)
    (fun v => quotable (localizeText b v).output) raw ns

theorem output_attributesForm (b : Bindings) (as : List Attribute) :
    (attributesForm b as).output =
      (as.map (Attribute.mapValue fun v => quotable (localizeText b v).output)).flatMap
        attributeText := by
  induction as with
  | nil => rfl
  | cons a as ih =>
    have hone : (attributeForm b a).output =
        attributeText (a.mapValue fun v => quotable (localizeText b v).output) := by
      unfold attributeForm attributeText Attribute.mapValue
      cases a.value with
      | none => simp
      | some v =>
        show _ = ' ' :: a.name ++ '=' :: quoteValue (quotable _)
        rw [quoteValue_quotable]
    have hrest : (attributesForm b (a :: as)).output =
        (attributeForm b a).output ++ (attributesForm b as).output := rfl
    rw [hrest, hone, ih, List.map_cons, List.flatMap_cons]

theorem output_nodesForm (b : Bindings) (raw : Bool) (ns : List Node) :
    (nodesForm b raw ns).output = nodesText (localizedNodes b raw ns) := by
  unfold localizedNodes
  induction ns using nodes_induction generalizing raw with
  | nil => simp [nodesForm, mapNodes, nodesText]
  | text data ns ih =>
    rw [nodesForm, Localized.output_append, ih, mapNodes, nodesText, nodeForm, Node.map, nodeText]
    cases raw <;> rfl
  | comment data ns ih =>
    rw [nodesForm, Localized.output_append, ih, mapNodes, nodesText, nodeForm, Node.map, nodeText]
    rfl
  | element tag children ns ihc ih =>
    rw [nodesForm, Localized.output_append, ih, mapNodes, nodesText, nodeForm, Node.map, nodeText,
      isEmpty_mapNodes]
    congr 1
    dsimp only
    split
    · simp [startText, tagEnd, output_attributesForm]
    · simp [startText, tagEnd, output_attributesForm, ihc]

/-! ## Nothing to localize -/

theorem localizeText_of_neutral (b : Bindings) {t : Text} (h : t.IsNeutral) :
    localizeText b t = .plain t := by
  induction t using text_induction with
  | nil => rfl
  | code inner t hb ih =>
    have hinner : inner.IsNeutral := h.of_isInfix ⟨['{', '{'], ['}', '}'] ++ t, by simp [braced]⟩
    rw [localizeText_code b hb, ih (h.of_isInfix (List.suffix_append _ _).isInfix), localizeSpan,
      Script.localizeExpression_of_neutral b hinner]
    exact Localized.eq_of (by simp [braced]) (by simp)
  | char c t hc hi ih =>
    rw [localizeText_char b hc hi, ih (h.of_isInfix (List.suffix_cons _ _).isInfix)]
    rfl
  | run w t hne hw ht ih =>
    obtain ⟨c, w', rfl⟩ := List.exists_cons_of_ne_nil hne
    have hc := h.1 c (by simp)
    rw [hw c (List.mem_cons_self ..)] at hc
    cases hc

theorem localizeText_of_plain (b : Bindings) {t : Text} (h : IsPlain t) :
    localizeText b t = .plain t :=
  localizeText_of_neutral b h.isNeutral

theorem found_attributesForm_eq_nil (b : Bindings) {as : List Attribute}
    (h : ∀ a ∈ as, ∀ v, a.value = some v → (localizeText b v).found = []) :
    (attributesForm b as).found = [] := by
  induction as with
  | nil => rfl
  | cons a as ih =>
    have hone : (attributeForm b a).found = [] := by
      unfold attributeForm
      cases hv : a.value with
      | none => rfl
      | some v => exact h a (List.mem_cons_self ..) v hv
    have hrest := ih fun a' ha => h a' (List.mem_cons_of_mem _ ha)
    show (attributeForm b a).found ++ (attributesForm b as).found = []
    rw [hone, hrest]
    rfl

/-- Nothing is found in a document when nothing is found in its texts and values. -/
theorem found_nodesForm_eq_nil (b : Bindings) {ns : List Node} (hl : Legal ns)
    (hn : ∀ tag ∈ tagsOf ns, writtenName tag.name = tag.name)
    (ht : ∀ t ∈ textsOf ns, (localizeText b t).found = [])
    (hv : ∀ v ∈ valuesOf ns, (localizeText b v).found = []) :
    (nodesForm b false ns).found = [] := by
  simp only [mem_valuesOf] at hv
  induction ns using nodes_induction with
  | nil => rfl
  | text data ns ih =>
    simp only [tagsOf_text, textsOf_text, List.forall_mem_cons] at hn ht hv
    rw [nodesForm, Localized.found_append, ih (legal_text.1 hl).2 hn ht.2 hv, List.append_nil]
    exact ht.1
  | comment data ns ih =>
    simp only [tagsOf_comment, textsOf_comment] at hn ht hv
    rw [nodesForm, Localized.found_append, ih (legal_comment.1 hl).2 hn ht hv, nodeForm]
    rfl
  | element tag children ns ihc ih =>
    obtain ⟨⟨-, -, hraw⟩, hlc, hlns⟩ := legal_element.1 hl
    have hattrs : (attributesForm b tag.attributes).found = [] :=
      found_attributesForm_eq_nil b fun a ha v hav => hv v ⟨tag, by simp, a, ha, hav⟩
    have hname := hn tag (by simp)
    have hchildren : (nodesForm b (isRaw tag.name) children).found = [] := by
      cases hr : isRaw tag.name with
      | true =>
        have hcontent := hraw hr
        unfold IsRawContent at hcontent
        split at hcontent
        · rfl
        · simp [nodesForm, nodeForm]
        · exact hcontent.elim
      | false =>
        refine ihc (hlc hr) (fun t h1 => hn t ?_) (fun t h1 => ht t ?_) ?_
        · simp [hr, h1]
        · simp [hr, h1]
        · rintro v ⟨t, h1, ha⟩
          exact hv v ⟨t, by simp [hr, h1], ha⟩
    have hrest := ih hlns (fun t h1 => hn t (by simp [h1])) (fun t h1 => ht t (by simp [h1]))
      (by rintro v ⟨t, h1, ha⟩; exact hv v ⟨t, by simp [h1], ha⟩)
    rw [nodesForm, Localized.found_append, hrest, nodeForm, hname]
    split
    · simp [hattrs]
    · simp [hattrs, hchildren]

theorem writtenName_eq_self {name : Text} (h : ¬ "wx-".toList <+: name) : writtenName name = name := by
  unfold writtenName
  cases hd : Text.dropLeading? "wx-".toList name with
  | none => rfl
  | some rest => exact absurd ⟨rest, (Text.eq_append_of_dropLeading? hd).symm⟩ h

/-- Documents without Han characters and backslashes in texts and values come back unchanged when they
are written and read again, and no text is found in them. -/
theorem plain_document_round_trip (b : Bindings) {d : Document} (hl : Legal d.children)
    (ha : TextsApart d.children) (hq : Quotable d.children)
    (hn : ∀ tag ∈ tagsOf d.children, ¬ "wx-".toList <+: tag.name)
    (ht : ∀ t ∈ textsOf d.children, IsPlain t) (hv : ∀ v ∈ valuesOf d.children, IsPlain v) :
    parse (nodesForm b false d.children).output = .ok d ∧
      (nodesForm b false d.children).found = [] := by
  have hnames : ∀ tag ∈ tagsOf d.children, writtenName tag.name = tag.name :=
    fun tag h => writtenName_eq_self (hn tag h)
  have hsame : localizedNodes b false d.children = d.children := by
    unfold localizedNodes
    refine (mapNodes_congr hl hnames ?_ ?_).trans (mapNodes_id false d.children)
    · intro t h
      rw [localizeText_of_plain b (ht t h)]
      rfl
    · intro v h
      rw [localizeText_of_plain b (hv v h)]
      exact quotable_eq_self (hq v h)
  constructor
  · rw [output_nodesForm, hsame]
    exact parse_nodesText hl ha hq
  · refine found_nodesForm_eq_nil b hl hnames ?_ ?_
    · intro t h
      rw [localizeText_of_plain b (ht t h)]
      rfl
    · intro v h
      rw [localizeText_of_plain b (hv v h)]
      rfl

/-- A page with attributes of every form, an element without content, one that closes itself, and raw
text that is natural. -/
def plainPage : List Node :=
  [.comment " page ".toList,
    .element ⟨"view".toList, [⟨"class".toList, some "row".toList⟩, ⟨"hidden".toList, none⟩]⟩
      [.text "1 < 2, \x7b\x7b n + 'a' \x7d\x7d".toList,
        .element ⟨"BR".toList, []⟩ [],
        .element ⟨"input".toList, [⟨"value".toList, some "say \"hi\"".toList⟩]⟩ []],
    .element ⟨"wxs".toList, [⟨"module".toList, some "m".toList⟩]⟩
      [.text "var a = '<b>你好</b>'".toList]]

theorem plain_page_round_trip :
    parse (nodesForm {} false plainPage).output = .ok ⟨plainPage⟩ ∧
      (nodesForm {} false plainPage).found = [] := by
  refine plain_document_round_trip (d := ⟨plainPage⟩) {} ?_ ?_ ?_ ?_ ?_ ?_
  · decide +kernel
  · decide +kernel
  · decide +kernel
  · decide +kernel
  · decide +kernel
  · decide +kernel

end Phrasebook.Template
