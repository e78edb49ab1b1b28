import Phrasebook.Dictionary.Basic
import Phrasebook.Proofs.Outlines
import Phrasebook.Proofs.TemplateTraces
import Phrasebook.Proofs.WrittenDocuments

/-!
Localizing a template a second time.

When the document that a run has written is legal, a second run reads it back, and it leaves output and
dictionary alone exactly when nothing is left to do in this document: no name has the mark `wx-`, and
in its texts and values no Han character stands outside of code and no code has a literal to wrap or an
escape to restore (`template_second_run_iff`). The same holds of an output that is read as another
document, as long as it is the markup of that one (`secondRunIdle_iff`).

That is shown by a measure. Every change adds closing parentheses, or it takes none away and makes the
output shorter (`Moves`), so no two changes make up for each other.
-/

namespace Phrasebook.Template

open Markup

/-! ## Settled texts -/

/-- There is nothing left to do in a part of a text. -/
def Span.Settled : Span → Prop
  | .literal text => ∀ c ∈ text, isHan c = false
  | .code inner => ∀ tree, Script.parse inner = .ok tree →
      Script.Settled {} .expression tree ∧ Text.normalizeEscapes inner = inner

/-- There is nothing left to do in a text. -/
def SettledText (t : Text) : Prop := ∀ s ∈ spans t, s.Settled

/-- There is nothing left to do in a document. -/
structure SettledDocument (d : Document) : Prop where
  names : ∀ tag ∈ tagsOf d.children, ¬ "wx-".toList <+: tag.name
  texts : ∀ t ∈ textsOf d.children, SettledText t
  values : ∀ v ∈ valuesOf d.children, SettledText v

theorem settled_code_iff {inner : Text} :
    (Span.code inner).Settled ↔ (Script.localizeExpression {} inner).output = inner := by
  unfold Span.Settled
  constructor
  · intro h
    unfold Script.localizeExpression
    cases hp : Script.parse inner with
    | error e => rfl
    | ok tree =>
      obtain ⟨hs, hn⟩ := h tree hp
      have hnil := Script.changesIn_eq_nil_iff.2 hs
      dsimp only
      rw [hnil]
      exact hn
  · intro h tree hp
    by_cases hnil : Script.changesIn {} .expression tree = []
    · refine ⟨Script.changesIn_eq_nil_iff.1 hnil, ?_⟩
      simp only [Script.localizeExpression, hp] at h
      rw [hnil] at h
      exact h
    · -- a change would leave a closing parenthesis
      have hlt := Script.closers_lt_applyChanges hnil
      rw [Script.source_of_parse hp] at hlt
      simp only [Script.localizeExpression, hp] at h
      have heq := (restores_normalizeEscapes
        (Script.applyChanges {} inner (Script.changesIn {} .expression tree))).closers_eq
      rw [h] at heq
      omega

theorem settledText_iff {t : Text} : SettledText t ↔ (localizeText {} t).output = t := by
  induction t using text_induction with
  | nil =>
    have hspans : spans [] = [] := rfl
    simp [SettledText, hspans, localizeText_nil]
  | code inner t hb ih =>
    have hsettled : SettledText (braced inner ++ t) ↔ (Span.code inner).Settled ∧ SettledText t := by
      simp [SettledText, spans_code hb]
    rw [hsettled, settled_code_iff, ih, output_code {} hb]
    constructor
    · rintro ⟨hcode, ht⟩
      rw [hcode, ht]
      simp [braced]
    · intro h
      have hboth := Moves.append id id (Script.eq_or_moves_localizeExpression inner)
        (eq_or_moves_localizeText t)
      rcases hboth with hboth | hmoves
      · exact hboth
      · -- a change in the code or behind it would show in the whole
        exfalso
        have hclosers := congrArg closers h
        have hlength := congrArg List.length h
        simp only [braced, List.cons_append, List.append_assoc, closers_cons, closers_append,
          closers_nil, List.length_cons, List.length_append, List.length_nil] at hclosers hlength
        unfold Moves at hmoves
        simp only [closers_append, List.length_append] at hmoves
        omega
  | char c t hc hi ih =>
    have hsettled : SettledText (c :: t) ↔ SettledText t := by
      unfold SettledText
      rw [spans_char hi]
      cases spans t with
      | nil => simp [pushLiteral, Span.Settled, hc]
      | cons s rest =>
        cases s with
        | literal l => simp [pushLiteral, Span.Settled, hc]
        | code inner => simp [pushLiteral, Span.Settled, hc]
    rw [hsettled, ih, output_char {} hc hi]
    simp
  | run w t hne hw ht ih =>
    obtain ⟨c, w', rfl⟩ := List.exists_cons_of_ne_nil hne
    have hc := hw c (List.mem_cons_self ..)
    refine iff_of_false ?_ ?_
    · intro h
      rcases spans_run hne hw t with ⟨l, rest, -, hs⟩ | hs
      · have hno : isHan c = false := h (.literal (c :: w' ++ l)) (hs ▸ List.mem_cons_self ..) c (by simp)
        rw [hc] at hno
        cases hno
      · have hno : isHan c = false := h (.literal (c :: w')) (hs ▸ List.mem_cons_self ..) c (by simp)
        rw [hc] at hno
        cases hno
    · intro h
      have hplain := congrArg Localized.found (localizeText_eq_plain_iff.2 h)
      rw [localizeText_run {} hne hw ht] at hplain
      cases hplain

/-! ## Every change of a document shows -/

theorem closers_eq_zero_of_mem_selfClosingNames {name : Text} (h : name ∈ selfClosingNames) :
    closers name = 0 := by
  have hall : ∀ n ∈ selfClosingNames, closers n = 0 := by decide
  exact hall name h

/-- The closing parentheses of an element. A tag that closes itself has none in its name, so the end tag
that it does without would have added none. -/
theorem closers_nodeText_element (tag : Tag) (children : List Node) :
    closers (nodeText (.element tag children)) =
      2 * closers tag.name + closers (tag.attributes.flatMap attributeText) +
        closers (nodesText children) := by
  rw [nodeText]
  split
  · next h =>
    obtain ⟨hc, hn⟩ := Bool.and_eq_true_iff.1 h
    obtain rfl := List.isEmpty_iff.1 hc
    have hzero := closers_eq_zero_of_mem_selfClosingNames (List.contains_iff_mem.1 hn)
    simp [startText, tagEnd, nodesText, hzero]
  · have hend : closers (tagEnd false) = 0 := by decide
    have hclose : closers "</".toList = 0 := by decide
    simp only [startText, closers_append, closers_cons, closers_nil, hend, hclose, Char.reduceEq,
      if_false]
    omega

theorem length_nodeText_element (tag : Tag) (children : List Node) :
    (nodeText (.element tag children)).length =
      tag.name.length + (tag.attributes.flatMap attributeText).length + (nodesText children).length +
        if children.isEmpty && selfClosingNames.contains tag.name then 4 else tag.name.length + 5 := by
  rw [nodeText]
  split
  · next h =>
    obtain rfl := List.isEmpty_iff.1 (Bool.and_eq_true_iff.1 h).1
    have hend : (tagEnd true).length = 3 := by decide
    simp only [startText, nodesText, List.length_append, List.length_cons, List.length_nil, hend]
    omega
  · have hend : (tagEnd false).length = 1 := by decide
    have hclose : "</".toList.length = 2 := by decide
    simp only [startText, List.length_append, List.length_cons, List.length_nil, hend, hclose]
    omega

theorem closers_escapeQuotes (v : Text) : closers (escapeQuotes v) = closers v := by
  induction v with
  | nil => rfl
  | cons c v ih =>
    have hcons : escapeQuotes (c :: v) = (if c = '"' then "&quot;".toList else [c]) ++ escapeQuotes v :=
      List.flatMap_cons
    rw [hcons, closers_append, ih, closers_cons]
    split
    · next h =>
      subst h
      simp
    · simp
      omega

theorem closers_quotable (v : Text) : closers (quotable v) = closers v := by
  unfold quotable
  split
  · exact closers_escapeQuotes v
  · rfl

theorem length_escapeQuotes (v : Text) : (escapeQuotes v).length = v.length + 5 * v.count '"' := by
  induction v with
  | nil => rfl
  | cons c v ih =>
    have hcons : escapeQuotes (c :: v) = (if c = '"' then "&quot;".toList else [c]) ++ escapeQuotes v :=
      List.flatMap_cons
    rw [hcons, List.length_append, ih, List.length_cons, List.count_cons]
    by_cases h : c = '"'
    · subst h
      have hreference : "&quot;".toList.length = 6 := rfl
      rw [if_pos rfl, hreference]
      simp
      omega
    · simp [h]
      omega

/-- Restoring escapes shortens a value as it is written. -/
theorem length_quotable_lt {v w : Text} (hr : Restores v w) (hlt : w.length < v.length) :
    (quotable w).length < (quotable v).length := by
  have hdouble := hr.count_eq '"' (by decide) (by decide) (by decide)
  have hboth : ('"' ∈ w ∧ '\'' ∈ w) ↔ ('"' ∈ v ∧ '\'' ∈ v) := by
    rw [hr.mem_iff (by decide) (by decide) (by decide), hr.mem_iff (by decide) (by decide) (by decide)]
  unfold quotable
  simp only [hboth]
  split
  · rw [length_escapeQuotes, length_escapeQuotes, hdouble]
    omega
  · exact hlt

/-- A value is settled, or its change shows. -/
theorem settled_or_moves_value (v : Text) :
    SettledText v ∨ Moves (quotable v) (quotable (localizeText {} v).output) := by
  rw [settledText_iff]
  rcases localizeText_cases v with hlt | ⟨-, hr⟩
  · refine .inr (.inl ?_)
    rw [closers_quotable, closers_quotable]
    exact hlt
  · rcases hr.sameOrShorter with hsame | hlt
    · exact .inl hsame
    · refine .inr (.inr ⟨?_, length_quotable_lt hr hlt⟩)
      rw [closers_quotable, closers_quotable, hr.closers_eq]

/-- How much an attribute adds to its name and its value. -/
theorem size_attributeText (a : Attribute) :
    closers (attributeText a) = closers a.name + (a.value.map closers).getD 0 ∧
      (attributeText a).length =
        a.name.length + 1 + (a.value.map fun v => (quotable v).length + 3).getD 0 := by
  obtain ⟨name, value⟩ := a
  cases value with
  | none => simp [attributeText]
  | some v =>
    obtain ⟨q, hq, -, hquote⟩ := quoteValue_quotable_eq v
    have hne : q ≠ ')' := by
      rintro rfl
      simp at hq
    rw [quoteValue_quotable] at hquote
    constructor
    · simp [attributeText, hquote, hne, closers_quotable]
    · simp only [attributeText, hquote, List.length_append, List.length_cons, List.length_nil,
        Option.map_some, Option.getD_some]

/-- An attribute as localizing writes it. -/
def localizedAttribute (b : Bindings) (a : Attribute) : Attribute :=
  a.mapValue fun v => quotable (localizeText b v).output

/-- There is nothing left to do in an attribute. -/
def SettledAttribute (a : Attribute) : Prop := ∀ v, a.value = some v → SettledText v

theorem attributeText_of_settled {a : Attribute} (h : SettledAttribute a) :
    attributeText (localizedAttribute {} a) = attributeText a := by
  obtain ⟨name, value⟩ := a
  cases value with
  | none => rfl
  | some v =>
    have hv := settledText_iff.1 (h v rfl)
    simp only [localizedAttribute, Attribute.mapValue, Option.map_some, attributeText, hv,
      quoteValue_quotable]

theorem settled_or_moves_attribute (a : Attribute) :
    SettledAttribute a ∨ Moves (attributeText a) (attributeText (localizedAttribute {} a)) := by
  obtain ⟨hc, hl⟩ := size_attributeText a
  obtain ⟨hc', hl'⟩ := size_attributeText (localizedAttribute {} a)
  obtain ⟨name, value⟩ := a
  cases value with
  | none => exact .inl nofun
  | some v =>
    rcases settled_or_moves_value v with h | h
    · left
      rintro w hw
      obtain rfl := Option.some.inj hw
      exact h
    · right
      have htwice : quotable (quotable (localizeText {} v).output) =
          quotable (localizeText {} v).output := quotable_eq_self (not_both_quotable _)
      unfold Moves at h ⊢
      rw [closers_quotable] at h
      rw [hc, hl, hc', hl']
      simp only [localizedAttribute, Attribute.mapValue, Option.map_some, Option.getD_some, htwice]
      omega

theorem attributesText_of_settled {as : List Attribute} (h : ∀ a ∈ as, SettledAttribute a) :
    (as.map (localizedAttribute {})).flatMap attributeText = as.flatMap attributeText := by
  rw [List.flatMap_map]
  exact List.flatMap_congr fun a ha => attributeText_of_settled (h a ha)

theorem settled_or_moves_attributes (as : List Attribute) :
    (∀ a ∈ as, SettledAttribute a) ∨
      Moves (as.flatMap attributeText) ((as.map (localizedAttribute {})).flatMap attributeText) := by
  induction as with
  | nil => exact .inl nofun
  | cons a as ih =>
    rw [List.map_cons, List.flatMap_cons, List.flatMap_cons, List.forall_mem_cons]
    exact Moves.append attributeText_of_settled attributesText_of_settled
      (settled_or_moves_attribute a) ih

theorem writtenName_cases (name : Text) :
    writtenName name = name ∨
      closers (writtenName name) = closers name ∧ (writtenName name).length + 3 = name.length ∧
        selfClosingNames.contains name = false := by
  unfold writtenName
  cases hd : Text.dropLeading? "wx-".toList name with
  | none => exact .inl rfl
  | some rest =>
    right
    obtain rfl := Text.eq_append_of_dropLeading? hd
    refine ⟨by simp, by simp, ?_⟩
    have hall : ∀ n ∈ selfClosingNames, n.take 3 ≠ "wx-".toList := by decide
    rw [← Bool.not_eq_true, List.contains_iff_mem]
    exact fun hm => hall _ hm rfl

/-- A name with the mark does not stay. -/
theorem not_isPrefix_of_writtenName_eq {name : Text} (h : writtenName name = name) :
    ¬ "wx-".toList <+: name := by
  rintro ⟨rest, rfl⟩
  unfold writtenName at h
  rw [Text.dropLeading?_append] at h
  have hlength := congrArg List.length h
  simp only [Option.getD_some, List.length_append] at hlength
  have hmark : "wx-".toList.length = 3 := rfl
  omega

theorem writtenName_of_isRaw {name : Text} (h : isRaw name = true) : writtenName name = name := by
  apply writtenName_eq_self
  rintro ⟨rest, rfl⟩
  obtain ⟨raw, hraw, heq⟩ := List.any_eq_true.1 h
  have hall : ∀ n ∈ rawNames, (Text.lowerAscii n).take 3 ≠ "wx-".toList := by decide
  apply hall raw hraw
  have hlower : Text.lowerAscii ("wx-".toList ++ rest) = Text.lowerAscii raw := by
    simpa [Text.eqIgnoringCase] using heq
  rw [← hlower]
  rfl

/-- There is nothing left to do in a node, apart from its content. -/
def SettledNode : Node → Prop
  | .text data => SettledText data
  | .comment _ => True
  | .element tag _ => ¬ "wx-".toList <+: tag.name ∧ ∀ a ∈ tag.attributes, SettledAttribute a

/-- There is nothing left to do in a row of trees. -/
def SettledNodes (ns : List Node) : Prop := ∀ n ∈ nodesOf ns, SettledNode n

theorem settledDocument_iff_nodes {d : Document} : SettledDocument d ↔ SettledNodes d.children := by
  constructor
  · rintro ⟨hnames, htexts, hvalues⟩ n hn
    cases n with
    | text data => exact htexts data (mem_textsOf.2 hn)
    | comment data => trivial
    | element tag children =>
      have htag : tag ∈ tagsOf d.children := List.mem_filterMap.2 ⟨_, hn, rfl⟩
      exact ⟨hnames tag htag, fun a ha v hv => hvalues v (mem_valuesOf.2 ⟨tag, htag, a, ha, hv⟩)⟩
  · intro h
    have helement : ∀ tag ∈ tagsOf d.children,
        ¬ "wx-".toList <+: tag.name ∧ ∀ a ∈ tag.attributes, SettledAttribute a := by
      intro tag htag
      obtain ⟨n, hn, hnt⟩ := List.mem_filterMap.1 htag
      cases n with
      | text data => cases hnt
      | comment data => cases hnt
      | element tag' children =>
        obtain rfl := Option.some.inj hnt
        exact h _ hn
    refine ⟨fun tag htag => (helement tag htag).1, fun t ht => h _ (mem_textsOf.1 ht), ?_⟩
    intro v hv
    obtain ⟨tag, htag, a, ha, hav⟩ := mem_valuesOf.1 hv
    exact (helement tag htag).2 a ha v hav

theorem settledNodes_text {data : Text} {ns : List Node} :
    SettledNodes (.text data :: ns) ↔ SettledText data ∧ SettledNodes ns := by
  simp [SettledNodes, SettledNode]

theorem settledNodes_comment {data : Text} {ns : List Node} :
    SettledNodes (.comment data :: ns) ↔ SettledNodes ns := by
  simp [SettledNodes, SettledNode]

theorem settledNodes_element {tag : Tag} {children ns : List Node} :
    SettledNodes (.element tag children :: ns) ↔
      (¬ "wx-".toList <+: tag.name ∧ ∀ a ∈ tag.attributes, SettledAttribute a) ∧
        (isRaw tag.name = false → SettledNodes children) ∧ SettledNodes ns := by
  unfold SettledNodes
  rw [nodesOf_element, List.forall_mem_cons, List.forall_mem_append]
  cases isRaw tag.name <;> simp [SettledNode]

theorem nodeText_of_settled {tag : Tag} {children children' : List Node}
    (hname : ¬ "wx-".toList <+: tag.name) (hattrs : ∀ a ∈ tag.attributes, SettledAttribute a)
    (he : children'.isEmpty = children.isEmpty) (hc : nodesText children' = nodesText children) :
    nodeText (.element ⟨writtenName tag.name, tag.attributes.map (localizedAttribute {})⟩ children') =
      nodeText (.element tag children) := by
  have hstart : startText ⟨tag.name, tag.attributes.map (localizedAttribute {})⟩ = startText tag := by
    simp only [startText, attributesText_of_settled hattrs]
  rw [writtenName_eq_self hname, nodeText, nodeText, he, hc, hstart]

/-- A settled document is written as it is. -/
theorem nodesText_of_settled {ns : List Node} (hl : Legal ns) (hs : SettledNodes ns) :
    nodesText (localizedNodes {} false ns) = nodesText ns := by
  unfold localizedNodes
  induction ns using nodes_induction with
  | nil => rfl
  | text data ns ih =>
    obtain ⟨hdata, hns⟩ := settledNodes_text.1 hs
    rw [mapNodes, Node.map, nodesText, nodesText, ih (legal_text.1 hl).2 hns]
    show (localizeText {} data).output ++ _ = _
    rw [settledText_iff.1 hdata, nodeText]
  | comment data ns ih =>
    rw [mapNodes, Node.map, nodesText, nodesText, ih (legal_comment.1 hl).2 (settledNodes_comment.1 hs)]
  | element tag children ns ihc ih =>
    obtain ⟨⟨-, -, hraw⟩, hlc, hlns⟩ := legal_element.1 hl
    obtain ⟨⟨hname, hattrs⟩, hchildren, hns⟩ := settledNodes_element.1 hs
    have hcontent : nodesText (mapNodes writtenName (fun t => (localizeText {} t).output)
        (fun v => quotable (localizeText {} v).output) (isRaw (writtenName tag.name)) children) =
          nodesText children := by
      rw [writtenName_eq_self hname]
      cases hr : isRaw tag.name with
      | true => rw [mapNodes_of_isRawContent (hraw hr)]
      | false => exact ihc (hlc hr) (hchildren hr)
    rw [mapNodes, Node.map, nodesText, nodesText, ih hlns hns]
    exact congrArg (· ++ _) (nodeText_of_settled hname hattrs (isEmpty_mapNodes ..) hcontent)

theorem settled_or_moves_element {tag : Tag} {children children' : List Node} {C : Prop}
    (he : children'.isEmpty = children.isEmpty) (hC : C → nodesText children' = nodesText children)
    (hc : C ∨ Moves (nodesText children) (nodesText children')) :
    (((¬ "wx-".toList <+: tag.name ∧ ∀ a ∈ tag.attributes, SettledAttribute a) ∧ C) ∧
        nodeText (.element ⟨writtenName tag.name, tag.attributes.map (localizedAttribute {})⟩ children') =
          nodeText (.element tag children)) ∨
      Moves (nodeText (.element tag children)) (nodeText
        (.element ⟨writtenName tag.name, tag.attributes.map (localizedAttribute {})⟩ children')) := by
  have hattrs := settled_or_moves_attributes tag.attributes
  have hattrs' := closers_and_length_le attributesText_of_settled hattrs
  have hc' := closers_and_length_le hC hc
  unfold Moves at hattrs hc ⊢
  rw [closers_nodeText_element, closers_nodeText_element, length_nodeText_element,
    length_nodeText_element]
  dsimp only
  rcases writtenName_cases tag.name with hname | ⟨hclosers, hlength, hself⟩
  · rcases hattrs with hattrs | hattrs
    · rcases hc with hc | hc
      · have hmark := not_isPrefix_of_writtenName_eq hname
        exact .inl ⟨⟨⟨hmark, hattrs⟩, hc⟩, nodeText_of_settled hmark hattrs he (hC hc)⟩
      · right
        rw [hname, he]
        omega
    · right
      rw [hname, he]
      omega
  · -- a tag that now closes itself is shorter than the two tags before
    right
    rw [hclosers, hself, Bool.and_false, if_neg Bool.false_ne_true]
    split
    · omega
    · omega

/-- A document is settled and written as it is, or its change shows in what is written. `raw` says
whether the texts of its top level stay. -/
theorem settled_or_moves {ns : List Node} (hl : Legal ns) (raw : Bool) :
    ((raw = false → SettledNodes ns) ∧ nodesText (localizedNodes {} raw ns) = nodesText ns) ∨
      Moves (nodesText ns) (nodesText (localizedNodes {} raw ns)) := by
  unfold localizedNodes
  induction ns using nodes_induction generalizing raw with
  | nil => exact .inl ⟨fun _ n hn => absurd hn List.not_mem_nil, rfl⟩
  | text data ns ih =>
    have htext : ((raw = false → SettledText data) ∧
        (if raw then data else (localizeText {} data).output) = data) ∨
          Moves data (if raw then data else (localizeText {} data).output) := by
      cases raw with
      | true => exact .inl ⟨by simp, rfl⟩
      | false => exact (eq_or_moves_localizeText data).imp_left fun h => ⟨fun _ => settledText_iff.2 h, h⟩
    rw [mapNodes, Node.map, nodesText, nodesText, nodeText, nodeText, settledNodes_text]
    refine (Moves.append And.right And.right htext (ih (legal_text.1 hl).2 raw)).imp_left ?_
    rintro ⟨⟨hdata, hkept⟩, hns, hrest⟩
    exact ⟨fun hr => ⟨hdata hr, hns hr⟩, by rw [hkept, hrest]⟩
  | comment data ns ih =>
    rw [mapNodes, Node.map, nodesText, nodesText, settledNodes_comment]
    refine (Moves.append (fun _ => rfl) And.right (.inl trivial)
      (ih (legal_comment.1 hl).2 raw)).imp_left ?_
    rintro ⟨-, hns, hrest⟩
    exact ⟨hns, by rw [hrest]⟩
  | element tag children ns ihc ih =>
    obtain ⟨⟨-, -, hraw⟩, hlc, hlns⟩ := legal_element.1 hl
    have hcontent : ((isRaw (writtenName tag.name) = false → SettledNodes children) ∧
        nodesText (localizedNodes {} (isRaw (writtenName tag.name)) children) = nodesText children) ∨
          Moves (nodesText children)
            (nodesText (localizedNodes {} (isRaw (writtenName tag.name)) children)) := by
      cases hr : isRaw tag.name with
      | false => exact ihc (hlc hr) _
      | true =>
        -- the text of a raw text element stays
        rw [writtenName_of_isRaw hr, hr, localizedNodes, mapNodes_of_isRawContent (hraw hr)]
        exact .inl ⟨by simp, rfl⟩
    rw [mapNodes, Node.map, nodesText, nodesText, settledNodes_element]
    refine (Moves.append And.right And.right
      (settled_or_moves_element (isEmpty_mapNodes ..) And.right hcontent) (ih hlns raw)).imp_left ?_
    rintro ⟨⟨⟨hnode, hchildren, -⟩, hkept⟩, hns, hrest⟩
    refine ⟨fun hr => ⟨hnode, fun hc => hchildren ?_, hns hr⟩, congrArg₂ (· ++ ·) hkept hrest⟩
    rw [writtenName_eq_self hnode.1, hc]

/-! ## The second run -/

/-- A second run on the output of a run succeeds, returns the same output, and leaves the tables and the
waiting requests of the dictionary as they are. -/
def SecondRunIdle (modulePath : Option Text) (dictionary : Dictionary) (r : Localized) : Prop :=
  ∃ again, localizeTemplate {} modulePath r.output = .ok again ∧ again.output = r.output ∧
    (dictionary.recordAll again.found).tables = dictionary.tables ∧
    (dictionary.recordAll again.found).pending = dictionary.pending

theorem not_mem_modulePath (depth : Nat) : '"' ∉ Bindings.modulePath {} depth := by
  unfold Bindings.modulePath
  split
  · decide
  · rw [List.mem_append, not_or]
    refine ⟨?_, by decide⟩
    intro h
    obtain ⟨l, hl, hm⟩ := List.mem_flatten.1 h
    rw [List.eq_of_mem_replicate hl] at hm
    exact absurd hm (by decide)

theorem attribute?_localized (b : Bindings) (tag : Tag) (written name : Text) :
    Tag.attribute? ⟨written, tag.attributes.map (localizedAttribute b)⟩ name =
      (tag.attribute? name).map fun v => quotable (localizeText b v).output := by
  unfold Tag.attribute?
  dsimp only
  induction tag.attributes with
  | nil => rfl
  | cons a as ih =>
    have hname : (localizedAttribute b a).name = a.name := rfl
    rw [List.map_cons, List.find?_cons, List.find?_cons, hname]
    split
    · rfl
    · exact ih

/-- What a run writes refers to the look-up module when it is asked to. -/
theorem declaresModule_written (path : Text) (d : Document) :
    declaresModule {} (written {} (some path) d) = true := by
  unfold declaresModule written
  dsimp only
  rw [filterMap_tag?_mergeTexts, List.filterMap_append, List.any_append, Bool.or_eq_true]
  unfold addedNodes
  cases hd : declaresModule {} d with
  | false =>
    left
    rfl
  | true =>
    right
    obtain ⟨tag, htag, hdecl⟩ := List.any_eq_true.1 hd
    obtain ⟨n, hn, hnt⟩ := List.mem_filterMap.1 htag
    rw [Bool.and_eq_true, beq_iff_eq, beq_iff_eq] at hdecl
    cases n with
    | text data => cases hnt
    | comment data => cases hnt
    | element tag' children =>
      obtain rfl := Option.some.inj hnt
      rw [List.any_eq_true]
      refine ⟨⟨writtenName tag'.name, tag'.attributes.map (localizedAttribute {})⟩, ?_, ?_⟩
      · rw [List.mem_filterMap, localizedNodes, mapNodes_eq_map]
        exact ⟨_, List.mem_map_of_mem hn, by rw [Node.map]; rfl⟩
      · have hname : writtenName "wxs".toList = "wxs".toList := by decide
        have hreceiver : quotable (localizeText {} (Bindings.receiver {})).output =
            Bindings.receiver {} := by
          decide +kernel
        rw [Bool.and_eq_true, beq_iff_eq, beq_iff_eq, attribute?_localized, hdecl.1, hdecl.2,
          Option.map_some, hreceiver]
        exact ⟨hname, rfl⟩

/-- A legal document is settled exactly when it is written as it is. -/
theorem settledDocument_iff {d : Document} (hl : Legal d.children) :
    SettledDocument d ↔ nodesText (localizedNodes {} false d.children) = nodesText d.children := by
  rw [settledDocument_iff_nodes]
  refine ⟨nodesText_of_settled hl, fun h => ?_⟩
  rcases settled_or_moves hl false with ⟨hs, -⟩ | hmoves
  · exact hs rfl
  · rw [h] at hmoves
    exact absurd hmoves (not_moves_self _)

theorem localizeTemplate_eq_ok_iff {b : Bindings} {modulePath : Option Text} {source : Text}
    {r : Localized} :
    localizeTemplate b modulePath source = .ok r ↔
      ∃ d, parse source = .ok d ∧ r = documentForm b modulePath d := by
  unfold localizeTemplate
  cases parse source with
  | error e => simp [Except.map]
  | ok d => simp [Except.map, eq_comm]

/-- A second run on a document that reads back finds nothing when nothing is left to do. -/
theorem found_of_settledDocument {d : Document} (hl : Legal d.children) (hs : SettledDocument d) :
    (nodesForm {} false d.children).found = [] := by
  have hfound : ∀ t, SettledText t → (localizeText {} t).found = [] := by
    intro t ht
    rw [localizeText_eq_plain_iff.2 (settledText_iff.1 ht)]
    rfl
  exact found_nodesForm_eq_nil {} hl (fun tag h => writtenName_eq_self (hs.names tag h))
    (fun t h => hfound t (hs.texts t h)) fun v h => hfound v (hs.values v h)

/-- The tag of the reference to the look-up module. -/
def referenceTag (src : Text) : Tag :=
  ⟨"wxs".toList, [⟨"src".toList, some src⟩, ⟨"module".toList, some (Bindings.receiver {})⟩]⟩

/-- The reference in front of a document is read as an element without content. -/
theorem readEvent_moduleReference {src : Text} (hsrc : '"' ∉ src) (total : Nat) (rest : Text) :
    readEvent total (Bindings.moduleReference {} src ++ rest) =
      .ok (.raw (referenceTag src) [], rest) := by
  have hname : IsTagName "wxs".toList := ⟨by decide, List.all_eq_true.1 (by decide)⟩
  have hfirst : IsAttributeName "src".toList := ⟨by decide, List.all_eq_true.1 (by decide)⟩
  have hsecond : IsAttributeName "module".toList :=
    ⟨by decide, List.all_eq_true.1 (by decide)⟩
  have hlegal : (referenceTag src).Legal := by
    refine ⟨hname, ?_⟩
    intro a ha
    rcases List.mem_cons.1 ha with rfl | ha
    · exact hfirst
    · obtain rfl := List.mem_singleton.1 ha
      exact hsecond
  have hvalue : ∀ a ∈ (referenceTag src).attributes, ∀ v, a.value = some v → '"' ∉ v := by
    intro a ha v hv
    rcases List.mem_cons.1 ha with rfl | ha
    · cases hv
      exact hsrc
    · obtain rfl := List.mem_singleton.1 ha
      cases hv
      decide
  have htext : Bindings.moduleReference {} src = startText (referenceTag src) ++
      tagEnd false ++ [] ++ ("</".toList ++ "wxs".toList ++ ['>']) := by
    have hnodes := nodesText_referenceNodes (b := {}) hsrc (by decide)
    exact (List.append_cancel_right hnodes).symm
  obtain ⟨start, hread⟩ := readEvent_startTag hlegal
    (fun a ha v hv hboth => hvalue a ha v hv hboth.1) total false
    ([] ++ ("</".toList ++ "wxs".toList ++ ['>'] ++ rest))
  have hvoid : isVoid "wxs".toList = false := by decide
  have hraw : isRaw "wxs".toList = true := by decide
  have hcontent : readRaw total start "wxs".toList
      ([] ++ ("</".toList ++ "wxs".toList ++ ['>'] ++ rest)) = .ok ([], rest) :=
    readRaw_append hraw (by decide) total start rest
  have hwxs : (referenceTag src).name = "wxs".toList := rfl
  rw [hwxs, hvoid, hraw, hcontent] at hread
  simp only [List.append_assoc] at htext hread
  rw [htext]
  simp only [List.append_assoc]
  exact hread

/-- An output that starts with the reference to the look-up module declares it. -/
theorem declaresModule_of_parse {src : Text} (hsrc : '"' ∉ src) {rest : Text} {d : Document}
    (h : parse (Bindings.moduleReference {} src ++ rest) = .ok d) : declaresModule {} d = true := by
  obtain ⟨es, hreads, rfl⟩ := parse_eq_ok_iff.1 h
  cases hreads with
  | @cons _ _ _ es _ hread _ =>
    rw [readEvent_moduleReference hsrc] at hread
    cases hread
    have houtline := outline_ofEvents (.raw (referenceTag src) [] :: es)
    rw [Builder.outlineOf, Event.outline, List.cons_append] at houtline
    obtain ⟨children, ns, hns⟩ := exists_element_of_outline houtline
    rw [declaresModule, hns]
    simp [Node.tag?, referenceTag, Tag.attribute?]

/-- A second run on an output that is the markup of the document read from it leaves output and
dictionary alone exactly when nothing is left to do in this document and it has the reference that is
asked for. -/
theorem secondRunIdle_iff {modulePath : Option Text} (hp : ∀ path ∈ modulePath, '"' ∉ path)
    (dictionary : Dictionary) {r : Localized} {d : Document} (hd : parse r.output = .ok d)
    (ho : nodesText d.children = r.output) :
    SecondRunIdle modulePath dictionary r ↔
      SettledDocument d ∧ (modulePath.isSome → declaresModule {} d = true) := by
  have hl := legal_of_parse hd
  have hform : (modulePath.isSome → declaresModule {} d = true) →
      documentForm {} modulePath d = nodesForm {} false d.children := by
    intro hdecl
    cases modulePath with
    | none => rfl
    | some path => rw [documentForm, hdecl rfl, if_pos rfl]
  rw [settledDocument_iff hl]
  constructor
  · rintro ⟨again, hagain, hsame, -, -⟩
    obtain ⟨d', hd', rfl⟩ := localizeTemplate_eq_ok_iff.1 hagain
    obtain rfl := Except.ok.inj (hd.symm.trans hd')
    have hdecl : modulePath.isSome → declaresModule {} d = true := by
      intro hsome
      obtain ⟨path, rfl⟩ := Option.isSome_iff_exists.1 hsome
      by_contra hno
      -- otherwise the output starts with the reference, which is read from it
      rw [documentForm, if_neg hno] at hsame
      have houtput : Bindings.moduleReference {} path ++ '\n' :: (nodesForm {} false d.children).output =
          r.output := by
        rw [← hsame]
        simp
      rw [← houtput] at hd
      exact hno (declaresModule_of_parse (hp path rfl) hd)
    rw [hform hdecl, output_nodesForm] at hsame
    exact ⟨hsame.trans ho.symm, hdecl⟩
  · rintro ⟨hsettled, hdecl⟩
    refine ⟨_, localizeTemplate_eq_ok_iff.2 ⟨d, hd, rfl⟩, ?_, ?_⟩
    · rw [hform hdecl, output_nodesForm, hsettled, ho]
    · rw [hform hdecl, found_of_settledDocument hl ((settledDocument_iff hl).2 hsettled)]
      exact ⟨rfl, rfl⟩

/-- The document of an output is read back exactly when it is legal, and then a second run leaves output
and dictionary alone exactly when nothing is left to do in this document. An output that is read as
another document, of which it is the markup, is left alone exactly when nothing is left to do in that
one, the reference to the look-up module included. -/
theorem template_second_run_iff {depth : Option Nat} {source : Text} {r : Localized}
    (h : localizeTemplate {} (depth.map (Bindings.modulePath {})) source = .ok r)
    (dictionary : Dictionary) :
    ∃ d, parse source = .ok d ∧
      (parse r.output = .ok (written {} (depth.map (Bindings.modulePath {})) d) ↔
        Legal (written {} (depth.map (Bindings.modulePath {})) d).children) ∧
      (Legal (written {} (depth.map (Bindings.modulePath {})) d).children →
        (SecondRunIdle (depth.map (Bindings.modulePath {})) (dictionary.recordAll r.found) r ↔
          SettledDocument (written {} (depth.map (Bindings.modulePath {})) d))) ∧
      ∀ d', parse r.output = .ok d' → nodesText d'.children = r.output →
        (SecondRunIdle (depth.map (Bindings.modulePath {})) (dictionary.recordAll r.found) r ↔
          SettledDocument d' ∧ (depth.isSome → declaresModule {} d' = true)) := by
  obtain ⟨d, hd, rfl⟩ := localizeTemplate_eq_ok_iff.1 h
  have hb : '"' ∉ Bindings.receiver {} := by decide
  have hp : ∀ path ∈ depth.map (Bindings.modulePath {}), '"' ∉ path := by
    intro path hpath
    obtain ⟨n, -, rfl⟩ := Option.map_eq_some_iff.1 hpath
    exact not_mem_modulePath n
  have hread := parse_written_iff hb hp d
  refine ⟨d, hd, hread, ?_, ?_⟩
  · intro hl
    rw [secondRunIdle_iff hp _ (hread.2 hl) (output_documentForm hb hp d).symm]
    refine and_iff_left ?_
    intro hsome
    obtain ⟨path, hpath⟩ := Option.isSome_iff_exists.1 hsome
    rw [hpath]
    exact declaresModule_written path d
  · intro d' hd' ho
    rw [secondRunIdle_iff hp _ hd' ho, Option.isSome_map]

/-- A page with natural text in a value, around code and in code, before and after its localization. -/
def pageTemplate (localized : Bool) : Text :=
  if localized then
    ("<wxs src=\"../mina-i18n.wxs\" module=\"i18n\"></wxs>\n" ++
      "<view title=\"\x7b\x7b i18n.t('标题') \x7d\x7d\">" ++
      "\x7b\x7b i18n.t('共') \x7d\x7d\x7b\x7b n < 2 ? i18n.t('一') : n \x7d\x7d</view>").toList
  else "<view title=\"标题\">共\x7b\x7b n < 2 ? '一' : n \x7d\x7d</view>".toList

/-- The output of the page is read back, and so is a tag whose name starts with a digit without its
mark, as text. -/
theorem template_second_run_idle_on_page :
    (localizeTemplate {} (some (Bindings.modulePath {} 1)) (pageTemplate false) =
        .ok ⟨pageTemplate true, ["标题".toList, ['共'], ['一']]⟩ ∧
      SecondRunIdle (some (Bindings.modulePath {} 1))
        ((Dictionary.new "zh-CN".toList []).recordAll ["标题".toList, ['共'], ['一']])
        ⟨pageTemplate true, ["标题".toList, ['共'], ['一']]⟩) ∧
    (localizeTemplate {} none "<wx-3/>".toList = .ok ⟨"<3></3>".toList, []⟩ ∧
      SecondRunIdle none (Dictionary.new "zh-CN".toList []) ⟨"<3></3>".toList, []⟩) := by
  have hpage : localizeTemplate {} (some (Bindings.modulePath {} 1)) (pageTemplate false) =
      .ok ⟨pageTemplate true, ["标题".toList, ['共'], ['一']]⟩ := by
    decide +kernel
  have hcheck : ((parse (pageTemplate false)).map fun d =>
      let d' := written {} (some (Bindings.modulePath {} 1)) d
      decide (Legal d'.children) && decide (∀ tag ∈ tagsOf d'.children, ¬ "wx-".toList <+: tag.name) &&
        decide (∀ t ∈ textsOf d'.children ++ valuesOf d'.children,
          (localizeText {} t).output = t)).toOption = some true := by
    decide +kernel
  have hdigit : localizeTemplate {} none "<wx-3/>".toList = .ok ⟨"<3></3>".toList, []⟩ := by
    decide +kernel
  have htext : parse "<3></3>".toList = .ok ⟨[.text "<3></3>".toList]⟩ := by rfl
  have hplain : (localizeText {} "<3></3>".toList).output = "<3></3>".toList := by decide +kernel
  refine ⟨⟨hpage, ?_⟩, hdigit, ?_⟩
  · obtain ⟨d, hd, -, hidle, -⟩ :=
      @template_second_run_iff (some 1) _ _ hpage (Dictionary.new "zh-CN".toList [])
    rw [hd] at hcheck
    have hall := Option.some.inj hcheck
    rw [Bool.and_eq_true, Bool.and_eq_true, decide_eq_true_eq, decide_eq_true_eq, decide_eq_true_eq,
      List.forall_mem_append] at hall
    obtain ⟨⟨hl, hnames⟩, htexts, hvalues⟩ := hall
    exact (hidle hl).2 ⟨hnames, fun t h => settledText_iff.2 (htexts t h),
      fun v h => settledText_iff.2 (hvalues v h)⟩
  · obtain ⟨d, -, -, -, hidle⟩ :=
      @template_second_run_iff none _ _ hdigit (Dictionary.new "zh-CN".toList [])
    refine (hidle _ htext rfl).2 ⟨settledDocument_iff_nodes.2 (settledNodes_text.2 ⟨?_, ?_⟩), nofun⟩
    · exact settledText_iff.2 hplain
    · simp [SettledNodes]

/-- A second run need not leave the output of a run alone: behind `<` the call becomes a tag, which the
second run closes. -/
theorem template_second_run_fails_on_comparison :
    ¬ ∀ (depth : Option Nat) (source : Text) (dictionary : Dictionary) (r : Localized),
      localizeTemplate {} (depth.map (Bindings.modulePath {})) source = .ok r →
        SecondRunIdle (depth.map (Bindings.modulePath {})) (dictionary.recordAll r.found) r := by
  intro h
  have hfirst : localizeTemplate {} none "<view>\x7b\x7ba<'你好'\x7d\x7d</view>".toList =
      .ok ⟨"<view>\x7b\x7ba<i18n.t('你好')\x7d\x7d</view>".toList, ["你好".toList]⟩ := by
    decide +kernel
  have hsecond : localizeTemplate {} none "<view>\x7b\x7ba<i18n.t('你好')\x7d\x7d</view>".toList =
      .ok ⟨"<view>\x7b\x7ba<i18n.t('你好')\x7d\x7d< view></i18n.t('你好')\x7d\x7d<></view>".toList,
        []⟩ := by
    decide +kernel
  obtain ⟨again, hagain, hsame, -⟩ := h none _ (Dictionary.new "zh-CN".toList []) _ hfirst
  have hboth := hsecond.symm.trans hagain
  obtain rfl := Except.ok.inj hboth
  exact absurd hsame (by decide +kernel)

end Phrasebook.Template
