import Phrasebook.Template.Localize
import Mathlib.Data.List.Chain

/-!
Documents as trees. Proofs about them run along rows of siblings (`nodes_induction`), and conditions
on them are conditions on the single nodes of `nodesOf`, which leaves out what stands in raw text
elements:

* `Legal`: names, values and data as reading markup can give them;
* `TextsApart`: no text next to a text.

Localizing changes a document in three respects, its names, its texts and the values of its attributes
(`mapNodes`); the rest of the tree stays.
-/

namespace Phrasebook.Markup

theorem nodes_induction {motive : List Node → Prop} (nil : motive [])
    (text : ∀ data ns, motive ns → motive (.text data :: ns))
    (comment : ∀ data ns, motive ns → motive (.comment data :: ns))
    (element : ∀ tag children ns, motive children → motive ns →
      motive (.element tag children :: ns)) :
    ∀ ns, motive ns
  | [] => nil
  | .text data :: ns => text data ns (nodes_induction nil text comment element ns)
  | .comment data :: ns => comment data ns (nodes_induction nil text comment element ns)
  | .element tag children :: ns =>
    element tag children ns (nodes_induction nil text comment element children)
      (nodes_induction nil text comment element ns)

/-! ## The nodes of a document -/

mutual

def Node.nodes : Node → List Node
  | .text data => [.text data]
  | .comment data => [.comment data]
  | .element tag children =>
    .element tag children :: if isRaw tag.name then [] else nodesOf children

/-- All nodes of a row of trees, without the contents of raw text elements. -/
def nodesOf : List Node → List Node
  | [] => []
  | n :: ns => n.nodes ++ nodesOf ns

end

/-- The text of a text node. -/
def Node.text? : Node → Option Text
  | .text data => some data
  | _ => none

def Node.isText (n : Node) : Bool := n.text?.isSome

/-- What stands in an element. -/
def Node.content : Node → List Node
  | .element _ children => children
  | _ => []

/-- The tags of a row of trees. -/
def tagsOf (ns : List Node) : List Tag := (nodesOf ns).filterMap Node.tag?

/-- The texts of a row of trees that stand outside of raw text elements. -/
def textsOf (ns : List Node) : List Text := (nodesOf ns).filterMap Node.text?

/-- The attribute values of a row of trees. -/
def valuesOf (ns : List Node) : List Text :=
  (tagsOf ns).flatMap fun tag => tag.attributes.filterMap Attribute.value

theorem nodesOf_append (ns ms : List Node) : nodesOf (ns ++ ms) = nodesOf ns ++ nodesOf ms := by
  induction ns with
  | nil => simp [nodesOf]
  | cons n ns ih => simp [nodesOf, ih]

@[simp] theorem nodesOf_nil : nodesOf [] = [] := by simp [nodesOf]

@[simp] theorem nodesOf_text (data : Text) (ns : List Node) :
    nodesOf (.text data :: ns) = .text data :: nodesOf ns := by
  simp [nodesOf, Node.nodes]

@[simp] theorem nodesOf_comment (data : Text) (ns : List Node) :
    nodesOf (.comment data :: ns) = .comment data :: nodesOf ns := by
  simp [nodesOf, Node.nodes]

@[simp] theorem nodesOf_element (tag : Tag) (children ns : List Node) :
    nodesOf (.element tag children :: ns) =
      .element tag children :: ((if isRaw tag.name then [] else nodesOf children) ++ nodesOf ns) := by
  simp [nodesOf, Node.nodes]

@[simp] theorem tagsOf_text (data : Text) (ns : List Node) : tagsOf (.text data :: ns) = tagsOf ns := by
  simp [tagsOf, List.filterMap_cons, Node.tag?]

@[simp] theorem tagsOf_comment (data : Text) (ns : List Node) :
    tagsOf (.comment data :: ns) = tagsOf ns := by
  simp [tagsOf, List.filterMap_cons, Node.tag?]

@[simp] theorem tagsOf_element (tag : Tag) (children ns : List Node) :
    tagsOf (.element tag children :: ns) =
      tag :: ((if isRaw tag.name then [] else tagsOf children) ++ tagsOf ns) := by
  unfold tagsOf
  split <;> simp [Node.tag?, *]

@[simp] theorem textsOf_text (data : Text) (ns : List Node) :
    textsOf (.text data :: ns) = data :: textsOf ns := by
  simp [textsOf, Node.text?]

@[simp] theorem textsOf_comment (data : Text) (ns : List Node) :
    textsOf (.comment data :: ns) = textsOf ns := by
  simp [textsOf, List.filterMap_cons, Node.text?]

@[simp] theorem textsOf_element (tag : Tag) (children ns : List Node) :
    textsOf (.element tag children :: ns) =
      (if isRaw tag.name then [] else textsOf children) ++ textsOf ns := by
  unfold textsOf
  split <;> simp [List.filterMap_cons, Node.text?, *]

theorem mem_textsOf {ns : List Node} {data : Text} :
    data ∈ textsOf ns ↔ .text data ∈ nodesOf ns := by
  unfold textsOf
  rw [List.mem_filterMap]
  constructor
  · rintro ⟨n, hn, ht⟩
    cases n with
    | text data' =>
      obtain rfl := Option.some.inj ht
      exact hn
    | element tag children => cases ht
    | comment data => cases ht
  · intro hn
    exact ⟨_, hn, rfl⟩

theorem mem_valuesOf {ns : List Node} {v : Text} :
    v ∈ valuesOf ns ↔ ∃ tag ∈ tagsOf ns, ∃ a ∈ tag.attributes, a.value = some v := by
  simp [valuesOf]

/-! ## Legal documents -/

/-- Whether a tag or a comment starts somewhere in a text. -/
def opensMarkup : Text → Bool
  | [] => false
  | c :: t => atMarkup (c :: t) || opensMarkup t

/-- Names of elements start with an ASCII letter and hold no white space, no `/` and no `>`. -/
def IsTagName (name : Text) : Prop :=
  name.head?.any Text.isAsciiLetter = true ∧ ∀ c ∈ name, isNameChar c = true

/-- Names of attributes are not empty and hold no white space, no `=`, no `>` and no `/`. -/
def IsAttributeName (name : Text) : Prop := name ≠ [] ∧ ∀ c ∈ name, isAttributeChar c = true

/-- A raw text element holds nothing, or one text in which its end tag does not start. -/
def IsRawContent (name : Text) : List Node → Prop
  | [] => True
  | [.text data] =>
    data ≠ [] ∧ ¬ '<' :: '/' :: Text.lowerAscii name <:+: Text.lowerAscii data
  | _ => False

def Tag.Legal (tag : Tag) : Prop :=
  IsTagName tag.name ∧ ∀ a ∈ tag.attributes, IsAttributeName a.name

/-- What can be said of a node after reading it. -/
def Node.Legal : Node → Prop
  | .text data => data ≠ [] ∧ opensMarkup data = false
  | .comment data => ¬ "-->".toList <:+: data
  | .element tag children =>
    tag.Legal ∧ (isVoid tag.name = true → children = []) ∧
      (isRaw tag.name = true → IsRawContent tag.name children)

/-- A row of trees whose nodes are legal. -/
def Legal (ns : List Node) : Prop := ∀ n ∈ nodesOf ns, n.Legal

/-- A row in which no text stands next to a text. -/
def RowApart (ns : List Node) : Prop := ns.IsChain fun m n => ¬ (m.isText = true ∧ n.isText = true)

/-- Trees in which no text stands next to a text. -/
def TextsApart (ns : List Node) : Prop :=
  RowApart ns ∧ ∀ n ∈ nodesOf ns, RowApart n.content

/-- No attribute value holds both kinds of quotes. -/
def Quotable (ns : List Node) : Prop := ∀ v ∈ valuesOf ns, ¬ ('"' ∈ v ∧ '\'' ∈ v)

-- These run through the characters of the name, not through all characters there are.
instance (name : Text) : Decidable (IsTagName name) :=
  decidable_of_iff (name.head?.any Text.isAsciiLetter = true ∧ name.all isNameChar = true)
    (and_congr_right' List.all_eq_true)

instance (name : Text) : Decidable (IsAttributeName name) :=
  decidable_of_iff (name ≠ [] ∧ name.all isAttributeChar = true) (and_congr_right' List.all_eq_true)

instance (name : Text) : DecidablePred (IsRawContent name)
  | [] => inferInstanceAs (Decidable True)
  | [.text _] => inferInstanceAs (Decidable (_ ∧ _))
  | .text _ :: _ :: _ => inferInstanceAs (Decidable False)
  | .comment _ :: _ => inferInstanceAs (Decidable False)
  | .element _ _ :: _ => inferInstanceAs (Decidable False)

instance (tag : Tag) : Decidable tag.Legal := inferInstanceAs (Decidable (_ ∧ _))

instance : DecidablePred Node.Legal
  | .text _ => inferInstanceAs (Decidable (_ ∧ _))
  | .comment _ => inferInstanceAs (Decidable (¬ _))
  | .element _ _ => inferInstanceAs (Decidable (_ ∧ _ ∧ _))

instance (ns : List Node) : Decidable (Legal ns) := inferInstanceAs (Decidable (∀ n ∈ nodesOf ns, _))

instance (ns : List Node) : Decidable (RowApart ns) := inferInstanceAs (Decidable (List.IsChain _ ns))

instance (ns : List Node) : Decidable (TextsApart ns) := inferInstanceAs (Decidable (_ ∧ _))

instance (ns : List Node) : Decidable (Quotable ns) := inferInstanceAs (Decidable (∀ v ∈ _, _))

theorem legal_nil : Legal [] := by
  simp [Legal]

theorem legal_append {ns ms : List Node} : Legal (ns ++ ms) ↔ Legal ns ∧ Legal ms := by
  simp [Legal, nodesOf_append, or_imp, forall_and]

theorem legal_text {data : Text} {ns : List Node} :
    Legal (.text data :: ns) ↔ (data ≠ [] ∧ opensMarkup data = false) ∧ Legal ns := by
  simp [Legal, Node.Legal]

theorem legal_comment {data : Text} {ns : List Node} :
    Legal (.comment data :: ns) ↔ ¬ "-->".toList <:+: data ∧ Legal ns := by
  simp [Legal, Node.Legal]

theorem legal_element {tag : Tag} {children ns : List Node} :
    Legal (.element tag children :: ns) ↔
      (Node.element tag children).Legal ∧ (isRaw tag.name = false → Legal children) ∧ Legal ns := by
  unfold Legal
  rw [nodesOf_element]
  cases isRaw tag.name with
  | false => simp [or_imp, forall_and]
  | true => simp [or_imp, forall_and]

theorem TextsApart.tail {n : Node} {ns : List Node} (h : TextsApart (n :: ns)) : TextsApart ns :=
  ⟨h.1.tail, fun m hm => h.2 m (by simp [nodesOf, hm])⟩

theorem TextsApart.head {data : Text} {ns : List Node} (h : TextsApart (.text data :: ns)) :
    ns.head?.any Node.isText = false := by
  cases ns with
  | nil => rfl
  | cons n ns =>
    have hn := (List.isChain_cons_cons.1 h.1).1
    cases ht : n.isText with
    | false => exact ht
    | true => exact absurd ⟨rfl, ht⟩ hn

theorem TextsApart.children {tag : Tag} {children ns : List Node}
    (h : TextsApart (.element tag children :: ns)) (hr : isRaw tag.name = false) :
    TextsApart children := by
  refine ⟨h.2 (.element tag children) (by simp), ?_⟩
  intro n hm
  exact h.2 n (by simp [hr, hm])

theorem Quotable.tail {n : Node} {ns : List Node} (h : Quotable (n :: ns)) : Quotable ns := by
  intro v hv
  obtain ⟨tag, ht, ha⟩ := mem_valuesOf.1 hv
  refine h v (mem_valuesOf.2 ⟨tag, ?_, ha⟩)
  simp only [tagsOf, nodesOf, List.filterMap_append, List.mem_append]
  exact .inr ht

theorem Quotable.attributes {tag : Tag} {children ns : List Node}
    (h : Quotable (.element tag children :: ns)) :
    ∀ a ∈ tag.attributes, ∀ v, a.value = some v → ¬ ('"' ∈ v ∧ '\'' ∈ v) := by
  intro a ha v hv
  exact h v (mem_valuesOf.2 ⟨tag, by simp, a, ha, hv⟩)

theorem Quotable.children {tag : Tag} {children ns : List Node}
    (h : Quotable (.element tag children :: ns)) (hr : isRaw tag.name = false) :
    Quotable children := by
  intro v hv
  obtain ⟨tag', ht, ha⟩ := mem_valuesOf.1 hv
  exact h v (mem_valuesOf.2 ⟨tag', by simp [hr, ht], ha⟩)

/-! ## Changing names, texts and values -/

def Attribute.mapValue (f : Text → Text) (a : Attribute) : Attribute := ⟨a.name, a.value.map f⟩

mutual

def Node.map (onName onText onValue : Text → Text) (raw : Bool) : Node → Node
  | .text data => .text (if raw then data else onText data)
  | .comment data => .comment data
  | .element tag children =>
    .element ⟨onName tag.name, tag.attributes.map (Attribute.mapValue onValue)⟩
      (mapNodes onName onText onValue (isRaw (onName tag.name)) children)

/-- Trees with other names, texts and attribute values; `raw` says whether they stand in a raw text
element, whose text stays. -/
def mapNodes (onName onText onValue : Text → Text) (raw : Bool) : List Node → List Node
  | [] => []
  | n :: ns => n.map onName onText onValue raw :: mapNodes onName onText onValue raw ns

end

theorem mapNodes_eq_map (f g h : Text → Text) (raw : Bool) (ns : List Node) :
    mapNodes f g h raw ns = ns.map (Node.map f g h raw) := by
  induction ns with
  | nil => rfl
  | cons n ns ih => rw [mapNodes, ih, List.map_cons]

theorem isEmpty_mapNodes (f g h : Text → Text) (raw : Bool) (ns : List Node) :
    (mapNodes f g h raw ns).isEmpty = ns.isEmpty := by
  cases ns <;> simp [mapNodes]

theorem map_mapValue_congr {h h' : Text → Text} {as : List Attribute}
    (hv : ∀ a ∈ as, ∀ v, a.value = some v → h v = h' v) :
    as.map (Attribute.mapValue h) = as.map (Attribute.mapValue h') := by
  apply List.map_congr_left
  intro a ha
  unfold Attribute.mapValue
  cases he : a.value with
  | none => rfl
  | some v => simp [hv a ha v he]

theorem mapNodes_id (raw : Bool) (ns : List Node) : mapNodes id id id raw ns = ns := by
  have ha : Attribute.mapValue id = id := by
    funext a
    simp [Attribute.mapValue]
  induction ns using nodes_induction generalizing raw with
  | nil => simp [mapNodes]
  | text data ns ih => simp [mapNodes, Node.map, ih]
  | comment data ns ih => simp [mapNodes, Node.map, ih]
  | element tag children ns ihc ih => simp [mapNodes, Node.map, ih, ihc, ha]

/-- What stands in a raw text element of a legal document is not changed. -/
theorem mapNodes_of_isRawContent {name : Text} {ns : List Node} (hr : IsRawContent name ns)
    (f g h : Text → Text) : mapNodes f g h true ns = ns := by
  unfold IsRawContent at hr
  split at hr
  · simp [mapNodes]
  · simp [mapNodes, Node.map]
  · exact hr.elim

/-- When the names stay, only the texts and values that occur matter. -/
theorem mapNodes_congr {f g h g' h' : Text → Text} {ns : List Node} (hl : Legal ns)
    (hn : ∀ tag ∈ tagsOf ns, f tag.name = tag.name) (ht : ∀ t ∈ textsOf ns, g t = g' t)
    (hv : ∀ v ∈ valuesOf ns, h v = h' v) :
    mapNodes f g h false ns = mapNodes id g' h' false ns := by
  simp only [mem_valuesOf] at hv
  induction ns using nodes_induction with
  | nil => simp [mapNodes]
  | text data ns ih =>
    simp only [tagsOf_text, textsOf_text, List.forall_mem_cons] at hn ht hv
    simp [mapNodes, Node.map, ht.1, ih (legal_text.1 hl).2 hn ht.2 hv]
  | comment data ns ih =>
    simp only [tagsOf_comment, textsOf_comment] at hn ht hv
    simp [mapNodes, Node.map, ih (legal_comment.1 hl).2 hn ht hv]
  | element tag children ns ihc ih =>
    obtain ⟨⟨-, -, hraw⟩, hlc, hlns⟩ := legal_element.1 hl
    have hattrs : tag.attributes.map (Attribute.mapValue h) = tag.attributes.map (Attribute.mapValue h') := by
      apply map_mapValue_congr
      intro a ha v hav
      exact hv v ⟨tag, by simp, a, ha, hav⟩
    have hchildren : mapNodes f g h (isRaw tag.name) children =
        mapNodes id g' h' (isRaw tag.name) children := by
      cases hr : isRaw tag.name with
      | true =>
        rw [mapNodes_of_isRawContent (hraw hr), mapNodes_of_isRawContent (hraw hr)]
      | false =>
        refine ihc (hlc hr) (fun t h1 => hn t ?_) (fun t h1 => ht t ?_) ?_
        · simp [hr, h1]
        · simp [hr, h1]
        · rintro v ⟨t, h1, ha⟩
          exact hv v ⟨t, by simp [hr, h1], ha⟩
    have hrest := ih hlns (fun t h1 => hn t (by simp [h1])) (fun t h1 => ht t (by simp [h1]))
      (by rintro v ⟨t, h1, ha⟩; exact hv v ⟨t, by simp [h1], ha⟩)
    have hname := hn tag (by simp)
    simp [mapNodes, Node.map, hname, hattrs, hchildren, hrest]

section

variable (g h : Text → Text)

/-- Changing texts and values changes the nodes one by one. -/
theorem nodesOf_mapNodes (ns : List Node) :
    nodesOf (mapNodes id g h false ns) = (nodesOf ns).map (Node.map id g h false) := by
  induction ns using nodes_induction with
  | nil => rfl
  | text data ns ih => simp [mapNodes, Node.map, ih]
  | comment data ns ih => simp [mapNodes, Node.map, ih]
  | element tag children ns ihc ih =>
    simp only [mapNodes, Node.map, nodesOf_element, id_eq, ih, List.map_cons, List.map_append]
    cases isRaw tag.name with
    | true => simp
    | false => simp [ihc]

theorem textsOf_mapNodes (ns : List Node) :
    textsOf (mapNodes id g h false ns) = (textsOf ns).map g := by
  unfold textsOf
  rw [nodesOf_mapNodes, List.filterMap_map, List.map_filterMap]
  apply List.filterMap_congr
  intro n _
  cases n <;> simp [Node.map, Node.text?]

theorem valuesOf_mapNodes (ns : List Node) :
    valuesOf (mapNodes id g h false ns) = (valuesOf ns).map h := by
  have htags : tagsOf (mapNodes id g h false ns) =
      (tagsOf ns).map fun tag => ⟨tag.name, tag.attributes.map (Attribute.mapValue h)⟩ := by
    unfold tagsOf
    rw [nodesOf_mapNodes, List.filterMap_map, List.map_filterMap]
    apply List.filterMap_congr
    intro n _
    cases n <;> simp [Node.map, Node.tag?]
  unfold valuesOf
  rw [htags, List.flatMap_map, List.map_flatMap]
  congr 1
  funext tag
  rw [List.filterMap_map, List.map_filterMap]
  rfl

theorem TextsApart.mapNodes {ns : List Node} (ha : TextsApart ns) :
    TextsApart (mapNodes id g h false ns) := by
  have hrow : ∀ (raw : Bool) (row : List Node), RowApart row →
      RowApart (Markup.mapNodes id g h raw row) := by
    intro raw row hr
    have htext : ∀ n : Node, (n.map id g h raw).isText = n.isText := by
      intro n
      cases n <;> simp [Node.map, Node.isText, Node.text?]
    rw [mapNodes_eq_map, RowApart, List.isChain_map]
    simp only [htext]
    exact hr
  refine ⟨hrow false ns ha.1, ?_⟩
  rw [nodesOf_mapNodes, List.forall_mem_map]
  intro n hn
  have hc := ha.2 n hn
  cases n with
  | text data => exact hc
  | comment data => exact hc
  | element tag children => exact hrow _ _ hc

/-- A legal document stays legal when its texts stay texts. -/
theorem Legal.mapNodes {ns : List Node} (hl : Legal ns)
    (hg : ∀ t ∈ textsOf ns, g t ≠ [] ∧ opensMarkup (g t) = false) :
    Legal (mapNodes id g h false ns) := by
  unfold Legal
  rw [nodesOf_mapNodes, List.forall_mem_map]
  intro n hn
  have hnl := hl n hn
  cases n with
  | text data => exact hg data (mem_textsOf.2 hn)
  | comment data => exact hnl
  | element tag children =>
    obtain ⟨⟨hname, hattrs⟩, hvoid, hraw⟩ := hnl
    refine ⟨⟨hname, ?_⟩, ?_, ?_⟩
    · intro a ha
      obtain ⟨a', ha', rfl⟩ := List.mem_map.1 ha
      exact hattrs a' ha'
    · intro hv
      rw [hvoid hv]
      rfl
    · intro hr
      show IsRawContent tag.name (Markup.mapNodes id g h (isRaw tag.name) children)
      have hr' : isRaw tag.name = true := hr
      rw [hr', mapNodes_of_isRawContent (hraw hr)]
      exact hraw hr

end

end Phrasebook.Markup

/-! ## Writing without localizing -/

namespace Phrasebook.Template

open Markup

def attributeText (a : Attribute) : Text :=
  ' ' :: a.name ++
    match a.value with
    | none => []
    | some v => '=' :: quoteValue v

def startText (tag : Tag) : Text := '<' :: tag.name ++ tag.attributes.flatMap attributeText

def tagEnd (selfClosing : Bool) : Text := if selfClosing then " />".toList else ['>']

mutual

def nodeText : Node → Text
  | .text data => data
  | .comment data => "<!--".toList ++ data ++ "-->".toList
  | .element tag children =>
    if children.isEmpty && selfClosingNames.contains tag.name then startText tag ++ tagEnd true
    else
      startText tag ++ tagEnd false ++ nodesText children ++ ("</".toList ++ tag.name ++ ['>'])

/-- Trees written out as they are. -/
def nodesText : List Node → Text
  | [] => []
  | n :: ns => nodeText n ++ nodesText ns

end

theorem nodesText_append (ns ms : List Node) :
    nodesText (ns ++ ms) = nodesText ns ++ nodesText ms := by
  induction ns with
  | nil => simp [nodesText]
  | cons n ns ih => simp [nodesText, ih]

end Phrasebook.Template
