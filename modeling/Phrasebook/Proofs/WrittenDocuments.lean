import Phrasebook.Proofs.Writing

/-!
What a run writes for a template, as a document: the reference to the look-up module, if the template
needs one, and the localized trees. Texts that come to stand next to each other, as behind an end tag
that closes nothing, are one text for the next reader (`mergeTexts`).

The output of a run is the markup of this document (`output_documentForm`), and it is read back as this
document exactly when the document is legal (`parse_written_iff`).
-/

namespace Phrasebook

namespace Markup

open Template (nodesText nodeText)

/-! ## Merging texts -/

/-- Puts a node in front of a row; two texts become one. -/
def pushNode : Node → List Node → List Node
  | .text s, .text t :: ns => .text (s ++ t) :: ns
  | n, ns => n :: ns

mutual

def Node.merge : Node → Node
  | .text data => .text data
  | .comment data => .comment data
  | .element tag children => .element tag (mergeTexts children)

/-- Trees in which neighbouring texts are one text. -/
def mergeTexts : List Node → List Node
  | [] => []
  | n :: ns => pushNode n.merge (mergeTexts ns)

end

theorem pushNode_cases (n : Node) (ns : List Node) :
    pushNode n ns = n :: ns ∨
      ∃ s t rest, n = .text s ∧ ns = .text t :: rest ∧ pushNode n ns = .text (s ++ t) :: rest := by
  unfold pushNode
  split
  · exact .inr ⟨_, _, _, rfl, rfl, rfl⟩
  · exact .inl rfl

theorem nodesText_pushNode (n : Node) (ns : List Node) :
    nodesText (pushNode n ns) = nodeText n ++ nodesText ns := by
  rcases pushNode_cases n ns with h | ⟨s, t, rest, rfl, rfl, h⟩
  · rw [h, nodesText]
  · rw [h]
    simp [nodesText, nodeText]

theorem tagsOf_pushNode (n : Node) (ns : List Node) : tagsOf (pushNode n ns) = tagsOf (n :: ns) := by
  rcases pushNode_cases n ns with h | ⟨s, t, rest, rfl, rfl, h⟩
  · rw [h]
  · rw [h]
    simp

theorem isEmpty_mergeTexts (ns : List Node) : (mergeTexts ns).isEmpty = ns.isEmpty := by
  cases ns with
  | nil => rfl
  | cons n ns =>
    rw [mergeTexts]
    rcases pushNode_cases n.merge (mergeTexts ns) with h | ⟨s, t, rest, -, -, h⟩
    · rw [h]
      rfl
    · rw [h]
      rfl

/-- Merging texts does not show in the markup. -/
theorem nodesText_mergeTexts (ns : List Node) : nodesText (mergeTexts ns) = nodesText ns := by
  induction ns using nodes_induction with
  | nil => rfl
  | text data ns ih => rw [mergeTexts, nodesText_pushNode, ih, Node.merge, nodesText]
  | comment data ns ih => rw [mergeTexts, nodesText_pushNode, ih, Node.merge, nodesText]
  | element tag children ns ihc ih =>
    rw [mergeTexts, nodesText_pushNode, ih, Node.merge, nodesText, nodeText, nodeText, ihc,
      isEmpty_mergeTexts]

theorem tagsOf_mergeTexts (ns : List Node) : tagsOf (mergeTexts ns) = tagsOf ns := by
  induction ns using nodes_induction with
  | nil => rfl
  | text data ns ih => rw [mergeTexts, tagsOf_pushNode, Node.merge, tagsOf_text, tagsOf_text, ih]
  | comment data ns ih =>
    rw [mergeTexts, tagsOf_pushNode, Node.merge, tagsOf_comment, tagsOf_comment, ih]
  | element tag children ns ihc ih =>
    rw [mergeTexts, tagsOf_pushNode, Node.merge, tagsOf_element, tagsOf_element, ihc, ih]

theorem filterMap_tag?_mergeTexts (ns : List Node) :
    (mergeTexts ns).filterMap Node.tag? = ns.filterMap Node.tag? := by
  induction ns with
  | nil => rfl
  | cons n ns ih =>
    have hpush : ∀ ms : List Node, (pushNode n.merge ms).filterMap Node.tag? =
        (n.merge :: ms).filterMap Node.tag? := by
      intro ms
      rcases pushNode_cases n.merge ms with h | ⟨s, t, rest, hn, rfl, h⟩
      · rw [h]
      · rw [h, hn]
        simp [List.filterMap_cons, Node.tag?]
    rw [mergeTexts, hpush, List.filterMap_cons, List.filterMap_cons, ih]
    cases n <;> rfl

theorem RowApart.pushNode {n : Node} {ns : List Node} (h : RowApart ns) : RowApart (pushNode n ns) := by
  cases ns with
  | nil => cases n <;> exact List.isChain_singleton _
  | cons m ns =>
    cases n with
    | text s =>
      cases m with
      | text t =>
        -- the merged text stands where a text stood
        cases ns with
        | nil => exact List.isChain_singleton _
        | cons k ns =>
          obtain ⟨hk, hns⟩ := List.isChain_cons_cons.1 h
          exact List.isChain_cons_cons.2 ⟨hk, hns⟩
      | comment data => exact List.isChain_cons_cons.2 ⟨by simp [Node.isText, Node.text?], h⟩
      | element tag children => exact List.isChain_cons_cons.2 ⟨by simp [Node.isText, Node.text?], h⟩
    | comment data => exact List.isChain_cons_cons.2 ⟨by simp [Node.isText, Node.text?], h⟩
    | element tag children => exact List.isChain_cons_cons.2 ⟨by simp [Node.isText, Node.text?], h⟩

theorem TextsApart.pushNode {n : Node} {ns : List Node} (hn : ∀ m ∈ nodesOf [n], RowApart m.content)
    (h : TextsApart ns) : TextsApart (pushNode n ns) := by
  refine ⟨h.1.pushNode, ?_⟩
  rcases pushNode_cases n ns with hp | ⟨s, t, rest, rfl, rfl, hp⟩
  · intro m hm
    rw [hp, ← List.singleton_append, nodesOf_append, List.mem_append] at hm
    exact hm.elim (hn m) (h.2 m)
  · intro m hm
    rw [hp, nodesOf_text, List.mem_cons] at hm
    rcases hm with rfl | hm
    · exact List.isChain_nil
    · exact h.2 m (by simp [hm])

theorem textsApart_mergeTexts (ns : List Node) : TextsApart (mergeTexts ns) := by
  induction ns using nodes_induction with
  | nil => exact ⟨List.isChain_nil, by simp [mergeTexts]⟩
  | text data ns ih =>
    refine TextsApart.pushNode ?_ ih
    simp [Node.merge, Node.content, RowApart]
  | comment data ns ih =>
    refine TextsApart.pushNode ?_ ih
    simp [Node.merge, Node.content, RowApart]
  | element tag children ns ihc ih =>
    refine TextsApart.pushNode ?_ ih
    intro m hm
    simp only [Node.merge, nodesOf_element, nodesOf_nil, List.append_nil, List.mem_cons] at hm
    rcases hm with rfl | hm
    · exact ihc.1
    · split at hm
      · cases hm
      · exact ihc.2 m hm

theorem valuesOf_mergeTexts (ns : List Node) : valuesOf (mergeTexts ns) = valuesOf ns := by
  unfold valuesOf
  rw [tagsOf_mergeTexts]

theorem attributes_of_mem_tagsOf_mapNodes {f g h : Text → Text} {raw : Bool} {ns : List Node} {tag : Tag}
    (ht : tag ∈ tagsOf (mapNodes f g h raw ns)) :
    ∃ as : List Attribute, tag.attributes = as.map (Attribute.mapValue h) := by
  induction ns using nodes_induction generalizing raw with
  | nil => cases ht
  | text data ns ih =>
    rw [mapNodes, Node.map, tagsOf_text] at ht
    exact ih ht
  | comment data ns ih =>
    rw [mapNodes, Node.map, tagsOf_comment] at ht
    exact ih ht
  | element tag' children ns ihc ih =>
    rw [mapNodes, Node.map, tagsOf_element, List.mem_cons, List.mem_append] at ht
    rcases ht with rfl | ht | ht
    · exact ⟨_, rfl⟩
    · split at ht
      · cases ht
      · exact ihc ht
    · exact ih ht

/-- All values of a changed document are changed values. -/
theorem exists_of_mem_valuesOf_mapNodes {f g h : Text → Text} {raw : Bool} {ns : List Node} {v : Text}
    (hv : v ∈ valuesOf (mapNodes f g h raw ns)) : ∃ v', v = h v' := by
  obtain ⟨tag, htag, a, ha, hav⟩ := mem_valuesOf.1 hv
  obtain ⟨as, has⟩ := attributes_of_mem_tagsOf_mapNodes htag
  rw [has] at ha
  obtain ⟨a', -, rfl⟩ := List.mem_map.1 ha
  obtain ⟨v', -, rfl⟩ := Option.map_eq_some_iff.1 hav
  exact ⟨v', rfl⟩

end Markup

/-! ## The document of an output -/

namespace Template

open Markup

/-- The nodes of the reference to the look-up module, with the line break behind it. -/
def referenceNodes (b : Bindings) (path : Text) : List Node :=
  [.element ⟨"wxs".toList, [⟨"src".toList, some path⟩, ⟨"module".toList, some b.receiver⟩]⟩ [],
    .text ['\n']]

/-- The nodes that a run puts in front of a document. -/
def addedNodes (b : Bindings) (modulePath : Option Text) (d : Document) : List Node :=
  match modulePath with
  | some path => if declaresModule b d then [] else referenceNodes b path
  | none => []

/-- The document that a run writes. -/
def written (b : Bindings) (modulePath : Option Text) (d : Document) : Document :=
  ⟨mergeTexts (addedNodes b modulePath d ++ localizedNodes b false d.children)⟩

theorem nodesText_referenceNodes {b : Bindings} {path : Text} (hp : '"' ∉ path)
    (hb : '"' ∉ b.receiver) : nodesText (referenceNodes b path) = b.moduleReference path ++ ['\n'] := by
  have hquote : ∀ v : Text, '"' ∉ v → quoteValue v = '"' :: (v ++ ['"']) := by
    intro v hv
    rw [quoteValue, if_neg hv, List.cons_append]
  have htext : nodesText (referenceNodes b path) =
      '<' :: "wxs".toList ++ (' ' :: "src".toList ++ '=' :: quoteValue path ++
        (' ' :: "module".toList ++ '=' :: quoteValue b.receiver ++ [])) ++ ['>'] ++ [] ++
          ("</".toList ++ "wxs".toList ++ ['>']) ++ (['\n'] ++ []) := rfl
  have href : b.moduleReference path ++ ['\n'] =
      ("<wxs src=\"".toList ++ path ++ "\" module=\"".toList ++ b.receiver ++
        "\"></wxs>".toList) ++ ['\n'] := rfl
  rw [htext, href, hquote path hp, hquote b.receiver hb]
  simp

/-- The output of a run is the markup of the document that it writes. -/
theorem output_documentForm {b : Bindings} (hb : '"' ∉ b.receiver) {modulePath : Option Text}
    (hp : ∀ path ∈ modulePath, '"' ∉ path) (d : Document) :
    (documentForm b modulePath d).output = nodesText (written b modulePath d).children := by
  show _ = nodesText (mergeTexts _)
  rw [nodesText_mergeTexts, nodesText_append, ← output_nodesForm]
  unfold documentForm addedNodes
  cases modulePath with
  | none => rfl
  | some path =>
    cases declaresModule b d with
    | true => rfl
    | false =>
      show (b.moduleReference path ++ ['\n']) ++ _ = nodesText (referenceNodes b path) ++ _
      rw [nodesText_referenceNodes (hp path rfl) hb]

theorem quotable_written {b : Bindings} (hb : '"' ∉ b.receiver) {modulePath : Option Text}
    (hp : ∀ path ∈ modulePath, '"' ∉ path) (d : Document) :
    Quotable (written b modulePath d).children := by
  intro v hv
  have hv' : v ∈ valuesOf (addedNodes b modulePath d ++ localizedNodes b false d.children) := by
    rw [← valuesOf_mergeTexts]
    exact hv
  have happend : ∀ ns ms : List Node, valuesOf (ns ++ ms) = valuesOf ns ++ valuesOf ms := by
    intro ns ms
    simp [valuesOf, tagsOf, nodesOf_append]
  rw [happend, List.mem_append] at hv'
  rcases hv' with hv' | hv'
  · have hadded : v ∈ valuesOf (addedNodes b modulePath d) → '"' ∉ v := by
      unfold addedNodes
      cases modulePath with
      | none => exact fun h => by cases h
      | some path =>
        cases declaresModule b d with
        | true => exact fun h => by cases h
        | false =>
          intro h
          have : v = path ∨ v = b.receiver := by
            simpa [referenceNodes, valuesOf, tagsOf, Node.tag?] using h
          rcases this with rfl | rfl
          · exact hp _ rfl
          · exact hb
    exact fun h => hadded hv' h.1
  · obtain ⟨v', rfl⟩ := exists_of_mem_valuesOf_mapNodes hv'
    exact not_both_quotable _

/-- What a run writes is read back as the document that it has written exactly when that is legal. -/
theorem parse_written_iff {b : Bindings} (hb : '"' ∉ b.receiver) {modulePath : Option Text}
    (hp : ∀ path ∈ modulePath, '"' ∉ path) (d : Document) :
    parse (documentForm b modulePath d).output = .ok (written b modulePath d) ↔
      Legal (written b modulePath d).children := by
  rw [output_documentForm hb hp]
  constructor
  · exact legal_of_parse
  · intro hl
    exact parse_nodesText hl (textsApart_mergeTexts _) (quotable_written hb hp d)

end Template

end Phrasebook
