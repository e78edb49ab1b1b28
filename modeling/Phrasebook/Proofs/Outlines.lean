import Phrasebook.Proofs.RoundTrip

/-!
How a document is built. The outline of a document lists its nodes in preorder, each with the tags of
the elements around it, innermost first. It says all there is to say about a document
(`outline_injective`).

Reading markup never takes back what it has listed. Every event adds the nodes it stands for behind the
outline so far, below the elements that are open at this moment, and an end tag adds nothing
(`outline_step`):

    outline (b.step e) = outline b ++ e.outline b.around
    outline [] (es.foldl Builder.step b).finish.children = outline b ++ b.outlineOf es

So the document that is read lists the start tags, texts and comments of the markup in their order
(`document_follows_events`).
-/

namespace Phrasebook.Markup

/-! ## Outlines -/

/-- What an outline shows of a node. -/
inductive Item where
  | element (tag : Tag)
  | text (data : Text)
  | comment (data : Text)
  deriving DecidableEq, Repr

/-- Items in order, each with the tags of the elements around it, innermost first. -/
abbrev Outline := List (List Tag × Item)

mutual

def Node.outline (around : List Tag) : Node → Outline
  | .text data => [(around, .text data)]
  | .comment data => [(around, .comment data)]
  | .element tag children => (around, .element tag) :: outline (tag :: around) children

/-- The nodes of a row of trees in preorder, below the elements `around` them. -/
def outline (around : List Tag) : List Node → Outline
  | [] => []
  | n :: ns => n.outline around ++ outline around ns

end

/-- The nodes of a document in preorder: elements with their attributes, texts and comments. -/
def Document.preorder (d : Document) : List Item := (outline [] d.children).map Prod.snd

theorem outline_append (around : List Tag) (ns ms : List Node) :
    outline around (ns ++ ms) = outline around ns ++ outline around ms := by
  induction ns with
  | nil => simp [outline]
  | cons n ns ih => simp [outline, ih]

@[simp] theorem outline_nil (around : List Tag) : outline around [] = [] := by
  rw [outline]

theorem outline_singleton (around : List Tag) (n : Node) : outline around [n] = n.outline around := by
  rw [outline, outline_nil, List.append_nil]

/-- An outline that goes on outside of the innermost of `depth` elements, or ends. -/
def Outline.LeavesAt (depth : Nat) (o : Outline) : Prop := ∀ e ∈ o.head?, e.1.length < depth

/-- The first entry of a row of trees stands directly below what is around the row. -/
theorem exists_outline_cons (around : List Tag) (n : Node) :
    ∃ item rest, n.outline around = (around, item) :: rest := by
  cases n with
  | text data => exact ⟨_, _, by rw [Node.outline]⟩
  | comment data => exact ⟨_, _, by rw [Node.outline]⟩
  | element tag children => exact ⟨_, _, by rw [Node.outline]⟩

theorem leavesAt_outline_append {around : List Tag} {rest : Outline}
    (h : rest.LeavesAt around.length) (ns : List Node) :
    Outline.LeavesAt (around.length + 1) (outline around ns ++ rest) := by
  intro e he
  cases ns with
  | nil =>
    rw [outline_nil, List.nil_append] at he
    exact Nat.lt_succ_of_lt (h e he)
  | cons n ns =>
    obtain ⟨item, tail, hn⟩ := exists_outline_cons around n
    rw [outline, hn] at he
    obtain rfl : (around, item) = e := by simpa using he
    exact Nat.lt_succ_self _

/-- A row whose outline has an entry is not empty, and its first tree has this entry. -/
theorem exists_cons_of_outline {around : List Tag} {item : Item} {rest o r : Outline}
    {ms : List Node} (hr : r.LeavesAt around.length)
    (h : (around, item) :: rest ++ o = outline around ms ++ r) :
    ∃ m ms', ms = m :: ms' := by
  cases ms with
  | nil =>
    rw [outline_nil, List.nil_append] at h
    have := hr (around, item) (by rw [← h]; rfl)
    exact absurd this (Nat.lt_irrefl _)
  | cons m ms => exact ⟨m, ms, rfl⟩

/-- A row whose outline starts with an element starts with this element. -/
theorem exists_element_of_outline {around : List Tag} {tag : Tag} {rest : Outline} {ns : List Node}
    (h : outline around ns = (around, .element tag) :: rest) :
    ∃ children ms, ns = .element tag children :: ms := by
  cases ns with
  | nil => simp at h
  | cons n ns =>
    cases n with
    | text data => simp [outline, Node.outline] at h
    | comment data => simp [outline, Node.outline] at h
    | element tag' children =>
      simp only [outline, Node.outline, List.cons_append, List.cons.injEq, Prod.mk.injEq,
        Item.element.injEq, true_and] at h
      exact ⟨children, ns, by rw [h.1]⟩

/-- Trees can be told from their outline, also when it goes on outside of them. -/
theorem eq_of_outline_append {ns : List Node} :
    ∀ {around : List Tag} {ms : List Node} {o r : Outline}, o.LeavesAt around.length →
      r.LeavesAt around.length → outline around ns ++ o = outline around ms ++ r →
      ns = ms ∧ o = r := by
  induction ns using nodes_induction with
  | nil =>
    intro around ms o r ho hr h
    rw [outline_nil, List.nil_append] at h
    cases ms with
    | nil => exact ⟨rfl, h⟩
    | cons m ms =>
      obtain ⟨item, tail, hm⟩ := exists_outline_cons around m
      rw [outline, hm] at h
      have := ho (around, item) (by rw [h]; rfl)
      exact absurd this (Nat.lt_irrefl _)
  | text data ns ih =>
    intro around ms o r ho hr h
    rw [outline, Node.outline] at h
    obtain ⟨m, ms, rfl⟩ := exists_cons_of_outline hr h
    cases m with
    | text data' =>
      simp only [outline, Node.outline, List.cons_append, List.cons.injEq,
        Prod.mk.injEq, Item.text.injEq, true_and] at h
      obtain ⟨rfl, hrest⟩ := h
      obtain ⟨rfl, rfl⟩ := ih ho hr hrest
      exact ⟨rfl, rfl⟩
    | comment data' => simp [outline, Node.outline] at h
    | element tag children => simp [outline, Node.outline] at h
  | comment data ns ih =>
    intro around ms o r ho hr h
    rw [outline, Node.outline] at h
    obtain ⟨m, ms, rfl⟩ := exists_cons_of_outline hr h
    cases m with
    | text data' => simp [outline, Node.outline] at h
    | comment data' =>
      simp only [outline, Node.outline, List.cons_append, List.cons.injEq,
        Prod.mk.injEq, Item.comment.injEq, true_and] at h
      obtain ⟨rfl, hrest⟩ := h
      obtain ⟨rfl, rfl⟩ := ih ho hr hrest
      exact ⟨rfl, rfl⟩
    | element tag children => simp [outline, Node.outline] at h
  | element tag children ns ihc ih =>
    intro around ms o r ho hr h
    rw [outline, Node.outline, List.append_assoc] at h
    obtain ⟨m, ms, rfl⟩ := exists_cons_of_outline hr h
    cases m with
    | text data => simp [outline, Node.outline] at h
    | comment data => simp [outline, Node.outline] at h
    | element tag' children' =>
      simp only [outline, Node.outline, List.cons_append, List.append_assoc, List.cons.injEq,
        Prod.mk.injEq, Item.element.injEq, true_and] at h
      obtain ⟨rfl, hrest⟩ := h
      -- behind the children both outlines go on outside of the element
      obtain ⟨rfl, hafter⟩ := @ihc (tag :: around) _ _ _ (leavesAt_outline_append ho ns)
        (leavesAt_outline_append hr ms) hrest
      obtain ⟨rfl, rfl⟩ := ih ho hr hafter
      exact ⟨rfl, rfl⟩

/-- A document can be told from its outline. -/
theorem outline_injective {ns ms : List Node} (h : outline [] ns = outline [] ms) : ns = ms := by
  have hnil : Outline.LeavesAt ([] : List Tag).length [] := fun e he => by cases he
  refine (eq_of_outline_append hnil hnil ?_).1
  rw [h]

/-! ## Building -/

/-- The entries that an event adds below the elements `around` it. -/
def Event.outline (around : List Tag) : Event → Outline
  | .opening tag => [(around, .element tag)]
  | .empty tag => [(around, .element tag)]
  | .raw tag content =>
    (around, .element tag) :: if content.isEmpty then [] else [(tag :: around, .text content)]
  | .closing _ => []
  | .text data => [(around, .text data)]
  | .comment data => [(around, .comment data)]

/-- The start tags, texts, raw texts and comments that an event stands for. -/
def Event.items : Event → List Item
  | .opening tag => [.element tag]
  | .empty tag => [.element tag]
  | .raw tag content => .element tag :: if content.isEmpty then [] else [.text content]
  | .closing _ => []
  | .text data => [.text data]
  | .comment data => [.comment data]

theorem map_snd_outline (e : Event) (around : List Tag) : (e.outline around).map Prod.snd = e.items := by
  cases e with
  | raw tag content => cases content <;> rfl
  | opening | empty | closing | text | comment => rfl

/-- The outline of elements that are open, innermost first, with the children they have so far. -/
def openOutline : List OpenElement → Outline
  | [] => []
  | e :: outer =>
    openOutline outer ++ (outer.map OpenElement.tag, .element e.tag) ::
      outline (e.tag :: outer.map OpenElement.tag) e.children

namespace Builder

/-- The tags of the elements that are open, innermost first. -/
def around (b : Builder) : List Tag := b.opened.map OpenElement.tag

/-- The outline of what has been built so far. -/
def outline (b : Builder) : Outline := Markup.outline [] b.roots ++ openOutline b.opened

/-- The entries that a row of events adds, each below the elements that are open when it is read. -/
def outlineOf (b : Builder) : List Event → Outline
  | [] => []
  | e :: es => e.outline b.around ++ (b.step e).outlineOf es

theorem outline_addNodes (b : Builder) (ns : List Node) :
    (b.addNodes ns).outline = b.outline ++ Markup.outline b.around ns := by
  obtain ⟨opened, roots⟩ := b
  cases opened with
  | nil => simp [addNodes, outline, around, openOutline, outline_append]
  | cons e outer => simp [addNodes, outline, around, openOutline, OpenElement.add, outline_append]

/-- Closing elements leaves the outline as it is. -/
theorem outline_closeThrough (name : Text) (roots : List Node) (opened : List OpenElement)
    (closed : List Node) :
    (closeThrough name roots opened closed).outline =
      Markup.outline [] roots ++ openOutline opened ++
        Markup.outline (opened.map OpenElement.tag) closed := by
  induction opened generalizing closed with
  | nil => simp [closeThrough, outline, openOutline, outline_append]
  | cons e outer ih =>
    -- the element that is closed moves from the open elements to the finished nodes
    have hnode : Markup.outline (outer.map OpenElement.tag) [(e.add closed).close] =
        (outer.map OpenElement.tag, .element e.tag) ::
          Markup.outline (e.tag :: outer.map OpenElement.tag) (e.children ++ closed) := by
      rw [outline_singleton, OpenElement.close, OpenElement.add, Node.outline]
    unfold closeThrough
    dsimp only
    split
    · rw [outline_addNodes, around, hnode]
      simp [outline, openOutline, outline_append]
    · rw [ih, hnode]
      simp [openOutline, outline_append]

theorem outline_closeTag (b : Builder) (name : Text) : (b.closeTag name).outline = b.outline := by
  unfold closeTag
  split
  · rfl
  · split
    · rw [outline_closeThrough, outline_nil, List.append_nil, outline]
    · rfl

/-- An event adds its entries behind the outline so far. -/
theorem outline_step (b : Builder) (e : Event) :
    (b.step e).outline = b.outline ++ e.outline b.around := by
  cases e with
  | opening tag => simp [step, outline, openOutline, Event.outline, around]
  | empty tag => simp [step, outline_addNodes, outline_singleton, Node.outline, Event.outline]
  | raw tag content =>
    rw [step, outline_addNodes, outline_singleton, Node.outline, Event.outline]
    cases content with
    | nil => rfl
    | cons c content => simp [outline_singleton, Node.outline]
  | closing name => rw [step, outline_closeTag, Event.outline, List.append_nil]
  | text data => simp [step, outline_addNodes, outline_singleton, Node.outline, Event.outline]
  | comment data => simp [step, outline_addNodes, outline_singleton, Node.outline, Event.outline]

theorem outline_closeAll (roots : List Node) (opened : List OpenElement) (closed : List Node) :
    Markup.outline [] (closeAll roots opened closed) =
      Markup.outline [] roots ++ openOutline opened ++
        Markup.outline (opened.map OpenElement.tag) closed := by
  induction opened generalizing closed with
  | nil => simp [closeAll, openOutline, outline_append]
  | cons e outer ih =>
    rw [closeAll, ih, outline_singleton, OpenElement.close, OpenElement.add, Node.outline]
    simp [openOutline, outline_append]

/-- Nothing is lost, added or moved at the end. -/
theorem outline_finish (b : Builder) : Markup.outline [] b.finish.children = b.outline := by
  rw [finish, outline_closeAll, outline_nil, List.append_nil, outline]

/-- The outline of what a row of events builds. -/
theorem outline_foldl (es : List Event) (b : Builder) :
    (es.foldl step b).outline = b.outline ++ b.outlineOf es := by
  induction es generalizing b with
  | nil => rw [List.foldl_nil, outlineOf, List.append_nil]
  | cons e es ih => rw [List.foldl_cons, ih, outline_step, outlineOf, List.append_assoc]

theorem map_snd_outlineOf (es : List Event) (b : Builder) :
    (b.outlineOf es).map Prod.snd = es.flatMap Event.items := by
  induction es generalizing b with
  | nil => rfl
  | cons e es ih => rw [outlineOf, List.map_append, map_snd_outline, ih, List.flatMap_cons]

end Builder

/-! ## End tags -/

/-- Whether an element has the name of an end tag, up to the case of ASCII letters. -/
def OpenElement.isNamed (name : Text) (e : OpenElement) : Bool := Text.eqIgnoringCase e.tag.name name

/-- The elements of a row, innermost first, up to the first one with the name of an end tag. -/
theorem exists_innermost {name : Text} {opened : List OpenElement}
    (h : opened.any (OpenElement.isNamed name) = true) :
    ∃ inner e outer, opened = inner ++ e :: outer ∧ (∀ i ∈ inner, i.isNamed name = false) ∧
      e.isNamed name = true := by
  induction opened with
  | nil => cases h
  | cons d opened ih =>
    by_cases hd : d.isNamed name = true
    · exact ⟨[], d, opened, rfl, fun i hi => absurd hi List.not_mem_nil, hd⟩
    · rw [Bool.not_eq_true] at hd
      rw [List.any_cons, hd, Bool.false_or] at h
      obtain ⟨inner, e, outer, rfl, hinner, he⟩ := ih h
      exact ⟨d :: inner, e, outer, rfl, List.forall_mem_cons.2 ⟨hd, hinner⟩, he⟩

namespace Builder

/-- Closing goes through the elements inside the one that is meant, which become its last children. -/
theorem closeThrough_append {name : Text} {inner : List OpenElement} {e : OpenElement}
    (hi : ∀ i ∈ inner, i.isNamed name = false) (he : e.isNamed name = true)
    (outer : List OpenElement) (roots closed : List Node) :
    closeThrough name roots (inner ++ e :: outer) closed =
      (Builder.mk outer roots).addNodes [(e.add (closeAll [] inner closed)).close] := by
  induction inner generalizing closed with
  | nil =>
    rw [List.nil_append, closeThrough, closeAll, List.nil_append]
    exact if_pos he
  | cons i inner ih =>
    obtain ⟨hfirst, hinner⟩ := List.forall_mem_cons.1 hi
    have hne : Text.eqIgnoringCase i.tag.name name = false := hfirst
    rw [List.cons_append, closeThrough, closeAll, ← ih hinner]
    simp [hne]

/-- An end tag of an element without content, or one without an open element of its name. -/
def Skips (b : Builder) (name : Text) : Prop :=
  isVoid name = true ∨ ∀ e ∈ b.opened, e.isNamed name = false

theorem closeTag_of_skips {b : Builder} {name : Text} (h : b.Skips name) : b.closeTag name = b := by
  unfold closeTag
  split
  · rfl
  · next hv =>
    split
    · next hany =>
      obtain ⟨e, he, hname⟩ := List.any_eq_true.1 hany
      rcases h with h | h
      · exact absurd h hv
      · exact absurd hname (by simpa [OpenElement.isNamed] using h e he)
    · rfl

/-- Any other end tag closes the innermost open element of its name with everything inside it, and
what is added afterwards stands behind this element. -/
theorem closeTag_of_not_skips {b : Builder} {name : Text} (h : ¬ b.Skips name) :
    ∃ inner e outer, b.opened = inner ++ e :: outer ∧ (∀ i ∈ inner, i.isNamed name = false) ∧
      e.isNamed name = true ∧
      ∀ later, (b.closeTag name).addNodes later = (Builder.mk outer b.roots).addNodes
        (.element e.tag (e.children ++ closeAll [] inner []) :: later) := by
  unfold Skips at h
  rw [not_or, Bool.not_eq_true] at h
  obtain ⟨hv, hopen⟩ := h
  have hany : b.opened.any (OpenElement.isNamed name) = true := by
    rw [List.any_eq_true]
    by_contra hnone
    apply hopen
    intro e he
    rw [← Bool.not_eq_true]
    exact fun hname => hnone ⟨e, he, hname⟩
  obtain ⟨inner, e, outer, hopened, hinner, he⟩ := exists_innermost hany
  refine ⟨inner, e, outer, hopened, hinner, he, ?_⟩
  intro later
  have hclose : b.closeTag name =
      (Builder.mk outer b.roots).addNodes [(e.add (closeAll [] inner [])).close] := by
    rw [closeTag, hv, if_neg Bool.false_ne_true, ← closeThrough_append hinner he, ← hopened]
    exact if_pos hany
  rw [hclose, addNodes_addNodes]
  rfl

end Builder

/-- The state of reading after some events. -/
def stateAfter (es : List Event) : Builder := es.foldl Builder.step Builder.start

theorem parse_eq_ok_iff {t : Text} {d : Document} :
    parse t = .ok d ↔ ∃ es, Reads t.byteSize t es ∧ d = Document.ofEvents es := by
  unfold parse
  cases hes : events t with
  | error e =>
    constructor
    · intro h
      cases h
    · rintro ⟨es, hr, -⟩
      rw [events_eq_ok_iff.2 hr] at hes
      cases hes
  | ok es =>
    constructor
    · intro h
      exact ⟨es, events_eq_ok_iff.1 hes, (Except.ok.inj h).symm⟩
    · rintro ⟨es', hr, rfl⟩
      rw [events_eq_ok_iff.2 hr] at hes
      cases hes
      rfl

/-- The outline of the document that a row of events stands for. -/
theorem outline_ofEvents (es : List Event) :
    outline [] (Document.ofEvents es).children = Builder.start.outlineOf es := by
  rw [Document.ofEvents, Builder.outline_finish, Builder.outline_foldl]
  rfl

/-- Building a document loses, doubles and moves nothing. The nodes of a document that is read are, in
preorder, the start tags, texts, raw texts and comments in the order in which they were read; and it is
the only document in which each of them stands below the elements that were open at its moment. An end
tag of an element without content changes nothing, nor does one without an open element of its name;
every other one closes the innermost open element of its name with all that was opened inside it, and
later nodes become its siblings. -/
theorem document_follows_events {t : Text} {d : Document} (h : parse t = .ok d) :
    ∃ es, Reads t.byteSize t es ∧ d.preorder = es.flatMap Event.items ∧
      (∀ d' : Document, outline [] d'.children = Builder.start.outlineOf es ↔ d' = d) ∧
      ∀ before name after, es = before ++ .closing name :: after →
        ((stateAfter before).Skips name →
          stateAfter (before ++ [.closing name]) = stateAfter before) ∧
        (¬ (stateAfter before).Skips name →
          ∃ inner e outer, (stateAfter before).opened = inner ++ e :: outer ∧
            (∀ i ∈ inner, i.isNamed name = false) ∧ e.isNamed name = true ∧
            ∀ later, (stateAfter (before ++ [.closing name])).addNodes later =
              (Builder.mk outer (stateAfter before).roots).addNodes
                (.element e.tag (e.children ++ Builder.closeAll [] inner []) :: later)) := by
  obtain ⟨es, hreads, rfl⟩ := parse_eq_ok_iff.1 h
  have houtline := outline_ofEvents es
  refine ⟨es, hreads, ?_, ?_, ?_⟩
  · rw [Document.preorder, houtline, Builder.map_snd_outlineOf]
  · intro d'
    constructor
    · intro h'
      obtain ⟨children⟩ := d'
      exact congrArg Document.mk (outline_injective (h'.trans houtline.symm))
    · rintro rfl
      exact houtline
  · intro before name after _
    have hstep : stateAfter (before ++ [.closing name]) = (stateAfter before).closeTag name := by
      rw [stateAfter, List.foldl_append]
      rfl
    rw [hstep]
    exact ⟨Builder.closeTag_of_skips, Builder.closeTag_of_not_skips⟩

/-- Markup with an element that is not closed, an end tag in capitals around it, one without an element
and one of an element without content. -/
def tagSoup : Text := "<view a='1'><text>甲</VIEW>乙</x><br></br><!--c-->".toList

def tagSoupPage : Document :=
  ⟨[.element ⟨"view".toList, [⟨"a".toList, some "1".toList⟩]⟩
      [.element ⟨"text".toList, []⟩ [.text "甲".toList]],
    .text "乙".toList, .element ⟨"br".toList, []⟩ [], .comment "c".toList]⟩

theorem tagSoupPage_follows_events :
    ∃ es, Reads tagSoup.byteSize tagSoup es ∧ tagSoupPage.preorder = es.flatMap Event.items ∧
      ∀ d' : Document, outline [] d'.children = Builder.start.outlineOf es ↔ d' = tagSoupPage := by
  have hparse : parse tagSoup = .ok tagSoupPage := by rfl
  obtain ⟨es, hreads, hitems, honly, -⟩ := document_follows_events hparse
  exact ⟨es, hreads, hitems, honly⟩

end Phrasebook.Markup
