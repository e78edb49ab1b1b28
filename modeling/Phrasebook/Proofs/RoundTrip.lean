import Phrasebook.Proofs.MarkupEvents

/-!
Documents and their markup.

* A document that is legal, keeps its texts apart and has no value with both kinds of quotes is what
  reading its markup gives (`parse_nodesText`).
* What reading markup gives is legal (`legal_of_parse`).

Both follow the events: those of a tree add the tree to whatever is open (`readsAs_nodesText`), and what
holds of all that the events add holds of the document (`holds_of_parse`).
-/

namespace Phrasebook.Markup

open Template (nodesText nodeText startText tagEnd selfClosingNames)

/-! ## Adding trees -/

namespace Builder

theorem addNodes_nil (b : Builder) : b.addNodes [] = b := by
  obtain ⟨opened, roots⟩ := b
  cases opened with
  | nil => simp [addNodes]
  | cons e outer => simp [addNodes, OpenElement.add]

theorem addNodes_addNodes (b : Builder) (ns ms : List Node) :
    (b.addNodes ns).addNodes ms = b.addNodes (ns ++ ms) := by
  obtain ⟨opened, roots⟩ := b
  cases opened with
  | nil => simp [addNodes]
  | cons e outer => simp [addNodes, OpenElement.add]

/-- The end tag of the innermost open element closes it. -/
theorem closeTag_innermost (b : Builder) {tag : Tag} (hv : isVoid tag.name = false)
    (children : List Node) :
    (Builder.mk (⟨tag, children⟩ :: b.opened) b.roots).closeTag tag.name =
      b.addNodes [.element tag children] := by
  have heq : Text.eqIgnoringCase tag.name tag.name = true := by
    simp [Text.eqIgnoringCase]
  simp [closeTag, hv, heq, closeThrough, OpenElement.add, OpenElement.close]

end Builder

/-- The content of a raw text element as reading gives it. -/
theorem IsRawContent.eq_text {name : Text} {children : List Node} (h : IsRawContent name children) :
    ∃ content, nodesText children = content ∧
      ¬ '<' :: '/' :: Text.lowerAscii name <:+: Text.lowerAscii content ∧
      children = if content.isEmpty then [] else [.text content] := by
  unfold IsRawContent at h
  split at h
  · exact ⟨[], rfl, by simp [Text.lowerAscii], rfl⟩
  · next data =>
    refine ⟨data, by simp [nodesText, nodeText], h.2, ?_⟩
    rw [if_neg (by simpa using h.1)]
  · exact h.elim

theorem atMarkup_endTag {name : Text} (hn : IsTagName name) (rest : Text) :
    atMarkup ("</".toList ++ name ++ ['>'] ++ rest) = true := by
  obtain ⟨c, t, rfl, hc⟩ := hn.eq_cons
  rw [atMarkup_iff]
  exact ⟨['<', '/', c], .inr ⟨c, hc, .inl rfl⟩, t ++ ['>'] ++ rest, by simp⟩

theorem atMarkup_startText {tag : Tag} (hn : IsTagName tag.name) (rest : Text) :
    atMarkup (startText tag ++ rest) = true := by
  obtain ⟨c, t, hname, hc⟩ := hn.eq_cons
  rw [atMarkup_iff]
  refine ⟨['<', c], .inr ⟨c, hc, .inr rfl⟩, ?_⟩
  exact ⟨t ++ tag.attributes.flatMap Template.attributeText ++ rest, by simp [startText, hname]⟩

/-- Behind a text a tag or a comment starts, or nothing follows. -/
theorem atMarkup_nodesText {ns : List Node} (hl : Legal ns) (hn : ns.head?.any Node.isText = false)
    {rest : Text} (hr : rest = [] ∨ atMarkup rest = true) :
    nodesText ns ++ rest = [] ∨ atMarkup (nodesText ns ++ rest) = true := by
  cases ns with
  | nil => simpa [nodesText] using hr
  | cons n ns =>
    right
    cases n with
    | text data => cases hn
    | comment data =>
      rw [atMarkup_iff]
      exact ⟨_, .inl rfl, data ++ "-->".toList ++ nodesText ns ++ rest, by simp [nodesText, nodeText]⟩
    | element tag children =>
      have hname := (legal_element.1 hl).1.1.1
      simp only [nodesText, nodeText]
      split
      · rw [List.append_assoc, List.append_assoc]
        exact atMarkup_startText hname _
      · simp only [List.append_assoc]
        exact atMarkup_startText hname _

/-- A text that is read as these trees wherever `follows` holds of the rest. -/
def ReadsAs (total : Nat) (follows : Text → Prop) (t : Text) (ns : List Node) : Prop :=
  ∃ evs : List Event, (∀ b : Builder, evs.foldl Builder.step b = b.addNodes ns) ∧
    ∀ rest es, follows rest → Reads total rest es → Reads total (t ++ rest) (evs ++ es)

/-- What may follow a row of trees, whatever its last tree is. -/
def EndsRow (rest : Text) : Prop := rest = [] ∨ atMarkup rest = true

theorem ReadsAs.cons {total : Nat} {t u : Text} {n : Node} {ns : List Node}
    (hn : ReadsAs total (fun _ => True) t [n]) (hns : ReadsAs total EndsRow u ns) :
    ReadsAs total EndsRow (t ++ u) (n :: ns) := by
  obtain ⟨evs, hfold, hreads⟩ := hn
  obtain ⟨evs', hfold', hreads'⟩ := hns
  refine ⟨evs ++ evs', ?_, ?_⟩
  · intro b
    rw [List.foldl_append, hfold, hfold', Builder.addNodes_addNodes]
    rfl
  · intro rest es hr h
    rw [List.append_assoc, List.append_assoc]
    exact hreads _ _ trivial (hreads' rest es hr h)

theorem readsAs_comment {data : Text} (hd : ¬ "-->".toList <:+: data) (total : Nat) :
    ReadsAs total (fun _ => True) (nodeText (.comment data)) [.comment data] := by
  refine ⟨[.comment data], fun b => rfl, ?_⟩
  intro rest es _ h
  rw [nodeText]
  exact .cons (by simp) (readEvent_comment hd total rest) h

/-- What a start tag is read as, when it ends as it is written. -/
theorem readEvent_startTag {tag : Tag} (ht : tag.Legal)
    (hq : ∀ a ∈ tag.attributes, ∀ v, a.value = some v → ¬ ('"' ∈ v ∧ '\'' ∈ v)) (total : Nat)
    (selfClosing : Bool) (rest : Text) :
    ∃ start, readEvent total (startText tag ++ (tagEnd selfClosing ++ rest)) =
      if selfClosing || isVoid tag.name then .ok (.empty tag, rest)
      else if isRaw tag.name then
        (readRaw total start tag.name rest).map fun p => (.raw tag p.1, p.2)
      else .ok (.opening tag, rest) := by
  obtain ⟨start, h⟩ := readElement_append ht hq total selfClosing rest
  exact ⟨start, by rw [readEvent_start ht.1, h]⟩

/-- An element is read back when its content is. -/
theorem readsAs_element {tag : Tag} {children : List Node} (hl : (Node.element tag children).Legal)
    (hq : ∀ a ∈ tag.attributes, ∀ v, a.value = some v → ¬ ('"' ∈ v ∧ '\'' ∈ v)) (total : Nat)
    (hc : isRaw tag.name = false → ReadsAs total EndsRow (nodesText children) children) :
    ReadsAs total (fun _ => True) (nodeText (.element tag children)) [.element tag children] := by
  obtain ⟨htag, hvoid, hraw⟩ := hl
  have hne : ∀ t, startText tag ++ t ≠ [] := by simp [startText]
  have hstart := readEvent_startTag htag hq total
  by_cases hself : (children.isEmpty && selfClosingNames.contains tag.name) = true
  · -- one tag that closes itself
    obtain rfl := List.isEmpty_iff.1 (Bool.and_eq_true_iff.1 hself).1
    refine ⟨[.empty tag], fun b => rfl, ?_⟩
    intro rest es _ h
    obtain ⟨start, hread⟩ := hstart true rest
    rw [nodeText, if_pos hself, List.append_assoc]
    exact .cons (hne _) hread h
  · have htext : ∀ rest, nodeText (.element tag children) ++ rest =
        startText tag ++ (tagEnd false ++ (nodesText children ++
          ("</".toList ++ tag.name ++ ['>'] ++ rest))) := by
      intro rest
      rw [nodeText, if_neg hself]
      simp only [List.append_assoc]
    have hend : ∀ rest es, Reads total rest es →
        Reads total ("</".toList ++ tag.name ++ ['>'] ++ rest) (.closing tag.name :: es) :=
      fun rest es h => .cons (by simp) (readEvent_endTag htag.1 total rest) h
    cases hv : isVoid tag.name with
    | true =>
      -- the start tag closes the element, and the end tag is skipped
      obtain rfl := hvoid hv
      refine ⟨[.empty tag, .closing tag.name], ?_, ?_⟩
      · intro b
        simp [Builder.step, Builder.closeTag, hv]
      · intro rest es _ h
        obtain ⟨start, hread⟩ := hstart false _
        rw [hv] at hread
        rw [htext]
        exact .cons (hne _) hread (by simpa [nodesText] using hend rest es h)
    | false =>
      cases hr : isRaw tag.name with
      | true =>
        -- the content and the end tag belong to one event
        obtain ⟨content, hchildren, hmark, hnode⟩ := (hraw hr).eq_text
        refine ⟨[.raw tag content], ?_, ?_⟩
        · intro b
          rw [List.foldl_cons, List.foldl_nil, Builder.step, ← hnode]
        · intro rest es _ h
          rw [htext]
          obtain ⟨start, hread⟩ :=
            hstart false (nodesText children ++ ("</".toList ++ tag.name ++ ['>'] ++ rest))
          rw [hv, hr, hchildren, readRaw_append hr hmark] at hread
          rw [hchildren]
          exact .cons (hne _) hread h
      | false =>
        obtain ⟨evs, hfold, hreads⟩ := hc hr
        refine ⟨.opening tag :: evs ++ [.closing tag.name], ?_, ?_⟩
        · intro b
          rw [List.cons_append, List.foldl_cons, List.foldl_append, Builder.step, hfold]
          exact b.closeTag_innermost hv children
        · intro rest es _ h
          obtain ⟨start, hread⟩ := hstart false _
          rw [hv, hr] at hread
          rw [htext]
          refine .cons (hne _) hread ?_
          show Reads total _ (evs ++ [.closing tag.name] ++ es)
          rw [List.append_assoc evs]
          exact hreads _ _ (.inr (atMarkup_endTag htag.1 rest)) (hend rest es h)

theorem readsAs_nodesText {ns : List Node} (hl : Legal ns) (ha : TextsApart ns) (hq : Quotable ns)
    (total : Nat) : ReadsAs total EndsRow (nodesText ns) ns := by
  induction ns using nodes_induction with
  | nil =>
    refine ⟨[], fun b => (b.addNodes_nil).symm, ?_⟩
    intro rest es _ h
    simpa [nodesText] using h
  | text data ns ih =>
    obtain ⟨⟨hne, hd⟩, hlns⟩ := legal_text.1 hl
    obtain ⟨evs, hfold, hreads⟩ := ih hlns ha.tail hq.tail
    refine ⟨.text data :: evs, ?_, ?_⟩
    · intro b
      rw [List.foldl_cons, hfold, Builder.step, Builder.addNodes_addNodes]
      rfl
    · intro rest es hr h
      have hread := readEvent_text hne hd (atMarkup_nodesText hlns ha.head hr) total
      rw [nodesText, nodeText, List.append_assoc]
      exact .cons (by simp [hne]) hread (hreads rest es hr h)
  | comment data ns ih =>
    obtain ⟨hd, hlns⟩ := legal_comment.1 hl
    exact (readsAs_comment hd total).cons (ih hlns ha.tail hq.tail)
  | element tag children ns ihc ih =>
    obtain ⟨hn, hlc, hlns⟩ := legal_element.1 hl
    have helement := readsAs_element hn hq.attributes total
      fun hr => ihc (hlc hr) (ha.children hr) (hq.children hr)
    exact helement.cons (ih hlns ha.tail hq.tail)

/-- The markup of a document gives the document back. -/
theorem parse_nodesText {ns : List Node} (hl : Legal ns) (ha : TextsApart ns) (hq : Quotable ns) :
    parse (nodesText ns) = .ok ⟨ns⟩ := by
  obtain ⟨evs, hfold, hreads⟩ := readsAs_nodesText hl ha hq (nodesText ns).byteSize
  have hall := hreads [] [] (.inl rfl) .nil
  rw [List.append_nil, List.append_nil] at hall
  have hevents := events_eq_ok_iff.2 hall
  unfold parse
  rw [hevents]
  show Except.ok (Document.ofEvents evs) = _
  rw [Document.ofEvents, hfold]
  simp [Builder.start, Builder.addNodes, Builder.finish, Builder.closeAll]

/-! ## What holds of all that is read -/

/-- A property of rows of trees and one of the tags of open elements, such that elements with these
tags can be closed at any time. -/
structure Composes (R : List Node → Prop) (T : Tag → Prop) : Prop where
  nil : R []
  append {ns ms : List Node} : R ns → R ms → R (ns ++ ms)
  element {tag : Tag} {children : List Node} : T tag → R children → R [.element tag children]

section

variable {R : List Node → Prop} {T : Tag → Prop}

/-- What an event adds to a document has these properties. -/
def Event.Holds (R : List Node → Prop) (T : Tag → Prop) : Event → Prop
  | .opening tag => T tag
  | .empty tag => R [.element tag []]
  | .raw tag content => R [.element tag (if content.isEmpty then [] else [.text content])]
  | .closing _ => True
  | .text data => R [.text data]
  | .comment data => R [.comment data]

/-- An open element that can be closed at any time. -/
def OpenElement.Holds (R : List Node → Prop) (T : Tag → Prop) (e : OpenElement) : Prop :=
  T e.tag ∧ R e.children

theorem OpenElement.Holds.add (hc : Composes R T) {e : OpenElement} (h : e.Holds R T) {ns : List Node}
    (hns : R ns) : (e.add ns).Holds R T :=
  ⟨h.1, hc.append h.2 hns⟩

namespace Builder

def Holds (R : List Node → Prop) (T : Tag → Prop) (b : Builder) : Prop :=
  R b.roots ∧ ∀ e ∈ b.opened, e.Holds R T

theorem Holds.addNodes (hc : Composes R T) {b : Builder} (h : b.Holds R T) {ns : List Node}
    (hns : R ns) : (b.addNodes ns).Holds R T := by
  obtain ⟨opened, roots⟩ := b
  obtain ⟨hroots, hopened⟩ := h
  cases opened with
  | nil => exact ⟨hc.append hroots hns, hopened⟩
  | cons e outer =>
    obtain ⟨he, houter⟩ := List.forall_mem_cons.1 hopened
    exact ⟨hroots, List.forall_mem_cons.2 ⟨he.add hc hns, houter⟩⟩

theorem Holds.closeThrough (hc : Composes R T) {name : Text} {roots : List Node} (hroots : R roots)
    {opened : List OpenElement} (hopened : ∀ e ∈ opened, e.Holds R T) {closed : List Node}
    (hclosed : R closed) : (Builder.closeThrough name roots opened closed).Holds R T := by
  induction opened generalizing closed with
  | nil => exact ⟨hc.append hroots hclosed, by simp [Builder.closeThrough]⟩
  | cons e outer ih =>
    obtain ⟨he, houter⟩ := List.forall_mem_cons.1 hopened
    obtain ⟨htag, hchildren⟩ := he.add hc hclosed
    have hnode := hc.element htag hchildren
    unfold Builder.closeThrough
    dsimp only
    split
    · exact Holds.addNodes hc ⟨hroots, houter⟩ hnode
    · exact ih houter hnode

theorem Holds.step (hc : Composes R T) {b : Builder} (h : b.Holds R T) {e : Event}
    (he : e.Holds R T) : (b.step e).Holds R T := by
  cases e with
  | opening tag => exact ⟨h.1, List.forall_mem_cons.2 ⟨⟨he, hc.nil⟩, h.2⟩⟩
  | empty tag => exact h.addNodes hc he
  | raw tag content => exact h.addNodes hc he
  | closing name =>
    show (b.closeTag name).Holds R T
    unfold closeTag
    split
    · exact h
    · split
      · exact Holds.closeThrough hc h.1 h.2 hc.nil
      · exact h
  | text data => exact h.addNodes hc he
  | comment data => exact h.addNodes hc he

theorem Holds.closeAll (hc : Composes R T) {roots : List Node} (hroots : R roots)
    {opened : List OpenElement} (hopened : ∀ e ∈ opened, e.Holds R T) {closed : List Node}
    (hclosed : R closed) : R (Builder.closeAll roots opened closed) := by
  induction opened generalizing closed with
  | nil => exact hc.append hroots hclosed
  | cons e outer ih =>
    obtain ⟨he, houter⟩ := List.forall_mem_cons.1 hopened
    obtain ⟨htag, hchildren⟩ := he.add hc hclosed
    exact ih houter (hc.element htag hchildren)

end Builder

/-- What holds of all that the events of a text add holds of the document that is read. -/
theorem holds_of_parse (hc : Composes R T) {t : Text} {d : Document} (h : parse t = .ok d)
    (he : ∀ es, Reads t.byteSize t es → ∀ e ∈ es, e.Holds R T) : R d.children := by
  have hrun : ∀ (es : List Event) (b : Builder), b.Holds R T → (∀ e ∈ es, e.Holds R T) →
      (es.foldl Builder.step b).Holds R T := by
    intro es
    induction es with
    | nil => exact fun b hb _ => hb
    | cons e es ih =>
      intro b hb hes
      obtain ⟨hfirst, hrest⟩ := List.forall_mem_cons.1 hes
      exact ih (b.step e) (hb.step hc hfirst) hrest
  unfold parse at h
  cases hes : events t with
  | error e =>
    rw [hes] at h
    cases h
  | ok es =>
    rw [hes] at h
    obtain rfl := Except.ok.inj h
    obtain ⟨hroots, hopened⟩ :=
      hrun es Builder.start ⟨hc.nil, by simp [Builder.start]⟩ (he es (events_eq_ok_iff.1 hes))
    exact Builder.Holds.closeAll hc hroots hopened hc.nil

end

/-! ## What reading gives is legal -/

theorem composes_legal :
    Composes Legal fun tag => tag.Legal ∧ isVoid tag.name = false ∧ isRaw tag.name = false where
  nil := legal_nil
  append hns hms := legal_append.2 ⟨hns, hms⟩
  element := by
    rintro tag children ⟨htag, hv, hr⟩ hc
    refine legal_element.2 ⟨⟨htag, ?_, ?_⟩, fun _ => hc, legal_nil⟩
    · intro hv'
      rw [hv] at hv'
      cases hv'
    · intro hr'
      rw [hr] at hr'
      cases hr'

theorem Event.Legal.holds {e : Event} (he : e.Legal) :
    e.Holds Markup.Legal fun tag =>
      tag.Legal ∧ isVoid tag.name = false ∧ isRaw tag.name = false := by
  cases e with
  | opening tag => exact he
  | empty tag => exact legal_element.2 ⟨he, fun _ => legal_nil, legal_nil⟩
  | raw tag content =>
    refine legal_element.2 ⟨he.2, ?_, legal_nil⟩
    intro hr
    rw [he.1] at hr
    cases hr
  | closing name => trivial
  | text data => exact legal_text.2 ⟨he, legal_nil⟩
  | comment data => exact legal_comment.2 ⟨he, legal_nil⟩

theorem legal_of_reads {total : Nat} {t : Text} {es : List Event} (h : Reads total t es) :
    ∀ e ∈ es, e.Legal := by
  induction h with
  | nil => simp
  | cons ht hread _ ih => exact List.forall_mem_cons.2 ⟨(of_readEvent ht hread).2, ih⟩

/-- Documents that are read are legal. -/
theorem legal_of_parse {t : Text} {d : Document} (h : parse t = .ok d) : Legal d.children :=
  holds_of_parse composes_legal h fun _ hes e he => (legal_of_reads hes e he).holds

end Phrasebook.Markup
