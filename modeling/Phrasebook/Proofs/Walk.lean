import Phrasebook.Proofs.Edits
import Phrasebook.Script.Localize

/-!
The walk over a syntax tree, seen from outside.

* Where it looks: `Occurs` relates a tree in a place to the trees below it, each in its own place.
  Literals are not entered.
* When it finds nothing: exactly when every literal and every call below the tree is settled
  (`changes_eq_nil_iff`). A literal is settled when it holds no natural text or stands where it stays
  as it is, a call when it registers no page under the old name and, when the locale is to be merged,
  the data of a localized page merges it already.
* What it finds stands where it says: the literal or the name that a change takes out is the part of
  the source that starts there (`located_of_mem_changes`).
-/

namespace Phrasebook.Script

/-! ## Texts of trees -/

namespace Tree

mutual

/-- A tree starts with its leading gap. -/
theorem leadingGap_isPrefix : ∀ t : Tree, gapText t.leadingGap <+: t.source
  | .leaf _ _ gap text => by
    simp only [leadingGap, source]
    exact List.prefix_append _ _
  | .node _ _ children => by
    simp only [leadingGap, source]
    exact leadingGapAll_isPrefix children

theorem leadingGapAll_isPrefix : ∀ ts : List Tree, gapText (leadingGapAll ts) <+: sourceAll ts
  | [] => by simp [leadingGapAll, gapText]
  | t :: ts => by
    simp only [leadingGapAll, sourceAll]
    exact (leadingGap_isPrefix t).trans (List.prefix_append _ _)

end

/-- The source of a tree is its leading gap and its text. -/
theorem gapText_append_text (t : Tree) : gapText t.leadingGap ++ t.text = t.source := by
  obtain ⟨rest, h⟩ := t.leadingGap_isPrefix
  rw [text, ← h, List.drop_left]

end Tree

/-- A part that is found in a row splits the row. -/
theorem row_eq_of_find? {row : List Tree} {found : Tree → Bool} {t : Tree}
    (h : row.find? found = some t) :
    ∃ after, row = row.takeWhile (fun s => !found s) ++ t :: after := by
  induction row with
  | nil => cases h
  | cons s row ih =>
    by_cases hs : found s = true
    · rw [List.find?_cons_of_pos hs] at h
      cases h
      exact ⟨row, by simp [hs]⟩
    · rw [List.find?_cons_of_neg hs] at h
      obtain ⟨after, hrow⟩ := ih h
      refine ⟨after, ?_⟩
      rw [List.takeWhile_cons_of_pos (by simpa using hs), List.cons_append, ← hrow]

/-- A part that is found in a row stands where `startIn` says. -/
theorem sourceAll_eq_of_find? {row : List Tree} {found : Tree → Bool} {t : Tree}
    (h : row.find? found = some t) :
    ∃ before after, Tree.sourceAll row = before ++ t.source ++ after ∧
      before.length = startIn row found := by
  obtain ⟨after, hrow⟩ := row_eq_of_find? h
  have hsource := congrArg Tree.sourceAll hrow
  rw [Tree.sourceAll_append, Tree.sourceAll, ← List.append_assoc] at hsource
  exact ⟨_, Tree.sourceAll after, hsource, rfl⟩

/-! ## Where the walk looks -/

/-- A tree in a place, seen from a tree above it or from itself. -/
inductive Occurs : Place → Tree → Place → Tree → Prop
  | here (place : Place) (t : Tree) : Occurs place t place t
  | child {place inner : Place} {role : Role} {kind : Kind} {children : List Tree} {c t : Tree}
      (hk : kind ≠ .string) (hc : c ∈ children)
      (h : Occurs (place.inside (.node role kind children)) c inner t) :
      Occurs place (.node role kind children) inner t

/-! ## When it finds nothing -/

/-- A literal without natural text, or one that stands where it stays as it is. -/
def LiteralSettled (b : Bindings) (place : Place) (t : Tree) : Prop :=
  t.kind = .string → Text.isNatural (literalValue t) = true →
    place.forChild.callee.any (isLookup b) = true ∨ isFixedPlace place.forChild t.role = true ∨
      place.forChild.callee.any isRequire = true

/-- The data of a page, where there are any, merge the locale. -/
def DataSettled (b : Bindings) (call : Tree) : Prop :=
  ∀ options ∈ optionsOf? call, ∀ data ∈ options.children.find? isDataPair,
    ∀ value ∈ data.child? .value, mergesLocale b value = true

/-- A call that registers no page under the old name, nor one whose data lack the locale. -/
def CallSettled (b : Bindings) (mergeLocale : Bool) (t : Tree) : Prop :=
  t.kind = .call → ∀ callee ∈ t.child? .callee, callee.kind = .identifier →
    callee.text ≠ b.page ∧
      (mergeLocale = true → callee.text = b.localizedPage → DataSettled b t)

/-- A tree in a place that asks for no change by itself. -/
def SettledHere (b : Bindings) (scope : Scope) (place : Place) (t : Tree) : Prop :=
  LiteralSettled b place t ∧ ∀ mergeLocale, scope = .script mergeLocale → CallSettled b mergeLocale t

/-- A script in which nothing is left to change. -/
def Settled (b : Bindings) (scope : Scope) (script : Tree) : Prop :=
  ∀ place t, Occurs ⟨.program, none⟩ script place t → SettledHere b scope place t

theorem wraps_eq_false_iff {b : Bindings} {place : Place} {t : Tree} (h : t.kind = .string) :
    wraps b place.forChild t = false ↔ LiteralSettled b place t := by
  unfold wraps LiteralSettled
  cases Text.isNatural (literalValue t) <;> cases place.forChild.callee.any (isLookup b) <;>
    cases isFixedPlace place.forChild t.role <;> cases place.forChild.callee.any isRequire <;>
    simp [h]

theorem mergeChange_eq_nil_iff {b : Bindings} {offset : Nat} {call : Tree} :
    mergeChange b offset call = [] ↔ DataSettled b call := by
  unfold mergeChange DataSettled optionsOf?
  cases ha : call.child? .arguments with
  | none => simp
  | some arguments =>
    cases ho : (Option.bind (some arguments) Tree.firstNamed?).filter (·.kind == .object) with
    | none => simp
    | some options =>
      cases hd : options.children.find? isDataPair with
      | none => simp [hd]
      | some data =>
        cases hv : data.child? .value with
        | none => simp [hd, hv]
        | some value => simp [hd, hv]

theorem callChanges_eq_nil_iff {b : Bindings} {mergeLocale : Bool} {offset : Nat} {t : Tree}
    (h : t.kind = .call) :
    callChanges b mergeLocale offset t = [] ↔ CallSettled b mergeLocale t := by
  unfold callChanges CallSettled
  cases hc : t.child? .callee with
  | none => simp
  | some callee =>
    by_cases hk : callee.kind = .identifier
    · by_cases hp : callee.text = b.page
      · simp [h, hk, hp]
      · by_cases hl : callee.text = b.localizedPage
        · cases mergeLocale <;> simp_all [mergeChange_eq_nil_iff]
        · simp [h, hk, hp, hl]
    · simp [hk]

theorem nodeChanges_eq_nil_iff {b : Bindings} {scope : Scope} {offset : Nat} {t : Tree} :
    nodeChanges b scope offset t = [] ↔
      ∀ mergeLocale, scope = .script mergeLocale → CallSettled b mergeLocale t := by
  cases scope with
  | expression => simp [nodeChanges]
  | script mergeLocale =>
    by_cases h : t.kind = .call
    · have hn : nodeChanges b (.script mergeLocale) offset t =
          callChanges b mergeLocale offset t := by simp [nodeChanges, h]
      rw [hn, callChanges_eq_nil_iff h]
      simp
    · have hn : nodeChanges b (.script mergeLocale) offset t = [] := by
        unfold nodeChanges
        split
        · next hk => exact absurd hk h
        · rfl
      simp [hn, CallSettled, h]

/-- What occurs below a node is the node itself or occurs in one of its children. -/
theorem forall_occurs_node {role : Role} {kind : Kind} {children : List Tree} {place : Place}
    (hk : kind ≠ .string) {P : Place → Tree → Prop} :
    (∀ inner t, Occurs place (.node role kind children) inner t → P inner t) ↔
      P place (.node role kind children) ∧
        ∀ c ∈ children, ∀ inner t, Occurs (place.inside (.node role kind children)) c inner t →
          P inner t := by
  constructor
  · intro h
    exact ⟨h _ _ (.here _ _), fun c hc inner t ho => h _ _ (.child hk hc ho)⟩
  · rintro ⟨hhere, hbelow⟩ inner t ho
    cases ho with
    | here => exact hhere
    | child _ hc ho => exact hbelow _ hc _ _ ho

mutual

/-- The walk finds nothing exactly when everything it looks at is settled. -/
theorem changes_eq_nil_iff (b : Bindings) (scope : Scope) :
    ∀ (t : Tree) (place : Place) (offset : Nat), changes b scope place offset t = [] ↔
      ∀ inner s, Occurs place t inner s → SettledHere b scope inner s
  | .leaf role kind gap text, place, offset => by
    simp only [changes, true_iff]
    intro inner s ho
    cases ho
    refine ⟨?_, ?_⟩
    · -- a leaf has no parts, so its value is empty
      intro _ hn
      simp [literalValue, Tree.children, Units.decodeLossy, Units.decode, Text.isNatural] at hn
    · intro _ _ _ callee hc
      simp [Tree.child?, Tree.children] at hc
  | .node role kind children, place, offset => by
    by_cases hk : kind = .string
    · subst hk
      have hc : changes b scope place offset (.node role .string children) = [] ↔
          wraps b place.forChild (.node role .string children) = false := by
        rw [changes, if_pos rfl]
        cases wraps b place.forChild (.node role .string children) <;> simp
      rw [hc, wraps_eq_false_iff rfl]
      constructor
      · intro h inner s ho
        cases ho with
        | here => exact ⟨h, fun _ _ hcall => by cases hcall⟩
        | child hne _ _ => exact absurd rfl hne
      · intro h
        exact (h _ _ (.here _ _)).1
    · rw [forall_occurs_node hk, changes, if_neg hk, List.append_eq_nil_iff,
        nodeChanges_eq_nil_iff, changesAll_eq_nil_iff b scope children]
      have hl : LiteralSettled b place (.node role kind children) := fun h => absurd h hk
      simp [SettledHere, hl]

/-- The same for a row of trees. -/
theorem changesAll_eq_nil_iff (b : Bindings) (scope : Scope) :
    ∀ (ts : List Tree) (place : Place) (offset : Nat), changesAll b scope place offset ts = [] ↔
      ∀ c ∈ ts, ∀ inner s, Occurs place c inner s → SettledHere b scope inner s
  | [], place, offset => by simp [changesAll]
  | t :: ts, place, offset => by
    rw [changesAll, List.append_eq_nil_iff, changes_eq_nil_iff b scope t,
      changesAll_eq_nil_iff b scope ts]
    simp

end

/-- Nothing is left to change in a script exactly when it is settled. -/
theorem changesIn_eq_nil_iff {b : Bindings} {scope : Scope} {script : Tree} :
    changesIn b scope script = [] ↔ Settled b scope script :=
  changes_eq_nil_iff b scope script _ 0

/-! ## What it finds stands where it says -/

/-- A part of a text that starts at a position. -/
def StandsAt (source part : Text) (start : Nat) : Prop :=
  ∃ before after, source = before ++ part ++ after ∧ before.length = start

theorem covered_of_standsAt {source part : Text} {start : Nat} (h : StandsAt source part start)
    (replacement : Text) :
    Edit.covered source ⟨start, start + part.length, replacement⟩ = part := by
  obtain ⟨before, after, rfl, rfl⟩ := h
  rw [Edit.covered, List.append_assoc]
  show ((before ++ (part ++ after)).drop before.length).take
    (before.length + part.length - before.length) = part
  rw [List.drop_left, Nat.add_sub_cancel_left, List.take_left]

/-- The literal or the name that a change takes out stands in the source; a page is renamed from its
old name. A merge takes nothing out. -/
def Change.Located (b : Bindings) (source : Text) : Change → Prop
  | .wrap start literal _ => StandsAt source literal start
  | .rename start name => name = b.page ∧ StandsAt source name start
  | .merge _ _ => True

/-- The text of a tree stands after its leading gap. -/
theorem standsAt_text (before : Text) (t : Tree) (after : Text) :
    StandsAt (before ++ t.source ++ after) t.text (before.length + gapLength t) := by
  refine ⟨before ++ gapText t.leadingGap, after, ?_, ?_⟩
  · rw [← t.gapText_append_text]
    simp only [List.append_assoc]
  · rw [List.length_append, gapLength]

theorem mergeChange_cases (b : Bindings) (offset : Nat) (call : Tree) :
    mergeChange b offset call = [] ∨ ∃ start stop, mergeChange b offset call = [.merge start stop] := by
  unfold mergeChange
  split
  · split
    · exact .inl rfl
    · split
      · exact .inl rfl
      · split
        · exact .inl rfl
        · exact .inr ⟨_, _, rfl⟩
  · exact .inl rfl

theorem located_of_mem_mergeChange {b : Bindings} {offset : Nat} {call : Tree} {source : Text}
    {c : Change} (h : c ∈ mergeChange b offset call) : c.Located b source := by
  rcases mergeChange_cases b offset call with he | ⟨start, stop, he⟩
  · rw [he] at h
    cases h
  · rw [he, List.mem_singleton] at h
    subst h
    trivial

theorem located_of_mem_callChanges {b : Bindings} {mergeLocale : Bool} {t : Tree} {c : Change}
    {before after : Text} (h : c ∈ callChanges b mergeLocale before.length t)
    (hs : t.source = Tree.sourceAll t.children) :
    c.Located b (before ++ t.source ++ after) := by
  unfold callChanges at h
  split at h
  · cases h
  · next callee hc =>
    split at h
    · cases h
    · rw [List.mem_append] at h
      rcases h with h | h
      · split at h
        · next hp =>
          simp only [List.mem_singleton] at h
          subst h
          obtain ⟨u, w, hrow, hu⟩ := sourceAll_eq_of_find? hc
          refine ⟨by simpa using hp, ?_⟩
          have hat := standsAt_text (before ++ u) callee (w ++ after)
          rw [List.length_append, hu] at hat
          rw [hs, hrow]
          simpa only [List.append_assoc] using hat
        · cases h
      · split at h
        · exact located_of_mem_mergeChange h
        · cases h

theorem located_of_mem_nodeChanges {b : Bindings} {scope : Scope} {role : Role} {kind : Kind}
    {children : List Tree} {c : Change} {before after : Text}
    (h : c ∈ nodeChanges b scope before.length (.node role kind children)) :
    c.Located b (before ++ Tree.sourceAll children ++ after) := by
  unfold nodeChanges at h
  split at h
  · exact located_of_mem_callChanges h (by rw [Tree.source, Tree.children])
  · cases h

mutual

/-- Every change of a walk stands in the source that the walk started from. -/
theorem located_of_mem_changes (b : Bindings) (scope : Scope) :
    ∀ (t : Tree) (place : Place) (before after : Text) (c : Change),
      c ∈ changes b scope place before.length t → c.Located b (before ++ t.source ++ after)
  | .leaf .., place, before, after, c, h => by
    rw [changes] at h
    cases h
  | .node role kind children, place, before, after, c, h => by
    rw [changes] at h
    split at h
    · split at h
      · simp only [List.mem_singleton] at h
        subst h
        exact standsAt_text before (.node role kind children) after
      · cases h
    · rw [Tree.source]
      rcases List.mem_append.1 h with h | h
      · exact located_of_mem_nodeChanges h
      · exact located_of_mem_changesAll b scope children _ before after c h

/-- The same for a row of trees. -/
theorem located_of_mem_changesAll (b : Bindings) (scope : Scope) :
    ∀ (ts : List Tree) (place : Place) (before after : Text) (c : Change),
      c ∈ changesAll b scope place before.length ts →
        c.Located b (before ++ Tree.sourceAll ts ++ after)
  | [], place, before, after, c, h => by
    rw [changesAll] at h
    cases h
  | t :: ts, place, before, after, c, h => by
    rw [changesAll, ← List.length_append] at h
    rw [Tree.sourceAll]
    rcases List.mem_append.1 h with h | h
    · have := located_of_mem_changes b scope t place before (Tree.sourceAll ts ++ after) c h
      simpa only [List.append_assoc] using this
    · have := located_of_mem_changesAll b scope ts place (before ++ t.source) after c h
      simpa only [List.append_assoc] using this

end

/-- Every change in a script stands in the source of the script. -/
theorem located_of_mem_changesIn {b : Bindings} {scope : Scope} {script : Tree} {c : Change}
    (h : c ∈ changesIn b scope script) : c.Located b script.source := by
  have := located_of_mem_changes b scope script ⟨.program, none⟩ [] [] c h
  simpa using this

/-! ## Runs -/

/-- A script can be localized exactly when it can be parsed. -/
theorem localizeScript_eq_ok_iff {b : Bindings} {mergeLocale : Bool} {source : Text} {r : Localized} :
    localizeScript b mergeLocale source = .ok r ↔
      ∃ tree, parse source = .ok tree ∧
        r.output = Text.normalizeEscapes
          (b.withHeader (applyChanges b source (changesIn b (.script mergeLocale) tree))) ∧
        r.found = (changesIn b (.script mergeLocale) tree).filterMap Change.text? := by
  unfold localizeScript
  cases hp : parse source with
  | error e => simp
  | ok tree =>
    simp only [Except.ok.injEq, exists_eq_left']
    constructor
    · rintro rfl
      exact ⟨rfl, rfl⟩
    · rintro ⟨ho, hf⟩
      rw [← ho, ← hf]

end Phrasebook.Script
