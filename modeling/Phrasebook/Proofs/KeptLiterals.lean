import Phrasebook.Proofs.AttributeStrings
import Phrasebook.Proofs.Pieces

/-!
Do the literals that a run wraps keep their values?

A run restores the unicode escapes of the whole code that it writes, after the texts have been found.
Quotes separate what stands on their two sides, so every literal is restored for itself
(`normalizeEscapes_quoted`), and a literal of a script still is one literal with the value that was
found (`isLiteral_of_script`).

Attribute strings in markup are another matter. They have no escape sequences, a backslash in them is
a character like any other, and character references are left out of the value. As the argument of a call
such a string is read by the rules for scripts. It keeps its value exactly when it looks the same under
both rules (`literal_kept_iff`).
-/

namespace Phrasebook.Script

open Grammar

/-! ## The text of a quoted node -/

/-- The children of a node in quotes `q`. -/
def quotedRow (q : Char) (gap : Gap) (parts : List Tree) (gap' : Gap) : List Tree :=
  .leaf .part .mark gap [q] :: (parts ++ [.leaf .part .mark gap' [q]])

theorem text_quotedRow (role : Role) (kind : Kind) (q : Char) (gap : Gap) (parts : List Tree)
    (gap' : Gap) :
    (Tree.node role kind (quotedRow q gap parts gap')).text =
      q :: (Tree.sourceAll parts ++ (gapText gap' ++ [q])) := by
  have hgap : (Tree.node role kind (quotedRow q gap parts gap')).leadingGap = gap := by
    simp only [quotedRow, Tree.leadingGap, Tree.leadingGapAll]
  have hsource : (Tree.node role kind (quotedRow q gap parts gap')).source =
      gapText gap ++ q :: (Tree.sourceAll parts ++ (gapText gap' ++ [q])) := by
    simp [quotedRow, Tree.source, Tree.sourceAll, Tree.sourceAll_append]
  rw [Tree.text, hgap, hsource, List.drop_left]

theorem literalValue_quotedRow (role : Role) (kind : Kind) (q : Char) (gap : Gap)
    (parts : List Tree) (gap' : Gap) :
    literalValue (.node role kind (quotedRow q gap parts gap')) =
      Units.decodeLossy (parts.flatMap partUnits) :=
  literalValue_of_parts parts

/-- A text between two quotes is restored for itself. -/
theorem normalizeEscapes_quoted {q : Char} (hq : IsQuote q) (x before after : Text) :
    Text.normalizeEscapes (before ++ (q :: (x ++ [q])) ++ after) =
      Text.normalizeEscapes before ++ Text.normalizeEscapes (q :: (x ++ [q])) ++
        Text.normalizeEscapes after := by
  have hbarrier : ∀ s t, Text.normalizeEscapes (s ++ q :: t) =
      Text.normalizeEscapes s ++ q :: Text.normalizeEscapes t :=
    fun s t => Escape.normalized_barrier hq.ne_backslash hq.not_isInner false s t
  have htext : before ++ (q :: (x ++ [q])) ++ after = before ++ q :: (x ++ q :: after) := by simp
  rw [htext, hbarrier, hbarrier, normalizeEscapes_quotes hq]
  simp

/-! ## Literals of scripts -/

/-- The parts of a literal in quotes `q` are those of a literal in a script: fragments that hold no
quote, backslash or line break, and escape sequences. -/
def HasScriptParts (t : Tree) : Prop :=
  ∃ q ∈ t.text.head?, ∀ c ∈ t.children, c.kind ≠ .reference ∧
    (c.kind = .fragment → ∀ d ∈ c.text, isFragmentChar q d = true)

instance (t : Tree) : Decidable (HasScriptParts t) :=
  decidable_of_iff (t.text.head?.any fun q => t.children.all fun c =>
      c.kind != .reference && (c.kind != .fragment || c.text.all (isFragmentChar q))) (by
    simp [HasScriptParts, Option.any_eq_true, imp_iff_not_or])

/-- A literal of a script, with its quotes and parts. -/
theorem of_readsRow_quoted {children : List Tree}
    (h : ReadsRow (.either (quoted '"') (quoted '\'')) children) :
    ∃ q gap parts gap' rest, IsQuote q ∧ children = quotedRow q gap parts gap' ∧
      (∀ c ∈ parts, IsPart q c) ∧ Gaps q (gapText gap') ∧
      Body q (Tree.sourceAll parts ++ (gapText gap' ++ q :: rest)) (parts.flatMap partUnits)
        (gapText gap' ++ q :: rest) := by
  obtain ⟨fuel, rest, p, hrun, hrow⟩ := h
  obtain ⟨q, hq, hrun⟩ := of_run_either hrun
  obtain ⟨gap, parts, gap', hdone, -, hparts, hgaps, hbody⟩ := of_run_quoted hq hrun
  refine ⟨q, gap, parts, gap', p.rest, hq, ?_, hparts, hgaps, hbody⟩
  rw [hrow, hdone]
  simp [quotedRow]

theorem of_readsRow_quotedAttribute {children : List Tree}
    (h : ReadsRow (.either (quotedAttribute '"') (quotedAttribute '\'')) children) :
    ∃ q gap parts, IsQuote q ∧ children = quotedRow q gap parts [] ∧ ∀ c ∈ parts, IsAttributePart c := by
  obtain ⟨fuel, rest, p, hrun, hrow⟩ := h
  obtain ⟨q, hq, hrun⟩ := of_run_either hrun
  obtain ⟨gap, parts, hdone, hparts⟩ := of_run_quotedAttribute hq hrun
  refine ⟨q, gap, parts, hq, ?_, hparts⟩
  rw [hrow, hdone]
  simp [quotedRow]

/-- The quotes themselves do not matter here. -/
theorem hasScriptParts_quotedRow_iff {role : Role} {kind : Kind} {q : Char} {gap gap' : Gap}
    {parts : List Tree} :
    HasScriptParts (.node role kind (quotedRow q gap parts gap')) ↔
      ∀ c ∈ parts, c.kind ≠ .reference ∧
        (c.kind = .fragment → ∀ d ∈ c.text, isFragmentChar q d = true) := by
  have hmark : ∀ gap, (Tree.leaf .part .mark gap [q]).kind ≠ .reference ∧
      ((Tree.leaf .part .mark gap [q]).kind = .fragment →
        ∀ d ∈ (Tree.leaf .part .mark gap [q]).text, isFragmentChar q d = true) :=
    fun gap => ⟨fun h => (by cases h), fun h => (by cases h)⟩
  have hhead : (Tree.node role kind (quotedRow q gap parts gap')).text.head? = some q := by
    rw [text_quotedRow]
    rfl
  constructor
  · rintro ⟨q', hq', h⟩ c hc
    obtain rfl : q = q' := Option.some.inj (hhead.symm.trans hq')
    exact h c (by simp [Tree.children, quotedRow, hc])
  · intro h
    refine ⟨q, hhead, fun c hc => ?_⟩
    simp only [Tree.children, quotedRow, List.mem_cons, List.mem_append, List.not_mem_nil,
      or_false] at hc
    rcases hc with rfl | hc | rfl
    · exact hmark gap
    · exact h c hc
    · exact hmark gap'

theorem hasScriptParts_of_readsRow {role : Role} {kind : Kind} {children : List Tree}
    (h : ReadsRow (.either (quoted '"') (quoted '\'')) children) :
    HasScriptParts (.node role kind children) := by
  obtain ⟨q, gap, parts, gap', rest, -, rfl, hparts, -, -⟩ := of_readsRow_quoted h
  rw [hasScriptParts_quotedRow_iff]
  intro c hc
  rcases hparts c hc with ⟨text, rfl, htext⟩ | ⟨text, rfl⟩
  · refine ⟨fun h => (by cases h), fun _ => ?_⟩
    rw [text_leaf]
    exact htext
  · exact ⟨fun h => (by cases h), fun h => (by cases h)⟩

/-- A literal of a script still is one literal with the same value when its escapes are restored. -/
theorem isLiteral_of_script {q : Char} (hq : IsQuote q) {gap gap' : Gap} {parts : List Tree}
    {rest : Text} (hgaps : Gaps q (gapText gap'))
    (hbody : Body q (Tree.sourceAll parts ++ (gapText gap' ++ q :: rest)) (parts.flatMap partUnits)
      (gapText gap' ++ q :: rest)) (role : Role) (kind : Kind) :
    IsLiteral (Text.normalizeEscapes (Tree.node role kind (quotedRow q gap parts gap')).text)
      (literalValue (.node role kind (quotedRow q gap parts gap'))) := by
  have hhead : (gapText gap' ++ [q]).head? = (gapText gap' ++ q :: rest).head? := by
    cases gapText gap' <;> rfl
  obtain ⟨x, hx, hbody'⟩ := hbody.replace_rest (by
    rw [← hhead]
    intro h
    exact (hgaps.head hq h).1 rfl) hhead
  obtain rfl := List.append_cancel_right hx
  rw [text_quotedRow, literalValue_quotedRow]
  exact isLiteral_normalized hq hbody' hgaps

theorem mem_sourceAll_iff {ts : List Tree} {d : Char} :
    d ∈ Tree.sourceAll ts ↔ ∃ c ∈ ts, d ∈ c.source := by
  induction ts with
  | nil => simp [Tree.sourceAll]
  | cons t ts ih => simp [Tree.sourceAll, ih]

theorem isLiteral_of_attribute_iff {q : Char} (hq : IsQuote q) {gap : Gap} {parts : List Tree}
    (h : ∀ c ∈ parts, IsAttributePart c) (role : Role) (kind : Kind) :
    IsLiteral (Text.normalizeEscapes (Tree.node role kind (quotedRow q gap parts [])).text)
        (literalValue (.node role kind (quotedRow q gap parts []))) ↔
      HasScriptParts (.node role kind (quotedRow q gap parts [])) := by
  rw [text_quotedRow, literalValue_quotedRow, hasScriptParts_quotedRow_iff]
  refine (isLiteral_attribute_iff hq h).trans ?_
  have hsource : ∀ c ∈ parts, c.source = c.text := by
    intro c hc
    rcases h c hc with ⟨text, rfl⟩ | ⟨name, rfl, -⟩ <;> rfl
  have hkind : ∀ c ∈ parts, c.kind ≠ .reference → c.kind = .fragment := by
    intro c hc hne
    rcases h c hc with ⟨text, rfl⟩ | ⟨name, rfl, -⟩
    · rfl
    · exact absurd rfl hne
  constructor
  · rintro ⟨hnone, hall⟩ c hc
    refine ⟨hnone c hc, fun _ d hd => hall d (mem_sourceAll_iff.2 ⟨c, hc, ?_⟩)⟩
    rwa [hsource c hc]
  · intro hall
    refine ⟨fun c hc => (hall c hc).1, fun d hd => ?_⟩
    obtain ⟨c, hc, hd⟩ := mem_sourceAll_iff.1 hd
    rw [hsource c hc] at hd
    exact (hall c hc).2 (hkind c hc (hall c hc).1) d hd

/-- A string of a parsed script stands in quotes, and restoring its escapes keeps its value exactly when
its parts are those of a literal in a script. -/
theorem kept_iff_of_sound {role : Role} {children : List Tree}
    (h : (Tree.node role .string children).Sound) :
    (∃ q x, IsQuote q ∧ (Tree.node role .string children).text = q :: (x ++ [q])) ∧
      (IsLiteral (Text.normalizeEscapes (Tree.node role .string children).text)
          (literalValue (.node role .string children)) ↔
        HasScriptParts (.node role .string children)) := by
  rcases h.quoted rfl with hscript | hattribute
  · have hparts : HasScriptParts (.node role .string children) := hasScriptParts_of_readsRow hscript
    obtain ⟨q, gap, parts, gap', rest, hq, rfl, -, hgaps, hbody⟩ := of_readsRow_quoted hscript
    refine ⟨⟨q, Tree.sourceAll parts ++ gapText gap', hq, by simp [text_quotedRow]⟩, ?_⟩
    exact iff_of_true (isLiteral_of_script hq hgaps hbody role .string) hparts
  · obtain ⟨q, gap, parts, hq, rfl, hparts⟩ := of_readsRow_quotedAttribute hattribute
    refine ⟨⟨q, Tree.sourceAll parts, hq, by rw [text_quotedRow]; rfl⟩, ?_⟩
    exact isLiteral_of_attribute_iff hq hparts role .string

mutual

/-- The literals of a tree are strings, and as sound as the tree. -/
theorem sound_of_mem_literals {l : Place × Tree} :
    ∀ (t : Tree) (place : Place), t.All Tree.Sound → l ∈ t.literals place →
      ∃ role children, l.2 = .node role .string children ∧ l.2.Sound
  | .leaf .., place, _, hl => by
    rw [Tree.literals] at hl
    cases hl
  | .node role kind children, place, hs, hl => by
    rw [Tree.literals] at hl
    split at hl
    · next hk =>
      obtain rfl := List.mem_singleton.1 hl
      exact ⟨role, children, by rw [hk], hs.self⟩
    · rw [Tree.All] at hs
      exact sound_of_mem_literalsIn children _ hs.2 hl

theorem sound_of_mem_literalsIn {l : Place × Tree} :
    ∀ (ts : List Tree) (place : Place), Tree.AllIn Tree.Sound ts → l ∈ Tree.literalsIn place ts →
      ∃ role children, l.2 = .node role .string children ∧ l.2.Sound
  | [], place, _, hl => by
    rw [Tree.literalsIn] at hl
    cases hl
  | t :: ts, place, hs, hl => by
    rw [Tree.AllIn] at hs
    rw [Tree.literalsIn] at hl
    rcases List.mem_append.1 hl with hl | hl
    · exact sound_of_mem_literals t place hs.1 hl
    · exact sound_of_mem_literalsIn ts place hs.2 hl

end

theorem sound_of_mem_soughtLiterals {source : Text} {tree t : Tree} {b : Bindings}
    (hp : parse source = .ok tree) (ht : t ∈ soughtLiterals b tree) :
    ∃ role children, t = .node role .string children ∧ t.Sound := by
  obtain ⟨l, hl, rfl⟩ := List.mem_map.1 ht
  exact sound_of_mem_literals tree _ (sound_of_parse hp) (List.mem_filter.1 hl).1

/-! ## Literals in the code of a run -/

/-- Code in which literals stand as the arguments of look-ups, with what stands before each look-up and
behind the last one. -/
def withLookups (b : Bindings) (chunks literals : List Text) (last : Text) : Text :=
  (List.zipWith (fun chunk literal => chunk ++ b.call literal) chunks literals).flatten ++ last

/-- The code that a row of pieces writes, cut at its literals. -/
theorem exists_chunks (b : Bindings) (row : List Piece) (lead : Text) :
    ∃ chunks last, chunks.length = (row.filterMap Piece.literal?).length ∧
      lead ++ row.flatMap (Piece.after b) =
        withLookups b chunks (row.filterMap Piece.literal?) last := by
  induction row generalizing lead with
  | nil => exact ⟨[], lead, rfl, by simp [withLookups]⟩
  | cons piece row ih =>
    cases hl : piece.literal? with
    | none =>
      obtain ⟨chunks, last, hlength, hcode⟩ := ih (lead ++ piece.after b)
      refine ⟨chunks, last, ?_, ?_⟩
      · rw [List.filterMap_cons_none hl, hlength]
      · rw [List.filterMap_cons_none hl, ← hcode, List.flatMap_cons, List.append_assoc]
    | some literal =>
      obtain ⟨chunks, last, hlength, hcode⟩ := ih []
      have hafter : piece.after b = b.call literal := by
        cases piece with
        | wrapped l =>
          cases hl
          rfl
        | kept | renamed | opened | closed => cases hl
      refine ⟨lead :: chunks, last, ?_, ?_⟩
      · rw [List.filterMap_cons_some hl, List.length_cons, List.length_cons, hlength]
      · rw [List.filterMap_cons_some hl, List.flatMap_cons, hafter]
        rw [List.nil_append] at hcode
        simp [withLookups, hcode]

/-- The name of the look-up function, up to the parenthesis of a call. -/
def lookupName (b : Bindings) : Text := b.receiver ++ '.' :: b.translate

/-- Code with its escapes restored: the literals are restored one by one, and stand where they stood. -/
def withRestoredLookups (b : Bindings) (chunks literals : List Text) (last : Text) : Text :=
  (List.zipWith (fun chunk literal => Text.normalizeEscapes (chunk ++ lookupName b) ++
    '(' :: (Text.normalizeEscapes literal ++ [')'])) chunks literals).flatten ++
    Text.normalizeEscapes last

theorem normalizeEscapes_withLookups (b : Bindings) {chunks literals : List Text} (last : Text) :
    Text.normalizeEscapes (withLookups b chunks literals last) =
      withRestoredLookups b chunks literals last := by
  have hopen : ∀ s t, Text.normalizeEscapes (s ++ '(' :: t) =
      Text.normalizeEscapes s ++ '(' :: Text.normalizeEscapes t :=
    fun s t => Escape.normalized_barrier (by decide) (by decide) false s t
  have hclose : ∀ s t, Text.normalizeEscapes (s ++ ')' :: t) =
      Text.normalizeEscapes s ++ ')' :: Text.normalizeEscapes t :=
    fun s t => Escape.normalized_barrier (by decide) (by decide) false s t
  induction chunks generalizing literals with
  | nil => rfl
  | cons chunk chunks ih =>
    cases literals with
    | nil => rfl
    | cons literal literals =>
      have hcode : withLookups b (chunk :: chunks) (literal :: literals) last =
          (chunk ++ lookupName b) ++ '(' :: (literal ++ ')' :: withLookups b chunks literals last) := by
        simp [withLookups, Bindings.call, lookupName]
      rw [hcode, hopen, hclose, ih]
      simp [withRestoredLookups]

/-- A run that finds the values of literals and writes each of them, with its escapes restored, as the
argument of a look-up. -/
def WritesLiterals (b : Bindings) (literals : List Tree) (r : Localized) : Prop :=
  r.found = literals.map literalValue ∧
    ∃ chunks last, chunks.length = literals.length ∧
      r.output = withRestoredLookups b chunks (literals.map Tree.text) last

section Run

variable {source : Text} {tree : Tree}

theorem writesLiterals_of_parse (hp : parse source = .ok tree) (b : Bindings) (scope : Scope)
    (lead : Text) :
    WritesLiterals b (soughtLiterals b tree)
      ⟨Text.normalizeEscapes (lead ++ applyChanges b source (changesIn b scope tree)),
        (changesIn b scope tree).filterMap Change.text?⟩ := by
  refine ⟨filterMap_text?_changesIn b scope tree, ?_⟩
  obtain ⟨row, -, hcode, -, hliterals⟩ := exists_row hp b scope
  obtain ⟨chunks, last, hlength, hchunks⟩ := exists_chunks b row lead
  rw [hliterals, List.length_map] at hlength
  refine ⟨chunks, last, hlength, ?_⟩
  rw [← hcode, hchunks, hliterals]
  exact normalizeEscapes_withLookups b last

/-- Which literals keep their values. A run of a script or an expression finds the values of the
literals that ask for a look-up and writes each literal as the argument of a call. Its escapes are
restored as if it stood alone, and it is one literal of the value that was found exactly when its parts
are those of a literal in a script, as is the case for every literal that is not an attribute in
markup. -/
theorem literal_kept_iff (hp : parse source = .ok tree) (b : Bindings) :
    (∀ mergeLocale, ∃ r, localizeScript b mergeLocale source = .ok r ∧
        WritesLiterals b (soughtLiterals b tree) r) ∧
      WritesLiterals b (soughtLiterals b tree) (localizeExpression b source) ∧
      ∀ t ∈ soughtLiterals b tree,
        (∀ before after, Text.normalizeEscapes (before ++ t.text ++ after) =
          Text.normalizeEscapes before ++ Text.normalizeEscapes t.text ++
            Text.normalizeEscapes after) ∧
        (IsLiteral (Text.normalizeEscapes t.text) (literalValue t) ↔ HasScriptParts t) ∧
        (ReadsRow (.either (quoted '"') (quoted '\'')) t.children → HasScriptParts t) := by
  refine ⟨?_, ?_, ?_⟩
  · intro mergeLocale
    refine ⟨⟨_, _⟩, localizeScript_eq_ok_iff.2 ⟨tree, hp, rfl, rfl⟩, ?_⟩
    unfold Bindings.withHeader
    split
    · exact writesLiterals_of_parse hp b (.script mergeLocale) []
    · exact writesLiterals_of_parse hp b (.script mergeLocale) b.header
  · simp only [localizeExpression, hp]
    exact writesLiterals_of_parse hp b .expression []
  · intro t ht
    obtain ⟨role, children, rfl, hs⟩ := sound_of_mem_soughtLiterals hp ht
    obtain ⟨⟨q, x, hq, htext⟩, hkept⟩ := kept_iff_of_sound hs
    refine ⟨?_, hkept, hasScriptParts_of_readsRow⟩
    intro before after
    rw [htext]
    exact normalizeEscapes_quoted hq x before after

end Run

/-- An escape that is restored, and a backslash that hides one. -/
theorem literal_kept_in_script :
    ∃ tree t r, parse "f('\\u4f60好\\\\u597d')".toList = .ok tree ∧ soughtLiterals {} tree = [t] ∧
      localizeScript {} false "f('\\u4f60好\\\\u597d')".toList = .ok r ∧
      r.found = ["你好\\u597d".toList] ∧
      Text.normalizeEscapes t.text = "'你好\\\\u597d'".toList ∧
      IsLiteral (Text.normalizeEscapes t.text) "你好\\u597d".toList := by
  have hrun : ((parse "f('\\u4f60好\\\\u597d')".toList).map fun tree =>
      (soughtLiterals {} tree).map fun t => (Text.normalizeEscapes t.text, literalValue t,
        decide (HasScriptParts t))).toOption =
      some [("'你好\\\\u597d'".toList, "你好\\u597d".toList, true)] := by
    decide +kernel
  cases hp : parse "f('\\u4f60好\\\\u597d')".toList with
  | error e =>
    rw [hp] at hrun
    cases hrun
  | ok tree =>
    rw [hp] at hrun
    obtain ⟨t, hsought, ht⟩ := List.map_eq_singleton_iff.1 (Option.some.inj hrun)
    obtain ⟨htext, hvalue, hparts⟩ : Text.normalizeEscapes t.text = "'你好\\\\u597d'".toList ∧
        literalValue t = "你好\\u597d".toList ∧ decide (HasScriptParts t) = true := by
      simpa only [Prod.mk.injEq] using ht
    obtain ⟨hscript, -, hkept⟩ := literal_kept_iff hp {}
    obtain ⟨r, hr, hfound, -⟩ := hscript false
    obtain ⟨-, hiff, -⟩ := hkept t (by rw [hsought]; exact List.mem_singleton_self t)
    refine ⟨tree, t, r, rfl, hsought, hr, ?_, htext, ?_⟩
    · rw [hfound, hsought, List.map_singleton, hvalue]
    · rw [← hvalue]
      exact hiff.2 (of_decide_eq_true hparts)

/-- In an attribute the escape is part of the value, and the literal that is written has another one. -/
theorem attribute_escape_changes_value :
    ∃ tree t r, parse "<a b=\"你\\u597d\"/>".toList = .ok tree ∧ soughtLiterals {} tree = [t] ∧
      localizeScript {} false "<a b=\"你\\u597d\"/>".toList = .ok r ∧
      r.found = ["你\\u597d".toList] ∧
      Text.normalizeEscapes t.text = "\"你好\"".toList ∧
      ¬ IsLiteral (Text.normalizeEscapes t.text) "你\\u597d".toList := by
  have hrun : ((parse "<a b=\"你\\u597d\"/>".toList).map fun tree =>
      (soughtLiterals {} tree).map fun t => (Text.normalizeEscapes t.text, literalValue t)).toOption =
      some [("\"你好\"".toList, "你\\u597d".toList)] := by
    decide +kernel
  -- the text that is written is a literal of two characters
  have hread : (stringLiteral.run (fun _ _ => none) ⟨[], "\"你好\"".toList ++ []⟩).map
      (fun p => p.done.map literalValue) = some ["你好".toList] := by
    decide +kernel
  cases hp : parse "<a b=\"你\\u597d\"/>".toList with
  | error e =>
    rw [hp] at hrun
    cases hrun
  | ok tree =>
    rw [hp] at hrun
    obtain ⟨t, hsought, ht⟩ := List.map_eq_singleton_iff.1 (Option.some.inj hrun)
    obtain ⟨htext, hvalue⟩ := Prod.mk.inj ht
    refine ⟨tree, t, ⟨_, _⟩, rfl, hsought, localizeScript_eq_ok_iff.2 ⟨tree, hp, rfl, rfl⟩, ?_, htext,
      ?_⟩
    · rw [(writesLiterals_of_parse hp {} (.script false) []).1, hsought, List.map_singleton, hvalue]
    · intro hliteral
      rw [htext] at hliteral
      obtain ⟨literal, hone, hother⟩ := hliteral (fun _ _ => none) [] []
      rw [hone, Option.map_some, List.map_singleton, hother] at hread
      exact absurd hread (by decide)

end Phrasebook.Script
