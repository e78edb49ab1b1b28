import Phrasebook.Dictionary.Basic
import Phrasebook.Proofs.Edits
import Phrasebook.Proofs.Escapes
import Phrasebook.Proofs.SettledScripts

/-!
Localizing a script a second time.

The output of a run has its header and its escapes are restored, so a second run can change it only
through the changes that its walk finds. And every change shows: it adds characters that neither the
header check nor the restoring of escapes takes away again (`countP_lt_applyChanges`). So a second run
leaves output and dictionary alone exactly when the output can be parsed and nothing is left to change
in it:

    SecondRunIdle m (d.recordAll r.found) r  ↔  ∃ tree, parse r.output = ok tree ∧ Settled tree

Nothing is left to change in the tree of a localized script (`settled_localizedTree`), so a second run
does so whenever the output is read back as the localized tree of a script, such as the source with its
header. This is not always the case. An attribute string in markup is wrapped like any other literal, but
no call may stand there, and the output cannot be parsed.
-/

namespace Phrasebook

namespace Script

/-! ## Every change shows -/

/-- The characters by which changes are noticed: each change adds an `n` or a closing parenthesis,
and restoring escapes neither adds nor removes any. -/
def isTrace (c : Char) : Bool := c == 'n' || c == ')'

theorem countP_isTrace_normalizeEscapes (t : Text) :
    (Text.normalizeEscapes t).countP isTrace = t.countP isTrace := by
  refine Escape.countP_normalized rfl ?_ ?_ false t
  · intro c hc
    rw [← Bool.not_eq_true]
    intro ht
    simp only [isTrace, Bool.or_eq_true, beq_iff_eq] at ht
    rcases ht with rfl | rfl <;> exact absurd hc (by decide)
  · intro c hc
    have hle := Escape.le_toNat_of_isNaturalChar hc
    rw [← Bool.not_eq_true]
    intro ht
    simp only [isTrace, Bool.or_eq_true, beq_iff_eq] at ht
    rcases ht with rfl | rfl <;> exact absurd hle (by decide)

/-- An edit that replaces a part by something with more traces grows the text. -/
theorem grows_of_standsAt {source part replacement : Text} {start : Nat}
    (h : StandsAt source part start) (hlt : part.countP isTrace < replacement.countP isTrace) :
    Edit.Grows isTrace source ⟨start, start + part.length, replacement⟩ := by
  refine ⟨Nat.le_add_right _ _, ?_⟩
  rw [covered_of_standsAt h]
  exact hlt

theorem grows_insertion {source text : Text} (position : Nat) (h : 0 < text.countP isTrace) :
    Edit.Grows isTrace source (Edit.insertion position text) := by
  refine ⟨Nat.le_refl _, ?_⟩
  have hc : Edit.covered source (Edit.insertion position text) = [] := by
    simp [Edit.covered, Edit.insertion]
  rw [hc]
  exact h

theorem countP_lt_call (literal : Text) :
    literal.countP isTrace < (Bindings.call {} literal).countP isTrace := by
  have h : (Bindings.call {} literal).countP isTrace = literal.countP isTrace + 2 := by
    show ("i18n.t(".toList ++ (literal ++ [')'])).countP isTrace = _
    rw [List.countP_append, List.countP_append]
    have h1 : "i18n.t(".toList.countP isTrace = 1 := by decide
    have h2 : [')'].countP isTrace = 1 := by decide
    omega
  omega

/-- Every edit of a change that stands in the source adds traces. -/
theorem grows_of_located {source : Text} {c : Change} (h : c.Located {} source) :
    ∀ e ∈ c.edits {}, e.Grows isTrace source := by
  intro e he
  cases c with
  | wrap start literal value =>
    rw [Change.edits, List.mem_singleton] at he
    subst he
    exact grows_of_standsAt h (countP_lt_call literal)
  | rename start name =>
    obtain ⟨rfl, hat⟩ := h
    rw [Change.edits, List.mem_singleton] at he
    subst he
    exact grows_of_standsAt hat (by decide)
  | merge start stop =>
    simp only [Change.edits, List.mem_cons, List.not_mem_nil, or_false] at he
    rcases he with rfl | rfl
    · exact grows_insertion start (by decide)
    · exact grows_insertion stop (by decide)

theorem edits_ne_nil (b : Bindings) (c : Change) : c.edits b ≠ [] := by
  cases c <;> simp [Change.edits]

/-- Changes in a script leave traces. -/
theorem countP_lt_applyChanges {scope : Scope} {tree : Tree} (hne : changesIn {} scope tree ≠ []) :
    tree.source.countP isTrace <
      (applyChanges {} tree.source (changesIn {} scope tree)).countP isTrace := by
  refine Edit.countP_lt_apply ?_ ?_
  · obtain ⟨c, cs, hc⟩ := List.exists_cons_of_ne_nil hne
    rw [hc, List.flatMap_cons]
    intro hnil
    exact edits_ne_nil {} c (List.append_eq_nil_iff.1 hnil).1
  · intro e he
    obtain ⟨c, hc, hec⟩ := List.mem_flatMap.1 he
    exact grows_of_located (located_of_mem_changesIn hc) e hec

/-! ## The output of a run -/

/-- A script with its header holds the line that marks it. -/
theorem headerBegin_isInfix_withHeader (b : Bindings) (source : Text) :
    Bindings.headerBegin <:+: b.withHeader source := by
  unfold Bindings.withHeader
  split
  · next h => exact Text.contains_iff.1 h
  · simp only [Bindings.header, List.append_assoc]
    exact ((List.prefix_append _ _).isInfix.trans (List.suffix_append _ _).isInfix).trans
      (List.suffix_append _ _).isInfix

theorem countP_le_withHeader (p : Char → Bool) (b : Bindings) (source : Text) :
    source.countP p ≤ (b.withHeader source).countP p := by
  unfold Bindings.withHeader
  split
  · exact Nat.le_refl _
  · rw [List.countP_append]
    omega

/-- Restoring escapes keeps the line that marks a header. -/
theorem headerBegin_isInfix_normalizeEscapes {t : Text} (h : Bindings.headerBegin <:+: t) :
    Bindings.headerBegin <:+: Text.normalizeEscapes t := by
  obtain ⟨before, after, rfl⟩ := h
  -- the line starts with a slash, which no escape holds, and has no backslash
  obtain ⟨rest, hrest⟩ : ∃ rest, Bindings.headerBegin = '/' :: rest := ⟨_, rfl⟩
  have hplain : ∀ c ∈ rest, c ≠ '\\' := by
    have hall : Bindings.headerBegin.all (· != '\\') = true := rfl
    intro c hc
    rw [hrest, List.all_eq_true] at hall
    exact bne_iff_ne.1 (hall c (List.mem_cons_of_mem _ hc))
  refine ⟨Escape.normalized false before, Escape.normalized false after, ?_⟩
  show _ = Escape.normalized false _
  rw [hrest]
  simp only [List.append_assoc, List.cons_append]
  rw [Escape.normalized_barrier (by decide) (by decide),
    Escape.normalized_append_of_forall_ne hplain]

/-- The output of a run has its header and no escape to restore. -/
theorem output_isFixed {b : Bindings} {mergeLocale : Bool} {source : Text} {r : Localized}
    (h : localizeScript b mergeLocale source = .ok r) :
    b.withHeader r.output = r.output ∧ Text.normalizeEscapes r.output = r.output := by
  obtain ⟨tree, -, ho, -⟩ := localizeScript_eq_ok_iff.1 h
  constructor
  · have hm := headerBegin_isInfix_normalizeEscapes
      (headerBegin_isInfix_withHeader b
        (applyChanges b source (changesIn b (.script mergeLocale) tree)))
    rw [← ho] at hm
    rw [Bindings.withHeader, if_pos (Text.contains_iff.2 hm)]
  · rw [ho, Text.normalizeEscapes_normalizeEscapes]

theorem applyChanges_nil (b : Bindings) (source : Text) : applyChanges b source [] = source := rfl

/-! ## The second run -/

/-- A second run on the output of a run succeeds, returns the same output, and leaves the tables and
the waiting requests of the dictionary `d` as they are. -/
def SecondRunIdle (mergeLocale : Bool) (d : Dictionary) (r : Localized) : Prop :=
  ∃ again, localizeScript {} mergeLocale r.output = .ok again ∧ again.output = r.output ∧
    (d.recordAll again.found).tables = d.tables ∧ (d.recordAll again.found).pending = d.pending

/-- When nothing is left to change, a second run returns the output and finds no text. -/
theorem localizeScript_of_settled {b : Bindings} {mergeLocale : Bool} {source : Text} {r : Localized}
    (h : localizeScript b mergeLocale source = .ok r) {tree : Tree} (hp : parse r.output = .ok tree)
    (hs : Settled b (.script mergeLocale) tree) :
    localizeScript b mergeLocale r.output = .ok ⟨r.output, []⟩ := by
  obtain ⟨hheader, hescapes⟩ := output_isFixed h
  have hnil := changesIn_eq_nil_iff.2 hs
  rw [localizeScript_eq_ok_iff]
  refine ⟨tree, hp, ?_, ?_⟩
  · rw [hnil, applyChanges_nil, hheader, hescapes]
  · rw [hnil]
    rfl

/-- A second run that returns its input has nothing left to change. -/
theorem settled_of_output_eq {mergeLocale : Bool} {source : Text} {again : Localized}
    (h : localizeScript {} mergeLocale source = .ok again) (he : again.output = source) :
    ∃ tree, parse source = .ok tree ∧ Settled {} (.script mergeLocale) tree := by
  obtain ⟨tree, hp, ho, -⟩ := localizeScript_eq_ok_iff.1 h
  refine ⟨tree, hp, changesIn_eq_nil_iff.1 ?_⟩
  have hsource := source_of_parse hp
  apply Decidable.byContradiction
  intro hne
  -- a change would leave traces in the output that the input does not have
  have hlt := countP_lt_applyChanges hne
  rw [hsource] at hlt
  have hle := countP_le_withHeader isTrace {}
    (applyChanges {} source (changesIn {} (.script mergeLocale) tree))
  have heq : source.countP isTrace = (Bindings.withHeader {}
      (applyChanges {} source (changesIn {} (.script mergeLocale) tree))).countP isTrace := by
    rw [← countP_isTrace_normalizeEscapes (Bindings.withHeader {} _), ← ho, he]
  omega

theorem secondRunIdle_of_settled {mergeLocale : Bool} {source : Text} {r : Localized}
    (h : localizeScript {} mergeLocale source = .ok r) (d : Dictionary) {tree : Tree}
    (hp : parse r.output = .ok tree) (hs : Settled {} (.script mergeLocale) tree) :
    SecondRunIdle mergeLocale (d.recordAll r.found) r :=
  ⟨_, localizeScript_of_settled h hp hs, rfl, rfl, rfl⟩

/-- A second run leaves the output of a run and the dictionary alone exactly when that output can be
parsed and nothing is left to change in it: every natural literal of the output is an argument of the
look-up function or of `require` or stands in a fixed place, no page is registered under the old name,
and, when the locale is merged, the data of every page merge it. So it does when the output is read back
as the localized tree of a script, whatever literals and pages this script has. -/
theorem second_run_idle_iff {mergeLocale : Bool} {source : Text} {r : Localized}
    (h : localizeScript {} mergeLocale source = .ok r) (d : Dictionary) :
    (SecondRunIdle mergeLocale (d.recordAll r.found) r ↔
      ∃ tree, parse r.output = .ok tree ∧ Settled {} (.script mergeLocale) tree) ∧
    ∀ script tree, parse script = .ok tree →
      parse r.output = .ok (localizedTree {} (.script mergeLocale) tree) →
        SecondRunIdle mergeLocale (d.recordAll r.found) r := by
  refine ⟨⟨?_, ?_⟩, ?_⟩
  · rintro ⟨again, hagain, ho, -, -⟩
    exact settled_of_output_eq hagain ho
  · rintro ⟨tree, hp, hs⟩
    exact secondRunIdle_of_settled h d hp hs
  · intro script tree hscript hp
    exact secondRunIdle_of_settled h d hp (settled_localizedTree hscript (.script mergeLocale))

/-- A script that has its header and registers a page, before and after its localization. -/
def pageScript (localized : Bool) : Text :=
  Bindings.headerBegin ++
    if localized then
      ("\nI18nPage(\x7b data: Object.assign(\x7b $language: i18n.getLocale() \x7d, " ++
        "\x7b a: i18n.t('你好') \x7d) \x7d)").toList
    else "\nPage(\x7b data: \x7b a: '你好' \x7d \x7d)".toList

theorem second_run_idle_on_page :
    localizeScript {} true (pageScript false) = .ok ⟨pageScript true, ["你好".toList]⟩ ∧
      SecondRunIdle true ((Dictionary.new "zh-CN".toList []).recordAll ["你好".toList])
        ⟨pageScript true, ["你好".toList]⟩ := by
  have hfirst : localizeScript {} true (pageScript false) =
      .ok ⟨pageScript true, ["你好".toList]⟩ := by
    decide +kernel
  have hagain : ((parse (pageScript true)).map (changesIn {} (.script true))).toOption = some [] := by
    decide +kernel
  refine ⟨hfirst, (second_run_idle_iff hfirst _).1.2 ?_⟩
  show ∃ tree, parse (pageScript true) = .ok tree ∧ _
  cases hp : parse (pageScript true) with
  | error e =>
    rw [hp] at hagain
    cases hagain
  | ok tree =>
    rw [hp] at hagain
    exact ⟨tree, rfl, changesIn_eq_nil_iff.1 (Option.some.inj hagain)⟩

/-- A second run need not leave the output of a run alone. An attribute string becomes a call, which
cannot stand there, so the second run fails. -/
theorem second_run_fails_on_attribute_string :
    ¬ ∀ (mergeLocale : Bool) (source : Text) (d : Dictionary) (r : Localized),
      localizeScript {} mergeLocale source = .ok r →
        SecondRunIdle mergeLocale (d.recordAll r.found) r := by
  intro h
  have hfirst : localizeScript {} false "<a b=\"你好\"/>".toList =
      .ok ⟨Bindings.header {} ++ "<a b=i18n.t(\"你好\")/>".toList, ["你好".toList]⟩ := by
    decide +kernel
  have hsecond : (localizeScript {} false
      (Bindings.header {} ++ "<a b=i18n.t(\"你好\")/>".toList)).isOk = false := by
    decide +kernel
  obtain ⟨again, hagain, -⟩ := h _ _ (Dictionary.new "zh-CN".toList []) _ hfirst
  rw [hagain] at hsecond
  cases hsecond

end Script

end Phrasebook
