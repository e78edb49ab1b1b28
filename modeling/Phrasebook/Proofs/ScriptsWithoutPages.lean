import Phrasebook.Dictionary.Basic
import Phrasebook.Proofs.Frames
import Phrasebook.Proofs.Respelling

/-!
Scripts that register no page. Only calls that register a page are treated in another way in scripts
than in the expressions of templates (`changes_script_eq_expression`), no look-up makes the line that
marks a header, and the escapes of a header and of the code behind it are restored one by one
(`normalizeEscapes_header_append`). So a script without such calls becomes its header and what it would
become as an expression.

Main statement: `localizeScript_eq_header_append`.
-/

namespace Phrasebook

namespace Script

/-- Whether a call registers a page, localized or not, by the name of a function. -/
def registersPage (b : Bindings) (t : Tree) : Bool :=
  t.kind == .call && (t.child? .callee).any fun callee =>
    callee.kind == .identifier && (callee.text == b.page || callee.text == b.localizedPage)

/-- A tree with no call in it that registers a page. -/
def Tree.NoPages (b : Bindings) (t : Tree) : Prop := t.All fun s => registersPage b s = false

namespace Tree

mutual

/-- Whether all of a tree satisfies `P` can be decided part by part. -/
def decidableAll (P : Tree → Prop) [DecidablePred P] : ∀ t : Tree, Decidable (t.All P)
  | .leaf role kind gap text =>
    decidable_of_iff (P (.leaf role kind gap text)) (by rw [All])
  | .node role kind children =>
    have := decidableAllIn P children
    decidable_of_iff (P (.node role kind children) ∧ AllIn P children) (by rw [All])

def decidableAllIn (P : Tree → Prop) [DecidablePred P] : ∀ ts : List Tree, Decidable (AllIn P ts)
  | [] => isTrue trivial
  | t :: ts =>
    have := decidableAll P t
    have := decidableAllIn P ts
    decidable_of_iff (All P t ∧ AllIn P ts) (by rw [AllIn])

end

instance (b : Bindings) (t : Tree) : Decidable (t.NoPages b) := decidableAll _ t

end Tree

/-! ## The walk -/

/-- A node that registers no page asks for no change by itself. -/
theorem nodeChanges_eq_nil {b : Bindings} {t : Tree} (h : registersPage b t = false) (scope : Scope)
    (offset : Nat) : nodeChanges b scope offset t = [] := by
  rw [nodeChanges_eq_nil_iff]
  intro mergeLocale _ hcall callee hcallee hidentifier
  have hnames : callee.text ≠ b.page ∧ callee.text ≠ b.localizedPage := by
    rw [registersPage, hcall, Option.mem_def.1 hcallee] at h
    simpa [hidentifier] using h
  exact ⟨hnames.1, fun _ hlocalized => absurd hlocalized hnames.2⟩

mutual

/-- Where no page is registered, a walk over a script finds what a walk over an expression finds. -/
theorem changes_script_eq_expression {b : Bindings} (mergeLocale : Bool) :
    ∀ (t : Tree) (place : Place) (offset : Nat), t.NoPages b →
      changes b (.script mergeLocale) place offset t = changes b .expression place offset t
  | .leaf .., place, offset, _ => by rw [changes, changes]
  | .node role kind children, place, offset, h => by
    rw [Tree.NoPages, Tree.All] at h
    rw [changes, changes, nodeChanges_eq_nil h.1, nodeChanges_eq_nil h.1,
      changesAll_script_eq_expression mergeLocale children _ offset h.2]

theorem changesAll_script_eq_expression {b : Bindings} (mergeLocale : Bool) :
    ∀ (ts : List Tree) (place : Place) (offset : Nat),
      Tree.AllIn (fun s => registersPage b s = false) ts →
        changesAll b (.script mergeLocale) place offset ts = changesAll b .expression place offset ts
  | [], place, offset, _ => by rw [changesAll, changesAll]
  | t :: ts, place, offset, h => by
    rw [Tree.AllIn] at h
    rw [changesAll, changesAll, changes_script_eq_expression mergeLocale t place offset h.1,
      changesAll_script_eq_expression mergeLocale ts place _ h.2]

end

/-! ## The header -/

/-- There is no backslash in a header, so the code behind it is restored for itself. -/
theorem normalizeEscapes_header_append (code : Text) :
    Text.normalizeEscapes (Bindings.header {} ++ code) =
      Bindings.header {} ++ Text.normalizeEscapes code := by
  have hheader : ∀ c ∈ Bindings.header {}, c ≠ '\\' := by
    have hall : (Bindings.header {}).all (· != '\\') = true := by decide +kernel
    intro c hc
    simpa using List.all_eq_true.1 hall c hc
  exact Escape.normalized_append_of_forall_ne hheader code

/-- The code of an expression has no header unless its source has one. -/
theorem withHeader_expression {source : Text} {tree : Tree} (hp : parse source = .ok tree)
    (hm : Text.contains source Bindings.headerBegin = false) :
    Bindings.withHeader {} (applyChanges {} source (changesIn {} .expression tree)) =
      Bindings.header {} ++ applyChanges {} source (changesIn {} .expression tree) := by
  have hnone : ¬ Bindings.headerBegin <:+: source := by
    rw [← Text.contains_iff, hm]
    exact Bool.false_ne_true
  have hcode := respell_tokenRow_of_stable stable_noHeader hp .expression hnone
  rw [← applyChanges_eq_respell (by decide) (by simp) hp, ← Text.contains_iff] at hcode
  exact if_neg hcode

/-- **Scripts and expressions agree.** A script that has no header and registers no page becomes its header
and what it becomes as an expression, whether or not the locale is to be merged, and the same texts are
recorded. -/
theorem localizeScript_eq_header_append {source : Text} {tree : Tree} (hp : parse source = .ok tree)
    (hm : Text.contains source Bindings.headerBegin = false) (hn : tree.NoPages {})
    (mergeLocale : Bool) :
    ∃ r, localizeScript {} mergeLocale source = .ok r ∧
      r.output = Bindings.header {} ++ (localizeExpression {} source).output ∧
      r.found = (localizeExpression {} source).found ∧
      ∀ d : Dictionary, d.recordAll r.found = d.recordAll (localizeExpression {} source).found := by
  have hchanges : changesIn {} (.script mergeLocale) tree = changesIn {} .expression tree :=
    changes_script_eq_expression mergeLocale tree ⟨.program, none⟩ 0 hn
  have hexpression : localizeExpression {} source =
      ⟨Text.normalizeEscapes (applyChanges {} source (changesIn {} .expression tree)),
        (changesIn {} .expression tree).filterMap Change.text?⟩ := by
    unfold localizeExpression
    rw [hp]
  rw [hexpression]
  refine ⟨⟨_, _⟩, localizeScript_eq_ok_iff.2 ⟨tree, hp, rfl, rfl⟩, ?_, ?_, fun d => ?_⟩
  · show Text.normalizeEscapes (Bindings.withHeader {} _) = _
    rw [hchanges, withHeader_expression hp hm]
    exact normalizeEscapes_header_append _
  · rw [hchanges]
  · rw [hchanges]

/-- A member of `Page` is called here, which registers no page. -/
def memberCall : Text := "Page.on('\\u4F60\\u597D')".toList

theorem localizeScript_eq_header_append_memberCall :
    ∃ r, localizeScript {} true memberCall = .ok r ∧
      r.output = Bindings.header {} ++ "Page.on(i18n.t('你好'))".toList ∧
      r.found = ["你好".toList] := by
  have hpages : ((parse memberCall).map fun tree => decide (tree.NoPages {})).toOption = some true := by
    decide +kernel
  have hexpression : localizeExpression {} memberCall =
      ⟨"Page.on(i18n.t('你好'))".toList, ["你好".toList]⟩ := by
    decide +kernel
  have hm : Text.contains memberCall Bindings.headerBegin = false := by decide +kernel
  cases hp : parse memberCall with
  | error e =>
    rw [hp] at hpages
    cases hpages
  | ok tree =>
    rw [hp] at hpages
    have hn : tree.NoPages {} := of_decide_eq_true (Option.some.inj hpages)
    obtain ⟨r, hr, hout, hfound, -⟩ := localizeScript_eq_header_append hp hm hn true
    rw [hexpression] at hout hfound
    exact ⟨r, hr, hout, hfound⟩

end Script

end Phrasebook
