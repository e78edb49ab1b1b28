import Phrasebook.Proofs.Conservation
import Mathlib.Data.List.Perm.Basic

/-!
Values that were obtained, and whether they stay.

A text that is recorded several times is requested several times. The requests are tried on their own,
so one of them can get a value and another one give up with the empty text. What a finish leaves is the
value of the request that is joined last:

    you ↦ Hi, you ↦ (given up)     joined in this order:  (d.enterAll es).get? en you = some []

The requests of a finish and their results can be told apart from the order in which they are joined
(`joins_iff`). A value that was obtained stays in every order exactly when no other request for the same
text and locale gave up (`kept_in_every_order_iff`), and it always stays when the text was recorded once
(`Accounted.countP_results_le`).
-/

namespace Phrasebook

/-! ## Results and their order -/

/-- An entry that a request may end with. -/
def Client.ResolvesTo (c : Client) (p : Pending) (e : Entry) : Prop :=
  c.Resolves p e.value ∧ e = p.entry e.value

/-- Joining is resolving the requests in some order. -/
theorem joins_iff_exists_order {c : Client} {ps : List Pending} {es : List Entry} :
    Joins c ps es ↔ ∃ qs, ps.Perm qs ∧ List.Forall₂ c.ResolvesTo qs es := by
  constructor
  · intro h
    induction h with
    | done => exact ⟨[], .refl _, .nil⟩
    | @next before after p value es hr _ ih =>
      obtain ⟨qs, hperm, hqs⟩ := ih
      exact ⟨p :: qs, List.perm_middle.trans (hperm.cons p), .cons ⟨hr, rfl⟩ hqs⟩
  · rintro ⟨qs, hperm, hqs⟩
    induction hqs generalizing ps with
    | nil =>
      rw [hperm.eq_nil]
      exact .done
    | @cons p e qs es hpe _ ih =>
      have hmem : p ∈ ps := hperm.mem_iff.2 (List.mem_cons_self ..)
      obtain ⟨before, after, rfl⟩ := List.append_of_mem hmem
      have hrest := ih (List.perm_middle.symm.trans hperm).cons_inv
      rw [hpe.2]
      exact .next hpe.1 hrest

/-- The requests that are joined have their results, and every order of these may come about. -/
theorem joins_iff {c : Client} {ps : List Pending} {es : List Entry} :
    Joins c ps es ↔ ∃ results, List.Forall₂ c.ResolvesTo ps results ∧ results.Perm es := by
  have hcomm : Relation.Comp (List.Forall₂ c.ResolvesTo) List.Perm ps es ↔
      Relation.Comp List.Perm (List.Forall₂ c.ResolvesTo) ps es := by
    rw [List.forall₂_comp_perm_eq_perm_comp_forall₂]
  rw [joins_iff_exists_order]
  exact hcomm.symm

/-! ## Values that stay -/

/-- A text has a value in a locale, and not the empty one. -/
def Dictionary.HasValue (d : Dictionary) (locale text : Text) : Prop :=
  ∃ value, d.get? locale text = some value ∧ value ≠ []

/-- A value was obtained for a text in a locale. -/
def Obtained (results : List Entry) (locale text : Text) : Prop :=
  ∃ e ∈ results, e.isFor locale text = true ∧ e.value ≠ []

/-- A request for a text in a locale gave up. -/
def GaveUp (results : List Entry) (locale text : Text) : Prop :=
  ∃ e ∈ results, e.isFor locale text = true ∧ e.value = []

theorem lastValue_concat {e : Entry} {locale text : Text} (h : e.isFor locale text = true)
    (es : List Entry) : lastValue (es ++ [e]) locale text = some e.value := by
  have hfor : e.locale = locale ∧ e.text = text := by simpa [Entry.isFor] using h
  rw [lastValue_append, lastValue_singleton, if_pos hfor, Option.some_or]

theorem Dictionary.hasValue_enterAll {d : Dictionary} {es : List Entry} {locale text : Text}
    (hsome : Obtained es locale text) (hnone : ¬ GaveUp es locale text) :
    (d.enterAll es).HasValue locale text := by
  obtain ⟨e, he, hfor, -⟩ := hsome
  have hlast : (lastValue es locale text).isSome :=
    isSome_lastValue_iff.2 (List.countP_pos_iff.2 ⟨e, he, hfor⟩)
  obtain ⟨value, hvalue⟩ := Option.isSome_iff_exists.1 hlast
  refine ⟨value, by rw [d.get?_enterAll, hvalue, Option.some_or], ?_⟩
  rintro rfl
  obtain ⟨f, hf, hlocale, htext, hempty⟩ := exists_of_lastValue hvalue
  exact hnone ⟨f, hf, by simp [Entry.isFor, hlocale, htext], hempty⟩

/-- Some order loses the value when a request gave up: the one in which this request comes last. -/
theorem Dictionary.exists_order_without_value (d : Dictionary) {results : List Entry}
    {locale text : Text} (h : GaveUp results locale text) :
    ∃ es, results.Perm es ∧ ¬ (d.enterAll es).HasValue locale text := by
  obtain ⟨e, he, hfor, hempty⟩ := h
  refine ⟨results.erase e ++ [e], ?_, ?_⟩
  · exact (List.perm_cons_erase he).trans (List.perm_append_singleton e _).symm
  · rintro ⟨value, hvalue, hne⟩
    rw [d.get?_enterAll, lastValue_concat hfor, Option.some_or, hempty] at hvalue
    exact hne (Option.some.inj hvalue).symm

/-- What was obtained stays in every order exactly when no request for it gave up. -/
theorem Dictionary.kept_in_every_order_iff (d : Dictionary) {results : List Entry}
    {locale text : Text} (h : Obtained results locale text) :
    (∀ es, results.Perm es → (d.enterAll es).HasValue locale text) ↔
      ¬ GaveUp results locale text := by
  constructor
  · intro hall hgave
    obtain ⟨es, hperm, hlost⟩ := d.exists_order_without_value hgave
    exact hlost (hall es hperm)
  · intro hnone es hperm
    -- the order changes neither what was obtained nor what was given up
    refine d.hasValue_enterAll ?_ ?_
    · obtain ⟨e, he, h⟩ := h
      exact ⟨e, hperm.mem_iff.1 he, h⟩
    · rintro ⟨e, he, h⟩
      exact hnone ⟨e, hperm.mem_iff.2 he, h⟩

/-- A value that was obtained by the only request for it is not given up by another one. -/
theorem not_gaveUp_of_countP_le_one {results : List Entry} {locale text : Text}
    (h : Obtained results locale text) (hone : results.countP (Entry.isFor locale text) ≤ 1) :
    ¬ GaveUp results locale text := by
  rintro ⟨f, hf, hforf, hempty⟩
  obtain ⟨e, he, hfore, hne⟩ := h
  have hpos : 0 < results.countP (Entry.isFor locale text) := List.countP_pos_iff.2 ⟨e, he, hfore⟩
  have hlength : (results.filter (Entry.isFor locale text)).length = 1 := by
    rw [← List.countP_eq_length_filter]
    omega
  obtain ⟨d, hd⟩ := List.length_eq_one_iff.1 hlength
  have heq : ∀ g ∈ results, g.isFor locale text = true → g = d := by
    intro g hg hfor
    have hmem : g ∈ results.filter (Entry.isFor locale text) := List.mem_filter.2 ⟨hg, hfor⟩
    rw [hd] at hmem
    exact List.mem_singleton.1 hmem
  rw [heq e he hfore, ← heq f hf hforf] at hne
  exact hne hempty

/-! ## Finishing -/

namespace Session

/-- A finish writes the results of the started requests in one of their orders. -/
theorem exists_step_finish_iff {s : Session} {es : List Entry} :
    (∃ n t, Step s (.finish n es) t) ↔
      ∃ results, List.Forall₂ s.queue.client.ResolvesTo s.queue.started results ∧
        results.Perm es := by
  obtain ⟨q, d⟩ := s
  rw [← joins_iff]
  constructor
  · rintro ⟨n, t, hstep⟩
    cases hstep with
    | finish _ _ calls _ hj => exact hj
  · intro hj
    exact ⟨_, _, .finish q d 0 es hj⟩

theorem Step.finish_dictionary {s t : Session} {n : Nat} {es : List Entry}
    (h : Step s (.finish n es) t) : t.dictionary = s.dictionary.enterAll es := by
  cases h
  rfl

/-- A text has no more results in a locale than it has recordings. -/
theorem Accounted.countP_results_le {base : Text} {targets : List Target}
    (hcodes : DistinctCodes base targets) {history : List Event} {s : Session}
    (ha : Accounted targets history s) {L : Target} (hL : L ∈ targets) {results : List Entry}
    (hresults : List.Forall₂ s.queue.client.ResolvesTo s.queue.started results) (x : Text) :
    results.countP (Entry.isFor L.code x) ≤ history.count (.record x) := by
  have hjoins : Joins s.queue.client s.queue.started results :=
    joins_iff.2 ⟨results, hresults, .refl _⟩
  rw [hcodes.countP_joins hL (fun p hp => (ha.started_mem p hp).1) hjoins, ha.balance x L hL]
  omega

/-- Whether a value that was obtained stays. A finish writes the results of the started requests in any
order. When one of them is a value for a text in a locale, this text has a value there after the finish,
whatever the order, exactly when no other request for the same text and locale gave up. In a session
that has recorded the text once, none did. -/
theorem obtained_value_kept_iff (s : Session) {results : List Entry}
    (hresults : List.Forall₂ s.queue.client.ResolvesTo s.queue.started results) {L : Target} {x : Text}
    (hobtained : Obtained results L.code x) :
    (∀ es, (∃ n t, Step s (.finish n es) t) ↔
      ∃ rs, List.Forall₂ s.queue.client.ResolvesTo s.queue.started rs ∧ rs.Perm es) ∧
    ((∀ n es t, results.Perm es → Step s (.finish n es) t → t.dictionary.HasValue L.code x) ↔
      ¬ GaveUp results L.code x) ∧
    (∀ base targets q history, DistinctCodes base targets → q.started = [] →
      Runs ⟨q, Dictionary.new base targets⟩ history s → L ∈ targets →
      history.count (.record x) = 1 → ¬ GaveUp results L.code x) := by
  refine ⟨fun es => exists_step_finish_iff, ?_, ?_⟩
  · rw [← s.dictionary.kept_in_every_order_iff hobtained]
    constructor
    · intro h es hperm
      obtain ⟨n, t, hstep⟩ := exists_step_finish_iff.2 ⟨results, hresults, hperm⟩
      rw [← hstep.finish_dictionary]
      exact h n es t hperm hstep
    · intro h n es t hperm hstep
      rw [hstep.finish_dictionary]
      exact h es hperm
  · intro base targets q history hcodes hq hrun hL hone
    have hle := (hrun.invariant hcodes hq).1.countP_results_le hcodes hL hresults x
    exact not_gaveUp_of_countP_le_one hobtained (by omega)

/-- A text that was recorded twice, with a provider that has another value for every call. -/
theorem obtained_values_kept_when_none_fails :
    let en : Target := ⟨['e', 'n'], .translated⟩
    let provider : Provider := ⟨[], fun calls _ _ _ => .ok (if calls = 0 then ['h', 'i'] else ['y', 'o'])⟩
    let q : Queue := ⟨{ provider := provider, source := ['z', 'h'] }, none, 1, [], 0⟩
    let d := ((Dictionary.new ['z', 'h'] [en]).record ['你']).record ['你']
    let s : Session := ⟨(q.dispatch d).2.1, (q.dispatch d).2.2⟩
    let results : List Entry := [⟨['你'], ['e', 'n'], ['h', 'i']⟩, ⟨['你'], ['e', 'n'], ['y', 'o']⟩]
    List.Forall₂ s.queue.client.ResolvesTo s.queue.started results ∧
      Obtained results en.code ['你'] ∧
      ∀ n es t, results.Perm es → Step s (.finish n es) t → t.dictionary.HasValue en.code ['你'] := by
  intro en provider q d s results
  have hresults : List.Forall₂ s.queue.client.ResolvesTo s.queue.started results :=
    .cons ⟨⟨id, rfl⟩, rfl⟩ (.cons ⟨⟨Nat.succ, rfl⟩, rfl⟩ .nil)
  have hobtained : Obtained results en.code ['你'] :=
    ⟨_, List.mem_cons_self .., by decide, by decide⟩
  refine ⟨hresults, hobtained, ?_⟩
  refine (obtained_value_kept_iff s hresults hobtained).2.1.2 ?_
  rintro ⟨e, he, -, hempty⟩
  have hvalues : ∀ e ∈ results, e.value ≠ [] := by decide
  exact hvalues e he hempty

/-- A value can be lost: a text is recorded twice, the first request gets a value from a provider that
fails from then on, and the second one is joined behind it. -/
theorem obtained_value_lost :
    ¬ ∀ (base : Text) (targets : List Target) (q : Queue) (history : List Event) (s t : Session)
        (n : Nat) (es : List Entry),
      DistinctCodes base targets → q.started = [] → Runs ⟨q, Dictionary.new base targets⟩ history s →
      (∀ e ∈ history, ∀ m fs, e ≠ .finish m fs) → Step s (.finish n es) t →
      ∀ L ∈ targets, L.kind = .translated → ∀ x, Obtained es L.code x →
        t.dictionary.HasValue L.code x := by
  intro h
  let en : Target := ⟨['e', 'n'], .translated⟩
  let provider : Provider :=
    ⟨[], fun calls _ _ _ => if calls = 0 then .ok ['h', 'i'] else .error .network⟩
  let q : Queue := ⟨{ provider := provider, source := ['z', 'h'] }, none, 1, [], 0⟩
  let d₀ := Dictionary.new ['z', 'h'] [en]
  let d := (d₀.record ['你']).record ['你']
  let you : Pending := { text := ['你'], target := en }
  have hrun : Runs ⟨q, d₀⟩ _ ⟨(q.dispatch d).2.1, (q.dispatch d).2.2⟩ :=
    ((Runs.start.step (.record q d₀ ['你'])).step (.record q _ ['你'])).step (.dispatch q d)
  have hjoins : Joins q.client ([] ++ you :: [you]) [you.entry ['h', 'i'], you.entry []] := by
    refine .next ⟨id, rfl⟩ ?_
    show Joins q.client ([] ++ you :: []) _
    exact .next ⟨Nat.succ, rfl⟩ .done
  have hfinish := Step.finish (q.dispatch d).2.1 (q.dispatch d).2.2 6 _ hjoins
  have hobtained : Obtained [you.entry ['h', 'i'], you.entry []] en.code ['你'] :=
    ⟨_, List.mem_cons_self .., by decide, by decide⟩
  have hnofinish : ∀ e ∈ [] ++ [Event.record ['你']] ++ [.record ['你']] ++
      [.dispatch (q.dispatch d).1 (q.conversions d.pending)], ∀ m fs, e ≠ .finish m fs := by
    rintro e he m fs rfl
    simp at he
  obtain ⟨value, hvalue, hne⟩ := h _ _ q _ _ _ _ _ (by decide) rfl hrun hnofinish hfinish en
    (List.mem_cons_self ..) rfl _ hobtained
  rw [Dictionary.get?_enterAll] at hvalue
  exact hne (Option.some.inj hvalue).symm

end Session

end Phrasebook
