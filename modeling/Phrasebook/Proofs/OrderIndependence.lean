import Phrasebook.Proofs.Conservation

/-!
Order independence: which tables a session ends with depends on the set of recorded texts alone.

With a provider that always gives the same answer to the same question, every value that is ever
written for a text in a locale is the same (`Faithful.step`), so it does not matter which of them
comes last. By conservation each recorded text has such a value once nothing waits and nothing is
under way (`get?_of_completes`), and a table is determined by its look-ups.
-/

namespace Phrasebook

/-- A provider whose answers do not depend on the calls made before. -/
def Provider.Steady (p : Provider) : Prop :=
  ∀ m n text source target, p.answer m text source target = p.answer n text source target

namespace Client

/-- The text that an answer gives; a failure gives the empty one. -/
def answerText : Except Failure Text → Text
  | .ok value => value
  | .error _ => []

/-- The value of a text in another language, from a steady provider. -/
def steadyValue (c : Client) (text target : Text) : Text :=
  answerText (c.provider.answer 0 text c.source target)

/-- When all answers are alike, so is the result of any positive number of attempts. -/
theorem firstSuccess_const (answer : Nat → Except Failure Text) (a : Except Failure Text)
    (h : ∀ n, answer n = a) (budget calls : Nat) (hb : 0 < budget) :
    (firstSuccess answer budget calls).1 = answerText a := by
  induction budget generalizing calls with
  | zero => omega
  | succ budget ih =>
    unfold firstSuccess
    rw [h calls]
    cases a with
    | ok value => rfl
    | error e =>
      rcases Nat.eq_zero_or_pos budget with hz | hz
      · subst hz
        rfl
      · exact ih (calls + 1) hz

theorem Resolves.eq_steadyValue {c : Client} (hc : c.provider.Steady) {p : Pending} {value : Text}
    (ha : p.attempts = 0) (h : c.Resolves p value) : value = c.steadyValue p.text p.target.code := by
  obtain ⟨turn, rfl⟩ := h
  have hb : 0 < c.maxAttempts - p.attempts := by
    have := c.positive
    omega
  exact firstSuccess_const _ _ (fun n => hc (turn n) 0 _ _ _) _ 0 hb

end Client

/-- The value that a text gets in a derived locale. -/
def Queue.valueFor (q : Queue) (L : Target) (text : Text) : Text :=
  match L.kind with
  | .translated => q.client.steadyValue text L.code
  | .scriptVariant => q.convert text

namespace Session

/-- Every value written so far is the one that the locale and the text call for. -/
structure Faithful (q : Queue) (targets : List Target) (history : List Event) (s : Session) :
    Prop where
  client_eq : s.queue.client = q.client
  converter_eq : s.queue.converter = q.converter
  written_value : ∀ e ∈ written history,
    ∃ L ∈ targets, e.locale = L.code ∧ e.value = q.valueFor L e.text

theorem Faithful.append {q : Queue} {targets : List Target} {history : List Event} {s : Session}
    (hw : Faithful q targets history s) {e : Event}
    (he : ∀ v ∈ e.written, ∃ L ∈ targets, v.locale = L.code ∧ v.value = q.valueFor L v.text) :
    ∀ v ∈ written (history ++ [e]),
      ∃ L ∈ targets, v.locale = L.code ∧ v.value = q.valueFor L v.text := by
  intro v hv
  rw [written_append] at hv
  rcases List.mem_append.1 hv with hv | hv
  · exact hw.written_value v hv
  · exact he v hv

theorem Faithful.step {q : Queue} {targets : List Target} (hq : q.client.provider.Steady)
    {history : List Event} {s t : Session} {e : Event} (hw : Faithful q targets history s)
    (ha : Accounted targets history s) (h : Step s e t) : Faithful q targets (history ++ [e]) t := by
  have hclient := hw.client_eq
  have hconverter := hw.converter_eq
  cases h with
  | record r d y =>
    refine ⟨hclient, hconverter, hw.append ?_⟩
    intro v hv
    cases hv
  | dispatch r d =>
    rw [Queue.dispatch_eq]
    refine ⟨hclient, hconverter, hw.append ?_⟩
    intro v hv
    obtain ⟨p, hp, rfl⟩ := List.mem_map.1 hv
    obtain ⟨hp, hk⟩ := List.mem_filter.1 hp
    have hkind : p.target.kind = .scriptVariant := of_decide_eq_true hk
    have hconvert : r.convert p.text = q.convert p.text := by
      simp only at hconverter
      unfold Queue.convert
      rw [hconverter]
    refine ⟨p.target, (ha.pending_mem p hp).1, rfl, ?_⟩
    show r.convert p.text = q.valueFor p.target p.text
    rw [hconvert, Queue.valueFor, hkind]
  | finish r d calls es hj =>
    refine ⟨hclient, hconverter, hw.append ?_⟩
    intro v hv
    obtain ⟨p, hp, hr, he⟩ := hj.mem hv
    obtain ⟨hmem, hz, hkind⟩ := ha.started_mem p hp
    simp only at hclient
    rw [hclient] at hr
    have hvalue := hr.eq_steadyValue hq hz
    rw [he]
    refine ⟨p.target, hmem, rfl, ?_⟩
    show v.value = q.valueFor p.target p.text
    rw [hvalue, Queue.valueFor, hkind]

theorem Runs.faithful {base : Text} {targets : List Target} (hcodes : DistinctCodes base targets)
    {q : Queue} (hq : q.started = []) (hsteady : q.client.provider.Steady) {history : List Event}
    {s : Session} (h : Runs ⟨q, Dictionary.new base targets⟩ history s) :
    Faithful q targets history s := by
  induction h with
  | start =>
    refine ⟨rfl, rfl, ?_⟩
    intro e he
    cases he
  | step hrun hstep ih => exact ih.step hsteady (hrun.invariant hcodes hq).1 hstep

/-- A run that ends with a dispatch and a finish. -/
def Completes (start : Session) (history : List Event) (s : Session) : Prop :=
  ∃ earlier n m es fs t u, history = earlier ++ [.dispatch n es] ++ [.finish m fs] ∧
    Runs start earlier t ∧ Step t (.dispatch n es) u ∧ Step u (.finish m fs) s

/-- What a completed session holds. -/
theorem get?_of_completes {base : Text} {targets : List Target}
    (hcodes : DistinctCodes base targets) {q : Queue} (hq : q.started = [])
    (hsteady : q.client.provider.Steady) {history : List Event} {s : Session}
    (h : Completes ⟨q, Dictionary.new base targets⟩ history s) :
    (∀ code, (s.dictionary.table? code).isSome ↔ code ∈ base :: targets.map Target.code) ∧
    (∀ x, s.dictionary.get? base x = if .record x ∈ history then some x else none) ∧
    ∀ L ∈ targets, ∀ x, s.dictionary.get? L.code x =
      if .record x ∈ history then some (q.valueFor L x) else none := by
  obtain ⟨earlier, n, m, es, fs, t, u, rfl, hrun, hd, hfin⟩ := h
  have hall := (hrun.step hd).step hfin
  obtain ⟨hp, hs⟩ := Step.barrier hd hfin
  obtain ⟨ha, hf⟩ := hall.invariant hcodes hq
  have hw := hall.faithful hcodes hq hsteady
  refine ⟨hf.table_iff, hf.base_value, ?_⟩
  intro L hL x
  have hiff := hf.isSome_derived_iff ha hp hs hL x
  cases hv : s.dictionary.get? L.code x with
  | none =>
    rw [hv] at hiff
    rw [if_neg fun hx => by simpa using hiff.2 hx]
  | some value =>
    rw [hv] at hiff
    rw [if_pos (hiff.1 rfl)]
    rw [hf.derived_value L hL] at hv
    obtain ⟨e, he, hl, rfl, rfl⟩ := exists_of_lastValue hv
    obtain ⟨M, hM, hm, hval⟩ := hw.written_value e he
    have hML : M = L := (hcodes.code_eq_iff hL hM).1 (hm.symm.trans hl)
    rw [hval, hML]

/-- **Order independence.** Two sessions with the same provider and converter that record the same
texts, in whatever order, as often as they like and split in any way between dispatches, and whose
requests are joined in any order, end with the same tables. The base locale maps each text to
itself, another language to the provider's value or to the empty text if the provider fails, and a
script variant to the converted text, which without a converter is the text itself. -/
theorem tables_independent_of_order {base : Text} {targets : List Target}
    (hcodes : DistinctCodes base targets) {q r : Queue} (hq : q.started = []) (hr : r.started = [])
    (hprovider : r.client.provider = q.client.provider) (hsource : r.client.source = q.client.source)
    (hconverter : r.converter = q.converter) (hsteady : q.client.provider.Steady)
    {history history' : List Event} {s t : Session}
    (hs : Completes ⟨q, Dictionary.new base targets⟩ history s)
    (ht : Completes ⟨r, Dictionary.new base targets⟩ history' t)
    (hsame : ∀ x, .record x ∈ history ↔ .record x ∈ history') :
    s.dictionary.tables = t.dictionary.tables ∧
    (∀ x, .record x ∈ history → s.dictionary.get? base x = some x) ∧
    (∀ x, .record x ∈ history → ∀ L ∈ targets, L.kind = .translated →
      s.dictionary.get? L.code x = some (match q.client.provider.answer 0 x q.client.source L.code with
        | .ok value => value
        | .error _ => [])) ∧
    (∀ x, .record x ∈ history → ∀ L ∈ targets, L.kind = .scriptVariant →
      s.dictionary.get? L.code x = some (match q.converter with
        | some table => table.convert x
        | none => x)) ∧
    (∀ x, .record x ∉ history → ∀ code ∈ base :: targets.map Target.code,
      s.dictionary.get? code x = none) := by
  obtain ⟨hs₁, hs₂, hs₃⟩ := get?_of_completes hcodes hq hsteady hs
  obtain ⟨ht₁, ht₂, ht₃⟩ := get?_of_completes hcodes hr (hprovider ▸ hsteady) ht
  refine ⟨?_, ?_, ?_, ?_, ?_⟩
  · -- both sessions answer every look-up alike
    have hvalue : ∀ L x, r.valueFor L x = q.valueFor L x := by
      intro L x
      unfold Queue.valueFor Client.steadyValue Queue.convert
      rw [hprovider, hsource, hconverter]
    have hget : ∀ code ∈ base :: targets.map Target.code, ∀ x,
        s.dictionary.get? code x = t.dictionary.get? code x := by
      intro code hc x
      rcases List.mem_cons.1 hc with rfl | hc
      · rw [hs₂, ht₂]
        simp only [hsame]
      · obtain ⟨L, hL, rfl⟩ := List.mem_map.1 hc
        rw [hs₃ L hL, ht₃ L hL, hvalue]
        simp only [hsame]
    refine Table.eq_of_get? ?_
    intro code
    show s.dictionary.table? code = t.dictionary.table? code
    by_cases hc : code ∈ base :: targets.map Target.code
    · obtain ⟨u, hu⟩ := Option.isSome_iff_exists.1 ((hs₁ code).2 hc)
      obtain ⟨v, hv⟩ := Option.isSome_iff_exists.1 ((ht₁ code).2 hc)
      have huv : u = v := by
        refine Table.eq_of_get? ?_
        intro x
        rw [← s.dictionary.get?_of_table? hu, ← t.dictionary.get?_of_table? hv, hget code hc x]
      rw [hu, hv, huv]
    · have hnone := Option.not_isSome_iff_eq_none.1 (fun h => hc ((hs₁ code).1 h))
      have hnone' := Option.not_isSome_iff_eq_none.1 (fun h => hc ((ht₁ code).1 h))
      rw [hnone, hnone']
  · intro x hx
    rw [hs₂, if_pos hx]
  · intro x hx L hL hk
    have hanswer : q.client.steadyValue x L.code =
        match q.client.provider.answer 0 x q.client.source L.code with
        | .ok value => value
        | .error _ => [] := by
      unfold Client.steadyValue
      cases q.client.provider.answer 0 x q.client.source L.code <;> rfl
    rw [hs₃ L hL, if_pos hx, ← hanswer, Queue.valueFor, hk]
  · intro x hx L hL hk
    have hconvert : q.convert x = match q.converter with
        | some table => table.convert x
        | none => x := by
      unfold Queue.convert
      cases q.converter <;> rfl
    rw [hs₃ L hL, if_pos hx, ← hconvert, Queue.valueFor, hk]
  · intro x hx code hc
    rcases List.mem_cons.1 hc with rfl | hc
    · rw [hs₂, if_neg hx]
    · obtain ⟨L, hL, rfl⟩ := List.mem_map.1 hc
      rw [hs₃ L hL, if_neg hx]

/-- Two texts dispatched at once and joined in the opposite order, against the same texts recorded
the other way round, one of them twice, with a dispatch in between and another limit of attempts. -/
theorem tables_of_two_sessions :
    let en : Target := ⟨['e', 'n'], .translated⟩
    let tw : Target := ⟨['t', 'w'], .scriptVariant⟩
    let client : Client := { provider := Rehearsal.suffix.provider, source := ['z', 'h'] }
    let q : Queue := ⟨client, none, 1, [], 0⟩
    let r : Queue := ⟨client.attemptingAtMost 2, none, 8, [], 0⟩
    let d₀ := Dictionary.new ['z', 'h'] [en, tw]
    ∃ history history' s t,
      Completes ⟨q, d₀⟩ history s ∧ Completes ⟨r, d₀⟩ history' t ∧
      (∀ x, .record x ∈ history ↔ .record x ∈ history') ∧ history ≠ history' ∧
      s.dictionary.tables = t.dictionary.tables ∧
      s.dictionary.get? ['e', 'n'] ['你'] = some ['你', '_', 'e', 'n'] := by
  intro en tw client q r d₀
  let you : Pending := { text := ['你'], target := en }
  let good : Pending := { text := ['好'], target := en }
  let d₁ := (d₀.record ['你']).record ['好']
  let d₂ := d₀.record ['好']
  let d₃ := ((r.dispatch d₂).2.2.record ['你']).record ['你']
  have hs : Runs ⟨q, d₀⟩ [.record ['你'], .record ['好']] ⟨q, d₁⟩ :=
    (Runs.start.step (.record q d₀ ['你'])).step (.record q _ ['好'])
  have hj : Joins client ([you] ++ good :: [])
      [good.entry ['好', '_', 'e', 'n'], you.entry ['你', '_', 'e', 'n']] := by
    refine .next ⟨id, rfl⟩ ?_
    show Joins client ([] ++ you :: []) _
    exact .next ⟨id, rfl⟩ .done
  have hfin := Step.finish (q.dispatch d₁).2.1 (q.dispatch d₁).2.2 2 _ hj
  have ht : Runs ⟨r, d₀⟩ [.record ['好'], .dispatch (r.dispatch d₂).1 (r.conversions d₂.pending),
      .record ['你'], .record ['你']] ⟨(r.dispatch d₂).2.1, d₃⟩ :=
    (((Runs.start.step (.record r d₀ ['好'])).step (.dispatch r d₂)).step
      (.record _ _ ['你'])).step (.record _ _ ['你'])
  obtain ⟨es, hfin'⟩ := step_finish
    ⟨((r.dispatch d₂).2.1.dispatch d₃).2.1, ((r.dispatch d₂).2.1.dispatch d₃).2.2⟩
  have hS : Completes ⟨q, d₀⟩ _ _ := ⟨_, _, _, _, _, _, _, rfl, hs, .dispatch q d₁, hfin⟩
  have hT : Completes ⟨r, d₀⟩ _ _ :=
    ⟨_, _, _, _, _, _, _, rfl, ht, .dispatch (r.dispatch d₂).2.1 d₃, hfin'⟩
  have hsame : ∀ x, Event.record x ∈ [Event.record ['你'], .record ['好']] ++
      [.dispatch (q.dispatch d₁).1 (q.conversions d₁.pending)] ++ [.finish 2
        [good.entry ['好', '_', 'e', 'n'], you.entry ['你', '_', 'e', 'n']]] ↔
      Event.record x ∈ [Event.record ['好'], .dispatch (r.dispatch d₂).1 (r.conversions d₂.pending),
        .record ['你'], .record ['你']] ++
        [.dispatch ((r.dispatch d₂).2.1.dispatch d₃).1
          ((r.dispatch d₂).2.1.conversions d₃.pending)] ++
        [.finish (((r.dispatch d₂).2.1.dispatch d₃).2.1.finish
          ((r.dispatch d₂).2.1.dispatch d₃).2.2).1 es] := by
    intro x
    simp only [List.mem_append, List.mem_cons, List.not_mem_nil, Event.record.injEq, reduceCtorEq,
      or_false, false_or, or_self]
    exact Or.comm
  have hcodes : DistinctCodes ['z', 'h'] [en, tw] := by decide
  have hr : r.started = [] := rfl
  have hprovider : r.client.provider = q.client.provider := rfl
  have hsource : r.client.source = q.client.source := rfl
  have hconverter : r.converter = q.converter := rfl
  have hsteady : q.client.provider.Steady := fun _ _ _ _ _ => rfl
  have hall := tables_independent_of_order hcodes rfl hr hprovider hsource hconverter hsteady hS hT
    hsame
  exact ⟨_, _, _, _, hS, hT, hsame, by simp, hall.1,
    hall.2.2.1 ['你'] (by simp) en List.mem_cons_self rfl⟩

end Session

end Phrasebook
