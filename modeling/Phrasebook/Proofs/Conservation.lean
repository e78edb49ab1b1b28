import Phrasebook.Proofs.Session
import Mathlib.Data.List.Nodup

/-!
Conservation: no recorded text is lost on its way into the tables, and none comes twice.

A text that was recorded is, once for each recording and each derived locale, in exactly one of three
places: it waits in the dictionary, it is under way in the queue, or its value has been written. The
balance is kept by every operation (`Accounted.step`). What the tables hold is what was written
(`Filed.step`). After a dispatch and a finish nothing waits and nothing is under way, so all tables
have the keys of the base table.
-/

namespace Phrasebook

/-- Whether a waiting text is this text for this locale. -/
def Pending.isFor (text : Text) (target : Target) (p : Pending) : Bool :=
  p.text = text && p.target = target

namespace Session

/-- The base and the derived locales of a session are told apart by their codes. -/
def DistinctCodes (base : Text) (targets : List Target) : Prop :=
  (base :: targets.map Target.code).Nodup

instance (base : Text) (targets : List Target) : Decidable (DistinctCodes base targets) :=
  inferInstanceAs (Decidable (base :: targets.map Target.code).Nodup)

section
variable {base : Text} {targets : List Target} (hcodes : DistinctCodes base targets)
include hcodes

theorem DistinctCodes.code_eq_iff {L M : Target} (hL : L ∈ targets) (hM : M ∈ targets) :
    M.code = L.code ↔ M = L := by
  constructor
  · intro h
    exact List.inj_on_of_nodup_map (List.nodup_cons.1 hcodes).2 hM hL h
  · intro h
    rw [h]

theorem DistinctCodes.code_ne_base {L : Target} (hL : L ∈ targets) : L.code ≠ base := by
  intro h
  exact (List.nodup_cons.1 hcodes).1 (h ▸ List.mem_map_of_mem hL)

theorem DistinctCodes.nodup : targets.Nodup := (List.nodup_cons.1 hcodes).2.of_map _

/-! ## Counting -/

/-- An entry and the waiting text that it comes from are for the same text and locale. -/
theorem DistinctCodes.isFor_iff {L : Target} (hL : L ∈ targets) {p : Pending}
    (hp : p.target ∈ targets) (x value : Text) :
    Entry.isFor L.code x (p.entry value) = Pending.isFor x L p := by
  have h := hcodes.code_eq_iff hL hp
  simp only [Entry.isFor, Pending.isFor, Pending.entry, h]
  exact Bool.and_comm _ _

theorem DistinctCodes.countP_conversions {L : Target} (hL : L ∈ targets) (q : Queue)
    {ps : List Pending} (hps : ∀ p ∈ ps, p.target ∈ targets) (x : Text) :
    (q.conversions ps).countP (Entry.isFor L.code x) =
      (Queue.variants ps).countP (Pending.isFor x L) := by
  unfold Queue.conversions
  rw [List.countP_map]
  refine List.countP_congr ?_
  intro p hp
  have hm : p ∈ ps := (List.mem_filter.1 hp).1
  rw [Function.comp_apply, hcodes.isFor_iff hL (hps p hm)]

theorem DistinctCodes.countP_joins {L : Target} (hL : L ∈ targets) {c : Client}
    {ps : List Pending} {es : List Entry} (hps : ∀ p ∈ ps, p.target ∈ targets) (h : Joins c ps es)
    (x : Text) :
    es.countP (Entry.isFor L.code x) = ps.countP (Pending.isFor x L) := by
  have hc := h.perm.countP_eq fun k => k.2 = L.code && k.1 = x
  rw [List.countP_map, List.countP_map] at hc
  have hl : es.countP (Entry.isFor L.code x) =
      es.countP ((fun k => k.2 = L.code && k.1 = x) ∘ fun e => (e.text, e.locale)) := rfl
  rw [hl, hc]
  refine List.countP_congr ?_
  intro p hp
  exact (Bool.eq_iff_iff.1 (hcodes.isFor_iff hL (hps p hp) x []))

theorem DistinctCodes.countP_recorded {L : Target} (hL : L ∈ targets) (x y : Text) :
    (targets.map fun t => ({ text := y, target := t } : Pending)).countP (Pending.isFor x L) =
      if y = x then 1 else 0 := by
  rw [List.countP_map]
  by_cases hyx : y = x
  · rw [if_pos hyx]
    have hc : targets.countP (Pending.isFor x L ∘ fun t => { text := y, target := t }) =
        targets.count L := by
      refine List.countP_congr ?_
      intro t _
      simp [Pending.isFor, hyx]
    rw [hc]
    exact List.count_eq_one_of_mem hcodes.nodup hL
  · rw [if_neg hyx, List.countP_eq_zero]
    intro t _
    simp [Pending.isFor, hyx]

end

theorem countP_split (f : Pending → Bool) (ps : List Pending) :
    ps.countP f = (Queue.requests ps).countP f + (Queue.variants ps).countP f := by
  induction ps with
  | nil => rfl
  | cons p ps ih =>
    unfold Queue.requests Queue.variants at ih ⊢
    cases hk : p.target.kind <;> by_cases hf : f p = true <;> simp [hk, hf, ih] <;> omega

theorem written_append (history : List Event) (e : Event) :
    written (history ++ [e]) = written history ++ e.written := by
  simp [written]

/-! ## The balance -/

/-- Where the recorded texts of a session are. -/
structure Accounted (targets : List Target) (history : List Event) (s : Session) : Prop where
  pending_mem : ∀ p ∈ s.dictionary.pending, p.target ∈ targets ∧ p.attempts = 0
  started_mem : ∀ p ∈ s.queue.started,
    p.target ∈ targets ∧ p.attempts = 0 ∧ p.target.kind = .translated
  balance : ∀ x, ∀ L ∈ targets, history.count (.record x) =
    s.dictionary.pending.countP (Pending.isFor x L) + s.queue.started.countP (Pending.isFor x L) +
      (written history).countP (Entry.isFor L.code x)

theorem Accounted.start (base : Text) (targets : List Target) {q : Queue} (hq : q.started = []) :
    Accounted targets [] ⟨q, Dictionary.new base targets⟩ where
  pending_mem := by
    intro p hp
    cases hp
  started_mem := by
    intro p hp
    rw [hq] at hp
    cases hp
  balance := by
    intro x L _
    simp [hq, Dictionary.new, written]

theorem Accounted.step {base : Text} {targets : List Target} (hcodes : DistinctCodes base targets)
    {history : List Event} {s t : Session} {e : Event} (ha : Accounted targets history s)
    (htargets : s.dictionary.targets = targets) (h : Step s e t) :
    Accounted targets (history ++ [e]) t := by
  cases h with
  | record q d y =>
    have hpending : (d.record y).pending =
        d.pending ++ d.targets.map fun t => { text := y, target := t } := rfl
    have htargets : d.targets = targets := htargets
    refine ⟨?_, ha.started_mem, ?_⟩
    · intro p hp
      rw [hpending, htargets] at hp
      rcases List.mem_append.1 hp with hp | hp
      · exact ha.pending_mem p hp
      · obtain ⟨t, ht, rfl⟩ := List.mem_map.1 hp
        exact ⟨ht, rfl⟩
    · intro x L hL
      have hb : history.count (.record x) = d.pending.countP (Pending.isFor x L) +
          q.started.countP (Pending.isFor x L) + (written history).countP (Entry.isFor L.code x) :=
        ha.balance x L hL
      have hr := hcodes.countP_recorded hL x y
      have hc : [Event.record y].count (.record x) = if y = x then 1 else 0 := by
        by_cases hyx : y = x <;> simp [hyx]
      rw [List.count_append, hc, hpending, htargets, List.countP_append, hr, written_append]
      simp only [Event.written, List.append_nil]
      omega
  | dispatch q d =>
    rw [Queue.dispatch_eq]
    have hpending := (({ d with pending := [] } : Dictionary).enterAll_frame
      (q.conversions d.pending)).2.2
    refine ⟨?_, ?_, ?_⟩
    · intro p hp
      rw [hpending] at hp
      cases hp
    · intro p hp
      rcases List.mem_append.1 hp with hp | hp
      · exact ha.started_mem p hp
      · obtain ⟨hp, hk⟩ := List.mem_filter.1 hp
        obtain ⟨ht, hz⟩ := ha.pending_mem p hp
        exact ⟨ht, hz, of_decide_eq_true hk⟩
    · intro x L hL
      have hb : history.count (.record x) = d.pending.countP (Pending.isFor x L) +
          q.started.countP (Pending.isFor x L) + (written history).countP (Entry.isFor L.code x) :=
        ha.balance x L hL
      have hs := countP_split (Pending.isFor x L) d.pending
      have hc := hcodes.countP_conversions hL q (fun p hp => (ha.pending_mem p hp).1) x
      have hn : [Event.dispatch (Queue.requests d.pending).length (q.conversions d.pending)].count
          (.record x) = 0 := by simp
      rw [hpending, List.count_append, hn, List.countP_append, written_append, List.countP_append]
      simp only [Event.written, hc, List.countP_nil]
      omega
  | finish q d calls es hj =>
    have hpending := (d.enterAll_frame es).2.2
    refine ⟨?_, ?_, ?_⟩
    · intro p hp
      rw [hpending] at hp
      exact ha.pending_mem p hp
    · intro p hp
      cases hp
    · intro x L hL
      have hb : history.count (.record x) = d.pending.countP (Pending.isFor x L) +
          q.started.countP (Pending.isFor x L) + (written history).countP (Entry.isFor L.code x) :=
        ha.balance x L hL
      have hc := hcodes.countP_joins hL (fun p hp => (ha.started_mem p hp).1) hj x
      have hn : [Event.finish es.length es].count (.record x) = 0 := by simp
      rw [hpending, List.count_append, hn, written_append, List.countP_append]
      simp only [Event.written, hc, List.countP_nil]
      omega

/-! ## The tables -/

/-- What the tables of a session hold: the recorded texts in the base locale, and in each derived
locale the last value written for a text. -/
structure Filed (base : Text) (targets : List Target) (history : List Event) (d : Dictionary) :
    Prop where
  base_eq : d.base = base
  targets_eq : d.targets = targets
  table_iff : ∀ code, (d.table? code).isSome ↔ code ∈ base :: targets.map Target.code
  base_value : ∀ x, d.get? base x = if .record x ∈ history then some x else none
  derived_value : ∀ L ∈ targets, ∀ x, d.get? L.code x = lastValue (written history) L.code x
  written_mem : ∀ e ∈ written history, ∃ L ∈ targets, e.locale = L.code

theorem get?_foldl_insert (targets : List Target) (tables : LocaleTables) (code : Text) :
    (targets.foldl (fun tables target => tables.insert target.code Table.empty) tables).get? code =
      if code ∈ targets.map Target.code then some Table.empty else tables.get? code := by
  induction targets generalizing tables with
  | nil => rfl
  | cons L targets ih =>
    rw [List.foldl_cons, ih, Table.get?_insert]
    by_cases hm : code ∈ targets.map Target.code
    · simp [hm]
    · by_cases hc : L.code = code
      · simp [hc]
      · have hne : code ≠ L.code := fun h => hc h.symm
        simp [hm, hc, hne]

theorem table?_new (base : Text) (targets : List Target) (code : Text) :
    (Dictionary.new base targets).table? code =
      if code ∈ base :: targets.map Target.code then some Table.empty else none := by
  show (targets.foldl _ (Table.empty.insert base Table.empty)).get? code = _
  rw [get?_foldl_insert, Table.get?_insert, Table.get?_empty]
  by_cases hm : code ∈ targets.map Target.code
  · simp [hm]
  · by_cases hc : base = code
    · simp [hc]
    · have hne : code ≠ base := fun h => hc h.symm
      simp [hm, hc, hne]

theorem Filed.start (base : Text) (targets : List Target) :
    Filed base targets [] (Dictionary.new base targets) := by
  have hget : ∀ code x, (Dictionary.new base targets).get? code x = none := by
    intro code x
    unfold Dictionary.get?
    rw [table?_new]
    split <;> rfl
  refine ⟨rfl, rfl, ?_, ?_, ?_, ?_⟩
  · intro code
    rw [table?_new]
    by_cases hc : code ∈ base :: targets.map Target.code <;> simp [hc]
  · intro x
    rw [hget]
    rfl
  · intro L _ x
    rw [hget]
    rfl
  · intro e he
    cases he

/-- Writing values of derived locales keeps the tables as they should be. -/
theorem Filed.enterAll {base : Text} {targets : List Target} (hcodes : DistinctCodes base targets)
    {history : List Event} {d : Dictionary} (hf : Filed base targets history d) {e : Event}
    (hrecord : ∀ x, e ≠ .record x) (hmem : ∀ v ∈ e.written, ∃ L ∈ targets, v.locale = L.code) :
    Filed base targets (history ++ [e]) (d.enterAll e.written) := by
  obtain ⟨hbase, htargets, _⟩ := d.enterAll_frame e.written
  refine ⟨hbase.trans hf.base_eq, htargets.trans hf.targets_eq, ?_, ?_, ?_, ?_⟩
  · intro code
    rw [d.isSome_table?_enterAll, hf.table_iff]
    constructor
    · rintro (hc | ⟨v, hv, rfl⟩)
      · exact hc
      · obtain ⟨L, hL, hl⟩ := hmem v hv
        rw [hl]
        exact List.mem_cons_of_mem _ (List.mem_map_of_mem hL)
    · intro hc
      exact Or.inl hc
  · intro x
    -- no value is written for the base locale
    have hnone : lastValue e.written base x = none := by
      rw [Option.eq_none_iff_forall_ne_some]
      intro value hv
      obtain ⟨v, hm, hl, _⟩ := exists_of_lastValue hv
      obtain ⟨L, hL, hc⟩ := hmem v hm
      exact hcodes.code_ne_base hL (hc.symm.trans hl)
    have hx : Event.record x ∈ history ++ [e] ↔ Event.record x ∈ history := by
      simp [(hrecord x).symm]
    rw [d.get?_enterAll, hnone, Option.none_or, hf.base_value]
    simp only [hx]
  · intro L hL x
    rw [d.get?_enterAll, hf.derived_value L hL, written_append, lastValue_append]
  · intro v hv
    rw [written_append] at hv
    rcases List.mem_append.1 hv with hv | hv
    · exact hf.written_mem v hv
    · exact hmem v hv

theorem Filed.step {base : Text} {targets : List Target} (hcodes : DistinctCodes base targets)
    {history : List Event} {s t : Session} {e : Event} (hf : Filed base targets history s.dictionary)
    (ha : Accounted targets history s) (h : Step s e t) :
    Filed base targets (history ++ [e]) t.dictionary := by
  cases h with
  | record q d y =>
    have hget : ∀ code x, (d.record y).get? code x =
        if base = code ∧ y = x then some y else d.get? code x := by
      intro code x
      rw [← hf.base_eq]
      exact d.get?_enterValue y d.base y code x
    have htable : ∀ code, (d.record y).table? code =
        if base = code then some (((d.table? base).getD Table.empty).insert y y)
        else d.table? code := by
      intro code
      rw [← hf.base_eq]
      exact d.table?_enterValue y d.base y code
    have hwritten : written (history ++ [Event.record y]) = written history := by
      rw [written_append]
      exact List.append_nil _
    refine ⟨hf.base_eq, hf.targets_eq, ?_, ?_, ?_, ?_⟩
    · intro code
      rw [htable]
      by_cases hc : base = code
      · simp [hc]
      · rw [if_neg hc]
        exact hf.table_iff code
    · intro x
      have hb : d.get? base x = if .record x ∈ history then some x else none := hf.base_value x
      rw [hget, hb]
      by_cases hyx : y = x
      · simp [hyx]
      · have hne : x ≠ y := fun h => hyx h.symm
        simp [hyx, hne]
    · intro L hL x
      have hne : base ≠ L.code := (hcodes.code_ne_base hL).symm
      rw [hget, hwritten, if_neg (fun h => hne h.1)]
      exact hf.derived_value L hL x
    · rw [hwritten]
      exact hf.written_mem
  | dispatch q d =>
    rw [Queue.dispatch_eq]
    have hd : Filed base targets history { d with pending := [] } :=
      ⟨hf.base_eq, hf.targets_eq, hf.table_iff, hf.base_value, hf.derived_value, hf.written_mem⟩
    refine hd.enterAll hcodes (fun x h => by cases h) ?_
    intro v hv
    obtain ⟨p, hp, rfl⟩ := List.mem_map.1 hv
    exact ⟨p.target, (ha.pending_mem p (List.mem_filter.1 hp).1).1, rfl⟩
  | finish q d calls es hj =>
    refine hf.enterAll hcodes (fun x h => by cases h) ?_
    intro v hv
    obtain ⟨p, hp, _, he⟩ := hj.mem hv
    refine ⟨p.target, (ha.started_mem p hp).1, ?_⟩
    rw [he]
    rfl

/-- Every reachable state is accounted for, and its tables hold what was written. -/
theorem Runs.invariant {base : Text} {targets : List Target} (hcodes : DistinctCodes base targets)
    {q : Queue} (hq : q.started = []) {history : List Event} {s : Session}
    (h : Runs ⟨q, Dictionary.new base targets⟩ history s) :
    Accounted targets history s ∧ Filed base targets history s.dictionary := by
  induction h with
  | start => exact ⟨.start base targets hq, .start base targets⟩
  | step _ hstep ih =>
    obtain ⟨ha, hf⟩ := ih
    exact ⟨ha.step hcodes hf.targets_eq hstep, hf.step hcodes ha hstep⟩

/-! ## The main result -/

/-- A finish answers with the number of requests that it found, and leaves none. -/
theorem Step.finish_count {s t : Session} {n : Nat} {es : List Entry}
    (h : Step s (.finish n es) t) : n = s.queue.unfinished ∧ t.queue.unfinished = 0 := by
  cases h with
  | finish q d calls es hj => exact ⟨hj.length_eq, rfl⟩

/-- After a dispatch and a finish nothing waits and nothing is under way. -/
theorem Step.barrier {s t u : Session} {n m : Nat} {es fs : List Entry}
    (hd : Step s (.dispatch n es) t) (hf : Step t (.finish m fs) u) :
    u.dictionary.pending = [] ∧ u.queue.started = [] := by
  cases hd with
  | dispatch q d =>
    cases hf with
    | finish _ _ calls fs hj =>
      refine ⟨?_, rfl⟩
      rw [(Dictionary.enterAll_frame _ fs).2.2, Queue.dispatch_eq]
      exact (Dictionary.enterAll_frame _ _).2.2

/-- When nothing waits and nothing is under way, the texts with a value in a derived locale are the
recorded ones. -/
theorem Filed.isSome_derived_iff {base : Text} {targets : List Target} {history : List Event}
    {s : Session} (hf : Filed base targets history s.dictionary) (ha : Accounted targets history s)
    (hp : s.dictionary.pending = []) (hs : s.queue.started = []) {L : Target} (hL : L ∈ targets)
    (x : Text) : (s.dictionary.get? L.code x).isSome ↔ .record x ∈ history := by
  -- with both queues empty, each recording has led to one written value
  have hb := ha.balance x L hL
  rw [hp, hs, List.countP_nil, Nat.zero_add] at hb
  rw [hf.derived_value L hL, isSome_lastValue_iff, ← hb, List.count_pos_iff]

/-- Then every table has the keys of the base table. -/
theorem Filed.keys_eq {base : Text} {targets : List Target} {history : List Event} {s : Session}
    (hf : Filed base targets history s.dictionary) (ha : Accounted targets history s)
    (hp : s.dictionary.pending = []) (hs : s.queue.started = []) {code : Text}
    (hc : code ∈ base :: targets.map Target.code) :
    ∃ t u, s.dictionary.table? base = some t ∧ s.dictionary.table? code = some u ∧
      u.keys = t.keys := by
  obtain ⟨t, ht⟩ := Option.isSome_iff_exists.1 ((hf.table_iff base).2 List.mem_cons_self)
  obtain ⟨u, hu⟩ := Option.isSome_iff_exists.1 ((hf.table_iff code).2 hc)
  refine ⟨t, u, ht, hu, Table.keys_eq ?_⟩
  intro x
  rw [← s.dictionary.get?_of_table? ht, ← s.dictionary.get?_of_table? hu]
  rcases List.mem_cons.1 hc with rfl | hc
  · exact Iff.rfl
  · obtain ⟨L, hL, rfl⟩ := List.mem_map.1 hc
    rw [hf.isSome_derived_iff ha hp hs hL, hf.base_value]
    by_cases hx : Event.record x ∈ history <;> simp [hx]

/-- **Conservation.** In every reachable state each recording of a text is, for each derived locale,
in exactly one of three places, and only values of other languages are under way. A finish answers
with the number of requests that it found and leaves none, and after a dispatch and a finish every
configured locale has the keys of the base locale. -/
theorem every_text_accounted_for {base : Text} {targets : List Target}
    (hcodes : DistinctCodes base targets) {q : Queue} (hq : q.started = [])
    {history : List Event} {s : Session} (h : Runs ⟨q, Dictionary.new base targets⟩ history s) :
    (∀ x, ∀ L ∈ targets, history.count (.record x) =
      s.dictionary.pending.countP (Pending.isFor x L) +
        s.queue.started.countP (Pending.isFor x L) +
        (written history).countP (Entry.isFor L.code x)) ∧
    (∀ p ∈ s.queue.started, p.target.kind ≠ .scriptVariant) ∧
    (∃ es, Step s (.finish (s.queue.finish s.dictionary).1 es)
      ⟨(s.queue.finish s.dictionary).2.1, (s.queue.finish s.dictionary).2.2⟩) ∧
    (∀ n es t, Step s (.finish n es) t → n = s.queue.unfinished ∧ t.queue.unfinished = 0) ∧
    (∀ n m es fs t u, Step s (.dispatch n es) t → Step t (.finish m fs) u →
      u.dictionary.pending = [] ∧ u.queue.unfinished = 0 ∧
        ∀ code ∈ u.dictionary.locales, ∃ baseTable table,
          u.dictionary.table? base = some baseTable ∧ u.dictionary.table? code = some table ∧
            table.keys = baseTable.keys) := by
  obtain ⟨ha, hf⟩ := h.invariant hcodes hq
  refine ⟨ha.balance, ?_, s.step_finish, fun n es t hstep => hstep.finish_count, ?_⟩
  · intro p hp hk
    have := (ha.started_mem p hp).2.2
    rw [hk] at this
    cases this
  · intro n m es fs t u hd hfin
    obtain ⟨hpending, hstarted⟩ := Step.barrier hd hfin
    obtain ⟨ha', hf'⟩ := ((h.step hd).step hfin).invariant hcodes hq
    refine ⟨hpending, by rw [Queue.unfinished, hstarted]; rfl, ?_⟩
    intro code hc
    rw [Dictionary.locales, hf'.base_eq, hf'.targets_eq] at hc
    exact hf'.keys_eq ha' hpending hstarted hc

/-- A text recorded twice and dispatched, with a language and a script variant as derived locales:
both requests are under way, and the variant has been written twice. -/
theorem accounted_for_when_recorded_twice :
    let en : Target := ⟨['e', 'n'], .translated⟩
    let tw : Target := ⟨['t', 'w'], .scriptVariant⟩
    let q : Queue := ⟨{ provider := Rehearsal.suffix.provider, source := ['z', 'h'] }, none, 1, [], 0⟩
    let d₀ := Dictionary.new ['z', 'h'] [en, tw]
    let d := (d₀.record ['你']).record ['你']
    let s : Session := ⟨(q.dispatch d).2.1, (q.dispatch d).2.2⟩
    let history : List Event := [.record ['你'], .record ['你'],
      .dispatch (q.dispatch d).1 (q.conversions d.pending)]
    DistinctCodes ['z', 'h'] [en, tw] ∧ q.started = [] ∧ Runs ⟨q, d₀⟩ history s ∧
      history.count (.record ['你']) = s.dictionary.pending.countP (Pending.isFor ['你'] en) +
        s.queue.started.countP (Pending.isFor ['你'] en) +
        (written history).countP (Entry.isFor ['e', 'n'] ['你']) ∧
      s.queue.started.countP (Pending.isFor ['你'] en) = 2 ∧
      (written history).countP (Entry.isFor ['t', 'w'] ['你']) = 2 := by
  intro en tw q d₀ d s history
  have hcodes : DistinctCodes ['z', 'h'] [en, tw] := by decide
  have hrun : Runs ⟨q, d₀⟩ history s :=
    ((Runs.start.step (.record q d₀ ['你'])).step (.record q _ ['你'])).step (.dispatch q d)
  have hall := every_text_accounted_for hcodes rfl hrun
  exact ⟨hcodes, rfl, hrun, hall.1 ['你'] en List.mem_cons_self, by decide, by decide⟩

end Session

end Phrasebook
