import Phrasebook.Proofs.Tables
import Phrasebook.Service.Queue

/-!
Sessions: a dictionary and a queue on which texts are recorded, dispatched and finished in any order.
A finish joins the started requests one after the other; which of them comes next is open, and so is
how the attempts of different requests share the calls of the provider.

The state of a session is what the program holds. What happened so far is kept beside it as the list
of events, so the number of times a text was recorded and the values written for it can be counted.

    q.dispatch d = (…, { q with started := … ++ requests d.pending }, (…).enterAll (q.conversions …))
                                                                                   (dispatch_eq)
    Step s (.finish …) ⟨(s.queue.finish s.dictionary).2.1, …⟩                      (step_finish)
-/

namespace Phrasebook

/-! ## Requests and their values -/

namespace Client

/-- A value that a request may end with. The attempts of one request need not be neighbours among the
calls of the provider: the `n`th attempt is call number `turn n`. -/
def Resolves (c : Client) (p : Pending) (value : Text) : Prop :=
  ∃ turn : Nat → Nat, value = (firstSuccess
    (fun n => c.provider.answer (turn n) p.text c.source p.target.code)
    (c.maxAttempts - p.attempts) 0).1

theorem firstSuccess_shift (answer : Nat → Except Failure Text) (budget calls k : Nat) :
    (firstSuccess (fun n => answer (calls + n)) budget k).1 =
      (firstSuccess answer budget (calls + k)).1 := by
  induction budget generalizing k with
  | zero => rfl
  | succ budget ih =>
    unfold firstSuccess
    cases answer (calls + k) with
    | ok value => rfl
    | error e => exact ih (k + 1)

/-- Requests that run one after the other resolve to what the client translates them to. -/
theorem resolves_translate (c : Client) (p : Pending) (calls : Nat) :
    c.Resolves p (c.translate p calls).1 := by
  refine ⟨fun n => calls + n, ?_⟩
  rw [firstSuccess_shift (fun n => c.provider.answer n p.text c.source p.target.code)]
  rfl

end Client

/-- The entry that a value makes for a waiting text. -/
def Pending.entry (p : Pending) (value : Text) : Entry := ⟨p.text, p.target.code, value⟩

/-- The started requests are joined one after the other, each exactly once, in any order. -/
inductive Joins (c : Client) : List Pending → List Entry → Prop
  | done : Joins c [] []
  | next {before after : List Pending} {p : Pending} {value : Text} {es : List Entry} :
      c.Resolves p value → Joins c (before ++ after) es →
      Joins c (before ++ p :: after) (p.entry value :: es)

/-- Each request gives one entry, for its own text and locale. -/
theorem Joins.perm {c : Client} {ps : List Pending} {es : List Entry} (h : Joins c ps es) :
    (es.map fun e => (e.text, e.locale)).Perm (ps.map fun p => (p.text, p.target.code)) := by
  induction h with
  | done => exact List.Perm.refl _
  | next _ _ ih =>
    rw [List.map_append, List.map_cons, List.map_cons]
    refine (List.Perm.cons _ ih).trans ?_
    rw [List.map_append]
    exact List.perm_middle.symm

theorem Joins.length_eq {c : Client} {ps : List Pending} {es : List Entry} (h : Joins c ps es) :
    es.length = ps.length := by
  have := h.perm.length_eq
  rwa [List.length_map, List.length_map] at this

/-- Every entry is the value of one of the requests. -/
theorem Joins.mem {c : Client} {ps : List Pending} {es : List Entry} (h : Joins c ps es)
    {e : Entry} (he : e ∈ es) : ∃ p ∈ ps, c.Resolves p e.value ∧ e = p.entry e.value := by
  induction h with
  | done => cases he
  | @next before after p value es hr _ ih =>
    rcases List.mem_cons.1 he with rfl | he
    · exact ⟨p, by simp, hr, rfl⟩
    · obtain ⟨p', hp', hr', heq⟩ := ih he
      refine ⟨p', ?_, hr', heq⟩
      rcases List.mem_append.1 hp' with hb | ha
      · exact List.mem_append_left _ hb
      · exact List.mem_append_right _ (List.mem_cons_of_mem _ ha)

namespace Queue

/-- The waiting texts that are requested from the provider. -/
def requests (ps : List Pending) : List Pending := ps.filter fun p => p.target.kind = .translated

/-- The waiting texts that are converted on the spot. -/
def variants (ps : List Pending) : List Pending := ps.filter fun p => p.target.kind = .scriptVariant

/-- The values that script variants get. -/
def conversions (q : Queue) (ps : List Pending) : List Entry :=
  (variants ps).map fun p => p.entry (q.convert p.text)

theorem foldl_take (ps : List Pending) (n : Nat) (q : Queue) (d : Dictionary) :
    ps.foldl take (n, q, d) = (n + (requests ps).length,
      { q with started := q.started ++ requests ps }, d.enterAll (q.conversions ps)) := by
  induction ps generalizing n q d with
  | nil => simp [requests, conversions, variants, Dictionary.enterAll]
  | cons p ps ih =>
    rw [List.foldl_cons]
    cases hk : p.target.kind with
    | scriptVariant =>
      have ht : take (n, q, d) p =
          (n, q, d.enterValue p.text p.target.code (q.convert p.text)) := by simp [take, hk]
      rw [ht, ih]
      simp [requests, conversions, variants, hk, Dictionary.enterAll, Pending.entry]
    | translated =>
      have ht : take (n, q, d) p = (n + 1, { q with started := q.started ++ [p] }, d) := by
        simp [take, hk]
      rw [ht, ih]
      -- the queue has changed, but not its converter
      have hc : (({ q with started := q.started ++ [p] } : Queue).conversions ps) =
          q.conversions (p :: ps) := by simp [conversions, variants, hk, convert]
      rw [hc]
      simp [requests, hk]
      omega

/-- What a dispatch does. -/
theorem dispatch_eq (q : Queue) (d : Dictionary) :
    q.dispatch d = ((requests d.pending).length,
      { q with started := q.started ++ requests d.pending },
      ({ d with pending := [] } : Dictionary).enterAll (q.conversions d.pending)) := by
  show d.pending.foldl take (0, q, { d with pending := [] }) = _
  rw [foldl_take, Nat.zero_add]

/-- Finishing requests in the order in which they were started is one way of joining them. -/
theorem foldl_finishOne (c : Client) (ps : List Pending) (n calls : Nat) (d : Dictionary) :
    ∃ es, Joins c ps es ∧ (ps.foldl (finishOne c) (n, calls, d)).1 = n + es.length ∧
      (ps.foldl (finishOne c) (n, calls, d)).2.2 = d.enterAll es := by
  induction ps generalizing n calls d with
  | nil => exact ⟨[], .done, rfl, rfl⟩
  | cons p ps ih =>
    have hone : finishOne c (n, calls, d) p = (n + 1, (c.translate p calls).2,
        d.enterValue p.text p.target.code (c.translate p calls).1) := rfl
    obtain ⟨es, hj, hn, hd⟩ := ih (n + 1) (c.translate p calls).2
      (d.enterValue p.text p.target.code (c.translate p calls).1)
    have hjoin : Joins c ([] ++ p :: ps) (p.entry (c.translate p calls).1 :: es) :=
      .next (c.resolves_translate p calls) hj
    refine ⟨p.entry (c.translate p calls).1 :: es, hjoin, ?_, ?_⟩
    · rw [List.foldl_cons, hone, hn, List.length_cons]
      omega
    · rw [List.foldl_cons, hone]
      exact hd

end Queue

/-! ## Sessions -/

/-- A queue and the dictionary that it works for. -/
structure Session where
  queue : Queue
  dictionary : Dictionary

/-- What happens in a session: `count` is the answer of an operation, and `written` are the values
that it writes into derived locales. -/
inductive Event where
  | record (text : Text)
  | dispatch (count : Nat) (written : List Entry)
  | finish (count : Nat) (written : List Entry)
  deriving DecidableEq, Repr

/-- The values that an event writes into derived locales. -/
def Event.written : Event → List Entry
  | .record _ => []
  | .dispatch _ written => written
  | .finish _ written => written

namespace Session

/-- One operation on a session. -/
inductive Step : Session → Event → Session → Prop
  | record (q : Queue) (d : Dictionary) (text : Text) :
      Step ⟨q, d⟩ (.record text) ⟨q, d.record text⟩
  | dispatch (q : Queue) (d : Dictionary) :
      Step ⟨q, d⟩ (.dispatch (q.dispatch d).1 (q.conversions d.pending))
        ⟨(q.dispatch d).2.1, (q.dispatch d).2.2⟩
  | finish (q : Queue) (d : Dictionary) (calls : Nat) (es : List Entry) :
      Joins q.client q.started es →
      Step ⟨q, d⟩ (.finish es.length es) ⟨{ q with started := [], calls := calls }, d.enterAll es⟩

/-- A run of operations; the events are listed in the order in which they happened. -/
inductive Runs (start : Session) : List Event → Session → Prop
  | start : Runs start [] start
  | step {history : List Event} {s t : Session} {e : Event} :
      Runs start history s → Step s e t → Runs start (history ++ [e]) t

/-- The values written for derived locales in the course of a run. -/
def written (history : List Event) : List Entry := history.flatMap Event.written

/-- A finish of the library is one of the finishes of a session. -/
theorem step_finish (s : Session) :
    ∃ es, Step s (.finish (s.queue.finish s.dictionary).1 es)
      ⟨(s.queue.finish s.dictionary).2.1, (s.queue.finish s.dictionary).2.2⟩ := by
  obtain ⟨q, d⟩ := s
  obtain ⟨es, hj, hn, hd⟩ := Queue.foldl_finishOne q.client q.started 0 q.calls d
  refine ⟨es, ?_⟩
  have h := Step.finish q d (q.started.foldl (Queue.finishOne q.client) (0, q.calls, d)).2.1 es hj
  rw [Nat.zero_add] at hn
  rw [← hn, ← hd] at h
  exact h

end Session

end Phrasebook
