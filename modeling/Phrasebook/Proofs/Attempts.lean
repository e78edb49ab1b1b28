import Phrasebook.Proofs.Session

/-!
The attempts of a request, and which answers of the provider they use up.

A request may use up a number of answers: the limit of the client, less the attempts that were made
before. It takes the first value among them, or ends with the empty text when all of them are failures,
and it uses up the answers up to there and no others (`Spends`):

    firstSuccess answer budget calls = (value, next) ↔ Spends answer budget calls value next
                                                                            (firstSuccess_eq_iff)

Counting the attempts upwards in machine words, as long as they are below the limit, comes to the same
(`countUp_eq`): the count never wraps, because it stops at the limit. A finish lets the requests follow
each other, so each of them starts with the answer behind the last one of the request before it
(`TakeInTurn`).
-/

namespace Phrasebook

namespace Client

/-! ## One request -/

/-- What a row of attempts comes to: it starts behind `calls` answers, uses up at most `budget` more,
and ends with a value behind `next` answers. -/
inductive Spends (answer : Nat → Except Failure Text) (budget calls : Nat) : Text → Nat → Prop
  | success {k : Nat} {value : Text} : k < budget → (∀ j < k, ∃ e, answer (calls + j) = .error e) →
      answer (calls + k) = .ok value → Spends answer budget calls value (calls + k + 1)
  | exhausted : (∀ j < budget, ∃ e, answer (calls + j) = .error e) →
      Spends answer budget calls [] (calls + budget)

section
variable {answer : Nat → Except Failure Text} {budget calls next : Nat} {value : Text}

/-- A failure in front leaves one attempt less. -/
theorem Spends.failure {e : Failure} (he : answer calls = .error e)
    (h : Spends answer budget (calls + 1) value next) : Spends answer (budget + 1) calls value next := by
  have hfirst : ∀ n, (∀ j < n, ∃ e, answer (calls + 1 + j) = .error e) →
      ∀ j < n + 1, ∃ e, answer (calls + j) = .error e := by
    intro n hfail j hj
    cases j with
    | zero => exact ⟨e, he⟩
    | succ j =>
      obtain ⟨e', he'⟩ := hfail j (by omega)
      exact ⟨e', by rw [← he']; congr 1; omega⟩
  cases h with
  | @success k _ hk hfail hvalue =>
    have hat : answer (calls + (k + 1)) = .ok value := by rw [← hvalue]; congr 1; omega
    have hleft : k + 1 < budget + 1 := by omega
    have h := Spends.success hleft (hfirst k hfail) hat
    rwa [show calls + (k + 1) + 1 = calls + 1 + k + 1 by omega] at h
  | exhausted hfail =>
    have h := Spends.exhausted (hfirst budget hfail)
    rwa [show calls + (budget + 1) = calls + 1 + budget by omega] at h

theorem spends_firstSuccess (answer : Nat → Except Failure Text) (budget calls : Nat) :
    Spends answer budget calls (firstSuccess answer budget calls).1
      (firstSuccess answer budget calls).2 := by
  induction budget generalizing calls with
  | zero => exact .exhausted fun j hj => absurd hj (Nat.not_lt_zero j)
  | succ budget ih =>
    unfold firstSuccess
    cases h : answer calls with
    | ok value => exact .success (Nat.succ_pos budget) (fun j hj => absurd hj (Nat.not_lt_zero j)) h
    | error e => exact .failure h (ih (calls + 1))

/-- The answers leave only one way to spend them. -/
theorem Spends.unique {value' : Text} {next' : Nat} (h : Spends answer budget calls value next)
    (h' : Spends answer budget calls value' next') : value = value' ∧ next = next' := by
  have hne : ∀ {n : Nat} {v : Text}, answer n = .ok v → (∃ e, answer n = .error e) → False := by
    rintro n v hv ⟨e, he⟩
    rw [hv] at he
    cases he
  cases h with
  | @success k _ hk hfail hvalue =>
    cases h' with
    | @success k' _ hk' hfail' hvalue' =>
      -- of two successes the earlier one would be a failure in front of the later one
      obtain hlt | rfl | hgt := Nat.lt_trichotomy k k'
      · exact absurd (hfail' k hlt) (hne hvalue)
      · rw [hvalue] at hvalue'
        exact ⟨Except.ok.inj hvalue', rfl⟩
      · exact absurd (hfail k' hgt) (hne hvalue')
    | exhausted hfail' => exact absurd (hfail' k hk) (hne hvalue)
  | exhausted hfail =>
    cases h' with
    | success hk' _ hvalue' => exact absurd (hfail _ hk') (hne hvalue')
    | exhausted _ => exact ⟨rfl, rfl⟩

theorem firstSuccess_eq_iff :
    firstSuccess answer budget calls = (value, next) ↔ Spends answer budget calls value next := by
  have hspends := spends_firstSuccess answer budget calls
  constructor
  · intro h
    rwa [h] at hspends
  · intro h
    obtain ⟨hvalue, hnext⟩ := hspends.unique h
    exact Prod.ext hvalue hnext

end

/-- Attempts counted upwards in 32 bits, from those that were made before and as long as they are below
the limit. -/
def countUp (answer : Nat → Except Failure Text) (limit attempt : UInt32) (calls : Nat) : Text × Nat :=
  if attempt < limit then
    match answer calls with
    | .ok value => (value, calls + 1)
    | .error _ => countUp answer limit (attempt + 1) (calls + 1)
  else ([], calls)
termination_by limit.toNat - attempt.toNat
decreasing_by
  have hlt : attempt.toNat < limit.toNat := ‹attempt < limit›
  have hlimit := limit.toNat_lt
  rw [UInt32.toNat_add, UInt32.toNat_one]
  omega

theorem countUp_eq (answer : Nat → Except Failure Text) (limit attempt : UInt32) (calls : Nat) :
    countUp answer limit attempt calls =
      firstSuccess answer (limit.toNat - attempt.toNat) calls := by
  fun_induction countUp answer limit attempt calls with
  | case1 attempt calls hlt value hvalue =>
    have hlt : attempt.toNat < limit.toNat := hlt
    rw [show limit.toNat - attempt.toNat = limit.toNat - attempt.toNat - 1 + 1 by omega, firstSuccess,
      hvalue]
  | case2 attempt calls hlt e he ih =>
    have hlt : attempt.toNat < limit.toNat := hlt
    have hlimit := limit.toNat_lt
    have hnext : (attempt + 1).toNat = attempt.toNat + 1 := by
      rw [UInt32.toNat_add, UInt32.toNat_one]
      omega
    rw [ih, hnext, show limit.toNat - attempt.toNat = limit.toNat - (attempt.toNat + 1) + 1 by omega,
      firstSuccess, he]
  | case3 attempt calls hge =>
    have hge : ¬ attempt.toNat < limit.toNat := hge
    rw [show limit.toNat - attempt.toNat = 0 by omega, firstSuccess]

/-! ## Requests one after the other -/

/-- The answers that a provider has for a waiting text. -/
def answersTo (c : Client) (p : Pending) (n : Nat) : Except Failure Text :=
  c.provider.answer n p.text c.source p.target.code

/-- The requests share the answers of the provider in turn: each one starts behind the last answer of
the one before it. -/
inductive TakeInTurn (c : Client) : List Pending → Nat → List Entry → Nat → Prop
  | done (calls : Nat) : TakeInTurn c [] calls [] calls
  | next {p : Pending} {ps : List Pending} {calls mid last : Nat} {value : Text} {es : List Entry} :
      Spends (c.answersTo p) (c.maxAttempts - p.attempts) calls value mid →
      TakeInTurn c ps mid es last → TakeInTurn c (p :: ps) calls (p.entry value :: es) last

end Client

namespace Queue

/-- Finishing requests in a row lets them take the answers in turn. -/
theorem foldl_finishOne_eq (c : Client) (ps : List Pending) (n calls : Nat) (d : Dictionary) :
    ∃ es last, c.TakeInTurn ps calls es last ∧
      ps.foldl (finishOne c) (n, calls, d) = (n + es.length, last, d.enterAll es) := by
  induction ps generalizing n calls d with
  | nil => exact ⟨[], calls, .done calls, rfl⟩
  | cons p ps ih =>
    have hspends := Client.spends_firstSuccess (c.answersTo p) (c.maxAttempts - p.attempts) calls
    obtain ⟨es, last, hturn, heq⟩ := ih (n + 1) (c.translate p calls).2
      (d.enterValue p.text p.target.code (c.translate p calls).1)
    refine ⟨p.entry (c.translate p calls).1 :: es, last, .next hspends hturn, ?_⟩
    have hone : finishOne c (n, calls, d) p = (n + 1, (c.translate p calls).2,
        d.enterValue p.text p.target.code (c.translate p calls).1) := rfl
    rw [List.foldl_cons, hone, heq, List.length_cons, show n + 1 + es.length = n + (es.length + 1) by omega]
    rfl

end Queue

namespace Client

/-- What the attempts of a request use up. Whatever limit a client is given and however many attempts
were made before, both of them numbers of 32 bits: the request ends with the first value among the
answers that are left to it and has used up the answers up to this one, or it ends with the empty text
and has used up all of them; the attempts may as well be counted upwards in 32 bits. When a queue
takes the waiting texts of a dictionary and is finished, the requests take the answers in turn, in the
order in which they were started. -/
theorem attempts_spend_budget (c : Client) (limit attempts : UInt32) (text : Text) (target : Target)
    (calls : Nat) :
    let p : Pending := { text := text, target := target, attempts := attempts.toNat }
    (∀ value next, (c.attemptingAtMost limit.toNat).translate p calls = (value, next) ↔
      Spends (c.answersTo p) (max limit.toNat 1 - attempts.toNat) calls value next) ∧
    (c.attemptingAtMost limit.toNat).translate p calls =
      countUp (c.answersTo p) (max limit 1) attempts calls ∧
    ∀ (q : Queue) (d : Dictionary), ∃ es last,
      q.client.TakeInTurn (q.started ++ Queue.requests d.pending) q.calls es last ∧
      (q.dispatch d).2.1.finish (q.dispatch d).2.2 =
        (es.length, { q with started := [], calls := last }, (q.dispatch d).2.2.enterAll es) := by
  intro p
  refine ⟨fun value next => firstSuccess_eq_iff, ?_, fun q d => ?_⟩
  · have hlimit : (max limit 1).toNat = max limit.toNat 1 := by
      rw [Nat.max_def, show max limit 1 = if limit ≤ 1 then 1 else limit from rfl,
        apply_ite UInt32.toNat]
      rfl
    rw [countUp_eq, hlimit]
    rfl
  · obtain ⟨es, last, hturn, heq⟩ := Queue.foldl_finishOne_eq q.client
      (q.started ++ Queue.requests d.pending) 0 q.calls (q.dispatch d).2.2
    refine ⟨es, last, hturn, ?_⟩
    rw [Nat.zero_add] at heq
    unfold Queue.finish
    rw [Queue.dispatch_eq] at heq ⊢
    dsimp only at heq ⊢
    rw [heq]

end Client

end Phrasebook
