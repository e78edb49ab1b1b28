import Phrasebook.Service.CharTable
import Phrasebook.Service.Client

/-!
The queue takes the waiting texts of a dictionary. Values of script variants are converted on the
spot; requests are started and wait until the queue is finished, which is the only point where
they are written back, in the order in which they were started.
-/

namespace Phrasebook

/-- Started requests, with what it takes to finish them. -/
structure Queue where
  client : Client
  converter : Option CharTable
  /-- How many requests may be under way at once. -/
  permits : Nat
  /-- Started and not yet written back. -/
  started : List Pending
  /-- Calls made to the provider so far. -/
  calls : Nat

namespace Queue

/-- The most permits that a queue can hand out: a machine word without its three highest bits. -/
def maxPermits : Nat := 0x1FFFFFFFFFFFFFFF

/-- A queue without tasks. No concurrency counts as one; more permits than can be handed out give
no queue. -/
def new? (client : Client) (concurrency : Nat) : Option Queue :=
  let permits := max concurrency 1
  if permits ≤ maxPermits then some ⟨client, none, permits, [], 0⟩ else none

/-- The queue with a converter for script variants. -/
def convertingWith (q : Queue) (t : CharTable) : Queue := { q with converter := some t }

/-- The number of requests that are started and not yet written back. -/
def unfinished (q : Queue) : Nat := q.started.length

/-- The value of a text in a script variant; without a converter it is the text itself. -/
def convert (q : Queue) (text : Text) : Text :=
  match q.converter with
  | some t => t.convert text
  | none => text

/-- Handles one waiting text; the number counts the requests started so far. -/
def take (state : Nat × Queue × Dictionary) (p : Pending) : Nat × Queue × Dictionary :=
  let (count, q, d) := state
  match p.target.kind with
  | .scriptVariant => (count, q, d.enterValue p.text p.target.code (q.convert p.text))
  | .translated => (count + 1, { q with started := q.started ++ [p] }, d)

/-- Takes all waiting texts of a dictionary and tells how many requests it started. -/
def dispatch (q : Queue) (d : Dictionary) : Nat × Queue × Dictionary :=
  let (pending, d) := d.drain
  pending.foldl take (0, q, d)

/-- Finishes one started request. The state are the values written back so far, the calls made so
far and the dictionary. -/
def finishOne (client : Client) (state : Nat × Nat × Dictionary) (p : Pending) :
    Nat × Nat × Dictionary :=
  let (count, calls, d) := state
  let (value, calls) := client.translate p calls
  (count + 1, calls, d.enterValue p.text p.target.code value)

/-- Finishes all started requests, writes their values back and tells how many there were. -/
def finish (q : Queue) (d : Dictionary) : Nat × Queue × Dictionary :=
  let (count, calls, d) := q.started.foldl (finishOne q.client) (0, q.calls, d)
  (count, { q with started := [], calls := calls }, d)

/-- The queue in a diagnostic. -/
def describe (q : Queue) : Text :=
  "TranslationQueue \x7b client: ".toList ++ q.client.describe ++ ", has_converter: ".toList ++
    (if q.converter.isSome then "true" else "false").toList ++ ", in_flight: ".toList ++
    (toString q.unfinished).toList ++ " \x7d".toList

end Queue

end Phrasebook
