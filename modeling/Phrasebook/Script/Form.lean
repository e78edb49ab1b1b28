import Phrasebook.Script.Lexeme
import Phrasebook.Script.Tree

/-!
Forms: a grammar as data. A form describes what may be written at a place of a script, and `Form.run`
reads it. The state of a run are the trees read so far for the node under construction and the text
that is left. A form may look at both, so the same text can be read differently by what stands
before it.

Main statement: no form loses or invents a character (`run_conserves`): the source of the trees
followed by the text that is left stays the same. It is proved once, for every grammar.
-/

namespace Phrasebook.Script

/-- The state of a run. -/
structure Progress where
  /-- Trees of the node under construction, the last one first. -/
  done : List Tree
  rest : Text

namespace Progress

/-- All characters that a state accounts for, read and unread. -/
def source (p : Progress) : Text := Tree.sourceAll p.done.reverse ++ p.rest

end Progress

/-- What may be written at a place; `ρ` names the rules that forms refer to. -/
inductive Form (ρ : Type) where
  /-- Nothing. -/
  | nothing
  /-- A token after a gap; `markup` says whether the gap may hold markup comments. -/
  | token (markup : Bool) (kind : Kind) (lexeme : Lexeme)
  /-- A token that follows the one before it directly. -/
  | joined (kind : Kind) (lexeme : Lexeme)
  /-- A condition on the trees read so far and on what follows. -/
  | check (test : List Tree → Text → Bool)
  | both (first second : Form ρ)
  /-- The first form if it can be read, else the second. -/
  | either (first second : Form ρ)
  /-- The body as often as it can be read. -/
  | many (body : Form ρ)
  /-- A node of its own. -/
  | node (kind : Kind) (body : Form ρ)
  /-- A node whose first child is the last tree read, if that tree is accepted. -/
  | extend (accepts : Tree → Bool) (role : Role) (kind : Kind) (body : Form ρ)
  /-- Gives the tree that the body reads a role. -/
  | label (role : Role) (body : Form ρ)
  | rule (r : ρ)

namespace Form

variable {ρ : Type}

/-- Forms one after the other. -/
def seq : List (Form ρ) → Form ρ
  | [] => .nothing
  | [f] => f
  | f :: fs => .both f (seq fs)

/-- The first form of a list that can be read. -/
def any : List (Form ρ) → Form ρ
  | [] => .check fun _ _ => false
  | [f] => f
  | f :: fs => .either f (any fs)

/-- A form that may be left out. -/
def opt (f : Form ρ) : Form ρ := .either f .nothing

/-- A form, and then any number of times the separator and the form again. -/
def separated (separator f : Form ρ) : Form ρ := .both f (.many (.both separator f))

/-- Reads a token of the given gap. -/
def readToken (kind : Kind) (lexeme : Lexeme) (gap : Gap) (rest : Text) (done : List Tree) :
    Option Progress :=
  (lexeme rest).map fun n => ⟨.leaf .part kind gap (rest.take n) :: done, rest.drop n⟩

/-- Repeats a step at most `fuel` times, as long as it takes characters. -/
def repeatStep (step : Progress → Option Progress) : Nat → Progress → Progress
  | 0, p => p
  | fuel + 1, p =>
    match step p with
    | none => p
    | some q => if q.rest.length < p.rest.length then repeatStep step fuel q else p

/-- Gives the last tree read a role. -/
def relabel (role : Role) (p : Progress) : Progress :=
  match p.done with
  | [] => p
  | t :: ts => { p with done := t.withRole role :: ts }

/-- Reads a form; `call` reads the rules that it refers to. -/
def run (call : ρ → Progress → Option Progress) : Form ρ → Progress → Option Progress
  | .nothing, p => some p
  | .token markup kind lexeme, p =>
    let (gap, rest) := readGap markup p.rest
    readToken kind lexeme gap rest p.done
  | .joined kind lexeme, p => readToken kind lexeme [] p.rest p.done
  | .check test, p => if test p.done p.rest then some p else none
  | .both f g, p => (run call f p).bind (run call g)
  | .either f g, p =>
    match run call f p with
    | some q => some q
    | none => run call g p
  | .many f, p => some (repeatStep (run call f) p.rest.length p)
  | .node kind f, p =>
    (run call f ⟨[], p.rest⟩).map fun q => ⟨.node .part kind q.done.reverse :: p.done, q.rest⟩
  | .extend accepts role kind f, p =>
    match p.done with
    | [] => none
    | t :: ts =>
      if accepts t then
        (run call f ⟨[t.withRole role], p.rest⟩).map fun q =>
          ⟨.node .part kind q.done.reverse :: ts, q.rest⟩
      else none
  | .label role f, p => (run call f p).map (relabel role)
  | .rule r, p => call r p

/-! ## Nothing is lost -/

theorem readToken_conserves {kind : Kind} {lexeme : Lexeme} {gap : Gap} {rest : Text}
    {done : List Tree} {q : Progress} (h : readToken kind lexeme gap rest done = some q) :
    q.source = Tree.sourceAll done.reverse ++ (gapText gap ++ rest) := by
  obtain ⟨n, _, rfl⟩ := Option.map_eq_some_iff.1 h
  simp [Progress.source, Tree.sourceAll_append, Tree.sourceAll, Tree.source]

theorem repeatStep_conserves {step : Progress → Option Progress}
    (hs : ∀ p q, step p = some q → q.source = p.source) (fuel : Nat) (p : Progress) :
    (repeatStep step fuel p).source = p.source := by
  induction fuel generalizing p with
  | zero => rfl
  | succ fuel ih =>
    unfold repeatStep
    split
    · rfl
    · next q hq =>
      split
      · rw [ih q, hs p q hq]
      · rfl

theorem relabel_source (role : Role) (p : Progress) : (relabel role p).source = p.source := by
  unfold relabel
  split
  · rfl
  · next h => simp [Progress.source, h, Tree.sourceAll_append, Tree.sourceAll]

/-- If the rules conserve the source, so does every form that refers to them. -/
theorem run_conserves {call : ρ → Progress → Option Progress}
    (hc : ∀ r p q, call r p = some q → q.source = p.source) (f : Form ρ) (p q : Progress)
    (h : run call f p = some q) : q.source = p.source := by
  induction f generalizing p q with
  | nothing => cases h; rfl
  | token markup kind lexeme =>
    have ht : readToken kind lexeme (readGap markup p.rest).1 (readGap markup p.rest).2 p.done =
        some q := h
    rw [readToken_conserves ht, readGap_source, Progress.source]
  | joined kind lexeme =>
    rw [readToken_conserves h]
    simp [Progress.source, gapText]
  | check test =>
    simp only [run] at h
    split at h
    · cases h; rfl
    · cases h
  | both f g hf hg =>
    obtain ⟨m, hm, hq⟩ := Option.bind_eq_some_iff.1 h
    rw [hg m q hq, hf p m hm]
  | either f g hf hg =>
    simp only [run] at h
    split at h
    · next m hm => exact hf p q (h ▸ hm)
    · exact hg p q h
  | many f hf =>
    cases h
    exact repeatStep_conserves hf _ _
  | node kind f hf =>
    obtain ⟨m, hm, rfl⟩ := Option.map_eq_some_iff.1 h
    have := hf _ m hm
    simp only [Progress.source, Tree.sourceAll, List.reverse_nil, List.nil_append] at this
    simp [Progress.source, Tree.sourceAll_append, Tree.sourceAll, Tree.source, this]
  | extend accepts role kind f hf =>
    simp only [run] at h
    split at h
    · cases h
    · next t ts hd =>
      split at h
      · obtain ⟨m, hm, rfl⟩ := Option.map_eq_some_iff.1 h
        have := hf _ m hm
        simp only [Progress.source, Tree.sourceAll, List.reverse_singleton, List.append_nil,
          Tree.source_withRole] at this
        simp [Progress.source, hd, Tree.sourceAll_append, Tree.sourceAll, Tree.source, this]
      · cases h
  | label role f hf =>
    obtain ⟨m, hm, rfl⟩ := Option.map_eq_some_iff.1 h
    rw [relabel_source, hf p m hm]
  | rule r => exact hc r p q h

end Form

/-- Reads a rule of a grammar; `fuel` bounds how deep rules may refer to each other. -/
def readRule {ρ : Type} (grammar : ρ → Form ρ) : Nat → ρ → Progress → Option Progress
  | 0, _, _ => none
  | fuel + 1, r, p => (grammar r).run (readRule grammar fuel) p

/-- Reading a rule loses nothing. -/
theorem readRule_conserves {ρ : Type} (grammar : ρ → Form ρ) (fuel : Nat) (r : ρ)
    (p q : Progress) (h : readRule grammar fuel r p = some q) : q.source = p.source := by
  induction fuel generalizing r p q with
  | zero => cases h
  | succ fuel ih => exact Form.run_conserves ih (grammar r) p q h

end Phrasebook.Script
