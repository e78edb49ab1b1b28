import Phrasebook.Script.Parse

/-!
The leaves of a syntax tree. They are parts of its source (`leavesAre_isInfix`), and what holds of all
tokens that a grammar can read holds of all leaves of a parsed script (`leavesAre_of_parse`), as of its
escape sequences (`escapes_of_parse`).
-/

namespace Phrasebook.Script

namespace Tree

mutual

/-- All leaves of a tree satisfy `P`. -/
def LeavesAre (P : Kind → Text → Prop) : Tree → Prop
  | .leaf _ kind _ text => P kind text
  | .node _ _ children => LeavesAreAll P children

def LeavesAreAll (P : Kind → Text → Prop) : List Tree → Prop
  | [] => True
  | t :: ts => LeavesAre P t ∧ LeavesAreAll P ts

end

theorem leavesAreAll_iff {P : Kind → Text → Prop} {ts : List Tree} :
    LeavesAreAll P ts ↔ ∀ t ∈ ts, LeavesAre P t := by
  induction ts with
  | nil => simp [LeavesAreAll]
  | cons t ts ih => simp [LeavesAreAll, ih]

theorem leavesAre_withRole {P : Kind → Text → Prop} {role : Role} {t : Tree} :
    (t.withRole role).LeavesAre P ↔ t.LeavesAre P := by
  cases t <;> simp [withRole, LeavesAre]

mutual

/-- The leaves of a tree are parts of every text that its source is a part of. -/
theorem leavesAre_isInfix {s : Text} :
    ∀ t : Tree, t.source <:+: s → t.LeavesAre fun _ text => text <:+: s
  | .leaf _ _ gap text, h => by
    rw [source] at h
    exact (List.suffix_append _ _).isInfix.trans h
  | .node _ _ children, h => leavesAreAll_isInfix children h

theorem leavesAreAll_isInfix {s : Text} :
    ∀ ts : List Tree, sourceAll ts <:+: s → LeavesAreAll (fun _ text => text <:+: s) ts
  | [], _ => trivial
  | t :: ts, h => by
    rw [sourceAll] at h
    exact ⟨leavesAre_isInfix t ((List.prefix_append _ _).isInfix.trans h),
      leavesAreAll_isInfix ts ((List.suffix_append _ _).isInfix.trans h)⟩

end

end Tree

namespace Form

variable {ρ : Type} {P : Kind → Text → Prop}

/-- All tokens that a form reads satisfy `P`, apart from those of the rules it refers to. -/
def TokensAre (P : Kind → Text → Prop) : Form ρ → Prop
  | .token _ kind lexeme => ∀ t n, lexeme t = some n → P kind (t.take n)
  | .joined kind lexeme => ∀ t n, lexeme t = some n → P kind (t.take n)
  | .both f g => TokensAre P f ∧ TokensAre P g
  | .either f g => TokensAre P f ∧ TokensAre P g
  | .many f => TokensAre P f
  | .node _ f => TokensAre P f
  | .extend _ _ _ f => TokensAre P f
  | .label _ f => TokensAre P f
  | _ => True

/-- A state whose trees have such leaves only. -/
def LeavesAre (P : Kind → Text → Prop) (s : Progress) : Prop := ∀ t ∈ s.done, t.LeavesAre P

theorem LeavesAre.cons {t : Tree} {ts : List Tree} {rest : Text} (ht : t.LeavesAre P)
    (h : ∀ u ∈ ts, u.LeavesAre P) : LeavesAre P ⟨t :: ts, rest⟩ :=
  List.forall_mem_cons.2 ⟨ht, h⟩

theorem LeavesAre.node {s : Progress} {role : Role} {kind : Kind} (h : LeavesAre P s) :
    (Tree.node role kind s.done.reverse).LeavesAre P := by
  rw [Tree.LeavesAre, Tree.leavesAreAll_iff]
  intro t ht
  exact h t (List.mem_reverse.1 ht)

theorem readToken_leavesAre {kind : Kind} {lexeme : Lexeme} {gap : Gap} {rest : Text}
    {s q : Progress} (hp : ∀ t n, lexeme t = some n → P kind (t.take n))
    (h : readToken kind lexeme gap rest s.done = some q) (hs : LeavesAre P s) : LeavesAre P q := by
  obtain ⟨n, hn, rfl⟩ := Option.map_eq_some_iff.1 h
  refine LeavesAre.cons ?_ hs
  rw [Tree.LeavesAre]
  exact hp rest n hn

theorem repeatStep_leavesAre {step : Progress → Option Progress}
    (hstep : ∀ s q, step s = some q → LeavesAre P s → LeavesAre P q) (fuel : Nat) (s : Progress)
    (hs : LeavesAre P s) : LeavesAre P (repeatStep step fuel s) := by
  induction fuel generalizing s with
  | zero => exact hs
  | succ fuel ih =>
    unfold repeatStep
    split
    · exact hs
    · next q hq =>
      split
      · exact ih q (hstep s q hq hs)
      · exact hs

theorem relabel_leavesAre {role : Role} {s : Progress} (hs : LeavesAre P s) :
    LeavesAre P (relabel role s) := by
  unfold relabel
  split
  · exact hs
  · next t ts hd =>
    have hall := hs
    rw [LeavesAre, hd] at hall
    obtain ⟨ht, hts⟩ := List.forall_mem_cons.1 hall
    exact LeavesAre.cons (Tree.leavesAre_withRole.2 ht) hts

/-- A run of a form adds leaves that satisfy what all its tokens satisfy. -/
theorem run_leavesAre {call : ρ → Progress → Option Progress}
    (hc : ∀ r s q, call r s = some q → LeavesAre P s → LeavesAre P q) (f : Form ρ)
    (hf : f.TokensAre P) (s q : Progress) (h : run call f s = some q) (hs : LeavesAre P s) :
    LeavesAre P q := by
  induction f generalizing s q with
  | nothing =>
    cases h
    exact hs
  | token markup kind lexeme =>
    have ht : readToken kind lexeme (readGap markup s.rest).1 (readGap markup s.rest).2 s.done =
        some q := h
    exact readToken_leavesAre hf ht hs
  | joined kind lexeme => exact readToken_leavesAre hf h hs
  | check test =>
    simp only [run] at h
    split at h
    · cases h
      exact hs
    · cases h
  | both f g ihf ihg =>
    obtain ⟨m, hm, hq⟩ := Option.bind_eq_some_iff.1 h
    exact ihg hf.2 m q hq (ihf hf.1 s m hm hs)
  | either f g ihf ihg =>
    simp only [run] at h
    split at h
    · next m hm => exact ihf hf.1 s q (h ▸ hm) hs
    · exact ihg hf.2 s q h hs
  | many f ihf =>
    cases h
    exact repeatStep_leavesAre (ihf hf) _ s hs
  | node kind f ihf =>
    obtain ⟨m, hm, rfl⟩ := Option.map_eq_some_iff.1 h
    have hnil : LeavesAre P ⟨[], s.rest⟩ := fun t ht => absurd ht List.not_mem_nil
    exact LeavesAre.cons (ihf hf _ m hm hnil).node hs
  | extend accepts role kind f ihf =>
    simp only [run] at h
    split at h
    · cases h
    · next t ts hd =>
      have hall := hs
      rw [LeavesAre, hd] at hall
      obtain ⟨ht, hts⟩ := List.forall_mem_cons.1 hall
      split at h
      · obtain ⟨m, hm, rfl⟩ := Option.map_eq_some_iff.1 h
        have hone : LeavesAre P ⟨[t.withRole role], s.rest⟩ :=
          LeavesAre.cons (Tree.leavesAre_withRole.2 ht) fun u hu => absurd hu List.not_mem_nil
        exact LeavesAre.cons (ihf hf _ m hm hone).node hts
      · cases h
  | label role f ihf =>
    obtain ⟨m, hm, rfl⟩ := Option.map_eq_some_iff.1 h
    exact relabel_leavesAre (ihf hf s m hm hs)
  | rule r => exact hc r s q h hs

end Form

theorem readRule_leavesAre {ρ : Type} {P : Kind → Text → Prop} {grammar : ρ → Form ρ}
    (hg : ∀ r, (grammar r).TokensAre P) (fuel : Nat) (r : ρ) (s q : Progress)
    (h : readRule grammar fuel r s = some q) (hs : Form.LeavesAre P s) : Form.LeavesAre P q := by
  induction fuel generalizing r s q with
  | zero => cases h
  | succ fuel ih => exact Form.run_leavesAre ih (grammar r) (hg r) s q h hs

/-- What holds of every token of the grammar holds of every leaf of a parsed script. -/
theorem leavesAre_of_parse {P : Kind → Text → Prop} (hg : ∀ r, (Grammar.rules r).TokensAre P)
    (hs : (Form.both statements endOfScript).TokensAre P) {t : Text} {tree : Tree}
    (h : parse t = .ok tree) : tree.LeavesAre P := by
  unfold parse at h
  split at h
  · next q hq =>
    dsimp only at h
    split at h
    · cases h
      refine Form.LeavesAre.node ?_
      refine Form.run_leavesAre (readRule_leavesAre hg (depthFor t)) _ hs _ q hq ?_
      exact fun t ht => absurd ht List.not_mem_nil
    · cases h
  · cases h

/-! ## Escape sequences -/

theorem escapes_of_ne {Q : Text → Prop} {kind : Kind} (hk : kind ≠ .escape) (lexeme : Lexeme) (t : Text)
    (n : Nat) (_ : lexeme t = some n) : kind = .escape → Q (t.take n) :=
  fun h => absurd h hk

/-- Every token of the grammar that is an escape sequence is read by `escapeSequence`. -/
theorem rules_read_escapes {Q : Text → Prop} (hQ : ∀ t n, escapeSequence t = some n → Q (t.take n))
    (r : Rule) : (Grammar.rules r).TokensAre fun kind text => kind = .escape → Q text := by
  have hescape : ∀ t n, escapeSequence t = some n → Kind.escape = .escape → Q (t.take n) :=
    fun t n h _ => hQ t n h
  cases r <;>
    repeat' first
      | exact trivial
      | exact escapes_of_ne (by decide) _
      | exact hescape
      | apply And.intro

/-- What holds of all that `escapeSequence` reads holds of the escape sequences of a parsed script. -/
theorem escapes_of_parse {Q : Text → Prop} (hQ : ∀ t n, escapeSequence t = some n → Q (t.take n))
    {t : Text} {tree : Tree} (h : parse t = .ok tree) :
    tree.LeavesAre fun kind text => kind = .escape → Q text := by
  refine leavesAre_of_parse (rules_read_escapes hQ) ⟨⟨⟨?_, trivial⟩, trivial⟩, ?_⟩ h
  · exact escapes_of_ne (by decide) _
  · exact escapes_of_ne (by decide) _

end Phrasebook.Script
