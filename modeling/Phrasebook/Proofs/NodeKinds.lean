import Phrasebook.Script.Parse

/-!
The kinds of nodes in a syntax tree. Which kinds of nodes a form can build is read off the form; a run
of it adds nodes of these kinds only (`run_nodesAre`). So what holds of every node kind in the grammar
holds of every node in a parsed script (`nodesAre_of_parse`).

The kind that matters to localizing is `identifier`: no form builds a node of it, so in a parsed
script a callee of this kind is a single token.
-/

namespace Phrasebook.Script

namespace Tree

mutual

/-- Whether all nodes of a tree are of kinds that satisfy `p`. -/
def nodesAre (p : Kind → Bool) : Tree → Bool
  | .leaf .. => true
  | .node _ kind children => p kind && nodesAreAll p children

/-- The same for a row of trees. -/
def nodesAreAll (p : Kind → Bool) : List Tree → Bool
  | [] => true
  | t :: ts => nodesAre p t && nodesAreAll p ts

end

theorem nodesAreAll_iff {p : Kind → Bool} {ts : List Tree} :
    nodesAreAll p ts = true ↔ ∀ t ∈ ts, nodesAre p t = true := by
  induction ts with
  | nil => simp [nodesAreAll]
  | cons t ts ih => simp [nodesAreAll, ih]

@[simp] theorem nodesAre_withRole (p : Kind → Bool) (role : Role) (t : Tree) :
    (t.withRole role).nodesAre p = t.nodesAre p := by
  cases t <;> simp [withRole, nodesAre]

end Tree

namespace Form

variable {ρ : Type}

/-- Whether a form builds nodes of kinds that satisfy `p` only, apart from the rules it refers to. -/
def builds (p : Kind → Bool) : Form ρ → Bool
  | .both f g => builds p f && builds p g
  | .either f g => builds p f && builds p g
  | .many f => builds p f
  | .node kind f => p kind && builds p f
  | .extend _ _ kind f => p kind && builds p f
  | .label _ f => builds p f
  | _ => true

/-- A state whose trees hold only nodes of such kinds. -/
def NodesAre (p : Kind → Bool) (s : Progress) : Prop := ∀ t ∈ s.done, t.nodesAre p = true

theorem NodesAre.cons {p : Kind → Bool} {t : Tree} {ts : List Tree} {rest : Text}
    (ht : t.nodesAre p = true) (h : ∀ u ∈ ts, u.nodesAre p = true) :
    NodesAre p ⟨t :: ts, rest⟩ := by
  intro s hs
  rcases List.mem_cons.1 hs with rfl | hs
  · exact ht
  · exact h s hs

theorem NodesAre.node {p : Kind → Bool} {s : Progress} {role : Role} {kind : Kind}
    (hk : p kind = true) (h : NodesAre p s) :
    (Tree.node role kind s.done.reverse).nodesAre p = true := by
  rw [Tree.nodesAre, hk, Bool.true_and, Tree.nodesAreAll_iff]
  intro t ht
  exact h t (List.mem_reverse.1 ht)

theorem readToken_nodesAre {p : Kind → Bool} {kind : Kind} {lexeme : Lexeme} {gap : Gap}
    {rest : Text} {s q : Progress} (h : readToken kind lexeme gap rest s.done = some q)
    (hs : NodesAre p s) : NodesAre p q := by
  obtain ⟨n, -, rfl⟩ := Option.map_eq_some_iff.1 h
  exact NodesAre.cons (by rw [Tree.nodesAre]) hs

theorem repeatStep_nodesAre {p : Kind → Bool} {step : Progress → Option Progress}
    (hstep : ∀ s q, step s = some q → NodesAre p s → NodesAre p q) (fuel : Nat) (s : Progress)
    (hs : NodesAre p s) : NodesAre p (repeatStep step fuel s) := by
  induction fuel generalizing s with
  | zero => exact hs
  | succ fuel ih =>
    unfold repeatStep
    split
    · exact hs
    · next q hq =>
      split
      · exact ih q (hstep s q hq hs)
      · exact hs

theorem relabel_nodesAre {p : Kind → Bool} {role : Role} {s : Progress} (hs : NodesAre p s) :
    NodesAre p (relabel role s) := by
  unfold relabel
  split
  · exact hs
  · next t ts hd =>
    have ht : t.nodesAre p = true := hs t (hd ▸ List.mem_cons_self ..)
    refine NodesAre.cons (by rw [Tree.nodesAre_withRole, ht]) ?_
    exact fun u hu => hs u (hd ▸ List.mem_cons_of_mem t hu)

/-- A run of a form adds nodes of the kinds that the form builds. -/
theorem run_nodesAre {p : Kind → Bool} {call : ρ → Progress → Option Progress}
    (hc : ∀ r s q, call r s = some q → NodesAre p s → NodesAre p q) (f : Form ρ)
    (hf : f.builds p = true) (s q : Progress) (h : run call f s = some q) (hs : NodesAre p s) :
    NodesAre p q := by
  induction f generalizing s q with
  | nothing =>
    cases h
    exact hs
  | token markup kind lexeme =>
    have ht : readToken kind lexeme (readGap markup s.rest).1 (readGap markup s.rest).2 s.done =
        some q := h
    exact readToken_nodesAre ht hs
  | joined kind lexeme => exact readToken_nodesAre h hs
  | check test =>
    simp only [run] at h
    split at h
    · cases h
      exact hs
    · cases h
  | both f g ihf ihg =>
    rw [builds, Bool.and_eq_true] at hf
    obtain ⟨m, hm, hq⟩ := Option.bind_eq_some_iff.1 h
    exact ihg hf.2 m q hq (ihf hf.1 s m hm hs)
  | either f g ihf ihg =>
    rw [builds, Bool.and_eq_true] at hf
    simp only [run] at h
    split at h
    · next m hm => exact ihf hf.1 s q (h ▸ hm) hs
    · exact ihg hf.2 s q h hs
  | many f ihf =>
    cases h
    exact repeatStep_nodesAre (ihf hf) _ s hs
  | node kind f ihf =>
    rw [builds, Bool.and_eq_true] at hf
    obtain ⟨m, hm, rfl⟩ := Option.map_eq_some_iff.1 h
    have hnil : NodesAre p ⟨[], s.rest⟩ := fun t ht => absurd ht (List.not_mem_nil)
    exact NodesAre.cons (NodesAre.node hf.1 (ihf hf.2 _ m hm hnil)) hs
  | extend accepts role kind f ihf =>
    rw [builds, Bool.and_eq_true] at hf
    simp only [run] at h
    split at h
    · cases h
    · next t ts hd =>
      split at h
      · obtain ⟨m, hm, rfl⟩ := Option.map_eq_some_iff.1 h
        have ht : t.nodesAre p = true := hs t (hd ▸ List.mem_cons_self ..)
        have hts : ∀ u ∈ ts, u.nodesAre p = true := fun u hu => hs u (hd ▸ List.mem_cons_of_mem t hu)
        have hone : NodesAre p ⟨[t.withRole role], s.rest⟩ := by
          intro u hu
          rw [List.mem_singleton.1 hu, Tree.nodesAre_withRole, ht]
        exact NodesAre.cons (NodesAre.node hf.1 (ihf hf.2 _ m hm hone)) hts
      · cases h
  | label role f ihf =>
    obtain ⟨m, hm, rfl⟩ := Option.map_eq_some_iff.1 h
    exact relabel_nodesAre (ihf hf s m hm hs)
  | rule r => exact hc r s q h hs

end Form

/-- Reading a rule adds nodes of the kinds that the rules of the grammar build. -/
theorem readRule_nodesAre {ρ : Type} {p : Kind → Bool} {grammar : ρ → Form ρ}
    (hg : ∀ r, (grammar r).builds p = true) (fuel : Nat) (r : ρ) (s q : Progress)
    (h : readRule grammar fuel r s = some q) (hs : Form.NodesAre p s) : Form.NodesAre p q := by
  induction fuel generalizing r s q with
  | zero => cases h
  | succ fuel ih => exact Form.run_nodesAre ih (grammar r) (hg r) s q h hs

/-- What holds of every node kind in the grammar holds of every node in a parsed script. -/
theorem nodesAre_of_parse {p : Kind → Bool} (hg : ∀ r, (Grammar.rules r).builds p = true)
    (hp : p .program = true) {t : Text} {tree : Tree} (h : parse t = .ok tree) :
    tree.nodesAre p = true := by
  unfold parse at h
  split at h
  · next q hq =>
    dsimp only at h
    split at h
    · cases h
      refine Form.NodesAre.node hp ?_
      refine Form.run_nodesAre (readRule_nodesAre hg (depthFor t)) _ rfl _ q hq ?_
      exact fun t ht => absurd ht (List.not_mem_nil)
    · cases h
  · cases h

/-- No rule builds a node that is an identifier. -/
theorem rules_build_no_identifier (r : Rule) :
    (Grammar.rules r).builds (fun kind => kind != .identifier) = true := by
  cases r <;> rfl

/-- In a parsed script identifiers are single tokens. -/
theorem identifiers_are_leaves {t : Text} {tree : Tree} (h : parse t = .ok tree) :
    tree.nodesAre (fun kind => kind != .identifier) = true :=
  nodesAre_of_parse rules_build_no_identifier rfl h

end Phrasebook.Script
