import Phrasebook.Proofs.Walk

/-!
What a run of a form leaves alone, and what it builds.

* A form works on the trees of the node under construction, and some forms take the last one. Which
  forms reach into the trees that stand before them is read off the form (`Form.frame`); the others only
  add trees (`run_frame`). No rule of the grammar reaches back (`readRule_frame`), so a node that starts
  with a symbol keeps it as its first child (`opensWithMark_of_run`).
* What holds of every tree when it is built holds of every tree in a parsed script (`all_of_parse`).

Together they say what the walk relies on: the arguments of a call open with a symbol, and a string is
a row of parts between two quotes (`Tree.Sound`).
-/

namespace Phrasebook.Script

namespace Form

variable {ρ : Type}

/-! ## Frames -/

/-- Whether a form leaves the trees alone that were read before it. `own` says whether some tree before
it is known to be its own; the answer, if there is one, says so for what follows it. -/
def frame : Form ρ → Bool → Option Bool
  | .nothing, own => some own
  | .token .., _ => some true
  | .joined .., _ => some true
  | .check _, own => some own
  | .both f g, own => (frame f own).bind (frame g)
  | .either f g, own =>
    match frame f own, frame g own with
    | some a, some b => some (a && b)
    | _, _ => none
  | .many f, own => (frame f own).map fun _ => own
  | .node .., _ => some true
  | .extend .., own => if own then some true else none
  | .label _ f, own => if frame f own = some true then some true else none
  | .rule _, _ => some true

/-- A step that keeps the trees at the bottom; `own` and `own'` say whether it has trees of its own
above them before and afterwards. -/
def Frames (own own' : Bool) (s q : Progress) : Prop :=
  ∀ mine base, s.done = mine ++ base → (own = true → mine ≠ []) →
    ∃ mine', q.done = mine' ++ base ∧ (own' = true → mine' ≠ [])

theorem Frames.refl (own : Bool) (s : Progress) : Frames own own s s :=
  fun mine _ hs hown => ⟨mine, hs, hown⟩

theorem Frames.trans {own own' own'' : Bool} {s m q : Progress} (h : Frames own own' s m)
    (h' : Frames own' own'' m q) : Frames own own'' s q := by
  intro mine base hs hown
  obtain ⟨mine', hm, hown'⟩ := h mine base hs hown
  exact h' mine' base hm hown'

theorem Frames.weaken {own a b : Bool} {s q : Progress} (h : Frames own a s q)
    (hab : b = true → a = true) : Frames own b s q := by
  intro mine base hs hown
  obtain ⟨mine', hq, hown'⟩ := h mine base hs hown
  exact ⟨mine', hq, fun hb => hown' (hab hb)⟩

/-- Adding a tree. -/
theorem Frames.push {own : Bool} {s : Progress} (t : Tree) (rest : Text) :
    Frames own true s ⟨t :: s.done, rest⟩ := by
  intro mine base hs _
  exact ⟨t :: mine, by rw [hs, List.cons_append], fun _ => List.cons_ne_nil _ _⟩

theorem readToken_frames {own : Bool} {kind : Kind} {lexeme : Lexeme} {gap : Gap} {rest : Text}
    {s q : Progress} (h : readToken kind lexeme gap rest s.done = some q) : Frames own true s q := by
  obtain ⟨n, -, rfl⟩ := Option.map_eq_some_iff.1 h
  exact Frames.push _ _

theorem repeatStep_frames {own : Bool} {step : Progress → Option Progress}
    (hstep : ∀ s q, step s = some q → Frames own own s q) (fuel : Nat) (s : Progress) :
    Frames own own s (repeatStep step fuel s) := by
  induction fuel generalizing s with
  | zero => exact Frames.refl own s
  | succ fuel ih =>
    unfold repeatStep
    split
    · exact Frames.refl own s
    · next q hq =>
      split
      · exact (hstep s q hq).trans (ih q)
      · exact Frames.refl own s

theorem relabel_frames (role : Role) (s : Progress) : Frames true true s (relabel role s) := by
  intro mine base hs hown
  obtain ⟨t, mine', rfl⟩ := List.exists_cons_of_ne_nil (hown rfl)
  refine ⟨t.withRole role :: mine', ?_, fun _ => List.cons_ne_nil _ _⟩
  simp [relabel, hs]

/-- With trees of its own to start from, a form keeps some. -/
theorem frame_true {f : Form ρ} {own' : Bool} (h : frame f true = some own') : own' = true := by
  induction f generalizing own' with
  | nothing | token | joined | check | node | extend | rule =>
    simp only [frame, if_true, Option.some.injEq] at h
    exact h.symm
  | both f g ihf ihg =>
    obtain ⟨a, ha, hg⟩ := Option.bind_eq_some_iff.1 h
    rw [ihf ha] at hg
    exact ihg hg
  | either f g ihf ihg =>
    simp only [frame] at h
    split at h
    · next a b ha hb =>
      cases h
      rw [ihf ha, ihg hb]
      rfl
    · cases h
  | many f _ =>
    obtain ⟨_, -, rfl⟩ := Option.map_eq_some_iff.1 h
    rfl
  | label role f _ =>
    simp only [frame] at h
    split at h
    · cases h
      rfl
    · cases h

/-- If the rules only add trees, a run of a form does to the trees before it what `frame` says. -/
theorem run_frame {call : ρ → Progress → Option Progress}
    (hc : ∀ r s q, call r s = some q → Frames false true s q) (f : Form ρ) {own own' : Bool}
    (hf : frame f own = some own') (s q : Progress) (h : run call f s = some q) :
    Frames own own' s q := by
  induction f generalizing own own' s q with
  | nothing =>
    cases h
    cases hf
    exact Frames.refl own s
  | token markup kind lexeme =>
    cases hf
    have ht : readToken kind lexeme (readGap markup s.rest).1 (readGap markup s.rest).2 s.done =
        some q := h
    exact readToken_frames ht
  | joined kind lexeme =>
    cases hf
    exact readToken_frames h
  | check test =>
    cases hf
    simp only [run] at h
    split at h
    · cases h
      exact Frames.refl own s
    · cases h
  | both f g ihf ihg =>
    obtain ⟨a, ha, hg⟩ := Option.bind_eq_some_iff.1 hf
    obtain ⟨m, hm, hq⟩ := Option.bind_eq_some_iff.1 h
    exact (ihf ha s m hm).trans (ihg hg m q hq)
  | either f g ihf ihg =>
    simp only [frame] at hf
    split at hf
    · next a b ha hb =>
      cases hf
      simp only [run] at h
      split at h
      · next m hm =>
        refine (ihf ha s q (h ▸ hm)).weaken ?_
        exact fun hab => (Bool.and_eq_true _ _ ▸ hab).1
      · refine (ihg hb s q h).weaken ?_
        exact fun hab => (Bool.and_eq_true _ _ ▸ hab).2
    · cases hf
  | many f ihf =>
    obtain ⟨a, ha, rfl⟩ := Option.map_eq_some_iff.1 hf
    cases h
    refine repeatStep_frames (fun s q hq => (ihf ha s q hq).weaken ?_) _ s
    -- what a form has of its own it keeps
    rintro rfl
    exact frame_true ha
  | node kind f _ =>
    cases hf
    obtain ⟨m, -, rfl⟩ := Option.map_eq_some_iff.1 h
    exact Frames.push _ _
  | extend accepts role kind f _ =>
    simp only [frame] at hf
    split at hf
    · next hown =>
      cases hf
      intro mine base hs hmine
      obtain ⟨t, mine', rfl⟩ := List.exists_cons_of_ne_nil (hmine hown)
      rw [List.cons_append] at hs
      simp only [run, hs] at h
      split at h
      · obtain ⟨m, -, rfl⟩ := Option.map_eq_some_iff.1 h
        exact ⟨_ :: mine', rfl, fun _ => List.cons_ne_nil _ _⟩
      · cases h
    · cases hf
  | label role f ihf =>
    simp only [frame] at hf
    split at hf
    · next ha =>
      cases hf
      obtain ⟨m, hm, rfl⟩ := Option.map_eq_some_iff.1 h
      exact (ihf ha s m hm).trans (relabel_frames role m)
    · cases hf
  | rule r =>
    cases hf
    intro mine base hs _
    exact hc r s q h mine base hs (fun hfalse => by cases hfalse)

end Form

/-- No rule of the grammar reaches into the trees before it, and each adds a tree. -/
theorem rules_frame (r : Rule) : (Grammar.rules r).frame false = some true := by
  cases r <;> rfl

/-- Reading a rule only adds trees. -/
theorem readRule_frame (fuel : Nat) (r : Rule) (s q : Progress)
    (h : readRule Grammar.rules fuel r s = some q) : Form.Frames false true s q := by
  induction fuel generalizing r s q with
  | zero => cases h
  | succ fuel ih => exact Form.run_frame ih (Grammar.rules r) (rules_frame r) s q h

/-! ## Building -/

namespace Tree

mutual

/-- A tree and everything below it satisfies `P`. -/
def All (P : Tree → Prop) : Tree → Prop
  | .leaf role kind gap text => P (.leaf role kind gap text)
  | .node role kind children => P (.node role kind children) ∧ AllIn P children

def AllIn (P : Tree → Prop) : List Tree → Prop
  | [] => True
  | t :: ts => All P t ∧ AllIn P ts

end

theorem allIn_iff {P : Tree → Prop} {ts : List Tree} : AllIn P ts ↔ ∀ t ∈ ts, All P t := by
  induction ts with
  | nil => simp [AllIn]
  | cons t ts ih => simp [AllIn, ih]

theorem All.self {P : Tree → Prop} {t : Tree} (h : t.All P) : P t := by
  cases t with
  | leaf role kind gap text => simpa only [All] using h
  | node role kind children =>
    rw [All] at h
    exact h.1

theorem All.child {P : Tree → Prop} {t c : Tree} (h : t.All P) (hc : c ∈ t.children) : c.All P := by
  cases t with
  | leaf role kind gap text => cases hc
  | node role kind children =>
    rw [All, allIn_iff] at h
    exact h.2 c hc

theorem All.withRole {P : Tree → Prop} {t : Tree} {role : Role} (h : t.All P)
    (hr : P (t.withRole role)) : (t.withRole role).All P := by
  cases t with
  | leaf _ kind gap text => simpa only [Tree.withRole, All] using hr
  | node _ kind children =>
    rw [All] at h
    rw [Tree.withRole, All]
    exact ⟨hr, h.2⟩

end Tree

theorem Occurs.all {P : Tree → Prop} {place inner : Place} {t s : Tree} (h : Occurs place t inner s)
    (ht : t.All P) : s.All P := by
  induction h with
  | here => exact ht
  | child _ hc _ ih => exact ih (ht.child hc)

namespace Form

variable {ρ : Type}

/-- Whenever a form builds a tree or gives one a role, the tree satisfies `P`. -/
def Grounded (call : ρ → Progress → Option Progress) (P : Tree → Prop) : Form ρ → Prop
  | .token _ kind _ => ∀ gap text, P (.leaf .part kind gap text)
  | .joined kind _ => ∀ gap text, P (.leaf .part kind gap text)
  | .both f g => Grounded call P f ∧ Grounded call P g
  | .either f g => Grounded call P f ∧ Grounded call P g
  | .many f => Grounded call P f
  | .node kind f =>
    Grounded call P f ∧
      ∀ rest q, run call f ⟨[], rest⟩ = some q → P (.node .part kind q.done.reverse)
  | .extend _ role kind f =>
    Grounded call P f ∧ (∀ t : Tree, P t → P (t.withRole role)) ∧
      ∀ (t : Tree) rest q, run call f ⟨[t.withRole role], rest⟩ = some q →
        P (.node .part kind q.done.reverse)
  | .label role f =>
    Grounded call P f ∧
      ∀ s q (t : Tree) ts, run call f s = some q → q.done = t :: ts → P t → P (t.withRole role)
  | _ => True

/-- A state whose trees satisfy `P`, with everything below them. -/
def AllDone (P : Tree → Prop) (s : Progress) : Prop := ∀ t ∈ s.done, t.All P

variable {P : Tree → Prop}

theorem AllDone.cons {t : Tree} {ts : List Tree} {rest : Text} (ht : t.All P)
    (h : ∀ u ∈ ts, u.All P) : AllDone P ⟨t :: ts, rest⟩ :=
  List.forall_mem_cons.2 ⟨ht, h⟩

theorem AllDone.nil (rest : Text) : AllDone P ⟨[], rest⟩ := fun _ ht => absurd ht List.not_mem_nil

theorem AllDone.node {s : Progress} {role : Role} {kind : Kind} (h : AllDone P s)
    (hn : P (.node role kind s.done.reverse)) : (Tree.node role kind s.done.reverse).All P := by
  rw [Tree.All, Tree.allIn_iff]
  exact ⟨hn, fun t ht => h t (List.mem_reverse.1 ht)⟩

theorem readToken_allDone {kind : Kind} {lexeme : Lexeme} {gap : Gap} {rest : Text} {s q : Progress}
    (hp : ∀ gap text, P (.leaf .part kind gap text))
    (h : readToken kind lexeme gap rest s.done = some q) (hs : AllDone P s) : AllDone P q := by
  obtain ⟨n, -, rfl⟩ := Option.map_eq_some_iff.1 h
  exact AllDone.cons (by rw [Tree.All]; exact hp _ _) hs

theorem repeatStep_allDone {step : Progress → Option Progress}
    (hstep : ∀ s q, step s = some q → AllDone P s → AllDone P q) (fuel : Nat) (s : Progress)
    (hs : AllDone P s) : AllDone P (repeatStep step fuel s) := by
  induction fuel generalizing s with
  | zero => exact hs
  | succ fuel ih =>
    unfold repeatStep
    split
    · exact hs
    · next q hq =>
      split
      · exact ih q (hstep s q hq hs)
      · exact hs

/-- A run of a form adds trees that satisfy what all trees it builds satisfy. -/
theorem run_allDone {call : ρ → Progress → Option Progress}
    (hc : ∀ r s q, call r s = some q → AllDone P s → AllDone P q) (f : Form ρ)
    (hf : f.Grounded call P) (s q : Progress) (h : run call f s = some q) (hs : AllDone P s) :
    AllDone P q := by
  induction f generalizing s q with
  | nothing =>
    cases h
    exact hs
  | token markup kind lexeme =>
    have ht : readToken kind lexeme (readGap markup s.rest).1 (readGap markup s.rest).2 s.done =
        some q := h
    exact readToken_allDone hf ht hs
  | joined kind lexeme => exact readToken_allDone hf h hs
  | check test =>
    simp only [run] at h
    split at h
    · cases h
      exact hs
    · cases h
  | both f g ihf ihg =>
    obtain ⟨m, hm, hq⟩ := Option.bind_eq_some_iff.1 h
    exact ihg hf.2 m q hq (ihf hf.1 s m hm hs)
  | either f g ihf ihg =>
    simp only [run] at h
    split at h
    · next m hm => exact ihf hf.1 s q (h ▸ hm) hs
    · exact ihg hf.2 s q h hs
  | many f ihf =>
    cases h
    exact repeatStep_allDone (ihf hf) _ s hs
  | node kind f ihf =>
    obtain ⟨m, hm, rfl⟩ := Option.map_eq_some_iff.1 h
    exact AllDone.cons ((ihf hf.1 _ m hm (AllDone.nil _)).node (hf.2 _ m hm)) hs
  | extend accepts role kind f ihf =>
    simp only [run] at h
    split at h
    · cases h
    · next t ts hd =>
      have hall := hs
      rw [AllDone, hd] at hall
      obtain ⟨ht, hts⟩ := List.forall_mem_cons.1 hall
      split at h
      · obtain ⟨m, hm, rfl⟩ := Option.map_eq_some_iff.1 h
        have hone : AllDone P ⟨[t.withRole role], s.rest⟩ :=
          AllDone.cons (ht.withRole (hf.2.1 t ht.self)) (AllDone.nil s.rest)
        exact AllDone.cons ((ihf hf.1 _ m hm hone).node (hf.2.2 t _ m hm)) hts
      · cases h
  | label role f ihf =>
    obtain ⟨m, hm, rfl⟩ := Option.map_eq_some_iff.1 h
    have hall := ihf hf.1 s m hm hs
    unfold relabel
    split
    · exact hall
    · next t ts hd =>
      rw [AllDone, hd] at hall
      obtain ⟨ht, hts⟩ := List.forall_mem_cons.1 hall
      exact AllDone.cons (ht.withRole (hf.2 s m t ts hm hd ht.self)) hts
  | rule r => exact hc r s q h hs

end Form

theorem readRule_allDone {ρ : Type} {P : Tree → Prop} {grammar : ρ → Form ρ}
    (hg : ∀ fuel r, (grammar r).Grounded (readRule grammar fuel) P) (fuel : Nat) (r : ρ)
    (s q : Progress) (h : readRule grammar fuel r s = some q) (hs : Form.AllDone P s) :
    Form.AllDone P q := by
  induction fuel generalizing r s q with
  | zero => cases h
  | succ fuel ih => exact Form.run_allDone ih (grammar r) (hg fuel r) s q h hs

/-- What holds of every tree that the grammar builds holds of every tree below the root of a parsed
script. -/
theorem all_children_of_parse {P : Tree → Prop}
    (hg : ∀ fuel r, (Grammar.rules r).Grounded (readRule Grammar.rules fuel) P)
    (hs : ∀ fuel, (Form.both statements endOfScript).Grounded (readRule Grammar.rules fuel) P)
    {t : Text} {tree : Tree} (h : parse t = .ok tree) :
    ∃ children, tree = .node .part .program children ∧ ∀ c ∈ children, c.All P := by
  unfold parse at h
  split at h
  · next q hq =>
    dsimp only at h
    split at h
    · cases h
      have hall := Form.run_allDone (readRule_allDone hg (depthFor t)) _ (hs _) _ q hq
        (Form.AllDone.nil t)
      exact ⟨_, rfl, fun c hc => hall c (List.mem_reverse.1 hc)⟩
    · cases h
  · cases h

/-- What holds of the root too holds of every tree in a parsed script. -/
theorem all_of_parse {P : Tree → Prop}
    (hg : ∀ fuel r, (Grammar.rules r).Grounded (readRule Grammar.rules fuel) P)
    (hs : ∀ fuel, (Form.both statements endOfScript).Grounded (readRule Grammar.rules fuel) P)
    (hp : ∀ children, P (.node .part .program children)) {t : Text} {tree : Tree}
    (h : parse t = .ok tree) : tree.All P := by
  obtain ⟨children, rfl, hall⟩ := all_children_of_parse hg hs h
  exact ⟨hp children, Tree.allIn_iff.2 hall⟩

/-! ## The shape of parsed trees -/

/-- The children of a node that a form of the grammar reads. -/
def ReadsRow (f : Form Rule) (row : List Tree) : Prop :=
  ∃ fuel rest q, f.run (readRule Grammar.rules fuel) ⟨[], rest⟩ = some q ∧ row = q.done.reverse

/-- A tree of the shape that the walk relies on. -/
structure Tree.Sound (t : Tree) : Prop where
  /-- The arguments of a call are neither a call nor a string, and open with a symbol. -/
  opens : t.role = .arguments → t.kind ≠ .call ∧ t.kind ≠ .string ∧
    ∃ first others, t.children = first :: others ∧ first.isNamed = false
  /-- A string has been read between quotes, in a script or as an attribute in markup. -/
  quoted : t.kind = .string →
    ReadsRow (.either (Grammar.quoted '"') (Grammar.quoted '\'')) t.children ∨
      ReadsRow (.either (Grammar.quotedAttribute '"') (Grammar.quotedAttribute '\'')) t.children

namespace Tree

theorem sound_leaf {kind : Kind} (hk : kind ≠ .string) (gap : Gap) (text : Text) :
    (Tree.leaf .part kind gap text).Sound :=
  ⟨nofun, fun h => absurd h hk⟩

theorem sound_node {kind : Kind} (hk : kind ≠ .string) (children : List Tree) :
    (Tree.node .part kind children).Sound :=
  ⟨nofun, fun h => absurd h hk⟩

@[simp] theorem role_withRole (role : Role) (t : Tree) : (t.withRole role).role = role := by
  cases t <;> rfl

@[simp] theorem kind_withRole (role : Role) (t : Tree) : (t.withRole role).kind = t.kind := by
  cases t <;> rfl

@[simp] theorem children_withRole (role : Role) (t : Tree) :
    (t.withRole role).children = t.children := by
  cases t <;> rfl

theorem Sound.withRole {t : Tree} (h : t.Sound) {role : Role} (hr : role ≠ .arguments) :
    (t.withRole role).Sound := by
  refine ⟨?_, ?_⟩
  · rw [role_withRole]
    exact fun he => absurd he hr
  · simpa using h.quoted

end Tree

/-- A node that starts with a symbol and goes on with a form that does not reach back opens with a
symbol. -/
theorem opensWithMark_of_run {fuel : Nat} {markup : Bool} {lexeme : Lexeme} {f : Form Rule}
    (hf : f.frame false = some true) {rest : Text} {q : Progress}
    (h : (Form.both (.token markup .mark lexeme) f).run (readRule Grammar.rules fuel) ⟨[], rest⟩ =
      some q) :
    ∃ first others, q.done.reverse = first :: others ∧ first.isNamed = false := by
  obtain ⟨m, hm, hq⟩ := Option.bind_eq_some_iff.1 h
  obtain ⟨n, -, rfl⟩ := Option.map_eq_some_iff.1 hm
  obtain ⟨mine, hdone, -⟩ :=
    Form.run_frame (readRule_frame fuel) f hf _ q hq [] _ rfl (fun hfalse => by cases hfalse)
  exact ⟨_, mine.reverse, by rw [hdone, List.reverse_append]; rfl, rfl⟩

/-- Arguments are read as a node that opens with a symbol. -/
theorem sound_of_arguments {fuel : Nat} {r : Rule} {kind : Kind} {markup : Bool} {lexeme : Lexeme}
    {f : Form Rule} (hr : Grammar.rules r = .node kind (.both (.token markup .mark lexeme) f))
    (hk : kind ≠ .call ∧ kind ≠ .string) (hf : f.frame false = some true) (s q : Progress) (t : Tree)
    (ts : List Tree) (h : (Form.rule r).run (readRule Grammar.rules fuel) s = some q)
    (hd : q.done = t :: ts) (ht : t.Sound) : (t.withRole .arguments).Sound := by
  rw [Form.run] at h
  cases fuel with
  | zero => cases h
  | succ fuel =>
    rw [readRule, hr] at h
    obtain ⟨m, hm, rfl⟩ := Option.map_eq_some_iff.1 h
    cases hd
    exact ⟨fun _ => ⟨hk.1, hk.2, opensWithMark_of_run hf hm⟩, ht.quoted⟩

/-- Whether a form builds no strings and gives no tree the role of arguments. -/
def Form.isPlain : Form Rule → Bool
  | .token _ kind _ => kind != .string
  | .joined kind _ => kind != .string
  | .both f g => isPlain f && isPlain g
  | .either f g => isPlain f && isPlain g
  | .many f => isPlain f
  | .node kind f => kind != .string && isPlain f
  | .extend _ role kind f => role != .arguments && kind != .string && isPlain f
  | .label role f => role != .arguments && isPlain f
  | _ => true

theorem Form.sound_of_isPlain {call : Rule → Progress → Option Progress} {f : Form Rule}
    (h : f.isPlain = true) : f.Grounded call Tree.Sound := by
  induction f with
  | nothing | check | rule => trivial
  | token | joined =>
    exact Tree.sound_leaf (by simpa [isPlain] using h)
  | both f g ihf ihg | either f g ihf ihg =>
    rw [isPlain, Bool.and_eq_true] at h
    exact ⟨ihf h.1, ihg h.2⟩
  | many f ihf => exact ihf h
  | node kind f ihf =>
    rw [isPlain, Bool.and_eq_true, bne_iff_ne] at h
    exact ⟨ihf h.2, fun _ _ _ => Tree.sound_node h.1 _⟩
  | extend accepts role kind f ihf =>
    rw [isPlain, Bool.and_eq_true, Bool.and_eq_true, bne_iff_ne, bne_iff_ne] at h
    exact ⟨ihf h.2, fun _ ht => ht.withRole h.1.1, fun _ _ _ _ => Tree.sound_node h.1.2 _⟩
  | label role f ihf =>
    rw [isPlain, Bool.and_eq_true, bne_iff_ne] at h
    exact ⟨ihf h.2, fun _ _ _ _ _ _ ht => ht.withRole h.1⟩

/-- Every tree that the grammar builds is sound. -/
theorem rules_sound (fuel : Nat) (r : Rule) :
    (Grammar.rules r).Grounded (readRule Grammar.rules fuel) Tree.Sound := by
  cases r <;>
    repeat' first
      | exact Form.sound_of_isPlain rfl
      | apply And.intro
      | exact fun _ _ _ => Tree.sound_node (by decide) _
      | exact fun _ _ _ _ => Tree.sound_node (by decide) _
      | exact fun _ h => h.withRole (by decide)
      | exact fun _ _ _ _ _ _ h => h.withRole (by decide)
      | exact sound_of_arguments rfl (by decide) rfl
      | exact fun rest q h => ⟨nofun, fun _ => .inl ⟨fuel, rest, q, h, rfl⟩⟩
      | exact fun rest q h => ⟨nofun, fun _ => .inr ⟨fuel, rest, q, h, rfl⟩⟩

/-- Every tree in a parsed script is sound. -/
theorem sound_of_parse {t : Text} {tree : Tree} (h : parse t = .ok tree) : tree.All Tree.Sound := by
  refine all_of_parse rules_sound ?_ (Tree.sound_node (by decide)) h
  intro fuel
  exact ⟨⟨⟨Tree.sound_leaf (by decide), trivial⟩, trivial⟩, Tree.sound_leaf (by decide)⟩

end Phrasebook.Script
