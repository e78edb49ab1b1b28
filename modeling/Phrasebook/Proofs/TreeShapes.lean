import Phrasebook.Proofs.Frames
import Phrasebook.Proofs.NodeKinds
import Phrasebook.Proofs.QuotedLiterals

/-!
The shape of parsed trees, as far as the guards of the walk and the code that it writes rely on it.

* Names of properties: the key of a property and the name behind a dot are single tokens, or they open
  with a bracket or a quote (`Tree.IsName`). So a name that reads like a given word is a token, whatever
  else changes in the script.
* Nodes that code is written into: a node has children, an object literal closes with its symbol, and a
  call starts with what is called (`Tree.Formed`).
-/

namespace Phrasebook.Script

/-- The characters that open a name which is not a single token. -/
def opensName (c : Char) : Bool := c == '[' || c == '"' || c == '\''

namespace Tree

/-- A single token, or a tree other than a call that opens with a bracket or a quote. -/
def IsName (t : Tree) : Prop :=
  t.children = [] ∨
    t.kind ≠ .call ∧ ∃ gap c others, t.children = .leaf .part .mark gap [c] :: others ∧
      opensName c = true

/-- What stands in the place of a name is one. -/
def NameShaped (t : Tree) : Prop := t.role = .key ∨ t.role = .property → t.IsName

theorem nameShaped_of_ne {t : Tree} (hk : t.role ≠ .key) (hp : t.role ≠ .property) : t.NameShaped :=
  fun h => absurd h (by simp [hk, hp])

theorem IsName.withRole {t : Tree} (h : t.IsName) (role : Role) : (t.withRole role).NameShaped := by
  intro _
  simpa [IsName] using h

end Tree

/-! ## Reading names -/

/-- A node that starts with a token and goes on with a form that does not reach back opens with the
token. -/
theorem opensWithToken_of_run {fuel : Nat} {markup : Bool} {kind : Kind} {lexeme : Lexeme}
    {f : Form Rule} (hf : f.frame false = some true) {rest : Text} {q : Progress}
    (h : (Form.both (.token markup kind lexeme) f).run (readRule Grammar.rules fuel) ⟨[], rest⟩ =
      some q) :
    ∃ gap t n others, lexeme t = some n ∧ q.done.reverse = .leaf .part kind gap (t.take n) :: others := by
  obtain ⟨m, hm, hq⟩ := Option.bind_eq_some_iff.1 h
  obtain ⟨n, hn, rfl⟩ := Option.map_eq_some_iff.1 hm
  obtain ⟨mine, hdone, -⟩ :=
    Form.run_frame (readRule_frame fuel) f hf _ q hq [] _ rfl (fun hfalse => by cases hfalse)
  exact ⟨_, _, n, mine.reverse, hn, by rw [hdone, List.reverse_append]; rfl⟩

/-- What is read as a symbol is the symbol. -/
theorem take_of_symbol {s : String} {t : Text} {n : Nat} (h : symbol s t = some n) :
    t.take n = s.toList := by
  unfold symbol symbolIn at h
  split at h
  · next found hfound =>
    split at h
    · next hmem =>
      obtain rfl : found = s.toList := by simpa using hmem
      have hhere : symbolHere t s.toList = true := List.find?_some hfound
      rw [symbolHere, Bool.and_eq_true, Text.startsWith, Option.isSome_iff_exists] at hhere
      obtain ⟨⟨rest, hrest⟩, -⟩ := hhere
      obtain rfl := Text.dropLeading?_eq_some_iff.1 hrest
      cases h
      rw [List.take_left]
    · cases h
  · cases h

theorem run_either {call : Rule → Progress → Option Progress} {f g : Form Rule} {s q : Progress}
    (h : (Form.either f g).run call s = some q) : f.run call s = some q ∨ g.run call s = some q := by
  rw [Form.run] at h
  split at h
  · next m hm => exact .inl (h ▸ hm)
  · exact .inr h

theorem isName_of_token {call : Rule → Progress → Option Progress} {markup : Bool} {kind : Kind}
    {lexeme : Lexeme} {s q : Progress} (h : (Form.token markup kind lexeme).run call s = some q)
    {t : Tree} {ts : List Tree} (hd : q.done = t :: ts) : t.IsName := by
  obtain ⟨n, -, rfl⟩ := Option.map_eq_some_iff.1 h
  obtain ⟨rfl, -⟩ := List.cons.inj hd
  exact .inl rfl

theorem isName_of_stringLiteral {call : Rule → Progress → Option Progress} {s q : Progress}
    (h : Grammar.stringLiteral.run call s = some q) {t : Tree} {ts : List Tree}
    (hd : q.done = t :: ts) : t.IsName := by
  obtain ⟨m, hm, rfl⟩ := Option.map_eq_some_iff.1 h
  obtain ⟨rfl, -⟩ := List.cons.inj hd
  have hquoted : ∃ c, IsQuote c ∧ (Grammar.quoted c).run call ⟨[], s.rest⟩ = some m :=
    (run_either hm).elim (fun h => ⟨'"', .inl rfl, h⟩) fun h => ⟨'\'', .inr rfl, h⟩
  obtain ⟨c, hc, hrun⟩ := hquoted
  obtain ⟨gap, parts, gap', hdone, -⟩ := of_run_quoted hc hrun
  refine .inr ⟨nofun, gap, c, parts ++ [.leaf .part .mark gap' [c]], ?_, ?_⟩
  · rw [Tree.children, hdone]
    simp
  · rcases hc with rfl | rfl <;> rfl

/-- What the rule for names reads. -/
theorem isName_of_propertyName {fuel : Nat} {s q : Progress} {t : Tree} {ts : List Tree}
    (h : (Form.rule Rule.propertyName).run (readRule Grammar.rules fuel) s = some q)
    (hd : q.done = t :: ts) : t.IsName := by
  rw [Form.run] at h
  cases fuel with
  | zero => cases h
  | succ fuel =>
    have hany : Grammar.propertyName.run (readRule Grammar.rules fuel) s = some q := h
    rcases run_either hany with hstring | hany
    · exact isName_of_stringLiteral hstring hd
    rcases run_either hany with hnumber | hany
    · exact isName_of_token hnumber hd
    rcases run_either hany with hcomputed | hany
    · obtain ⟨m, hm, rfl⟩ := Option.map_eq_some_iff.1 hcomputed
      obtain ⟨rfl, -⟩ := List.cons.inj hd
      obtain ⟨gap, text, n, others, hn, hrow⟩ := opensWithToken_of_run rfl hm
      rw [take_of_symbol hn] at hrow
      exact .inr ⟨by simp [Tree.kind], gap, '[', others, hrow, rfl⟩
    rcases run_either hany with hprivate | hword
    · exact isName_of_token hprivate hd
    · exact isName_of_token hword hd

/-! ## The names of a script -/

/-- Whether a form gives no tree the place of a name. -/
def Form.labelsNoName : Form Rule → Bool
  | .both f g => labelsNoName f && labelsNoName g
  | .either f g => labelsNoName f && labelsNoName g
  | .many f => labelsNoName f
  | .node _ f => labelsNoName f
  | .extend _ role _ f => role != .key && role != .property && labelsNoName f
  | .label role f => role != .key && role != .property && labelsNoName f
  | _ => true

theorem nameShaped_withRole {role : Role} (h : role ≠ .key ∧ role ≠ .property) (t : Tree) :
    (t.withRole role).NameShaped :=
  Tree.nameShaped_of_ne (by simpa using h.1) (by simpa using h.2)

theorem nameShaped_part (kind : Kind) (children : List Tree) :
    (Tree.node .part kind children).NameShaped :=
  Tree.nameShaped_of_ne nofun nofun

theorem Form.nameShaped_of_labelsNoName {call : Rule → Progress → Option Progress} {f : Form Rule}
    (h : f.labelsNoName = true) : f.Grounded call Tree.NameShaped := by
  induction f with
  | nothing | check | rule => trivial
  | token | joined => exact fun _ _ => Tree.nameShaped_of_ne nofun nofun
  | both f g ihf ihg | either f g ihf ihg =>
    rw [labelsNoName, Bool.and_eq_true] at h
    exact ⟨ihf h.1, ihg h.2⟩
  | many f ihf => exact ihf h
  | node kind f ihf => exact ⟨ihf h, fun _ _ _ => nameShaped_part kind _⟩
  | extend accepts role kind f ihf =>
    rw [labelsNoName, Bool.and_eq_true, Bool.and_eq_true, bne_iff_ne, bne_iff_ne] at h
    exact ⟨ihf h.2, fun t _ => nameShaped_withRole h.1 t, fun _ _ _ _ => nameShaped_part kind _⟩
  | label role f ihf =>
    rw [labelsNoName, Bool.and_eq_true, Bool.and_eq_true, bne_iff_ne, bne_iff_ne] at h
    exact ⟨ihf h.2, fun _ _ t _ _ _ _ => nameShaped_withRole h.1 t⟩

/-- The grammar puts nothing but names in the place of a name. -/
theorem rules_nameShaped (fuel : Nat) (r : Rule) :
    (Grammar.rules r).Grounded (readRule Grammar.rules fuel) Tree.NameShaped := by
  cases r <;>
    repeat' first
      | exact Form.nameShaped_of_labelsNoName rfl
      | apply And.intro
      | exact fun _ _ _ => nameShaped_part _ _
      | exact fun _ _ _ _ => nameShaped_part _ _
      | exact fun t _ => nameShaped_withRole (by decide) t
      | exact fun _ _ t _ _ _ _ => nameShaped_withRole (by decide) t
      | exact fun _ _ _ _ h hd _ => (isName_of_propertyName h hd).withRole _
      | exact fun _ _ _ _ h hd _ => (isName_of_token h hd).withRole _
      | exact fun _ _ _ _ h hd _ =>
          ((run_either h).elim (isName_of_token · hd) (isName_of_token · hd)).withRole _

theorem nameShaped_of_parse {t : Text} {tree : Tree} (h : parse t = .ok tree) :
    tree.All Tree.NameShaped := by
  refine all_of_parse rules_nameShaped ?_ (nameShaped_part .program) h
  exact fun fuel => Form.nameShaped_of_labelsNoName rfl

/-! ## The shape of parsed trees -/

namespace Tree

mutual

theorem all_of_nodesAre {p : Kind → Bool} :
    ∀ t : Tree, t.nodesAre p = true → t.All fun s => s.children = [] ∨ p s.kind = true
  | .leaf .., _ => .inl rfl
  | .node role kind children, h => by
    rw [nodesAre, Bool.and_eq_true] at h
    exact ⟨.inr h.1, allIn_of_nodesAreAll children h.2⟩

theorem allIn_of_nodesAreAll {p : Kind → Bool} :
    ∀ ts : List Tree, nodesAreAll p ts = true →
      AllIn (fun s => s.children = [] ∨ p s.kind = true) ts
  | [], _ => trivial
  | t :: ts, h => by
    rw [nodesAreAll, Bool.and_eq_true] at h
    exact ⟨all_of_nodesAre t h.1, allIn_of_nodesAreAll ts h.2⟩

end

mutual

theorem All.imp₂ {P Q R : Tree → Prop} (hr : ∀ t, P t → Q t → R t) :
    ∀ t : Tree, t.All P → t.All Q → t.All R
  | .leaf .., hp, hq => hr _ hp hq
  | .node _ _ children, hp, hq => ⟨hr _ hp.1 hq.1, AllIn.imp₂ hr children hp.2 hq.2⟩

theorem AllIn.imp₂ {P Q R : Tree → Prop} (hr : ∀ t, P t → Q t → R t) :
    ∀ ts : List Tree, AllIn P ts → AllIn Q ts → AllIn R ts
  | [], _, _ => trivial
  | t :: ts, hp, hq => ⟨All.imp₂ hr t hp.1 hq.1, AllIn.imp₂ hr ts hp.2 hq.2⟩

end

theorem All.imp {P Q : Tree → Prop} (h : ∀ t, P t → Q t) {t : Tree} (ht : t.All P) : t.All Q :=
  All.imp₂ (fun s hs _ => h s hs) t ht ht

mutual

/-- What holds of a tree when it holds of everything below it holds of all trees. -/
theorem all_of_step {P Q : Tree → Prop}
    (step : ∀ t : Tree, t.All Q → (∀ c ∈ t.children, c.All P) → P t) : ∀ t : Tree, t.All Q → t.All P
  | .leaf _ _ _ _, h => step _ h nofun
  | .node _ _ children, h =>
    have hrow := allIn_of_step step children h.2
    ⟨step _ h (allIn_iff.1 hrow), hrow⟩

theorem allIn_of_step {P Q : Tree → Prop}
    (step : ∀ t : Tree, t.All Q → (∀ c ∈ t.children, c.All P) → P t) :
    ∀ ts : List Tree, AllIn Q ts → AllIn P ts
  | [], _ => trivial
  | t :: ts, h => ⟨all_of_step step t h.1, allIn_of_step step ts h.2⟩

end

/-- What the guards of the walk rely on. -/
structure Guarded (t : Tree) : Prop where
  /-- An identifier is a single token. -/
  identifier : t.kind = .identifier → t.children = []
  /-- The arguments of a call are neither a call nor a string. -/
  arguments : t.role = .arguments → t.kind ≠ .call ∧ t.kind ≠ .string
  name : t.NameShaped

end Tree

theorem guarded_of_parse {t : Text} {tree : Tree} (h : parse t = .ok tree) :
    tree.All Tree.Guarded := by
  have hleaves := Tree.all_of_nodesAre tree (identifiers_are_leaves h)
  have hboth := Tree.All.imp₂ (fun _ hs hn => And.intro hs hn) tree (sound_of_parse h) hleaves
  refine Tree.All.imp₂ ?_ tree hboth (nameShaped_of_parse h)
  rintro s ⟨hsound, hleaf⟩ hname
  refine ⟨?_, fun hr => ⟨(hsound.opens hr).1, (hsound.opens hr).2.1⟩, hname⟩
  intro hk
  simpa [hk] using hleaf

/-! ## Nodes that code is written into -/

/-- A tree that code can be written into. -/
structure Tree.Formed (t : Tree) : Prop where
  /-- A node has children. -/
  filled : ∀ role kind, t ≠ .node role kind []
  /-- An object literal closes with a symbol. -/
  closes : t.kind = .object → ∃ row gap, t.children = row ++ [.leaf .part .mark gap ['\x7d']]
  /-- A call starts with what is called. -/
  callee : t.kind = .call → ∃ callee others, t.children = callee :: others ∧ callee.role = .callee

namespace Tree

theorem formed_leaf {kind : Kind} (hk : kind ≠ .object ∧ kind ≠ .call) (role : Role) (gap : Gap)
    (text : Text) : (Tree.leaf role kind gap text).Formed :=
  ⟨nofun, fun h => absurd h hk.1, fun h => absurd h hk.2⟩

theorem Formed.withRole {t : Tree} (h : t.Formed) (role : Role) : (t.withRole role).Formed := by
  refine ⟨?_, by simpa using h.closes, by simpa using h.callee⟩
  intro role' kind he
  cases t with
  | leaf => cases he
  | node role'' kind' children =>
    cases he
    exact h.filled _ _ rfl

end Tree

/-- A form that only adds trees, and adds one, fills the node it is read for. -/
theorem done_ne_nil_of_run {fuel : Nat} {f : Form Rule} (hf : f.frame false = some true) {s q : Progress}
    (h : f.run (readRule Grammar.rules fuel) s = some q) : q.done ≠ [] := by
  obtain ⟨mine, hdone, hne⟩ :=
    Form.run_frame (readRule_frame fuel) f hf s q h [] s.done rfl nofun
  rw [hdone]
  exact List.append_ne_nil_of_left_ne_nil (hne rfl) _

/-- A form that does not reach back keeps the tree that it extends in front. -/
theorem exists_row_of_run {fuel : Nat} {f : Form Rule} (hf : (f.frame false).isSome = true) {t : Tree}
    {rest : Text} {q : Progress} (h : f.run (readRule Grammar.rules fuel) ⟨[t], rest⟩ = some q) :
    ∃ others, q.done.reverse = t :: others := by
  obtain ⟨own, hown⟩ := Option.isSome_iff_exists.1 hf
  obtain ⟨mine, hdone, -⟩ := Form.run_frame (readRule_frame fuel) f hown _ q h [] [t] rfl nofun
  exact ⟨mine.reverse, by rw [hdone, List.reverse_append]; rfl⟩

/-- Whether all nodes that a form builds are filled, with none among them that is an object literal, nor
a call that does not start with what is called. -/
def Form.isFormed : Form Rule → Bool
  | .token _ kind _ => kind != .object && kind != .call
  | .joined kind _ => kind != .object && kind != .call
  | .both f g => isFormed f && isFormed g
  | .either f g => isFormed f && isFormed g
  | .many f => isFormed f
  | .node kind f => kind != .object && kind != .call && f.frame false == some true && isFormed f
  | .extend _ role kind f =>
    kind != .object && (kind != .call || role == .callee) && (f.frame false).isSome && isFormed f
  | .label _ f => isFormed f
  | _ => true

theorem formed_node {kind : Kind} (hk : kind ≠ .object ∧ kind ≠ .call) {row : List Tree}
    (hrow : row ≠ []) : (Tree.node .part kind row).Formed := by
  refine ⟨?_, fun h => absurd h hk.1, fun h => absurd h hk.2⟩
  rintro role' kind' he
  cases he
  exact hrow rfl

theorem formed_extended {role : Role} {kind : Kind} (hk : kind ≠ .object)
    (hcall : kind = .call → role = .callee) {row : List Tree} {t : Tree} {others : List Tree}
    (hrow : row = t.withRole role :: others) : (Tree.node .part kind row).Formed := by
  subst hrow
  refine ⟨nofun, fun h => absurd h hk, fun h => ⟨_, others, rfl, ?_⟩⟩
  rw [Tree.role_withRole, hcall h]

theorem Form.formed_of_isFormed {fuel : Nat} {f : Form Rule} (h : f.isFormed = true) :
    f.Grounded (readRule Grammar.rules fuel) Tree.Formed := by
  induction f with
  | nothing | check | rule => trivial
  | token markup kind lexeme | joined kind lexeme =>
    rw [isFormed, Bool.and_eq_true, bne_iff_ne, bne_iff_ne] at h
    exact Tree.formed_leaf h .part
  | both f g ihf ihg | either f g ihf ihg =>
    rw [isFormed, Bool.and_eq_true] at h
    exact ⟨ihf h.1, ihg h.2⟩
  | many f ihf => exact ihf h
  | node kind f ihf =>
    rw [isFormed, Bool.and_eq_true, Bool.and_eq_true, Bool.and_eq_true, bne_iff_ne, bne_iff_ne,
      beq_iff_eq] at h
    refine ⟨ihf h.2, fun rest q hq => formed_node h.1.1 ?_⟩
    exact List.reverse_ne_nil_iff.2 (done_ne_nil_of_run h.1.2 hq)
  | extend accepts role kind f ihf =>
    rw [isFormed, Bool.and_eq_true, Bool.and_eq_true, Bool.and_eq_true, Bool.or_eq_true, bne_iff_ne,
      bne_iff_ne, beq_iff_eq] at h
    obtain ⟨⟨⟨hobject, hcall⟩, hframe⟩, hf⟩ := h
    refine ⟨ihf hf, fun t ht => ht.withRole role, fun t rest q hq => ?_⟩
    obtain ⟨others, hrow⟩ := exists_row_of_run hframe hq
    exact formed_extended hobject (fun hk => hcall.resolve_left (not_not.2 hk)) hrow
  | label role f ihf => exact ⟨ihf h, fun _ _ t _ _ _ ht => ht.withRole role⟩

/-- An object literal closes with its symbol. -/
theorem formed_object {fuel : Nat} {f g : Form Rule} {rest : Text} {q : Progress}
    (h : (Form.both f (.both g (.token false .mark (symbol "\x7d")))).run
      (readRule Grammar.rules fuel) ⟨[], rest⟩ = some q) :
    (Tree.node .part .object q.done.reverse).Formed := by
  obtain ⟨opened, -, h⟩ := Option.bind_eq_some_iff.1 h
  obtain ⟨items, -, h⟩ := Option.bind_eq_some_iff.1 h
  obtain ⟨n, hn, rfl⟩ := Option.map_eq_some_iff.1 h
  rw [take_of_symbol hn, List.reverse_cons]
  refine ⟨?_, fun _ => ⟨_, _, rfl⟩, nofun⟩
  intro role kind he
  simp at he

/-- Every tree that the grammar builds is formed. -/
theorem rules_formed (fuel : Nat) (r : Rule) :
    (Grammar.rules r).Grounded (readRule Grammar.rules fuel) Tree.Formed := by
  cases r with
  | object => exact ⟨Form.formed_of_isFormed rfl, fun _ _ h => formed_object h⟩
  | _ => exact Form.formed_of_isFormed rfl

/-- Every tree below the root of a parsed script is formed. -/
theorem formed_of_parse {t : Text} {tree : Tree} (h : parse t = .ok tree) :
    ∃ children, tree = .node .part .program children ∧ ∀ c ∈ children, c.All Tree.Formed :=
  all_children_of_parse rules_formed (fun _ => Form.formed_of_isFormed rfl) h

/-- A parsed tree, in all respects that matter to a walk and to the code that it writes. -/
structure Tree.Written (t : Tree) : Prop extends Tree.Sound t, Tree.Guarded t, Tree.Formed t

theorem written_of_parse {source : Text} {tree : Tree} (hp : parse source = .ok tree) :
    ∃ children, tree = .node .part .program children ∧ ∀ c ∈ children, c.All Tree.Written := by
  have hsound := sound_of_parse hp
  have hguarded := guarded_of_parse hp
  obtain ⟨children, rfl, hformed⟩ := formed_of_parse hp
  refine ⟨children, rfl, fun c hc => ?_⟩
  have hboth := Tree.All.imp₂ (fun _ hs hg => And.intro hs hg) c (hsound.child hc) (hguarded.child hc)
  exact Tree.All.imp₂ (fun _ h hf => ⟨h.1, h.2, hf⟩) c hboth (hformed c hc)

end Phrasebook.Script
