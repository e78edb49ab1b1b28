import Phrasebook.Dictionary.Table
import Phrasebook.FileTree.Access

/-!
File trees as they grow. Nothing is ever removed or overwritten: a tree is only put at a place that is
free in a directory that exists (`Free`), and all that a run does to the files is a row of such steps
(`Built`).

A tree is seen through its files (`fileAt?`), or as the list of them in the order of their names
(`contentsAt`). Main statements:

    Free tree place → (tree.put new place).fileAt? other =
      if place <+: other then new.fileAt? … else tree.fileAt? other              (Free.fileAt?_put)
    Built S tree tree' → nothing changes below a place that no step reaches       (Built.get?_eq)
    making directories leaves the list of the files as it is       (Built.contents_of_makesDirectory)
-/

namespace Phrasebook.FileTree

/-! ## Places -/

theorem get?_append (tree : FileTree) (place rest : Location) :
    tree.get? (place ++ rest) = (tree.get? place).bind fun t => t.get? rest := by
  induction place generalizing tree with
  | nil => rfl
  | cons name place ih =>
    rw [List.cons_append, get?, get?]
    cases tree.entries.lookup name with
    | none => rfl
    | some t => exact ih t

/-- What stands above something is there too. -/
theorem get?_above_ne_none {tree : FileTree} {place other : Location} (h : place <+: other)
    (ho : tree.get? other ≠ none) : tree.get? place ≠ none := by
  obtain ⟨rest, rfl⟩ := h
  intro hp
  rw [get?_append, hp] at ho
  exact ho rfl

/-- Above a directory there are only directories. -/
theorem directory_of_prefix {tree : FileTree} {place other : Location} {es : List (Text × FileTree)}
    (h : place <+: other) (ho : tree.get? other = some (.directory es)) :
    ∃ es', tree.get? place = some (.directory es') := by
  obtain ⟨rest, rfl⟩ := h
  rw [get?_append] at ho
  obtain ⟨t, ht, hrest⟩ := Option.bind_eq_some_iff.1 ho
  cases t with
  | directory es' => exact ⟨es', ht⟩
  | file content => cases rest <;> cases hrest

/-- What is put at a place is found there, with all that it holds. -/
theorem get?_put_append (tree new : FileTree) (place rest : Location) :
    (tree.put new place).get? (place ++ rest) = new.get? rest := by
  rw [get?_append, get?_put_self]
  rfl

/-- Above a place where something is put there are directories. -/
theorem get?_put_above (tree new : FileTree) (place rest : Location) :
    (tree.put new (place ++ rest)).get? place =
      some (((tree.get? place).getD empty).put new rest) := by
  induction place generalizing tree with
  | nil => rfl
  | cons name place ih =>
    rw [List.cons_append, put, get?, entries_directory, lookup_setEntry_self]
    show (((tree.entries.lookup name).getD empty).put new (place ++ rest)).get? place = _
    rw [ih]
    cases hl : tree.entries.lookup name with
    | some t =>
      rw [get?, hl]
      rfl
    | none =>
      rw [get?, hl]
      cases place <;> rfl

/-- The content of the file at a place. -/
def fileAt? (tree : FileTree) (place : Location) : Option Content :=
  match tree.get? place with
  | some (.file content) => some content
  | _ => none

theorem fileAt?_eq_some_iff {tree : FileTree} {place : Location} {content : Content} :
    tree.fileAt? place = some content ↔ tree.get? place = some (.file content) := by
  unfold fileAt?
  split <;> simp_all

theorem fileAt?_of_directory {tree : FileTree} {place : Location} {es : List (Text × FileTree)}
    (h : tree.get? place = some (.directory es)) : tree.fileAt? place = none := by
  rw [fileAt?, h]

theorem fileAt?_of_none {tree : FileTree} {place : Location} (h : tree.get? place = none) :
    tree.fileAt? place = none := by
  rw [fileAt?, h]

theorem fileAt?_append_congr {tree tree' : FileTree} {place : Location}
    (h : tree.get? place = tree'.get? place) (rest : Location) :
    tree.fileAt? (place ++ rest) = tree'.fileAt? (place ++ rest) := by
  rw [fileAt?, get?_append, h, ← get?_append, fileAt?]

/-! ## Free places -/

/-- A place where nothing stands, in a directory that exists. -/
def Free (tree : FileTree) (place : Location) : Prop :=
  tree.get? place = none ∧ ∃ parent name es, place = parent ++ [name] ∧
    tree.get? parent = some (.directory es)

variable {tree : FileTree} {place : Location}

theorem Free.not_prefix (h : tree.Free place) {other : Location} (ho : tree.get? other ≠ none) :
    ¬ place <+: other :=
  fun hp => get?_above_ne_none hp ho h.1

/-- Directories lead to a free place. -/
theorem Free.directory_above (h : tree.Free place) {other : Location} (ho : other <+: place)
    (hne : other ≠ place) : ∃ es, tree.get? other = some (.directory es) := by
  obtain ⟨-, parent, name, es, rfl, hparent⟩ := h
  rcases List.prefix_concat_iff.1 ho with rfl | ho
  · exact absurd rfl hne
  · exact directory_of_prefix ho hparent

/-- Putting something at a free place changes no file elsewhere. -/
theorem Free.fileAt?_put (h : tree.Free place) (new : FileTree) (other : Location) :
    (tree.put new place).fileAt? other =
      if place <+: other then new.fileAt? (other.drop place.length) else tree.fileAt? other := by
  split
  · next hp =>
    obtain ⟨rest, rfl⟩ := hp
    rw [fileAt?, get?_put_append, List.drop_left]
    rfl
  · next hp =>
    by_cases ho : other <+: place
    · have hne : other ≠ place := fun he => hp (he ▸ List.prefix_rfl)
      obtain ⟨es, hes⟩ := h.directory_above ho hne
      obtain ⟨rest, rfl⟩ := ho
      obtain ⟨name, rest, rfl⟩ : ∃ name rest', rest = name :: rest' :=
        List.exists_cons_of_ne_nil fun he => hne (by rw [he, List.append_nil])
      rw [fileAt?_of_directory hes, fileAt?, get?_put_above]
      rfl
    · rw [fileAt?, get?_put_of_apart _ _ hp ho]
      rfl

/-! ## Growing -/

/-- A tree that comes from another one by putting things at free places. `S` says which. -/
inductive Built (S : Location → FileTree → Prop) (tree : FileTree) : FileTree → Prop
  | refl : Built S tree tree
  | put {mid new : FileTree} {place : Location} (h : Built S tree mid) (hf : mid.Free place)
      (hs : S place new) : Built S tree (mid.put new place)

namespace Built

variable {S T : Location → FileTree → Prop} {tree tree' tree'' : FileTree}

theorem trans (h : Built S tree tree') (h' : Built S tree' tree'') : Built S tree tree'' := by
  induction h' with
  | refl => exact h
  | put _ hf hs ih => exact .put ih hf hs

theorem mono (h : Built S tree tree') (hst : ∀ place new, S place new → T place new) :
    Built T tree tree' := by
  induction h with
  | refl => exact .refl
  | put _ hf hs ih => exact .put ih hf (hst _ _ hs)

/-- Nothing changes below a place that no step reaches. -/
theorem get?_eq (h : Built S tree tree') {source : Location} (hsource : tree.get? source ≠ none)
    (hs : ∀ place new, S place new → ¬ source <+: place) : tree'.get? source = tree.get? source := by
  induction h with
  | refl => rfl
  | put _ hf hp ih =>
    rw [← ih]
    rw [← ih] at hsource
    exact get?_put_of_apart _ _ (hf.not_prefix hsource) (hs _ _ hp)

end Built

/-! ## Well-formed trees -/

/-- A name that an entry of a directory can have. -/
def IsName (name : Text) : Prop := Path.isIdle name = false ∧ name ≠ Path.above ∧ '/' ∉ name

instance (name : Text) : Decidable (IsName name) :=
  inferInstanceAs (Decidable (Path.isIdle name = false ∧ name ≠ Path.above ∧ '/' ∉ name))

/-- Entries in the order of their names, each name once. -/
def InOrder (es : List (Text × FileTree)) : Prop :=
  es.Pairwise fun a b => Text.blt a.1 b.1 = true

instance (es : List (Text × FileTree)) : Decidable (InOrder es) :=
  inferInstanceAs (Decidable (es.Pairwise fun a b => Text.blt a.1 b.1 = true))

/-- A tree whose directories hold entries with proper names, in order. -/
inductive WellFormed : FileTree → Prop
  | file (content : Content) : WellFormed (.file content)
  | directory {es : List (Text × FileTree)} (order : InOrder es) (names : ∀ e ∈ es, IsName e.1)
      (below : ∀ e ∈ es, WellFormed e.2) : WellFormed (.directory es)

theorem lookup_eq_some_iff {es : List (Text × FileTree)} (h : InOrder es) {name : Text} {t : FileTree} :
    es.lookup name = some t ↔ (name, t) ∈ es := by
  induction es with
  | nil => simp
  | cons e es ih =>
    obtain ⟨k, v⟩ := e
    obtain ⟨hk, hrest⟩ := List.pairwise_cons.1 h
    by_cases he : name = k
    · subst he
      -- the name does not come again
      have hn : (name, t) ∉ es := by
        intro hm
        have := hk _ hm
        rw [Text.blt_irrefl] at this
        cases this
      simp [hn, eq_comm]
    · have hne : (name == k) = false := beq_false_of_ne he
      simp [List.lookup_cons, hne, he, ih hrest]

/-- Where an entry is set. -/
theorem setEntry_split {es : List (Text × FileTree)} (h : InOrder es) (name : Text) :
    ∃ before old after, es = before ++ old ++ after ∧ old = ((es.lookup name).map (name, ·)).toList ∧
      (∀ e ∈ before, Text.blt e.1 name = true) ∧ (∀ e ∈ after, Text.blt name e.1 = true) ∧
      ∀ t, setEntry name t es = before ++ (name, t) :: after := by
  induction es with
  | nil => exact ⟨[], [], [], rfl, rfl, by simp, by simp, fun t => rfl⟩
  | cons e es ih =>
    obtain ⟨k, v⟩ := e
    obtain ⟨hk, hrest⟩ := List.pairwise_cons.1 h
    by_cases he : k = name
    · subst he
      exact ⟨[], [(k, v)], es, rfl, by simp, by simp, hk, fun t => by simp [setEntry]⟩
    · have hne : (name == k) = false := beq_false_of_ne (Ne.symm he)
      by_cases hlt : Text.blt name k = true
      · have hafter : ∀ e ∈ (k, v) :: es, Text.blt name e.1 = true :=
          List.forall_mem_cons.2 ⟨hlt, fun e hm => Text.blt_trans hlt (hk e hm)⟩
        have hnone : ((k, v) :: es).lookup name = none := by
          rw [Option.eq_none_iff_forall_ne_some]
          intro t ht
          have := hafter _ ((lookup_eq_some_iff h).1 ht)
          rw [Text.blt_irrefl] at this
          cases this
        exact ⟨[], [], (k, v) :: es, rfl, by rw [hnone]; rfl, by simp, hafter,
          fun t => by simp [setEntry, he, hlt]⟩
      · obtain ⟨before, old, after, hsplit, hold, hbefore, hafter, hset⟩ := ih hrest
        refine ⟨(k, v) :: before, old, after, by rw [hsplit]; rfl, ?_, ?_, hafter, ?_⟩
        · rw [hold, List.lookup_cons, hne]
        · exact List.forall_mem_cons.2
            ⟨Text.blt_trichotomy (Ne.symm he) (Bool.eq_false_iff.2 hlt), hbefore⟩
        · intro t
          simp [setEntry, he, hlt, hset t]

namespace WellFormed

variable {tree new : FileTree} {place : Location}

theorem entries (h : tree.WellFormed) :
    InOrder tree.entries ∧ (∀ e ∈ tree.entries, IsName e.1) ∧ ∀ e ∈ tree.entries, e.2.WellFormed := by
  cases h with
  | file content => exact ⟨List.Pairwise.nil, nofun, nofun⟩
  | directory order names below => exact ⟨order, names, below⟩

theorem lookup (h : tree.WellFormed) {name : Text} {t : FileTree}
    (ht : tree.entries.lookup name = some t) : t.WellFormed := by
  obtain ⟨order, -, below⟩ := h.entries
  exact below _ ((lookup_eq_some_iff order).1 ht)

theorem get? (h : tree.WellFormed) {t : FileTree} (ht : tree.get? place = some t) : t.WellFormed := by
  induction place generalizing tree with
  | nil =>
    cases ht
    exact h
  | cons name place ih =>
    rw [FileTree.get?] at ht
    split at ht
    · next s hs => exact ih (h.lookup hs) ht
    · cases ht

/-- What is found somewhere has proper names on the way. -/
theorem isName_of_mem (h : tree.WellFormed) (hp : tree.get? place ≠ none) {name : Text}
    (hn : name ∈ place) : IsName name := by
  induction place generalizing tree with
  | nil => cases hn
  | cons first place ih =>
    rw [FileTree.get?] at hp
    split at hp
    · next t ht =>
      obtain ⟨order, names, -⟩ := h.entries
      rcases List.mem_cons.1 hn with rfl | hn
      · exact names _ ((lookup_eq_some_iff order).1 ht)
      · exact ih (h.lookup ht) hp hn
    · exact absurd rfl hp

theorem empty : FileTree.empty.WellFormed := .directory List.Pairwise.nil nofun nofun

/-- Putting a tree somewhere keeps the order of names. -/
theorem put (h : tree.WellFormed) (hn : new.WellFormed) (hp : ∀ name ∈ place, IsName name) :
    (tree.put new place).WellFormed := by
  induction place generalizing tree with
  | nil => exact hn
  | cons name place ih =>
    obtain ⟨order, names, below⟩ := h.entries
    have hsub : (((tree.entries.lookup name).getD FileTree.empty).put new place).WellFormed := by
      refine ih ?_ fun n hm => hp n (List.mem_cons_of_mem name hm)
      cases hl : tree.entries.lookup name with
      | none => exact empty
      | some t => exact h.lookup hl
    obtain ⟨before, old, after, hsplit, -, hbefore, hafter, hset⟩ := setEntry_split order name
    have hmem : ∀ e ∈ before ++ after, e ∈ tree.entries := by
      intro e he
      rw [hsplit]
      rcases List.mem_append.1 he with he | he <;> simp [he]
    rw [FileTree.put, hset]
    refine .directory ?_ ?_ ?_
    · have horder : InOrder (before ++ after) := by
        unfold InOrder at order
        rw [hsplit] at order
        exact order.sublist (List.Sublist.append (List.sublist_append_left before old)
          (List.Sublist.refl after))
      obtain ⟨hb, ha, hba⟩ := List.pairwise_append.1 horder
      refine List.pairwise_append.2 ⟨hb, List.pairwise_cons.2 ⟨hafter, ha⟩, ?_⟩
      intro x hx y hy
      rcases List.mem_cons.1 hy with rfl | hy
      · exact hbefore x hx
      · exact hba x hx y hy
    · intro e he
      rcases List.mem_append.1 he with he | he
      · exact names e (hmem e (List.mem_append_left _ he))
      · rcases List.mem_cons.1 he with rfl | he
        · exact hp name (List.mem_cons_self ..)
        · exact names e (hmem e (List.mem_append_right _ he))
    · intro e he
      rcases List.mem_append.1 he with he | he
      · exact below e (hmem e (List.mem_append_left _ he))
      · rcases List.mem_cons.1 he with rfl | he
        · exact hsub
        · exact below e (hmem e (List.mem_append_right _ he))

end WellFormed

/-! ## The files of a tree -/

mutual

/-- The files of a tree that stands at a place, each with its place, in the order of the names. -/
def contentsAt (place : Location) : FileTree → List (Location × Content)
  | .file content => [(place, content)]
  | .directory es => contentsIn place es

/-- The files of a row of entries. -/
def contentsIn (place : Location) : List (Text × FileTree) → List (Location × Content)
  | [] => []
  | e :: es => contentsAt (place ++ [e.1]) e.2 ++ contentsIn place es

end

theorem contentsIn_eq (place : Location) (es : List (Text × FileTree)) :
    contentsIn place es = es.flatMap fun e => contentsAt (place ++ [e.1]) e.2 := by
  induction es with
  | nil => rw [contentsIn, List.flatMap_nil]
  | cons e es ih => rw [contentsIn, ih, List.flatMap_cons]

/-- The list of files holds what is found at their places. -/
theorem mem_contentsAt_iff {tree : FileTree} (h : tree.WellFormed) {place other : Location}
    {content : Content} :
    (other, content) ∈ tree.contentsAt place ↔
      ∃ rest, other = place ++ rest ∧ tree.fileAt? rest = some content := by
  induction h generalizing place with
  | file c =>
    simp only [contentsAt, List.mem_singleton, Prod.mk.injEq, fileAt?_eq_some_iff]
    constructor
    · rintro ⟨rfl, rfl⟩
      exact ⟨[], by simp, rfl⟩
    · rintro ⟨rest, rfl, hrest⟩
      cases rest with
      | nil =>
        cases hrest
        simp
      | cons name rest => cases hrest
  | @directory es order names below ih =>
    rw [contentsAt, contentsIn_eq, List.mem_flatMap]
    constructor
    · rintro ⟨e, he, hm⟩
      obtain ⟨rest, rfl, hrest⟩ := (ih e he).1 hm
      refine ⟨e.1 :: rest, by simp, ?_⟩
      have hl : es.lookup e.1 = some e.2 := (lookup_eq_some_iff order).2 he
      rw [fileAt?_eq_some_iff, get?, entries_directory, hl]
      exact fileAt?_eq_some_iff.1 hrest
    · rintro ⟨rest, rfl, hrest⟩
      rw [fileAt?_eq_some_iff] at hrest
      cases rest with
      | nil => cases hrest
      | cons name rest =>
        rw [get?, entries_directory] at hrest
        split at hrest
        · next t ht =>
          refine ⟨(name, t), (lookup_eq_some_iff order).1 ht, (ih _ ?_).2 ⟨rest, by simp, ?_⟩⟩
          · exact (lookup_eq_some_iff order).1 ht
          · exact fileAt?_eq_some_iff.2 hrest
        · cases hrest

/-- The same tree at another place. -/
theorem contentsAt_append {tree : FileTree} (h : tree.WellFormed) (base place : Location) :
    tree.contentsAt (base ++ place) = (tree.contentsAt place).map fun f => (base ++ f.1, f.2) := by
  induction h generalizing place with
  | file c => simp [contentsAt]
  | @directory es order names below ih =>
    rw [contentsAt, contentsAt]
    clear order names below
    induction es with
    | nil => rw [contentsIn, contentsIn, List.map_nil]
    | cons e es ihs =>
      rw [contentsIn, contentsIn, List.map_append, List.append_assoc, ih e (List.mem_cons_self ..),
        ihs fun x hx => ih x (List.mem_cons_of_mem e hx)]

/-- A tree holds as many files as its list. -/
theorem length_contentsAt {tree : FileTree} (h : tree.WellFormed) (place : Location) :
    (tree.contentsAt place).length = tree.fileCount := by
  induction h generalizing place with
  | file c => rw [contentsAt, fileCount, List.length_singleton]
  | @directory es order names below ih =>
    rw [contentsAt, fileCount]
    clear order names below
    induction es with
    | nil => rw [contentsIn, entriesCount, List.length_nil]
    | cons e es ihs =>
      rw [contentsIn, entriesCount, List.length_append, ih e (List.mem_cons_self ..),
        ihs fun x hx => ih x (List.mem_cons_of_mem e hx)]

/-- A free place below something is free in it. -/
theorem Free.below {tree t : FileTree} {place rest : Location} (h : tree.Free (place ++ rest))
    (ht : tree.get? place = some t) : t.Free rest := by
  obtain ⟨hnone, parent, name, es, hsplit, hparent⟩ := h
  rw [get?_append, ht] at hnone
  refine ⟨hnone, ?_⟩
  rcases List.eq_nil_or_concat rest with rfl | ⟨between, last, rfl⟩
  · cases hnone
  · rw [List.concat_eq_append, ← List.append_assoc] at hsplit
    obtain ⟨rfl, -⟩ := List.append_inj' hsplit rfl
    rw [get?_append, ht] at hparent
    exact ⟨between, last, es, List.concat_eq_append, hparent⟩

/-- An empty directory adds no file to the list. -/
theorem contentsAt_put_empty {tree : FileTree} (h : tree.WellFormed) {place : Location}
    (hf : tree.Free place) (base : Location) :
    (tree.put empty place).contentsAt base = tree.contentsAt base := by
  induction place generalizing tree base with
  | nil => cases hf.1
  | cons name rest ih =>
    obtain ⟨es, rfl⟩ : ∃ es, tree = .directory es := by
      obtain ⟨es, hes⟩ := hf.directory_above List.nil_prefix (List.cons_ne_nil name rest).symm
      exact ⟨es, Option.some.inj hes⟩
    obtain ⟨order, -, -⟩ := h.entries
    obtain ⟨before, old, after, hsplit, hold, -, -, hset⟩ := setEntry_split order name
    rw [entries_directory] at hsplit hold hset
    have hwhole : ((FileTree.directory es).put empty (name :: rest)).contentsAt base =
        contentsIn base before ++
          (contentsAt (base ++ [name]) (((es.lookup name).getD empty).put empty rest) ++
            contentsIn base after) := by
      rw [put, entries_directory, hset, contentsAt]
      simp only [contentsIn_eq, List.flatMap_append, List.flatMap_cons]
    have hself : (FileTree.directory es).contentsAt base =
        contentsIn base before ++ (contentsIn base old ++ contentsIn base after) := by
      rw [contentsAt, congrArg (contentsIn base) hsplit]
      simp only [contentsIn_eq, List.flatMap_append, List.append_assoc]
    rw [hwhole, hself, hold]
    cases hl : es.lookup name with
    | none =>
      -- the new directory stands here, since the one above it exists
      cases rest with
      | nil => simp [put, empty, contentsAt, contentsIn]
      | cons next rest =>
        have habove : [name] <+: name :: next :: rest := ⟨next :: rest, rfl⟩
        obtain ⟨es', hes'⟩ := hf.directory_above habove (by simp)
        rw [get?, entries_directory, hl] at hes'
        cases hes'
    | some t =>
      have ht : (FileTree.directory es).get? [name] = some t := by
        rw [get?, entries_directory, hl]
        rfl
      have hfree : (FileTree.directory es).Free ([name] ++ rest) := hf
      rw [Option.getD_some, ih (h.get? ht) (hfree.below ht)]
      simp [contentsIn_eq]

/-- Steps that make directories. -/
def MakesDirectory (place : Location) (new : FileTree) : Prop :=
  new = empty ∧ ∀ name ∈ place, IsName name

namespace Built

variable {S : Location → FileTree → Prop} {tree tree' : FileTree}

theorem wellFormed (h : Built S tree tree') (ht : tree.WellFormed)
    (hs : ∀ place new, S place new → new.WellFormed ∧ ∀ name ∈ place, IsName name) :
    tree'.WellFormed := by
  induction h with
  | refl => exact ht
  | put _ _ hp ih => exact ih.put (hs _ _ hp).1 (hs _ _ hp).2

/-- Making directories changes no file. -/
theorem fileAt?_of_makesDirectory (h : Built MakesDirectory tree tree') (other : Location) :
    tree'.fileAt? other = tree.fileAt? other := by
  induction h with
  | refl => rfl
  | @put mid new place _ hf hp ih =>
    obtain ⟨rfl, -⟩ := hp
    rw [hf.fileAt?_put, ← ih]
    split
    · next hprefix =>
      obtain ⟨rest, rfl⟩ := hprefix
      have hnone : mid.get? (place ++ rest) = none := by rw [get?_append, hf.1]; rfl
      rw [fileAt?_of_none hnone, List.drop_left]
      cases rest <;> rfl
    · rfl

/-- Making directories leaves a directory a directory with the same list of files. -/
theorem contents_of_makesDirectory (h : Built MakesDirectory tree tree') (ht : tree.WellFormed)
    {source : Location} {es : List (Text × FileTree)}
    (hsource : tree.get? source = some (.directory es)) :
    ∃ es', tree'.get? source = some (.directory es') ∧
      (FileTree.directory es').contentsAt [] = (FileTree.directory es).contentsAt [] := by
  induction h with
  | refl => exact ⟨es, hsource, rfl⟩
  | @put mid new place hb hf hp ih =>
    obtain ⟨rfl, hnames⟩ := hp
    obtain ⟨es', hget, hcontents⟩ := ih
    have hmid : mid.WellFormed := hb.wellFormed ht fun _ _ hp => ⟨hp.1 ▸ WellFormed.empty, hp.2⟩
    by_cases hprefix : source <+: place
    · obtain ⟨rest, rfl⟩ := hprefix
      have hbelow := hf.below hget
      obtain ⟨name, rest, rfl⟩ : ∃ name rest', rest = name :: rest' :=
        List.exists_cons_of_ne_nil fun he => by
          rw [he] at hbelow
          cases hbelow.1
      refine ⟨_, ?_, (contentsAt_put_empty (hmid.get? hget) hbelow []).trans hcontents⟩
      rw [get?_put_above, hget]
      rfl
    · have hsome : mid.get? source ≠ none := by
        rw [hget]
        exact Option.some_ne_none _
      refine ⟨es', ?_, hcontents⟩
      rw [get?_put_of_apart _ _ (hf.not_prefix hsome) hprefix, hget]

end Built

/-! ## Following paths -/

theorem follow_eq {tree : FileTree} {here place : Location} {names : List Text}
    (h : tree.follow here names = .ok place) : place = names.foldl stepFrom here := by
  induction names generalizing here with
  | nil =>
    cases h
    rfl
  | cons name names ih =>
    rw [follow] at h
    split at h
    · cases h
    · cases h
    · exact ih h

/-- Where names lead, nothing is missing but the last directory entry. -/
theorem free_of_follow {tree : FileTree} {here place : Location} {names : List Text}
    (h : tree.follow here names = .ok place) (hhere : tree.get? here ≠ none)
    (hnone : tree.get? place = none) : tree.Free place := by
  induction names generalizing here with
  | nil =>
    cases h
    exact absurd hnone hhere
  | cons name names ih =>
    rw [follow] at h
    split at h
    · cases h
    · cases h
    · next es hes =>
      by_cases hstep : tree.get? (stepFrom here name) = none
      · -- the way ends here, and only a new name can lead nowhere
        have hlast : place = stepFrom here name := by
          cases names with
          | nil =>
            cases h
            rfl
          | cons next names =>
            rw [follow, hstep] at h
            cases h
        have hname : stepFrom here name = here ++ [name] := by
          unfold stepFrom at hstep ⊢
          split at hstep
          · exact absurd hstep hhere
          · split at hstep
            · exact absurd hstep (get?_above_ne_none (List.dropLast_prefix here) hhere)
            · next hi ha => rw [if_neg hi, if_neg ha]
        exact ⟨hnone, here, name, es, hlast.trans hname, hes⟩
      · exact ih h hstep

theorem mem_foldl_stepFrom {names : List Text} {here : Location} {name : Text}
    (h : name ∈ names.foldl stepFrom here) :
    name ∈ here ∨ (name ∈ names ∧ Path.isIdle name = false ∧ name ≠ Path.above) := by
  induction names generalizing here with
  | nil => exact .inl h
  | cons n names ih =>
    rcases ih h with hm | ⟨hm, hname⟩
    · unfold stepFrom at hm
      split at hm
      · exact .inl hm
      · split at hm
        · exact .inl ((List.dropLast_sublist here).subset hm)
        · next hi ha =>
          rcases List.mem_append.1 hm with hm | hm
          · exact .inl hm
          · obtain rfl := List.mem_singleton.1 hm
            exact .inr ⟨List.mem_cons_self .., Bool.eq_false_iff.2 hi, ha⟩
    · exact .inr ⟨List.mem_cons_of_mem n hm, hname⟩

/-- A step that makes a directory on the way along names. -/
def OnTheWay (names : List Text) (place : Location) (new : FileTree) : Prop :=
  new = empty ∧ ∃ q, q <+: names ∧ place = q.foldl stepFrom []

theorem openDirectory_built {tree tree' : FileTree} {names : List Text}
    (h : tree.openDirectory names = .ok tree') : Built (OnTheWay names) tree tree' := by
  unfold openDirectory at h
  split at h
  · cases h
  · next place hplace =>
    split at h
    · next hnone =>
      cases h
      have hfree := free_of_follow hplace (Option.some_ne_none tree) hnone
      exact .put .refl hfree ⟨rfl, names, List.prefix_rfl, follow_eq hplace⟩
    · cases h
      exact .refl
    · cases h

/-- Making a directory with those above it only makes directories on the way, whether it succeeds or
not. -/
theorem openAll_built (tree : FileTree) (names : List Text) :
    Built (OnTheWay names.reverse) tree (tree.openAll names).1 := by
  induction names generalizing tree with
  | nil => exact .refl
  | cons name above ih =>
    have hshorter : ∀ place new, OnTheWay above.reverse place new →
        OnTheWay (name :: above).reverse place new := by
      rintro place new ⟨hnew, q, hq, hplace⟩
      refine ⟨hnew, q, hq.trans ?_, hplace⟩
      rw [List.reverse_cons]
      exact List.prefix_append ..
    have habove := (ih tree).mono hshorter
    rw [openAll]
    split
    · next h => exact openDirectory_built h
    · split
      · next h =>
        rw [h] at habove
        exact habove
      · next h =>
        rw [h] at habove
        split
        · next h' => exact habove.trans (openDirectory_built h')
        · exact habove
    · exact .refl

end Phrasebook.FileTree
