import Phrasebook.Proofs.Paths

/-!
Which files a conversion reaches, and what each of them becomes.

A file of a project is named by its place below the root. What lies in an entry that is not converted,
and what is ignored, is copied (`copies`); every hidden name on the way to a file keeps it from being
reached, unless it lies in something that is copied (`reaches`). Whatever is reached becomes what
`outputOf` says; nothing does for a script that cannot be read.

The walk is a list of tasks. Main statement: together they handle every file that is reached, once and
in the order of the names (`tasks_plans`).
-/

namespace Phrasebook

open FileTree (IsName)

namespace Project

/-! ## What is reached -/

/-- Whether what lies at a place below the root is copied as it is: its entry of the root is not
converted, or it is ignored. -/
def copies (p : Project) : Location → Bool
  | [] => false
  | name :: rest =>
    !p.converts (p.root.child name) || p.ignores (p.root.descend (name :: rest))

/-- Whether the walk goes on from a place by names: hidden ones count only where all is copied. -/
def reachesFrom (p : Project) (here : Location) : Location → Bool
  | [] => true
  | name :: rest => (!isHidden name || p.copies here) && p.reachesFrom (here ++ [name]) rest

/-- Whether the walk comes to a place below the root. -/
def reaches (p : Project) (rel : Location) : Bool := p.reachesFrom [] rel

/-- What a file becomes in the copy, if anything. -/
def outputOf (p : Project) (style : Style) (rel : Location) (content : Content) : Option Content :=
  if p.copies rel then some content
  else match content with
    | .bytes _ => some content
    | .text source =>
      if (p.root.descend rel).extension? = some "js".toList then
        match Script.localizeScript style.bindings style.mergeLocale source with
        | .ok r => some (.text r.output)
        | .error _ => none
      else if (p.root.descend rel).extension? = some "wxml".toList then
        match Template.localizeTemplate style.bindings
            (some (style.bindings.modulePath (rel.length - 1))) source with
        | .ok r => some (.text r.output)
        | .error _ => some content
      else some content

/-- The files that are reached, in the order of the walk. -/
def reachedFiles (p : Project) (tree : FileTree) : List (Location × Content) :=
  (tree.contentsAt []).filter fun f => p.reaches f.1

variable {p : Project}

theorem reachesFrom_append (here rel rest : Location) :
    p.reachesFrom here (rel ++ rest) = (p.reachesFrom here rel && p.reachesFrom (here ++ rel) rest) := by
  induction rel generalizing here with
  | nil => simp [reachesFrom]
  | cons name rel ih => simp [reachesFrom, ih, Bool.and_assoc]

theorem isUnder_descend {path root : Path} {rel : Location} (h : ∀ name ∈ rel, IsName name)
    (hu : path.isUnder root = true) : (path.descend rel).isUnder root = true := by
  simp only [Path.isUnder, Bool.and_eq_true, List.isPrefixOf_iff_prefix] at hu ⊢
  rw [Path.isAbsolute_descend h, Path.names_descend h]
  exact ⟨hu.1, hu.2.trans (List.prefix_append ..)⟩

/-- What lies below something that is copied is copied. -/
theorem copies_append {rel rest : Location} (h : ∀ name ∈ rest, IsName name)
    (hc : p.copies rel = true) : p.copies (rel ++ rest) = true := by
  cases rel with
  | nil => cases hc
  | cons name rel =>
    rw [copies, Bool.or_eq_true] at hc
    rw [List.cons_append, copies, Bool.or_eq_true]
    refine hc.imp_right fun hi => ?_
    obtain ⟨i, hm, hu⟩ := List.any_eq_true.1 hi
    refine List.any_eq_true.2 ⟨i, hm, ?_⟩
    rw [← List.cons_append, Path.descend_append]
    exact isUnder_descend h hu

theorem reachesFrom_of_copies {here rest : Location} (h : ∀ name ∈ rest, IsName name)
    (hc : p.copies here = true) : p.reachesFrom here rest = true := by
  induction rest generalizing here with
  | nil => rfl
  | cons name rest ih =>
    have hname : ∀ n ∈ [name], IsName n := fun n hn => h n (by simp_all)
    rw [reachesFrom, hc, Bool.or_true, Bool.true_and]
    exact ih (fun n hn => h n (List.mem_cons_of_mem name hn)) (copies_append hname hc)

/-- The files of a well-formed tree at a place, with the names that lead to them. -/
theorem exists_of_mem_contentsAt {tree : FileTree} (hw : tree.WellFormed) {rel : Location}
    {f : Location × Content} (hf : f ∈ tree.contentsAt rel) :
    ∃ rest, f.1 = rel ++ rest ∧ ∀ name ∈ rest, IsName name := by
  obtain ⟨rest, hrest, hfile⟩ := (FileTree.mem_contentsAt_iff hw).1 (show (f.1, f.2) ∈ _ from hf)
  refine ⟨rest, hrest, fun name hn => hw.isName_of_mem ?_ hn⟩
  rw [FileTree.fileAt?_eq_some_iff.1 hfile]
  exact Option.some_ne_none _

theorem outputOf_of_copies {rel : Location} (hc : p.copies rel = true) (style : Style)
    (content : Content) : p.outputOf style rel content = some content := by
  unfold outputOf
  rw [if_pos hc]

/-- In what is copied everything is reached, and stays as it is. -/
theorem of_copies {tree : FileTree} (hw : tree.WellFormed) {rel : Location}
    (hr : p.reaches rel = true) (hc : p.copies rel = true) :
    (tree.contentsAt rel).filter (fun f => p.reaches f.1) = tree.contentsAt rel ∧
      ∀ style, ∀ f ∈ tree.contentsAt rel, p.outputOf style f.1 f.2 = some f.2 := by
  refine ⟨List.filter_eq_self.2 fun f hf => ?_, fun style f hf => ?_⟩
  · obtain ⟨rest, hrest, hnames⟩ := exists_of_mem_contentsAt hw hf
    rw [reaches] at hr
    rw [hrest, reaches, reachesFrom_append, hr, List.nil_append, reachesFrom_of_copies hnames hc]
    rfl
  · obtain ⟨rest, hrest, hnames⟩ := exists_of_mem_contentsAt hw hf
    rw [hrest]
    exact outputOf_of_copies (copies_append hnames hc) style f.2

/-- Below a hidden name nothing is reached, unless it lies in what is copied. -/
theorem filter_reaches_hidden {tree : FileTree} (hw : tree.WellFormed) {rel : Location} {name : Text}
    (hh : isHidden name = true) (hc : p.copies rel = false) :
    (tree.contentsAt (rel ++ [name])).filter (fun f => p.reaches f.1) = [] := by
  refine List.filter_eq_nil_iff.2 fun f hf => ?_
  obtain ⟨rest, hrest, -⟩ := exists_of_mem_contentsAt hw hf
  rw [hrest, List.append_assoc, reaches, reachesFrom_append, List.nil_append, List.singleton_append,
    reachesFrom, hh, hc]
  simp

/-! ## Tasks -/

/-- The files that a task handles, each with what it becomes. -/
inductive Handles (p : Project) (style : Style) : Task → List (Location × Content) → Prop
  | enter {rel : Location} (h : ∀ name ∈ rel, IsName name) (hne : rel ≠ []) :
      Handles p style (.enter (p.root.descend rel)) []
  | copy {rel : Location} {tree : FileTree} (h : ∀ name ∈ rel, IsName name) (hne : rel ≠ [])
      (hw : tree.WellFormed) (ho : ∀ f ∈ tree.contentsAt rel, p.outputOf style f.1 f.2 = some f.2) :
      Handles p style (.copy (p.root.descend rel) tree) (tree.contentsAt rel)
  | script {rel : Location} {source : Text} (h : ∀ name ∈ rel, IsName name) (hne : rel ≠ [])
      (ho : p.outputOf style rel (.text source) =
        match Script.localizeScript style.bindings style.mergeLocale source with
        | .ok r => some (.text r.output)
        | .error _ => none) :
      Handles p style (.script (p.root.descend rel) source) [(rel, .text source)]
  | template {rel : Location} {source : Text} {depth : Nat} (h : ∀ name ∈ rel, IsName name)
      (hne : rel ≠ [])
      (ho : p.outputOf style rel (.text source) =
        match Template.localizeTemplate style.bindings (some (style.bindings.modulePath depth))
            source with
        | .ok r => some (.text r.output)
        | .error _ => some (.text source)) :
      Handles p style (.template (p.root.descend rel) source depth) [(rel, .text source)]

/-- The files that a row of tasks handles. -/
inductive Plans (p : Project) (style : Style) : List Task → List (Location × Content) → Prop
  | nil : Plans p style [] []
  | cons {task : Task} {tasks : List Task} {fs gs : List (Location × Content)}
      (h : Handles p style task fs) (hs : Plans p style tasks gs) :
      Plans p style (task :: tasks) (fs ++ gs)

variable {style : Style}

theorem Plans.single {task : Task} {fs : List (Location × Content)} (h : p.Handles style task fs) :
    p.Plans style [task] fs := by
  have hs := Plans.cons h .nil
  rwa [List.append_nil] at hs

theorem Plans.append {tasks tasks' : List Task} {fs gs : List (Location × Content)}
    (h : p.Plans style tasks fs) (h' : p.Plans style tasks' gs) :
    p.Plans style (tasks ++ tasks') (fs ++ gs) := by
  induction h with
  | nil => exact h'
  | cons h _ ih =>
    rw [List.append_assoc]
    exact .cons h ih

/-- What is done with a file of a converted entry. -/
theorem fileTask_handles {rel : Location} (h : ∀ name ∈ rel, IsName name) (hne : rel ≠ [])
    (hc : p.copies rel = p.ignores (p.root.descend rel)) (content : Content) :
    p.Handles style (p.fileTask (p.root.descend rel) (rel.length - 1) content) [(rel, content)] := by
  have hcopy : p.outputOf style rel content = some content →
      p.Handles style (.copy (p.root.descend rel) (.file content)) [(rel, content)] := by
    intro ho
    have hcontents : (FileTree.file content).contentsAt rel = [(rel, content)] := by
      rw [FileTree.contentsAt]
    rw [← hcontents]
    refine .copy h hne (.file content) fun f hf => ?_
    rw [hcontents] at hf
    obtain rfl := List.mem_singleton.1 hf
    exact ho
  unfold fileTask
  split
  · next hi => exact hcopy (outputOf_of_copies (hc.trans hi) style content)
  · next hi =>
    have hconverted : ¬ p.copies rel = true := by rwa [hc]
    unfold outputOf at hcopy
    rw [if_neg hconverted] at hcopy
    split
    · exact hcopy rfl
    · next source =>
      split
      · next hjs =>
        refine .script h hne ?_
        unfold outputOf
        rw [if_neg hconverted]
        exact if_pos hjs
      · next hjs =>
        split
        · next hwxml =>
          refine .template h hne ?_
          unfold outputOf
          rw [if_neg hconverted]
          exact (if_neg hjs).trans (if_pos hwxml)
        · next hwxml => exact hcopy ((if_neg hjs).trans (if_neg hwxml))

theorem descend_snoc (root : Path) (rel : Location) (name : Text) :
    root.descend (rel ++ [name]) = (root.descend rel).child name := Path.descend_append root rel [name]

theorem isName_snoc {rel : Location} (h : ∀ name ∈ rel, IsName name) {name : Text} (hn : IsName name) :
    ∀ n ∈ rel ++ [name], IsName n := by
  intro n hm
  rcases List.mem_append.1 hm with hm | hm
  · exact h n hm
  · exact List.mem_singleton.1 hm ▸ hn

/-- A place in an entry of the root that is converted: only what is ignored is copied there. -/
def InConverted (p : Project) (rel : Location) : Prop :=
  ∀ rest, p.copies (rel ++ rest) = p.ignores (p.root.descend (rel ++ rest))

theorem InConverted.snoc {rel : Location} (h : p.InConverted rel) (name : Text) :
    p.InConverted (rel ++ [name]) := by
  intro rest
  rw [List.append_assoc]
  exact h ([name] ++ rest)

theorem InConverted.self {rel : Location} (h : p.InConverted rel) :
    p.copies rel = p.ignores (p.root.descend rel) := by
  have hself := h []
  rwa [List.append_nil] at hself

/-- The tasks for the entries of a directory, if those for each entry are as they should be. -/
theorem entryTasks_plans {rel : Location} (hr : p.reaches rel = true) (hc : p.copies rel = false)
    {es : List (Text × FileTree)} (hw : ∀ e ∈ es, e.2.WellFormed)
    (ih : ∀ e ∈ es, p.reaches (rel ++ [e.1]) = true →
      p.Plans style (p.convertTasks (p.root.descend (rel ++ [e.1])) rel.length e.2)
        ((e.2.contentsAt (rel ++ [e.1])).filter fun f => p.reaches f.1)) :
    p.Plans style (p.entryTasks (p.root.descend rel) rel.length es)
      ((FileTree.contentsIn rel es).filter fun f => p.reaches f.1) := by
  induction es with
  | nil =>
    rw [entryTasks, FileTree.contentsIn]
    exact .nil
  | cons e es ihs =>
    have hrest := ihs (fun x hx => hw x (List.mem_cons_of_mem e hx))
      fun x hx => ih x (List.mem_cons_of_mem e hx)
    rw [entryTasks, FileTree.contentsIn, List.filter_append]
    by_cases hh : isHidden e.1 = true
    · rw [if_pos hh, filter_reaches_hidden (hw e (List.mem_cons_self ..)) hh hc]
      exact hrest
    · rw [if_neg hh, ← descend_snoc]
      refine (ih e (List.mem_cons_self ..) ?_).append hrest
      rw [reaches] at hr
      rw [reaches, reachesFrom_append, hr]
      simp [reachesFrom, hh]

/-- The tasks for a converted entry handle what is reached in it. -/
theorem convertTasks_plans {tree : FileTree} (hw : tree.WellFormed) {rel : Location}
    (h : ∀ name ∈ rel, IsName name) (hne : rel ≠ []) (hconv : p.InConverted rel)
    (hr : p.reaches rel = true) :
    p.Plans style (p.convertTasks (p.root.descend rel) (rel.length - 1) tree)
      ((tree.contentsAt rel).filter fun f => p.reaches f.1) := by
  induction hw generalizing rel with
  | file content =>
    rw [convertTasks, FileTree.contentsAt, List.filter_cons_of_pos (by exact hr), List.filter_nil]
    exact .single (fileTask_handles h hne hconv.self content)
  | @directory es order names below ih =>
    have hw : (FileTree.directory es).WellFormed := .directory order names below
    rw [convertTasks]
    split
    · next hi =>
      obtain ⟨hall, hout⟩ := of_copies hw hr (hconv.self.trans hi)
      rw [hall]
      exact .single (.copy h hne hw (hout style))
    · next hi =>
      have hc : p.copies rel = false := by
        rw [hconv.self]
        exact Bool.eq_false_iff.2 hi
      have hlength : rel.length - 1 + 1 = rel.length :=
        Nat.sub_add_cancel (List.length_pos_iff.2 hne)
      rw [hlength, FileTree.contentsAt]
      refine .cons (.enter h hne) (entryTasks_plans hr hc below fun e he hreach => ?_)
      have hplans := ih e he (isName_snoc h (names e he)) (by simp) (hconv.snoc e.1) hreach
      rwa [List.length_append, List.length_singleton, Nat.add_sub_cancel] at hplans

/-- The tasks of a project handle every file that is reached, once and in the order of the names. -/
theorem tasks_plans (p : Project) (style : Style) {es : List (Text × FileTree)}
    (hw : (FileTree.directory es).WellFormed) :
    p.Plans style (p.tasks (.directory es)) (p.reachedFiles (.directory es)) := by
  obtain ⟨-, names, below⟩ := hw.entries
  rw [tasks, reachedFiles, FileTree.contentsAt, FileTree.entries_directory]
  rw [FileTree.entries_directory] at names below
  clear hw
  induction es with
  | nil =>
    rw [FileTree.contentsIn]
    exact .nil
  | cons e es ih =>
    have hname := names e (List.mem_cons_self ..)
    have hwell := below e (List.mem_cons_self ..)
    have hnames : ∀ n ∈ [e.1], IsName n := fun n hn => List.mem_singleton.1 hn ▸ hname
    rw [List.flatMap_cons, FileTree.contentsIn, List.filter_append, List.nil_append]
    refine Plans.append ?_ (ih (fun x hx => names x (List.mem_cons_of_mem e hx))
      fun x hx => below x (List.mem_cons_of_mem e hx))
    unfold rootTasks
    dsimp only
    split
    · next hh =>
      have hroot : p.copies [] = false := rfl
      have hnone := filter_reaches_hidden hwell hh hroot
      rw [List.nil_append] at hnone
      rw [hnone]
      exact .nil
    · next hh =>
      have hreach : p.reaches [e.1] = true := by simp [reaches, reachesFrom, hh]
      split
      · next hconv =>
        refine convertTasks_plans hwell hnames (List.cons_ne_nil _ _) ?_ hreach
        intro rest
        rw [List.singleton_append, copies, hconv]
        rfl
      · next hconv =>
        have hc : p.copies [e.1] = true := by simp [copies, hconv]
        obtain ⟨hall, hout⟩ := of_copies hwell hreach hc
        rw [hall]
        exact .single (.copy hnames (List.cons_ne_nil _ _) hwell (hout style))

end Project

end Phrasebook
