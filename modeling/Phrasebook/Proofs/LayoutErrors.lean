import Phrasebook.Proofs.Mirror

/-!
What a layout error leaves behind.

The source and the destination are looked at before anything is written, so what is wrong with them leaves
the files as they were. That a place is taken shows only when something is to go there, and by then a run
has made something: a run that ends in a collision leaves something below the destination (`run_ends`),
and there was nothing below the destination that was looked at, unless its path could not be followed yet;
then the run has made the directories that were missing (`files_ne_of_holdsEntry`).

Main statement: a layout error leaves the files as they were if and only if it is not a collision
(`layout_error_untouched_iff`).
-/

namespace Phrasebook

open FileTree (IsName Built)

namespace FileTree

/-! ## What is there stays there -/

/-- All that a tree holds is in another one too, a file as a file and a directory as a directory. -/
def KeepsPlaces (before after : FileTree) : Prop :=
  ∀ place t, before.get? place = some t →
    ∃ t', after.get? place = some t' ∧ t'.isDirectory = t.isDirectory

namespace KeepsPlaces

variable {a b c : FileTree}

theorem refl (a : FileTree) : a.KeepsPlaces a := fun _ t ht => ⟨t, ht, rfl⟩

theorem trans (h : a.KeepsPlaces b) (h' : b.KeepsPlaces c) : a.KeepsPlaces c := by
  intro place t ht
  obtain ⟨t', ht', hkind⟩ := h place t ht
  obtain ⟨t'', ht'', hkind'⟩ := h' place t' ht'
  exact ⟨t'', ht'', hkind'.trans hkind⟩

theorem ne_none (h : a.KeepsPlaces b) {place : Location} (hp : a.get? place ≠ none) :
    b.get? place ≠ none := by
  obtain ⟨t, ht⟩ := Option.ne_none_iff_exists'.1 hp
  obtain ⟨t', ht', -⟩ := h place t ht
  rw [ht']
  exact Option.some_ne_none t'

theorem directory (h : a.KeepsPlaces b) {place : Location} {es : List (Text × FileTree)}
    (hp : a.get? place = some (.directory es)) : ∃ es', b.get? place = some (.directory es') := by
  obtain ⟨t, ht, hkind⟩ := h place _ hp
  cases t with
  | file content => cases hkind
  | directory es' => exact ⟨es', ht⟩

/-- Names that can be followed can be followed afterwards. -/
theorem follow (h : a.KeepsPlaces b) {here place : Location} {names : List Text}
    (hf : a.follow here names = .ok place) : b.follow here names = .ok place := by
  induction names generalizing here with
  | nil => exact hf
  | cons name names ih =>
    rw [FileTree.follow] at hf
    split at hf
    · cases hf
    · cases hf
    · next es hes =>
      obtain ⟨es', hes'⟩ := h.directory hes
      rw [FileTree.follow, hes']
      exact ih hf

end KeepsPlaces

theorem Free.keepsPlaces {tree : FileTree} {place : Location} (h : tree.Free place)
    (new : FileTree) : tree.KeepsPlaces (tree.put new place) := by
  intro other t ht
  have hsome : tree.get? other ≠ none := by
    rw [ht]
    exact Option.some_ne_none t
  by_cases hp : other <+: place
  · have hne : other ≠ place := fun he => hsome (he ▸ h.1)
    obtain ⟨es, hes⟩ := h.directory_above hp hne
    obtain ⟨rest, rfl⟩ := hp
    obtain ⟨name, rest, rfl⟩ : ∃ name rest', rest = name :: rest' :=
      List.exists_cons_of_ne_nil fun he => hne (by rw [he, List.append_nil])
    obtain rfl : t = .directory es := Option.some.inj (ht.symm.trans hes)
    exact ⟨_, get?_put_above .., rfl⟩
  · exact ⟨t, (get?_put_of_apart _ _ (h.not_prefix hsome) hp).trans ht, rfl⟩

namespace Built

variable {S : Location → FileTree → Prop} {tree tree' : FileTree}

theorem keepsPlaces (h : Built S tree tree') : tree.KeepsPlaces tree' := by
  induction h with
  | refl => exact .refl tree
  | put _ hf _ ih => exact ih.trans (hf.keepsPlaces _)

/-- A tree that has grown at all holds something at a place where nothing was. -/
theorem eq_or_exists_new (h : Built S tree tree') :
    tree' = tree ∨ ∃ place, tree.get? place = none ∧ tree'.get? place ≠ none := by
  cases h with
  | refl => exact .inl rfl
  | @put mid new place hb hf hs =>
    refine .inr ⟨place, ?_, ?_⟩
    · cases hold : tree.get? place with
      | none => rfl
      | some t => exact absurd hf.1 (hb.keepsPlaces.ne_none (by rw [hold]; exact Option.some_ne_none t))
    · rw [get?_put_self]
      exact Option.some_ne_none new

end Built

theorem occupy_keepsPlaces {files files' new : FileTree} {target : Path}
    (h : files.occupy target new = .ok files') : files.KeepsPlaces files' := by
  obtain ⟨hfree, rfl⟩ := free_of_occupy h
  exact hfree.keepsPlaces new

theorem makeDirectories_keepsPlaces (files : FileTree) (path : Path) :
    files.KeepsPlaces (files.makeDirectories path).1 :=
  (makeDirectories_built files path).keepsPlaces

/-- That the place is taken is the only layout error of claiming one. -/
theorem collision_of_occupy {files new : FileTree} {target : Path} {e : LayoutError}
    (h : files.occupy target new = .error (.layout e)) :
    e = .collision target ∧ files.get? target.denotes ≠ none := by
  unfold occupy at h
  split at h
  · next hpath =>
    cases h
    refine ⟨rfl, ?_⟩
    cases hfind : files.find target with
    | error fault =>
      rw [hasPath, hfind] at hpath
      cases hpath
    | ok t =>
      rw [get?_of_find hfind]
      exact Option.some_ne_none t
  · split at h <;> cases h

/-! ## Directories that have been made -/

/-- There are directories only in a directory. -/
theorem isDirectory_of_get? {tree : FileTree} {place : Location} {es : List (Text × FileTree)}
    (h : tree.get? place = some (.directory es)) : tree.isDirectory = true := by
  obtain ⟨es', hes'⟩ := directory_of_prefix List.nil_prefix h
  cases hes'
  rfl

theorem follow_of_openDirectory {tree tree' : FileTree} {names : List Text}
    (h : tree.openDirectory names = .ok tree') :
    ∃ place es, tree'.follow [] names = .ok place ∧ tree'.get? place = some (.directory es) := by
  have hkeeps := (openDirectory_built h).keepsPlaces
  unfold openDirectory at h
  split at h
  · cases h
  · next place hplace =>
    have hfollow := hkeeps.follow hplace
    split at h
    · cases h
      exact ⟨place, [], hfollow, get?_put_self ..⟩
    · next es hes =>
      cases h
      exact ⟨place, es, hfollow, hes⟩
    · cases h

/-- Idle segments do no harm on the way to a directory. -/
theorem follow_segments {tree : FileTree} {here place : Location} {segments : List Text}
    {es : List (Text × FileTree)} (hes : tree.get? place = some (.directory es))
    (h : tree.follow here (segments.filter fun s => !Path.isIdle s) = .ok place) :
    tree.follow here segments = .ok place := by
  induction segments generalizing here with
  | nil => exact h
  | cons s segments ih =>
    by_cases hs : Path.isIdle s = true
    · rw [List.filter_cons_of_neg (by simp [hs])] at h
      -- the directory that has been reached is the last one, or names lead on from it
      have hhere : ∃ es', tree.get? here = some (.directory es') := by
        cases hrest : segments.filter (fun s => !Path.isIdle s) with
        | nil =>
          rw [hrest] at h
          cases h
          exact ⟨es, hes⟩
        | cons name rest =>
          rw [hrest, follow] at h
          split at h
          · cases h
          · cases h
          · next es' hes' => exact ⟨es', hes'⟩
      obtain ⟨es', hes'⟩ := hhere
      rw [follow, hes']
      dsimp only
      rw [stepFrom, if_pos hs]
      exact ih h
    · rw [List.filter_cons_of_pos (by simp [hs]), follow] at h
      rw [follow]
      split at h
      · cases h
      · cases h
      · next es' hes' => exact ih h

/-- A directory that has been made, or was there, is found. -/
theorem find_of_makeDirectories {tree tree' : FileTree} (hroot : tree.isDirectory = true) {path : Path}
    (h : tree.makeDirectories path = (tree', none)) :
    ∃ es, tree'.find path = .ok (.directory es) := by
  have hopened : ∃ place es, tree'.follow [] path.names = .ok place ∧
      tree'.get? place = some (.directory es) := by
    unfold makeDirectories at h
    rw [← List.reverse_reverse path.names]
    cases hnames : path.names.reverse with
    | nil =>
      rw [hnames] at h
      cases h
      cases tree with
      | file content => cases hroot
      | directory es => exact ⟨[], es, rfl, rfl⟩
    | cons name above =>
      rw [hnames, openAll] at h
      split at h
      · next hopen =>
        cases h
        exact follow_of_openDirectory hopen
      · split at h
        · cases h
        · split at h
          · next hopen =>
            cases h
            exact follow_of_openDirectory hopen
          · cases h
      · cases h
  obtain ⟨place, es, hfollow, hes⟩ := hopened
  refine ⟨es, ?_⟩
  rw [find, locate, follow_segments hes hfollow]
  dsimp only
  rw [hes]

end FileTree

/-! ## How steps end -/

/-- Something is below the destination of a project. -/
def Project.HoldsEntry (p : Project) (files : FileTree) : Prop :=
  ∃ rel, rel ≠ [] ∧ files.get? (p.destination.denotes ++ rel) ≠ none

/-- How a step ends: what was there is still there, and if the step ends in a layout error, that is a
collision, and something is below the destination. -/
structure Project.Ends (p : Project) (before after : FileTree) (error : Option RunError) : Prop where
  keeps : before.KeepsPlaces after
  collision : ∀ e, error = some (.layout e) → (∃ target, e = .collision target) ∧ p.HoldsEntry after

namespace Project.Ends

variable {p : Project} {a b c : FileTree} {error : Option RunError}

theorem of_done (h : a.KeepsPlaces b) : p.Ends a b none := ⟨h, nofun⟩

theorem of_fault (h : a.KeepsPlaces b) (fault : Option Fault) : p.Ends a b (fault.map .fault) := by
  refine ⟨h, fun e he => ?_⟩
  obtain ⟨f, -, hf⟩ := Option.map_eq_some_iff.1 he
  cases hf

theorem after (h : a.KeepsPlaces b) (h' : p.Ends b c error) : p.Ends a c error :=
  ⟨h.trans h'.keeps, h'.collision⟩

end Project.Ends

namespace Conversion

variable {p : Project} {style : Style} {c c' : Conversion} {fs : List (Location × Content)}

/-- Something that is claimed for the place of an entry in the copy. -/
theorem ends_place {rel : Location} (h : ∀ name ∈ rel, IsName name) (hne : rel ≠ [])
    (new : FileTree) :
    match c.place (p.placeInCopy (p.root.descend rel)) new with
    | .ok c' => c.files.KeepsPlaces c'.files
    | .error e => p.Ends c.files c.files (some e) := by
  unfold place
  cases ho : c.files.occupy (p.placeInCopy (p.root.descend rel)) new with
  | ok files => exact FileTree.occupy_keepsPlaces ho
  | error e =>
    refine ⟨.refl _, fun e' he => ?_⟩
    obtain rfl := Option.some.inj he
    obtain ⟨rfl, htaken⟩ := FileTree.collision_of_occupy ho
    rw [Path.denotes_of_names h (p.names_placeInCopy h hne)] at htaken
    exact ⟨⟨_, rfl⟩, rel, hne, htaken⟩

theorem ends_copy {rel : Location} (h : ∀ name ∈ rel, IsName name) (hne : rel ≠ [])
    {tree : FileTree} {error : Option RunError}
    (hc : copy p c (p.root.descend rel) tree = (c', error)) : p.Ends c.files c'.files error := by
  have hplace := ends_place (p := p) (c := c) h hne tree
  unfold copy at hc
  split at hc
  · next e he =>
    rw [he] at hplace
    cases hc
    exact hplace
  · next c1 he =>
    rw [he] at hplace
    cases hc
    exact .of_done hplace

theorem ends_write {rel : Location} (h : ∀ name ∈ rel, IsName name) (hne : rel ≠ []) (c : Conversion)
    (r : Localized) (count : Report → Report) :
    p.Ends c.files (write p c (p.root.descend rel) r count).1.files
      (write p c (p.root.descend rel) r count).2 := by
  have hplace := ends_place (p := p) (c := c.record r.found) h hne
    (.file (.text r.output))
  unfold write
  dsimp only
  split
  · next e he =>
    rw [he] at hplace
    exact hplace
  · next c1 he =>
    rw [he] at hplace
    exact .of_done hplace

theorem ends_perform (c : Conversion) {task : Task} (ht : p.Handles style task fs) :
    p.Ends c.files (perform p style c task).1.files (perform p style c task).2 := by
  cases ht with
  | enter h hne => exact .of_fault (FileTree.makeDirectories_keepsPlaces c.files _) _
  | copy h hne => exact ends_copy h hne rfl
  | script h hne =>
    rw [perform]
    split
    · exact ends_write h hne c _ _
    · exact .of_done (.refl _)
  | template h hne =>
    rw [perform]
    split
    · exact ends_write h hne c _ _
    · split
      · next hc =>
        have hcopy := ends_copy h hne hc
        exact hcopy
      · next hc =>
        have hcopy := ends_copy h hne hc
        exact hcopy

theorem ends_performAll (c : Conversion) {tasks : List Task} (ht : p.Plans style tasks fs) :
    p.Ends c.files (performAll p style c tasks).1.files (performAll p style c tasks).2 := by
  induction ht generalizing c with
  | nil => exact .of_done (.refl _)
  | cons hone _ ih =>
    have hfirst := ends_perform c hone
    rw [performAll]
    split
    · next hc =>
      rw [hc] at hfirst
      exact hfirst
    · next c1 hc =>
      rw [hc] at hfirst
      exact .after hfirst.keeps (ih c1)

/-- A conversion that does not end in a fault has made its destination, and goes on from there. -/
theorem ends_carryOut (hw : c.files.WellFormed) {es : List (Text × FileTree)}
    (hsource : c.files.get? p.root.denotes = some (.directory es)) {error : Option RunError}
    (hc : carryOut p style c = (c', error)) (herror : ∀ fault, error ≠ some (.fault fault)) :
    ∃ mid, c.files.makeDirectories p.destination = (mid, none) ∧ p.Ends mid c'.files error := by
  have hbuilt := FileTree.makeDirectories_built c.files p.destination
  unfold carryOut makeDirectory at hc
  cases hmade : c.files.makeDirectories p.destination with
  | mk mid fault =>
    rw [hmade] at hbuilt hc
    have hwell : mid.WellFormed := hbuilt.wellFormed hw fun _ _ h => ⟨h.1 ▸ .empty, h.2⟩
    obtain ⟨es', hes'⟩ := hbuilt.keepsPlaces.directory hsource
    cases fault with
    | some fault =>
      cases hc
      exact absurd rfl (herror fault)
    | none =>
      refine ⟨mid, rfl, ?_⟩
      dsimp only [Option.map_none] at hc
      split at hc
      · next fault _ =>
        cases hc
        exact absurd rfl (herror fault)
      · next tree htree =>
        obtain rfl : tree = .directory es' :=
          Option.some.inj ((FileTree.get?_of_find htree).symm.trans hes')
        have hends := ends_performAll { c with files := mid } (p.tasks_plans style (hwell.get? hes'))
        rw [hc] at hends
        exact hends

end Conversion

/-! ## Publishing -/

theorem FileTree.occupyAll_collision (files : FileTree) (entries : List (Path × Text)) :
    files.KeepsPlaces (files.occupyAll entries).1 ∧
      ∀ e, (files.occupyAll entries).2 = some (.layout e) → ∃ target, e = .collision target := by
  induction entries generalizing files with
  | nil => exact ⟨.refl _, nofun⟩
  | cons entry entries ih =>
    obtain ⟨target, text⟩ := entry
    rw [occupyAll]
    split
    · next e he =>
      refine ⟨.refl _, fun e' he' => ?_⟩
      obtain rfl := Option.some.inj he'
      exact ⟨target, (collision_of_occupy he).1⟩
    · next mid hmid => exact ⟨(occupy_keepsPlaces hmid).trans (ih mid).1, (ih mid).2⟩

/-- The directory of the dictionary files is made first, so that there is an entry when a file of the
dictionary finds its place taken. -/
theorem Dictionary.ends_publish {p : Project} {files : FileTree} (hroot : files.isDirectory = true)
    (d : Dictionary) (b : Bindings) :
    p.Ends files (d.publish b p.destination files).1 (d.publish b p.destination files).2 := by
  have hkeeps := FileTree.makeDirectories_keepsPlaces files (p.destination.child dictionaryDirectory)
  unfold publish
  split
  · next mid fault hmid =>
    rw [hmid] at hkeeps
    exact .of_fault hkeeps (some fault)
  · next mid hmid =>
    rw [hmid] at hkeeps
    obtain ⟨hkept, hcollision⟩ := FileTree.occupyAll_collision mid (d.files b p.destination)
    refine ⟨hkeeps.trans hkept, fun e he => ⟨hcollision e he, [dictionaryDirectory], nofun, ?_⟩⟩
    refine hkept.ne_none ?_
    obtain ⟨es, hes⟩ := FileTree.find_of_makeDirectories hroot hmid
    rw [← Path.denotes_child isName_dictionaryDirectory, FileTree.get?_of_find hes]
    exact Option.some_ne_none _

/-! ## Runs -/

section Run

open CommandLine (Settings)

variable {directory : Path} {files : FileTree} {s : Settings} {p : Project} {provider : Provider}
  {e : LayoutError}

/-- Looking at the source and the destination finds no collision. -/
theorem Project.ne_collision_of_ofSettings (hp : Project.ofSettings directory files s = .error e)
    (target : Path) : e ≠ .collision target := by
  rintro rfl
  unfold Project.ofSettings at hp
  dsimp only at hp
  split at hp
  · cases hp
  · split at hp
    · cases hp
    · split at hp
      · cases hp
      · split at hp <;> cases hp

/-- The layout has been looked at when the queue is set up. -/
theorem queue_ne_layout : s.queue directory files provider ≠ .error (.layout e) := by
  unfold Settings.queue
  split
  · nofun
  · split <;> nofun

/-- The run of a project that is accepted makes its destination before anything can collide. -/
theorem run_ends (hw : files.WellFormed) (hp : Project.ofSettings directory files s = .ok p)
    (hr : (run directory files s provider).result = .error (.layout e)) :
    ∃ mid, files.makeDirectories p.destination = (mid, none) ∧
      p.Ends mid (run directory files s provider).files (some (.layout e)) := by
  obtain ⟨es, hes⟩ := Project.directory_of_ofSettings hp
  unfold run at hr ⊢
  rw [hp] at hr ⊢
  dsimp only at hr ⊢
  cases hqueue : s.queue directory files provider with
  | error e' =>
    rw [hqueue] at hr
    cases hr
    exact absurd hqueue queue_ne_layout
  | ok queue =>
    rw [hqueue] at hr
    dsimp only at hr ⊢
    unfold Project.run at hr ⊢
    cases hc : Conversion.carryOut p s.style (s.start files queue) with
    | mk c error =>
      rw [hc] at hr
      cases error with
      | some error =>
        cases hr
        exact Conversion.ends_carryOut (c := s.start files queue) hw hes hc nofun
      | none =>
        obtain ⟨mid, (hmid : files.makeDirectories p.destination = (mid, none)), hconverted⟩ :=
          Conversion.ends_carryOut (c := s.start files queue) hw hes hc nofun
        refine ⟨mid, hmid, ?_⟩
        have hkeeps := FileTree.makeDirectories_keepsPlaces files p.destination
        rw [hmid] at hkeeps
        obtain ⟨es', hes'⟩ := (hkeeps.trans hconverted.keeps).directory hes
        have hroot := FileTree.isDirectory_of_get? hes'
        have hpublished := Dictionary.ends_publish (p := p) hroot (c.queue.finish c.dictionary).2.2
          s.style.bindings
        dsimp only at hr ⊢
        split at hr
        · next after error hafter =>
          cases hr
          rw [hafter] at hpublished
          exact .after hconverted.keeps hpublished
        · cases hr

/-- When something is below the destination of a project that is accepted, something has been made. -/
theorem files_ne_of_holdsEntry (hp : Project.ofSettings directory files s = .ok p)
    {mid after : FileTree} (hmid : files.makeDirectories p.destination = (mid, none))
    (hkeeps : mid.KeepsPlaces after) (hentry : p.HoldsEntry after) : after ≠ files := by
  rintro rfl
  obtain ⟨es, hes⟩ := Project.directory_of_ofSettings hp
  have hvacant := (Project.accepted_of_ofSettings hp).vacant
  unfold Project.isVacant at hvacant
  split at hvacant
  · next es' hfind =>
    -- the destination was there and empty
    obtain rfl : es' = [] := by simpa using hvacant
    obtain ⟨rel, hne, hrel⟩ := hentry
    obtain ⟨name, rest, rfl⟩ := List.exists_cons_of_ne_nil hne
    rw [FileTree.get?_append, FileTree.get?_of_find hfind] at hrel
    exact hrel rfl
  · cases hvacant
  · next fault hfind =>
    -- the destination could not be found, and now it can
    have hbuilt := FileTree.makeDirectories_built after p.destination
    rw [hmid] at hbuilt
    rcases hbuilt.eq_or_exists_new with (heq : mid = after) | ⟨place, hbefore, hafter⟩
    · have hroot := FileTree.isDirectory_of_get? hes
      obtain ⟨es', hfound⟩ := FileTree.find_of_makeDirectories hroot hmid
      rw [heq, hfind] at hfound
      cases hfound
    · exact hkeeps.ne_none hafter hbefore

/-- A layout error leaves the files as they were if and only if it is not a collision. -/
theorem layout_error_untouched_iff (hw : files.WellFormed)
    (hr : (run directory files s provider).result = .error (.layout e)) :
    (run directory files s provider).files = files ↔ ∀ target, e ≠ .collision target := by
  cases hp : Project.ofSettings directory files s with
  | error e' =>
    have hrun : run directory files s provider = ⟨files, [], .error (.layout e')⟩ := by
      rw [run, hp]
    rw [hrun] at hr ⊢
    cases hr
    exact iff_of_true rfl (Project.ne_collision_of_ofSettings hp)
  | ok p =>
    obtain ⟨mid, hmid, hends⟩ := run_ends hw hp hr
    obtain ⟨⟨target, rfl⟩, hentry⟩ := hends.collision e rfl
    exact iff_of_false (files_ne_of_holdsEntry hp hmid hends.keeps hentry) fun h => h target rfl

end Run

/-- What a run ended with. -/
def RunResult.error? (r : RunResult) : Option RunError :=
  match r.result with
  | .ok _ => none
  | .error e => some e

theorem RunResult.eq_error_of_error? {r : RunResult} {e : RunError} (h : r.error? = some e) :
    r.result = .error e := by
  unfold error? at h
  split at h
  · cases h
  · next he =>
    cases h
    exact he

/-- The destination of the small project holds a file, and the disk is left as it is. -/
theorem layout_error_untouched_staleDisk :
    staleDisk.WellFormed ∧
      (run ⟨['/']⟩ staleDisk (rehearsal "app" "out") Rehearsal.suffix.provider).result =
        .error (.layout (.destinationNotEmpty ⟨"/out".toList⟩)) ∧
      (run ⟨['/']⟩ staleDisk (rehearsal "app" "out") Rehearsal.suffix.provider).files = staleDisk := by
  have hw : staleDisk.WellFormed :=
    wellFormed_folder (by decide) (by decide) (by
      have hstale : (folder [("stale.txt", textFile "x")]).WellFormed :=
        wellFormed_folder (by decide) (by decide) (by simp [textFile, FileTree.WellFormed.file])
      simp [wellFormed_smallProject, hstale])
  have herror : (run ⟨['/']⟩ staleDisk (rehearsal "app" "out") Rehearsal.suffix.provider).error? =
      some (.layout (.destinationNotEmpty ⟨"/out".toList⟩)) := by
    decide +kernel
  have hr := RunResult.eq_error_of_error? herror
  exact ⟨hw, hr, (layout_error_untouched_iff hw hr).2 nofun⟩

/-- A project with a file that has the name of the look-up module. -/
def shadowingProject : FileTree :=
  folder [("app.js", textFile "App({})"), ("app.json", textFile "{}"), ("mina-i18n.wxs", textFile "x"),
    ("pages", folder [])]

/-- The copy is there when the run finds out that the look-up module has no place in it. -/
theorem collision_after_copying :
    (run ⟨['/']⟩ (folder [("app", shadowingProject)]) (rehearsal "app" "out")
        Rehearsal.suffix.provider).result =
      .error (.layout (.collision ⟨"/out/mina-i18n.wxs".toList⟩)) ∧
    (folder [("app", shadowingProject)]).fileAt? ["out".toList, "app.json".toList] = none ∧
    (run ⟨['/']⟩ (folder [("app", shadowingProject)]) (rehearsal "app" "out")
        Rehearsal.suffix.provider).files.fileAt? ["out".toList, "app.json".toList] =
      some (.text "{}".toList) := by
  have hrun : (run ⟨['/']⟩ (folder [("app", shadowingProject)]) (rehearsal "app" "out")
        Rehearsal.suffix.provider).error? =
      some (.layout (.collision ⟨"/out/mina-i18n.wxs".toList⟩)) ∧
    (run ⟨['/']⟩ (folder [("app", shadowingProject)]) (rehearsal "app" "out")
        Rehearsal.suffix.provider).files.fileAt? ["out".toList, "app.json".toList] =
      some (.text "{}".toList) := by
    decide +kernel
  exact ⟨RunResult.eq_error_of_error? hrun.1, by decide, hrun.2⟩

end Phrasebook
