import Phrasebook.Proofs.ProjectWalk
import Phrasebook.Proofs.Session
import Phrasebook.Run

/-!
What a run that succeeds leaves at the destination.

Every step of a run adds files at places that were free, and changes no other file (`Adds`). A task adds
what the files that it handles become (`perform_handled`), so the walk adds what becomes of the files
that are reached (`performAll_handled`), and the dictionary adds its own.

Main statement: the report tells the scripts that could not be read and counts the files that are
reached, and the files at the destination are exactly those of the copy and of the dictionary if and
only if there were none before (`mirrors_iff`). That a run looks at the destination beforehand does not
settle it: a path that leads through a directory that is still missing cannot be followed, and then
nothing is found there.
-/

namespace Phrasebook

open FileTree (IsName)

namespace FileTree

theorem get?_of_find {tree t : FileTree} {path : Path} (h : tree.find path = .ok t) :
    tree.get? path.denotes = some t := by
  unfold find at h
  split at h
  · cases h
  · next place hplace =>
    obtain rfl := Path.locate_eq hplace
    split at h
    · next ht =>
      cases h
      exact ht
    · cases h

/-! ## Adding files -/

/-- A tree that holds given files besides those of another one, at places that were free there. -/
structure Adds (before after : FileTree) (news : List (Location × Content)) : Prop where
  fresh : ∀ f ∈ news, before.fileAt? f.1 = none
  iff : ∀ place content, after.fileAt? place = some content ↔
    (place, content) ∈ news ∨ before.fileAt? place = some content

namespace Adds

variable {a b c : FileTree} {xs ys : List (Location × Content)}

theorem nil (h : ∀ place, b.fileAt? place = a.fileAt? place) : a.Adds b [] :=
  ⟨nofun, fun place content => by rw [h]; simp⟩

theorem trans (h : a.Adds b xs) (h' : b.Adds c ys) : a.Adds c (xs ++ ys) := by
  refine ⟨fun f hf => ?_, fun place content => ?_⟩
  · rcases List.mem_append.1 hf with hf | hf
    · exact h.fresh f hf
    · rw [Option.eq_none_iff_forall_ne_some]
      intro content hcontent
      have hlater := (h.iff f.1 content).2 (.inr hcontent)
      rw [h'.fresh f hf] at hlater
      cases hlater
  · rw [h'.iff, h.iff, List.mem_append]
    constructor
    · rintro (hy | hx | ha)
      · exact .inl (.inr hy)
      · exact .inl (.inl hx)
      · exact .inr ha
    · rintro ((hx | hy) | ha)
      · exact .inr (.inl hx)
      · exact .inl hy
      · exact .inr (.inr ha)

end Adds

/-- What is put at a free place is added. -/
theorem Free.adds {tree new : FileTree} {place : Location} (h : tree.Free place)
    (hn : new.WellFormed) : tree.Adds (tree.put new place) (new.contentsAt place) := by
  have hbelow : ∀ rest, tree.fileAt? (place ++ rest) = none := by
    intro rest
    refine fileAt?_of_none ?_
    rw [get?_append, h.1]
    rfl
  refine ⟨fun f hf => ?_, fun other content => ?_⟩
  · obtain ⟨rest, hrest, -⟩ := (mem_contentsAt_iff hn).1 (show (f.1, f.2) ∈ _ from hf)
    rw [hrest]
    exact hbelow rest
  · rw [h.fileAt?_put, mem_contentsAt_iff hn]
    split
    · next hp =>
      obtain ⟨rest, rfl⟩ := hp
      rw [List.drop_left, hbelow]
      constructor
      · intro hrest
        exact .inl ⟨rest, rfl, hrest⟩
      · rintro (⟨rest', hrest', hfile⟩ | hnone)
        · obtain rfl := List.append_cancel_left hrest'
          exact hfile
        · cases hnone
    · next hp =>
      refine ⟨.inr, ?_⟩
      rintro (⟨rest, rfl, -⟩ | hother)
      · exact absurd (List.prefix_append ..) hp
      · exact hother

/-- What is claimed is put at the place that the path leads to, which is free. -/
theorem free_of_occupy {files files' new : FileTree} {target : Path}
    (h : files.occupy target new = .ok files') :
    files.Free target.denotes ∧ files' = files.put new target.denotes := by
  unfold occupy at h
  split at h
  · cases h
  · split at h
    · next hs =>
      cases h
      obtain ⟨place, hplace, hnone, rfl⟩ := put_of_store hs
      obtain rfl := Path.locate_eq hplace
      exact ⟨free_of_follow hplace (Option.some_ne_none files) hnone, rfl⟩
    · cases h

/-- Making directories adds no files. -/
theorem makeDirectories_built (files : FileTree) (path : Path) :
    Built MakesDirectory files (files.makeDirectories path).1 := by
  refine (openAll_built files path.names.reverse).mono ?_
  rintro place new ⟨hnew, q, hq, rfl⟩
  rw [List.reverse_reverse] at hq
  exact ⟨hnew, fun name hn => Path.isName_of_mem_foldl hq hn⟩

theorem makeDirectories_adds (files : FileTree) (path : Path) :
    files.Adds (files.makeDirectories path).1 [] :=
  .nil (makeDirectories_built files path).fileAt?_of_makesDirectory

end FileTree

/-! ## Handling files -/

/-- The number of files that a report counts. -/
def Report.total (r : Report) : Nat := r.scripts + r.templates + r.copied + r.failed.length

namespace Project

/-- The files of the copy that come from files of the project, at the destination. -/
def written (p : Project) (style : Style) (fs : List (Location × Content)) : List (Location × Content) :=
  fs.filterMap fun f => (p.outputOf style f.1 f.2).map (p.destination.denotes ++ f.1, ·)

/-- The files of the project from which nothing becomes. -/
def unread (p : Project) (style : Style) (fs : List (Location × Content)) : List Path :=
  (fs.filter fun f => (p.outputOf style f.1 f.2).isNone).map fun f => p.root.descend f.1

variable {p : Project} {style : Style} {fs : List (Location × Content)}

theorem written_of_kept (h : ∀ f ∈ fs, p.outputOf style f.1 f.2 = some f.2) :
    p.written style fs = fs.map fun f => (p.destination.denotes ++ f.1, f.2) := by
  induction fs with
  | nil => rfl
  | cons f fs ih =>
    have hf := h f (List.mem_cons_self ..)
    rw [written, List.filterMap_cons_some (by rw [hf]; rfl), List.map_cons,
      ← ih fun g hg => h g (List.mem_cons_of_mem f hg), written]

theorem unread_of_isSome (h : ∀ f ∈ fs, (p.outputOf style f.1 f.2).isSome) :
    p.unread style fs = [] := by
  rw [unread, List.filter_eq_nil_iff.2 fun f hf => by rw [← Option.not_isSome, h f hf]; decide,
    List.map_nil]

end Project

namespace Conversion

/-- A conversion has handled files of a project between two states. -/
structure Handled (p : Project) (style : Style) (c c' : Conversion) (fs : List (Location × Content)) :
    Prop where
  files : c.files.Adds c'.files (p.written style fs)
  total : c'.report.total = c.report.total + fs.length
  failed : c'.report.failed = c.report.failed ++ p.unread style fs
  locales : c'.dictionary.locales = c.dictionary.locales

variable {p : Project} {style : Style} {c c' c'' : Conversion} {fs gs : List (Location × Content)}

theorem Handled.trans (h : Handled p style c c' fs) (h' : Handled p style c' c'' gs) :
    Handled p style c c'' (fs ++ gs) where
  files := by
    rw [Project.written, List.filterMap_append]
    exact h.files.trans h'.files
  total := by rw [h'.total, h.total, List.length_append, Nat.add_assoc]
  failed := by
    rw [h'.failed, h.failed, List.append_assoc]
    simp [Project.unread]
  locales := h'.locales.trans h.locales

theorem locales_record (d : Dictionary) (texts : List Text) :
    (d.recordAll texts).locales = d.locales := by
  induction texts generalizing d with
  | nil => rfl
  | cons text texts ih => exact ih (d.record text)

theorem report_dispatch (c : Conversion) : c.dispatch.report = c.report := rfl

theorem locales_dispatch (c : Conversion) : c.dispatch.dictionary.locales = c.dictionary.locales := by
  show (c.queue.dispatch c.dictionary).2.2.locales = _
  rw [Queue.dispatch_eq]
  obtain ⟨hbase, htargets, -⟩ := Dictionary.enterAll_frame { c.dictionary with pending := [] }
    (c.queue.conversions c.dictionary.pending)
  rw [Dictionary.locales, hbase, htargets]
  rfl

/-- A file that is claimed for an entry of the project is added below the destination. -/
theorem place_adds {rel : Location} (h : ∀ name ∈ rel, IsName name) (hne : rel ≠ [])
    {new : FileTree} (hn : new.WellFormed)
    (hp : c.place (p.placeInCopy (p.root.descend rel)) new = .ok c') :
    ∃ files, c' = { c with files := files } ∧
      c.files.Adds files ((new.contentsAt rel).map fun f => (p.destination.denotes ++ f.1, f.2)) := by
  unfold place at hp
  cases ho : c.files.occupy (p.placeInCopy (p.root.descend rel)) new with
  | error e =>
    rw [ho] at hp
    cases hp
  | ok files =>
    rw [ho] at hp
    cases hp
    obtain ⟨hfree, rfl⟩ := FileTree.free_of_occupy ho
    rw [Path.denotes_of_names h (p.names_placeInCopy h hne)] at hfree ⊢
    refine ⟨_, rfl, ?_⟩
    rw [← FileTree.contentsAt_append hn]
    exact hfree.adds hn

/-- A tree that is copied as it is has been handled. -/
theorem copy_handled {rel : Location} (h : ∀ name ∈ rel, IsName name) (hne : rel ≠ [])
    {tree : FileTree} (hw : tree.WellFormed)
    (ho : ∀ f ∈ tree.contentsAt rel, p.outputOf style f.1 f.2 = some f.2)
    (hc : copy p c (p.root.descend rel) tree = (c', none)) :
    Handled p style c c' (tree.contentsAt rel) := by
  unfold copy at hc
  split at hc
  · cases hc
  · next c1 hplace =>
    obtain ⟨files, rfl, hadds⟩ := place_adds h hne hw hplace
    cases hc
    have hunread : p.unread style (tree.contentsAt rel) = [] :=
      Project.unread_of_isSome fun f hf => by rw [ho f hf]; rfl
    refine ⟨?_, ?_, ?_, rfl⟩
    · rw [Project.written_of_kept ho]
      exact hadds
    · simp only [updateReport, Report.total, FileTree.length_contentsAt hw]
      omega
    · rw [hunread, List.append_nil]
      rfl

/-- A file that is written in its localized form has been handled. -/
theorem write_handled {rel : Location} (h : ∀ name ∈ rel, IsName name) (hne : rel ≠ [])
    {source : Text} {r : Localized} (ho : p.outputOf style rel (.text source) = some (.text r.output))
    {count : Report → Report} (hc : write p c (p.root.descend rel) r count = (c', none))
    (htotal : ∀ r : Report, (count r).total = r.total + 1)
    (hfailed : ∀ r : Report, (count r).failed = r.failed) :
    Handled p style c c' [(rel, .text source)] := by
  unfold write at hc
  dsimp only at hc
  split at hc
  · cases hc
  · next c1 hplace =>
    obtain ⟨files, rfl, hadds⟩ := place_adds h hne (.file _) hplace
    cases hc
    have hwritten : p.written style [(rel, .text source)] =
        [(p.destination.denotes ++ rel, .text r.output)] := by simp [Project.written, ho]
    rw [FileTree.contentsAt, List.map_singleton] at hadds
    refine ⟨?_, ?_, ?_, ?_⟩
    · rw [hwritten]
      exact hadds
    · exact htotal _
    · rw [Project.unread_of_isSome (by simp [ho]), List.append_nil]
      exact hfailed _
    · rw [locales_dispatch]
      exact locales_record c.dictionary r.found

/-- A task that is carried out has handled its files. -/
theorem perform_handled {task : Task} (h : p.Handles style task fs)
    (hp : perform p style c task = (c', none)) : Handled p style c c' fs := by
  cases h with
  | enter h hne =>
    rw [perform, makeDirectory] at hp
    obtain ⟨rfl, -⟩ := Prod.mk.inj hp
    exact ⟨FileTree.makeDirectories_adds _ _, rfl, (List.append_nil _).symm, rfl⟩
  | copy h hne hw ho => exact copy_handled h hne hw ho hp
  | @script rel source h hne ho =>
    rw [perform] at hp
    split at hp
    · next r hr =>
      rw [hr] at ho
      refine write_handled h hne ho hp (fun r => ?_) (fun _ => rfl)
      simp only [Report.total]
      omega
    · next e he =>
      rw [he] at ho
      obtain ⟨rfl, -⟩ := Prod.mk.inj hp
      have hwritten : p.written style [(rel, .text source)] = [] := by simp [Project.written, ho]
      have hunread : p.unread style [(rel, .text source)] = [p.root.descend rel] := by
        simp [Project.unread, ho]
      refine ⟨?_, ?_, ?_, locales_dispatch _⟩
      · rw [hwritten]
        exact .nil fun _ => rfl
      · rw [report_dispatch]
        simp only [updateReport, Report.total, List.length_append, List.length_singleton]
        omega
      · rw [hunread, report_dispatch]
        rfl
  | @template rel source depth h hne ho =>
    rw [perform] at hp
    split at hp
    · next r hr =>
      rw [hr] at ho
      refine write_handled h hne ho hp (fun r => ?_) (fun _ => rfl)
      simp only [Report.total]
      omega
    · next e he =>
      rw [he] at ho
      split at hp
      · cases hp
      · next c1 hcopy =>
        obtain ⟨rfl, -⟩ := Prod.mk.inj hp
        have hcontents : (FileTree.file (.text source)).contentsAt rel = [(rel, .text source)] := by
          rw [FileTree.contentsAt]
        have hkept : ∀ f ∈ (FileTree.file (.text source)).contentsAt rel,
            p.outputOf style f.1 f.2 = some f.2 := by
          intro f hf
          rw [hcontents] at hf
          obtain rfl := List.mem_singleton.1 hf
          exact ho
        have hhandled := copy_handled h hne (.file _) hkept hcopy
        rw [hcontents] at hhandled
        exact ⟨hhandled.files, hhandled.total, hhandled.failed,
          (locales_dispatch _).trans hhandled.locales⟩

theorem performAll_handled {tasks : List Task} (h : p.Plans style tasks fs)
    (hp : performAll p style c tasks = (c', none)) : Handled p style c c' fs := by
  induction h generalizing c with
  | nil =>
    obtain ⟨rfl, -⟩ := Prod.mk.inj hp
    exact ⟨.nil fun _ => rfl, rfl, (List.append_nil _).symm, rfl⟩
  | cons h _ ih =>
    rw [performAll] at hp
    split at hp
    · cases hp
    · next c1 hc1 => exact (perform_handled h hc1).trans (ih hp)

/-- A conversion that succeeds has handled the files that are reached. -/
theorem carryOut_handled {es : List (Text × FileTree)} (hw : c.files.WellFormed)
    (hsource : c.files.get? p.root.denotes = some (.directory es))
    (hc : carryOut p style c = (c', none)) :
    Handled p style c c' (p.reachedFiles (.directory es)) := by
  unfold carryOut makeDirectory at hc
  have hbuilt := FileTree.makeDirectories_built c.files p.destination
  have hwell : (c.files.makeDirectories p.destination).1.WellFormed :=
    hbuilt.wellFormed hw fun _ _ h => ⟨h.1 ▸ .empty, h.2⟩
  obtain ⟨es', hget, hcontents⟩ := hbuilt.contents_of_makesDirectory hw hsource
  split at hc
  · cases hc
  · next c1 hc1 =>
    obtain ⟨rfl, -⟩ := Prod.mk.inj hc1
    have hstart : Handled p style c
        { c with files := (c.files.makeDirectories p.destination).1 } [] :=
      ⟨FileTree.makeDirectories_adds _ _, rfl, (List.append_nil _).symm, rfl⟩
    split at hc
    · cases hc
    · next tree htree =>
      obtain rfl : tree = .directory es' :=
        Option.some.inj ((FileTree.get?_of_find htree).symm.trans hget)
      have hplans := p.tasks_plans style (hwell.get? hget)
      have hreached : p.reachedFiles (.directory es') = p.reachedFiles (.directory es) := by
        rw [Project.reachedFiles, hcontents, Project.reachedFiles]
      rw [hreached] at hplans
      exact hstart.trans (performAll_handled hplans hc)

end Conversion

/-! ## The dictionary -/

theorem FileTree.occupyAll_adds {files files' : FileTree} {entries : List (Path × Text)}
    (h : files.occupyAll entries = (files', none)) :
    files.Adds files' (entries.map fun e => (e.1.denotes, .text e.2)) := by
  induction entries generalizing files with
  | nil =>
    obtain ⟨rfl, -⟩ := Prod.mk.inj h
    exact .nil fun _ => rfl
  | cons e entries ih =>
    obtain ⟨target, text⟩ := e
    rw [occupyAll] at h
    split at h
    · cases h
    · next mid hmid =>
      obtain ⟨hfree, rfl⟩ := free_of_occupy hmid
      have hone := hfree.adds (.file (.text text))
      rw [contentsAt] at hone
      exact hone.trans (ih h)

/-- The files of a dictionary, at the places that their paths lead to. -/
def Dictionary.written (d : Dictionary) (b : Bindings) (destination : Path) :
    List (Location × Content) :=
  (d.files b destination).map fun e => (e.1.denotes, .text e.2)

/-- The path of the dictionary file of a locale. -/
def dictionaryPath (destination : Path) (code : Text) : Path :=
  (destination.child dictionaryDirectory).child (code ++ ".json".toList)

theorem isName_dictionaryDirectory : IsName dictionaryDirectory := by decide

theorem isName_moduleFile : IsName ({} : Bindings).moduleFile := by decide

/-- A file name with an extension is proper unless there is a slash in it. -/
theorem isName_json {code : Text} (h : '/' ∉ code) : IsName (code ++ ".json".toList) := by
  refine ⟨?_, ?_, ?_⟩
  · cases code with
    | nil => decide
    | cons c code => simp [Path.isIdle]
  · intro he
    have hlength := congrArg List.length he
    simp [Path.above] at hlength
  · simpa using h

/-- The dictionary file of a locale without a slash lies in its directory below the destination. -/
theorem denotes_dictionaryPath (destination : Path) {code : Text} (h : '/' ∉ code) :
    (dictionaryPath destination code).denotes =
      destination.denotes ++ [dictionaryDirectory, code ++ ".json".toList] := by
  rw [dictionaryPath, Path.denotes_child (isName_json h), Path.denotes_child isName_dictionaryDirectory,
    List.append_assoc, List.singleton_append]

/-- The places of the files of a dictionary. -/
theorem Dictionary.map_fst_written (d : Dictionary) (b : Bindings) (destination : Path) :
    (d.written b destination).map Prod.fst =
      d.locales.map (fun code => (dictionaryPath destination code).denotes) ++
        [(destination.child b.moduleFile).denotes] := by
  simp [written, files, dictionaryPath, Function.comp_def]

theorem Dictionary.publish_adds {d : Dictionary} {b : Bindings} {destination : Path}
    {files files' : FileTree} (h : d.publish b destination files = (files', none)) :
    files.Adds files' (d.written b destination) := by
  unfold publish at h
  split at h
  · cases h
  · next mid hmid =>
    have hdirectory := FileTree.makeDirectories_adds files (destination.child dictionaryDirectory)
    rw [hmid] at hdirectory
    exact hdirectory.trans (FileTree.occupyAll_adds h)

theorem Queue.locales_finish (q : Queue) (d : Dictionary) :
    (q.finish d).2.2.locales = d.locales := by
  obtain ⟨es, -, -, hd⟩ := Queue.foldl_finishOne q.client q.started 0 q.calls d
  show (q.started.foldl (finishOne q.client) (0, q.calls, d)).2.2.locales = _
  obtain ⟨hbase, htargets, -⟩ := Dictionary.enterAll_frame d es
  rw [hd, Dictionary.locales, hbase, htargets]
  rfl

/-! ## Runs -/

section Run

open CommandLine (Settings)

variable {directory : Path} {files : FileTree} {s : Settings} {p : Project} {provider : Provider}
  {report : Report}

/-- What has been checked of a project that is accepted. -/
structure Project.Accepted (directory : Path) (files : FileTree) (s : Settings) (p : Project) :
    Prop where
  root : p.root = Path.absolute directory s.source
  destination : p.destination = Path.absolute directory s.destination
  source : files.hasDirectory p.root = true
  complete : Project.missingPart? files p.root = none
  outside : p.destination.isUnder p.root = false
  vacant : Project.isVacant files p.destination = true

theorem Project.accepted_of_ofSettings (hp : Project.ofSettings directory files s = .ok p) :
    p.Accepted directory files s := by
  unfold Project.ofSettings at hp
  dsimp only at hp
  split at hp
  · cases hp
  · next hsource =>
    split at hp
    · cases hp
    · next hcomplete =>
      split at hp
      · cases hp
      · next hunder =>
        split at hp
        · cases hp
        · next hvacant =>
          cases hp
          exact ⟨rfl, rfl, by simpa using hsource, hcomplete, Bool.eq_false_iff.2 hunder,
            by simpa using hvacant⟩

theorem Project.directory_of_ofSettings (hp : Project.ofSettings directory files s = .ok p) :
    ∃ es, files.get? p.root.denotes = some (.directory es) := by
  have hdirectory := (Project.accepted_of_ofSettings hp).source
  unfold FileTree.hasDirectory at hdirectory
  split at hdirectory
  · next t ht =>
    cases t with
    | file => cases hdirectory
    | directory es => exact ⟨es, FileTree.get?_of_find ht⟩
  · cases hdirectory

theorem locales_start (s : Settings) (files : FileTree) (queue : Queue) :
    (s.start files queue).dictionary.locales = s.locales := by
  simp [Settings.start, Dictionary.new, Dictionary.locales, Settings.locales, Settings.targets,
    Function.comp_def]

/-- A run that succeeds has converted the project and published the dictionary. -/
theorem exists_conversion_of_run (hp : Project.ofSettings directory files s = .ok p)
    (hr : (run directory files s provider).result = .ok report) :
    ∃ (queue : Queue) (c : Conversion),
      Conversion.carryOut p s.style (s.start files queue) = (c, none) ∧
      (c.queue.finish c.dictionary).2.2.publish s.style.bindings p.destination c.files =
        ((run directory files s provider).files, none) ∧ report = c.report := by
  unfold run at hr ⊢
  rw [hp] at hr ⊢
  dsimp only at hr ⊢
  cases hqueue : s.queue directory files provider with
  | error e =>
    rw [hqueue] at hr
    cases hr
  | ok queue =>
    rw [hqueue] at hr
    refine ⟨queue, ?_⟩
    dsimp only at hr ⊢
    unfold Project.run at hr ⊢
    cases hc : Conversion.carryOut p s.style (s.start files queue) with
    | mk c fault =>
      cases fault with
      | some e =>
        rw [hc] at hr
        cases hr
      | none =>
        rw [hc] at hr
        refine ⟨c, rfl, ?_⟩
        dsimp only at hr ⊢
        cases hafter : (c.queue.finish c.dictionary).2.2.publish s.style.bindings p.destination
            c.files with
        | mk after fault =>
          cases fault with
          | some e =>
            rw [hafter] at hr
            cases hr
          | none =>
            rw [hafter] at hr
            cases hr
            exact ⟨rfl, rfl⟩

/-- What a run that succeeds has added and reported. -/
theorem run_adds (hw : files.WellFormed) (hp : Project.ofSettings directory files s = .ok p)
    (hr : (run directory files s provider).result = .ok report) :
    ∃ (es : List (Text × FileTree)) (d : Dictionary),
      files.get? p.root.denotes = some (.directory es) ∧ d.locales = s.locales ∧
      files.Adds (run directory files s provider).files
        (p.written s.style (p.reachedFiles (.directory es)) ++
          d.written s.style.bindings p.destination) ∧
      report.total = (p.reachedFiles (.directory es)).length ∧
      report.failed = p.unread s.style (p.reachedFiles (.directory es)) := by
  obtain ⟨es, hes⟩ := Project.directory_of_ofSettings hp
  obtain ⟨queue, c, hc, hpublish, rfl⟩ := exists_conversion_of_run hp hr
  have hhandled := Conversion.carryOut_handled (c := s.start files queue) hw hes hc
  refine ⟨es, (c.queue.finish c.dictionary).2.2, hes, ?_, ?_, ?_, ?_⟩
  · rw [Queue.locales_finish, hhandled.locales, locales_start]
  · exact hhandled.files.trans (Dictionary.publish_adds hpublish)
  · exact hhandled.total.trans (Nat.zero_add _)
  · exact hhandled.failed

/-- What a file of the copy is: what becomes of a file of the project that is reached, at the same
place, or a file of the dictionary. -/
def Project.Expects (p : Project) (style : Style) (tree : FileTree) (d : Dictionary) (rel : Location)
    (content : Content) : Prop :=
  (∃ c, tree.fileAt? rel = some c ∧ p.reaches rel = true ∧ p.outputOf style rel c = some content) ∨
    (p.destination.denotes ++ rel, content) ∈ d.written style.bindings p.destination

theorem Project.expects_iff (p : Project) (style : Style) {tree : FileTree} (hw : tree.WellFormed)
    (d : Dictionary) {rel : Location} {content : Content} :
    p.Expects style tree d rel content ↔
      (p.destination.denotes ++ rel, content) ∈
        p.written style (p.reachedFiles tree) ++ d.written style.bindings p.destination := by
  rw [Expects, List.mem_append]
  refine or_congr_left ?_
  simp only [written, reachedFiles, List.mem_filterMap, List.mem_filter, Prod.exists,
    FileTree.mem_contentsAt_iff hw, List.nil_append, Option.map_eq_some_iff, Prod.mk.injEq,
    List.append_cancel_left_eq]
  constructor
  · rintro ⟨c, hfile, hreach, hout⟩
    exact ⟨rel, c, ⟨⟨rel, rfl, hfile⟩, hreach⟩, content, hout, rfl, rfl⟩
  · rintro ⟨_, c, ⟨⟨_, rfl, hfile⟩, hreach⟩, _, hout, rfl, rfl⟩
    exact ⟨c, hfile, hreach, hout⟩

/-- What a run that succeeds leaves. The report lists the scripts from which nothing becomes, in the
order of the walk, and counts every file that is reached once. The files at the destination are exactly
what the project and the dictionary say if and only if no file was there before. -/
theorem mirrors_iff (hw : files.WellFormed) (hp : Project.ofSettings directory files s = .ok p)
    (hr : (run directory files s provider).result = .ok report) :
    ∃ (tree : FileTree) (d : Dictionary),
      files.get? p.root.denotes = some tree ∧ d.locales = s.locales ∧
      report.failed = p.unread s.style (p.reachedFiles tree) ∧
      report.scripts + report.templates + report.copied + report.failed.length =
        (p.reachedFiles tree).length ∧
      ((∀ rel content,
          (run directory files s provider).files.fileAt? (p.destination.denotes ++ rel) =
            some content ↔ p.Expects s.style tree d rel content) ↔
        ∀ rel, files.fileAt? (p.destination.denotes ++ rel) = none) := by
  obtain ⟨es, d, hes, hlocales, hadds, htotal, hfailed⟩ := run_adds hw hp hr
  refine ⟨.directory es, d, hes, hlocales, hfailed, htotal, ?_⟩
  have hexpects : ∀ rel content, p.Expects s.style (.directory es) d rel content ↔ _ :=
    fun rel content => p.expects_iff s.style (hw.get? hes) d
  constructor
  · intro hexact rel
    rw [Option.eq_none_iff_forall_ne_some]
    intro content hbefore
    -- a file that was there stays, and so it is one that was added, which nothing was there for
    have hafter := (hadds.iff _ content).2 (.inr hbefore)
    have hnew := (hexpects rel content).1 ((hexact rel content).1 hafter)
    have hnone := hadds.fresh _ hnew
    rw [hbefore] at hnone
    cases hnone
  · intro hnone rel content
    rw [hexpects, hadds.iff, hnone rel]
    simp

end Run

/-! ## A small project -/

section Small

open CommandLine (Settings)

/-- A file with a text. -/
def textFile (text : String) : FileTree := .file (.text text.toList)

/-- A directory; the names are in order. -/
def folder (entries : List (String × FileTree)) : FileTree :=
  .directory (entries.map fun e => (e.1.toList, e.2))

/-- A project with a template, a script that cannot be read, a hidden file that is left out and one that
is copied. -/
def smallProject : FileTree :=
  folder [("app.js", textFile "f('你好')"), ("app.json", textFile "[]"),
    ("lib", folder [(".keep", textFile "")]),
    ("pages", folder [(".draft", textFile ""), ("a.wxml", textFile "<view>你好</view>"),
      ("b.js", textFile "(")])]

/-- The settings of a rehearsal from a source to a destination. -/
def rehearsal (source destination : String) : Settings where
  source := ⟨source.toList⟩
  destination := ⟨destination.toList⟩
  includePaths := []
  service := .mock
  baseLocale := "zh-CN".toList
  targetLocales := ["en-US".toList]
  variantLocales := []
  variantTable := none
  concurrency := 8
  injectLocaleData := false
  verbose := false

theorem wellFormed_folder {entries : List (String × FileTree)}
    (order : FileTree.InOrder (entries.map fun e => (e.1.toList, e.2)))
    (names : ∀ e ∈ entries, IsName e.1.toList) (below : ∀ e ∈ entries, e.2.WellFormed) :
    (folder entries).WellFormed := by
  refine .directory order ?_ ?_ <;> intro e he <;> obtain ⟨x, hx, rfl⟩ := List.mem_map.1 he
  · exact names x hx
  · exact below x hx

theorem wellFormed_smallProject : smallProject.WellFormed := by
  have hfile : ∀ text, (textFile text).WellFormed := fun text => .file _
  refine wellFormed_folder (by decide) (by decide) ?_
  have hlib : (folder [(".keep", textFile "")]).WellFormed :=
    wellFormed_folder (by decide) (by decide) (by simp [hfile])
  have hpages : (folder [(".draft", textFile ""), ("a.wxml", textFile "<view>你好</view>"),
      ("b.js", textFile "(")]).WellFormed :=
    wellFormed_folder (by decide) (by decide) (by simp [hfile])
  simp [hfile, hlib, hpages]

theorem eq_ok_of_toOption {ε α : Type} {x : Except ε α} {a : α} (h : x.toOption = some a) :
    x = .ok a := by
  cases x with
  | error e => cases h
  | ok b =>
    cases h
    rfl

/-- The small project alone. -/
def smallDisk : FileTree := folder [("app", smallProject)]

/-- The small project beside a directory that is not empty. -/
def staleDisk : FileTree :=
  folder [("app", smallProject), ("out", folder [("stale.txt", textFile "x")])]

/-- The report for the small project. -/
def smallReport : Report :=
  { scripts := 1, templates := 1, copied := 2, failed := [⟨"/app/pages/b.js".toList⟩] }

/-- The copy of the small project at a place where nothing was. -/
theorem mirrors_smallProject :
    ∃ (p : Project) (d : Dictionary), smallDisk.WellFormed ∧
      Project.ofSettings ⟨['/']⟩ smallDisk (rehearsal "app" "out") = .ok p ∧
      (run ⟨['/']⟩ smallDisk (rehearsal "app" "out") Rehearsal.suffix.provider).result =
        .ok smallReport ∧
      ∀ rel content, (run ⟨['/']⟩ smallDisk (rehearsal "app" "out")
          Rehearsal.suffix.provider).files.fileAt? ("out".toList :: rel) = some content ↔
        p.Expects (rehearsal "app" "out").style smallProject d rel content := by
  have hw : smallDisk.WellFormed :=
    wellFormed_folder (by decide) (by decide) (by simp [wellFormed_smallProject])
  have hreport : (run ⟨['/']⟩ smallDisk (rehearsal "app" "out")
      Rehearsal.suffix.provider).result.toOption = some smallReport := by
    decide +kernel
  have hlayout : (Project.ofSettings ⟨['/']⟩ smallDisk (rehearsal "app" "out")).toOption.map
      (fun p => (p.root.denotes, p.destination.denotes)) = some (["app".toList], ["out".toList]) := by
    decide +kernel
  obtain ⟨p, hp, hplaces⟩ := Option.map_eq_some_iff.1 hlayout
  obtain ⟨hroot, hdestination⟩ := Prod.mk.inj hplaces
  obtain ⟨tree, d, htree, -, -, -, hiff⟩ :=
    mirrors_iff hw (eq_ok_of_toOption hp) (eq_ok_of_toOption hreport)
  rw [hroot] at htree
  rw [hdestination] at hiff
  cases htree
  refine ⟨p, d, hw, eq_ok_of_toOption hp, eq_ok_of_toOption hreport, hiff.2 fun rel => ?_⟩
  refine FileTree.fileAt?_of_none ?_
  rw [FileTree.get?_append]
  rfl

/-- A path that leads through a missing directory hides what is at the destination. The run succeeds,
and the stale file stays there, which is no file of the copy. -/
theorem stale_file_survives :
    ∃ p : Project,
      Project.ofSettings ⟨['/']⟩ staleDisk (rehearsal "app" "sub/../out") = .ok p ∧
      ¬ p.root.denotes <+: p.destination.denotes ∧
      (run ⟨['/']⟩ staleDisk (rehearsal "app" "sub/../out") Rehearsal.suffix.provider).result =
        .ok smallReport ∧
      (run ⟨['/']⟩ staleDisk (rehearsal "app" "sub/../out") Rehearsal.suffix.provider).files.fileAt?
        (p.destination.denotes ++ ["stale.txt".toList]) = some (.text "x".toList) ∧
      ∀ d : Dictionary, d.locales = (rehearsal "app" "sub/../out").locales →
        ¬ p.Expects (rehearsal "app" "sub/../out").style smallProject d ["stale.txt".toList]
          (.text "x".toList) := by
  have hrun : ((run ⟨['/']⟩ staleDisk (rehearsal "app" "sub/../out")
      Rehearsal.suffix.provider).result.toOption, (run ⟨['/']⟩ staleDisk
        (rehearsal "app" "sub/../out") Rehearsal.suffix.provider).files.fileAt?
          ["out".toList, "stale.txt".toList]) = (some smallReport, some (.text "x".toList)) := by
    decide +kernel
  have hlayout : (Project.ofSettings ⟨['/']⟩ staleDisk (rehearsal "app" "sub/../out")).toOption.map
      (fun p => (p.root.denotes, p.destination)) =
        some (["app".toList], ⟨"/sub/../out".toList⟩) := by
    decide +kernel
  obtain ⟨hreport, hfile⟩ := Prod.mk.inj hrun
  obtain ⟨p, hp, hplaces⟩ := Option.map_eq_some_iff.1 hlayout
  obtain ⟨hroot, hpath⟩ := Prod.mk.inj hplaces
  have hdestination : p.destination.denotes = ["out".toList] := by
    rw [hpath]
    decide
  refine ⟨p, eq_ok_of_toOption hp, ?_, eq_ok_of_toOption hreport, ?_, ?_⟩
  · rw [hroot, hdestination]
    decide
  · rw [hdestination]
    exact hfile
  · rintro d hlocales (⟨c, hc, -⟩ | hmem)
    · have hnone : smallProject.fileAt? ["stale.txt".toList] = none := by decide
      rw [hnone] at hc
      cases hc
    · have hplace := List.mem_map_of_mem (f := Prod.fst) hmem
      rw [Dictionary.map_fst_written, hlocales, hpath] at hplace
      exact absurd hplace (by decide)

end Small

end Phrasebook
