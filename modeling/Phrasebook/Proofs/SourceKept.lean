import Phrasebook.Proofs.Mirror

/-!
Does a run leave the source as it is?

The check that the destination lies outside compares the names of two paths, and `..` is a name like any
other to it. Without that name a project that is accepted has its destination outside
(`outside_of_ofSettings`): neither the destination, nor a directory on the way to it, nor a file of the
dictionary leads into the source, and the source does not lie in the destination.

A run only puts things at free places. If the destination is outside, none of them lies in the source,
whether the run succeeds or not (`run_built`). If it is inside, every run that succeeds changes the
source. Main statement: `source_kept`.
-/

namespace Phrasebook

open FileTree (IsName stepFrom Built)
open CommandLine (Settings)

/-- What lies below one of two places that are apart is not below the other one. -/
theorem FileTree.apart_append {source place : Location} (h : ¬ source <+: place)
    (h' : ¬ place <+: source) (rel : Location) : ¬ source <+: place ++ rel := by
  intro hp
  rcases List.prefix_or_prefix_of_prefix hp (List.prefix_append place rel) with hs | hs
  · exact h hs
  · exact h' hs

/-- Steps that stay out of a source. -/
def Avoids (source : Location) (place : Location) (_ : FileTree) : Prop := ¬ source <+: place

namespace Project

/-- The copy of a project goes to a place outside of it. -/
structure Outside (p : Project) (s : Settings) : Prop where
  /-- Neither the destination nor a directory on the way to it lies in the source. -/
  way : ∀ q, q <+: p.destination.names → ¬ p.root.denotes <+: q.foldl stepFrom []
  /-- The source does not lie in the destination. -/
  apart : ¬ p.destination.denotes <+: p.root.denotes
  /-- No file of the dictionary lies in the source. -/
  dictionary : ∀ code ∈ s.locales, ¬ p.root.denotes <+: (dictionaryPath p.destination code).denotes

variable {p : Project} {s : Settings}

/-- What goes below the destination stays out of the source. -/
theorem Outside.below (h : p.Outside s) (rel : Location) :
    ¬ p.root.denotes <+: p.destination.denotes ++ rel :=
  FileTree.apart_append (h.way p.destination.names List.prefix_rfl) h.apart rel

theorem Outside.makeDirectories (h : p.Outside s) (files : FileTree) {path : Path} {rel : Location}
    (hrel : ∀ name ∈ rel, IsName name) (hpath : path.names = p.destination.names ++ rel) :
    Built (Avoids p.root.denotes) files (files.makeDirectories path).1 := by
  refine (FileTree.openAll_built files path.names.reverse).mono ?_
  rintro place new ⟨-, q, hq, rfl⟩
  rw [List.reverse_reverse, hpath] at hq
  rcases List.prefix_or_prefix_of_prefix hq (List.prefix_append p.destination.names rel) with h' | h'
  · exact h.way q h'
  · obtain ⟨rest, rfl⟩ := h'
    have hrest : rest <+: rel := (List.prefix_append_right_inj _).1 hq
    rw [Avoids, List.foldl_append,
      Path.foldl_stepFrom_of_isName fun name hn => hrel name (hrest.subset hn)]
    exact h.below rest

theorem Outside.occupy (h : p.Outside s) {files files' new : FileTree} {path : Path} {rel : Location}
    (hrel : ∀ name ∈ rel, IsName name) (hpath : path.names = p.destination.names ++ rel)
    (ho : files.occupy path new = .ok files') : Built (Avoids p.root.denotes) files files' := by
  obtain ⟨hfree, rfl⟩ := FileTree.free_of_occupy ho
  refine .put .refl hfree ?_
  rw [Avoids, Path.denotes_of_names hrel hpath]
  exact h.below rel

end Project

/-! ## Runs -/

namespace Conversion

variable {p : Project} {s : Settings} {style : Style} {fs : List (Location × Content)}

theorem place_built (h : p.Outside s) {rel : Location} (hrel : ∀ name ∈ rel, IsName name)
    (hne : rel ≠ []) {c c' : Conversion} {new : FileTree}
    (hc : c.place (p.placeInCopy (p.root.descend rel)) new = .ok c') :
    Built (Avoids p.root.denotes) c.files c'.files := by
  unfold place at hc
  cases ho : c.files.occupy (p.placeInCopy (p.root.descend rel)) new with
  | error e =>
    rw [ho] at hc
    cases hc
  | ok files =>
    rw [ho] at hc
    cases hc
    exact h.occupy hrel (p.names_placeInCopy hrel hne) ho

theorem copy_built (h : p.Outside s) {rel : Location} (hrel : ∀ name ∈ rel, IsName name)
    (hne : rel ≠ []) {c c' : Conversion} {tree : FileTree} {error : Option RunError}
    (hc : copy p c (p.root.descend rel) tree = (c', error)) :
    Built (Avoids p.root.denotes) c.files c'.files := by
  unfold copy at hc
  split at hc
  · cases hc
    exact .refl
  · next hplace =>
    cases hc
    have hbuilt := place_built h hrel hne hplace
    exact hbuilt

theorem write_built (h : p.Outside s) {rel : Location} (hrel : ∀ name ∈ rel, IsName name)
    (hne : rel ≠ []) (c : Conversion) (r : Localized) (count : Report → Report) :
    Built (Avoids p.root.denotes) c.files (write p c (p.root.descend rel) r count).1.files := by
  unfold write
  dsimp only
  split
  · exact .refl
  · next c' hc =>
    have hbuilt := place_built h hrel hne hc
    exact hbuilt

/-- A task stays out of the source, whether it succeeds or not. -/
theorem perform_built (h : p.Outside s) (c : Conversion) {task : Task} (ht : p.Handles style task fs) :
    Built (Avoids p.root.denotes) c.files (perform p style c task).1.files := by
  cases ht with
  | enter hrel hne => exact h.makeDirectories c.files hrel (p.names_placeInCopy hrel hne)
  | copy hrel hne => exact copy_built h hrel hne rfl
  | script hrel hne =>
    rw [perform]
    split
    · exact write_built h hrel hne c _ _
    · exact .refl
  | template hrel hne =>
    rw [perform]
    split
    · exact write_built h hrel hne c _ _
    · split
      · next hc =>
        have hcopy := copy_built h hrel hne hc
        exact hcopy
      · next hc =>
        have hcopy := copy_built h hrel hne hc
        exact hcopy

theorem performAll_built (h : p.Outside s) (c : Conversion) {tasks : List Task}
    (ht : p.Plans style tasks fs) :
    Built (Avoids p.root.denotes) c.files (performAll p style c tasks).1.files := by
  induction ht generalizing c with
  | nil => exact .refl
  | cons hone _ ih =>
    have hfirst := perform_built h c hone
    rw [performAll]
    split
    · next hc =>
      rw [hc] at hfirst
      exact hfirst
    · next c1 hc =>
      rw [hc] at hfirst
      exact hfirst.trans (ih c1)

/-- A conversion stays out of the source. -/
theorem carryOut_built (h : p.Outside s) (c : Conversion) (hw : c.files.WellFormed)
    {es : List (Text × FileTree)} (hsource : c.files.get? p.root.denotes = some (.directory es)) :
    Built (Avoids p.root.denotes) c.files (carryOut p style c).1.files := by
  have hmade : Built (Avoids p.root.denotes) c.files (c.files.makeDirectories p.destination).1 :=
    h.makeDirectories c.files (fun _ hn => absurd hn List.not_mem_nil) (List.append_nil _).symm
  unfold carryOut makeDirectory
  split
  · next hc =>
    obtain ⟨rfl, -⟩ := Prod.mk.inj hc
    exact hmade
  · next c1 hc =>
    obtain ⟨rfl, -⟩ := Prod.mk.inj hc
    split
    · exact hmade
    · next tree htree =>
      have hget := hmade.get?_eq (by rw [hsource]; exact Option.some_ne_none _) fun _ _ hs => hs
      obtain rfl : tree = .directory es :=
        Option.some.inj ((FileTree.get?_of_find htree).symm.trans (hget.trans hsource))
      exact hmade.trans (performAll_built h
        { c with files := (c.files.makeDirectories p.destination).1 }
        (p.tasks_plans style (hw.get? hsource)))

end Conversion

section Run

variable {directory : Path} {files : FileTree} {s : Settings} {p : Project}

theorem FileTree.occupyAll_built {S : Location → FileTree → Prop} {entries : List (Path × Text)}
    (h : ∀ e ∈ entries, ∀ new, S e.1.denotes new) (files : FileTree) :
    Built S files (files.occupyAll entries).1 := by
  induction entries generalizing files with
  | nil => exact .refl
  | cons e entries ih =>
    obtain ⟨target, text⟩ := e
    rw [occupyAll]
    split
    · exact .refl
    · next mid hmid =>
      obtain ⟨hfree, rfl⟩ := free_of_occupy hmid
      have hfirst : Built S files (files.put (.file (.text text)) target.denotes) :=
        .put .refl hfree (h _ (List.mem_cons_self ..) _)
      exact hfirst.trans (ih (fun x hx => h x (List.mem_cons_of_mem _ hx)) _)

/-- Publishing a dictionary stays out of the source. -/
theorem Dictionary.publish_built (h : p.Outside s) {d : Dictionary} (hd : d.locales = s.locales)
    {b : Bindings} (hb : IsName b.moduleFile) (files : FileTree) :
    Built (Avoids p.root.denotes) files (d.publish b p.destination files).1 := by
  have hdirectory : Built (Avoids p.root.denotes) files
      (files.makeDirectories (p.destination.child dictionaryDirectory)).1 :=
    h.makeDirectories files (by simp [isName_dictionaryDirectory])
      (Path.names_child isName_dictionaryDirectory _)
  have hfiles : ∀ e ∈ d.files b p.destination, ∀ new : FileTree,
      Avoids p.root.denotes e.1.denotes new := by
    intro e he new
    rcases List.mem_append.1 he with he | he
    · obtain ⟨code, hcode, rfl⟩ := List.mem_map.1 he
      exact h.dictionary code (hd ▸ hcode)
    · obtain rfl := List.mem_singleton.1 he
      rw [Avoids, Path.denotes_child hb]
      exact h.below _
  unfold publish
  split
  · next hmid =>
    rw [hmid] at hdirectory
    exact hdirectory
  · next hmid =>
    rw [hmid] at hdirectory
    exact hdirectory.trans (FileTree.occupyAll_built hfiles _)

/-- A run stays out of the source, whether it succeeds or not. -/
theorem run_built (h : p.Outside s) (hw : files.WellFormed)
    (hp : Project.ofSettings directory files s = .ok p) (provider : Provider) :
    Built (Avoids p.root.denotes) files (run directory files s provider).files := by
  obtain ⟨es, hes⟩ := Project.directory_of_ofSettings hp
  unfold run
  rw [hp]
  dsimp only
  split
  · exact .refl
  · next queue _ =>
    have hconverted : Built (Avoids p.root.denotes) files
        (Conversion.carryOut p s.style (s.start files queue)).1.files :=
      Conversion.carryOut_built h (s.start files queue) hw hes
    unfold Project.run
    split
    · next hc =>
      rw [hc] at hconverted
      exact hconverted
    · next c hc =>
      rw [hc] at hconverted
      have hhandled := Conversion.carryOut_handled (c := s.start files queue) hw hes hc
      have hlocales : (c.queue.finish c.dictionary).2.2.locales = s.locales := by
        rw [Queue.locales_finish, hhandled.locales, locales_start]
      have hpublished := Dictionary.publish_built h hlocales (b := s.style.bindings)
        isName_moduleFile c.files
      dsimp only
      split
      · next hafter =>
        rw [hafter] at hpublished
        exact hconverted.trans hpublished
      · next hafter =>
        rw [hafter] at hpublished
        exact hconverted.trans hpublished

/-! ## The check of the layout -/

theorem Path.isName_of_above_notMem {path : Path} (h : Path.above ∉ path.names) :
    ∀ name ∈ path.names, IsName name := by
  intro name hn
  obtain ⟨hsegment, hidle⟩ := Path.mem_segments_of_mem_names hn
  exact (Path.isName_iff_of_mem_segments hsegment).2 ⟨hidle, fun he => h (he ▸ hn)⟩

/-- Without `..` a path leads where its names say, and so does every path on the way. -/
theorem Path.foldl_of_above_notMem {path : Path} (h : Path.above ∉ path.names) {q : List Text}
    (hq : q <+: path.names) : q.foldl stepFrom [] = q :=
  Path.foldl_stepFrom_of_isName
    (fun name hn => Path.isName_of_above_notMem h name (hq.subset hn)) []

theorem Path.isAbsolute_absolute {directory : Path} (hd : directory.isAbsolute = true) (path : Path) :
    (Path.absolute directory path).isAbsolute = true := by
  have hstart : (if path.isAbsolute then path.top else directory).isAbsolute = true := by
    split
    · unfold Path.top
      split <;> rfl
    · exact hd
  have hfold : ∀ (names : List Text) (start : Path), start.isAbsolute = true →
      (names.foldl Path.child start).isAbsolute = true := by
    intro names
    induction names with
    | nil => exact fun _ h => h
    | cons name names ih => exact fun start h => ih _ (Path.isAbsolute_join h)
  unfold Path.absolute
  dsimp only
  split
  · exact Path.isAbsolute_join (hfold _ _ hstart)
  · exact hfold _ _ hstart

/-- A path without `..` can be followed to a directory that exists. -/
theorem FileTree.follow_of_directory {tree : FileTree} {segments : List Text} {here : Location}
    (hnames : ∀ name ∈ segments.filter (fun s => !Path.isIdle s), IsName name)
    {es : List (Text × FileTree)}
    (h : tree.get? (here ++ segments.filter fun s => !Path.isIdle s) = some (.directory es)) :
    tree.follow here segments = .ok (here ++ segments.filter fun s => !Path.isIdle s) := by
  induction segments generalizing here with
  | nil => rw [List.filter_nil, List.append_nil, follow]
  | cons s segments ih =>
    obtain ⟨es', hhere⟩ := directory_of_prefix (List.prefix_append here _) h
    rw [follow, hhere]
    dsimp only
    by_cases hs : Path.isIdle s = true
    · rw [List.filter_cons_of_neg (by simp [hs])] at hnames h ⊢
      rw [stepFrom, if_pos hs]
      exact ih hnames h
    · rw [List.filter_cons_of_pos (by simp [hs])] at hnames h ⊢
      obtain ⟨hi, ha, -⟩ := hnames s (List.mem_cons_self ..)
      rw [stepFrom, if_neg hs, if_neg ha]
      rw [List.append_cons here s (segments.filter _)] at h ⊢
      exact ih (fun name hn => hnames name (List.mem_cons_of_mem s hn)) h

theorem FileTree.find_of_directory {tree : FileTree} {path : Path} (h : Path.above ∉ path.names)
    {es : List (Text × FileTree)} (hes : tree.get? path.names = some (.directory es)) :
    tree.find path = .ok (.directory es) := by
  have hlocate : tree.locate path = .ok path.names :=
    follow_of_directory (Path.isName_of_above_notMem h) hes
  rw [find, hlocate]
  dsimp only
  rw [hes]

/-- A project that is accepted has its destination outside, if no path goes through `..` and no locale
code through a slash. -/
theorem Project.outside_of_ofSettings (hd : directory.isAbsolute = true)
    (hp : Project.ofSettings directory files s = .ok p) (hroot : Path.above ∉ p.root.names)
    (hdestination : Path.above ∉ p.destination.names) (hcodes : ∀ code ∈ s.locales, '/' ∉ code) :
    p.Outside s := by
  obtain ⟨hr, hdst, -, -, hunder, hvacant⟩ := Project.accepted_of_ofSettings hp
  obtain ⟨es, hes⟩ := Project.directory_of_ofSettings hp
  have hsource : p.root.denotes = p.root.names := Path.foldl_of_above_notMem hroot List.prefix_rfl
  have htarget : p.destination.denotes = p.destination.names :=
    Path.foldl_of_above_notMem hdestination List.prefix_rfl
  have hnot : ¬ p.root.names <+: p.destination.names := by
    intro hprefix
    rw [Path.isUnder, hr, hdst, Path.isAbsolute_absolute hd, Path.isAbsolute_absolute hd, ← hr, ← hdst,
      List.isPrefixOf_iff_prefix.2 hprefix] at hunder
    cases hunder
  have hway : ∀ q, q <+: p.destination.names → ¬ p.root.denotes <+: q.foldl stepFrom [] := by
    intro q hq
    rw [hsource, Path.foldl_of_above_notMem hdestination hq]
    exact fun h => hnot (h.trans hq)
  have hapart : ¬ p.destination.denotes <+: p.root.denotes := by
    intro hprefix
    -- the destination would hold the source, but it is vacant
    obtain ⟨es', hes'⟩ := FileTree.directory_of_prefix hprefix hes
    rw [htarget] at hes'
    unfold Project.isVacant at hvacant
    rw [FileTree.find_of_directory hdestination hes'] at hvacant
    obtain rfl : es' = [] := by simpa using hvacant
    rw [hsource, htarget] at hprefix
    obtain ⟨rest, hrest⟩ := hprefix
    cases rest with
    | nil =>
      rw [List.append_nil] at hrest
      exact hnot (hrest ▸ List.prefix_rfl)
    | cons name rest =>
      rw [hsource, ← hrest, FileTree.get?_append, hes'] at hes
      cases hes
  refine ⟨hway, hapart, fun code hcode => ?_⟩
  rw [denotes_dictionaryPath _ (hcodes code hcode)]
  exact FileTree.apart_append (hway p.destination.names List.prefix_rfl) hapart _

/-- Whether a run leaves the source as it is. A project that is accepted has its destination outside if
no path goes through `..` and no locale code through a slash; then no run changes anything in the
source. A run that succeeds with a destination inside always does. -/
theorem source_kept (hd : directory.isAbsolute = true) (hw : files.WellFormed)
    (hp : Project.ofSettings directory files s = .ok p) :
    (Path.above ∉ p.root.names → Path.above ∉ p.destination.names →
        (∀ code ∈ s.locales, '/' ∉ code) → p.Outside s) ∧
      (p.Outside s → ¬ p.root.denotes <+: p.destination.denotes ∧ ∀ provider,
        (run directory files s provider).files.get? p.root.denotes = files.get? p.root.denotes) ∧
      (p.root.denotes <+: p.destination.denotes → ∀ provider report,
        (run directory files s provider).result = .ok report →
        (run directory files s provider).files.get? p.root.denotes ≠ files.get? p.root.denotes) := by
  refine ⟨Project.outside_of_ofSettings hd hp, fun h => ⟨?_, fun provider => ?_⟩, ?_⟩
  · exact h.way p.destination.names List.prefix_rfl
  · obtain ⟨es, hes⟩ := Project.directory_of_ofSettings hp
    refine (run_built h hw hp provider).get?_eq ?_ fun _ _ hs => hs
    rw [hes]
    exact Option.some_ne_none _
  · rintro ⟨rest, hrest⟩ provider report hr hsame
    obtain ⟨es, d, -, -, hadds, -, -⟩ := run_adds hw hp hr
    -- the look-up module is new, and it lies in the source
    obtain ⟨f, hf, hplace⟩ : ∃ f ∈ d.written s.style.bindings p.destination,
        f.1 = p.root.denotes ++ (rest ++ [s.style.bindings.moduleFile]) := by
      refine ⟨_, List.mem_map_of_mem (List.mem_append_right _ (List.mem_singleton_self _)), ?_⟩
      rw [← List.append_assoc, hrest]
      exact Path.denotes_child isName_moduleFile p.destination
    have hnew := List.mem_append_right (p.written s.style (p.reachedFiles (.directory es))) hf
    have hbefore := hadds.fresh f hnew
    have hafter := (hadds.iff f.1 f.2).2 (.inl hnew)
    rw [hplace, FileTree.fileAt?_append_congr hsame] at hafter
    rw [hplace, hafter] at hbefore
    cases hbefore

end Run

/-- No run for the small project, with whatever service, changes it. -/
theorem source_kept_smallProject :
    ∃ p : Project, smallDisk.WellFormed ∧
      Project.ofSettings ⟨['/']⟩ smallDisk (rehearsal "app" "out") = .ok p ∧
      ¬ p.root.denotes <+: p.destination.denotes ∧ ∀ provider,
        (run ⟨['/']⟩ smallDisk (rehearsal "app" "out") provider).files.get? ["app".toList] =
          some smallProject := by
  have hw : smallDisk.WellFormed :=
    wellFormed_folder (by decide) (by decide) (by simp [wellFormed_smallProject])
  have hlayout : (Project.ofSettings ⟨['/']⟩ smallDisk (rehearsal "app" "out")).toOption.map
      (fun p => (p.root, p.destination)) = some (⟨"/app".toList⟩, ⟨"/out".toList⟩) := by
    decide +kernel
  obtain ⟨p, hp, hplaces⟩ := Option.map_eq_some_iff.1 hlayout
  obtain ⟨hroot, hdestination⟩ := Prod.mk.inj hplaces
  obtain ⟨hcheck, hkept, -⟩ := source_kept rfl hw (eq_ok_of_toOption hp)
  have houtside : p.Outside (rehearsal "app" "out") := by
    refine hcheck ?_ ?_ (by decide)
    · rw [hroot]
      decide
    · rw [hdestination]
      decide
  obtain ⟨hnot, hsame⟩ := hkept houtside
  refine ⟨p, hw, eq_ok_of_toOption hp, hnot, fun provider => ?_⟩
  have hplace : p.root.denotes = ["app".toList] := by
    rw [hroot]
    decide
  rw [← hplace, hsame provider, hplace]
  rfl

/-- The small project beside an empty directory. -/
def besideEmpty : FileTree := folder [("app", smallProject), ("x", folder [])]

/-- A destination that goes through `..` into the source is accepted, and a run writes there. -/
theorem source_written :
    ∃ p : Project,
      Project.ofSettings ⟨['/']⟩ besideEmpty (rehearsal "app" "x/../app/.out") = .ok p ∧
      p.root.denotes <+: p.destination.denotes ∧
      (run ⟨['/']⟩ besideEmpty (rehearsal "app" "x/../app/.out")
        Rehearsal.suffix.provider).result = .ok smallReport ∧
      (run ⟨['/']⟩ besideEmpty (rehearsal "app" "x/../app/.out")
        Rehearsal.suffix.provider).files.get? p.root.denotes ≠ besideEmpty.get? p.root.denotes := by
  have hrun : ((run ⟨['/']⟩ besideEmpty (rehearsal "app" "x/../app/.out")
      Rehearsal.suffix.provider).result.toOption, ((run ⟨['/']⟩ besideEmpty
        (rehearsal "app" "x/../app/.out") Rehearsal.suffix.provider).files.fileAt?
          ["app".toList, ".out".toList, "app.js".toList]).isSome) = (some smallReport, true) := by
    decide +kernel
  have hlayout : (Project.ofSettings ⟨['/']⟩ besideEmpty
      (rehearsal "app" "x/../app/.out")).toOption.map
        (fun p => (p.root.denotes, p.destination.denotes)) =
          some (["app".toList], ["app".toList, ".out".toList]) := by
    decide +kernel
  obtain ⟨hreport, hnew⟩ := Prod.mk.inj hrun
  obtain ⟨p, hp, hplaces⟩ := Option.map_eq_some_iff.1 hlayout
  obtain ⟨hroot, hdestination⟩ := Prod.mk.inj hplaces
  refine ⟨p, eq_ok_of_toOption hp, ?_, eq_ok_of_toOption hreport, fun hsame => ?_⟩
  · rw [hroot, hdestination]
    exact ⟨[".out".toList], rfl⟩
  · rw [hroot] at hsame
    have hfile := FileTree.fileAt?_append_congr hsame [".out".toList, "app.js".toList]
    rw [List.singleton_append] at hfile
    rw [hfile] at hnew
    exact absurd hnew (by decide)

end Phrasebook
