import Phrasebook.Proofs.Mirror
import Phrasebook.Proofs.TemplateSecondRun

/-!
Where the reference in a localized template leads. The path in it goes up by one directory for each that
lies between the destination and the template, and there is the module file (`follow_modulePath`), which
the run has written.

Main statement: `module_reference_resolves`, over every template that a run localizes.
-/

namespace Phrasebook

open FileTree (IsName)

/-! ## Following the path of the module -/

/-- Names of directories above, one for each that `above` goes through, lead back. -/
theorem FileTree.follow_back {tree : FileTree} (place : Location) {above : Location}
    {es : List (Text × FileTree)} (h : tree.get? (place ++ above) = some (.directory es))
    (rest : List Text) :
    tree.follow (place ++ above) (List.replicate above.length Path.above ++ rest) =
      tree.follow place rest := by
  induction above using List.reverseRecOn generalizing es with
  | nil => rw [List.append_nil, List.length_nil, List.replicate_zero, List.nil_append]
  | append_singleton above name ih =>
    rw [← List.append_assoc] at h ⊢
    obtain ⟨es', hes'⟩ := directory_of_prefix (List.prefix_append (place ++ above) [name]) h
    have hstep : stepFrom (place ++ above ++ [name]) Path.above = place ++ above := by
      rw [stepFrom, if_neg (by decide), if_pos rfl, List.dropLast_concat]
    rw [List.length_append, List.length_singleton, List.replicate_succ, List.cons_append, follow, h]
    dsimp only
    rw [hstep]
    exact ih hes'

/-- Something stands only in a directory. -/
theorem FileTree.directory_above {tree : FileTree} {place : Location} {name : Text}
    (h : tree.get? (place ++ [name]) ≠ none) : ∃ es, tree.get? place = some (.directory es) := by
  rw [get?_append] at h
  cases ht : tree.get? place with
  | none =>
    rw [ht] at h
    exact absurd rfl h
  | some t =>
    cases t with
    | directory es => exact ⟨es, rfl⟩
    | file content =>
      rw [ht] at h
      exact absurd rfl h

theorem FileTree.follow_isName {tree : FileTree} {place : Location} {es : List (Text × FileTree)}
    (h : tree.get? place = some (.directory es)) {name : Text} (hn : IsName name) :
    tree.follow place [name] = .ok (place ++ [name]) := by
  rw [follow, h]
  dsimp only
  rw [follow, stepFrom, if_neg (by simp [hn.1]), if_neg hn.2.1]

/-- The pieces of the path of the module, from `depth` directories below it. -/
theorem segments_modulePath (depth : Nat) :
    (Path.mk (Bindings.modulePath {} (depth + 1))).segments =
      List.replicate (depth + 1) Path.above ++ [Bindings.moduleFile {}] := by
  have hup : ∀ n, Text.splitOn (· = '/') ((List.replicate n "../".toList).flatten ++
      Bindings.moduleFile {}) = List.replicate n Path.above ++ [Bindings.moduleFile {}] := by
    intro n
    induction n with
    | zero => exact Path.segments_of_isName isName_moduleFile
    | succ n ih =>
      have hsplit := Text.splitOn_append_cons (p := (· = '/')) (c := '/') (by simp) Path.above
        ((List.replicate n "../".toList).flatten ++ Bindings.moduleFile {})
      rw [ih] at hsplit
      have habove : Text.splitOn (· = '/') Path.above = [Path.above] := by decide
      rw [habove] at hsplit
      rw [List.replicate_succ, List.flatten_cons, List.append_assoc]
      exact hsplit
  rw [Bindings.modulePath, if_neg (Nat.succ_ne_zero depth)]
  exact hup (depth + 1)

/-- From a directory below a place, the path of the module leads to the module file at that place. -/
theorem follow_modulePath {tree : FileTree} (place : Location) {above : Location}
    {es : List (Text × FileTree)} (h : tree.get? (place ++ above) = some (.directory es)) :
    tree.follow (place ++ above) (Path.mk (Bindings.modulePath {} above.length)).segments =
      .ok (place ++ [Bindings.moduleFile {}]) := by
  obtain ⟨es', hplace⟩ := FileTree.directory_of_prefix (List.prefix_append place above) h
  cases above with
  | nil =>
    have hhere : (Path.mk (Bindings.modulePath {} 0)).segments =
        [".".toList, Bindings.moduleFile {}] := by decide
    have hstep : FileTree.stepFrom place ".".toList = place := if_pos (by decide)
    rw [List.append_nil, List.length_nil, hhere, FileTree.follow, hplace]
    dsimp only
    rw [hstep]
    exact FileTree.follow_isName hplace isName_moduleFile
  | cons name above =>
    have hsegments := segments_modulePath above.length
    rw [List.length_cons, hsegments, ← List.length_cons (a := name), FileTree.follow_back place h]
    exact FileTree.follow_isName hplace isName_moduleFile

/-! ## Templates of a project -/

/-- A template of a project that is localized: it is reached and not copied, and can be read. -/
def Project.Localizes (p : Project) (tree : FileTree) (rel : Location) (d : Markup.Document) : Prop :=
  ∃ source, (rel, .text source) ∈ p.reachedFiles tree ∧ p.copies rel = false ∧
    (p.root.descend rel).extension? = some "wxml".toList ∧ Markup.parse source = .ok d

/-- What becomes of a template that does not refer to the module by itself. -/
theorem Project.outputOf_template {p : Project} {style : Style} {rel : Location} {source : Text}
    {d : Markup.Document} (hc : p.copies rel = false)
    (he : (p.root.descend rel).extension? = some "wxml".toList) (hd : Markup.parse source = .ok d)
    (hm : Template.declaresModule style.bindings d = false) :
    p.outputOf style rel (.text source) =
      some (.text (style.bindings.moduleReference (style.bindings.modulePath (rel.length - 1)) ++
        '\n' :: (Template.documentForm style.bindings none d).output)) := by
  have hlocalized : Template.localizeTemplate style.bindings
      (some (style.bindings.modulePath (rel.length - 1))) source =
        .ok (Template.documentForm style.bindings
          (some (style.bindings.modulePath (rel.length - 1))) d) :=
    Template.localizeTemplate_eq_ok_iff.2 ⟨d, hd, rfl⟩
  have hjs : (p.root.descend rel).extension? ≠ some "js".toList := by
    rw [he]
    decide
  unfold outputOf
  rw [if_neg (by simp [hc])]
  dsimp only
  rw [if_neg hjs, if_pos he, hlocalized]
  simp [Template.documentForm, hm]

section Run

open CommandLine (Settings)

variable {directory : Path} {files : FileTree} {s : Settings} {p : Project} {provider : Provider}
  {report : Report}

/-- **The reference leads to the module.** Every template that a run localizes and that does not refer to
the module by itself starts with a reference, and from the directory of the template its `src` leads to
the file with the look-up module that the run has written. -/
theorem module_reference_resolves (hw : files.WellFormed)
    (hp : Project.ofSettings directory files s = .ok p)
    (hr : (run directory files s provider).result = .ok report) :
    ∃ (tree : FileTree) (dictionary : Dictionary),
      files.get? p.root.denotes = some tree ∧ dictionary.locales = s.locales ∧
      (run directory files s provider).files.fileAt?
          (p.destination.child (Bindings.moduleFile {})).denotes =
        some (.text (Bindings.lookupModule {} dictionary.tables dictionary.defaultLocale)) ∧
      ∀ rel d, p.Localizes tree rel d → Template.declaresModule {} d = false →
        ∃ (reference : Text) (tag : Markup.Tag) (src : Text),
          (run directory files s provider).files.fileAt? (p.destination.denotes ++ rel) =
            some (.text (reference ++ '\n' :: (Template.documentForm {} none d).output)) ∧
          (∀ total rest, Markup.readEvent total (reference ++ rest) = .ok (.raw tag [], rest)) ∧
          tag.name = "wxs".toList ∧ tag.attribute? "src".toList = some src ∧
          (run directory files s provider).files.follow (p.destination.denotes ++ rel).dropLast
              (Path.mk src).segments =
            .ok (p.destination.child (Bindings.moduleFile {})).denotes := by
  obtain ⟨es, dictionary, hes, hlocales, hadds, -, -⟩ := run_adds hw hp hr
  refine ⟨.directory es, dictionary, hes, hlocales, ?_, ?_⟩
  · -- the module is the last file of the dictionary
    refine (hadds.iff _ _).2 (.inl (List.mem_append_right _ ?_))
    exact List.mem_map.2 ⟨_, List.mem_append_right _ (List.mem_singleton_self _), rfl⟩
  · rintro rel d ⟨source, hreached, hc, he, hd⟩ hm
    have hout : p.outputOf s.style rel (.text source) = _ := Project.outputOf_template hc he hd hm
    have hfile := (hadds.iff (p.destination.denotes ++ rel) _).2
      (.inl (List.mem_append_left _ (List.mem_filterMap.2 ⟨_, hreached, by rw [hout]; rfl⟩)))
    obtain ⟨rest, hrel, hnode⟩ := (FileTree.mem_contentsAt_iff (hw.get? hes)).1
      (List.mem_filter.1 hreached).1
    obtain rfl : rel = rest := hrel
    have hne : rel ≠ [] := by
      rintro rfl
      cases hnode
    obtain ⟨above, name, rfl⟩ := (List.eq_nil_or_concat' rel).resolve_left hne
    -- the way up starts in the directory of the template
    have hstands : (run directory files s provider).files.get?
        (p.destination.denotes ++ above ++ [name]) ≠ none := by
      rw [List.append_assoc, FileTree.fileAt?_eq_some_iff.1 hfile]
      exact Option.some_ne_none _
    obtain ⟨es', hes'⟩ := FileTree.directory_above hstands
    have hfollow := follow_modulePath p.destination.denotes hes'
    have hdepth : (above ++ [name]).length - 1 = above.length := by simp
    rw [hdepth] at hfile
    refine ⟨_, _, _, hfile, Template.readEvent_moduleReference (Template.not_mem_modulePath _), rfl, rfl, ?_⟩
    rw [Path.denotes_child isName_moduleFile, ← List.append_assoc, List.dropLast_concat]
    exact hfollow

/-- The reference in the template of the small project, one directory below the destination. -/
theorem module_reference_resolves_smallProject :
    ∃ (reference rest : Text) (tag : Markup.Tag) (src : Text),
      (run ⟨['/']⟩ smallDisk (rehearsal "app" "out") Rehearsal.suffix.provider).files.fileAt?
          ["out".toList, "pages".toList, "a.wxml".toList] =
        some (.text (reference ++ '\n' :: rest)) ∧
      (∀ total rest, Markup.readEvent total (reference ++ rest) = .ok (.raw tag [], rest)) ∧
      tag.attribute? "src".toList = some src ∧
      (run ⟨['/']⟩ smallDisk (rehearsal "app" "out") Rehearsal.suffix.provider).files.follow
          ["out".toList, "pages".toList] (Path.mk src).segments =
        .ok ["out".toList, "mina-i18n.wxs".toList] := by
  have hw : smallDisk.WellFormed :=
    wellFormed_folder (by decide) (by decide) (by simp [wellFormed_smallProject])
  have hreport : (run ⟨['/']⟩ smallDisk (rehearsal "app" "out")
      Rehearsal.suffix.provider).result.toOption = some smallReport := by
    decide +kernel
  have hlayout : (Project.ofSettings ⟨['/']⟩ smallDisk (rehearsal "app" "out")).toOption.map
      (fun p => (p.root.denotes, p.destination.denotes,
        p.copies ["pages".toList, "a.wxml".toList],
        (p.root.descend ["pages".toList, "a.wxml".toList]).extension?,
        decide ((["pages".toList, "a.wxml".toList], .text "<view>你好</view>".toList) ∈
          p.reachedFiles smallProject))) =
      some (["app".toList], ["out".toList], false, some "wxml".toList, true) := by
    decide +kernel
  have hparse : (Markup.parse "<view>你好</view>".toList).toOption.map
      (Template.declaresModule {}) = some false := by
    decide +kernel
  obtain ⟨p, hp, hproject⟩ := Option.map_eq_some_iff.1 hlayout
  simp only [Prod.mk.injEq, decide_eq_true_eq] at hproject
  obtain ⟨hroot, hdestination, hcopies, hextension, hreached⟩ := hproject
  obtain ⟨d, hd, hdeclares⟩ := Option.map_eq_some_iff.1 hparse
  obtain ⟨tree, dictionary, htree, -, -, hall⟩ :=
    module_reference_resolves hw (eq_ok_of_toOption hp) (eq_ok_of_toOption hreport)
  rw [hroot] at htree
  cases htree
  obtain ⟨reference, tag, src, hfile, hread, -, hsrc, hfollow⟩ :=
    hall _ d ⟨_, hreached, hcopies, hextension, eq_ok_of_toOption hd⟩ hdeclares
  rw [Path.denotes_child isName_moduleFile, hdestination] at hfollow
  rw [hdestination] at hfile
  exact ⟨reference, _, tag, src, hfile, hread, hsrc, hfollow⟩

end Run

end Phrasebook
