import Phrasebook.Project.Conversion
import Phrasebook.Proofs.FileTrees

/-!
Where paths lead. A path that can be followed leads to the place that its names spell once every `..`
has taken the last one away (`Path.denotes`); which directories exist decides only whether it can be
followed (`locate_eq`).

The path of an entry of a project leads below the root by the names of the entry, and its place in the
copy leads below the destination by the same names (`Project.names_placeInCopy`, `denotes_of_names`).
-/

namespace Phrasebook

namespace Text

/-- Pieces hold no separator. -/
theorem not_mem_of_mem_splitOn {p : Char → Bool} {t piece : Text} (h : piece ∈ splitOn p t) {c : Char}
    (hc : c ∈ piece) : p c = false := by
  induction t generalizing piece with
  | nil =>
    obtain rfl := List.mem_singleton.1 h
    cases hc
  | cons d t ih =>
    unfold splitOn at h
    split at h
    · rcases List.mem_cons.1 h with rfl | h
      · cases hc
      · exact ih h hc
    · next hd =>
      split at h
      · obtain rfl := List.mem_singleton.1 h
        obtain rfl := List.mem_singleton.1 hc
        exact Bool.eq_false_iff.2 hd
      · next first pieces hs =>
        rw [hs] at ih
        rcases List.mem_cons.1 h with rfl | h
        · rcases List.mem_cons.1 hc with rfl | hc
          · exact Bool.eq_false_iff.2 hd
          · exact ih (List.mem_cons_self ..) hc
        · exact ih (List.mem_cons_of_mem _ h) hc

/-- A text without separators is one piece. -/
theorem splitOn_eq_singleton {p : Char → Bool} {t : Text} (h : ∀ c ∈ t, p c = false) :
    splitOn p t = [t] := by
  induction t with
  | nil => rfl
  | cons c t ih =>
    have hc := h c (List.mem_cons_self ..)
    rw [splitOn, ih fun d hd => h d (List.mem_cons_of_mem c hd), if_neg (by simp [hc])]

end Text

namespace Path

open FileTree (IsName stepFrom)

/-- The place that a path leads to, wherever it can be followed. -/
def denotes (p : Path) : Location := p.names.foldl stepFrom []

theorem isName_iff_of_mem_segments {p : Path} {name : Text} (h : name ∈ p.segments) :
    IsName name ↔ isIdle name = false ∧ name ≠ above := by
  have hslash : '/' ∉ name := fun hc => by simpa using Text.not_mem_of_mem_splitOn h hc
  simp [IsName, hslash]

theorem foldl_stepFrom_segments (segments : List Text) (here : Location) :
    segments.foldl stepFrom here = (segments.filter fun s => !isIdle s).foldl stepFrom here := by
  induction segments generalizing here with
  | nil => rfl
  | cons s segments ih =>
    rw [List.foldl_cons, ih]
    by_cases hs : isIdle s = true
    · rw [List.filter_cons_of_neg (by simp [hs]), stepFrom, if_pos hs]
    · rw [List.filter_cons_of_pos (by simp [hs]), List.foldl_cons]

/-- A path that can be followed leads where its names say. -/
theorem locate_eq {tree : FileTree} {p : Path} {place : Location} (h : tree.locate p = .ok place) :
    place = p.denotes :=
  (FileTree.follow_eq h).trans (foldl_stepFrom_segments p.segments [])

theorem foldl_stepFrom_of_isName {names : List Text} (h : ∀ name ∈ names, IsName name)
    (here : Location) : names.foldl stepFrom here = here ++ names := by
  induction names generalizing here with
  | nil => exact (List.append_nil here).symm
  | cons name names ih =>
    obtain ⟨hi, ha, -⟩ := h name (List.mem_cons_self ..)
    rw [List.foldl_cons, ih (fun n hn => h n (List.mem_cons_of_mem name hn)), stepFrom,
      if_neg (by simp [hi]), if_neg ha, List.append_assoc, List.singleton_append]

theorem mem_segments_of_mem_names {p : Path} {name : Text} (h : name ∈ p.names) :
    name ∈ p.segments ∧ isIdle name = false := by
  obtain ⟨hm, hi⟩ := List.mem_filter.1 h
  exact ⟨hm, by simpa using hi⟩

/-- The place that a path leads to has proper names, and so has every place on the way. -/
theorem isName_of_mem_foldl {p : Path} {q : List Text} (hq : q <+: p.names) {name : Text}
    (h : name ∈ q.foldl stepFrom []) : IsName name := by
  rcases FileTree.mem_foldl_stepFrom h with h | ⟨hm, hi, ha⟩
  · cases h
  · exact (isName_iff_of_mem_segments (mem_segments_of_mem_names (hq.subset hm)).1).2 ⟨hi, ha⟩

/-! ## Entries of directories -/

theorem isAbsolute_of_isName {name : Text} (h : IsName name) : (Path.mk name).isAbsolute = false := by
  obtain ⟨-, -, hslash⟩ := h
  cases name with
  | nil => rfl
  | cons c name =>
    have hc : c ≠ '/' := fun he => hslash (he ▸ List.mem_cons_self ..)
    simpa [isAbsolute] using hc

theorem ne_nil_of_isName {name : Text} (h : IsName name) : name ≠ [] := by
  rintro rfl
  exact absurd h.1 (by decide)

theorem segments_of_isName {name : Text} (h : IsName name) : (Path.mk name).segments = [name] := by
  refine Text.splitOn_eq_singleton fun c hc => ?_
  have hne : c ≠ '/' := fun he => h.2.2 (he ▸ hc)
  simpa using hne

theorem names_of_isName {name : Text} (h : IsName name) : (Path.mk name).names = [name] := by
  rw [names, segments_of_isName h, List.filter_cons_of_pos (by simp [h.1]), List.filter_nil]

theorem names_child {name : Text} (h : IsName name) (p : Path) :
    (p.child name).names = p.names ++ [name] := by
  rw [child, names_join p (isAbsolute_of_isName h), names_of_isName h]

theorem isAbsolute_child {name : Text} (h : IsName name) (p : Path) :
    (p.child name).isAbsolute = p.isAbsolute := by
  obtain ⟨s⟩ := p
  rw [child, join, if_neg (by simp [isAbsolute_of_isName h])]
  cases s with
  | nil =>
    have habs := isAbsolute_of_isName h
    simpa [isAbsolute] using habs
  | cons c s => split <;> rfl

/-- The path that goes on by names. -/
def descend (p : Path) (rel : Location) : Path := rel.foldl child p

theorem descend_append (p : Path) (rel rest : Location) :
    p.descend (rel ++ rest) = (p.descend rel).descend rest := List.foldl_append ..

theorem names_descend {rel : Location} (h : ∀ name ∈ rel, IsName name) (p : Path) :
    (p.descend rel).names = p.names ++ rel := by
  induction rel generalizing p with
  | nil => exact (List.append_nil _).symm
  | cons name rel ih =>
    rw [descend, List.foldl_cons]
    refine (ih (fun n hn => h n (List.mem_cons_of_mem name hn)) (p.child name)).trans ?_
    rw [names_child (h name (List.mem_cons_self ..)), List.append_assoc, List.singleton_append]

theorem isAbsolute_descend {rel : Location} (h : ∀ name ∈ rel, IsName name) (p : Path) :
    (p.descend rel).isAbsolute = p.isAbsolute := by
  induction rel generalizing p with
  | nil => rfl
  | cons name rel ih =>
    rw [descend, List.foldl_cons]
    refine (ih (fun n hn => h n (List.mem_cons_of_mem name hn)) (p.child name)).trans ?_
    exact isAbsolute_child (h name (List.mem_cons_self ..)) p

/-- The segments of an entry: those of the directory, less an idle one at the end, and the name. -/
theorem exists_segments_child {name : Text} (h : IsName name) (p : Path) :
    ∃ lead, (p.child name).segments = lead ++ [name] ∧ (lead.filter fun s => !isIdle s) = p.names := by
  obtain ⟨s⟩ := p
  have hslash : ∀ t : Text, (Path.mk (t ++ '/' :: name)).segments = (Path.mk t).segments ++ [name] := by
    intro t
    rw [← segments_of_isName h]
    exact Text.splitOn_append_cons (by simp) t name
  rw [child, join, if_neg (by simp [isAbsolute_of_isName h])]
  split
  · next hs =>
    rcases Bool.or_eq_true_iff.1 hs with he | he
    · cases List.isEmpty_iff.1 he
      exact ⟨[], segments_of_isName h, names_empty.symm⟩
    · obtain ⟨t, ht⟩ := exists_of_endsInSlash he
      have hs' : s = t ++ ['/'] := ht
      subst hs'
      refine ⟨(Path.mk t).segments, ?_, ?_⟩
      · rw [← hslash, List.append_assoc, List.singleton_append]
      · have := names_append_slash t []
        rw [names_empty, List.append_nil] at this
        exact this.symm
  · exact ⟨(Path.mk s).segments, hslash s, rfl⟩

theorem endsInSlash_append {name : Text} (h : IsName name) (t : Text) :
    (Path.mk (t ++ name)).endsInSlash = false := by
  obtain ⟨c, hc⟩ := Option.ne_none_iff_exists'.1 (mt List.getLast?_eq_none_iff.1 (ne_nil_of_isName h))
  have hne : c ≠ '/' := fun he => h.2.2 (he ▸ List.mem_of_getLast? hc)
  rw [endsInSlash, List.getLast?_append, hc]
  simpa using hne

theorem segments_descend {rel : Location} (h : ∀ name ∈ rel, IsName name) {p : Path}
    (hne : p.text ≠ []) (hend : p.endsInSlash = false) :
    (p.descend rel).segments = p.segments ++ rel := by
  induction rel generalizing p with
  | nil => exact (List.append_nil _).symm
  | cons name rel ih =>
    have hname := h name (List.mem_cons_self ..)
    have hchild : p.child name = ⟨p.text ++ '/' :: name⟩ := by
      rw [child, join, if_neg (by simp [isAbsolute_of_isName hname]), if_neg]
      simp [hend, hne]
    have hsegments : (p.child name).segments = p.segments ++ [name] := by
      rw [hchild, ← segments_of_isName hname]
      exact Text.splitOn_append_cons (by simp) p.text name
    have hlast : (p.child name).endsInSlash = false := by
      rw [hchild, ← List.singleton_append, ← List.append_assoc]
      exact endsInSlash_append hname _
    rw [descend, List.foldl_cons]
    refine (ih (fun n hn => h n (List.mem_cons_of_mem name hn)) ?_ hlast).trans ?_
    · rw [hchild]
      simp
    · rw [hsegments, List.append_assoc, List.singleton_append]

/-- The segments of a path below a directory. -/
theorem exists_segments_descend {rel : Location} (h : ∀ name ∈ rel, IsName name) (hne : rel ≠ [])
    (p : Path) :
    ∃ lead, (p.descend rel).segments = lead ++ rel ∧ (lead.filter fun s => !isIdle s) = p.names := by
  obtain ⟨name, rel, rfl⟩ := List.exists_cons_of_ne_nil hne
  have hname := h name (List.mem_cons_self ..)
  obtain ⟨lead, hlead, hnames⟩ := exists_segments_child hname p
  obtain ⟨t, ht⟩ : ∃ t, p.child name = ⟨t ++ name⟩ := by
    rw [child, join, if_neg (by simp [isAbsolute_of_isName hname])]
    split
    · exact ⟨p.text, rfl⟩
    · exact ⟨p.text ++ ['/'], by rw [List.append_assoc, List.singleton_append]⟩
  refine ⟨lead, ?_, hnames⟩
  have hrest : ((p.child name).descend rel).segments = (p.child name).segments ++ rel := by
    refine segments_descend (fun n hn => h n (List.mem_cons_of_mem name hn)) ?_ ?_
    · rw [ht]
      simpa using fun _ => ne_nil_of_isName hname
    · rw [ht]
      exact endsInSlash_append hname t
  rw [hlead, List.append_assoc, List.singleton_append] at hrest
  exact hrest

/-! ## Relative paths -/

theorem dropNames?_append {lead : List Text} (rel : List Text) {names : List Text}
    (h : (lead.filter fun s => !isIdle s) = names) :
    ∃ idle, dropNames? names (lead ++ rel) = some (idle ++ rel) ∧ ∀ s ∈ idle, isIdle s = true := by
  induction lead generalizing names with
  | nil =>
    obtain rfl : names = [] := h.symm
    exact ⟨[], by rw [dropNames?], nofun⟩
  | cons s lead ih =>
    by_cases hs : isIdle s = true
    · rw [List.filter_cons_of_neg (by simp [hs])] at h
      cases names with
      | nil =>
        refine ⟨s :: lead, by rw [dropNames?], ?_⟩
        intro x hx
        rcases List.mem_cons.1 hx with rfl | hx
        · exact hs
        · simpa using List.filter_eq_nil_iff.1 h x hx
      | cons name names =>
        obtain ⟨idle, hdrop, hidle⟩ := ih h
        exact ⟨idle, by rw [List.cons_append, dropNames?, if_pos hs, hdrop], hidle⟩
    · rw [List.filter_cons_of_pos (by simp [hs])] at h
      subst h
      obtain ⟨idle, hdrop, hidle⟩ := ih rfl
      exact ⟨idle, by rw [List.cons_append, dropNames?, if_neg hs, if_pos rfl, hdrop], hidle⟩

theorem dropWhile_of_isName {rel : List Text} (h : ∀ name ∈ rel, IsName name) :
    rel.dropWhile isIdle = rel := by
  cases rel with
  | nil => rfl
  | cons name rel =>
    rw [List.dropWhile_cons_of_neg]
    simp [(h name (List.mem_cons_self ..)).1]

theorem trimIdle_append {idle rel : List Text} (hidle : ∀ s ∈ idle, isIdle s = true)
    (h : ∀ name ∈ rel, IsName name) : trimIdle (idle ++ rel) = rel := by
  rw [trimIdle, List.dropWhile_append_of_pos hidle, dropWhile_of_isName h,
    dropWhile_of_isName (fun name hn => h name (List.mem_reverse.1 hn)), List.reverse_reverse]

/-- A path below a directory, relative to it. -/
theorem relativeTo?_descend {rel : Location} (h : ∀ name ∈ rel, IsName name) (hne : rel ≠ [])
    (p : Path) : (p.descend rel).relativeTo? p = some ⟨Text.joinWith ['/'] rel⟩ := by
  obtain ⟨lead, hlead, hnames⟩ := exists_segments_descend h hne p
  obtain ⟨idle, hdrop, hidle⟩ := dropNames?_append rel hnames
  rw [relativeTo?, if_pos (by rw [isAbsolute_descend h, beq_self_eq_true]), hlead, hdrop,
    Option.map_some, trimIdle_append hidle h]

theorem names_joinWith {rel : Location} (h : ∀ name ∈ rel, IsName name) :
    (Path.mk (Text.joinWith ['/'] rel)).names = rel := by
  induction rel with
  | nil => exact names_empty
  | cons name rel ih =>
    have hname := h name (List.mem_cons_self ..)
    cases rel with
    | nil => exact names_of_isName hname
    | cons next rel =>
      have hrest := ih fun n hn => h n (List.mem_cons_of_mem name hn)
      rw [Text.joinWith, List.append_assoc, List.singleton_append, names_append_slash,
        names_of_isName hname, hrest, List.singleton_append]
      exact List.cons_ne_nil next rel

theorem isAbsolute_joinWith {rel : Location} (h : ∀ name ∈ rel, IsName name) :
    (Path.mk (Text.joinWith ['/'] rel)).isAbsolute = false := by
  cases rel with
  | nil => rfl
  | cons name rel =>
    have hname := h name (List.mem_cons_self ..)
    cases rel with
    | nil => exact isAbsolute_of_isName hname
    | cons next rel =>
      obtain ⟨c, name, rfl⟩ := List.exists_cons_of_ne_nil (ne_nil_of_isName hname)
      have habs := isAbsolute_of_isName hname
      simpa [isAbsolute, Text.joinWith] using habs

end Path

open FileTree (IsName)

/-- The place of an entry in the copy goes through its names below the destination. -/
theorem Project.names_placeInCopy (p : Project) {rel : Location} (h : ∀ name ∈ rel, IsName name)
    (hne : rel ≠ []) :
    (p.placeInCopy (p.root.descend rel)).names = p.destination.names ++ rel := by
  rw [placeInCopy, Path.relativeTo?_descend h hne, Option.getD_some,
    Path.names_join _ (Path.isAbsolute_joinWith h), Path.names_joinWith h]

theorem Path.denotes_of_names {p q : Path} {rel : Location} (h : ∀ name ∈ rel, IsName name)
    (hq : q.names = p.names ++ rel) : q.denotes = p.denotes ++ rel := by
  rw [denotes, hq, List.foldl_append, foldl_stepFrom_of_isName h]
  rfl

theorem Path.denotes_child {name : Text} (h : IsName name) (path : Path) :
    (path.child name).denotes = path.denotes ++ [name] :=
  denotes_of_names (by simp [h]) (names_child h path)

end Phrasebook
