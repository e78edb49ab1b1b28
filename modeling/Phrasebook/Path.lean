import Phrasebook.Text.Quoted

/-!
Paths as they are written. A path is kept as its text, since messages show it unchanged; two paths
are compared by the names they go through, so that doubled slashes, a slash at the end and `.` do not
count. A `..` is a name like any other here: only the file tree knows where it leads.

Main statement: joining a path adds its names (`names_join`).
-/

namespace Phrasebook

/-- A path as it is written. -/
structure Path where
  text : Text
  deriving DecidableEq, Repr

namespace Path

/-- Whether a path starts at the top of the tree. -/
def isAbsolute (p : Path) : Bool := p.text.head? == some '/'

/-- Whether a path ends in a slash. -/
def endsInSlash (p : Path) : Bool := p.text.getLast? == some '/'

/-- The pieces between the slashes. -/
def segments (p : Path) : List Text := Text.splitOn (· = '/') p.text

/-- The names `.` and nothing stay where they are. -/
def isIdle (segment : Text) : Bool := segment.isEmpty || segment == ['.']

/-- The name of the directory above. -/
def above : Text := ['.', '.']

/-- The names that a path goes through. -/
def names (p : Path) : List Text := p.segments.filter fun s => !isIdle s

/-- A path continued by another one; an absolute one stands for itself. -/
def join (p q : Path) : Path :=
  if q.isAbsolute then q
  else if p.text.isEmpty || p.endsInSlash then ⟨p.text ++ q.text⟩
  else ⟨p.text ++ '/' :: q.text⟩

theorem names_append_slash (s t : Text) :
    (Path.mk (s ++ '/' :: t)).names = (Path.mk s).names ++ (Path.mk t).names := by
  have h : (Path.mk (s ++ '/' :: t)).segments = (Path.mk s).segments ++ (Path.mk t).segments :=
    Text.splitOn_append_cons (by simp) s t
  simp [names, h]

theorem names_empty : (Path.mk []).names = [] := by simp [names, segments, Text.splitOn, isIdle]

theorem exists_of_endsInSlash {p : Path} (h : p.endsInSlash = true) :
    ∃ s, p.text = s ++ ['/'] := by
  have hl : p.text.getLast? = some '/' := by simpa [endsInSlash] using h
  exact List.getLast?_eq_some_iff.1 hl

/-- Joining a path adds its names. -/
theorem names_join {q : Path} (p : Path) (h : q.isAbsolute = false) :
    (p.join q).names = p.names ++ q.names := by
  rw [join, if_neg (by simp [h])]
  obtain ⟨s⟩ := p
  split
  · next hp =>
    rcases Bool.or_eq_true_iff.1 hp with he | hs
    · cases List.isEmpty_iff.1 he
      simp [names_empty]
    · obtain ⟨s', hs'⟩ := exists_of_endsInSlash hs
      have hp' : s = s' ++ ['/'] := hs'
      subst hp'
      show (Path.mk (s' ++ ['/'] ++ q.text)).names = (Path.mk (s' ++ '/' :: [])).names ++ q.names
      rw [List.append_assoc, List.singleton_append, names_append_slash, names_append_slash,
        names_empty, List.append_nil]
  · exact names_append_slash s q.text

theorem isAbsolute_join {p q : Path} (hp : p.isAbsolute = true) : (p.join q).isAbsolute = true := by
  obtain ⟨s⟩ := p
  cases s with
  | nil => simp [isAbsolute] at hp
  | cons c s =>
    have hc : c = '/' := by simpa [isAbsolute] using hp
    unfold join
    split
    · assumption
    · split <;> simp [isAbsolute, hc]

/-- The path of an entry of a directory. -/
def child (p : Path) (name : Text) : Path := p.join ⟨name⟩

/-- The start of an absolute path: one slash, or two if it is written with exactly two. -/
def top (p : Path) : Path :=
  if Text.startsWith p.text "//".toList && !Text.startsWith p.text "///".toList then ⟨"//".toList⟩
  else ⟨"/".toList⟩

/-- The absolute form of a path that is meant from a directory. It has no idle names and no doubled
slashes; `..` and a slash at the end stay. -/
def absolute (directory p : Path) : Path :=
  let start := if p.isAbsolute then p.top else directory
  let body := p.names.foldl child start
  if p.endsInSlash then body.join ⟨[]⟩ else body

/-- Whether two paths go through the same names from the same start. -/
def agrees (p q : Path) : Bool := p.isAbsolute == q.isAbsolute && p.names == q.names

/-- Whether a path goes through the names of another one first. -/
def isUnder (p root : Path) : Bool :=
  p.isAbsolute == root.isAbsolute && root.names.isPrefixOf p.names

/-- What is left of a row of segments behind the given names. -/
def dropNames? : List Text → List Text → Option (List Text)
  | [], segments => some segments
  | _ :: _, [] => none
  | name :: names, s :: segments =>
    if isIdle s then dropNames? (name :: names) segments
    else if s = name then dropNames? names segments
    else none

/-- A row of segments without the idle ones at both ends. -/
def trimIdle (segments : List Text) : List Text :=
  ((segments.dropWhile isIdle).reverse.dropWhile isIdle).reverse

/-- The rest of a path behind a root, as it is written. -/
def relativeTo? (p root : Path) : Option Path :=
  if p.isAbsolute == root.isAbsolute then
    (dropNames? root.names p.segments).map fun rest => ⟨Text.joinWith ['/'] (trimIdle rest)⟩
  else none

/-- The part of a name behind its last dot, unless the dot is its first character. -/
def extensionOf (name : Text) : Option Text :=
  match (name.reverse.span (· ≠ '.')) with
  | (_, []) => none
  | (_, [_]) => none
  | (after, _ :: _ :: _) => some after.reverse

/-- A path in quotes for diagnostics; quotes of both kinds are escaped. -/
def quoted (p : Path) : Text :=
  '"' :: p.text.flatMap (fun c => if c = '\'' then "\\'".toList else Text.quoteChar c) ++ ['"']

/-- The extension of the last name of a path. -/
def extension? (p : Path) : Option Text :=
  match p.names.getLast? with
  | none => none
  | some name => if name = above then none else extensionOf name

end Path

end Phrasebook
