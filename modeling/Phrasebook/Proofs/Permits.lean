import Phrasebook.Proofs.LayoutErrors
import Phrasebook.Proofs.MarkupEvents

/-!
How many permits a queue is given, and for which concurrencies there is a queue.

A command line can set every concurrency from one to the largest number of 64 bits, and no other
(`exists_settings_iff`): what is read as a number is below the bound (`Bounded`), which every step of the
reading keeps, and the decimal form of a number is read back as this number (`number?_toDigits`).

A queue hands out the permits it is asked for, if they are not more than the most it can hand out
(`Queue.new?_eq`). No other step of a run asks for permits, so a run ends for want of them exactly
when the layout is in order and the concurrency is above this limit (`tooManyPermits_iff`).
-/

namespace Phrasebook

theorem exists_of_map_eq_ok {ε α β : Type} {x : Except ε α} {f : α → β} {b : β}
    (h : x.map f = .ok b) : ∃ a, x = .ok a ∧ f a = b := by
  cases x with
  | error e => cases h
  | ok a => exact ⟨a, rfl, Except.ok.inj h⟩

namespace CommandLine

/-! ## Reading, step by step -/

namespace Reading

variable {P : Draft → Prop} {r r' : Reading}
  (hP : ∀ {d d' : Draft} {p : Parameter} {value : Option Text}, P d → d.accept p value = .ok d' → P d')
include hP

theorem keeps_take {p : Parameter} {value : Option Text} (h : P r.draft)
    (hr : r.take p value = .ok r') : P r'.draft := by
  obtain ⟨d, hd, rfl⟩ := exists_of_map_eq_ok hr
  exact hP h hd

theorem keeps_settle (h : P r.draft) (hr : r.settle = .ok r') : P r'.draft := by
  unfold settle at hr
  split at hr
  · cases hr
    exact h
  · exact keeps_take hP (r := { r with pending := none }) h hr

theorem keeps_option {p : Parameter} {attached : Option Text} (h : P r.draft)
    (hr : r.option p attached = .ok r') : P r'.draft := by
  unfold option at hr
  split at hr
  · cases hr
  · obtain ⟨r1, hr1, rfl⟩ := exists_of_map_eq_ok hr
    have hsettled := keeps_settle hP h hr1
    exact hsettled
  · obtain ⟨r1, hr1, hr⟩ := Markup.bind_eq_ok_iff.1 hr
    exact keeps_take hP (keeps_settle hP h hr1) hr

theorem keeps_letters {row : Text} (h : P r.draft) (hr : r.letters row = .ok r') : P r'.draft := by
  induction row generalizing r with
  | nil =>
    cases hr
    exact h
  | cons c rest ih =>
    unfold letters at hr
    split at hr
    · cases hr
    · split at hr
      · exact keeps_option hP h hr
      · obtain ⟨r1, hr1, hr⟩ := Markup.bind_eq_ok_iff.1 hr
        exact ih (keeps_option hP h hr1) hr

theorem keeps_position {value : Text} (h : P r.draft) (hr : r.position value = .ok r') :
    P r'.draft := by
  unfold position at hr
  split at hr
  · cases hr
  · obtain ⟨r1, hr1, rfl⟩ := exists_of_map_eq_ok hr
    have hsettled := keeps_settle hP h hr1
    exact hsettled

theorem keeps_step {argument : Text} (h : P r.draft) (hr : r.step argument = .ok r') :
    P r'.draft := by
  unfold step at hr
  split at hr
  · exact keeps_position hP h hr
  · split at hr
    · cases hr
      exact h
    · split at hr
      · cases hr
      · exact keeps_option hP h hr
    · exact keeps_letters hP h hr
    · split at hr
      · cases hr
        exact h
      · exact keeps_position hP h hr

/-- What every parameter that is taken keeps of a draft holds when all arguments are read. -/
theorem keeps_foldlM {arguments : List Text} (h : P r.draft)
    (hr : arguments.foldlM step r = .ok r') : P r'.draft := by
  induction arguments generalizing r with
  | nil =>
    cases hr
    exact h
  | cons argument rest ih =>
    rw [List.foldlM_cons] at hr
    obtain ⟨r1, hr1, hr⟩ := Markup.bind_eq_ok_iff.1 hr
    exact ih (keeps_step hP h hr1) hr

end Reading

/-! ## What a command line can set -/

theorem lt_of_number? {t : Text} {n : Nat} (h : number? t = some n) : n < numberBound := by
  simp only [number?, Option.ite_none_left_eq_some, Option.ite_none_right_eq_some] at h
  obtain ⟨-, hlt, hn⟩ := h
  rwa [← Option.some.inj hn]

/-- A concurrency that has been given takes 64 bits. -/
def Draft.Bounded (d : Draft) : Prop := ∀ n, d.concurrency = some n → n < numberBound

theorem Draft.Bounded.set {d d' : Draft} {p : Parameter} {value : Text} (h : d.Bounded)
    (hset : d.set p value = .ok d') : d'.Bounded := by
  cases p with
  | source | destination | variantTable =>
    obtain ⟨path, -, rfl⟩ := exists_of_map_eq_ok hset
    exact h
  | includePath | baseLocale | targetLocale | variantLocale | injectLocaleData | verbose =>
    cases hset
    exact h
  | provider =>
    simp only [Draft.set] at hset
    split at hset
    · cases hset
      exact h
    · cases hset
  | concurrency =>
    simp only [Draft.set] at hset
    split at hset
    · next n hn =>
      cases hset
      rintro m hm
      cases hm
      exact lt_of_number? hn
    · cases hset
  | help | version => cases hset

theorem Draft.Bounded.accept {d d' : Draft} {p : Parameter} {value : Option Text} (h : d.Bounded)
    (ha : d.accept p value = .ok d') : d'.Bounded := by
  unfold Draft.accept at ha
  split at ha
  · cases ha
  · split at ha
    · cases ha
    · exact h.set ha

theorem Draft.concurrency_of_complete {d : Draft} {s : Settings} (h : d.complete = .ok s) :
    s.concurrency = d.concurrency.getD 8 := by
  unfold complete at h
  split at h
  · cases h
  · cases h
  · split at h
    · cases h
    · cases h
      rfl

/-- The concurrency of accepted settings takes 64 bits and is not zero. -/
theorem Settings.concurrency_of_arguments {arguments : List Text} {s : Settings}
    (h : Settings.ofArguments arguments = .ok s) : 1 ≤ s.concurrency ∧ s.concurrency < numberBound := by
  obtain ⟨r, hread, h⟩ := Markup.bind_eq_ok_iff.1 h
  obtain ⟨r', hsettle, h⟩ := Markup.bind_eq_ok_iff.1 h
  obtain ⟨s', hcomplete, hcheck⟩ := Markup.bind_eq_ok_iff.1 h
  have hbounded : r'.draft.Bounded :=
    Reading.keeps_settle (P := Draft.Bounded) Draft.Bounded.accept
      (Reading.keeps_foldlM (P := Draft.Bounded) Draft.Bounded.accept (r := {}) nofun hread)
      hsettle
  refine ⟨concurrency_of_check hcheck, ?_⟩
  obtain ⟨rfl, -, -⟩ := check_eq_ok hcheck
  rw [Draft.concurrency_of_complete hcomplete]
  cases hc : r'.draft.concurrency with
  | none => decide
  | some n => exact hbounded n hc

theorem number?_digits {t : Text} (hne : t ≠ []) (h : ∀ c ∈ t, Text.isAsciiDigit c = true) :
    number? t =
      if t.foldl (fun n c => 10 * n + (c.toNat - 48)) 0 < numberBound then
        some (t.foldl (fun n c => 10 * n + (c.toNat - 48)) 0)
      else none := by
  have hunsigned : ∀ rest, t = '+' :: rest → False := by
    rintro rest rfl
    exact absurd (h '+' List.mem_cons_self) (by decide)
  have hempty : t.isEmpty = false := List.isEmpty_eq_false_iff.2 hne
  have hall : t.all Text.isAsciiDigit = true := List.all_eq_true.2 h
  rw [number?.eq_2 t hunsigned, hempty, hall]
  rfl

/-- A number is read back from its decimal form. -/
theorem number?_toDigits {n : Nat} (h : n < numberBound) : number? (Nat.toDigits 10 n) = some n := by
  have hdigit : ∀ c ∈ Nat.toDigits 10 n, Text.isAsciiDigit c = true := by
    intro c hc
    have hd : c.isDigit = true := Nat.isDigit_of_mem_toDigits (by decide) (by decide) hc
    simpa [Text.isAsciiDigit, Char.isDigit, Char.le_def] using hd
  have hvalue : (Nat.toDigits 10 n).foldl (fun n c => 10 * n + (c.toNat - 48)) 0 = n := by
    have := Nat.ofDigitChars_ten_toDigits (n := n)
    rwa [Nat.ofDigitChars_eq_foldl] at this
  rw [number?_digits Nat.toDigits_ne_nil hdigit, hvalue, if_pos h]

theorem Argument.ofText_of_ne_dash {t : Text} (h : ∀ rest, t ≠ '-' :: rest) :
    Argument.ofText t = .plain t := by
  unfold Argument.ofText
  split
  · exact absurd rfl (h _)
  · exact absurd rfl (h _)
  · exact absurd rfl (h _)
  · rfl

/-- Settings with a concurrency. -/
def concurrently (n : Nat) : Settings where
  source := ⟨"app".toList⟩
  destination := ⟨"out".toList⟩
  includePaths := []
  service := .bing
  baseLocale := "zh-CN".toList
  targetLocales := ["en-US".toList]
  variantLocales := []
  variantTable := none
  concurrency := n
  injectLocaleData := false
  verbose := false

theorem ofArguments_concurrency {n : Nat} (hpos : 1 ≤ n) (hlt : n < numberBound) :
    Settings.ofArguments ["app".toList, "out".toList, "-c".toList, Nat.toDigits 10 n] =
      .ok (concurrently n) := by
  have hdash : ∀ rest, Nat.toDigits 10 n ≠ '-' :: rest := by
    intro rest heq
    have hd : '-'.isDigit = true :=
      Nat.isDigit_of_mem_toDigits (by decide) (by decide) (heq ▸ List.mem_cons_self)
    exact absurd hd (by decide)
  have hstart : ["app".toList, "out".toList, "-c".toList].foldlM Reading.step {} =
      .ok { draft := { source := some ⟨"app".toList⟩, destination := some ⟨"out".toList⟩ }
            pending := some (.concurrency, none)
            positions := [] } := rfl
  have hread : ["app".toList, "out".toList, "-c".toList, Nat.toDigits 10 n].foldlM Reading.step {} =
      .ok { draft := { source := some ⟨"app".toList⟩, destination := some ⟨"out".toList⟩ }
            pending := some (.concurrency, some (Nat.toDigits 10 n))
            positions := [] } := by
    show (["app".toList, "out".toList, "-c".toList] ++ [Nat.toDigits 10 n]).foldlM Reading.step {} = _
    rw [List.foldlM_append, hstart]
    show Reading.step _ (Nat.toDigits 10 n) >>= pure = _
    simp only [Reading.step, Argument.ofText_of_ne_dash hdash]
    rfl
  have hset : Draft.set { source := some ⟨"app".toList⟩, destination := some ⟨"out".toList⟩ }
      .concurrency (Nat.toDigits 10 n) = .ok { source := some ⟨"app".toList⟩
                                               destination := some ⟨"out".toList⟩
                                               concurrency := some n } := by
    simp only [Draft.set, number?_toDigits hlt]
  have hcheck : (concurrently n).check = .ok (concurrently n) := by
    have hlocales : Settings.checkLocales [] (concurrently n).locales = .ok () := rfl
    unfold Settings.check
    rw [hlocales]
    exact if_neg (Nat.ne_of_gt hpos)
  unfold Settings.ofArguments
  rw [hread]
  show ((Draft.set _ .concurrency (Nat.toDigits 10 n)).map _ >>= _) = _
  rw [hset]
  exact hcheck

/-- Every concurrency from one up to the bound can be set, and no other one. -/
theorem exists_settings_iff (n : Nat) :
    (∃ arguments s, Settings.ofArguments arguments = .ok s ∧ s.concurrency = n) ↔
      1 ≤ n ∧ n < numberBound := by
  constructor
  · rintro ⟨arguments, s, h, rfl⟩
    exact Settings.concurrency_of_arguments h
  · rintro ⟨hpos, hlt⟩
    exact ⟨_, _, ofArguments_concurrency hpos hlt, rfl⟩

end CommandLine

/-! ## What asks for permits -/

/-- There is a queue when the permits it is asked for can be handed out. -/
theorem Queue.new?_eq (client : Client) {concurrency : Nat} (h : 1 ≤ concurrency) :
    Queue.new? client concurrency =
      if concurrency ≤ maxPermits then some ⟨client, none, concurrency, [], 0⟩ else none := by
  rw [new?, Nat.max_eq_left h]

/-- An error that comes from the files: something is in the way, or the system reports a fault. -/
def RunError.IsOfFiles : RunError → Prop
  | .layout _ | .fault _ => True
  | .failure _ | .tooManyPermits => False

/-- Errors of a step come from the files. -/
def OfFiles (error : Option RunError) : Prop := ∀ e, error = some e → e.IsOfFiles

theorem ofFiles_none : OfFiles none := nofun

theorem FileTree.isOfFiles_of_occupy {files new : FileTree} {target : Path} {e : RunError}
    (h : files.occupy target new = .error e) : e.IsOfFiles := by
  unfold occupy at h
  split at h
  · cases h
    trivial
  · split at h
    · cases h
    · cases h
      trivial

theorem FileTree.ofFiles_occupyAll (files : FileTree) (entries : List (Path × Text)) :
    OfFiles (files.occupyAll entries).2 := by
  induction entries generalizing files with
  | nil => exact ofFiles_none
  | cons entry entries ih =>
    obtain ⟨target, text⟩ := entry
    rw [occupyAll]
    split
    · next e he =>
      rintro _ ⟨⟩
      exact isOfFiles_of_occupy he
    · next mid _ => exact ih mid

theorem Dictionary.ofFiles_publish (d : Dictionary) (b : Bindings) (destination : Path)
    (files : FileTree) : OfFiles (d.publish b destination files).2 := by
  unfold publish
  split
  · rintro _ ⟨⟩
    trivial
  · exact FileTree.ofFiles_occupyAll _ _

namespace Conversion

variable (p : Project) (style : Style)

theorem isOfFiles_of_place {c : Conversion} {target : Path} {new : FileTree} {e : RunError}
    (h : c.place target new = .error e) : e.IsOfFiles := by
  unfold place at h
  cases ho : c.files.occupy target new with
  | ok files =>
    rw [ho] at h
    cases h
  | error e' =>
    rw [ho] at h
    cases h
    exact FileTree.isOfFiles_of_occupy ho

theorem ofFiles_makeDirectory (c : Conversion) (path : Path) : OfFiles (c.makeDirectory path).2 := by
  intro e he
  obtain ⟨fault, -, rfl⟩ := Option.map_eq_some_iff.1 he
  trivial

theorem ofFiles_copy (c : Conversion) (path : Path) (tree : FileTree) :
    OfFiles (copy p c path tree).2 := by
  unfold copy
  split
  · next e he =>
    rintro _ ⟨⟩
    exact isOfFiles_of_place he
  · exact ofFiles_none

theorem ofFiles_write (c : Conversion) (path : Path) (r : Localized) (count : Report → Report) :
    OfFiles (write p c path r count).2 := by
  unfold write
  dsimp only
  split
  · next e he =>
    rintro _ ⟨⟩
    exact isOfFiles_of_place he
  · exact ofFiles_none

theorem ofFiles_perform (c : Conversion) (task : Task) : OfFiles (perform p style c task).2 := by
  cases task with
  | enter path => exact ofFiles_makeDirectory c _
  | copy path tree => exact ofFiles_copy p c path tree
  | script path source =>
    rw [perform]
    split
    · exact ofFiles_write p c path _ _
    · exact ofFiles_none
  | template path source depth =>
    rw [perform]
    split
    · exact ofFiles_write p c path _ _
    · split
      · next hc =>
        have hcopy := ofFiles_copy p
          (c.updateReport fun r => { r with copiedTemplates := r.copiedTemplates ++ [path] }) path
          (.file (.text source))
        rwa [hc] at hcopy
      · exact ofFiles_none

theorem ofFiles_performAll (c : Conversion) (tasks : List Task) :
    OfFiles (performAll p style c tasks).2 := by
  induction tasks generalizing c with
  | nil => exact ofFiles_none
  | cons task tasks ih =>
    have hfirst := ofFiles_perform p style c task
    rw [performAll]
    split
    · next hc => rwa [hc] at hfirst
    · next c1 _ => exact ih c1

theorem ofFiles_carryOut (c : Conversion) : OfFiles (carryOut p style c).2 := by
  have hmake := ofFiles_makeDirectory c p.destination
  unfold carryOut
  split
  · next hc => rwa [hc] at hmake
  · split
    · rintro _ ⟨⟩
      trivial
    · exact ofFiles_performAll p style _ _

end Conversion

open CommandLine (Settings)

/-- A run whose queue is set up does not ask for permits any more. -/
theorem Project.run_ne_tooManyPermits (p : Project) (s : Settings) (files : FileTree) (queue : Queue) :
    (p.run s files queue).result ≠ .error .tooManyPermits := by
  have hcarry := Conversion.ofFiles_carryOut p s.style (s.start files queue)
  unfold Project.run
  split
  · next e hc =>
    rw [hc] at hcarry
    rintro ⟨⟩
    exact hcarry _ rfl
  · next c _ =>
    have hpublish := Dictionary.ofFiles_publish (c.queue.finish c.dictionary).2.2 s.style.bindings
      p.destination c.files
    dsimp only
    split
    · next e hc =>
      rw [hc] at hpublish
      rintro ⟨⟩
      exact hpublish _ rfl
    · nofun

/-- A run ends for want of permits when its project is in order and its concurrency is above what a
queue can hand out. -/
theorem tooManyPermits_iff {directory : Path} {files : FileTree} {s : Settings} {provider : Provider}
    (h : 1 ≤ s.concurrency) :
    (run directory files s provider).result = .error .tooManyPermits ↔
      (∃ p, Project.ofSettings directory files s = .ok p) ∧ Queue.maxPermits < s.concurrency := by
  unfold run
  cases hp : Project.ofSettings directory files s with
  | error e => simp
  | ok p =>
    have hnew := Queue.new?_eq { provider := provider, source := s.baseLocale } h
    dsimp only
    by_cases hc : s.concurrency ≤ Queue.maxPermits
    · rw [if_pos hc] at hnew
      have hqueue : s.queue directory files provider ≠ .error .tooManyPermits := by
        unfold Settings.queue
        rw [hnew]
        dsimp only
        split <;> nofun
      refine iff_of_false ?_ fun hlt => absurd hlt.2 (Nat.not_lt.2 hc)
      split
      · next e he =>
        rintro ⟨⟩
        exact hqueue he
      · exact p.run_ne_tooManyPermits s files _
    · rw [if_neg hc] at hnew
      have hqueue : s.queue directory files provider = .error .tooManyPermits := by
        unfold Settings.queue
        rw [hnew]
      rw [hqueue]
      exact iff_of_true rfl ⟨⟨p, rfl⟩, Nat.lt_of_not_le hc⟩

/-- Which accepted settings can be run. Their concurrency is positive and takes 64 bits. A queue gets as many
permits as the concurrency says, as long as they take 61 bits; for more there is no queue. So a run ends for
want of permits exactly when its project is in order and its concurrency is above this limit. -/
theorem queue_of_accepted_iff {arguments : List Text} {s : Settings}
    (h : Settings.ofArguments arguments = .ok s) :
    1 ≤ s.concurrency ∧ s.concurrency < CommandLine.numberBound ∧
      Queue.maxPermits = (CommandLine.numberBound - 1) >>> 3 ∧
      (∀ client, Queue.new? client s.concurrency =
        if s.concurrency ≤ Queue.maxPermits then some ⟨client, none, s.concurrency, [], 0⟩ else none) ∧
      ∀ directory files provider, (run directory files s provider).result = .error .tooManyPermits ↔
        (∃ p, Project.ofSettings directory files s = .ok p) ∧ Queue.maxPermits < s.concurrency := by
  obtain ⟨hpos, hlt⟩ := Settings.concurrency_of_arguments h
  exact ⟨hpos, hlt, by decide, fun client => Queue.new?_eq client hpos,
    fun directory files provider => tooManyPermits_iff hpos⟩

/-- A concurrency at the limit is run like any other one. -/
theorem queue_of_accepted_at_limit :
    Settings.ofArguments
        ["app".toList, "out".toList, "-c".toList, "2305843009213693951".toList] =
      .ok (CommandLine.concurrently 2305843009213693951) ∧
    ∀ directory files provider,
      (run directory files (CommandLine.concurrently 2305843009213693951) provider).result ≠
        .error .tooManyPermits := by
  have hdigits : "2305843009213693951".toList = Nat.toDigits 10 2305843009213693951 := by
    decide +kernel
  have hread := CommandLine.ofArguments_concurrency (n := 2305843009213693951) (by decide) (by decide)
  rw [← hdigits] at hread
  refine ⟨hread, fun directory files provider herror => ?_⟩
  have hlimit := (((queue_of_accepted_iff hread).2.2.2.2 directory files provider).1 herror).2
  exact absurd hlimit (by decide)

/-- A concurrency above the limit is accepted, and the project is in order, but there is no queue for
it. -/
theorem accepted_without_queue :
    Settings.ofArguments
        ["app".toList, "out".toList, "-c".toList, "2305843009213693952".toList] =
      .ok (CommandLine.concurrently 2305843009213693952) ∧
    (run ⟨['/']⟩ smallDisk (CommandLine.concurrently 2305843009213693952)
      Rehearsal.suffix.provider).result = .error .tooManyPermits := by
  have hdigits : "2305843009213693952".toList = Nat.toDigits 10 2305843009213693952 := by
    decide +kernel
  have hread := CommandLine.ofArguments_concurrency (n := 2305843009213693952) (by decide) (by decide)
  rw [← hdigits] at hread
  have hproject : (Project.ofSettings ⟨['/']⟩ smallDisk
      (CommandLine.concurrently 2305843009213693952)).toOption.isSome = true := by
    decide +kernel
  obtain ⟨p, hp⟩ := Option.isSome_iff_exists.1 hproject
  refine ⟨hread, (tooManyPermits_iff (by decide)).2 ⟨⟨p, eq_ok_of_toOption hp⟩, by decide⟩⟩

end Phrasebook
