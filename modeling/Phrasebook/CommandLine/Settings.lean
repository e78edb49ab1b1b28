import Phrasebook.CommandLine.Parameter
import Phrasebook.Dictionary.Basic
import Phrasebook.Path
import Phrasebook.Service.Failure

/-!
The settings of a run, how they are put together from the values given on the command line, and the
checks that they pass: every locale code is valid, no code is given twice, and the concurrency is not
zero.

Main statements: settings that are accepted name every locale once (`nodup_of_check`), every one of
them is valid (`valid_of_check`), and the concurrency is positive (`concurrency_of_check`).
-/

namespace Phrasebook.CommandLine

/-- The services that can be chosen. -/
inductive Service where
  | bing
  | google
  | mock
  deriving DecidableEq, Repr

/-- The name of a service. -/
def Service.name : Service → String
  | .bing => "bing"
  | .google => "google"
  | .mock => "mock"

/-- The service with a name. -/
def Service.ofName? (name : Text) : Option Service :=
  [Service.bing, .google, .mock].find? (·.name.toList == name)

/-- Everything that a run needs to know. -/
structure Settings where
  source : Path
  destination : Path
  /-- Further entries of the project that are converted. -/
  includePaths : List Text
  service : Service
  baseLocale : Text
  targetLocales : List Text
  variantLocales : List Text
  variantTable : Option Path
  concurrency : Nat
  injectLocaleData : Bool
  verbose : Bool
  deriving DecidableEq, Repr

/-- What is wrong with a command line. -/
inductive UsageError where
  /-- An argument that is no option, or one position too many. -/
  | unknownArgument (argument : Text)
  /-- An option without its value. -/
  | missingValue (p : Parameter)
  /-- A value that a parameter does not take. -/
  | invalidValue (p : Parameter) (value : Text)
  /-- A value that is no number, or too large a one. -/
  | malformedNumber (value : Text)
  /-- A value for an option that takes none. -/
  | unexpectedValue (p : Parameter)
  /-- A parameter that may be given once only. -/
  | repeated (p : Parameter)
  /-- A parameter that has to be given. -/
  | required (p : Parameter)
  deriving DecidableEq, Repr

/-- What a usage error says. -/
def UsageError.message : UsageError → Text
  | .unknownArgument a => "unexpected argument '".toList ++ a ++ "' found".toList
  | .missingValue p => ("a value is required for '" ++ p.name ++ "'").toList
  | .invalidValue p v => "invalid value '".toList ++ v ++ ("' for '" ++ p.name ++ "'").toList
  | .malformedNumber v => "invalid number '".toList ++ v ++ "'".toList
  | .unexpectedValue p => ("no value is expected for '" ++ p.name ++ "'").toList
  | .repeated p => ("'" ++ p.name ++ "' cannot be used multiple times").toList
  | .required p => ("'" ++ p.name ++ "' was not provided").toList

/-- Why a command line gives no settings. -/
inductive Refusal where
  /-- The help was asked for. -/
  | help
  /-- The version was asked for. -/
  | version
  | usage (error : UsageError)
  /-- A locale code that is not valid. -/
  | locale (failure : Failure)
  /-- A locale code that is given twice. -/
  | repeatedLocale (code : Text)
  /-- A concurrency of zero. -/
  | noConcurrency
  deriving DecidableEq, Repr

/-- What is printed for a refusal. -/
def Refusal.message : Refusal → Text
  | .help => helpText
  | .version => versionText
  | .usage e => "error: ".toList ++ e.message ++ ['\n']
  | .locale f => f.message
  | .repeatedLocale code =>
    "invalid configuration: locale ".toList ++ code ++ " is configured twice".toList
  | .noConcurrency => "invalid configuration: concurrency must be at least 1".toList

/-- The values given so far. -/
structure Draft where
  source : Option Path := none
  destination : Option Path := none
  includePaths : Option (List Text) := none
  service : Option Service := none
  baseLocale : Option Text := none
  targetLocales : Option (List Text) := none
  variantLocales : Option (List Text) := none
  variantTable : Option Path := none
  concurrency : Option Nat := none
  injectLocaleData : Bool := false
  verbose : Bool := false
  deriving DecidableEq, Repr

/-- Numbers take 64 bits. -/
def numberBound : Nat := 0x10000000000000000

/-- Reads a number: decimal digits, perhaps behind a plus sign. -/
def number? (t : Text) : Option Nat :=
  let digits := match t with
    | '+' :: rest => rest
    | _ => t
  if digits.isEmpty || !digits.all Text.isAsciiDigit then none
  else
    let n := digits.foldl (fun n c => 10 * n + (c.toNat - 48)) 0
    if n < numberBound then some n else none

namespace Draft

/-- Whether a parameter has been given. -/
def has (d : Draft) : Parameter → Bool
  | .source => d.source.isSome
  | .destination => d.destination.isSome
  | .includePath => d.includePaths.isSome
  | .provider => d.service.isSome
  | .baseLocale => d.baseLocale.isSome
  | .targetLocale => d.targetLocales.isSome
  | .variantLocale => d.variantLocales.isSome
  | .variantTable => d.variantTable.isSome
  | .concurrency => d.concurrency.isSome
  | .injectLocaleData => d.injectLocaleData
  | .verbose => d.verbose
  | .help | .version => false

/-- A path is not empty. -/
def path (p : Parameter) (value : Text) : Except Refusal Path :=
  if value.isEmpty then .error (.usage (.invalidValue p value)) else .ok ⟨value⟩

/-- Adds the values of a list to those given before. -/
def collect (before : Option (List Text)) (value : Text) : Option (List Text) :=
  some (before.getD [] ++ Text.splitOn (· = ',') value)

/-- Sets a parameter to a value, which has to be one that it takes. -/
def set (d : Draft) (p : Parameter) (value : Text) : Except Refusal Draft :=
  match p with
  | .source => (path p value).map fun x => { d with source := some x }
  | .destination => (path p value).map fun x => { d with destination := some x }
  | .includePath => .ok { d with includePaths := collect d.includePaths value }
  | .provider =>
    match Service.ofName? value with
    | some s => .ok { d with service := some s }
    | none => .error (.usage (.invalidValue p value))
  | .baseLocale => .ok { d with baseLocale := some value }
  | .targetLocale => .ok { d with targetLocales := collect d.targetLocales value }
  | .variantLocale => .ok { d with variantLocales := collect d.variantLocales value }
  | .variantTable => (path p value).map fun x => { d with variantTable := some x }
  | .concurrency =>
    match number? value with
    | some n => .ok { d with concurrency := some n }
    | none => .error (.usage (.malformedNumber value))
  | .injectLocaleData => .ok { d with injectLocaleData := true }
  | .verbose => .ok { d with verbose := true }
  | .help => .error .help
  | .version => .error .version

/-- Takes a parameter with its value. A missing value is noticed first, then a repetition, then a
value that does not fit. -/
def accept (d : Draft) (p : Parameter) (value : Option Text) : Except Refusal Draft :=
  match p.takesValue, value with
  | true, none => .error (.usage (.missingValue p))
  | _, _ =>
    if !p.collects && d.has p then .error (.usage (.repeated p)) else d.set p (value.getD [])

/-- The entries of a list, without blanks around them and without empty ones. -/
def listed (values : List Text) : List Text :=
  (values.map Text.trim).filter fun v => !v.isEmpty

/-- The settings with all defaults, if nothing required is missing. -/
def complete (d : Draft) : Except Refusal Settings :=
  match d.source, d.destination with
  | none, _ => .error (.usage (.required .source))
  | _, none => .error (.usage (.required .destination))
  | some source, some destination =>
    if d.variantLocales.isSome && d.variantTable.isNone then
      .error (.usage (.required .variantTable))
    else .ok {
      source := source
      destination := destination
      includePaths := listed (d.includePaths.getD [])
      service := d.service.getD .bing
      baseLocale := d.baseLocale.getD "zh-CN".toList
      targetLocales := listed (d.targetLocales.getD ["en-US".toList])
      variantLocales := listed (d.variantLocales.getD [])
      variantTable := d.variantTable
      concurrency := d.concurrency.getD 8
      injectLocaleData := d.injectLocaleData
      verbose := d.verbose }

end Draft

namespace Settings

/-- All configured locales, the base first. -/
def locales (s : Settings) : List Text := s.baseLocale :: s.targetLocales ++ s.variantLocales

/-- The derived locales, the translated ones first. -/
def targets (s : Settings) : List Target :=
  s.targetLocales.map (⟨·, .translated⟩) ++ s.variantLocales.map (⟨·, .scriptVariant⟩)

/-- Checks locale codes one by one: each has to be valid and new. -/
def checkLocales (seen : List Text) : List Text → Except Refusal Unit
  | [] => .ok ()
  | code :: rest =>
    match Locale.ofCode code with
    | .error failure => .error (.locale failure)
    | .ok _ =>
      if code ∈ seen then .error (.repeatedLocale code) else checkLocales (code :: seen) rest

/-- Checks settings. -/
def check (s : Settings) : Except Refusal Settings :=
  match checkLocales [] s.locales with
  | .error refusal => .error refusal
  | .ok _ => if s.concurrency = 0 then .error .noConcurrency else .ok s

theorem checkLocales_eq_ok {seen codes : List Text} (h : checkLocales seen codes = .ok ()) :
    codes.Nodup ∧ (∀ code ∈ codes, code ∉ seen) ∧ ∀ code ∈ codes, ∃ l, Locale.ofCode code = .ok l := by
  induction codes generalizing seen with
  | nil => simp
  | cons code rest ih =>
    unfold checkLocales at h
    split at h
    · cases h
    · next l hl =>
      split at h
      · cases h
      · next hs =>
        obtain ⟨hn, hd, hv⟩ := ih h
        refine ⟨List.nodup_cons.2 ⟨fun hm => hd code hm (by simp), hn⟩, ?_, ?_⟩
        · intro c hc
          rcases List.mem_cons.1 hc with rfl | hc
          · exact hs
          · exact fun hm => hd c hc (List.mem_cons_of_mem _ hm)
        · intro c hc
          rcases List.mem_cons.1 hc with rfl | hc
          · exact ⟨l, hl⟩
          · exact hv c hc

theorem check_eq_ok {s t : Settings} (h : s.check = .ok t) :
    s = t ∧ checkLocales [] s.locales = .ok () ∧ s.concurrency ≠ 0 := by
  unfold check at h
  split at h
  · cases h
  · next u hu =>
    split at h
    · cases h
    · next hc =>
      cases h
      exact ⟨rfl, hu, hc⟩

/-- Accepted settings give no locale code twice. -/
theorem nodup_of_check {s t : Settings} (h : s.check = .ok t) : t.locales.Nodup := by
  obtain ⟨rfl, hl, _⟩ := check_eq_ok h
  exact (checkLocales_eq_ok hl).1

/-- Every locale code of accepted settings is valid. -/
theorem valid_of_check {s t : Settings} (h : s.check = .ok t) :
    ∀ code ∈ t.locales, ∃ l, Locale.ofCode code = .ok l := by
  obtain ⟨rfl, hl, _⟩ := check_eq_ok h
  exact (checkLocales_eq_ok hl).2.2

/-- The concurrency of accepted settings is positive. -/
theorem concurrency_of_check {s t : Settings} (h : s.check = .ok t) : 1 ≤ t.concurrency := by
  obtain ⟨rfl, _, hc⟩ := check_eq_ok h
  omega

end Settings

end Phrasebook.CommandLine
