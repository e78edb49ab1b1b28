import Phrasebook.CommandLine.Arguments
import Phrasebook.Project.Conversion

/-!
A whole run: look at the project, convert it, finish the requests, and write one dictionary file
per locale and the look-up module. And the command around it, with what it prints and its exit
status.
-/

namespace Phrasebook

/-- The directory of the dictionary files. -/
def dictionaryDirectory : Text := "i18n".toList

namespace FileTree

/-- Stores texts at paths where nothing may be, until one fails. -/
def occupyAll (files : FileTree) : List (Path × Text) → FileTree × Option RunError
  | [] => (files, none)
  | (target, text) :: rest =>
    match files.occupy target (.file (.text text)) with
    | .error e => (files, some e)
    | .ok files => files.occupyAll rest

end FileTree

/-- The files that a dictionary gives: one per locale, and the look-up module. -/
def Dictionary.files (d : Dictionary) (b : Bindings) (destination : Path) : List (Path × Text) :=
  let directory := destination.child dictionaryDirectory
  d.locales.map (fun locale => (directory.child (locale ++ ".json".toList), d.prettyJson locale)) ++
    [(destination.child b.moduleFile, b.lookupModule d.tables d.defaultLocale)]

/-- Writes the files of a dictionary. -/
def Dictionary.publish (d : Dictionary) (b : Bindings) (destination : Path) (files : FileTree) :
    FileTree × Option RunError :=
  match files.makeDirectories (destination.child dictionaryDirectory) with
  | (files, some f) => (files, some (.fault f))
  | (files, none) => files.occupyAll (d.files b destination)

namespace CommandLine.Settings

/-- The character table of a run, if one is given. -/
def converter (s : Settings) (directory : Path) (files : FileTree) :
    Except Failure (Option CharTable) :=
  match s.variantTable with
  | none => .ok none
  | some path =>
    match files.readText (directory.join path) with
    | .error f => .error (.unreadableTable f)
    | .ok text => (CharTable.ofJson text).map some

/-- The provider of a run; the key is that of the environment. -/
def provider (s : Settings) (key : Option Text) (transport : Transport) : Except Failure Provider :=
  match s.service with
  | .bing => .ok (Bing.provider Bing.endpoint transport)
  | .google => (Google.ofEnvironment key).map fun config => Google.provider config transport
  | .mock => .ok Rehearsal.suffix.provider

/-- How a run writes. -/
def style (s : Settings) : Style := { mergeLocale := s.injectLocaleData }

/-- The queue of a run, with the character table if one is given. -/
def queue (s : Settings) (directory : Path) (files : FileTree) (provider : Provider) :
    Except RunError Queue :=
  match Queue.new? { provider := provider, source := s.baseLocale } s.concurrency with
  | none => .error .tooManyPermits
  | some q =>
    match s.converter directory files with
    | .error f => .error (.failure f)
    | .ok none => .ok q
    | .ok (some table) => .ok (q.convertingWith table)

/-- The state in which a run starts to convert. -/
def start (s : Settings) (files : FileTree) (queue : Queue) : Conversion where
  files := files
  dictionary := Dictionary.new s.baseLocale s.targets
  queue := queue

end CommandLine.Settings

/-- What a run leaves: the files, what it printed, and the report or the error that ended it. -/
structure RunResult where
  files : FileTree
  printed : Text
  result : Except RunError Report

open CommandLine (Settings)

/-- The line that opens a conversion. -/
def convertingLine : Text := "🔄 Converting files...\n".toList

/-- The line that opens the requests to a service. -/
def translatingLine (texts : Nat) : Text :=
  "🌍 Translating ".toList ++ (toString texts).toList ++ " texts...\n".toList

/-- The line that closes a run. -/
def writtenLine (destination : Path) : Text :=
  "✅ i18n mina project written to ".toList ++ destination.text ++ "\n".toList

/-- Converts a project whose layout has been looked at, and publishes its dictionary. -/
def Project.run (p : Project) (s : Settings) (files : FileTree) (queue : Queue) : RunResult :=
  match Conversion.carryOut p s.style (s.start files queue) with
  | (c, some e) => ⟨c.files, convertingLine, .error e⟩
  | (c, none) =>
    let printed := convertingLine ++ translatingLine c.dictionary.size
    let dictionary := (c.queue.finish c.dictionary).2.2
    match dictionary.publish s.style.bindings p.destination c.files with
    | (files, some e) => ⟨files, printed, .error e⟩
    | (files, none) => ⟨files, printed ++ writtenLine p.destination, .ok c.report⟩

/-- Runs with given settings in a directory. -/
def run (directory : Path) (files : FileTree) (s : Settings) (provider : Provider) : RunResult :=
  match Project.ofSettings directory files s with
  | .error e => ⟨files, [], .error (.layout e)⟩
  | .ok p =>
    match s.queue directory files provider with
    | .error e => ⟨files, [], .error e⟩
    | .ok queue => p.run s files queue

/-- What the command leaves: its exit status, what it printed, and the files. -/
structure Outcome where
  status : Nat
  stdout : Text := []
  stderr : Text := []
  files : FileTree

/-- A line that reports an error. -/
def errorLine (message : Text) : Text := "❌ ".toList ++ message ++ "\n".toList

/-- How the command ends when the command line gives no settings. -/
def Outcome.ofRefusal (files : FileTree) (refusal : CommandLine.Refusal) : Outcome :=
  match refusal with
  | .help | .version => { status := 0, stdout := refusal.message, files := files }
  | .usage _ => { status := 2, stderr := refusal.message, files := files }
  | .locale _ | .repeatedLocale _ | .noConcurrency =>
    { status := 1, stderr := errorLine refusal.message, files := files }

/-- How the command ends after a run. -/
def Outcome.ofRun (r : RunResult) : Outcome :=
  match r.result with
  | .error .tooManyPermits =>
    { status := 101, stdout := r.printed, stderr := RunError.tooManyPermits.message ++ ['\n'],
      files := r.files }
  | .error e => { status := 1, stdout := r.printed, stderr := errorLine e.message, files := r.files }
  | .ok report =>
    if report.failed.isEmpty then { status := 0, stdout := r.printed, files := r.files }
    else
      { status := 1, stdout := r.printed, files := r.files,
        stderr := errorLine ((toString report.failed.length).toList ++
            " script(s) could not be parsed:".toList) ++
          (report.failed.map fun path => "  ".toList ++ path.text ++ ['\n']).flatten }

/-- The command: reads the arguments, sets the provider up, and runs. -/
def command (directory : Path) (files : FileTree) (key : Option Text) (transport : Transport)
    (arguments : List Text) : Outcome :=
  match Settings.ofArguments arguments with
  | .error refusal => .ofRefusal files refusal
  | .ok s =>
    match s.provider key transport with
    | .error f =>
      { status := 1, files := files,
        stderr := errorLine ("Failed to initialize translator: ".toList ++ f.message) }
    | .ok provider => .ofRun (run directory files s provider)

end Phrasebook
