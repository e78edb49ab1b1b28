import Phrasebook.Text.Basic

/-!
The parameters of the command line: two positions and a set of options, each with its spellings, and
the help text that lists them.
-/

namespace Phrasebook.CommandLine

/-- The name of the program. -/
def programName : String := "mina-i18n"

/-- The version of the program. -/
def programVersion : String := "0.1.0"

/-- What an argument can set or ask for. -/
inductive Parameter where
  | source
  | destination
  | includePath
  | provider
  | baseLocale
  | targetLocale
  | variantLocale
  | variantTable
  | concurrency
  | injectLocaleData
  | verbose
  | help
  | version
  deriving DecidableEq, Repr

namespace Parameter

/-- The positions, in order. -/
def positions : List Parameter := [.source, .destination]

/-- The options, in the order in which the help lists them. -/
def options : List Parameter :=
  [.includePath, .provider, .baseLocale, .targetLocale, .variantLocale, .variantTable, .concurrency,
   .injectLocaleData, .verbose, .help, .version]

/-- The long name. -/
def name : Parameter → String
  | .source => "source"
  | .destination => "destination"
  | .includePath => "include-path"
  | .provider => "provider"
  | .baseLocale => "base-locale"
  | .targetLocale => "target-locale"
  | .variantLocale => "variant-locale"
  | .variantTable => "variant-table"
  | .concurrency => "concurrency"
  | .injectLocaleData => "inject-locale-data"
  | .verbose => "verbose"
  | .help => "help"
  | .version => "version"

/-- The letter, for options that have one. -/
def letter? : Parameter → Option Char
  | .provider => some 'p'
  | .targetLocale => some 't'
  | .concurrency => some 'c'
  | .verbose => some 'v'
  | .help => some 'h'
  | .version => some 'V'
  | _ => none

/-- Whether a value belongs to a parameter. -/
def takesValue : Parameter → Bool
  | .injectLocaleData | .verbose | .help | .version => false
  | _ => true

/-- Whether a parameter collects values: it may be repeated, and commas separate the values. -/
def collects : Parameter → Bool
  | .includePath | .targetLocale | .variantLocale => true
  | _ => false

/-- What the help says about a parameter. -/
def description : Parameter → String
  | .source => "Path of the original mini-program project"
  | .destination => "Path for the converted project (must be empty or not exist)"
  | .includePath => "Extra top-level paths to convert, comma separated"
  | .provider => "Translation provider [default: bing] [possible values: bing, google, mock]"
  | .baseLocale => "Locale the project is written in [default: zh-CN]"
  | .targetLocale => "Locales to machine translate into, comma separated [default: en-US]"
  | .variantLocale => "Locales produced by script conversion, comma separated"
  | .variantTable => "JSON character table used for script conversion"
  | .concurrency => "Maximum number of translation requests in flight [default: 8]"
  | .injectLocaleData => "Merge the current locale into each page's data"
  | .verbose => "Log every rewritten text"
  | .help => "Print help"
  | .version => "Print version"

/-- The option with a long name. -/
def ofName? (name : Text) : Option Parameter := options.find? (·.name.toList == name)

/-- The option with a letter. -/
def ofLetter? (letter : Char) : Option Parameter := options.find? (·.letter? == some letter)

/-- The spellings of an option, as the help shows them. -/
def spelling (p : Parameter) : String :=
  (match p.letter? with
    | some c => "-" ++ c.toString ++ ", "
    | none => "    ") ++
  "--" ++ p.name ++ if p.takesValue then " <" ++ p.name ++ ">" else ""

end Parameter

/-- The lines of the help. -/
def helpLines : List String :=
  ["Converts a mini-program project into an internationalized copy", "",
   "Usage: " ++ programName ++ " [OPTIONS] <source> <destination>", "",
   "Arguments:",
   "  <source>       " ++ Parameter.source.description,
   "  <destination>  " ++ Parameter.destination.description, "",
   "Options:"] ++
  Parameter.options.flatMap fun p => ["  " ++ p.spelling, "          " ++ p.description]

/-- The help text. -/
def helpText : Text := (helpLines.map fun l => l.toList ++ ['\n']).flatten

/-- The version text. -/
def versionText : Text := (programName ++ " " ++ programVersion ++ "\n").toList

end Phrasebook.CommandLine
