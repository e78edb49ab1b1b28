import Phrasebook.Dictionary.Table

/-!
The dictionary of a run: one table per locale, and the texts that still wait for a value in a derived
locale. Recording a text writes the entry of the base locale at once and queues one request per
derived locale.
-/

namespace Phrasebook

/-- How a derived locale gets its values. -/
inductive LocaleKind where
  /-- Another language: values come from a service. -/
  | translated
  /-- The same language in another script: values come from a character table. -/
  | scriptVariant
  deriving DecidableEq, Repr

/-- A locale that is filled besides the base locale. -/
structure Target where
  code : Text
  kind : LocaleKind
  deriving DecidableEq, Repr

/-- A text that waits for its value in a derived locale. -/
structure Pending where
  text : Text
  target : Target
  /-- Attempts that have been made so far. -/
  attempts : Nat := 0
  deriving DecidableEq, Repr

/-- For each locale the values of texts. -/
abbrev LocaleTables := Table (Table Text)

namespace LocaleTables

/-- Sets the value of a text in a locale. -/
def setValue (tables : LocaleTables) (locale text value : Text) : LocaleTables :=
  tables.insert locale (((tables.get? locale).getD Table.empty).insert text value)

end LocaleTables

/-- The dictionary of a run. -/
structure Dictionary where
  base : Text
  targets : List Target
  tables : LocaleTables
  pending : List Pending

namespace Dictionary

/-- A dictionary without texts; every configured locale has its table from the start. -/
def new (base : Text) (targets : List Target) : Dictionary where
  base := base
  targets := targets
  tables := targets.foldl (fun tables target => tables.insert target.code Table.empty)
    (Table.empty.insert base Table.empty)
  pending := []

/-- Maps a text to itself in the base locale. -/
def enterBase (d : Dictionary) (text : Text) : Dictionary :=
  { d with tables := LocaleTables.setValue d.tables d.base text text }

/-- Records a text: its base entry now, and a request for every derived locale. -/
def record (d : Dictionary) (text : Text) : Dictionary :=
  let d := d.enterBase text
  { d with pending := d.pending ++ d.targets.map fun target => { text := text, target := target } }

/-- Records texts in order. -/
def recordAll (d : Dictionary) (texts : List Text) : Dictionary := texts.foldl record d

/-- Sets the value of a text in a locale. -/
def enterValue (d : Dictionary) (text locale value : Text) : Dictionary :=
  { d with tables := LocaleTables.setValue d.tables locale text value }

/-- Hands out the waiting requests and leaves none. -/
def drain (d : Dictionary) : List Pending × Dictionary :=
  (d.pending, { d with pending := [] })

/-- The table of a locale. -/
def table? (d : Dictionary) (locale : Text) : Option (Table Text) := d.tables.get? locale

/-- The value of a text in a locale. -/
def get? (d : Dictionary) (locale text : Text) : Option Text :=
  (d.table? locale).bind (·.get? text)

/-- Whether a text has been recorded. -/
def contains (d : Dictionary) (text : Text) : Bool := (d.get? d.base text).isSome

/-- The number of recorded texts. -/
def size (d : Dictionary) : Nat := ((d.table? d.base).map Table.size).getD 0

/-- The locale in which texts are looked up when a call names none: the first translated one, else
the first derived one, else the base. -/
def defaultLocale (d : Dictionary) : Text :=
  match d.targets.find? (·.kind == .translated) with
  | some target => target.code
  | none => (d.targets.head?.map Target.code).getD d.base

/-- The configured locales, the base first. -/
def locales (d : Dictionary) : List Text := d.base :: d.targets.map Target.code

end Dictionary

end Phrasebook
