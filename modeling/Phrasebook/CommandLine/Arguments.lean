import Phrasebook.CommandLine.Settings

/-!
Reading a command line. Arguments are taken from left to right. A value that stands on its own is
checked only when the next option or position is taken, or at the end; so an unknown argument is
reported before a bad value that stands in front of it.
-/

namespace Phrasebook.CommandLine

/-- The forms of an argument. -/
inductive Argument where
  /-- Two dashes: only positions follow. -/
  | separator
  /-- A long option, perhaps with a value behind an equals sign. -/
  | long (name : Text) (value : Option Text)
  /-- A dash and a row of letters. -/
  | letters (row : Text)
  /-- A value or a position; a single dash is one too. -/
  | plain (text : Text)
  deriving DecidableEq, Repr

/-- The form of an argument. -/
def Argument.ofText (t : Text) : Argument :=
  match t with
  | ['-', '-'] => .separator
  | '-' :: '-' :: rest =>
    match Text.splitAt? ['='] rest with
    | some (name, value) => .long name (some value)
    | none => .long rest none
  | '-' :: c :: rest => .letters (c :: rest)
  | _ => .plain t

/-- How far a command line has been read. -/
structure Reading where
  draft : Draft := {}
  /-- A parameter that waits for its value, or whose value has not been checked. -/
  pending : Option (Parameter × Option Text) := none
  /-- The positions that are still open. -/
  positions : List Parameter := Parameter.positions
  /-- Whether only positions follow. -/
  positionsOnly : Bool := false
  deriving DecidableEq, Repr

namespace Reading

/-- Takes a parameter with its value. -/
def take (r : Reading) (p : Parameter) (value : Option Text) : Except Refusal Reading :=
  (r.draft.accept p value).map fun draft => { r with draft := draft }

/-- Takes the parameter that is pending. -/
def settle (r : Reading) : Except Refusal Reading :=
  match r.pending with
  | none => .ok r
  | some (p, value) => { r with pending := none }.take p value

/-- Reads an option with the value attached to it. -/
def option (r : Reading) (p : Parameter) (attached : Option Text) : Except Refusal Reading :=
  match p.takesValue, attached with
  | false, some _ => .error (.usage (.unexpectedValue p))
  | true, none => r.settle.map fun r => { r with pending := some (p, none) }
  | _, _ => r.settle.bind fun r => r.take p attached

/-- The value behind the letter of an option; an equals sign before it does not count. -/
def attachedValue : Text → Option Text
  | [] => none
  | '=' :: value => some value
  | value => some value

/-- Reads a row of letters, up to the first one that takes a value. -/
def letters (r : Reading) : Text → Except Refusal Reading
  | [] => .ok r
  | c :: rest =>
    match Parameter.ofLetter? c with
    | none => .error (.usage (.unknownArgument ['-', c]))
    | some p =>
      if p.takesValue then r.option p (attachedValue rest)
      else (r.option p none).bind fun r => r.letters rest

/-- Reads a position. -/
def position (r : Reading) (value : Text) : Except Refusal Reading :=
  match r.positions with
  | [] => .error (.usage (.unknownArgument value))
  | p :: rest => r.settle.map fun r => { r with pending := some (p, some value), positions := rest }

/-- Reads one argument. -/
def step (r : Reading) (argument : Text) : Except Refusal Reading :=
  if r.positionsOnly then r.position argument
  else match Argument.ofText argument with
    | .separator => .ok { r with positionsOnly := true }
    | .long name value =>
      match Parameter.ofName? name with
      | none => .error (.usage (.unknownArgument argument))
      | some p => r.option p value
    | .letters row => r.letters row
    | .plain value =>
      match r.pending with
      | some (p, none) => .ok { r with pending := some (p, some value) }
      | _ => r.position value

end Reading

/-- Reads a command line, given without the name of the program. -/
def Settings.ofArguments (arguments : List Text) : Except Refusal Settings := do
  let r ← arguments.foldlM Reading.step ({} : Reading)
  let r ← r.settle
  let settings ← r.draft.complete
  settings.check

end Phrasebook.CommandLine
