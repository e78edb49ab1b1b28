import Phrasebook.Text.Quoted
import Phrasebook.Service.Failure

/-!
Providers of values in other languages. A provider answers a call with a value or a failure; answers
may differ from call to call, so a provider is told how many calls came before.

The web services check both locales and the text before anything is sent, and then hand a request to
a given transport. A rehearsal answers by a fixed scheme and needs no transport.
-/

namespace Phrasebook

/-- A source of values in other languages. -/
structure Provider where
  name : Text
  /-- The answer to a call: the number of calls before it, the text, the source and the target. -/
  answer : Nat → Text → Text → Text → Except Failure Text

/-- A request to a web service. -/
structure Request where
  endpoint : Text
  source : Text
  target : Text
  text : Text
  deriving DecidableEq, Repr

/-- How requests are sent. -/
abbrev Transport := Request → Except Failure Text

/-- A transport that reaches nobody. -/
def Transport.offline : Transport := fun _ => .error .network

/-- What a service does with a text: answer it at once or send a request. -/
inductive Step where
  | answer (value : Text)
  | send (request : Request)
  deriving DecidableEq, Repr

/-- Takes a step with the help of a transport. -/
def Step.run (transport : Transport) : Step → Except Failure Text
  | .answer value => .ok value
  | .send request => transport request

/-! ## Bing -/

namespace Bing

/-- The name under which the service is reported. -/
def name : Text := "Bing Translator".toList

/-- Where requests go. -/
def endpoint : Text := "https://cn.bing.com/ttranslatev3".toList

/-- The service's code of a locale: Chinese by its script, every other language by itself. -/
def serviceCode (code : Text) : Except Failure Text := do
  let l ← Locale.ofCode code
  match l.chineseScript? with
  | some script => .ok ("zh-".toList ++ script.subtag)
  | none => .ok l.id.language

/-- Both locales are checked first; an empty text is its own value. -/
def step (endpoint : Text) (text source target : Text) : Except Failure Step := do
  let source ← serviceCode source
  let target ← serviceCode target
  if text.isEmpty then .ok (.answer []) else .ok (.send ⟨endpoint, source, target, text⟩)

/-- The service as a provider. -/
def provider (endpoint : Text) (transport : Transport) : Provider where
  name := name
  answer _ text source target := (step endpoint text source target).bind (Step.run transport)

end Bing

/-! ## Google -/

namespace Google

/-- The name under which the service is reported. -/
def name : Text := "Google Translate".toList

/-- Where requests go. -/
def endpoint : Text := "https://translation.googleapis.com/language/translate/v2".toList

/-- The environment variable that holds the key. -/
def keyVariable : Text := "GOOGLE_TRANSLATE_API_KEY".toList

/-- The most bytes that a text may have. -/
def textLimit : Nat := 30000

/-- The set-up of the service; its key is not blank. -/
structure Setup where
  key : Text
  endpoint : Text
  deriving DecidableEq, Repr

/-- Sets the service up; a blank key is refused. -/
def configure (key endpoint : Text) : Except Failure Setup :=
  if (Text.trim key).isEmpty then .error (.configuration (keyVariable ++ " is empty".toList))
  else .ok ⟨key, endpoint⟩

/-- Sets the service up from the value of the environment variable. -/
def ofEnvironment (key : Option Text) : Except Failure Setup :=
  match key with
  | some key => configure key endpoint
  | none => .error (.configuration ("set ".toList ++ keyVariable ++ " to use the google provider".toList))

/-- The service's code of a locale: Chinese by the region that stands for its script, every other
language by itself. -/
def serviceCode (code : Text) : Except Failure Text := do
  let l ← Locale.ofCode code
  match l.chineseScript? with
  | some .traditional => .ok "zh-TW".toList
  | some .simplified => .ok "zh-CN".toList
  | none => .ok l.id.language

/-- Both locales are checked first; an empty text is its own value, and a long one is
refused. -/
def step (config : Setup) (text source target : Text) : Except Failure Step := do
  let source ← serviceCode source
  let target ← serviceCode target
  if text.isEmpty then .ok (.answer [])
  else if textLimit < text.byteSize then
    .error (.refusedText ((toString text.byteSize).toList ++ " bytes is over the ".toList ++
      (toString textLimit).toList ++ " byte limit".toList))
  else .ok (.send ⟨config.endpoint, source, target, text⟩)

/-- The service as a provider. -/
def provider (config : Setup) (transport : Transport) : Provider where
  name := name
  answer _ text source target := (step config text source target).bind (Step.run transport)

/-- The set-up in a diagnostic, which does not show the key. -/
def Setup.describe (config : Setup) : Text :=
  "GoogleTranslateProvider \x7b api_key: \"<redacted>\", endpoint: ".toList ++
    Text.quoted config.endpoint ++ " \x7d".toList

end Google

/-! ## Rehearsals -/

/-- How a rehearsal answers. -/
inductive Rehearsal where
  /-- The text and the target, joined by an underscore. -/
  | suffix
  /-- Fixed answers by text and target; everything else as `suffix`. -/
  | fixed (answers : List ((Text × Text) × Text))
  /-- A failure with this message. -/
  | failing (message : Text)
  /-- Failures at first, then as `suffix`. -/
  | failFirst (failures : Nat)
  /-- The text itself. -/
  | echo
  deriving DecidableEq, Repr

namespace Rehearsal

/-- The name under which rehearsals are reported. -/
def name : Text := "Mock Translator".toList

/-- The text with the target as a suffix. -/
def suffixed (text target : Text) : Text := text ++ '_' :: target

/-- The answer to a call. Of two fixed answers for one text and target the later one counts. -/
def answer (r : Rehearsal) (calls : Nat) (text target : Text) : Except Failure Text :=
  match r with
  | .suffix => .ok (suffixed text target)
  | .fixed answers =>
    match answers.reverse.find? fun a => a.1 == (text, target) with
    | some a => .ok a.2
    | none => .ok (suffixed text target)
  | .failing message => .error (.refusedText message)
  | .failFirst failures =>
    if calls < failures then
      .error (.refusedText ("mock failure ".toList ++ (toString (calls + 1)).toList ++
        " of ".toList ++ (toString failures).toList))
    else .ok (suffixed text target)
  | .echo => .ok text

/-- A rehearsal as a provider. -/
def provider (r : Rehearsal) : Provider where
  name := name
  answer calls text _ target := r.answer calls text target

end Rehearsal

end Phrasebook
