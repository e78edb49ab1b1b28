import Phrasebook.Text.Basic

/-!
The result of localizing a text: the new text, and the texts found on the way for the dictionary.
-/

namespace Phrasebook

/-- A localized text with the texts found in it, in the order of the source. -/
structure Localized where
  output : Text
  found : List Text
  deriving DecidableEq, Repr

namespace Localized

/-- A text that is taken over as it is. -/
def plain (t : Text) : Localized := ⟨t, []⟩

/-- Two localized texts one after the other. -/
def append (a b : Localized) : Localized := ⟨a.output ++ b.output, a.found ++ b.found⟩

instance : Append Localized := ⟨append⟩

/-- A row of localized texts. -/
def concat : List Localized → Localized
  | [] => ⟨[], []⟩
  | a :: rest => a ++ concat rest

@[simp] theorem output_append (a b : Localized) : (a ++ b).output = a.output ++ b.output := rfl

@[simp] theorem found_append (a b : Localized) : (a ++ b).found = a.found ++ b.found := rfl

end Localized

end Phrasebook
