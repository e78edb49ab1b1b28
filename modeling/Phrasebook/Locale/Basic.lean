import Phrasebook.Text.Basic

/-!
Locales by their subtags: a language, and possibly a script, a region, variants and extensions. A
locale holds its subtags in their canonical case and order, so two codes denote the same locale
exactly when their canonical forms are equal.
-/

namespace Phrasebook

/-- The subtags that identify a language. -/
structure LanguageId where
  language : Text
  script : Option Text
  region : Option Text
  /-- In increasing order, without repetition. -/
  variants : List Text
  deriving DecidableEq, Repr

/-- A key of an extension with its values. -/
structure Keyword where
  key : Text
  values : List Text
  deriving DecidableEq, Repr

/-- What may follow the subtags of a language. -/
structure Extensions where
  /-- `u`: attributes and keywords. -/
  attributes : List Text := []
  keywords : List Keyword := []
  /-- `t`: the language and the fields of a transformation. -/
  transformLanguage : Option LanguageId := none
  transformFields : List Keyword := []
  /-- `x`: private subtags. -/
  privateTags : List Text := []
  /-- Other letters with their subtags, in increasing order. -/
  others : List (Char × List Text) := []
  deriving DecidableEq, Repr

/-- A locale. -/
structure Locale where
  id : LanguageId
  extensions : Extensions
  deriving DecidableEq, Repr

namespace LanguageId

/-- The subtags of a language in order. -/
def subtags (id : LanguageId) : List Text :=
  id.language :: id.script.toList ++ id.region.toList ++ id.variants

end LanguageId

namespace Extensions

/-- The subtags of a transformation; a field without a value has the value `true`. -/
def transformSubtags (e : Extensions) : List Text :=
  let language := (e.transformLanguage.map fun id => id.subtags.map Text.lowerAscii).getD []
  let fields := e.transformFields.flatMap fun f =>
    f.key :: if f.values.isEmpty then ["true".toList] else f.values
  if language.isEmpty && fields.isEmpty then [] else ['t'] :: language ++ fields

/-- The subtags of the attributes and keywords. -/
def unicodeSubtags (e : Extensions) : List Text :=
  if e.attributes.isEmpty && e.keywords.isEmpty then []
  else ['u'] :: e.attributes ++ e.keywords.flatMap fun k => k.key :: k.values

/-- The subtags of the other extensions that satisfy `p`. -/
def otherSubtags (e : Extensions) (p : Char → Bool) : List Text :=
  (e.others.filter fun o => p o.1).flatMap fun o => [o.1] :: o.2

/-- All subtags in order of their letters, private ones last. -/
def subtags (e : Extensions) : List Text :=
  e.otherSubtags (·.toNat < 't'.toNat) ++ e.transformSubtags ++ e.unicodeSubtags ++
    e.otherSubtags ('t'.toNat < ·.toNat) ++
    if e.privateTags.isEmpty then [] else ['x'] :: e.privateTags

end Extensions

namespace Locale

/-- The canonical form of a locale. -/
def canonical (l : Locale) : Text :=
  Text.joinWith ['-'] (l.id.subtags ++ l.extensions.subtags)

/-- The two scripts of Chinese. -/
inductive ChineseScript where
  | simplified
  | traditional
  deriving DecidableEq, Repr

/-- The regions that write traditional characters. -/
def traditionalRegions : List Text := ["TW", "HK", "MO"].map String.toList

/-- The script in which a Chinese locale is written: traditional if its script or its region says
so. -/
def chineseScript? (l : Locale) : Option ChineseScript :=
  if l.id.language ≠ "zh".toList then none
  else if l.id.script = some "Hant".toList ∨ (l.id.region.any traditionalRegions.contains) = true then
    some .traditional
  else some .simplified

/-- The subtag of a script. -/
def ChineseScript.subtag : ChineseScript → Text
  | .simplified => "Hans".toList
  | .traditional => "Hant".toList

end Locale

end Phrasebook
