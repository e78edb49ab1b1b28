import Phrasebook.Text.Basic

/-!
Bindings: the names that generated code uses for the look-up module, and the pieces of code made from
them. Scripts and templates get calls of the look-up function, scripts also a header that defines it,
and templates a reference to the module file.
-/

namespace Phrasebook

/-- The names that generated code refers to. -/
structure Bindings where
  /-- The object that holds the look-up function. -/
  receiver : Text := "i18n".toList
  /-- The look-up function. -/
  translate : Text := "t".toList
  /-- The function that gives the current locale. -/
  localeGetter : Text := "getLocale".toList
  /-- The function that registers a page. -/
  page : Text := "Page".toList
  /-- The function that registers a page which knows its locale. -/
  localizedPage : Text := "I18nPage".toList
  /-- The module that scripts import. -/
  scriptModule : Text := "@miniprogram-i18n/core".toList
  /-- The name of the module file that templates refer to. -/
  moduleFile : Text := "mina-i18n.wxs".toList
  /-- The key of the locale in the data of a page. -/
  localeKey : Text := "$language".toList
  deriving DecidableEq, Repr

namespace Bindings

/-- The first line of the generated header. -/
def headerRule : Text := "/*------------------------------------------------------*/".toList

/-- The line that marks a script as having a header. -/
def headerBegin : Text := "/*------- auto generated code by mina-i18n begin -------*/".toList

/-- The line that closes the header. -/
def headerEnd : Text := "/*-------- auto generated code by mina-i18n end --------*/".toList

/-- A call of the look-up function. -/
def call (b : Bindings) (argument : Text) : Text :=
  b.receiver ++ '.' :: b.translate ++ '(' :: argument ++ [')']

/-- A call of the look-up function in a template's text. -/
def interpolation (b : Bindings) (text : Text) : Text :=
  "\x7b\x7b ".toList ++ b.call ('\'' :: text ++ ['\'']) ++ " \x7d\x7d".toList

/-- The call that gives the current locale. -/
def currentLocaleCall (b : Bindings) : Text := b.receiver ++ '.' :: b.localeGetter ++ "()".toList

/-- The header that a script gets. -/
def header (b : Bindings) : Text :=
  let line (t : Text) : Text := t ++ ['\n']
  line headerRule ++ line headerBegin ++
    line ("import \x7b ".toList ++ b.localizedPage ++ " \x7d from '".toList ++ b.scriptModule ++
      "'".toList) ++
    line ("import \x7b getI18nInstance \x7d from '".toList ++ b.scriptModule ++ "'".toList) ++
    line ("const ".toList ++ b.receiver ++ " = getI18nInstance()".toList) ++
    line headerEnd ++ line headerRule

/-- A script with its header; one that has a header already stays as it is. -/
def withHeader (b : Bindings) (source : Text) : Text :=
  if Text.contains source headerBegin then source else b.header ++ source

/-- The element that refers to the module file. -/
def moduleReference (b : Bindings) (src : Text) : Text :=
  "<wxs src=\"".toList ++ src ++ "\" module=\"".toList ++ b.receiver ++ "\"></wxs>".toList

/-- The path to the module file from a template `depth` directories below the root. -/
def modulePath (b : Bindings) (depth : Nat) : Text :=
  if depth = 0 then "./".toList ++ b.moduleFile
  else (List.replicate depth "../".toList).flatten ++ b.moduleFile

/-- The text that a page's data gets in front of it, so that the locale is merged into it. -/
def mergeOpening (b : Bindings) : Text :=
  "Object.assign(\x7b ".toList ++ b.localeKey ++ ": ".toList ++ b.currentLocaleCall ++ " \x7d, ".toList

end Bindings

end Phrasebook
