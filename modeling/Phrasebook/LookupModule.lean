import Phrasebook.Bindings
import Phrasebook.Json.Basic

/-!
The look-up module that templates refer to: the tables of all locales, the default locale, and two
functions.
-/

namespace Phrasebook

/-- The part of the module after the tables. -/
def Bindings.moduleTail (b : Bindings) (defaultLocale : Text) : Text :=
  Text.joinWith ['\n'] [
    ";".toList,
    "var defaultLocale = '".toList ++ defaultLocale ++ "';".toList,
    [],
    "function ".toList ++ b.translate ++ "(text, locale) \x7b".toList,
    "    var table = dictionary[locale || defaultLocale];".toList,
    "    if (table && table[text]) \x7b".toList,
    "        return table[text];".toList,
    "    \x7d".toList,
    "    return text;".toList,
    "\x7d".toList,
    [],
    "function ".toList ++ b.localeGetter ++ "() \x7b".toList,
    "    return defaultLocale;".toList,
    "\x7d".toList,
    [],
    "module.exports = \x7b".toList,
    "    ".toList ++ b.translate ++ ": ".toList ++ b.translate ++ ",".toList,
    "    ".toList ++ b.localeGetter ++ ": ".toList ++ b.localeGetter,
    "\x7d;".toList,
    []]

/-- The module for the given tables and default locale. -/
def Bindings.lookupModule (b : Bindings) (tables : LocaleTables) (defaultLocale : Text) : Text :=
  "var dictionary = ".toList ++ LocaleTables.prettyJson tables ++ b.moduleTail defaultLocale

end Phrasebook
