import Phrasebook.CommandLine.Arguments
import Phrasebook.Proofs.ExtensionTags

/-!
Which configured codes denote the same locale. Accepted settings name no code twice, but the comparison is
of codes as they are written, while one locale has many codes. Two valid codes have one canonical form
exactly if their tags say the same (`canonicalForm_eq_iff`): up to the case of letters the language, the
script and the region are the same, the variants are the same in some order, and every extension has tags
that say the same. So the configured locales are really different exactly if no two codes are such
spellings of one another (`canonicalForms_nodup_iff`).
-/

namespace Phrasebook

namespace Locale

/-- The tags of a code up to the first extension. -/
def languageTags (code : Text) : List Text := (tags code).takeWhile (·.byteSize ≠ 1)

/-- The tags of two codes say the same: those up to the first extension do, and those of every
extension. -/
structure SameTags (a b : Text) : Prop where
  language : SameLanguage (languageTags a) (languageTags b)
  extensions : ∀ letter, Text.isAsciiLetter letter = true →
    SameExtension letter (extensionTags letter (tags a)) (extensionTags letter (tags b))

/-- The canonical form of the locale of a code. -/
def canonicalForm (code : Text) : Option Text := (ofCode code).toOption.map canonical

/-- The tags up to the first extension are those of the language, the others those of the extensions. -/
theorem tags_of_ofCode {code : Text} {l : Locale} (h : ofCode code = .ok l) :
    (∃ vs, vs.Perm l.id.variants ∧
      languageTags code = ({ l.id with variants := vs } : LanguageId).subtags.map Text.lowerAscii) ∧
    ∀ letter, Text.isAsciiLetter letter = true →
      l.extensions.Matches letter (extensionTags letter (tags code)) := by
  obtain ⟨hid, vs, rest, hvs, hrest, hextensions, htags⟩ := tags_eq_of_ofCode h
  have hlanguage := fun t ht => (of_mem_languageTags hid hvs t ht).2
  refine ⟨⟨vs, hvs, ?_⟩, fun letter hletter => ?_⟩
  · unfold languageTags
    rw [htags]
    refine takeWhile_append_stop (by simpa using hlanguage) fun t ht => ?_
    simpa using byteSize_head?_map_lowerAscii hrest t ht
  · have hnot : ∀ c, Text.isAsciiLetter c = true →
        [c] ∉ ({ l.id with variants := vs } : LanguageId).subtags.map Text.lowerAscii :=
      fun c hc hmem => hlanguage _ hmem (byteSize_letter hc)
    rw [htags, extensionTags_append (hnot letter hletter) (hnot 'x' (by decide))]
    rw [← readExtensions_map_lowerAscii] at hextensions
    exact Extensions.matches_of_readExtensions (inLowerCase_map rest) (by simp) hextensions hletter

/-- Valid codes have one canonical form exactly if their tags say the same. -/
theorem canonicalForm_eq_iff {a b : Text} {l m : Locale} (ha : ofCode a = .ok l)
    (hb : ofCode b = .ok m) : canonicalForm a = canonicalForm b ↔ SameTags a b := by
  obtain ⟨⟨vs, hvs, htagsa⟩, hmatchesa⟩ := tags_of_ofCode ha
  obtain ⟨⟨ws, hws, htagsb⟩, hmatchesb⟩ := tags_of_ofCode hb
  have hl := Canonical.of_ofSubtags (parse_of_ofCode ha)
  have hm := Canonical.of_ofSubtags (parse_of_ofCode hb)
  have hforms : canonicalForm a = canonicalForm b ↔ l = m := by
    unfold canonicalForm
    rw [ha, hb]
    exact ⟨fun h => eq_of_canonical_eq hl hm (Option.some.inj h), fun h => by rw [h]⟩
  have hlanguage := sameLanguage_iff hl.id hm.id hvs hws
  have hextensions := Extensions.eq_iff_sameExtension hl.extensions hm.extensions hmatchesa hmatchesb
  rw [← htagsa, ← htagsb] at hlanguage
  rw [hforms]
  constructor
  · rintro rfl
    exact ⟨hlanguage.2 rfl, hextensions.1 rfl⟩
  · rintro ⟨hid, hsame⟩
    exact congrArg₂ Locale.mk (hlanguage.1 hid) (hextensions.2 hsame)

example : canonicalForm "sl-rozaj-biske-u-nu-latn-ca-buddhist".toList =
    canonicalForm "SL_biske_rozaj-u-ca-buddhist-nu-latn-true".toList := by
  decide +kernel

end Locale

namespace CommandLine

open Phrasebook.Locale

theorem Settings.check_of_ofArguments {arguments : List Text} {s : Settings}
    (h : Settings.ofArguments arguments = .ok s) : s.check = .ok s := by
  obtain ⟨r, -, h⟩ := Markup.bind_eq_ok_iff.1 h
  obtain ⟨r', -, h⟩ := Markup.bind_eq_ok_iff.1 h
  obtain ⟨s', -, hcheck⟩ := Markup.bind_eq_ok_iff.1 h
  obtain ⟨rfl, -, -⟩ := Settings.check_eq_ok hcheck
  exact hcheck

/-- The locales of accepted settings are valid and given once each, and their canonical forms are pairwise
distinct exactly if no two of the codes have tags that say the same. -/
theorem canonicalForms_nodup_iff {arguments : List Text} {s : Settings}
    (h : Settings.ofArguments arguments = .ok s) :
    s.locales.Nodup ∧ (∀ code ∈ s.locales, (canonicalForm code).isSome = true) ∧
      ((s.locales.map canonicalForm).Nodup ↔ s.locales.Pairwise fun a b => ¬ SameTags a b) := by
  have hcheck := Settings.check_of_ofArguments h
  have hvalid := Settings.valid_of_check hcheck
  refine ⟨Settings.nodup_of_check hcheck, ?_, ?_⟩
  · intro code hcode
    obtain ⟨l, hl⟩ := hvalid code hcode
    unfold canonicalForm
    rw [hl]
    rfl
  · rw [List.Nodup, List.pairwise_map]
    refine List.Pairwise.iff_of_mem fun {a b} ha hb => not_congr ?_
    obtain ⟨l, hl⟩ := hvalid a ha
    obtain ⟨m, hm⟩ := hvalid b hb
    exact canonicalForm_eq_iff hl hm

/-- Settings with three locales and everything else by default. -/
def threeLocales : Settings where
  source := ⟨"app".toList⟩
  destination := ⟨"out".toList⟩
  includePaths := []
  service := .bing
  baseLocale := "zh-CN".toList
  targetLocales := ["en-US".toList, "zh_tw".toList]
  variantLocales := []
  variantTable := none
  concurrency := 8
  injectLocaleData := false
  verbose := false

theorem threeLocales_differ :
    Settings.ofArguments ["app".toList, "out".toList, "-t".toList, "en-US,zh_tw".toList] =
        .ok threeLocales ∧
      threeLocales.locales.Pairwise fun a b => ¬ SameTags a b := by
  have haccepted : Settings.ofArguments
      ["app".toList, "out".toList, "-t".toList, "en-US,zh_tw".toList] = .ok threeLocales := by
    decide
  exact ⟨haccepted, (canonicalForms_nodup_iff haccepted).2.2.1 (by decide)⟩

/-- The base locale may be given again in lower case. -/
theorem base_locale_in_lower_case :
    ¬ ∀ arguments s, Settings.ofArguments arguments = .ok s →
      (s.locales.map canonicalForm).Nodup := by
  intro h
  have haccepted : Settings.ofArguments
      ["app".toList, "out".toList, "-t".toList, "zh-cn".toList] =
        .ok { threeLocales with targetLocales := ["zh-cn".toList] } := by
    decide
  have hnodup := h _ _ haccepted
  revert hnodup
  decide

end CommandLine

end Phrasebook
