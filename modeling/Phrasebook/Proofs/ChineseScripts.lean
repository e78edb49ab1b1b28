import Phrasebook.Proofs.LocaleTags
import Phrasebook.Service.Provider

/-!
Which script of Chinese a code stands for. Codes that name a script are

    zh, hans or hant, region, variants in any order   ++   extensions

and the script that is named is the one that counts, for the locale as for both services, unless a code
names simplified characters together with a region that writes traditional ones
(`named_script_counts_iff`). Then the region counts.
-/

namespace Phrasebook

namespace Locale

open Subtag

/-- The code of Chinese in a script that Google knows: the one of a region that writes it. -/
def ChineseScript.regionCode : ChineseScript → Text
  | .simplified => "zh-CN".toList
  | .traditional => "zh-TW".toList

/-- The regions that write traditional characters, as tags. -/
def traditionalTags : List Text := traditionalRegions.map Text.lowerAscii

theorem ChineseScript.subtag_injective {s t : ChineseScript} (h : s.subtag = t.subtag) : s = t := by
  cases s <;> cases t
  all_goals first | rfl | exact absurd h (by decide)

/-- A region that writes traditional characters outdoes the script. -/
theorem chineseScript?_of_script {l : Locale} {script : ChineseScript}
    (hlanguage : l.id.language = "zh".toList) (hscript : l.id.script = some script.subtag) :
    l.chineseScript? =
      some (if l.id.region.any traditionalRegions.contains = true then .traditional else script) := by
  have hnamed : l.id.script = some "Hant".toList ↔ script = .traditional := by
    rw [hscript, Option.some_inj]
    exact ⟨fun h => ChineseScript.subtag_injective h, fun h => h ▸ rfl⟩
  unfold chineseScript?
  rw [if_neg (not_not_intro hlanguage)]
  simp only [hnamed]
  by_cases hregion : l.id.region.any traditionalRegions.contains = true
  · simp [hregion]
  · cases script <;> simp [hregion]

theorem bing_serviceCode {code : Text} {l : Locale} {script : ChineseScript}
    (h : ofCode code = .ok l) (hscript : l.chineseScript? = some script) :
    Bing.serviceCode code = .ok ("zh-".toList ++ script.subtag) := by
  unfold Bing.serviceCode
  rw [h]
  simp only [bind, Except.bind, hscript]

theorem google_serviceCode {code : Text} {l : Locale} {script : ChineseScript}
    (h : ofCode code = .ok l) (hscript : l.chineseScript? = some script) :
    Google.serviceCode code = .ok script.regionCode := by
  unfold Google.serviceCode
  rw [h]
  simp only [bind, Except.bind, hscript]
  cases script <;> rfl

/-! ## The tag behind the script -/

theorem region?_of_mem_traditionalRegions : ∀ r ∈ traditionalRegions, region? r = some r := by
  decide

theorem length_of_mem_traditionalTags : ∀ t ∈ traditionalTags, t.length = 2 ∧ t.byteSize = 2 := by
  decide

theorem mem_traditionalTags_iff {r : Text} (hr : region? r = some r) :
    Text.lowerAscii r ∈ traditionalTags ↔ r ∈ traditionalRegions := by
  unfold traditionalTags
  rw [List.mem_map]
  constructor
  · rintro ⟨s, hs, h⟩
    have hsame := isSort_region?.eq_of_lowerAscii_eq hr (region?_of_mem_traditionalRegions s hs) h.symm
    exact hsame ▸ hs
  · exact fun h => ⟨r, h, rfl⟩

/-- The first tag behind the script is that of a region writing traditional characters exactly if there is
such a region: no variant has two characters, and extensions start with a single one. -/
theorem traditional_head_iff {id : LanguageId} (hid : id.Canonical) {vs rest : List Text}
    (hvs : vs.Perm id.variants) (hrest : ∀ t ∈ rest.head?, t.byteSize = 1) :
    (∃ t ∈ ((id.region.toList ++ vs).map Text.lowerAscii ++ rest).head?, t ∈ traditionalTags) ↔
      id.region.any traditionalRegions.contains = true := by
  cases hregion : id.region with
  | some r => simp [mem_traditionalTags_iff (hid.region r hregion)]
  | none =>
    simp only [Option.toList_none, List.nil_append, Option.any_none, Bool.false_eq_true, iff_false]
    rintro ⟨t, ht, htag⟩
    obtain ⟨hlength, hsize⟩ := length_of_mem_traditionalTags t htag
    cases vs with
    | nil =>
      have := hrest t (by simpa using ht)
      omega
    | cons v vs =>
      simp only [List.map_cons, List.cons_append, List.head?_cons, Option.mem_def,
        Option.some_inj] at ht
      subst ht
      have hv := length_of_variant? (hid.variants v (hvs.mem_iff.1 List.mem_cons_self))
      rw [Text.length_lowerAscii] at hlength
      omega

/-- A script that a Chinese code names is the script of the locale and of both services, exactly if it is
traditional or the tag behind it is not that of a region that writes traditional characters. -/
theorem named_script_counts_iff {code : Text} {l : Locale} {script : ChineseScript}
    (h : ofCode code = .ok l) (hlanguage : l.id.language = "zh".toList)
    (hscript : l.id.script = some script.subtag) :
    ∃ rest, tags code = "zh".toList :: Text.lowerAscii script.subtag :: rest ∧
      (l.chineseScript? = some script ∧
          Bing.serviceCode code = .ok ("zh-".toList ++ script.subtag) ∧
          Google.serviceCode code = .ok script.regionCode ↔
        script = .traditional ∨ ∀ t ∈ rest.head?, t ∉ traditionalTags) := by
  obtain ⟨hid, vs, rest, hvs, hrest, -, htags⟩ := tags_eq_of_ofCode h
  refine ⟨(l.id.region.toList ++ vs).map Text.lowerAscii ++ rest.map Text.lowerAscii, ?_, ?_⟩
  · rw [htags]
    simp only [LanguageId.subtags, hlanguage, hscript, Option.toList_some, List.map_append,
      List.map_cons, List.cons_append, List.nil_append, List.append_assoc]
    rfl
  · have hhead := traditional_head_iff hid hvs (byteSize_head?_map_lowerAscii hrest)
    have hdecided := chineseScript?_of_script hlanguage hscript
    constructor
    · rintro ⟨hsame, -, -⟩
      by_cases hregion : l.id.region.any traditionalRegions.contains = true
      · rw [hsame, if_pos hregion] at hdecided
        exact .inl (Option.some.inj hdecided)
      · refine .inr fun t ht htag => hregion (hhead.1 ⟨t, ht, htag⟩)
    · intro hcase
      have hsame : l.chineseScript? = some script := by
        rw [hdecided]
        rcases hcase with rfl | hfree
        · simp
        · rw [if_neg]
          intro hregion
          obtain ⟨t, ht, htag⟩ := hhead.2 hregion
          exact hfree t ht htag
      exact ⟨hsame, bing_serviceCode h hsame, google_serviceCode h hsame⟩

/-- Simplified Chinese as it is written in mainland China. -/
def mainland : Locale where
  id := ⟨"zh".toList, some "Hans".toList, some "CN".toList, []⟩
  extensions := {}

theorem named_script_counts_mainland :
    ofCode "zh_hans_CN".toList = .ok mainland ∧ mainland.chineseScript? = some .simplified ∧
      Bing.serviceCode "zh_hans_CN".toList = .ok "zh-Hans".toList ∧
      Google.serviceCode "zh_hans_CN".toList = .ok "zh-CN".toList := by
  have hcode : ofCode "zh_hans_CN".toList = .ok mainland := by decide
  have hscript : mainland.id.script = some ChineseScript.simplified.subtag := rfl
  obtain ⟨rest, htags, hiff⟩ := named_script_counts_iff hcode rfl hscript
  refine ⟨hcode, hiff.2 (.inr ?_)⟩
  have htags' : tags "zh_hans_CN".toList = ["zh".toList, "hans".toList, "cn".toList] := by decide
  rw [htags'] at htags
  cases htags
  decide

/-- Simplified Chinese as it is written in Taiwan is taken for traditional Chinese. -/
theorem simplified_in_taiwan :
    ¬ ∀ (code : Text) (l : Locale) (script : ChineseScript), ofCode code = .ok l →
      l.id.language = "zh".toList → l.id.script = some script.subtag →
        l.chineseScript? = some script ∧
          Bing.serviceCode code = .ok ("zh-".toList ++ script.subtag) ∧
          Google.serviceCode code = .ok script.regionCode := by
  intro h
  have hcode : ofCode "zh-Hans-TW".toList =
      .ok ⟨⟨"zh".toList, some "Hans".toList, some "TW".toList, []⟩, {}⟩ := by decide
  have htaken := (h _ _ .simplified hcode rfl rfl).1
  revert htaken
  decide

end Locale

end Phrasebook
