import Phrasebook.Dictionary.Basic

/-!
Tables as maps. Two tables that answer every look-up alike are the same table, and two tables that
know the same keys list them alike. Writing a row of values leaves, for each text, the last value
that was written for it.

    (∀ key, s.get? key = t.get? key) → s = t                                      (eq_of_get?)
    (d.enterAll es).get? locale text = (lastValue es locale text).or (d.get? …)   (get?_enterAll)
-/

namespace Phrasebook

namespace Table

variable {α : Type}

/-! ## Extensionality -/

theorem pairwise_ne_of_increasing {β : Type} {f : β → Text} {l : List β}
    (h : l.Pairwise fun a b => Text.blt (f a) (f b) = true) : l.Nodup := by
  refine h.imp ?_
  intro a b hab he
  rw [he, Text.blt_irrefl] at hab
  cases hab

/-- Two rows in increasing order with the same members are the same row. -/
theorem eq_of_increasing {β : Type} {f : β → Text} {l m : List β}
    (hl : l.Pairwise fun a b => Text.blt (f a) (f b) = true)
    (hm : m.Pairwise fun a b => Text.blt (f a) (f b) = true) (h : ∀ a, a ∈ l ↔ a ∈ m) : l = m := by
  have hp : l.Perm m :=
    (List.perm_ext_iff_of_nodup (pairwise_ne_of_increasing hl) (pairwise_ne_of_increasing hm)).2 h
  refine hp.eq_of_pairwise ?_ hl hm
  intro a b _ _ hab hba
  have := Text.blt_trans hab hba
  rw [Text.blt_irrefl] at this
  cases this

theorem lookup_eq_some_iff {key : Text} {value : α} {entries : List (Text × α)}
    (h : KeysIncrease entries) : lookup key entries = some value ↔ (key, value) ∈ entries := by
  induction entries with
  | nil => simp [lookup]
  | cons d rest ih =>
    obtain ⟨k, v⟩ := d
    obtain ⟨hk, hrest⟩ := List.pairwise_cons.1 h
    by_cases he : k = key
    · subst he
      -- the key does not come again
      have hn : (k, value) ∉ rest := by
        intro hm
        have := hk _ hm
        rw [Text.blt_irrefl] at this
        cases this
      simp [lookup, hn, eq_comm]
    · have hne : key ≠ k := fun h => he h.symm
      simp [lookup, he, hne, ih hrest]

theorem get?_eq_some_iff {t : Table α} {key : Text} {value : α} :
    t.get? key = some value ↔ (key, value) ∈ t.entries :=
  lookup_eq_some_iff t.increasing

/-- A table is determined by its look-ups. -/
theorem eq_of_get? {s t : Table α} (h : ∀ key, s.get? key = t.get? key) : s = t := by
  have he : s.entries = t.entries := by
    refine eq_of_increasing s.increasing t.increasing ?_
    rintro ⟨key, value⟩
    rw [← get?_eq_some_iff, ← get?_eq_some_iff, h key]
  cases s
  cases t
  simp only at he
  subst he
  rfl

theorem mem_keys_iff {t : Table α} {key : Text} : key ∈ t.keys ↔ (t.get? key).isSome := by
  rw [Option.isSome_iff_exists]
  simp only [get?_eq_some_iff, keys, List.mem_map]
  constructor
  · rintro ⟨⟨k, v⟩, hm, rfl⟩
    exact ⟨v, hm⟩
  · rintro ⟨v, hm⟩
    exact ⟨(key, v), hm, rfl⟩

/-- Tables that know the same keys list them alike. -/
theorem keys_eq {β : Type} {s : Table α} {t : Table β}
    (h : ∀ key, (s.get? key).isSome ↔ (t.get? key).isSome) : s.keys = t.keys := by
  have hs : s.keys.Pairwise fun a b => Text.blt a b = true := List.pairwise_map.2 s.increasing
  have ht : t.keys.Pairwise fun a b => Text.blt a b = true := List.pairwise_map.2 t.increasing
  refine eq_of_increasing (f := id) hs ht ?_
  intro key
  rw [mem_keys_iff, mem_keys_iff, h key]

end Table

/-! ## Rows of values -/

/-- A value that is written for a text in a locale. -/
structure Entry where
  text : Text
  locale : Text
  value : Text
  deriving DecidableEq, Repr

/-- Whether an entry belongs to a text in a locale. -/
def Entry.isFor (locale text : Text) (e : Entry) : Bool := e.locale = locale && e.text = text

/-- The last value that a row of entries holds for a text in a locale. -/
def lastValue (es : List Entry) (locale text : Text) : Option Text :=
  (es.reverse.find? (Entry.isFor locale text)).map Entry.value

theorem lastValue_append (es fs : List Entry) (locale text : Text) :
    lastValue (es ++ fs) locale text = (lastValue fs locale text).or (lastValue es locale text) := by
  unfold lastValue
  rw [List.reverse_append, List.find?_append]
  cases List.find? (Entry.isFor locale text) fs.reverse <;> rfl

theorem lastValue_singleton (e : Entry) (locale text : Text) :
    lastValue [e] locale text = if e.locale = locale ∧ e.text = text then some e.value else none := by
  unfold lastValue
  by_cases h : e.locale = locale ∧ e.text = text <;> simp [Entry.isFor, h]

theorem isSome_lastValue_iff {es : List Entry} {locale text : Text} :
    (lastValue es locale text).isSome ↔ 0 < es.countP (Entry.isFor locale text) := by
  unfold lastValue
  rw [Option.isSome_map, List.find?_isSome, List.countP_pos_iff]
  simp

theorem exists_of_lastValue {es : List Entry} {locale text value : Text}
    (h : lastValue es locale text = some value) :
    ∃ e ∈ es, e.locale = locale ∧ e.text = text ∧ e.value = value := by
  obtain ⟨e, he, rfl⟩ := Option.map_eq_some_iff.1 h
  have hp := List.find?_some he
  have hm := List.mem_of_find?_eq_some he
  simp only [Entry.isFor, Bool.and_eq_true, decide_eq_true_eq] at hp
  exact ⟨e, List.mem_reverse.1 hm, hp.1, hp.2, rfl⟩

namespace Dictionary

/-- Writes a row of values. -/
def enterAll (d : Dictionary) (es : List Entry) : Dictionary :=
  es.foldl (fun d e => d.enterValue e.text e.locale e.value) d

theorem get?_of_table? (d : Dictionary) {code : Text} {t : Table Text} (h : d.table? code = some t)
    (x : Text) : d.get? code x = t.get? x := by
  unfold get?
  rw [h]
  rfl

theorem table?_enterValue (d : Dictionary) (text locale value code : Text) :
    (d.enterValue text locale value).table? code =
      if locale = code then some (((d.table? locale).getD Table.empty).insert text value)
      else d.table? code :=
  Table.get?_insert d.tables locale code _

theorem get?_enterValue (d : Dictionary) (text locale value code x : Text) :
    (d.enterValue text locale value).get? code x =
      if locale = code ∧ text = x then some value else d.get? code x := by
  unfold get?
  rw [table?_enterValue]
  by_cases hl : locale = code
  · subst hl
    by_cases hx : text = x
    · simp [hx]
    · cases ht : d.table? locale <;> simp [hx]
  · simp [hl]

theorem enterAll_frame (d : Dictionary) (es : List Entry) :
    (d.enterAll es).base = d.base ∧ (d.enterAll es).targets = d.targets ∧
      (d.enterAll es).pending = d.pending := by
  induction es generalizing d with
  | nil => exact ⟨rfl, rfl, rfl⟩
  | cons e es ih => exact ih (d.enterValue e.text e.locale e.value)

/-- After a row of values each text has the last value written for it. -/
theorem get?_enterAll (d : Dictionary) (es : List Entry) (locale text : Text) :
    (d.enterAll es).get? locale text = (lastValue es locale text).or (d.get? locale text) := by
  induction es generalizing d with
  | nil => rfl
  | cons e es ih =>
    have hs := lastValue_append [e] es locale text
    rw [List.singleton_append, lastValue_singleton] at hs
    show ((d.enterValue e.text e.locale e.value).enterAll es).get? locale text = _
    rw [ih, get?_enterValue, hs]
    by_cases h : e.locale = locale ∧ e.text = text
    · cases lastValue es locale text <;> simp [h]
    · cases lastValue es locale text <;> simp [h]

/-- No table disappears, and new ones come only for the locales that values are written for. -/
theorem isSome_table?_enterAll (d : Dictionary) (es : List Entry) (code : Text) :
    ((d.enterAll es).table? code).isSome ↔
      (d.table? code).isSome ∨ ∃ e ∈ es, e.locale = code := by
  induction es generalizing d with
  | nil => simp [enterAll]
  | cons e es ih =>
    show (((d.enterValue e.text e.locale e.value).enterAll es).table? code).isSome ↔ _
    rw [ih, table?_enterValue]
    by_cases h : e.locale = code
    · simp [h]
    · simp [h]

end Dictionary

end Phrasebook
