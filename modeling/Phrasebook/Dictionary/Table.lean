import Phrasebook.Text.Basic

/-!
Tables: finite maps from texts, kept in the order of their keys. The order is part of the type, so
two tables with the same entries are the same table.

Main statements: `Text.blt` is a strict total order (`blt_irrefl`, `blt_trans`, `blt_trichotomy`),
inserting keeps the order, and a look-up sees exactly the last insertion (`get?_insert`).
-/

namespace Phrasebook

namespace Text

theorem blt_irrefl (s : Text) : blt s s = false := by
  induction s with
  | nil => rfl
  | cons c s ih => simp [blt, ih]

theorem blt_trans {s t u : Text} (hst : blt s t = true) (htu : blt t u = true) :
    blt s u = true := by
  induction s generalizing t u with
  | nil =>
    cases t with
    | nil => simp [blt] at hst
    | cons b t =>
      cases u with
      | nil => simp [blt] at htu
      | cons c u => rfl
  | cons a s ih =>
    cases t with
    | nil => simp [blt] at hst
    | cons b t =>
      cases u with
      | nil => simp [blt] at htu
      | cons c u =>
        simp only [blt] at hst htu ⊢
        by_cases hab : a = b
        · subst hab
          by_cases hac : a = c
          · subst hac
            simp only [if_true] at hst htu ⊢
            exact ih hst htu
          · simp only [if_neg hac] at htu ⊢
            exact htu
        · simp only [if_neg hab, decide_eq_true_eq] at hst
          by_cases hbc : b = c
          · subst hbc
            simp only [if_neg hab, decide_eq_true_eq]
            exact hst
          · simp only [if_neg hbc, decide_eq_true_eq] at htu
            have hac : a ≠ c := by
              rintro rfl
              omega
            simp only [if_neg hac, decide_eq_true_eq]
            omega

theorem blt_trichotomy {s t : Text} (hne : s ≠ t) (hst : blt s t = false) : blt t s = true := by
  induction s generalizing t with
  | nil =>
    cases t with
    | nil => exact absurd rfl hne
    | cons b t => simp [blt] at hst
  | cons a s ih =>
    cases t with
    | nil => rfl
    | cons b t =>
      simp only [blt] at hst ⊢
      by_cases hab : a = b
      · subst hab
        simp only [if_true] at hst ⊢
        exact ih (fun h => hne (by rw [h])) hst
      · simp only [if_neg hab, decide_eq_false_iff_not] at hst
        have hba : b ≠ a := fun h => hab h.symm
        have hn : a.toNat ≠ b.toNat := fun h => hab (Char.toNat_inj.mp h)
        simp only [if_neg hba, decide_eq_true_eq]
        omega

end Text

/-- Whether the keys of a list of entries increase. -/
def KeysIncrease {α : Type} (entries : List (Text × α)) : Prop :=
  entries.Pairwise fun a b => Text.blt a.1 b.1 = true

/-- A map from texts, in the order of its keys. -/
structure Table (α : Type) where
  entries : List (Text × α)
  increasing : KeysIncrease entries

namespace Table

variable {α : Type}

/-- The table without entries. -/
def empty : Table α := ⟨[], List.Pairwise.nil⟩

instance : Inhabited (Table α) := ⟨empty⟩

/-- The value at a key of a list of entries. -/
def lookup (key : Text) : List (Text × α) → Option α
  | [] => none
  | (k, v) :: rest => if k = key then some v else lookup key rest

/-- Inserts into an ordered list of entries; an entry with the same key is replaced. -/
def insertEntry (key : Text) (value : α) : List (Text × α) → List (Text × α)
  | [] => [(key, value)]
  | (k, v) :: rest =>
    if k = key then (key, value) :: rest
    else if Text.blt key k then (key, value) :: (k, v) :: rest
    else (k, v) :: insertEntry key value rest

theorem mem_insertEntry {key : Text} {value : α} {entries : List (Text × α)} {e : Text × α}
    (h : e ∈ insertEntry key value entries) : e = (key, value) ∨ e ∈ entries := by
  induction entries with
  | nil => simpa [insertEntry] using h
  | cons d rest ih =>
    obtain ⟨k, v⟩ := d
    simp only [insertEntry] at h
    split at h
    · rcases List.mem_cons.1 h with h | h
      · exact Or.inl h
      · exact Or.inr (List.mem_cons_of_mem _ h)
    · split at h
      · rcases List.mem_cons.1 h with h | h
        · exact Or.inl h
        · exact Or.inr h
      · rcases List.mem_cons.1 h with h | h
        · exact Or.inr (h ▸ List.mem_cons_self)
        · rcases ih h with h | h
          · exact Or.inl h
          · exact Or.inr (List.mem_cons_of_mem _ h)

theorem insertEntry_increasing (key : Text) (value : α) {entries : List (Text × α)}
    (h : KeysIncrease entries) : KeysIncrease (insertEntry key value entries) := by
  induction entries with
  | nil => exact List.pairwise_singleton _ _
  | cons d rest ih =>
    obtain ⟨k, v⟩ := d
    obtain ⟨hk, hrest⟩ := List.pairwise_cons.1 h
    simp only [insertEntry]
    split
    · next he =>
      subst he
      exact List.pairwise_cons.2 ⟨hk, hrest⟩
    · next hne =>
      split
      · next hlt =>
        refine List.pairwise_cons.2 ⟨fun e he => ?_, h⟩
        rcases List.mem_cons.1 he with he | he
        · rw [he]; exact hlt
        · exact Text.blt_trans hlt (hk e he)
      · next hge =>
        refine List.pairwise_cons.2 ⟨fun e he => ?_, ih hrest⟩
        rcases mem_insertEntry he with he | he
        · rw [he]
          exact Text.blt_trichotomy (fun hk => hne hk.symm) (Bool.eq_false_iff.2 hge)
        · exact hk e he

/-- The table with a value at a key; an older value is replaced. -/
def insert (t : Table α) (key : Text) (value : α) : Table α :=
  ⟨insertEntry key value t.entries, insertEntry_increasing key value t.increasing⟩

/-- The value at a key. -/
def get? (t : Table α) (key : Text) : Option α := lookup key t.entries

/-- The keys in increasing order. -/
def keys (t : Table α) : List Text := t.entries.map Prod.fst

/-- The number of entries. -/
def size (t : Table α) : Nat := t.entries.length

/-- The table of a list of entries; of two entries with the same key the later one counts. -/
def ofList (entries : List (Text × α)) : Table α :=
  entries.foldl (fun t (key, value) => t.insert key value) empty

@[simp] theorem get?_empty (key : Text) : (empty : Table α).get? key = none := rfl

theorem lookup_insertEntry (key key' : Text) (value : α) (entries : List (Text × α)) :
    lookup key' (insertEntry key value entries) =
      if key = key' then some value else lookup key' entries := by
  induction entries with
  | nil => simp [insertEntry, lookup]
  | cons d rest ih =>
    obtain ⟨k, v⟩ := d
    simp only [insertEntry]
    split
    · next he =>
      subst he
      by_cases hk : k = key' <;> simp [lookup, hk]
    · split
      · by_cases hk : key = key' <;> simp [lookup, hk]
      · next hne _ =>
        by_cases hk : k = key'
        · subst hk
          have : key ≠ k := fun h => hne h.symm
          simp [lookup, this]
        · simp [lookup, hk, ih]

/-- A look-up after an insertion. -/
@[simp] theorem get?_insert (t : Table α) (key key' : Text) (value : α) :
    (t.insert key value).get? key' = if key = key' then some value else t.get? key' :=
  lookup_insertEntry key key' value t.entries

end Table

end Phrasebook
