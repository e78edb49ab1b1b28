import Phrasebook.LookupModule
import Phrasebook.Json.Reader
import Phrasebook.Proofs.Tables

/-!
Tables that have been written can be read back.

Writing a document and reading it are inverse for every value that a table can hold: a string is read
character by character (`readString_escapeChar`), and an object field by field (`readsBack_object`). What
follows a document does not matter, so that the look-up module shows its tables, whatever names and
default locale it is made for.

    readValue fuel (pretty level v ++ rest) = some (v, rest)         (ReadsBack)
    blt s t → bytes s < bytes t                                      (bytes_lt_of_blt)

Main statement: `persisted_tables_read_back`.
-/

namespace Phrasebook

/-! ## The order of bytes -/

namespace Text

/-- The UTF-8 form of a text. -/
def bytes (t : Text) : List UInt8 := t.flatMap String.utf8EncodeChar

/-- The UTF-8 form of a character: the digits of its number to the base 64, with a mark on each. The mark
of the first one tells how many there are. -/
inductive Encodes : Nat → List UInt8 → Prop where
  | one {x : Nat} : x < 0x80 → Encodes x [UInt8.ofNat x]
  | two {x y : Nat} : x < 32 → y < 64 → 0x80 ≤ x * 64 + y →
    Encodes (x * 64 + y) [UInt8.ofNat (x + 192), UInt8.ofNat (y + 128)]
  | three {x y z : Nat} : x < 16 → y < 64 → z < 64 → 0x800 ≤ x * 4096 + y * 64 + z →
    Encodes (x * 4096 + y * 64 + z)
      [UInt8.ofNat (x + 224), UInt8.ofNat (y + 128), UInt8.ofNat (z + 128)]
  | four {x y z w : Nat} : x < 8 → y < 64 → z < 64 → w < 64 →
    0x10000 ≤ x * 262144 + y * 4096 + z * 64 + w →
    Encodes (x * 262144 + y * 4096 + z * 64 + w)
      [UInt8.ofNat (x + 240), UInt8.ofNat (y + 128), UInt8.ofNat (z + 128), UInt8.ofNat (w + 128)]

theorem encodes_utf8EncodeChar (c : Char) : Encodes c.toNat (String.utf8EncodeChar c) := by
  have hc := Units.toNat_cases c
  have hval : c.val.toNat = c.toNat := rfl
  rw [String.utf8EncodeChar, hval]
  generalize c.toNat = n at hc
  split
  · exact .one (by omega)
  · split
    · have hn : n = n / 64 % 32 * 64 + n % 64 := by omega
      have h := @Encodes.two (n / 64 % 32) (n % 64) (by omega) (by omega) (by omega)
      rwa [← hn] at h
    · split
      · have hn : n = n / 4096 % 16 * 4096 + n / 64 % 64 * 64 + n % 64 := by omega
        have h := @Encodes.three (n / 4096 % 16) (n / 64 % 64) (n % 64) (by omega) (by omega)
          (by omega) (by omega)
        rwa [← hn] at h
      · have hn : n = n / 262144 % 8 * 262144 + n / 4096 % 64 * 4096 + n / 64 % 64 * 64 + n % 64 := by
          omega
        have h := @Encodes.four (n / 262144 % 8) (n / 4096 % 64) (n / 64 % 64) (n % 64) (by omega)
          (by omega) (by omega) (by omega) (by omega)
        rwa [← hn] at h

theorem Encodes.ne_nil {n : Nat} {l : List UInt8} (h : Encodes n l) : l ≠ [] := by
  cases h <;> exact List.cons_ne_nil _ _

/-- The form of a number comes before that of a greater one, whatever follows. -/
theorem Encodes.append_lt {m n : Nat} {k l : List UInt8} (hm : Encodes m k) (hn : Encodes n l)
    (h : m < n) (s t : List UInt8) : k ++ s < l ++ t := by
  cases hm <;> cases hn <;> first
  | omega
  | simp only [List.cons_append, List.nil_append, List.cons_lt_cons_iff, UInt8.lt_iff_toNat_lt,
      ← UInt8.toNat_inj, UInt8.toNat_ofNat']
    omega

/-- The order of texts is that of their bytes. -/
theorem bytes_lt_of_blt {s t : Text} (h : blt s t = true) : bytes s < bytes t := by
  induction s generalizing t with
  | nil =>
    cases t with
    | nil => cases h
    | cons b t =>
      obtain ⟨x, xs, hx⟩ := List.exists_cons_of_ne_nil (encodes_utf8EncodeChar b).ne_nil
      rw [bytes, bytes, List.flatMap_cons, hx]
      exact List.nil_lt_cons ..
  | cons a s ih =>
    cases t with
    | nil => cases h
    | cons b t =>
      rw [blt] at h
      rw [bytes, bytes, List.flatMap_cons, List.flatMap_cons]
      split at h
      · next he =>
        subst he
        exact List.append_left_lt (ih h)
      · exact (encodes_utf8EncodeChar a).append_lt (encodes_utf8EncodeChar b)
          (of_decide_eq_true h) _ _

end Text

namespace Json

/-! ## Strings -/

theorem hexDigit?_digitChar : ∀ n < 16, Text.hexDigit? (Nat.digitChar n) = some n := by decide

theorem readHex?_fourHexDigits {n : Nat} (h : n < 0x10000) (rest : Text) :
    readHex? (fourHexDigits n ++ rest) = some (n, rest) := by
  have h1 := hexDigit?_digitChar (n / 4096 % 16) (by omega)
  have h2 := hexDigit?_digitChar (n / 256 % 16) (by omega)
  have h3 := hexDigit?_digitChar (n / 16 % 16) (by omega)
  have h4 := hexDigit?_digitChar (n % 16) (by omega)
  have hvalue : Text.hexValue (fourHexDigits n) = n := by
    simp only [Text.hexValue, fourHexDigits, List.map_cons, List.map_nil, List.foldl_cons,
      List.foldl_nil, h1, h2, h3, h4, Option.getD_some]
    omega
  have hdigits : (fourHexDigits n).all Text.isHexDigit = true := by
    simp [fourHexDigits, Text.isHexDigit, h1, h2, h3, h4]
  show (if (fourHexDigits n).all Text.isHexDigit then some (Text.hexValue (fourHexDigits n), rest)
    else none) = some (n, rest)
  rw [hdigits, hvalue, if_pos rfl]

/-- What the form of a character starts with is read as that character. -/
theorem readString_escapeChar (fuel : Nat) (c : Char) (t : Text) :
    readString (fuel + 1) (escapeChar c ++ t) =
      (readString fuel t).map fun (s, rest) => (c :: s, rest) := by
  unfold escapeChar
  split
  · next h => subst h; rfl
  split
  · next h => subst h; rfl
  split
  · next h => subst h; rfl
  split
  · next h => subst h; rfl
  split
  · next h => subst h; rfl
  split
  · next h =>
    obtain rfl : c = '\x08' := Char.toNat_inj.1 h
    rfl
  split
  · next h =>
    obtain rfl : c = '\x0c' := Char.toNat_inj.1 h
    rfl
  split
  · next h =>
    have hhigh : Units.isHigh c.toNat = false := by simp [Units.isHigh]; omega
    have hlow : Units.isLow c.toNat = false := by simp [Units.isLow]; omega
    have hescape : readEscape? ('u' :: (fourHexDigits c.toNat ++ t)) = some (c, t) := by
      rw [readEscape?, readUnicodeEscape?, readHex?_fourHexDigits (by omega)]
      simp [hhigh, hlow, Char.ofNat_toNat]
    show readString (fuel + 1) ('\\' :: 'u' :: (fourHexDigits c.toNat ++ t)) = _
    rw [readString, if_neg (by decide), if_pos rfl, hescape]
  · next hq hb _ _ _ _ _ hc =>
    rw [List.cons_append, List.nil_append, readString, if_neg hq, if_neg hb, if_neg hc]

theorem escapeChar_ne_nil (c : Char) : escapeChar c ≠ [] := by
  unfold escapeChar
  repeat' split
  all_goals exact List.cons_ne_nil _ _

theorem length_le_flatMap_escapeChar (t : Text) : t.length ≤ (t.flatMap escapeChar).length := by
  induction t with
  | nil => exact Nat.le_refl 0
  | cons c t ih =>
    have := List.length_pos_iff.2 (escapeChar_ne_nil c)
    rw [List.flatMap_cons, List.length_append, List.length_cons]
    omega

theorem readString_quoted {fuel : Nat} {t : Text} (h : t.length < fuel) (rest : Text) :
    readString fuel (t.flatMap escapeChar ++ '"' :: rest) = some (t, rest) := by
  induction t generalizing fuel with
  | nil =>
    obtain ⟨n, rfl⟩ : ∃ n, fuel = n + 1 := ⟨fuel - 1, by omega⟩
    rfl
  | cons c t ih =>
    obtain ⟨n, rfl⟩ : ∃ n, fuel = n + 1 := ⟨fuel - 1, by omega⟩
    rw [List.flatMap_cons, List.append_assoc, readString_escapeChar,
      ih (by rw [List.length_cons] at h; omega)]
    rfl

theorem quote_append (t rest : Text) :
    quote t ++ rest = '"' :: (t.flatMap escapeChar ++ '"' :: rest) := by
  rw [quote, List.cons_append, List.cons_append, List.append_assoc, List.singleton_append]

/-- A string in quotes, as it stands in a document, is read back. -/
theorem readString_of_quote (t rest : Text) :
    readString ((t.flatMap escapeChar ++ '"' :: rest).length + 1)
      (t.flatMap escapeChar ++ '"' :: rest) = some (t, rest) := by
  refine readString_quoted ?_ rest
  have := length_le_flatMap_escapeChar t
  rw [List.length_append]
  omega

/-! ## Documents -/

theorem skipBlank_newline (level : Nat) (t : Text) : skipBlank (newline level ++ t) = skipBlank t := by
  rw [newline, List.cons_append, skipBlank, List.dropWhile_cons_of_pos (by decide)]
  induction 4 * level with
  | zero => rfl
  | succ n ih =>
    rw [List.replicate_succ, List.cons_append, List.dropWhile_cons_of_pos (by decide), ih]

theorem skipBlank_space (t : Text) : skipBlank (' ' :: t) = skipBlank t := rfl

theorem skipBlank_cons {c : Char} (h : isJsonBlank c = false) (t : Text) :
    skipBlank (c :: t) = c :: t :=
  List.dropWhile_cons_of_neg (by simp [h])

/-- What is read from the form of a value is the value, and what follows it is left. -/
def ReadsBack (level : Nat) (v : Json) : Prop :=
  ∀ (fuel : Nat) (rest : Text), (pretty level v).length ≤ fuel →
    readValue fuel (pretty level v ++ rest) = some (v, rest)

theorem readValue_string (fuel : Nat) (t rest : Text) :
    readValue (fuel + 1) (quote t ++ rest) = some (.string t, rest) := by
  rw [quote_append, readValue, skipBlank_cons (by decide)]
  show (readString ((t.flatMap escapeChar ++ '"' :: rest).length + 1)
    (t.flatMap escapeChar ++ '"' :: rest)).map _ = _
  rw [readString_of_quote]
  rfl

theorem readsBack_string (level : Nat) (t : Text) : ReadsBack level (.string t) := by
  intro fuel rest hf
  rw [pretty] at hf ⊢
  obtain ⟨n, rfl⟩ : ∃ n, fuel = n + 1 := ⟨fuel - 1, by rw [quote] at hf; simp at hf; omega⟩
  exact readValue_string n t rest

/-- The fields of an object, the first one without the comma before it. -/
def fieldsText (level : Nat) (field : Text × Json) (fields : List (Text × Json)) : Text :=
  quote field.1 ++ ": ".toList ++ pretty level field.2 ++ prettyFields level fields

theorem readFields_blank (fuel : Nat) {s t : Text} (h : skipBlank s = skipBlank t) :
    readFields fuel s = readFields fuel t := by
  cases fuel with
  | zero => rw [readFields, readFields]
  | succ n => rw [readFields, readFields, h]

theorem readValue_blank (fuel : Nat) {s t : Text} (h : skipBlank s = skipBlank t) :
    readValue fuel s = readValue fuel t := by
  cases fuel with
  | zero => rw [readValue, readValue]
  | succ n => rw [readValue, readValue, h]

/-- One field, and what comes after it. -/
theorem readFields_field {level n : Nat} {field : Text × Json} (h : ReadsBack level field.2)
    (hn : (pretty level field.2).length ≤ n) {s t rest : Text}
    (hs : s = quote field.1 ++ ": ".toList ++ pretty level field.2 ++ t) :
    (skipBlank t = '}' :: rest → readFields (n + 1) s = some ([field], rest)) ∧
      (skipBlank t = ',' :: rest → readFields (n + 1) s =
        (readFields n rest).map fun p => (field :: p.1, p.2)) := by
  obtain ⟨key, value⟩ := field
  have htext : s = '"' :: (key.flatMap escapeChar ++ '"' :: ':' :: ' ' :: (pretty level value ++ t)) := by
    rw [hs, List.append_assoc, List.append_assoc, quote_append]
    rfl
  have hvalue : readValue n (' ' :: (pretty level value ++ t)) = some (value, t) := by
    rw [readValue_blank n (skipBlank_space _)]
    exact h n t hn
  rw [htext, readFields, skipBlank_cons (by decide)]
  split
  · next u hu =>
    cases hu
    rw [readString_of_quote]
    dsimp only
    rw [skipBlank_cons (by decide)]
    split
    · next u hu =>
      cases hu
      rw [hvalue]
      dsimp only
      refine ⟨fun ht => ?_, fun ht => ?_⟩
      · rw [ht]
        rfl
      · rw [ht]
        rfl
    · next hu => exact absurd rfl (hu _)
  · next hu => exact absurd rfl (hu _)

theorem prettyFields_cons (level : Nat) (field : Text × Json) (fields : List (Text × Json)) :
    prettyFields level (field :: fields) = ',' :: (newline level ++ fieldsText level field fields) := by
  simp [prettyFields, fieldsText]

theorem readFields_fieldsText {level : Nat} (below : Nat) {field : Text × Json}
    {fields : List (Text × Json)} (h : ∀ f ∈ field :: fields, ReadsBack level f.2) {n : Nat}
    (hn : (fieldsText level field fields).length ≤ n) (rest : Text) :
    readFields n (fieldsText level field fields ++ (newline below ++ '}' :: rest)) =
      some (field :: fields, rest) := by
  induction fields generalizing field n with
  | nil =>
    obtain ⟨m, rfl⟩ : ∃ m, n = m + 1 := ⟨n - 1, by simp [fieldsText, quote] at hn; omega⟩
    refine (readFields_field (h field (List.mem_cons_self ..))
      (by simp [fieldsText, quote] at hn; omega) (List.append_assoc ..)).1 ?_
    rw [prettyFields, List.nil_append, skipBlank_newline, skipBlank_cons (by decide)]
  | cons next fields ih =>
    obtain ⟨m, rfl⟩ : ∃ m, n = m + 1 := ⟨n - 1, by simp [fieldsText, quote] at hn; omega⟩
    rw [fieldsText, prettyFields_cons] at hn
    simp only [List.length_append, List.length_cons] at hn
    have hnext := ih (n := m) (fun f hm => h f (List.mem_cons_of_mem _ hm)) (by omega)
    have hcomma : skipBlank (prettyFields level (next :: fields) ++ (newline below ++ '}' :: rest)) =
        ',' :: (newline level ++ (fieldsText level next fields ++ (newline below ++ '}' :: rest))) := by
      rw [prettyFields_cons, List.cons_append, skipBlank_cons (by decide), List.append_assoc]
    refine ((readFields_field (h field (List.mem_cons_self ..)) (by omega)
      (List.append_assoc ..)).2 hcomma).trans ?_
    rw [readFields_blank m (skipBlank_newline level _), hnext, Option.map_some]

theorem readValue_object {n : Nat} {s t rest : Text} {fields : List (Text × Json)}
    (ht : skipBlank s = '"' :: t) (h : readFields n ('"' :: t) = some (fields, rest)) :
    readValue (n + 1) ('{' :: s) = some (.object fields, rest) := by
  rw [readValue, skipBlank_cons (by decide)]
  split
  · next hu => cases hu
  · next hu => cases hu
  · next hu =>
    cases hu
    rw [ht]
    split
    · next hu => cases hu
    · rw [h, Option.map_some]
  · next hu => cases hu
  · next hu => cases hu
  · next hu => cases hu
  · next hbrace _ _ _ => exact absurd rfl (hbrace s)

/-- An object is read back if the values of its fields are. -/
theorem readsBack_object {level : Nat} {fields : List (Text × Json)}
    (h : ∀ f ∈ fields, ReadsBack (level + 1) f.2) : ReadsBack level (.object fields) := by
  intro fuel rest hf
  cases fields with
  | nil =>
    obtain ⟨n, rfl⟩ : ∃ n, fuel = n + 1 := ⟨fuel - 1, by simp [pretty] at hf; omega⟩
    rw [pretty, readValue]
    rfl
  | cons field fields =>
    have htext : pretty level (.object (field :: fields)) ++ rest =
        '{' :: (newline (level + 1) ++
          (fieldsText (level + 1) field fields ++ (newline level ++ '}' :: rest))) := by
      simp [pretty, fieldsText]
    have hlength := congrArg List.length htext
    simp only [List.length_append, List.length_cons] at hlength
    obtain ⟨n, rfl⟩ : ∃ n, fuel = n + 1 := ⟨fuel - 1, by omega⟩
    have hfields := readFields_fieldsText level h (n := n) (by omega) rest
    obtain ⟨t, ht⟩ : ∃ t, fieldsText (level + 1) field fields ++ (newline level ++ '}' :: rest) =
        '"' :: t := by
      simp only [fieldsText, List.append_assoc, quote_append]
      exact ⟨_, rfl⟩
    rw [htext]
    rw [ht] at hfields ⊢
    refine readValue_object ?_ hfields
    rw [skipBlank_newline, skipBlank_cons (by decide)]

theorem readsBack_ofTable (level : Nat) (t : Table Text) : ReadsBack level (ofTable t) := by
  refine readsBack_object fun f hf => ?_
  obtain ⟨e, -, rfl⟩ := List.mem_map.1 hf
  exact readsBack_string (level + 1) e.2

theorem readsBack_ofTables (level : Nat) (ts : LocaleTables) : ReadsBack level (ofTables ts) := by
  refine readsBack_object fun f hf => ?_
  obtain ⟨e, -, rfl⟩ := List.mem_map.1 hf
  exact readsBack_ofTable (level + 1) e.2

theorem ReadsBack.parse? {v : Json} (h : ReadsBack 0 v) : Json.parse? (pretty 0 v) = some v := by
  have hread := h (2 * (pretty 0 v).length + 2) [] (by omega)
  rw [List.append_nil] at hread
  rw [Json.parse?, hread]
  rfl

/-- Values that are read back are told apart by their forms, whatever follows these. -/
theorem ReadsBack.unique {level : Nat} {v w : Json} (hv : ReadsBack level v) (hw : ReadsBack level w)
    {s t : Text} (h : pretty level v ++ s = pretty level w ++ t) : v = w := by
  have hleft := hv ((pretty level v).length + (pretty level w).length) s (by omega)
  have hright := hw ((pretty level v).length + (pretty level w).length) t (by omega)
  rw [h, hright] at hleft
  cases hleft
  rfl

end Json

/-! ## Tables -/

namespace Table

variable {α : Type}

theorem insertEntry_of_lt {key : Text} {value : α} {entries : List (Text × α)}
    (h : ∀ e ∈ entries, Text.blt e.1 key = true) :
    insertEntry key value entries = entries ++ [(key, value)] := by
  induction entries with
  | nil => rfl
  | cons e entries ih =>
    obtain ⟨k, v⟩ := e
    have hk : Text.blt k key = true := h (k, v) (List.mem_cons_self ..)
    have hne : k ≠ key := by
      rintro rfl
      rw [Text.blt_irrefl] at hk
      cases hk
    have hge : ¬ Text.blt key k = true := by
      intro hlt
      have := Text.blt_trans hk hlt
      rw [Text.blt_irrefl] at this
      cases this
    rw [insertEntry, if_neg hne, if_neg hge, ih fun e he => h e (List.mem_cons_of_mem _ he),
      List.cons_append]

/-- Entries that are inserted in order come behind each other. -/
theorem entries_foldl_insert (es : List (Text × α)) (t : Table α)
    (h : KeysIncrease (t.entries ++ es)) :
    (es.foldl (fun t (key, value) => t.insert key value) t).entries = t.entries ++ es := by
  induction es generalizing t with
  | nil => exact (List.append_nil _).symm
  | cons e es ih =>
    have hbefore : ∀ d ∈ t.entries, Text.blt d.1 e.1 = true := fun d hd =>
      (List.pairwise_append.1 h).2.2 d hd e (List.mem_cons_self ..)
    have hinsert : (t.insert e.1 e.2).entries = t.entries ++ [e] := insertEntry_of_lt hbefore
    rw [List.append_cons, ← hinsert] at h ⊢
    exact ih (t.insert e.1 e.2) h

/-- A table is made from its entries. -/
theorem ofList_entries (t : Table α) : ofList t.entries = t := by
  have he : (ofList t.entries).entries = t.entries :=
    entries_foldl_insert t.entries empty t.increasing
  refine eq_of_get? fun key => ?_
  rw [get?, he, get?]

end Table

namespace Json

/-- The tables of an object whose values are all objects of strings; of two fields with the same name
the later one counts. -/
def tables? : Json → Option LocaleTables
  | .object fields =>
    (fields.mapM fun field => (stringTable? field.2).map fun t => (field.1, t)).map Table.ofList
  | _ => none

/-- Fields that are read as entries one by one are read as these entries. -/
theorem mapM_fields {α : Type} (write : α → Json) {r : Text × Json → Option (Text × α)}
    (h : ∀ key value, r (key, write value) = some (key, value)) (entries : List (Text × α)) :
    (entries.map fun e => (e.1, write e.2)).mapM r = some entries := by
  induction entries with
  | nil => rfl
  | cons e entries ih => simp [List.mapM_cons, h, ih]

theorem stringTable?_ofTable (t : Table Text) : (ofTable t).stringTable? = some t := by
  have hfields := mapM_fields Json.string (r := stringField?) (fun _ _ => rfl) t.entries
  rw [ofTable, stringTable?]
  refine (congrArg (Option.map Table.ofList) hfields).trans ?_
  rw [Option.map_some, Table.ofList_entries]

theorem tables?_ofTables (ts : LocaleTables) : (ofTables ts).tables? = some ts := by
  have hfields := mapM_fields ofTable
    (r := fun field => (stringTable? field.2).map fun t => (field.1, t))
    (fun key t => by rw [stringTable?_ofTable, Option.map_some]) ts.entries
  rw [ofTables, tables?]
  refine (congrArg (Option.map Table.ofList) hfields).trans ?_
  rw [Option.map_some, Table.ofList_entries]

mutual

/-- The objects of a document, each with its fields. -/
def objects : Json → List (List (Text × Json))
  | .array items => objectsOfItems items
  | .object fields => fields :: objectsOfFields fields
  | _ => []

/-- The objects of the items of an array. -/
def objectsOfItems : List Json → List (List (Text × Json))
  | [] => []
  | item :: items => objects item ++ objectsOfItems items

/-- The objects of the values of fields. -/
def objectsOfFields : List (Text × Json) → List (List (Text × Json))
  | [] => []
  | field :: fields => objects field.2 ++ objectsOfFields fields

end

/-- The keys of every object of a document strictly increase in the order of their bytes. -/
def InByteOrder (doc : Json) : Prop :=
  ∀ fields ∈ doc.objects, fields.Pairwise fun a b => Text.bytes a.1 < Text.bytes b.1

theorem objectsOfFields_eq_flatMap (fields : List (Text × Json)) :
    objectsOfFields fields = fields.flatMap fun field => objects field.2 := by
  induction fields with
  | nil => rfl
  | cons field fields ih => rw [objectsOfFields, ih, List.flatMap_cons]

/-- The entries of a table make an object in order, if their values make documents in order. -/
theorem inByteOrder_object {α : Type} (t : Table α) {write : α → Json}
    (h : ∀ value, (write value).InByteOrder) :
    (object (t.entries.map fun e => (e.1, write e.2))).InByteOrder := by
  intro fields hf
  rw [objects, objectsOfFields_eq_flatMap] at hf
  rcases List.mem_cons.1 hf with rfl | hf
  · rw [List.pairwise_map]
    exact t.increasing.imp Text.bytes_lt_of_blt
  · obtain ⟨field, hfield, hobject⟩ := List.mem_flatMap.1 hf
    obtain ⟨e, -, rfl⟩ := List.mem_map.1 hfield
    exact h e.2 fields hobject

theorem inByteOrder_ofTable (t : Table Text) : (ofTable t).InByteOrder :=
  inByteOrder_object t fun _ _ hf => absurd hf List.not_mem_nil

theorem inByteOrder_ofTables (ts : LocaleTables) : (ofTables ts).InByteOrder :=
  inByteOrder_object ts inByteOrder_ofTable

end Json

theorem Bindings.moduleTail_eq_cons (b : Bindings) (locale : Text) :
    b.moduleTail locale = ';' :: (b.moduleTail locale).tail := by
  unfold moduleTail
  rw [Text.joinWith]
  · rfl
  · nofun

/-- The look-up module is a document with a start that is always the same and an end that the tables
have no part in. -/
theorem Bindings.lookupModule_eq (b : Bindings) (ts : LocaleTables) (locale : Text) :
    b.lookupModule ts locale = "var dictionary = ".toList ++ LocaleTables.prettyJson ts ++
      ';' :: (b.moduleTail locale).tail := by
  unfold lookupModule
  exact congrArg _ (b.moduleTail_eq_cons locale)

/-- The look-up module tells its tables. -/
theorem Bindings.eq_of_lookupModule_eq {b b' : Bindings} {ts ts' : LocaleTables}
    {locale locale' : Text} (h : b.lookupModule ts locale = b'.lookupModule ts' locale') : ts = ts' := by
  rw [lookupModule_eq, lookupModule_eq, List.append_assoc, List.append_assoc] at h
  have hdocs := Json.ReadsBack.unique (Json.readsBack_ofTables 0 ts) (Json.readsBack_ofTables 0 ts')
    (List.append_cancel_left h)
  have htables := Json.tables?_ofTables ts
  rw [hdocs, Json.tables?_ofTables] at htables
  exact (Option.some.inj htables).symm

/-- What is written of tables is a document that reads as these tables, with its keys in order: the
tables of all locales as well as those of one. The look-up module is made of the document between a start
that is always the same and an end that the tables have no part in, so that it tells the tables. -/
theorem persisted_tables_read_back :
    (∀ ts : LocaleTables, ∃ doc, Json.parse? (LocaleTables.prettyJson ts) = some doc ∧
      doc.tables? = some ts ∧ doc.InByteOrder) ∧
    (∀ (d : Dictionary) (locale : Text), ∃ doc, Json.parse? (d.prettyJson locale) = some doc ∧
      doc.stringTable? = some ((d.table? locale).getD Table.empty) ∧ doc.InByteOrder) ∧
    (∃ suffix : Bindings → Text → Text, ∀ (b : Bindings) (ts : LocaleTables) (locale : Text),
      b.lookupModule ts locale =
        "var dictionary = ".toList ++ LocaleTables.prettyJson ts ++ ';' :: suffix b locale) ∧
    ∀ (b b' : Bindings) (ts ts' : LocaleTables) (locale locale' : Text),
      b.lookupModule ts locale = b'.lookupModule ts' locale' → ts = ts' := by
  refine ⟨fun ts => ?_, fun d locale => ?_, ?_, ?_⟩
  · rw [LocaleTables.prettyJson]
    exact ⟨Json.ofTables ts, (Json.readsBack_ofTables 0 ts).parse?, Json.tables?_ofTables ts,
      Json.inByteOrder_ofTables ts⟩
  · rw [Dictionary.prettyJson]
    generalize (d.table? locale).getD Table.empty = t
    exact ⟨Json.ofTable t, (Json.readsBack_ofTable 0 t).parse?, Json.stringTable?_ofTable t,
      Json.inByteOrder_ofTable t⟩
  · exact ⟨fun b locale => (b.moduleTail locale).tail, Bindings.lookupModule_eq⟩
  · exact fun _ _ _ _ _ _ h => Bindings.eq_of_lookupModule_eq h

end Phrasebook
