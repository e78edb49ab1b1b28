import Phrasebook.Proofs.QuotedLiterals
import Phrasebook.Proofs.TemplateTraces

/-!
Attribute strings of markup in a script. A backslash in such a string is a character like any other,
line breaks may stand in it, and character references are left out of its value.

As the argument of a call the string is read by the rules for scripts instead. Main statement: with its
escapes restored it is a literal of the same value exactly when it is plain, that is when it holds no
reference, no backslash, no line break and no quote (`isLiteral_attribute_iff`).

The argument counts. Every escape sequence has a backslash of its own and spells at most one, so a value
with as many backslashes as the text spells nothing but backslashes by its escapes
(`Body.all_backslashes`); such a value is shorter than the text, unless there are none.
-/

namespace Phrasebook

namespace Units

theorem mem_encodeChar_iff {c d : Char} (hd : d.toNat < 0xD800) : d.toNat ∈ encodeChar c ↔ c = d := by
  constructor
  · intro h
    unfold encodeChar at h
    split at h
    · exact Char.toNat_inj.1 (List.mem_singleton.1 h).symm
    · simp only [List.mem_cons, List.not_mem_nil, or_false] at h
      omega
  · rintro rfl
    rw [encodeChar, if_pos (by omega)]
    exact List.mem_singleton_self _

theorem count_encodeChar_backslash (c : Char) : (encodeChar c).count 0x5C = [c].count '\\' := by
  by_cases hc : c = '\\'
  · rw [hc]
    rfl
  · have hmem : 0x5C ∉ encodeChar c := mt (mem_encodeChar_iff (d := '\\') (by decide)).1 hc
    rw [List.count_eq_zero_of_not_mem hmem, List.count_eq_zero_of_not_mem (by simpa using Ne.symm hc)]

/-- A value holds as many backslashes as its code units do. -/
theorem count_decodeLossy_backslash (us : List CodeUnit) :
    (decodeLossy us).count '\\' = us.count 0x5C := by
  have hchar : ∀ u : Nat, (Char.ofNat u == '\\') = (u == 0x5C) := by
    intro u
    rw [Bool.eq_iff_iff, beq_iff_eq, beq_iff_eq]
    refine ⟨fun h => ?_, fun h => h ▸ rfl⟩
    by_cases hu : u.isValidChar
    · rw [Char.ofNat, dif_pos hu] at h
      exact congrArg Char.toNat h
    · rw [Char.ofNat, dif_neg hu] at h
      exact absurd (congrArg Char.toNat h) (by decide)
  have hne : ∀ {u : Nat}, isHigh u = true ∨ isLow u = true → (u == 0x5C) = false := by
    intro u hu
    simp only [isHigh, isLow, Bool.and_eq_true, decide_eq_true_eq] at hu
    simp only [beq_eq_false_iff_ne, ne_eq]
    omega
  have hlost : '\ufffd' ≠ '\\' := by decide
  unfold decodeLossy
  induction us using decode.induct with
  | case1 => rfl
  | case2 u =>
    rw [decode]
    by_cases hu : isHigh u = true ∨ isLow u = true
    · simp [hu, List.count_cons_of_ne hlost, List.count_cons, hne hu]
    · simp [List.count_cons, hu, hchar]
  | case3 u v rest hu hv ih =>
    have hpair := count_encodeChar_backslash (pair u v)
    rw [encodeChar_pair hu hv] at hpair
    rw [decode, if_pos hu, if_pos hv, List.map_cons, Option.getD_some, ← List.singleton_append,
      List.count_append, ih, ← hpair, ← List.count_append, List.cons_append, List.singleton_append]
  | case4 u v rest hu hv ih =>
    rw [decode, if_pos hu, if_neg hv, List.count_cons_of_ne (by simpa using hne (.inl hu)), ← ih,
      List.map_cons, Option.getD_none, List.count_cons_of_ne hlost]
  | case5 u v rest hu ih =>
    rw [decode, if_neg hu]
    by_cases hl : isLow u = true
    · rw [List.count_cons_of_ne (by simpa using hne (.inr hl)), ← ih, if_pos hl, List.map_cons,
        Option.getD_none, List.count_cons_of_ne hlost]
    · rw [List.count_cons, ← ih, if_neg hl, ← hchar u, List.map_cons, Option.getD_some,
        List.count_cons]

end Units

namespace Script

open Grammar

/-! ## Backslashes in literals -/

theorem escapeUnits_cases (w : Text) : escapeUnits w = [0x5C] ∨ 0x5C ∉ escapeUnits w := by
  have hone : ∀ n : Nat, [n] = [0x5C] ∨ 0x5C ∉ [n] := by
    intro n
    by_cases hn : n = 0x5C
    · exact .inl (by rw [hn])
    · exact .inr (by simpa using Ne.symm hn)
  have hchar : ∀ c : Char, Units.encodeChar c = [0x5C] ∨ 0x5C ∉ Units.encodeChar c := by
    intro c
    by_cases hc : c = '\\'
    · exact .inl (by rw [hc]; rfl)
    · exact .inr (mt (Units.mem_encodeChar_iff (d := '\\') (by decide)).1 hc)
  unfold escapeUnits charUnits
  repeat' split
  all_goals first
    | exact hone _
    | exact hchar _
    | exact .inr List.not_mem_nil

/-- An escape sequence has a backslash of its own, so it spells no more of them than stand in it. If it
spells as many, it is the number of the backslash. -/
theorem escapeUnits_backslash {w r : Text} (h : Escaped w r) :
    (escapeUnits w).count 0x5C ≤ ('\\' :: w).count '\\' ∧
      ((escapeUnits w).count 0x5C = ('\\' :: w).count '\\' → escapeUnits w = [0x5C] ∧
        ∀ c ∈ w, c ≠ '&' ∧ c ≠ '\r' ∧ c ≠ '\n') := by
  rw [List.count_cons_self]
  rcases escapeUnits_cases w with hw | hw
  · refine ⟨by rw [hw]; exact Nat.le_add_left 1 _, fun _ => ⟨hw, ?_⟩⟩
    have hhex : ∀ c, Text.isHexDigit c = true → c ≠ '&' ∧ c ≠ '\r' ∧ c ≠ '\n' := by
      intro c hc
      refine ⟨?_, ?_, ?_⟩ <;> rintro rfl <;> exact absurd hc (by decide)
    cases h with
    | unicode hl hd =>
      rw [List.all_eq_true] at hd
      exact List.forall_mem_cons.2 ⟨by decide, fun c hc => hhex c (hd c hc)⟩
    | braced hne hd =>
      rw [List.all_eq_true] at hd
      intro c hc
      simp only [List.mem_cons, List.mem_append, List.not_mem_nil, or_false] at hc
      rcases hc with rfl | rfl | hc | rfl
      · decide
      · decide
      · exact hhex c (hd c hc)
      · decide
    | hex hl hd =>
      rw [List.all_eq_true] at hd
      exact List.forall_mem_cons.2 ⟨by decide, fun c hc => hhex c (hd c hc)⟩
    | octal hne hl hd =>
      rw [List.all_eq_true] at hd
      intro c hc
      have hoctal := hd c hc
      refine ⟨?_, ?_, ?_⟩ <;> rintro rfl <;> exact absurd hoctal (by decide)
    | lineBreak hc hl =>
      have hmark : isLineBreak '?' = false := by decide
      rcases hc with rfl | rfl
      · exact absurd hw (by simp [escapeUnits])
      · exact absurd hw (by simp [escapeUnits, Units.encodeChar, hmark])
    | single =>
      intro c hc
      obtain rfl := List.mem_singleton.1 hc
      refine ⟨?_, ?_, ?_⟩ <;> rintro rfl <;> exact absurd hw (by decide)
  · rw [List.count_eq_zero_of_not_mem hw]
    exact ⟨Nat.zero_le _, fun h => by omega⟩

/-- A body spells no more backslashes than stand in it. If it spells as many, then all of its escape
sequences stand for backslashes, and every other character stands for itself. -/
theorem Body.backslashes {q : Char} {t rest : Text} {us : List Units.CodeUnit} (h : Body q t us rest) :
    ∃ x, t = x ++ rest ∧ us.count 0x5C ≤ x.count '\\' ∧
      (us.count 0x5C = x.count '\\' → ∃ y, us = Units.encode y ∧
        y.length + x.count '\\' ≤ x.length ∧ y.count '&' = x.count '&' ∧ '\r' ∉ y ∧ '\n' ∉ y) ∧
      ('\\' ∉ x → ∀ c ∈ x, isFragmentChar q c = true) := by
  induction h with
  | stop => exact ⟨[], rfl, Nat.le_refl _, fun _ => ⟨[], rfl, by simp⟩, by simp⟩
  | @char c t rest us hc h ih =>
    obtain ⟨x, rfl, hle, heq, hplain⟩ := ih
    obtain ⟨-, hne⟩ : c ≠ q ∧ c ≠ '\\' ∧ c ≠ '\r' ∧ c ≠ '\n' := by
      simpa [isFragmentChar, and_assoc] using hc
    have hcount : (Units.encodeChar c).count 0x5C = 0 := by
      rw [Units.count_encodeChar_backslash, List.count_eq_zero_of_not_mem (by simpa using hne.1.symm)]
    refine ⟨c :: x, rfl, ?_, ?_, ?_⟩
    · rw [List.count_append, hcount, List.count_cons_of_ne hne.1]
      omega
    · intro h
      rw [List.count_append, hcount, List.count_cons_of_ne hne.1, Nat.zero_add] at h
      obtain ⟨y, rfl, hlength, hamp, hcr, hlf⟩ := heq h
      refine ⟨c :: y, rfl, ?_, ?_, ?_, ?_⟩
      · rw [List.count_cons_of_ne hne.1, List.length_cons, List.length_cons]
        omega
      · rw [List.count_cons, List.count_cons, hamp]
      · simpa [hcr] using Ne.symm hne.2.1
      · simpa [hlf] using Ne.symm hne.2.2
    · intro h
      exact List.forall_mem_cons.2 ⟨hc, hplain fun hx => h (List.mem_cons_of_mem c hx)⟩
  | @escape w t rest us hw h ih =>
    obtain ⟨x, rfl, hle, heq, -⟩ := ih
    obtain ⟨hwle, hweq⟩ := escapeUnits_backslash hw
    refine ⟨'\\' :: (w ++ x), by simp, ?_, ?_, ?_⟩
    · rw [List.count_append, ← List.cons_append, List.count_append]
      omega
    · intro h
      rw [List.count_append, ← List.cons_append, List.count_append] at h
      obtain ⟨hunits, hchars⟩ := hweq (by omega)
      obtain ⟨y, rfl, hlength, hamp, hcr, hlf⟩ := heq (by omega)
      have hpos := List.length_pos_iff.2 hw.ne_nil
      refine ⟨'\\' :: y, by rw [hunits]; rfl, ?_, ?_, ?_, ?_⟩
      · rw [hunits, List.count_singleton_self] at hwle h
        rw [← List.cons_append, List.count_append, List.length_append, List.length_cons,
          List.length_cons]
        omega
      · have hamps : w.count '&' = 0 :=
          List.count_eq_zero_of_not_mem fun hmem => (hchars '&' hmem).1 rfl
        rw [List.count_cons_of_ne (by decide), List.count_cons_of_ne (by decide), List.count_append,
          hamps, hamp, Nat.zero_add]
      · simpa using hcr
      · simpa using hlf
    · intro h
      exact absurd (List.mem_cons_self ..) h

/-! ## Parts of an attribute string -/

/-- Characters other than those that matter here. -/
def isUnmarked (c : Char) : Bool := c != '&' && c != '\\' && c != '\r' && c != '\n'

/-- A part of an attribute string: plain text, or a reference. -/
def IsAttributePart (c : Tree) : Prop :=
  (∃ text, c = .leaf .part .fragment [] text) ∨
    ∃ name, c = .leaf .part .reference [] ('&' :: name) ∧ ∀ d ∈ name, isUnmarked d = true

theorem isUnmarked_of {p : Char → Bool} (hp : (p '&' || p '\\' || p '\r' || p '\n') = false) {d : Char}
    (hd : p d = true) : isUnmarked d = true := by
  simp only [Bool.or_eq_false_iff] at hp
  obtain ⟨⟨⟨hamp, hback⟩, hcr⟩, hlf⟩ := hp
  simp only [isUnmarked, Bool.and_eq_true, bne_iff_ne]
  refine ⟨⟨⟨?_, ?_⟩, ?_⟩, ?_⟩ <;> rintro rfl <;> simp_all

/-- A run of characters with a semicolon behind it. -/
theorem of_startsWith_semicolon {p : Char → Bool}
    (hp : (p '&' || p '\\' || p '\r' || p '\n') = false) {t : Text}
    (h : Text.startsWith (t.drop (runLength p t)) [';'] = true) :
    ∃ run r, t = run ++ r ∧ run.length = runLength p t + 1 ∧ ∀ d ∈ run, isUnmarked d = true := by
  rw [drop_runLength] at h
  obtain ⟨r, hr⟩ := startsWith_singleton_iff.1 h
  refine ⟨t.takeWhile p ++ [';'], r, ?_, by rw [List.length_append]; rfl, ?_⟩
  · rw [List.append_assoc, List.singleton_append, ← hr, List.takeWhile_append_dropWhile]
  · intro d hd
    rcases List.mem_append.1 hd with hd | hd
    · exact isUnmarked_of hp (List.all_eq_true.1 List.all_takeWhile d hd)
    · rw [List.mem_singleton.1 hd]
      decide

theorem of_characterReference {t : Text} {n : Nat} (h : characterReference t = some n) :
    ∃ name r, t = '&' :: (name ++ r) ∧ n = name.length + 1 ∧ ∀ d ∈ name, isUnmarked d = true := by
  unfold characterReference at h
  split at h
  · next t =>
    by_cases hx : Text.startsWith t ['x'] || Text.startsWith t ['X']
    · rw [if_pos hx] at h
      obtain ⟨x, u, rfl, hxu⟩ : ∃ x u, t = x :: u ∧ isUnmarked x = true := by
        rw [Bool.or_eq_true, startsWith_singleton_iff, startsWith_singleton_iff] at hx
        rcases hx with ⟨u, rfl⟩ | ⟨u, rfl⟩
        · exact ⟨'x', u, rfl, by decide⟩
        · exact ⟨'X', u, rfl, by decide⟩
      dsimp only at h
      split at h
      · next hc =>
        simp only [Bool.and_eq_true, Nat.add_comm 1, List.drop_succ_cons, List.drop_zero] at hc
        obtain ⟨run, r, rfl, hlength, hrun⟩ := of_startsWith_semicolon (by decide) hc.2
        refine ⟨'#' :: x :: run, r, rfl, ?_, ?_⟩
        · obtain rfl := Option.some.inj h
          simp only [List.drop_succ_cons, List.drop_zero, List.length_cons]
          omega
        · exact List.forall_mem_cons.2 ⟨by decide, List.forall_mem_cons.2 ⟨hxu, hrun⟩⟩
      · cases h
    · rw [if_neg hx] at h
      dsimp only at h
      split at h
      · next hc =>
        simp only [Bool.and_eq_true, Nat.zero_add, List.drop_zero] at hc
        obtain ⟨run, r, rfl, hlength, hrun⟩ := of_startsWith_semicolon (by decide) hc.2
        refine ⟨'#' :: run, r, rfl, ?_, List.forall_mem_cons.2 ⟨by decide, hrun⟩⟩
        obtain rfl := Option.some.inj h
        simp only [List.drop_zero, List.length_cons]
        omega
      · cases h
  · next t _ =>
    dsimp only at h
    split at h
    · next hc =>
      simp only [Bool.and_eq_true] at hc
      obtain ⟨run, r, rfl, hlength, hrun⟩ := of_startsWith_semicolon (by decide) hc.2
      refine ⟨run, r, rfl, ?_, hrun⟩
      obtain rfl := Option.some.inj h
      omega
    · cases h
  · cases h

/-- The form of one part of an attribute string. -/
def attributePart (q : Char) : Form Rule :=
  .either (.joined .fragment (attributeFragment q)) (.joined .reference characterReference)

/-- One part is read, if there is one. -/
theorem run_attributePart_cases (call : Rule → Progress → Option Progress) (q : Char) (p : Progress) :
    ((attributePart q).run call p = none ∧ attributeRun q p.rest = 0) ∨
      ∃ part rest, (attributePart q).run call p = some ⟨part :: p.done, rest⟩ ∧ IsAttributePart part ∧
        p.rest = part.source ++ rest ∧ rest.length < p.rest.length := by
  by_cases hn : attributeRun q p.rest = 0
  · have hfragment : attributeFragment q p.rest = none := by
      show positive (attributeRun q p.rest) = none
      rw [hn, positive, if_pos rfl]
    cases he : characterReference p.rest with
    | none =>
      refine .inl ⟨?_, hn⟩
      simp [attributePart, Form.run, Form.readToken, hfragment, he]
    | some n =>
      obtain ⟨name, r, hr, rfl, hname⟩ := of_characterReference he
      have htake : p.rest.take (name.length + 1) = '&' :: name := by
        rw [hr, List.take_succ_cons, List.take_left]
      have hdrop : p.rest.drop (name.length + 1) = r := by
        rw [hr, List.drop_succ_cons, List.drop_left]
      refine .inr ⟨.leaf .part .reference [] ('&' :: name), r, ?_, .inr ⟨name, rfl, hname⟩, ?_, ?_⟩
      · simp [attributePart, Form.run, Form.readToken, hfragment, he, htake, hdrop]
      · rw [hr]
        rfl
      · rw [hr, List.length_cons, List.length_append]
        omega
  · have hfragment : attributeFragment q p.rest = some (attributeRun q p.rest) := by
      show positive (attributeRun q p.rest) = _
      rw [positive, if_neg hn]
    refine .inr ⟨.leaf .part .fragment [] (p.rest.take (attributeRun q p.rest)),
      p.rest.drop (attributeRun q p.rest), ?_, .inl ⟨_, rfl⟩, ?_, ?_⟩
    · simp [attributePart, Form.run, Form.readToken, hfragment]
    · exact (List.take_append_drop ..).symm
    · have hne : p.rest ≠ [] := by
        intro h
        rw [h] at hn
        exact hn rfl
      have hpos := List.length_pos_iff.2 hne
      rw [List.length_drop]
      omega

/-- The parts that are read, up to what is no part. -/
theorem exists_attributeParts (call : Rule → Progress → Option Progress) (q : Char) (p : Progress) :
    ∃ (parts : List Tree) (rest : Text),
      Form.repeatStep ((attributePart q).run call) p.rest.length p =
        ⟨parts.reverse ++ p.done, rest⟩ ∧
      (∀ c ∈ parts, IsAttributePart c) ∧ p.rest = Tree.sourceAll parts ++ rest ∧
      attributeRun q rest = 0 := by
  refine repeatStep_parts (R := fun t parts rest => (∀ c ∈ parts, IsAttributePart c) ∧
    t = Tree.sourceAll parts ++ rest ∧ attributeRun q rest = 0) ?_ ?_ _ p (Nat.le_refl _)
  · exact ⟨fun c hc => absurd hc List.not_mem_nil, rfl, rfl⟩
  · intro p
    rcases run_attributePart_cases call q p with ⟨hnone, hrun⟩ | ⟨part, rest, hsome, hpart, hs, hlt⟩
    · exact .inl ⟨hnone, fun c hc => absurd hc List.not_mem_nil, rfl, hrun⟩
    · refine .inr ⟨part, rest, hsome, hlt, ?_⟩
      rintro parts after ⟨hparts, hsource, hend⟩
      refine ⟨List.forall_mem_cons.2 ⟨hpart, hparts⟩, ?_, hend⟩
      rw [hs, hsource, Tree.sourceAll, List.append_assoc]

/-- Where the parts end there is no gap before the quote. -/
theorem readGap_of_attributeRun {q : Char} (hq : IsQuote q) {t r : Text} {gap : Gap}
    (h : attributeRun q t = 0) (hgap : readGap false t = (gap, q :: r)) : gap = [] := by
  -- the parts end at a quote, at the end of the text, or at an `&` that opens no reference
  have hsame : readGap false t = ([], t) := by
    cases t with
    | nil => rfl
    | cons c t =>
      by_cases hamp : c = '&'
      · rw [hamp]
        rfl
      · have hc : c = q := by
          by_contra hne
          unfold attributeRun at h
          split at h <;> simp_all
        rw [hc, readGap_quote hq]
  rw [hsame] at hgap
  exact (Prod.mk.inj hgap).1.symm

/-- What is read as an attribute string in quotes `q`. -/
theorem of_run_quotedAttribute {call : Rule → Progress → Option Progress} {q : Char}
    (hq : IsQuote q) {s p : Progress} (h : (quotedAttribute q).run call s = some p) :
    ∃ (gap : Gap) (parts : List Tree), p.done = .leaf .part .mark [] [q] ::
        (parts.reverse ++ .leaf .part .mark gap [q] :: s.done) ∧
      ∀ c ∈ parts, IsAttributePart c := by
  obtain ⟨m, hm, h⟩ := Option.bind_eq_some_iff.1 h
  obtain ⟨m', hm', h⟩ := Option.bind_eq_some_iff.1 h
  obtain ⟨gap, hdone, -⟩ := of_run_quote hq hm
  obtain ⟨parts, rest, hparts, hall, -, hend⟩ := exists_attributeParts call q m
  have hmany : Form.repeatStep ((attributePart q).run call) m.rest.length m = m' :=
    Option.some.inj hm'
  rw [hmany] at hparts
  subst hparts
  obtain ⟨gap', hdone', hgap'⟩ := of_run_quote hq h
  obtain rfl := readGap_of_attributeRun hq hend hgap'
  exact ⟨gap, parts, by rw [hdone', hdone], hall⟩

/-- What the value of an attribute string leaves of its text: everything but the references. -/
theorem exists_attributeValue {parts : List Tree} (h : ∀ c ∈ parts, IsAttributePart c) :
    ∃ value, parts.flatMap partUnits = Units.encode value ∧
      (∀ c, c = '\\' ∨ c = '\r' ∨ c = '\n' → value.count c = (Tree.sourceAll parts).count c) ∧
      value.count '&' ≤ (Tree.sourceAll parts).count '&' ∧
      (value.count '&' = (Tree.sourceAll parts).count '&' → ∀ c ∈ parts, c.kind ≠ .reference) ∧
      ((∀ c ∈ parts, c.kind ≠ .reference) → value = Tree.sourceAll parts) := by
  induction parts with
  | nil => exact ⟨[], rfl, fun _ _ => rfl, Nat.le_refl _, by simp, fun _ => rfl⟩
  | cons c parts ih =>
    obtain ⟨value, hunits, hmarks, hle, heq, hself⟩ := ih fun d hd => h d (List.mem_cons_of_mem c hd)
    rcases h c (List.mem_cons_self ..) with ⟨text, rfl⟩ | ⟨name, rfl, hname⟩
    · have hsource : Tree.sourceAll (Tree.leaf .part .fragment [] text :: parts) =
          text ++ Tree.sourceAll parts := rfl
      rw [hsource]
      refine ⟨text ++ value, ?_, ?_, ?_, ?_, ?_⟩
      · rw [List.flatMap_cons, hunits, Units.encode_append]
        rfl
      · intro d hd
        rw [List.count_append, List.count_append, hmarks d hd]
      · rw [List.count_append, List.count_append]
        omega
      · intro hcount
        rw [List.count_append, List.count_append] at hcount
        exact List.forall_mem_cons.2 ⟨by simp [Tree.kind], heq (by omega)⟩
      · intro hnone
        rw [hself fun d hd => hnone d (List.mem_cons_of_mem _ hd)]
    · have hsource : Tree.sourceAll (Tree.leaf .part .reference [] ('&' :: name) :: parts) =
          '&' :: (name ++ Tree.sourceAll parts) := rfl
      have hzero : ∀ d, isUnmarked d = false → name.count d = 0 := by
        intro d hd
        refine List.count_eq_zero_of_not_mem fun hmem => ?_
        rw [hname d hmem] at hd
        cases hd
      rw [hsource]
      refine ⟨value, hunits, ?_, ?_, ?_, ?_⟩
      · intro d hd
        have hd' : isUnmarked d = false ∧ '&' ≠ d := by
          rcases hd with rfl | rfl | rfl <;> decide
        rw [List.count_cons_of_ne hd'.2, List.count_append, hzero d hd'.1, Nat.zero_add, hmarks d hd]
      · rw [List.count_cons_self, List.count_append]
        omega
      · intro hcount
        rw [List.count_cons_self, List.count_append] at hcount
        omega
      · intro hnone
        exact absurd rfl (hnone _ (List.mem_cons_self ..))

/-! ## Attribute strings as literals of a script -/

theorem normalizeEscapes_quotes {q : Char} (hq : IsQuote q) (x : Text) :
    Text.normalizeEscapes (q :: (x ++ [q])) = q :: (Text.normalizeEscapes x ++ [q]) := by
  have hbarrier := fun s t => Escape.normalized_barrier hq.ne_backslash hq.not_isInner false s t
  have hclose : Escape.normalized false (x ++ [q]) = Escape.normalized false x ++ [q] := hbarrier x []
  show Escape.normalized false _ = q :: (Escape.normalized false x ++ [q])
  rw [← hclose]
  exact hbarrier [] (x ++ [q])

theorem Body.rest_head {q : Char} {t rest : Text} {us : List Units.CodeUnit} (h : Body q t us rest) :
    ∀ c ∈ rest.head?, isFragmentChar q c = false := by
  induction h with
  | stop hf he => exact hf
  | char hc h ih => exact ih
  | escape hw h ih => exact ih

theorem Gaps.head_ne_quote {q c : Char} (hq : IsQuote q) {g : Text} (h : Gaps q (c :: g)) : c ≠ q := by
  generalize ht : c :: g = t at h
  cases h with
  | nil => cases ht
  | cons hd hp hg =>
    cases hp with
    | blank hne hblank hend =>
      obtain ⟨d, p, rfl⟩ := List.exists_cons_of_ne_nil hne
      obtain ⟨rfl, -⟩ := List.cons.inj ht
      have hc := hblank c (List.mem_cons_self ..)
      rintro rfl
      rcases hq with rfl | rfl <;> exact absurd hc (by decide)
    | line | block =>
      obtain ⟨rfl, -⟩ := List.cons.inj ht
      rcases hq with rfl | rfl <;> decide

/-- Without a line break there is no gap behind a body. -/
theorem Gaps.eq_nil {q : Char} (hq : IsQuote q) {g : Text} (h : Gaps q g)
    (hhead : ∀ c ∈ (g ++ [q]).head?, isFragmentChar q c = false) (hcr : '\r' ∉ g) (hlf : '\n' ∉ g) :
    g = [] := by
  cases g with
  | nil => rfl
  | cons c g =>
    have hc := hhead c rfl
    have hquote := h.head_ne_quote hq
    have hslash := (h.head hq (d := c) rfl).1
    obtain ⟨hr, -⟩ := not_or.1 (mt List.mem_cons.2 hcr)
    obtain ⟨hn, -⟩ := not_or.1 (mt List.mem_cons.2 hlf)
    simp [isFragmentChar, hquote, hslash, Ne.symm hr, Ne.symm hn] at hc

theorem of_run_either {f : Char → Form Rule} {call : Rule → Progress → Option Progress}
    {s p : Progress} (h : (Form.either (f '"') (f '\'')).run call s = some p) :
    ∃ q, IsQuote q ∧ (f q).run call s = some p := by
  simp only [Form.run] at h
  split at h
  · next hm => exact ⟨'"', .inl rfl, h ▸ hm⟩
  · exact ⟨'\'', .inr rfl, h⟩

/-- A text in quotes that is one literal, with the body that is read. -/
theorem body_of_isLiteral {q : Char} (hq : IsQuote q) {x value : Text}
    (h : IsLiteral (q :: (x ++ [q])) value) :
    ∃ us g, Body q (x ++ [q]) us (g ++ [q]) ∧ Gaps q g ∧ Units.decodeLossy us = value := by
  obtain ⟨literal, hrun, hvalue⟩ := h (fun _ _ => none) [] []
  obtain ⟨p, hp, hprogress⟩ := Option.map_eq_some_iff.1 hrun
  obtain ⟨hdone, hend⟩ := Progress.mk.inj hprogress
  obtain ⟨rfl, -⟩ := List.cons.inj hdone
  obtain ⟨q', hq', hquoted⟩ := of_run_either hp
  obtain ⟨gap, parts, gap', hparts, hgap, -, hgaps, hbody⟩ := of_run_quoted hq' hquoted
  rw [List.append_nil, readGap_quote hq, hend] at hgap
  obtain ⟨rfl, htext⟩ := Prod.mk.inj hgap
  obtain ⟨rfl, hx⟩ := List.cons.inj htext
  refine ⟨parts.flatMap partUnits, gapText gap', ?_, hgaps, ?_⟩
  · rw [hx, ← hend]
    exact hbody
  · rw [← hvalue, hparts]
    simp [literalValue_of_parts]

/-- An attribute string, with its escapes restored, is a literal of its value exactly when it is plain:
it holds no reference, and no character that cannot stand for itself in a script. -/
theorem isLiteral_attribute_iff {q : Char} (hq : IsQuote q) {parts : List Tree}
    (h : ∀ c ∈ parts, IsAttributePart c) :
    IsLiteral (Text.normalizeEscapes (q :: (Tree.sourceAll parts ++ [q])))
        (Units.decodeLossy (parts.flatMap partUnits)) ↔
      (∀ c ∈ parts, c.kind ≠ .reference) ∧
        ∀ d ∈ Tree.sourceAll parts, isFragmentChar q d = true := by
  obtain ⟨value, hunits, hmarks, -, hamp, hself⟩ := exists_attributeValue h
  generalize Tree.sourceAll parts = x at *
  rw [hunits, Units.decodeLossy_encode]
  constructor
  · intro hliteral
    rw [normalizeEscapes_quotes hq] at hliteral
    obtain ⟨us, g, hbody, hgaps, hvalue⟩ := body_of_isLiteral hq hliteral
    have hrestores := restores_normalizeEscapes x
    have hcount : (Text.normalizeEscapes x).count '\\' ≤ x.count '\\' :=
      Escape.count_normalized_le (by decide) false x
    obtain ⟨y, hy, hle, heq, hplain⟩ := hbody.backslashes
    have hy : Text.normalizeEscapes x = y ++ g := by
      rw [← List.append_assoc] at hy
      exact List.append_cancel_right hy
    -- the literal spells as many backslashes as stand in it, so all its escapes are backslashes
    have hback : us.count 0x5C = x.count '\\' := by
      rw [← Units.count_decodeLossy_backslash, hvalue, hmarks _ (.inl rfl)]
    rw [hy, List.count_append] at hcount
    obtain ⟨v, rfl, hlength, hamps, hcr, hlf⟩ := heq (by omega)
    rw [Units.decodeLossy_encode] at hvalue
    subst hvalue
    -- so neither it nor the string holds a line break, and there is no gap before the quote
    have hbreaks : ∀ c, c = '\r' ∨ c = '\n' → c ∉ y ++ g := by
      intro c hc
      have hx : c ∉ x := by
        rw [← List.count_eq_zero, ← hmarks c (.inr hc), List.count_eq_zero]
        rcases hc with rfl | rfl
        · exact hcr
        · exact hlf
      rw [← hy, hrestores.mem_iff]
      · exact hx
      all_goals rcases hc with rfl | rfl <;> decide
    obtain rfl : g = [] := hgaps.eq_nil hq hbody.rest_head
      (fun hmem => hbreaks '\r' (.inl rfl) (List.mem_append_right y hmem))
      (fun hmem => hbreaks '\n' (.inr rfl) (List.mem_append_right y hmem))
    rw [List.append_nil] at hy
    -- no reference is missing from the value
    have hall := hamp (by
      rw [hamps, ← hy, hrestores.count_eq '&' (by decide) (by decide) (by decide)])
    refine ⟨hall, ?_⟩
    obtain rfl := hself hall
    -- a backslash would make the literal longer than the string
    have hshort := hrestores.sameOrShorter.length_le
    rw [hy] at hshort
    have hnone : '\\' ∉ v := by
      rw [← List.count_eq_zero]
      omega
    have hsame : Text.normalizeEscapes v = v := by
      have hcopied := Escape.normalized_append_of_forall_ne
        (fun c hc => fun h : c = '\\' => hnone (h ▸ hc)) []
      rw [List.append_nil] at hcopied
      exact hcopied.trans (List.append_nil v)
    rw [← hsame, hy]
    rw [hsame] at hy
    exact hplain (hy ▸ hnone)
  · rintro ⟨hnone, hall⟩
    obtain rfl := hself hnone
    have hstop : Body q [q] [] [q] := by
      refine .stop (fun c hc => ?_) (by rcases hq with rfl | rfl <;> rfl)
      obtain rfl : q = c := by simpa using hc
      simp [isFragmentChar]
    have hliteral := isLiteral_normalized hq (g := []) (hstop.append hall) .nil
    rwa [List.append_nil, Units.decodeLossy_encode] at hliteral

end Script

end Phrasebook
