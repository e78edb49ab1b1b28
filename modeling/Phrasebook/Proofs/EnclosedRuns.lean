import Phrasebook.Proofs.TemplateTexts

/-!
Runs of Han characters between double braces.

Whether such a run is code or literal text depends on the braces around it only: it is localized with
the code of an interpolation when it stands between a `{{` and a `}}` with no closing brace on the way,
and in every other case it becomes an interpolation of its own (`localizeText_of_hanRun`). So the braces
of an object in the code of an interpolation are enough to make its strings literal text.
-/

namespace Phrasebook.Template

/-- A run of Han characters with what stands before and behind it, where it cannot be made longer. -/
structure HanRun (before run after : Text) : Prop where
  nonempty : run ≠ []
  isHan : ∀ c ∈ run, isHan c = true
  before : before.getLast?.any Phrasebook.isHan = false
  after : after.head?.any Phrasebook.isHan = false

/-- A run stands behind a `{{` whose next `}}` stands behind the run. -/
def Enclosed (before run after : Text) : Prop :=
  ∃ a u v c, before = a ++ '{' :: '{' :: u ∧ after = v ++ '}' :: '}' :: c ∧
    Text.contains (u ++ run ++ v ++ ['}']) ['}', '}'] = false

/-- There is no closing brace between the run and the braces around it. -/
def BracesClear (before after : Text) : Prop :=
  ∃ a u v c, before = a ++ '{' :: '{' :: u ∧ after = v ++ '}' :: '}' :: c ∧ '}' ∉ u ∧ '}' ∉ v

theorem HanRun.not_mem {before run after : Text} (h : HanRun before run after) {c : Char}
    (hc : Phrasebook.isHan c = false) : c ∉ run := by
  intro hm
  rw [h.isHan c hm] at hc
  cases hc

/-- A text is cut at its first `c` in one way only. -/
theorem eq_and_eq_of_append_cons {c : Char} {s s' t t' : Text} (hs : c ∉ s) (hs' : c ∉ s')
    (h : s ++ c :: t = s' ++ c :: t') : s = s' ∧ t = t' := by
  rcases List.append_eq_append_iff.1 h with ⟨a, hs'', ht⟩ | ⟨a, hs'', ht⟩
  · cases a with
    | nil => exact ⟨by simpa using hs''.symm, (List.cons.inj ht).2⟩
    | cons d a =>
      obtain rfl : c = d := (List.cons.inj ht).1
      exact absurd (by simp [hs'']) hs'
  · cases a with
    | nil => exact ⟨by simpa using hs'', (List.cons.inj ht).2.symm⟩
    | cons d a =>
      obtain rfl : c = d := (List.cons.inj ht).1
      exact absurd (by simp [hs'']) hs

theorem interpolation?_append {s inner rest : Text} (h : interpolation? s = some (inner, rest))
    (t : Text) : interpolation? (s ++ t) = some (inner, rest ++ t) := by
  obtain ⟨hb, rfl⟩ := interpolation?_eq_some_iff.1 h
  exact interpolation?_eq_some_iff.2 ⟨hb, List.append_assoc ..⟩

theorem interpolation?_eq_none_of_append {s t : Text} (h : interpolation? (s ++ t) = none) :
    interpolation? s = none := by
  rw [Option.eq_none_iff_forall_ne_some]
  rintro ⟨inner, rest⟩ hs
  rw [interpolation?_append hs] at h
  cases h

/-- An interpolation that starts in `s` and ends behind it has no closing brace in `s`, unless its
closing braces are cut. -/
theorem not_mem_of_cut {s t inner rest : Text} (hs : interpolation? s = none)
    (ht : t.head? ≠ some '}') (h : interpolation? (s ++ t) = some (inner, rest)) : '}' ∉ s := by
  intro hm
  obtain ⟨hb, he⟩ := interpolation?_eq_some_iff.1 h
  obtain ⟨p, q, rfl, hp⟩ := List.eq_append_cons_of_mem hm
  have he' : p ++ '}' :: (q ++ t) = ('{' :: '{' :: inner) ++ '}' :: '}' :: rest := by
    simpa [braced] using he
  obtain ⟨rfl, hq⟩ := eq_and_eq_of_append_cons hp (by simpa using hb) he'
  cases q with
  | nil =>
    rw [List.nil_append] at hq
    rw [hq] at ht
    exact ht rfl
  | cons e q =>
    obtain rfl : e = '}' := (List.cons.inj hq).1
    have hfound : interpolation? ('{' :: '{' :: inner ++ '}' :: '}' :: q) = some (inner, q) :=
      interpolation?_eq_some_iff.2 ⟨hb, by simp [braced]⟩
    rw [hfound] at hs
    cases hs

/-- What an interpolation holds when the first closing brace of the text is known. -/
theorem eq_of_interpolation? {s t inner rest : Text} (hs : '}' ∉ s)
    (h : interpolation? (s ++ '}' :: t) = some (inner, rest)) :
    s = '{' :: '{' :: inner ∧ t = '}' :: rest := by
  obtain ⟨hb, he⟩ := interpolation?_eq_some_iff.1 h
  have he' : s ++ '}' :: t = ('{' :: '{' :: inner) ++ '}' :: '}' :: rest := by
    simpa [braced] using he
  exact eq_and_eq_of_append_cons hs (by simpa using hb) he'

/-! ## Literal text -/

/-- No interpolation starts in `s` and ends in `t`. -/
def CutsNone (s t : Text) : Prop :=
  ∀ a x, s = a ++ x → x ≠ [] → interpolation? x = none → interpolation? (x ++ t) = none

theorem CutsNone.suffix {s t a : Text} (h : CutsNone (a ++ s) t) : CutsNone s t := by
  intro a' x hs
  exact h (a ++ a') x (by rw [hs, List.append_assoc])

theorem getLast?_any_append {p : Char → Bool} {a s : Text} (h : (a ++ s).getLast?.any p = false) :
    s.getLast?.any p = false := by
  cases s with
  | nil => rfl
  | cons c s =>
    rw [List.getLast?_append, List.getLast?_cons, Option.some_or] at h
    rw [List.getLast?_cons]
    exact h

/-- A text is localized in two parts when no interpolation and no run of Han characters is cut. -/
theorem localizeText_append (b : Bindings) {s t : Text} (hc : CutsNone s t)
    (hs : s.getLast?.any isHan = false) :
    localizeText b (s ++ t) = localizeText b s ++ localizeText b t := by
  induction s using text_induction with
  | nil => exact (Localized.plain_nil_append _).symm
  | code inner s hb ih =>
    rw [List.append_assoc, localizeText_code b hb, localizeText_code b hb,
      ih hc.suffix (getLast?_any_append hs), Localized.append_assoc]
  | char c s hh hi ih =>
    have hit : interpolation? (c :: (s ++ t)) = none := hc [] (c :: s) rfl (by simp) hi
    rw [List.cons_append, localizeText_char b hh hit, localizeText_char b hh hi,
      ih (hc.suffix (a := [c])) (getLast?_any_append (a := [c]) hs), Localized.append_assoc]
  | run w s hne hw hh ih =>
    have hnext : (s ++ t).head?.any isHan = false := by
      cases s with
      | nil =>
        obtain ⟨d, hd⟩ := Option.isSome_iff_exists.1 (List.getLast?_isSome.2 hne)
        have hmem := hw d (List.mem_of_getLast? hd)
        rw [List.append_nil, hd] at hs
        rw [Option.any_some, hmem] at hs
        cases hs
      | cons d s => exact hh
    rw [List.append_assoc, localizeText_run b hne hw hnext, localizeText_run b hne hw hh,
      ih hc.suffix (getLast?_any_append hs), Localized.append_assoc]

/-- An interpolation that cuts into a run of Han characters goes on to the end of the run. -/
theorem cutsNone_of_hanRun {before run after : Text} (h : HanRun before run after)
    (hn : ¬ BracesClear before after) : CutsNone before (run ++ after) := by
  intro a x hx hne hnone
  rw [Option.eq_none_iff_forall_ne_some]
  rintro ⟨inner, rest⟩ hi
  obtain ⟨d, run', hrun⟩ := List.exists_cons_of_ne_nil h.nonempty
  have hd : isHan d = true := h.isHan d (by simp [hrun])
  have hhead : (run ++ after).head? ≠ some '}' := by
    rw [hrun]
    rintro ⟨⟩
    exact absurd hd (by decide)
  have hxb : '}' ∉ x := not_mem_of_cut hnone hhead hi
  have hafter : '}' ∈ after := by
    have hm : '}' ∈ x ++ (run ++ after) := by
      rw [(interpolation?_eq_some_iff.1 hi).2]
      simp [braced]
    rw [List.mem_append, List.mem_append] at hm
    exact (hm.resolve_left hxb).resolve_left (h.not_mem (by decide))
  obtain ⟨v, c, rfl, hv⟩ := List.eq_append_cons_of_mem hafter
  have hclear : '}' ∉ x ++ run ++ v := by
    rw [List.mem_append, List.mem_append, not_or, not_or]
    exact ⟨⟨hxb, h.not_mem (by decide)⟩, hv⟩
  have hi' : interpolation? (x ++ run ++ v ++ '}' :: c) = some (inner, rest) := by
    rw [← hi]
    simp only [List.append_assoc]
  obtain ⟨hstart, rfl⟩ := eq_of_interpolation? hclear hi'
  -- a Han character follows `x`, so both opening braces stand in it
  obtain ⟨u, rfl⟩ : ∃ u, x = '{' :: '{' :: u := by
    rw [hrun] at hstart
    obtain ⟨e, x', rfl⟩ := List.exists_cons_of_ne_nil hne
    cases x' with
    | nil =>
      rw [(List.cons.inj (List.cons.inj hstart).2).1] at hd
      exact absurd hd (by decide)
    | cons e' u =>
      exact ⟨u, by rw [(List.cons.inj hstart).1, (List.cons.inj (List.cons.inj hstart).2).1]⟩
  exact hn ⟨a, u, v, rest, hx, rfl, by simpa using hxb, hv⟩

/-! ## Code -/

/-- An interpolation with clear braces is found, possibly as the end of one that starts earlier. -/
theorem localizeText_braced (b : Bindings) {inner : Text} (hb : '}' ∉ inner) (c a : Text) :
    ∃ a' w, a ++ ['{', '{'] = a' ++ '{' :: '{' :: w ∧ '}' ∉ w ∧
      localizeText b (a ++ (braced inner ++ c)) =
        localizeText b a' ++ localizeSpan b (.code (w ++ inner)) ++ localizeText b c := by
  have hopen : ∀ x : Text, x ++ (braced inner ++ c) =
      x ++ ['{', '{'] ++ inner ++ '}' :: '}' :: c := by
    intro x
    simp [braced]
  induction a using text_induction with
  | nil =>
    refine ⟨[], [], rfl, List.not_mem_nil, ?_⟩
    rw [List.nil_append, localizeText_code b hb]
    exact congrArg (· ++ _) (Localized.plain_nil_append _).symm
  | code other a ho ih =>
    obtain ⟨a', w, ha, hw, h⟩ := ih
    refine ⟨braced other ++ a', w, by rw [List.append_assoc, ha, List.append_assoc], hw, ?_⟩
    rw [List.append_assoc, localizeText_code b ho, h, localizeText_code b ho]
    simp only [Localized.append_assoc]
  | char d a hd hi ih =>
    cases hit : interpolation? (d :: a ++ (braced inner ++ c)) with
    | none =>
      obtain ⟨a', w, ha, hw, h⟩ := ih
      have hi' : interpolation? (d :: a') = none := by
        refine interpolation?_eq_none_of_append
          (t := '{' :: '{' :: w ++ inner ++ '}' :: '}' :: c) ?_
        rw [← hit, hopen]
        simp only [List.cons_append, ha, List.append_assoc]
      refine ⟨d :: a', w, by rw [List.cons_append, ha, List.cons_append], hw, ?_⟩
      rw [List.cons_append] at hit
      rw [List.cons_append, localizeText_char b hd hit, h, localizeText_char b hd hi']
      simp only [Localized.append_assoc]
    | some p =>
      obtain ⟨found, rest⟩ := p
      have hclear : '}' ∉ d :: a ++ ['{', '{'] ++ inner := by
        rw [List.mem_append, List.mem_append, not_or, not_or]
        exact ⟨⟨not_mem_of_cut hi (by simp [braced]) hit, by simp⟩, hb⟩
      rw [hopen] at hit
      obtain ⟨hfound, hrest⟩ := eq_of_interpolation? hclear hit
      obtain ⟨w, hw⟩ : ∃ w, d :: a ++ ['{', '{'] = '{' :: '{' :: w := by
        cases a with
        | nil => exact ⟨['{'], by rw [(List.cons.inj hfound).1]; rfl⟩
        | cons e a =>
          refine ⟨a ++ ['{', '{'], ?_⟩
          rw [(List.cons.inj hfound).1, (List.cons.inj (List.cons.inj hfound).2).1]
          rfl
      have hwb : '}' ∉ w ++ inner := by
        rw [hw] at hclear
        simpa using hclear
      refine ⟨[], w, hw, fun hm => hwb (List.mem_append_left _ hm), ?_⟩
      have htext : d :: a ++ (braced inner ++ c) = braced (w ++ inner) ++ c := by
        rw [hopen, hw]
        simp [braced]
      rw [htext, localizeText_code b hwb, localizeText_nil, Localized.plain_nil_append]
  | run w a hne hw hh ih =>
    obtain ⟨a', w', ha, hw', h⟩ := ih
    have hnext : (a ++ (braced inner ++ c)).head?.any isHan = false := by
      cases a with
      | nil => rfl
      | cons d a => exact hh
    have hnext' : a'.head?.any isHan = false := by
      cases a' with
      | nil => rfl
      | cons d a' =>
        cases a with
        | nil =>
          rw [(List.cons.inj ha).1.symm]
          rfl
        | cons e a =>
          rw [(List.cons.inj ha).1] at hh
          exact hh
    refine ⟨w ++ a', w', by rw [List.append_assoc, ha, List.append_assoc], hw', ?_⟩
    rw [List.append_assoc, localizeText_run b hne hw hnext, h, localizeText_run b hne hw hnext']
    simp only [Localized.append_assoc]

/-! ## Both -/

/-- What becomes of a run of Han characters. Where no closing brace stands between the run and the
double braces around it, it is localized with the code of such an interpolation; everywhere else,
between double braces or not, an interpolation of its own takes its place. -/
theorem localizeText_of_hanRun (b : Bindings) {before run after : Text} (h : HanRun before run after) :
    (BracesClear before after → ∃ a u v c, before = a ++ '{' :: '{' :: u ∧
        after = v ++ '}' :: '}' :: c ∧ '}' ∉ u ∧ '}' ∉ v ∧
        localizeText b (before ++ run ++ after) =
          localizeText b a ++
            (.plain ['{', '{'] ++ Script.localizeExpression b (u ++ run ++ v) ++ .plain ['}', '}']) ++
            localizeText b c) ∧
      (¬ BracesClear before after →
        localizeText b (before ++ run ++ after) =
          localizeText b before ++ ⟨b.interpolation run, [run]⟩ ++ localizeText b after) := by
  constructor
  · rintro ⟨a, u, v, c, rfl, rfl, hu, hv⟩
    have hb : '}' ∉ u ++ run ++ v := by
      rw [List.mem_append, List.mem_append, not_or, not_or]
      exact ⟨⟨hu, h.not_mem (by decide)⟩, hv⟩
    obtain ⟨a', w, ha, hw, ht⟩ := localizeText_braced b hb c a
    refine ⟨a', w ++ u, v, c, ?_, rfl, ?_, hv, ?_⟩
    · rw [List.append_cons, List.append_cons, List.append_assoc a, List.singleton_append, ha]
      simp
    · rw [List.mem_append, not_or]
      exact ⟨hw, hu⟩
    · have htext : a ++ '{' :: '{' :: u ++ run ++ (v ++ '}' :: '}' :: c) =
          a ++ (braced (u ++ run ++ v) ++ c) := by
        simp [braced]
      rw [htext, ht]
      simp only [localizeSpan, List.append_assoc]
      rfl
  · intro hn
    rw [List.append_assoc, localizeText_append b (cutsNone_of_hanRun h hn) h.before,
      localizeText_run b h.nonempty h.isHan h.after, Localized.append_assoc]

theorem localizeText_in_condition :
    ∃ a u v c, "\x7b\x7b flag ? '".toList = a ++ '{' :: '{' :: u ∧
      "' : '否' \x7d\x7d".toList = v ++ '}' :: '}' :: c ∧ '}' ∉ u ∧ '}' ∉ v ∧
      localizeText {} "\x7b\x7b flag ? '是' : '否' \x7d\x7d".toList =
        localizeText {} a ++
          (.plain ['{', '{'] ++ Script.localizeExpression {} (u ++ ['是'] ++ v) ++
            .plain ['}', '}']) ++
          localizeText {} c := by
  have h : HanRun "\x7b\x7b flag ? '".toList ['是'] "' : '否' \x7d\x7d".toList :=
    ⟨by decide, List.all_eq_true.1 (by decide), by decide, by decide⟩
  have hclear : BracesClear "\x7b\x7b flag ? '".toList "' : '否' \x7d\x7d".toList :=
    ⟨[], " flag ? '".toList, "' : '否' ".toList, [], by decide, by decide, by decide, by decide⟩
  exact (localizeText_of_hanRun {} h).1 hclear

/-- A run can stand between double braces and still become an interpolation of its own, inside of the
other one: in the code of `{{ {a:'你好'} }}` a closing brace stands before the closing braces. -/
theorem object_gets_nested_interpolation :
    ¬ ∀ before run after, HanRun before run after → Enclosed before run after →
      (localizeText {} (before ++ run ++ after)).output ≠
        (localizeText {} before).output ++ Bindings.interpolation {} run ++
          (localizeText {} after).output := by
  intro h
  have hrun : HanRun "\x7b\x7b \x7ba:'".toList "你好".toList "'\x7d \x7d\x7d".toList :=
    ⟨by decide, List.all_eq_true.1 (by decide), by decide, by decide⟩
  refine h _ _ _ hrun ?_ ?_
  · exact ⟨[], " \x7ba:'".toList, "'\x7d ".toList, [], by decide, by decide, by decide⟩
  · decide +kernel

end Phrasebook.Template
