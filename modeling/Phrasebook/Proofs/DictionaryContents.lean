import Phrasebook.Proofs.Conservation
import Phrasebook.Proofs.Mirror
import Phrasebook.Proofs.Pieces
import Phrasebook.Proofs.TemplateTexts

/-!
What a dictionary holds in the course of a run.

Scripts, expressions and templates are localized one after the other, and in between the waiting texts
are dispatched and the requests finished. Each text that is recorded has an origin: the code of a script
or of an interpolation, or the literal text of a template. A rewrite is a row of recordings, so that all
that holds of sessions holds of such runs (`Serving.runs`), and the texts that it records are natural
(`Rewrite.holds_of_mem_records`).

Main statement: `dictionary_holds_recorded_texts`.
-/

namespace Phrasebook

/-- Where a text that is recorded stands. -/
inductive Origin where
  /-- In a string of code. -/
  | code
  /-- In the literal text of a template. -/
  | literal
  deriving DecidableEq, Repr

/-! ## The texts of code -/

namespace Script

theorem isNatural_of_mem_text? {b : Bindings} {scope : Scope} {tree : Tree} {x : Text}
    (h : x ∈ (changesIn b scope tree).filterMap Change.text?) : Text.isNatural x = true := by
  rw [filterMap_text?_changesIn] at h
  obtain ⟨t, ht, rfl⟩ := List.mem_map.1 h
  obtain ⟨l, hl, rfl⟩ := List.mem_map.1 ht
  have hasks := (List.mem_filter.1 hl).2
  simp only [asksForLookup, Bool.and_eq_true] at hasks
  exact hasks.1.1.1

theorem isNatural_of_localizeExpression {b : Bindings} {source x : Text}
    (h : x ∈ (localizeExpression b source).found) : Text.isNatural x = true := by
  unfold localizeExpression at h
  split at h
  · cases h
  · exact isNatural_of_mem_text? h

theorem isNatural_of_localizeScript {b : Bindings} {mergeLocale : Bool} {source x : Text}
    {r : Localized} (hr : localizeScript b mergeLocale source = .ok r) (h : x ∈ r.found) :
    Text.isNatural x = true := by
  unfold localizeScript at hr
  split at hr
  · cases hr
  · cases hr
    exact isNatural_of_mem_text? h

end Script

/-! ## The texts of templates -/

namespace Text

/-- The characters of a run are of its class, and there are some. -/
theorem of_mem_runs {t : Text} {r : Run} (h : r ∈ runs t) :
    r.2 ≠ [] ∧ ∀ c ∈ r.2, charClass c = r.1 := by
  induction t generalizing r with
  | nil => cases h
  | cons c t ih =>
    rw [runs] at h
    have hone : ((charClass c, [c]) : Run).2 ≠ [] ∧
        ∀ d ∈ ((charClass c, [c]) : Run).2, charClass d = charClass c := by simp
    cases hr : runs t with
    | nil =>
      rw [hr] at h
      obtain rfl := List.mem_singleton.1 h
      exact hone
    | cons first more =>
      obtain ⟨k, w⟩ := first
      rw [hr] at h ih
      rw [pushRun] at h
      split at h
      · next hk =>
        rcases List.mem_cons.1 h with rfl | h
        · obtain ⟨-, hw⟩ := ih (List.mem_cons_self ..)
          refine ⟨List.cons_ne_nil _ _, fun d hd => ?_⟩
          rcases List.mem_cons.1 hd with rfl | hd
          · exact hk.symm
          · exact hw d hd
        · exact ih (List.mem_cons_of_mem _ h)
      · rcases List.mem_cons.1 h with rfl | h
        · exact hone
        · exact ih h

end Text

theorem Localized.found_concat (rs : List Localized) :
    (Localized.concat rs).found = rs.flatMap Localized.found := by
  induction rs with
  | nil => rfl
  | cons r rs ih => rw [Localized.concat, Localized.found_append, ih, List.flatMap_cons]

namespace Template

open Markup

/-- What is looked up in a literal span are runs of Han characters. -/
theorem han_of_localizeLiteral {b : Bindings} {t x : Text} (h : x ∈ (localizeLiteral b t).found) :
    x ≠ [] ∧ ∀ c ∈ x, isHan c = true := by
  rw [localizeLiteral_eq_concat, Localized.found_concat, List.flatMap_map] at h
  obtain ⟨r, hr, hx⟩ := List.mem_flatMap.1 h
  unfold localizeRun at hx
  split at hx
  · next hk =>
    obtain rfl := List.mem_singleton.1 hx
    obtain ⟨hne, hw⟩ := Text.of_mem_runs hr
    exact ⟨hne, fun c hc => charClass_eq_han_iff.1 ((hw c hc).trans hk)⟩
  · cases hx

/-- The texts that are recorded from a span. -/
def spanRecords (b : Bindings) : Span → List (Origin × Text)
  | .literal t => (localizeLiteral b t).found.map fun x => (.literal, x)
  | .code inner => (Script.localizeExpression b inner).found.map fun x => (.code, x)

/-- The texts that are recorded from a text or an attribute value. -/
def textRecords (b : Bindings) (t : Text) : List (Origin × Text) := (spans t).flatMap (spanRecords b)

/-- The texts that are recorded from the attributes of a tag. -/
def attributeRecords (b : Bindings) (attributes : List Attribute) : List (Origin × Text) :=
  (attributes.filterMap Attribute.value).flatMap (textRecords b)

mutual

/-- The texts that are recorded from a node; `raw` says whether it stands in a raw text element. -/
def nodeRecords (b : Bindings) (raw : Bool) : Node → List (Origin × Text)
  | .text data => if raw then [] else textRecords b data
  | .comment _ => []
  | .element tag children =>
    attributeRecords b tag.attributes ++ nodesRecords b (isRaw (writtenName tag.name)) children

/-- The texts that are recorded from a row of nodes. -/
def nodesRecords (b : Bindings) (raw : Bool) : List Node → List (Origin × Text)
  | [] => []
  | n :: ns => nodeRecords b raw n ++ nodesRecords b raw ns

end

theorem map_snd_textRecords (b : Bindings) (t : Text) :
    (textRecords b t).map Prod.snd = (localizeText b t).found := by
  have hspan : ∀ s, (spanRecords b s).map Prod.snd = (localizeSpan b s).found := by
    intro s
    cases s with
    | literal t => simp [spanRecords, localizeSpan, Function.comp_def]
    | code inner => simp [spanRecords, localizeSpan, Function.comp_def]
  rw [textRecords, localizeText, Localized.found_concat, List.flatMap_map, List.map_flatMap]
  simp only [hspan]

theorem map_snd_attributeRecords (b : Bindings) (attributes : List Attribute) :
    (attributeRecords b attributes).map Prod.snd = (attributesForm b attributes).found := by
  rw [attributeRecords, attributesForm, Localized.found_concat, List.flatMap_map]
  induction attributes with
  | nil => rfl
  | cons a attributes ih =>
    rw [List.flatMap_cons, ← ih, attributeForm]
    cases hv : a.value with
    | none => simp [hv]
    | some value => simp [hv, map_snd_textRecords]

mutual

theorem map_snd_nodeRecords (b : Bindings) : ∀ (raw : Bool) (n : Node),
    (nodeRecords b raw n).map Prod.snd = (nodeForm b raw n).found
  | raw, .text data => by
    rw [nodeRecords, nodeForm]
    split
    · rfl
    · exact map_snd_textRecords b data
  | _, .comment _ => by
    rw [nodeRecords, nodeForm]
    rfl
  | _, .element tag children => by
    have hchildren := map_snd_nodesRecords b (isRaw (writtenName tag.name)) children
    rw [nodeRecords, nodeForm, List.map_append, map_snd_attributeRecords, hchildren]
    split
    · next h =>
      obtain ⟨hempty, -⟩ := Bool.and_eq_true_iff.1 h
      obtain rfl := List.isEmpty_iff.1 hempty
      simp [nodesForm]
    · simp

theorem map_snd_nodesRecords (b : Bindings) : ∀ (raw : Bool) (ns : List Node),
    (nodesRecords b raw ns).map Prod.snd = (nodesForm b raw ns).found
  | _, [] => by
    rw [nodesRecords, nodesForm]
    rfl
  | raw, n :: ns => by
    rw [nodesRecords, nodesForm, List.map_append, map_snd_nodeRecords b raw n,
      map_snd_nodesRecords b raw ns]
    rfl

end

end Template

/-! ## Rewrites -/

/-- A text to be localized. -/
inductive Rewrite where
  | script (b : Bindings) (mergeLocale : Bool) (source : Text)
  | expression (b : Bindings) (source : Text)
  | template (b : Bindings) (modulePath : Option Text) (source : Text)
  deriving DecidableEq, Repr

namespace Rewrite

/-- The texts that a rewrite hands to the dictionary; one that fails hands over none. -/
def found : Rewrite → List Text
  | .script b mergeLocale source =>
    match Script.localizeScript b mergeLocale source with
    | .ok r => r.found
    | .error _ => []
  | .expression b source => (Script.localizeExpression b source).found
  | .template b modulePath source =>
    match Template.localizeTemplate b modulePath source with
    | .ok r => r.found
    | .error _ => []

/-- The same texts with their origins. -/
def records : Rewrite → List (Origin × Text)
  | .script b mergeLocale source =>
    (Rewrite.script b mergeLocale source).found.map fun x => (.code, x)
  | .expression b source => (Rewrite.expression b source).found.map fun x => (.code, x)
  | .template b _ source =>
    match Markup.parse source with
    | .ok d => Template.nodesRecords b false d.children
    | .error _ => []

theorem map_snd_records (r : Rewrite) : r.records.map Prod.snd = r.found := by
  cases r with
  | script b mergeLocale source => simp [records, Function.comp_def]
  | expression b source => simp [records, Function.comp_def]
  | template b modulePath source =>
    rw [records, found, Template.localizeTemplate]
    cases Markup.parse source with
    | error e => rfl
    | ok d =>
      refine (Template.map_snd_nodesRecords b false d.children).trans ?_
      show _ = (Template.documentForm b modulePath d).found
      unfold Template.documentForm
      dsimp only
      split
      · split <;> simp
      · rfl

/-- A record holds what its origin promises: there is a Han character in it, and there are only such in
one from the literal text of a template. -/
def Holds (r : Origin × Text) : Prop :=
  Text.isNatural r.2 = true ∧ (r.1 = .literal → r.2 ≠ [] ∧ ∀ c ∈ r.2, isHan c = true)

theorem holds_code {x : Text} (h : Text.isNatural x = true) : Holds (.code, x) := ⟨h, nofun⟩

end Rewrite

namespace Template

open Rewrite (Holds holds_code)

theorem holds_textRecords {b : Bindings} {t : Text} {r : Origin × Text} (h : r ∈ textRecords b t) :
    Holds r := by
  obtain ⟨s, -, hr⟩ := List.mem_flatMap.1 h
  cases s with
  | literal t =>
    obtain ⟨x, hx, rfl⟩ := List.mem_map.1 hr
    obtain ⟨hne, hhan⟩ := han_of_localizeLiteral hx
    refine ⟨(Text.isNatural_iff x).2 ?_, fun _ => ⟨hne, hhan⟩⟩
    obtain ⟨c, w, rfl⟩ := List.exists_cons_of_ne_nil hne
    exact ⟨c, List.mem_cons_self .., hhan c (List.mem_cons_self ..)⟩
  | code inner =>
    obtain ⟨x, hx, rfl⟩ := List.mem_map.1 hr
    exact holds_code (Script.isNatural_of_localizeExpression hx)

mutual

theorem holds_nodeRecords {b : Bindings} : ∀ (raw : Bool) (n : Markup.Node),
    ∀ r ∈ nodeRecords b raw n, Holds r
  | raw, .text data, r, h => by
    rw [nodeRecords] at h
    split at h
    · cases h
    · exact holds_textRecords h
  | _, .comment _, r, h => by
    rw [nodeRecords] at h
    cases h
  | _, .element tag children, r, h => by
    rw [nodeRecords] at h
    rcases List.mem_append.1 h with h | h
    · obtain ⟨value, -, hr⟩ := List.mem_flatMap.1 h
      exact holds_textRecords hr
    · exact holds_nodesRecords _ children r h

theorem holds_nodesRecords {b : Bindings} : ∀ (raw : Bool) (ns : List Markup.Node),
    ∀ r ∈ nodesRecords b raw ns, Holds r
  | _, [], r, h => by
    rw [nodesRecords] at h
    cases h
  | raw, n :: ns, r, h => by
    rw [nodesRecords] at h
    rcases List.mem_append.1 h with h | h
    · exact holds_nodeRecords raw n r h
    · exact holds_nodesRecords raw ns r h

end

end Template

theorem Rewrite.holds_of_mem_records {w : Rewrite} {r : Origin × Text} (h : r ∈ w.records) :
    Holds r := by
  cases w with
  | script b mergeLocale source =>
    obtain ⟨x, hx, rfl⟩ := List.mem_map.1 h
    rw [found] at hx
    split at hx
    · next l hl => exact holds_code (Script.isNatural_of_localizeScript hl hx)
    · cases hx
  | expression b source =>
    obtain ⟨x, hx, rfl⟩ := List.mem_map.1 h
    exact holds_code (Script.isNatural_of_localizeExpression hx)
  | template b modulePath source =>
    rw [records] at h
    split at h
    · exact Template.holds_nodesRecords _ _ r h
    · cases h

/-! ## Runs -/

/-- What is asked of a session. -/
inductive Call where
  | rewrite (w : Rewrite)
  | dispatch
  | finish
  deriving DecidableEq, Repr

/-- The texts that a call records. -/
def Call.records : Call → List (Origin × Text)
  | .rewrite w => w.records
  | .dispatch | .finish => []

namespace Session

/-- One call on a session. -/
inductive Serves : Session → Call → Session → Prop
  | rewrite (q : Queue) (d : Dictionary) (w : Rewrite) :
      Serves ⟨q, d⟩ (.rewrite w) ⟨q, d.recordAll w.found⟩
  | dispatch (q : Queue) (d : Dictionary) :
      Serves ⟨q, d⟩ .dispatch ⟨(q.dispatch d).2.1, (q.dispatch d).2.2⟩
  | finish (q : Queue) (d : Dictionary) (calls : Nat) (es : List Entry) :
      Joins q.client q.started es →
      Serves ⟨q, d⟩ .finish ⟨{ q with started := [], calls := calls }, d.enterAll es⟩

/-- A run of calls. -/
inductive Serving (start : Session) : List Call → Session → Prop
  | start : Serving start [] start
  | call {calls : List Call} {s t : Session} {c : Call} :
      Serving start calls s → Serves s c t → Serving start (calls ++ [c]) t

/-- The texts that a row of calls records. -/
def recorded (calls : List Call) : List (Origin × Text) := calls.flatMap Call.records

/-- Recording texts one after the other. -/
theorem Runs.recordAll {start : Session} {history : List Event} {q : Queue} {d : Dictionary}
    (h : Runs start history ⟨q, d⟩) (texts : List Text) :
    Runs start (history ++ texts.map .record) ⟨q, d.recordAll texts⟩ := by
  induction texts generalizing history d with
  | nil =>
    rw [List.map_nil, List.append_nil]
    exact h
  | cons x texts ih =>
    rw [List.map_cons, List.append_cons]
    exact ih (h.step (.record q d x))

/-- A run of calls is a run of a session that records the same texts. -/
theorem Serving.runs {start t : Session} {calls : List Call} (h : Serving start calls t) :
    ∃ history, Runs start history t ∧
      ∀ x, .record x ∈ history ↔ x ∈ (recorded calls).map Prod.snd := by
  induction h with
  | start => exact ⟨[], .start, by simp [recorded]⟩
  | @call calls s t c _ hc ih =>
    obtain ⟨history, hruns, hrecord⟩ := ih
    have hrecorded : recorded (calls ++ [c]) = recorded calls ++ c.records := by simp [recorded]
    rw [hrecorded]
    cases hc with
    | rewrite q d w =>
      refine ⟨_, hruns.recordAll w.found, fun x => ?_⟩
      have hw : (Call.rewrite w).records.map Prod.snd = w.found := w.map_snd_records
      rw [List.mem_append, List.map_append, List.mem_append, hw, hrecord]
      simp
    | dispatch q d =>
      refine ⟨_, hruns.step (.dispatch q d), fun x => ?_⟩
      simp [hrecord, Call.records]
    | finish q d n es hj =>
      refine ⟨_, hruns.step (.finish q d n es hj), fun x => ?_⟩
      simp [hrecord, Call.records]

/-! ## Accounts -/

section

variable {targets : List Target} {history : List Event} {s : Session}

/-- What waits or is under way has been recorded. -/
theorem Accounted.recorded_of_pending (ha : Accounted targets history s) {p : Pending}
    (hp : p ∈ s.dictionary.pending ∨ p ∈ s.queue.started) : .record p.text ∈ history := by
  have hself : Pending.isFor p.text p.target p = true := by simp [Pending.isFor]
  rw [← List.count_pos_iff]
  rcases hp with hp | hp
  · have hpos := List.countP_pos_iff.2 ⟨p, hp, hself⟩
    have hb := ha.balance p.text p.target (ha.pending_mem p hp).1
    omega
  · have hpos := List.countP_pos_iff.2 ⟨p, hp, hself⟩
    have hb := ha.balance p.text p.target (ha.started_mem p hp).1
    omega

/-- What has a value in any locale has been recorded. -/
theorem Filed.recorded_of_get? {base : Text} (hf : Filed base targets history s.dictionary)
    (ha : Accounted targets history s) {code x value : Text}
    (h : s.dictionary.get? code x = some value) : .record x ∈ history := by
  have htable : (s.dictionary.table? code).isSome := by
    unfold Dictionary.get? at h
    obtain ⟨t, ht, -⟩ := Option.bind_eq_some_iff.1 h
    rw [ht]
    rfl
  rcases List.mem_cons.1 ((hf.table_iff code).1 htable) with rfl | hc
  · rw [hf.base_value] at h
    split at h
    · next hr => exact hr
    · cases h
  · obtain ⟨L, hL, rfl⟩ := List.mem_map.1 hc
    rw [hf.derived_value L hL] at h
    have hpos := isSome_lastValue_iff.1 (Option.isSome_iff_exists.2 ⟨value, h⟩)
    have hb := ha.balance x L hL
    rw [← List.count_pos_iff]
    omega

end

end Session

namespace CommandLine.Settings

theorem locales_eq (s : Settings) : s.locales = s.baseLocale :: s.targets.map Target.code := by
  simp [locales, targets, Function.comp_def]

theorem distinctCodes_of_check {s : Settings} (h : s.check = .ok s) :
    Session.DistinctCodes s.baseLocale s.targets := by
  have hnodup := nodup_of_check h
  rwa [locales_eq] at hnodup

end CommandLine.Settings

open CommandLine (Settings)

namespace Session

/-- **What a dictionary holds.** In every state that calls lead to, for settings that pass their check:

* the base locale maps the texts that have been recorded to themselves, and has no other ones;
* each of them has a Han character in it, and one that comes from the literal text of a template has
  some, and nothing else;
* a text that has a value in any locale, that waits or is under way has one in the base locale;
* there are tables for the locales of the settings and for no other ones. -/
theorem dictionary_holds_recorded_texts {s : Settings} (hs : s.check = .ok s) {q : Queue}
    (hq : q.started = []) {calls : List Call} {t : Session}
    (h : Serving ⟨q, Dictionary.new s.baseLocale s.targets⟩ calls t) :
    (∀ x value, t.dictionary.get? s.baseLocale x = some value ↔
      value = x ∧ ∃ origin, (origin, x) ∈ recorded calls) ∧
    (∀ x value, t.dictionary.get? s.baseLocale x = some value → (∃ c ∈ x, isHan c = true) ∧
      ((.literal, x) ∈ recorded calls → x ≠ [] ∧ ∀ c ∈ x, isHan c = true)) ∧
    (∀ code x value, t.dictionary.get? code x = some value →
      (t.dictionary.get? s.baseLocale x).isSome) ∧
    (∀ p, p ∈ t.dictionary.pending ∨ p ∈ t.queue.started →
      (t.dictionary.get? s.baseLocale p.text).isSome) ∧
    (∀ code, (t.dictionary.table? code).isSome ↔ code ∈ s.locales) := by
  obtain ⟨history, hruns, hrecord⟩ := h.runs
  obtain ⟨ha, hf⟩ := hruns.invariant (Settings.distinctCodes_of_check hs) hq
  have hrecorded : ∀ x, .record x ∈ history ↔ ∃ origin, (origin, x) ∈ recorded calls := by
    intro x
    rw [hrecord, List.mem_map]
    simp
  have hbase : ∀ x value, t.dictionary.get? s.baseLocale x = some value ↔
      value = x ∧ ∃ origin, (origin, x) ∈ recorded calls := by
    intro x value
    rw [hf.base_value, ← hrecorded]
    split
    · next hx => simp [hx, eq_comm]
    · next hx => simp [hx]
  have hsome : ∀ x, .record x ∈ history → (t.dictionary.get? s.baseLocale x).isSome := by
    intro x hx
    rw [hf.base_value, if_pos hx]
    rfl
  have hholds : ∀ r ∈ recorded calls, Rewrite.Holds r := by
    intro r hr
    obtain ⟨c, -, hc⟩ := List.mem_flatMap.1 hr
    cases c with
    | rewrite w => exact Rewrite.holds_of_mem_records hc
    | dispatch => cases hc
    | finish => cases hc
  refine ⟨hbase, fun x value hx => ?_, fun code x value hx => ?_, fun p hp => ?_, fun code => ?_⟩
  · obtain ⟨-, origin, horigin⟩ := (hbase x value).1 hx
    exact ⟨(Text.isNatural_iff x).1 (hholds _ horigin).1, fun hl => (hholds _ hl).2 rfl⟩
  · exact hsome x (hf.recorded_of_get? ha hx)
  · exact hsome p.text (ha.recorded_of_pending hp)
  · rw [hf.table_iff, Settings.locales_eq]

/-- A script, a template with literal text and code, and a script that cannot be read. -/
def someRewrites : List Rewrite :=
  [.script {} false "f('你好')".toList,
    .template {} none "<view>天\x7b\x7b'地'\x7d\x7d</view>".toList, .script {} false "('空'".toList]

/-- These rewrites, and then a dispatch. -/
def someCalls : List Call := someRewrites.map .rewrite ++ [.dispatch]

/-- The texts of these calls are under way, and the base locale has them. -/
theorem dictionary_holds_texts_of_someCalls :
    let s := rehearsal "app" "out"
    let q : Queue := ⟨{ provider := Rehearsal.suffix.provider, source := s.baseLocale }, none, 1, [], 0⟩
    s.check = .ok s ∧ q.started = [] ∧
      recorded someCalls = [(.code, "你好".toList), (.literal, "天".toList), (.code, "地".toList)] ∧
      ∃ t, Serving ⟨q, Dictionary.new s.baseLocale s.targets⟩ someCalls t ∧
        t.queue.started.map Pending.text = ["你好".toList, "天".toList, "地".toList] ∧
        (∀ p ∈ t.queue.started, (t.dictionary.get? s.baseLocale p.text).isSome) ∧
        ∀ code, (t.dictionary.table? code).isSome ↔ code ∈ s.locales := by
  intro s q
  have hs : s.check = .ok s := eq_ok_of_toOption (by decide +kernel)
  have hstart : Serving ⟨q, Dictionary.new s.baseLocale s.targets⟩ [] _ := .start
  have hrun : Serving ⟨q, Dictionary.new s.baseLocale s.targets⟩ someCalls _ :=
    (((hstart.call (.rewrite q _ _)).call (.rewrite q _ _)).call (.rewrite q _ _)).call (.dispatch q _)
  obtain ⟨-, -, -, hwaiting, htables⟩ := dictionary_holds_recorded_texts hs rfl hrun
  refine ⟨hs, rfl, by decide +kernel, _, hrun, by decide +kernel, fun p hp => ?_, htables⟩
  exact hwaiting p (.inr hp)

end Session

end Phrasebook
