import PfBlockerNG.ScheduleMigration

/-!
The schedule migration is complete and idempotent: its result is settled, the schedule model reads
its tokens, and what was already canonical stays.
-/

namespace PfBlockerNG.ScheduleMigrationComplete

open PfBlockerNG.Strings
open PfBlockerNG.PyText
open PfBlockerNG.IpText
open PfBlockerNG.NumericHosts
open PfBlockerNG.OrderedDict
open PfBlockerNG.KeyedTree
open PfBlockerNG.PhpArray
open PfBlockerNG.Schedule
open PfBlockerNG.ScheduleModel
open PfBlockerNG.ScheduleMigration

/-! ### Tokens of the migration and of the model -/

theorem octetText_of_canonical {s : Str} (h : canonical s = true) : octetText (decimal s) = s := by
  cases s with
  | nil => cases h
  | cons c cs =>
      rw [canonical] at h
      split at h
      · rename_i hc
        rw [hc, List.isEmpty_iff.mp h]
        decide
      · rename_i hc
        exact octetText_decimal h hc

theorem numericToken_eq_some_iff {min max : Nat} {v : Value} {token : Str} :
    numericToken min max v = some token ↔ rawToken v = some token ∧ canonical token = true ∧
      min ≤ decimal token ∧ decimal token ≤ max := by
  unfold numericToken
  rw [Option.bind_eq_some_iff]
  constructor
  · rintro ⟨raw, hraw, h⟩
    split at h
    · rename_i hvalid
      rw [← Option.some.inj h, octetText_of_canonical hvalid.1]
      exact ⟨hraw, hvalid⟩
    · cases h
  · rintro ⟨hraw, hvalid⟩
    refine ⟨token, hraw, ?_⟩
    rw [if_pos hvalid, octetText_of_canonical hvalid.1]

theorem token_text {min max : Nat} {t : Str} (h : (numericToken min max (text t)).isSome = true) :
    ∃ hrange, token min max (text t) = some ⟨decimal t, hrange⟩ := by
  obtain ⟨token', htoken⟩ := Option.isSome_iff_exists.mp h
  obtain ⟨hraw, hcanonical, hmin, hmax⟩ := numericToken_eq_some_iff.mp htoken
  obtain rfl := Option.some.inj hraw
  have hrange : (min : Int) ≤ decimal t ∧ (decimal t : Int) ≤ max := by omega
  refine ⟨hrange, ?_⟩
  change (if canonical t then _ else none) = _
  rw [if_pos hcanonical, dif_pos hrange]

theorem minute_text {t : Str} (h : (minuteToken (text t)).isSome = true) :
    ∃ hrange, minute (text t) = some ⟨decimal t, hrange⟩ := by
  obtain ⟨token', htoken⟩ := Option.isSome_iff_exists.mp h
  obtain ⟨hnumeric, hmem⟩ := Option.filter_eq_some_iff.mp htoken
  obtain ⟨hrange, htok⟩ := token_text (Option.isSome_iff_exists.mpr ⟨token', hnumeric⟩)
  obtain ⟨hraw, -⟩ := numericToken_eq_some_iff.mp hnumeric
  obtain rfl := Option.some.inj hraw
  have hquarter : (decimal t : Int) ∈ ([0, 15, 30, 45] : List Int) := by
    have hcases : t = ['0'] ∨ t = ['1', '5'] ∨ t = ['3', '0'] ∨ t = ['4', '5'] := by
      simpa using List.contains_iff_mem.mp hmem
    rcases hcases with rfl | rfl | rfl | rfl <;> decide
  refine ⟨hquarter, ?_⟩
  have hsame : token 0 45 (text t) = some ⟨decimal t, hrange⟩ := htok
  rw [minute, hsame]
  exact dif_pos hquarter

theorem readSlot_text {w h m : Str} (hw : (weekdayToken (text w)).isSome = true)
    (hh : (hourToken (text h)).isSome = true) (hm : (minuteToken (text m)).isSome = true) :
    ∃ slot, readSlot (text w) (text h) (text m) = some slot ∧ slot.weekday = decimal w := by
  obtain ⟨hwr, hwt⟩ := token_text hw
  obtain ⟨hhr, hht⟩ := token_text hh
  obtain ⟨hmr, hmt⟩ := minute_text hm
  have hw' : token 1 7 (text w) = some ⟨decimal w, hwr⟩ := hwt
  have hh' : token 0 23 (text h) = some ⟨decimal h, hhr⟩ := hht
  refine ⟨⟨decimal w, decimal h, decimal m, hwr, hhr, hmr⟩, ?_, rfl⟩
  rw [readSlot, hw', hh', hmt]

/-- A valid value that is no number is a text. -/
theorem text_of_valid {k : Str} {items : Pairs} (htext : TextAt k items) {min max : Nat}
    (h : (numericToken min max (valueOf k items)).isSome = true) :
    ∃ t, valueOf k items = text t := by
  obtain ⟨t, ht⟩ := Option.isSome_iff_exists.mp h
  obtain ⟨hraw, -⟩ := numericToken_eq_some_iff.mp ht
  cases hlookup : lookup k items with
  | none =>
      rw [valueOf, hlookup] at hraw
      cases hraw
  | some v =>
      rw [valueOf_of_lookup hlookup] at hraw ⊢
      exact ⟨t, htext v t hlookup hraw⟩

theorem text_of_valid_minute {k : Str} {items : Pairs} (htext : TextAt k items)
    (h : (minuteToken (valueOf k items)).isSome = true) : ∃ t, valueOf k items = text t := by
  obtain ⟨t, ht⟩ := Option.isSome_iff_exists.mp h
  exact text_of_valid htext (Option.isSome_iff_exists.mpr ⟨t, (Option.filter_eq_some_iff.mp ht).1⟩)

/-- The model reads a schedule from three valid values. -/
theorem readSlot_of_valid {kw kh km : Str} {items : Pairs} (hw : TextAt kw items)
    (hh : TextAt kh items) (hm : TextAt km items)
    (hweekday : (weekdayToken (valueOf kw items)).isSome = true)
    (hhour : (hourToken (valueOf kh items)).isSome = true)
    (hminute : (minuteToken (valueOf km items)).isSome = true) :
    ∃ slot t, readSlot (valueOf kw items) (valueOf kh items) (valueOf km items) = some slot ∧
      valueOf kw items = text t ∧ slot.weekday = decimal t := by
  obtain ⟨w, hwt⟩ := text_of_valid hw hweekday
  obtain ⟨h, hht⟩ := text_of_valid hh hhour
  obtain ⟨m, hmt⟩ := text_of_valid_minute hm hminute
  rw [hwt] at hweekday
  rw [hht] at hhour
  rw [hmt] at hminute
  obtain ⟨slot, hslot, hday⟩ := readSlot_text hweekday hhour hminute
  rw [hwt, hht, hmt]
  exact ⟨slot, w, hslot, rfl, hday⟩

/-! ### One group -/

/-- A tree whose leaves are texts. -/
inductive StringLeaves : Value → Prop where
  | leaf (s : Str) : StringLeaves (text s)
  | node (items : Pairs) : (∀ p ∈ items, StringLeaves p.2) → StringLeaves (.node items)

theorem mem_of_lookup {k : Str} {items : Pairs} {v : Value} (h : lookup k items = some v) :
    (k, v) ∈ items := by
  induction items with
  | nil => cases h
  | cons item items ih =>
      rw [lookup] at h
      split at h
      · rename_i hk
        rw [← hk, ← Option.some.inj h]
        exact List.mem_cons_self
      · exact List.mem_cons_of_mem _ (ih h)

theorem textAt_of_stringLeaves {items : Pairs} (h : ∀ p ∈ items, StringLeaves p.2) (k : Str) :
    TextAt k items := by
  intro v t hv ht
  have hleaves := h _ (mem_of_lookup hv)
  cases hleaves with
  | leaf s => exact congrArg text (Option.some.inj ht)
  | node items _ => cases ht

/-- A stored override or weekday says otherwise than the legacy weekday `d`. -/
def SaysOtherwise (d : Str) (group : Pairs) : Prop :=
  (∃ v, lookup kScheduleOverride group = some v ∧ v ≠ text on) ∨
    ∃ v, lookup kScheduleWeekday group = some v ∧ v ≠ text d

/-- Four valid schedule keys say otherwise: they stand. -/
def CanonicalOtherwise (d : Str) (group : Pairs) : Prop := Canonical group ∧ SaysOtherwise d group

/-- Schedule keys of which one is missing or no token say otherwise: the schedule that comes of
them need not be that of the legacy weekday. -/
def PartialOtherwise (d : Str) (group : Pairs) : Prop := ¬ Canonical group ∧ SaysOtherwise d group

theorem not_saysOtherwise {d : Str} {group : Pairs} (hcanonical : ¬ CanonicalOtherwise d group)
    (hotherwise : ¬ PartialOtherwise d group) :
    (lookup kScheduleOverride group = none ∨ lookup kScheduleOverride group = some (text on)) ∧
      (lookup kScheduleWeekday group = none ∨ lookup kScheduleWeekday group = some (text d)) := by
  have hnot : ¬ SaysOtherwise d group := fun h => by
    by_cases hvalid : Canonical group
    · exact hcanonical ⟨hvalid, h⟩
    · exact hotherwise ⟨hvalid, h⟩
  constructor
  · cases hlookup : lookup kScheduleOverride group with
    | none => exact Or.inl rfl
    | some v =>
        have hv : v = text on := by_contra fun hne => hnot (Or.inl ⟨v, hlookup, hne⟩)
        exact Or.inr (congrArg some hv)
  · cases hlookup : lookup kScheduleWeekday group with
    | none => exact Or.inl rfl
    | some v =>
        have hv : v = text d := by_contra fun hne => hnot (Or.inr ⟨v, hlookup, hne⟩)
        exact Or.inr (congrArg some hv)

/-- What the migration makes of a group. -/
structure Migrated (family : Family) (group group' : Pairs) : Prop where
  dow : hasKey kDow group' = false
  override : ∃ o, readOverride group' = .ok o
  schedule : (readSchedule group').isSome = true
  rest : ∀ k, k ∉ kDow :: scheduleKeys → lookup k group' = lookup k group
  kept : Canonical group → ∀ k ∈ scheduleKeys, lookup k group' = lookup k group
  weekday : isActive family group = true → isWeekly group = true →
    ∀ d, weekdayToken (valueOf kDow group) = some d →
      ¬ CanonicalOtherwise d group → ¬ PartialOtherwise d group →
        ∃ slot, readOverride group' = .ok (some slot) ∧ slot.weekday = decimal d

/-- A text that is read without a default is the text read with one. -/
theorem valueOr_of_valueOf {k : Str} {items : Pairs} {t : Str} (h : valueOf k items = text t)
    (default : Value) : valueOr default k items = text t := by
  unfold valueOf at h
  unfold valueOr
  cases hlookup : lookup k items with
  | none =>
      rw [hlookup] at h
      cases h
  | some v =>
      rw [hlookup, Option.getD_some] at h
      rw [h]
      rfl

theorem readOverride_of_on {group : Pairs} (h : valueOf kScheduleOverride group = text on)
    {slot : Slot} (hslot : readSchedule group = some slot) :
    readOverride group = .ok (some slot) := by
  rw [readOverride, valueOr_of_valueOf h, hslot]
  rfl

theorem readOverride_ok {group : Pairs}
    (h : (overrideToken (valueOf kScheduleOverride group)).isSome = true)
    (hschedule : (readSchedule group).isSome = true) : ∃ o, readOverride group = .ok o := by
  obtain ⟨s, hs⟩ := Option.isSome_iff_exists.mp h
  obtain ⟨hstring, htoken⟩ := Option.filter_eq_some_iff.mp hs
  obtain ⟨slot, hslot⟩ := Option.isSome_iff_exists.mp hschedule
  have hvalue : valueOf kScheduleOverride group = text s := by
    cases hv : valueOf kScheduleOverride group with
    | node items =>
        rw [hv] at hstring
        cases hstring
    | leaf a =>
        rw [hv] at hstring
        cases a with
        | str s' => exact congrArg text (Option.some.inj hstring)
        | null | bool _ | int _ | float _ => cases hstring
  rcases of_decide_eq_true htoken with rfl | rfl
  · exact ⟨_, readOverride_of_on hvalue hslot⟩
  · refine ⟨none, ?_⟩
    rw [readOverride, valueOr_of_valueOf hvalue]
    rfl

theorem readSchedule_migrateGroup (family : Family) {t : Tokens} (ht : t.Valid) {group : Pairs}
    (htext : ∀ k, TextAt k group) :
    ∃ slot w, readSchedule (migrateGroup family t group).items = some slot ∧
      valueOf kScheduleWeekday (migrateGroup family t group).items = text w ∧
      slot.weekday = decimal w := by
  have hsettled := groupSettled_migrateGroup family group ht
  have htexts : ∀ k, TextAt k (migrateGroup family t group).items := fun k =>
    textAt_migrateGroup family group (htext k)
  exact readSlot_of_valid (htexts _) (htexts _) (htexts _) hsettled.weekday hsettled.hour
    hsettled.minute

/-- An absent key is seeded, a present one stays. -/
theorem valueOf_seed {s : State} {k token : Str}
    (h : lookup k s.items = none ∨ lookup k s.items = some (text token)) :
    valueOf k (seed k token s).items = text token := by
  unfold seed hasKey
  rcases h with h | h
  · rw [h]
    exact (valueOf_store k k _ s.items).trans (if_pos rfl)
  · rw [h]
    exact valueOf_of_lookup h

theorem weekdayToken_idem {v : Value} {d : Str} (h : weekdayToken v = some d) :
    (weekdayToken (text d)).isSome = true := by
  obtain ⟨-, hvalid⟩ := numericToken_eq_some_iff.mp h
  exact Option.isSome_iff_exists.mpr ⟨d, numericToken_eq_some_iff.mpr ⟨rfl, hvalid⟩⟩

/-- A legacy weekday of an active weekly group comes through. -/
theorem values_of_dow (family : Family) (t : Tokens) {group : Pairs}
    (hactive : isActive family group = true) (hweekly : isWeekly group = true) {d : Str}
    (hdow : weekdayToken (valueOf kDow group) = some d)
    (hoverride : lookup kScheduleOverride group = none ∨
      lookup kScheduleOverride group = some (text on))
    (hweekday : lookup kScheduleWeekday group = none ∨
      lookup kScheduleWeekday group = some (text d)) :
    valueOf kScheduleOverride (migrateGroup family t group).items = text on ∧
      valueOf kScheduleWeekday (migrateGroup family t group).items = text d := by
  have hseeded : valueOf kScheduleOverride (seedGroup family t group).items = text on ∧
      valueOf kScheduleWeekday (seedGroup family t group).items = text d := by
    have hlast := step_seedGroup_last family t group
    have hnoticed := step_noticed family group
    constructor
    · rw [hlast.valueOf (by decide), (step_seededWeekday family group).valueOf (by decide),
        seededOverride, hactive, hweekly, hdow]
      refine valueOf_seed ?_
      rw [hnoticed.frame _ List.not_mem_nil]
      exact hoverride
    · rw [hlast.valueOf (by decide), seededWeekday, hdow]
      refine valueOf_seed ?_
      rw [(step_seededOverride family group).frame _ (by decide),
        hnoticed.frame _ List.not_mem_nil]
      exact hweekday
  have hkeyed : valueOf kScheduleOverride (keyed family t group).items = text on ∧
      valueOf kScheduleWeekday (keyed family t group).items = text d := by
    unfold keyed
    split
    · rename_i hall
      have hkeys := List.all_eq_true.mp hall
      have hpresent : ∀ {k : Str} {v : Value}, k ∈ scheduleKeys →
          lookup k group = none ∨ lookup k group = some v → valueOf k group = v := by
        rintro k v hk (h | h)
        · have hkey := hkeys k hk
          rw [hasKey, h] at hkey
          cases hkey
        · exact valueOf_of_lookup h
      exact ⟨hpresent (by decide) hoverride, hpresent (by decide) hweekday⟩
    · exact hseeded
  have hover : withOverride family t group = keyed family t group := by
    refine repair_of_valid ?_ _
    rw [hkeyed.1]
    decide
  have hweek : withGroupWeekday family t group = keyed family t group := by
    have hsplit : withGroupWeekday family t group = repair kScheduleWeekday weekdayToken
        (if isWeekly group then ['7'] else t.weekday) (withOverride family t group) := rfl
    rw [hsplit, hover]
    refine repair_of_valid ?_ _
    rw [hkeyed.2]
    exact weekdayToken_idem hdow
  have hafter := step_afterWeekday family t group
  rw [hafter.valueOf (by decide), hafter.valueOf (by decide), hweek]
  exact hkeyed

theorem migrated_migrateGroup (family : Family) {t : Tokens} (ht : t.Valid) {group : Pairs}
    (htext : ∀ k, TextAt k group) :
    Migrated family group (migrateGroup family t group).items := by
  have hsettled := groupSettled_migrateGroup family group ht
  obtain ⟨slot, w, hslot, hw, hday⟩ := readSchedule_migrateGroup family ht htext
  have hschedule : (readSchedule (migrateGroup family t group).items).isSome = true :=
    Option.isSome_iff_exists.mpr ⟨slot, hslot⟩
  refine ⟨hsettled.dow, readOverride_ok hsettled.override hschedule, hschedule,
    fun k hk => frame_migrateGroup family t group hk, fun hcanonical k hk => ?_, ?_⟩
  · rw [migrateGroup_of_canonical family hcanonical]
    refine (Step.drop _ kDow).frame k fun hmem => ?_
    rw [List.mem_singleton.mp hmem] at hk
    exact absurd hk (by decide)
  · intro hactive hweekly d hdow hcanonical hotherwise
    obtain ⟨hoverride, hweekday⟩ := not_saysOtherwise hcanonical hotherwise
    obtain ⟨hon, hd⟩ := values_of_dow family t hactive hweekly hdow hoverride hweekday
    refine ⟨slot, readOverride_of_on hon hslot, ?_⟩
    rw [hw] at hd
    have hwd : w = d := by
      injection hd with hleaf
      injection hleaf
    rw [hday, hwd]

/-! ### All sections -/

/-- The General section of a configuration. -/
def generalOf (sections : Pairs) : Pairs := (array (valueOr (.node []) genPath sections)).getD []

/-- The entries of a section of groups. -/
def groupsOf (path : Str) (sections : Pairs) : Pairs :=
  (array (valueOr (.node []) path sections)).getD []

theorem generalOf_eq (sections : Pairs) : generalOf sections = groupsOf genPath sections := rfl

theorem any_congr_mem {α : Type} {p q : α → Bool} {xs : List α} (h : ∀ x ∈ xs, p x = q x) :
    xs.any p = xs.any q := by
  induction xs with
  | nil => rfl
  | cons x xs ih =>
      obtain ⟨hx, hxs⟩ := List.forall_mem_cons.mp h
      rw [List.any_cons, List.any_cons, hx, ih hxs]

theorem groupsOf_congr {path : Str} {sections sections' : Pairs}
    (h : lookup path sections = lookup path sections') :
    groupsOf path sections = groupsOf path sections' := by
  rw [groupsOf, groupsOf, valueOr, valueOr, h]

theorem groupsOf_store (path : Str) (groups sections : Pairs) :
    groupsOf path (store path (.node groups) sections) = groups := by
  rw [groupsOf, valueOr, lookup_store, if_pos rfl]
  rfl

/-- One section: its entries are migrated one by one, and the others stay. -/
theorem migrateSection_spec (t : Tokens) (acc : State) (path : Str × Family) :
    groupsOf path.1 (migrateSection t acc path).items =
        (groupsOf path.1 acc.items).map (fun e => (migrateEntry path.2 t e).1) ∧
      (migrateSection t acc path).changed =
        (acc.changed || (groupsOf path.1 acc.items).any fun e => (migrateEntry path.2 t e).2.1) ∧
      ∀ k, k ≠ path.1 → lookup k (migrateSection t acc path).items = lookup k acc.items := by
  unfold migrateSection
  cases hvalue : valueOr (.node []) path.1 acc.items with
  | leaf a =>
      have hgroups : groupsOf path.1 acc.items = [] := by
        rw [groupsOf, hvalue]
        rfl
      dsimp only
      rw [hgroups]
      exact ⟨rfl, (Bool.or_false _).symm, fun _ _ => rfl⟩
  | node groups =>
      have hgroups : groupsOf path.1 acc.items = groups := by
        rw [groupsOf, hvalue]
        rfl
      dsimp only
      rw [hgroups, groupsOf_store, List.map_map, List.any_map]
      exact ⟨rfl, rfl, fun k hk => (lookup_store _ _ _ _).trans (if_neg (Ne.symm hk))⟩

theorem migrateSections_spec (t : Tokens) (paths : List (Str × Family))
    (hnodup : (paths.map Prod.fst).Nodup) (acc : State) :
    (∀ path ∈ paths, groupsOf path.1 (paths.foldl (migrateSection t) acc).items =
        (groupsOf path.1 acc.items).map fun e => (migrateEntry path.2 t e).1) ∧
      (paths.foldl (migrateSection t) acc).changed = (acc.changed || paths.any fun path =>
        (groupsOf path.1 acc.items).any fun e => (migrateEntry path.2 t e).2.1) ∧
      ∀ k, k ∉ paths.map Prod.fst →
        lookup k (paths.foldl (migrateSection t) acc).items = lookup k acc.items := by
  induction paths generalizing acc with
  | nil => exact ⟨fun _ h => absurd h List.not_mem_nil, (Bool.or_false _).symm, fun _ _ => rfl⟩
  | cons path paths ih =>
      obtain ⟨hgroups, hchanged, hframe⟩ := migrateSection_spec t acc path
      rw [List.map_cons, List.nodup_cons] at hnodup
      obtain ⟨ihgroups, ihchanged, ihframe⟩ := ih hnodup.2 (migrateSection t acc path)
      have hother : ∀ q ∈ paths, groupsOf q.1 (migrateSection t acc path).items =
          groupsOf q.1 acc.items := fun q hq => by
        refine groupsOf_congr (hframe q.1 fun heq => hnodup.1 ?_)
        exact heq ▸ List.mem_map_of_mem hq
      rw [List.foldl_cons]
      refine ⟨fun q hq => ?_, ?_, fun k hk => ?_⟩
      · rcases List.mem_cons.mp hq with rfl | hq
        · rw [groupsOf_congr (ihframe q.1 hnodup.1), hgroups]
        · rw [ihgroups q hq, hother q hq]
      · have hrest : (paths.any fun q => (groupsOf q.1 (migrateSection t acc path).items).any
            fun e => (migrateEntry q.2 t e).2.1) = paths.any fun q =>
              (groupsOf q.1 acc.items).any fun e => (migrateEntry q.2 t e).2.1 :=
          any_congr_mem fun q hq => by rw [hother q hq]
        rw [ihchanged, hchanged, hrest, List.any_cons, Bool.or_assoc]
      · rw [List.map_cons, List.mem_cons, not_or] at hk
        exact (ihframe k hk.2).trans (hframe k hk.1)

/-- The configuration after the migration. -/
def migrated (slot : Fin 28) (sections : Pairs) : Pairs := (migrate slot sections).1.getD sections

section
variable (slot : Fin 28) (sections : Pairs)

/-- The tokens that the groups fall back to. -/
def generalTokens : Tokens := tokensOf (migrateGeneral slot (generalOf sections)).items

/-- The sections before anything is compared. -/
def rewritten : State :=
  groupPaths.foldl (migrateSection (generalTokens slot sections))
    ⟨store genPath (.node (migrateGeneral slot (generalOf sections)).items) sections,
      (migrateGeneral slot (generalOf sections)).changed,
      (migrateGeneral slot (generalOf sections)).notices⟩

theorem migrate_fst : (migrate slot sections).1 =
    if (rewritten slot sections).changed then some (rewritten slot sections).items else none := rfl

theorem genPath_not_mem : genPath ∉ groupPaths.map Prod.fst := by decide

theorem groupsOf_base {path : Str × Family} (h : path ∈ groupPaths) (v : Value) :
    groupsOf path.1 (store genPath v sections) = groupsOf path.1 sections := by
  refine groupsOf_congr ?_
  rw [lookup_store, if_neg]
  rintro heq
  exact genPath_not_mem (heq ▸ List.mem_map_of_mem h)

theorem rewritten_spec :
    generalOf (rewritten slot sections).items =
        (migrateGeneral slot (generalOf sections)).items ∧
      (∀ path ∈ groupPaths, groupsOf path.1 (rewritten slot sections).items =
        (groupsOf path.1 sections).map fun e =>
          (migrateEntry path.2 (generalTokens slot sections) e).1) ∧
      (rewritten slot sections).changed = ((migrateGeneral slot (generalOf sections)).changed ||
        groupPaths.any fun path => (groupsOf path.1 sections).any fun e =>
          (migrateEntry path.2 (generalTokens slot sections) e).2.1) := by
  obtain ⟨hgroups, hchanged, hframe⟩ := migrateSections_spec (generalTokens slot sections)
    groupPaths (by decide)
    ⟨store genPath (.node (migrateGeneral slot (generalOf sections)).items) sections,
      (migrateGeneral slot (generalOf sections)).changed,
      (migrateGeneral slot (generalOf sections)).notices⟩
  refine ⟨?_, fun path hpath => ?_, ?_⟩
  · have hgen := groupsOf_congr (hframe genPath genPath_not_mem)
    rw [groupsOf_store] at hgen
    rw [generalOf_eq]
    exact hgen
  · rw [← groupsOf_base sections hpath]
    exact hgroups path hpath
  · have hbase : (groupPaths.any fun path => (groupsOf path.1
        (store genPath (.node (migrateGeneral slot (generalOf sections)).items) sections)).any
          fun e => (migrateEntry path.2 (generalTokens slot sections) e).2.1) =
        groupPaths.any fun path => (groupsOf path.1 sections).any fun e =>
          (migrateEntry path.2 (generalTokens slot sections) e).2.1 :=
      any_congr_mem fun path hpath => by rw [groupsOf_base sections hpath]
    rw [← hbase, rewritten, hchanged]

theorem migrateEntry_quiet {family : Family} {t : Tokens} {e : Str × Value}
    (h : (migrateEntry family t e).2.1 = false) : (migrateEntry family t e).1 = e := by
  obtain ⟨k, v⟩ := e
  cases v with
  | leaf a => rfl
  | node group =>
      exact congrArg (fun items => (k, KeyTree.node items)) (quiet_migrateGroup family t group h)

/-- The sections of the result, stored or not. -/
theorem migrated_spec :
    generalOf (migrated slot sections) = (migrateGeneral slot (generalOf sections)).items ∧
      ∀ path ∈ groupPaths, groupsOf path.1 (migrated slot sections) =
        (groupsOf path.1 sections).map fun e =>
          (migrateEntry path.2 (generalTokens slot sections) e).1 := by
  obtain ⟨hgeneral, hgroups, hchanged⟩ := rewritten_spec slot sections
  unfold migrated
  rw [migrate_fst]
  cases hc : (rewritten slot sections).changed with
  | true => exact ⟨hgeneral, hgroups⟩
  | false =>
      rw [hc] at hchanged
      obtain ⟨hgen, hentries⟩ := Bool.or_eq_false_iff.mp hchanged.symm
      refine ⟨(quiet_migrateGeneral slot _ hgen).symm, fun path hpath => ?_⟩
      have hsame : ∀ e ∈ groupsOf path.1 sections,
          (migrateEntry path.2 (generalTokens slot sections) e).1 = e := fun e he => by
        refine migrateEntry_quiet ?_
        have hpathQuiet := List.any_eq_false.mp hentries path hpath
        exact Bool.not_eq_true _ ▸ fun htrue => hpathQuiet (List.any_eq_true.mpr ⟨e, he, htrue⟩)
      exact (List.map_id _).symm.trans (List.map_congr_left fun e he => (hsame e he).symm)

end

/-! ### The result -/

theorem castString_valueOr {k : Str} {items : Pairs} {t : Str} (h : valueOf k items = text t)
    (default : Value) : castString (valueOr default k items) = t :=
  congrArg castString (valueOr_of_valueOf h default)

theorem tokensOf_valid {general : Pairs} (h : GeneralSettled general)
    (htexts : ∀ k, TextAt k general) : (tokensOf general).Valid := by
  obtain ⟨w, hw⟩ := text_of_valid (htexts _) h.weekday
  obtain ⟨hr, hh⟩ := text_of_valid (htexts _) h.hour
  obtain ⟨m, hm⟩ := text_of_valid_minute (htexts _) h.minute
  refine ⟨?_, ?_, ?_⟩
  · rw [tokensOf, castString_valueOr hw, ← hw]
    exact h.weekday
  · rw [tokensOf, castString_valueOr hh, ← hh]
    exact h.hour
  · rw [tokensOf, castString_valueOr hm, ← hm]
    exact h.minute

theorem stringLeaves_array {path : Str} {sections : Pairs}
    (h : ∀ p ∈ sections, StringLeaves p.2) : ∀ p ∈ groupsOf path sections, StringLeaves p.2 := by
  unfold groupsOf valueOr
  cases hlookup : lookup path sections with
  | none => exact fun p hp => absurd hp List.not_mem_nil
  | some v =>
      have hv := h _ (mem_of_lookup hlookup)
      cases hv with
      | leaf s => exact fun p hp => absurd hp List.not_mem_nil
      | node items hitems => exact hitems

/-- An entry of a section: a group is migrated, anything else stays. -/
def EntryMigrated (family : Family) (e e' : Str × Value) : Prop :=
  e.1 = e'.1 ∧ match e.2 with
    | .leaf a => e'.2 = .leaf a
    | .node group => ∃ group', e'.2 = .node group' ∧ Migrated family group group'

/-- The migration of a settled configuration stores nothing. -/
theorem migrate_of_settled (slot : Fin 28) {sections : Pairs}
    (hgeneral : GeneralSettled (generalOf sections))
    (hgroups : ∀ path ∈ groupPaths, ∀ e ∈ groupsOf path.1 sections, ∀ group,
      e.2 = .node group → GroupSettled group) : (migrate slot sections).1 = none := by
  have hentries : (groupPaths.any fun path => (groupsOf path.1 sections).any fun e =>
      (migrateEntry path.2 (generalTokens slot sections) e).2.1) = false := by
    refine List.any_eq_false.mpr fun path hpath => ?_
    rw [Bool.not_eq_true, List.any_eq_false]
    rintro ⟨k, v⟩ he
    cases v with
    | leaf a => exact Bool.false_ne_true
    | node group =>
        have hsettled := hgroups path hpath _ he group rfl
        change ¬ (migrateGroup path.2 (generalTokens slot sections) group).changed = true
        rw [migrateGroup_of_settled path.2 hsettled]
        exact Bool.false_ne_true
  rw [migrate_fst, (rewritten_spec slot sections).2.2, migrateGeneral_of_settled slot hgeneral,
    hentries]
  rfl

/-- After one migration a second one stores nothing, no legacy key is left, the model reads every
schedule, canonical groups stand as they stood, and a legacy weekday is kept where no canonical key
says otherwise. -/
theorem migrate_complete (slot : Fin 28) {sections : Pairs}
    (hleaves : ∀ p ∈ sections, StringLeaves p.2) :
    (∀ slot', (migrate slot' (migrated slot sections)).1 = none) ∧
    (∀ k ∈ legacyKeys, hasKey k (generalOf (migrated slot sections)) = false) ∧
    (readDefault (generalOf (migrated slot sections))).isSome = true ∧
    ∀ path ∈ groupPaths, List.Forall₂ (EntryMigrated path.2) (groupsOf path.1 sections)
      (groupsOf path.1 (migrated slot sections)) := by
  obtain ⟨hgeneral, hgroups⟩ := migrated_spec slot sections
  have hsettled := generalSettled_migrateGeneral slot (generalOf sections)
  have htexts : ∀ k, TextAt k (migrateGeneral slot (generalOf sections)).items := fun k =>
    textAt_migrateGeneral slot _ (textAt_of_stringLeaves (stringLeaves_array hleaves) k)
  have htokens : (generalTokens slot sections).Valid := tokensOf_valid hsettled htexts
  refine ⟨fun slot' => ?_, ?_, ?_, fun path hpath => ?_⟩
  · refine migrate_of_settled slot' (hgeneral ▸ hsettled) fun path hpath e he group hgroup => ?_
    rw [hgroups path hpath] at he
    obtain ⟨⟨k, v⟩, -, rfl⟩ := List.mem_map.mp he
    cases v with
    | leaf a => cases hgroup
    | node old =>
        obtain rfl := KeyTree.node.inj hgroup
        exact groupSettled_migrateGroup path.2 old htokens
  · rw [hgeneral]
    exact hsettled.legacy
  · rw [hgeneral]
    obtain ⟨day, -, hday, -⟩ := readSlot_of_valid (htexts _) (htexts _) (htexts _)
      hsettled.weekday hsettled.hour hsettled.minute
    exact Option.isSome_iff_exists.mpr ⟨day, hday⟩
  · rw [hgroups path hpath]
    refine List.forall₂_map_right_iff.mpr (List.forall₂_same.mpr fun e he => ?_)
    have hleavesOf := stringLeaves_array hleaves e he
    obtain ⟨k, v⟩ := e
    cases v with
    | leaf a => exact ⟨rfl, rfl⟩
    | node group =>
        cases hleavesOf with
        | node _ hitems =>
            have htext := textAt_of_stringLeaves hitems
            exact ⟨rfl, _, rfl, migrated_migrateGroup path.2 htokens htext⟩

section
variable (group : Pairs)

/-- A configuration with one group of IPv4 lists. -/
def oneList : Pairs :=
  [(genPath, .node []), ("installedpackages/pfblockernglistsv4/config".toList,
    .node [(['0'], .node group)])]

/-- An active weekly group with Wednesday as its legacy weekday. -/
def wednesdays : Pairs :=
  [(kAction, text "Deny_Both".toList), (kCron, text weekly), (kDow, text ['3']),
    (kRow, .node [(['0'], .node [(kUrl, text ['u'])])])]

/-- The same with four valid schedule keys that say Friday. -/
def fridays : Pairs :=
  [(kScheduleOverride, text on), (kScheduleWeekday, text ['5']), (kScheduleHour, text ['0']),
    (kScheduleMinute, text ['0'])] ++ wednesdays

end

theorem stringLeaves_wednesdays : ∀ p ∈ oneList wednesdays, StringLeaves p.2 := by
  have hrow : StringLeaves (.node [(['0'], .node [(kUrl, text ['u'])])]) := by
    refine StringLeaves.node _ fun p hp => ?_
    obtain rfl := List.mem_singleton.mp hp
    refine StringLeaves.node _ fun p hp => ?_
    obtain rfl := List.mem_singleton.mp hp
    exact StringLeaves.leaf _
  have hgroup : StringLeaves (.node wednesdays) := by
    refine StringLeaves.node _ fun p hp => ?_
    have hcases : p = (kAction, text "Deny_Both".toList) ∨ p = (kCron, text weekly) ∨
        p = (kDow, text ['3']) ∨
        p = (kRow, .node [(['0'], .node [(kUrl, text ['u'])])]) := by
      simpa only [wednesdays, List.mem_cons, List.not_mem_nil, or_false] using hp
    rcases hcases with rfl | rfl | rfl | rfl
    · exact StringLeaves.leaf _
    · exact StringLeaves.leaf _
    · exact StringLeaves.leaf _
    · exact hrow
  intro p hp
  rcases List.mem_cons.mp hp with rfl | hp
  · exact StringLeaves.node _ fun p hp => absurd hp List.not_mem_nil
  · obtain rfl := List.mem_singleton.mp hp
    refine StringLeaves.node _ fun p hp => ?_
    obtain rfl := List.mem_singleton.mp hp
    exact hgroup

/-- A legacy configuration, migrated once and for all: its group still runs on Wednesdays. -/
theorem migrate_complete_wednesdays :
    (migrate 0 (migrated 0 (oneList wednesdays))).1 = none ∧
      (readDefault (generalOf (migrated 0 (oneList wednesdays)))).isSome = true ∧
      ∃ group' slot, groupsOf "installedpackages/pfblockernglistsv4/config".toList
          (migrated 0 (oneList wednesdays)) = [(['0'], .node group')] ∧
        hasKey kDow group' = false ∧ readOverride group' = .ok (some slot) ∧ slot.weekday = 3 := by
  obtain ⟨hnone, -, hdefault, hgroups⟩ := migrate_complete 0 stringLeaves_wednesdays
  have hentry := hgroups ("installedpackages/pfblockernglistsv4/config".toList, .ipv4) (by decide)
  rw [show groupsOf _ (oneList wednesdays) = [(['0'], .node wednesdays)] from rfl] at hentry
  obtain ⟨⟨k, v⟩, rest, ⟨hk, group', hv, hmigrated⟩, hrest, hsection⟩ :=
    List.forall₂_cons_left_iff.mp hentry
  obtain rfl := List.forall₂_nil_left_iff.mp hrest
  dsimp only at hk hv
  subst hk hv
  have hoverride : lookup kScheduleOverride wednesdays = none := rfl
  have hweekday : lookup kScheduleWeekday wednesdays = none := rfl
  have hsays : ¬ SaysOtherwise ['3'] wednesdays := by
    rintro (⟨v, hv, -⟩ | ⟨v, hv, -⟩)
    · simp [hoverride] at hv
    · simp [hweekday] at hv
  obtain ⟨slot, hslot, hday⟩ := hmigrated.weekday (by decide) (by decide) ['3'] (by decide)
    (fun h => hsays h.2) fun h => hsays h.2
  exact ⟨hnone 0, hdefault, group', slot, hsection, hmigrated.dow, hslot,
    hday.trans (by decide)⟩

/-- Four canonical keys win over the legacy weekday. -/
theorem migrate_fridays :
    isActive .ipv4 fridays = true ∧ isWeekly fridays = true ∧
      weekdayToken (valueOf kDow fridays) = some ['3'] ∧
      ∃ group', groupsOf "installedpackages/pfblockernglistsv4/config".toList
          (migrated 0 (oneList fridays)) = [(['0'], .node group')] ∧
        ∀ slot, readOverride group' = .ok (some slot) → slot.weekday ≠ 3 := by
  refine ⟨by decide, by decide, by decide, _, rfl, fun slot hslot => ?_⟩
  have hread : readOverride (migrateGroup .ipv4 (generalTokens 0 (oneList fridays)) fridays).items =
      .ok (some ⟨5, 0, 0, by decide, by decide, by decide⟩) := rfl
  obtain rfl := Option.some.inj (Except.ok.inj (hslot.symm.trans hread))
  decide

end PfBlockerNG.ScheduleMigrationComplete
