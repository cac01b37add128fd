import PfBlockerNG.NumericHosts
import PfBlockerNG.ScheduleModel

/-!
The schedule migration: canonical schedule keys for the General section and for every group, in
the place of the legacy ones.
-/

namespace PfBlockerNG.ScheduleMigration

open PfBlockerNG.Strings
open PfBlockerNG.PyText
open PfBlockerNG.IpText
open PfBlockerNG.NumericHosts
open PfBlockerNG.OrderedDict
open PfBlockerNG.KeyedTree
open PfBlockerNG.PhpArray
open PfBlockerNG.Schedule
open PfBlockerNG.ScheduleModel

/-! ### Keys and tokens -/

def genPath : Str := "installedpackages/pfblockerng/config/0".toList

def groupPaths : List (Str × Family) :=
  [("installedpackages/pfblockernglistsv4/config".toList, .ipv4),
    ("installedpackages/pfblockernglistsv6/config".toList, .ipv6),
    ("installedpackages/pfblockerngdnsbl/config".toList, .dnsbl)]

def kInterval : Str := "pfb_interval".toList
def kMin : Str := "pfb_min".toList
def kOldHour : Str := "pfb_hour".toList
def kDailystart : Str := "pfb_dailystart".toList
def kSkipfeed : Str := "skipfeed".toList
def kSettingsFamily : Str := "settings_family".toList
def kDow : Str := "dow".toList

def legacyKeys : List Str := [kInterval, kMin, kOldHour, kDailystart]

def weekly : Str := "Weekly".toList
def never : Str := "Never".toList

/-- `(string) $n`. -/
def intText (n : Int) : Str := if n < 0 then '-' :: octetText n.natAbs else octetText n.natAbs

/-- `$raw`. -/
def rawToken : Value → Option Str
  | .leaf (.int n) => some (intText n)
  | .leaf (.str s) => some s
  | _ => none

/-- `pfb_schedule_numeric_token`. -/
def numericToken (min max : Nat) (value : Value) : Option Str :=
  (rawToken value).bind fun raw =>
    if canonical raw ∧ min ≤ decimal raw ∧ decimal raw ≤ max then some (octetText (decimal raw))
    else none

/-- `pfb_schedule_minute_token`. -/
def minuteToken (value : Value) : Option Str :=
  (numericToken 0 45 value).filter fun token =>
    [['0'], ['1', '5'], ['3', '0'], ['4', '5']].contains token

def weekdayToken : Value → Option Str := numericToken 1 7

def hourToken : Value → Option Str := numericToken 0 23

/-- `(string) $value`. -/
def castString : Value → Str
  | .leaf (.str s) => s
  | .leaf (.int n) => intText n
  | .leaf (.float text) => text
  | .leaf (.bool true) => ['1']
  | .leaf _ => []
  | .node _ => "Array".toList

/-- `pfb_schedule_group_active_rows`. -/
def groupActiveRows (rows : Value) : Bool :=
  ((array rows).getD []).any fun row =>
    (array row.2).any fun row =>
      !isEmpty (valueOf kUrl row) && string (valueOf kState row) != some disabled

/-- `pfb_gconfig_operator_view`. -/
def operatorView (general : Pairs) : Pairs := unset kSettingsFamily general

/-- `pfb_schedule_slot_seed`: a quarter-hour up to 06:45. -/
def slotSeed (slot : Fin 28) : Str × Str :=
  (octetText (slot.val / 4), octetText (slot.val % 4 * 15))

/-! ### Steps -/

/-- A section on its way, whether it has changed, and the keys for the notice. -/
structure State where
  items : Pairs
  changed : Bool
  notices : List Str

def State.write (s : State) (k : Str) (token : Str) : State :=
  { s with items := store k (text token) s.items, changed := true }

def State.notice (s : State) (k : Str) : State := { s with notices := s.notices ++ [k] }

def State.noticeIf (s : State) (b : Bool) (k : Str) : State := if b then s.notice k else s

/-- Give an absent key its value. -/
def seed (k token : Str) (s : State) : State := if hasKey k s.items then s else s.write k token

/-- Put the fallback in the place of a value that is no token. -/
def repair (k : Str) (valid : Value → Option Str) (fallback : Str) (s : State) : State :=
  if (valid (valueOf k s.items)).isNone then (s.write k fallback).notice k else s

/-- Remove a key. -/
def drop (k : Str) (s : State) : State :=
  if hasKey k s.items then { s with items := unset k s.items, changed := true } else s

/-! ### The General section -/

def seedSwitch (fresh : Bool) (s : State) : State :=
  if hasKey kScheduled s.items then s
  else
    let interval := string (valueOf kInterval s.items)
    if interval = some disabled then s.write kScheduled []
    else if interval.any fun i =>
        [['1'], ['2'], ['3'], ['4'], ['6'], ['8'], ['1', '2'], ['2', '4']].contains i then
      s.write kScheduled on
    else (s.write kScheduled on).noticeIf (!fresh) kInterval

/-- The hour and the minute for keys that are absent. -/
def legacyTime (fresh canonical : Bool) (slot : Fin 28) (items : Pairs) : Str × Str :=
  if canonical then (['0'], ['0'])
  else match hourToken (valueOf kDailystart items), minuteToken (valueOf kMin items) with
    | some hour, some minute => if fresh then slotSeed slot else (hour, minute)
    | _, _ => slotSeed slot

def legacyNotices (fresh canonical : Bool) (s : State) : State :=
  if !canonical && !fresh &&
      ((hourToken (valueOf kDailystart s.items)).isNone ||
        (minuteToken (valueOf kMin s.items)).isNone) &&
      (hasKey kDailystart s.items || hasKey kMin s.items) then
    (s.notice kDailystart).notice kMin
  else s

/-- `seed` with the notice of a schedule that was already in part canonical. -/
def seedPart (canonical : Bool) (k token : Str) (s : State) : State :=
  if hasKey k s.items then s else (s.write k token).noticeIf canonical k

def seedTime (fresh canonical : Bool) (slot : Fin 28) (s : State) : State :=
  if hasKey kDefaultHour s.items && hasKey kDefaultMinute s.items then s
  else
    let time := legacyTime fresh canonical slot s.items
    seedPart canonical kDefaultMinute time.2
      (seedPart canonical kDefaultHour time.1 (legacyNotices fresh canonical s))

def hasCanonicalSchedule (general : Pairs) : Bool :=
  hasKey kDefaultWeekday general || hasKey kDefaultHour general || hasKey kDefaultMinute general

def migrateGeneral (slot : Fin 28) (general : Pairs) : State :=
  let fresh := (operatorView general).isEmpty
  let canonical := hasCanonicalSchedule general
  let s := seedSwitch fresh ⟨general, false, []⟩
  let s := repair kDefaultWeekday weekdayToken ['7'] (seed kDefaultWeekday ['7'] s)
  let s := seedTime fresh canonical slot s
  let s := repair kDefaultMinute minuteToken ['0'] (repair kDefaultHour hourToken ['0'] s)
  let s := seed kSkipfeed (if fresh then ['3'] else ['0']) s
  legacyKeys.foldl (fun s k => drop k s) s

/-! ### Groups -/

/-- The schedule of the General section as tokens. -/
structure Tokens where
  weekday : Str
  hour : Str
  minute : Str

def tokensOf (general : Pairs) : Tokens :=
  ⟨castString (valueOr (text ['7']) kDefaultWeekday general),
    castString (valueOr (text ['0']) kDefaultHour general),
    castString (valueOr (text ['0']) kDefaultMinute general)⟩

def scheduleKeys : List Str :=
  [kScheduleOverride, kScheduleWeekday, kScheduleHour, kScheduleMinute]

def isWeekly (group : Pairs) : Bool := string (valueOf kCron group) = some weekly

/-- `$active`. -/
def isActive (family : Family) (group : Pairs) : Bool :=
  groupActionValid (valueOf kAction group) family &&
    string (valueOf kAction group) != some disabled &&
    string (valueOf kCron group) != some never && groupActiveRows (valueOf kRow group)

def seedGroup (family : Family) (t : Tokens) (group : Pairs) : State :=
  let dow := weekdayToken (valueOf kDow group)
  let s : State := ⟨group, true, []⟩
  let s := s.noticeIf (isActive family group && isWeekly group && dow.isNone) kDow
  let s := seed kScheduleOverride
    (if isActive family group && isWeekly group && dow.isSome then on else []) s
  let s := seed kScheduleWeekday (dow.getD ['7']) s
  seed kScheduleMinute t.minute (seed kScheduleHour t.hour s)

/-- `'on'` or `''`. -/
def overrideToken (value : Value) : Option Str :=
  (string value).filter fun s => s = on ∨ s = []

def migrateGroup (family : Family) (t : Tokens) (group : Pairs) : State :=
  let s := if scheduleKeys.all fun k => hasKey k group then ⟨group, false, []⟩
    else seedGroup family t group
  let s := repair kScheduleOverride overrideToken [] s
  let s := repair kScheduleWeekday weekdayToken (if isWeekly group then ['7'] else t.weekday) s
  let s := repair kScheduleMinute minuteToken t.minute (repair kScheduleHour hourToken t.hour s)
  drop kDow s

/-- One entry of a section: what is no group stays. -/
def migrateEntry (family : Family) (t : Tokens) (entry : Str × Value) :
    (Str × Value) × Bool × List Str :=
  match entry.2 with
  | .leaf _ => (entry, false, [])
  | .node group =>
      let s := migrateGroup family t group
      ((entry.1, .node s.items), s.changed, s.notices)

def migrateSection (t : Tokens) (acc : State) (path : Str × Family) : State :=
  match valueOr (.node []) path.1 acc.items with
  | .leaf _ => acc
  | .node groups =>
      let migrated := groups.map (migrateEntry path.2 t)
      ⟨store path.1 (.node (migrated.map Prod.fst)) acc.items,
        acc.changed || migrated.any fun m => m.2.1,
        acc.notices ++ migrated.flatMap fun m => m.2.2⟩

/-- `pfb_schedule_migrate`: the sections to store, if any, and the keys that the notice names. -/
def migrate (slot : Fin 28) (sections : Pairs) : Option Pairs × List Str :=
  let s := migrateGeneral slot ((array (valueOr (.node []) genPath sections)).getD [])
  let s := groupPaths.foldl (migrateSection (tokensOf s.items))
    ⟨store genPath (.node s.items) sections, s.changed, s.notices⟩
  (if s.changed then some s.items else none, s.notices.dedup.mergeSort)

/-! ### What a step may do -/

/-- From `s` to `s'` only the values of `ks` may change, and then the change is noted. -/
structure Step (ks : List Str) (s s' : State) : Prop where
  frame : ∀ k, k ∉ ks → lookup k s'.items = lookup k s.items
  quiet : s'.changed = false → s'.items = s.items ∧ s.changed = false

namespace Step

theorem refl (s : State) : Step [] s s := ⟨fun _ _ => rfl, fun h => ⟨rfl, h⟩⟩

theorem trans {ks ks' : List Str} {s s' s'' : State} (h : Step ks s s') (h' : Step ks' s' s'') :
    Step (ks ++ ks') s s'' := by
  constructor
  · intro k hk
    rw [List.mem_append, not_or] at hk
    exact (h'.frame k hk.2).trans (h.frame k hk.1)
  · intro hchanged
    obtain ⟨hitems', hmid⟩ := h'.quiet hchanged
    obtain ⟨hitems, hfirst⟩ := h.quiet hmid
    exact ⟨hitems'.trans hitems, hfirst⟩

theorem mono {ks ks' : List Str} {s s' : State} (h : Step ks s s') (hsub : ∀ k ∈ ks, k ∈ ks') :
    Step ks' s s' := ⟨fun k hk => h.frame k fun hmem => hk (hsub k hmem), h.quiet⟩

theorem write (s : State) (k token : Str) : Step [k] s (s.write k token) := by
  refine ⟨fun k' hk => ?_, fun h => (by cases h)⟩
  rw [List.mem_singleton] at hk
  exact (lookup_store k k' _ s.items).trans (if_neg (Ne.symm hk))

theorem notice (s : State) (k : Str) : Step [] s (s.notice k) :=
  ⟨fun _ _ => rfl, fun h => ⟨rfl, h⟩⟩

theorem noticeIf (s : State) (b : Bool) (k : Str) : Step [] s (s.noticeIf b k) := by
  cases b with
  | false => exact refl s
  | true => exact notice s k

theorem seed (s : State) (k token : Str) : Step [k] s (seed k token s) := by
  unfold ScheduleMigration.seed
  split
  · exact (refl s).mono fun _ h => absurd h List.not_mem_nil
  · exact write s k token

theorem repair (s : State) (k : Str) (valid : Value → Option Str) (fallback : Str) :
    Step [k] s (repair k valid fallback s) := by
  unfold ScheduleMigration.repair
  split
  · exact (write s k fallback).trans (notice _ k)
  · exact (refl s).mono fun _ h => absurd h List.not_mem_nil

theorem drop (s : State) (k : Str) : Step [k] s (drop k s) := by
  unfold ScheduleMigration.drop
  split
  · refine ⟨fun k' hk => ?_, fun h => (by cases h)⟩
    rw [List.mem_singleton] at hk
    exact (lookup_unset k k' s.items).trans (if_neg (Ne.symm hk))
  · exact (refl s).mono fun _ h => absurd h List.not_mem_nil

theorem valueOf {ks : List Str} {s s' : State} (h : Step ks s s') {k : Str} (hk : k ∉ ks) :
    PhpArray.valueOf k s'.items = PhpArray.valueOf k s.items := by
  rw [PhpArray.valueOf, h.frame k hk]
  rfl

theorem hasKey {ks : List Str} {s s' : State} (h : Step ks s s') {k : Str} (hk : k ∉ ks) :
    PhpArray.hasKey k s'.items = PhpArray.hasKey k s.items := by
  rw [PhpArray.hasKey, h.frame k hk]
  rfl

end Step

theorem seed_of_hasKey {s : State} {k : Str} (h : hasKey k s.items = true) (token : Str) :
    seed k token s = s := if_pos h

theorem hasKey_write {s : State} {k : Str} (h : hasKey k s.items = true) (k' token : Str) :
    hasKey k (s.write k' token).items = true :=
  (hasKey_store k' k _ s.items).trans (by rw [h, Bool.or_true])

theorem hasKey_write_self (s : State) (k token : Str) :
    hasKey k (s.write k token).items = true :=
  (hasKey_store k k _ s.items).trans (by rw [decide_eq_true rfl, Bool.true_or])

theorem hasKey_seed {s : State} {k : Str} (h : hasKey k s.items = true) (k' token : Str) :
    hasKey k (seed k' token s).items = true := by
  unfold seed
  split
  · exact h
  · exact hasKey_write h k' token

theorem hasKey_seed_self (s : State) (k token : Str) :
    hasKey k (seed k token s).items = true := by
  unfold seed
  split
  · assumption
  · exact hasKey_write_self s k token

theorem repair_of_valid {s : State} {k : Str} {valid : Value → Option Str}
    (h : (valid (valueOf k s.items)).isSome = true) (fallback : Str) :
    repair k valid fallback s = s := by
  unfold repair
  rw [Option.isNone_eq_false_iff.mpr h]
  rfl

theorem valid_repair (s : State) (k : Str) {valid : Value → Option Str} {fallback : Str}
    (h : (valid (text fallback)).isSome = true) :
    (valid (valueOf k (repair k valid fallback s).items)).isSome = true := by
  unfold repair
  split
  · have hvalue : valueOf k ((s.write k fallback).notice k).items = text fallback :=
      (valueOf_store k k _ s.items).trans (if_pos rfl)
    rw [hvalue]
    exact h
  · rename_i hvalid
    exact Option.isSome_iff_ne_none.mpr fun h => hvalid (Option.isNone_iff_eq_none.mpr h)

theorem hasKey_repair {s : State} {k : Str} (h : hasKey k s.items = true) (k' : Str)
    (valid : Value → Option Str) (fallback : Str) :
    hasKey k (repair k' valid fallback s).items = true := by
  unfold repair
  split
  · exact hasKey_write h k' fallback
  · exact h

theorem drop_of_not_hasKey {s : State} {k : Str} (h : hasKey k s.items = false) :
    drop k s = s := by
  unfold drop
  rw [h]
  rfl

theorem hasKey_drop (s : State) (k : Str) : hasKey k (drop k s).items = false := by
  unfold drop
  split
  · rw [hasKey, lookup_unset, if_pos rfl]
    rfl
  · rename_i h
    exact Bool.not_eq_true _ ▸ h

/-- What stands under a key is no number: where it may be a token, it is a text. -/
def TextAt (k : Str) (items : Pairs) : Prop :=
  ∀ v t, lookup k items = some v → rawToken v = some t → v = text t

theorem textAt_congr {k : Str} {items items' : Pairs} (h : lookup k items' = lookup k items) :
    TextAt k items → TextAt k items' := fun htext v t hv => htext v t (h ▸ hv)

theorem textAt_write {s : State} {k : Str} (h : TextAt k s.items) (k' token : Str) :
    TextAt k (s.write k' token).items := by
  intro v t hv ht
  rw [State.write, lookup_store] at hv
  split at hv
  · obtain rfl := Option.some.inj hv
    rw [Option.some.inj ht]
  · exact h v t hv ht

theorem textAt_seed {s : State} {k : Str} (h : TextAt k s.items) (k' token : Str) :
    TextAt k (seed k' token s).items := by
  unfold seed
  split
  · exact h
  · exact textAt_write h k' token

theorem textAt_repair {s : State} {k : Str} (h : TextAt k s.items) (k' : Str)
    (valid : Value → Option Str) (fallback : Str) :
    TextAt k (repair k' valid fallback s).items := by
  unfold repair
  split
  · exact textAt_write h k' fallback
  · exact h

theorem textAt_drop {s : State} {k : Str} (h : TextAt k s.items) (k' : Str) :
    TextAt k (drop k' s).items := by
  unfold drop
  split
  · intro v t hv ht
    rw [lookup_unset] at hv
    split at hv
    · cases hv
    · exact h v t hv ht
  · exact h

/-! ### The General section -/

theorem step_seedSwitch (fresh : Bool) (s : State) : Step [kScheduled] s (seedSwitch fresh s) := by
  unfold seedSwitch
  split
  · exact (Step.refl s).mono fun _ h => absurd h List.not_mem_nil
  · dsimp only
    split
    · exact Step.write s _ _
    · split
      · exact Step.write s _ _
      · exact (Step.write s _ _).trans (Step.noticeIf _ _ _)

theorem hasKey_seedSwitch (fresh : Bool) (s : State) :
    hasKey kScheduled (seedSwitch fresh s).items = true := by
  unfold seedSwitch
  split
  · assumption
  · dsimp only
    split
    · exact hasKey_write_self s _ _
    · split
      · exact hasKey_write_self s _ _
      · exact ((Step.noticeIf _ _ _).hasKey List.not_mem_nil).trans (hasKey_write_self s _ _)

theorem textAt_seedSwitch {s : State} {k : Str} (h : TextAt k s.items) (fresh : Bool) :
    TextAt k (seedSwitch fresh s).items := by
  unfold seedSwitch
  split
  · exact h
  · dsimp only
    split
    · exact textAt_write h _ _
    · split
      · exact textAt_write h _ _
      · exact textAt_congr ((Step.noticeIf _ _ _).frame k List.not_mem_nil) (textAt_write h _ _)

theorem step_seedPart (canonical : Bool) (s : State) (k token : Str) :
    Step [k] s (seedPart canonical k token s) := by
  unfold seedPart
  split
  · exact (Step.refl s).mono fun _ h => absurd h List.not_mem_nil
  · exact (Step.write s _ _).trans (Step.noticeIf _ _ _)

theorem hasKey_seedPart {s : State} {k : Str} (h : hasKey k s.items = true) (canonical : Bool)
    (k' token : Str) : hasKey k (seedPart canonical k' token s).items = true := by
  unfold seedPart
  split
  · exact h
  · exact ((Step.noticeIf _ _ _).hasKey List.not_mem_nil).trans (hasKey_write h k' token)

theorem hasKey_seedPart_self (canonical : Bool) (s : State) (k token : Str) :
    hasKey k (seedPart canonical k token s).items = true := by
  unfold seedPart
  split
  · assumption
  · exact ((Step.noticeIf _ _ _).hasKey List.not_mem_nil).trans (hasKey_write_self s k token)

theorem textAt_seedPart {s : State} {k : Str} (h : TextAt k s.items) (canonical : Bool)
    (k' token : Str) : TextAt k (seedPart canonical k' token s).items := by
  unfold seedPart
  split
  · exact h
  · exact textAt_congr ((Step.noticeIf _ _ _).frame k List.not_mem_nil) (textAt_write h k' token)

theorem step_legacyNotices (fresh canonical : Bool) (s : State) :
    Step [] s (legacyNotices fresh canonical s) := by
  unfold legacyNotices
  split
  · exact (Step.notice s _).trans (Step.notice _ _)
  · exact Step.refl s

theorem step_seedTime (fresh canonical : Bool) (slot : Fin 28) (s : State) :
    Step [kDefaultHour, kDefaultMinute] s (seedTime fresh canonical slot s) := by
  unfold seedTime
  split
  · exact (Step.refl s).mono fun _ h => absurd h List.not_mem_nil
  · exact ((step_legacyNotices fresh canonical s).trans (step_seedPart canonical _ _ _)).trans
      (step_seedPart canonical _ _ _)

theorem hasKey_seedTime (fresh canonical : Bool) (slot : Fin 28) (s : State) :
    hasKey kDefaultHour (seedTime fresh canonical slot s).items = true ∧
      hasKey kDefaultMinute (seedTime fresh canonical slot s).items = true := by
  unfold seedTime
  split
  · rename_i h
    exact Bool.and_eq_true_iff.mp h
  · exact ⟨hasKey_seedPart (hasKey_seedPart_self _ _ _ _) _ _ _, hasKey_seedPart_self _ _ _ _⟩

theorem textAt_seedTime {s : State} {k : Str} (h : TextAt k s.items) (fresh canonical : Bool)
    (slot : Fin 28) : TextAt k (seedTime fresh canonical slot s).items := by
  unfold seedTime
  split
  · exact h
  · refine textAt_seedPart (textAt_seedPart ?_ _ _ _) _ _ _
    exact textAt_congr ((step_legacyNotices fresh canonical s).frame k List.not_mem_nil) h

/-- A General section that the migration leaves alone. -/
structure GeneralSettled (general : Pairs) : Prop where
  switch : hasKey kScheduled general = true
  skipfeed : hasKey kSkipfeed general = true
  weekdayKey : hasKey kDefaultWeekday general = true
  hourKey : hasKey kDefaultHour general = true
  minuteKey : hasKey kDefaultMinute general = true
  weekday : (weekdayToken (valueOf kDefaultWeekday general)).isSome = true
  hour : (hourToken (valueOf kDefaultHour general)).isSome = true
  minute : (minuteToken (valueOf kDefaultMinute general)).isSome = true
  legacy : ∀ k ∈ legacyKeys, hasKey k general = false

theorem step_drops (keys : List Str) (s : State) :
    Step keys s (keys.foldl (fun s k => drop k s) s) := by
  induction keys generalizing s with
  | nil => exact Step.refl s
  | cons k keys ih => exact (Step.drop s k).trans (ih (drop k s))

theorem hasKey_drops (keys : List Str) (s : State) {k : Str} (hk : k ∈ keys) :
    hasKey k (keys.foldl (fun s k => drop k s) s).items = false := by
  induction keys generalizing s with
  | nil => exact absurd hk List.not_mem_nil
  | cons k' keys ih =>
      rw [List.foldl_cons]
      by_cases hmem : k ∈ keys
      · exact ih _ hmem
      · obtain rfl : k = k' := (List.mem_cons.mp hk).resolve_right hmem
        exact ((step_drops keys _).hasKey hmem).trans (hasKey_drop s k)

theorem textAt_drops {k : Str} (keys : List Str) {s : State} (h : TextAt k s.items) :
    TextAt k (keys.foldl (fun s k => drop k s) s).items := by
  induction keys generalizing s with
  | nil => exact h
  | cons k' keys ih => exact ih (textAt_drop h k')

section
variable (slot : Fin 28) (general : Pairs)

/-- The General section with its switch. -/
def switched : State := seedSwitch (operatorView general).isEmpty ⟨general, false, []⟩

/-- ... its weekday, ... -/
def withWeekday : State :=
  repair kDefaultWeekday weekdayToken ['7'] (seed kDefaultWeekday ['7'] (switched general))

/-- ... its time, ... -/
def withTime : State :=
  seedTime (operatorView general).isEmpty (hasCanonicalSchedule general) slot (withWeekday general)

/-- ... the time as tokens, ... -/
def withTokens : State :=
  repair kDefaultMinute minuteToken ['0']
    (repair kDefaultHour hourToken ['0'] (withTime slot general))

/-- ... and everything but the legacy keys gone. -/
def withSkipfeed : State :=
  seed kSkipfeed (if (operatorView general).isEmpty then ['3'] else ['0']) (withTokens slot general)

theorem migrateGeneral_eq : migrateGeneral slot general =
    legacyKeys.foldl (fun s k => drop k s) (withSkipfeed slot general) := rfl

theorem step_withWeekday : Step [kDefaultWeekday] (switched general) (withWeekday general) :=
  ((Step.seed _ _ _).trans (Step.repair _ _ _ _)).mono fun k hk => by simpa using hk

theorem step_withTokens :
    Step [kDefaultHour, kDefaultMinute] (withTime slot general) (withTokens slot general) :=
  (Step.repair _ _ _ _).trans (Step.repair _ _ _ _)

theorem step_withTime :
    Step [kDefaultHour, kDefaultMinute] (withWeekday general) (withTime slot general) :=
  step_seedTime _ _ _ _

/-- From the weekday on only these keys change. -/
theorem step_rest :
    Step [kDefaultHour, kDefaultMinute, kDefaultHour, kDefaultMinute, kSkipfeed, kInterval, kMin,
      kOldHour, kDailystart] (withWeekday general) (migrateGeneral slot general) := by
  have hskip : Step [kSkipfeed] (withTokens slot general) (withSkipfeed slot general) :=
    Step.seed _ _ _
  have hdrops : Step legacyKeys (withSkipfeed slot general) (migrateGeneral slot general) :=
    step_drops legacyKeys _
  exact (((step_withTime slot general).trans (step_withTokens slot general)).trans hskip).trans
    hdrops

theorem step_last : Step [kSkipfeed, kInterval, kMin, kOldHour, kDailystart]
    (withTokens slot general) (migrateGeneral slot general) := by
  have hskip : Step [kSkipfeed] (withTokens slot general) (withSkipfeed slot general) :=
    Step.seed _ _ _
  exact hskip.trans (step_drops legacyKeys _)

/-- A section that comes out unchanged was not touched. -/
theorem quiet_migrateGeneral (h : (migrateGeneral slot general).changed = false) :
    (migrateGeneral slot general).items = general := by
  have hfirst : Step [kScheduled] ⟨general, false, []⟩ (switched general) := step_seedSwitch _ _
  exact (((hfirst.trans (step_withWeekday general)).trans (step_rest slot general)).quiet h).1

/-- Every migrated General section is settled. -/
theorem generalSettled_migrateGeneral : GeneralSettled (migrateGeneral slot general).items := by
  have hrest := step_rest slot general
  have hlast := step_last slot general
  have hdrops := step_drops legacyKeys (withSkipfeed slot general)
  obtain ⟨hhour, hminute⟩ := hasKey_seedTime (operatorView general).isEmpty
    (hasCanonicalSchedule general) slot (withWeekday general)
  have hkept : ∀ k, k ∉ legacyKeys → hasKey k (withTime slot general).items = true →
      hasKey k (migrateGeneral slot general).items = true := fun k hk h =>
    (hdrops.hasKey hk).trans (hasKey_seed (hasKey_repair (hasKey_repair h _ _ _) _ _ _) _ _)
  have hminuteStep : Step [kDefaultMinute] (repair kDefaultHour hourToken ['0']
      (withTime slot general)) (withTokens slot general) := Step.repair _ _ _ _
  constructor
  · refine (hrest.hasKey (by decide)).trans
      (((step_withWeekday general).hasKey (by decide)).trans ?_)
    exact hasKey_seedSwitch _ _
  · exact (hdrops.hasKey (by decide)).trans (hasKey_seed_self _ _ _)
  · exact (hrest.hasKey (by decide)).trans (hasKey_repair (hasKey_seed_self _ _ _) _ _ _)
  · exact hkept _ (by decide) hhour
  · exact hkept _ (by decide) hminute
  · rw [hrest.valueOf (by decide)]
    exact valid_repair _ _ (by decide)
  · rw [hlast.valueOf (by decide), hminuteStep.valueOf (by decide)]
    exact valid_repair _ _ (by decide)
  · rw [hlast.valueOf (by decide)]
    exact valid_repair _ _ (by decide)
  · intro k hk
    rw [migrateGeneral_eq]
    exact hasKey_drops legacyKeys _ hk

/-- In a migrated General section no number stands where none stood before. -/
theorem textAt_migrateGeneral {k : Str} (h : TextAt k general) :
    TextAt k (migrateGeneral slot general).items := by
  have hswitched : TextAt k (switched general).items := textAt_seedSwitch h _
  have hweekday : TextAt k (withWeekday general).items :=
    textAt_repair (textAt_seed hswitched _ _) _ _ _
  have htime : TextAt k (withTime slot general).items := textAt_seedTime hweekday _ _ slot
  have htokens : TextAt k (withTokens slot general).items :=
    textAt_repair (textAt_repair htime _ _ _) _ _ _
  have hskip : TextAt k (withSkipfeed slot general).items := textAt_seed htokens _ _
  rw [migrateGeneral_eq]
  exact textAt_drops legacyKeys hskip

variable {general}

/-- A settled section is not touched. -/
theorem migrateGeneral_of_settled (h : GeneralSettled general) :
    migrateGeneral slot general = ⟨general, false, []⟩ := by
  have hswitched : switched general = ⟨general, false, []⟩ := if_pos h.switch
  have hweekday : withWeekday general = ⟨general, false, []⟩ := by
    rw [withWeekday, hswitched, seed_of_hasKey h.weekdayKey, repair_of_valid h.weekday]
  have htime : withTime slot general = ⟨general, false, []⟩ := by
    rw [withTime, hweekday]
    exact if_pos (Bool.and_eq_true_iff.mpr ⟨h.hourKey, h.minuteKey⟩)
  have htokens : withTokens slot general = ⟨general, false, []⟩ := by
    have hhour : repair kDefaultHour hourToken ['0'] ⟨general, false, []⟩ =
        ⟨general, false, []⟩ := repair_of_valid h.hour _
    rw [withTokens, htime, hhour]
    exact repair_of_valid h.minute _
  have hskip : withSkipfeed slot general = ⟨general, false, []⟩ := by
    rw [withSkipfeed, htokens, seed_of_hasKey h.skipfeed]
  have hdrops : ∀ keys : List Str, (∀ k ∈ keys, hasKey k general = false) →
      keys.foldl (fun s k => drop k s) ⟨general, false, []⟩ = ⟨general, false, []⟩ := by
    intro keys
    induction keys with
    | nil => exact fun _ => rfl
    | cons k keys ih =>
        intro hkeys
        obtain ⟨hk, hrest⟩ := List.forall_mem_cons.mp hkeys
        rw [List.foldl_cons, drop_of_not_hasKey hk]
        exact ih hrest
  rw [migrateGeneral_eq, hskip]
  exact hdrops legacyKeys h.legacy

end

/-! ### Groups -/

/-- A group whose four keys are tokens. -/
structure Canonical (group : Pairs) : Prop where
  keys : ∀ k ∈ scheduleKeys, hasKey k group = true
  override : (overrideToken (valueOf kScheduleOverride group)).isSome = true
  weekday : (weekdayToken (valueOf kScheduleWeekday group)).isSome = true
  hour : (hourToken (valueOf kScheduleHour group)).isSome = true
  minute : (minuteToken (valueOf kScheduleMinute group)).isSome = true

/-- A group that the migration leaves alone. -/
structure GroupSettled (group : Pairs) : Prop extends Canonical group where
  dow : hasKey kDow group = false

/-- The general tokens are tokens. -/
structure Tokens.Valid (t : Tokens) : Prop where
  weekday : (weekdayToken (text t.weekday)).isSome = true
  hour : (hourToken (text t.hour)).isSome = true
  minute : (minuteToken (text t.minute)).isSome = true

section
variable (family : Family) (t : Tokens) (group : Pairs)

/-- The group with all four keys. -/
def keyed : State :=
  if scheduleKeys.all fun k => hasKey k group then ⟨group, false, []⟩ else seedGroup family t group

/-- The group with its override and its weekday as tokens. -/
def withGroupWeekday : State :=
  repair kScheduleWeekday weekdayToken (if isWeekly group then ['7'] else t.weekday)
    (repair kScheduleOverride overrideToken [] (keyed family t group))

def withGroupTime : State :=
  repair kScheduleMinute minuteToken t.minute
    (repair kScheduleHour hourToken t.hour (withGroupWeekday family t group))

theorem migrateGroup_eq : migrateGroup family t group = drop kDow (withGroupTime family t group) :=
  rfl

/-- The group with the notice of a weekday that cannot be kept. -/
def noticed : State :=
  (⟨group, true, []⟩ : State).noticeIf
    (isActive family group && isWeekly group && (weekdayToken (valueOf kDow group)).isNone) kDow

def seededOverride : State :=
  seed kScheduleOverride (if isActive family group && isWeekly group &&
    (weekdayToken (valueOf kDow group)).isSome then on else []) (noticed family group)

def seededWeekday : State :=
  seed kScheduleWeekday ((weekdayToken (valueOf kDow group)).getD ['7'])
    (seededOverride family group)

theorem seedGroup_eq : seedGroup family t group =
    seed kScheduleMinute t.minute (seed kScheduleHour t.hour (seededWeekday family group)) := rfl

theorem step_noticed : Step [] ⟨group, true, []⟩ (noticed family group) := Step.noticeIf _ _ _

theorem step_seededOverride :
    Step [kScheduleOverride] (noticed family group) (seededOverride family group) := Step.seed _ _ _

theorem step_seededWeekday :
    Step [kScheduleWeekday] (seededOverride family group) (seededWeekday family group) :=
  Step.seed _ _ _

theorem step_seedGroup_last :
    Step [kScheduleHour, kScheduleMinute] (seededWeekday family group)
      (seedGroup family t group) := by
  rw [seedGroup_eq]
  exact (Step.seed _ _ _).trans (Step.seed _ _ _)

theorem step_seedGroup : Step scheduleKeys ⟨group, true, []⟩ (seedGroup family t group) :=
  (((step_noticed family group).trans (step_seededOverride family group)).trans
    (step_seededWeekday family group)).trans (step_seedGroup_last family t group)

theorem hasKey_seedGroup :
    ∀ k ∈ scheduleKeys, hasKey k (seedGroup family t group).items = true := by
  intro k hk
  have hcases : k = kScheduleOverride ∨ k = kScheduleWeekday ∨ k = kScheduleHour ∨
      k = kScheduleMinute := by simpa [scheduleKeys] using hk
  rcases hcases with rfl | rfl | rfl | rfl
  · exact hasKey_seed (hasKey_seed (hasKey_seed (hasKey_seed_self _ _ _) _ _) _ _) _ _
  · exact hasKey_seed (hasKey_seed (hasKey_seed_self _ _ _) _ _) _ _
  · exact hasKey_seed (hasKey_seed_self _ _ _) _ _
  · exact hasKey_seed_self _ _ _

theorem textAt_seedGroup {k : Str} (h : TextAt k group) :
    TextAt k (seedGroup family t group).items := by
  have hnoticed : TextAt k (noticed family group).items :=
    textAt_congr ((step_noticed family group).frame k List.not_mem_nil) h
  have hweekday : TextAt k (seededWeekday family group).items :=
    textAt_seed (textAt_seed hnoticed _ _) _ _
  exact textAt_seed (textAt_seed hweekday _ _) _ _

theorem keyed_spec : (∀ k ∈ scheduleKeys, hasKey k (keyed family t group).items = true) ∧
    (∀ k, k ∉ scheduleKeys → lookup k (keyed family t group).items = lookup k group) ∧
    ((keyed family t group).changed = false → (keyed family t group).items = group) ∧
    ∀ k, TextAt k group → TextAt k (keyed family t group).items := by
  unfold keyed
  split
  · rename_i hall
    exact ⟨fun k hk => List.all_eq_true.mp hall k hk, fun _ _ => rfl, fun _ => rfl,
      fun k h => h⟩
  · have hstep := step_seedGroup family t group
    exact ⟨hasKey_seedGroup family t group, hstep.frame, fun h => (hstep.quiet h).1,
      fun k h => textAt_seedGroup family t group h⟩

/-- The group with its override as a token. -/
def withOverride : State := repair kScheduleOverride overrideToken [] (keyed family t group)

/-- The group with its hour as a token. -/
def withHour : State :=
  repair kScheduleHour hourToken t.hour (withGroupWeekday family t group)

theorem step_withOverride :
    Step [kScheduleOverride] (keyed family t group) (withOverride family t group) :=
  Step.repair _ _ _ _

theorem step_withGroupWeekday :
    Step [kScheduleWeekday] (withOverride family t group) (withGroupWeekday family t group) :=
  Step.repair _ _ _ _

theorem step_withHour :
    Step [kScheduleHour] (withGroupWeekday family t group) (withHour family t group) :=
  Step.repair _ _ _ _

theorem step_withMinute :
    Step [kScheduleMinute] (withHour family t group) (withGroupTime family t group) :=
  Step.repair _ _ _ _

theorem step_dropDow :
    Step [kDow] (withGroupTime family t group) (migrateGroup family t group) := Step.drop _ _

/-- After the override these keys change at most. -/
theorem step_afterOverride : Step [kScheduleWeekday, kScheduleHour, kScheduleMinute, kDow]
    (withOverride family t group) (migrateGroup family t group) :=
  (((step_withGroupWeekday family t group).trans (step_withHour family t group)).trans
    (step_withMinute family t group)).trans (step_dropDow family t group)

theorem step_afterWeekday : Step [kScheduleHour, kScheduleMinute, kDow]
    (withGroupWeekday family t group) (migrateGroup family t group) :=
  ((step_withHour family t group).trans (step_withMinute family t group)).trans
    (step_dropDow family t group)

theorem step_afterHour : Step [kScheduleMinute, kDow] (withHour family t group)
    (migrateGroup family t group) :=
  (step_withMinute family t group).trans (step_dropDow family t group)

/-- The rest of a group stays as it is. -/
theorem frame_migrateGroup {k : Str} (hk : k ∉ kDow :: scheduleKeys) :
    lookup k (migrateGroup family t group).items = lookup k group := by
  rw [List.mem_cons, not_or] at hk
  have hkeyed := (keyed_spec family t group).2.1 k hk.2
  have hoverride := (step_withOverride family t group).frame k fun hmem =>
    hk.2 (List.mem_singleton.mp hmem ▸ List.mem_cons_self)
  refine ((step_afterOverride family t group).frame k fun hmem => ?_).trans (hoverride.trans hkeyed)
  have hcases : k = kScheduleWeekday ∨ k = kScheduleHour ∨ k = kScheduleMinute ∨ k = kDow := by
    simpa using hmem
  rcases hcases with rfl | rfl | rfl | rfl
  · exact hk.2 (by decide)
  · exact hk.2 (by decide)
  · exact hk.2 (by decide)
  · exact hk.1 rfl

theorem quiet_migrateGroup (h : (migrateGroup family t group).changed = false) :
    (migrateGroup family t group).items = group := by
  obtain ⟨hitems, hchanged⟩ :=
    ((step_withOverride family t group).trans (step_afterOverride family t group)).quiet h
  exact hitems.trans ((keyed_spec family t group).2.2.1 hchanged)

variable {t}

theorem Tokens.Valid.fallback (ht : t.Valid) (b : Bool) :
    (weekdayToken (text (if b then ['7'] else t.weekday))).isSome = true := by
  cases b with
  | true => exact (by decide : (weekdayToken (text ['7'])).isSome = true)
  | false => exact ht.weekday

/-- Every migrated group is settled. -/
theorem groupSettled_migrateGroup (ht : t.Valid) :
    GroupSettled (migrateGroup family t group).items := by
  have hkeyed := (keyed_spec family t group).1
  have hafter := step_afterOverride family t group
  have hafterW := step_afterWeekday family t group
  have hafterH := step_afterHour family t group
  have hdow := step_dropDow family t group
  refine ⟨⟨fun k hk => ?_, ?_, ?_, ?_, ?_⟩, hasKey_drop _ _⟩
  · have hnot : k ∉ [kDow] := fun hmem => by
      rw [List.mem_singleton.mp hmem] at hk
      exact absurd hk (by decide)
    have hover : hasKey k (withOverride family t group).items = true :=
      hasKey_repair (hkeyed k hk) _ _ _
    have htime : hasKey k (withGroupTime family t group).items = true :=
      hasKey_repair (hasKey_repair (hasKey_repair hover _ _ _) _ _ _) _ _ _
    exact (hdow.hasKey hnot).trans htime
  · rw [hafter.valueOf (by decide)]
    exact valid_repair _ _ (by decide)
  · rw [hafterW.valueOf (by decide)]
    exact valid_repair _ _ (ht.fallback _)
  · rw [hafterH.valueOf (by decide)]
    exact valid_repair _ _ ht.hour
  · rw [hdow.valueOf (by decide)]
    exact valid_repair _ _ ht.minute

/-- In a migrated group no number stands where none stood before. -/
theorem textAt_migrateGroup {k : Str} (h : TextAt k group) :
    TextAt k (migrateGroup family t group).items := by
  have hkeyed := (keyed_spec family t group).2.2.2 k h
  have hweekday : TextAt k (withGroupWeekday family t group).items :=
    textAt_repair (textAt_repair hkeyed _ _ _) _ _ _
  exact textAt_drop (textAt_repair (textAt_repair hweekday _ _ _) _ _ _) kDow

variable {group}

/-- Of a canonical group only the legacy weekday goes. -/
theorem migrateGroup_of_canonical (h : Canonical group) :
    migrateGroup family t group = drop kDow ⟨group, false, []⟩ := by
  have hkeyed : keyed family t group = ⟨group, false, []⟩ :=
    if_pos (List.all_eq_true.mpr h.keys)
  have hover : withOverride family t group = ⟨group, false, []⟩ := by
    rw [withOverride, hkeyed]
    exact repair_of_valid h.override _
  have hweek : withGroupWeekday family t group = ⟨group, false, []⟩ := by
    rw [withGroupWeekday, hkeyed]
    have hfirst : repair kScheduleOverride overrideToken [] ⟨group, false, []⟩ =
        ⟨group, false, []⟩ := repair_of_valid h.override _
    rw [hfirst]
    exact repair_of_valid h.weekday _
  have hhour : withHour family t group = ⟨group, false, []⟩ := by
    rw [withHour, hweek]
    exact repair_of_valid h.hour _
  have htime : withGroupTime family t group = ⟨group, false, []⟩ := by
    have hsplit : withGroupTime family t group =
        repair kScheduleMinute minuteToken t.minute (withHour family t group) := rfl
    rw [hsplit, hhour]
    exact repair_of_valid h.minute _
  rw [migrateGroup_eq, htime]

theorem migrateGroup_of_settled (h : GroupSettled group) :
    migrateGroup family t group = ⟨group, false, []⟩ := by
  rw [migrateGroup_of_canonical family h.toCanonical]
  exact drop_of_not_hasKey h.dow

end

end PfBlockerNG.ScheduleMigration
