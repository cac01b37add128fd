import PfBlockerNG.PhpArray
import PfBlockerNG.ScheduleTick

/-!
The schedule model: the builder that reads it from the General section and the groups, and the
validator that every consumer runs over the finished document.
-/

namespace PfBlockerNG.ScheduleModel

open PfBlockerNG.Strings
open PfBlockerNG.PyText
open PfBlockerNG.IpText
open PfBlockerNG.OrderedDict
open PfBlockerNG.KeyedTree
open PfBlockerNG.PhpArray
open PfBlockerNG.Schedule
open PfBlockerNG.ScheduleState
open PfBlockerNG.ScheduleTick

/-! ### Keys and tokens -/

def kWeekday : Str := "weekday".toList
def kHour : Str := "hour".toList
def kMinute : Str := "minute".toList
def kScheduleOverride : Str := "schedule_override".toList
def kScheduleWeekday : Str := "schedule_weekday".toList
def kScheduleHour : Str := "schedule_hour".toList
def kScheduleMinute : Str := "schedule_minute".toList
def kScheduled : Str := "pfb_scheduled_feed_updates".toList
def kDefaultWeekday : Str := "pfb_schedule_weekday".toList
def kDefaultHour : Str := "pfb_schedule_hour".toList
def kDefaultMinute : Str := "pfb_schedule_minute".toList
def kAction : Str := "action".toList
def kAliasname : Str := "aliasname".toList
def kCron : Str := "cron".toList
def kRow : Str := "row".toList
def kSrcint : Str := "srcint".toList
def kFormat : Str := "format".toList
def kUrl : Str := "url".toList
def kState : Str := "state".toList
def kHeader : Str := "header".toList
def on : Str := "on".toList
def disabled : Str := "Disabled".toList

inductive Family where
  | ipv4
  | ipv6
  | dnsbl
  deriving DecidableEq, Repr

def Family.name : Family → Str
  | .ipv4 => "ipv4".toList
  | .ipv6 => "ipv6".toList
  | .dnsbl => "dnsbl".toList

def Family.suffix : Family → Str
  | .ipv4 => "_v4".toList
  | .ipv6 => "_v6".toList
  | .dnsbl => []

def families : List Family := [.ipv4, .ipv6, .dnsbl]

/-- `$cadences`. -/
def cadences : List (Str × Cadence) :=
  [("Never".toList, .never), ("01hour".toList, .hours01), ("02hours".toList, .hours02),
    ("03hours".toList, .hours03), ("04hours".toList, .hours04), ("06hours".toList, .hours06),
    ("08hours".toList, .hours08), ("12hours".toList, .hours12), ("EveryDay".toList, .everyDay),
    ("Weekly".toList, .weekly)]

def cadenceName : Cadence → Str
  | .never => "Never".toList
  | .hours01 => "01hour".toList
  | .hours02 => "02hours".toList
  | .hours03 => "03hours".toList
  | .hours04 => "04hours".toList
  | .hours06 => "06hours".toList
  | .hours08 => "08hours".toList
  | .hours12 => "12hours".toList
  | .everyDay => "EveryDay".toList
  | .weekly => "Weekly".toList

def readCadence (s : Str) : Option Cadence := lookup s cadences

/-- `$token`. -/
def token (min max : Int) (value : Value) : Option { n : Int // min ≤ n ∧ n ≤ max } :=
  (string value).bind fun s =>
    if canonical s then
      if h : min ≤ decimal s ∧ (decimal s : Int) ≤ max then some ⟨decimal s, h⟩ else none
    else none

/-- `$minute`. -/
def minute (value : Value) : Option { n : Int // n ∈ ([0, 15, 30, 45] : List Int) } :=
  (token 0 45 value).bind fun n =>
    if h : n.1 ∈ ([0, 15, 30, 45] : List Int) then some ⟨n.1, h⟩ else none

/-- A schedule from the values of its three tokens. -/
def readSlot (weekdayToken hourToken minuteToken : Value) : Option Slot :=
  match token 1 7 weekdayToken, token 0 23 hourToken, minute minuteToken with
  | some w, some h, some m => some ⟨w.1, h.1, m.1, w.2, h.2, m.2⟩
  | _, _, _ => none

/-- `$read_schedule`. -/
def readSchedule (source : Pairs) : Option Slot :=
  readSlot (valueOf kScheduleWeekday source) (valueOf kScheduleHour source)
    (valueOf kScheduleMinute source)

/-- `$default`. -/
def readDefault (general : Pairs) : Option Slot :=
  readSlot (valueOf kDefaultWeekday general) (valueOf kDefaultHour general)
    (valueOf kDefaultMinute general)

def readSwitch (general : Pairs) : Option Str :=
  (string (valueOf kScheduled general)).filter fun s => s = on ∨ s = []

def ipActions : List Str :=
  ["Disabled".toList, "Deny_Inbound".toList, "Deny_Outbound".toList, "Deny_Both".toList,
    "Permit_Inbound".toList, "Permit_Outbound".toList, "Permit_Both".toList,
    "Match_Inbound".toList, "Match_Outbound".toList, "Match_Both".toList, "Alias_Deny".toList,
    "Alias_Permit".toList, "Alias_Match".toList, "Alias_Native".toList]

/-- `pfb_group_action_valid` for the three families of groups. -/
def groupActionValid (action : Value) (family : Family) : Bool :=
  match string action, family with
  | none, _ => false
  | some a, .dnsbl => ["Disabled".toList, "unbound".toList].contains a
  | some a, _ => ipActions.contains a

/-! ### The builder -/

/-- The part of an entry that the hash covers. -/
def Entry.projected (entry : Entry) : Cadence × Bool × Option Slot :=
  (entry.cadence, entry.enabled, entry.override)

def slotImage (slot : Slot) : Value :=
  .node [(kWeekday, number slot.weekday), (kHour, number slot.hour), (kMinute, number slot.minute)]

def overrideImage : Option Slot → Value
  | none => null
  | some slot => slotImage slot

def kCadence : Str := "cadence".toList
def kEnabled : Str := "enabled".toList
def kHasActiveRows : Str := "has_active_rows".toList
def kOverride : Str := "override".toList

/-- What the builder puts under an id of `$hash_projection['entries']`. -/
def projectedImage (entry : Entry) : Value :=
  .node [(kCadence, text (cadenceName entry.cadence)), (kEnabled, flag entry.enabled),
    (kOverride, overrideImage entry.override)]

/-- Why a group is refused. -/
inductive GroupFault where
  | notArray
  | action
  | cron
  | row
  | srcint
  | override
  | slot
  deriving DecidableEq, Repr

def GroupFault.text : GroupFault → Str
  | .notArray => "not an array".toList
  | .action => "'action' is missing or not a string".toList
  | .cron => "'cron' is not one of the known cadences".toList
  | .row => "'row' is present but is not a list".toList
  | .srcint => "'srcint' is not a string".toList
  | .override => "'schedule_override' is neither \"on\" nor empty".toList
  | .slot => "schedule override weekday/hour/minute is out of range".toList

/-- Why a row is refused. -/
inductive RowFault where
  | notArray
  | format
  | url
  | state
  | header
  deriving DecidableEq, Repr

def RowFault.text : RowFault → Str
  | .notArray => "not an array".toList
  | .format => "'format' is not a string".toList
  | .url => "'url' is not a string".toList
  | .state => "'state' is not one of Enabled/Flex/Hold/Disabled".toList
  | .header => "'header' is missing or is not [A-Za-z0-9_]".toList

/-- `$override`. -/
def readOverride (group : Pairs) : Except GroupFault (Option Slot) :=
  match valueOr (PhpArray.text []) kScheduleOverride group with
  | .leaf (.str s) =>
      if s = on then (need .slot (readSchedule group)).map some
      else if s = [] then .ok none
      else .error .override
  | _ => .error .override

/-- What the rows of a group share, and the rows. -/
structure Head where
  entry : Entry
  rows : Pairs

/-- The checks of one group. -/
def readGroup (scheduled : Bool) (family : Family) (group : Value) : Except GroupFault Head := do
  let group ← need .notArray (array group)
  let action ← need .action (string (valueOf kAction group))
  let cadence ← need .cron ((string (valueOf kCron group)).bind readCadence)
  let rows ← need .row (array ((lookup kRow group).getD (.node [])))
  check .srcint ((lookup kSrcint group).all isString)
  let override ← readOverride group
  let enabled := scheduled && groupActionValid (valueOf kAction group) family &&
    action != disabled && cadence != .never
  return ⟨⟨cadence, enabled, true, override⟩, rows⟩

def rowStates : List Str :=
  ["Enabled".toList, "Flex".toList, "Hold".toList, "Disabled".toList]

def readHeader (row : Pairs) : Except RowFault (Option Str) :=
  match valueOf kHeader row with
  | .leaf (.str header) =>
      if header ≠ [] ∧ header.all wordChar then .ok (some header) else .error .header
  | _ => .error .header

/-- The checks of one row; `none` for a row without a feed. -/
def readRow (row : Value) : Except RowFault (Option Str) := do
  let row ← need .notArray (array row)
  check .format ((lookup kFormat row).all isString)
  check .url ((lookup kUrl row).all isString)
  match string (valueOf kUrl row) with
  | none | some [] => return none
  | some _ =>
      match lookup kState row with
      | none => readHeader row
      | some state =>
          let state ← need .state ((string state).filter fun s => rowStates.contains s)
          if state = disabled then return none else readHeader row

def feedId (family : Family) (header : Str) : Str :=
  family.name ++ ":".toList ++ header ++ family.suffix

/-- `$label`. -/
def label (family : Family) (index : Str) (group : Value) : Str :=
  match string (valueOr (PhpArray.text []) kAliasname ((array group).getD [])) with
  | some aliasname =>
      if aliasname ≠ [] ∧ aliasname.length ≤ 64 ∧ aliasname.all wordChar then
        family.name ++ " alias \"".toList ++ aliasname ++ "\"".toList
      else family.name ++ " group #".toList ++ index
  | none => family.name ++ " group #".toList ++ index

/-- `$entries` and `$hash_projection['entries']`. -/
structure Collected where
  entries : Dict Str Entry
  projected : Dict Str Value

def Collected.put (acc : Collected) (id : Str) (entry : Entry) : Collected :=
  ⟨acc.entries.set id entry, acc.projected.set id (projectedImage entry)⟩

def rowStep (family : Family) (place : Str) (entry : Entry) (acc : Collected)
    (row : Str × Value) : Except Str Collected :=
  let at_ := place ++ " row #".toList ++ row.1 ++ ": ".toList
  match readRow row.2 with
  | .error fault => .error (at_ ++ fault.text)
  | .ok none => .ok acc
  | .ok (some header) =>
      if (acc.entries.get (feedId family header)).isSome then
        .error (at_ ++ "duplicate feed id \"".toList ++ feedId family header ++ "\"".toList)
      else .ok (acc.put (feedId family header) entry)

def groupStep (scheduled : Bool) (family : Family) (acc : Collected) (group : Str × Value) :
    Except Str Collected :=
  match readGroup scheduled family group.2 with
  | .error .notArray =>
      .error (family.name ++ " group #".toList ++ group.1 ++ ": ".toList ++
        GroupFault.notArray.text)
  | .error fault =>
      .error (label family group.1 group.2 ++ ": ".toList ++ fault.text)
  | .ok head =>
      head.rows.foldlM (rowStep family (label family group.1 group.2) head.entry) acc

def familyStep (scheduled : Bool) (sections : Pairs) (acc : Collected) (family : Family) :
    Except Str Collected :=
  match array (valueOf family.name sections) with
  | none => .error (family.name ++ ": section is not a list of groups".toList)
  | some groups => groups.foldlM (groupStep scheduled family) acc

def dccId : Str := "extra:dcc".toList
def blId : Str := "extra:bl".toList
def kDcc : Str := "dcc".toList
def kBl : Str := "bl".toList

def readBool : Value → Option Bool
  | .leaf (.bool b) => some b
  | _ => none

/-- The entries of Extras that are given. -/
def readExtras (extras : Pairs) : Except Str (List (Str × Entry)) := do
  let dcc ← need "extras: 'dcc' is missing or is not a bool".toList
    (readBool (valueOf kDcc extras))
  let fault := "extras: 'bl' enabled/cadence is missing or invalid".toList
  let bl ← need fault (array (valueOf kBl extras))
  let enabled ← need fault (readBool (valueOf kEnabled bl))
  let cadence ← need fault ((string (valueOf kCadence bl)).bind fun s =>
    if s = "EveryDay".toList then some Cadence.everyDay
    else if s = "Weekly".toList then some Cadence.weekly else none)
  return [(dccId, ⟨.everyDay, dcc, true, none⟩), (blId, ⟨cadence, enabled, true, none⟩)]

def givenExtras (extras : Pairs) : Except Str (List (Str × Entry)) :=
  if extras = [] then .ok [] else readExtras extras

def kDefault : Str := "default".toList
def kEntries : Str := "entries".toList
def kConfigHash : Str := "config_hash".toList
def kModelScheduled : Str := "scheduled".toList

/-- `$hash_projection` with its entries in order. -/
def projection (scheduled : Bool) (default : Slot) (projected : Pairs) : Value :=
  .node [(kModelScheduled, flag scheduled), (kDefault, slotImage default),
    (kEntries, .node (ksort projected))]

def sectionsFit (sections : Pairs) : Bool :=
  (sections.all fun p => (families.map Family.name).contains p.1) && sections.length == 3

/-- `pfb_schedule_runtime_model`; `hash` is the SHA-256 digest of the JSON text of a value. -/
def runtimeModel (hash : Value → Str) (general sections extras : Pairs) :
    Except Str RuntimeModel := do
  check "sections: expected exactly the ipv4, ipv6 and dnsbl sections".toList (sectionsFit sections)
  let switch ← need "general: pfb_scheduled_feed_updates is neither \"on\" nor empty".toList
    (readSwitch general)
  let scheduled := decide (switch = on)
  let default ← need "general: default schedule weekday/hour/minute is out of range".toList
    (readDefault general)
  let acc ← families.foldlM (familyStep scheduled sections) ⟨Dict.empty, Dict.empty⟩
  let extra ← givenExtras extras
  let acc := extra.foldl (fun acc p => acc.put p.1 p.2) acc
  return ⟨hash (projection scheduled default acc.projected.items), scheduled, default, acc.entries⟩

/-! ### The validator -/

def entryImage (entry : Entry) : Value :=
  .node [(kCadence, text (cadenceName entry.cadence)), (kEnabled, flag entry.enabled),
    (kHasActiveRows, flag entry.hasActiveRows), (kOverride, overrideImage entry.override)]

/-- The array that a model is. -/
def modelPairs (model : RuntimeModel) : Pairs :=
  [(kConfigHash, text model.configHash), (kModelScheduled, flag model.scheduled),
    (kDefault, slotImage model.default),
    (kEntries, .node (model.entries.items.map fun p => (p.1, entryImage p.2)))]

def modelImage (model : RuntimeModel) : Value := .node (modelPairs model)

/-- `pfb_schedule_runtime_hash_projection`. -/
def hashProjection (model : Pairs) : Value :=
  let entries := ((array (valueOf kEntries model)).getD []).map fun p =>
    let entry := (array p.2).getD []
    (p.1, KeyTree.node [(kCadence, valueOf kCadence entry), (kEnabled, valueOf kEnabled entry),
      (kOverride, valueOf kOverride entry)])
  .node [(kModelScheduled, valueOf kModelScheduled model), (kDefault, valueOf kDefault model),
    (kEntries, .node (ksort entries))]

/-- `count(array_diff(array_keys($items), $keys)) === 0`. -/
def keysWithin (keys : List Str) (items : Pairs) : Bool := items.all fun p => keys.contains p.1

def intWithin (min max : Int) : Value → Bool
  | .leaf (.int n) => min ≤ n && n ≤ max
  | _ => false

def quarter : Value → Bool
  | .leaf (.int n) => [0, 15, 30, 45].contains n
  | _ => false

/-- The checks on a schedule. -/
def slotValid : Value → Bool
  | .leaf _ => false
  | .node slot =>
      keysWithin [kWeekday, kHour, kMinute] slot && intWithin 1 7 (valueOf kWeekday slot) &&
        intWithin 0 23 (valueOf kHour slot) && quarter (valueOf kMinute slot)

/-- The checks on one entry. -/
def entryValid (id : Str) : Value → Bool
  | .leaf _ => false
  | .node entry =>
      validId id && keysWithin [kCadence, kEnabled, kHasActiveRows, kOverride] entry &&
        ([kCadence, kEnabled, kHasActiveRows, kOverride].all fun k => hasKey k entry) &&
        ((string (valueOf kCadence entry)).bind readCadence).isSome &&
        (readBool (valueOf kEnabled entry)).isSome &&
        readBool (valueOf kHasActiveRows entry) == some true &&
        match valueOf kOverride entry with
        | .leaf .null => true
        | override => slotValid override

/-- `pfb_schedule_runtime_model_valid`. -/
def runtimeModelValid (hash : Value → Str) : Value → Bool
  | .leaf _ => false
  | .node model =>
      keysWithin [kConfigHash, kModelScheduled, kDefault, kEntries] model &&
        ([kConfigHash, kModelScheduled, kDefault, kEntries].all fun k => hasKey k model) &&
        (string (valueOf kConfigHash model)).any isDigest &&
        (readBool (valueOf kModelScheduled model)).isSome && slotValid (valueOf kDefault model) &&
        ((array (valueOf kEntries model)).any fun entries =>
          entries.all fun p => entryValid p.1 p.2) &&
        string (valueOf kConfigHash model) == some (hash (hashProjection model))

/-! ### What the builder collects -/

def Collected.Paired (acc : Collected) : Prop :=
  acc.projected.items = acc.entries.items.map fun p => (p.1, projectedImage p.2)

/-- What a step of the builder does: it passes exactly on what is `ok` and adds the new feeds, in
order. -/
structure Appends (r : Except Str Collected) (acc : Collected) (ok : Prop)
    (feeds : List (Str × Entry)) : Prop where
  sound : ∀ acc', r = .ok acc' →
    ok ∧ acc'.Paired ∧ acc'.entries.items = acc.entries.items ++ feeds
  complete : ok → ((acc.entries.items ++ feeds).map Prod.fst).Nodup → ∃ acc', r = .ok acc'

theorem items_set_of_new {α : Type} {d : Dict Str α} {id : Str}
    (h : id ∉ d.items.map Prod.fst) (a : α) : (d.set id a).items = d.items ++ [(id, a)] :=
  store_of_not_mem h

theorem items_put {acc : Collected} (hpaired : acc.Paired) {id : Str}
    (h : id ∉ acc.entries.items.map Prod.fst) (entry : Entry) :
    (acc.put id entry).Paired ∧
      (acc.put id entry).entries.items = acc.entries.items ++ [(id, entry)] := by
  have hprojected : id ∉ acc.projected.items.map Prod.fst := by
    rw [hpaired, List.map_map]
    exact h
  refine ⟨?_, items_set_of_new h entry⟩
  rw [Collected.Paired, Collected.put, items_set_of_new h, items_set_of_new hprojected, hpaired,
    List.map_append]
  rfl

theorem appends_nil {acc : Collected} (hpaired : acc.Paired) : Appends (.ok acc) acc True [] where
  sound := by
    rintro acc' h
    obtain rfl := Except.ok.inj h
    exact ⟨trivial, hpaired, (List.append_nil _).symm⟩
  complete := fun _ _ => ⟨acc, rfl⟩

/-- Steps that append, one after another. -/
theorem foldlM_appends {α : Type} {step : Collected → α → Except Str Collected} {ok : α → Prop}
    {feeds : α → List (Str × Entry)}
    (hstep : ∀ acc x, acc.Paired → Appends (step acc x) acc (ok x) (feeds x)) (xs : List α)
    {acc : Collected} (hpaired : acc.Paired) :
    Appends (xs.foldlM step acc) acc (∀ x ∈ xs, ok x) (xs.flatMap feeds) := by
  induction xs generalizing acc with
  | nil =>
      have hnil := appends_nil hpaired
      exact ⟨fun acc' h => ⟨fun _ hx => absurd hx List.not_mem_nil, (hnil.sound acc' h).2⟩,
        fun _ _ => ⟨acc, rfl⟩⟩
  | cons x xs ih =>
      have hx := hstep acc x hpaired
      rw [List.foldlM_cons, List.flatMap_cons]
      constructor
      · intro acc' h
        cases hr : step acc x with
        | error e =>
            rw [hr] at h
            cases h
        | ok mid =>
            rw [hr] at h
            obtain ⟨hok, hmid, hitems⟩ := hx.sound mid hr
            obtain ⟨hrest, hpaired', hitems'⟩ := (ih hmid).sound acc' h
            refine ⟨List.forall_mem_cons.mpr ⟨hok, hrest⟩, hpaired', ?_⟩
            rw [hitems', hitems, List.append_assoc]
      · intro hok hnodup
        obtain ⟨hx', hrest⟩ := List.forall_mem_cons.mp hok
        rw [← List.append_assoc] at hnodup
        have hfirst : ((acc.entries.items ++ feeds x).map Prod.fst).Nodup := by
          rw [List.map_append] at hnodup
          exact (List.nodup_append.mp hnodup).1
        obtain ⟨mid, hmid⟩ := hx.complete hx' hfirst
        obtain ⟨-, hpaired', hitems⟩ := hx.sound mid hmid
        rw [← hitems] at hnodup
        obtain ⟨acc', hacc'⟩ := (ih hpaired').complete hrest hnodup
        refine ⟨acc', ?_⟩
        rw [hmid]
        exact hacc'

def RowOk (row : Str × Value) : Prop := ∃ header, readRow row.2 = .ok header

/-- The feed of a row, if it has one. -/
def rowFeed (family : Family) (entry : Entry) (row : Str × Value) : List (Str × Entry) :=
  match readRow row.2 with
  | .ok (some header) => [(feedId family header, entry)]
  | _ => []

theorem rowStep_appends (family : Family) (place : Str) (entry : Entry) (acc : Collected)
    (row : Str × Value) (hpaired : acc.Paired) :
    Appends (rowStep family place entry acc row) acc (RowOk row) (rowFeed family entry row) := by
  unfold rowStep rowFeed RowOk
  cases hread : readRow row.2 with
  | error fault => exact ⟨fun _ h => (by cases h), fun h => (by obtain ⟨_, h⟩ := h; cases h)⟩
  | ok header =>
      cases header with
      | none =>
          have hnil := appends_nil hpaired
          exact ⟨fun acc' h => ⟨⟨_, rfl⟩, (hnil.sound acc' h).2⟩, fun _ _ => ⟨acc, rfl⟩⟩
      | some header =>
          have hget : (acc.entries.get (feedId family header)).isSome = true ↔
              feedId family header ∈ acc.entries.items.map Prod.fst := by
            rw [Option.isSome_iff_ne_none, ne_eq, Dict.get, lookup_eq_none_iff, not_not]
          dsimp only
          split
          · rename_i hdup
            refine ⟨fun _ h => (by cases h), fun _ hnodup => ?_⟩
            rw [List.map_append] at hnodup
            exact absurd (hget.mp hdup) fun hmem =>
              (List.nodup_append.mp hnodup).2.2 _ hmem _ (List.mem_singleton.mpr rfl) rfl
          · rename_i hnew
            refine ⟨fun acc' h => ?_, fun _ _ => ⟨_, rfl⟩⟩
            obtain rfl := Except.ok.inj h
            exact ⟨⟨_, rfl⟩, items_put hpaired (fun hmem => hnew (hget.mpr hmem)) entry⟩

def GroupOk (scheduled : Bool) (family : Family) (group : Str × Value) : Prop :=
  ∃ head, readGroup scheduled family group.2 = .ok head ∧ ∀ row ∈ head.rows, RowOk row

def groupFeeds (scheduled : Bool) (family : Family) (group : Str × Value) : List (Str × Entry) :=
  match readGroup scheduled family group.2 with
  | .ok head => head.rows.flatMap (rowFeed family head.entry)
  | .error _ => []

theorem groupStep_appends (scheduled : Bool) (family : Family) (acc : Collected)
    (group : Str × Value) (hpaired : acc.Paired) :
    Appends (groupStep scheduled family acc group) acc (GroupOk scheduled family group)
      (groupFeeds scheduled family group) := by
  unfold groupStep groupFeeds GroupOk
  cases hread : readGroup scheduled family group.2 with
  | error fault =>
      have hnot : ¬ ∃ head : Head, Except.error fault = Except.ok head ∧
          ∀ row ∈ head.rows, RowOk row := by
        rintro ⟨head, h, -⟩
        cases h
      cases fault <;> exact ⟨fun _ h => (by cases h), fun h => (hnot h).elim⟩
  | ok head =>
      have hrows := foldlM_appends
        (rowStep_appends family (label family group.1 group.2) head.entry) head.rows hpaired
      constructor
      · intro acc' h
        obtain ⟨hok, hrest⟩ := hrows.sound acc' h
        exact ⟨⟨head, rfl, hok⟩, hrest⟩
      · rintro ⟨head', hhead, hok⟩ hnodup
        obtain rfl := Except.ok.inj hhead
        exact hrows.complete hok hnodup

def FamilyOk (scheduled : Bool) (sections : Pairs) (family : Family) : Prop :=
  ∃ groups, array (valueOf family.name sections) = some groups ∧
    ∀ group ∈ groups, GroupOk scheduled family group

def familyFeeds (scheduled : Bool) (sections : Pairs) (family : Family) : List (Str × Entry) :=
  ((array (valueOf family.name sections)).getD []).flatMap (groupFeeds scheduled family)

theorem familyStep_appends (scheduled : Bool) (sections : Pairs) (acc : Collected)
    (family : Family) (hpaired : acc.Paired) :
    Appends (familyStep scheduled sections acc family) acc (FamilyOk scheduled sections family)
      (familyFeeds scheduled sections family) := by
  unfold familyStep familyFeeds FamilyOk
  cases hread : array (valueOf family.name sections) with
  | none =>
      refine ⟨fun _ h => (by cases h), ?_⟩
      rintro ⟨groups, h, -⟩
      cases h
  | some groups =>
      have hgroups := foldlM_appends (groupStep_appends scheduled family) groups hpaired
      constructor
      · intro acc' h
        obtain ⟨hok, hrest⟩ := hgroups.sound acc' h
        exact ⟨⟨groups, rfl, hok⟩, hrest⟩
      · rintro ⟨groups', h, hok⟩ hnodup
        obtain rfl := Option.some.inj h
        exact hgroups.complete hok hnodup

/-! ### Headers, ids and Extras -/

theorem readHeader_ok {row : Pairs} {header : Option Str} (h : readHeader row = .ok header) :
    ∃ s, header = some s ∧ valueOf kHeader row = text s ∧ s ≠ [] ∧ s.all wordChar = true := by
  unfold readHeader at h
  split at h
  · rename_i s hs
    split at h
    · rename_i hword
      exact ⟨s, (Except.ok.inj h).symm, hs, hword⟩
    · cases h
  · cases h

/-- A row that names a source and is not disabled. -/
def activeRow (row : Pairs) : Bool :=
  ((string (valueOf kUrl row)).any fun url => url != []) &&
    string (valueOf kState row) != some disabled

/-- Of the accepted rows exactly the active ones have a feed, under their header. -/
theorem readRow_ok {row : Value} {header : Option Str} (h : readRow row = .ok header) :
    ∃ items, row = .node items ∧
      (activeRow items = true → ∃ s, header = some s ∧ valueOf kHeader items = text s ∧ s ≠ [] ∧
        s.all wordChar = true) ∧
      (activeRow items = false → header = none) := by
  simp only [readRow, need_bind_eq_ok, check_bind_eq_ok] at h
  obtain ⟨items, hitems, -, -, h⟩ := h
  have hrow : row = .node items := by
    cases row with
    | leaf a => cases hitems
    | node items' => rw [Option.some.inj hitems]
  refine ⟨items, hrow, ?_⟩
  unfold activeRow
  split at h
  · rename_i hurl
    rw [hurl]
    exact ⟨fun hactive => (by cases hactive), fun _ => (Except.ok.inj h).symm⟩
  · rename_i hurl
    rw [hurl]
    exact ⟨fun hactive => (by cases hactive), fun _ => (Except.ok.inj h).symm⟩
  · rename_i url hne hurl
    have hnonempty : (string (valueOf kUrl items)).any (fun url => url != []) = true := by
      rw [hurl]
      exact bne_iff_ne.mpr hne
    rw [hnonempty, Bool.true_and]
    split at h
    · rename_i hstate
      rw [valueOf, hstate]
      exact ⟨fun _ => readHeader_ok h, fun hactive => (by cases hactive)⟩
    · rename_i state hstate
      rw [need_bind_eq_ok] at h
      obtain ⟨word, hword, h⟩ := h
      rw [valueOf_of_lookup hstate, (Option.filter_eq_some_iff.mp hword).1]
      split at h
      · rename_i hdisabled
        rw [hdisabled]
        exact ⟨fun hactive => absurd hactive (by decide), fun _ => (Except.ok.inj h).symm⟩
      · rename_i hdisabled
        have hne : (some word != some disabled) = true :=
          bne_iff_ne.mpr fun heq => hdisabled (Option.some.inj heq)
        rw [hne]
        exact ⟨fun _ => readHeader_ok h, fun hactive => (by cases hactive)⟩

theorem isExtra_feedId (family : Family) (header : Str) :
    isExtra (feedId family header) = false := by
  cases family <;> rfl

theorem validId_feedId (family : Family) {header : Str} (hne : header ≠ [])
    (hword : header.all wordChar = true) : validId (feedId family header) = true := by
  have hpos : 0 < header.length := List.length_pos_iff.mpr hne
  have hbody : ∀ suffix : Str, suffix.all wordChar = true →
      feedHeader suffix (header ++ suffix) = true := fun suffix hsuffix => by
    unfold feedHeader endsWith
    rw [List.all_append, hword, hsuffix, List.isSuffixOf_iff_suffix.mpr (List.suffix_append _ _),
      List.length_append]
    simpa using hpos
  cases family with
  | ipv4 =>
      have h := hbody "_v4".toList (by decide)
      unfold validId
      exact Bool.or_eq_true_iff.mpr (Or.inl (Bool.or_eq_true_iff.mpr (Or.inl
        (Bool.or_eq_true_iff.mpr (Or.inl (Bool.or_eq_true_iff.mpr (Or.inl h)))))))
  | ipv6 =>
      have h := hbody "_v6".toList (by decide)
      unfold validId
      exact Bool.or_eq_true_iff.mpr (Or.inl (Bool.or_eq_true_iff.mpr (Or.inl
        (Bool.or_eq_true_iff.mpr (Or.inl (Bool.or_eq_true_iff.mpr (Or.inr h)))))))
  | dnsbl =>
      have h := hbody [] (by decide)
      unfold validId
      exact Bool.or_eq_true_iff.mpr (Or.inl (Bool.or_eq_true_iff.mpr (Or.inl
        (Bool.or_eq_true_iff.mpr (Or.inr h)))))

/-- The feeds of all groups, in order. -/
def allFeeds (scheduled : Bool) (sections : Pairs) : List (Str × Entry) :=
  families.flatMap (familyFeeds scheduled sections)

theorem readGroup_entry {scheduled : Bool} {family : Family} {group : Value} {head : Head}
    (h : readGroup scheduled family group = .ok head) : head.entry.hasActiveRows = true := by
  simp only [readGroup, need_bind_eq_ok, check_bind_eq_ok] at h
  obtain ⟨items, -, action, -, cadence, -, rows, -, -, h⟩ := h
  cases hoverride : readOverride items with
  | error fault =>
      rw [hoverride] at h
      cases h
  | ok override =>
      rw [hoverride] at h
      obtain rfl := Except.ok.inj h
      rfl

theorem mem_rowFeed {family : Family} {entry : Entry} {row : Str × Value} {p : Str × Entry}
    (h : p ∈ rowFeed family entry row) :
    ∃ header, header ≠ [] ∧ header.all wordChar = true ∧ p = (feedId family header, entry) := by
  unfold rowFeed at h
  split at h
  · rename_i header hread
    obtain ⟨items, -, hactive, hnone⟩ := readRow_ok hread
    cases hrow : activeRow items with
    | false => cases hnone hrow
    | true =>
        obtain ⟨s, hs, -, hne, hword⟩ := hactive hrow
        obtain rfl := Option.some.inj hs
        exact ⟨header, hne, hword, List.mem_singleton.mp h⟩
  · cases h

theorem mem_allFeeds {scheduled : Bool} {sections : Pairs} {p : Str × Entry}
    (h : p ∈ allFeeds scheduled sections) :
    validId p.1 = true ∧ isExtra p.1 = false ∧ p.2.hasActiveRows = true := by
  obtain ⟨family, -, h⟩ := List.mem_flatMap.mp h
  obtain ⟨group, -, h⟩ := List.mem_flatMap.mp h
  unfold groupFeeds at h
  split at h
  · rename_i head hread
    obtain ⟨row, -, h⟩ := List.mem_flatMap.mp h
    obtain ⟨header, hne, hword, rfl⟩ := mem_rowFeed h
    exact ⟨validId_feedId family hne hword, isExtra_feedId family header, readGroup_entry hread⟩
  · cases h

/-- Entries of Extras: both or none. -/
def ExtraEntries (extra : List (Str × Entry)) : Prop :=
  extra = [] ∨ ∃ dcc bl : Entry, extra = [(dccId, dcc), (blId, bl)] ∧ dcc.hasActiveRows = true ∧
    bl.hasActiveRows = true

theorem givenExtras_ok {extras : Pairs} {extra : List (Str × Entry)}
    (h : givenExtras extras = .ok extra) : ExtraEntries extra := by
  unfold givenExtras at h
  split at h
  · exact Or.inl (Except.ok.inj h).symm
  · simp only [readExtras, need_bind_eq_ok] at h
    obtain ⟨dcc, -, bl, -, enabled, -, cadence, -, h⟩ := h
    exact Or.inr ⟨_, _, (Except.ok.inj h).symm, rfl, rfl⟩

theorem ExtraEntries.keys {extra : List (Str × Entry)} (h : ExtraEntries extra) :
    (extra.map Prod.fst).Nodup ∧
      ∀ p ∈ extra, validId p.1 = true ∧ isExtra p.1 = true ∧ p.2.hasActiveRows = true := by
  rcases h with rfl | ⟨dcc, bl, rfl, hdcc, hbl⟩
  · exact ⟨List.nodup_nil, fun p hp => absurd hp List.not_mem_nil⟩
  · refine ⟨by rw [List.map_cons, List.map_cons]; exact (by decide : [dccId, blId].Nodup), ?_⟩
    intro p hp
    rcases List.mem_cons.mp hp with rfl | hp
    · exact ⟨(rfl : validId dccId = true), (rfl : isExtra dccId = true), hdcc⟩
    · obtain rfl := List.mem_singleton.mp hp
      exact ⟨(rfl : validId blId = true), (rfl : isExtra blId = true), hbl⟩

theorem foldl_put {acc : Collected} (hpaired : acc.Paired) (extra : List (Str × Entry))
    (hnodup : ((acc.entries.items ++ extra).map Prod.fst).Nodup) :
    (extra.foldl (fun acc p => acc.put p.1 p.2) acc).Paired ∧
      (extra.foldl (fun acc p => acc.put p.1 p.2) acc).entries.items =
        acc.entries.items ++ extra := by
  induction extra generalizing acc with
  | nil => exact ⟨hpaired, (List.append_nil _).symm⟩
  | cons p extra ih =>
      have hnew : p.1 ∉ acc.entries.items.map Prod.fst := fun hmem => by
        rw [List.map_append] at hnodup
        exact (List.nodup_append.mp hnodup).2.2 _ hmem _ List.mem_cons_self rfl
      obtain ⟨hput, hitems⟩ := items_put hpaired hnew p.2
      have hsplit : acc.entries.items ++ p :: extra =
          (acc.put p.1 p.2).entries.items ++ extra := by
        rw [hitems, List.append_assoc]
        rfl
      rw [hsplit] at hnodup ⊢
      exact ih hput hnodup

/-- The model of a configuration with these feeds and Extras. -/
structure IsModel (hash : Value → Str) (switch : Str) (default : Slot)
    (entries : List (Str × Entry)) (model : RuntimeModel) : Prop where
  configHash : model.configHash = hash (projection (decide (switch = on)) default
    (entries.map fun p => (p.1, projectedImage p.2)))
  scheduled : model.scheduled = decide (switch = on)
  default : model.default = default
  entries : model.entries.items = entries

/-- What the configuration must be like for the builder to return a model. -/
structure Accepted (general sections extras : Pairs) (switch : Str) (default : Slot)
    (extra : List (Str × Entry)) : Prop where
  sectionNames : sectionsFit sections = true
  switchRead : readSwitch general = some switch
  defaultRead : readDefault general = some default
  groups : ∀ family ∈ families, FamilyOk (decide (switch = on)) sections family
  distinct : ((allFeeds (decide (switch = on)) sections).map Prod.fst).Nodup
  extrasRead : givenExtras extras = .ok extra

theorem nodup_feeds_extra {scheduled : Bool} {sections : Pairs}
    (h : ((allFeeds scheduled sections).map Prod.fst).Nodup) {extra : List (Str × Entry)}
    (hextra : ExtraEntries extra) :
    ((allFeeds scheduled sections ++ extra).map Prod.fst).Nodup := by
  rw [List.map_append]
  refine List.nodup_append.mpr ⟨h, hextra.keys.1, ?_⟩
  rintro a ha b hb rfl
  obtain ⟨p, hp, rfl⟩ := List.mem_map.mp ha
  obtain ⟨q, hq, heq⟩ := List.mem_map.mp hb
  have hfeed := (mem_allFeeds hp).2.1
  rw [← heq, (hextra.keys.2 q hq).2.1] at hfeed
  cases hfeed

/-- The builder, as a whole. -/
theorem runtimeModel_ok_iff (hash : Value → Str) (general sections extras : Pairs)
    (model : RuntimeModel) :
    runtimeModel hash general sections extras = .ok model ↔
      ∃ switch default extra, Accepted general sections extras switch default extra ∧
        IsModel hash switch default (allFeeds (decide (switch = on)) sections ++ extra) model := by
  have hempty : (⟨Dict.empty, Dict.empty⟩ : Collected).Paired := rfl
  have hcollect := fun scheduled =>
    foldlM_appends (familyStep_appends scheduled sections) families hempty
  simp only [runtimeModel, need_bind_eq_ok, check_bind_eq_ok]
  constructor
  · rintro ⟨hsections, switch, hswitch, default, hdefault, h⟩
    cases hacc : families.foldlM (familyStep (decide (switch = on)) sections)
        ⟨Dict.empty, Dict.empty⟩ with
    | error e =>
        rw [hacc] at h
        cases h
    | ok acc =>
        rw [hacc] at h
        obtain ⟨hgroups, hpaired, hitems⟩ := (hcollect _).sound acc hacc
        have hnodup := acc.entries.nodup
        rw [hitems] at hnodup
        cases hextra : givenExtras extras with
        | error e =>
            rw [hextra] at h
            cases h
        | ok extra =>
            rw [hextra] at h
            obtain rfl := Except.ok.inj h
            refine ⟨switch, default, extra, ⟨hsections, hswitch, hdefault, hgroups, hnodup, hextra⟩,
              ?_⟩
            have hall := nodup_feeds_extra hnodup (givenExtras_ok hextra)
            obtain ⟨hpaired', hitems'⟩ := foldl_put hpaired extra (by
              rw [hitems]
              exact hall)
            rw [hitems] at hitems'
            exact ⟨by rw [hpaired', hitems']; rfl, rfl, rfl, hitems'⟩
  · rintro ⟨switch, default, extra, hacc, hmodel⟩
    refine ⟨hacc.sectionNames, switch, hacc.switchRead, default, hacc.defaultRead, ?_⟩
    obtain ⟨acc, hfold⟩ := (hcollect _).complete hacc.groups hacc.distinct
    obtain ⟨-, hpaired, hitems⟩ := (hcollect _).sound acc hfold
    have hall := nodup_feeds_extra hacc.distinct (givenExtras_ok hacc.extrasRead)
    obtain ⟨hpaired', hitems'⟩ := foldl_put hpaired extra (by
      rw [hitems]
      exact hall)
    rw [hitems] at hitems'
    rw [hfold, hacc.extrasRead]
    obtain ⟨configHash, scheduled, default', entries⟩ := model
    obtain ⟨hhash, hscheduled, hdefault, hentries⟩ := hmodel
    dsimp only at hhash hscheduled hdefault hentries
    refine congrArg Except.ok ?_
    rw [hhash, hscheduled, hdefault]
    have hdict : (extra.foldl (fun acc p => acc.put p.1 p.2) acc).entries = entries :=
      Dict.ext (hitems'.trans hentries.symm)
    rw [hpaired', hitems', hdict]
    rfl

end PfBlockerNG.ScheduleModel
