import PfBlockerNG.ScheduleState

/-!
The scheduled part of a tick: the plans of feeds and Extras under the runtime model, the
reservation of their occurrences, and the updates that may come between two ticks.
-/

namespace PfBlockerNG.ScheduleTick

open PfBlockerNG.Strings
open PfBlockerNG.PyText
open PfBlockerNG.OrderedDict
open PfBlockerNG.Schedule
open PfBlockerNG.ScheduleState

/-- An entry of the runtime model. -/
structure Entry where
  cadence : Cadence
  enabled : Bool
  hasActiveRows : Bool
  override : Option Slot
  deriving DecidableEq

structure RuntimeModel where
  configHash : Str
  scheduled : Bool
  default : Slot
  entries : Dict Str Entry

/-- The digest of the JSON projection of a model without its hash; `none` where encoding throws. -/
abbrev Digest := Bool → Slot → Dict Str Entry → Option Str

/-- `/^[0-9a-f]{64}$/D`. -/
def isDigest (s : Str) : Bool :=
  s.length == 64 && s.all fun c => isAsciiDigit c || ('a' ≤ c && c ≤ 'f')

/-- `pfb_schedule_runtime_model_valid`. -/
def modelValid (digest : Digest) (model : RuntimeModel) : Bool :=
  isDigest model.configHash &&
  model.entries.items.all (fun p => validId p.1 && p.2.hasActiveRows) &&
  digest model.scheduled model.default model.entries == some model.configHash

/-- The group of an entry, with a cursor. -/
def Entry.group (entry : Entry) (cursor : Option Int) : Group where
  cadence := entry.cadence
  enabled := entry.enabled
  hasActiveRows := entry.hasActiveRows
  override := entry.override
  lastCompletedOccurrence := cursor

/-- The groups of the planner, each with a cursor from its record. -/
def groupsBy (cursor : Item → Option Int) (items : Items) (entries : List (Str × Entry)) :
    List (Str × Group) :=
  entries.map fun p => (p.1, p.2.group (cursor (items.item p.1)))

/-- The groups with the stored completed occurrences. -/
def groups (items : Items) (entries : List (Str × Entry)) : List (Str × Group) :=
  groupsBy Item.lastCompletedOccurrence items entries

def RuntimeModel.extras (model : RuntimeModel) : List (Str × Entry) :=
  model.entries.items.filter fun p => isExtra p.1

def RuntimeModel.feeds (model : RuntimeModel) : List (Str × Entry) :=
  model.entries.items.filter fun p => !isExtra p.1

/-- An entry of the due ledger. -/
structure LedgerEntry where
  lastRun : Int
  nextDue : Int
  jitter : Int
  pendingApply : Option Bool
  deriving DecidableEq, Repr

structure ExtraPlan where
  due : List Str
  occurrences : List (Str × Int)
  deriving DecidableEq, Repr

def dcc : Str := ['e', 'x', 't', 'r', 'a', ':', 'd', 'c', 'c']

/-- An Extra has a pending occurrence that was not attempted yet. -/
def unattempted (item : Item) : Bool := item.pendingOccurrence.isSome && !item.pendingAttempted

/-- The Extras a plan with a cache returns due. -/
def cachedDue (items : Items) (cache : Dict Str LedgerEntry) (plannerDue : List Str) (now : Int)
    (id : Str) : Bool :=
  (unattempted (items.item id) || plannerDue.contains id) &&
    match cache.get id with
    | none => false
    | some entry => decide (entry.nextDue ≤ now)

/-- `pfb_schedule_extra_plan`; `ready` is the answer of `pfb_geoip_generation_ready`. -/
def extraPlan (model : RuntimeModel) (items : Items) (now : Int) (z : Zone)
    (cache : Option (Dict Str LedgerEntry)) (ready : Bool) : ExtraPlan :=
  let plan := plan (groups items model.extras) model.default none now z
  let due : List Str :=
    match cache with
    | none => plan.due
    | some cache => (model.extras.map Prod.fst).filter (cachedDue items cache plan.due now)
  let dccEnabled := ((model.entries.get dcc).map Entry.enabled).getD false
  { due := if dccEnabled && !ready && !due.contains dcc then due ++ [dcc] else due
    occurrences := plan.occurrences }

/-- The plan of the feeds, empty where feed updates are not scheduled. -/
def feedOccurrences (model : RuntimeModel) (items : Items) (now : Int) (z : Zone) :
    List (Str × Int) :=
  if model.scheduled then
    (plan (groups items model.feeds) model.default none now z).occurrences
  else []

/-- `$a + $b` on arrays. -/
def arrayUnion (a b : List (Str × Int)) : List (Str × Int) :=
  a ++ b.filter fun p => !(a.map Prod.fst).contains p.1

/-- The occurrences a tick reserves. -/
def tickOccurrences (model : RuntimeModel) (items : Items) (now : Int) (z : Zone)
    (cache : Option (Dict Str LedgerEntry)) (ready : Bool) : List (Str × Int) :=
  arrayUnion (extraPlan model items now z cache ready).occurrences
    (feedOccurrences model items now z)

/-- The reservation of a tick: planned occurrences are set pending, and older pending ones
raised. The flag says whether the state was published. -/
def reserve (digest : Digest) (model : RuntimeModel) (now : Int) (z : Zone)
    (cache : Option (Dict Str LedgerEntry)) (ready : Bool) (items : Items) : Items × Bool :=
  if modelValid digest model && stateValid items then
    let occurrences := tickOccurrences model items now z cache ready
    if occurrences = [] then (items, true)
    else
      match setPending occurrences items with
      | none => (items, false)
      | some items₁ =>
          match raisePending occurrences items₁ with
          | none => (items₁, false)
          | some items₂ => (items₂, true)
  else (items, false)

/-- What may happen to the state. -/
inductive Event where
  | tick (digest : Digest) (model : RuntimeModel) (now : Int) (z : Zone)
      (cache : Option (Dict Str LedgerEntry)) (ready : Bool)
  | markAttempted (id : Str) (occurrence : Int)
  | recordOutcome (id : Str) (outcome : TerminalResult) (now : Int) (expected : Option Int)

/-- The state after an event; a refused update leaves it as it was. -/
def step (items : Items) : Event → Items
  | .tick digest model now z cache ready =>
      (reserve digest model now z cache ready items).1
  | .markAttempted id occurrence => (markAttempted id occurrence items).getD items
  | .recordOutcome id outcome now expected =>
      (recordOutcome id outcome now expected items).getD items

def runFrom (items : Items) (events : List Event) : Items := events.foldl step items

/-- The state after a run from the empty schedule state. -/
def run (events : List Event) : Items := runFrom Dict.empty events

/-! ### What a tick plans -/

theorem Entry.group_eligible (entry : Entry) (cursor : Option Int) :
    (entry.group cursor).eligible =
      (entry.enabled && entry.hasActiveRows && entry.cadence != .never) := rfl

theorem mem_groupsBy {cursor : Item → Option Int} {items : Items}
    {entries : List (Str × Entry)} {id : Str} {group : Group} :
    (id, group) ∈ groupsBy cursor items entries ↔
      ∃ entry, (id, entry) ∈ entries ∧ group = entry.group (cursor (items.item id)) := by
  simp only [groupsBy, List.mem_map, Prod.mk.injEq, Prod.exists]
  constructor
  · rintro ⟨id', entry, hmem, rfl, rfl⟩
    exact ⟨entry, hmem, rfl⟩
  · rintro ⟨entry, hmem, rfl⟩
    exact ⟨id, entry, hmem, rfl, rfl⟩

theorem mem_groups {items : Items} {entries : List (Str × Entry)} {id : Str} {group : Group} :
    (id, group) ∈ groups items entries ↔ ∃ entry, (id, entry) ∈ entries ∧
      group = entry.group (items.item id).lastCompletedOccurrence :=
  mem_groupsBy

theorem groups_keys (items : Items) (entries : List (Str × Entry)) :
    (groups items entries).map Prod.fst = entries.map Prod.fst := by
  simp only [groups, groupsBy, List.map_map]
  rfl

theorem nodup_filter_keys {α : Type} {items : List (Str × α)} (h : (items.map Prod.fst).Nodup)
    (keep : Str × α → Bool) : ((items.filter keep).map Prod.fst).Nodup :=
  h.sublist (List.filter_sublist.map Prod.fst)

theorem nodup_groups_extras (items : Items) (model : RuntimeModel) :
    ((groups items model.extras).map Prod.fst).Nodup := by
  rw [groups_keys]
  exact nodup_filter_keys model.entries.nodup _

theorem nodup_groups_feeds (items : Items) (model : RuntimeModel) :
    ((groups items model.feeds).map Prod.fst).Nodup := by
  rw [groups_keys]
  exact nodup_filter_keys model.entries.nodup _

theorem mem_arrayUnion {a b : List (Str × Int)} {p : Str × Int} (h : p ∈ arrayUnion a b) :
    p ∈ a ∨ p ∈ b := by
  rcases List.mem_append.mp h with h | h
  · exact Or.inl h
  · exact Or.inr (List.mem_of_mem_filter h)

theorem nodup_arrayUnion {a b : List (Str × Int)} (ha : (a.map Prod.fst).Nodup)
    (hb : (b.map Prod.fst).Nodup) : ((arrayUnion a b).map Prod.fst).Nodup := by
  rw [arrayUnion, List.map_append, List.nodup_append]
  refine ⟨ha, nodup_filter_keys hb _, fun key hkey key' hkey' => ?_⟩
  rintro rfl
  obtain ⟨p, hp, rfl⟩ := List.mem_map.mp hkey'
  have hout := (List.mem_filter.mp hp).2
  rw [Bool.not_eq_true', List.contains_eq_mem, decide_eq_false_iff_not] at hout
  exact hout hkey

/-- A feed of the plan is among the reserved occurrences. -/
theorem mem_tickOccurrences_of_feed {model : RuntimeModel} {items : Items} {now : Int} {z : Zone}
    {id : Str} {o : Int} (cache : Option (Dict Str LedgerEntry)) (ready : Bool)
    (h : (id, o) ∈ feedOccurrences model items now z) :
    (id, o) ∈ tickOccurrences model items now z cache ready := by
  refine List.mem_append_right _ (List.mem_filter.mpr ⟨h, ?_⟩)
  rw [Bool.not_eq_true', List.contains_eq_mem, decide_eq_false_iff_not]
  intro hextra
  have hfeed : isExtra id = false := by
    unfold feedOccurrences at h
    split at h
    · obtain ⟨group, hmem, -⟩ := mem_plan_occurrences.mp h
      obtain ⟨entry, hentry, -⟩ := mem_groups.mp hmem
      simpa using (List.mem_filter.mp hentry).2
    · cases h
  obtain ⟨⟨id', o'⟩, hmem, rfl⟩ := List.mem_map.mp hextra
  obtain ⟨group, hgroup, -⟩ := mem_plan_occurrences.mp hmem
  obtain ⟨entry, hentry, -⟩ := mem_groups.mp hgroup
  have hisExtra := (List.mem_filter.mp hentry).2
  simp only [hfeed] at hisExtra
  cases hisExtra

/-- What a tick may reserve: an entry of the model, past its completed occurrence, in the
fifteen days up to now. -/
structure Planned (model : RuntimeModel) (items : Items) (now : Int) (id : Str) (o : Int) :
    Prop where
  entry : ∃ entry, (id, entry) ∈ model.entries.items
  after : ∀ c, (items.item id).lastCompletedOccurrence = some c → c < o
  recent : now - window ≤ o
  past : o ≤ now

theorem planned_of_plan {model : RuntimeModel} {items : Items} {now : Int} {z : Zone}
    {keep : Str × Entry → Bool} {id : Str} {o : Int}
    (h : (id, o) ∈ (plan (groups items (model.entries.items.filter keep)) model.default none now
      z).occurrences) : Planned model items now id o := by
  obtain ⟨group, hgroup, -, hdue⟩ := mem_plan_occurrences.mp h
  obtain ⟨entry, hentry, rfl⟩ := mem_groups.mp hgroup
  obtain ⟨hrecent, hpast, hafter⟩ := dueOccurrence_bounds hdue
  refine ⟨⟨entry, List.mem_of_mem_filter hentry⟩, fun c hc => hafter c ?_, hrecent, hpast⟩
  simp [Entry.group, hc]

theorem planned_of_tick {model : RuntimeModel} {items : Items} {now : Int} {z : Zone}
    {cache : Option (Dict Str LedgerEntry)} {ready : Bool} {id : Str} {o : Int}
    (h : (id, o) ∈ tickOccurrences model items now z cache ready) :
    Planned model items now id o := by
  rcases mem_arrayUnion h with hextra | hfeed
  · exact planned_of_plan hextra
  · unfold feedOccurrences at hfeed
    split at hfeed
    · exact planned_of_plan hfeed
    · cases hfeed

theorem nodup_tickOccurrences (model : RuntimeModel) (items : Items) (now : Int) (z : Zone)
    (cache : Option (Dict Str LedgerEntry)) (ready : Bool) :
    ((tickOccurrences model items now z cache ready).map Prod.fst).Nodup := by
  refine nodup_arrayUnion
    (nodup_plan_occurrences (nodup_groups_extras items model) model.default none now z) ?_
  unfold feedOccurrences
  split
  · exact nodup_plan_occurrences (nodup_groups_feeds items model) model.default none now z
  · exact List.nodup_nil

end PfBlockerNG.ScheduleTick
