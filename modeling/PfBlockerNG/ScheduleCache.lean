import PfBlockerNG.PhpArray
import PfBlockerNG.ScheduleRuns
import PfBlockerNG.SyncSchema

/-!
The schedule cache: the document a refresh writes, and that consulting it later hides no due feed
and no due Extra.
-/

namespace PfBlockerNG.ScheduleCache

open PfBlockerNG.Strings
open PfBlockerNG.OrderedDict
open PfBlockerNG.KeyedTree
open PfBlockerNG.PhpArray
open PfBlockerNG.SyncSchema (isIntKey)
open PfBlockerNG.Schedule
open PfBlockerNG.ScheduleState
open PfBlockerNG.ScheduleTick
open PfBlockerNG.ScheduleRuns

/-- The cache document: the configuration hash of its `_meta` and its entries. -/
structure Document where
  configHash : Str
  entries : Dict Str LedgerEntry

def cron : Str := ['c', 'r', 'o', 'n']

/-- Keys of earlier releases, dropped once the model has Extras. -/
def legacyKeys : List Str := [['d', 'c', 'c'], ['b', 'l']]

def bl : Str := ['e', 'x', 't', 'r', 'a', ':', 'b', 'l']

/-- `last_successful_check ?? last_completed_occurrence ?? 0`. -/
def lastRun (item : Item) : Int := (item.lastSuccessfulCheck.or item.lastCompletedOccurrence).getD 0

/-- The pending occurrence, where it is later than the completed one. -/
def pendingPast (item : Item) : Option Int :=
  match item.pendingOccurrence with
  | none => none
  | some p => if item.lastCompletedOccurrence.all (· < p) then some p else none

/-- The cursor of a feed: an attempted occurrence counts as completed. -/
def feedCursor (item : Item) : Option Int :=
  (if item.pendingAttempted then pendingPast item else none).or item.lastCompletedOccurrence

/-- The cursor of an Extra: a pending occurrence counts as completed. -/
def extraCursor (item : Item) : Option Int := (pendingPast item).or item.lastCompletedOccurrence

def feedPlan (model : RuntimeModel) (items : Items) (now : Int) (z : Zone) : Plan :=
  plan (groupsBy feedCursor items model.feeds) model.default none now z

def extraDue (model : RuntimeModel) (items : Items) (now : Int) (z : Zone) : List Str :=
  (plan (groupsBy extraCursor items model.extras) model.default none now z).due

/-- Where the search for an Extra's next occurrence starts. -/
def reference (now : Int) (item : Item) : Int :=
  match item.pendingOccurrence with
  | some p => if item.pendingAttempted then max now p else now
  | none => now

/-- `$next_due` of an enabled Extra. -/
def extraNextDue (model : RuntimeModel) (items : Items) (now : Int) (z : Zone) (id : Str)
    (entry : Entry) : Option Int :=
  if unattempted (items.item id) then some now
  else if (extraDue model items now z).contains id then some now
  else nextOccurrence z entry.cadence model.default (reference now (items.item id))

/-- `$extra_entries`. -/
def extraEntries (model : RuntimeModel) (items : Items) (now : Int) (z : Zone) :
    List (Str × LedgerEntry) :=
  model.extras.filterMap fun p =>
    if p.2.enabled then
      (extraNextDue model items now z p.1 p.2).map fun next =>
        (p.1, ⟨lastRun (items.item p.1), next, 0, none⟩)
    else none

def cronLastRun (model : RuntimeModel) (items : Items) : Int :=
  model.feeds.foldl (fun last p =>
    if p.2.enabled then max last (lastRun (items.item p.1)) else last) 0

/-- An enabled feed has a pending occurrence. -/
def feedPending (model : RuntimeModel) (items : Items) : Bool :=
  model.feeds.any fun p => p.2.enabled && (items.item p.1).pendingOccurrence.isSome

def cronNextDue (model : RuntimeModel) (items : Items) (now : Int) (z : Zone) : Option Int :=
  if feedPending model items || (feedPlan model items now z).due != [] then some now
  else (feedPlan model items now z).nextDue

def kMeta : Str := "_meta".toList
def kSchema : Str := "schema".toList
def kConfigHash : Str := "config_hash".toList
def kLastRun : Str := "last_run".toList
def kNextDue : Str := "next_due".toList
def kJitter : Str := "jitter".toList
def kPendingApply : Str := "pending_apply".toList

/-- `pfb_due_ledger_entry_valid`, with the entry it accepts. -/
def ledgerEntryValid : Value → Option LedgerEntry
  | .leaf _ => none
  | .node items =>
      match valueOf kLastRun items, valueOf kNextDue items, valueOf kJitter items with
      | .leaf (.int lastRun), .leaf (.int nextDue), .leaf (.int jitter) =>
          if items.all fun p => [kLastRun, kNextDue, kJitter, kPendingApply].contains p.1 then
            match lookup kPendingApply items with
            | none => some ⟨lastRun, nextDue, jitter, none⟩
            | some (.leaf (.bool b)) => some ⟨lastRun, nextDue, jitter, some b⟩
            | some _ => none
          else none
      | _, _, _ => none

/-- What `pfb_due_ledger_cache_valid` asks of `_meta`, without an expected hash. -/
def metaValid : Value → Bool
  | .leaf _ => false
  | .node items =>
      valueOf kSchema items == number 1 && (string (valueOf kConfigHash items)).any isDigest &&
        items.all fun p => [kSchema, kConfigHash].contains p.1

/-- `pfb_due_ledger_document_valid` of a decoded file. -/
def ledgerDocumentValid : Value → Bool
  | .leaf _ => false
  | .node items =>
      (lookup kMeta items).all metaValid &&
        items.all fun p => p.1 == kMeta ||
          !isIntKey p.1 && p.1 != [] && (ledgerEntryValid p.2).isSome

def diskEntry (p : Str × Value) : Option (Str × LedgerEntry) :=
  if p.1 = kMeta then none else (ledgerEntryValid p.2).map fun entry => (p.1, entry)

/-- The entries a refresh takes over from the decoded file: those of a valid document. -/
def entriesOnDisk (decoded : Value) : Dict Str LedgerEntry :=
  if ledgerDocumentValid decoded then Dict.empty.update (decoded.items.filterMap diskEntry)
  else Dict.empty

/-- The cron entry on disk, when its `pending_apply` is `TRUE`. -/
def pendingEntry (old : Dict Str LedgerEntry) : Option LedgerEntry :=
  (old.get cron).filter fun entry => entry.pendingApply == some true

/-- The entries kept from the document on disk. -/
def kept (model : RuntimeModel) (old : Dict Str LedgerEntry) : List (Str × LedgerEntry) :=
  let hasExtras := (model.entries.get dcc).isSome || (model.entries.get bl).isSome
  old.items.filter fun p => p.1 != cron && (!hasExtras || !legacyKeys.contains p.1)

/-- The cron entry of the new document. -/
def cronEntry (model : RuntimeModel) (items : Items) (now : Int) (z : Zone)
    (old : Dict Str LedgerEntry) : Option LedgerEntry :=
  match cronNextDue model items now z with
  | some next =>
      if model.scheduled then
        some ⟨cronLastRun model items, next, 0,
          if (pendingEntry old).isSome then some true else none⟩
      else pendingEntry old
  | none => pendingEntry old

/-- `$existing` with the Extras and the cron entry. -/
def documentEntries (model : RuntimeModel) (items : Items) (now : Int) (z : Zone)
    (old : Dict Str LedgerEntry) : Dict Str LedgerEntry :=
  let existing := (Dict.empty.update (kept model old)).update (extraEntries model items now z)
  match cronEntry model items now z old with
  | some entry => existing.set cron entry
  | none => existing

/-- The document a refresh writes; `old` are the entries of the valid document on disk, if any. -/
def cacheRefresh (digest : Digest) (model : RuntimeModel) (items : Items) (now : Int) (z : Zone)
    (old : Dict Str LedgerEntry) : Option Document :=
  if modelValid digest model && stateValid items then
    if (documentEntries model items now z old).keys.all (fun key => !key.isEmpty) then
      some ⟨model.configHash, documentEntries model items now z old⟩
    else none
  else none

/-! ### What the planner returns for one entry -/

theorem eq_of_mem_keys {α : Type} {items : List (Str × α)} (h : (items.map Prod.fst).Nodup)
    {id : Str} {a b : α} (ha : (id, a) ∈ items) (hb : (id, b) ∈ items) : a = b := by
  have hlookup := (lookup_eq_some_iff h id a).mpr ha
  rw [(lookup_eq_some_iff h id b).mpr hb] at hlookup
  exact (Option.some.inj hlookup).symm

/-- An enabled entry is returned due exactly where its window holds an occurrence past its
cursor. -/
theorem mem_due_iff {cursor : Item → Option Int} {items : Items} {entries : List (Str × Entry)}
    (hnodup : (entries.map Prod.fst).Nodup) {default : Slot} {now : Int} {z : Zone}
    (hz : z.Quarterly) {id : Str} {entry : Entry} (hentry : (id, entry) ∈ entries)
    (henabled : entry.enabled = true) (hrows : entry.hasActiveRows = true)
    (hrec : entry.cadence ≠ .never → Recurs z entry.cadence (entry.override.getD default)) :
    id ∈ (plan (groupsBy cursor items entries) default none now z).due ↔
      ∃ o, Occurs z entry.cadence (entry.override.getD default) o ∧ now - window ≤ o ∧ o ≤ now ∧
        ∀ c, cursor (items.item id) = some c → c < o := by
  have hplan : id ∈ (plan (groupsBy cursor items entries) default none now z).due ↔
      entry.cadence ≠ .never ∧ ∃ o, dueOccurrence z entry.cadence (entry.override.getD default)
        (cursor (items.item id)) now = some o := by
    rw [plan_due, List.mem_map]
    constructor
    · rintro ⟨⟨id', o⟩, hmem, rfl⟩
      obtain ⟨group, hgroup, helig, hdue⟩ := mem_plan_occurrences.mp hmem
      obtain ⟨entry', hentry', rfl⟩ := mem_groupsBy.mp hgroup
      obtain rfl := eq_of_mem_keys hnodup hentry hentry'
      rw [Entry.group_eligible, Bool.and_eq_true, bne_iff_ne] at helig
      refine ⟨helig.2, o, ?_⟩
      rw [Option.or_none] at hdue
      exact hdue
    · rintro ⟨hcadence, o, hdue⟩
      refine ⟨(id, o), mem_plan_occurrences.mpr
        ⟨_, mem_groupsBy.mpr ⟨entry, hentry, rfl⟩, ?_, ?_⟩, rfl⟩
      · simp [Entry.group_eligible, henabled, hrows, hcadence]
      · rw [Option.or_none]
        exact hdue
  rw [hplan]
  constructor
  · rintro ⟨hcadence, hdue⟩
    exact (exists_dueOccurrence_iff hz (hrec hcadence) _ now).mp hdue
  · rintro ⟨o, ho, hrest⟩
    exact ⟨ho.ne_never, (exists_dueOccurrence_iff hz (hrec ho.ne_never) _ now).mpr ⟨o, ho, hrest⟩⟩

theorem rows_of_modelValid {digest : Digest} {model : RuntimeModel}
    (h : modelValid digest model = true) {id : Str} {entry : Entry}
    (hentry : (id, entry) ∈ model.entries.items) : entry.hasActiveRows = true := by
  simp only [modelValid, Bool.and_eq_true, List.all_eq_true] at h
  exact (h.1.2 _ hentry).2

theorem nodup_feeds (model : RuntimeModel) : (model.feeds.map Prod.fst).Nodup :=
  nodup_filter_keys model.entries.nodup _

theorem nodup_extras (model : RuntimeModel) : (model.extras.map Prod.fst).Nodup :=
  nodup_filter_keys model.entries.nodup _

/-! ### The cron entry -/

theorem cacheRefresh_eq_some {digest : Digest} {model : RuntimeModel} {items : Items} {now : Int}
    {z : Zone} {old : Dict Str LedgerEntry} {doc : Document}
    (h : cacheRefresh digest model items now z old = some doc) :
    modelValid digest model = true ∧ stateValid items = true ∧
      doc.entries = documentEntries model items now z old := by
  unfold cacheRefresh at h
  split at h
  · next hvalid =>
      rw [Bool.and_eq_true] at hvalid
      split at h
      · injection h with h
        subst h
        exact ⟨hvalid.1, hvalid.2, rfl⟩
      · cases h
  · cases h

theorem documentEntries_cron {model : RuntimeModel} {items : Items} {now : Int} {z : Zone}
    {old : Dict Str LedgerEntry} {entry : LedgerEntry}
    (h : cronEntry model items now z old = some entry) :
    (documentEntries model items now z old).get cron = some entry := by
  simp only [documentEntries, h]
  exact Dict.get_set_self _ _ _

theorem get_cron_of_cronEntry {digest : Digest} {model : RuntimeModel} {items : Items} {now : Int}
    {z : Zone} {old : Dict Str LedgerEntry} {doc : Document} {entry : LedgerEntry}
    (h : cacheRefresh digest model items now z old = some doc)
    (hcron : cronEntry model items now z old = some entry) : doc.entries.get cron = some entry := by
  rw [(cacheRefresh_eq_some h).2.2]
  exact documentEntries_cron hcron

/-- A pending apply survives a refresh. -/
theorem pendingApply_kept {digest : Digest} {model : RuntimeModel} {items : Items} {now : Int}
    {z : Zone} {old : Dict Str LedgerEntry} {doc : Document} {entry : LedgerEntry}
    (h : cacheRefresh digest model items now z old = some doc) (hold : old.get cron = some entry)
    (hpending : entry.pendingApply = some true) :
    ∃ entry', doc.entries.get cron = some entry' ∧ entry'.pendingApply = some true := by
  have hentry : pendingEntry old = some entry := by
    simp [pendingEntry, hold, hpending]
  have hcron : ∃ entry', cronEntry model items now z old = some entry' ∧
      entry'.pendingApply = some true := by
    unfold cronEntry
    split
    · split
      · refine ⟨_, rfl, ?_⟩
        rw [hentry]
        rfl
      · exact ⟨entry, hentry, hpending⟩
    · exact ⟨entry, hentry, hpending⟩
  obtain ⟨entry', hcron, hpending'⟩ := hcron
  exact ⟨entry', get_cron_of_cronEntry h hcron, hpending'⟩

/-- A refresh takes over every entry of a valid document. -/
theorem get_entriesOnDisk {items : Pairs} (hvalid : ledgerDocumentValid (.node items) = true)
    (hnodup : (items.map Prod.fst).Nodup) {k : Str} (hk : k ≠ kMeta) {v : Value}
    {entry : LedgerEntry} (hlookup : lookup k items = some v)
    (hentry : ledgerEntryValid v = some entry) :
    (entriesOnDisk (.node items)).get k = some entry := by
  have hkeys : ∀ x y : Str × _, diskEntry x = some y → y.1 = x.1 := by
    intro x y hxy
    unfold diskEntry at hxy
    split at hxy
    · cases hxy
    · obtain ⟨_, -, rfl⟩ := Option.map_eq_some_iff.mp hxy
      rfl
  rw [entriesOnDisk, if_pos hvalid]
  refine Dict.get_update_of_mem _ ((keys_filterMap_sublist hkeys items).nodup hnodup)
    (List.mem_filterMap.mpr ⟨(k, v), (lookup_eq_some_iff hnodup k v).mp hlookup, ?_⟩)
  rw [diskEntry, if_neg hk, hentry]
  rfl

/-- A pending apply of a valid document survives a refresh. -/
theorem pendingApply_onDisk {digest : Digest} {model : RuntimeModel} {items : Items} {now : Int}
    {z : Zone} {doc : Document} {disk entry : Pairs}
    (hvalid : ledgerDocumentValid (.node disk) = true) (hnodup : (disk.map Prod.fst).Nodup)
    (hcron : lookup cron disk = some (.node entry))
    (hpending : lookup kPendingApply entry = some (flag true))
    (h : cacheRefresh digest model items now z (entriesOnDisk (.node disk)) = some doc) :
    ∃ entry', doc.entries.get cron = some entry' ∧ entry'.pendingApply = some true := by
  have hmem := (lookup_eq_some_iff hnodup cron _).mp hcron
  have hall := (Bool.and_eq_true_iff.mp hvalid).2
  have hitem := List.all_eq_true.mp hall _ hmem
  have hsome : (ledgerEntryValid (.node entry)).isSome = true := by
    rw [Bool.or_eq_true_iff, Bool.and_eq_true_iff] at hitem
    exact (hitem.resolve_left (show ¬ (cron == kMeta) = true by decide)).2
  obtain ⟨read, hread⟩ := Option.isSome_iff_exists.mp hsome
  refine pendingApply_kept h (get_entriesOnDisk hvalid hnodup (by decide) hcron hread) ?_
  unfold ledgerEntryValid at hread
  dsimp only at hread
  rw [hpending] at hread
  split at hread
  · split at hread
    · obtain rfl := Option.some.inj hread
      rfl
    · cases hread
  · cases hread

theorem feedCursor_of_not_pending {item : Item} (h : item.pendingOccurrence = none) :
    feedCursor item = item.lastCompletedOccurrence := by
  simp [feedCursor, pendingPast, h]

/-- Work that is due later is cached: the wake of the refresh is not after it. -/
theorem cronNextDue_le {model : RuntimeModel} {items : Items} {z : Zone} (hz : z.Quarterly)
    (hrec : ∀ id entry, (id, entry) ∈ model.feeds → entry.enabled = true →
      entry.cadence ≠ .never → Recurs z entry.cadence (entry.override.getD model.default))
    {now later : Int} (hlater : now ≤ later)
    (hdue : (plan (groups items model.feeds) model.default none later z).due ≠ [] ∨
      feedPending model items = true) :
    ∃ d, cronNextDue model items now z = some d ∧ d ≤ later := by
  unfold cronNextDue
  by_cases hnow : (feedPending model items || (feedPlan model items now z).due != []) = true
  · rw [if_pos hnow]
    exact ⟨now, rfl, hlater⟩
  · rw [if_neg hnow]
    simp only [Bool.or_eq_true, bne_iff_ne, ne_eq, not_or, not_not] at hnow
    obtain ⟨hpending, hidle⟩ := hnow
    have hsome : (plan (groups items model.feeds) model.default none later z).due ≠ [] :=
      hdue.resolve_right hpending
    obtain ⟨id, hid⟩ := List.exists_mem_of_ne_nil _ hsome
    have hgroup := hid
    rw [plan_due, List.mem_map] at hgroup
    obtain ⟨⟨id', o⟩, hmem, rfl⟩ := hgroup
    obtain ⟨group, hgroup, helig, -⟩ := mem_plan_occurrences.mp hmem
    obtain ⟨entry, hentry, rfl⟩ := mem_groups.mp hgroup
    rw [Entry.group_eligible, Bool.and_eq_true, Bool.and_eq_true, bne_iff_ne] at helig
    obtain ⟨⟨henabled, hrows⟩, hcadence⟩ := helig
    have hrec' := hrec id' entry hentry henabled
    have hcursor : feedCursor (items.item id') = (items.item id').lastCompletedOccurrence := by
      refine feedCursor_of_not_pending (Option.not_isSome_iff_eq_none.mp fun hsome => ?_)
      exact hpending (List.any_eq_true.mpr ⟨(id', entry), hentry, by simp [henabled, hsome]⟩)
    obtain ⟨o', ho', hrecent, hpast, hafter⟩ :=
      (mem_due_iff (nodup_feeds model) hz hentry henabled hrows hrec').mp hid
    have hnow' : now < o' := by
      by_contra hle
      have hdueNow : id' ∈ (feedPlan model items now z).due := by
        refine (mem_due_iff (nodup_feeds model) hz hentry henabled hrows hrec').mpr
          ⟨o', ho', by omega, by omega, ?_⟩
        rwa [hcursor]
      rw [hidle] at hdueNow
      exact absurd hdueNow List.not_mem_nil
    obtain ⟨n, hnext, hleast⟩ := nextOccurrence_of_recurs hz (hrec' hcadence) now
    have helig' : (entry.group (feedCursor (items.item id'))).eligible = true := by
      simp [Entry.group_eligible, henabled, hrows, hcadence]
    obtain ⟨d, hd, hle⟩ := plan_nextDue_le
      (mem_groupsBy.mpr ⟨entry, hentry, rfl⟩ :
        (id', entry.group (feedCursor (items.item id'))) ∈ groupsBy feedCursor items model.feeds)
      helig' hnext
    have hn := hleast o' ho' hnow'
    exact ⟨d, hd, by omega⟩

/-- Due or pending feed work is never behind the cached wake. -/
theorem cron_covers {digest : Digest} {model : RuntimeModel} {items : Items} {now later : Int}
    {z : Zone} {old : Dict Str LedgerEntry} {doc : Document}
    (h : cacheRefresh digest model items now z old = some doc) (hz : z.Quarterly)
    (hrec : ∀ id entry, (id, entry) ∈ model.feeds → entry.enabled = true →
      entry.cadence ≠ .never → Recurs z entry.cadence (entry.override.getD model.default))
    (hlater : now ≤ later)
    (hdue : (plan (groups items model.feeds) model.default none later z).due ≠ [] ∨
      feedPending model items = true) :
    model.scheduled = false ∨
      ∃ entry, doc.entries.get cron = some entry ∧ entry.nextDue ≤ later := by
  cases hscheduled : model.scheduled with
  | false => exact Or.inl rfl
  | true =>
      obtain ⟨d, hd, hle⟩ := cronNextDue_le hz hrec hlater hdue
      refine Or.inr ⟨_, get_cron_of_cronEntry h (?_ : cronEntry model items now z old = some
        ⟨cronLastRun model items, d, 0, if (pendingEntry old).isSome then some true else none⟩),
        hle⟩
      simp only [cronEntry, hd, hscheduled, if_true]

/-! ### Extras -/

theorem nodup_filterMap_keys {α β : Type} {items : List (Str × α)} {f : Str × α → Option (Str × β)}
    (hf : ∀ p q, f p = some q → q.1 = p.1) (h : (items.map Prod.fst).Nodup) :
    ((items.filterMap f).map Prod.fst).Nodup := by
  refine List.Nodup.sublist ?_ h
  clear h
  induction items with
  | nil => exact List.Sublist.refl _
  | cons p items ih =>
      cases hp : f p with
      | none =>
          rw [List.filterMap_cons_none hp]
          exact ih.cons _
      | some q =>
          rw [List.filterMap_cons_some hp, List.map_cons, List.map_cons, hf p q hp]
          exact ih.cons_cons _

theorem nodup_extraEntries (model : RuntimeModel) (items : Items) (now : Int) (z : Zone) :
    ((extraEntries model items now z).map Prod.fst).Nodup := by
  refine nodup_filterMap_keys (fun p q hq => ?_) (nodup_extras model)
  split at hq
  · rw [Option.map_eq_some_iff] at hq
    obtain ⟨next, -, rfl⟩ := hq
    rfl
  · cases hq

theorem ne_cron_of_isExtra {id : Str} (h : isExtra id = true) : cron ≠ id := by
  rintro rfl
  exact absurd h (by decide)

/-- An enabled Extra is cached with the wake the refresh computes for it. -/
theorem get_extra {digest : Digest} {model : RuntimeModel} {items : Items} {now : Int} {z : Zone}
    {old : Dict Str LedgerEntry} {doc : Document}
    (h : cacheRefresh digest model items now z old = some doc) {id : Str} {entry : Entry}
    (hentry : (id, entry) ∈ model.extras) (henabled : entry.enabled = true) {next : Int}
    (hnext : extraNextDue model items now z id entry = some next) :
    doc.entries.get id = some ⟨lastRun (items.item id), next, 0, none⟩ := by
  have hmem : (id, (⟨lastRun (items.item id), next, 0, none⟩ : LedgerEntry)) ∈
      extraEntries model items now z := by
    refine List.mem_filterMap.mpr ⟨(id, entry), hentry, ?_⟩
    simp [henabled, hnext]
  have hget := Dict.get_update_of_mem (Dict.empty.update (kept model old))
    (nodup_extraEntries model items now z) hmem
  have hne := ne_cron_of_isExtra (List.mem_filter.mp hentry).2
  rw [(cacheRefresh_eq_some h).2.2]
  unfold documentEntries
  dsimp only
  split
  · rw [Dict.get_set_of_ne _ _ hne]
    exact hget
  · exact hget

/-- The occurrence is later than the completed and than the attempted one. -/
def Past (item : Item) (o : Int) : Prop :=
  (∀ c, item.lastCompletedOccurrence = some c → c < o) ∧
    ∀ p, item.pendingAttempted = true → item.pendingOccurrence = some p → p < o

/-- Without unattempted work the cursor of an Extra is the later of its two occurrences. -/
theorem past_iff_cursor {item : Item} (hok : item = Item.empty ∨ ItemOk item)
    (hattempted : unattempted item = false) (o : Int) :
    Past item o ↔ ∀ c, extraCursor item = some c → c < o := by
  unfold Past extraCursor pendingPast
  cases hp : item.pendingOccurrence with
  | none => simp
  | some p =>
      have hflag : item.pendingAttempted = true := by
        simpa [unattempted, hp] using hattempted
      have hlater : ∀ c, item.lastCompletedOccurrence = some c → c < p := by
        rcases hok with rfl | hok
        · cases hp
        · exact fun c hc => hok.later c p hc hp
      have hall : item.lastCompletedOccurrence.all (· < p) = true := by
        cases hc : item.lastCompletedOccurrence with
        | none => rfl
        | some c => simpa using hlater c hc
      simp only [hall, if_true, Option.some_or, Option.some.injEq, forall_eq', hflag, forall_const]
      constructor
      · exact fun h => h.2
      · exact fun h => ⟨fun c hc => (hlater c hc).trans h, h⟩

/-- Where nothing unattempted is pending, an occurrence past the reference is past the cursor,
when it is past the completed one. -/
theorem lt_reference_iff {item : Item} (hattempted : unattempted item = false) {now o : Int} :
    reference now item < o ↔ now < o ∧
      ∀ p, item.pendingAttempted = true → item.pendingOccurrence = some p → p < o := by
  unfold reference
  cases hp : item.pendingOccurrence with
  | none => simp
  | some p =>
      have hflag : item.pendingAttempted = true := by
        simpa [unattempted, hp] using hattempted
      simp only [hflag, if_true, Option.some.injEq, forall_eq', forall_const]
      omega

theorem mem_extraPlan_due {model : RuntimeModel} {items : Items} {now : Int} {z : Zone}
    {cache : Dict Str LedgerEntry} {ready : Bool} {id : Str} {entry : Entry}
    (hentry : (id, entry) ∈ model.extras) (hready : id = dcc → ready = true) :
    id ∈ (extraPlan model items now z (some cache) ready).due ↔
      (unattempted (items.item id) = true ∨
        id ∈ (plan (groups items model.extras) model.default none now z).due) ∧
      ∃ e, cache.get id = some e ∧ e.nextDue ≤ now := by
  have hcached : id ∈ (model.extras.map Prod.fst).filter (cachedDue items cache
      (plan (groups items model.extras) model.default none now z).due now) ↔
      (unattempted (items.item id) = true ∨
        id ∈ (plan (groups items model.extras) model.default none now z).due) ∧
      ∃ e, cache.get id = some e ∧ e.nextDue ≤ now := by
    rw [List.mem_filter]
    unfold cachedDue
    have hmem : id ∈ model.extras.map Prod.fst := List.mem_map.mpr ⟨(id, entry), hentry, rfl⟩
    cases hget : cache.get id with
    | none => simp
    | some e => simp [hmem]
  rw [← hcached]
  unfold extraPlan
  dsimp only
  split
  · next happend =>
      have hne : id ≠ dcc := by
        intro heq
        rw [hready heq] at happend
        simp at happend
      rw [List.mem_append, List.mem_singleton]
      simp [hne]
  · exact Iff.rfl

/-- An enabled Extra without an override: what its plan returns. -/
theorem mem_extras_due_iff {cursor : Item → Option Int} {digest : Digest} {model : RuntimeModel}
    (hmodel : modelValid digest model = true) {items : Items} {now : Int} {z : Zone}
    (hz : z.Quarterly) {id : Str} {entry : Entry} (hentry : (id, entry) ∈ model.extras)
    (henabled : entry.enabled = true) (hoverride : entry.override = none)
    (hrec : entry.cadence ≠ .never → Recurs z entry.cadence model.default) :
    id ∈ (plan (groupsBy cursor items model.extras) model.default none now z).due ↔
      ∃ o, Occurs z entry.cadence model.default o ∧ now - window ≤ o ∧ o ≤ now ∧
        ∀ c, cursor (items.item id) = some c → c < o := by
  have hrows := rows_of_modelValid hmodel (List.mem_of_mem_filter hentry)
  have hslot : entry.override.getD model.default = model.default := by
    rw [hoverride]
    rfl
  rw [mem_due_iff (nodup_extras model) hz hentry henabled hrows (by rwa [hslot]), hslot]

/-- The wake of an Extra without unattempted work: now where it is due, else the first occurrence
past the reference. -/
theorem extraNextDue_eq {model : RuntimeModel} {items : Items} {now : Int} {z : Zone} {id : Str}
    (hun : unattempted (items.item id) = false) (entry : Entry) :
    (id ∈ extraDue model items now z → extraNextDue model items now z id entry = some now) ∧
    (id ∉ extraDue model items now z → extraNextDue model items now z id entry =
      nextOccurrence z entry.cadence model.default (reference now (items.item id))) := by
  unfold extraNextDue
  rw [hun]
  constructor
  · intro h
    simp [h]
  · intro h
    simp [h]

section Extra

variable {digest : Digest} {model : RuntimeModel} {items : Items} {now later : Int} {z : Zone}
  {old : Dict Str LedgerEntry} {doc : Document} {id : Str} {entry : Entry}

/-- An Extra returned due has an occurrence past its completed and attempted ones. -/
theorem past_of_due (h : cacheRefresh digest model items now z old = some doc) (hz : z.Quarterly)
    (hlater : now ≤ later) (hentry : (id, entry) ∈ model.extras)
    (henabled : entry.enabled = true) (hoverride : entry.override = none)
    (hrec : entry.cadence ≠ .never → Recurs z entry.cadence model.default)
    (hun : unattempted (items.item id) = false)
    (hdue : id ∈ (plan (groups items model.extras) model.default none later z).due)
    {e : LedgerEntry} (hget : doc.entries.get id = some e) (hle : e.nextDue ≤ later) :
    ∃ o, Occurs z entry.cadence model.default o ∧ later - window ≤ o ∧ o ≤ later ∧
      Past (items.item id) o := by
  obtain ⟨hmodel, hvalid, -⟩ := cacheRefresh_eq_some h
  have hpast := past_iff_cursor (item_ok hvalid id) hun
  obtain ⟨o, ho, hrecent, hbefore, hafter⟩ :=
    (mem_extras_due_iff hmodel hz hentry henabled hoverride hrec).mp hdue
  have hrec := hrec ho.ne_never
  by_cases hnow : id ∈ extraDue model items now z
  · obtain ⟨o₁, ho₁, -, hle₁, hafter₁⟩ :=
      (mem_extras_due_iff hmodel hz hentry henabled hoverride fun _ => hrec).mp hnow
    obtain ⟨o', ho', hrecent', hbefore', hge⟩ := recent_of_recurs hrec ho₁ (hle₁.trans hlater)
    refine ⟨o', ho', hrecent', hbefore', (hpast o').mpr fun c hc => ?_⟩
    have hlt := hafter₁ c hc
    omega
  · obtain ⟨n, hnext, -⟩ := nextOccurrence_of_recurs hz hrec (reference now (items.item id))
    have hwake := (extraNextDue_eq hun entry).2 hnow
    rw [hnext] at hwake
    rw [get_extra h hentry henabled hwake] at hget
    cases hget
    obtain ⟨-, hattempted⟩ := (lt_reference_iff hun).mp (nextOccurrence_bounds hnext).1
    obtain ⟨o', ho', hrecent', hbefore', hge⟩ :=
      recent_of_recurs hrec (nextOccurrence_eq_some hz hnext).1 hle
    by_cases hcompare : o ≤ o'
    · refine ⟨o', ho', hrecent', hbefore', fun c hc => ?_, fun p hflag hp => ?_⟩
      · have hlt := hafter c hc
        omega
      · have hlt := hattempted p hflag hp
        omega
    · refine ⟨o, ho, hrecent, hbefore, hafter, fun p hflag hp => ?_⟩
      have hlt := hattempted p hflag hp
      omega

/-- Such an occurrence is returned due, and the cached wake is not after it. -/
theorem due_of_past (h : cacheRefresh digest model items now z old = some doc) (hz : z.Quarterly)
    (hlater : now ≤ later) (hentry : (id, entry) ∈ model.extras)
    (henabled : entry.enabled = true) (hoverride : entry.override = none)
    (hrec : entry.cadence ≠ .never → Recurs z entry.cadence model.default)
    (hun : unattempted (items.item id) = false) {o : Int}
    (ho : Occurs z entry.cadence model.default o) (hrecent : later - window ≤ o)
    (hbefore : o ≤ later) (hpast : Past (items.item id) o) :
    id ∈ (plan (groups items model.extras) model.default none later z).due ∧
      ∃ e, doc.entries.get id = some e ∧ e.nextDue ≤ later := by
  obtain ⟨hmodel, hvalid, -⟩ := cacheRefresh_eq_some h
  refine ⟨(mem_extras_due_iff hmodel hz hentry henabled hoverride hrec).mpr
    ⟨o, ho, hrecent, hbefore, hpast.1⟩, ?_⟩
  by_cases hnow : id ∈ extraDue model items now z
  · exact ⟨_, get_extra h hentry henabled ((extraNextDue_eq hun entry).1 hnow), hlater⟩
  · have hlt : now < o := by
      by_contra hle
      refine hnow ((mem_extras_due_iff hmodel hz hentry henabled hoverride hrec).mpr
        ⟨o, ho, by omega, by omega, ?_⟩)
      exact (past_iff_cursor (item_ok hvalid id) hun o).mp hpast
    obtain ⟨n, hnext, hleast⟩ :=
      nextOccurrence_of_recurs hz (hrec ho.ne_never) (reference now (items.item id))
    have hwake := (extraNextDue_eq hun entry).2 hnow
    rw [hnext] at hwake
    have hn := hleast o ho ((lt_reference_iff hun).mpr ⟨hlt, hpast.2⟩)
    exact ⟨_, get_extra h hentry henabled hwake, hn.trans hbefore⟩

/-- An enabled Extra is returned due exactly where it has unattempted work or an occurrence of
the window past its completed and attempted ones. -/
theorem extra_due_iff (h : cacheRefresh digest model items now z old = some doc)
    (hz : z.Quarterly) (hlater : now ≤ later) (hentry : (id, entry) ∈ model.extras)
    (henabled : entry.enabled = true) (hoverride : entry.override = none)
    (hrec : entry.cadence ≠ .never → Recurs z entry.cadence model.default) {ready : Bool}
    (hready : id = dcc → ready = true) :
    id ∈ (extraPlan model items later z (some doc.entries) ready).due ↔
      unattempted (items.item id) = true ∨
        ∃ o, Occurs z entry.cadence model.default o ∧ later - window ≤ o ∧ o ≤ later ∧
          Past (items.item id) o := by
  rw [mem_extraPlan_due hentry hready]
  cases hun : unattempted (items.item id) with
  | true =>
      have hnext : extraNextDue model items now z id entry = some now := by
        rw [extraNextDue, if_pos hun]
      have hget := get_extra h hentry henabled hnext
      exact ⟨fun _ => Or.inl rfl, fun _ => ⟨Or.inl rfl, _, hget, hlater⟩⟩
  | false =>
      simp only [Bool.false_eq_true, false_or]
      constructor
      · rintro ⟨hdue, e, hget, hle⟩
        exact past_of_due h hz hlater hentry henabled hoverride hrec hun hdue hget hle
      · rintro ⟨o, ho, hrecent, hbefore, hpast⟩
        exact due_of_past h hz hlater hentry henabled hoverride hrec hun ho hrecent hbefore hpast

end Extra

/-- A cache document written at one time and consulted at any later one, with the model and the
state unchanged: due or pending feed work is not behind the cached wake, the Extras returned due are
those with work, and a pending apply is still set. -/
theorem cache_hides_nothing {digest : Digest} {model : RuntimeModel} {items : Items}
    {now later : Int} {z : Zone} {old : Dict Str LedgerEntry} {doc : Document}
    (h : cacheRefresh digest model items now z old = some doc) (hlater : now ≤ later)
    (hz : ∀ t, (900 : Int) ∣ z.offset t)
    (hrec : ∀ id entry, (id, entry) ∈ model.entries.items → entry.enabled = true →
      entry.cadence ≠ .never → Recurs z entry.cadence (entry.override.getD model.default)) :
    ((plan (groups items model.feeds) model.default none later z).due ≠ [] ∨
        (∃ id entry, (id, entry) ∈ model.feeds ∧ entry.enabled = true ∧
          (items.item id).pendingOccurrence.isSome = true) →
      model.scheduled = false ∨
        ∃ entry, doc.entries.get cron = some entry ∧ entry.nextDue ≤ later) ∧
    (∀ id entry ready, (id, entry) ∈ model.extras → entry.enabled = true →
      entry.override = none → (id = dcc → ready = true) →
      (id ∈ (extraPlan model items later z (some doc.entries) ready).due ↔
        unattempted (items.item id) = true ∨
          ∃ o, Occurs z entry.cadence model.default o ∧ later - window ≤ o ∧ o ≤ later ∧
            Past (items.item id) o)) ∧
    ((∃ entry, old.get cron = some entry ∧ entry.pendingApply = some true) →
      ∃ entry, doc.entries.get cron = some entry ∧ entry.pendingApply = some true) := by
  have hquarterly := Zone.Quarterly.of_dvd hz
  refine ⟨fun hdue => ?_, fun id entry ready hentry henabled hoverride hready => ?_, ?_⟩
  · refine cron_covers h hquarterly
      (fun id entry hentry => hrec id entry (List.mem_of_mem_filter hentry)) hlater ?_
    rcases hdue with hdue | ⟨id, entry, hentry, henabled, hpending⟩
    · exact Or.inl hdue
    · exact Or.inr (List.any_eq_true.mpr ⟨(id, entry), hentry, by simp [henabled, hpending]⟩)
  · have hrecExtra := hrec id entry (List.mem_of_mem_filter hentry) henabled
    rw [hoverride] at hrecExtra
    exact extra_due_iff h hquarterly hlater hentry henabled hoverride hrecExtra hready
  · rintro ⟨entry, hold, hpending⟩
    exact pendingApply_kept h hold hpending

/-- A pending feed, cached at one time and consulted a day later. -/
theorem cache_hides_nothing_pending :
    ∃ doc, cacheRefresh fixedDigest (oneFeed .hours01)
        (Dict.empty.set feedId ⟨none, none, none, some 1296000, false⟩) 1300000 utc Dict.empty =
      some doc ∧ ((oneFeed .hours01).scheduled = false ∨
        ∃ entry, doc.entries.get cron = some entry ∧ entry.nextDue ≤ 1386400) := by
  have hsome : (cacheRefresh fixedDigest (oneFeed .hours01)
      (Dict.empty.set feedId ⟨none, none, none, some 1296000, false⟩) 1300000 utc
      Dict.empty).isSome = true := by decide
  obtain ⟨doc, hdoc⟩ := Option.isSome_iff_exists.mp hsome
  refine ⟨doc, hdoc, (cache_hides_nothing hdoc (by decide) (fun t => ⟨0, rfl⟩)
    (fun id entry _ _ hcadence => recurs_of_fixed hcadence _)).1 (Or.inr ?_)⟩
  exact ⟨feedId, ⟨.hours01, true, true, none⟩, by decide, rfl, by decide⟩

/-- A zone that jumps a day ahead before two Mondays in a row. -/
def skipping : Zone :=
  ⟨fun t => if t < 2763900 then 0 else if t < 3282300 then 86400 else 172800⟩

/-- A model of one enabled Extra. -/
def oneExtra (id : Str) (entry : Entry) : RuntimeModel where
  configHash := List.replicate 64 '0'
  scheduled := true
  default := mondayMidnight
  entries := Dict.empty.set id entry

def tuesdayMidnight : Slot :=
  ⟨2, 0, 0, by decide, mondayMidnight.hour_range, mondayMidnight.minute_quarter⟩

/-- The state of an Extra that completed an occurrence. -/
def completedAt (id : Str) (o : Int) : Items :=
  Dict.empty.set id ⟨some o, some o, some .success, none, false⟩

/-- A ledger with a pending apply next to an entry that is none. -/
def damagedLedger : Value :=
  .node [(cron, .node [(kLastRun, number 0), (kNextDue, number 0), (kJitter, number 0),
    (kPendingApply, flag true)]), (bl, number 0)]

theorem dvd_skipping (t : Int) : (900 : Int) ∣ skipping.offset t := by
  unfold skipping
  dsimp only
  split
  · exact ⟨0, rfl⟩
  · split
    · exact ⟨96, rfl⟩
    · exact ⟨192, rfl⟩

theorem past_completedAt : Past ((completedAt bl 1728000).item bl) 2246400 := by
  have hitem : ((completedAt bl 1728000).item bl).lastCompletedOccurrence = some 1728000 := by
    decide
  have hflag : ((completedAt bl 1728000).item bl).pendingAttempted = false := by decide
  refine ⟨fun c hc => ?_, fun p hp => ?_⟩
  · rw [hitem] at hc
    obtain rfl := Option.some.inj hc
    omega
  · rw [hflag] at hp
    cases hp

/-- After nineteen days without a Monday the feed that is due at that Monday is cached for the
next one; an Extra with an override is cached by the default schedule; without a GeoIP
generation its Extra is due without any work; and of an invalid document the pending apply is
dropped. -/
theorem cache_hides_due :
    (∃ doc, cacheRefresh fixedDigest (oneFeed .weekly) Dict.empty 3801600 skipping Dict.empty =
        some doc ∧ (∀ t, (900 : Int) ∣ skipping.offset t) ∧
      (plan (groups Dict.empty (oneFeed .weekly).feeds) mondayMidnight none 3801601
        skipping).due ≠ [] ∧
      ∀ entry, doc.entries.get cron = some entry → 3801601 < entry.nextDue) ∧
    (∃ doc, cacheRefresh fixedDigest (oneExtra bl ⟨.weekly, true, true, some tuesdayMidnight⟩)
        (completedAt bl 1728000) 2160060 utc Dict.empty = some doc ∧
      Occurs utc .weekly tuesdayMidnight 2246400 ∧ Past ((completedAt bl 1728000).item bl) 2246400 ∧
      bl ∉ (extraPlan (oneExtra bl ⟨.weekly, true, true, some tuesdayMidnight⟩)
        (completedAt bl 1728000) 2246460 utc (some doc.entries) true).due) ∧
    (∃ doc, cacheRefresh fixedDigest (oneExtra dcc ⟨.never, true, true, none⟩) Dict.empty 0 utc
        Dict.empty = some doc ∧
      dcc ∈ (extraPlan (oneExtra dcc ⟨.never, true, true, none⟩) Dict.empty 0 utc
        (some doc.entries) false).due ∧
      unattempted (Items.item Dict.empty dcc) = false ∧
      ∀ o, ¬ Occurs utc .never mondayMidnight o) ∧
    ∃ doc, cacheRefresh fixedDigest (oneFeed .hours01) Dict.empty 1300000 utc
        (entriesOnDisk damagedLedger) = some doc ∧
      (lookup cron damagedLedger.items).any (fun entry =>
        valueOf kPendingApply entry.items == flag true) = true ∧
      ∀ entry, doc.entries.get cron = some entry → entry.pendingApply ≠ some true := by
  have hgap : (cacheRefresh fixedDigest (oneFeed .weekly) Dict.empty 3801600 skipping
      Dict.empty).any (fun doc => (doc.entries.get cron).all (3801601 < ·.nextDue)) = true := by
    decide +kernel
  have hoverride : (cacheRefresh fixedDigest
      (oneExtra bl ⟨.weekly, true, true, some tuesdayMidnight⟩) (completedAt bl 1728000) 2160060 utc
      Dict.empty).any (fun doc =>
        !(extraPlan (oneExtra bl ⟨.weekly, true, true, some tuesdayMidnight⟩)
          (completedAt bl 1728000) 2246460 utc (some doc.entries) true).due.contains bl) =
      true := by decide +kernel
  have hready : (cacheRefresh fixedDigest (oneExtra dcc ⟨.never, true, true, none⟩) Dict.empty 0
      utc Dict.empty).any (fun doc =>
        (extraPlan (oneExtra dcc ⟨.never, true, true, none⟩) Dict.empty 0 utc
          (some doc.entries) false).due.contains dcc) = true := by decide
  have hdamaged : (cacheRefresh fixedDigest (oneFeed .hours01) Dict.empty 1300000 utc
      (entriesOnDisk damagedLedger)).any (fun doc =>
        (doc.entries.get cron).all (·.pendingApply != some true)) = true := by decide +kernel
  obtain ⟨gap, hgap, hwake⟩ := (Option.any_eq_true _ _).mp hgap
  obtain ⟨other, hother, hidden⟩ := (Option.any_eq_true _ _).mp hoverride
  obtain ⟨idle, hidle, hdue⟩ := (Option.any_eq_true _ _).mp hready
  obtain ⟨fresh, hfresh, hdropped⟩ := (Option.any_eq_true _ _).mp hdamaged
  refine ⟨⟨gap, hgap, dvd_skipping, by decide +kernel, fun entry hentry => ?_⟩,
    ⟨other, hother, ⟨by decide, by decide⟩, past_completedAt, by simpa using hidden⟩,
    ⟨idle, hidle, by simpa using hdue, rfl, fun o ho => ho.ne_never rfl⟩,
    fresh, hfresh, by decide, fun entry hentry => ?_⟩
  · rw [hentry] at hwake
    simpa using hwake
  · rw [hentry] at hdropped
    simpa using hdropped

end PfBlockerNG.ScheduleCache
