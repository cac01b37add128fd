import PfBlockerNG.BlockStores

/-!
What a build writes, line by line: the index each line takes, the block it writes under it, and
the stores as a record of the last writes to each key.
-/

namespace PfBlockerNG.BlockWrites

open PfBlockerNG.Strings
open PfBlockerNG.PyText
open PfBlockerNG.OrderedDict
open PfBlockerNG.Bands
open PfBlockerNG.DomainNames
open PfBlockerNG.AbpRules
open PfBlockerNG.Reconcile
open PfBlockerNG.Build
open PfBlockerNG.BlockStores

/-! ### Events and writes -/

/-- What writes an entry: the TLD blacklist, or a line of a row. -/
inductive Source where
  | blacklist
  | row (feed group : Str) (prov : Provenance)
  deriving DecidableEq, Repr

namespace Source

/-- The pair a write is to be attributed to. -/
def pair : Source → Str × Str
  | .blacklist => ("DNSBL_TLD".toList, "DNSBL_TLD".toList)
  | .row feed group _ => (feed, group)

/-- TOP1M filters what it writes. -/
def filtered (f : Top1mFilter) : Source → Bool
  | .blacklist => false
  | .row feed group _ => f.rows.contains (feed, group)

end Source

structure Block where
  cls : BlockClass
  key : Str
  payload : Nat → BlockPayload

/-- A line that takes an index for a pair of names, and the block it writes under the index, if it
writes one. -/
structure Event where
  source : Source
  indexed : Str × Str
  block : Option Block

structure Write where
  source : Source
  indexed : Str × Str
  cls : BlockClass
  key : Str
  payload : BlockPayload
  deriving DecidableEq, Repr

namespace Event

def index (ix : Indexer) (e : Event) : Nat × Indexer := indexFor ix e.indexed.1 e.indexed.2

def write (ix : Indexer) (e : Event) : Option Write :=
  e.block.map fun block =>
    ⟨e.source, e.indexed, block.cls, block.key, block.payload (e.index ix).1⟩

end Event

/-- The writes of events, one after another. -/
def writesFrom : Indexer → List Event → List Write
  | _, [] => []
  | ix, e :: es => (e.write ix).toList ++ writesFrom (e.index ix).2 es

def indexesFrom (ix : Indexer) (es : List Event) : Indexer :=
  es.foldl (fun ix e => (e.index ix).2) ix

theorem writesFrom_append (ix : Indexer) (es es' : List Event) :
    writesFrom ix (es ++ es') = writesFrom ix es ++ writesFrom (indexesFrom ix es) es' := by
  induction es generalizing ix with
  | nil => rfl
  | cons e es ih =>
      rw [List.cons_append, writesFrom, writesFrom, ih, List.append_assoc]
      rfl

theorem writesFrom_concat (ix : Indexer) (es : List Event) (e : Event) :
    writesFrom ix (es ++ [e]) = writesFrom ix es ++ (e.write (indexesFrom ix es)).toList := by
  rw [writesFrom_append, writesFrom, writesFrom, List.append_nil]

theorem indexesFrom_concat (ix : Indexer) (es : List Event) (e : Event) :
    indexesFrom ix (es ++ [e]) = (e.index (indexesFrom ix es)).2 := by
  rw [indexesFrom, List.foldl_append]
  rfl

/-! ### The events of a build -/

def rowSource (row : FeedRow) : Source := .row row.feed row.group row.prov

/-- A filtered row writes no exact entry for a listed name. -/
def blockEvent (f : Top1mFilter) (source : Source) (indexed : Str × Str) (entry : BlockEntry)
    (payload : Nat → BlockPayload) : Event where
  source := source
  indexed := indexed
  block :=
    if entry.cls = .data ∧ source.filtered f = true ∧ top1mListed entry.key f.names = true then
      none
    else some ⟨entry.cls, entry.key, payload⟩

def tldEvent (config : Config) (tld : Str) : Event where
  source := .blacklist
  indexed := ("DNSBL_TLD".toList, "DNSBL_TLD".toList)
  block := some ⟨.zone, tld, fun idx => ⟨config.builtinLogFlag, idx, false, .feed⟩⟩

/-- A permit row takes an index and blocks nothing. -/
def permitEvent (row : FeedRow) : Event := ⟨rowSource row, (row.feed, row.group), none⟩

def permitLineEvent (u : Unicode) (row : FeedRow) (line : Str) : Option Event :=
  (permitHost u (strip line)).kept.map fun _ => permitEvent row

def plainLineEvent (u : Unicode) (config : Config) (f : Top1mFilter) (row : FeedRow) (line : Str) :
    Option Event :=
  (plainLineEntry u config row line).map fun entry =>
    blockEvent f (rowSource row) (row.feed, row.group) entry (plainPayload row)

def rowEvents (u : Unicode) (config : Config) (f : Top1mFilter) (row : FeedRow) : List Event :=
  if row.isPermit then row.lines.filterMap (permitLineEvent u row)
  else row.lines.filterMap (plainLineEvent u config f row)

def abpEvent (u : Unicode) (config : Config) (f : Top1mFilter) (b : BlockDomainRule) :
    Option Event :=
  (abpEntry u config b).kept.map fun entry =>
    blockEvent f (.row b.feed b.group b.provenance)
      (orDefault b.feed dnsbl, orDefault b.group dnsbl) entry (abpPayload b)

/-- The events of a build, in order: blacklisted TLDs, the lines of the rows, the adblock rules. -/
def events (u : Unicode) (manifest : List FeedRow) (config : Config) : List Event :=
  let f := top1mFilter u manifest config
  (blacklistedTlds config).map (tldEvent config) ++ manifest.flatMap (rowEvents u config f) ++
    (abpBlocks u config manifest).filterMap (abpEvent u config f)

/-- The block writes of a build, in order. -/
def blockWrites (u : Unicode) (manifest : List FeedRow) (config : Config) : List Write :=
  writesFrom {} (events u manifest config)

theorem exists_event_of_write {ix : Indexer} {es : List Event} {w : Write}
    (h : w ∈ writesFrom ix es) : ∃ e ∈ es, ∃ ix, e.write ix = some w := by
  induction es generalizing ix with
  | nil => cases h
  | cons e es ih =>
      rcases List.mem_append.mp h with h | h
      · exact ⟨e, List.mem_cons_self, ix, Option.mem_toList.mp h⟩
      · obtain ⟨e', he', hwrite⟩ := ih h
        exact ⟨e', List.mem_cons_of_mem _ he', hwrite⟩

/-- The kinds of events. -/
theorem event_cases {u : Unicode} {manifest : List FeedRow} {config : Config} {e : Event}
    (h : e ∈ events u manifest config) :
    (∃ tld, e = tldEvent config tld) ∨ (∃ row ∈ manifest, e = permitEvent row) ∨
      (∃ row ∈ manifest, ∃ line entry, plainLineEntry u config row line = some entry ∧
        e = blockEvent (top1mFilter u manifest config) (rowSource row) (row.feed, row.group) entry
          (plainPayload row)) ∨
      ∃ b ∈ abpBlocks u config manifest, ∃ entry, (abpEntry u config b).kept = some entry ∧
        e = blockEvent (top1mFilter u manifest config) (.row b.feed b.group b.provenance)
          (orDefault b.feed dnsbl, orDefault b.group dnsbl) entry (abpPayload b) := by
  unfold events at h
  rw [List.mem_append, List.mem_append, List.mem_map, List.mem_flatMap, List.mem_filterMap] at h
  rcases h with (⟨tld, -, rfl⟩ | ⟨row, hrow, hevent⟩) | ⟨b, hb, hevent⟩
  · exact Or.inl ⟨tld, rfl⟩
  · unfold rowEvents at hevent
    split at hevent
    · obtain ⟨line, -, hline⟩ := List.mem_filterMap.mp hevent
      obtain ⟨-, -, rfl⟩ := Option.map_eq_some_iff.mp hline
      exact Or.inr (Or.inl ⟨row, hrow, rfl⟩)
    · obtain ⟨line, -, hline⟩ := List.mem_filterMap.mp hevent
      obtain ⟨entry, hentry, rfl⟩ := Option.map_eq_some_iff.mp hline
      exact Or.inr (Or.inr (Or.inl ⟨row, hrow, line, entry, hentry, rfl⟩))
  · obtain ⟨entry, hentry, rfl⟩ := Option.map_eq_some_iff.mp hevent
    exact Or.inr (Or.inr (Or.inr ⟨b, hb, entry, hentry, rfl⟩))

theorem write_blockEvent (f : Top1mFilter) (source : Source) (indexed : Str × Str)
    (entry : BlockEntry) (payload : Nat → BlockPayload) (ix : Indexer) :
    (blockEvent f source indexed entry payload).write ix =
      if entry.cls = .data ∧ source.filtered f = true ∧ top1mListed entry.key f.names = true then
        none
      else some ⟨source, indexed, entry.cls, entry.key,
        payload (indexFor ix indexed.1 indexed.2).1⟩ := by
  unfold Event.write blockEvent
  split <;> rfl

/-! ### The last writes -/

def lastWrite (p : Write → Bool) (ws : List Write) : Option Write := (ws.filter p).getLast?

def writtenTo (cls : BlockClass) (k : Str) (w : Write) : Bool := w.cls = cls && w.key = k

def unfilteredTo (f : Top1mFilter) (k : Str) (w : Write) : Bool :=
  writtenTo .zone k w && !w.source.filtered f

/-- The mark of a zone: where its last writer is filtered, the last payload of the others. -/
def markOf (f : Top1mFilter) (k : Str) (ws : List Write) : Option (Option BlockPayload) :=
  ((lastWrite (writtenTo .zone k) ws).filter (·.source.filtered f)).map fun _ =>
    (lastWrite (unfilteredTo f k) ws).map (·.payload)

theorem lastWrite_concat (p : Write → Bool) (ws : List Write) (w : Write) :
    lastWrite p (ws ++ [w]) = if p w then some w else lastWrite p ws := by
  unfold lastWrite
  rw [List.filter_append]
  cases hp : p w <;> simp [hp]

theorem mem_of_lastWrite {p : Write → Bool} {ws : List Write} {w : Write}
    (h : lastWrite p ws = some w) : w ∈ ws ∧ p w = true :=
  List.mem_filter.mp (List.mem_of_getLast? h)

theorem lastWrite_eq_none_iff (p : Write → Bool) (ws : List Write) :
    lastWrite p ws = none ↔ ∀ w ∈ ws, p w = false := by
  rw [lastWrite, List.getLast?_eq_none_iff, List.filter_eq_nil_iff]
  simp only [Bool.not_eq_true]

/-- The last write that has one property is the last to have another it has. -/
theorem lastWrite_and {p q : Write → Bool} {ws : List Write} {w : Write}
    (h : lastWrite p ws = some w) (hq : q w = true) :
    lastWrite (fun w => p w && q w) ws = some w := by
  induction ws using List.reverseRecOn with
  | nil => cases h
  | append_singleton ws w' ih =>
      rw [lastWrite_concat] at h ⊢
      split at h
      · next hp =>
          obtain rfl := Option.some.inj h
          rw [hp, hq, Bool.and_self, if_pos rfl]
      · next hp =>
          rw [Bool.not_eq_true] at hp
          rw [hp, Bool.false_and, if_neg Bool.false_ne_true]
          exact ih h

theorem markOf_concat (f : Top1mFilter) (k : Str) (ws : List Write) (w : Write) :
    markOf f k (ws ++ [w]) =
      if writtenTo .zone k w then
        if w.source.filtered f then some ((lastWrite (unfilteredTo f k) ws).map (·.payload))
        else none
      else markOf f k ws := by
  unfold markOf
  rw [lastWrite_concat, lastWrite_concat]
  cases hwritten : writtenTo .zone k w with
  | false => simp [unfilteredTo, hwritten]
  | true => cases hfiltered : w.source.filtered f <;> simp [unfilteredTo, hwritten, hfiltered]

theorem markOf_of_unfiltered {f : Top1mFilter} {ws : List Write}
    (h : ∀ w ∈ ws, w.source.filtered f = false) (k : Str) : markOf f k ws = none := by
  unfold markOf
  cases hlast : lastWrite (writtenTo .zone k) ws with
  | none => rfl
  | some w => rw [Option.filter_some, h w (mem_of_lastWrite hlast).1]; rfl

/-- The stores hold the last writes. -/
structure Holds (f : Top1mFilter) (ws : List Write) (s : Stores) : Prop where
  data : ∀ k, s.dataDb.get k = (lastWrite (writtenTo .data k) ws).map (·.payload)
  zone : ∀ k, s.zoneDb.get k = (lastWrite (writtenTo .zone k) ws).map (·.payload)
  mark : ∀ k, s.zoneTop1m.get k = markOf f k ws

section Holding

variable {f : Top1mFilter} {ws : List Write} {s : Stores}

theorem holds_nil (f : Top1mFilter) : Holds f [] {} := ⟨fun _ => rfl, fun _ => rfl, fun _ => rfl⟩

theorem filtered_eq_false (hrows : f.rows = []) (source : Source) : source.filtered f = false := by
  cases source with
  | blacklist => rfl
  | row feed group prov =>
      rw [Source.filtered, hrows]
      rfl

theorem holds_data (h : Holds f ws s) (source : Source) (indexed : Str × Str) (key : Str)
    (payload : BlockPayload) :
    Holds f (ws ++ [⟨source, indexed, .data, key, payload⟩])
      { s with dataDb := s.dataDb.set key payload } where
  data k := by
    rw [lastWrite_concat, Dict.get_set, h.data k]
    by_cases hk : key = k <;> simp [writtenTo, hk]
  zone k := by simp [lastWrite_concat, writtenTo, h.zone k]
  mark k := by simp [markOf_concat, writtenTo, h.mark k]

/-- A zone write, once the marks are settled. -/
theorem holds_zone (h : Holds f ws s) {source : Source} {indexed : Str × Str} {key : Str}
    {payload : BlockPayload} {s' : Stores} (hdata : s'.dataDb = s.dataDb)
    (hzone : s'.zoneDb = s.zoneDb.set key payload)
    (hmark : ∀ k, s'.zoneTop1m.get k = if key = k then
      if source.filtered f then some ((lastWrite (unfilteredTo f key) ws).map (·.payload)) else none
      else s.zoneTop1m.get k) :
    Holds f (ws ++ [⟨source, indexed, .zone, key, payload⟩]) s' where
  data k := by simp [hdata, lastWrite_concat, writtenTo, h.data k]
  zone k := by
    rw [hzone, lastWrite_concat, Dict.get_set, h.zone k]
    by_cases hk : key = k <;> simp [writtenTo, hk]
  mark k := by
    rw [markOf_concat, hmark, h.mark k]
    by_cases hk : key = k <;> simp [writtenTo, hk]

/-- What a filtered row falls back to: the last payload of the others. -/
theorem fallback_eq (h : Holds f ws s) (key : Str) :
    (if (s.zoneDb.get key).isSome && (s.zoneTop1m.get key).isNone then s.zoneDb.get key
      else (s.zoneTop1m.get key).join) = (lastWrite (unfilteredTo f key) ws).map (·.payload) := by
  rw [h.zone, h.mark, markOf]
  cases hlast : lastWrite (writtenTo .zone key) ws with
  | none =>
      have hnone : lastWrite (unfilteredTo f key) ws = none := by
        rw [lastWrite_eq_none_iff] at hlast ⊢
        intro w hw
        rw [unfilteredTo, hlast w hw, Bool.false_and]
      rw [hnone]
      rfl
  | some w =>
      cases hfiltered : w.source.filtered f with
      | true =>
          rw [Option.filter_some, hfiltered]
          simp
      | false =>
          have hunfiltered : lastWrite (unfilteredTo f key) ws = some w :=
            lastWrite_and hlast (by rw [hfiltered]; rfl)
          simp [hfiltered, hunfiltered]

theorem get_trackZoneTop1m_of_ne {key k : Str} (h : key ≠ k) (filtered : Bool) :
    (trackZoneTop1m s key filtered).zoneTop1m.get k = s.zoneTop1m.get k := by
  cases filtered with
  | false => simp [trackZoneTop1m, Dict.get_pop, h]
  | true => simp [trackZoneTop1m, Dict.get_set, h]

theorem get_trackZoneTop1m_unfiltered (key : Str) :
    (trackZoneTop1m s key false).zoneTop1m.get key = none := by
  simp [trackZoneTop1m, Dict.get_pop]

theorem trackZoneTop1m_dicts (s : Stores) (key : Str) (filtered : Bool) :
    (trackZoneTop1m s key filtered).dataDb = s.dataDb ∧
      (trackZoneTop1m s key filtered).zoneDb = s.zoneDb := by
  cases filtered <;> exact ⟨rfl, rfl⟩

theorem holds_trackedZone (h : Holds f ws s) (source : Source) (indexed : Str × Str) (key : Str)
    (payload : BlockPayload) :
    Holds f (ws ++ [⟨source, indexed, .zone, key, payload⟩])
      { trackZoneTop1m s key (source.filtered f) with
        zoneDb := (trackZoneTop1m s key (source.filtered f)).zoneDb.set key payload } := by
  obtain ⟨hdata, hzone⟩ := trackZoneTop1m_dicts s key (source.filtered f)
  refine holds_zone h hdata (by rw [hzone]) fun k => ?_
  by_cases hk : key = k
  · subst hk
    rw [if_pos rfl]
    cases source.filtered f with
    | false => exact get_trackZoneTop1m_unfiltered key
    | true =>
        rw [if_pos rfl, ← fallback_eq h]
        exact Dict.get_set_self _ _ _
  · rw [if_neg hk]
    exact get_trackZoneTop1m_of_ne hk _

/-- Without filtered writes so far there is no mark to settle. -/
theorem holds_unmarkedZone (h : Holds f ws s) (hws : ∀ w ∈ ws, w.source.filtered f = false)
    {source : Source} (hsource : source.filtered f = false) (indexed : Str × Str) (key : Str)
    (payload : BlockPayload) :
    Holds f (ws ++ [⟨source, indexed, .zone, key, payload⟩])
      { s with zoneDb := s.zoneDb.set key payload } := by
  refine holds_zone h rfl rfl fun k => ?_
  rw [hsource, h.mark, markOf_of_unfiltered hws]
  simp

end Holding

/-! ### Replay -/

/-- A state of a build is what its events left. -/
structure Replayed (f : Top1mFilter) (es : List Event) (st : BuildState) : Prop where
  ix : st.ix = indexesFrom {} es
  stores : Holds f (writesFrom {} es) st.stores

section Replay

variable {u : Unicode} {config : Config} {f : Top1mFilter} {es : List Event} {st : BuildState}

theorem Replayed.concat (h : Replayed f es st) {e : Event} {st' : BuildState}
    (hix : st'.ix = (e.index st.ix).2)
    (hstores : Holds f (writesFrom {} es ++ (e.write st.ix).toList) st'.stores) :
    Replayed f (es ++ [e]) st' := by
  rw [h.ix] at hix hstores
  exact ⟨by rw [indexesFrom_concat, hix], by rwa [writesFrom_concat]⟩

theorem Replayed.tally (h : Replayed f es st) (feed group : Str) (bucket : Bucket) :
    Replayed f es (st.tally feed group bucket) := ⟨h.ix, h.stores⟩

theorem emitBlock_ix (f : Top1mFilter) (indexed listed : Str × Str) (entry : BlockEntry)
    (payload : Nat → BlockPayload) (st : BuildState) :
    (emitBlock f indexed listed entry payload st).ix = (indexFor st.ix indexed.1 indexed.2).2 := by
  unfold emitBlock
  split <;> rfl

/-- One block entry of a row goes into its store. -/
theorem holds_writeBlock {ws : List Write} {s : Stores} (h : Holds f ws s) (source : Source)
    (indexed listed : Str × Str) (hlisted : f.rows.contains listed = source.filtered f)
    (entry : BlockEntry) (payload : Nat → BlockPayload) (ix : Indexer) :
    Holds f (ws ++ ((blockEvent f source indexed entry payload).write ix).toList)
      (writeBlock f listed entry.cls entry.key (payload (indexFor ix indexed.1 indexed.2).1)
        s) := by
  rw [write_blockEvent]
  unfold writeBlock
  rw [hlisted]
  cases entry.cls with
  | data =>
      by_cases hdrop : source.filtered f = true ∧ top1mListed entry.key f.names = true
      · rw [if_pos ⟨rfl, hdrop⟩]
        simp only [hdrop.1, hdrop.2, Bool.and_self, if_true]
        simpa using h
      · have hkeep : (source.filtered f && top1mListed entry.key f.names) = false := by
          rw [← Bool.not_eq_true, Bool.and_eq_true]
          exact hdrop
        rw [if_neg fun hall => hdrop hall.2]
        simp only [hkeep, Bool.false_eq_true, if_false]
        exact holds_data h source indexed entry.key _
  | zone =>
      rw [if_neg fun hall => absurd hall.1 (by decide)]
      by_cases hrows : f.rows = []
      · have hunfiltered := filtered_eq_false hrows
        simp only [hrows, List.isEmpty_nil, if_true]
        exact holds_unmarkedZone h (fun w _ => hunfiltered w.source) (hunfiltered source) indexed
          _ _
      · have hsome : f.rows.isEmpty = false := by simpa using hrows
        simp only [hsome, Bool.false_eq_true, if_false]
        exact holds_trackedZone h source indexed entry.key _

theorem replayed_emitBlock (h : Replayed f es st) (source : Source) (indexed listed : Str × Str)
    (hlisted : f.rows.contains listed = source.filtered f) (entry : BlockEntry)
    (payload : Nat → BlockPayload) :
    Replayed f (es ++ [blockEvent f source indexed entry payload])
      (emitBlock f indexed listed entry payload st) := by
  refine h.concat (emitBlock_ix f indexed listed entry payload st) ?_
  rw [(emitBlock_spec f indexed listed entry payload st).1]
  exact holds_writeBlock h.stores source indexed listed hlisted entry payload st.ix

theorem replayed_plainLine (u : Unicode) (config : Config) (h : Replayed f es st) (row : FeedRow)
    (line : Str) :
    Replayed f (es ++ (plainLineEvent u config f row line).toList)
      (plainLine u config f row st line) := by
  unfold plainLine plainLineEvent plainLineEntry
  dsimp only
  split
  · cases parseAbp u row.info (strip line) with
    | skip => simpa using h
    | reject bucket => simpa using h.tally row.feed row.group bucket
    | keep rule =>
        rw [Option.map_none, Option.toList_none, List.append_nil]
        exact ⟨h.ix, h.stores⟩
  · cases plainEntry u config row.prov (strip line) with
    | skip => simpa [Outcome.kept] using h
    | reject bucket => simpa [Outcome.kept] using h.tally row.feed row.group bucket
    | keep entry =>
        exact replayed_emitBlock h (rowSource row) _ (row.feed, row.group) rfl entry _

theorem replayed_permitLine (u : Unicode) (h : Replayed f es st) (row : FeedRow) (line : Str) :
    Replayed f (es ++ (permitLineEvent u row line).toList) (permitLine u row st line) := by
  unfold permitLine permitLineEvent
  cases permitHost u (strip line) with
  | skip => simpa [Outcome.kept] using h
  | reject bucket => simpa [Outcome.kept] using h.tally row.feed row.group bucket
  | keep domain =>
      obtain ⟨hstores, -⟩ := addPermit_blocks row domain st
      refine h.concat ?_ ?_
      · simp only [addPermit]
        split
        · rfl
        · split <;> rfl
      · dsimp only
        rw [hstores]
        simpa [Event.write, permitEvent] using h.stores

theorem replayed_emitAbpBlock (u : Unicode) (config : Config) (h : Replayed f es st)
    (b : BlockDomainRule) :
    Replayed f (es ++ (abpEvent u config f b).toList) (emitAbpBlock u config f st b) := by
  unfold emitAbpBlock abpEvent
  dsimp only
  cases abpEntry u config b with
  | skip => simpa [Outcome.kept] using h
  | reject bucket => simpa [Outcome.kept] using h.tally _ _ bucket
  | keep entry => exact replayed_emitBlock h _ _ (b.feed, b.group) rfl entry _

/-- Steps that each replay the events of their item, one after another. -/
theorem replayed_foldl {α : Type} {step : BuildState → α → BuildState} {eventsOf : α → List Event}
    (hstep : ∀ {es st}, Replayed f es st → ∀ a, Replayed f (es ++ eventsOf a) (step st a))
    (items : List α) (h : Replayed f es st) :
    Replayed f (es ++ items.flatMap eventsOf) (items.foldl step st) := by
  induction items generalizing es st with
  | nil => simpa using h
  | cons a items ih =>
      have hrest := ih (hstep h a)
      rwa [List.append_assoc] at hrest

theorem replayed_buildRow (u : Unicode) (config : Config) (h : Replayed f es st) (row : FeedRow) :
    Replayed f (es ++ rowEvents u config f row) (buildRow u config f st row) := by
  unfold buildRow rowEvents
  split
  · rw [List.filterMap_eq_flatMap_toList]
    exact replayed_foldl (fun h line => replayed_permitLine u h row line) row.lines h
  · rw [List.filterMap_eq_flatMap_toList]
    exact replayed_foldl (fun h line => replayed_plainLine u config h row line) row.lines h

theorem replayed_blacklistTld (config : Config) (h : Replayed f es st)
    (hes : ∀ w ∈ writesFrom {} es, w.source.filtered f = false) (tld : Str) :
    Replayed f (es ++ [tldEvent config tld]) (blacklistTld config st tld) := by
  refine h.concat rfl ?_
  exact holds_unmarkedZone h.stores hes rfl _ tld _

theorem filtered_tldEvents (config : Config) (tlds : List Str) (ix : Indexer) :
    ∀ w ∈ writesFrom ix (tlds.map (tldEvent config)), w.source.filtered f = false := by
  induction tlds generalizing ix with
  | nil => exact fun _ hw => by cases hw
  | cons tld tlds ih =>
      intro w hw
      rcases List.mem_cons.mp hw with rfl | hw
      · rfl
      · exact ih _ w hw

/-- The blacklisted TLDs come first, so no mark is due when they are written. -/
theorem replayed_initialState (u : Unicode) (config : Config) (f : Top1mFilter) :
    Replayed f ((blacklistedTlds config).map (tldEvent config)) (initialState u config) := by
  unfold initialState
  dsimp only
  induction blacklistedTlds config using List.reverseRecOn with
  | nil => exact ⟨rfl, holds_nil f⟩
  | append_singleton tlds tld ih =>
      rw [List.map_append, List.foldl_append]
      exact replayed_blacklistTld config ih (filtered_tldEvents config tlds {}) tld

/-- A build is the replay of its events. -/
theorem replayed_build (u : Unicode) (manifest : List FeedRow) (config : Config) :
    Replayed (top1mFilter u manifest config) (events u manifest config)
      (finalState u manifest config) := by
  have hrows : Replayed (top1mFilter u manifest config) _ (rowsState u manifest config) :=
    replayed_foldl (fun h row => replayed_buildRow u config h row) manifest
      (replayed_initialState u config _)
  have hrules : (reconciled u config (rowsState u manifest config)).blockDomains =
      abpBlocks u config manifest :=
    reconciled_blockDomains (abpRules_rowsState u manifest config)
  unfold finalState events
  dsimp only
  rw [hrules, List.filterMap_eq_flatMap_toList]
  exact replayed_foldl (fun h b => replayed_emitAbpBlock u config h b) _ ⟨hrows.ix, hrows.stores⟩

theorem payload_markedZones (f : Top1mFilter) (s : Stores) (k : Str) :
    ((markedZones f s).get k).map (·.payload) = s.zoneDb.get k := by
  rw [markedZones, Dict.get_mapValues, Option.map_map]
  cases s.zoneDb.get k with
  | none => rfl
  | some payload =>
      simp only [Option.map_some, Function.comp_apply]
      split <;> rfl

/-- An entry of a build, exact or zone, with the payload it was written with. -/
def Entry (u : Unicode) (manifest : List FeedRow) (config : Config) (k : Str)
    (payload : BlockPayload) : BlockClass → Prop
  | .data => (build u manifest config).dataDb.get k = some payload
  | .zone => ((build u manifest config).zoneDb.get k).map (·.payload) = some payload

/-- The entries of a build are the last writes to their keys. -/
theorem entry_iff {manifest : List FeedRow} {k : Str} {payload : BlockPayload} (cls : BlockClass) :
    Entry u manifest config k payload cls ↔
      ∃ w, lastWrite (writtenTo cls k) (blockWrites u manifest config) = some w ∧
        w.payload = payload := by
  have hstores := (replayed_build u manifest config).stores
  rw [← Option.map_eq_some_iff]
  cases cls with
  | data =>
      rw [Entry, build_dataDb, hstores.data]
      rfl
  | zone =>
      rw [Entry, build_zoneDb, payload_markedZones, hstores.zone]
      rfl

end Replay

/-! ### Writes as emissions -/

/-- What a write emits: its payload counts by the band alone. -/
def Write.emission (f : Top1mFilter) (w : Write) : Emission :=
  ⟨w.cls, w.key, w.payload.band, w.source.filtered f⟩

section Emissions

variable {f : Top1mFilter} {s : Stores}

theorem emittedFor_map (f : Top1mFilter) (cls : BlockClass) (k : Str) (ws : List Write) :
    emittedFor cls k (ws.map (Write.emission f)) =
      (ws.filter (writtenTo cls k)).map (Write.emission f) := by
  rw [emittedFor, List.filter_map]
  exact congrArg _ (List.filter_congr fun w _ => Bool.decide_and _ _)

theorem lastBand_emittedFor (f : Top1mFilter) (cls : BlockClass) (k : Str) (ws : List Write) :
    lastBand (emittedFor cls k (ws.map (Write.emission f))) =
      (lastWrite (writtenTo cls k) ws).map (·.payload.band) := by
  rw [emittedFor_map, lastBand, List.getLast?_map, Option.map_map]
  rfl

theorem lastFiltered_map (f : Top1mFilter) (k : Str) (ws : List Write) :
    lastFiltered k (ws.map (Write.emission f)) =
      (lastWrite (writtenTo .zone k) ws).any (·.source.filtered f) := by
  rw [lastFiltered, emittedFor_map, List.getLast?_map, Option.any_map]
  rfl

theorem lastBand_unfilteredFor (f : Top1mFilter) (k : Str) (ws : List Write) :
    lastBand (unfilteredFor k (ws.map (Write.emission f))) =
      (lastWrite (unfilteredTo f k) ws).map (·.payload.band) := by
  have hfilter : unfilteredFor k (ws.map (Write.emission f)) =
      (ws.filter (unfilteredTo f k)).map (Write.emission f) := by
    rw [unfilteredFor, emittedFor_map, List.filter_map, List.filter_filter]
    exact congrArg _ (List.filter_congr fun w _ => Bool.and_comm _ _)
  rw [hfilter, lastBand, List.getLast?_map, Option.map_map]
  rfl

/-- Stores that hold writes keep track of what they emit. -/
theorem Holds.tracks {ws : List Write} (h : Holds f ws s) :
    Tracks (ws.map (Write.emission f)) s where
  data k := by
    rw [h.data, lastBand_emittedFor, Option.map_map]
    rfl
  zone k := by
    rw [h.zone, lastBand_emittedFor, Option.map_map]
    rfl
  unmarked k hk := by
    rw [lastFiltered_map] at hk
    rw [h.mark, markOf]
    cases hlast : lastWrite (writtenTo .zone k) ws with
    | none => rfl
    | some w =>
        rw [hlast, Option.any_some] at hk
        rw [Option.filter_some, hk]
        rfl
  marked k hk := by
    rw [lastFiltered_map] at hk
    refine ⟨(lastWrite (unfilteredTo f k) ws).map (·.payload), ?_, ?_⟩
    · obtain ⟨w, hlast, hfiltered⟩ := (Option.any_eq_true _ _).mp hk
      rw [h.mark, markOf, hlast, Option.filter_some, hfiltered]
      rfl
    · rw [lastBand_unfilteredFor, Option.map_map]
      rfl

/-- A block emits the same under every index when its band does not depend on it. -/
theorem emission_blockEvent {source : Source} (indexed : Str × Str) {listed : Str × Str}
    (hlisted : f.rows.contains listed = source.filtered f) (entry : BlockEntry)
    {payload : Nat → BlockPayload} {band : BlockBand} (hband : ∀ idx, (payload idx).band = band)
    (ix : Indexer) :
    ((blockEvent f source indexed entry payload).write ix).map (Write.emission f) =
      emission f listed entry.cls entry.key band := by
  rw [write_blockEvent, emission, hlisted]
  split
  · rfl
  · simp [Write.emission, hband]

theorem map_writesFrom_toList {α : Type} (entry : Option α) {event : α → Event}
    {out : α → Option Emission}
    (h : ∀ a ix, ((event a).write ix).map (Write.emission f) = out a) (ix : Indexer) :
    (writesFrom ix (entry.map event).toList).map (Write.emission f) =
      (entry.bind out).toList := by
  cases entry with
  | none => rfl
  | some a =>
      change (((event a).write ix).toList ++ []).map (Write.emission f) = (out a).toList
      rw [List.append_nil, ← h a ix, Option.toList_map]

/-- The emissions of items whose events emit what is said of each. -/
theorem map_writesFrom_flatMap {α : Type} {eventsOf : α → List Event}
    {emissionsOf : α → List Emission}
    (hitem : ∀ a ix, (writesFrom ix (eventsOf a)).map (Write.emission f) = emissionsOf a)
    (items : List α) (ix : Indexer) :
    (writesFrom ix (items.flatMap eventsOf)).map (Write.emission f) =
      items.flatMap emissionsOf := by
  induction items generalizing ix with
  | nil => rfl
  | cons a items ih =>
      rw [List.flatMap_cons, writesFrom_append, List.map_append, hitem, ih, List.flatMap_cons]

theorem emissions_row (u : Unicode) (config : Config) (row : FeedRow) (ix : Indexer) :
    (writesFrom ix (rowEvents u config f row)).map (Write.emission f) =
      rowEmissions u config f row := by
  unfold rowEvents rowEmissions
  split
  · have hline : ∀ line ix, (writesFrom ix (permitLineEvent u row line).toList).map
        (Write.emission f) = [] := fun line ix => by
      unfold permitLineEvent
      cases (permitHost u (strip line)).kept <;> rfl
    rw [List.filterMap_eq_flatMap_toList, map_writesFrom_flatMap hline]
    exact List.flatMap_eq_nil_iff.mpr fun _ _ => rfl
  · have hlisted : f.rows.contains (row.feed, row.group) = (rowSource row).filtered f := rfl
    have hline : ∀ line ix,
        (writesFrom ix (plainLineEvent u config f row line).toList).map (Write.emission f) =
          ((plainLineEntry u config row line).bind (plainEmission f row)).toList := fun line =>
      map_writesFrom_toList _ fun entry => emission_blockEvent _ hlisted entry fun _ => rfl
    rw [List.filterMap_eq_flatMap_toList, List.filterMap_eq_flatMap_toList,
      map_writesFrom_flatMap hline]

/-- The emissions of an input are those of the writes of its build. -/
theorem emission_blockWrites (u : Unicode) (manifest : List FeedRow) (config : Config) :
    (blockWrites u manifest config).map (Write.emission (top1mFilter u manifest config)) =
      emissions u manifest config := by
  have htld : ∀ tld ix, (writesFrom ix [tldEvent config tld]).map
      (Write.emission (top1mFilter u manifest config)) = [⟨.zone, tld, .feed, false⟩] :=
    fun _ _ => rfl
  have habp : ∀ b ix,
      (writesFrom ix (abpEvent u config (top1mFilter u manifest config) b).toList).map
        (Write.emission (top1mFilter u manifest config)) =
          (abpEmission u config (top1mFilter u manifest config) b).toList := fun b =>
    have hlisted : (top1mFilter u manifest config).rows.contains (b.feed, b.group) =
      (Source.row b.feed b.group b.provenance).filtered (top1mFilter u manifest config) := rfl
    map_writesFrom_toList _ fun entry => emission_blockEvent _ hlisted entry fun _ => rfl
  have hmap : ∀ {β : Type} (g : Str → β), (blacklistedTlds config).map g =
      (blacklistedTlds config).flatMap fun tld => [g tld] := fun _ => List.map_eq_flatMap
  unfold blockWrites events emissions tldEmissions
  dsimp only
  rw [writesFrom_append, writesFrom_append, List.map_append, List.map_append, hmap, hmap,
    map_writesFrom_flatMap htld, map_writesFrom_flatMap (emissions_row u config),
    List.filterMap_eq_flatMap_toList, List.filterMap_eq_flatMap_toList,
    map_writesFrom_flatMap habp]

/-- The stores of a build hold what its input emits. -/
theorem tracks_build (u : Unicode) (manifest : List FeedRow) (config : Config) :
    Tracks (emissions u manifest config) (finalState u manifest config).stores := by
  rw [← emission_blockWrites]
  exact (replayed_build u manifest config).stores.tracks

end Emissions

end PfBlockerNG.BlockWrites
