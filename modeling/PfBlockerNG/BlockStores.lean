import PfBlockerNG.Build

/-!
The block entries an input emits, in order, and what they leave in the stores: what a key holds
is the last entry emitted for it, and what TOP1M falls back to is the last unfiltered one.
-/

namespace PfBlockerNG.BlockStores

open PfBlockerNG.Strings
open PfBlockerNG.PyText
open PfBlockerNG.OrderedDict
open PfBlockerNG.Bands
open PfBlockerNG.DomainNames
open PfBlockerNG.AbpRules
open PfBlockerNG.Reconcile
open PfBlockerNG.Build

/-- A block entry emitted for a key, and whether its row is filtered by TOP1M. -/
structure Emission where
  cls : BlockClass
  key : Str
  band : BlockBand
  filtered : Bool
  deriving DecidableEq, Repr

/-- The emission of an entry; a filtered row emits no exact entry for a listed name. -/
def emission (f : Top1mFilter) (row : Str × Str) (cls : BlockClass) (key : Str) (band : BlockBand) :
    Option Emission :=
  if cls = .data ∧ f.rows.contains row ∧ top1mListed key f.names then none
  else some ⟨cls, key, band, f.rows.contains row⟩

/-- What is emitted for a key of a class. -/
def emittedFor (cls : BlockClass) (k : Str) (es : List Emission) : List Emission :=
  es.filter fun e => e.cls = cls ∧ e.key = k

/-- The last emission for a key as a zone comes from a filtered row. -/
def lastFiltered (k : Str) (es : List Emission) : Bool :=
  (emittedFor .zone k es).getLast?.any (·.filtered)

/-- What unfiltered rows emit for a key as a zone. -/
def unfilteredFor (k : Str) (es : List Emission) : List Emission :=
  (emittedFor .zone k es).filter fun e => !e.filtered

def lastBand (es : List Emission) : Option BlockBand := es.getLast?.map (·.band)

/-- The stores hold what the emissions left. -/
structure Tracks (es : List Emission) (s : Stores) : Prop where
  data : ∀ k, (s.dataDb.get k).map (·.band) = lastBand (emittedFor .data k es)
  zone : ∀ k, (s.zoneDb.get k).map (·.band) = lastBand (emittedFor .zone k es)
  unmarked : ∀ k, lastFiltered k es = false → s.zoneTop1m.get k = none
  marked : ∀ k, lastFiltered k es = true → ∃ fallback, s.zoneTop1m.get k = some fallback ∧
    fallback.map (·.band) = lastBand (unfilteredFor k es)

/-! ### What an input emits -/

/-- What a line that is not an adblock rule blocks. -/
def plainLineEntry (u : Unicode) (config : Config) (row : FeedRow) (line : Str) :
    Option BlockEntry :=
  if isAbpRuleLine (strip line) then none else (plainEntry u config row.prov (strip line)).kept

/-- The adblock rule of a line. -/
def ruleLine (u : Unicode) (row : FeedRow) (line : Str) : Option Rule :=
  if isAbpRuleLine (strip line) then (parseAbp u row.info (strip line)).kept else none

def plainEmission (f : Top1mFilter) (row : FeedRow) (entry : BlockEntry) : Option Emission :=
  emission f (row.feed, row.group) entry.cls entry.key row.blockBand

/-- What the plain lines of a row emit. -/
def rowEmissions (u : Unicode) (config : Config) (f : Top1mFilter) (row : FeedRow) :
    List Emission :=
  if row.isPermit then []
  else row.lines.filterMap fun line =>
    (plainLineEntry u config row line).bind (plainEmission f row)

/-- The adblock rules of a row. -/
def rowRules (u : Unicode) (row : FeedRow) : List Rule :=
  if row.isPermit then [] else row.lines.filterMap (ruleLine u row)

def manifestRules (u : Unicode) (manifest : List FeedRow) : List Rule :=
  manifest.flatMap (rowRules u)

def tldEmissions (config : Config) : List Emission :=
  (blacklistedTlds config).map fun tld => ⟨.zone, tld, .feed, false⟩

/-- The reconciled blocks of a manifest. -/
def abpBlocks (u : Unicode) (config : Config) (manifest : List FeedRow) : List BlockDomainRule :=
  (survivors (manifestRules u manifest)).filterMap (blockDomain? u config.exclusion)

def abpEmission (u : Unicode) (config : Config) (f : Top1mFilter) (b : BlockDomainRule) :
    Option Emission :=
  (abpEntry u config b).kept.bind fun entry =>
    emission f (b.feed, b.group) entry.cls entry.key b.band

/-- Everything a build emits, in order: blacklisted TLDs, the plain lines of the rows,
then the adblock rules. -/
def emissions (u : Unicode) (manifest : List FeedRow) (config : Config) : List Emission :=
  let f := top1mFilter u manifest config
  tldEmissions config ++ manifest.flatMap (rowEmissions u config f) ++
    (abpBlocks u config manifest).filterMap (abpEmission u config f)

variable {u : Unicode} {config : Config} {f : Top1mFilter} {st : BuildState}

/-- The allow side of a state. -/
structure SameAllows (st st' : BuildState) : Prop where
  whiteDb : st'.whiteDb = st.whiteDb
  permitAllowInserted : st'.permitAllowInserted = st.permitAllowInserted

theorem SameAllows.refl (st : BuildState) : SameAllows st st := ⟨rfl, rfl⟩

theorem SameAllows.trans {st st' st'' : BuildState} (h : SameAllows st st')
    (h' : SameAllows st' st'') : SameAllows st st'' :=
  ⟨h'.whiteDb.trans h.whiteDb, h'.permitAllowInserted.trans h.permitAllowInserted⟩

theorem emitBlock_spec (f : Top1mFilter) (indexed listed : Str × Str) (entry : BlockEntry)
    (payload : Nat → BlockPayload) (st : BuildState) :
    (emitBlock f indexed listed entry payload st).stores =
        writeBlock f listed entry.cls entry.key
          (payload (indexFor st.ix indexed.1 indexed.2).1) st.stores ∧
      (emitBlock f indexed listed entry payload st).abpRules = st.abpRules ∧
      SameAllows st (emitBlock f indexed listed entry payload st) := by
  unfold emitBlock
  split <;> exact ⟨rfl, rfl, rfl, rfl⟩

theorem sameAllows_plainLine (row : FeedRow) (st : BuildState) (line : Str) :
    SameAllows st (plainLine u config f row st line) := by
  simp only [plainLine]
  split
  · split <;> exact ⟨rfl, rfl⟩
  · split
    · exact .refl st
    · exact ⟨rfl, rfl⟩
    · exact (emitBlock_spec _ _ _ _ _ st).2.2

theorem addPermit_blocks (row : FeedRow) (domain : Str) (st : BuildState) :
    (addPermit row domain st).stores = st.stores ∧
      (addPermit row domain st).abpRules = st.abpRules := by
  simp only [addPermit]
  split
  · exact ⟨rfl, rfl⟩
  · split <;> exact ⟨rfl, rfl⟩

/-! ### The adblock rules of the rows -/

theorem abpRules_plainLine (row : FeedRow) (st : BuildState) (line : Str) :
    (plainLine u config f row st line).abpRules =
      st.abpRules ++ (ruleLine u row line).toList := by
  unfold plainLine ruleLine
  dsimp only
  split
  · cases parseAbp u row.info (strip line) with
    | skip => simp [Outcome.kept]
    | reject bucket => simp [Outcome.kept, BuildState.tally]
    | keep rule => rfl
  · rw [Option.toList_none, List.append_nil]
    split
    · rfl
    · rfl
    · exact (emitBlock_spec _ _ _ _ _ st).2.1

theorem abpRules_permitLine (row : FeedRow) (st : BuildState) (line : Str) :
    (permitLine u row st line).abpRules = st.abpRules := by
  unfold permitLine
  split
  · rfl
  · rfl
  · exact (addPermit_blocks row _ st).2

theorem abpRules_buildRow (row : FeedRow) (st : BuildState) :
    (buildRow u config f st row).abpRules = st.abpRules ++ rowRules u row := by
  unfold buildRow rowRules
  split
  · rw [List.append_nil]
    induction row.lines generalizing st with
    | nil => rfl
    | cons line lines ih => exact (ih _).trans (abpRules_permitLine row st line)
  · induction row.lines generalizing st with
    | nil => simp
    | cons line lines ih =>
        rw [List.foldl_cons, ih, abpRules_plainLine, List.append_assoc, filterMap_cons_toList]

theorem abpRules_rows (manifest : List FeedRow) (st : BuildState) :
    (manifest.foldl (buildRow u config f) st).abpRules =
      st.abpRules ++ manifestRules u manifest := by
  induction manifest generalizing st with
  | nil => simp [manifestRules]
  | cons row manifest ih =>
      rw [List.foldl_cons, ih, abpRules_buildRow, List.append_assoc]
      rfl

/-- The state after the rows. -/
def rowsState (u : Unicode) (manifest : List FeedRow) (config : Config) : BuildState :=
  manifest.foldl (buildRow u config (top1mFilter u manifest config)) (initialState u config)

theorem abpRules_rowsState (u : Unicode) (manifest : List FeedRow) (config : Config) :
    (rowsState u manifest config).abpRules = manifestRules u manifest := by
  have hinitial : (initialState u config).abpRules = [] :=
    List.foldlRecOn (motive := fun st : BuildState => st.abpRules = []) _ _ rfl
      fun _ h _ _ => h
  rw [rowsState, abpRules_rows, hinitial, List.nil_append]

theorem reconciled_blockDomains {manifest : List FeedRow}
    (hrules : st.abpRules = manifestRules u manifest) :
    (reconciled u config st).blockDomains = abpBlocks u config manifest := by
  unfold reconciled abpBlocks
  split
  · rename_i hempty
    rw [← hrules, List.isEmpty_iff.mp hempty]
    rfl
  · rw [(reconcile_spec st.abpRules st.rejects).1, hrules]

/-- The state after the adblock rules. -/
def finalState (u : Unicode) (manifest : List FeedRow) (config : Config) : BuildState :=
  let st := rowsState u manifest config
  let result := reconciled u config st
  result.blockDomains.foldl (emitAbpBlock u config (top1mFilter u manifest config))
    { st with rejects := result.rejects }

theorem build_dataDb (u : Unicode) (manifest : List FeedRow) (config : Config) :
    (build u manifest config).dataDb = (finalState u manifest config).stores.dataDb := rfl

theorem build_zoneDb (u : Unicode) (manifest : List FeedRow) (config : Config) :
    (build u manifest config).zoneDb =
      markedZones (top1mFilter u manifest config) (finalState u manifest config).stores := rfl

end PfBlockerNG.BlockStores
