import PfBlockerNG.BlockWrites

/-!
The rows TOP1M filters: what an entry blocks a listed name with is what the other rows wrote.
-/

namespace PfBlockerNG.Top1mZones

open PfBlockerNG.Strings
open PfBlockerNG.PyText
open PfBlockerNG.OrderedDict
open PfBlockerNG.Bands
open PfBlockerNG.Reconcile
open PfBlockerNG.Build
open PfBlockerNG.Matcher
open PfBlockerNG.BlockStores
open PfBlockerNG.BlockWrites

/-- The manifest marks the pair of the source; the TLD blacklist has no mark. -/
def isMarked (manifest : List FeedRow) : Source → Bool
  | .blacklist => false
  | .row feed group _ =>
      manifest.any fun row => row.top1m && (row.feed == feed && row.group == group)

def unmarkedTo (manifest : List FeedRow) (k : Str) (w : Write) : Bool :=
  writtenTo .zone k w && !isMarked manifest w.source

/-- The payload a zone key has for a name: the last one written, by an unmarked source for a name
that TOP1M lists. -/
def zoneWritten (u : Unicode) (manifest : List FeedRow) (config : Config) (n k : Str) :
    Option BlockPayload :=
  (lastWrite
    (if top1mListed n (config.top1m u) then unmarkedTo manifest k else writtenTo .zone k)
    (blockWrites u manifest config)).map (·.payload)

/-- A block that an unmarked source wrote. -/
def WrittenUnmarked (u : Unicode) (manifest : List FeedRow) (config : Config) (cls : BlockClass)
    (k : Str) (payload : BlockPayload) : Prop :=
  ∃ w ∈ blockWrites u manifest config,
    writtenTo cls k w = true ∧ w.payload = payload ∧ isMarked manifest w.source = false

section

variable {u : Unicode} {manifest : List FeedRow} {config : Config}

theorem filtered_eq_isMarked (hnames : config.top1m u ≠ []) (source : Source) :
    source.filtered (top1mFilter u manifest config) = isMarked manifest source := by
  cases source with
  | blacklist => rfl
  | row feed group prov =>
      have hempty : (config.top1m u).isEmpty = false := by simpa using hnames
      rw [Source.filtered, isMarked, top1mFilter, Bool.eq_iff_iff]
      simp only [hempty, Bool.false_eq_true, if_false, List.contains_iff_mem, List.mem_map,
        List.mem_filter, List.any_eq_true, Bool.and_eq_true, beq_iff_eq, Prod.mk.injEq, and_assoc]

theorem ne_nil_of_listed {n : Str} {names : List Str} (h : top1mListed n names = true) :
    names ≠ [] := by
  rintro rfl
  simp [top1mListed] at h

/-- What the entry of a key blocks a name with. -/
theorem zonePayload_markedZones {f : Top1mFilter} {ws : List Write} {s : Stores}
    (h : Holds f ws s) (n k : Str) :
    zonePayload (markedZones f s) n k =
      (lastWrite (if top1mListed n f.names then unfilteredTo f k else writtenTo .zone k) ws).map
        (·.payload) := by
  rw [zonePayload, markedZones, Dict.get_mapValues, h.zone, h.mark, markOf]
  cases hlast : lastWrite (writtenTo .zone k) ws with
  | none =>
      have hnone : lastWrite (unfilteredTo f k) ws = none := by
        rw [lastWrite_eq_none_iff] at hlast ⊢
        intro w hw
        rw [unfilteredTo, hlast w hw, Bool.false_and]
      cases top1mListed n f.names <;> simp [hlast, hnone]
  | some w =>
      rw [Option.filter_some]
      cases hfiltered : w.source.filtered f with
      | true => cases hlisted : top1mListed n f.names <;> simp [zoneEntryFor, hlisted, hlast]
      | false =>
          have hunfiltered : lastWrite (unfilteredTo f k) ws = some w :=
            lastWrite_and hlast (by rw [hfiltered]; rfl)
          cases top1mListed n f.names <;> simp [zoneEntryFor, hlast, hunfiltered]

theorem zonePayload_build (u : Unicode) (manifest : List FeedRow) (config : Config) (n k : Str) :
    zonePayload (build u manifest config).zoneDb n k = zoneWritten u manifest config n k := by
  have hholds := (replayed_build u manifest config).stores
  rw [build_zoneDb, zonePayload_markedZones hholds, zoneWritten]
  change ((lastWrite (if top1mListed n (config.top1m u) then _ else _) _).map _) = _
  split
  · next hlisted =>
      have hsame : unfilteredTo (top1mFilter u manifest config) k = unmarkedTo manifest k := by
        funext w
        rw [unfilteredTo, unmarkedTo, filtered_eq_isMarked (ne_nil_of_listed hlisted)]
      rw [hsame]
      rfl
  · rfl

theorem writtenUnmarked_of_zone {n k : Str} {payload : BlockPayload}
    (hlisted : top1mListed n (config.top1m u) = true)
    (h : zonePayload (build u manifest config).zoneDb n k = some payload) :
    WrittenUnmarked u manifest config .zone k payload := by
  rw [zonePayload_build, zoneWritten, if_pos hlisted] at h
  obtain ⟨w, hlast, rfl⟩ := Option.map_eq_some_iff.mp h
  obtain ⟨hmem, hw⟩ := mem_of_lastWrite hlast
  rw [unmarkedTo, Bool.and_eq_true, Bool.not_eq_true'] at hw
  exact ⟨w, hmem, hw.1, rfl, hw.2⟩

theorem filtered_of_blockEvent {f : Top1mFilter} {source : Source} {indexed : Str × Str}
    {entry : BlockEntry} {payload : Nat → BlockPayload} {ix : Indexer} {w : Write} {n : Str}
    (hwrite : (blockEvent f source indexed entry payload).write ix = some w)
    (hw : writtenTo .data n w = true) (hlisted : top1mListed n f.names = true) :
    w.source.filtered f = false := by
  rw [write_blockEvent] at hwrite
  split at hwrite
  · cases hwrite
  · next hkeep =>
      obtain rfl := Option.some.inj hwrite
      simp only [writtenTo, Bool.and_eq_true, decide_eq_true_eq] at hw
      rw [← Bool.not_eq_true]
      intro hfiltered
      exact hkeep ⟨hw.1, hfiltered, hw.2.symm ▸ hlisted⟩

/-- A filtered row writes no exact entry for a listed name. -/
theorem filtered_of_data {n : Str} (hlisted : top1mListed n (config.top1m u) = true) {w : Write}
    (hmem : w ∈ blockWrites u manifest config) (hw : writtenTo .data n w = true) :
    w.source.filtered (top1mFilter u manifest config) = false := by
  obtain ⟨e, he, ix, hwrite⟩ := exists_event_of_write hmem
  rcases event_cases he with ⟨tld, rfl⟩ | ⟨row, -, rfl⟩ | ⟨row, -, line, entry, -, rfl⟩ |
    ⟨b, -, entry, -, rfl⟩
  · obtain rfl := Option.some.inj hwrite
    rfl
  · cases hwrite
  · exact filtered_of_blockEvent hwrite hw hlisted
  · exact filtered_of_blockEvent hwrite hw hlisted

theorem writtenUnmarked_of_data {n : Str} {payload : BlockPayload}
    (hlisted : top1mListed n (config.top1m u) = true)
    (h : (build u manifest config).dataDb.get n = some payload) :
    WrittenUnmarked u manifest config .data n payload := by
  rw [build_dataDb, (replayed_build u manifest config).stores.data] at h
  obtain ⟨w, hlast, rfl⟩ := Option.map_eq_some_iff.mp h
  obtain ⟨hmem, hw⟩ := mem_of_lastWrite hlast
  refine ⟨w, hmem, hw, rfl, ?_⟩
  rw [← filtered_eq_isMarked (ne_nil_of_listed hlisted)]
  exact filtered_of_data hlisted hmem hw

end

/-- What a zone key yields to a name is the last payload written to it, by an unmarked source for
a listed name; no block of a listed name comes from a marked row. -/
theorem top1m_spares_listed (u : Unicode) (manifest : List FeedRow) (config : Config) :
    (∀ n k, zonePayload (build u manifest config).zoneDb n k = zoneWritten u manifest config n k) ∧
      ∀ n, top1mListed n (config.top1m u) = true →
        (∀ payload, (build u manifest config).dataDb.get n = some payload →
          WrittenUnmarked u manifest config .data n payload) ∧
        ∀ k payload, zonePayload (build u manifest config).zoneDb n k = some payload →
          WrittenUnmarked u manifest config .zone k payload := by
  refine ⟨zonePayload_build u manifest config, fun n hlisted => ⟨fun payload hget => ?_, ?_⟩⟩
  · exact writtenUnmarked_of_data hlisted hget
  · intro k payload hzone
    exact writtenUnmarked_of_zone hlisted hzone

/-- A row that is not filtered, then one that is. -/
def mixedRows : List FeedRow :=
  [{ feed := "plain".toList, group := "g".toList, logFlag := "1".toList,
     lines := ["example.com".toList] },
   { feed := "marked".toList, group := "g".toList, logFlag := "2".toList, top1m := true,
     lines := ["example.com".toList] }]

def mixedConfig : Config :=
  { pslRules := { icannExact := ["com".toList] }
    top1mEnabled := true
    top1mLines := ["www.example.com".toList] }

theorem top1m_spares_listed_mixed :
    zonePayload (build asciiOnly mixedRows mixedConfig).zoneDb "www.example.com".toList
        "example.com".toList = some ⟨"1".toList, 0, false, .feed⟩ ∧
      WrittenUnmarked asciiOnly mixedRows mixedConfig .zone "example.com".toList
        ⟨"1".toList, 0, false, .feed⟩ := by
  have hpayload : zonePayload (build asciiOnly mixedRows mixedConfig).zoneDb
      "www.example.com".toList "example.com".toList = some ⟨"1".toList, 0, false, .feed⟩ :=
    ((top1m_spares_listed asciiOnly mixedRows mixedConfig).1 _ _).trans (by decide +kernel)
  exact ⟨hpayload, ((top1m_spares_listed asciiOnly mixedRows mixedConfig).2 "www.example.com".toList
    (by decide +kernel)).2 _ _ hpayload⟩

end PfBlockerNG.Top1mZones
