import PfBlockerNG.BlockWrites

/-!
The feed and the group an entry is reported under, and the row whose line wrote it.
-/

namespace PfBlockerNG.Attribution

open PfBlockerNG.Strings
open PfBlockerNG.PyText
open PfBlockerNG.OrderedDict
open PfBlockerNG.Bands
open PfBlockerNG.Reconcile
open PfBlockerNG.Build
open PfBlockerNG.Matcher
open PfBlockerNG.BlockStores
open PfBlockerNG.BlockWrites

/-- The text a pair of names is interned under. -/
def joined (pair : Str × Str) : Str := pair.1 ++ pair.2

/-- The pair that takes the index of a text. -/
def firstPair (es : List Event) (text : Str) : Option (Str × Str) :=
  (es.find? fun e => joined e.indexed = text).map (·.indexed)

/-- Every entry resolves to the pair of the source that wrote it. -/
def Attributed (u : Unicode) (manifest : List FeedRow) (config : Config) : Prop :=
  ∀ cls k payload, Entry u manifest config k payload cls →
    ∃ w, lastWrite (writtenTo cls k) (blockWrites u manifest config) = some w ∧
      resolveFeedGroup payload.index (build u manifest config).feedGroupIndexDb = w.source.pair

/-- The source of a write takes its index under its own pair, before any other pair of the same
text does. -/
def OwnsIndex (es : List Event) (w : Write) : Prop :=
  w.indexed = w.source.pair ∧
    ∃ before e rest, es = before ++ e :: rest ∧ e.indexed = w.source.pair ∧
      ∀ e' ∈ before, joined e'.indexed ≠ joined w.source.pair

/-! ### The index of a pair -/

/-- Every index stands for the first pair of its text. -/
structure Interned (es : List Event) (ix : Indexer) : Prop where
  fresh : ∀ text, ix.feedGroupDb.get text = none → firstPair es text = none
  taken : ∀ text idx, ix.feedGroupDb.get text = some idx → idx < ix.nextIndex ∧
    ∃ pair, firstPair es text = some pair ∧ ix.feedGroupIndexDb.get idx = some ⟨pair.1, pair.2⟩

theorem firstPair_concat (es : List Event) (e : Event) (text : Str) :
    firstPair (es ++ [e]) text =
      (firstPair es text).or (if joined e.indexed = text then some e.indexed else none) := by
  unfold firstPair
  rw [List.find?_append]
  cases es.find? fun e => joined e.indexed = text with
  | some e' => rfl
  | none =>
      by_cases htext : joined e.indexed = text <;> simp [htext]

theorem index_known {ix : Indexer} {e : Event} {idx : Nat}
    (h : ix.feedGroupDb.get (joined e.indexed) = some idx) : e.index ix = (idx, ix) := by
  rw [joined] at h
  rw [Event.index, indexFor, h]

theorem index_new {ix : Indexer} {e : Event} (h : ix.feedGroupDb.get (joined e.indexed) = none) :
    e.index ix = (ix.nextIndex, {
      feedGroupDb := ix.feedGroupDb.set (joined e.indexed) ix.nextIndex
      feedGroupIndexDb := ix.feedGroupIndexDb.set ix.nextIndex ⟨e.indexed.1, e.indexed.2⟩
      nextIndex := ix.nextIndex + 1 }) := by
  rw [joined] at h
  rw [Event.index, indexFor, h]
  rfl

theorem interned_concat {es : List Event} {ix : Indexer} (h : Interned es ix) (e : Event) :
    Interned (es ++ [e]) (e.index ix).2 := by
  cases hget : ix.feedGroupDb.get (joined e.indexed) with
  | some idx =>
      rw [index_known hget]
      obtain ⟨-, pair, hpair, -⟩ := h.taken _ _ hget
      have hsame : ∀ text, firstPair (es ++ [e]) text = firstPair es text := by
        intro text
        rw [firstPair_concat]
        by_cases htext : joined e.indexed = text
        · rw [← htext, hpair]
          rfl
        · rw [if_neg htext, Option.or_none]
      refine ⟨fun text htext => ?_, fun text idx htext => ?_⟩
      · rw [hsame]
        exact h.fresh text htext
      · rw [hsame]
        exact h.taken text idx htext
  | none =>
      rw [index_new hget]
      refine ⟨fun text htext => ?_, fun text idx htext => ?_⟩
      · rw [Dict.get_set] at htext
        split at htext
        · cases htext
        · next hne => rw [firstPair_concat, h.fresh text htext, if_neg hne]; rfl
      · dsimp only at htext ⊢
        rw [Dict.get_set] at htext
        split at htext
        · next heq =>
            obtain rfl := Option.some.inj htext
            refine ⟨Nat.lt_succ_self _, e.indexed, ?_, Dict.get_set_self _ _ _⟩
            rw [firstPair_concat, ← heq, h.fresh _ hget, if_pos rfl]
            rfl
        · obtain ⟨hlt, pair, hpair, hentry⟩ := h.taken text idx htext
          refine ⟨Nat.lt_succ_of_lt hlt, pair, ?_, ?_⟩
          · rw [firstPair_concat, hpair]
            rfl
          · rw [Dict.get_set_of_ne _ _ (Nat.ne_of_gt hlt), hentry]

theorem interned_indexes (es : List Event) : Interned es (indexesFrom {} es) := by
  induction es using List.reverseRecOn with
  | nil => exact ⟨fun _ _ => rfl, fun _ _ h => by cases h⟩
  | append_singleton es e ih =>
      rw [indexesFrom_concat]
      exact interned_concat ih e

/-- An index that is taken is kept. -/
theorem get_index_of_get {ix : Indexer} (e : Event) {text : Str} {idx : Nat}
    (h : ix.feedGroupDb.get text = some idx) : (e.index ix).2.feedGroupDb.get text = some idx := by
  cases hget : ix.feedGroupDb.get (joined e.indexed) with
  | some idx' => rwa [index_known hget]
  | none =>
      have hne : joined e.indexed ≠ text := by
        rintro rfl
        rw [hget] at h
        cases h
      rw [index_new hget]
      exact (Dict.get_set_of_ne _ _ hne).trans h

theorem get_index_self (ix : Indexer) (e : Event) :
    (e.index ix).2.feedGroupDb.get (joined e.indexed) = some (e.index ix).1 := by
  cases hget : ix.feedGroupDb.get (joined e.indexed) with
  | some idx => rwa [index_known hget]
  | none =>
      rw [index_new hget]
      exact Dict.get_set_self _ _ _

/-- A payload carries the index it is written under. -/
def Carries (e : Event) : Prop := ∀ b ∈ e.block, ∀ idx, (b.payload idx).index = idx

theorem get_of_write {es : List Event} (hes : ∀ e ∈ es, Carries e) {w : Write}
    (hw : w ∈ writesFrom {} es) :
    (indexesFrom {} es).feedGroupDb.get (joined w.indexed) = some w.payload.index := by
  induction es using List.reverseRecOn with
  | nil => cases hw
  | append_singleton es e ih =>
      rw [indexesFrom_concat]
      rw [writesFrom_concat, List.mem_append, Option.mem_toList] at hw
      rcases hw with hw | hw
      · exact get_index_of_get e (ih (fun e he => hes e (List.mem_append_left _ he)) hw)
      · obtain ⟨b, hb, rfl⟩ := Option.map_eq_some_iff.mp hw
        have hcarries := hes e (List.mem_append_right _ (List.mem_singleton_self e)) b hb
        dsimp only
        rw [get_index_self, hcarries]

/-- A write resolves to the first pair of its text. -/
theorem resolve_of_write {es : List Event} (hes : ∀ e ∈ es, Carries e) {w : Write}
    (hw : w ∈ writesFrom {} es) :
    ∃ pair, firstPair es (joined w.indexed) = some pair ∧
      resolveFeedGroup w.payload.index (indexesFrom {} es).feedGroupIndexDb = pair := by
  obtain ⟨-, pair, hpair, hentry⟩ := (interned_indexes es).taken _ _ (get_of_write hes hw)
  refine ⟨pair, hpair, ?_⟩
  rw [resolveFeedGroup, hentry]

/-! ### The writes of a build -/

section

variable {u : Unicode} {manifest : List FeedRow} {config : Config}

theorem carries_blockEvent (f : Top1mFilter) (source : Source) (indexed : Str × Str)
    (entry : BlockEntry) {payload : Nat → BlockPayload} (h : ∀ idx, (payload idx).index = idx) :
    Carries (blockEvent f source indexed entry payload) := by
  intro b hb
  unfold blockEvent at hb
  dsimp only at hb
  split at hb
  · cases hb
  · obtain rfl := Option.some.inj hb
    exact h

theorem carries_of_mem {e : Event} (h : e ∈ events u manifest config) : Carries e := by
  rcases event_cases h with ⟨tld, rfl⟩ | ⟨row, -, rfl⟩ | ⟨row, -, line, entry, -, rfl⟩ |
    ⟨b, -, entry, -, rfl⟩
  · intro b hb
    obtain rfl := Option.some.inj hb
    exact fun _ => rfl
  · exact fun b hb => by cases hb
  · exact carries_blockEvent _ _ _ _ fun _ => rfl
  · exact carries_blockEvent _ _ _ _ fun _ => rfl

theorem length_orDefault (s : Str) : (orDefault s dnsbl).length = s.length ↔ s ≠ [] := by
  unfold orDefault
  cases s <;> simp [dnsbl]

/-- Names filled in make the text longer. -/
theorem orDefault_of_joined {feed group : Str}
    (h : joined (orDefault feed dnsbl, orDefault group dnsbl) = joined (feed, group)) :
    (orDefault feed dnsbl, orDefault group dnsbl) = (feed, group) := by
  have hlength := congrArg List.length h
  have hlonger : ∀ s : Str, s.length ≤ (orDefault s dnsbl).length := by
    intro s
    unfold orDefault
    cases s <;> simp
  have hfeed := hlonger feed
  have hgroup := hlonger group
  simp only [joined, List.length_append] at hlength
  have hkept : ∀ {s : Str}, (orDefault s dnsbl).length = s.length → orDefault s dnsbl = s := by
    intro s hs
    have hne := (length_orDefault s).mp hs
    unfold orDefault
    rw [if_neg (by simpa using hne)]
  rw [hkept (by omega : (orDefault feed dnsbl).length = feed.length),
    hkept (by omega : (orDefault group dnsbl).length = group.length)]

theorem indexed_of_blockEvent {f : Top1mFilter} {source : Source} {indexed : Str × Str}
    {entry : BlockEntry} {payload : Nat → BlockPayload} {ix : Indexer} {w : Write}
    (h : (blockEvent f source indexed entry payload).write ix = some w) :
    w.source = source ∧ w.indexed = indexed := by
  rw [write_blockEvent] at h
  split at h
  · cases h
  · obtain rfl := Option.some.inj h
    exact ⟨rfl, rfl⟩

/-- A source that takes an index under the text of its pair takes it under the pair. -/
theorem indexed_of_joined {w : Write} (hw : w ∈ blockWrites u manifest config)
    (h : joined w.indexed = joined w.source.pair) : w.indexed = w.source.pair := by
  obtain ⟨e, he, ix, hwrite⟩ := exists_event_of_write hw
  rcases event_cases he with ⟨tld, rfl⟩ | ⟨row, -, rfl⟩ | ⟨row, -, line, entry, -, rfl⟩ |
    ⟨b, -, entry, -, rfl⟩
  · obtain rfl := Option.some.inj hwrite
    rfl
  · cases hwrite
  · obtain ⟨hsource, hindexed⟩ := indexed_of_blockEvent hwrite
    rw [hsource, hindexed]
    rfl
  · obtain ⟨hsource, hindexed⟩ := indexed_of_blockEvent hwrite
    rw [hsource, hindexed] at h ⊢
    exact orDefault_of_joined h

theorem ownsIndex_iff {w : Write} (hw : w ∈ blockWrites u manifest config) :
    OwnsIndex (events u manifest config) w ↔
      firstPair (events u manifest config) (joined w.indexed) = some w.source.pair := by
  unfold OwnsIndex firstPair
  rw [Option.map_eq_some_iff]
  simp only [List.find?_eq_some_iff_append, decide_eq_true_eq]
  constructor
  · rintro ⟨hindexed, before, e, rest, hes, he, hbefore⟩
    refine ⟨e, ⟨by rw [he, hindexed], before, rest, hes, fun e' he' => ?_⟩, he⟩
    rw [hindexed]
    simpa using hbefore e' he'
  · rintro ⟨e, ⟨htext, before, rest, hes, hbefore⟩, he⟩
    have hindexed := indexed_of_joined hw (by rw [← htext, he])
    refine ⟨hindexed, before, e, rest, hes, he, fun e' he' => ?_⟩
    rw [← hindexed]
    simpa using hbefore e' he'

theorem resolve_iff {w : Write} (hw : w ∈ blockWrites u manifest config) :
    resolveFeedGroup w.payload.index (build u manifest config).feedGroupIndexDb =
        w.source.pair ↔ OwnsIndex (events u manifest config) w := by
  have hix := (replayed_build u manifest config).ix
  obtain ⟨pair, hpair, hresolve⟩ := resolve_of_write (fun e he => carries_of_mem he) hw
  have hdb : (build u manifest config).feedGroupIndexDb =
      (indexesFrom {} (events u manifest config)).feedGroupIndexDb := by
    rw [← hix]
    rfl
  rw [hdb, hresolve, ownsIndex_iff hw, hpair, Option.some.injEq]

end

/-- The entries of a build are attributed to their rows exactly where the row of every entry takes
its index before any row of another pair that is joined to the same text. -/
theorem attributed_iff (u : Unicode) (manifest : List FeedRow) (config : Config) :
    Attributed u manifest config ↔ ∀ cls k w,
      lastWrite (writtenTo cls k) (blockWrites u manifest config) = some w →
        OwnsIndex (events u manifest config) w := by
  constructor
  · intro hall cls k w hlast
    obtain ⟨w', hlast', hresolve⟩ := hall cls k w.payload ((entry_iff cls).mpr ⟨w, hlast, rfl⟩)
    obtain rfl := Option.some.inj (hlast.symm.trans hlast')
    exact (resolve_iff (mem_of_lastWrite hlast).1).mp hresolve
  · intro howns cls k payload hentry
    obtain ⟨w, hlast, rfl⟩ := (entry_iff cls).mp hentry
    exact ⟨w, hlast, (resolve_iff (mem_of_lastWrite hlast).1).mpr (howns cls k w hlast)⟩

/-- Two rows whose pairs are joined to one text. -/
def sharedRows : List FeedRow :=
  [{ feed := "ab".toList, group := "c".toList, logFlag := "1".toList,
     lines := ["one.example".toList] },
   { feed := "a".toList, group := "bc".toList, logFlag := "1".toList,
     lines := ["two.example".toList] }]

theorem not_attributed_sharedRows : ¬ Attributed asciiOnly sharedRows {} := by
  intro h
  have hentry : Entry asciiOnly sharedRows {} "two.example".toList ⟨"1".toList, 0, false, .feed⟩
      .data := by
    rw [Entry]
    decide +kernel
  have hlast : lastWrite (writtenTo .data "two.example".toList)
      (blockWrites asciiOnly sharedRows {}) =
        some ⟨.row "a".toList "bc".toList .feed, ("a".toList, "bc".toList), .data,
          "two.example".toList, ⟨"1".toList, 0, false, .feed⟩⟩ := by
    decide +kernel
  obtain ⟨w, hw, hresolve⟩ := h .data _ _ hentry
  obtain rfl := Option.some.inj (hlast.symm.trans hw)
  exact absurd hresolve (by decide +kernel)

end PfBlockerNG.Attribution
