import PfBlockerNG.AllowStores
import PfBlockerNG.BlockWrites

/-!
The band a key is left with: a later entry replaces an earlier one whatever their bands,
so the highest one survives where no key ends on a lower entry. A name that TOP1M lists
falls back to the unfiltered entries of a zone, and can lose the user's own that way.
-/

namespace PfBlockerNG.BlockBands

open PfBlockerNG.Strings
open PfBlockerNG.PyText
open PfBlockerNG.OrderedDict
open PfBlockerNG.Bands
open PfBlockerNG.TopElement
open PfBlockerNG.AbpRules
open PfBlockerNG.Reconcile
open PfBlockerNG.Whitelist
open PfBlockerNG.Matcher
open PfBlockerNG.Precedence
open PfBlockerNG.Build
open PfBlockerNG.BlockStores
open PfBlockerNG.BlockWrites (tracks_build)
open PfBlockerNG.FastPath
open PfBlockerNG.AllowStores

universe u

/-- Bands of a list of entries. -/
def bandsOf (es : List Emission) : Set Nat := {r | ∃ e ∈ es, r = e.band.prio}

def bandPrio (band : Option BlockBand) : Nat := band.elim 0 BlockBand.prio

/-- The last entry of a list has the highest band. -/
def LastHighest (es : List Emission) : Prop :=
  ∀ last, es.getLast? = some last → ∀ e ∈ es, e.band.prio ≤ last.band.prio

theorem top_lastBand_iff (es : List Emission) :
    Top (bandsOf es) (bandPrio (lastBand es)) ↔ LastHighest es := by
  unfold lastBand
  constructor
  · intro h last hlast e he
    have hle := h.le ⟨e, he, rfl⟩
    rwa [hlast] at hle
  · intro h
    cases hlast : es.getLast? with
    | none =>
        rw [List.getLast?_eq_none_iff] at hlast
        exact top_empty.congr (by simp [bandsOf, hlast])
    | some last =>
        refine top_intro (Or.inr ⟨last, List.mem_of_getLast? hlast, rfl⟩) ?_
        rintro _ ⟨e, he, rfl⟩
        exact h last hlast e he

/-- What a build stores for a key has the highest band emitted for it. -/
structure StoredHighest (r : BuildResult) (es : List Emission) : Prop where
  data : ∀ k, Top (bandsOf (emittedFor .data k es)) (bandPrio ((r.dataDb.get k).map (·.band)))
  zone : ∀ k, Top (bandsOf (emittedFor .zone k es))
    (bandPrio ((r.zoneDb.get k).map (·.payload.band)))

/-- The entries for a zone that count for a name: where the last one is filtered, the
unfiltered ones only for the names TOP1M lists. -/
def countedFor (names : List Str) (n k : Str) (es : List Emission) : List Emission :=
  if lastFiltered k es = true ∧ top1mListed n names = true then unfilteredFor k es
  else emittedFor .zone k es

/-- A name that TOP1M lists loses a zone of the user's own: the zone ends on a filtered entry,
and the last unfiltered one is not the user's. -/
def Shadowed (names : List Str) (n : Str) (es : List Emission) : Prop :=
  ∃ k, DottedSuffix k n ∧ lastFiltered k es = true ∧ top1mListed n names = true ∧
    (∃ e ∈ unfilteredFor k es, e.band = .user) ∧ lastBand (unfilteredFor k es) ≠ some .user

/-! ### What a name meets -/

/-- The compiled regexes of the user's own rows, and those of the feeds. -/
def userRegexes {β : Type u} (regex? : Rule → Option (RegexRule β)) (u : Unicode)
    (manifest : List FeedRow) (config : Config) : RegexDb β :=
  (compileRegexRules (ofUser ((survivors (manifestRules u manifest)).filterMap regex?))
    config.regexCap).1

def feedRegexes {β : Type u} (regex? : Rule → Option (RegexRule β)) (u : Unicode)
    (manifest : List FeedRow) (config : Config) : RegexDb β :=
  (compileRegexRules (ofFeed ((survivors (manifestRules u manifest)).filterMap regex?))
    config.regexCap).1

/-- The bands that count against a name: of the last entry for it, of the last entry that
counts for each zone above it, and of the regexes that match it. -/
inductive MeetsBlock (u : Unicode) (manifest : List FeedRow) (config : Config) (n : Str) :
    BlockBand → Prop
  | data (b : BlockBand)
      (hlast : lastBand (emittedFor .data n (emissions u manifest config)) = some b) :
      MeetsBlock u manifest config n b
  | zone (k : Str) (b : BlockBand) (hk : DottedSuffix k n)
      (hlast : lastBand (countedFor (config.top1m u) n k (emissions u manifest config)) = some b) :
      MeetsBlock u manifest config n b
  | regex (key : Str) (rule : RegexPayload BlockBand) (hname : n ≠ [])
      (hget : (userRegexes (blockRegex? u) u manifest config).get key = some rule ∨
        (feedRegexes (blockRegex? u) u manifest config).get key = some rule)
      (hsearch : rule.search n = true) : MeetsBlock u manifest config n rule.band

/-- The bands that count for a query: of the allows that prevail for a domain that reaches
one of its names, and of the allow regexes that match it. -/
inductive MeetsAllow (u : Unicode) (manifest : List FeedRow) (config : Config) (tldSeg : Int)
    (n qNameOriginal : Str) (isCname : Bool) : AllowBand → Prop
  | white (n' : Str) (a : Allow) (hname : n' ∈ allowNames n qNameOriginal isCname)
      (hprevails : Prevails (allows u manifest config) a)
      (hreaches : Reaches tldSeg a.domain n' a.wildcard) :
      MeetsAllow u manifest config tldSeg n qNameOriginal isCname a.band
  | regex (key : Str) (rule : RegexPayload AllowBand) (hname : n ≠ [])
      (hget : (userRegexes (allowRegex? u) u manifest config).get key = some rule ∨
        (feedRegexes (allowRegex? u) u manifest config).get key = some rule)
      (hsearch : rule.search n = true) :
      MeetsAllow u manifest config tldSeg n qNameOriginal isCname rule.band

/-- No key ends on an entry of a lower band than an earlier one, and a name that loses a zone
of the user's own meets no feed allow without a block that outranks it. -/
structure NoDowngrade (u : Unicode) (manifest : List FeedRow) (config : Config) : Prop where
  data : ∀ k, LastHighest (emittedFor .data k (emissions u manifest config))
  zone : ∀ k, LastHighest (emittedFor .zone k (emissions u manifest config))
  shadowed : ∀ n, Shadowed (config.top1m u) n (emissions u manifest config) →
    ∀ tldSeg qNameOriginal isCname a,
      MeetsAllow u manifest config tldSeg n qNameOriginal isCname a →
      ¬ MeetsAllow u manifest config tldSeg n qNameOriginal isCname .user →
      ∃ b, MeetsBlock u manifest config n b ∧ a.prio < b.prio

/-! ### The zones of a build -/

section Zones

variable {f : Top1mFilter} {es : List Emission} {s : Stores}

theorem band_markedZones (h : Tracks es s) (k : Str) :
    ((markedZones f s).get k).map (·.payload.band) = lastBand (emittedFor .zone k es) := by
  rw [← h.zone k, markedZones, Dict.get_mapValues, Option.map_map]
  congr 1
  funext payload
  simp only [Function.comp_apply]
  split <;> rfl

/-- A zone carries the TOP1M names exactly when its last entry is a filtered one. -/
theorem mark_markedZones (h : Tracks es s) {k : Str} {entry : ZoneEntry}
    (hget : (markedZones f s).get k = some entry) :
    (lastFiltered k es = false ∧ entry.top1m = none) ∨
      (lastFiltered k es = true ∧ entry.top1m = some f.names ∧
        entry.top1mFallback.map (·.band) = lastBand (unfilteredFor k es)) := by
  rw [markedZones, Dict.get_mapValues] at hget
  obtain ⟨payload, -, rfl⟩ := Option.map_eq_some_iff.mp hget
  cases hlast : lastFiltered k es with
  | false => exact Or.inl ⟨rfl, by simp [h.unmarked k hlast]⟩
  | true =>
      obtain ⟨fallback, hmark, hband⟩ := h.marked k hlast
      exact Or.inr ⟨rfl, by simp [hmark], by simpa [hmark] using hband⟩

theorem lastFiltered_nonempty {k : Str} (h : lastFiltered k es = true) :
    lastBand (emittedFor .zone k es) ≠ none := by
  intro hnone
  simp only [lastBand, Option.map_eq_none_iff] at hnone
  simp [lastFiltered, hnone] at h

theorem zone_of_lastFiltered (h : Tracks es s) {k : Str} (hlast : lastFiltered k es = true) :
    ∃ entry, (markedZones f s).get k = some entry := by
  have hband := band_markedZones (f := f) h k
  cases hget : (markedZones f s).get k with
  | some entry => exact ⟨entry, rfl⟩
  | none =>
      rw [hget] at hband
      exact absurd hband.symm (lastFiltered_nonempty hlast)

/-- The band a zone blocks a name with is that of the last entry that counts for it. -/
theorem band_zonePayload (h : Tracks es s) (n k : Str) :
    (zonePayload (markedZones f s) n k).map (·.band) = lastBand (countedFor f.names n k es) := by
  have hband := band_markedZones (f := f) h k
  unfold zonePayload countedFor
  cases hget : (markedZones f s).get k with
  | none =>
      have hlast : lastFiltered k es = false := by
        by_contra hlast
        obtain ⟨entry, hentry⟩ := zone_of_lastFiltered h (by simpa using hlast)
        rw [hget] at hentry
        cases hentry
      rw [hget] at hband
      simpa [hlast] using hband
  | some entry =>
      rw [hget] at hband
      rcases mark_markedZones h hget with ⟨hlast, hmark⟩ | ⟨hlast, hmark, hfallback⟩
      · simpa [zoneEntryFor, hmark, hlast] using hband
      · by_cases hlisted : top1mListed n f.names = true
        · simpa [zoneEntryFor, hmark, hlast, hlisted] using hfallback
        · simpa [zoneEntryFor, hmark, hlast, hlisted] using hband

end Zones

variable {u : Unicode} {manifest : List FeedRow} {config : Config}

theorem storedHighest_iff (u : Unicode) (manifest : List FeedRow) (config : Config) :
    StoredHighest (build u manifest config) (emissions u manifest config) ↔
      (∀ k, LastHighest (emittedFor .data k (emissions u manifest config))) ∧
        ∀ k, LastHighest (emittedFor .zone k (emissions u manifest config)) := by
  have htracks := tracks_build u manifest config
  constructor
  · intro h
    refine ⟨fun k => ?_, fun k => ?_⟩
    · have hdata := h.data k
      rwa [build_dataDb, htracks.data, top_lastBand_iff] at hdata
    · have hzone := h.zone k
      rwa [build_zoneDb, band_markedZones htracks, top_lastBand_iff] at hzone
  · rintro ⟨hdata, hzone⟩
    refine ⟨fun k => ?_, fun k => ?_⟩
    · rw [build_dataDb, htracks.data, top_lastBand_iff]
      exact hdata k
    · rw [build_zoneDb, band_markedZones htracks, top_lastBand_iff]
      exact hzone k

theorem flagsMatch_build (r : BuildResult) (cfg : Cfg) (c : Containers) :
    FlagsMatch (r.cfg cfg c) (r.containers c) := ⟨rfl, rfl, rfl, rfl, rfl, rfl, rfl⟩

/-- The regexes of a build are the compiled ones. -/
theorem build_regexes (u : Unicode) (manifest : List FeedRow) (config : Config) :
    (build u manifest config).regexDb = feedRegexes (blockRegex? u) u manifest config ∧
      (build u manifest config).allowRegexDb = feedRegexes (allowRegex? u) u manifest config ∧
      (build u manifest config).userRegexDb = userRegexes (blockRegex? u) u manifest config ∧
      (build u manifest config).userAllowRegexDb = userRegexes (allowRegex? u) u manifest config :=
  build_regexDbs u manifest config

section Met

variable {pf : Prefilter} {cfg : Cfg} {c : Containers} {n : Str}

/-- What counts against a name is what the second scan looks at. -/
theorem meetsBlock_iff (cfg : Cfg)
    (hpf : Prefiltered pf u ((build u manifest config).containers c)) (b : BlockBand) :
    MeetsBlock u manifest config n b ↔
      ∃ hit ∈ scanned pf u cfg ((build u manifest config).containers c) n, hit.band = b := by
  have htracks := tracks_build u manifest config
  obtain ⟨hfeed, -, huser, -⟩ := build_regexes u manifest config
  have hzones : ∀ k, (zonePayload (build u manifest config).zoneDb n k).map (·.band) =
      lastBand (countedFor (config.top1m u) n k (emissions u manifest config)) := fun k => by
    rw [build_zoneDb]
    exact band_zonePayload htracks n k
  constructor
  · intro h
    cases h with
    | data b hlast =>
        rw [← htracks.data, ← build_dataDb] at hlast
        obtain ⟨payload, hget, hband⟩ := Option.map_eq_some_iff.mp hlast
        refine ⟨dataHit ((build u manifest config).containers c) n payload, ?_, hband⟩
        refine Or.inl (Or.inl (Or.inl (Or.inr ?_)))
        change ((build u manifest config).dataDb.get n).map _ = _
        rw [hget]
        rfl
    | zone k b hk hlast =>
        rw [← hzones] at hlast
        obtain ⟨payload, hget, hband⟩ := Option.map_eq_some_iff.mp hlast
        refine ⟨zoneHit ((build u manifest config).containers c) k payload, ?_, hband⟩
        refine Or.inl (Or.inl (Or.inr ⟨k, (mem_ancestors_iff _ _).mpr hk, ?_⟩))
        change (zonePayload (build u manifest config).zoneDb n k).map _ = _
        rw [hget]
        rfl
    | regex key rule hname hget hsearch =>
        refine ⟨regexHit cfg n key rule, ?_, rfl⟩
        rcases hget with hget | hget
        · have hget' : (build u manifest config).userRegexDb.get key = some rule := huser ▸ hget
          exact Or.inl (Or.inr ⟨hname, key, rule,
            ⟨hget', hpf.userRegexDb key rule hget' n hsearch, hsearch⟩, rfl⟩)
        · have hget' : (build u manifest config).regexDb.get key = some rule := hfeed ▸ hget
          exact Or.inr ⟨hname, key, rule,
            ⟨hget', hpf.regexDb key rule hget' n hsearch, hsearch⟩, rfl⟩
  · rintro ⟨hit, (((h | h) | h) | h) | h, rfl⟩
    · exact h.elim
    · obtain ⟨payload, hget, rfl⟩ := Option.map_eq_some_iff.mp h
      refine .data payload.band ?_
      rw [← htracks.data, ← build_dataDb]
      exact Option.map_eq_some_iff.mpr ⟨payload, hget, rfl⟩
    · obtain ⟨k, hk, hhit⟩ := h
      obtain ⟨payload, hget, rfl⟩ := Option.map_eq_some_iff.mp hhit
      refine .zone k payload.band ((mem_ancestors_iff _ _).mp hk) ?_
      rw [← hzones]
      exact Option.map_eq_some_iff.mpr ⟨payload, hget, rfl⟩
    · obtain ⟨hname, key, rule, ⟨hget, -, hsearch⟩, rfl⟩ := h
      exact .regex key rule hname (Or.inl (huser ▸ hget)) hsearch
    · obtain ⟨hname, key, rule, ⟨hget, -, hsearch⟩, rfl⟩ := h
      exact .regex key rule hname (Or.inr (hfeed ▸ hget)) hsearch

/-- What counts for a query is what allows it. -/
theorem mem_allowBands_iff (tldSeg : Int) (qNameOriginal : Str) (isCname : Bool) (r : Nat) :
    r ∈ allowBands ((build u manifest config).containers c) tldSeg n qNameOriginal isCname ↔
      ∃ a, MeetsAllow u manifest config tldSeg n qNameOriginal isCname a ∧ r = a.prio := by
  have hprevails := (strongest_build u manifest config).prevails_iff
  obtain ⟨-, hfeed, -, huser⟩ := build_regexes u manifest config
  constructor
  · rintro (⟨n', hname, e, hmatch, rfl⟩ | ⟨hname, key, rule, hget, hsearch, rfl⟩ |
      ⟨hname, key, rule, hget, hsearch, rfl⟩)
    · obtain ⟨k, hget, hreaches⟩ := (matches_iff_reaches _ _ _ _).mp hmatch
      exact ⟨e.band, .white n' ⟨k, e.band, e.wildcard⟩ hname
        ((hprevails _).mpr ⟨e, hget, rfl, rfl⟩) hreaches, rfl⟩
    · exact ⟨rule.band, .regex key rule hname (Or.inl (huser ▸ hget)) hsearch, rfl⟩
    · exact ⟨rule.band, .regex key rule hname (Or.inr (hfeed ▸ hget)) hsearch, rfl⟩
  · rintro ⟨a, hmeets, rfl⟩
    cases hmeets with
    | white n' a hname hkept hreaches =>
        obtain ⟨e, hget, hband, hwild⟩ := (hprevails a).mp hkept
        exact Or.inl ⟨n', hname, e, (matches_iff_reaches _ _ _ _).mpr
          ⟨a.domain, hget, hwild ▸ hreaches⟩, by rw [hband]⟩
    | regex key rule hname hget hsearch =>
        rcases hget with hget | hget
        · rw [← huser] at hget
          exact Or.inr (Or.inl ⟨hname, key, rule, hget, hsearch, rfl⟩)
        · rw [← hfeed] at hget
          exact Or.inr (Or.inr ⟨hname, key, rule, hget, hsearch, rfl⟩)

/-- A block that counts and outranks every allow blocks the name. -/
theorem blocked_of_meetsBlock (hpf : Prefiltered pf u ((build u manifest config).containers c))
    (hblocking : cfg.pythonBlocking = true) (tld : Str) {qNameOriginal : Str} {isCname : Bool}
    {b : BlockBand} (hb : MeetsBlock u manifest config n b)
    (hle : ∀ a, MeetsAllow u manifest config cfg.pythonTldSeg n qNameOriginal isCname a →
      a.prio < b.prio) :
    (evaluateDomain pf u n qNameOriginal tld isCname ((build u manifest config).cfg cfg c)
      ((build u manifest config).containers c)).blocked = true := by
  have hflags := flagsMatch_build (build u manifest config) cfg c
  obtain ⟨hit, hscanned, rfl⟩ :=
    (meetsBlock_iff ((build u manifest config).cfg cfg c) hpf b).mp hb
  obtain ⟨hit', hsome, hrank⟩ := rank_le_blockResolved hflags hblocking tld hscanned
  refine (build_blocked_iff rfl).mpr ⟨hit', hsome, lt_of_lt_of_le ?_ hrank⟩
  have hallow := top_allowBand hflags hpf n qNameOriginal isCname
  rcases hallow.eq_bot_or_mem with hbot | hmem
  · rw [hbot]
    exact hit.band.prio_pos
  · obtain ⟨a, hmeets, ha⟩ := (mem_allowBands_iff _ _ _ _).mp hmem
    rw [ha]
    exact hle a hmeets

/-- What blocks a name against an allow outranks it, and is no built-in arm. -/
theorem meetsBlock_of_blocked (hpf : Prefiltered pf u ((build u manifest config).containers c))
    {qNameOriginal tld : Str} {isCname : Bool} {a : AllowBand}
    (hblocked : (evaluateDomain pf u n qNameOriginal tld isCname
      ((build u manifest config).cfg cfg c)
      ((build u manifest config).containers c)).blocked = true)
    (ha : MeetsAllow u manifest config cfg.pythonTldSeg n qNameOriginal isCname a) :
    ∃ b, MeetsBlock u manifest config n b ∧ a.prio < b.prio := by
  have hflags := flagsMatch_build (build u manifest config) cfg c
  obtain ⟨hit, hsome, hlt⟩ := (build_blocked_iff rfl).mp hblocked
  obtain ⟨found, hfound, rfl⟩ := Option.map_eq_some_iff.mp hsome
  have hle := (top_allowBand hflags hpf n qNameOriginal isCname).le
    ((mem_allowBands_iff _ _ _ _).mpr ⟨a, ha, rfl⟩)
  have hrank := lt_of_le_of_lt hle hlt
  rcases scanned_or_lowest hpf (outranked_greatest hflags hpf hfound).1 with hscanned | hlow
  · exact ⟨_, (meetsBlock_iff _ hpf _).mpr ⟨_, hscanned, rfl⟩, hrank⟩
  · rw [hlow] at hrank
    exact absurd hrank (by cases a <;> decide)

end Met

/-! ### What a Custom_List row blocks -/

/-- A row of the user's own blocks `n`: by an exact entry, by a zone above it that TOP1M
does not take away, or by a regex. -/
inductive UserBlocks (u : Unicode) (manifest : List FeedRow) (config : Config) (n : Str) : Prop
  | data (e : Emission) (hmem : e ∈ emittedFor .data n (emissions u manifest config))
      (huser : e.band = .user)
  | zone (k : Str) (e : Emission) (hk : DottedSuffix k n)
      (hmem : e ∈ emittedFor .zone k (emissions u manifest config)) (huser : e.band = .user)
      (hcounts : e.filtered = true → top1mListed n (config.top1m u) = false)
  | regex (key : Str) (rule : RegexPayload BlockBand) (hname : n ≠ [])
      (hget : (build u manifest config).userRegexDb.get key = some rule)
      (hsearch : rule.search n = true)

/-- What the user's own rows block is let through by the user's own allows only. -/
def UserSovereign (u : Unicode) (manifest : List FeedRow) (config : Config) : Prop :=
  ∀ (pf : Prefilter) (cfg : Cfg) (c : Containers) (n qNameOriginal tld : Str) (isCname : Bool),
    cfg.pythonBlocking = true → Prefiltered pf u ((build u manifest config).containers c) →
    UserBlocks u manifest config n →
    (evaluateDomain pf u n qNameOriginal tld isCname ((build u manifest config).cfg cfg c)
      ((build u manifest config).containers c)).blocked = false →
    AllowBand.user.prio ∈
      allowBands ((build u manifest config).containers c) cfg.pythonTldSeg n qNameOriginal isCname

/-- A compiled rule keeps the band of a rule it was compiled from. -/
theorem band_of_compileRegexRules {β : Type u} {rules : List (RegexRule β)} {staticCap : Bool}
    {key : Str} {payload : RegexPayload β}
    (h : (compileRegexRules rules staticCap).1.get key = some payload) :
    ∃ rule ∈ rules, payload.band = rule.band := by
  revert key payload
  refine List.foldlRecOn (motive := fun acc : RegexDb β × Nat => ∀ {key payload},
    acc.1.get key = some payload → ∃ rule ∈ rules, payload.band = rule.band) _ _
    (fun h => by cases h) ?_
  intro acc hacc rule hrule key payload hget
  unfold compileRule at hget
  split at hget
  · exact hacc hget
  · split at hget
    · exact hacc hget
    · rw [Dict.get_set] at hget
      split at hget
      · obtain rfl := Option.some.inj hget
        exact ⟨rule, hrule, rfl⟩
      · exact hacc hget

theorem band_userRegexDb {key : Str} {rule : RegexPayload BlockBand}
    (h : (build u manifest config).userRegexDb.get key = some rule) : rule.band = .user := by
  rw [(build_regexDbs u manifest config).2.2.1] at h
  obtain ⟨compiled, hmem, hband⟩ := band_of_compileRegexRules h
  obtain ⟨hmem, hprov⟩ := List.mem_filter.mp hmem
  obtain ⟨r, -, hsome⟩ := List.mem_filterMap.mp hmem
  obtain ⟨-, hprov', hblock⟩ := blockRegex_spec hsome
  rw [hband, hblock]
  have huser : r.provenance = .user := hprov' ▸ by simpa using hprov
  simp [blockRuleBand, blockPriority, huser]

theorem lastBand_of_user {es : List Emission} (h : LastHighest es) {e : Emission} (he : e ∈ es)
    (huser : e.band = .user) : lastBand es = some .user := by
  unfold lastBand
  cases hlast : es.getLast? with
  | none =>
      rw [List.getLast?_eq_none_iff] at hlast
      simp [hlast] at he
  | some last =>
      have hle := h last hlast e he
      rw [huser] at hle
      have hband : last.band = .user := by
        cases hb : last.band <;> simp [hb, BlockBand.prio] at hle ⊢
      simp [hband]

/-- Where no key ends on a lower entry, what the user's own rows block counts with their
band, or the name has lost a zone of theirs. -/
theorem meetsBlock_of_userBlocks (h : NoDowngrade u manifest config) {n : Str}
    (hblocks : UserBlocks u manifest config n) :
    MeetsBlock u manifest config n .user ∨
      Shadowed (config.top1m u) n (emissions u manifest config) := by
  cases hblocks with
  | data e hmem huser => exact Or.inl (.data .user (lastBand_of_user (h.data n) hmem huser))
  | zone k e hk hmem huser hcounts =>
      by_cases hlisted : lastFiltered k (emissions u manifest config) = true ∧
          top1mListed n (config.top1m u) = true
      · have hfiltered : e.filtered = false := by
          cases hfiltered : e.filtered with
          | false => rfl
          | true => simp [hcounts hfiltered] at hlisted
        have hunfiltered : e ∈ unfilteredFor k (emissions u manifest config) :=
          List.mem_filter.mpr ⟨hmem, by simp [hfiltered]⟩
        by_cases hlast : lastBand (unfilteredFor k (emissions u manifest config)) = some .user
        · exact Or.inl (.zone k .user hk (by rwa [countedFor, if_pos hlisted]))
        · exact Or.inr ⟨k, hk, hlisted.1, hlisted.2, ⟨e, hunfiltered, huser⟩, hlast⟩
      · refine Or.inl (.zone k .user hk ?_)
        rw [countedFor, if_neg hlisted]
        exact lastBand_of_user (h.zone k) hmem huser
  | regex key rule hname hget hsearch =>
      have hband := band_userRegexDb hget
      rw [(build_regexes u manifest config).2.2.1] at hget
      exact Or.inl (hband ▸ .regex key rule hname (Or.inl hget) hsearch)

/-- A name that has lost a zone of the user's own still meets the entry it falls back to. -/
theorem meetsBlock_of_shadowed {n : Str}
    (h : Shadowed (config.top1m u) n (emissions u manifest config)) :
    ∃ b, MeetsBlock u manifest config n b := by
  obtain ⟨k, hk, hlast, hlisted, ⟨e, he, -⟩, -⟩ := h
  cases hband : lastBand (unfilteredFor k (emissions u manifest config)) with
  | none =>
      rw [lastBand, Option.map_eq_none_iff, List.getLast?_eq_none_iff] at hband
      rw [hband] at he
      cases he
  | some b => exact ⟨b, .zone k b hk (by rwa [countedFor, if_pos ⟨hlast, hlisted⟩])⟩

theorem userSovereign_of_noDowngrade (h : NoDowngrade u manifest config) :
    UserSovereign u manifest config := by
  intro pf cfg c n qNameOriginal tld isCname hblocking hpf hblocks hresolved
  by_contra hnot
  have hfeed : ¬ MeetsAllow u manifest config cfg.pythonTldSeg n qNameOriginal isCname .user :=
    fun huser => hnot ((mem_allowBands_iff _ _ _ _).mpr ⟨.user, huser, rfl⟩)
  have hbelow : ∀ b, MeetsBlock u manifest config n b →
      ∃ a, MeetsAllow u manifest config cfg.pythonTldSeg n qNameOriginal isCname a ∧
        b.prio ≤ a.prio := by
    intro b hb
    by_contra hnone
    have hblocked := blocked_of_meetsBlock hpf hblocking tld hb fun a ha =>
      not_le.mp fun hle => hnone ⟨a, ha, hle⟩
    rw [hresolved] at hblocked
    cases hblocked
  rcases meetsBlock_of_userBlocks h hblocks with huser | hshadowed
  · obtain ⟨a, ha, hle⟩ := hbelow .user huser
    cases a with
    | feed => exact absurd hle (by decide)
    | feedImportant => exact absurd hle (by decide)
    | user => exact hfeed ha
  · have hrise : ∀ a, MeetsAllow u manifest config cfg.pythonTldSeg n qNameOriginal isCname a →
        ∃ a', MeetsAllow u manifest config cfg.pythonTldSeg n qNameOriginal isCname a' ∧
          a.prio < a'.prio := by
      intro a ha
      obtain ⟨b, hb, hlt⟩ := h.shadowed n hshadowed _ _ _ a ha hfeed
      obtain ⟨a', ha', hle⟩ := hbelow b hb
      exact ⟨a', ha', lt_of_lt_of_le hlt hle⟩
    obtain ⟨b, hb⟩ := meetsBlock_of_shadowed hshadowed
    obtain ⟨a, ha, -⟩ := hbelow b hb
    obtain ⟨a', ha', hlt⟩ := hrise a ha
    obtain ⟨a'', ha'', hlt'⟩ := hrise a' ha'
    have htop : a'' = .user := by
      cases a <;> cases a' <;> cases a'' <;> simp [AllowBand.prio] at hlt hlt' ⊢
    exact hfeed (htop ▸ ha'')

/-- Where the user's blocks are sovereign, a name that has lost one of their zones meets no feed
allow that nothing outranks. -/
theorem shadowed_of_userSovereign (h : UserSovereign u manifest config) {n : Str}
    (hshadowed : Shadowed (config.top1m u) n (emissions u manifest config)) (tldSeg : Int)
    (qNameOriginal : Str) (isCname : Bool) {a : AllowBand}
    (ha : MeetsAllow u manifest config tldSeg n qNameOriginal isCname a)
    (hnot : ¬ MeetsAllow u manifest config tldSeg n qNameOriginal isCname .user) :
    ∃ b, MeetsBlock u manifest config n b ∧ a.prio < b.prio := by
  obtain ⟨k, hk, -, -, ⟨e, he, huser⟩, -⟩ := hshadowed
  obtain ⟨hmem, hunfiltered⟩ := List.mem_filter.mp he
  have hfiltered : e.filtered = false := by simpa using hunfiltered
  have hblocks : UserBlocks u manifest config n :=
    .zone k e hk hmem huser fun h => by simp [hfiltered] at h
  have hpf := prefiltered_alwaysRun u ((build u manifest config).containers .empty)
  have hsovereign := h .alwaysRun { Cfg.listsOnly with pythonTldSeg := tldSeg } .empty n
    qNameOriginal [] isCname rfl hpf hblocks
  cases hblocked : (evaluateDomain .alwaysRun u n qNameOriginal [] isCname
      ((build u manifest config).cfg { Cfg.listsOnly with pythonTldSeg := tldSeg } .empty)
      ((build u manifest config).containers .empty)).blocked with
  | true => exact meetsBlock_of_blocked hpf hblocked ha
  | false =>
      obtain ⟨a', ha', hprio⟩ := (mem_allowBands_iff _ _ _ _).mp (hsovereign hblocked)
      exact absurd ((AllowBand.prio_inj hprio).symm ▸ ha') hnot

/-- The user's own blocks are sovereign exactly where no key ends on an entry of a lower
band than an earlier one, and what TOP1M takes from a name meets no feed allow that nothing
outranks. -/
theorem user_sovereign_iff (u : Unicode) (manifest : List FeedRow) (config : Config) :
    (StoredHighest (build u manifest config) (emissions u manifest config) ∧
        UserSovereign u manifest config) ↔
      NoDowngrade u manifest config := by
  rw [storedHighest_iff]
  constructor
  · rintro ⟨⟨hdata, hzone⟩, hsovereign⟩
    refine ⟨hdata, hzone, fun n hshadowed tldSeg qNameOriginal isCname a ha hnot => ?_⟩
    exact shadowed_of_userSovereign hsovereign hshadowed tldSeg qNameOriginal isCname ha hnot
  · intro h
    exact ⟨⟨h.data, h.zone⟩, userSovereign_of_noDowngrade h⟩

/-- The user blocks a domain; a feed that comes after lists it too, and allows it. -/
def listedAgain : List FeedRow :=
  [{ feed := "Custom".toList, group := "Mine".toList, logFlag := "1".toList,
     provenance := some "user".toList, lines := ["evil.com".toList] },
   { feed := "Feed".toList, group := "Ads".toList, logFlag := "1".toList,
     lines := ["evil.com".toList, "@@||evil.com^".toList] }]

theorem listedAgain_not_sovereign :
    ¬ StoredHighest (build asciiOnly listedAgain {}) (emissions asciiOnly listedAgain {}) ∧
      ¬ UserSovereign asciiOnly listedAgain {} := by
  constructor
  · intro h
    have hle := (h.data "evil.com".toList).le
      ⟨⟨.data, "evil.com".toList, .user, false⟩, by decide, rfl⟩
    exact absurd hle (by decide)
  · intro h
    have hblocks : UserBlocks asciiOnly listedAgain {} "evil.com".toList :=
      .data ⟨.data, "evil.com".toList, .user, false⟩ (by decide) rfl
    have huser := h .alwaysRun .listsOnly .empty "evil.com".toList "evil.com".toList "com".toList
      false rfl (prefiltered_alwaysRun ..) hblocks (by decide)
    have hallow := top_allowBand
      (flagsMatch_build (build asciiOnly listedAgain {}) .listsOnly .empty)
      (prefiltered_alwaysRun asciiOnly _) "evil.com".toList "evil.com".toList false
    exact absurd (hallow.le huser) (by decide)

end PfBlockerNG.BlockBands
