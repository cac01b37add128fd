import PfBlockerNG.Matcher

/-!
On the numeric path the matcher compares the highest band among everything that blocks
a name with the highest band among everything that allows it.
-/

namespace PfBlockerNG.Precedence

open PfBlockerNG.Strings
open PfBlockerNG.PyText
open PfBlockerNG.OrderedDict
open PfBlockerNG.Bands
open PfBlockerNG.TopElement
open PfBlockerNG.Whitelist
open PfBlockerNG.Matcher

universe u

/-- What blocks a name, as it is reported: an exact entry, an entry of a dotted suffix,
a regex of either list, or one of the two built-in arms. Regexes see no empty name. -/
inductive Blocks (u : Unicode) (cfg : Cfg) (c : Containers) (qName tld : Str) : Hit → Prop
  | data (entry : BlockPayload) (hget : c.dataDb.get qName = some entry) :
      Blocks u cfg c qName tld (dataHit c qName entry)
  | zone (k : Str) (entry : BlockPayload) (hk : DottedSuffix k qName)
      (hget : zonePayload c.zoneDb qName k = some entry) :
      Blocks u cfg c qName tld (zoneHit c k entry)
  | userRegex (key : Str) (rule : RegexPayload BlockBand) (hname : qName ≠ [])
      (hget : c.userRegexDb.get key = some rule) (hsearch : rule.search qName = true) :
      Blocks u cfg c qName tld (regexHit cfg qName key rule)
  | feedRegex (key : Str) (rule : RegexPayload BlockBand) (hname : qName ≠ [])
      (hget : c.regexDb.get key = some rule) (hsearch : rule.search qName = true) :
      Blocks u cfg c qName tld (regexHit cfg qName key rule)
  | tldAllow (hit : Hit) (harm : tldAllowHit u cfg c qName tld = some hit) :
      Blocks u cfg c qName tld hit
  | idn (hit : Hit) (harm : (idnArm u cfg qName).1 = some hit) :
      Blocks u cfg c qName tld hit

/-- Bands of everything that blocks a name. -/
def blockBands (u : Unicode) (cfg : Cfg) (c : Containers) (qName tld : Str) : Set Nat :=
  {r | ∃ hit, Blocks u cfg c qName tld hit ∧ r = hit.rank}

/-- Bands of the rules of an allow-regex list that match a name. -/
def allowRegexBands (db : RegexDb AllowBand) (qName : Str) : Set Nat :=
  {r | qName ≠ [] ∧ ∃ key rule, db.get key = some rule ∧ rule.search qName = true ∧
    r = rule.band.prio}

/-- Bands of everything that allows a name. -/
def allowBands (c : Containers) (tldSeg : Int) (qName qNameOriginal : Str) (isCname : Bool) :
    Set Nat :=
  {r | ∃ n ∈ allowNames qName qNameOriginal isCname, r ∈ whiteBands c.whiteDb tldSeg n} ∪
    (allowRegexBands c.userAllowRegexDb qName ∪ allowRegexBands c.allowRegexDb qName)

/-- Each flag named after a database says whether it holds anything. -/
structure FlagsMatch (cfg : Cfg) (c : Containers) : Prop where
  dataDB : cfg.dataDB = c.dataDb.nonempty
  zoneDB : cfg.zoneDB = c.zoneDb.nonempty
  whiteDB : cfg.whiteDB = c.whiteDb.nonempty
  regexDB : cfg.regexDB = c.regexDb.nonempty
  allowRegexDB : cfg.allowRegexDB = c.allowRegexDb.nonempty
  userRegexDB : cfg.userRegexDB = c.userRegexDb.nonempty
  userAllowRegexDB : cfg.userAllowRegexDB = c.userAllowRegexDb.nonempty

/-- The prefilter lets every rule of a list through to the names it matches. -/
def PrefilterSound {β : Type u} (pf : Prefilter) (u : Unicode) (db : RegexDb β) : Prop :=
  ∀ key rule, db.get key = some rule → ∀ name, rule.search name = true →
    pf.passes u rule.pattern name = true

/-- The prefilter is sound for the four lists. -/
structure Prefiltered (pf : Prefilter) (u : Unicode) (c : Containers) : Prop where
  regexDb : PrefilterSound pf u c.regexDb
  allowRegexDb : PrefilterSound pf u c.allowRegexDb
  userRegexDb : PrefilterSound pf u c.userRegexDb
  userAllowRegexDb : PrefilterSound pf u c.userAllowRegexDb

theorem passes_alwaysRun (u : Unicode) (pattern qName : Str) :
    Prefilter.alwaysRun.passes u pattern qName = true := by
  simp [Prefilter.passes, Prefilter.alwaysRun]

/-- A prefilter that requires no literal is sound for any lists. -/
theorem prefiltered_alwaysRun (u : Unicode) (c : Containers) : Prefiltered .alwaysRun u c :=
  ⟨fun _ _ _ _ _ => passes_alwaysRun .., fun _ _ _ _ _ => passes_alwaysRun ..,
    fun _ _ _ _ _ => passes_alwaysRun .., fun _ _ _ _ _ => passes_alwaysRun ..⟩

theorem flagsMatch_ofContainers (cfg : Cfg) (c : Containers) :
    FlagsMatch (cfg.ofContainers c) c := ⟨rfl, rfl, rfl, rfl, rfl, rfl, rfl⟩

/-! ### What the scans visit -/

/-- The rules that match are those of the list the prefilter and the search let through. -/
theorem mem_regexMatches_iff {β : Type u} {pf : Prefilter} {u : Unicode} {db : RegexDb β}
    {qName : Str} {hit : Str × RegexPayload β} :
    hit ∈ regexMatches pf u db qName ↔ db.get hit.1 = some hit.2 ∧
      pf.passes u hit.2.pattern qName = true ∧ hit.2.search qName = true := by
  obtain ⟨key, rule⟩ := hit
  simp only [regexMatches, regexCandidates, List.mem_filterMap, (pf.perm _).mem_iff, List.mem_map,
    List.mem_filter, Option.map_eq_some_iff, Option.filter_eq_some_iff, Prod.mk.injEq]
  constructor
  · rintro ⟨_, ⟨⟨_, rule'⟩, ⟨hmem, hpass⟩, rfl⟩, _, ⟨hget, hsearch⟩, rfl, rfl⟩
    obtain rfl := Option.some.inj (((Dict.get_eq_some_iff _ _ _).mpr hmem).symm.trans hget)
    exact ⟨hget, hpass, hsearch⟩
  · rintro ⟨hget, hpass, hsearch⟩
    exact ⟨key, ⟨(key, rule), ⟨(Dict.get_eq_some_iff _ _ _).mp hget, hpass⟩, rfl⟩, rule,
      ⟨hget, hsearch⟩, rfl, rfl⟩

theorem firstRegexMatch_eq_some {β : Type u} {db : RegexDb β} {qName : Str}
    {hit : Str × RegexPayload β} (h : firstRegexMatch db qName = some hit) :
    db.get hit.1 = some hit.2 ∧ hit.2.search qName = true := by
  have hsearch := List.find?_some (show db.items.find? (fun item => item.2.search qName) = _ from h)
  exact ⟨(Dict.get_eq_some_iff _ _ _).mpr (List.mem_of_find?_eq_some h), hsearch⟩

theorem firstRegexMatch_eq_none {β : Type u} {db : RegexDb β} {qName : Str}
    (h : firstRegexMatch db qName = none) {key : Str} {rule : RegexPayload β}
    (hget : db.get key = some rule) : rule.search qName = false := by
  have := List.find?_eq_none.mp h _ ((Dict.get_eq_some_iff _ _ _).mp hget)
  simpa using this

theorem findZoneMatch_eq_some {qName k : Str} {zoneDb : Dict Str ZoneEntry} {entry : BlockPayload}
    (h : findZoneMatch qName zoneDb = some (k, entry)) :
    DottedSuffix k qName ∧ zonePayload zoneDb qName k = some entry := by
  obtain ⟨q, hq, hentry⟩ := List.exists_of_findSome?_eq_some h
  rw [Option.map_eq_some_iff] at hentry
  obtain ⟨e, he, hpair⟩ := hentry
  obtain ⟨rfl, rfl⟩ := Prod.mk.inj hpair
  exact ⟨(mem_ancestors_iff _ _).mp hq, he⟩

theorem findZoneMatch_eq_none {qName k : Str} {zoneDb : Dict Str ZoneEntry}
    (h : findZoneMatch qName zoneDb = none) (hk : DottedSuffix k qName) :
    zonePayload zoneDb qName k = none := by
  have := List.findSome?_eq_none_iff.mp h k ((mem_ancestors_iff _ _).mpr hk)
  simpa using this

/-- A lookup guarded by the flag of its database reads the database. -/
theorem guarded_get {α : Type u} {flag : Bool} {db : Dict Str α} (h : flag = db.nonempty)
    (k : Str) :
    (if flag then db.get k else none) = db.get k := by
  split
  · rfl
  · rename_i hflag
    exact (Dict.get_eq_none_of_nonempty_eq_false (by simpa [← h] using hflag) k).symm

/-! ### Discovery -/

variable {pf : Prefilter} {u : Unicode} {cfg : Cfg} {c : Containers} {qName tld : Str}

theorem blocks_of_listArm {hit : Hit} (h : listArm cfg c qName = some hit) :
    Blocks u cfg c qName tld hit := by
  unfold listArm at h
  split at h
  · rw [Option.or_eq_some_iff] at h
    rcases h with h | ⟨-, h⟩
    · obtain ⟨entry, hentry, rfl⟩ := Option.map_eq_some_iff.mp h
      split at hentry
      · exact .data entry hentry
      · cases hentry
    · obtain ⟨⟨k, entry⟩, hentry, rfl⟩ := Option.map_eq_some_iff.mp h
      split at hentry
      · obtain ⟨hk, hget⟩ := findZoneMatch_eq_some hentry
        exact .zone k entry hk hget
      · cases hentry
  · cases h

theorem blocks_of_regexArm {hit : Hit} (h : regexArm cfg c qName = some hit) :
    Blocks u cfg c qName tld hit := by
  unfold regexArm at h
  split at h
  · cases h
  · rename_i hname
    have hne : qName ≠ [] := by simpa using hname
    obtain ⟨⟨key, rule⟩, hrule, rfl⟩ := Option.map_eq_some_iff.mp h
    rw [Option.or_eq_some_iff] at hrule
    rcases hrule with hrule | ⟨-, hrule⟩
    · split at hrule
      · obtain ⟨hget, hsearch⟩ := firstRegexMatch_eq_some hrule
        exact .userRegex key rule hne hget hsearch
      · cases hrule
    · split at hrule
      · obtain ⟨hget, hsearch⟩ := firstRegexMatch_eq_some hrule
        exact .feedRegex key rule hne hget hsearch
      · cases hrule

/-- What discovery finds blocks the name. -/
theorem blocks_of_discover {hit : Hit} (h : (discover u qName tld cfg c).1 = some hit) :
    Blocks u cfg c qName tld hit := by
  unfold discover at h
  split at h
  · rename_i hit' hlist
    obtain rfl := Option.some.inj h
    exact blocks_of_listArm hlist
  · split at h
    · rename_i hit' htld
      obtain rfl := Option.some.inj h
      exact .tldAllow _ htld
    · split at h
      · rename_i hit' alert hidn
        obtain rfl := Option.some.inj h
        exact .idn _ (by rw [hidn])
      · exact blocks_of_regexArm h

theorem tldAllowHit_rank {hit : Hit} (h : tldAllowHit u cfg c qName tld = some hit) :
    hit.rank = BlockBand.feed.prio := by
  unfold tldAllowHit at h
  split at h
  · obtain rfl := Option.some.inj h
    rfl
  · cases h

theorem idnArm_rank {hit : Hit} (h : (idnArm u cfg qName).1 = some hit) :
    hit.rank = BlockBand.feed.prio := by
  simp only [idnArm] at h
  split at h
  · obtain rfl := Option.some.inj h
    rfl
  · split at h
    · split at h
      · obtain rfl := Option.some.inj h
        rfl
      · cases h
      · cases h
    · cases h

theorem regexArm_eq_none (hflags : FlagsMatch cfg c) (h : regexArm cfg c qName = none)
    (hname : qName ≠ []) {key : Str} {rule : RegexPayload BlockBand}
    (hget : c.userRegexDb.get key = some rule ∨ c.regexDb.get key = some rule) :
    rule.search qName = false := by
  have hempty : qName.isEmpty = false := by simpa using hname
  simp only [regexArm, hempty, Bool.false_eq_true, if_false, Option.map_eq_none_iff,
    Option.or_eq_none_iff] at h
  rcases hget with hget | hget
  · have hflag : cfg.userRegexDB = true :=
      hflags.userRegexDB.trans ((Dict.nonempty_eq_true_iff _).mpr ⟨key, rule, hget⟩)
    exact firstRegexMatch_eq_none (by simpa [hflag] using h.1) hget
  · have hflag : cfg.regexDB = true :=
      hflags.regexDB.trans ((Dict.nonempty_eq_true_iff _).mpr ⟨key, rule, hget⟩)
    exact firstRegexMatch_eq_none (by simpa [hflag] using h.2) hget

theorem listArm_eq_none (hflags : FlagsMatch cfg c) (hblocking : cfg.pythonBlocking = true)
    (h : listArm cfg c qName = none) :
    c.dataDb.get qName = none ∧
      ∀ k, DottedSuffix k qName → zonePayload c.zoneDb qName k = none := by
  simp only [listArm, hblocking, if_true, Option.or_eq_none_iff, Option.map_eq_none_iff,
    guarded_get hflags.dataDB] at h
  refine ⟨h.1, fun k hk => ?_⟩
  cases hflag : cfg.zoneDB with
  | true => exact findZoneMatch_eq_none (by simpa [hflag] using h.2) hk
  | false =>
      rw [zonePayload,
        Dict.get_eq_none_of_nonempty_eq_false (hflags.zoneDB.symm.trans hflag) k]
      rfl

/-- Where discovery finds nothing, nothing blocks the name. -/
theorem not_blocks_of_discover (hflags : FlagsMatch cfg c) (hblocking : cfg.pythonBlocking = true)
    (h : (discover u qName tld cfg c).1 = none) (hit : Hit) : ¬ Blocks u cfg c qName tld hit := by
  unfold discover at h
  split at h
  · cases h
  · rename_i hlist
    obtain ⟨hdata, hzone⟩ := listArm_eq_none hflags hblocking hlist
    split at h
    · cases h
    · rename_i htld
      split at h
      · cases h
      · rename_i hidn
        intro hblocks
        cases hblocks with
        | data entry hget => simp [hdata] at hget
        | zone k entry hk hget => simp [hzone k hk] at hget
        | userRegex key rule hname hget hsearch =>
            rw [regexArm_eq_none hflags h hname (Or.inl hget)] at hsearch
            cases hsearch
        | feedRegex key rule hname hget hsearch =>
            rw [regexArm_eq_none hflags h hname (Or.inr hget)] at hsearch
            cases hsearch
        | tldAllow hit harm => simp [htld] at harm
        | idn hit harm => simp [hidn] at harm

/-! ### The second scan -/

/-- What the second scan looks at: everything but the built-in arms and the rules the
prefilter holds back. -/
def scanned (pf : Prefilter) (u : Unicode) (cfg : Cfg) (c : Containers) (qName : Str) : Set Hit :=
  ∅ ∪ {hit | (c.dataDb.get qName).map (dataHit c qName) = some hit} ∪
    {hit | ∃ q ∈ iterDomainSuffixes qName,
      (zonePayload c.zoneDb qName q).map (zoneHit c q) = some hit} ∪
    {hit | qName ≠ [] ∧ ∃ key rule, (c.userRegexDb.get key = some rule ∧
      pf.passes u rule.pattern qName = true ∧ rule.search qName = true) ∧
      hit = regexHit cfg qName key rule} ∪
    {hit | qName ≠ [] ∧ ∃ key rule, (c.regexDb.get key = some rule ∧
      pf.passes u rule.pattern qName = true ∧ rule.search qName = true) ∧
      hit = regexHit cfg qName key rule}

/-- One regex list of the second scan. -/
theorem holds_regexScan {flag : Bool} {db : RegexDb BlockBand} (hflag : flag = db.nonempty)
    (hname : qName ≠ []) {s : Set Hit} {holder : Option Hit} (h : Holds Hit.rank s holder) :
    Holds Hit.rank
      (s ∪ {hit | qName ≠ [] ∧ ∃ key rule, (db.get key = some rule ∧
        pf.passes u rule.pattern qName = true ∧ rule.search qName = true) ∧
        hit = regexHit cfg qName key rule})
      ((if flag then regexMatches pf u db qName else []).foldl
        (fun holder hit => offer Hit.rank holder (some (regexHit cfg qName hit.1 hit.2)))
          holder) := by
  refine (h.foldl (fun hit : Str × RegexPayload BlockBand =>
    some (regexHit cfg qName hit.1 hit.2)) _).congr ?_
  congr 1
  ext hit
  simp only [Set.mem_ofPred_eq, Option.some.injEq, ne_eq, hname, not_false_eq_true, true_and]
  constructor
  · rintro ⟨⟨key, rule⟩, hmem, rfl⟩
    split at hmem
    · exact ⟨key, rule, mem_regexMatches_iff.mp hmem, rfl⟩
    · cases hmem
  · rintro ⟨key, rule, hrule, rfl⟩
    have hnonempty : flag = true :=
      hflag.trans ((Dict.nonempty_eq_true_iff _).mpr ⟨key, rule, hrule.1⟩)
    exact ⟨(key, rule), by simpa [hnonempty] using mem_regexMatches_iff.mpr hrule, rfl⟩

theorem holds_scanBlockBand (pf : Prefilter) (u : Unicode) (hflags : FlagsMatch cfg c)
    (qName : Str) :
    Holds Hit.rank (scanned pf u cfg c qName) (scanBlockBand pf u qName cfg c) := by
  have hempty : Holds Hit.rank ∅ none := holds_empty
  have hdata := hempty.offer
    ((if cfg.dataDB then c.dataDb.get qName else none).map (dataHit c qName))
  rw [guarded_get hflags.dataDB] at hdata
  have hzones : (if cfg.zoneDB then iterDomainSuffixes qName else []) = iterDomainSuffixes qName ∨
      ∀ q, zonePayload c.zoneDb qName q = none := by
    cases hflag : cfg.zoneDB with
    | true => exact Or.inl rfl
    | false =>
        refine Or.inr fun q => ?_
        rw [zonePayload, Dict.get_eq_none_of_nonempty_eq_false (hflags.zoneDB.symm.trans hflag) q]
        rfl
  have hzone := hdata.foldl (fun q => (zonePayload c.zoneDb qName q).map (zoneHit c q))
    (if cfg.zoneDB then iterDomainSuffixes qName else [])
  replace hzone := hzone.congr
      (t := ∅ ∪ {hit | (c.dataDb.get qName).map (dataHit c qName) = some hit} ∪
      {hit | ∃ q ∈ iterDomainSuffixes qName,
        (zonePayload c.zoneDb qName q).map (zoneHit c q) = some hit}) (by
    rcases hzones with h | h
    · rw [h]
    · simp [h])
  unfold scanBlockBand
  rw [guarded_get hflags.dataDB]
  dsimp only
  split
  · rename_i hempty
    have hname : qName = [] := by simpa using hempty
    exact hzone.congr (by simp [scanned, hname])
  · rename_i hempty
    have hname : qName ≠ [] := by simpa using hempty
    exact holds_regexScan hflags.regexDB hname (holds_regexScan hflags.userRegexDB hname hzone)

theorem blocks_of_scanned {hit : Hit} (h : hit ∈ scanned pf u cfg c qName) :
    Blocks u cfg c qName tld hit := by
  rcases h with (((h | h) | h) | h) | h
  · exact h.elim
  · obtain ⟨entry, hentry, rfl⟩ := Option.map_eq_some_iff.mp h
    exact .data entry hentry
  · obtain ⟨q, hq, hentry⟩ := h
    obtain ⟨entry, hget, rfl⟩ := Option.map_eq_some_iff.mp hentry
    exact .zone q entry ((mem_ancestors_iff _ _).mp hq) hget
  · obtain ⟨hname, key, rule, ⟨hget, -, hsearch⟩, rfl⟩ := h
    exact .userRegex key rule hname hget hsearch
  · obtain ⟨hname, key, rule, ⟨hget, -, hsearch⟩, rfl⟩ := h
    exact .feedRegex key rule hname hget hsearch

/-- What the scan does not look at has the lowest band. -/
theorem scanned_or_lowest (hpf : Prefiltered pf u c) {hit : Hit}
    (h : Blocks u cfg c qName tld hit) :
    hit ∈ scanned pf u cfg c qName ∨ hit.rank = BlockBand.feed.prio := by
  cases h with
  | data entry hget => exact Or.inl (Or.inl (Or.inl (Or.inl (Or.inr (by simp [hget])))))
  | zone k entry hk hget =>
      exact Or.inl (Or.inl (Or.inl (Or.inr ⟨k, (mem_ancestors_iff _ _).mpr hk, by simp [hget]⟩)))
  | userRegex key rule hname hget hsearch =>
      exact Or.inl (Or.inl (Or.inr ⟨hname, key, rule,
        ⟨hget, hpf.userRegexDb key rule hget qName hsearch, hsearch⟩, rfl⟩))
  | feedRegex key rule hname hget hsearch =>
      exact Or.inl (Or.inr ⟨hname, key, rule,
        ⟨hget, hpf.regexDb key rule hget qName hsearch, hsearch⟩, rfl⟩)
  | tldAllow hit harm => exact Or.inr (tldAllowHit_rank harm)
  | idn hit harm => exact Or.inr (idnArm_rank harm)

theorem lowest_le_rank (hit : Hit) : BlockBand.feed.prio ≤ hit.rank := hit.band.prio_pos

/-- The block resolved is one of the highest band. -/
theorem outranked_greatest (hflags : FlagsMatch cfg c) (hpf : Prefiltered pf u c) {hit : Hit}
    (hdiscover : (discover u qName tld cfg c).1 = some hit) :
    Blocks u cfg c qName tld (outranked hit (scanBlockBand pf u qName cfg c)) ∧
      ∀ h, Blocks u cfg c qName tld h →
        h.rank ≤ (outranked hit (scanBlockBand pf u qName cfg c)).rank := by
  have hscan := holds_scanBlockBand pf u hflags qName
  have hhit := blocks_of_discover hdiscover
  unfold outranked
  split
  · rename_i hnone
    refine ⟨hhit, fun h hblocks => ?_⟩
    rcases scanned_or_lowest hpf hblocks with hs | hlow
    · obtain ⟨_, hsome, -⟩ := hscan.outranks h hs
      rw [hnone] at hsome
      cases hsome
    · exact hlow ▸ lowest_le_rank hit
  · rename_i held hheld
    have hle : ∀ h, Blocks u cfg c qName tld h → h.rank ≤ held.rank := fun h hblocks => by
      rcases scanned_or_lowest hpf hblocks with hs | hlow
      · obtain ⟨_, hsome, hle⟩ := hscan.outranks h hs
        rw [hheld] at hsome
        exact Option.some.inj hsome ▸ hle
      · exact hlow ▸ lowest_le_rank held
    split
    · exact ⟨blocks_of_scanned (hscan.mem held hheld), hle⟩
    · rename_i hlt
      exact ⟨hhit, fun h hblocks => (hle h hblocks).trans (not_lt.mp hlt)⟩

/-! ### The allow band -/

theorem top_whiteFold (db : WhiteDb) (tldSeg : Int) (names : List Str) {s : Set Nat} {a : Nat}
    (h : Top s a) :
    Top (s ∪ {r | ∃ n ∈ names, r ∈ whiteBands db tldSeg n})
      (names.foldl (fun best n => max best (whitelistLookupBand n db tldSeg)) a) := by
  induction names generalizing s a with
  | nil => exact h.congr (by simp)
  | cons n names ih =>
      rw [List.foldl_cons]
      refine (ih (h.union (top_whitelistLookupBand n db tldSeg))).congr ?_
      ext r
      simp only [Set.mem_union, Set.mem_ofPred_eq, List.mem_cons, exists_eq_or_imp, or_assoc]

theorem whiteBands_of_empty {db : WhiteDb} (h : db.nonempty = false) (tldSeg : Int) (name : Str) :
    whiteBands db tldSeg name = ∅ := by
  ext r
  simp only [whiteBands, Matches, Dict.get_eq_none_of_nonempty_eq_false h]
  simp

/-- Bands of the allow regexes that match and that the prefilter lets through. -/
def passingBands (pf : Prefilter) (u : Unicode) (db : RegexDb AllowBand) (qName : Str) : Set Nat :=
  {r | qName ≠ [] ∧ ∃ key rule, (db.get key = some rule ∧
    pf.passes u rule.pattern qName = true ∧ rule.search qName = true) ∧ r = rule.band.prio}

theorem passingBands_subset (db : RegexDb AllowBand) :
    passingBands pf u db qName ⊆ allowRegexBands db qName := by
  rintro r ⟨hname, key, rule, ⟨hget, -, hsearch⟩, rfl⟩
  exact ⟨hname, key, rule, hget, hsearch, rfl⟩

theorem passingBands_eq {db : RegexDb AllowBand} (hpf : PrefilterSound pf u db) :
    passingBands pf u db qName = allowRegexBands db qName := by
  refine (passingBands_subset db).antisymm ?_
  rintro r ⟨hname, key, rule, hget, hsearch, rfl⟩
  exact ⟨hname, key, rule, ⟨hget, hpf key rule hget qName hsearch, hsearch⟩, rfl⟩

/-- Bands of the allows the matcher sees. -/
def allowsSeen (pf : Prefilter) (u : Unicode) (c : Containers) (tldSeg : Int)
    (qName qNameOriginal : Str) (isCname : Bool) : Set Nat :=
  {r | ∃ n ∈ allowNames qName qNameOriginal isCname, r ∈ whiteBands c.whiteDb tldSeg n} ∪
    (passingBands pf u c.userAllowRegexDb qName ∪ passingBands pf u c.allowRegexDb qName)

theorem passingBands_of_empty {db : RegexDb AllowBand} (h : db.nonempty = false) :
    passingBands pf u db qName = ∅ := by
  ext r
  simp only [passingBands, Dict.get_eq_none_of_nonempty_eq_false h]
  simp

theorem top_bestAllowRegex (pf : Prefilter) (u : Unicode) (db : RegexDb AllowBand)
    (hname : qName ≠ []) {s : Set Nat} {best : Nat}
    (h : Top s best) :
    Top (s ∪ passingBands pf u db qName)
      (if db.nonempty then bestAllowRegex pf u db qName best else best) := by
  split
  · refine (h.foldl (fun hit : Str × RegexPayload AllowBand => some hit.2.band.prio)
      (regexMatches pf u db qName)).congr ?_
    congr 1
    ext r
    simp only [passingBands, Set.mem_ofPred_eq, Option.some.injEq, ne_eq, hname,
      not_false_eq_true, true_and]
    constructor
    · rintro ⟨⟨key, rule⟩, hmem, rfl⟩
      exact ⟨key, rule, mem_regexMatches_iff.mp hmem, rfl⟩
    · rintro ⟨key, rule, hrule, rfl⟩
      exact ⟨(key, rule), mem_regexMatches_iff.mpr hrule, rfl⟩
  · rename_i hempty
    rw [passingBands_of_empty (by simpa using hempty), Set.union_empty]
    exact h

theorem top_scanAllowRegexBand :
    Top (passingBands pf u c.userAllowRegexDb qName ∪ passingBands pf u c.allowRegexDb qName)
      (scanAllowRegexBand pf u qName c.allowRegexDb c.userAllowRegexDb) := by
  unfold scanAllowRegexBand
  split
  · rename_i hempty
    have hname : qName = [] := by simpa using hempty
    exact top_empty.congr (by simp [passingBands, hname])
  · rename_i hempty
    have hname : qName ≠ [] := by simpa using hempty
    have huser := top_bestAllowRegex pf u c.userAllowRegexDb hname
      (show Top (∅ : Set Nat) 0 from top_empty)
    exact (top_bestAllowRegex pf u c.allowRegexDb hname huser).congr (by rw [Set.empty_union])

/-- The allow band is the highest band among the allows the matcher sees. -/
theorem top_allowsSeen (pf : Prefilter) (u : Unicode) (hflags : FlagsMatch cfg c)
    (qName qNameOriginal : Str) (isCname : Bool) :
    Top (allowsSeen pf u c cfg.pythonTldSeg qName qNameOriginal isCname)
      (allowBand pf u qName qNameOriginal isCname cfg c) := by
  have hwhite : Top {r | ∃ n ∈ allowNames qName qNameOriginal isCname,
      r ∈ whiteBands c.whiteDb cfg.pythonTldSeg n}
      (if cfg.whiteDB then
        (allowNames qName qNameOriginal isCname).foldl
          (fun best n => max best (whitelistLookupBand n c.whiteDb cfg.pythonTldSeg)) 0
      else 0) := by
    split
    · have hfold := top_whiteFold c.whiteDb cfg.pythonTldSeg
        (allowNames qName qNameOriginal isCname) (a := 0) top_empty
      exact hfold.congr (Set.empty_union _)
    · rename_i hflag
      have hempty : c.whiteDb.nonempty = false := by simpa [← hflags.whiteDB] using hflag
      exact top_empty.congr (by simp [whiteBands_of_empty hempty])
  unfold allowsSeen allowBand
  dsimp only
  split
  · exact hwhite.union top_scanAllowRegexBand
  · rename_i hflag
    simp only [hflags.userAllowRegexDB, hflags.allowRegexDB, Bool.or_eq_true, not_or,
      Bool.not_eq_true] at hflag
    rw [passingBands_of_empty hflag.1, passingBands_of_empty hflag.2, Set.union_empty,
      Set.union_empty]
    exact hwhite

/-- With a sound prefilter, that is everything that allows the name. -/
theorem top_allowBand (hflags : FlagsMatch cfg c) (hpf : Prefiltered pf u c)
    (qName qNameOriginal : Str) (isCname : Bool) :
    Top (allowBands c cfg.pythonTldSeg qName qNameOriginal isCname)
      (allowBand pf u qName qNameOriginal isCname cfg c) := by
  refine (top_allowsSeen pf u hflags qName qNameOriginal isCname).congr ?_
  rw [allowsSeen, passingBands_eq hpf.userAllowRegexDb, passingBands_eq hpf.allowRegexDb,
    allowBands]

/-! ### Resolution -/

/-- The block the numeric path resolves, with its band. -/
def blockResolved (pf : Prefilter) (u : Unicode) (qName tld : Str) (cfg : Cfg) (c : Containers) :
    Option Hit :=
  (discover u qName tld cfg c).1.map fun hit => outranked hit (scanBlockBand pf u qName cfg c)

theorem blocked_numeric {qNameOriginal : Str} {isCname : Bool}
    (himportant : cfg.importantRules = true) :
    (evaluateDomain pf u qName qNameOriginal tld isCname cfg c).blocked = true ↔
      ∃ hit, blockResolved pf u qName tld cfg c = some hit ∧
        allowBand pf u qName qNameOriginal isCname cfg c < hit.rank := by
  unfold blockResolved evaluateDomain
  cases hfound : discover u qName tld cfg c with
  | mk found alert =>
      cases found with
      | none => simp [DnsblDecision.blocked, notFound]
      | some hit =>
          simp only [himportant, if_true, resolveNumericAllow, decide_eq_true_eq, Option.map_some,
            Option.some.injEq, exists_eq_left']
          split
          · rename_i hle
            exact iff_of_false (by simp [DnsblDecision.blocked, whitelisted]) (not_lt.mpr hle)
          · rename_i hlt
            exact iff_of_true (by simp [DnsblDecision.blocked, shape]) (not_le.mp hlt)

/-- What the second scan sees does not outrank the block resolved. -/
theorem rank_le_blockResolved (hflags : FlagsMatch cfg c) (hblocking : cfg.pythonBlocking = true)
    (tld : Str) {hit : Hit} (h : hit ∈ scanned pf u cfg c qName) :
    ∃ hit', blockResolved pf u qName tld cfg c = some hit' ∧ hit.rank ≤ hit'.rank := by
  unfold blockResolved
  cases hfound : (discover u qName tld cfg c).1 with
  | none => exact absurd (blocks_of_scanned h) (not_blocks_of_discover hflags hblocking hfound hit)
  | some found =>
      obtain ⟨held, hheld, hle⟩ := (holds_scanBlockBand pf u hflags qName).outranks hit h
      refine ⟨_, rfl, ?_⟩
      unfold outranked
      rw [hheld]
      dsimp only
      split
      · exact hle
      · rename_i hlt
        exact hle.trans (not_lt.mp hlt)

/-- The decision reports a block as `hit`. -/
def ReportedAs (d : DnsblDecision) (hit : Hit) : Prop :=
  d.logType = some hit.logType ∧ d.feed = hit.feed ∧ d.group = hit.group

/-- The numeric path blocks exactly when the highest block band exceeds the highest
allow band, and reports a block of that band. -/
theorem blocked_iff_highest_band (hflags : FlagsMatch cfg c) (hpf : Prefiltered pf u c)
    (hblocking : cfg.pythonBlocking = true) (himportant : cfg.importantRules = true)
    (qName qNameOriginal tld : Str) (isCname : Bool) :
    ∃ B A, Top (blockBands u cfg c qName tld) B ∧
      Top (allowBands c cfg.pythonTldSeg qName qNameOriginal isCname) A ∧
      ((evaluateDomain pf u qName qNameOriginal tld isCname cfg c).blocked = true ↔ A < B) ∧
      ((evaluateDomain pf u qName qNameOriginal tld isCname cfg c).blocked = true →
        ∃ hit, Blocks u cfg c qName tld hit ∧ hit.rank = B ∧
          ReportedAs (evaluateDomain pf u qName qNameOriginal tld isCname cfg c) hit) := by
  have hallow := top_allowBand hflags hpf qName qNameOriginal isCname
  rw [blocked_numeric himportant]
  cases hfound : discover u qName tld cfg c with
  | mk found alert =>
      cases found with
      | none =>
          have hnone := not_blocks_of_discover hflags hblocking (by rw [hfound])
          have hbands : Top (blockBands u cfg c qName tld) 0 :=
            top_empty.congr (by simp [blockBands, hnone])
          exact ⟨0, _, hbands, hallow, by simp [blockResolved, hfound], by
            simp [blockResolved, hfound]⟩
      | some hit =>
          obtain ⟨hblocks, hgreatest⟩ := outranked_greatest hflags hpf
            (show (discover u qName tld cfg c).1 = some hit by rw [hfound])
          have hbands : Top (blockBands u cfg c qName tld)
              (outranked hit (scanBlockBand pf u qName cfg c)).rank :=
            top_intro (Or.inr ⟨_, hblocks, rfl⟩) fun r ⟨h, hh, hr⟩ => hr ▸ hgreatest h hh
          refine ⟨_, _, hbands, hallow, by simp [blockResolved, hfound], ?_⟩
          rintro ⟨hit', hsome, hlt⟩
          obtain rfl : outranked hit (scanBlockBand pf u qName cfg c) = hit' := by
            simpa [blockResolved, hfound] using hsome
          refine ⟨_, hblocks, rfl, ?_⟩
          simp only [evaluateDomain, hfound, himportant, if_true, resolveNumericAllow,
            decide_eq_true_eq, not_le.mpr hlt, if_false]
          exact ⟨rfl, rfl, rfl⟩

/-- Custom lists block a name that a feed allows with `$important`. -/
def contested : Containers :=
  { Containers.empty with
    dataDb := Dict.empty.set "a.example".toList ⟨"0".toList, 0, false, .user⟩
    whiteDb := Dict.empty.set "example".toList (.rule true true (some .feedImportant) none) }

theorem blocked_iff_highest_band_contested :
    ∃ B A, Top (blockBands asciiOnly (Cfg.ofContainers { Cfg.listsOnly with importantRules := true }
        contested) contested "a.example".toList "example".toList) B ∧
      Top (allowBands contested 1 "a.example".toList "a.example".toList false) A ∧
      ((evaluateDomain .alwaysRun asciiOnly "a.example".toList "a.example".toList
          "example".toList false (Cfg.ofContainers { Cfg.listsOnly with importantRules := true }
          contested) contested).blocked = true ↔ A < B) := by
  obtain ⟨B, A, hB, hA, hiff, -⟩ := blocked_iff_highest_band
    (flagsMatch_ofContainers { Cfg.listsOnly with importantRules := true } contested)
    (prefiltered_alwaysRun asciiOnly contested) rfl rfl
    "a.example".toList "a.example".toList "example".toList false
  exact ⟨B, A, hB, hA, hiff⟩

/-- Bands of the rules of a block-regex list that match a name, the empty one included. -/
def matchingRegexBands (db : RegexDb BlockBand) (qName : Str) : Set Nat :=
  {r | ∃ key rule, db.get key = some rule ∧ rule.search qName = true ∧ r = rule.band.prio}

/-- The user rule `^$`. -/
def emptyNameRule : RegexPayload BlockBand where
  pattern := "^$".toList
  re := .cat (.zero .caret) (.zero .dollar)
  important := false
  band := .user

def emptyNameBlocked : Containers :=
  { Containers.empty with userRegexDb := Dict.empty.set "rule".toList emptyNameRule }

/-- Were the empty name put to the regexes, a user rule `^$` would block it; the matcher
lets it through. -/
theorem empty_name_skips_regexes :
    ¬ ∀ (pf : Prefilter) (u : Unicode) (cfg : Cfg) (c : Containers), FlagsMatch cfg c →
      Prefiltered pf u c → cfg.pythonBlocking = true → cfg.importantRules = true →
      ∀ (qName qNameOriginal tld : Str) (isCname : Bool) (B A : Nat),
        Top (blockBands u cfg c qName tld ∪ matchingRegexBands c.userRegexDb qName ∪
          matchingRegexBands c.regexDb qName) B →
        Top (allowBands c cfg.pythonTldSeg qName qNameOriginal isCname) A →
        ((evaluateDomain pf u qName qNameOriginal tld isCname cfg c).blocked = true ↔ A < B) := by
  intro h
  have hflags := flagsMatch_ofContainers { Cfg.listsOnly with importantRules := true }
    emptyNameBlocked
  have hpf := prefiltered_alwaysRun asciiOnly emptyNameBlocked
  have hallow := top_allowBand hflags hpf [] [] false
  have hblock : Top (blockBands asciiOnly
      (Cfg.ofContainers { Cfg.listsOnly with importantRules := true } emptyNameBlocked)
        emptyNameBlocked [] [] ∪
        matchingRegexBands emptyNameBlocked.userRegexDb [] ∪
        matchingRegexBands emptyNameBlocked.regexDb []) 5 := by
    refine top_intro
      (Or.inr (Or.inl (Or.inr ⟨"rule".toList, emptyNameRule, rfl, by decide, rfl⟩))) ?_
    rintro r ((⟨hit, -, rfl⟩ | ⟨_, rule, -, -, rfl⟩) | ⟨_, rule, -, -, rfl⟩)
    · exact hit.band.prio_le
    · exact rule.band.prio_le
    · exact rule.band.prio_le
  have hiff := h .alwaysRun asciiOnly _ emptyNameBlocked hflags hpf rfl rfl [] [] [] false 5 _
    hblock hallow
  exact absurd (hiff.mpr (by decide)) (by decide)

end PfBlockerNG.Precedence
