import PfBlockerNG.AllowMerge

/-!
When one more allow in the input of a build can leave a name blocked that was let
through: the allow is an exact one that outranks the wildcard the name rested on.
-/

namespace PfBlockerNG.AllowMonotone

open PfBlockerNG.Strings
open PfBlockerNG.PyText
open PfBlockerNG.OrderedDict
open PfBlockerNG.Bands
open PfBlockerNG.TopElement
open PfBlockerNG.Whitelist
open PfBlockerNG.Matcher
open PfBlockerNG.Precedence
open PfBlockerNG.Build
open PfBlockerNG.BlockStores
open PfBlockerNG.BlockWrites (tracks_build)
open PfBlockerNG.FastPath
open PfBlockerNG.BlockBands
open PfBlockerNG.AllowStores
open PfBlockerNG.AllowMerge

variable {u : Unicode} {manifest manifest' : List FeedRow} {config config' : Config}
  {added : Option Allow} {pf : Prefilter} {cfg : Cfg} {c : Containers}
  {qName qNameOriginal tld : Str} {isCname : Bool}

/-! ### The band of the block resolved -/

theorem map_band_dataDb (h : SameBlocks u manifest config manifest' config') (k : Str) :
    ((build u manifest' config').dataDb.get k).map (·.band) =
      ((build u manifest config).dataDb.get k).map (·.band) := by
  rw [build_dataDb, build_dataDb, (tracks_build u manifest' config').data,
    (tracks_build u manifest config).data, h.emissions]

theorem map_band_zonePayload (h : SameBlocks u manifest config manifest' config') (n k : Str) :
    (zonePayload (build u manifest' config').zoneDb n k).map (·.band) =
      (zonePayload (build u manifest config).zoneDb n k).map (·.band) := by
  rw [build_zoneDb, build_zoneDb, band_zonePayload (tracks_build u manifest' config'),
    band_zonePayload (tracks_build u manifest config), h.emissions, h.filter]

theorem nonempty_dataDb (h : SameBlocks u manifest config manifest' config') :
    (build u manifest' config').dataDb.nonempty = (build u manifest config).dataDb.nonempty :=
  Dict.nonempty_eq_of_map_eq (map_band_dataDb h)

theorem nonempty_zoneDb (h : SameBlocks u manifest config manifest' config') :
    (build u manifest' config').zoneDb.nonempty = (build u manifest config).zoneDb.nonempty := by
  refine Dict.nonempty_eq_of_map_eq (f := (·.payload.band)) (g := (·.payload.band)) fun k => ?_
  rw [build_zoneDb, build_zoneDb, band_markedZones (tracks_build u manifest' config'),
    band_markedZones (tracks_build u manifest config), h.emissions]

/-- The band of the block the lists find. -/
theorem rank_listArm (cfg : Cfg) (c : Containers) (n : Str) :
    (listArm cfg c n).map Hit.rank =
      if cfg.pythonBlocking then
        ((if cfg.dataDB then (c.dataDb.get n).map (·.band) else none).or
          (if cfg.zoneDB then (iterDomainSuffixes n).findSome? fun q =>
            (zonePayload c.zoneDb n q).map (·.band) else none)).map BlockBand.prio
      else none := by
  unfold listArm
  split
  · rw [Option.map_or, Option.map_or]
    congr 1
    · split <;> simp [Option.map_map, Function.comp_def, Hit.rank, dataHit, entryHit]
    · split
      · simp [findZoneMatch, List.map_findSome?, Function.comp_def, Hit.rank, zoneHit, entryHit]
      · rfl
  · rfl

/-- Two such builds differ in the flag of the whitelist and the choice of the path. -/
theorem cfg_eq (h : SameBlocks u manifest config manifest' config') (cfg : Cfg) (c : Containers) :
    (build u manifest' config').cfg cfg c =
      { (build u manifest config).cfg cfg c with
        whiteDB := (build u manifest' config').whiteDb.nonempty
        importantRules := (build u manifest' config').importantRules } := by
  have hlog : (build u manifest' config').builtinLogFlag =
      (build u manifest config).builtinLogFlag :=
    h.builtinLogFlag
  simp only [BuildResult.cfg, Cfg.ofContainers, BuildResult.containers, nonempty_dataDb h,
    nonempty_zoneDb h, h.regexDb, h.userRegexDb, h.allowRegexDb, h.userAllowRegexDb, hlog]

theorem containers_eq (h : SameBlocks u manifest config manifest' config') (c : Containers) :
    (build u manifest' config').containers c =
      { (build u manifest config).containers c with
        dataDb := (build u manifest' config').dataDb
        zoneDb := (build u manifest' config').zoneDb
        whiteDb := (build u manifest' config').whiteDb
        feedGroupIndexDb := (build u manifest' config').feedGroupIndexDb } := by
  have hpsl : (build u manifest' config').pslRules = (build u manifest config).pslRules :=
    h.pslRules
  simp only [BuildResult.containers, h.regexDb, h.userRegexDb, h.allowRegexDb, h.userAllowRegexDb,
    hpsl]

theorem rank_listArm_eq (h : SameBlocks u manifest config manifest' config') :
    (listArm ((build u manifest' config').cfg cfg c) ((build u manifest' config').containers c)
        qName).map Hit.rank =
      (listArm ((build u manifest config).cfg cfg c) ((build u manifest config).containers c)
        qName).map Hit.rank := by
  rw [rank_listArm, rank_listArm, cfg_eq h, containers_eq h]
  simp only [map_band_dataDb h, map_band_zonePayload h]
  rfl

theorem discover_fst (u : Unicode) (n tld : Str) (cfg : Cfg) (c : Containers) :
    (discover u n tld cfg c).1 =
      (listArm cfg c n).or ((tldAllowHit u cfg c n tld).or ((idnArm u cfg n).1.or
        (regexArm cfg c n))) := by
  unfold discover
  cases listArm cfg c n with
  | some hit => rfl
  | none =>
      cases tldAllowHit u cfg c n tld with
      | some hit => rfl
      | none =>
          cases harm : idnArm u cfg n with
          | mk found alert => cases found <;> rfl

/-- The arms other than the lists read neither the whitelist nor the choice of the path. -/
theorem arms_frame (u : Unicode) (qName tld : Str) (cfg : Cfg) (c : Containers)
    (white important : Bool)
    (dataDb : Dict Str BlockPayload) (zoneDb : Dict Str ZoneEntry) (whiteDb : WhiteDb)
    (feedGroupIndexDb : Dict Nat FeedGroup) :
    tldAllowHit u { cfg with whiteDB := white, importantRules := important }
        { c with
          dataDb := dataDb
          zoneDb := zoneDb
          whiteDb := whiteDb
          feedGroupIndexDb := feedGroupIndexDb } qName tld = tldAllowHit u cfg c qName tld ∧
      idnArm u { cfg with whiteDB := white, importantRules := important } qName =
        idnArm u cfg qName ∧
      regexArm { cfg with whiteDB := white, importantRules := important }
        { c with
          dataDb := dataDb
          zoneDb := zoneDb
          whiteDb := whiteDb
          feedGroupIndexDb := feedGroupIndexDb } qName = regexArm cfg c qName :=
  ⟨rfl, rfl, rfl⟩

theorem rank_discover_eq (h : SameBlocks u manifest config manifest' config') :
    (discover u qName tld ((build u manifest' config').cfg cfg c)
        ((build u manifest' config').containers c)).1.map Hit.rank =
      (discover u qName tld ((build u manifest config).cfg cfg c)
        ((build u manifest config).containers c)).1.map Hit.rank := by
  simp only [discover_fst, Option.map_or, rank_listArm_eq h]
  rw [cfg_eq h, containers_eq h]
  obtain ⟨htld, hidn, hregex⟩ := arms_frame u qName tld
    ((build u manifest config).cfg cfg c) ((build u manifest config).containers c)
    (build u manifest' config').whiteDb.nonempty (build u manifest' config').importantRules
    (build u manifest' config').dataDb (build u manifest' config').zoneDb
    (build u manifest' config').whiteDb (build u manifest' config').feedGroupIndexDb
  rw [htld, hidn, hregex]

theorem rank_entryHit {o o' : Option BlockPayload} (h : o.map (·.band) = o'.map (·.band))
    (c c' : Containers) (bType bEval : Str) :
    (o.map fun e => entryHit c e bType bEval).map Hit.rank =
      (o'.map fun e => entryHit c' e bType bEval).map Hit.rank := by
  cases o <;> cases o' <;> simp_all [Hit.rank, entryHit]

theorem rank_scanBlockBand_eq (h : SameBlocks u manifest config manifest' config') :
    (scanBlockBand pf u qName ((build u manifest' config').cfg cfg c)
        ((build u manifest' config').containers c)).map Hit.rank =
      (scanBlockBand pf u qName ((build u manifest config).cfg cfg c)
        ((build u manifest config).containers c)).map Hit.rank := by
  have hdata : ((if ((build u manifest config).cfg cfg c).dataDB then
        (build u manifest' config').dataDb.get qName else none).map
        (dataHit ((build u manifest' config').containers c) qName)).map Hit.rank =
      ((if ((build u manifest config).cfg cfg c).dataDB then
        (build u manifest config).dataDb.get qName else none).map
        (dataHit ((build u manifest config).containers c) qName)).map Hit.rank := by
    refine rank_entryHit ?_ _ _ _ _
    split
    · exact map_band_dataDb h qName
    · rfl
  have hzones : ∀ q, ((zonePayload (build u manifest' config').zoneDb qName q).map
        (zoneHit ((build u manifest' config').containers c) q)).map Hit.rank =
      ((zonePayload (build u manifest config).zoneDb qName q).map
        (zoneHit ((build u manifest config).containers c) q)).map Hit.rank := fun q =>
    rank_entryHit (map_band_zonePayload h qName q) _ _ _ _
  have hlists := map_foldl_offer hzones
    (if ((build u manifest config).cfg cfg c).zoneDB then iterDomainSuffixes qName else [])
    (map_offer (show Option.map Hit.rank none = Option.map Hit.rank none from rfl) hdata)
  unfold scanBlockBand
  rw [cfg_eq h]
  dsimp only
  split
  · exact hlists
  · rw [containers_eq h]
    rw [containers_eq h] at hlists
    exact map_foldl_offer (fun _ => rfl) _ (map_foldl_offer (fun _ => rfl) _ hlists)

theorem rank_outranked (hit : Hit) (scanned : Option Hit) :
    (outranked hit scanned).rank = join hit.rank (scanned.map Hit.rank) := by
  unfold outranked join
  cases scanned with
  | none => rfl
  | some h =>
      simp only [Option.map_some]
      split
      · rename_i hlt
        exact (max_eq_right hlt.le).symm
      · rename_i hlt
        exact (max_eq_left (not_lt.mp hlt)).symm

theorem map_rank_blockResolved (pf : Prefilter) (n : Str) (cfg : Cfg) (c : Containers) :
    (blockResolved pf u n tld cfg c).map Hit.rank =
      ((discover u n tld cfg c).1.map Hit.rank).map fun r =>
        join r ((scanBlockBand pf u n cfg c).map Hit.rank) := by
  simp only [blockResolved, Option.map_map, Function.comp_def, rank_outranked]

/-- An allow leaves the band of the block resolved as it is. -/
theorem rank_blockResolved_eq (h : SameBlocks u manifest config manifest' config') :
    (blockResolved pf u qName tld ((build u manifest' config').cfg cfg c)
        ((build u manifest' config').containers c)).map Hit.rank =
      (blockResolved pf u qName tld ((build u manifest config).cfg cfg c)
        ((build u manifest config).containers c)).map Hit.rank := by
  rw [map_rank_blockResolved, map_rank_blockResolved, rank_discover_eq h, rank_scanBlockBand_eq h]

/-! ### The allows -/

/-- The allow added is joined to what its domain held. -/
theorem storedStrength_added (h : AddsAllow u manifest config manifest' config' added) (k : Str) :
    storedStrength (build u manifest' config').whiteDb k =
      join (storedStrength (build u manifest config).whiteDb k)
        ((added.filter fun a => a.domain = k).map Allow.strength) := by
  refine (strongest_build u manifest' config' k).unique
    (((strongest_build u manifest config k).join _).congr ?_)
  ext r
  simp only [strengthsFor, mem_allows_iff h, Set.mem_union, Set.mem_ofPred_eq, or_and_right,
    exists_or, Option.map_eq_some_iff, Option.filter_eq_some_iff, decide_eq_true_eq, and_assoc]
  exact or_congr_right (exists_congr fun _ => and_congr_right fun _ => and_congr_right fun _ =>
    eq_comm)

theorem entry_of_storedStrength {db db' : WhiteDb} {k : Str} {e : WhiteEntry}
    (h : storedStrength db k ≤ storedStrength db' k) (hget : db.get k = some e) :
    ∃ e', db'.get k = some e' ∧ entryStrength e ≤ entryStrength e' := by
  simp only [storedStrength, hget, Option.elim_some] at h
  cases hget' : db'.get k with
  | some e' => exact ⟨e', rfl, by simpa [hget'] using h⟩
  | none =>
      rw [hget'] at h
      exact absurd (strength_pos e.band e.wildcard) (not_lt.mpr h)

theorem whiteBands_subset_of_strength {db db' : WhiteDb}
    (h : ∀ k, storedStrength db k = storedStrength db' k) (tldSeg : Int) (name : Str) :
    whiteBands db tldSeg name ⊆ whiteBands db' tldSeg name := by
  rintro r ⟨e, hmatch, rfl⟩
  obtain ⟨k, hget, hreach⟩ := (matches_iff_reaches _ _ _ _).mp hmatch
  obtain ⟨e', hget', -⟩ := entry_of_storedStrength (h k).le hget
  have hsame : entryStrength e = entryStrength e' := by
    have hk := h k
    simpa [storedStrength, hget, hget'] using hk
  obtain ⟨hband, hwild⟩ := strength_inj hsame
  exact ⟨e', (matches_iff_reaches _ _ _ _).mpr ⟨k, hget', hwild ▸ hreach⟩, by rw [hband]⟩

/-- The matcher sees the band and the wildcard flag of an entry only. -/
theorem whiteBands_eq_of_strength {db db' : WhiteDb}
    (h : ∀ k, storedStrength db k = storedStrength db' k) (tldSeg : Int) (name : Str) :
    whiteBands db tldSeg name = whiteBands db' tldSeg name :=
  (whiteBands_subset_of_strength h tldSeg name).antisymm
    (whiteBands_subset_of_strength (fun k => (h k).symm) tldSeg name)

/-- The allows seen without the entry of `d`. -/
def seenWithout (d : Str) (pf : Prefilter) (u : Unicode) (c : Containers) (tldSeg : Int)
    (qName qNameOriginal : Str) (isCname : Bool) : Set Nat :=
  allowsSeen pf u { c with whiteDb := c.whiteDb.pop d } tldSeg qName qNameOriginal isCname

/-- The bands the entry of `d` allows the names with. -/
def seenThrough (d : Str) (c : Containers) (tldSeg : Int) (names : List Str) : Set Nat :=
  {r | ∃ e, c.whiteDb.get d = some e ∧ (∃ n ∈ names, Reaches tldSeg d n e.wildcard) ∧
    r = e.band.prio}

theorem allowsSeen_split (d : Str) (pf : Prefilter) (u : Unicode) (c : Containers) (tldSeg : Int)
    (qName qNameOriginal : Str) (isCname : Bool) :
    allowsSeen pf u c tldSeg qName qNameOriginal isCname =
      seenWithout d pf u c tldSeg qName qNameOriginal isCname ∪
        seenThrough d c tldSeg (allowNames qName qNameOriginal isCname) := by
  ext r
  have hwhite : (∃ n ∈ allowNames qName qNameOriginal isCname, r ∈ whiteBands c.whiteDb tldSeg n) ↔
      (∃ n ∈ allowNames qName qNameOriginal isCname, r ∈ whiteBands (c.whiteDb.pop d) tldSeg n) ∨
        r ∈ seenThrough d c tldSeg (allowNames qName qNameOriginal isCname) := by
    simp only [whiteBands, seenThrough, matches_iff_reaches, Set.mem_ofPred_eq, Dict.get_pop]
    constructor
    · rintro ⟨n, hn, e, ⟨k, hget, hreach⟩, rfl⟩
      by_cases hk : d = k
      · subst hk
        exact Or.inr ⟨e, hget, ⟨n, hn, hreach⟩, rfl⟩
      · exact Or.inl ⟨n, hn, e, ⟨k, by rwa [if_neg hk], hreach⟩, rfl⟩
    · rintro (⟨n, hn, e, ⟨k, hget, hreach⟩, rfl⟩ | ⟨e, hget, ⟨n, hn, hreach⟩, rfl⟩)
      · split at hget
        · cases hget
        · exact ⟨n, hn, e, ⟨k, hget, hreach⟩, rfl⟩
      · exact ⟨n, hn, e, ⟨d, hget, hreach⟩, rfl⟩
  simp only [allowsSeen, seenWithout, Set.mem_union, Set.mem_ofPred_eq, hwhite]
  exact or_right_comm

theorem allowsSeen_eq (h : SameBlocks u manifest config manifest' config') {db db' : WhiteDb}
    (hstrength : ∀ k, storedStrength db' k = storedStrength db k) (pf : Prefilter) (c : Containers)
    (tldSeg : Int) (qName qNameOriginal : Str) (isCname : Bool) :
    allowsSeen pf u { (build u manifest' config').containers c with whiteDb := db' } tldSeg qName
        qNameOriginal isCname =
      allowsSeen pf u { (build u manifest config).containers c with whiteDb := db } tldSeg qName
        qNameOriginal isCname := by
  simp only [allowsSeen, BuildResult.containers, whiteBands_eq_of_strength hstrength,
    h.allowRegexDb,
    h.userAllowRegexDb]

theorem storedStrength_pop (db : WhiteDb) (d k : Str) :
    storedStrength (db.pop d) k = if d = k then 0 else storedStrength db k := by
  unfold storedStrength
  rw [Dict.get_pop]
  split <;> rfl

/-- The block resolved is above every allow seen. -/
theorem build_blocked_iff_above (pf : Prefilter) (u : Unicode) (manifest : List FeedRow)
    (config : Config) (cfg : Cfg) (c : Containers) (qName qNameOriginal tld : Str)
    (isCname : Bool) :
    (evaluateDomain pf u qName qNameOriginal tld isCname ((build u manifest config).cfg cfg c)
        ((build u manifest config).containers c)).blocked = true ↔
      ∃ b, (blockResolved pf u qName tld ((build u manifest config).cfg cfg c)
          ((build u manifest config).containers c)).map Hit.rank = some b ∧
        ∀ r ∈ allowsSeen pf u ((build u manifest config).containers c) cfg.pythonTldSeg qName
          qNameOriginal isCname, r < b := by
  have hseen := top_allowsSeen pf u (flagsMatch_build (build u manifest config) cfg c) qName
    qNameOriginal isCname
  rw [build_blocked_iff rfl]
  simp only [Option.map_eq_some_iff]
  constructor
  · rintro ⟨hit, hsome, hlt⟩
    exact ⟨hit.rank, ⟨hit, hsome, rfl⟩, fun r hr => (hseen.le hr).trans_lt hlt⟩
  · rintro ⟨_, ⟨hit, hsome, rfl⟩, habove⟩
    refine ⟨hit, hsome, ?_⟩
    rcases hseen.eq_bot_or_mem with hbot | hmem
    · rw [hbot]
      exact hit.band.prio_pos
    · exact habove _ hmem

/-! ### The allow added -/

/-- The query rests on the wildcard of a domain for which an exact allow of a higher band
is added: the domain is above a name of the query and is none of them, with or without
`www.`, and no other allow reaches the band of the block. -/
def RestsOnWildcard (pf : Prefilter) (u : Unicode) (r : BuildResult) (cfg : Cfg) (c : Containers)
    (added : Option Allow) (qName qNameOriginal tld : Str) (isCname : Bool) : Prop :=
  ∃ a e b, added = some a ∧ r.whiteDb.get a.domain = some e ∧ e.wildcard = true ∧
    a.wildcard = false ∧ e.band.prio < a.band.prio ∧
    (∃ n ∈ allowNames qName qNameOriginal isCname, Reaches cfg.pythonTldSeg a.domain n true) ∧
    (∀ n ∈ allowNames qName qNameOriginal isCname, ¬ Reaches cfg.pythonTldSeg a.domain n false) ∧
    (blockResolved pf u qName tld (r.cfg cfg c) (r.containers c)).map Hit.rank = some b ∧
    b ≤ e.band.prio ∧
    ∀ s ∈ seenWithout a.domain pf u (r.containers c) cfg.pythonTldSeg qName qNameOriginal isCname,
      s < b

/-- The entry a domain is left with, when an allow is added for it. -/
theorem entry_added {a : Allow} (h : AddsAllow u manifest config manifest' config' (some a))
    {e : WhiteEntry} (hget : (build u manifest config).whiteDb.get a.domain = some e) :
    ∃ e', (build u manifest' config').whiteDb.get a.domain = some e' ∧
      entryStrength e' = max (entryStrength e) a.strength := by
  have hstrength := storedStrength_added h a.domain
  simp only [Option.filter_some, decide_true, if_true, Option.map_some, join] at hstrength
  have hle : storedStrength (build u manifest config).whiteDb a.domain ≤
      storedStrength (build u manifest' config').whiteDb a.domain := by
    rw [hstrength]
    exact le_max_left _ _
  obtain ⟨e', hget', -⟩ := entry_of_storedStrength hle hget
  refine ⟨e', hget', ?_⟩
  simpa [storedStrength, hget, hget'] using hstrength

theorem seenWithout_eq {a : Allow} (h : AddsAllow u manifest config manifest' config' (some a))
    (tldSeg : Int) :
    seenWithout a.domain pf u ((build u manifest' config').containers c) tldSeg qName qNameOriginal
        isCname =
      seenWithout a.domain pf u ((build u manifest config).containers c) tldSeg qName qNameOriginal
        isCname := by
  refine allowsSeen_eq (sameBlocks_of_addsAllow h) (fun k => ?_) pf c tldSeg qName _ isCname
  change storedStrength ((build u manifest' config').whiteDb.pop a.domain) k =
    storedStrength ((build u manifest config).whiteDb.pop a.domain) k
  rw [storedStrength_pop, storedStrength_pop, storedStrength_added h]
  split
  · rfl
  · rename_i hne
    rw [Option.filter_some, if_neg (by simpa using hne)]
    rfl

/-- Where the stronger of two entries lets fewer names through, it is an exact one of a
higher band than a wildcard. -/
theorem narrowed_of_strength {e e' : WhiteEntry} {a : Allow}
    (hmax : entryStrength e' = max (entryStrength e) a.strength) (hwild : e.wildcard = true)
    (hexact : e'.wildcard = false) : a.wildcard = false ∧ e.band.prio < a.band.prio := by
  have hne : entryStrength e' ≠ entryStrength e := fun heq => by
    have hsame := (strength_inj heq).2
    rw [hwild, hexact] at hsame
    cases hsame
  have htaken : entryStrength e' = a.strength := by omega
  obtain ⟨hband, hsame⟩ := strength_inj htaken
  have hlt : entryStrength e < a.strength := by omega
  have hwilda : a.wildcard = false := hsame ▸ hexact
  refine ⟨hwilda, ?_⟩
  simp only [entryStrength, Allow.strength, strength, hwild, hwilda, Bool.toNat_true,
    Bool.toNat_false] at hlt
  omega

theorem prio_le_of_strength_le {e e' : WhiteEntry} (h : entryStrength e ≤ entryStrength e') :
    e.band.prio ≤ e'.band.prio := by
  have hw : e'.wildcard.toNat ≤ 1 := Bool.toNat_le _
  unfold entryStrength strength at h
  omega

/-- A query blocked by one more allow rested on a wildcard. -/
theorem restsOnWildcard_of_blocked (h : AddsAllow u manifest config manifest' config' added)
    (hbefore : ¬ (evaluateDomain pf u qName qNameOriginal tld isCname
      ((build u manifest config).cfg cfg c)
      ((build u manifest config).containers c)).blocked = true)
    (hafter : (evaluateDomain pf u qName qNameOriginal tld isCname
      ((build u manifest' config').cfg cfg c)
      ((build u manifest' config').containers c)).blocked = true) :
    RestsOnWildcard pf u (build u manifest config) cfg c added qName qNameOriginal tld isCname := by
  have hblocks := sameBlocks_of_addsAllow h
  rw [build_blocked_iff_above] at hbefore hafter
  obtain ⟨b, hrank, habove⟩ := hafter
  rw [rank_blockResolved_eq hblocks] at hrank
  obtain ⟨s, hs, hbs⟩ : ∃ s ∈ allowsSeen pf u ((build u manifest config).containers c)
      cfg.pythonTldSeg qName qNameOriginal isCname, b ≤ s := by
    by_contra hnone
    push Not at hnone
    exact hbefore ⟨b, hrank, hnone⟩
  cases added with
  | none =>
      have hsame : ∀ k, storedStrength (build u manifest' config').whiteDb k =
          storedStrength (build u manifest config).whiteDb k := storedStrength_added h
      have hseen := allowsSeen_eq hblocks hsame pf c cfg.pythonTldSeg qName qNameOriginal isCname
      exact absurd (habove s (hseen.symm ▸ hs)) (not_lt.mpr hbs)
  | some a =>
      rw [allowsSeen_split a.domain] at hs habove
      rw [seenWithout_eq h] at habove
      rcases hs with hs | ⟨e, hget, ⟨n, hn, hreach⟩, rfl⟩
      · exact absurd (habove s (Or.inl hs)) (not_lt.mpr hbs)
      · obtain ⟨e', hget', hmax⟩ := entry_added h hget
        have hband : e.band.prio ≤ e'.band.prio :=
          prio_le_of_strength_le (hmax ▸ le_max_left _ _)
        have hno : ∀ m ∈ allowNames qName qNameOriginal isCname,
            ¬ Reaches cfg.pythonTldSeg a.domain m e'.wildcard := fun m hm hm' =>
          absurd (habove _ (Or.inr ⟨e', hget', ⟨m, hm, hm'⟩, rfl⟩))
            (not_lt.mpr (hbs.trans hband))
        have hexact : e'.wildcard = false := by
          by_contra hwild
          have htrue : e'.wildcard = true := by simpa using hwild
          exact hno n hn (htrue.symm ▸ Reaches.mono hreach)
        have hwild : e.wildcard = true := by
          by_contra hfalse
          have hnone : e.wildcard = false := by simpa using hfalse
          exact hno n hn (hexact.symm ▸ hnone ▸ hreach)
        obtain ⟨hwilda, hlt⟩ := narrowed_of_strength hmax hwild hexact
        exact ⟨a, e, b, rfl, hget, hwild, hwilda, hlt, ⟨n, hn, Reaches.mono hreach⟩,
          hexact ▸ hno, hrank,
          hbs, fun r hr => habove r (Or.inl hr)⟩

/-- A query that rests on the wildcard is let through before and blocked after. -/
theorem blocked_of_restsOnWildcard (h : AddsAllow u manifest config manifest' config' added)
    (hrests : RestsOnWildcard pf u (build u manifest config) cfg c added qName qNameOriginal tld
      isCname) :
    ¬ (evaluateDomain pf u qName qNameOriginal tld isCname
        ((build u manifest config).cfg cfg c)
        ((build u manifest config).containers c)).blocked = true ∧
      (evaluateDomain pf u qName qNameOriginal tld isCname
        ((build u manifest' config').cfg cfg c)
        ((build u manifest' config').containers c)).blocked = true := by
  obtain ⟨a, e, b, rfl, hget, hwild, hexact, hlt, ⟨n, hn, hreach⟩, hno, hrank, hle, hothers⟩ :=
    hrests
  rw [build_blocked_iff_above, build_blocked_iff_above,
    rank_blockResolved_eq (sameBlocks_of_addsAllow h)]
  constructor
  · rintro ⟨b', hrank', habove⟩
    obtain rfl := Option.some.inj (hrank.symm.trans hrank')
    rw [allowsSeen_split a.domain] at habove
    exact absurd (habove _ (Or.inr ⟨e, hget, ⟨n, hn, hwild.symm ▸ hreach⟩, rfl⟩)) (not_lt.mpr hle)
  · refine ⟨b, hrank, fun s hs => ?_⟩
    rw [allowsSeen_split a.domain, seenWithout_eq h] at hs
    rcases hs with hs | ⟨e', hget', ⟨m, hm, hm'⟩, rfl⟩
    · exact hothers s hs
    · obtain ⟨e'', hget'', hmax⟩ := entry_added h hget
      obtain rfl := Option.some.inj (hget'.symm.trans hget'')
      have htaken : entryStrength e' = a.strength :=
        hmax.trans (max_eq_right (strength_le_of_prio_lt hlt _ _))
      have hsame := (strength_inj htaken).2
      rw [hsame, hexact] at hm'
      exact absurd hm' (hno m hm)

/-- One more allow in the input of a build keeps a query unblocked exactly when the query
does not rest on a wildcard the allow takes the place of. -/
theorem allow_monotone_iff (h : AddsAllow u manifest config manifest' config' added)
    (pf : Prefilter) (cfg : Cfg) (c : Containers) (qName qNameOriginal tld : Str)
    (isCname : Bool) :
    ((evaluateDomain pf u qName qNameOriginal tld isCname ((build u manifest config).cfg cfg c)
          ((build u manifest config).containers c)).blocked = false →
        (evaluateDomain pf u qName qNameOriginal tld isCname
          ((build u manifest' config').cfg cfg c)
          ((build u manifest' config').containers c)).blocked = false) ↔
      ¬ RestsOnWildcard pf u (build u manifest config) cfg c added qName qNameOriginal tld
        isCname := by
  simp only [← Bool.not_eq_true]
  constructor
  · intro hkeeps hrests
    obtain ⟨hbefore, hafter⟩ := blocked_of_restsOnWildcard h hrests
    exact hkeeps hbefore hafter
  · intro hrests hbefore hafter
    exact hrests (restsOnWildcard_of_blocked h hbefore hafter)

/-- A feed lists a host, and allows the domain above it. -/
def feedAllowed : List FeedRow :=
  [{ feed := "Feed".toList, group := "Ads".toList, logFlag := "1".toList,
     lines := ["sub.evil.com".toList, "@@||evil.com^".toList] }]

/-- The user allows the domain too, and only the domain. -/
def domainWhitelisted : Config := { userWhitelist := ["evil.com".toList] }

theorem allow_monotone_iff_feedAllowed :
    AddsAllow asciiOnly feedAllowed {} feedAllowed domainWhitelisted
        (userAllow? asciiOnly "evil.com".toList) ∧
      (((evaluateDomain .alwaysRun asciiOnly "sub.evil.com".toList "sub.evil.com".toList
            "com".toList false ((build asciiOnly feedAllowed {}).cfg .listsOnly .empty)
            ((build asciiOnly feedAllowed {}).containers .empty)).blocked = false →
          (evaluateDomain .alwaysRun asciiOnly "sub.evil.com".toList "sub.evil.com".toList
            "com".toList false
            ((build asciiOnly feedAllowed domainWhitelisted).cfg .listsOnly .empty)
            ((build asciiOnly feedAllowed domainWhitelisted).containers .empty)).blocked = false) ↔
        ¬ RestsOnWildcard .alwaysRun asciiOnly (build asciiOnly feedAllowed {}) .listsOnly .empty
          (userAllow? asciiOnly "evil.com".toList) "sub.evil.com".toList "sub.evil.com".toList
          "com".toList false) :=
  ⟨.whitelist [] [] _ rfl, allow_monotone_iff
    (show AddsAllow asciiOnly feedAllowed {} feedAllowed domainWhitelisted _ from
      .whitelist [] [] _ rfl) .alwaysRun .listsOnly .empty _ _ _ false⟩

/-- The user's allow takes the subdomains of the feed's away. -/
theorem allow_takes_wildcard_away :
    AddsAllow asciiOnly feedAllowed {} feedAllowed domainWhitelisted
        (userAllow? asciiOnly "evil.com".toList) ∧
      (evaluateDomain .alwaysRun asciiOnly "sub.evil.com".toList "sub.evil.com".toList
        "com".toList false ((build asciiOnly feedAllowed {}).cfg .listsOnly .empty)
        ((build asciiOnly feedAllowed {}).containers .empty)).blocked = false ∧
      (evaluateDomain .alwaysRun asciiOnly "sub.evil.com".toList "sub.evil.com".toList
        "com".toList false
        ((build asciiOnly feedAllowed domainWhitelisted).cfg .listsOnly .empty)
        ((build asciiOnly feedAllowed domainWhitelisted).containers .empty)).blocked = true :=
  ⟨.whitelist [] [] _ rfl, by decide, by decide⟩

end PfBlockerNG.AllowMonotone
