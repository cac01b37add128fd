import PfBlockerNG.BlockStores
import PfBlockerNG.Precedence

/-!
A build that does not ask for the numeric path holds user allows only and no regex, and
on such databases both paths give the same answer.
-/

namespace PfBlockerNG.FastPath

open PfBlockerNG.Strings
open PfBlockerNG.PyText
open PfBlockerNG.OrderedDict
open PfBlockerNG.Bands
open PfBlockerNG.AbpRules
open PfBlockerNG.Reconcile
open PfBlockerNG.Whitelist
open PfBlockerNG.TopElement
open PfBlockerNG.Matcher
open PfBlockerNG.Precedence
open PfBlockerNG.Build
open PfBlockerNG.BlockStores

universe u

/-- Every allow is the user's. -/
def AllUser (db : WhiteDb) : Prop := ∀ k e, db.get k = some e → e.band = .user

variable {u : Unicode} {config : Config} {f : Top1mFilter} {db : WhiteDb}

theorem allUser_set {k : Str} {e : WhiteEntry} (h : AllUser db) (he : e.band = .user) :
    AllUser (db.set k e) := by
  intro k' e' hget
  rw [Dict.get_set] at hget
  split at hget
  · exact Option.some.inj hget ▸ he
  · exact h k' e' hget

/-! ### The user's whitelists -/

theorem band_whiteWidenEntry {e e' : WhiteEntry} (h : e.band = .user) (h' : e'.band = .user) :
    (whiteWidenEntry e e').band = .user := by
  simp [whiteWidenEntry, WhiteEntry.band, maxBand] at h h' ⊢
  simp [h, h']

theorem allUser_addUserAllow (h : AllUser db) {d : Str} {e : WhiteEntry} (he : e.band = .user) :
    AllUser (addUserAllow db d e) := by
  unfold addUserAllow
  split
  · exact allUser_set h he
  · rename_i existing hget
    exact allUser_set h (band_whiteWidenEntry (h d existing hget) he)

theorem allUser_normaliseWhitelist (lines : List Str) (tally : DomainNames.RejectTally)
    (source : Str) : AllUser (normaliseWhitelist u lines tally source).1 := by
  refine List.foldlRecOn (motive := fun acc : WhiteDb × DomainNames.RejectTally => AllUser acc.1)
    _ _ (fun _ _ h => by cases h) ?_
  intro acc hacc raw _
  unfold addWhitelistLine
  split
  · exact hacc
  · exact hacc
  · exact allUser_addUserAllow hacc rfl

theorem allUser_userWhite (u : Unicode) (config : Config) : AllUser (userWhite u config).1 := by
  refine List.foldlRecOn _ _ (allUser_normaliseWhitelist _ _ _) fun db hdb item hitem => ?_
  exact allUser_addUserAllow hdb (allUser_normaliseWhitelist _ _ _ item.1 item.2
    ((Dict.get_eq_some_iff _ _ _).mpr hitem))

/-! ### The rows -/

/-- As long as no permit allow went in, every allow is the user's. -/
def PermitFree (st : BuildState) : Prop := st.permitAllowInserted = false → AllUser st.whiteDb

theorem permitFree_of_sameAllows {st st' : BuildState} (h : PermitFree st)
    (hsame : SameAllows st st') : PermitFree st' := by
  intro hflag
  rw [hsame.whiteDb]
  exact h (hsame.permitAllowInserted ▸ hflag)

theorem permitFree_addPermit {st : BuildState} (h : PermitFree st) (row : FeedRow) (domain : Str) :
    PermitFree (addPermit row domain st) := by
  intro hflag
  unfold addPermit at hflag ⊢
  dsimp only at hflag ⊢
  split at hflag
  · cases hflag
  · split at hflag
    · cases hflag
    · rename_i hget hlow
      rw [if_neg hlow]
      exact h hflag

theorem permitFree_permitLine {st : BuildState} (h : PermitFree st) (row : FeedRow) (line : Str) :
    PermitFree (permitLine u row st line) := by
  unfold permitLine
  split
  · exact h
  · exact h
  · exact permitFree_addPermit h row _

theorem permitFree_buildRow {st : BuildState} (h : PermitFree st) (row : FeedRow) :
    PermitFree (buildRow u config f st row) := by
  unfold buildRow
  split
  · exact List.foldlRecOn _ _ h fun st hst line _ => permitFree_permitLine hst row line
  · exact List.foldlRecOn _ _ h fun st hst line _ =>
      permitFree_of_sameAllows hst (sameAllows_plainLine row st line)

theorem permitFree_rowsState (u : Unicode) (manifest : List FeedRow) (config : Config) :
    PermitFree (rowsState u manifest config) := by
  have hinit : PermitFree (initialState u config) := by
    refine List.foldlRecOn _ _ (fun _ => allUser_userWhite u config) fun st hst tld _ => ?_
    exact permitFree_of_sameAllows hst ⟨rfl, rfl⟩
  exact List.foldlRecOn _ _ hinit fun st hst row _ => permitFree_buildRow hst row

/-! ### The adblock rules -/

theorem allUser_addAbpAllow {a : AllowDomainRule} (h : AllUser db) (ha : a.band = .user) :
    AllUser (addAbpAllow db a) := by
  unfold addAbpAllow
  dsimp only
  split
  · exact allUser_set h (by simp [WhiteEntry.band, ha])
  · split
    · exact allUser_set h (by simp [WhiteEntry.band, ha])
    · split
      · exact allUser_set h (by simp [WhiteEntry.band, ha])
      · exact h

/-- A rule that does not engage the numeric path is no feed allow. -/
theorem allowDomain_user {r : Rule} (h : engages u r = false) {a : AllowDomainRule}
    (ha : allowDomain? u r = some a) : a.band = .user := by
  unfold allowDomain? at ha
  split at ha
  · rename_i hkind _
    obtain rfl := Option.some.inj ha
    have hprov : r.provenance ≠ .feed := by
      intro hfeed
      simp [engages, isImportant, hkind, hfeed] at h
    cases hp : r.provenance with
    | user => simp [allowRuleBand, allowPriority, hp]
    | feed => exact absurd hp hprov
  · cases ha

/-- A rule that does not engage the numeric path leaves no feed regex. -/
theorem regex_user {r : Rule} (h : engages u r = false) (hfold : foldTarget u r = .irreducible) :
    r.provenance = .user := by
  cases hp : r.provenance with
  | user => rfl
  | feed => simp [engages, hp, hfold] at h

theorem ofFeed_eq_nil {β : Type u} {rules : List Rule} (regex? : Rule → Option (RegexRule β))
    (hregex : ∀ r rule, regex? r = some rule →
      foldTarget u r = .irreducible ∧ rule.provenance = r.provenance)
    (h : rules.any (engages u) = false) : ofFeed (rules.filterMap regex?) = [] := by
  refine List.filter_eq_nil_iff.mpr fun rule hrule => ?_
  obtain ⟨r, hr, hsome⟩ := List.mem_filterMap.mp hrule
  obtain ⟨hfold, hprov⟩ := hregex r rule hsome
  have hengages : engages u r = false := by
    simpa using List.any_eq_false.mp h r hr
  simp [hprov, regex_user hengages hfold]

theorem blockRegex_spec {r : Rule} {rule : RegexRule BlockBand} (h : blockRegex? u r = some rule) :
    foldTarget u r = .irreducible ∧ rule.provenance = r.provenance ∧
      rule.band = blockRuleBand r := by
  unfold blockRegex? at h
  split at h
  · rename_i hfold
    obtain rfl := Option.some.inj h
    exact ⟨hfold, rfl, rfl⟩
  · cases h

theorem allowRegex_spec {r : Rule} {rule : RegexRule AllowBand} (h : allowRegex? u r = some rule) :
    foldTarget u r = .irreducible ∧ rule.provenance = r.provenance ∧
      rule.band = allowRuleBand r := by
  unfold allowRegex? at h
  split at h
  · rename_i hfold
    obtain rfl := Option.some.inj h
    exact ⟨hfold, rfl, rfl⟩
  · cases h

/-- The reconciled rules of a build are what the surviving rules of its rows contribute. -/
theorem reconciled_spec (config : Config) {manifest : List FeedRow} {st : BuildState}
    (hrules : st.abpRules = manifestRules u manifest) :
    (reconciled u config st).allowDomains =
        (survivors (manifestRules u manifest)).filterMap (allowDomain? u) ∧
      (reconciled u config st).blockRegexIrreducible =
        (survivors (manifestRules u manifest)).filterMap (blockRegex? u) ∧
      (reconciled u config st).allowRegexIrreducible =
        (survivors (manifestRules u manifest)).filterMap (allowRegex? u) ∧
      (reconciled u config st).importantRules =
        (survivors (manifestRules u manifest)).any (engages u) := by
  unfold reconciled
  split
  · rename_i hempty
    rw [← hrules, List.isEmpty_iff.mp hempty]
    exact ⟨rfl, rfl, rfl, rfl⟩
  · rw [← hrules]
    exact (reconcile_spec st.abpRules st.rejects).2

/-- The databases of a build that leaves the numeric path off. -/
structure Plain (r : BuildResult) : Prop where
  whiteDb : AllUser r.whiteDb
  regexDb : r.regexDb = Dict.empty
  allowRegexDb : r.allowRegexDb = Dict.empty
  userRegexDb : r.userRegexDb.nonempty = false
  userAllowRegexDb : r.userAllowRegexDb.nonempty = false

theorem sameAllows_emitAbpBlocks (u : Unicode) (config : Config) (f : Top1mFilter)
    (blocks : List BlockDomainRule) (st : BuildState) :
    SameAllows st (blocks.foldl (emitAbpBlock u config f) st) := by
  refine List.foldlRecOn (motive := SameAllows st) _ _ (.refl st) fun st' hst' b _ => ?_
  refine hst'.trans ?_
  simp only [emitAbpBlock]
  split
  · exact .refl st'
  · exact ⟨rfl, rfl⟩
  · exact (emitBlock_spec _ _ _ _ _ st').2.2

theorem build_whiteDb (u : Unicode) (manifest : List FeedRow) (config : Config) :
    (build u manifest config).whiteDb =
      ((survivors (manifestRules u manifest)).filterMap (allowDomain? u)).foldl addAbpAllow
        (rowsState u manifest config).whiteDb := by
  rw [← (reconciled_spec config (abpRules_rowsState u manifest config)).1]
  have hframe := sameAllows_emitAbpBlocks u config (top1mFilter u manifest config)
    (reconciled u config (rowsState u manifest config)).blockDomains
    { rowsState u manifest config with
      rejects := (reconciled u config (rowsState u manifest config)).rejects }
  exact congrArg (fun db => (reconciled u config (rowsState u manifest config)).allowDomains.foldl
    addAbpAllow db) hframe.whiteDb

/-- What turns the numeric path on. -/
theorem build_importantRules (u : Unicode) (manifest : List FeedRow) (config : Config) :
    (build u manifest config).importantRules =
      ((rowsState u manifest config).permitAllowInserted ||
        (survivors (manifestRules u manifest)).any (engages u) ||
        (build u manifest config).userRegexDb.nonempty ||
        (build u manifest config).userAllowRegexDb.nonempty) := by
  rw [← (reconciled_spec config (abpRules_rowsState u manifest config)).2.2.2]
  have hframe := sameAllows_emitAbpBlocks u config (top1mFilter u manifest config)
    (reconciled u config (rowsState u manifest config)).blockDomains
    { rowsState u manifest config with
      rejects := (reconciled u config (rowsState u manifest config)).rejects }
  have hpermit := hframe.permitAllowInserted
  dsimp only at hpermit
  rw [← hpermit]
  rfl

/-- The four regex lists of a build. -/
theorem build_regexDbs (u : Unicode) (manifest : List FeedRow) (config : Config) :
    let rules := survivors (manifestRules u manifest)
    (build u manifest config).regexDb =
        (compileRegexRules (ofFeed (rules.filterMap (blockRegex? u))) config.regexCap).1 ∧
      (build u manifest config).allowRegexDb =
        (compileRegexRules (ofFeed (rules.filterMap (allowRegex? u))) config.regexCap).1 ∧
      (build u manifest config).userRegexDb =
        (compileRegexRules (ofUser (rules.filterMap (blockRegex? u))) config.regexCap).1 ∧
      (build u manifest config).userAllowRegexDb =
        (compileRegexRules (ofUser (rules.filterMap (allowRegex? u))) config.regexCap).1 := by
  obtain ⟨-, hblock, hallow, -⟩ :=
    reconciled_spec config (abpRules_rowsState u manifest config)
  dsimp only
  rw [← hblock, ← hallow]
  exact ⟨rfl, rfl, rfl, rfl⟩

theorem plain_of_build (u : Unicode) (manifest : List FeedRow) (config : Config)
    (h : (build u manifest config).importantRules = false) : Plain (build u manifest config) := by
  obtain ⟨hregex, hallowRegex, -, -⟩ := build_regexDbs u manifest config
  rw [build_importantRules] at h
  simp only [Bool.or_eq_false_iff] at h
  obtain ⟨⟨⟨hpermit, hengages⟩, huser⟩, huserAllow⟩ := h
  refine ⟨?_, ?_, ?_, huser, huserAllow⟩
  · rw [build_whiteDb]
    refine List.foldlRecOn _ _ (permitFree_rowsState u manifest config hpermit) ?_
    intro db hdb a ha
    obtain ⟨r, hr, hsome⟩ := List.mem_filterMap.mp ha
    exact allUser_addAbpAllow hdb
      (allowDomain_user (by simpa using List.any_eq_false.mp hengages r hr) hsome)
  · rw [hregex, ofFeed_eq_nil (u := u) (blockRegex? u)
      (fun r rule hr => ⟨(blockRegex_spec hr).1, (blockRegex_spec hr).2.1⟩) hengages]
    rfl
  · rw [hallowRegex, ofFeed_eq_nil (u := u) (allowRegex? u)
      (fun r rule hr => ⟨(allowRegex_spec hr).1, (allowRegex_spec hr).2.1⟩) hengages]
    rfl

/-! ### Both paths -/

variable {pf : Prefilter} {cfg : Cfg} {c : Containers} {qName qNameOriginal tld : Str}
  {isCname : Bool}

/-- The allow band of databases that hold user allows only. -/
theorem allowBand_of_plain (hwhite : AllUser c.whiteDb) (hallow : c.allowRegexDb.nonempty = false)
    (huserAllow : c.userAllowRegexDb.nonempty = false) :
    allowBand pf u qName qNameOriginal isCname cfg c =
      if resolveFastAllow qName qNameOriginal isCname cfg c then AllowBand.user.prio else 0 := by
  have hregex : scanAllowRegexBand pf u qName c.allowRegexDb c.userAllowRegexDb = 0 := by
    unfold scanAllowRegexBand
    split <;> simp [hallow, huserAllow]
  have hfold := top_whiteFold c.whiteDb cfg.pythonTldSeg (allowNames qName qNameOriginal isCname)
    (a := 0) top_empty
  rw [Set.empty_union] at hfold
  have hband : ∀ n r, r ∈ whiteBands c.whiteDb cfg.pythonTldSeg n → r = AllowBand.user.prio := by
    rintro n r ⟨e, hmatch, rfl⟩
    rcases hmatch with hget | ⟨_, _, hget⟩ | ⟨_, _, _, _, hget, _⟩ <;> rw [hwhite _ _ hget]
  unfold allowBand
  dsimp only
  rw [hregex, Nat.max_zero, ite_self]
  unfold resolveFastAllow
  cases cfg.whiteDB with
  | false => simp
  | true =>
      simp only [if_true, Bool.true_and]
      split
      · rename_i hany
        obtain ⟨n, hn, hcheck⟩ := List.any_eq_true.mp hany
        obtain ⟨e, hmatch⟩ := (whitelistCheckDomain_iff _ _ _).mp hcheck
        have hle := hfold.le ⟨n, hn, e, hmatch, rfl⟩
        have he := hband n _ ⟨e, hmatch, rfl⟩
        rcases hfold.eq_bot_or_mem with hbot | ⟨m, -, hm⟩
        · rw [hbot, he] at hle
          exact absurd hle (by decide)
        · exact hband m _ hm
      · rename_i hany
        rcases hfold.eq_bot_or_mem with hbot | ⟨m, hm, e, hmatch, -⟩
        · exact hbot
        · exact absurd (List.any_eq_true.mpr ⟨m, hm, (whitelistCheckDomain_iff _ _ _).mpr
            ⟨e, hmatch⟩⟩) hany

theorem blocked_fast (himportant : cfg.importantRules = false) :
    (evaluateDomain pf u qName qNameOriginal tld isCname cfg c).blocked = true ↔
      (blockResolved pf u qName tld cfg c).isSome = true ∧
        resolveFastAllow qName qNameOriginal isCname cfg c = false := by
  unfold blockResolved evaluateDomain
  cases hfound : discover u qName tld cfg c with
  | mk found alert =>
      cases found with
      | none => simp [DnsblDecision.blocked, notFound]
      | some hit =>
          simp only [himportant, Bool.false_eq_true, if_false, Option.map_some, Option.isSome_some,
            true_and]
          split
          · rename_i hallow
            simp [DnsblDecision.blocked, whitelisted, hallow]
          · rename_i hallow
            simp [DnsblDecision.blocked, shape, hallow]

/-- On such databases the fast path's answer is that of the band comparison. -/
theorem blocked_fast_iff (hwhite : AllUser c.whiteDb) (hallow : c.allowRegexDb.nonempty = false)
    (huserAllow : c.userAllowRegexDb.nonempty = false) (himportant : cfg.importantRules = false) :
    (evaluateDomain pf u qName qNameOriginal tld isCname cfg c).blocked = true ↔
      ∃ hit, blockResolved pf u qName tld cfg c = some hit ∧
        allowBand pf u qName qNameOriginal isCname cfg c < hit.rank := by
  rw [blocked_fast himportant, allowBand_of_plain hwhite hallow huserAllow]
  cases hblock : blockResolved pf u qName tld cfg c with
  | none => simp
  | some hit =>
      have hpos : 0 < hit.rank := hit.band.prio_pos
      have hle : hit.rank ≤ 5 := hit.band.prio_le
      cases hfast : resolveFastAllow qName qNameOriginal isCname cfg c with
      | false => simp [hpos]
      | true =>
          simp only [Option.isSome_some, Bool.true_eq_false, and_false, if_true, Option.some.injEq,
            exists_eq_left', false_iff, not_lt, AllowBand.prio]
          omega

/-- On a build, either path blocks a name exactly when the block resolved outranks the
allows. -/
theorem build_blocked_iff {manifest : List FeedRow}
    (himportant : cfg.importantRules = (build u manifest config).importantRules) :
    (evaluateDomain pf u qName qNameOriginal tld isCname cfg
        ((build u manifest config).containers c)).blocked = true ↔
      ∃ hit, blockResolved pf u qName tld cfg ((build u manifest config).containers c) = some hit ∧
        allowBand pf u qName qNameOriginal isCname cfg ((build u manifest config).containers c) <
          hit.rank := by
  cases hpath : (build u manifest config).importantRules with
  | true => exact blocked_numeric (himportant.trans hpath)
  | false =>
      have hplain := plain_of_build u manifest config hpath
      have hallow : ((build u manifest config).containers c).allowRegexDb.nonempty = false := by
        change (build u manifest config).allowRegexDb.nonempty = false
        rw [hplain.allowRegexDb]
        rfl
      exact blocked_fast_iff hplain.whiteDb hallow hplain.userAllowRegexDb (himportant.trans hpath)

/-- On a build that leaves the numeric path off, both paths block the same names,
whatever the configuration of the query. -/
theorem fast_path_agrees (u : Unicode) (manifest : List FeedRow) (config : Config)
    (himportant : (build u manifest config).importantRules = false) (pf : Prefilter) (cfg : Cfg)
    (c : Containers) (qName qNameOriginal tld : Str) (isCname : Bool) :
    (evaluateDomain pf u qName qNameOriginal tld isCname { cfg with importantRules := false }
        ((build u manifest config).containers c)).blocked =
      (evaluateDomain pf u qName qNameOriginal tld isCname { cfg with importantRules := true }
        ((build u manifest config).containers c)).blocked := by
  refine Bool.eq_iff_iff.mpr ((build_blocked_iff himportant.symm).trans (Iff.symm ?_))
  exact blocked_numeric rfl

/-- A hosts feed under a user whitelist of one domain. -/
def hostsFeed : List FeedRow :=
  [{ feed := "Hosts".toList, group := "Ads".toList, logFlag := "1".toList,
     lines := ["0.0.0.0 ads.example.com".toList, "tracker.example.net".toList] }]

def netAllowed : Config := { userWhitelist := [".example.net".toList] }

theorem fast_path_agrees_hostsFeed :
    (build asciiOnly hostsFeed netAllowed).importantRules = false ∧
      (evaluateDomain .alwaysRun asciiOnly "tracker.example.net".toList
          "tracker.example.net".toList "net".toList false
          { BuildResult.cfg (build asciiOnly hostsFeed netAllowed) .listsOnly .empty with
            importantRules := false }
          ((build asciiOnly hostsFeed netAllowed).containers .empty)).blocked =
        (evaluateDomain .alwaysRun asciiOnly "tracker.example.net".toList
          "tracker.example.net".toList "net".toList false
          { BuildResult.cfg (build asciiOnly hostsFeed netAllowed) .listsOnly .empty with
            importantRules := true }
          ((build asciiOnly hostsFeed netAllowed).containers .empty)).blocked :=
  ⟨by decide, fast_path_agrees asciiOnly hostsFeed netAllowed (by decide) .alwaysRun _ .empty _ _ _
    false⟩

end PfBlockerNG.FastPath
