import PfBlockerNG.Matcher
import PfBlockerNG.Reconcile

/-!
The build: raw feeds and configuration in, the matcher's databases out.
-/

namespace PfBlockerNG.Build

open PfBlockerNG.Strings
open PfBlockerNG.PyText
open PfBlockerNG.OrderedDict
open PfBlockerNG.Bands
open PfBlockerNG.RegexRules
open PfBlockerNG.PublicSuffix
open PfBlockerNG.DomainNames
open PfBlockerNG.AbpRules
open PfBlockerNG.Reconcile
open PfBlockerNG.Whitelist
open PfBlockerNG.Matcher

universe u

/-- One manifest row, with the lines the reader yields for its raw feed. -/
structure FeedRow where
  feed : Str
  group : Str
  logFlag : Str
  mode : Option Str := none
  provenance : Option Str := none
  top1m : Bool := false
  lines : List Str

/-- The configuration of a build. -/
structure Config where
  tldWildcardBlacklist : List Str := []
  tldWildcardExclusion : List Str := []
  regexCap : Bool := false
  pslRules : PslRules := {}
  pslWildcardEnabled : Bool := true
  pslIncludePrivate : Bool := true
  pslFeedPrivatePolicy : Str := "honor".toList
  pslFeedIcannPolicy : Str := "honor".toList
  builtinLogFlag : Str := "0".toList
  userWhitelist : List Str := []
  userUnlock : List Str := []
  top1mEnabled : Bool := false
  top1mLines : List Str := []

/-- `BuildResult`. -/
structure BuildResult where
  dataDb : Dict Str BlockPayload
  zoneDb : Dict Str ZoneEntry
  feedGroupIndexDb : Dict Nat FeedGroup
  whiteDb : WhiteDb
  counts : Nat
  userRegexDb : RegexDb BlockBand
  userAllowRegexDb : RegexDb AllowBand
  regexDb : RegexDb BlockBand
  allowRegexDb : RegexDb AllowBand
  importantRules : Bool
  regexCount : Nat
  rejects : RejectTally
  pslRules : PslRules
  builtinLogFlag : Str

namespace FeedRow

def isPermit (row : FeedRow) : Bool := row.mode == some "permit".toList

def prov (row : FeedRow) : Provenance :=
  if row.provenance = some "user".toList then .user else .feed

def info (row : FeedRow) : RowInfo := ⟨row.prov, row.feed, row.group, row.logFlag⟩

/-- Band of the row's plain blocks. -/
def blockBand (row : FeedRow) : BlockBand :=
  match row.prov with
  | .user => .user
  | .feed => .feed

end FeedRow

namespace Config

def blacklistRoots (config : Config) : List Str :=
  (config.tldWildcardBlacklist.map stripDots).eraseDups

def exclusion (config : Config) : List Str := config.tldWildcardExclusion.map stripDots

/-- The rules the plain lines are classified by. -/
def classificationRules (config : Config) : PslRules :=
  if config.pslWildcardEnabled then config.pslRules else {}

def honor : Str := "honor".toList

def feedPolicyActive (config : Config) : Bool :=
  config.pslFeedPrivatePolicy != honor || config.pslFeedIcannPolicy != honor

/-- The names TOP1M lists. -/
def top1m (u : Unicode) (config : Config) : List Str :=
  if config.top1mEnabled then top1mNames u config.top1mLines else []

end Config

/-! ### Indexes of feeds and groups -/

structure Indexer where
  feedGroupDb : Dict Str Nat := Dict.empty
  feedGroupIndexDb : Dict Nat FeedGroup := Dict.empty
  nextIndex : Nat := 0

/-- `index_for`. -/
def indexFor (ix : Indexer) (feed group : Str) : Nat × Indexer :=
  match ix.feedGroupDb.get (feed ++ group) with
  | some idx => (idx, ix)
  | none => (ix.nextIndex, {
      feedGroupDb := ix.feedGroupDb.set (feed ++ group) ix.nextIndex
      feedGroupIndexDb := ix.feedGroupIndexDb.set ix.nextIndex ⟨feed, group⟩
      nextIndex := ix.nextIndex + 1 })

/-! ### The block stores -/

/-- The rows whose blocks TOP1M filters, and the names it lists. -/
structure Top1mFilter where
  names : List Str
  rows : List (Str × Str)

def top1mFilter (u : Unicode) (manifest : List FeedRow) (config : Config) : Top1mFilter where
  names := config.top1m u
  rows := if (config.top1m u).isEmpty then []
    else (manifest.filter (·.top1m)).map fun row => (row.feed, row.group)

/-- dataDB and zoneDB as they fill, and the zones last written by a filtered row with
their last unfiltered payload. -/
structure Stores where
  dataDb : Dict Str BlockPayload := Dict.empty
  zoneDb : Dict Str BlockPayload := Dict.empty
  zoneTop1m : Dict Str (Option BlockPayload) := Dict.empty

/-- `track_zone_top1m`. -/
def trackZoneTop1m (s : Stores) (key : Str) (filtered : Bool) : Stores :=
  if !filtered then { s with zoneTop1m := s.zoneTop1m.pop key }
  else
    let prior := s.zoneDb.get key
    let fallback := if prior.isSome && (s.zoneTop1m.get key).isNone then prior
      else (s.zoneTop1m.get key).join
    { s with zoneTop1m := s.zoneTop1m.set key fallback }

/-- One block entry of a row goes into its store. -/
def writeBlock (f : Top1mFilter) (row : Str × Str) (cls : BlockClass) (key : Str)
    (payload : BlockPayload) (s : Stores) : Stores :=
  match cls with
  | .zone =>
      let s := if f.rows.isEmpty then s else trackZoneTop1m s key (f.rows.contains row)
      { s with zoneDb := s.zoneDb.set key payload }
  | .data =>
      if f.rows.contains row && top1mListed key f.names then s
      else { s with dataDb := s.dataDb.set key payload }

/-- zoneDB with the TOP1M marks. -/
def markedZones (f : Top1mFilter) (s : Stores) : Dict Str ZoneEntry :=
  s.zoneDb.mapValues fun key payload =>
    match s.zoneTop1m.get key with
    | none => { payload := payload }
    | some fallback => { payload := payload, top1m := some f.names, top1mFallback := fallback }

/-! ### Classification -/

/-- `tld_wildcard_classify`. -/
def tldWildcardClassify (u : Unicode) (domain : Str) (rules : PslRules) (exclusion : List Str)
    (includePrivate : Bool) (blacklist : List Str) : BlockClass × Str :=
  if !rules.any then (.data, domain)
  else match resolve u domain rules with
    | .error _ => (.data, domain)
    | .ok resolution =>
        let suffix := if includePrivate then resolution.publicSuffix else resolution.icannSuffix
        let root := rootLabel suffix
        if blacklist.contains suffix || blacklist.contains root || exclusion.contains suffix ||
            exclusion.contains root || exclusion.contains domain then (.data, domain)
        else
          let parent := registrable (splitDots domain) suffix
          if domain = suffix ∨ parent.isEmpty then (.data, domain)
          else if domain = parent then (.zone, domain)
          else (.data, domain)

/-- `_dnsbl_suffix_feed_policy`. -/
def suffixFeedPolicy (u : Unicode) (name : Str) (rules : PslRules)
    (privatePolicy icannPolicy : Str) : Option Str :=
  match resolve u name rules with
  | .error _ => none
  | .ok resolution =>
      if name ≠ resolution.publicSuffix then none
      else if resolution.privateActive then some privatePolicy else some icannPolicy

/-- The policy on an entry; what a user wrote is exempt. -/
def policyFor (u : Unicode) (config : Config) (prov : Provenance) (name : Str) : Option Str :=
  if prov = .feed ∧ config.feedPolicyActive then
    suffixFeedPolicy u name config.pslRules config.pslFeedPrivatePolicy config.pslFeedIcannPolicy
  else none

def ignore : Str := "ignore".toList

def apex : Str := "apex".toList

/-- A block entry to emit, and whether a policy weakened it to an exact one. -/
structure BlockEntry where
  cls : BlockClass
  key : Str
  demoted : Bool := false
  deriving DecidableEq, Repr

/-- A zone the `apex` policy governs becomes an exact entry. -/
def applyPolicy (policy : Option Str) (cls : BlockClass) (key : Str) : Outcome BlockEntry :=
  if policy = some ignore then .reject .suffixDrop
  else if policy = some apex ∧ cls = .zone then .keep ⟨.data, key, true⟩
  else .keep ⟨cls, key, false⟩

/-- What a plain line of a row blocks. -/
def plainEntry (u : Unicode) (config : Config) (prov : Provenance) (stripped : Str) :
    Outcome BlockEntry :=
  match parse stripped with
  | none => .skip
  | some token =>
      match normaliseVerdict u token false with
      | .error bucket => .reject bucket
      | .ok domain =>
          let (cls, key) := tldWildcardClassify u domain config.classificationRules
            config.exclusion config.pslIncludePrivate config.blacklistRoots
          applyPolicy (policyFor u config prov domain) cls key

/-- What a line of a permit row allows. -/
def permitHost (u : Unicode) (stripped : Str) : Outcome Str :=
  if stripped.isEmpty || startsWith "!".toList stripped || startsWith "[".toList stripped ||
      isAbpRuleLine stripped then .skip
  else match parse stripped with
    | none => .skip
    | some token =>
        match normaliseVerdict u token false with
        | .error bucket => .reject bucket
        | .ok domain => .keep domain

/-! ### The whitelist -/

/-- One line of the user whitelist: the domain and whether it is a wildcard. -/
def whitelistLine (u : Unicode) (raw : Str) : Outcome (Str × Bool) :=
  let line := strip raw
  if line.isEmpty then .skip
  else
    let hasWww := u.lower (line.take 4) = www
    let body := if hasWww then line.drop 4 else line
    match normaliseVerdict u body (startsWith ".".toList body) with
    | .ok domain => .keep (domain, startsWith ".".toList body)
    | .error bucket =>
        if hasWww then
          match normaliseVerdict u line false with
          | .ok domain => .keep (domain, startsWith ".".toList line)
          | .error bucket => .reject bucket
        else .reject bucket

/-- A user allow, joined to what the key holds. -/
def addUserAllow (db : WhiteDb) (domain : Str) (entry : WhiteEntry) : WhiteDb :=
  db.set domain (match db.get domain with
    | none => entry
    | some existing => whiteWidenEntry existing entry)

def userEntry (wildcard : Bool) : WhiteEntry := .rule wildcard true (some .user) none

def addWhitelistLine (u : Unicode) (source : Str) (acc : WhiteDb × RejectTally) (raw : Str) :
    WhiteDb × RejectTally :=
  match whitelistLine u raw with
  | .skip => acc
  | .reject bucket => (acc.1, tallyReject acc.2 source "DNSBL".toList bucket)
  | .keep line => (addUserAllow acc.1 line.1 (userEntry line.2), acc.2)

/-- `_dnsbl_normalise_whitelist`. -/
def normaliseWhitelist (u : Unicode) (lines : List Str) (tally : RejectTally) (source : Str) :
    WhiteDb × RejectTally :=
  lines.foldl (addWhitelistLine u source) (Dict.empty, tally)

/-! ### The rows -/

structure BuildState where
  stores : Stores := {}
  ix : Indexer := {}
  whiteDb : WhiteDb
  abpRules : List Rule := []
  permitAllowInserted : Bool := false
  rejects : RejectTally

def BuildState.tally (st : BuildState) (feed group : Str) (bucket : Bucket) : BuildState :=
  { st with rejects := tallyReject st.rejects feed group bucket }

/-- One allow of a permit row: never in place of an entry of its band or a higher one. -/
def addPermit (row : FeedRow) (domain : Str) (st : BuildState) : BuildState :=
  let (idx, ix) := indexFor st.ix row.feed row.group
  let st := { st with ix := ix }
  let entry := WhiteEntry.rule true false (some .feed) (some idx)
  let inserted := { st with
    whiteDb := st.whiteDb.set domain entry
    permitAllowInserted := true }
  match st.whiteDb.get domain with
  | none => inserted
  | some existing => if existing.band.prio < AllowBand.feed.prio then inserted else st

def permitLine (u : Unicode) (row : FeedRow) (st : BuildState) (rawLine : Str) : BuildState :=
  match permitHost u (strip rawLine) with
  | .skip => st
  | .reject bucket => st.tally row.feed row.group bucket
  | .keep domain => addPermit row domain st

/-- One block entry: an index, the tally of a demotion, the store. -/
def emitBlock (f : Top1mFilter) (indexed listed : Str × Str) (entry : BlockEntry)
    (payload : Nat → BlockPayload) (st : BuildState) : BuildState :=
  let st := if entry.demoted then st.tally indexed.1 indexed.2 .suffixDemote else st
  let (idx, ix) := indexFor st.ix indexed.1 indexed.2
  { st with ix := ix, stores := writeBlock f listed entry.cls entry.key (payload idx) st.stores }

def plainPayload (row : FeedRow) (idx : Nat) : BlockPayload :=
  ⟨row.logFlag, idx, false, row.blockBand⟩

def plainLine (u : Unicode) (config : Config) (f : Top1mFilter) (row : FeedRow)
    (st : BuildState) (rawLine : Str) : BuildState :=
  let stripped := strip rawLine
  if isAbpRuleLine stripped then
    match parseAbp u row.info stripped with
    | .skip => st
    | .reject bucket => st.tally row.feed row.group bucket
    | .keep rule => { st with abpRules := st.abpRules ++ [rule] }
  else match plainEntry u config row.prov stripped with
    | .skip => st
    | .reject bucket => st.tally row.feed row.group bucket
    | .keep entry =>
        emitBlock f (row.feed, row.group) (row.feed, row.group) entry (plainPayload row) st

def buildRow (u : Unicode) (config : Config) (f : Top1mFilter) (st : BuildState)
    (row : FeedRow) : BuildState :=
  if row.isPermit then row.lines.foldl (permitLine u row) st
  else row.lines.foldl (plainLine u config f row) st

/-- A blacklisted TLD is a zone. -/
def blacklistTld (config : Config) (st : BuildState) (tld : Str) : BuildState :=
  let (idx, ix) := indexFor st.ix "DNSBL_TLD".toList "DNSBL_TLD".toList
  { st with
    ix := ix
    stores := { st.stores with
      zoneDb := st.stores.zoneDb.set tld ⟨config.builtinLogFlag, idx, false, .feed⟩ } }

/-- The blacklisted TLDs, in order. -/
def blacklistedTlds (config : Config) : List Str :=
  (config.blacklistRoots.insertionSort (· ≤ ·)).filter fun tld => !tld.isEmpty

/-- The user whitelist with the unlock set joined to it, and the tally. -/
def userWhite (u : Unicode) (config : Config) : WhiteDb × RejectTally :=
  let (white, tally) := normaliseWhitelist u config.userWhitelist Dict.empty
    "user-whitelist".toList
  let (unlock, tally) := normaliseWhitelist u config.userUnlock tally "user-unlock".toList
  (unlock.items.foldl (fun db item => addUserAllow db item.1 item.2) white, tally)

/-- The state before the first row. -/
def initialState (u : Unicode) (config : Config) : BuildState :=
  let (white, tally) := userWhite u config
  (blacklistedTlds config).foldl (blacklistTld config) { whiteDb := white, rejects := tally }

/-! ### The adblock rules -/

def orDefault (s default : Str) : Str := if s.isEmpty then default else s

def dnsbl : Str := "DNSBL".toList

def abpPayload (b : BlockDomainRule) (idx : Nat) : BlockPayload :=
  ⟨orDefault b.log "0".toList, idx, b.important, b.band⟩

/-- What a reconciled block emits. -/
def abpEntry (u : Unicode) (config : Config) (b : BlockDomainRule) : Outcome BlockEntry :=
  applyPolicy (policyFor u config b.provenance b.key) b.cls b.key

def emitAbpBlock (u : Unicode) (config : Config) (f : Top1mFilter) (st : BuildState)
    (b : BlockDomainRule) : BuildState :=
  let indexed := (orDefault b.feed dnsbl, orDefault b.group dnsbl)
  match abpEntry u config b with
  | .skip => st
  | .reject bucket => st.tally indexed.1 indexed.2 bucket
  | .keep entry => emitBlock f indexed (b.feed, b.group) entry (abpPayload b) st

/-- A reconciled allow: a higher band replaces what the key holds, an equal one widens
it. -/
def addAbpAllow (db : WhiteDb) (a : AllowDomainRule) : WhiteDb :=
  let entry := WhiteEntry.rule a.wildcard a.important (some a.band) none
  match db.get a.domain with
  | none => db.set a.domain entry
  | some existing =>
      if existing.band.prio < a.band.prio then db.set a.domain entry
      else if existing.band = a.band then
        db.set a.domain (.rule (existing.wildcard || a.wildcard)
          (existing.important || a.important) (some a.band) none)
      else db

def regexStaticLenCap : Nat := 200

def ruleName (feed : Str) (seq : Nat) : Str := orDefault feed dnsbl ++ '#' :: decimal seq

/-- One rule of a list goes through the gate and the length cap. -/
def compileRule {β : Type u} (staticCap : Bool) (acc : RegexDb β × Nat) (rule : RegexRule β) :
    RegexDb β × Nat :=
  match admitPattern rule.pattern with
  | .error _ => acc
  | .ok admitted =>
      if staticCap && regexStaticLenCap < rule.pattern.length then acc
      else
        (acc.1.set (ruleName rule.feed acc.2)
          ⟨admitted.compileText, admitted.re, rule.important, rule.band⟩, acc.2 + 1)

/-- `_dnsbl_compile_regex_rules`: the list and the number of rules admitted. -/
def compileRegexRules {β : Type u} (rules : List (RegexRule β)) (staticCap : Bool) :
    RegexDb β × Nat :=
  rules.foldl (compileRule staticCap) (Dict.empty, 0)

def ofFeed {β : Type u} (rules : List (RegexRule β)) : List (RegexRule β) :=
  rules.filter fun r => r.provenance != .user

def ofUser {β : Type u} (rules : List (RegexRule β)) : List (RegexRule β) :=
  rules.filter fun r => r.provenance == .user

/-- The reconciled rules of a build; a build without adblock rules skips the stage. -/
def reconciled (u : Unicode) (config : Config) (st : BuildState) : ReconcileResult :=
  if st.abpRules.isEmpty then { rejects := st.rejects }
  else reconcile u st.abpRules config.exclusion st.rejects

/-- `build`. -/
def build (u : Unicode) (manifest : List FeedRow) (config : Config) : BuildResult :=
  let f := top1mFilter u manifest config
  let st := manifest.foldl (buildRow u config f) (initialState u config)
  let result := reconciled u config st
  let st :=
    result.blockDomains.foldl (emitAbpBlock u config f) { st with rejects := result.rejects }
  let feedBlock := compileRegexRules (ofFeed result.blockRegexIrreducible) config.regexCap
  let feedAllow := compileRegexRules (ofFeed result.allowRegexIrreducible) config.regexCap
  let userBlock := compileRegexRules (ofUser result.blockRegexIrreducible) config.regexCap
  let userAllow := compileRegexRules (ofUser result.allowRegexIrreducible) config.regexCap
  let zones := markedZones f st.stores
  { dataDb := st.stores.dataDb
    zoneDb := zones
    feedGroupIndexDb := st.ix.feedGroupIndexDb
    whiteDb := result.allowDomains.foldl addAbpAllow st.whiteDb
    counts := st.stores.dataDb.length + zones.length
    userRegexDb := userBlock.1
    userAllowRegexDb := userAllow.1
    regexDb := feedBlock.1
    allowRegexDb := feedAllow.1
    importantRules := st.permitAllowInserted || result.importantRules ||
      userBlock.1.nonempty || userAllow.1.nonempty
    regexCount := feedBlock.2 + feedAllow.2 + userBlock.2 + userAllow.2
    rejects := st.rejects
    pslRules := config.pslRules
    builtinLogFlag := config.builtinLogFlag }

/-- The databases of a build, beside what a build does not make. -/
def BuildResult.containers (r : BuildResult) (c : Containers) : Containers :=
  { c with
    dataDb := r.dataDb
    zoneDb := r.zoneDb
    whiteDb := r.whiteDb
    regexDb := r.regexDb
    allowRegexDb := r.allowRegexDb
    userRegexDb := r.userRegexDb
    userAllowRegexDb := r.userAllowRegexDb
    feedGroupIndexDb := r.feedGroupIndexDb
    pslRules := r.pslRules }

/-- The configuration of a query on a build, beside the settings a build does not make. -/
def BuildResult.cfg (r : BuildResult) (cfg : Cfg) (c : Containers) : Cfg :=
  { cfg.ofContainers (r.containers c) with
    importantRules := r.importantRules
    builtinLogFlag := r.builtinLogFlag }

end PfBlockerNG.Build
