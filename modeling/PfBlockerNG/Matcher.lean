import PfBlockerNG.IdnAnalysis
import PfBlockerNG.PublicSuffix
import PfBlockerNG.Whitelist

/-!
The DNSBL matcher: discovery of a block through the strata in order, then resolution
against the allows on the fast path or by band.
-/

namespace PfBlockerNG.Matcher

open PfBlockerNG.Strings
open PfBlockerNG.PyText
open PfBlockerNG.OrderedDict
open PfBlockerNG.Bands
open PfBlockerNG.IdnAnalysis
open PfBlockerNG.PublicSuffix
open PfBlockerNG.TopElement
open PfBlockerNG.Whitelist

universe u

abbrev RegexDb (β : Type u) := Dict Str (RegexPayload β)

/-- What `cfg["idn_mode"]` can hold. -/
inductive RawIdnMode where
  | mode (m : IdnMode)
  | text (s : Str)
  | absent
  deriving DecidableEq, Repr

/-- The per-query configuration; the flags named after a database say that it is not
empty. -/
structure Cfg where
  pythonBlocking : Bool
  dataDB : Bool
  zoneDB : Bool
  tldAllow : Bool
  tldAllowList : List Str
  dnsblIpv4 : Str
  dnsblIpv6 : Str
  pythonIdn : Bool
  idnMode : RawIdnMode
  pythonIdnBlockMalicious : Bool
  pythonIdnEscalateSuspicious : Bool
  regexDB : Bool
  whiteDB : Bool
  allowRegexDB : Bool
  userRegexDB : Bool
  userAllowRegexDB : Bool
  importantRules : Bool
  pythonTldSeg : Int
  hstsDB : Bool
  hstsTlds : List Str
  builtinLogFlag : Str

/-- The databases one query reads. -/
structure Containers where
  dataDb : Dict Str BlockPayload
  zoneDb : Dict Str ZoneEntry
  whiteDb : WhiteDb
  regexDb : RegexDb BlockBand
  allowRegexDb : RegexDb AllowBand
  userRegexDb : RegexDb BlockBand
  userAllowRegexDb : RegexDb AllowBand
  feedGroupIndexDb : Dict Nat FeedGroup
  hstsDb : Dict Str Nat
  pslRules : PslRules
  tldAllowRoots : List Str
  pslAllowPrivate : Bool

/-- The literal prefilter of the regex lists: the literal a compiled text requires, and
the order in which a set of rule names is walked. -/
structure Prefilter where
  requiredLiteral : Str → Option Str
  setOrder : List Str → List Str
  perm : ∀ names, (setOrder names).Perm names

/-- `DnsblDecision`. -/
structure DnsblDecision where
  isFound : Bool
  inWhitelist : Bool
  inHsts : Bool
  nullBlocking : Bool
  nxdomain : Bool
  logType : Option Str
  bType : Str
  pType : Str
  feed : Str
  group : Str
  bEval : Str
  idnAlert : Option (Str × Str × Str)
  deriving DecidableEq, Repr

/-- The name is answered with a block. -/
def DnsblDecision.blocked (d : DnsblDecision) : Bool := d.isFound && !d.inWhitelist

/-- A block found: its band and what is reported for it. -/
structure Hit where
  band : BlockBand
  logType : Str
  feed : Str
  group : Str
  bType : Str
  bEval : Str
  deriving DecidableEq, Repr

def unknown : Str := "Unknown".toList
def python : Str := "Python".toList
def dnsblRegex : Str := "DNSBL_Regex".toList

/-- `iter_domain_suffixes`. -/
def iterDomainSuffixes (name : Str) : List Str := ancestors (dots name + 1) name

/-- The payload one suffix of `qName` blocks it with. -/
def zonePayload (zoneDb : Dict Str ZoneEntry) (qName q : Str) : Option BlockPayload :=
  (zoneDb.get q).bind (zoneEntryFor qName)

/-- `find_zone_match`. -/
def findZoneMatch (qName : Str) (zoneDb : Dict Str ZoneEntry) : Option (Str × BlockPayload) :=
  (iterDomainSuffixes qName).findSome? fun q => (zonePayload zoneDb qName q).map (q, ·)

/-- `resolve_feed_group`. -/
def resolveFeedGroup (index : Nat) (db : Dict Nat FeedGroup) : Str × Str :=
  match db.get index with
  | some feedGroup => (feedGroup.feed, feedGroup.group)
  | none => (unknown, unknown)

/-- What an entry of dataDB or zoneDB is reported as. -/
def entryHit (c : Containers) (entry : BlockPayload) (bType bEval : Str) : Hit where
  band := entry.band
  logType := entry.log
  feed := (resolveFeedGroup entry.index c.feedGroupIndexDb).1
  group := (resolveFeedGroup entry.index c.feedGroupIndexDb).2
  bType := bType
  bEval := bEval

def dataHit (c : Containers) (qName : Str) (entry : BlockPayload) : Hit :=
  entryHit c entry "DNSBL".toList qName

def zoneHit (c : Containers) (matched : Str) (entry : BlockPayload) : Hit :=
  entryHit c entry "TLD".toList matched

/-- What a built-in block is reported as. -/
def builtinHit (cfg : Cfg) (band : BlockBand) (feed group bEval : Str) : Hit where
  band := band
  logType := cfg.builtinLogFlag
  feed := feed
  group := group
  bType := python
  bEval := bEval

def regexHit (cfg : Cfg) (qName key : Str) (rule : RegexPayload BlockBand) : Hit :=
  builtinHit cfg rule.band key dnsblRegex qName

/-- `_tld_allow_blocks`. -/
def tldAllowBlocks (u : Unicode) (qName tld : Str) (cfg : Cfg) (c : Containers) : Bool :=
  let selected := if cfg.tldAllowList.isEmpty then c.tldAllowRoots else cfg.tldAllowList
  let roots := selectedTldRoots u selected
  if !cfg.tldAllow || roots.isEmpty || tld.isEmpty then false
  else match normalizeQuery u (rstripDots qName) with
    | none => true
    | some labels =>
        let (icann, pub) := prevailing c.pslRules labels
        if [icann, pub, rootLabel icann, rootLabel pub].any roots.contains then false
        else !(c.pslAllowPrivate && (splitDots icann).length < (splitDots pub).length)

/-- The mode in force, with the legacy flag behind it. -/
def idnModeOf (cfg : Cfg) : IdnMode :=
  match cfg.idnMode with
  | .mode m => m
  | .text s => (IdnMode.ofText s).getD (idnModeFromLegacy cfg.pythonIdn)
  | .absent => idnModeFromLegacy cfg.pythonIdn

/-- The IDN arm: a block, an alert, or neither. -/
def idnArm (u : Unicode) (cfg : Cfg) (qName : Str) : Option Hit × Option (Str × Str × Str) :=
  let mode := idnModeOf cfg
  if idnModeDecision qName mode then
    (some (builtinHit cfg .feed "IDN".toList "DNSBL_IDN".toList qName), none)
  else if mode = .confusable then
    match idnConfusableAction u qName cfg.pythonIdnBlockMalicious
        cfg.pythonIdnEscalateSuspicious with
    | (.block, some verdict) =>
        let (feed, group) := idnAttribution verdict
        (some (builtinHit cfg .feed feed group (idnDualForm verdict)), none)
    | (.alert, some verdict) =>
        let (feed, group) := idnAttribution verdict
        (none, some (feed, group, idnDualForm verdict))
    | _ => (none, none)
  else (none, none)

def tldAllowHit (u : Unicode) (cfg : Cfg) (c : Containers) (qName tld : Str) : Option Hit :=
  if qName ≠ cfg.dnsblIpv4 ∧ qName ≠ cfg.dnsblIpv6 ∧ tldAllowBlocks u qName tld cfg c then
    some (builtinHit cfg .feed "TLD_Allow".toList "DNSBL_TLD_Allow".toList qName)
  else none

/-- `_first_regex_match`. -/
def firstRegexMatch {β : Type u} (db : RegexDb β) (qName : Str) : Option (Str × RegexPayload β) :=
  db.items.find? fun item => item.2.search qName

/-- The user list, then the feed list, for a name that is not empty. -/
def regexArm (cfg : Cfg) (c : Containers) (qName : Str) : Option Hit :=
  if qName.isEmpty then none
  else
    ((if cfg.userRegexDB then firstRegexMatch c.userRegexDb qName else none).or
      (if cfg.regexDB then firstRegexMatch c.regexDb qName else none)).map
        fun hit => regexHit cfg qName hit.1 hit.2

/-- The lists: exact entries, then zones. -/
def listArm (cfg : Cfg) (c : Containers) (qName : Str) : Option Hit :=
  if cfg.pythonBlocking then
    ((if cfg.dataDB then c.dataDb.get qName else none).map (dataHit c qName)).or
      ((if cfg.zoneDB then findZoneMatch qName c.zoneDb else none).map
        fun hit => zoneHit c hit.1 hit.2)
  else none

/-- The first block found, with the alert of an IDN name that is not blocked. -/
def discover (u : Unicode) (qName tld : Str) (cfg : Cfg) (c : Containers) :
    Option Hit × Option (Str × Str × Str) :=
  match listArm cfg c qName with
  | some hit => (some hit, none)
  | none =>
      match tldAllowHit u cfg c qName tld with
      | some hit => (some hit, none)
      | none =>
          match idnArm u cfg qName with
          | (some hit, alert) => (some hit, alert)
          | (none, alert) => (regexArm cfg c qName, alert)

/-- Whether the prefilter lets a rule through to its search. -/
def Prefilter.passes (pf : Prefilter) (u : Unicode) (pattern qName : Str) : Bool :=
  match if pattern.isEmpty then none else pf.requiredLiteral pattern with
  | none => true
  | some literal => containsStr literal (u.lower qName)

/-- `_regex_candidates`: the names of the rules that can match. -/
def regexCandidates {β : Type u} (pf : Prefilter) (u : Unicode) (db : RegexDb β) (qName : Str) :
    List Str :=
  pf.setOrder ((db.items.filter fun item => pf.passes u item.2.pattern qName).map Prod.fst)

/-- The candidates whose rule matches, in the order of the walk. -/
def regexMatches {β : Type u} (pf : Prefilter) (u : Unicode) (db : RegexDb β) (qName : Str) :
    List (Str × RegexPayload β) :=
  (regexCandidates pf u db qName).filterMap fun key =>
    ((db.get key).filter fun rule => rule.search qName).map (key, ·)

def Hit.rank (hit : Hit) : Nat := hit.band.prio

/-- `_scan_block_band`, with the winning entry as what it is reported as. -/
def scanBlockBand (pf : Prefilter) (u : Unicode) (qName : Str) (cfg : Cfg) (c : Containers) :
    Option Hit :=
  let holder := offer Hit.rank none
    ((if cfg.dataDB then c.dataDb.get qName else none).map (dataHit c qName))
  let holder := (if cfg.zoneDB then iterDomainSuffixes qName else []).foldl
    (fun holder q => offer Hit.rank holder ((zonePayload c.zoneDb qName q).map (zoneHit c q)))
    holder
  if qName.isEmpty then holder
  else
    let holder := (if cfg.userRegexDB then regexMatches pf u c.userRegexDb qName else []).foldl
      (fun holder hit => offer Hit.rank holder (some (regexHit cfg qName hit.1 hit.2))) holder
    (if cfg.regexDB then regexMatches pf u c.regexDb qName else []).foldl
      (fun holder hit => offer Hit.rank holder (some (regexHit cfg qName hit.1 hit.2))) holder

/-- `_best_allow_regex`. -/
def bestAllowRegex (pf : Prefilter) (u : Unicode) (db : RegexDb AllowBand) (qName : Str)
    (best : Nat) : Nat :=
  (regexMatches pf u db qName).foldl (fun best hit => join best (some hit.2.band.prio)) best

/-- `_scan_allow_regex_band`. -/
def scanAllowRegexBand (pf : Prefilter) (u : Unicode) (qName : Str)
    (allowRegexDb userAllowRegexDb : RegexDb AllowBand) : Nat :=
  if qName.isEmpty then 0
  else
    let best :=
      if userAllowRegexDb.nonempty then bestAllowRegex pf u userAllowRegexDb qName 0 else 0
    if allowRegexDb.nonempty then bestAllowRegex pf u allowRegexDb qName best else best

/-- The names whose allows count. -/
def allowNames (qName qNameOriginal : Str) (isCname : Bool) : List Str :=
  qName :: if isCname then [qNameOriginal] else []

/-- The allow band of `_resolve_numeric_allow`. -/
def allowBand (pf : Prefilter) (u : Unicode) (qName qNameOriginal : Str) (isCname : Bool)
    (cfg : Cfg) (c : Containers) : Nat :=
  let best := if cfg.whiteDB then
      (allowNames qName qNameOriginal isCname).foldl
        (fun best n => max best (whitelistLookupBand n c.whiteDb cfg.pythonTldSeg)) 0
    else 0
  if cfg.userAllowRegexDB || cfg.allowRegexDB then
    max best (scanAllowRegexBand pf u qName c.allowRegexDb c.userAllowRegexDb)
  else best

/-- `_resolve_numeric_allow`. -/
def resolveNumericAllow (pf : Prefilter) (u : Unicode) (qName qNameOriginal : Str)
    (isCname : Bool) (cfg : Cfg) (c : Containers) (blockBand : Nat) : Bool :=
  blockBand ≤ allowBand pf u qName qNameOriginal isCname cfg c

/-- The fast path's answer: any allow overrides the block. -/
def resolveFastAllow (qName qNameOriginal : Str) (isCname : Bool) (cfg : Cfg) (c : Containers) :
    Bool :=
  cfg.whiteDB && (allowNames qName qNameOriginal isCname).any fun n =>
    whitelistCheckDomain n c.whiteDb cfg.pythonTldSeg

/-- The block the numeric path resolves: a strictly higher band found by the second scan
takes the report over. -/
def outranked (hit : Hit) (scanned : Option Hit) : Hit :=
  match scanned with
  | none => hit
  | some h => if hit.rank < h.rank then h else hit

/-- `hsts_check_domain`. -/
def hstsCheckDomain (name : Str) (hstsDb : Dict Str Nat) (hstsTlds : List Str) (tld : Str) :
    Bool × Str :=
  if hstsTlds.contains tld then (true, "HSTS_TLD".toList)
  else if (iterDomainSuffixes name).any fun q => (hstsDb.get q).isSome then (true, "HSTS".toList)
  else (false, python)

/-- The reply shape of a block that stands. -/
def shape (cfg : Cfg) (c : Containers) (qName tld : Str) (isCname : Bool) (hit : Hit) :
    DnsblDecision :=
  let (inHsts, pType) :=
    if cfg.hstsDB then hstsCheckDomain qName c.hstsDb cfg.hstsTlds tld else (false, python)
  let vip := hit.logType == "1".toList && !inHsts
  let bare := ["3".toList, "4".toList, "5".toList, "6".toList].contains hit.logType
  { isFound := true
    inWhitelist := false
    inHsts := inHsts && !bare
    nullBlocking := !vip
    nxdomain := hit.logType == "3".toList || hit.logType == "4".toList
    logType := some hit.logType
    bType := hit.bType ++ if isCname then "_CNAME".toList else []
    pType := if bare then python else pType
    feed := hit.feed
    group := hit.group
    bEval := hit.bEval
    idnAlert := none }

/-- What is left of a block an allow overrides. -/
def whitelisted (hit : Hit) : DnsblDecision where
  isFound := true
  inWhitelist := true
  inHsts := false
  nullBlocking := true
  nxdomain := false
  logType := some hit.logType
  bType := hit.bType
  pType := python
  feed := hit.feed
  group := hit.group
  bEval := hit.bEval
  idnAlert := none

def notFound : DnsblDecision where
  isFound := false
  inWhitelist := false
  inHsts := false
  nullBlocking := true
  nxdomain := false
  logType := none
  bType := python
  pType := python
  feed := unknown
  group := unknown
  bEval := []
  idnAlert := none

/-- `evaluate_domain`. -/
def evaluateDomain (pf : Prefilter) (u : Unicode) (qName qNameOriginal tld : Str)
    (isCname : Bool) (cfg : Cfg) (c : Containers) : DnsblDecision :=
  let (found, alert) := discover u qName tld cfg c
  match found with
  | none => { notFound with idnAlert := alert }
  | some hit =>
      if cfg.importantRules then
        let hit := outranked hit (scanBlockBand pf u qName cfg c)
        if resolveNumericAllow pf u qName qNameOriginal isCname cfg c hit.rank then
          { whitelisted hit with idnAlert := alert }
        else { shape cfg c qName tld isCname hit with idnAlert := alert }
      else if resolveFastAllow qName qNameOriginal isCname cfg c then
        { whitelisted hit with idnAlert := alert }
      else { shape cfg c qName tld isCname hit with idnAlert := alert }

/-! ### Configurations -/

/-- The flags of a configuration read off the databases. -/
def Cfg.ofContainers (cfg : Cfg) (c : Containers) : Cfg :=
  { cfg with
    dataDB := c.dataDb.nonempty
    zoneDB := c.zoneDb.nonempty
    whiteDB := c.whiteDb.nonempty
    regexDB := c.regexDb.nonempty
    allowRegexDB := c.allowRegexDb.nonempty
    userRegexDB := c.userRegexDb.nonempty
    userAllowRegexDB := c.userAllowRegexDb.nonempty
    hstsDB := c.hstsDb.nonempty }

/-- List blocking with every other option off. -/
def Cfg.listsOnly : Cfg where
  pythonBlocking := true
  dataDB := false
  zoneDB := false
  tldAllow := false
  tldAllowList := []
  dnsblIpv4 := "10.10.10.1".toList
  dnsblIpv6 := "::10.10.10.1".toList
  pythonIdn := false
  idnMode := .mode .off
  pythonIdnBlockMalicious := true
  pythonIdnEscalateSuspicious := false
  regexDB := false
  whiteDB := false
  allowRegexDB := false
  userRegexDB := false
  userAllowRegexDB := false
  importantRules := false
  pythonTldSeg := 1
  hstsDB := false
  hstsTlds := []
  builtinLogFlag := "0".toList

def Containers.empty : Containers where
  dataDb := Dict.empty
  zoneDb := Dict.empty
  whiteDb := Dict.empty
  regexDb := Dict.empty
  allowRegexDb := Dict.empty
  userRegexDb := Dict.empty
  userAllowRegexDb := Dict.empty
  feedGroupIndexDb := Dict.empty
  hstsDb := Dict.empty
  pslRules := {}
  tldAllowRoots := []
  pslAllowPrivate := false

/-- The prefilter where no literal can be proven: every rule is a candidate. -/
def Prefilter.alwaysRun : Prefilter := ⟨fun _ => none, id, fun names => .refl names⟩

end PfBlockerNG.Matcher
