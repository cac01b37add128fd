import PfBlockerNG.AbpRules

/-!
Reconciliation of the adblock rules of a build: the `$badfilter` prune, the reduction of
regexes, and the band of every rule that survives.
-/

namespace PfBlockerNG.Reconcile

open PfBlockerNG.Strings
open PfBlockerNG.PyText
open PfBlockerNG.Bands
open PfBlockerNG.DomainNames
open PfBlockerNG.AbpRules

universe u v

/-- `DNSBL_CLASS_DATA` and `DNSBL_CLASS_ZONE`. -/
inductive BlockClass where
  | data
  | zone
  deriving DecidableEq, Repr

/-- `BlockDomainRule`. -/
structure BlockDomainRule where
  cls : BlockClass
  key : Str
  band : BlockBand
  important : Bool
  provenance : Provenance
  feed : Str
  group : Str
  log : Str
  deriving DecidableEq, Repr

/-- `AllowDomainRule`. -/
structure AllowDomainRule where
  domain : Str
  wildcard : Bool
  band : AllowBand
  important : Bool
  provenance : Provenance
  deriving DecidableEq, Repr

/-- `RegexRule` of one kind, its pattern not compiled. -/
structure RegexRule (β : Type u) where
  pattern : Str
  band : β
  important : Bool
  provenance : Provenance
  feed : Str
  group : Str
  log : Str

/-- `ReconcileResult`, with the tally of the rejects. -/
structure ReconcileResult where
  blockDomains : List BlockDomainRule := []
  allowDomains : List AllowDomainRule := []
  blockRegexIrreducible : List (RegexRule BlockBand) := []
  allowRegexIrreducible : List (RegexRule AllowBand) := []
  importantRules : Bool := false
  pruned : Nat := 0
  reduced : Nat := 0
  skippedBadfilter : Nat := 0
  rejects : RejectTally

/-- `_dnsbl_rule_band` of a block. -/
def blockRuleBand (r : Rule) : BlockBand := blockPriority r.important (r.provenance == .user)

/-- `_dnsbl_rule_band` of an allow. -/
def allowRuleBand (r : Rule) : AllowBand := allowPriority r.important (r.provenance == .user)

def Rule.regexRule {β : Type u} (r : Rule) (band : β) : RegexRule β where
  pattern := r.keyOrPattern
  band := band
  important := r.important
  provenance := r.provenance
  feed := r.feed
  group := r.group
  log := r.log

/-- A domain of a rule, and whether a regex was reduced to it. -/
inductive Folded where
  | irreducible
  | overCaps
  | domain (wildcard : Bool) (domain : Str) (reduced : Bool)

def foldTarget (u : Unicode) (r : Rule) : Folded :=
  match r.target with
  | .domain => .domain r.wildcard r.keyOrPattern false
  | .regex =>
      match reduceRegex u r.keyOrPattern with
      | none => .irreducible
      | some (wildcard, domain) =>
          if withinWireCaps domain then .domain wildcard domain true else .overCaps

def classOf (exclusion : List Str) (wildcard : Bool) (domain : Str) : BlockClass :=
  if wildcard && !exclusion.contains domain then .zone else .data

/-- A surviving rule needs the numeric path. -/
def isImportant (r : Rule) : Bool :=
  r.important || (r.provenance == .feed && r.kind == .allow)

def addIrreducible (r : Rule) (result : ReconcileResult) : ReconcileResult :=
  let result := { result with
    importantRules := result.importantRules || r.provenance == Provenance.feed }
  match r.kind with
  | .allow => { result with allowRegexIrreducible :=
      result.allowRegexIrreducible ++ [Rule.regexRule r (allowRuleBand r)] }
  | .block => { result with blockRegexIrreducible :=
      result.blockRegexIrreducible ++ [Rule.regexRule r (blockRuleBand r)] }

def addDomain (exclusion : List Str) (r : Rule) (wildcard : Bool) (domain : Str)
    (result : ReconcileResult) : ReconcileResult :=
  match r.kind with
  | .allow => { result with allowDomains := result.allowDomains ++ [{
      domain := domain
      wildcard := wildcard
      band := allowRuleBand r
      important := r.important
      provenance := r.provenance }] }
  | .block => { result with blockDomains := result.blockDomains ++ [{
      cls := classOf exclusion wildcard domain
      key := domain
      band := blockRuleBand r
      important := r.important
      provenance := r.provenance
      feed := r.feed
      group := r.group
      log := r.log }] }

/-- One surviving rule. -/
def reconcileRule (u : Unicode) (exclusion : List Str) (result : ReconcileResult) (r : Rule) :
    ReconcileResult :=
  let result := { result with importantRules := result.importantRules || isImportant r }
  match foldTarget u r with
  | .irreducible => addIrreducible r result
  | .overCaps => { result with rejects := tallyReject result.rejects r.feed r.group .wireCap }
  | .domain wildcard domain reduced =>
      addDomain exclusion r wildcard domain
        { result with reduced := result.reduced + if reduced then 1 else 0 }

/-- Signatures the feed's `$badfilter` rules prune. -/
def badSignatures (rules : List Rule) : List (Str × List Str) :=
  (rules.filter fun r => r.badfilter && r.provenance == .feed).map (·.signature)

def isPruned (bad : List (Str × List Str)) (r : Rule) : Bool :=
  r.provenance == .feed && bad.contains r.signature

def survives (bad : List (Str × List Str)) (r : Rule) : Bool := !r.badfilter && !isPruned bad r

/-- `reconcile`. -/
def reconcile (u : Unicode) (rules : List Rule) (exclusion : List Str) (tally : RejectTally) :
    ReconcileResult :=
  let bad := badSignatures rules
  (rules.filter (survives bad)).foldl (reconcileRule u exclusion)
    { rejects := tally
      skippedBadfilter := rules.countP (·.badfilter)
      pruned := rules.countP fun r => !r.badfilter && isPruned bad r }

/-! ### What each rule contributes -/

/-- The block domain of a rule. -/
def blockDomain? (u : Unicode) (exclusion : List Str) (r : Rule) : Option BlockDomainRule :=
  match r.kind, foldTarget u r with
  | .block, .domain wildcard domain _ => some {
      cls := classOf exclusion wildcard domain
      key := domain
      band := blockRuleBand r
      important := r.important
      provenance := r.provenance
      feed := r.feed
      group := r.group
      log := r.log }
  | _, _ => none

/-- The allow domain of a rule. -/
def allowDomain? (u : Unicode) (r : Rule) : Option AllowDomainRule :=
  match r.kind, foldTarget u r with
  | .allow, .domain wildcard domain _ => some {
      domain := domain
      wildcard := wildcard
      band := allowRuleBand r
      important := r.important
      provenance := r.provenance }
  | _, _ => none

def blockRegex? (u : Unicode) (r : Rule) : Option (RegexRule BlockBand) :=
  match r.kind, foldTarget u r with
  | .block, .irreducible => some (Rule.regexRule r (blockRuleBand r))
  | _, _ => none

def allowRegex? (u : Unicode) (r : Rule) : Option (RegexRule AllowBand) :=
  match r.kind, foldTarget u r with
  | .allow, .irreducible => some (Rule.regexRule r (allowRuleBand r))
  | _, _ => none

/-- A rule engages the numeric path. -/
def engages (u : Unicode) (r : Rule) : Bool :=
  isImportant r || (r.provenance == .feed && match foldTarget u r with
    | .irreducible => true
    | _ => false)

variable {u : Unicode} {exclusion : List Str}

/-- One rule adds what it contributes and nothing else. -/
theorem reconcileRule_spec (u : Unicode) (exclusion : List Str) (result : ReconcileResult)
    (r : Rule) :
    (reconcileRule u exclusion result r).blockDomains =
        result.blockDomains ++ (blockDomain? u exclusion r).toList ∧
      (reconcileRule u exclusion result r).allowDomains =
        result.allowDomains ++ (allowDomain? u r).toList ∧
      (reconcileRule u exclusion result r).blockRegexIrreducible =
        result.blockRegexIrreducible ++ (blockRegex? u r).toList ∧
      (reconcileRule u exclusion result r).allowRegexIrreducible =
        result.allowRegexIrreducible ++ (allowRegex? u r).toList ∧
      (reconcileRule u exclusion result r).importantRules =
        (result.importantRules || engages u r) := by
  unfold reconcileRule
  dsimp only
  cases hkind : r.kind with
  | block =>
      cases hfold : foldTarget u r <;>
        simp [addIrreducible, addDomain, blockDomain?, allowDomain?, blockRegex?, allowRegex?,
          engages, hkind, hfold, Bool.or_assoc]
  | allow =>
      cases hfold : foldTarget u r <;>
        simp [addIrreducible, addDomain, blockDomain?, allowDomain?, blockRegex?, allowRegex?,
          engages, hkind, hfold, Bool.or_assoc]

theorem filterMap_cons_toList {α : Type u} {β : Type v} (f : α → Option β) (a : α) (l : List α) :
    (a :: l).filterMap f = (f a).toList ++ l.filterMap f := by
  rw [List.filterMap_cons]
  cases f a <;> rfl

theorem foldl_reconcileRule (u : Unicode) (exclusion : List Str) (rules : List Rule)
    (result : ReconcileResult) :
    (rules.foldl (reconcileRule u exclusion) result).blockDomains =
        result.blockDomains ++ rules.filterMap (blockDomain? u exclusion) ∧
      (rules.foldl (reconcileRule u exclusion) result).allowDomains =
        result.allowDomains ++ rules.filterMap (allowDomain? u) ∧
      (rules.foldl (reconcileRule u exclusion) result).blockRegexIrreducible =
        result.blockRegexIrreducible ++ rules.filterMap (blockRegex? u) ∧
      (rules.foldl (reconcileRule u exclusion) result).allowRegexIrreducible =
        result.allowRegexIrreducible ++ rules.filterMap (allowRegex? u) ∧
      (rules.foldl (reconcileRule u exclusion) result).importantRules =
        (result.importantRules || rules.any (engages u)) := by
  induction rules generalizing result with
  | nil => simp
  | cons r rules ih =>
      obtain ⟨hblock, hallow, hbrx, harx, himp⟩ :=
        reconcileRule_spec u exclusion result r
      obtain ⟨ihblock, ihallow, ihbrx, iharx, ihimp⟩ := ih (reconcileRule u exclusion result r)
      simp only [List.foldl_cons, ihblock, ihallow, ihbrx, iharx, ihimp, hblock, hallow, hbrx, harx,
        himp, List.append_assoc, filterMap_cons_toList, List.any_cons, Bool.or_assoc, and_self]

/-- The rules that survive the prune. -/
def survivors (rules : List Rule) : List Rule := rules.filter (survives (badSignatures rules))

/-- The result is what the survivors contribute, in order. -/
theorem reconcile_spec (rules : List Rule) (tally : RejectTally) :
    (reconcile u rules exclusion tally).blockDomains =
        (survivors rules).filterMap (blockDomain? u exclusion) ∧
      (reconcile u rules exclusion tally).allowDomains =
        (survivors rules).filterMap (allowDomain? u) ∧
      (reconcile u rules exclusion tally).blockRegexIrreducible =
        (survivors rules).filterMap (blockRegex? u) ∧
      (reconcile u rules exclusion tally).allowRegexIrreducible =
        (survivors rules).filterMap (allowRegex? u) ∧
      (reconcile u rules exclusion tally).importantRules = (survivors rules).any (engages u) := by
  obtain ⟨hblock, hallow, hbrx, harx, himp⟩ :=
    foldl_reconcileRule u exclusion (survivors rules)
      { rejects := tally
        skippedBadfilter := rules.countP (·.badfilter)
        pruned := rules.countP fun r => !r.badfilter && isPruned (badSignatures rules) r }
  simp only [List.nil_append, Bool.false_or] at hblock hallow hbrx harx himp
  exact ⟨hblock, hallow, hbrx, harx, himp⟩

end PfBlockerNG.Reconcile
