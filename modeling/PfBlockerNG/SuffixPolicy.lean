import PfBlockerNG.BlockWrites

/-!
The feed policy at public suffixes: what a feed may not write where a section ignores its suffixes
or keeps their apex, and what the policies leave alone.
-/

namespace PfBlockerNG.SuffixPolicy

open PfBlockerNG.Strings
open PfBlockerNG.PyText
open PfBlockerNG.Bands
open PfBlockerNG.PublicSuffix
open PfBlockerNG.DomainNames
open PfBlockerNG.AbpRules
open PfBlockerNG.Reconcile
open PfBlockerNG.Build
open PfBlockerNG.BlockStores
open PfBlockerNG.BlockWrites

/-- The sections of the public suffix list. -/
inductive Part where
  | icannDomains
  | privateDomains
  deriving DecidableEq, Repr

def Part.policy (config : Config) : Part → Str
  | .icannDomains => config.pslFeedIcannPolicy
  | .privateDomains => config.pslFeedPrivatePolicy

/-- A key that is a public suffix under the rules of both sections, governed by one of them. -/
def IsSuffixOf (u : Unicode) (rules : PslRules) (part : Part) (key : Str) : Prop :=
  ∃ resolution, resolve u key rules = .ok resolution ∧ key = resolution.publicSuffix ∧
    part = if resolution.privateActive then .privateDomains else .icannDomains

/-- A line of a feed. -/
def isFeed : Source → Bool
  | .row _ _ .feed => true
  | _ => false

/-- What the policy of a part forbids a feed. -/
structure Obeys (config : Config) (part : Part) (w : Write) : Prop where
  written : part.policy config ≠ ignore
  exact : part.policy config = apex → w.cls ≠ .zone

/-- A write without the number of its index. -/
def Write.unnumbered (w : Write) : Write := { w with payload := { w.payload with index := 0 } }

/-- What the blacklist and the rows of the user write. -/
def exempt (ws : List Write) : List Write :=
  (ws.filter fun w => !isFeed w.source).map Write.unnumbered

def withPolicies (config : Config) (privatePolicy icannPolicy : Str) : Config :=
  { config with pslFeedPrivatePolicy := privatePolicy, pslFeedIcannPolicy := icannPolicy }

section

variable {u : Unicode} {manifest : List FeedRow} {config : Config}

theorem honor_ne_ignore : Config.honor ≠ ignore := by decide

theorem honor_ne_apex : Config.honor ≠ apex := by decide

/-- A policy that is not the default is in force. -/
theorem feedPolicyActive_of_policy {part : Part} (h : part.policy config ≠ Config.honor) :
    config.feedPolicyActive = true := by
  rw [Config.feedPolicyActive, Bool.or_eq_true, bne_iff_ne, bne_iff_ne]
  cases part with
  | icannDomains => exact Or.inr h
  | privateDomains => exact Or.inl h

theorem policyFor_of_suffix {part : Part} {key : Str} (hactive : config.feedPolicyActive = true)
    (h : IsSuffixOf u config.pslRules part key) :
    policyFor u config .feed key = some (part.policy config) := by
  obtain ⟨resolution, hresolve, hkey, rfl⟩ := h
  rw [policyFor, if_pos ⟨rfl, hactive⟩, suffixFeedPolicy, hresolve]
  dsimp only
  rw [if_neg (not_not_intro hkey)]
  split <;> rfl

theorem classify_key (u : Unicode) (domain : Str) (rules : PslRules) (exclusion : List Str)
    (includePrivate : Bool) (blacklist : List Str) :
    (tldWildcardClassify u domain rules exclusion includePrivate blacklist).2 = domain := by
  unfold tldWildcardClassify
  split
  · rfl
  · split
    · rfl
    · next resolution _ =>
        dsimp only
        generalize (if includePrivate = true then resolution.publicSuffix
          else resolution.icannSuffix) = suffix
        split
        · rfl
        · split
          · rfl
          · split <;> rfl

theorem obeys_of_applyPolicy {part : Part} {key : Str} {cls : BlockClass} {entry : BlockEntry}
    (h : IsSuffixOf u config.pslRules part key)
    (hkept : (applyPolicy (policyFor u config .feed key) cls key).kept = some entry) :
    part.policy config ≠ ignore ∧ (part.policy config = apex → entry.cls ≠ .zone) := by
  constructor
  · intro hignore
    have hactive := feedPolicyActive_of_policy (hignore.symm ▸ honor_ne_ignore.symm)
    rw [policyFor_of_suffix hactive h, hignore, applyPolicy, if_pos rfl] at hkept
    cases hkept
  · intro hapex
    have hactive := feedPolicyActive_of_policy (hapex.symm ▸ honor_ne_apex.symm)
    have hne : some apex ≠ some ignore := by decide
    rw [policyFor_of_suffix hactive h, hapex, applyPolicy, if_neg hne] at hkept
    split at hkept
    · obtain rfl := Option.some.inj hkept
      exact fun hcls => by cases hcls
    · next hzone =>
        obtain rfl := Option.some.inj hkept
        exact fun hcls => hzone ⟨rfl, hcls⟩

theorem key_of_applyPolicy {policy : Option Str} {cls : BlockClass} {key : Str}
    {entry : BlockEntry} (h : (applyPolicy policy cls key).kept = some entry) :
    entry.key = key := by
  unfold applyPolicy at h
  split at h
  · cases h
  · split at h
    · obtain rfl := Option.some.inj h
      rfl
    · obtain rfl := Option.some.inj h
      rfl

/-- A block entry of a feed, whatever line it comes from. -/
theorem obeys_of_blockEvent {f : Top1mFilter} {feed group : Str} {prov : Provenance}
    {indexed : Str × Str} {entry : BlockEntry} {payload : Nat → BlockPayload} {ix : Indexer}
    {w : Write} {part : Part} {key : Str} {cls : BlockClass}
    (hwrite : (blockEvent f (.row feed group prov) indexed entry payload).write ix = some w)
    (hkept : (applyPolicy (policyFor u config prov key) cls key).kept = some entry)
    (hfeed : isFeed w.source = true) (h : IsSuffixOf u config.pslRules part w.key) :
    Obeys config part w := by
  rw [write_blockEvent] at hwrite
  split at hwrite
  · cases hwrite
  · obtain rfl := Option.some.inj hwrite
    cases prov with
    | user => cases hfeed
    | feed =>
        dsimp only at h
        rw [key_of_applyPolicy hkept] at h
        obtain ⟨hwritten, hexact⟩ := obeys_of_applyPolicy h hkept
        exact ⟨hwritten, hexact⟩

theorem plainEntry_kept {prov : Provenance} {stripped : Str} {entry : BlockEntry}
    (h : (plainEntry u config prov stripped).kept = some entry) :
    ∃ domain cls, (applyPolicy (policyFor u config prov domain) cls domain).kept = some entry := by
  unfold plainEntry at h
  split at h
  · cases h
  · split at h
    · cases h
    · next domain _ =>
        dsimp only at h
        rw [classify_key] at h
        exact ⟨domain, _, h⟩

theorem plainLineEntry_kept {row : FeedRow} {line : Str} {entry : BlockEntry}
    (h : plainLineEntry u config row line = some entry) :
    (plainEntry u config row.prov (strip line)).kept = some entry := by
  unfold plainLineEntry at h
  split at h
  · cases h
  · exact h

theorem obeys_of_write {w : Write} {part : Part} (hw : w ∈ blockWrites u manifest config)
    (hfeed : isFeed w.source = true) (h : IsSuffixOf u config.pslRules part w.key) :
    Obeys config part w := by
  obtain ⟨e, he, ix, hwrite⟩ := exists_event_of_write hw
  rcases event_cases he with ⟨tld, rfl⟩ | ⟨row, -, rfl⟩ | ⟨row, -, line, entry, hentry, rfl⟩ |
    ⟨b, -, entry, hentry, rfl⟩
  · obtain rfl := Option.some.inj hwrite
    cases hfeed
  · cases hwrite
  · obtain ⟨domain, cls, hkept⟩ := plainEntry_kept (plainLineEntry_kept hentry)
    exact obeys_of_blockEvent hwrite hkept hfeed h
  · exact obeys_of_blockEvent hwrite hentry hfeed h

/-! ### What the policies leave alone -/

/-- What an event of the blacklist or of the user writes. -/
def exemptWrite (e : Event) : Option Write :=
  if isFeed e.source then none else (e.write {}).map Write.unnumbered

/-- The block of an event is the same under every index. -/
def Unnumbered (e : Event) : Prop := ∀ ix, (e.write ix).map Write.unnumbered =
  (e.write {}).map Write.unnumbered

theorem exempt_writesFrom {es : List Event} (hes : ∀ e ∈ es, Unnumbered e) (ix : Indexer) :
    exempt (writesFrom ix es) = es.filterMap exemptWrite := by
  induction es generalizing ix with
  | nil => rfl
  | cons e es ih =>
      have hrest := ih (fun e' he' => hes e' (List.mem_cons_of_mem _ he')) (e.index ix).2
      have hwrite := hes e List.mem_cons_self ix
      unfold exempt at hrest ⊢
      rw [writesFrom, List.filter_append, List.map_append, hrest, filterMap_cons_toList]
      congr 1
      rw [exemptWrite, ← hwrite, Event.write]
      cases e.block with
      | none => cases isFeed e.source <;> rfl
      | some b => cases hfeed : isFeed e.source <;> simp [hfeed]

theorem unnumbered_blockEvent (f : Top1mFilter) (source : Source) (indexed : Str × Str)
    (entry : BlockEntry) {payload : Nat → BlockPayload}
    (h : ∀ i j, { payload i with index := 0 } = { payload j with index := 0 }) :
    Unnumbered (blockEvent f source indexed entry payload) := by
  intro ix
  rw [write_blockEvent, write_blockEvent]
  split
  · rfl
  · rw [Option.map_some, Option.map_some, Write.unnumbered, Write.unnumbered, h _ _]

theorem unnumbered_of_mem {e : Event} (h : e ∈ events u manifest config) : Unnumbered e := by
  rcases event_cases h with ⟨tld, rfl⟩ | ⟨row, -, rfl⟩ | ⟨row, -, line, entry, -, rfl⟩ |
    ⟨b, -, entry, -, rfl⟩
  · exact fun _ => rfl
  · exact fun _ => rfl
  · exact unnumbered_blockEvent _ _ _ _ fun _ _ => rfl
  · exact unnumbered_blockEvent _ _ _ _ fun _ _ => rfl

theorem exempt_blockWrites (u : Unicode) (manifest : List FeedRow) (config : Config) :
    exempt (blockWrites u manifest config) =
      (events u manifest config).filterMap exemptWrite :=
  exempt_writesFrom (fun _ he => unnumbered_of_mem he) {}

theorem policyFor_user (u : Unicode) (config : Config) (name : Str) :
    policyFor u config .user name = none := if_neg fun h => by cases h.1

variable {privatePolicy icannPolicy : Str}

theorem exempt_plainLineEvent (f : Top1mFilter) (row : FeedRow) (line : Str) :
    (plainLineEvent u (withPolicies config privatePolicy icannPolicy) f row line).bind exemptWrite =
      (plainLineEvent u config f row line).bind exemptWrite := by
  unfold plainLineEvent rowSource
  cases hprov : row.prov with
  | feed =>
      have hnone : ∀ config, ((plainLineEntry u config row line).map fun entry =>
          blockEvent f (.row row.feed row.group .feed) (row.feed, row.group) entry
            (plainPayload row)).bind exemptWrite = none := by
        intro config
        cases plainLineEntry u config row line <;> rfl
      rw [hnone, hnone]
  | user =>
      have hsame : plainLineEntry u (withPolicies config privatePolicy icannPolicy) row line =
          plainLineEntry u config row line := by
        unfold plainLineEntry plainEntry
        simp only [hprov, policyFor_user]
        rfl
      rw [hsame]

theorem exempt_abpEvent (f : Top1mFilter) (b : BlockDomainRule) :
    (abpEvent u (withPolicies config privatePolicy icannPolicy) f b).bind exemptWrite =
      (abpEvent u config f b).bind exemptWrite := by
  unfold abpEvent
  cases hprov : b.provenance with
  | feed =>
      have hnone : ∀ config, ((abpEntry u config b).kept.map fun entry =>
          blockEvent f (.row b.feed b.group .feed) (orDefault b.feed dnsbl, orDefault b.group dnsbl)
            entry (abpPayload b)).bind exemptWrite = none := by
        intro config
        cases (abpEntry u config b).kept <;> rfl
      rw [hnone, hnone]
  | user =>
      have hsame : abpEntry u (withPolicies config privatePolicy icannPolicy) b =
          abpEntry u config b := by
        simp only [abpEntry, hprov, policyFor_user]
      rw [hsame]

theorem exempt_rowEvents (f : Top1mFilter) (row : FeedRow) :
    (rowEvents u (withPolicies config privatePolicy icannPolicy) f row).filterMap exemptWrite =
      (rowEvents u config f row).filterMap exemptWrite := by
  unfold rowEvents
  split
  · rfl
  · rw [List.filterMap_filterMap, List.filterMap_filterMap]
    exact congrArg (row.lines.filterMap ·) (funext fun line => exempt_plainLineEvent f row line)

/-- The blacklist and the rows of the user write the same under any policies. -/
theorem exempt_withPolicies (u : Unicode) (manifest : List FeedRow) (config : Config)
    (privatePolicy icannPolicy : Str) :
    exempt (blockWrites u manifest (withPolicies config privatePolicy icannPolicy)) =
      exempt (blockWrites u manifest config) := by
  have hrows (f : Top1mFilter) : (manifest.flatMap
      (rowEvents u (withPolicies config privatePolicy icannPolicy) f)).filterMap exemptWrite =
        (manifest.flatMap (rowEvents u config f)).filterMap exemptWrite := by
    rw [List.filterMap_flatMap, List.filterMap_flatMap]
    exact congrArg (manifest.flatMap ·) (funext (exempt_rowEvents f))
  have habp (f : Top1mFilter) (blocks : List BlockDomainRule) : (blocks.filterMap
      (abpEvent u (withPolicies config privatePolicy icannPolicy) f)).filterMap exemptWrite =
        (blocks.filterMap (abpEvent u config f)).filterMap exemptWrite := by
    rw [List.filterMap_filterMap, List.filterMap_filterMap]
    exact congrArg (blocks.filterMap ·) (funext (exempt_abpEvent f))
  rw [exempt_blockWrites, exempt_blockWrites]
  unfold events
  dsimp only
  rw [List.filterMap_append, List.filterMap_append, List.filterMap_append, List.filterMap_append,
    hrows, habp]
  rfl

end

/-- Every entry is a write; a feed writes nothing at a suffix its section ignores and no zone at one
whose apex its section keeps; what the blacklist and the user write does not depend on the
policies. -/
theorem suffix_policy (u : Unicode) (manifest : List FeedRow) (config : Config) :
    (∀ cls k payload, Entry u manifest config k payload cls →
      ∃ w ∈ blockWrites u manifest config, writtenTo cls k w = true ∧ w.payload = payload) ∧
    (∀ w ∈ blockWrites u manifest config, ∀ part, isFeed w.source = true →
      IsSuffixOf u config.pslRules part w.key → Obeys config part w) ∧
    ∀ privatePolicy icannPolicy,
      exempt (blockWrites u manifest (withPolicies config privatePolicy icannPolicy)) =
        exempt (blockWrites u manifest config) := by
  refine ⟨fun cls k payload hentry => ?_, fun _ hw _ hfeed h => obeys_of_write hw hfeed h,
    exempt_withPolicies u manifest config⟩
  obtain ⟨w, hlast, hpayload⟩ := (entry_iff cls).mp hentry
  obtain ⟨hmem, hwritten⟩ := mem_of_lastWrite hlast
  exact ⟨w, hmem, hwritten, hpayload⟩

/-- A feed rule at a private suffix whose apex is kept, beside the same rule of the user. -/
def suffixRows : List FeedRow :=
  [{ feed := "feed".toList, group := "g".toList, logFlag := "1".toList,
     lines := ["||github.io^".toList] },
   { feed := "custom".toList, group := "g".toList, logFlag := "1".toList,
     provenance := some "user".toList, lines := ["||github.io^".toList] }]

def suffixConfig : Config :=
  { pslRules := { icannExact := ["io".toList], privateExact := ["github.io".toList] }
    pslFeedPrivatePolicy := apex }

theorem suffix_policy_apex :
    Obeys suffixConfig .privateDomains
        ⟨.row "feed".toList "g".toList .feed, ("feed".toList, "g".toList), .data,
          "github.io".toList, ⟨"1".toList, 0, false, .feed⟩⟩ ∧
      exempt (blockWrites asciiOnly suffixRows (withPolicies suffixConfig ignore ignore)) =
        exempt (blockWrites asciiOnly suffixRows suffixConfig) := by
  obtain ⟨-, hobeys, hexempt⟩ := suffix_policy asciiOnly suffixRows suffixConfig
  refine ⟨hobeys _ (by decide +kernel) _ rfl ⟨⟨"io".toList, "github.io".toList, [], true⟩, ?_, rfl,
    rfl⟩, hexempt _ _⟩
  decide +kernel

end PfBlockerNG.SuffixPolicy
