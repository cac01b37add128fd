import PfBlockerNG.AllowStores
import PfBlockerNG.BlockBands

/-!
One more allow in the input of a build: the blocks stay as they are, and the whitelist
changes at one domain.
-/

namespace PfBlockerNG.AllowMerge

open PfBlockerNG.Strings
open PfBlockerNG.PyText
open PfBlockerNG.OrderedDict
open PfBlockerNG.Bands
open PfBlockerNG.TopElement
open PfBlockerNG.AbpRules
open PfBlockerNG.Reconcile
open PfBlockerNG.Whitelist
open PfBlockerNG.Matcher
open PfBlockerNG.Precedence
open PfBlockerNG.Build
open PfBlockerNG.BlockStores
open PfBlockerNG.FastPath
open PfBlockerNG.BlockBands
open PfBlockerNG.AllowStores

/-- What an adblock rule allows: nothing when a `$badfilter` of the manifest prunes it. -/
def ruleAllow? (u : Unicode) (manifest : List FeedRow) (rule : Rule) : Option Allow :=
  if isPruned (badSignatures (manifestRules u manifest)) rule then none
  else (allowDomain? u rule).map abpAllow

/-- One more line that allows, anywhere in an input: the input it gives and the allow the
line adds, if it adds one. -/
inductive AddsAllow (u : Unicode) (manifest : List FeedRow) (config : Config) :
    List FeedRow → Config → Option Allow → Prop
  | whitelist (before after : List Str) (line : Str)
      (hlines : config.userWhitelist = before ++ after) :
      AddsAllow u manifest config manifest
        { config with userWhitelist := before ++ line :: after } (userAllow? u line)
  | unlock (before after : List Str) (line : Str) (hlines : config.userUnlock = before ++ after) :
      AddsAllow u manifest config manifest
        { config with userUnlock := before ++ line :: after } (userAllow? u line)
  | permit (rows rest : List FeedRow) (row : FeedRow) (before after : List Str) (line : Str)
      (hrows : manifest = rows ++ row :: rest) (hlines : row.lines = before ++ after)
      (hpermit : row.isPermit = true) :
      AddsAllow u manifest config
        (rows ++ { row with lines := before ++ line :: after } :: rest) config
        (permitAllow? u line)
  | abp (rows rest : List FeedRow) (row : FeedRow) (before after : List Str) (line : Str)
      (rule : Rule) (hrows : manifest = rows ++ row :: rest) (hlines : row.lines = before ++ after)
      (hpermit : row.isPermit = false) (hrule : ruleLine u row line = some rule)
      (hallow : rule.kind = .allow) (hbad : rule.badfilter = false)
      (hreducible : allowRegex? u rule = none) :
      AddsAllow u manifest config
        (rows ++ { row with lines := before ++ line :: after } :: rest) config
        (ruleAllow? u manifest rule)

variable {u : Unicode} {manifest manifest' : List FeedRow} {config config' : Config}
  {added : Option Allow}

/-! ### What stays -/

/-- A rule that is no `$badfilter` prunes nothing; it survives or it does not. -/
theorem survivors_insert (before after : List Rule) {rule : Rule} (hbad : rule.badfilter = false) :
    ∃ s₁ s₂, survivors (before ++ after) = s₁ ++ s₂ ∧
      survivors (before ++ rule :: after) =
        s₁ ++ (if isPruned (badSignatures (before ++ after)) rule then [] else [rule]) ++ s₂ := by
  have hsame : badSignatures (before ++ rule :: after) = badSignatures (before ++ after) := by
    simp [badSignatures, List.filter_append, hbad]
  refine ⟨_, _, List.filter_append .., ?_⟩
  rw [survivors, hsame, List.filter_append, List.filter_cons, List.append_assoc]
  congr 1
  unfold survives
  rw [hbad]
  split <;> simp_all

/-- What the blocks of two inputs have in common. -/
structure SameBlocks (u : Unicode) (manifest : List FeedRow) (config : Config)
    (manifest' : List FeedRow) (config' : Config) : Prop where
  filter : top1mFilter u manifest' config' = top1mFilter u manifest config
  emissions : emissions u manifest' config' = emissions u manifest config
  regexDb : (build u manifest' config').regexDb = (build u manifest config).regexDb
  userRegexDb : (build u manifest' config').userRegexDb = (build u manifest config).userRegexDb
  allowRegexDb : (build u manifest' config').allowRegexDb = (build u manifest config).allowRegexDb
  userAllowRegexDb : (build u manifest' config').userAllowRegexDb =
    (build u manifest config).userAllowRegexDb
  pslRules : config'.pslRules = config.pslRules
  builtinLogFlag : config'.builtinLogFlag = config.builtinLogFlag

/-- The four regex lists come from the surviving rules. -/
theorem sameRegexDbs (u : Unicode) (manifest : List FeedRow) (config : Config)
    (manifest' : List FeedRow) (config' : Config) (hcap : config'.regexCap = config.regexCap)
    (hblock : (survivors (manifestRules u manifest')).filterMap (blockRegex? u) =
      (survivors (manifestRules u manifest)).filterMap (blockRegex? u))
    (hallow : (survivors (manifestRules u manifest')).filterMap (allowRegex? u) =
      (survivors (manifestRules u manifest)).filterMap (allowRegex? u)) :
    (build u manifest' config').regexDb = (build u manifest config).regexDb ∧
      (build u manifest' config').userRegexDb = (build u manifest config).userRegexDb ∧
      (build u manifest' config').allowRegexDb = (build u manifest config).allowRegexDb ∧
      (build u manifest' config').userAllowRegexDb =
        (build u manifest config).userAllowRegexDb := by
  obtain ⟨h₁, h₂, h₃, h₄⟩ := build_regexDbs u manifest config
  obtain ⟨h₁', h₂', h₃', h₄'⟩ := build_regexDbs u manifest' config'
  rw [h₁, h₂, h₃, h₄, h₁', h₂', h₃', h₄', hblock, hallow, hcap]
  exact ⟨rfl, rfl, rfl, rfl⟩

theorem top1mFilter_insert (u : Unicode) (config : Config) (rows rest : List FeedRow)
    (row : FeedRow) (lines : List Str) :
    top1mFilter u (rows ++ { row with lines := lines } :: rest) config =
      top1mFilter u (rows ++ row :: rest) config := by
  unfold top1mFilter
  simp only [List.filter_append, List.filter_cons]
  cases row.top1m <;> simp

theorem sameBlocks_whitelist (lines : List Str) :
    SameBlocks u manifest config manifest { config with userWhitelist := lines } := by
  obtain ⟨h₁, h₂, h₃, h₄⟩ := sameRegexDbs u manifest config manifest
    { config with userWhitelist := lines } rfl rfl rfl
  exact ⟨rfl, rfl, h₁, h₂, h₃, h₄, rfl, rfl⟩

theorem sameBlocks_unlock (lines : List Str) :
    SameBlocks u manifest config manifest { config with userUnlock := lines } := by
  obtain ⟨h₁, h₂, h₃, h₄⟩ := sameRegexDbs u manifest config manifest
    { config with userUnlock := lines } rfl rfl rfl
  exact ⟨rfl, rfl, h₁, h₂, h₃, h₄, rfl, rfl⟩

theorem sameBlocks_permit (rows rest : List FeedRow) {row : FeedRow} (lines : List Str)
    (hpermit : row.isPermit = true) :
    SameBlocks u (rows ++ row :: rest) config (rows ++ { row with lines := lines } :: rest)
      config := by
  have hpermit' : FeedRow.isPermit { row with lines := lines } = true := hpermit
  have hrules : manifestRules u (rows ++ { row with lines := lines } :: rest) =
      manifestRules u (rows ++ row :: rest) := by
    simp [manifestRules, rowRules, hpermit, hpermit']
  obtain ⟨h₁, h₂, h₃, h₄⟩ := sameRegexDbs u (rows ++ row :: rest) config
    (rows ++ { row with lines := lines } :: rest) config rfl (by rw [hrules]) (by rw [hrules])
  have hfilter := top1mFilter_insert u config rows rest row lines
  refine ⟨hfilter, ?_, h₁, h₂, h₃, h₄, rfl, rfl⟩
  unfold emissions
  dsimp only
  rw [hfilter, abpBlocks, hrules]
  simp [rowEmissions, hpermit, hpermit', abpBlocks]

theorem isAbp_of_ruleLine {row : FeedRow} {line : Str} {rule : Rule}
    (h : ruleLine u row line = some rule) : plainLineEntry u config row line = none := by
  unfold ruleLine at h
  unfold plainLineEntry
  split at h
  · rename_i habp
    rw [if_pos habp]
  · cases h

theorem manifestRules_insert (rows rest : List FeedRow) {row : FeedRow} {before after : List Str}
    {line : Str} {rule : Rule} (hlines : row.lines = before ++ after)
    (hpermit : row.isPermit = false) (hrule : ruleLine u row line = some rule) :
    ∃ r₁ r₂, manifestRules u (rows ++ row :: rest) = r₁ ++ r₂ ∧
      manifestRules u (rows ++ { row with lines := before ++ line :: after } :: rest) =
        r₁ ++ rule :: r₂ := by
  have hpermit' : FeedRow.isPermit { row with lines := before ++ line :: after } = false := hpermit
  refine ⟨rows.flatMap (rowRules u) ++ before.filterMap (ruleLine u row),
    after.filterMap (ruleLine u row) ++ rest.flatMap (rowRules u), ?_, ?_⟩
  · simp [manifestRules, rowRules, hpermit, hlines, List.filterMap_append]
  · have hsame : ruleLine u { row with lines := before ++ line :: after } = ruleLine u row := rfl
    simp [manifestRules, rowRules, hpermit', hsame, hrule, List.filterMap_append]

theorem allow_contributes {rule : Rule} (hallow : rule.kind = .allow)
    (exclusion : List Str) : blockDomain? u exclusion rule = none ∧ blockRegex? u rule = none := by
  simp [blockDomain?, blockRegex?, hallow]

theorem filterMap_survivors_insert {β : Type} {before after : List Rule} {rule : Rule}
    (hbad : rule.badfilter = false) (g : Rule → Option β) (hg : g rule = none) :
    (survivors (before ++ rule :: after)).filterMap g =
      (survivors (before ++ after)).filterMap g := by
  obtain ⟨s₁, s₂, hwithout, hwith⟩ := survivors_insert before after hbad
  rw [hwithout, hwith]
  split <;> simp [List.filterMap_append, hg]

theorem sameBlocks_abp {rows rest : List FeedRow} {row : FeedRow} {before after : List Str}
    {line : Str} {rule : Rule} (hlines : row.lines = before ++ after)
    (hpermit : row.isPermit = false) (hrule : ruleLine u row line = some rule)
    (hallow : rule.kind = .allow) (hbad : rule.badfilter = false)
    (hreducible : allowRegex? u rule = none) :
    SameBlocks u (rows ++ row :: rest) config
      (rows ++ { row with lines := before ++ line :: after } :: rest) config := by
  obtain ⟨r₁, r₂, hwithout, hwith⟩ :=
    manifestRules_insert rows rest hlines hpermit hrule
  have hnone := allow_contributes (u := u) hallow config.exclusion
  obtain ⟨h₁, h₂, h₃, h₄⟩ := sameRegexDbs u (rows ++ row :: rest) config
    (rows ++ { row with lines := before ++ line :: after } :: rest) config rfl
    (by rw [hwithout, hwith, filterMap_survivors_insert hbad _ hnone.2])
    (by rw [hwithout, hwith, filterMap_survivors_insert hbad _ hreducible])
  have hfilter := top1mFilter_insert u config rows rest row
    (before ++ line :: after)
  have hrow : ∀ f, rowEmissions u config f { row with lines := before ++ line :: after } =
      rowEmissions u config f row := by
    intro f
    have hpermit' : FeedRow.isPermit { row with lines := before ++ line :: after } = false :=
      hpermit
    rw [rowEmissions, rowEmissions, hpermit, hpermit', hlines]
    simp only [Bool.false_eq_true, if_false, List.filterMap_append, filterMap_cons_toList]
    change _ ++ (((plainLineEntry u config row line).bind _).toList ++ _) = _
    rw [isAbp_of_ruleLine hrule, Option.bind_none, Option.toList_none, List.nil_append]
    rfl
  refine ⟨hfilter, ?_, h₁, h₂, h₃, h₄, rfl, rfl⟩
  unfold emissions
  dsimp only
  rw [hfilter, abpBlocks, abpBlocks, hwithout, hwith, filterMap_survivors_insert hbad _ hnone.1]
  simp [hrow]

/-- An allow changes no block. -/
theorem sameBlocks_of_addsAllow (h : AddsAllow u manifest config manifest' config' added) :
    SameBlocks u manifest config manifest' config' := by
  cases h with
  | whitelist before after line hlines => exact sameBlocks_whitelist _
  | unlock before after line hlines => exact sameBlocks_unlock _
  | permit rows rest row before after line hrows hlines hpermit =>
      exact hrows ▸ sameBlocks_permit rows rest _ hpermit
  | abp rows rest row before after line rule hrows hlines hpermit hrule hallow hbad hreducible =>
      exact hrows ▸ sameBlocks_abp hlines hpermit hrule hallow hbad hreducible

/-- It adds at most its own to what the input allows. -/
theorem mem_allows_iff (h : AddsAllow u manifest config manifest' config' added) (a : Allow) :
    a ∈ allows u manifest' config' ↔ a ∈ allows u manifest config ∨ added = some a := by
  cases h with
  | whitelist before after line hlines =>
      simp only [allows, hlines, userAllows, List.mem_append, filterMap_cons_toList,
        List.filterMap_append, Option.mem_toList]
      tauto
  | unlock before after line hlines =>
      simp only [allows, hlines, userAllows, List.mem_append, filterMap_cons_toList,
        List.filterMap_append, Option.mem_toList]
      tauto
  | permit rows rest row before after line hrows hlines hpermit =>
      subst hrows
      have hpermit' : FeedRow.isPermit { row with lines := before ++ line :: after } = true :=
        hpermit
      have hrules :
          manifestRules u (rows ++ { row with lines := before ++ line :: after } :: rest) =
          manifestRules u (rows ++ row :: rest) := by
        simp [manifestRules, rowRules, hpermit, hpermit']
      simp only [allows, hrules, List.flatMap_append, List.flatMap_cons, rowAllows, hpermit,
        hpermit', if_true, hlines, List.mem_append, filterMap_cons_toList, List.filterMap_append,
        Option.mem_toList]
      tauto
  | abp rows rest row before after line rule hrows hlines hpermit hrule hallow hbad hreducible =>
      subst hrows
      have hpermit' : FeedRow.isPermit { row with lines := before ++ line :: after } = false :=
        hpermit
      obtain ⟨r₁, r₂, hwithout, hwith⟩ :=
        manifestRules_insert rows rest hlines hpermit hrule
      obtain ⟨s₁, s₂, hs, hs'⟩ := survivors_insert r₁ r₂ hbad
      simp only [allows, ruleAllow?, hwithout, hwith, hs, hs', List.flatMap_append,
        List.flatMap_cons, rowAllows, hpermit, hpermit', Bool.false_eq_true, if_false,
        List.filterMap_append, List.map_append, List.mem_append]
      split
      · simp
      · cases hdomain : allowDomain? u rule with
        | none => simp [hdomain]
        | some d =>
            simp only [List.filterMap_cons, hdomain, List.filterMap_nil, List.map_cons,
              List.map_nil, List.mem_singleton, Option.map_some, Option.some.injEq]
            tauto

end PfBlockerNG.AllowMerge
