import PfBlockerNG.SyncPersisted
import PfBlockerNG.SyncFixedPoint

/-!
Receiving a policy: what a node accepts, what it records of it, and whether what it would send is
still what it received.
-/

namespace PfBlockerNG.SyncReceive

open Strings OrderedDict KeyedTree SyncSchema SyncMerge SyncProjection SyncFixedPoint SyncPersisted
open ConfigRegistry (SectionAlias)

/-! ### Digests -/

inductive LegacyScope
  | all | lists
  deriving DecidableEq, Repr

inductive Scope
  | policy
  | legacy (scope : LegacyScope)
  deriving DecidableEq, Repr

def dnssettings : Str := "pfblockerngdnssettings".toList

/-- `pfb_sync_legacy_sections()`. -/
def pfbSyncLegacySections (scope : LegacyScope) : List Str :=
  match scope with
  | .all => (pfblockerngSyncSections true).map Section.name ++ [dnssettings]
  | .lists => (pfblockerngSyncSections false).map Section.name

/-- The sections of these names that are stored, in the order of the names. -/
def storedAt (names : List Str) (stored : Items) : Items :=
  names.filterMap fun name =>
    if valueOf name stored = null then none else some (name, valueOf name stored)

/-- `pfb_sync_copied_sorted()`: every level sorted by key. -/
def pfbSyncCopiedSorted (items : Items) : Items :=
  (KeyTree.canonical (fun _ => false) (Nat.toDigits 10) (.node items)).items

section
variable (policy : SectionAlias → Str → Bool) (listtags : Str → Bool)

/-- `array_map('pfb_sync_persisted_shape', $sections)`. -/
def persistedSections (sections : Items) : Items :=
  sections.map fun item => (item.1, (pfbSyncPersistedShape listtags item.2).getD null)

/-- What the policy digest of a node is taken of. -/
def policyForm (stored : Items) : Items :=
  canonicalTree (digestTree (pfbSyncPolicyProjection policy
    (persistedSections listtags (pfbSyncStoredSections stored))))

/-- What the digest of a legacy payload is taken of. -/
def legacyPayload (scope : LegacyScope) (sections : Items) : Items :=
  pfbSyncCopiedSorted (persistedSections listtags
    (sections.filter fun item => (pfbSyncLegacySections scope).contains item.1))

def legacyForm (scope : LegacyScope) (stored : Items) : Items :=
  legacyPayload listtags scope (storedAt (pfbSyncLegacySections scope) stored)

end

/-! ### The receive state -/

inductive Outcome
  | refused | changed | unchanged
  deriving DecidableEq, Repr

structure Detail (δ : Type*) where
  incomingDigest : δ
  acceptedDigest : δ
  ignored : List Str
  ignoredCount : ℕ

structure Last (δ : Type*) where
  outcome : Outcome
  reason : Str
  detail : Option (Detail δ)

structure ReceiveState (δ : Type*) where
  acceptedDigest : Option δ
  last : Option (Last δ)
  legacyDigests : Option (LegacyScope → δ)

section
variable {δ : Type*}

/-- `pfb_sync_receive_record()`: whether the record is published, and the state then. -/
def pfbSyncReceiveRecord (outcome : Outcome) (accepted : Option δ) (reason : Str)
    (detail : Option (Detail δ)) (legacy : Option (LegacyScope → δ)) (published : Bool)
    (state : ReceiveState δ) : Bool × ReceiveState δ :=
  if published then
    (true,
      { acceptedDigest := if outcome = .refused then state.acceptedDigest else accepted
        last := some ⟨outcome, reason, detail⟩
        legacyDigests := if outcome = .refused then state.legacyDigests else legacy })
  else (false, state)

/-- `pfb_sync_receive_accepted_clear()`. -/
def pfbSyncReceiveAcceptedClear (published : Bool) (state : ReceiveState δ) : ReceiveState δ :=
  if published then { state with acceptedDigest := none } else state

end

/-! ### The receive -/

def policyGate : Value := text "policy".toList

def notPolicy : Str := "syncscope is not policy".toList

section
variable {δ : Type*} (policy : SectionAlias → Str → Bool) (listtags : Str → Bool)
  (hash legacyHash : Items → δ)

/-- Every leaf of the payload's synced sections, in the persisted shape. -/
def payloadLeaves (sections : Items) : Items :=
  ((pfblockerngSyncSections true).flatMap fun s =>
    if valueOf s.name sections = null then []
    else
      (((pfbSyncPersistedShape listtags (valueOf s.name sections)).getD null).leaves).map fun e =>
        (implode (installedpackages :: s.name :: e.1), e.2)).foldl
    (fun out e => store e.1 e.2 out) []

/-- The merged sections that are stored in another shape. -/
def changedSections (merged current : Items) : Items :=
  merged.filter fun item =>
    pfbSyncPersistedShape listtags item.2 ≠
      if valueOf item.1 current = null then none
      else pfbSyncPersistedShape listtags (valueOf item.1 current)

/-- `$settled + $stored`. -/
def union (settled stored : Items) : Items :=
  settled ++ stored.filter fun item => !(settled.map Prod.fst).contains item.1

/-- `pfb_sync_receive_policy()`: the sections to write, and the receive state. -/
def pfbSyncReceivePolicy (newSections : Items) (gate : Value) (published : Bool) (stored : Items)
    (state : ReceiveState δ) : Items × ReceiveState δ :=
  if gate ≠ policyGate then
    ([], (pfbSyncReceiveRecord .refused none notPolicy none none published state).2)
  else
    let current := pfbSyncStoredSections stored
    match pfbSyncPolicyMerge policy newSections current with
    | .error reason => ([], (pfbSyncReceiveRecord .refused none reason none none published state).2)
    | .ok (merged, ignored) =>
        let changed := changedSections listtags merged current
        let settled := persistedSections listtags merged
        let accepted := pfbSyncPolicyDigest hash (pfbSyncPolicyProjection policy settled)
        let legacy := fun scope => legacyHash (legacyPayload listtags scope
          (union settled (storedAt (pfbSyncLegacySections .all) stored)))
        let recorded := pfbSyncReceiveRecord
          (if changed = [] then .unchanged else .changed) (some accepted) []
          (some
            { incomingDigest := pfbSyncPolicyDigest hash (payloadLeaves listtags newSections)
              acceptedDigest := accepted
              ignored := ignored.take 100
              ignoredCount := ignored.length })
          (some legacy) published state
        (if recorded.1 then changed else [], recorded.2)

/-- `pfb_sync_receive_suppressed()`, the stored scope none for anything it does not know. -/
def pfbSyncReceiveSuppressed [DecidableEq δ] (scope : Option Scope) (stored : Items)
    (state : ReceiveState δ) : Bool :=
  match state.acceptedDigest with
  | none => false
  | some accepted =>
      match scope with
      | some (.legacy scope) =>
          state.legacyDigests.map (fun digests => digests scope) =
            some (legacyHash (legacyForm listtags scope stored))
      | _ => accepted = hash (policyForm policy listtags stored)

/-! ### Nodes -/

/-- What a node has stored, and what it has recorded of its receives. -/
structure Node (δ : Type*) where
  stored : Items
  state : ReceiveState δ

/-- What a write of these sections leaves, read back. -/
def writeSections (sections stored : Items) : Items :=
  sections.foldl (fun stored item =>
    match pfbSyncPersistedShape listtags item.2 with
    | none => stored.filter fun held => held.1 ≠ item.1
    | some v => store item.1 v stored) stored

inductive Event
  /-- A payload arrives; its record may fail to be published, its sections to be written. -/
  | receive (newSections : Items) (gate : Value) (published written : Bool)
  /-- The configuration is edited in any way. -/
  | edit (stored : Items)
  | clear (published : Bool)

def step (n : Node δ) : Event → Node δ
  | .receive newSections gate published written =>
      let received := pfbSyncReceivePolicy policy listtags hash legacyHash newSections gate
        published n.stored n.state
      { stored := if written then writeSections listtags received.1 n.stored else n.stored
        state := received.2 }
  | .edit stored => { n with stored := stored }
  | .clear published => { n with state := pfbSyncReceiveAcceptedClear published n.state }

/-- The payload is accepted and its record published. -/
def AcceptedBy (n : Node δ) : Event → Prop
  | .receive newSections gate published _ =>
      gate = policyGate ∧ published = true ∧
        ∃ r, pfbSyncPolicyMerge policy newSections (pfbSyncStoredSections n.stored) = .ok r
  | _ => False

/-- Nothing is accepted and nothing accepted is dropped. -/
def Quiet (n : Node δ) : Event → Prop
  | .clear published => published = false
  | e => ¬AcceptedBy policy n e

/-- Runs of edits, refused and unpublished receives, and clears that are not published. -/
inductive QuietRun (n : Node δ) : Node δ → Prop
  | refl : QuietRun n n
  | step {m : Node δ} {e : Event} (h : QuietRun n m) (hquiet : Quiet policy m e) :
      QuietRun n (step policy listtags hash legacyHash m e)

/-- Runs in which nothing is accepted. -/
inductive UnacceptedRun (n : Node δ) : Node δ → Prop
  | refl : UnacceptedRun n n
  | step {m : Node δ} {e : Event} (h : UnacceptedRun n m) (hno : ¬AcceptedBy policy m e) :
      UnacceptedRun n (step policy listtags hash legacyHash m e)

end

/-! ### What a write leaves -/

section
variable {policy : SectionAlias → Str → Bool} {listtags : Str → Bool}

theorem persistedShape_ne_null {v r : Value} (h : pfbSyncPersistedShape listtags v = some r) :
    r ≠ null := by
  have hshaped := (shaped_persistedShape v).1 r h
  rintro rfl
  exact nomatch hshaped

theorem valueOf_filter_ne (k name : Str) (items : Items) :
    valueOf k (items.filter fun held => held.1 ≠ name) =
      if k = name then null else valueOf k items := by
  induction items with
  | nil => rw [List.filter_nil]; split <;> rfl
  | cons item items ih =>
      by_cases hname : item.1 = name
      · rw [List.filter_cons, if_neg (by simp [hname]), ih]
        by_cases hk : k = name
        · rw [if_pos hk, if_pos hk]
        · have hne : ¬item.1 = k := fun e => hk (e.symm.trans hname)
          simp [hk, valueOf, lookup, hne]
      · rw [List.filter_cons, if_pos (by simp [hname])]
        by_cases hkey : item.1 = k
        · have hk : ¬k = name := fun e => hname (hkey.trans e)
          simp [hk, valueOf, lookup, hkey]
        · simpa [valueOf, lookup, hkey] using ih

theorem valueOf_store (k name : Str) (v : Value) (items : Items) :
    valueOf k (store name v items) = if name = k then v else valueOf k items := by
  rw [valueOf, lookup_store]
  split <;> rfl

variable (listtags) in
/-- A section that is written reads back in its persisted shape, the others as they were. -/
theorem valueOf_writeSections {sections : Items} (hnodup : (sections.map Prod.fst).Nodup)
    (stored : Items) (name : Str) :
    valueOf name (writeSections listtags sections stored) =
      match lookup name sections with
      | none => valueOf name stored
      | some v => (pfbSyncPersistedShape listtags v).getD null := by
  induction sections generalizing stored with
  | nil => rfl
  | cons item sections ih =>
      obtain ⟨k, v⟩ := item
      rw [List.map_cons, List.nodup_cons] at hnodup
      rw [writeSections, List.foldl_cons, ← writeSections, ih hnodup.2]
      by_cases hk : k = name
      · subst hk
        rw [(lookup_eq_none_iff k sections).mpr hnodup.1, lookup, if_pos rfl]
        dsimp only
        cases hv : pfbSyncPersistedShape listtags v with
        | none => exact (valueOf_filter_ne k k stored).trans (if_pos rfl)
        | some w => exact (valueOf_store k k w stored).trans (if_pos rfl)
      · rw [lookup, if_neg hk]
        cases lookup name sections with
        | some w => rfl
        | none =>
            dsimp only
            cases pfbSyncPersistedShape listtags v with
            | none => exact (valueOf_filter_ne name k stored).trans (if_neg (Ne.symm hk))
            | some w => exact (valueOf_store name k w stored).trans (if_neg hk)

theorem valueOf_storedSections (stored : Items) (s : Section) :
    valueOf s.name (pfbSyncStoredSections stored) = valueOf s.name stored := by
  rw [pfbSyncStoredSections, valueOf_sections (fun s y hy => ?_) (mem_syncSections s)]
  · split
    · rename_i hnull
      exact hnull.symm
    · rfl
  · split at hy
    · cases hy
    · rw [← Option.some.inj hy]

variable (listtags) in
/-- A merged section is an array or the empty string: it is written in some shape. -/
theorem persistedShape_mergeSection {s : Section} {inc cur : Value} {y : Str × Value}
    (h : mergeSection policy s inc cur = some y) :
    ∃ w, pfbSyncPersistedShape listtags y.2 = some w := by
  rw [mergeSection] at h
  split at h
  · cases h
  · cases Option.some.inj h
    dsimp only
    split
    · split <;> exact ⟨_, rfl⟩
    · rename_i hne
      rw [node_section_eq hne]
      exact ⟨_, rfl⟩

theorem lookup_filter (p : Str × Value → Bool) {items : Items}
    (hnodup : (items.map Prod.fst).Nodup) (k : Str) :
    lookup k (items.filter p) = (lookup k items).filter fun v => p (k, v) := by
  rw [← List.filterMap_eq_filter, lookup_filterMap (fun x y h => ?_) hnodup]
  · cases lookup k items with
    | none => rfl
    | some v => by_cases hp : p (k, v) = true <;> simp [Option.guard, Option.filter, hp]
  · rw [Option.guard_eq_some_iff] at h
    rw [h.1]

theorem nodup_merged {incoming current : Items} {r : Items × List Str}
    (h : pfbSyncPolicyMerge policy incoming current = .ok r) : (r.1.map Prod.fst).Nodup := by
  obtain ⟨skipped, _, rfl⟩ := merge_eq_ok h
  have hsub : ∀ ss : List Section, ((ss.filterMap fun s =>
      mergeSection policy s (valueOf s.name incoming) (valueOf s.name current)).map
        Prod.fst).Sublist (ss.map Section.name) := by
    intro ss
    induction ss with
    | nil => exact List.Sublist.slnil
    | cons s ss ih =>
        cases hm : mergeSection policy s (valueOf s.name incoming) (valueOf s.name current) with
        | none => rw [List.filterMap_cons, hm]; exact ih.cons _
        | some y =>
            rw [List.filterMap_cons, hm, List.map_cons, List.map_cons, mergeSection_fst policy hm]
            exact ih.cons_cons _
  exact (hsub _).nodup names_nodup

variable (listtags) in
theorem nodup_changed {incoming current : Items} {r : Items × List Str}
    (h : pfbSyncPolicyMerge policy incoming current = .ok r) :
    ((changedSections listtags r.1 current).map Prod.fst).Nodup :=
  (List.filter_sublist.map _).nodup (nodup_merged h)

theorem lookup_merged {incoming current : Items} {r : Items × List Str}
    (h : pfbSyncPolicyMerge policy incoming current = .ok r) (s : Section) :
    lookup s.name r.1 =
      (mergeSection policy s (valueOf s.name incoming) (valueOf s.name current)).map Prod.snd := by
  have hnodup := nodup_merged h
  obtain ⟨skipped, _, rfl⟩ := merge_eq_ok h
  cases hm : mergeSection policy s (valueOf s.name incoming) (valueOf s.name current) with
  | none =>
      refine (lookup_eq_none_iff s.name _).mpr fun hin => ?_
      obtain ⟨y, hy, hname⟩ := List.mem_map.mp hin
      obtain ⟨t, _, ht⟩ := List.mem_filterMap.mp hy
      have hts : t = s := name_injective ((mergeSection_fst policy ht).symm.trans hname)
      rw [hts, hm] at ht
      cases ht
  | some y =>
      refine (lookup_eq_some_iff hnodup s.name y.2).mpr
        (List.mem_filterMap.mpr ⟨s, mem_syncSections s, hm.trans (congrArg some ?_)⟩)
      exact Prod.ext (mergeSection_fst policy hm) rfl

variable (listtags) in
/-- Once the changed sections are written, each synced section reads back as it was settled. -/
theorem valueOf_written {incoming stored : Items} {r : Items × List Str}
    (h : pfbSyncPolicyMerge policy incoming (pfbSyncStoredSections stored) = .ok r) (s : Section) :
    let written := writeSections listtags
      (changedSections listtags r.1 (pfbSyncStoredSections stored)) stored
    (if valueOf s.name written = null then none
      else some (s.name, (pfbSyncPersistedShape listtags (valueOf s.name written)).getD null)) =
    (mergeSection policy s (valueOf s.name incoming) (valueOf s.name stored)).map fun y =>
      (y.1, (pfbSyncPersistedShape listtags y.2).getD null) := by
  intro written
  have hwritten := valueOf_writeSections listtags (nodup_changed listtags h) stored s.name
  rw [changedSections, lookup_filter _ (nodup_merged h), lookup_merged h,
    valueOf_storedSections] at hwritten
  change valueOf s.name written = _ at hwritten
  cases hm : mergeSection policy s (valueOf s.name incoming) (valueOf s.name stored) with
  | none =>
      rw [hm] at hwritten
      have hnull : valueOf s.name stored = null := by
        by_contra hne
        simp [mergeSection, hne] at hm
      have hwritten' : valueOf s.name written = null := hwritten.trans hnull
      rw [if_pos hwritten']
      rfl
  | some y =>
      obtain ⟨w, hw⟩ := persistedShape_mergeSection listtags hm
      have hy := mergeSection_fst policy hm
      rw [hm] at hwritten
      by_cases hsame : some w = if valueOf s.name stored = null then none
          else pfbSyncPersistedShape listtags (valueOf s.name stored)
      · have hcur : valueOf s.name stored ≠ null := fun hnull => by
          rw [if_pos hnull] at hsame
          cases hsame
        rw [if_neg hcur] at hsame
        have hkept : valueOf s.name written = valueOf s.name stored := by
          simpa [Option.filter, valueOf_storedSections, hw, hcur, ← hsame] using hwritten
        rw [hkept, if_neg hcur, ← hsame, Option.map_some, hw, hy]
      · have hchanged : valueOf s.name stored = null ∨
            ¬some w = pfbSyncPersistedShape listtags (valueOf s.name stored) := by
          by_cases hcur : valueOf s.name stored = null
          · exact Or.inl hcur
          · exact Or.inr (by rwa [if_neg hcur] at hsame)
        have hshape : valueOf s.name written = w := by
          simpa [Option.filter, valueOf_storedSections, hw, hchanged] using hwritten
        rw [hshape, if_neg (persistedShape_ne_null hw), persistedShape_again hw, Option.map_some,
          hw, hy]

variable (listtags) in
/-- The settled sections are the persisted shape of what is stored then. -/
theorem persisted_written {incoming stored : Items} {r : Items × List Str}
    (h : pfbSyncPolicyMerge policy incoming (pfbSyncStoredSections stored) = .ok r) :
    persistedSections listtags (pfbSyncStoredSections (writeSections listtags
      (changedSections listtags r.1 (pfbSyncStoredSections stored)) stored)) =
      persistedSections listtags r.1 := by
  have hwritten := fun s => valueOf_written listtags h s
  dsimp only at hwritten
  obtain ⟨skipped, _, hr⟩ := merge_eq_ok h
  conv_rhs => rw [hr]
  rw [pfbSyncStoredSections, persistedSections, persistedSections, List.map_filterMap,
    List.map_filterMap]
  refine List.filterMap_congr fun s _ => ?_
  rw [valueOf_storedSections, ← hwritten s]
  split <;> rfl

theorem valueOf_written_of_ne {incoming stored : Items} {r : Items × List Str}
    (h : pfbSyncPolicyMerge policy incoming (pfbSyncStoredSections stored) = .ok r) {name : Str}
    (hname : name ∉ (pfblockerngSyncSections true).map Section.name) :
    valueOf name (writeSections listtags
      (changedSections listtags r.1 (pfbSyncStoredSections stored)) stored) =
      valueOf name stored := by
  rw [valueOf_writeSections listtags (nodup_changed listtags h), changedSections,
    lookup_filter _ (nodup_merged h)]
  have hout : lookup name r.1 = none := by
    refine (lookup_eq_none_iff name r.1).mpr fun hin => hname ?_
    obtain ⟨skipped, _, rfl⟩ := merge_eq_ok h
    obtain ⟨y, hy, rfl⟩ := List.mem_map.mp hin
    obtain ⟨t, ht, hty⟩ := List.mem_filterMap.mp hy
    rw [mergeSection_fst policy hty]
    exact List.mem_map_of_mem ht
  rw [hout]
  rfl

/-! ### What the legacy scopes send -/

theorem storedAt_append (xs ys : List Str) (stored : Items) :
    storedAt (xs ++ ys) stored = storedAt xs stored ++ storedAt ys stored :=
  List.filterMap_append

theorem storedAt_filter (p : Str → Bool) (names : List Str) (stored : Items) :
    (storedAt names stored).filter (fun item => p item.1) = storedAt (names.filter p) stored := by
  induction names with
  | nil => rfl
  | cons name names ih =>
      rw [storedAt, List.filterMap_cons]
      by_cases hnull : valueOf name stored = null
      · simp only [hnull, if_true]
        rw [← storedAt, ih]
        cases hp : p name <;> simp [storedAt, hp, hnull]
      · simp only [hnull, if_false]
        rw [← storedAt]
        cases hp : p name <;> simp [storedAt, hp, hnull] <;> simpa [storedAt] using ih

theorem pfbSyncStoredSections_eq (stored : Items) :
    pfbSyncStoredSections stored =
      storedAt ((pfblockerngSyncSections true).map Section.name) stored := by
  rw [storedAt, List.filterMap_map]
  rfl

theorem persistedSections_append (xs ys : Items) :
    persistedSections listtags (xs ++ ys) =
      persistedSections listtags xs ++ persistedSections listtags ys := List.map_append

theorem persistedSections_filter (p : Str → Bool) (items : Items) :
    persistedSections listtags (items.filter fun item => p item.1) =
      (persistedSections listtags items).filter fun item => p item.1 := by
  rw [persistedSections, persistedSections, List.filter_map]
  rfl

theorem dnssettings_not_synced :
    dnssettings ∉ (pfblockerngSyncSections true).map Section.name := by
  have h : ((pfblockerngSyncSections true).map Section.name).contains dnssettings = false := rfl
  exact fun hin => Bool.false_ne_true (h.symm.trans (List.contains_iff_mem.mpr hin))

theorem filter_legacySections (scope : LegacyScope) :
    (pfbSyncLegacySections .all).filter (fun name => (pfbSyncLegacySections scope).contains name) =
      pfbSyncLegacySections scope := by
  cases scope with
  | all => exact List.filter_eq_self.mpr fun name hname => List.contains_iff_mem.mpr hname
  | lists =>
      have hcontains : ∀ s : Section,
          ((pfblockerngSyncSections false).map Section.name).contains s.name =
            (pfblockerngSyncSections false).contains s := by
        intro s
        rw [Bool.eq_iff_iff, List.contains_iff_mem, List.contains_iff_mem, List.mem_map]
        exact ⟨fun ⟨t, ht, hts⟩ => name_injective hts ▸ ht, fun hs => ⟨s, hs, rfl⟩⟩
      have hdns : dnssettings ∉ (pfblockerngSyncSections false).map Section.name := fun hin =>
        dnssettings_not_synced (List.map_subset _ (fun s _ => mem_syncSections s) hin)
      rw [pfbSyncLegacySections, pfbSyncLegacySections, List.filter_append, List.filter_map,
        List.filter_singleton, List.contains_eq_mem, decide_eq_false hdns]
      simp only [Function.comp_def, hcontains]
      rfl

/-- The merged sections, settled, settle as they are. -/
theorem persisted_settled {incoming current : Items} {r : Items × List Str}
    (h : pfbSyncPolicyMerge policy incoming current = .ok r) :
    persistedSections listtags (persistedSections listtags r.1) =
      persistedSections listtags r.1 := by
  obtain ⟨skipped, _, rfl⟩ := merge_eq_ok h
  rw [persistedSections, persistedSections, List.map_map]
  refine List.map_congr_left fun y hy => ?_
  obtain ⟨s, _, hs⟩ := List.mem_filterMap.mp hy
  obtain ⟨w, hw⟩ := persistedShape_mergeSection listtags hs
  rw [Function.comp_apply]
  dsimp only
  rw [hw, Option.getD_some, persistedShape_again hw]
  rfl

/-- The settled sections and the rest as stored are what all legacy sections read as. -/
theorem union_settled {incoming stored : Items} {r : Items × List Str}
    (h : pfbSyncPolicyMerge policy incoming (pfbSyncStoredSections stored) = .ok r) :
    union (persistedSections listtags r.1) (storedAt (pfbSyncLegacySections .all) stored) =
      persistedSections listtags r.1 ++ storedAt [dnssettings] stored := by
  have hkeys : (persistedSections listtags r.1).map Prod.fst = r.1.map Prod.fst := by
    rw [persistedSections, List.map_map]
    rfl
  rw [union, hkeys]
  refine congrArg _ ?_
  rw [pfbSyncLegacySections, storedAt_append, List.filter_append]
  have hsynced : (storedAt ((pfblockerngSyncSections true).map Section.name) stored).filter
      (fun item => !(r.1.map Prod.fst).contains item.1) = [] := by
    refine List.filter_eq_nil_iff.mpr fun item hitem => ?_
    obtain ⟨name, hname, hsome⟩ := List.mem_filterMap.mp hitem
    obtain ⟨s, _, rfl⟩ := List.mem_map.mp hname
    split at hsome
    · cases hsome
    · rename_i hcur
      cases Option.some.inj hsome
      have hlook := lookup_merged h s
      rw [valueOf_storedSections] at hlook
      have hin : s.name ∈ r.1.map Prod.fst := by
        by_contra hout
        rw [(lookup_eq_none_iff s.name r.1).mpr hout] at hlook
        simp [mergeSection, hcur] at hlook
      simpa using List.mem_map.mp hin
  have hother : (storedAt [dnssettings] stored).filter
      (fun item => !(r.1.map Prod.fst).contains item.1) = storedAt [dnssettings] stored := by
    refine List.filter_eq_self.mpr fun item hitem => ?_
    obtain ⟨name, hname, hsome⟩ := List.mem_filterMap.mp hitem
    split at hsome
    · cases hsome
    · cases Option.some.inj hsome
      cases List.mem_singleton.mp hname
      have hout : dnssettings ∉ r.1.map Prod.fst := by
        obtain ⟨skipped, _, rfl⟩ := merge_eq_ok h
        intro hin
        obtain ⟨y, hy, hname⟩ := List.mem_map.mp hin
        obtain ⟨t, ht, hty⟩ := List.mem_filterMap.mp hy
        refine dnssettings_not_synced ?_
        rw [← hname, mergeSection_fst policy hty]
        exact List.mem_map_of_mem ht
      simpa using hout
  rw [hsynced, hother, List.nil_append]

/-- The legacy digests of an accepted receive are taken of what the node sends once it has
written. -/
theorem legacyPayload_settled {incoming stored : Items} {r : Items × List Str}
    (h : pfbSyncPolicyMerge policy incoming (pfbSyncStoredSections stored) = .ok r)
    (scope : LegacyScope) :
    legacyPayload listtags scope (union (persistedSections listtags r.1)
      (storedAt (pfbSyncLegacySections .all) stored)) =
    legacyForm listtags scope (writeSections listtags
      (changedSections listtags r.1 (pfbSyncStoredSections stored)) stored) := by
  have hwritten := persisted_written listtags h
  have hdns : storedAt [dnssettings] stored = storedAt [dnssettings] (writeSections listtags
      (changedSections listtags r.1 (pfbSyncStoredSections stored)) stored) := by
    simp only [storedAt, List.filterMap_cons, List.filterMap_nil,
      valueOf_written_of_ne h dnssettings_not_synced]
  rw [legacyForm, legacyPayload, legacyPayload, union_settled h, hdns]
  refine congrArg pfbSyncCopiedSorted ?_
  rw [persistedSections_filter, persistedSections_append, persisted_settled h, ← hwritten,
    ← persistedSections_append, pfbSyncStoredSections_eq, ← storedAt_append,
    ← persistedSections_filter]
  have hall : (pfblockerngSyncSections true).map Section.name ++ [dnssettings] =
      pfbSyncLegacySections .all := rfl
  rw [hall, storedAt_filter fun name => (pfbSyncLegacySections scope).contains name,
    filter_legacySections, storedAt_filter fun name => (pfbSyncLegacySections scope).contains name,
    List.filter_eq_self.mpr fun name hname => by simpa using hname]

end

/-! ### No echo -/

section
variable {δ : Type*} (policy : SectionAlias → Str → Bool) (listtags : Str → Bool)
  (hash legacyHash : Items → δ)

/-- A receive that is not accepted, or whose record is not published, returns no section and keeps
the digests. -/
theorem refused_receive (n : Node δ) {newSections : Items} {gate : Value}
    {published written : Bool}
    (h : ¬AcceptedBy policy n (.receive newSections gate published written)) :
    (pfbSyncReceivePolicy policy listtags hash legacyHash newSections gate published n.stored
      n.state).1 = [] ∧
    (pfbSyncReceivePolicy policy listtags hash legacyHash newSections gate published n.stored
      n.state).2.acceptedDigest = n.state.acceptedDigest ∧
    (pfbSyncReceivePolicy policy listtags hash legacyHash newSections gate published n.stored
      n.state).2.legacyDigests = n.state.legacyDigests := by
  rw [pfbSyncReceivePolicy]
  by_cases hgate : gate = policyGate
  · rw [if_neg (not_not.mpr hgate)]
    dsimp only
    cases hm : pfbSyncPolicyMerge policy newSections (pfbSyncStoredSections n.stored) with
    | error reason => cases published <;> exact ⟨rfl, rfl, rfl⟩
    | ok r =>
        cases published with
        | false => exact ⟨rfl, rfl, rfl⟩
        | true => exact absurd ⟨hgate, rfl, r, hm⟩ h
  · rw [if_pos hgate]
    cases published <;> exact ⟨rfl, rfl, rfl⟩

/-- The digests of a state that accepts what a node has stored. -/
structure Accepts (stored : Items) (state : ReceiveState δ) : Prop where
  accepted : state.acceptedDigest = some (hash (policyForm policy listtags stored))
  legacy : ∃ digests, state.legacyDigests = some digests ∧
    ∀ scope, digests scope = legacyHash (legacyForm listtags scope stored)

/-- What an accepted receive returns and records. -/
theorem receive_eq {newSections stored merged : Items} {ignored : List Str}
    (state : ReceiveState δ)
    (hr : pfbSyncPolicyMerge policy newSections (pfbSyncStoredSections stored) =
      .ok (merged, ignored)) :
    ∃ last, pfbSyncReceivePolicy policy listtags hash legacyHash newSections policyGate true stored
        state =
      (changedSections listtags merged (pfbSyncStoredSections stored),
        { acceptedDigest := some (pfbSyncPolicyDigest hash
            (pfbSyncPolicyProjection policy (persistedSections listtags merged)))
          last := last
          legacyDigests := some fun scope => legacyHash (legacyPayload listtags scope
            (union (persistedSections listtags merged)
              (storedAt (pfbSyncLegacySections .all) stored))) }) := by
  have houtcome : (if changedSections listtags merged (pfbSyncStoredSections stored) = []
      then Outcome.unchanged else .changed) ≠ .refused := by
    split <;> exact nofun
  rw [pfbSyncReceivePolicy, if_neg (not_not.mpr rfl)]
  dsimp only
  rw [hr]
  simp only [pfbSyncReceiveRecord, if_true, if_neg houtcome]
  exact ⟨_, rfl⟩

/-- After an accepted receive whose sections are written, the recorded digests are those of what
is stored. -/
theorem accepts_of_receive (n : Node δ) {newSections : Items} {gate : Value}
    (h : AcceptedBy policy n (.receive newSections gate true true)) :
    let m := step policy listtags hash legacyHash n (.receive newSections gate true true)
    Accepts policy listtags hash legacyHash m.stored m.state := by
  obtain ⟨rfl, _, ⟨merged, ignored⟩, hr⟩ := h
  obtain ⟨last, hreceived⟩ :=
    receive_eq policy listtags hash legacyHash n.state hr
  simp only [step, hreceived, if_true]
  refine ⟨congrArg some ?_, _, rfl, fun scope => ?_⟩
  · rw [policyForm, persisted_written listtags hr]
    rfl
  · rw [← legacyPayload_settled hr scope]

theorem digests_of_quiet {n m : Node δ} (h : QuietRun policy listtags hash legacyHash n m) :
    m.state.acceptedDigest = n.state.acceptedDigest ∧
      m.state.legacyDigests = n.state.legacyDigests := by
  induction h with
  | refl => exact ⟨rfl, rfl⟩
  | @step m e _ hquiet ih =>
      cases e with
      | receive newSections gate published written =>
          obtain ⟨_, haccepted, hlegacy⟩ :=
            refused_receive policy listtags hash legacyHash m hquiet
          exact ⟨haccepted.trans ih.1, hlegacy.trans ih.2⟩
      | edit stored => exact ih
      | clear published =>
          cases (show published = false from hquiet)
          exact ih

theorem not_accepting_of_run {n m : Node δ} (hn : n.state.acceptedDigest = none)
    (h : UnacceptedRun policy listtags hash legacyHash n m) : m.state.acceptedDigest = none := by
  induction h with
  | refl => exact hn
  | @step m e _ hno ih =>
      cases e with
      | receive newSections gate published written =>
          exact (refused_receive policy listtags hash legacyHash m hno).2.1.trans ih
      | edit stored => exact ih
      | clear published => cases published <;> [exact ih; rfl]

/-- From an accepted and written receive on, a node is suppressed in a scope while what it would
send there is what it was then; after a published clear it is not, until another policy is
accepted. -/
theorem no_echo [DecidableEq δ] (hhash : Function.Injective hash)
    (hlegacy : Function.Injective legacyHash) (n : Node δ) (newSections : Items) (gate : Value)
    (haccepted : AcceptedBy policy n (.receive newSections gate true true)) :
    let received := step policy listtags hash legacyHash n (.receive newSections gate true true)
    (∀ m, QuietRun policy listtags hash legacyHash received m →
      (pfbSyncReceiveSuppressed policy listtags hash legacyHash (some .policy) m.stored m.state ↔
        policyForm policy listtags m.stored = policyForm policy listtags received.stored) ∧
      ∀ scope, pfbSyncReceiveSuppressed policy listtags hash legacyHash (some (.legacy scope))
          m.stored m.state ↔
        legacyForm listtags scope m.stored = legacyForm listtags scope received.stored) ∧
    (∀ m m', QuietRun policy listtags hash legacyHash received m →
      UnacceptedRun policy listtags hash legacyHash
        (step policy listtags hash legacyHash m (.clear true)) m' →
      ∀ scope, pfbSyncReceiveSuppressed policy listtags hash legacyHash scope m'.stored m'.state =
        false) ∧
    ∀ (m : Node δ) (newSections' : Items) (gate' : Value) (published written : Bool),
      ¬AcceptedBy policy m (.receive newSections' gate' published written) →
      let result := pfbSyncReceivePolicy policy listtags hash legacyHash newSections' gate'
        published m.stored m.state
      result.1 = [] ∧ result.2.acceptedDigest = m.state.acceptedDigest ∧
        result.2.legacyDigests = m.state.legacyDigests := by
  intro received
  refine ⟨fun m hm => ?_, fun m m' _ hm' scope => ?_,
    fun m newSections' gate' published written h =>
      refused_receive policy listtags hash legacyHash m h⟩
  · obtain ⟨haccepted, digests, hdigests, heach⟩ :=
      accepts_of_receive policy listtags hash legacyHash n haccepted
    obtain ⟨hkept, hkeptLegacy⟩ := digests_of_quiet policy listtags hash legacyHash hm
    have hsome := hkept.trans haccepted
    have hsomeLegacy := hkeptLegacy.trans hdigests
    refine ⟨?_, fun scope => ?_⟩
    · simp only [pfbSyncReceiveSuppressed, hsome, decide_eq_true_eq]
      exact hhash.eq_iff.trans eq_comm
    · simp only [pfbSyncReceiveSuppressed, hsome, hsomeLegacy, decide_eq_true_eq,
        Option.map_some, Option.some.injEq, heach scope]
      exact hlegacy.eq_iff.trans eq_comm
  · have hnone := not_accepting_of_run policy listtags hash legacyHash rfl hm'
    simp only [pfbSyncReceiveSuppressed, hnone]

end

/-- The repeated elements of the synced sections. -/
def listElements (k : Str) : Bool := [kConfig, kRow, kItem].contains k

/-- A node that has received nothing. -/
def freshNode (stored : Items) : Node Items := ⟨stored, none, none, none⟩

/-- The receiver once it has received the sender's policy. -/
def received : Node Items :=
  step sharedKeys listElements id id (freshNode receiverNode)
    (.receive senderNode policyGate true true)

def switchedOff : Items := writeSections listElements [general [] "200".toList] received.stored

/-- An edit, a receive that is refused, and the edit undone. -/
def edited : Node Items := step sharedKeys listElements id id received (.edit switchedOff)

def undone : Node Items :=
  step sharedKeys listElements id id
    (step sharedKeys listElements id id edited (.receive senderNode (text []) true true))
    (.edit received.stored)

def suppressedIn (scope : Scope) (n : Node Items) : Bool :=
  pfbSyncReceiveSuppressed sharedKeys listElements id id (some scope) n.stored n.state

theorem no_echo_receiverNode :
    received.stored.map Prod.fst ≠ receiverNode.map Prod.fst ∧
    (suppressedIn .policy received = true ∧
      ∀ scope, suppressedIn (.legacy scope) received = true) ∧
    (suppressedIn .policy edited = false ∧ suppressedIn (.legacy .all) edited = false ∧
      suppressedIn (.legacy .lists) edited = true) ∧
    (suppressedIn .policy undone = true ∧ ∀ scope, suppressedIn (.legacy scope) undone = true) ∧
    ∀ scope, pfbSyncReceiveSuppressed sharedKeys listElements id id scope undone.stored
      (pfbSyncReceiveAcceptedClear true undone.state) = false := by
  have hmerge : pfbSyncPolicyMerge sharedKeys senderNode (pfbSyncStoredSections receiverNode) =
      .ok (receivedNode, ignoredOfSender) := by
    decide +kernel
  obtain ⟨hruns, hcleared, -⟩ := no_echo sharedKeys listElements id id Function.injective_id
    Function.injective_id (freshNode receiverNode) senderNode policyGate ⟨rfl, rfl, _, hmerge⟩
  have hgate : text [] ≠ policyGate := by decide
  have hedited : QuietRun sharedKeys listElements id id received edited := .step .refl id
  have hundone : QuietRun sharedKeys listElements id id received undone :=
    .step (.step hedited fun h => hgate h.1) id
  have hpolicy : policyForm sharedKeys listElements switchedOff ≠
      policyForm sharedKeys listElements received.stored := by
    decide +kernel
  have hall : legacyForm listElements .all switchedOff ≠
      legacyForm listElements .all received.stored := by
    decide +kernel
  have hlists : legacyForm listElements .lists switchedOff =
      legacyForm listElements .lists received.stored := by
    decide +kernel
  refine ⟨by decide +kernel,
    ⟨(hruns _ .refl).1.mpr rfl, fun scope => ((hruns _ .refl).2 scope).mpr rfl⟩,
    ⟨Bool.eq_false_of_not_eq_true fun h => hpolicy ((hruns _ hedited).1.mp h),
      Bool.eq_false_of_not_eq_true fun h => hall (((hruns _ hedited).2 .all).mp h),
      ((hruns _ hedited).2 .lists).mpr hlists⟩,
    ⟨(hruns _ hundone).1.mpr rfl, fun scope => ((hruns _ hundone).2 scope).mpr rfl⟩,
    hcleared undone _ hundone .refl⟩

def receivedFrom (stored : Items) : Node Items :=
  step (fun _ _ => false) listElements id id (freshNode stored)
    (.receive stored policyGate true true)

def doh : Str := "safesearch_doh".toList

def inOrder : Items :=
  [(Section.pfblockerngsafesearch.name, .node [(enable, text on), (doh, text on)])]

def reordered : Items :=
  [(Section.pfblockerngsafesearch.name, .node [(doh, text on), (enable, text on)])]

/-- An edit that only moves a key changes the projection and not the digest. -/
theorem moved_key_stays_suppressed :
    AcceptedBy (fun _ _ => false) (freshNode inOrder) (.receive inOrder policyGate true true) ∧
    pfbSyncPolicyProjection (fun _ _ => false) (persistedSections listElements reordered) ≠
      pfbSyncPolicyProjection (fun _ _ => false) (persistedSections listElements inOrder) ∧
    pfbSyncReceiveSuppressed (fun _ _ => false) listElements id id (some .policy)
      (step (fun _ _ => false) listElements id id (receivedFrom inOrder) (.edit reordered)).stored
      (receivedFrom inOrder).state = true ∧
    pfbSyncReceiveSuppressed (fun _ _ => false) listElements id id (some .policy)
      (receivedFrom inOrder).stored
      (step (fun _ _ => false) listElements id id (receivedFrom inOrder) (.clear true)).state =
        false := by
  refine ⟨⟨rfl, rfl, _, rfl⟩, ?_, ?_, ?_⟩
  · decide +kernel
  · change pfbSyncReceiveSuppressed _ _ _ _ _ reordered _ = true
    decide +kernel
  · rfl

end PfBlockerNG.SyncReceive
