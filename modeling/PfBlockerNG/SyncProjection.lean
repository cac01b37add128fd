import PfBlockerNG.SyncMerge

/-!
The policy projection of a node's sections and its digest, and the part of a section that is left
when everything a merge would ignore is taken out of it.
-/

namespace PfBlockerNG.SyncProjection

open Strings OrderedDict KeyedTree SyncSchema SyncMerge
open ConfigRegistry (SectionAlias isDigits)

/-! ### The projection -/

mutual

/-- `$walk`: the leaves of a deny-list section outside its local paths. -/
def walk (s : Section) (rel : Path) : Items → List (Path × Value)
  | [] => []
  | (k, v) :: items =>
      (if pathIsLocal s (rel ++ [k]) then [] else walkValue s (rel ++ [k]) v) ++ walk s rel items

def walkValue (s : Section) (rel : Path) : Value → List (Path × Value)
  | .leaf a => if a = .null then [] else [(rel, .leaf a)]
  | .node [] => [(rel, .node [])]
  | .node (item :: items) => walk s rel (item :: items)

end

theorem walk_eq_flatMap (s : Section) (rel : Path) (items : Items) :
    walk s rel items = items.flatMap fun item =>
      if pathIsLocal s (rel ++ [item.1]) then [] else walkValue s (rel ++ [item.1]) item.2 := by
  induction items with
  | nil => rfl
  | cons item items ih => rw [walk, ih, List.flatMap_cons]

section
variable (policy : SectionAlias → Str → Bool)

/-- The leaves of the policy keys of a settings section, all of them below `config/0`. -/
def settingsLeaves (a : SectionAlias) (items : Items) : List (Path × Value) :=
  match valueOf kZero (valueOf kConfig items).items with
  | .leaf _ => []
  | .node map => map.flatMap fun item =>
      if policy a item.1 then
        (item.2.leaves.filter fun e => e.2 ≠ null).map fun e =>
          (kConfig :: kZero :: item.1 :: e.1, e.2)
      else []

def sectionLeaves (s : Section) (blob : Value) : List (Path × Value) :=
  match blob with
  | .leaf _ => []
  | .node items =>
      match settings s with
      | none => walk s [] items
      | some a => settingsLeaves policy a items

/-- `pfb_sync_policy_projection()`: path of a policy leaf and its value, in order. -/
def pfbSyncPolicyProjection (sections : Items) : Items :=
  ((pfblockerngSyncSections true).flatMap fun s =>
    (sectionLeaves policy s (valueOf s.name sections)).map fun e =>
      (implode (installedpackages :: s.name :: e.1), e.2)).foldl
    (fun out e => store e.1 e.2 out) []

end

/-- The arrays that a projection is rebuilt into. -/
def rebuilt (projection : Items) : Items :=
  KeyTree.plant [] (projection.map fun e => ((explode e.1).drop 1, e.2))

/-! ### The digest -/

/-- The string cast. -/
def Scalar.toStr : Scalar → Str
  | .null | .bool false => []
  | .bool true => ['1']
  | .num t => t
  | .str s => s

def digestLeaf : Value → Value
  | .leaf a => text (Scalar.toStr a)
  | .node _ => text []

def digestStep (tree : Items) (e : Str × Value) : Items :=
  match explode e.1 with
  | root :: s :: k :: rel =>
      if root = installedpackages && (tree.map Prod.fst).contains s then
        KeyTree.put (digestLeaf e.2) (s :: k :: rel) tree
      else tree
  | _ => tree

/-- The tree over the synced sections that a projection is rebuilt into for its digest. -/
def digestTree (projection : Items) : Items :=
  projection.foldl digestStep
    ((pfblockerngSyncSections true).map fun s => (s.name, .node []))

def canonicalTree (tree : Items) : Items :=
  tree.map fun item => (item.1, item.2.canonical isIntKey (Nat.toDigits 10))

/-- `pfb_sync_policy_digest()` with the hash as a parameter. -/
def pfbSyncPolicyDigest {δ : Type*} (hash : Items → δ) (projection : Items) : δ :=
  hash (canonicalTree (digestTree projection))

/-! ### What a merge does not ignore -/

section
variable (policy : SectionAlias → Str → Bool)

def withoutIgnoredAt : ℕ → Section → Path → Value → Option Value
  | 0, _, _, v => if v = null then none else some v
  | depth + 1, s, p, v =>
      if !container s p then if v = null then none else some v
      else
        match v with
        | .leaf a => if a = .null then none else some (.leaf a)
        | .node items =>
            let kept := items.filterMap fun item =>
              if isLocal policy s (p ++ [item.1]) then none
              else (withoutIgnoredAt depth s (p ++ [item.1]) item.2).map fun t => (item.1, t)
            if kept = [] then none else some (.node kept)

/-- The value without the leaves that a merge ignores and without the containers that are then
empty. -/
def withoutIgnored (s : Section) (p : Path) (v : Value) : Option Value :=
  withoutIgnoredAt policy (schemaDepth - p.length) s p v

def keptItems (s : Section) (p : Path) (items : Items) : Items :=
  items.filterMap fun item =>
    if isLocal policy s (p ++ [item.1]) then none
    else (withoutIgnored policy s (p ++ [item.1]) item.2).map fun t => (item.1, t)

/-- A payload without what a merge ignores in it. -/
def ignoredRemoved (sections : Items) : Items :=
  (pfblockerngSyncSections true).filterMap fun s =>
    let kept := keptItems policy s [] (valueOf s.name sections).items
    if kept = [] then none else some (s.name, .node kept)

theorem withoutIgnored_leaf {s : Section} {p : Path} (h : container s p = false) (v : Value) :
    withoutIgnored policy s p v = if v = null then none else some v := by
  unfold withoutIgnored
  cases schemaDepth - p.length with
  | zero => rfl
  | succ depth => simp [withoutIgnoredAt, h]

theorem withoutIgnored_scalar (s : Section) (p : Path) (a : Scalar) :
    withoutIgnored policy s p (.leaf a) = if a = .null then none else some (.leaf a) := by
  unfold withoutIgnored
  cases schemaDepth - p.length with
  | zero => simp [withoutIgnoredAt, null]
  | succ depth => cases h : container s p <;> simp [withoutIgnoredAt, h, null]

theorem withoutIgnored_node {s : Section} {p : Path} (h : container s p = true) (items : Items) :
    withoutIgnored policy s p (.node items) =
      if keptItems policy s p items = [] then none
      else some (.node (keptItems policy s p items)) := by
  rw [withoutIgnored, depth_of_container h [], withoutIgnoredAt]
  simp only [h, Bool.not_true, Bool.false_eq_true, if_false, keptItems, withoutIgnored,
    List.length_append, List.length_cons, List.length_nil]

theorem keptItems_fst {s : Section} {p : Path} (x y : Str × Value)
    (h : (if isLocal policy s (p ++ [x.1]) then none
      else (withoutIgnored policy s (p ++ [x.1]) x.2).map fun t => (x.1, t)) = some y) :
    y.1 = x.1 := by
  split at h
  · cases h
  · obtain ⟨t, _, rfl⟩ := Option.map_eq_some_iff.mp h
    rfl

variable {policy} in
theorem mem_keptItems {s : Section} {p : Path} {items : Items} {y : Str × Value} :
    y ∈ keptItems policy s p items ↔ isLocal policy s (p ++ [y.1]) = false ∧
      ∃ v, (y.1, v) ∈ items ∧ withoutIgnored policy s (p ++ [y.1]) v = some y.2 := by
  rw [keptItems, List.mem_filterMap]
  constructor
  · rintro ⟨x, hx, hy⟩
    have hxy := keptItems_fst policy x y hy
    rw [← hxy] at hy
    split at hy
    · cases hy
    · rename_i hl
      obtain ⟨t, ht, hyt⟩ := Option.map_eq_some_iff.mp hy
      exact ⟨Bool.eq_false_of_not_eq_true hl, x.2, hxy ▸ hx, ht.trans (congrArg _ (by rw [← hyt]))⟩
  · rintro ⟨hl, v, hv, hy⟩
    exact ⟨(y.1, v), hv, by simp [hl, hy]⟩

theorem nodup_keptItems {s : Section} {p : Path} {items : Items}
    (h : (items.map Prod.fst).Nodup) : ((keptItems policy s p items).map Prod.fst).Nodup :=
  (keys_filterMap_sublist (keptItems_fst policy) items).nodup h

theorem valueOf_keptItems {s : Section} {p : Path} {items : Items}
    (h : (items.map Prod.fst).Nodup) (k : Str) :
    valueOf k (keptItems policy s p items) =
      if isLocal policy s (p ++ [k]) then null
      else (withoutIgnored policy s (p ++ [k]) (valueOf k items)).getD null := by
  have hnull : withoutIgnored policy s (p ++ [k]) null = none := by
    rw [null, withoutIgnored_scalar, if_pos rfl]
  rw [valueOf, keptItems, lookup_filterMap (keptItems_fst policy) h]
  cases hl : isLocal policy s (p ++ [k]) with
  | true => cases lookup k items <;> simp [hl]
  | false =>
      cases hlook : lookup k items with
      | none => simp [valueOf, hlook, hnull]
      | some v => simp [valueOf, hlook, hl, Function.comp_def]

/-! ### Sections laid out by the schema -/

/-- Arrays where the schema has containers, none of them empty below a deny-list section, and
strings at its leaves; a feed row may be an empty string. -/
inductive Laid (s : Section) : Path → Value → Prop
  | leaf {p : Path} {v : Value} (hc : container s p = false) (hv : isString v = true) : Laid s p v
  | emptyFeed {p : Path} (hc : container s p = true) (hf : feed p = true) : Laid s p (text [])
  | node {p : Path} {items : Items} (hc : container s p = true)
      (hne : settings s = none → p ≠ [] → items ≠ [])
      (hitems : ∀ item ∈ items, isLocal policy s (p ++ [item.1]) = false →
        Laid s (p ++ [item.1]) item.2) : Laid s p (.node items)

/-- What the projection takes from a section, key by key. -/
def projects (s : Section) (p : Path) : Bool :=
  match settings s with
  | none => !pathIsLocal s p
  | some a =>
      match p with
      | [] => true
      | [k] => k = kConfig
      | [_, k] => k = kZero
      | _ :: _ :: k :: _ => policy a k

/-- A key that a merge ignores is none that the projection takes: policy keys are lower-case
element names, and digits where the schema has a list. -/
inductive Classified (s : Section) : Path → Value → Prop
  | leaf {p : Path} (hc : container s p = false) (v : Value) : Classified s p v
  | scalar (p : Path) (a : Scalar) : Classified s p (.leaf a)
  | node {p : Path} {items : Items}
      (hkeys : ∀ item ∈ items, isLocal policy s (p ++ [item.1]) = true →
        projects policy s (p ++ [item.1]) = false)
      (hitems : ∀ item ∈ items, isLocal policy s (p ++ [item.1]) = false →
        Classified s (p ++ [item.1]) item.2) : Classified s p (.node items)

section
variable (s : Section) (test : Path → Value → Bool)

mutual

/-- The test holds of every position that a merge does not ignore. -/
def everyPosition (p : Path) : Value → Bool
  | .leaf a => test p (.leaf a)
  | .node items => test p (.node items) && (!container s p || everyKey p items)

def everyKey (p : Path) : Items → Bool
  | [] => true
  | (k, v) :: items =>
      (isLocal policy s (p ++ [k]) || everyPosition (p ++ [k]) v) && everyKey p items

end

end

def laidAt (s : Section) (p : Path) : Value → Bool
  | .leaf a => if container s p then feed p && decide (a = .str []) else isString (.leaf a)
  | .node items => container s p && ((settings s).isSome || p.isEmpty || !items.isEmpty)

def classifiedAt (s : Section) (p : Path) : Value → Bool
  | .leaf _ => true
  | .node items => items.all fun item =>
      !isLocal policy s (p ++ [item.1]) || !projects policy s (p ++ [item.1])

variable {policy} in
theorem everyKey_iff {s : Section} {test : Path → Value → Bool} {p : Path} {items : Items} :
    everyKey policy s test p items = true ↔ ∀ item ∈ items,
      isLocal policy s (p ++ [item.1]) = false →
        everyPosition policy s test (p ++ [item.1]) item.2 = true := by
  induction items with
  | nil => simp [everyKey]
  | cons item items ih =>
      rw [everyKey, Bool.and_eq_true, ih, List.forall_mem_cons, Bool.or_eq_true]
      refine and_congr_left fun _ => ?_
      cases isLocal policy s (p ++ [item.1]) <;> simp

variable {policy} in
theorem everyPosition_node {s : Section} {test : Path → Value → Bool} {p : Path} {items : Items}
    (hc : container s p = true) :
    everyPosition policy s test p (.node items) = true ↔ test p (.node items) = true ∧
      ∀ item ∈ items, isLocal policy s (p ++ [item.1]) = false →
        everyPosition policy s test (p ++ [item.1]) item.2 = true := by
  rw [everyPosition, hc, Bool.not_true, Bool.false_or, Bool.and_eq_true, everyKey_iff]

variable {policy} in
theorem laid_of_everyPosition {s : Section} {v : Value} {p : Path}
    (h : everyPosition policy s (laidAt s) p v = true) : Laid policy s p v := by
  induction v using KeyTree.inductionTree generalizing p with
  | hleaf a =>
      rw [everyPosition, laidAt] at h
      split at h
      · rename_i hc
        rw [Bool.and_eq_true, decide_eq_true_eq] at h
        rw [h.2]
        exact .emptyFeed hc h.1
      · rename_i hc
        exact .leaf (Bool.eq_false_of_not_eq_true hc) h
  | hnode items ih =>
      have hc : container s p = true := by
        rw [everyPosition, laidAt, Bool.and_eq_true, Bool.and_eq_true] at h
        exact h.1.1
      obtain ⟨hhere, hbelow⟩ := (everyPosition_node hc).mp h
      refine .node hc (fun hs hp hitems => ?_) fun item hitem hl =>
        ih item hitem (hbelow item hitem hl)
      subst hitems
      simp [laidAt, hs, hp] at hhere

variable {policy} in
theorem classified_of_everyPosition {s : Section} {v : Value} {p : Path}
    (h : everyPosition policy s (classifiedAt policy s) p v = true) : Classified policy s p v := by
  induction v using KeyTree.inductionTree generalizing p with
  | hleaf a => exact .scalar p a
  | hnode items ih =>
      cases hc : container s p with
      | false => exact .leaf hc _
      | true =>
          obtain ⟨hhere, hbelow⟩ := (everyPosition_node hc).mp h
          refine .node (fun item hitem hl => ?_) fun item hitem hl =>
            ih item hitem (hbelow item hitem hl)
          simpa [hl] using List.all_eq_true.mp hhere item hitem

/-- The leaves of what a merge does not ignore. -/
def keptLeaves (s : Section) (p : Path) (v : Value) : List (Path × Value) :=
  ((withoutIgnored policy s p v).map KeyTree.leaves).getD []

variable {policy}

theorem itemsLeaves_keptItems (s : Section) (p : Path) (items : Items) :
    KeyTree.itemsLeaves (keptItems policy s p items) = items.flatMap fun item =>
      if isLocal policy s (p ++ [item.1]) then []
      else (keptLeaves policy s (p ++ [item.1]) item.2).map fun e => (item.1 :: e.1, e.2) := by
  induction items with
  | nil => rfl
  | cons item items ih =>
      unfold keptItems at ih ⊢
      rw [List.flatMap_cons, List.filterMap_cons, ← ih]
      cases hl : isLocal policy s (p ++ [item.1]) with
      | true => simp
      | false =>
          cases hv : withoutIgnored policy s (p ++ [item.1]) item.2 with
          | none => simp [keptLeaves, hv]
          | some t => simp [keptLeaves, hv, KeyTree.itemsLeaves]

theorem keptLeaves_node {s : Section} {p : Path} (hc : container s p = true) (items : Items) :
    keptLeaves policy s p (.node items) = KeyTree.itemsLeaves (keptItems policy s p items) := by
  rw [keptLeaves, withoutIgnored_node policy hc]
  cases hkept : keptItems policy s p items with
  | nil => rfl
  | cons item kept => rfl

theorem keptLeaves_text (s : Section) (p : Path) (t : Str) :
    keptLeaves policy s p (text t) = [([], text t)] := by
  rw [keptLeaves, text, withoutIgnored_scalar]
  rfl

theorem exists_text_of_isString {v : Value} (h : isString v = true) : ∃ t, v = text t := by
  cases v with
  | node items => cases h
  | leaf a =>
      cases a with
      | str t => exact ⟨t, rfl⟩
      | null => cases h
      | bool b => cases h
      | num t => cases h

theorem pathIsLocal_of_isLocal_eq_false {s : Section} (hs : settings s = none) {p : Path}
    (h : isLocal policy s p = false) : pathIsLocal s p = false := by
  cases hp : pathIsLocal s p with
  | false => rfl
  | true => simp [isLocal, hs, hp] at h

/-- The walk over a laid-out part of a deny-list section gives what a merge does not ignore. -/
theorem walkValue_eq {s : Section} (hs : settings s = none) (p : Path) :
    ∀ v : Value, p ≠ [] → Laid policy s p v → Classified policy s p v →
      walkValue s p v = (keptLeaves policy s p v).map fun e => (p ++ e.1, e.2) := by
  have htext : ∀ (p : Path) (t : Str), walkValue s p (text t) =
      (keptLeaves policy s p (text t)).map fun e => (p ++ e.1, e.2) := by
    intro p t
    rw [keptLeaves_text]
    simp [walkValue, text]
  induction p using path_induction (s := s) with
  | leaf p hc =>
      intro v _ hlaid _
      cases hlaid with
      | leaf _ hv =>
          obtain ⟨t, rfl⟩ := exists_text_of_isString hv
          exact htext p t
      | emptyFeed hc' _ => rw [hc] at hc'; cases hc'
      | node hc' _ _ => rw [hc] at hc'; cases hc'
  | step p hc ih =>
      intro v hp hlaid hclass
      cases hlaid with
      | leaf hc' _ => rw [hc] at hc'; cases hc'
      | emptyFeed _ _ => exact htext p []
      | @node _ items _ hne hitems =>
          have hwalk : walkValue s p (.node items) = walk s p items := by
            cases items with
            | nil => exact absurd rfl (hne hs hp)
            | cons item items => rfl
          rw [hwalk, walk_eq_flatMap, keptLeaves_node hc, itemsLeaves_keptItems,
            List.map_flatMap]
          refine List.flatMap_congr fun item hitem => ?_
          cases hclass with
          | leaf hc' _ => rw [hc] at hc'; cases hc'
          | node hkeys hbelow =>
              cases hl : isLocal policy s (p ++ [item.1]) with
              | true =>
                  have hproj := hkeys item hitem hl
                  rw [projects, hs, Bool.not_eq_false'] at hproj
                  simp [hproj]
              | false =>
                  rw [if_neg (by simp [pathIsLocal_of_isLocal_eq_false hs hl]),
                    ih item.1 item.2 (by simp) (hitems item hitem hl) (hbelow item hitem hl)]
                  simp

/-! ### Settings sections -/

theorem flatMap_lookup {β : Type*} {items : Items} (h : (items.map Prod.fst).Nodup) (k : Str)
    (f : Value → List β) :
    (items.flatMap fun item => if item.1 = k then f item.2 else []) =
      ((lookup k items).map f).getD [] := by
  induction items with
  | nil => rfl
  | cons item items ih =>
      rw [List.map_cons, List.nodup_cons] at h
      rw [List.flatMap_cons, ih h.2]
      by_cases hk : item.1 = k
      · subst hk
        simp [lookup, (lookup_eq_none_iff _ items).mpr h.1]
      · simp [lookup, hk]

section
variable {s : Section} {a : SectionAlias}

theorem container_of_settings (hs : settings s = some a) (p : Path) :
    container s p =
      match p with
      | [] => true
      | k :: rest => k = kConfig && rest.length ≤ 1 := by
  cases p with
  | nil => rfl
  | cons k rest =>
      cases s <;> simp only [settings, reduceCtorEq] at hs <;>
        by_cases hk : k = kConfig <;> simp [container, flat, settings, hk]

theorem isLocal_settings_key (hs : settings s = some a) (k : Str) :
    isLocal policy s [k] = decide (k ≠ kConfig) := by
  have hname : elementName kConfig = true := by decide
  by_cases hk : k = kConfig
  · subst hk
    simp [isLocal, hs, hname]
  · simp [isLocal, hs, hk]

theorem isLocal_settings_row (hs : settings s = some a) (k : Str) :
    isLocal policy s [kConfig, k] = decide (k ≠ kZero) := by
  have hdigits : isDigits kZero = true := by decide
  by_cases hk : k = kZero
  · subst hk
    simp [isLocal, hs, hdigits, container_of_settings hs]
  · simp [isLocal, hs, hk]

theorem policy_of_isLocal_eq_false (hs : settings s = some a) {k : Str}
    (h : isLocal policy s [kConfig, kZero, k] = false) : policy a k = true := by
  cases hp : policy a k with
  | true => rfl
  | false => simp [isLocal, hs, hp] at h

theorem keptLeaves_of_laid_node {p : Path} {v : Value} (hc : container s p = true)
    (hf : feed p = false) (h : Laid policy s p v) :
    ∃ items, v = .node items ∧
      (∀ item ∈ items, isLocal policy s (p ++ [item.1]) = false →
        Laid policy s (p ++ [item.1]) item.2) ∧
      keptLeaves policy s p v = items.flatMap fun item =>
        if isLocal policy s (p ++ [item.1]) then []
        else (keptLeaves policy s (p ++ [item.1]) item.2).map fun e => (item.1 :: e.1, e.2) := by
  cases h with
  | leaf hc' _ => rw [hc] at hc'; cases hc'
  | emptyFeed _ hf' => rw [hf] at hf'; cases hf'
  | @node _ items _ _ hitems =>
      exact ⟨items, rfl, hitems, (keptLeaves_node hc items).trans (itemsLeaves_keptItems s p items)⟩

/-- A laid-out settings map gives the leaves a merge does not ignore. -/
theorem settingsMap_eq (hs : settings s = some a) {map : Items}
    (hlaid : Laid policy s [kConfig, kZero] (.node map))
    (hclass : Classified policy s [kConfig, kZero] (.node map)) :
    (map.flatMap fun item =>
      if policy a item.1 then
        (item.2.leaves.filter fun e => e.2 ≠ null).map fun e =>
          (kConfig :: kZero :: item.1 :: e.1, e.2)
      else []) =
    (keptLeaves policy s [kConfig, kZero] (.node map)).map fun e =>
      (kConfig :: kZero :: e.1, e.2) := by
  have hc : container s [kConfig, kZero] = true := by rw [container_of_settings hs]; rfl
  obtain ⟨items, hitems, hbelow, hkept⟩ := keptLeaves_of_laid_node hc (by decide) hlaid
  cases hitems
  rw [hkept, List.map_flatMap]
  refine List.flatMap_congr fun item hitem => ?_
  obtain ⟨k, v⟩ := item
  cases hl : isLocal policy s ([kConfig, kZero] ++ [k]) with
  | true =>
      have hproj : policy a k = false := by
        cases hclass with
        | leaf hc' _ => rw [hc] at hc'; cases hc'
        | node hkeys _ => simpa [projects, hs] using hkeys _ hitem hl
      simp [hproj]
  | false =>
      have hleaf : container s ([kConfig, kZero] ++ [k]) = false := by
        rw [container_of_settings hs]
        rfl
      have hpolicy := policy_of_isLocal_eq_false hs hl
      cases hbelow _ hitem hl with
      | emptyFeed hc' _ => rw [hleaf] at hc'; cases hc'
      | node hc' _ _ => rw [hleaf] at hc'; cases hc'
      | leaf _ hv =>
          obtain ⟨t, rfl⟩ := exists_text_of_isString hv
          simp only [hpolicy, Bool.false_eq_true, if_false, if_true, keptLeaves_text]
          simp [text, KeyTree.leaves, null]

/-- A container with one key that is not ignored. -/
theorem itemsLeaves_keptItems_single {p : Path} {items : Items}
    (hnodup : (items.map Prod.fst).Nodup) {k₀ : Str}
    (hlocal : ∀ k, isLocal policy s (p ++ [k]) = decide (k ≠ k₀)) :
    KeyTree.itemsLeaves (keptItems policy s p items) =
      (keptLeaves policy s (p ++ [k₀]) (valueOf k₀ items)).map fun e => (k₀ :: e.1, e.2) := by
  have hsingle : (items.flatMap fun item =>
      if isLocal policy s (p ++ [item.1]) then []
      else (keptLeaves policy s (p ++ [item.1]) item.2).map fun e => (item.1 :: e.1, e.2)) =
      items.flatMap fun item =>
        if item.1 = k₀ then
          (keptLeaves policy s (p ++ [k₀]) item.2).map fun e => (k₀ :: e.1, e.2)
        else [] := by
    refine List.flatMap_congr fun item _ => ?_
    rw [hlocal]
    by_cases hk : item.1 = k₀ <;> simp [hk]
  rw [itemsLeaves_keptItems, hsingle, flatMap_lookup hnodup k₀
    fun v => (keptLeaves policy s (p ++ [k₀]) v).map fun e => (k₀ :: e.1, e.2)]
  cases hl : lookup k₀ items with
  | some v => simp [valueOf, hl]
  | none =>
      have hnull : keptLeaves policy s (p ++ [k₀]) null = [] := by
        rw [keptLeaves, null, withoutIgnored_scalar]
        rfl
      simp [valueOf, hl, hnull]

/-- Below a laid-out container stands a laid-out container, or nothing. -/
theorem laid_child {p : Path} {xs : Items} {k : Str} (hlaid : Laid policy s p (.node xs))
    (hclass : Classified policy s p (.node xs)) (hd : (KeyTree.node xs : Value).Distinct)
    (hc : container s p = true) (hck : container s (p ++ [k]) = true)
    (hfk : feed (p ++ [k]) = false) (hl : isLocal policy s (p ++ [k]) = false) :
    valueOf k xs = null ∨ ∃ ys, valueOf k xs = .node ys ∧ Laid policy s (p ++ [k]) (.node ys) ∧
      Classified policy s (p ++ [k]) (.node ys) ∧ (KeyTree.node ys : Value).Distinct := by
  by_cases hv : valueOf k xs = null
  · exact Or.inl hv
  · have hmem := mem_of_valueOf_ne_null hd.nodup hv
    have hlaid' : Laid policy s (p ++ [k]) (valueOf k xs) := by
      cases hlaid with
      | leaf hc' _ => rw [hc] at hc'; cases hc'
      | node _ _ hitems => exact hitems _ hmem hl
    have hclass' : Classified policy s (p ++ [k]) (valueOf k xs) := by
      cases hclass with
      | leaf hc' _ => rw [hc] at hc'; cases hc'
      | node _ hitems => exact hitems _ hmem hl
    obtain ⟨ys, hys, _⟩ := keptLeaves_of_laid_node hck hfk hlaid'
    exact Or.inr ⟨ys, hys, hys ▸ hlaid', hys ▸ hclass', hys ▸ hd.of_mem hmem⟩

/-- The leaves of a laid-out settings section are what a merge does not ignore. -/
theorem settingsLeaves_eq (hs : settings s = some a) {items : Items}
    (hd : (KeyTree.node items : Value).Distinct) (hlaid : Laid policy s [] (.node items))
    (hclass : Classified policy s [] (.node items)) :
    settingsLeaves policy a items = KeyTree.itemsLeaves (keptItems policy s [] items) := by
  have hc1 : container s [kConfig] = true := by rw [container_of_settings hs]; rfl
  have hc2 : container s [kConfig, kZero] = true := by rw [container_of_settings hs]; rfl
  have hl1 : isLocal policy s ([] ++ [kConfig]) = false := by
    rw [List.nil_append, isLocal_settings_key hs]
    simp
  have hl2 : isLocal policy s ([kConfig] ++ [kZero]) = false := by
    rw [List.singleton_append, isLocal_settings_row hs]
    simp
  have hnull : ∀ p, keptLeaves policy s p null = [] := fun p => by
    rw [keptLeaves, null, withoutIgnored_scalar]
    rfl
  have hkeys : (items.map Prod.fst).Nodup := hd.nodup
  rw [itemsLeaves_keptItems_single hkeys (isLocal_settings_key hs), settingsLeaves]
  rcases laid_child hlaid hclass hd rfl hc1 (by decide) hl1 with
    hcfg | ⟨ys, hcfg, hlaid', hclass', hd'⟩
  · rw [hcfg, List.nil_append, hnull]
    rfl
  · have hkeys' : (ys.map Prod.fst).Nodup := hd'.nodup
    rw [hcfg, List.nil_append, keptLeaves_node hc1,
      itemsLeaves_keptItems_single hkeys' (isLocal_settings_row hs), KeyTree.items_node]
    rcases laid_child hlaid' hclass' hd' hc1 hc2 (by decide) hl2 with
      hzero | ⟨map, hzero, hlaid'', hclass'', _⟩
    · rw [hzero, List.singleton_append, hnull]
      rfl
    · rw [hzero, List.singleton_append, List.map_map]
      exact settingsMap_eq hs hlaid'' hclass''

end

/-- The leaves of a laid-out section are what a merge does not ignore. -/
theorem sectionLeaves_eq {s : Section} {items : Items} (hd : (KeyTree.node items : Value).Distinct)
    (hlaid : Laid policy s [] (.node items)) (hclass : Classified policy s [] (.node items)) :
    sectionLeaves policy s (.node items) = KeyTree.itemsLeaves (keptItems policy s [] items) := by
  cases hs : settings s with
  | some a =>
      simp only [sectionLeaves, hs]
      exact settingsLeaves_eq hs hd hlaid hclass
  | none =>
      simp only [sectionLeaves, hs]
      rw [walk_eq_flatMap, itemsLeaves_keptItems]
      refine List.flatMap_congr fun item hitem => ?_
      cases hlaid with
      | leaf hc' _ => cases hc'
      | node _ _ hitems =>
          cases hclass with
          | leaf hc' _ => cases hc'
          | node hkeys hbelow =>
              cases hl : isLocal policy s ([] ++ [item.1]) with
              | true =>
                  have hproj := hkeys item hitem hl
                  rw [projects, hs, Bool.not_eq_false'] at hproj
                  rw [if_pos hproj, if_pos rfl]
              | false =>
                  have hpath := pathIsLocal_of_isLocal_eq_false hs hl
                  rw [if_neg (Bool.eq_false_iff.mp hpath),
                    walkValue_eq hs _ item.2 (by simp) (hitems item hitem hl)
                      (hbelow item hitem hl)]
                  simp

/-! ### The tree of a projection -/

theorem slash_not_mem_name (s : Section) : '/' ∉ s.name := by
  cases s <;> decide

theorem slash_not_mem_installedpackages : '/' ∉ installedpackages := by
  decide

theorem slash_not_mem_of_isLocal_eq_false {s : Section} {p : Path} {k : Str}
    (h : isLocal policy s (p ++ [k]) = false) : '/' ∉ k := by
  intro hslash
  have hdigits : isDigits k = false := by
    rw [isDigits, List.all_eq_false.mpr ⟨'/', hslash, by decide⟩, Bool.and_false]
  have hname : elementName k = false := by
    cases k with
    | nil => cases hslash
    | cons c cs =>
        rcases List.mem_cons.mp hslash with rfl | hcs
        · rfl
        · rw [elementName, List.all_eq_false.mpr ⟨'/', hcs, by decide⟩, Bool.and_false]
  simp [isLocal, hdigits, hname] at h

/-- The leaves a merge does not ignore are strings under keys without a slash. -/
theorem keptLeaves_spec {s : Section} (p : Path) : ∀ v : Value, Laid policy s p v →
    ∀ e ∈ keptLeaves policy s p v, (∀ k ∈ e.1, '/' ∉ k) ∧ ∃ t, e.2 = text t := by
  have htext : ∀ (p : Path) (t : Str), ∀ e ∈ keptLeaves policy s p (text t),
      (∀ k ∈ e.1, '/' ∉ k) ∧ ∃ t, e.2 = text t := by
    intro p t e he
    rw [keptLeaves_text, List.mem_singleton] at he
    subst he
    exact ⟨fun k hk => absurd hk List.not_mem_nil, t, rfl⟩
  induction p using path_induction (s := s) with
  | leaf p hc =>
      intro v hlaid
      cases hlaid with
      | leaf _ hv =>
          obtain ⟨t, rfl⟩ := exists_text_of_isString hv
          exact htext p t
      | emptyFeed hc' _ => rw [hc] at hc'; cases hc'
      | node hc' _ _ => rw [hc] at hc'; cases hc'
  | step p hc ih =>
      intro v hlaid
      cases hlaid with
      | leaf hc' _ => rw [hc] at hc'; cases hc'
      | emptyFeed _ _ => exact htext p []
      | @node _ items _ _ hitems =>
          intro e he
          rw [keptLeaves_node hc, itemsLeaves_keptItems] at he
          obtain ⟨item, hitem, he⟩ := List.mem_flatMap.mp he
          split at he
          · cases he
          · rename_i hl
            have hl' := Bool.eq_false_of_not_eq_true hl
            obtain ⟨e', he', rfl⟩ := List.mem_map.mp he
            obtain ⟨hslash, ht⟩ := ih item.1 item.2 (hitems item hitem hl') e' he'
            exact ⟨List.forall_mem_cons.mpr
              ⟨slash_not_mem_of_isLocal_eq_false hl', hslash⟩, ht⟩

/-- What a merge leaves of a value relates to the value as the leaves and the kept keys of the
containers do. -/
theorem withoutIgnored_induction {s : Section} {P : Path → Value → Value → Prop}
    (leaf : ∀ p v, container s p = false → v ≠ null → P p v v)
    (scalar : ∀ p a, container s p = true → a ≠ .null → P p (.leaf a) (.leaf a))
    (node : ∀ p items, container s p = true → keptItems policy s p items ≠ [] →
      (∀ y ∈ keptItems policy s p items, isLocal policy s (p ++ [y.1]) = false ∧
        ∃ v, (y.1, v) ∈ items ∧ P (p ++ [y.1]) v y.2) →
      P p (.node items) (.node (keptItems policy s p items)))
    (p : Path) : ∀ v t : Value, withoutIgnored policy s p v = some t → P p v t := by
  induction p using path_induction (s := s) with
  | leaf p hc =>
      intro v t h
      rw [withoutIgnored_leaf policy hc] at h
      split at h
      · cases h
      · rename_i hne
        exact Option.some.inj h ▸ leaf p v hc hne
  | step p hc ih =>
      intro v t h
      cases v with
      | leaf a =>
          rw [withoutIgnored_scalar] at h
          split at h
          · cases h
          · rename_i hne
            exact Option.some.inj h ▸ scalar p a hc hne
      | node items =>
          rw [withoutIgnored_node policy hc] at h
          split at h
          · cases h
          · rename_i hne
            cases Option.some.inj h
            refine node p items hc hne fun y hy => ?_
            obtain ⟨hl, v, hmem, hkept⟩ := mem_keptItems.mp hy
            exact ⟨hl, v, hmem, ih y.1 v y.2 hkept⟩

theorem distinct_withoutIgnored {s : Section} (p : Path) (v t : Value)
    (h : withoutIgnored policy s p v = some t) : v.Distinct → t.Distinct := by
  refine withoutIgnored_induction (P := fun _ v t => v.Distinct → t.Distinct) ?_ ?_ ?_ p v t h
  · exact fun _ _ _ _ => id
  · exact fun _ _ _ _ => id
  · intro p items _ _ ih hv
    refine .node (nodup_keptItems policy hv.nodup) fun y hy => ?_
    obtain ⟨-, v, hmem, hdistinct⟩ := ih y hy
    exact hdistinct (hv.of_mem hmem)

theorem full_withoutIgnored {s : Section} (p : Path) (v t : Value)
    (h : withoutIgnored policy s p v = some t) : Laid policy s p v → t.Full := by
  refine withoutIgnored_induction (P := fun p v t => Laid policy s p v → t.Full) ?_ ?_ ?_ p v t h
  · intro p v hc _ hlaid
    cases hlaid with
    | leaf _ hv =>
        obtain ⟨x, rfl⟩ := exists_text_of_isString hv
        exact .leaf _
    | emptyFeed hc' _ => rw [hc] at hc'; cases hc'
    | node hc' _ _ => rw [hc] at hc'; cases hc'
  · exact fun _ a _ _ _ => .leaf a
  · intro p items hc hne ih hlaid
    refine .node hne fun y hy => ?_
    obtain ⟨hl, v, hmem, hfull⟩ := ih y hy
    cases hlaid with
    | leaf hc' _ => rw [hc] at hc'; cases hc'
    | node _ _ hitems => exact hfull (hitems _ hmem hl)

variable (policy) in
/-- Every section that is an array is laid out by the schema, and its policy keys are named as
the schema asks. -/
def ShapedSections (sections : Items) : Prop :=
  ∀ s : Section, (valueOf s.name sections).Distinct ∧
    (isArray (valueOf s.name sections) = true →
      Laid policy s [] (valueOf s.name sections) ∧ Classified policy s [] (valueOf s.name sections))

section
variable {sections : Items}

theorem ignoredRemoved_fst (s : Section) (y : Str × Value)
    (h : (let kept := keptItems policy s [] (valueOf s.name sections).items
      if kept = [] then none else some (s.name, .node kept)) = some y) : y.1 = s.name := by
  dsimp only at h
  split at h
  · cases h
  · rw [← Option.some.inj h]

theorem mem_ignoredRemoved {y : Str × Value} (h : y ∈ ignoredRemoved policy sections) :
    ∃ s : Section, y = (s.name, .node (keptItems policy s [] (valueOf s.name sections).items)) ∧
      keptItems policy s [] (valueOf s.name sections).items ≠ [] := by
  obtain ⟨s, _, hs⟩ := List.mem_filterMap.mp h
  dsimp only at hs
  split at hs
  · cases hs
  · exact ⟨s, (Option.some.inj hs).symm, by assumption⟩

theorem ShapedSections.distinct (h : ShapedSections policy sections) :
    (KeyTree.node (ignoredRemoved policy sections) : Value).Distinct := by
  refine .node ?_ fun y hy => ?_
  · have hsub : ∀ ss : List Section,
        ((ss.filterMap fun s =>
          let kept := keptItems policy s [] (valueOf s.name sections).items
          if kept = [] then none else some (s.name, (KeyTree.node kept : Value))).map
            Prod.fst).Sublist (ss.map Section.name) := by
      intro ss
      induction ss with
      | nil => exact List.Sublist.slnil
      | cons s ss ih =>
          rw [List.filterMap_cons]
          split
          · exact ih.cons _
          · rename_i y hy
            rw [List.map_cons, List.map_cons, ignoredRemoved_fst s y hy]
            exact ih.cons_cons _
    exact (hsub _).nodup names_nodup
  · obtain ⟨s, rfl, hne⟩ := mem_ignoredRemoved hy
    have hd := (h s).1
    refine .node (nodup_keptItems policy hd.nodup) fun x hx => ?_
    obtain ⟨_, v, hmem, hkept⟩ := mem_keptItems.mp hx
    exact distinct_withoutIgnored _ v x.2 hkept (hd.of_mem hmem)

/-- The kept items of an array section that is laid out are full. -/
theorem ShapedSections.full_keptItems (h : ShapedSections policy sections) (s : Section) :
    ∀ x ∈ keptItems policy s [] (valueOf s.name sections).items, x.2.Full := by
  intro x hx
  obtain ⟨hl, v, hmem, hkept⟩ := mem_keptItems.mp hx
  cases hv : valueOf s.name sections with
  | leaf a => rw [hv] at hmem; cases hmem
  | node items =>
      have hlaid := ((h s).2 (by rw [hv]; rfl)).1
      rw [hv] at hlaid hmem
      cases hlaid with
      | leaf hc _ => cases hc
      | node _ _ hitems => exact full_withoutIgnored _ v x.2 hkept (hitems _ hmem hl)

theorem ShapedSections.sectionLeaves_eq (h : ShapedSections policy sections) (s : Section) :
    sectionLeaves policy s (valueOf s.name sections) =
      KeyTree.itemsLeaves (keptItems policy s [] (valueOf s.name sections).items) := by
  obtain ⟨hd, hshape⟩ := h s
  cases hv : valueOf s.name sections with
  | leaf a => rfl
  | node items =>
      rw [hv] at hd hshape
      obtain ⟨hlaid, hclass⟩ := hshape rfl
      exact SyncProjection.sectionLeaves_eq hd hlaid hclass

theorem itemsLeaves_ignoredRemoved :
    KeyTree.itemsLeaves (ignoredRemoved policy sections) =
      (pfblockerngSyncSections true).flatMap fun s =>
        (KeyTree.itemsLeaves (keptItems policy s [] (valueOf s.name sections).items)).map fun e =>
          (s.name :: e.1, e.2) := by
  unfold ignoredRemoved
  induction pfblockerngSyncSections true with
  | nil => rfl
  | cons s ss ih =>
      rw [List.flatMap_cons, ← ih, List.filterMap_cons]
      cases hkept : keptItems policy s [] (valueOf s.name sections).items with
      | nil => simp [KeyTree.itemsLeaves]
      | cons x kept => simp [KeyTree.itemsLeaves, KeyTree.leaves]

/-- The leaves a shaped node projects are strings under paths that read back. -/
theorem ShapedSections.leaves_spec (h : ShapedSections policy sections) :
    ∀ e ∈ KeyTree.itemsLeaves (ignoredRemoved policy sections),
      explode (implode (installedpackages :: e.1)) = installedpackages :: e.1 ∧
        ∃ t, e.2 = text t := by
  intro e he
  rw [itemsLeaves_ignoredRemoved] at he
  obtain ⟨s, _, he⟩ := List.mem_flatMap.mp he
  obtain ⟨e', he', rfl⟩ := List.mem_map.mp he
  have hspec : (∀ k ∈ e'.1, '/' ∉ k) ∧ ∃ t, e'.2 = text t := by
    cases hv : valueOf s.name sections with
    | leaf a => rw [hv] at he'; cases he'
    | node items =>
        have hlaid := ((h s).2 (by rw [hv]; rfl)).1
        rw [hv] at hlaid he'
        rw [KeyTree.items_node, ← keptLeaves_node rfl] at he'
        exact keptLeaves_spec [] _ hlaid e' he'
  refine ⟨explode_implode (List.cons_ne_nil _ _) ?_, hspec.2⟩
  exact List.forall_mem_cons.mpr ⟨slash_not_mem_installedpackages,
    List.forall_mem_cons.mpr ⟨slash_not_mem_name s, hspec.1⟩⟩

/-- The projection of a shaped node lists the leaves that a merge would not ignore. -/
theorem ShapedSections.projection_eq (h : ShapedSections policy sections) :
    pfbSyncPolicyProjection policy sections =
      (KeyTree.itemsLeaves (ignoredRemoved policy sections)).map fun e =>
        (implode (installedpackages :: e.1), e.2) := by
  have hentries : ((pfblockerngSyncSections true).flatMap fun s =>
      (sectionLeaves policy s (valueOf s.name sections)).map fun e =>
        (implode (installedpackages :: s.name :: e.1), e.2)) =
      (KeyTree.itemsLeaves (ignoredRemoved policy sections)).map fun e =>
        (implode (installedpackages :: e.1), e.2) := by
    rw [itemsLeaves_ignoredRemoved, List.map_flatMap]
    refine List.flatMap_congr fun s _ => ?_
    rw [h.sectionLeaves_eq s, List.map_map]
    rfl
  rw [pfbSyncPolicyProjection, hentries]
  refine (foldl_store (α := Value) ?_).trans (List.nil_append _)
  rw [List.map_nil, List.nil_append, List.map_map]
  have hnodup := KeyTree.nodup_itemsLeaves h.distinct
  refine List.Nodup.map_on (fun x hx y hy hxy => ?_) hnodup.of_map
  have hpaths := congrArg explode hxy
  simp only [Function.comp_apply] at hpaths
  rw [(h.leaves_spec x hx).1, (h.leaves_spec y hy).1] at hpaths
  exact List.inj_on_of_nodup_map hnodup hx hy (List.cons.inj hpaths).2

/-- Rebuilding the projection of a shaped node gives its sections without what a merge ignores. -/
theorem ShapedSections.rebuilt_eq (h : ShapedSections policy sections) :
    rebuilt (pfbSyncPolicyProjection policy sections) = ignoredRemoved policy sections := by
  rw [h.projection_eq, rebuilt, List.map_map]
  have hentries : (KeyTree.itemsLeaves (ignoredRemoved policy sections)).map
      ((fun e => ((explode e.1).drop 1, e.2)) ∘
        fun e => (implode (installedpackages :: e.1), e.2)) =
      KeyTree.itemsLeaves (ignoredRemoved policy sections) := by
    refine (List.map_congr_left fun e he => ?_).trans (List.map_id _)
    rw [Function.comp_apply, (h.leaves_spec e he).1]
    rfl
  rw [hentries]
  refine KeyTree.plant_itemsLeaves h.distinct.nodup (fun y hy => ?_) fun y hy =>
    h.distinct.of_mem hy
  obtain ⟨s, rfl, hne⟩ := mem_ignoredRemoved hy
  exact .node hne (h.full_keptItems s)

theorem keys_put (t : Value) (path : Path) {items : Items}
    (h : ∀ k ∈ path.head?, k ∈ items.map Prod.fst) :
    (KeyTree.put t path items).map Prod.fst = items.map Prod.fst := by
  match path with
  | [] => rfl
  | [k] => rw [KeyTree.put, keys_store, if_pos (h k rfl)]
  | k :: k' :: path => rw [KeyTree.put, keys_store, if_pos (h k rfl)]

/-- Each section of the digest tree holds what a merge would not ignore of it. -/
theorem ShapedSections.digestTree_eq (h : ShapedSections policy sections) :
    digestTree (pfbSyncPolicyProjection policy sections) =
      (pfblockerngSyncSections true).map fun s =>
        (s.name, .node (keptItems policy s [] (valueOf s.name sections).items)) := by
  have hsteps : ∀ (es : List (Path × Value)) (tree : Items),
      (∀ e ∈ es, explode (implode (installedpackages :: e.1)) = installedpackages :: e.1 ∧
        (∃ t, e.2 = text t) ∧ ∃ s k rel, e.1 = Section.name s :: k :: rel) →
      (∀ s : Section, s.name ∈ tree.map Prod.fst) →
      (es.map fun e => (implode (installedpackages :: e.1), e.2)).foldl digestStep tree =
        KeyTree.plant tree es := by
    intro es
    induction es with
    | nil => exact fun tree _ _ => rfl
    | cons e es ih =>
        intro tree hes hnames
        obtain ⟨hpath, ⟨t, ht⟩, s, k, rel, hrel⟩ := hes e List.mem_cons_self
        have hstep : digestStep tree (implode (installedpackages :: e.1), e.2) =
            KeyTree.put e.2 e.1 tree := by
          rw [digestStep, hpath, hrel, ht]
          simp only [decide_true, Bool.true_and]
          rw [if_pos (List.contains_iff_mem.mpr (hnames s))]
          rfl
        have hkeys : (KeyTree.put e.2 e.1 tree).map Prod.fst = tree.map Prod.fst := by
          refine keys_put e.2 e.1 fun k' hk' => ?_
          rw [hrel] at hk'
          exact Option.some.inj hk' ▸ hnames s
        rw [List.map_cons, List.foldl_cons, hstep, KeyTree.plant_cons]
        exact ih _ (fun e' he' => hes e' (List.mem_cons_of_mem _ he')) fun s' => by
          rw [hkeys]
          exact hnames s'
  rw [h.projection_eq, digestTree, hsteps]
  · rw [itemsLeaves_ignoredRemoved]
    have hplant := KeyTree.plant_under_each Section.name
      (fun s => keptItems policy s [] (valueOf s.name sections).items)
      (pfblockerngSyncSections true) (fun s _ => ?_) [] ?_
    · simpa using hplant
    · refine KeyTree.plant_itemsLeaves (nodup_keptItems policy (h s).1.nodup) (h.full_keptItems s)
        fun x hx => ?_
      obtain ⟨_, v, hmem, hkept⟩ := mem_keptItems.mp hx
      exact distinct_withoutIgnored _ v x.2 hkept ((h s).1.of_mem hmem)
    · exact names_nodup
  · intro e he
    refine ⟨(h.leaves_spec e he).1, (h.leaves_spec e he).2, ?_⟩
    rw [itemsLeaves_ignoredRemoved] at he
    obtain ⟨s, _, he⟩ := List.mem_flatMap.mp he
    obtain ⟨e', he', rfl⟩ := List.mem_map.mp he
    cases hpath : e'.1 with
    | nil => exact absurd hpath (KeyTree.itemsLeaves_ne_nil_path he')
    | cons k rel => exact ⟨s, k, rel, rfl⟩
  · intro s
    rw [List.map_map]
    exact List.mem_map.mpr ⟨s, mem_syncSections s, rfl⟩

end

end

end PfBlockerNG.SyncProjection
