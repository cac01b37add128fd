import PfBlockerNG.SyncSchema

/-!
The merge of a sender's policy snapshot into a receiver's sections: both sides are validated
whole, then every policy leaf takes the incoming value and every receiver-local key stays.
-/

namespace PfBlockerNG.SyncMerge

open Strings OrderedDict KeyedTree SyncSchema
open ConfigRegistry (SectionAlias isDigits)
open ScheduleState (wordChar)

inductive Side
  | incoming | current
  deriving DecidableEq, Repr

def Side.name : Side → Str
  | .incoming => "incoming".toList
  | .current => "current".toList

/-! ### Refusals and reports -/

def badText : Str := "pfb_sync_policy_merge: invalid ".toList
def badAt : Str := " value at ".toList
def installedpackages : Str := "installedpackages".toList

/-- Only integer segments of the path are shown. -/
def bad (side : Side) (s : Section) (p : Path) : Str :=
  badText ++ side.name ++ badAt ++
    implode (s.name :: p.map fun key => if isIntKey key then key else star)

/-- A segment that is safe to show. -/
def safe (key : Str) : Str :=
  if key.length ≤ 64 && (isDigits key || elementName key) then key else star

def skippedPath (s : Section) (p : Path) : Str :=
  installedpackages ++ '/' :: implode (s.name :: p.map safe)

/-- The leaves of an incoming subtree that the merge skips. -/
def collect (s : Section) (p : Path) (v : Value) : List Str :=
  v.leaves.map fun e => skippedPath s (p ++ e.1)

/-- What `f` finds at each element in turn, up to its first refusal. -/
def gather {α : Type*} (f : α → Except Str (List Str)) : List α → Except Str (List Str)
  | [] => .ok []
  | x :: xs =>
      match f x, gather f xs with
      | .error e, _ => .error e
      | .ok _, .error e => .error e
      | .ok found, .ok rest => .ok (found ++ rest)

/-! ### Validation -/

/-- `pfb_normalize_row_header()`, whether the header changes. -/
def headerChanged (header : Str) : Bool := header.filter wordChar ≠ header

def blacklistIdentityValid (v : Str) : Bool :=
  v ≠ [] && v ≠ kZero && v.all fun c => wordChar c || c = ',' || c = '-'

/-- The identity rule of a list: the category editor's for an alias name, the schedule
runtime's without the comma for a blacklist. -/
def idValid (s : Section) (l : IdentityList) (v : Str) : Bool :=
  if l.id = kAliasname then
    v ≠ [] && v ≠ kZero && v.all wordChar && (v.length ≤ 24 || s = .pfblockerngdnsbl)
  else blacklistIdentityValid v && !v.contains ','

/-- `$row[$id] ?? NULL`, when it is a string. -/
def idOf (l : IdentityList) (row : Value) : Option Str :=
  match row with
  | .leaf _ => none
  | .node items =>
      match valueOf l.id items with
      | .leaf (.str v) => some v
      | _ => none

section
variable (policy : SectionAlias → Str → Bool)

/-- The identities of the rows are present, unique and valid. -/
def ids (s : Section) (l : IdentityList) (side : Side) (p : Path) :
    Items → List Str → Except Str (List Str)
  | [], _ => .ok []
  | (k, row) :: rows, seen =>
      if l.id = kAliasname && (row = text [] || row = .node []) then ids s l side p rows seen
      else if side = .incoming && isLocal policy s (p ++ [k]) then ids s l side p rows seen
      else
        match idOf l row with
        | none => .error (bad side s (p ++ [k]))
        | some v =>
            if seen.contains v || !idValid s l v then .error (bad side s (p ++ [k]))
            else ids s l side p rows (v :: seen)

def checkLeaf (s : Section) (p : Path) (v : Value) : Except Str (List Str) :=
  if isString v || v = .node [] then .ok [] else .error (bad .incoming s p)

/-- An element without content: a feed row, or a row of a group list. -/
def emptyElement (s : Section) (p : Path) (v : Value) : Bool :=
  v = text [] &&
    (feed p || (((lists s).map IdentityList.key) = some kConfig && p.length = 2))

def checkHeader (s : Section) (p : Path) (items : Items) : Except Str (List Str) :=
  match valueOf kHeader items with
  | .leaf (.str header) =>
      if feed p && headerChanged header then .error (bad .incoming s (p ++ [kHeader])) else .ok []
  | _ => .ok []

def checkIds (s : Section) (p : Path) (items : Items) : Except Str (List Str) :=
  match listAt s p with
  | some l => ids policy s l .incoming p items []
  | none => .ok []

/-- `$check`, down to the depth of the schema. -/
def checkAt : ℕ → Section → Path → Value → Except Str (List Str)
  | 0, s, p, v => checkLeaf s p v
  | depth + 1, s, p, v =>
      if !container s p then checkLeaf s p v
      else
        match v with
        | .leaf _ => if emptyElement s p v then .ok [] else .error (bad .incoming s p)
        | .node items => do
            let skipped ← gather (fun item =>
              if isLocal policy s (p ++ [item.1]) then .ok (collect s (p ++ [item.1]) item.2)
              else checkAt depth s (p ++ [item.1]) item.2) items
            let _ ← checkHeader s p items
            let _ ← checkIds policy s p items
            return skipped

def check (s : Section) (p : Path) (v : Value) : Except Str (List Str) :=
  checkAt policy (schemaDepth - p.length) s p v

/-- What the merge asks of the receiver's own section. -/
def checkCurrent (s : Section) (cur : Value) : Except Str (List Str) :=
  match cur with
  | .leaf a => if a = .null || a = .str [] then .ok [] else .error (bad .current s [])
  | .node items =>
      match lists s with
      | none => .ok []
      | some l =>
          match valueOf l.key items with
          | .node rows => ids policy s l .current [l.key] rows []
          | .leaf a =>
              if a = .null || a = .str [] then .ok [] else .error (bad .current s [l.key])

/-! ### The merge -/

/-- An incoming leaf; an empty array becomes the empty string. -/
def mergeLeaf (iv : Value) : Value := if isArray iv then text [] else iv

/-- A key of the result, omitted when its value is NULL. -/
def keep (k : Str) (merged : Value) : Option (Str × Value) :=
  if merged = null then none else some (k, merged)

/-- The receiver's keys in its order, then the new ones in the sender's. -/
def mergeKeys (islocal : Str → Bool) (merge : Str → Value → Value → Value) (inn cur : Items) :
    Items :=
  (cur.filterMap fun item =>
    if islocal item.1 then some item
    else keep item.1 (merge item.1 (valueOf item.1 inn) item.2)) ++
  inn.filterMap fun item =>
    if (cur.map Prod.fst).contains item.1 || islocal item.1 then none
    else keep item.1 (merge item.1 item.2 null)

/-- The key an identity is looked up by. -/
def idText (l : IdentityList) (row : Value) : Str := (idOf l row).getD []

/-- The receiver's rows by identity. -/
def rowsById (l : IdentityList) (cur : Items) : Items :=
  cur.foldl (fun rows item =>
    if isArray item.2 && item.2 ≠ .node [] then store (idText l item.2) item.2 rows
    else rows) []

theorem keep_eq_some {k : Str} {v : Value} {y : Str × Value} (h : keep k v = some y) :
    y = (k, v) ∧ v ≠ null := by
  unfold keep at h
  split at h
  · cases h
  · rename_i hne
    exact ⟨(Option.some.inj h).symm, hne⟩

/-- Lookups are total: a key that is absent holds NULL. -/
theorem valueOf_eq_of_mem {k : Str} {v : Value} {items : Items}
    (hnodup : (items.map Prod.fst).Nodup) (h : (k, v) ∈ items) : valueOf k items = v := by
  rw [valueOf, (lookup_eq_some_iff hnodup k v).mpr h, Option.getD_some]

theorem valueOf_of_not_mem {k : Str} {items : Items} (h : k ∉ items.map Prod.fst) :
    valueOf k items = null := by
  rw [valueOf, (lookup_eq_none_iff k items).mpr h, Option.getD_none]

theorem mem_of_valueOf_ne_null {k : Str} {items : Items} (hnodup : (items.map Prod.fst).Nodup)
    (h : valueOf k items ≠ null) : (k, valueOf k items) ∈ items := by
  cases hl : lookup k items with
  | none => rw [valueOf, hl] at h; exact absurd rfl h
  | some v =>
      rw [valueOf, hl, Option.getD_some]
      exact (lookup_eq_some_iff hnodup k v).mp hl

section
variable {islocal : Str → Bool} {merge : Str → Value → Value → Value} {inn cur : Items}

theorem mergeKeys_fst (x y : Str × Value)
    (h : (if islocal x.1 then some x
      else keep x.1 (merge x.1 (valueOf x.1 inn) x.2)) = some y) : y.1 = x.1 := by
  split at h
  · rw [← Option.some.inj h]
  · rw [(keep_eq_some h).1]

theorem mergeKeys_snd (x y : Str × Value)
    (h : (if (cur.map Prod.fst).contains x.1 || islocal x.1 then none
      else keep x.1 (merge x.1 x.2 null)) = some y) : y.1 = x.1 := by
  split at h
  · cases h
  · rw [(keep_eq_some h).1]

theorem nodup_mergeKeys (hinn : (inn.map Prod.fst).Nodup) (hcur : (cur.map Prod.fst).Nodup) :
    ((mergeKeys islocal merge inn cur).map Prod.fst).Nodup := by
  rw [mergeKeys, List.map_append]
  refine List.nodup_append.mpr
    ⟨(keys_filterMap_sublist mergeKeys_fst cur).nodup hcur,
      (keys_filterMap_sublist mergeKeys_snd inn).nodup hinn, ?_⟩
  rintro k hk k' hk' rfl
  have hin := (keys_filterMap_sublist mergeKeys_fst cur).subset hk
  obtain ⟨y, hy, rfl⟩ := List.mem_map.mp hk'
  obtain ⟨x, _, hx⟩ := List.mem_filterMap.mp hy
  have hxy := mergeKeys_snd x y hx
  rw [if_pos (by rw [← hxy]; simpa using Or.inl (List.mem_map.mp hin))] at hx
  cases hx

theorem ne_null_of_mem_mergeKeys {item : Str × Value}
    (h : item ∈ mergeKeys islocal merge inn cur) (hl : islocal item.1 = false) :
    item.2 ≠ null := by
  rcases List.mem_append.mp h with h | h
  · obtain ⟨x, _, hkeep⟩ := List.mem_filterMap.mp h
    rw [mergeKeys_fst x item hkeep] at hl
    rw [hl, if_neg Bool.false_ne_true] at hkeep
    rw [(keep_eq_some hkeep).1]
    exact (keep_eq_some hkeep).2
  · obtain ⟨x, _, hkeep⟩ := List.mem_filterMap.mp h
    split at hkeep
    · cases hkeep
    · rw [(keep_eq_some hkeep).1]
      exact (keep_eq_some hkeep).2

/-- Key by key: a local key holds what the receiver has, another the merge of both sides. -/
theorem valueOf_mergeKeys (hinn : (inn.map Prod.fst).Nodup) (hcur : (cur.map Prod.fst).Nodup)
    (hnull : ∀ k, merge k null null = null) (k : Str) :
    valueOf k (mergeKeys islocal merge inn cur) =
      if islocal k then valueOf k cur else merge k (valueOf k inn) (valueOf k cur) := by
  rw [valueOf, mergeKeys, lookup_append, lookup_filterMap mergeKeys_fst hcur,
    lookup_filterMap mergeKeys_snd hinn]
  by_cases hl : islocal k = true
  · cases hc : lookup k cur <;> simp [hl, valueOf, hc]
  · cases hc : lookup k cur with
    | none =>
        have hout : k ∉ cur.map Prod.fst := (lookup_eq_none_iff k cur).mp hc
        cases hi : lookup k inn with
        | none => simp [hl, valueOf, hc, hi, hnull]
        | some v =>
            by_cases hm : merge k v null = null <;> simp [hl, valueOf, hc, hi, hout, keep, hm]
    | some w =>
        have hin : k ∈ cur.map Prod.fst :=
          List.mem_map_of_mem (f := Prod.fst) ((lookup_eq_some_iff hcur k w).mp hc)
        cases hi : lookup k inn with
        | none => by_cases hm : merge k null w = null <;> simp [hl, valueOf, hc, hi, keep, hm]
        | some v => by_cases hm : merge k v w = null <;> simp [hl, valueOf, hc, hi, hin, keep, hm]

end

/-- `$new + $defaults`. -/
def withDefaults (new : Value) (defaults : Items) : Value :=
  .node (new.items ++ defaults.filter fun item => !(new.items.map Prod.fst).contains item.1)

/-- The sender's rows in its order, each merged into the receiver's row of its identity. -/
def mergeRows (l : IdentityList) (islocal : Str → Bool) (merge : Str → Value → Value → Value)
    (inn cur : Items) : Items :=
  inn.filterMap fun item =>
    if !isArray item.2 || item.2 = .node [] || islocal item.1 then none
    else
      match lookup (idText l item.2) (rowsById l cur) with
      | none => some (item.1, withDefaults (merge item.1 item.2 null) l.defaults)
      | some old => some (item.1, merge item.1 item.2 old)

/-- `$node`, down to the depth of the schema. -/
def nodeAt : ℕ → Section → Path → Value → Value → Value
  | 0, _, _, iv, _ => mergeLeaf iv
  | depth + 1, s, p, iv, cv =>
      if !container s p then mergeLeaf iv
      else if feed p && (iv = text [] || iv = .node []) then text []
      else
        let islocal := fun k => isLocal policy s (p ++ [k])
        let merge := fun k => nodeAt depth s (p ++ [k])
        match listAt s p with
        | some l => if iv = null then null else .node (mergeRows l islocal merge iv.items cv.items)
        | none =>
            let out := mergeKeys islocal merge iv.items cv.items
            if out = [] && iv = null then null else .node out

def node (s : Section) (p : Path) (iv cv : Value) : Value :=
  nodeAt policy (schemaDepth - p.length) s p iv cv

/-- A synced section of the result, when it is on either side. -/
def mergeSection (s : Section) (inc cur : Value) : Option (Str × Value) :=
  if inc = null && cur = null then none
  else
    let merged := node policy s [] inc cur
    some (s.name, if merged = null then (if cur = text [] then text [] else .node []) else merged)

/-- Sorted, each path once. -/
def sortedPaths (skipped : List Str) : List Str := skipped.dedup.insertionSort (· ≤ ·)

/-- A section that the payload has not is not checked. -/
def checkIncoming (s : Section) (inc : Value) : Except Str (List Str) :=
  if inc = null then .ok [] else check policy s [] inc

/-- Both sides of a section are validated; what it finds are the skipped leaves. -/
def checkSection (s : Section) (inc cur : Value) : Except Str (List Str) := do
  let skipped ← checkIncoming policy s inc
  let _ ← checkCurrent policy s cur
  return skipped

/-- `pfb_sync_policy_merge()`: the receiver's new sections and the ignored paths. -/
def pfbSyncPolicyMerge (incoming current : Items) : Except Str (Items × List Str) := do
  let skipped ← gather (fun s =>
    checkSection policy s (valueOf s.name incoming) (valueOf s.name current))
    (pfblockerngSyncSections true)
  return ((pfblockerngSyncSections true).filterMap fun s =>
    mergeSection policy s (valueOf s.name incoming) (valueOf s.name current), sortedPaths skipped)

/-! ### What a check and a merge do at a position -/

theorem depth_of_container {s : Section} {p : Path} (h : container s p = true) (k : Str) :
    schemaDepth - p.length = (schemaDepth - (p ++ [k]).length) + 1 := by
  have := length_lt_of_container h
  simp only [List.length_append, List.length_cons, List.length_nil]
  omega

theorem checkAt_leaf {s : Section} {p : Path} (h : container s p = false) (depth : ℕ) (v : Value) :
    checkAt policy depth s p v = checkLeaf s p v := by
  cases depth with
  | zero => rfl
  | succ depth => simp [checkAt, h]

theorem check_leaf {s : Section} {p : Path} (h : container s p = false) (v : Value) :
    check policy s p v = checkLeaf s p v := checkAt_leaf policy h _ v

theorem check_scalar {s : Section} {p : Path} (h : container s p = true) (a : Scalar) :
    check policy s p (.leaf a) =
      if emptyElement s p (.leaf a) then .ok [] else .error (bad .incoming s p) := by
  rw [check, depth_of_container h [], checkAt]
  simp [h]

theorem check_node {s : Section} {p : Path} (h : container s p = true) (items : Items) :
    check policy s p (.node items) = (do
      let skipped ← gather (fun item =>
        if isLocal policy s (p ++ [item.1]) then .ok (collect s (p ++ [item.1]) item.2)
        else check policy s (p ++ [item.1]) item.2) items
      let _ ← checkHeader s p items
      let _ ← checkIds policy s p items
      return skipped) := by
  rw [check, depth_of_container h [], checkAt]
  simp only [h, Bool.not_true, Bool.false_eq_true, if_false, check, List.length_append,
    List.length_cons, List.length_nil]

theorem nodeAt_leaf {s : Section} {p : Path} (h : container s p = false) (depth : ℕ)
    (iv cv : Value) : nodeAt policy depth s p iv cv = mergeLeaf iv := by
  cases depth with
  | zero => rfl
  | succ depth => simp [nodeAt, h]

theorem node_leaf {s : Section} {p : Path} (h : container s p = false) (iv cv : Value) :
    node policy s p iv cv = mergeLeaf iv := nodeAt_leaf policy h _ iv cv

theorem nodeAt_child (s : Section) (p : Path) (k k' : Str) :
    nodeAt policy (schemaDepth - (p ++ [k']).length) s (p ++ [k]) = node policy s (p ++ [k]) := by
  funext iv cv
  rw [node, List.length_append, List.length_append, List.length_singleton, List.length_singleton]

/-- An incoming feed row without content. -/
def emptyFeed (p : Path) (iv : Value) : Bool := feed p && (iv = text [] || iv = .node [])

theorem node_emptyFeed {s : Section} {p : Path} {iv : Value} (h : container s p = true)
    (hfeed : emptyFeed p iv = true) (cv : Value) : node policy s p iv cv = text [] := by
  rw [node, depth_of_container h [], nodeAt]
  rw [emptyFeed] at hfeed
  simp only [h, Bool.not_true, Bool.false_eq_true, if_false, hfeed, if_true]

theorem node_keys {s : Section} {p : Path} {iv : Value} (h : container s p = true)
    (hfeed : emptyFeed p iv = false) (hlist : listAt s p = none) (cv : Value) :
    node policy s p iv cv =
      let out := mergeKeys (fun k => isLocal policy s (p ++ [k]))
        (fun k => node policy s (p ++ [k])) iv.items cv.items
      if out = [] && iv = null then null else .node out := by
  rw [node, depth_of_container h [], nodeAt]
  rw [emptyFeed] at hfeed
  simp only [h, Bool.not_true, Bool.false_eq_true, if_false, hfeed, hlist, nodeAt_child]

theorem node_rows {s : Section} {p : Path} {l : IdentityList} {iv : Value}
    (h : container s p = true) (hfeed : emptyFeed p iv = false) (hlist : listAt s p = some l)
    (cv : Value) :
    node policy s p iv cv =
      if iv = null then null
      else .node (mergeRows l (fun k => isLocal policy s (p ++ [k]))
        (fun k => node policy s (p ++ [k])) iv.items cv.items) := by
  rw [node, depth_of_container h [], nodeAt]
  rw [emptyFeed] at hfeed
  simp only [h, Bool.not_true, Bool.false_eq_true, if_false, hfeed, hlist, nodeAt_child]

theorem mergeLeaf_ne_null {iv : Value} (h : iv ≠ null) : mergeLeaf iv ≠ null := by
  cases iv with
  | leaf a => exact h
  | node items => exact fun e => Scalar.noConfusion (KeyTree.leaf.inj e)

theorem node_ne_null {s : Section} {iv : Value} (h : iv ≠ null) (p : Path) (cv : Value) :
    node policy s p iv cv ≠ null := by
  cases hc : container s p with
  | false => rw [node_leaf policy hc]; exact mergeLeaf_ne_null h
  | true =>
      cases hf : emptyFeed p iv with
      | true =>
          rw [node_emptyFeed policy hc hf]
          exact fun e => Scalar.noConfusion (KeyTree.leaf.inj e)
      | false =>
          cases hl : listAt s p with
          | none =>
              rw [node_keys policy hc hf hl]
              simp only [h, decide_false, Bool.and_false, Bool.false_eq_true, if_false]
              exact nofun
          | some l =>
              rw [node_rows policy hc hf hl, if_neg h]
              exact nofun

theorem node_null_null (s : Section) (p : Path) : node policy s p null null = null := by
  cases hc : container s p with
  | false => exact node_leaf policy hc null null
  | true =>
      have hf : emptyFeed p null = false := by simp [emptyFeed, null, text]
      cases hl : listAt s p with
      | none =>
          rw [node_keys policy hc hf hl]
          rfl
      | some l =>
          rw [node_rows policy hc hf hl]
          rfl

/-! ### Identity rows -/

/-- The rows that are arrays with content. -/
def fullRows (rows : Items) : Items :=
  rows.filter fun item => isArray item.2 && item.2 ≠ .node []

/-- The rows that the identity rule is asked of. -/
def counted (s : Section) (l : IdentityList) (side : Side) (p : Path) (rows : Items) : Items :=
  rows.filter fun item =>
    !(l.id = kAliasname && (item.2 = text [] || item.2 = .node [])) &&
      !(side = .incoming && isLocal policy s (p ++ [item.1]))

theorem idOf_eq_some_iff {l : IdentityList} {row : Value} {v : Str} :
    idOf l row = some v ↔ isArray row = true ∧ valueOf l.id row.items = text v := by
  cases row with
  | leaf a => simp [idOf, isArray]
  | node items =>
      simp only [idOf, isArray, true_and, KeyTree.items_node]
      cases valueOf l.id items with
      | node _ => simp [text]
      | leaf a => cases a <;> simp [text]

theorem full_of_idOf {l : IdentityList} {row : Value} {v : Str} (h : idOf l row = some v) :
    (isArray row && row ≠ .node []) = true := by
  rw [idOf_eq_some_iff] at h
  cases row with
  | leaf a => exact absurd h.1 (by simp [isArray])
  | node items =>
      cases items with
      | nil => exact absurd h.2 (by simp [valueOf, lookup, null, text])
      | cons item items => simp [isArray]

theorem ids_eq_ok_iff (s : Section) (l : IdentityList) (side : Side) (p : Path) (rows : Items)
    (seen : List Str) (r : List Str) :
    ids policy s l side p rows seen = .ok r ↔
      r = [] ∧
      (∀ item ∈ counted policy s l side p rows,
        ∃ v, idOf l item.2 = some v ∧ idValid s l v = true ∧ v ∉ seen) ∧
      ((counted policy s l side p rows).map fun item => idText l item.2).Nodup := by
  induction rows generalizing seen with
  | nil =>
      simp only [ids, counted, List.filter_nil, List.not_mem_nil, false_implies, implies_true,
        List.map_nil, List.nodup_nil, and_true, Except.ok.injEq]
      exact eq_comm
  | cons item rows ih =>
      obtain ⟨k, row⟩ := item
      by_cases hempty : (l.id = kAliasname && (row = text [] || row = .node [])) = true
      · rw [ids, if_pos hempty, ih]
        simp only [counted, List.filter_cons, hempty, Bool.not_true, Bool.false_and,
          Bool.false_eq_true, if_false]
      · by_cases hlocal : (side = .incoming && isLocal policy s (p ++ [k])) = true
        · rw [ids, if_neg hempty, if_pos hlocal, ih]
          simp only [counted, List.filter_cons, hlocal, Bool.not_true, Bool.and_false,
            Bool.false_eq_true, if_false]
        · have hcounted : counted policy s l side p ((k, row) :: rows) =
              (k, row) :: counted policy s l side p rows := by
            simp only [Bool.not_eq_true] at hempty hlocal
            simp only [counted, List.filter_cons, hempty, hlocal, Bool.not_false, Bool.and_self,
              if_true]
          rw [ids, if_neg hempty, if_neg hlocal, hcounted]
          cases hid : idOf l row with
          | none => simp [hid]
          | some v =>
              have htext : idText l row = v := by rw [idText, hid, Option.getD_some]
              by_cases hv : (seen.contains v || !idValid s l v) = true
              · simp only [hv, if_true, reduceCtorEq, false_iff, not_and]
                intro _ hall
                obtain ⟨v', hv', hvalid, hseen⟩ := hall (k, row) List.mem_cons_self
                rw [hid] at hv'
                cases hv'
                simp [hvalid, hseen] at hv
              · simp only [hv, Bool.false_eq_true, if_false]
                simp only [Bool.or_eq_true, not_or, Bool.not_eq_true, List.contains_eq_mem,
                  decide_eq_false_iff_not, Bool.not_eq_false'] at hv
                rw [ih, List.forall_mem_cons, List.map_cons, List.nodup_cons, htext, hid]
                refine and_congr_right fun _ => ?_
                constructor
                · rintro ⟨hall, hnodup⟩
                  refine ⟨⟨⟨v, rfl, hv.2, hv.1⟩, fun item hitem => ?_⟩, fun hmem => ?_, hnodup⟩
                  · obtain ⟨w, hw, hvalid, hseen⟩ := hall item hitem
                    exact ⟨w, hw, hvalid, fun h => hseen (List.mem_cons_of_mem _ h)⟩
                  · obtain ⟨item, hitem, htext'⟩ := List.mem_map.mp hmem
                    obtain ⟨w, hw, _, hseen⟩ := hall item hitem
                    rw [idText, hw, Option.getD_some] at htext'
                    exact hseen (htext' ▸ List.mem_cons_self)
                · rintro ⟨⟨_, hall⟩, hout, hnodup⟩
                  refine ⟨fun item hitem => ?_, hnodup⟩
                  obtain ⟨w, hw, hvalid, hseen⟩ := hall item hitem
                  refine ⟨w, hw, hvalid,
                    fun h => (List.mem_cons.mp h).elim (fun e => hout ?_) hseen⟩
                  exact List.mem_map.mpr ⟨item, hitem, by rw [idText, hw, Option.getD_some, e]⟩

/-- No two rows with content carry one identity. -/
def UniqueIds (l : IdentityList) (rows : Items) : Prop :=
  ((fullRows rows).map fun item => idText l item.2).Nodup

theorem rowsById_eq (l : IdentityList) (rows : Items) :
    rowsById l rows =
      ((Dict.empty : Dict Str Value).update
        ((fullRows rows).map fun item => (idText l item.2, item.2))).items := by
  have h : ∀ (rows : Items) (d : Dict Str Value),
      rows.foldl (fun rows item =>
        if isArray item.2 && item.2 ≠ .node [] then store (idText l item.2) item.2 rows
        else rows) d.items =
      (d.update ((fullRows rows).map fun item => (idText l item.2, item.2))).items := by
    intro rows
    induction rows with
    | nil => exact fun d => rfl
    | cons item rows ih =>
        intro d
        by_cases hfull : (isArray item.2 && item.2 ≠ .node []) = true
        · rw [List.foldl_cons, if_pos hfull, fullRows, List.filter_cons, if_pos hfull]
          exact ih (d.set (idText l item.2) item.2)
        · rw [List.foldl_cons, if_neg hfull, fullRows, List.filter_cons, if_neg hfull]
          exact ih d
  exact h rows Dict.empty

theorem lookup_rowsById_of_mem {l : IdentityList} {rows : Items} (h : UniqueIds l rows)
    {item : Str × Value} (hitem : item ∈ fullRows rows) :
    lookup (idText l item.2) (rowsById l rows) = some item.2 := by
  rw [rowsById_eq]
  refine Dict.get_update_of_mem (Dict.empty : Dict Str Value) ?_
    (List.mem_map.mpr ⟨item, hitem, rfl⟩)
  rwa [List.map_map]

theorem exists_of_lookup_rowsById {l : IdentityList} {rows : Items} {i : Str} {row : Value}
    (h : lookup i (rowsById l rows) = some row) :
    ∃ item ∈ fullRows rows, item.2 = row ∧ idText l item.2 = i := by
  rw [rowsById_eq] at h
  rcases Dict.mem_or_get_of_get_update (d := Dict.empty) h with hmem | hget
  · obtain ⟨item, hitem, heq⟩ := List.mem_map.mp hmem
    exact ⟨item, hitem, (Prod.mk.inj heq).2, (Prod.mk.inj heq).1⟩
  · cases hget

/-- The incoming rows that a merge carries over. -/
def taken (islocal : Str → Bool) (inn : Items) : Items :=
  inn.filter fun item => isArray item.2 && item.2 ≠ .node [] && !islocal item.1

/-- One row of the result. -/
def mergeRow (l : IdentityList) (merge : Str → Value → Value → Value) (cur : Items)
    (item : Str × Value) : Str × Value :=
  match lookup (idText l item.2) (rowsById l cur) with
  | none => (item.1, withDefaults (merge item.1 item.2 null) l.defaults)
  | some old => (item.1, merge item.1 item.2 old)

theorem mergeRow_fst (l : IdentityList) (merge : Str → Value → Value → Value) (cur : Items)
    (item : Str × Value) : (mergeRow l merge cur item).1 = item.1 := by
  unfold mergeRow
  split <;> rfl

theorem mergeRows_eq_map (l : IdentityList) (islocal : Str → Bool)
    (merge : Str → Value → Value → Value) (inn cur : Items) :
    mergeRows l islocal merge inn cur = (taken islocal inn).map (mergeRow l merge cur) := by
  induction inn with
  | nil => rfl
  | cons item inn ih =>
      unfold mergeRows taken at ih ⊢
      by_cases h : (isArray item.2 && item.2 ≠ .node [] && !islocal item.1) = true
      · have hskip : (!isArray item.2 || item.2 = .node [] || islocal item.1) = false := by
          simp only [Bool.and_eq_true, decide_eq_true_eq, Bool.not_eq_true'] at h
          simp [h.1.1, h.1.2, h.2]
        rw [List.filter_cons, if_pos h, List.map_cons, ← ih, List.filterMap_cons]
        simp only [hskip, Bool.false_eq_true, if_false, mergeRow]
        split
        · rename_i hnone
          split at hnone <;> cases hnone
        · rename_i hsome
          split at hsome <;> rename_i hlookup <;> cases hsome <;> simp only
      · have hskip : (!isArray item.2 || item.2 = .node [] || islocal item.1) = true := by
          revert h
          cases isArray item.2 <;> cases islocal item.1 <;> simp
        rw [List.filter_cons, if_neg h, ← ih, List.filterMap_cons]
        simp only [hskip, if_true]

/-! ### Accepted payloads -/

theorem exists_of_gather {α : Type*} {f : α → Except Str (List Str)} {xs : List α} {r : List Str}
    (h : gather f xs = .ok r) : ∀ x ∈ xs, ∃ found, f x = .ok found := by
  induction xs generalizing r with
  | nil => exact fun x hx => absurd hx List.not_mem_nil
  | cons x xs ih =>
      rw [gather] at h
      split at h
      · cases h
      · cases h
      · rename_i found rest hx hxs
        exact List.forall_mem_cons.mpr ⟨⟨found, hx⟩, ih hxs⟩

theorem gather_eq_of_ok {α : Type*} {f g : α → Except Str (List Str)} {xs : List α} {r : List Str}
    (h : gather f xs = .ok r) (hfg : ∀ x ∈ xs, ∀ found, f x = .ok found → g x = .ok found) :
    gather g xs = .ok r := by
  induction xs generalizing r with
  | nil => exact h
  | cons x xs ih =>
      rw [gather] at h
      split at h
      · cases h
      · cases h
      · rename_i found rest hx hxs
        rw [gather, hfg x List.mem_cons_self found hx,
          ih hxs fun y hy => hfg y (List.mem_cons_of_mem _ hy)]
        exact h

theorem gather_eq_nil {α : Type*} {f : α → Except Str (List Str)} {xs : List α} {r : List Str}
    (h : gather f xs = .ok r) (hf : ∀ x ∈ xs, ∀ found, f x = .ok found → found = []) : r = [] := by
  induction xs generalizing r with
  | nil => exact (Except.ok.inj h).symm
  | cons x xs ih =>
      rw [gather] at h
      split at h
      · cases h
      · cases h
      · rename_i found rest hx hxs
        rw [← Except.ok.inj h, hf x List.mem_cons_self found hx,
          ih hxs fun y hy => hf y (List.mem_cons_of_mem _ hy)]
        rfl

def Accepted (s : Section) (p : Path) (v : Value) : Prop :=
  ∃ skipped, check policy s p v = .ok skipped

variable {policy} in
theorem accepted_leaf {s : Section} {p : Path} {v : Value} (hc : container s p = false)
    (h : Accepted policy s p v) : isString v = true ∨ v = .node [] := by
  obtain ⟨skipped, h⟩ := h
  rw [check_leaf policy hc, checkLeaf] at h
  split at h
  · rename_i hv
    simpa using hv
  · cases h

variable {policy} in
theorem accepted_scalar {s : Section} {p : Path} {a : Scalar} (hc : container s p = true)
    (h : Accepted policy s p (.leaf a)) : emptyElement s p (.leaf a) = true := by
  obtain ⟨skipped, h⟩ := h
  rw [check_scalar policy hc] at h
  split at h
  · assumption
  · cases h

variable {policy} in
/-- What an accepted container has passed. -/
theorem accepted_node {s : Section} {p : Path} {items : Items} (hc : container s p = true)
    (h : Accepted policy s p (.node items)) :
    (∀ item ∈ items, isLocal policy s (p ++ [item.1]) = false →
      Accepted policy s (p ++ [item.1]) item.2) ∧
    (∃ r, checkHeader s p items = .ok r) ∧ ∃ r, checkIds policy s p items = .ok r := by
  obtain ⟨skipped, h⟩ := h
  rw [check_node policy hc] at h
  cases hg : gather (fun item : Str × Value =>
      if isLocal policy s (p ++ [item.1]) then .ok (collect s (p ++ [item.1]) item.2)
      else check policy s (p ++ [item.1]) item.2) items with
  | error e => rw [hg] at h; cases h
  | ok found =>
      rw [hg] at h
      cases hh : checkHeader s p items with
      | error e => rw [hh] at h; cases h
      | ok r =>
          rw [hh] at h
          cases hi : checkIds policy s p items with
          | error e => rw [hi] at h; cases h
          | ok r' =>
              refine ⟨fun item hitem hl => ?_, ⟨r, rfl⟩, ⟨r', rfl⟩⟩
              obtain ⟨found', hfound⟩ := exists_of_gather hg item hitem
              rw [if_neg (by simp [hl])] at hfound
              exact ⟨found', hfound⟩

variable {policy} in
/-- The rows a merge takes from an accepted list have valid identities, each its own. -/
theorem accepted_rows {s : Section} {l : IdentityList} {items : Items} (hl : lists s = some l)
    (h : Accepted policy s [l.key] (.node items)) :
    (∀ item ∈ taken (fun k => isLocal policy s ([l.key] ++ [k])) items,
      ∃ v, idOf l item.2 = some v ∧ idValid s l v = true) ∧
    ((taken (fun k => isLocal policy s ([l.key] ++ [k])) items).map
      fun item => idText l item.2).Nodup := by
  obtain ⟨r, hr⟩ := (accepted_node (container_list hl) h).2.2
  rw [checkIds, listAt_eq_some_iff.mpr ⟨hl, rfl⟩] at hr
  obtain ⟨_, hvalid, hnodup⟩ := (ids_eq_ok_iff policy s l .incoming [l.key] items [] r).mp hr
  have hsub : (taken (fun k => isLocal policy s ([l.key] ++ [k])) items).Sublist
      (counted policy s l .incoming [l.key] items) := by
    refine List.monotone_filter_right items fun item hitem => ?_
    simp only [Bool.and_eq_true, Bool.not_eq_true', decide_eq_true_eq] at hitem
    have htext : item.2 ≠ text [] := fun e => by simp [e, isArray, text] at hitem
    rw [hitem.2]
    simp [hitem.1.2, htext]
  refine ⟨fun item hitem => ?_, (hsub.map _).nodup hnodup⟩
  obtain ⟨v, hv, hok, _⟩ := hvalid item (hsub.subset hitem)
  exact ⟨v, hv, hok⟩

variable {policy} in
/-- The receiver's rows carry identities, each its own. -/
theorem uniqueIds_of_checkCurrent {s : Section} {l : IdentityList} {items : Items} {r : List Str}
    (hl : lists s = some l) (h : checkCurrent policy s (.node items) = .ok r) :
    UniqueIds l (valueOf l.key items).items := by
  simp only [checkCurrent, hl] at h
  cases hv : valueOf l.key items with
  | leaf a => exact List.nodup_nil
  | node rows =>
      rw [hv] at h
      obtain ⟨_, _, hnodup⟩ := (ids_eq_ok_iff policy s l .current [l.key] rows [] r).mp h
      refine (List.Sublist.map _ ?_).nodup hnodup
      refine List.monotone_filter_right rows fun item hitem => ?_
      simp only [Bool.and_eq_true, decide_eq_true_eq] at hitem
      have htext : item.2 ≠ text [] := fun e => by simp [e, isArray, text] at hitem
      simp [hitem.2, htext]

/-! ### Accepted sections -/

variable {policy} in
theorem checkSection_eq_ok {s : Section} {inc cur : Value} {skipped : List Str}
    (h : checkSection policy s inc cur = .ok skipped) :
    (inc = null ∨ Accepted policy s [] inc) ∧ (∃ r, checkCurrent policy s cur = .ok r) ∧
      ∀ cur' r', checkCurrent policy s cur' = .ok r' →
        checkSection policy s inc cur' = .ok skipped := by
  unfold checkSection at h ⊢
  cases hi : checkIncoming policy s inc with
  | error e => rw [hi] at h; cases h
  | ok found =>
      rw [hi] at h
      cases hc : checkCurrent policy s cur with
      | error e => rw [hc] at h; cases h
      | ok r =>
          rw [hc] at h
          refine ⟨?_, ⟨r, rfl⟩, fun cur' r' h' => by rw [h']; exact h⟩
          by_cases hnull : inc = null
          · exact Or.inl hnull
          · rw [checkIncoming, if_neg hnull] at hi
            exact Or.inr ⟨found, hi⟩

variable {policy} in
/-- What a section's validation finds is what its incoming side gives. -/
theorem checkIncoming_of_checkSection {s : Section} {inc cur : Value} {skipped : List Str}
    (h : checkSection policy s inc cur = .ok skipped) :
    checkIncoming policy s inc = .ok skipped := by
  unfold checkSection at h
  cases hi : checkIncoming policy s inc with
  | error e => rw [hi] at h; cases h
  | ok found =>
      rw [hi] at h
      cases hc : checkCurrent policy s cur with
      | error e => rw [hc] at h; cases h
      | ok r => rw [hc] at h; exact h

variable {policy} in
/-- A merge succeeds section by section. -/
theorem merge_eq_ok {incoming current : Items} {r : Items × List Str}
    (h : pfbSyncPolicyMerge policy incoming current = .ok r) :
    ∃ skipped, gather (fun s =>
        checkSection policy s (valueOf s.name incoming) (valueOf s.name current))
        (pfblockerngSyncSections true) = .ok skipped ∧
      r = ((pfblockerngSyncSections true).filterMap fun s =>
        mergeSection policy s (valueOf s.name incoming) (valueOf s.name current),
        sortedPaths skipped) := by
  unfold pfbSyncPolicyMerge at h
  cases hg : gather (fun s =>
      checkSection policy s (valueOf s.name incoming) (valueOf s.name current))
      (pfblockerngSyncSections true) with
  | error e => rw [hg] at h; cases h
  | ok skipped =>
      rw [hg] at h
      exact ⟨skipped, rfl, (Except.ok.inj h).symm⟩

theorem mergeSection_fst {s : Section} {inc cur : Value} {y : Str × Value}
    (h : mergeSection policy s inc cur = some y) : y.1 = s.name := by
  unfold mergeSection at h
  split at h
  · cases h
  · rw [← Option.some.inj h]

/-- What a map over the sections holds under the name of one of them. -/
theorem valueOf_sections {g : Section → Option (Str × Value)} {ss : List Section}
    (hg : ∀ s y, g s = some y → y.1 = s.name) {s : Section} (hs : s ∈ ss) :
    valueOf s.name (ss.filterMap g) = ((g s).map Prod.snd).getD null := by
  induction ss with
  | nil => exact absurd hs List.not_mem_nil
  | cons t ss ih =>
      by_cases hts : t = s
      · subst hts
        cases h : g t with
        | some y => simp [valueOf, h, lookup, hg t y h]
        | none =>
            by_cases hrest : t ∈ ss
            · rw [List.filterMap_cons, h]
              simpa [h] using ih hrest
            · refine valueOf_of_not_mem fun hin => ?_
              obtain ⟨y, hy, hname⟩ := List.mem_map.mp hin
              obtain ⟨u, hu, huy⟩ := List.mem_filterMap.mp hy
              have hut : u = t := name_injective ((hg u y huy).symm.trans hname)
              rw [hut, h] at huy
              cases huy
      · have hrest := ih ((List.mem_cons.mp hs).resolve_left (Ne.symm hts))
        cases h : g t with
        | none => rw [List.filterMap_cons, h, hrest]
        | some y =>
            have hne : ¬y.1 = s.name := fun e => hts (name_injective ((hg t y h).symm.trans e))
            rw [List.filterMap_cons, h, ← hrest]
            simp [valueOf, lookup, hne]

variable {policy} in
/-- A section of the result is the merge of the section's two sides. -/
theorem valueOf_merged {incoming current : Items} {r : Items × List Str}
    (h : pfbSyncPolicyMerge policy incoming current = .ok r) (s : Section) :
    valueOf s.name r.1 =
      ((mergeSection policy s (valueOf s.name incoming) (valueOf s.name current)).map
        Prod.snd).getD null := by
  obtain ⟨skipped, _, rfl⟩ := merge_eq_ok h
  exact valueOf_sections (fun s y hy => mergeSection_fst policy hy) (mem_syncSections s)

end

end PfBlockerNG.SyncMerge
