import PfBlockerNG.SyncFixedPoint

/-!
What a payload cannot touch: the receiver's own keys stay, a row the receiver does not know gets
the fixed local defaults, and the keys that a merge skips have no effect on its result.
-/

namespace PfBlockerNG.SyncLocals

open Strings OrderedDict KeyedTree SyncSchema SyncMerge SyncFixedPoint
open ConfigRegistry (SectionAlias isDigits)

variable (policy : SectionAlias → Str → Bool)

/-! ### Local keys below a position -/

/-- A path below `p` that reaches a receiver-local key through the containers of the schema and
through no identity list. -/
inductive LocalPath (s : Section) : Path → Path → Prop
  | key {p : Path} {k : Str} (hc : container s p = true) (hlist : listAt s p = none)
      (hl : isLocal policy s (p ++ [k]) = true) : LocalPath s p [k]
  | step {p : Path} {k : Str} {q : Path} (hc : container s p = true) (hlist : listAt s p = none)
      (hl : isLocal policy s (p ++ [k]) = false) (hq : LocalPath s (p ++ [k]) q) :
      LocalPath s p (k :: q)

/-- A feed row on the way down the path arrives without content. -/
def emptied (p : Path) : Path → Value → Bool
  | [], _ => false
  | k :: q, iv => emptyFeed p iv || emptied (p ++ [k]) q (valueOf k iv.items)

theorem distinct_null : (null : Value).Distinct := .leaf _

theorem valueAt_of_items_nil {q : Path} {v : Value} (hq : q ≠ []) (h : v.items = []) :
    valueAt q v = null := by
  cases q with
  | nil => exact absurd rfl hq
  | cons k q =>
      rw [valueAt, h]
      clear hq h
      change valueAt q null = null
      induction q with
      | nil => rfl
      | cons k q ih => exact ih

theorem LocalPath.ne_nil {s : Section} {p q : Path} (h : LocalPath policy s p q) : q ≠ [] := by
  cases h <;> exact List.cons_ne_nil _ _

theorem items_node_keys {s : Section} {p : Path} {iv : Value} (hc : container s p = true)
    (hfeed : emptyFeed p iv = false) (hlist : listAt s p = none) (cv : Value) :
    (node policy s p iv cv).items =
      mergeKeys (fun k => isLocal policy s (p ++ [k])) (fun k => node policy s (p ++ [k]))
        iv.items cv.items := by
  rw [node_keys policy hc hfeed hlist]
  dsimp only
  split
  · rename_i h
    simp only [Bool.and_eq_true, decide_eq_true_eq] at h
    exact h.1.symm
  · rfl

variable {policy} in
/-- A local key of a merged value is the receiver's. -/
theorem valueAt_node {s : Section} {p q : Path} (h : LocalPath policy s p q) : ∀ {iv cv : Value},
    iv.Distinct → cv.Distinct →
    valueAt q (node policy s p iv cv) = if emptied p q iv then null else valueAt q cv := by
  induction h with
  | @key p k hc hlist hl =>
      intro iv cv hiv hcv
      cases hf : emptyFeed p iv with
      | true =>
          rw [node_emptyFeed policy hc hf, emptied, hf, Bool.true_or, if_pos rfl]
          rfl
      | false =>
          rw [emptied, hf, emptied, Bool.or_false, if_neg Bool.false_ne_true]
          simp only [valueAt]
          rw [items_node_keys policy hc hf hlist, valueOf_mergeKeys hiv.nodup hcv.nodup
            fun k => node_null_null policy s _, if_pos hl]
  | @step p k q hc hlist hl hq ih =>
      intro iv cv hiv hcv
      cases hf : emptyFeed p iv with
      | true =>
          rw [node_emptyFeed policy hc hf, emptied, hf, Bool.true_or, if_pos rfl]
          exact valueAt_of_items_nil (List.cons_ne_nil k q) rfl
      | false =>
          rw [emptied, hf, Bool.false_or]
          simp only [valueAt]
          rw [items_node_keys policy hc hf hlist, valueOf_mergeKeys hiv.nodup hcv.nodup
            fun k => node_null_null policy s _, hl, if_neg Bool.false_ne_true]
          exact ih (items_distinct hiv k) (items_distinct hcv k)

/-! ### Identity rows -/

theorem valueOf_withDefaults (new : Value) {defaults : Items}
    (hnodup : (defaults.map Prod.fst).Nodup) (k : Str) :
    valueOf k (withDefaults new defaults).items =
      if k ∈ new.items.map Prod.fst then valueOf k new.items else valueOf k defaults := by
  rw [withDefaults, KeyTree.items_node, valueOf, lookup_append]
  by_cases hk : k ∈ new.items.map Prod.fst
  · obtain ⟨v, hv⟩ := Option.ne_none_iff_exists'.mp
      fun e => (lookup_eq_none_iff k new.items).mp e hk
    rw [if_pos hk, valueOf, hv]
    rfl
  · have hfilter : lookup k (defaults.filter fun item =>
        !(new.items.map Prod.fst).contains item.1) = lookup k defaults := by
      cases hd : lookup k defaults with
      | none =>
          refine (lookup_eq_none_iff k _).mpr fun hin => ?_
          obtain ⟨item, hitem, rfl⟩ := List.mem_map.mp hin
          exact (lookup_eq_none_iff item.1 defaults).mp hd
            (List.mem_map_of_mem (List.mem_filter.mp hitem).1)
      | some v =>
          refine (lookup_eq_some_iff ((List.filter_sublist.map _).nodup hnodup) k v).mpr ?_
          refine List.mem_filter.mpr ⟨(lookup_eq_some_iff hnodup k v).mp hd, ?_⟩
          simpa using hk
    rw [if_neg hk, (lookup_eq_none_iff k new.items).mpr hk, hfilter]
    rfl

theorem not_local_of_mem_mergeKeys_nil {islocal : Str → Bool}
    {merge : Str → Value → Value → Value} {inn : Items} {item : Str × Value}
    (h : item ∈ mergeKeys islocal merge inn []) : islocal item.1 = false := by
  rw [mergeKeys, List.filterMap_nil, List.nil_append] at h
  obtain ⟨x, _, hx⟩ := List.mem_filterMap.mp h
  rw [mergeKeys_snd x item hx]
  split at hx
  · cases hx
  · rename_i hl
    simpa using hl

variable {policy} in
/-- The local keys of a row the receiver does not know are the defaults. -/
theorem valueAt_newRow {s : Section} {l : IdentityList} (hl : lists s = some l) {k : Str}
    {row : Value} (hrow : row.Distinct) {q : Path} (hq : LocalPath policy s ([l.key] ++ [k]) q) :
    valueAt q (withDefaults (node policy s ([l.key] ++ [k]) row null) l.defaults) =
      valueAt q (.node l.defaults) := by
  have hnull : valueAt q (node policy s ([l.key] ++ [k]) row null) = null := by
    rw [valueAt_node hq hrow distinct_null,
      valueAt_of_items_nil (LocalPath.ne_nil policy hq) (rfl : null.items = [])]
    split <;> rfl
  have hfeed : emptyFeed ([l.key] ++ [k]) row = false := by
    rw [emptyFeed, feed_of_length_ne_four (by simp), Bool.false_and]
  have hitems : (node policy s ([l.key] ++ [k]) row null).items = mergeKeys _ _ row.items [] :=
    items_node_keys policy (container_row hl k) hfeed (listAt_of_length_ne_one s (by simp)) null
  cases hq with
  | @key _ c hc hlist hlocal =>
      have hout : c ∉ (node policy s ([l.key] ++ [k]) row null).items.map Prod.fst := by
        rw [hitems]
        intro hin
        obtain ⟨item, hitem, rfl⟩ := List.mem_map.mp hin
        have hkept := not_local_of_mem_mergeKeys_nil hitem
        exact Bool.false_ne_true (hkept.symm.trans hlocal)
      simp only [valueAt]
      rw [valueOf_withDefaults _ (nodup_defaults hl), if_neg hout]
      rfl
  | @step _ c q hc hlist hlocal hq =>
      have hdefault : valueOf c l.defaults = null := by
        refine valueOf_of_not_mem fun hin => ?_
        obtain ⟨f, hf, rfl⟩ := List.mem_map.mp hin
        have hlocal' := isLocal_default policy hl k hf
        rw [List.append_assoc] at hlocal
        exact Bool.false_ne_true (hlocal.symm.trans hlocal')
      simp only [valueAt] at hnull ⊢
      rw [valueOf_withDefaults _ (nodup_defaults hl)]
      split
      · rw [hnull, KeyTree.items_node, hdefault,
          valueAt_of_items_nil (LocalPath.ne_nil policy hq) (rfl : null.items = [])]
      · rfl

/-! ### Sections -/

/-- The rows of a section's identity list. -/
def rowsOf (l : IdentityList) (v : Value) : Items := (valueOf l.key v.items).items

/-- The rows of a payload's identity list that a merge takes. -/
def sentRows (s : Section) (l : IdentityList) (v : Value) : Items :=
  taken (fun k => isLocal policy s ([l.key] ++ [k])) (rowsOf l v)

/-- A section of the result. -/
abbrev merged (s : Section) (inc cur : Value) : Value :=
  ((mergeSection policy s inc cur).map Prod.snd).getD null

theorem items_merged (s : Section) (inc cur : Value) :
    (merged policy s inc cur).items =
      mergeKeys (fun k => isLocal policy s [k]) (fun k => node policy s [k]) inc.items
        cur.items := by
  have hnode : (node policy s [] inc cur).items = _ :=
    items_node_keys policy (s := s) (p := []) rfl rfl (listAt_of_length_ne_one s (by decide)) cur
  rw [merged, mergeSection]
  split
  · rename_i hnull
    simp only [Bool.and_eq_true, decide_eq_true_eq] at hnull
    rw [hnull.1, hnull.2]
    rfl
  · simp only [Option.map_some, Option.getD_some]
    split
    · rename_i hmerged
      rw [hmerged] at hnode
      split <;> exact hnode
    · exact hnode

theorem valueAt_of_items {q : Path} (hq : q ≠ []) {v w : Value} (h : v.items = w.items) :
    valueAt q v = valueAt q w := by
  cases q with
  | nil => exact absurd rfl hq
  | cons k q => rw [valueAt, valueAt, h]

theorem rowsOf_merged {s : Section} {l : IdentityList} (hl : lists s = some l) {inc cur : Value}
    (hinc : inc.Distinct) (hcur : cur.Distinct) :
    rowsOf l (merged policy s inc cur) =
      (sentRows policy s l inc).map
        (mergeRow l (fun k => node policy s ([l.key] ++ [k])) (rowsOf l cur)) := by
  have hfeed : emptyFeed [l.key] (valueOf l.key inc.items) = false := by
    rw [emptyFeed, feed_of_length_ne_four (by simp), Bool.false_and]
  rw [rowsOf, items_merged, valueOf_mergeKeys hinc.nodup hcur.nodup
    fun k => node_null_null policy s _, isLocal_list policy hl, if_neg Bool.false_ne_true,
    node_rows policy (container_list hl) hfeed (listAt_eq_some_iff.mpr ⟨hl, rfl⟩)]
  split
  · rename_i hnull
    have hnil : rowsOf l inc = [] := by rw [rowsOf, hnull]; rfl
    rw [sentRows, hnil]
    rfl
  · rw [KeyTree.items_node, mergeRows_eq_map]
    rfl

/-! ### What a merge leaves to the receiver -/

/-- What the payload has no say in: the sections that are returned, the receiver's local keys, and
those of its identity rows. -/
structure KeepsLocals (incoming current out : Items) : Prop where
  /-- The synced sections that stand on a side are returned, no other. -/
  sections : out.map Prod.fst =
    ((pfblockerngSyncSections true).filter fun s =>
      valueOf s.name incoming ≠ null || valueOf s.name current ≠ null).map Section.name
  /-- A local key holds what the receiver has there, unless its feed row arrives empty. -/
  locals : ∀ s q, LocalPath policy s [] q →
    valueAt q (valueOf s.name out) =
      if emptied [] q (valueOf s.name incoming) then null else valueAt q (valueOf s.name current)
  /-- The identity rows are those of the payload. -/
  carried : ∀ s l, lists s = some l →
    (rowsOf l (valueOf s.name out)).map (fun row => (row.1, idOf l row.2)) =
      (sentRows policy s l (valueOf s.name incoming)).map fun row => (row.1, idOf l row.2)
  /-- A row of the receiver keeps its local keys in the row of its identity. -/
  matched : ∀ s l, lists s = some l → ∀ old ∈ fullRows (rowsOf l (valueOf s.name current)),
    ∀ sent ∈ sentRows policy s l (valueOf s.name incoming), idOf l sent.2 = idOf l old.2 →
    ∃ row, (sent.1, row) ∈ rowsOf l (valueOf s.name out) ∧ idOf l row = idOf l old.2 ∧
      ∀ q, LocalPath policy s [l.key, sent.1] q →
        valueAt q row = if emptied [l.key, sent.1] q sent.2 then null else valueAt q old.2
  /-- A row of an identity the receiver has not holds the fixed defaults. -/
  fresh : ∀ s l, lists s = some l → ∀ row ∈ rowsOf l (valueOf s.name out),
    (∀ old ∈ fullRows (rowsOf l (valueOf s.name current)), idOf l old.2 ≠ idOf l row.2) →
    ∀ q, LocalPath policy s [l.key, row.1] q → valueAt q row.2 = valueAt q (.node l.defaults)

section
variable {policy}
variable {s : Section} {l : IdentityList} {inc cur : Value}

theorem accepted_list (hl : lists s = some l) (hinc : inc.Distinct)
    (hacc : inc = null ∨ Accepted policy s [] inc) :
    Accepted policy s [l.key] (.node (rowsOf l inc)) ∨ rowsOf l inc = [] := by
  have hvalue : valueOf l.key inc.items = null ∨
      Accepted policy s [l.key] (valueOf l.key inc.items) :=
    accepted_valueOf rfl hinc hacc (isLocal_list policy hl)
  rcases hvalue with hnull | hacc
  · exact Or.inr (by rw [rowsOf, hnull]; rfl)
  · cases hv : valueOf l.key inc.items with
    | leaf a => exact Or.inr (by rw [rowsOf, hv]; rfl)
    | node rows => exact Or.inl (by rw [rowsOf, hv]; exact hv ▸ hacc)

theorem distinct_rowsOf (h : cur.Distinct) : (KeyTree.node (rowsOf l cur) : Value).Distinct :=
  distinct_items (items_distinct h l.key)

/-- A taken row has an identity, and its merged row the same. -/
theorem idOf_mergeRow (hl : lists s = some l) (hinc : inc.Distinct) (hcur : cur.Distinct)
    (hacc : inc = null ∨ Accepted policy s [] inc) {sent : Str × Value}
    (hsent : sent ∈ sentRows policy s l inc) :
    (∃ v, idOf l sent.2 = some v) ∧
      idOf l (mergeRow l (fun k => node policy s ([l.key] ++ [k])) (rowsOf l cur) sent).2 =
        idOf l sent.2 := by
  rcases accepted_list hl hinc hacc with hacc | hnil
  · obtain ⟨v, hv, _⟩ := (accepted_rows hl hacc).1 sent hsent
    exact ⟨⟨v, hv⟩, (mergeRow_again hl (distinct_rowsOf hinc) (distinct_rowsOf hcur)
      (fun k row old hrow hold h => fixedAt policy s _ row old hrow hold h) hacc hsent).1⟩
  · rw [sentRows, hnil] at hsent
    exact absurd hsent List.not_mem_nil

theorem matched_row (hl : lists s = some l) (hinc : inc.Distinct) (hcur : cur.Distinct)
    (hacc : inc = null ∨ Accepted policy s [] inc) (hident : Identified l (valueOf l.key cur.items))
    {old sent : Str × Value} (hold : old ∈ fullRows (rowsOf l cur))
    (hsent : sent ∈ sentRows policy s l inc) (hid : idOf l sent.2 = idOf l old.2) :
    ∃ row, (sent.1, row) ∈ rowsOf l (merged policy s inc cur) ∧ idOf l row = idOf l old.2 ∧
      ∀ q, LocalPath policy s [l.key, sent.1] q →
        valueAt q row = if emptied [l.key, sent.1] q sent.2 then null else valueAt q old.2 := by
  obtain ⟨_, hmergedId⟩ := idOf_mergeRow hl hinc hcur hacc hsent
  have hlook : lookup (idText l sent.2) (rowsById l (rowsOf l cur)) = some old.2 := by
    rw [idText, hid, ← idText]
    exact lookup_rowsById_of_mem hident.2 hold
  refine ⟨_, ?_, hmergedId.trans hid, fun q hq => ?_⟩
  · rw [rowsOf_merged policy hl hinc hcur]
    refine List.mem_map.mpr ⟨sent, hsent, Prod.ext (mergeRow_fst _ _ _ _) rfl⟩
  · simp only [mergeRow, hlook]
    exact valueAt_node hq ((distinct_rowsOf hinc).of_mem (mem_of_taken hsent).1)
      ((distinct_rowsOf hcur).of_mem (List.mem_filter.mp hold).1)

theorem fresh_row (hl : lists s = some l) (hinc : inc.Distinct) (hcur : cur.Distinct)
    (hacc : inc = null ∨ Accepted policy s [] inc) (hident : Identified l (valueOf l.key cur.items))
    {row : Str × Value} (hrow : row ∈ rowsOf l (merged policy s inc cur))
    (hnew : ∀ old ∈ fullRows (rowsOf l cur), idOf l old.2 ≠ idOf l row.2) {q : Path}
    (hq : LocalPath policy s [l.key, row.1] q) :
    valueAt q row.2 = valueAt q (.node l.defaults) := by
  rw [rowsOf_merged policy hl hinc hcur] at hrow
  obtain ⟨sent, hsent, rfl⟩ := List.mem_map.mp hrow
  obtain ⟨⟨v, hv⟩, hmergedId⟩ := idOf_mergeRow hl hinc hcur hacc hsent
  rw [mergeRow_fst] at hq
  cases hlook : lookup (idText l sent.2) (rowsById l (rowsOf l cur)) with
  | none =>
      simp only [mergeRow, hlook]
      exact valueAt_newRow hl ((distinct_rowsOf hinc).of_mem (mem_of_taken hsent).1) hq
  | some old =>
      obtain ⟨x, hx, rfl, hxid⟩ := exists_of_lookup_rowsById hlook
      obtain ⟨w, hw⟩ := hident.1 x hx
      rw [idText, idText, hv, hw] at hxid
      refine absurd ?_ (hnew x hx)
      rw [hmergedId, hv, hw]
      exact congrArg some hxid

theorem identified_of_ok {r : List Str} (hl : lists s = some l)
    (h : checkCurrent policy s cur = .ok r) : Identified l (valueOf l.key cur.items) := by
  cases cur with
  | leaf a => exact ⟨fun item hitem => absurd hitem List.not_mem_nil, List.nodup_nil⟩
  | node items => exact identified_of_checkCurrent hl h

end

theorem map_fst_filterMap_sections {g : Section → Option (Str × Value)}
    (hg : ∀ s y, g s = some y → y.1 = s.name) (ss : List Section) :
    (ss.filterMap g).map Prod.fst = (ss.filter fun s => (g s).isSome).map Section.name := by
  induction ss with
  | nil => rfl
  | cons s ss ih =>
      cases h : g s with
      | none => rw [List.filterMap_cons, h, List.filter_cons, h, ih]; rfl
      | some y => rw [List.filterMap_cons, h, List.filter_cons, h, List.map_cons, ih, hg s y h]; rfl

theorem keepsLocals_of_merge {incoming current out : Items} {ignored : List Str}
    (hincoming : (KeyTree.node incoming : Value).Distinct)
    (hcurrent : (KeyTree.node current : Value).Distinct)
    (h : pfbSyncPolicyMerge policy incoming current = .ok (out, ignored)) :
    KeepsLocals policy incoming current out := by
  have hvalue : ∀ s : Section, valueOf s.name out =
      merged policy s (valueOf s.name incoming) (valueOf s.name current) := valueOf_merged h
  obtain ⟨skipped, hgather, hr⟩ := merge_eq_ok h
  have hinc : ∀ s : Section, (valueOf s.name incoming).Distinct := fun s =>
    items_distinct hincoming s.name
  have hcur : ∀ s : Section, (valueOf s.name current).Distinct := fun s =>
    items_distinct hcurrent s.name
  have hchecked : ∀ s : Section,
      (valueOf s.name incoming = null ∨ Accepted policy s [] (valueOf s.name incoming)) ∧
      ∃ r, checkCurrent policy s (valueOf s.name current) = .ok r := fun s => by
    obtain ⟨found, hfound⟩ := exists_of_gather hgather s (mem_syncSections s)
    exact ⟨(checkSection_eq_ok hfound).1, (checkSection_eq_ok hfound).2.1⟩
  refine
    { sections := ?_
      locals := fun s q hq => ?_
      carried := fun s l hl => ?_
      matched := fun s l hl old hold sent hsent hid => ?_
      fresh := fun s l hl row hrow hnew q hq => ?_ }
  · rw [(Prod.mk.inj hr).1, map_fst_filterMap_sections fun s y hy => mergeSection_fst policy hy]
    refine congrArg _ (List.filter_congr fun s _ => ?_)
    rw [mergeSection]
    split
    · rename_i hnull
      simp only [Bool.and_eq_true, decide_eq_true_eq] at hnull
      simp [hnull.1, hnull.2]
    · rename_i hnull
      simp only [Bool.and_eq_true, decide_eq_true_eq, not_and_or] at hnull
      simpa using hnull
  · have hne := LocalPath.ne_nil policy hq
    have hitems : (valueOf s.name out).items =
        (node policy s [] (valueOf s.name incoming) (valueOf s.name current)).items := by
      rw [hvalue s, items_merged]
      exact (items_node_keys policy (s := s) (p := []) rfl rfl
        (listAt_of_length_ne_one s (by decide)) _).symm
    rw [valueAt_of_items hne hitems]
    exact valueAt_node hq (hinc s) (hcur s)
  · rw [hvalue s, rowsOf_merged policy hl (hinc s) (hcur s), List.map_map]
    refine List.map_congr_left fun sent hsent => Prod.ext (mergeRow_fst _ _ _ _) ?_
    exact (idOf_mergeRow hl (hinc s) (hcur s) (hchecked s).1 hsent).2
  · obtain ⟨r, hr⟩ := (hchecked s).2
    rw [hvalue s]
    exact matched_row hl (hinc s) (hcur s) (hchecked s).1 (identified_of_ok hl hr) hold hsent hid
  · obtain ⟨r, hr⟩ := (hchecked s).2
    rw [hvalue s] at hrow
    exact fresh_row hl (hinc s) (hcur s) (hchecked s).1 (identified_of_ok hl hr) hrow hnew hq

/-! ### Payloads that differ in skipped keys -/

def unskippedAt : ℕ → Section → Path → Value → Value
  | 0, _, _, v => v
  | depth + 1, s, p, v =>
      if !container s p then v
      else
        match v with
        | .leaf a => .leaf a
        | .node items =>
            if feed p && items = [] then text []
            else .node ((items.filter fun item => !isLocal policy s (p ++ [item.1])).map
              fun item => (item.1, unskippedAt depth s (p ++ [item.1]) item.2))

/-- A payload's value without the keys that a merge skips, the containers staying. An empty feed
row is one element, written either way. -/
def unskipped (s : Section) (p : Path) (v : Value) : Value :=
  unskippedAt policy (schemaDepth - p.length) s p v

/-- The keys of a payload that a merge reads. -/
def readItems (s : Section) (p : Path) (items : Items) : Items :=
  items.filter fun item => !isLocal policy s (p ++ [item.1])

theorem unskipped_leaf {s : Section} {p : Path} (h : container s p = false) (v : Value) :
    unskipped policy s p v = v := by
  unfold unskipped
  cases schemaDepth - p.length with
  | zero => rfl
  | succ depth => simp [unskippedAt, h]

theorem unskipped_scalar (s : Section) (p : Path) (a : Scalar) :
    unskipped policy s p (.leaf a) = .leaf a := by
  unfold unskipped
  cases schemaDepth - p.length with
  | zero => rfl
  | succ depth => cases h : container s p <;> simp [unskippedAt, h]

theorem unskipped_node {s : Section} {p : Path} (h : container s p = true) (items : Items) :
    unskipped policy s p (.node items) =
      if feed p && items = [] then text []
      else .node ((readItems policy s p items).map fun item =>
        (item.1, unskipped policy s (p ++ [item.1]) item.2)) := by
  rw [unskipped, depth_of_container h [], unskippedAt]
  simp only [h, Bool.not_true, Bool.false_eq_true, if_false, readItems, unskipped,
    List.length_append, List.length_cons, List.length_nil]

theorem unskipped_eq_null_iff {s : Section} {p : Path} {v : Value} :
    unskipped policy s p v = null ↔ v = null := by
  cases v with
  | leaf a => rw [unskipped_scalar]
  | node items =>
      cases hc : container s p with
      | false => rw [unskipped_leaf policy hc]
      | true =>
          rw [unskipped_node policy hc]
          split <;> simp [text, null]

theorem emptyFeed_unskipped {s : Section} {p : Path} (hc : container s p = true) (v : Value) :
    emptyFeed p v = (feed p && unskipped policy s p v = text []) := by
  cases v with
  | leaf a => simp [emptyFeed, unskipped_scalar, text]
  | node items =>
      rw [unskipped_node policy hc]
      cases hf : feed p <;> by_cases hi : items = [] <;> simp [emptyFeed, hf, hi, text]

/-- The keys that a merge reads, as far as their values tell them apart. -/
theorem map_readItems {s : Section} {p : Path} (hc : container s p = true) {iv : Value}
    (hf : emptyFeed p iv = false) :
    (readItems policy s p iv.items).map (fun item =>
      (item.1, unskipped policy s (p ++ [item.1]) item.2)) = (unskipped policy s p iv).items := by
  cases iv with
  | leaf a => rw [unskipped_scalar]; rfl
  | node items =>
      rw [unskipped_node policy hc]
      split
      · rename_i h
        simp only [Bool.and_eq_true, decide_eq_true_eq] at h
        simp [emptyFeed, h.1, h.2] at hf
      · rfl

theorem valueOf_map {f : Str → Value → Value} (hf : ∀ k, f k null = null) (k : Str)
    (items : Items) :
    valueOf k (items.map fun item => (item.1, f item.1 item.2)) = f k (valueOf k items) := by
  induction items with
  | nil => exact (hf k).symm
  | cons item items ih =>
      by_cases hk : item.1 = k
      · subst hk
        simp [valueOf, lookup]
      · simpa [valueOf, lookup, hk] using ih

theorem valueOf_readItems {s : Section} {p : Path} {items : Items}
    {k : Str} (hl : isLocal policy s (p ++ [k]) = false) :
    valueOf k (readItems policy s p items) = valueOf k items := by
  induction items with
  | nil => rfl
  | cons item items ih =>
      by_cases hk : item.1 = k
      · subst hk
        simp [readItems, hl, valueOf, lookup]
      · cases hi : isLocal policy s (p ++ [item.1]) with
        | true => simpa [readItems, hi, valueOf, lookup, hk] using ih
        | false => simpa [readItems, hi, valueOf, lookup, hk] using ih

theorem filterMap_eq_of_map_eq {α β γ : Type*} {f : α → β} {g : α → Option γ} :
    ∀ {xs ys : List α}, xs.map f = ys.map f →
      (∀ x ∈ xs, ∀ y ∈ ys, f x = f y → g x = g y) → xs.filterMap g = ys.filterMap g
  | [], [], _, _ => rfl
  | x :: xs, y :: ys, h, hg => by
      obtain ⟨hxy, hrest⟩ := List.cons.inj h
      rw [List.filterMap_cons, List.filterMap_cons,
        hg x List.mem_cons_self y List.mem_cons_self hxy,
        filterMap_eq_of_map_eq hrest fun a ha b hb => hg a (List.mem_cons_of_mem _ ha) b
          (List.mem_cons_of_mem _ hb)]

section
variable {policy}
variable {s : Section} {p : Path}

/-- Payloads that agree on what is read of them agree at every key that is read. -/
theorem unskipped_valueOf (hc : container s p = true) {iv iv' : Value}
    (hf : emptyFeed p iv = false) (hf' : emptyFeed p iv' = false)
    (h : unskipped policy s p iv = unskipped policy s p iv') {k : Str}
    (hl : isLocal policy s (p ++ [k]) = false) :
    unskipped policy s (p ++ [k]) (valueOf k iv.items) =
      unskipped policy s (p ++ [k]) (valueOf k iv'.items) := by
  have hvalue : ∀ v : Value, emptyFeed p v = false →
      unskipped policy s (p ++ [k]) (valueOf k v.items) =
        valueOf k (unskipped policy s p v).items := by
    intro v hv
    rw [← map_readItems policy hc hv,
      valueOf_map (f := fun k => unskipped policy s (p ++ [k]))
        (fun k => unskipped_scalar policy s _ .null) k, valueOf_readItems policy hl]
  rw [hvalue iv hf, hvalue iv' hf', h]

theorem filterMap_readItems {F : Str × Value → Option (Str × Value)}
    (hF : ∀ item, isLocal policy s (p ++ [item.1]) = true → F item = none) (items : Items) :
    (readItems policy s p items).filterMap F = items.filterMap F := by
  rw [readItems, List.filterMap_filter]
  refine List.filterMap_congr fun item _ => ?_
  cases hl : isLocal policy s (p ++ [item.1]) with
  | true => rw [hF item hl]; rfl
  | false => rfl

theorem accepted_of_mem_readItems (hc : container s p = true) {iv : Value}
    (hacc : iv = null ∨ Accepted policy s p iv) {item : Str × Value}
    (h : item ∈ readItems policy s p iv.items) : Accepted policy s (p ++ [item.1]) item.2 := by
  obtain ⟨hmem, hl⟩ := List.mem_filter.mp h
  rw [Bool.not_eq_true'] at hl
  rcases hacc with rfl | hacc
  · cases hmem
  · cases iv with
    | leaf a => cases hmem
    | node items => exact (accepted_node hc hacc).1 item hmem hl

/-- A pass over the keys that are read gives the same on both payloads, when it does on each two
values that agree. -/
theorem filterMap_eq_of_unskipped (hc : container s p = true) {iv iv' : Value}
    (hf : emptyFeed p iv = false) (hf' : emptyFeed p iv' = false)
    (h : unskipped policy s p iv = unskipped policy s p iv')
    {F : Str × Value → Option (Str × Value)}
    (hF : ∀ item, isLocal policy s (p ++ [item.1]) = true → F item = none)
    (hvalues : ∀ x ∈ readItems policy s p iv.items, ∀ y ∈ readItems policy s p iv'.items,
      x.1 = y.1 → unskipped policy s (p ++ [x.1]) x.2 = unskipped policy s (p ++ [x.1]) y.2 →
      F x = F y) : iv.items.filterMap F = iv'.items.filterMap F := by
  rw [← filterMap_readItems hF iv.items, ← filterMap_readItems hF iv'.items]
  refine filterMap_eq_of_map_eq ((map_readItems policy hc hf).trans
    ((congrArg KeyTree.items h).trans (map_readItems policy hc hf').symm)) fun x hx y hy hxy => ?_
  obtain ⟨hkey, hvalue⟩ := Prod.mk.inj hxy
  exact hvalues x hx y hy hkey (hkey ▸ hvalue)

/-- Two payloads that agree on what is read of them give the same keys. -/
theorem mergeKeys_eq (hc : container s p = true) {merge : Str → Value → Value → Value}
    {iv iv' : Value} (hiv : iv.Distinct) (hiv' : iv'.Distinct)
    (hacc : iv = null ∨ Accepted policy s p iv) (hacc' : iv' = null ∨ Accepted policy s p iv')
    (hf : emptyFeed p iv = false) (hf' : emptyFeed p iv' = false)
    (h : unskipped policy s p iv = unskipped policy s p iv')
    (hmerge : ∀ k v v' w, v.Distinct → v'.Distinct → v = null ∨ Accepted policy s (p ++ [k]) v →
      v' = null ∨ Accepted policy s (p ++ [k]) v' →
      unskipped policy s (p ++ [k]) v = unskipped policy s (p ++ [k]) v' →
      merge k v w = merge k v' w) (cur : Items) :
    mergeKeys (fun k => isLocal policy s (p ++ [k])) merge iv.items cur =
      mergeKeys (fun k => isLocal policy s (p ++ [k])) merge iv'.items cur := by
  refine congrArg₂ (· ++ ·) (List.filterMap_congr fun item _ => ?_) ?_
  · cases hl : isLocal policy s (p ++ [item.1]) with
    | true => rw [if_pos hl, if_pos hl]
    | false =>
        rw [hmerge item.1 _ _ item.2 (items_distinct hiv _) (items_distinct hiv' _)
          (accepted_valueOf hc hiv hacc hl) (accepted_valueOf hc hiv' hacc' hl)
          (unskipped_valueOf hc hf hf' h hl)]
  · refine filterMap_eq_of_unskipped hc hf hf' h
      (fun item hl => if_pos (by simp only [hl, Bool.or_true])) fun x hx y hy hkey hvalue => ?_
    obtain ⟨k, v⟩ := x
    obtain ⟨k', v'⟩ := y
    cases hkey
    dsimp only at hvalue ⊢
    rw [hmerge k v v' null (hiv.of_mem (List.mem_filter.mp hx).1)
      (hiv'.of_mem (List.mem_filter.mp hy).1) (Or.inr (accepted_of_mem_readItems hc hacc hx))
      (Or.inr (accepted_of_mem_readItems hc hacc' hy)) hvalue]

theorem idOf_unskipped {l : IdentityList} (hl : lists s = some l) (k : Str) (row : Value) :
    idOf l (unskipped policy s ([l.key] ++ [k]) row) = idOf l row := by
  cases row with
  | leaf a => rw [unskipped_scalar]
  | node items =>
      have hf : feed ([l.key] ++ [k]) = false := feed_of_length_ne_four (by simp)
      have hvalue := valueOf_map
        (f := fun c => unskipped policy s ([l.key] ++ [k] ++ [c]))
        (fun c => unskipped_scalar policy s _ .null) l.id
        (readItems policy s ([l.key] ++ [k]) items)
      rw [valueOf_readItems policy (isLocal_id policy hl k),
        unskipped_leaf policy (p := [l.key] ++ [k] ++ [l.id]) (container_id hl k)] at hvalue
      rw [unskipped_node policy (p := [l.key] ++ [k]) (container_row hl k), hf]
      simp only [Bool.false_and, Bool.false_eq_true, if_false, idOf]
      rw [hvalue]

/-- Two payloads that agree on what is read of them give the same identity rows. -/
theorem mergeRows_eq {l : IdentityList} (hl : lists s = some l)
    {merge : Str → Value → Value → Value} {rows rows' : Items}
    (hacc : Accepted policy s [l.key] (.node rows))
    (hacc' : Accepted policy s [l.key] (.node rows'))
    (h : unskipped policy s [l.key] (.node rows) = unskipped policy s [l.key] (.node rows'))
    (hmerge : ∀ x ∈ readItems policy s [l.key] rows, ∀ y ∈ readItems policy s [l.key] rows',
      x.1 = y.1 → unskipped policy s ([l.key] ++ [x.1]) x.2 =
        unskipped policy s ([l.key] ++ [x.1]) y.2 → ∀ w, merge x.1 x.2 w = merge x.1 y.2 w)
    (cur : Items) :
    mergeRows l (fun k => isLocal policy s ([l.key] ++ [k])) merge rows cur =
      mergeRows l (fun k => isLocal policy s ([l.key] ++ [k])) merge rows' cur := by
  have hc := container_list hl
  have hf : ∀ v, emptyFeed [l.key] v = false := fun v => by
    rw [emptyFeed, feed_of_length_ne_four (by simp), Bool.false_and]
  have hfull : ∀ {rows : Items} {x y : Str × Value}, Accepted policy s [l.key] (.node rows) →
      x ∈ readItems policy s [l.key] rows →
      unskipped policy s ([l.key] ++ [x.1]) x.2 = unskipped policy s ([l.key] ++ [x.1]) y.2 →
      (isArray x.2 && x.2 ≠ .node []) = true → (isArray y.2 && y.2 ≠ .node []) = true := by
    intro rows x y hacc hx hxy hcontent
    obtain ⟨hmem, hlocal⟩ := List.mem_filter.mp hx
    obtain ⟨v, hv, _⟩ := (accepted_rows hl hacc).1 x
      (List.mem_filter.mpr ⟨hmem, by rw [hcontent, hlocal]; rfl⟩)
    refine full_of_idOf (l := l) (v := v) ?_
    rw [← @idOf_unskipped policy s l hl x.1, ← hxy, idOf_unskipped hl, hv]
  refine filterMap_eq_of_unskipped hc (hf (.node rows)) (hf (.node rows')) h
    (fun item hl => if_pos (by simp only [hl, Bool.or_true])) fun x hx y hy hkey hvalue => ?_
  have hcontent : (isArray x.2 && x.2 ≠ .node []) = (isArray y.2 && y.2 ≠ .node []) :=
    Bool.eq_iff_iff.mpr ⟨hfull hacc hx hvalue, hfull hacc' hy (hkey ▸ hvalue.symm)⟩
  have hid : idText l x.2 = idText l y.2 := by
    rw [idText, idText, ← @idOf_unskipped policy s l hl x.1, hvalue, idOf_unskipped hl]
  have hskip : ∀ v : Value, (!isArray v || v = .node []) = !(isArray v && v ≠ .node []) :=
    fun v => by simp
  rw [hskip, hskip, hcontent, hid, ← hkey]
  simp only [hmerge x hx y hy hkey hvalue]

end

variable {policy} in
theorem accepted_node_of_list {s : Section} {l : IdentityList} {v : Value}
    (hacc : Accepted policy s [l.key] v) (hl : lists s = some l) :
    ∃ rows, v = .node rows := by
  cases v with
  | node rows => exact ⟨rows, rfl⟩
  | leaf a =>
      have := accepted_scalar (container_list hl) hacc
      simp [emptyElement, feed] at this

/-- What a merge makes of a position does not depend on the keys it skips there. -/
theorem node_eq_of_unskipped (s : Section) (p : Path) : ∀ iv iv' cv : Value,
    iv.Distinct → iv'.Distinct → iv = null ∨ Accepted policy s p iv →
    iv' = null ∨ Accepted policy s p iv' → unskipped policy s p iv = unskipped policy s p iv' →
    node policy s p iv cv = node policy s p iv' cv := by
  induction p using path_induction (s := s) with
  | leaf p hc =>
      intro iv iv' cv _ _ _ _ h
      rw [unskipped_leaf policy hc, unskipped_leaf policy hc] at h
      rw [h]
  | step p hc ih =>
      intro iv iv' cv hiv hiv' hacc hacc' h
      have hnull : iv = null ↔ iv' = null := by
        rw [← unskipped_eq_null_iff policy (s := s) (p := p), h, unskipped_eq_null_iff]
      have hfeed : emptyFeed p iv = emptyFeed p iv' := by
        rw [emptyFeed_unskipped policy hc, emptyFeed_unskipped policy hc, h]
      cases hf : emptyFeed p iv with
      | true =>
          rw [node_emptyFeed policy hc hf, node_emptyFeed policy hc (hfeed ▸ hf)]
      | false =>
          have hf' : emptyFeed p iv' = false := hfeed ▸ hf
          cases hlist : listAt s p with
          | none =>
              rw [node_keys policy hc hf hlist, node_keys policy hc hf' hlist,
                mergeKeys_eq hc hiv hiv' hacc hacc' hf hf' h
                  (fun k v v' w hv hv' ha ha' hu => ih k v v' w hv hv' ha ha' hu) cv.items]
              simp only [hnull]
          | some l =>
              rw [node_rows policy hc hf hlist, node_rows policy hc hf' hlist]
              by_cases hn : iv = null
              · rw [if_pos hn, if_pos (hnull.mp hn)]
              · obtain ⟨hl, rfl⟩ := listAt_eq_some_iff.mp hlist
                have ha := hacc.resolve_left hn
                have ha' := hacc'.resolve_left (mt hnull.mpr hn)
                obtain ⟨rows, rfl⟩ := accepted_node_of_list ha hl
                obtain ⟨rows', rfl⟩ := accepted_node_of_list ha' hl
                rw [if_neg hn, if_neg (mt hnull.mpr hn)]
                refine congrArg KeyTree.node (mergeRows_eq hl ha ha' h ?_ cv.items)
                intro x hx y hy hkey hvalue w
                exact ih x.1 x.2 y.2 w (hiv.of_mem (List.mem_filter.mp hx).1)
                  (hiv'.of_mem (List.mem_filter.mp hy).1)
                  (Or.inr (accepted_of_mem_readItems hc (Or.inr ha) hx))
                  (hkey ▸ Or.inr (accepted_of_mem_readItems hc (Or.inr ha') hy)) hvalue

theorem merge_eq_of_unskipped {incoming incoming' current : Items} {r r' : Items × List Str}
    (hincoming : (KeyTree.node incoming : Value).Distinct)
    (hincoming' : (KeyTree.node incoming' : Value).Distinct)
    (hread : ∀ s : Section, unskipped policy s [] (valueOf s.name incoming) =
      unskipped policy s [] (valueOf s.name incoming'))
    (h : pfbSyncPolicyMerge policy incoming current = .ok r)
    (h' : pfbSyncPolicyMerge policy incoming' current = .ok r') : r.1 = r'.1 := by
  obtain ⟨skipped, hgather, rfl⟩ := merge_eq_ok h
  obtain ⟨skipped', hgather', rfl⟩ := merge_eq_ok h'
  dsimp only
  refine List.filterMap_congr fun s _ => ?_
  obtain ⟨found, hfound⟩ := exists_of_gather hgather s (mem_syncSections s)
  obtain ⟨found', hfound'⟩ := exists_of_gather hgather' s (mem_syncSections s)
  have hnull : valueOf s.name incoming = null ↔ valueOf s.name incoming' = null := by
    rw [← unskipped_eq_null_iff policy (s := s) (p := []), hread s, unskipped_eq_null_iff]
  have hnode : node policy s [] (valueOf s.name incoming) (valueOf s.name current) =
      node policy s [] (valueOf s.name incoming') (valueOf s.name current) :=
    node_eq_of_unskipped policy s [] _ _ _ (items_distinct hincoming s.name)
      (items_distinct hincoming' s.name) (checkSection_eq_ok hfound).1
      (checkSection_eq_ok hfound').1 (hread s)
  rw [mergeSection, mergeSection, hnode]
  simp only [hnull]

/-- An accepted payload cannot touch what is the receiver's: its local keys are in the result where
they were, or in the row of their identity, a row it does not know gets the fixed defaults, and
payloads that differ in skipped keys alone give the same result. -/
theorem payload_keeps_locals {incoming current out : Items} {ignored : List Str}
    (hincoming : (KeyTree.node incoming : Value).Distinct)
    (hcurrent : (KeyTree.node current : Value).Distinct)
    (h : pfbSyncPolicyMerge policy incoming current = .ok (out, ignored)) :
    KeepsLocals policy incoming current out ∧
    ∀ (incoming' : Items) (r : Items × List Str), (KeyTree.node incoming' : Value).Distinct →
      pfbSyncPolicyMerge policy incoming' current = .ok r →
      (∀ s : Section, unskipped policy s [] (valueOf s.name incoming') =
        unskipped policy s [] (valueOf s.name incoming)) → r.1 = out :=
  ⟨keepsLocals_of_merge policy hincoming hcurrent h, fun _ _ hincoming' h' hread =>
    merge_eq_of_unskipped policy hincoming' hincoming hread h' h⟩

/-- A receiver with an interface of its own in a group and a key of its own in a feed row. -/
def ownKeysNode : Items :=
  [general [] "200".toList,
    groups [(kOne, group "spam".toList [(kSrcint, text "lan".toList)]
      [(kOne, .node [(upperKey, text on), ("url".toList, text "d".toList)])])]]

/-- The group has moved with its interface, the feed row has kept its own key. -/
def ownKeysKept : Items :=
  [general on "200".toList,
    groups [("2".toList, .node ((kAliasname, text "ads".toList) :: (kRow, .node
        [(kZero, feedRow "a".toList), ("3".toList, text []), ("5".toList, feedRow "b".toList)]) ::
          ipRow)),
      (kZero, group "spam".toList [(kSrcint, text "lan".toList)]
        [(kOne, .node [(upperKey, text on), ("url".toList, text "c".toList)])])],
    safesearch [(enable, text on)]]

theorem payload_keeps_locals_ownKeysNode :
    KeepsLocals sharedKeys senderNode ownKeysNode ownKeysKept ∧
    ∀ (incoming' : Items) (r : Items × List Str), (KeyTree.node incoming' : Value).Distinct →
      pfbSyncPolicyMerge sharedKeys incoming' ownKeysNode = .ok r →
      (∀ s : Section, unskipped sharedKeys s [] (valueOf s.name incoming') =
        unskipped sharedKeys s [] (valueOf s.name senderNode)) → r.1 = ownKeysKept := by
  have hmerge : pfbSyncPolicyMerge sharedKeys senderNode ownKeysNode =
      .ok (ownKeysKept, ignoredOfSender) := by
    decide +kernel
  exact payload_keeps_locals sharedKeys distinct_senderNode (by decide +kernel) hmerge

/-- An IPv4 group at a list position, with further keys. -/
def groupAt (k : Str) (more : Items) : Items :=
  [(Section.pfblockernglistsv4.name,
    .node [(kConfig, .node [(k, .node ((kAliasname, text "group".toList) :: more))])])]

def rowsWith (rows : Items) : Items := groupAt kZero [(kRow, .node rows)]

def localRowKey : Value := .node [(upperKey, text on)]
def policyRow : Value := .node [("url".toList, text on)]

/-- A local key is lost with a feed row that arrives empty, below a leaf, and in a row at no list
position; and a skipped key leaves its feed row behind. -/
theorem local_keys_lost :
    pfbSyncPolicyMerge (fun _ _ => false) (rowsWith [(kZero, text [])])
      (rowsWith [(kZero, localRowKey)]) = .ok (rowsWith [(kZero, text [])], []) ∧
    pfbSyncPolicyMerge (fun _ _ => false) []
      [(Section.pfblockerngsafesearch.name, .node [(enable, localRowKey)])] =
      .ok ([(Section.pfblockerngsafesearch.name, .node [])], []) ∧
    pfbSyncPolicyMerge (fun _ _ => false) (groupAt kZero [])
      (groupAt upperKey [("url".toList, text on)]) = .ok (groupAt kZero [], []) ∧
    pfbSyncPolicyMerge (fun _ _ => false) (rowsWith [(kOne, policyRow)])
      (rowsWith [(kOne, policyRow)]) = .ok (rowsWith [(kOne, policyRow)], []) ∧
    pfbSyncPolicyMerge (fun _ _ => false) (rowsWith [(kOne, policyRow), (kZero, localRowKey)])
      (rowsWith [(kOne, policyRow)]) =
      .ok (rowsWith [(kOne, policyRow), (kZero, .node [])],
        ["installedpackages/pfblockernglistsv4/config/0/row/0/*".toList]) :=
  ⟨rfl, rfl, rfl, rfl, rfl⟩

end PfBlockerNG.SyncLocals
