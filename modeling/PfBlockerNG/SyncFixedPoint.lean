import PfBlockerNG.SyncProjection

/-!
Merging the same payload again changes nothing, and a receiver that already holds the sender's
policy is left as it is.
-/

namespace PfBlockerNG.SyncFixedPoint

open Strings OrderedDict KeyedTree SyncSchema SyncMerge SyncProjection
open ConfigRegistry (SectionAlias isDigits)

/-! ### Settled keys -/

section
variable {islocal : Str → Bool} {merge : Str → Value → Value → Value} {inn cur : Items}

/-- A merge of `inn` leaves the values of these keys alone and brings no new key. -/
def Settled (islocal : Str → Bool) (merge : Str → Value → Value → Value) (inn cur : Items) : Prop :=
  (∀ item ∈ cur, islocal item.1 = false →
    merge item.1 (valueOf item.1 inn) item.2 = item.2 ∧ item.2 ≠ null) ∧
  ∀ item ∈ inn, islocal item.1 = false → item.1 ∉ cur.map Prod.fst →
    merge item.1 item.2 null = null

theorem filterMap_eq_self {α : Type*} {f : α → Option α} {xs : List α}
    (h : ∀ x ∈ xs, f x = some x) : xs.filterMap f = xs := by
  rw [List.filterMap_congr h, List.filterMap_some]

theorem mergeKeys_of_settled (h : Settled islocal merge inn cur) :
    mergeKeys islocal merge inn cur = cur := by
  have hcur : (cur.filterMap fun item =>
      if islocal item.1 then some item
      else keep item.1 (merge item.1 (valueOf item.1 inn) item.2)) = cur := by
    refine filterMap_eq_self fun item hitem => ?_
    cases hl : islocal item.1 with
    | true => simp
    | false =>
        obtain ⟨hsame, hne⟩ := h.1 item hitem hl
        simp [hsame, keep, hne]
  have hinn : (inn.filterMap fun item =>
      if (cur.map Prod.fst).contains item.1 || islocal item.1 then none
      else keep item.1 (merge item.1 item.2 null)) = [] := by
    refine List.filterMap_eq_nil_iff.mpr fun item hitem => ?_
    cases hl : islocal item.1 with
    | true => simp
    | false =>
        by_cases hin : item.1 ∈ cur.map Prod.fst
        · rw [if_pos (by rw [List.contains_iff_mem.mpr hin, Bool.true_or])]
        · rw [h.2 item hitem hl hin, keep, if_pos rfl, ite_self]
  rw [mergeKeys, hcur, hinn, List.append_nil]

theorem settled_append {extra : Items} (h : Settled islocal merge inn cur)
    (hextra : ∀ item ∈ extra, islocal item.1 = true) :
    Settled islocal merge inn (cur ++ extra) := by
  refine ⟨fun item hitem hl => ?_, fun item hitem hl hout => ?_⟩
  · rcases List.mem_append.mp hitem with hitem | hitem
    · exact h.1 item hitem hl
    · rw [hextra item hitem] at hl
      cases hl
  · refine h.2 item hitem hl fun hin => hout ?_
    rw [List.map_append]
    exact List.mem_append_left _ hin

theorem settled_mergeKeys (hinn : (inn.map Prod.fst).Nodup)
    (hnull : ∀ k, merge k null null = null)
    (hne : ∀ k iv cv, iv ≠ null → merge k iv cv ≠ null)
    (hagain : ∀ k w, islocal k = false → w = null ∨ (k, w) ∈ cur →
      merge k (valueOf k inn) (merge k (valueOf k inn) w) = merge k (valueOf k inn) w) :
    Settled islocal merge inn (mergeKeys islocal merge inn cur) := by
  refine ⟨fun item hitem hl => ?_, fun item hitem hl hout => ?_⟩
  · rcases List.mem_append.mp hitem with hitem | hitem
    · obtain ⟨⟨k, w⟩, hx, hkeep⟩ := List.mem_filterMap.mp hitem
      have hk := mergeKeys_fst _ _ hkeep
      rw [hk] at hl
      rw [if_neg (by simp [hl])] at hkeep
      obtain ⟨rfl, hvalue⟩ := keep_eq_some hkeep
      exact ⟨hagain k w hl (Or.inr hx), hvalue⟩
    · obtain ⟨⟨k, v⟩, hx, hkeep⟩ := List.mem_filterMap.mp hitem
      split at hkeep
      · cases hkeep
      · obtain ⟨rfl, hvalue⟩ := keep_eq_some hkeep
        have hagain' := hagain k null hl (Or.inl rfl)
        rw [valueOf_eq_of_mem hinn hx] at hagain' ⊢
        exact ⟨hagain', hvalue⟩
  · obtain ⟨k, v⟩ := item
    by_contra hvalue
    refine hout (List.mem_map.mpr ?_)
    by_cases hin : k ∈ cur.map Prod.fst
    · obtain ⟨⟨k, w⟩, hw, rfl⟩ := List.mem_map.mp hin
      have hv : v ≠ null := by
        rintro rfl
        exact hvalue (hnull _)
      refine ⟨(k, merge k v w),
        List.mem_append_left _ (List.mem_filterMap.mpr ⟨_, hw, ?_⟩), rfl⟩
      rw [if_neg (by simp [hl]), valueOf_eq_of_mem hinn hitem, keep, if_neg (hne _ v w hv)]
    · refine ⟨(k, merge k v null),
        List.mem_append_right _ (List.mem_filterMap.mpr ⟨_, hitem, ?_⟩), rfl⟩
      have hguard : ¬((cur.map Prod.fst).contains k || islocal k) = true := by
        simpa [hl] using fun w hw => hin (List.mem_map.mpr ⟨(k, w), hw, rfl⟩)
      rw [if_neg hguard, keep, if_neg hvalue]

end

/-! ### The same payload again -/

variable (policy : SectionAlias → Str → Bool)

theorem items_distinct {v : Value} (h : v.Distinct) (k : Str) : (valueOf k v.items).Distinct := by
  cases hl : lookup k v.items with
  | none => rw [valueOf, hl]; exact .leaf _
  | some w =>
      rw [valueOf, hl]
      exact h.of_mem ((lookup_eq_some_iff h.nodup k w).mp hl)

/-- The identity of a merged row is the incoming one. -/
theorem idOf_node {s : Section} {l : IdentityList} (hl : lists s = some l) {k : Str}
    {row old : Value} {v : Str} (hrow : row.Distinct) (hold : old.Distinct)
    (h : idOf l row = some v) : idOf l (node policy s [l.key, k] row old) = some v := by
  have hfull := full_of_idOf h
  obtain ⟨harray, hid⟩ := idOf_eq_some_iff.mp h
  have hne : row ≠ null := fun e => by simp [e, null, isArray] at harray
  have hfeed : emptyFeed [l.key, k] row = false := by
    rw [emptyFeed, feed_of_length_ne_four (by simp), Bool.false_and]
  rw [node_keys policy (container_row hl k) hfeed (listAt_of_length_ne_one s (by simp))]
  simp only [hne, decide_false, Bool.and_false, Bool.false_eq_true, if_false]
  refine idOf_eq_some_iff.mpr ⟨rfl, ?_⟩
  rw [KeyTree.items_node, valueOf_mergeKeys hrow.nodup hold.nodup
    (fun k' => node_null_null policy s _)]
  have hlocal : isLocal policy s ([l.key, k] ++ [l.id]) = false := isLocal_id policy hl k
  rw [hlocal, hid]
  exact node_leaf policy (container_id hl k) _ _

/-- What merging again does at a position: nothing, also when local keys stand at the end. -/
structure FixedAt (s : Section) (p : Path) (iv cv : Value) : Prop where
  again : node policy s p iv (node policy s p iv cv) = node policy s p iv cv
  withLocals : ∀ extra : Items, (∀ item ∈ extra, isLocal policy s (p ++ [item.1]) = true) →
    container s p = true → emptyFeed p iv = false → listAt s p = none → iv ≠ null →
    node policy s p iv (.node ((node policy s p iv cv).items ++ extra)) =
      .node ((node policy s p iv cv).items ++ extra)

variable {policy} in
theorem mem_of_taken {s : Section} {p : Path} {items : Items} {item : Str × Value}
    (h : item ∈ taken (fun k => isLocal policy s (p ++ [k])) items) :
    item ∈ items ∧ isLocal policy s (p ++ [item.1]) = false ∧
      (isArray item.2 && item.2 ≠ .node []) = true := by
  obtain ⟨hin, htaken⟩ := List.mem_filter.mp h
  rw [Bool.and_eq_true, Bool.not_eq_true'] at htaken
  exact ⟨hin, htaken.2, htaken.1⟩

theorem idOf_withDefaults {l : IdentityList} {new : Value} {v : Str} (h : idOf l new = some v)
    (defaults : Items) : idOf l (withDefaults new defaults) = some v := by
  obtain ⟨_, hid⟩ := idOf_eq_some_iff.mp h
  refine idOf_eq_some_iff.mpr ⟨rfl, ?_⟩
  rw [valueOf] at hid
  rw [withDefaults, KeyTree.items_node, valueOf, lookup_append]
  cases hl : lookup l.id new.items with
  | none =>
      rw [hl] at hid
      cases KeyTree.leaf.inj hid
  | some w =>
      rw [hl] at hid
      exact hid

variable {policy} in
/-- A row of the result keeps its identity and is merged into itself. -/
theorem mergeRow_again {s : Section} {l : IdentityList} (hl : lists s = some l) {inn cur : Items}
    (hinn : (KeyTree.node inn : Value).Distinct) (hcur : (KeyTree.node cur : Value).Distinct)
    (ih : ∀ k row old, row.Distinct → old.Distinct →
      row = null ∨ Accepted policy s ([l.key] ++ [k]) row →
      FixedAt policy s ([l.key] ++ [k]) row old)
    (hacc : Accepted policy s [l.key] (.node inn)) {item : Str × Value}
    (hitem : item ∈ taken (fun k => isLocal policy s ([l.key] ++ [k])) inn) :
    idOf l (mergeRow l (fun k => node policy s ([l.key] ++ [k])) cur item).2 = idOf l item.2 ∧
    node policy s ([l.key] ++ [item.1]) item.2
        (mergeRow l (fun k => node policy s ([l.key] ++ [k])) cur item).2 =
      (mergeRow l (fun k => node policy s ([l.key] ++ [k])) cur item).2 := by
  obtain ⟨v, hv, _⟩ := (accepted_rows hl hacc).1 item hitem
  obtain ⟨hin, hlocal, hfull⟩ := mem_of_taken hitem
  have hrow : item.2.Distinct := hinn.of_mem hin
  have hrowacc : item.2 = null ∨ Accepted policy s ([l.key] ++ [item.1]) item.2 :=
    Or.inr ((accepted_node (container_list hl) hacc).1 item hin hlocal)
  have hne : item.2 ≠ null := by
    intro e
    rw [e] at hfull
    exact absurd hfull (by decide)
  cases hlook : lookup (idText l item.2) (rowsById l cur) with
  | some old =>
      obtain ⟨x, hx, rfl, _⟩ := exists_of_lookup_rowsById hlook
      have hold : x.2.Distinct := hcur.of_mem (List.mem_filter.mp hx).1
      simp only [mergeRow, hlook]
      exact ⟨(idOf_node policy hl hrow hold hv).trans hv.symm,
        (ih item.1 item.2 x.2 hrow hold hrowacc).again⟩
  | none =>
      simp only [mergeRow, hlook]
      refine ⟨(idOf_withDefaults (idOf_node policy hl hrow (.leaf _) hv) _).trans hv.symm, ?_⟩
      refine (ih item.1 item.2 null hrow (.leaf _) hrowacc).withLocals _ (fun f hf => ?_)
        (container_row hl _) ?_ (listAt_of_length_ne_one s (by simp)) hne
      · exact isLocal_default policy hl item.1 (List.mem_filter.mp hf).1
      · rw [emptyFeed, feed_of_length_ne_four (by simp), Bool.false_and]

variable {policy} in
/-- The rows of the result, merged again, are the same rows. -/
theorem mergeRows_again {s : Section} {l : IdentityList} (hl : lists s = some l) {inn cur : Items}
    (hinn : (KeyTree.node inn : Value).Distinct) (hcur : (KeyTree.node cur : Value).Distinct)
    (ih : ∀ k row old, row.Distinct → old.Distinct →
      row = null ∨ Accepted policy s ([l.key] ++ [k]) row →
      FixedAt policy s ([l.key] ++ [k]) row old)
    (hacc : Accepted policy s [l.key] (.node inn)) :
    let islocal := fun k => isLocal policy s ([l.key] ++ [k])
    let merge := fun k => node policy s ([l.key] ++ [k])
    mergeRows l islocal merge inn (mergeRows l islocal merge inn cur) =
      mergeRows l islocal merge inn cur := by
  intro islocal merge
  have hid : ∀ item ∈ taken islocal inn, idOf l (mergeRow l merge cur item).2 = idOf l item.2 :=
    fun item hitem => (mergeRow_again hl hinn hcur ih hacc hitem).1
  have hfull : fullRows (mergeRows l islocal merge inn cur) =
      mergeRows l islocal merge inn cur := by
    rw [mergeRows_eq_map, fullRows]
    refine List.filter_eq_self.mpr fun row hrow => ?_
    obtain ⟨item, hitem, rfl⟩ := List.mem_map.mp hrow
    obtain ⟨v, hv, _⟩ := (accepted_rows hl hacc).1 item hitem
    exact full_of_idOf ((hid item hitem).trans hv)
  have hunique : UniqueIds l (mergeRows l islocal merge inn cur) := by
    rw [UniqueIds, hfull, mergeRows_eq_map, List.map_map]
    refine (List.map_congr_left fun item hitem => ?_).symm ▸ (accepted_rows hl hacc).2
    rw [Function.comp_apply, idText, hid item hitem, idText]
  rw [mergeRows_eq_map l islocal merge inn (mergeRows l islocal merge inn cur),
    mergeRows_eq_map l islocal merge inn cur] at *
  refine List.map_congr_left fun item hitem => ?_
  have hmem := List.mem_map_of_mem (f := mergeRow l merge cur) hitem
  have hlook := lookup_rowsById_of_mem hunique (hfull.symm ▸ hmem)
  rw [idText, hid item hitem, ← idText] at hlook
  have hagain := (mergeRow_again hl hinn hcur ih hacc hitem).2
  conv_lhs => rw [mergeRow, hlook]
  exact Prod.ext (mergeRow_fst l merge cur item).symm hagain

theorem distinct_items {v : Value} (h : v.Distinct) : (KeyTree.node v.items : Value).Distinct :=
  .node h.nodup fun _ hitem => h.of_mem hitem

variable {policy} in
theorem accepted_valueOf {s : Section} {p : Path} {iv : Value} (hc : container s p = true)
    (hiv : iv.Distinct) (h : iv = null ∨ Accepted policy s p iv) {k : Str}
    (hl : isLocal policy s (p ++ [k]) = false) :
    valueOf k iv.items = null ∨ Accepted policy s (p ++ [k]) (valueOf k iv.items) := by
  by_cases hv : valueOf k iv.items = null
  · exact Or.inl hv
  · have hmem := mem_of_valueOf_ne_null hiv.nodup hv
    rcases h with rfl | h
    · cases hmem
    · cases iv with
      | leaf a => cases hmem
      | node items => exact Or.inr ((accepted_node hc h).1 _ hmem hl)

variable {policy} in
/-- The keys of a merged container are settled once its positions below are. -/
theorem settled_node {s : Section} {p : Path} (hc : container s p = true)
    (ih : ∀ k iv cv, iv.Distinct → cv.Distinct → iv = null ∨ Accepted policy s (p ++ [k]) iv →
      FixedAt policy s (p ++ [k]) iv cv)
    {iv cv : Value} (hiv : iv.Distinct) (hcv : cv.Distinct)
    (hacc : iv = null ∨ Accepted policy s p iv) :
    Settled (fun k => isLocal policy s (p ++ [k])) (fun k => node policy s (p ++ [k])) iv.items
      (mergeKeys (fun k => isLocal policy s (p ++ [k])) (fun k => node policy s (p ++ [k]))
        iv.items cv.items) := by
  refine settled_mergeKeys hiv.nodup (fun k => node_null_null policy s _)
    (fun k v w hv => node_ne_null policy hv _ w) fun k w hl hw => ?_
  have hw' : w.Distinct := by
    rcases hw with rfl | hw
    · exact .leaf _
    · exact hcv.of_mem hw
  exact (ih k _ w (items_distinct hiv k) hw' (accepted_valueOf hc hiv hacc hl)).again

theorem fixedAt (s : Section) (p : Path) : ∀ iv cv : Value, iv.Distinct → cv.Distinct →
    iv = null ∨ Accepted policy s p iv → FixedAt policy s p iv cv := by
  induction p using path_induction (s := s) with
  | leaf p hc =>
      intro iv cv _ _ _
      refine ⟨by rw [node_leaf policy hc, node_leaf policy hc], fun extra _ hc' => ?_⟩
      rw [hc] at hc'
      cases hc'
  | step p hc ih =>
      intro iv cv hiv hcv hacc
      cases hf : emptyFeed p iv with
      | true =>
          refine ⟨by rw [node_emptyFeed policy hc hf, node_emptyFeed policy hc hf], ?_⟩
          intro extra _ _ hf'
          rw [hf] at hf'
          cases hf'
      | false =>
          cases hlist : listAt s p with
          | some l =>
              refine ⟨?_, fun extra _ _ _ hnone => by rw [hlist] at hnone; cases hnone⟩
              obtain ⟨hl, rfl⟩ := listAt_eq_some_iff.mp hlist
              rw [node_rows policy hc hf hlist, node_rows policy hc hf hlist]
              by_cases hnull : iv = null
              · rw [if_pos hnull, if_pos hnull]
              · have hacc' := hacc.resolve_left hnull
                rw [if_neg hnull, if_neg hnull]
                cases iv with
                | leaf a =>
                    have := accepted_scalar hc hacc'
                    simp [emptyElement, feed] at this
                | node inn =>
                    exact congrArg KeyTree.node
                      (mergeRows_again hl hiv (distinct_items hcv) ih hacc')
          | none =>
              have hsettled := settled_node hc ih hiv hcv hacc
              constructor
              · rw [node_keys policy hc hf hlist, node_keys policy hc hf hlist]
                dsimp only
                split
                · rename_i h
                  simp only [Bool.and_eq_true, decide_eq_true_eq] at h
                  have hempty := mergeKeys_of_settled hsettled
                  rw [h.1] at hempty
                  change (if mergeKeys _ _ iv.items [] = [] && iv = null then null else _) = null
                  rw [hempty, h.2]
                  rfl
                · rename_i h
                  rw [KeyTree.items_node, mergeKeys_of_settled hsettled, if_neg h]
              · intro extra hextra _ _ _ hnull
                rw [node_keys policy hc hf hlist cv]
                simp only [hnull, decide_false, Bool.and_false, Bool.false_eq_true, if_false,
                  KeyTree.items_node]
                rw [node_keys policy hc hf hlist]
                simp only [hnull, decide_false, Bool.and_false, Bool.false_eq_true, if_false,
                  KeyTree.items_node]
                rw [mergeKeys_of_settled (settled_append hsettled hextra)]

/-! ### Sections -/

variable {policy} in
theorem node_section_eq {s : Section} {inc cur : Value} (hne : node policy s [] inc cur ≠ null) :
    node policy s [] inc cur = .node (mergeKeys (fun k => isLocal policy s [k])
      (fun k => node policy s [k]) inc.items cur.items) := by
  have hlist : listAt s [] = none := listAt_of_length_ne_one s (by decide)
  rw [node_keys policy (s := s) (p := []) rfl rfl hlist] at hne ⊢
  dsimp only at hne ⊢
  split
  · rename_i h
    rw [if_pos h] at hne
    exact absurd rfl hne
  · rfl

variable {policy} in
/-- The receiver's side of a merged section is accepted again. -/
theorem checkCurrent_node {s : Section} {inc cur : Value} (hinc : inc.Distinct)
    (hcur : cur.Distinct) (hacc : inc = null ∨ Accepted policy s [] inc)
    (hne : node policy s [] inc cur ≠ null) :
    checkCurrent policy s (node policy s [] inc cur) = .ok [] := by
  rw [node_section_eq hne, checkCurrent]
  cases hl : lists s with
  | none => rfl
  | some l =>
      have hvalue : valueOf l.key (mergeKeys (fun k => isLocal policy s [k])
          (fun k => node policy s [k]) inc.items cur.items) = _ :=
        valueOf_mergeKeys hinc.nodup hcur.nodup (fun k => node_null_null policy s _) l.key
      rw [isLocal_list policy hl] at hvalue
      simp only [hvalue, Bool.false_eq_true, if_false]
      have hc := container_list hl
      have hf : emptyFeed [l.key] (valueOf l.key inc.items) = false := rfl
      rw [node_rows policy hc hf (listAt_eq_some_iff.mpr ⟨hl, rfl⟩)]
      by_cases hnull : valueOf l.key inc.items = null
      · rw [if_pos hnull]
        rfl
      · rw [if_neg hnull]
        have hlist := accepted_valueOf (k := l.key) rfl hinc hacc (isLocal_list policy hl)
        have hacc' := hlist.resolve_left hnull
        cases hv : valueOf l.key inc.items with
        | leaf a =>
            rw [hv] at hacc'
            have := accepted_scalar hc hacc'
            simp [emptyElement, feed] at this
        | node inn =>
            rw [hv] at hacc'
            have hinn : (KeyTree.node inn : Value).Distinct := hv ▸ items_distinct hinc l.key
            have hrows := accepted_rows hl hacc'
            have hid : ∀ item ∈ taken (fun k => isLocal policy s ([l.key] ++ [k])) inn,
                idOf l (mergeRow l (fun k => node policy s ([l.key] ++ [k]))
                  (valueOf l.key cur.items).items item).2 = idOf l item.2 := fun item hitem =>
              (mergeRow_again hl hinn (distinct_items (items_distinct hcur l.key))
                (fun k row old => fixedAt policy s _ row old) hacc' hitem).1
            rw [KeyTree.items_node, mergeRows_eq_map]
            refine (ids_eq_ok_iff policy s l .current [l.key] _ [] []).mpr ⟨rfl, ?_, ?_⟩
            · intro row hrow
              obtain ⟨item, hitem, rfl⟩ := List.mem_map.mp (List.mem_filter.mp hrow).1
              obtain ⟨v, hv, hvalid⟩ := hrows.1 item hitem
              exact ⟨v, (hid item hitem).trans hv, hvalid, List.not_mem_nil⟩
            · refine (List.filter_sublist.map _).nodup ?_
              rw [List.map_map]
              refine (List.map_congr_left fun item hitem => ?_).symm ▸ hrows.2
              rw [Function.comp_apply, idText, hid item hitem, idText]

variable {policy} in
/-- A section of the result stays when the payload is merged again. -/
theorem mergeSection_again {s : Section} {inc cur : Value} {y : Str × Value}
    (hinc : inc.Distinct) (hcur : cur.Distinct) (hacc : inc = null ∨ Accepted policy s [] inc)
    (h : mergeSection policy s inc cur = some y) :
    mergeSection policy s inc y.2 = some y ∧ checkCurrent policy s y.2 = .ok [] := by
  unfold mergeSection at h
  split at h
  · cases h
  · cases Option.some.inj h
    by_cases hne : node policy s [] inc cur = null
    · have hinull : inc = null := by
        by_contra hinc'
        exact node_ne_null policy hinc' [] cur hne
      subst hinull
      rw [if_pos hne]
      have hlist : listAt s [] = none := listAt_of_length_ne_one s (by decide)
      split
      · refine ⟨?_, rfl⟩
        have hagain : node policy s [] null (text []) = null := by
          rw [node_keys policy (s := s) (p := []) rfl rfl hlist]
          rfl
        simp only [mergeSection, hagain]
        rfl
      · have hagain : node policy s [] null (.node []) = null := by
          rw [node_keys policy (s := s) (p := []) rfl rfl hlist]
          rfl
        refine ⟨?_, ?_⟩
        · simp only [mergeSection, hagain]
          rfl
        · cases hl : lists s with
          | none => simp only [checkCurrent, hl]
          | some l => simp only [checkCurrent, hl]; rfl
    · simp only [if_neg hne]
      have hagain := (fixedAt policy s [] inc cur hinc hcur hacc).again
      refine ⟨?_, checkCurrent_node hinc hcur hacc hne⟩
      simp only [mergeSection, hagain, hne, decide_false, Bool.and_false, Bool.false_eq_true,
        if_false]

/-- The same payload, merged into the result, is accepted and returns the result itself. -/
theorem merge_again {incoming current out : Items} {ignored : List Str}
    (hincoming : (KeyTree.node incoming : Value).Distinct)
    (hcurrent : (KeyTree.node current : Value).Distinct)
    (h : pfbSyncPolicyMerge policy incoming current = .ok (out, ignored)) :
    pfbSyncPolicyMerge policy incoming out = .ok (out, ignored) := by
  have hvalue := valueOf_merged h
  obtain ⟨skipped, hgather, hr⟩ := merge_eq_ok h
  have hsides : ∀ s : Section, (valueOf s.name incoming).Distinct ∧
      (valueOf s.name current).Distinct ∧
      (valueOf s.name incoming = null ∨ Accepted policy s [] (valueOf s.name incoming)) := by
    intro s
    obtain ⟨found, hfound⟩ := exists_of_gather hgather s (mem_syncSections s)
    exact ⟨items_distinct hincoming s.name, items_distinct hcurrent s.name,
      (checkSection_eq_ok hfound).1⟩
  have hsection : ∀ s : Section,
      mergeSection policy s (valueOf s.name incoming) (valueOf s.name out) =
        mergeSection policy s (valueOf s.name incoming) (valueOf s.name current) ∧
      ∃ r, checkCurrent policy s (valueOf s.name out) = .ok r := by
    intro s
    obtain ⟨hinc, hcur, hacc⟩ := hsides s
    have hv := hvalue s
    cases hm : mergeSection policy s (valueOf s.name incoming) (valueOf s.name current) with
    | none =>
        rw [hm] at hv
        have hnull : valueOf s.name incoming = null := by
          by_contra hne
          simp [mergeSection, hne] at hm
        have hv' : valueOf s.name out = null := hv
        rw [hv', hnull]
        exact ⟨rfl, [], rfl⟩
    | some y =>
        rw [hm] at hv
        have hv' : valueOf s.name out = y.2 := hv
        rw [hv']
        obtain ⟨hagain, hok⟩ := mergeSection_again hinc hcur hacc hm
        exact ⟨hagain, [], hok⟩
  have hgather' : gather (fun s =>
      checkSection policy s (valueOf s.name incoming) (valueOf s.name out))
      (pfblockerngSyncSections true) = .ok skipped := by
    refine gather_eq_of_ok hgather fun s _ found hfound => ?_
    obtain ⟨r, hr⟩ := (hsection s).2
    exact (checkSection_eq_ok hfound).2.2 _ r hr
  rw [pfbSyncPolicyMerge, hgather', hr]
  have hout : ((pfblockerngSyncSections true).filterMap fun s =>
      mergeSection policy s (valueOf s.name incoming) (valueOf s.name out)) =
      (pfblockerngSyncSections true).filterMap fun s =>
        mergeSection policy s (valueOf s.name incoming) (valueOf s.name current) :=
    List.filterMap_congr fun s _ => (hsection s).1
  have hout' := congrArg Prod.fst hr
  dsimp only at hout'
  rw [hout'] at hout
  rw [← hout']
  exact congrArg Except.ok (Prod.ext (by rw [hout']; exact hout) rfl)

/-! ### A receiver that holds the policy -/

/-- `pfb_sync_stored_sections()`: the synced sections that are stored, in their order. -/
def pfbSyncStoredSections (stored : Items) : Items :=
  (pfblockerngSyncSections true).filterMap fun s =>
    if valueOf s.name stored = null then none else some (s.name, valueOf s.name stored)

/-- The full rows of an identity list carry identities, each its own. -/
def Identified (l : IdentityList) (rows : Value) : Prop :=
  (∀ item ∈ fullRows rows.items, ∃ v, idOf l item.2 = some v) ∧ UniqueIds l rows.items

variable {policy} in
theorem identified_of_checkCurrent {s : Section} {l : IdentityList} {items : Items}
    {r : List Str} (hl : lists s = some l)
    (h : checkCurrent policy s (.node items) = .ok r) :
    Identified l (valueOf l.key items) := by
  refine ⟨?_, uniqueIds_of_checkCurrent hl h⟩
  simp only [checkCurrent, hl] at h
  cases hv : valueOf l.key items with
  | leaf a => exact fun item hitem => absurd hitem List.not_mem_nil
  | node rows =>
      rw [hv] at h
      obtain ⟨_, hvalid, _⟩ := (ids_eq_ok_iff policy s l .current [l.key] rows [] r).mp h
      intro item hitem
      obtain ⟨hin, hfull⟩ := List.mem_filter.mp hitem
      have hempty : item.2 ≠ text [] ∧ item.2 ≠ .node [] := by
        constructor <;> intro e <;> rw [e] at hfull <;> exact absurd hfull (by decide)
      obtain ⟨v, hid, _⟩ := hvalid item
        (List.mem_filter.mpr ⟨hin, by simp [hempty.1, hempty.2]⟩)
      exact ⟨v, hid⟩

variable {policy} in
/-- A container whose keys each give back what they hold gives back itself. -/
theorem mergeKeys_kept {s : Section} {p : Path} {items : Items}
    (hnodup : (items.map Prod.fst).Nodup)
    (ih : ∀ item ∈ items, isLocal policy s (p ++ [item.1]) = false → item.2 ≠ null ∧
      node policy s (p ++ [item.1])
        ((withoutIgnored policy s (p ++ [item.1]) item.2).getD null) item.2 = item.2) :
    mergeKeys (fun k => isLocal policy s (p ++ [k])) (fun k => node policy s (p ++ [k]))
      (keptItems policy s p items) items = items := by
  refine mergeKeys_of_settled ⟨fun item hitem hl => ?_, fun item hitem _ hout => ?_⟩
  · dsimp only at hl ⊢
    obtain ⟨hne, hsame⟩ := ih item hitem hl
    rw [valueOf_keptItems policy hnodup, hl, valueOf_eq_of_mem hnodup hitem]
    exact ⟨hsame, hne⟩
  · obtain ⟨_, v, hmem, _⟩ := mem_keptItems.mp hitem
    exact absurd (List.mem_map_of_mem (f := Prod.fst) hmem) hout

variable {policy} in
/-- Identity rows that each give back what they hold give back the list. -/
theorem mergeRows_kept {s : Section} {l : IdentityList} (hl : lists s = some l) {rows : Items}
    (hd : (KeyTree.node rows : Value).Distinct) (hid : Identified l (.node rows))
    (hlocal : ∀ item ∈ rows, isLocal policy s ([l.key] ++ [item.1]) = false)
    (hfull : ∀ item ∈ rows, ∃ x xs, item.2 = .node (x :: xs))
    (ih : ∀ item ∈ rows, node policy s ([l.key] ++ [item.1])
        ((withoutIgnored policy s ([l.key] ++ [item.1]) item.2).getD null) item.2 = item.2) :
    mergeRows l (fun k => isLocal policy s ([l.key] ++ [k]))
      (fun k => node policy s ([l.key] ++ [k]))
      (keptItems policy s [l.key] rows) rows = rows := by
  have hrow : ∀ item ∈ rows, ∃ kept : Items,
      withoutIgnored policy s ([l.key] ++ [item.1]) item.2 = some (.node kept) ∧ kept ≠ [] ∧
        idText l (.node kept) = idText l item.2 ∧ item ∈ fullRows rows := by
    intro item hitem
    obtain ⟨x, xs, hitems⟩ := hfull item hitem
    have hin : item ∈ fullRows rows :=
      List.mem_filter.mpr ⟨hitem, by simp [hitems, isArray]⟩
    obtain ⟨v, hv⟩ := hid.1 item hin
    have hvalue := (idOf_eq_some_iff.mp hv).2
    have hnodup : ((x :: xs).map Prod.fst).Nodup := by
      have := (hd.of_mem hitem).nodup
      rwa [hitems] at this
    have hkeptid : valueOf l.id (keptItems policy s ([l.key] ++ [item.1]) (x :: xs)) = text v := by
      have hidlocal : isLocal policy s ([l.key] ++ [item.1] ++ [l.id]) = false :=
        isLocal_id policy hl item.1
      have hidleaf : container s ([l.key] ++ [item.1] ++ [l.id]) = false := container_id hl item.1
      rw [hitems, KeyTree.items_node] at hvalue
      rw [valueOf_keptItems policy hnodup, hidlocal, hvalue, withoutIgnored_leaf policy hidleaf]
      rfl
    have hne : keptItems policy s ([l.key] ++ [item.1]) (x :: xs) ≠ [] := by
      intro e
      rw [e] at hkeptid
      cases KeyTree.leaf.inj hkeptid
    refine ⟨_, ?_, hne, ?_, hin⟩
    · have hc : container s ([l.key] ++ [item.1]) = true := container_row hl item.1
      rw [hitems, withoutIgnored_node policy hc, if_neg hne]
    · rw [idText, idText, hv, idOf_eq_some_iff.mpr ⟨rfl, hkeptid⟩]
  have hkept : keptItems policy s [l.key] rows = rows.map fun item =>
      (item.1, (withoutIgnored policy s ([l.key] ++ [item.1]) item.2).getD null) := by
    rw [keptItems, ← List.filterMap_eq_map]
    refine List.filterMap_congr fun item hitem => ?_
    obtain ⟨kept, hk, _⟩ := hrow item hitem
    rw [hlocal item hitem, Function.comp_apply, hk]
    rfl
  have htaken : taken (fun k => isLocal policy s ([l.key] ++ [k]))
      (keptItems policy s [l.key] rows) = keptItems policy s [l.key] rows := by
    rw [hkept]
    refine List.filter_eq_self.mpr fun y hy => ?_
    obtain ⟨item, hitem, rfl⟩ := List.mem_map.mp hy
    obtain ⟨kept, hk, hne, _⟩ := hrow item hitem
    simp only [hlocal item hitem, hk]
    simpa [isArray] using hne
  rw [mergeRows_eq_map, htaken, hkept, List.map_map]
  refine (List.map_congr_left fun item hitem => ?_).trans (List.map_id _)
  obtain ⟨kept, hk, _, hidkept, hin⟩ := hrow item hitem
  have hlook := lookup_rowsById_of_mem hid.2 hin
  rw [← hidkept] at hlook
  have hsame := ih item hitem
  rw [hk] at hsame
  simp only [Function.comp_apply, mergeRow, hk, Option.getD_some, KeyTree.items_node] at hlook ⊢
  rw [hlook]
  exact Prod.ext rfl hsame

/-- The identity list at this position, or the one right below the section, is identified. -/
def IdentifiedAt (s : Section) (p : Path) (v : Value) : Prop :=
  (∀ l, listAt s p = some l → Identified l v) ∧
  (p = [] → ∀ l, lists s = some l → Identified l (valueOf l.key v.items))

theorem identifiedAt_child {s : Section} {p : Path} {items : Items}
    (hnodup : (items.map Prod.fst).Nodup) (h : IdentifiedAt s p (.node items))
    {item : Str × Value} (hitem : item ∈ items) : IdentifiedAt s (p ++ [item.1]) item.2 := by
  refine ⟨fun l hl => ?_, fun hp => absurd hp (by simp)⟩
  obtain ⟨hlist, hp⟩ := listAt_eq_some_iff.mp hl
  cases p with
  | nil =>
      have hkey : item.1 = l.key := (List.cons.inj hp).1
      have hvalue := valueOf_eq_of_mem hnodup hitem
      rw [← hvalue, hkey]
      exact h.2 rfl l hlist
  | cons k p => exact absurd (congrArg List.length hp) (by simp)

variable {policy} in
/-- The keys of an identity list that is classified are positions. -/
theorem isLocal_row_of_classified {s : Section} {l : IdentityList} (hl : lists s = some l)
    {rows : Items} (h : Classified policy s [l.key] (.node rows)) {item : Str × Value}
    (hitem : item ∈ rows) : isLocal policy s ([l.key] ++ [item.1]) = false := by
  cases hlocal : isLocal policy s ([l.key] ++ [item.1]) with
  | false => rfl
  | true =>
      have hkeys : projects policy s ([l.key] ++ [item.1]) = false := by
        cases h with
        | leaf hc _ => rw [container_list hl] at hc; cases hc
        | node hkeys _ => exact hkeys item hitem hlocal
      have hpath : settings s = none ∧ pathIsLocal s [l.key, item.1] = false :=
        schema_row hl item.1
      rw [projects, hpath.1] at hkeys
      rw [List.singleton_append, hpath.2] at hkeys
      cases hkeys

/-- Merging what a laid-out position shares into that position gives it back. -/
theorem node_withoutIgnored (s : Section) (p : Path) : ∀ v : Value, v.Distinct → v.Full →
    Laid policy s p v → Classified policy s p v → IdentifiedAt s p v →
    node policy s p ((withoutIgnored policy s p v).getD null) v = v := by
  have hne : ∀ {p : Path} {v : Value}, Laid policy s p v → v ≠ null := by
    rintro p v hlaid rfl
    cases hlaid with
    | leaf _ hv => cases hv
  induction p using path_induction (s := s) with
  | leaf p hc =>
      intro v _ _ hlaid _ _
      cases hlaid with
      | leaf _ hv =>
          obtain ⟨t, rfl⟩ := exists_text_of_isString hv
          rw [node_leaf policy hc, text, withoutIgnored_scalar]
          rfl
      | emptyFeed hc' _ => rw [hc] at hc'; cases hc'
      | node hc' _ _ => rw [hc] at hc'; cases hc'
  | step p hc ih =>
      intro v hd hfull hlaid hclass hid
      cases hlaid with
      | leaf hc' _ => rw [hc] at hc'; cases hc'
      | emptyFeed _ hf =>
          rw [text, withoutIgnored_scalar]
          exact node_emptyFeed policy hc (by rw [emptyFeed, hf]; rfl) _
      | @node _ items _ _ hitems =>
          have hnodup : (items.map Prod.fst).Nodup := hd.nodup
          have hbelow : ∀ item ∈ items, item.2.Full ∧
              (isLocal policy s (p ++ [item.1]) = false →
                Classified policy s (p ++ [item.1]) item.2) := fun item hitem => by
            cases hfull with
            | node _ hall =>
                cases hclass with
                | leaf hc' _ => rw [hc] at hc'; cases hc'
                | node _ hbelow => exact ⟨hall item hitem, hbelow item hitem⟩
          have hchild : ∀ item ∈ items, isLocal policy s (p ++ [item.1]) = false →
              item.2 ≠ null ∧ node policy s (p ++ [item.1])
                ((withoutIgnored policy s (p ++ [item.1]) item.2).getD null) item.2 = item.2 :=
            fun item hitem hl => ⟨hne (hitems item hitem hl),
              ih item.1 item.2 (hd.of_mem hitem) (hbelow item hitem).1 (hitems item hitem hl)
                ((hbelow item hitem).2 hl) (identifiedAt_child hnodup hid hitem)⟩
          have hitemsne : items ≠ [] := by
            cases hfull with | node hne _ => exact hne
          have hkept : ((withoutIgnored policy s p (.node items)).getD null).items =
              keptItems policy s p items := by
            rw [withoutIgnored_node policy hc]
            split
            · rename_i h
              rw [h]
              rfl
            · rfl
          have hf : emptyFeed p ((withoutIgnored policy s p (.node items)).getD null) = false := by
            rw [withoutIgnored_node policy hc]
            split
            · simp [emptyFeed, null, text]
            · rename_i h
              simp [emptyFeed, text, h]
          cases hlist : listAt s p with
          | none =>
              rw [node_keys policy hc hf hlist, hkept, KeyTree.items_node,
                mergeKeys_kept hnodup hchild]
              simp [hitemsne]
          | some l =>
              obtain ⟨hl, rfl⟩ := listAt_eq_some_iff.mp hlist
              have hlocal := fun (item : Str × Value) (hitem : item ∈ items) =>
                isLocal_row_of_classified hl hclass hitem
              have hrows : ∀ item ∈ items, ∃ x xs, item.2 = .node (x :: xs) := by
                intro item hitem
                have hrowc : container s ([l.key] ++ [item.1]) = true := container_row hl item.1
                obtain ⟨xs, hxs, _⟩ := keptLeaves_of_laid_node hrowc
                  (feed_of_length_ne_four (by simp)) (hitems item hitem (hlocal item hitem))
                have hrowfull := (hbelow item hitem).1
                rw [hxs] at hrowfull
                cases hrowfull with
                | node hne _ =>
                    cases xs with
                    | nil => exact absurd rfl hne
                    | cons x xs => exact ⟨x, xs, hxs⟩
              have hsame := mergeRows_kept hl hd (hid.1 l hlist) hlocal hrows
                fun item hitem => (hchild item hitem (hlocal item hitem)).2
              have hkeptne : keptItems policy s [l.key] items ≠ [] := by
                intro e
                rw [e] at hsame
                exact hitemsne hsame.symm
              rw [node_rows policy hc hf hlist, hkept, KeyTree.items_node, hsame,
                withoutIgnored_node policy hc, if_neg hkeptne]
              exact if_neg (node_ne_null _)

variable {policy} in
theorem check_withoutIgnored {s : Section} (p : Path) (v t : Value)
    (h : withoutIgnored policy s p v = some t) :
    ∀ skipped : List Str, check policy s p t = .ok skipped → skipped = [] := by
  have hok : ∀ {b : Bool} {e : Str} {skipped : List Str},
      (if b then Except.ok [] else .error e) = .ok skipped → skipped = [] := by
    intro b e skipped h
    split at h
    · exact (Except.ok.inj h).symm
    · cases h
  refine withoutIgnored_induction
    (P := fun p _ t => ∀ skipped, check policy s p t = .ok skipped → skipped = []) ?_ ?_ ?_ p v t h
  · intro p v hc _ skipped h
    rw [check_leaf policy hc] at h
    exact hok h
  · intro p a hc _ skipped h
    rw [check_scalar policy hc] at h
    exact hok h
  · intro p items hc _ ih skipped h
    rw [check_node policy hc] at h
    cases hg : gather (fun item : Str × Value =>
        if isLocal policy s (p ++ [item.1]) then .ok (collect s (p ++ [item.1]) item.2)
        else check policy s (p ++ [item.1]) item.2) (keptItems policy s p items) with
    | error e => rw [hg] at h; cases h
    | ok found =>
        have hfound : found = [] := gather_eq_nil hg fun item hitem found' hfound' => by
          obtain ⟨hl, -, -, hnone⟩ := ih item hitem
          rw [hl] at hfound'
          exact hnone found' hfound'
        rw [hg] at h
        cases hh : checkHeader s p (keptItems policy s p items) with
        | error e => rw [hh] at h; cases h
        | ok r =>
            rw [hh] at h
            cases hi : checkIds policy s p (keptItems policy s p items) with
            | error e => rw [hi] at h; cases h
            | ok r' =>
                rw [hi] at h
                exact (Except.ok.inj h).symm.trans hfound

variable {policy} in
theorem valueOf_ignoredRemoved (sections : Items) (s : Section) :
    valueOf s.name (ignoredRemoved policy sections) =
      if keptItems policy s [] (valueOf s.name sections).items = [] then null
      else .node (keptItems policy s [] (valueOf s.name sections).items) := by
  rw [ignoredRemoved, valueOf_sections ignoredRemoved_fst (mem_syncSections s)]
  dsimp only
  split <;> rfl

variable {policy} in
/-- A section of a laid-out receiver that holds the policy stays as it is. -/
theorem mergeSection_kept {s : Section} {cur : Value} {r : List Str} (hd : cur.Distinct)
    (hfull : isArray cur = true → cur.Full)
    (hshape : isArray cur = true → Laid policy s [] cur ∧ Classified policy s [] cur)
    (hok : checkCurrent policy s cur = .ok r) :
    mergeSection policy s (if keptItems policy s [] cur.items = [] then null
      else .node (keptItems policy s [] cur.items)) cur =
      if cur = null then none else some (s.name, cur) := by
  cases cur with
  | leaf a =>
      have hlist : listAt s [] = none := listAt_of_length_ne_one s (by decide)
      have hnode : node policy s [] null (.leaf a) = null := by
        rw [node_keys policy (s := s) (p := []) rfl rfl hlist]
        rfl
      have ha : a = .null ∨ a = .str [] := by
        simp only [checkCurrent] at hok
        split at hok
        · rename_i h
          simpa using h
        · cases hok
      have hkept : keptItems policy s [] (KeyTree.leaf a : Value).items = [] := rfl
      rw [hkept, if_pos rfl, mergeSection]
      simp only [hnode]
      rcases ha with rfl | rfl <;> rfl
  | node items =>
      obtain ⟨hlaid, hclass⟩ := hshape rfl
      have hid : IdentifiedAt s [] (.node items) := by
        refine ⟨fun l hl => ?_, fun _ l hl => identified_of_checkCurrent hl hok⟩
        rw [listAt_of_length_ne_one s (by decide)] at hl
        cases hl
      have hsame := node_withoutIgnored policy s [] (.node items) hd (hfull rfl) hlaid hclass hid
      have hiv : (withoutIgnored policy s [] (.node items)).getD null =
          if keptItems policy s [] items = [] then null
          else .node (keptItems policy s [] items) := by
        rw [withoutIgnored_node policy rfl]
        split <;> rfl
      have hnull : (KeyTree.node items : Value) ≠ null := node_ne_null _
      rw [KeyTree.items_node, ← hiv, mergeSection]
      simp only [hsame, hnull, decide_false, Bool.and_false, Bool.false_eq_true, if_false]

/-- The tests of a section's shape. -/
def isShaped (s : Section) (v : Value) : Bool :=
  decide v.Distinct && (!isArray v || (everyPosition policy s (laidAt s) [] v &&
    everyPosition policy s (classifiedAt policy s) [] v))

variable {policy} in
theorem shapedSections_of_isShaped {sections : Items}
    (h : ∀ s ∈ pfblockerngSyncSections true, isShaped policy s (valueOf s.name sections) = true) :
    ShapedSections policy sections := by
  intro s
  obtain ⟨hdistinct, hshape⟩ := Bool.and_eq_true_iff.mp (h s (mem_syncSections s))
  refine ⟨of_decide_eq_true hdistinct, fun harray => ?_⟩
  rw [harray, Bool.not_true, Bool.false_or, Bool.and_eq_true] at hshape
  exact ⟨laid_of_everyPosition hshape.1, classified_of_everyPosition hshape.2⟩

/-- A receiver that already holds the policy is returned as it is, with nothing ignored. -/
theorem merge_policyTree {current : Items} {r : Items × List Str}
    (horder : pfbSyncStoredSections current = current)
    (hshape : ShapedSections policy current)
    (hfull : ∀ s : Section, isArray (valueOf s.name current) = true →
      (valueOf s.name current).Full)
    (h : pfbSyncPolicyMerge policy (rebuilt (pfbSyncPolicyProjection policy current)) current =
      .ok r) : r = (current, []) := by
  rw [hshape.rebuilt_eq] at h
  obtain ⟨skipped, hgather, rfl⟩ := merge_eq_ok h
  have hsections : ((pfblockerngSyncSections true).filterMap fun s =>
      mergeSection policy s (valueOf s.name (ignoredRemoved policy current))
        (valueOf s.name current)) = current := by
    conv_rhs => rw [← horder]
    refine List.filterMap_congr fun s _ => ?_
    obtain ⟨found, hfound⟩ := exists_of_gather hgather s (mem_syncSections s)
    obtain ⟨r, hr⟩ := (checkSection_eq_ok hfound).2.1
    rw [valueOf_ignoredRemoved]
    exact mergeSection_kept (hshape s).1 (hfull s) (hshape s).2 hr
  have hskipped : skipped = [] := by
    refine gather_eq_nil hgather fun s _ found hfound => ?_
    have hcheck := checkIncoming_of_checkSection hfound
    rw [checkIncoming, valueOf_ignoredRemoved] at hcheck
    by_cases hkept : keptItems policy s [] (valueOf s.name current).items = []
    · rw [if_pos hkept, if_pos rfl] at hcheck
      exact (Except.ok.inj hcheck).symm
    · rw [if_neg hkept, if_neg (node_ne_null _)] at hcheck
      exact check_withoutIgnored [] (.node (valueOf s.name current).items) _
        (by rw [withoutIgnored_node policy rfl, if_neg hkept]) found hcheck
  rw [hsections, hskipped]
  rfl

/-- Merging an accepted payload again returns the result itself, with the same ignored paths; and
a node whose sections are laid out by the schema, its policy keys named as the schema asks, is
returned as it is by the merge of its own policy tree. -/
theorem receive_is_fixed_point :
    (∀ (incoming current out : Items) (ignored : List Str),
      (KeyTree.node incoming : Value).Distinct → (KeyTree.node current : Value).Distinct →
      pfbSyncPolicyMerge policy incoming current = .ok (out, ignored) →
      pfbSyncPolicyMerge policy incoming out = .ok (out, ignored)) ∧
    ∀ (current : Items) (r : Items × List Str), pfbSyncStoredSections current = current →
      ShapedSections policy current →
      (∀ s : Section, isArray (valueOf s.name current) = true →
        (valueOf s.name current).Full) →
      pfbSyncPolicyMerge policy (rebuilt (pfbSyncPolicyProjection policy current)) current =
        .ok r → r = (current, []) :=
  ⟨fun _ _ _ _ hincoming hcurrent h => merge_again policy hincoming hcurrent h,
    fun _ _ horder hshape hfull h => merge_policyTree policy horder hshape hfull h⟩

/-! ### A sender and a receiver -/

def enable : Str := "safesearch_enable".toList
def on : Str := "on".toList
def kSrcint : Str := "srcint".toList
def kOne : Str := "1".toList

/-- A key that is no lower-case element name. -/
def upperKey : Str := "Foo".toList

/-- The shared key of the General settings below. -/
def sharedKeys (a : SectionAlias) (k : Str) : Bool := a = .gen && k = "enable_cb".toList

/-- General settings, `enable_cb` shared and the other key the node's own. -/
def general (enabled logged : Str) : Str × Value :=
  (Section.pfblockerng.name, .node [(kConfig, .node [(kZero, .node
    [("enable_cb".toList, text enabled), ("log_max_log".toList, text logged)])])])

def feedRow (url : Str) : Value := .node [("url".toList, text url)]

def group (name : Str) (keys rows : Items) : Value :=
  .node ((kAliasname, text name) :: keys ++ [(kRow, .node rows)])

/-- The IPv4 groups of a node at their list positions. -/
def groups (rows : Items) : Str × Value :=
  (Section.pfblockernglistsv4.name, .node [(kConfig, .node rows)])

def safesearch (keys : Items) : Str × Value := (Section.pfblockerngsafesearch.name, .node keys)

/-- Two groups out of order, one with gaps and an empty row among its feeds, an interface of the
sender's own, and a key that cannot be classified. -/
def senderNode : Items :=
  [general on "5000".toList,
    groups [("2".toList, group "ads".toList [(kSrcint, text "wan".toList)]
        [(kZero, feedRow "a".toList), ("3".toList, text []), ("5".toList, feedRow "b".toList)]),
      (kZero, group "spam".toList [] [(kOne, feedRow "c".toList)])],
    safesearch [(enable, text on), (upperKey, text on)]]

/-- One of the groups with an interface of the receiver's own, and one that the sender has not. -/
def receiverNode : Items :=
  [general [] "200".toList,
    groups
      [(kZero, group "spam".toList [(kSrcint, text "lan".toList)] [(kOne, feedRow "d".toList)]),
      (kOne, group "old".toList [] [(kZero, feedRow "e".toList)])]]

def receivedNode : Items :=
  [general on "200".toList,
    groups [("2".toList, .node ((kAliasname, text "ads".toList) :: (kRow, .node
        [(kZero, feedRow "a".toList), ("3".toList, text []), ("5".toList, feedRow "b".toList)]) ::
          ipRow)),
      (kZero, group "spam".toList [(kSrcint, text "lan".toList)] [(kOne, feedRow "c".toList)])],
    safesearch [(enable, text on)]]

def ignoredOfSender : List Str :=
  ["installedpackages/pfblockerng/config/0/log_max_log".toList,
    "installedpackages/pfblockernglistsv4/config/2/srcint".toList,
    "installedpackages/pfblockerngsafesearch/*".toList]

theorem merge_senderNode :
    pfbSyncPolicyMerge sharedKeys senderNode receiverNode =
      .ok (receivedNode, ignoredOfSender) := by
  decide +kernel

theorem distinct_senderNode : (KeyTree.node senderNode : Value).Distinct := by decide +kernel

theorem distinct_receiverNode : (KeyTree.node receiverNode : Value).Distinct := by decide +kernel

theorem shaped_receivedNode : ShapedSections sharedKeys receivedNode :=
  shapedSections_of_isShaped (by decide +kernel)

theorem receive_is_fixed_point_receivedNode :
    pfbSyncPolicyMerge sharedKeys senderNode receiverNode = .ok (receivedNode, ignoredOfSender) ∧
    pfbSyncPolicyMerge sharedKeys senderNode receivedNode = .ok (receivedNode, ignoredOfSender) ∧
    ∃ r, pfbSyncPolicyMerge sharedKeys
        (rebuilt (pfbSyncPolicyProjection sharedKeys receivedNode)) receivedNode = .ok r ∧
      r = (receivedNode, []) := by
  have hfixed := receive_is_fixed_point sharedKeys
  have hfull : ∀ s ∈ pfblockerngSyncSections true,
      (isArray (valueOf s.name receivedNode) = true → (valueOf s.name receivedNode).Full) := by
    decide +kernel
  have hown : pfbSyncPolicyMerge sharedKeys
      (rebuilt (pfbSyncPolicyProjection sharedKeys receivedNode)) receivedNode =
      .ok (receivedNode, []) := by
    decide +kernel
  exact ⟨merge_senderNode, hfixed.1 _ _ _ _ distinct_senderNode distinct_receiverNode
      merge_senderNode, _, hown, hfixed.2 receivedNode _ (by decide +kernel) shaped_receivedNode
      (fun s => hfull s (mem_syncSections s)) hown⟩

def unclassifiedNode : Items := [safesearch [(upperKey, text on)]]

/-- A stored key that is no lower-case element name is in the policy tree, and the receiver that
holds it reports it as ignored. -/
theorem upper_case_key_is_reported :
    (KeyTree.node unclassifiedNode : Value).Full ∧
    (∀ e ∈ (KeyTree.node unclassifiedNode : Value).leaves, isString e.2 = true) ∧
    pfbSyncPolicyMerge sharedKeys
      (rebuilt (pfbSyncPolicyProjection sharedKeys unclassifiedNode)) unclassifiedNode =
    .ok (unclassifiedNode, ["installedpackages/pfblockerngsafesearch/*".toList]) := by
  refine ⟨by decide +kernel, fun e he => ?_, by decide +kernel⟩
  rw [List.mem_singleton.mp he]
  rfl

end PfBlockerNG.SyncFixedPoint
