import PfBlockerNG.SyncFixedPoint

/-!
After a merge the receiver's policy digest is the one of the payload without what the merge
ignored of it.
-/

namespace PfBlockerNG.SyncAgreement

open Strings OrderedDict KeyedTree SyncSchema SyncMerge SyncProjection SyncFixedPoint
open ConfigRegistry (SectionAlias isDigits)

variable {policy : SectionAlias → Str → Bool}

/-- The form of a value that its digest sees. -/
abbrev canon (v : Value) : Value := v.canonical isIntKey (Nat.toDigits 10)

/-! ### Payloads without what is ignored -/

theorem keptItems_kept {s : Section} {p : Path} {items : Items}
    (h : ∀ y ∈ keptItems policy s p items, withoutIgnored policy s (p ++ [y.1]) y.2 = some y.2) :
    keptItems policy s p (keptItems policy s p items) = keptItems policy s p items := by
  rw [keptItems]
  refine filterMap_eq_self fun y hy => ?_
  rw [(mem_keptItems.mp hy).1, if_neg Bool.false_ne_true, h y hy]
  rfl

theorem withoutIgnored_again {s : Section} (p : Path) (v t : Value)
    (h : withoutIgnored policy s p v = some t) : withoutIgnored policy s p t = some t := by
  refine withoutIgnored_induction (P := fun p _ t => withoutIgnored policy s p t = some t)
    ?_ ?_ ?_ p v t h
  · intro p v hc hne
    rw [withoutIgnored_leaf policy hc, if_neg hne]
  · intro p a _ hne
    rw [withoutIgnored_scalar, if_neg hne]
  · intro p items hc hne ih
    have hkept := keptItems_kept fun y hy => by
      obtain ⟨-, _, -, hy⟩ := ih y hy
      exact hy
    rw [withoutIgnored_node policy hc, hkept, if_neg hne]

theorem laid_withoutIgnored {s : Section} (p : Path) (v t : Value)
    (h : withoutIgnored policy s p v = some t) : Laid policy s p v → Laid policy s p t := by
  refine withoutIgnored_induction (P := fun p v t => Laid policy s p v → Laid policy s p t)
    ?_ ?_ ?_ p v t h
  · exact fun _ _ _ _ => id
  · exact fun _ _ _ _ => id
  · intro p items hc hne ih hlaid
    refine .node hc (fun _ _ => hne) fun y hy hl => ?_
    obtain ⟨-, v, hmem, hv⟩ := ih y hy
    cases hlaid with
    | leaf hc' _ => rw [hc] at hc'; cases hc'
    | node _ _ hitems => exact hv (hitems _ hmem hl)

theorem classified_withoutIgnored {s : Section} (p : Path) (v t : Value)
    (h : withoutIgnored policy s p v = some t) : Classified policy s p t := by
  refine withoutIgnored_induction (P := fun p _ t => Classified policy s p t) ?_ ?_ ?_ p v t h
  · exact fun p v hc _ => .leaf hc v
  · exact fun p a _ _ => .scalar p a
  · intro p items _ _ ih
    refine .node (fun y hy hl => ?_) fun y hy _ => ?_
    · rw [(ih y hy).1] at hl
      cases hl
    · obtain ⟨-, v, -, hv⟩ := ih y hy
      exact hv

/-! ### The shape of a result -/

theorem distinct_mergeKeys {islocal : Str → Bool} {merge : Str → Value → Value → Value}
    {inn cur : Items} (hinn : (KeyTree.node inn : Value).Distinct)
    (hcur : (KeyTree.node cur : Value).Distinct)
    (hmerge : ∀ k v w, v.Distinct → w.Distinct → (merge k v w).Distinct) :
    (KeyTree.node (mergeKeys islocal merge inn cur) : Value).Distinct := by
  refine .node (nodup_mergeKeys hinn.nodup hcur.nodup) fun item hitem => ?_
  rcases List.mem_append.mp hitem with hitem | hitem
  · obtain ⟨x, hx, hkeep⟩ := List.mem_filterMap.mp hitem
    split at hkeep
    · exact Option.some.inj hkeep ▸ hcur.of_mem hx
    · rw [(keep_eq_some hkeep).1]
      exact hmerge _ _ _ (items_distinct hinn x.1) (hcur.of_mem hx)
  · obtain ⟨x, hx, hkeep⟩ := List.mem_filterMap.mp hitem
    split at hkeep
    · cases hkeep
    · rw [(keep_eq_some hkeep).1]
      exact hmerge _ _ _ (hinn.of_mem hx) (.leaf _)

theorem distinct_withDefaults {s : Section} {l : IdentityList} (hl : lists s = some l)
    {new : Value} (hnew : new.Distinct) : (withDefaults new l.defaults).Distinct := by
  have hdefaults : ∀ f ∈ l.defaults, f.2.Distinct := by
    intro f hf
    cases s <;> simp only [lists, reduceCtorEq, Option.some.injEq] at hl <;> subst hl <;>
      simp only [ipRow, List.take, List.mem_cons, List.not_mem_nil, or_false] at hf
    all_goals rcases hf with rfl | rfl | rfl | rfl | rfl <;> exact .leaf _
  refine .node ?_ fun item hitem => ?_
  · rw [List.map_append]
    refine List.nodup_append.mpr ⟨hnew.nodup,
      (List.filter_sublist.map _).nodup (nodup_defaults hl), ?_⟩
    rintro k hk k' hk' rfl
    obtain ⟨f, hf, rfl⟩ := List.mem_map.mp hk'
    have hout := (List.mem_filter.mp hf).2
    rw [List.contains_iff_mem.mpr hk] at hout
    cases hout
  · rcases List.mem_append.mp hitem with hitem | hitem
    · exact hnew.of_mem hitem
    · exact hdefaults item (List.mem_filter.mp hitem).1

theorem distinct_node (s : Section) (p : Path) : ∀ iv cv : Value, iv.Distinct → cv.Distinct →
    (node policy s p iv cv).Distinct := by
  induction p using path_induction (s := s) with
  | leaf p hc =>
      intro iv cv hiv _
      rw [node_leaf policy hc, mergeLeaf]
      split
      · exact .leaf _
      · exact hiv
  | step p hc ih =>
      intro iv cv hiv hcv
      cases hf : emptyFeed p iv with
      | true =>
          rw [node_emptyFeed policy hc hf]
          exact .leaf _
      | false =>
          cases hlist : listAt s p with
          | none =>
              rw [node_keys policy hc hf hlist]
              dsimp only
              split
              · exact .leaf _
              · exact distinct_mergeKeys (distinct_items hiv) (distinct_items hcv) ih
          | some l =>
              obtain ⟨hl, rfl⟩ := listAt_eq_some_iff.mp hlist
              rw [node_rows policy hc hf hlist]
              split
              · exact .leaf _
              · rw [mergeRows_eq_map]
                refine .node ?_ fun row hrow => ?_
                · rw [List.map_map]
                  have hkeys : Prod.fst ∘ mergeRow l
                      (fun k => node policy s ([l.key] ++ [k])) cv.items = Prod.fst :=
                    funext (mergeRow_fst l _ _)
                  rw [hkeys]
                  exact (List.filter_sublist.map _).nodup hiv.nodup
                · obtain ⟨item, hitem, rfl⟩ := List.mem_map.mp hrow
                  have hrowd := hiv.of_mem (mem_of_taken hitem).1
                  cases hlook : lookup (idText l item.2) (rowsById l cv.items) with
                  | some old =>
                      obtain ⟨x, hx, rfl, _⟩ := exists_of_lookup_rowsById hlook
                      simp only [mergeRow, hlook]
                      exact ih _ _ _ hrowd (hcv.of_mem (List.mem_filter.mp hx).1)
                  | none =>
                      simp only [mergeRow, hlook]
                      exact distinct_withDefaults hl (ih _ _ _ hrowd (.leaf _))

variable (policy) in
mutual

/-- The value holds a key of the receiver's own, outside the identity lists. -/
def hasLocal (s : Section) (p : Path) : Value → Bool
  | .leaf _ => false
  | .node items => container s p && (listAt s p).isNone && hasLocalKey s p items

def hasLocalKey (s : Section) (p : Path) : Items → Bool
  | [] => false
  | (k, v) :: items =>
      isLocal policy s (p ++ [k]) || hasLocal s (p ++ [k]) v || hasLocalKey s p items

end

/-- The keys shared with the receiver in its order, then the others. -/
def receiverFirst (cur inn : List Str) : List Str :=
  cur.filter (fun k => inn.contains k) ++ inn.filter fun k => !cur.contains k

variable (policy) in
/-- A payload that the receiver's own keys neither reorder nor add policy to. A list numbered by
position starts with the rows it shares with the receiver's, in the receiver's order; a container
with nothing but ignored keys, which the merge keeps, holds a key of the receiver's own; and the
receiver's ignored keys are none that the projection takes. Identity rows are compared with the
receiver's row of their identity. -/
inductive Fits (s : Section) : Path → Value → Value → Prop
  | leaf {p : Path} (hc : container s p = false) (iv cv : Value) : Fits s p iv cv
  | emptyFeed {p : Path} (hf : feed p = true) (cv : Value) : Fits s p (text []) cv
  | noRows {p : Path} {l : IdentityList} (hlist : listAt s p = some l) (cv : Value) :
      Fits s p null cv
  | rows {p : Path} {inn : Items} {cv : Value} {l : IdentityList} (hlist : listAt s p = some l)
      (hsome : ∃ item ∈ inn, isLocal policy s (p ++ [item.1]) = false)
      (hbelow : ∀ item ∈ inn, isLocal policy s (p ++ [item.1]) = false →
        Fits s (p ++ [item.1]) item.2
          ((lookup (idText l item.2) (rowsById l cv.items)).getD null)) : Fits s p (.node inn) cv
  | keys {p : Path} {iv cv : Value} (hlist : listAt s p = none)
      (horder : ((keptItems policy s p iv.items).all fun item => isIntKey item.1) = true →
        receiverFirst (cv.items.map Prod.fst) ((keptItems policy s p iv.items).map Prod.fst) =
          (keptItems policy s p iv.items).map Prod.fst)
      (hheld : settings s = none → p ≠ [] → iv ≠ null →
        (∀ item ∈ iv.items, isLocal policy s (p ++ [item.1]) = true) →
          hasLocal policy s p cv = true)
      (hnamed : ∀ item ∈ cv.items, isLocal policy s (p ++ [item.1]) = true →
        projects policy s (p ++ [item.1]) = false)
      (hbelow : ∀ k ∈ iv.items.map Prod.fst ++ cv.items.map Prod.fst,
        isLocal policy s (p ++ [k]) = false →
          Fits s (p ++ [k]) (valueOf k iv.items) (valueOf k cv.items)) : Fits s p iv cv

theorem laid_append {s : Section} {p : Path} {items extra : Items}
    (h : Laid policy s p (.node items))
    (hextra : ∀ item ∈ extra, isLocal policy s (p ++ [item.1]) = true) :
    Laid policy s p (.node (items ++ extra)) := by
  cases h with
  | leaf _ hv => cases hv
  | node hc hne hitems =>
      refine .node hc (fun hs hp e => hne hs hp (List.append_eq_nil_iff.mp e).1)
        fun item hitem hl => ?_
      rcases List.mem_append.mp hitem with hitem | hitem
      · exact hitems item hitem hl
      · rw [hextra item hitem] at hl
        cases hl

theorem laid_withDefaults {s : Section} {l : IdentityList} (hl : lists s = some l) {k : Str}
    {new : Value} (h : Laid policy s ([l.key] ++ [k]) new) :
    Laid policy s ([l.key] ++ [k]) (withDefaults new l.defaults) := by
  have hc : container s ([l.key] ++ [k]) = true := container_row hl k
  obtain ⟨xs, rfl, _⟩ := keptLeaves_of_laid_node hc (feed_of_length_ne_four (by simp)) h
  exact laid_append h fun f hf => isLocal_default policy hl k (List.mem_filter.mp hf).1

theorem valueOf_node {s : Section} {p : Path} {iv cv : Value} (hiv : iv.Distinct)
    (hcv : cv.Distinct) (k : Str) (hl : isLocal policy s (p ++ [k]) = false) :
    valueOf k (mergeKeys (fun k => isLocal policy s (p ++ [k]))
      (fun k => node policy s (p ++ [k])) iv.items cv.items) =
      node policy s (p ++ [k]) (valueOf k iv.items) (valueOf k cv.items) := by
  rw [valueOf_mergeKeys hiv.nodup hcv.nodup fun k => node_null_null policy s _, hl]
  rfl

variable (policy) in
/-- A part of an accepted payload that is laid out by the schema. -/
structure Sound (s : Section) (p : Path) (iv : Value) : Prop where
  accepted : Accepted policy s p iv
  laid : Laid policy s p iv

theorem Sound.of_mem {s : Section} {p : Path} {iv : Value} (hc : container s p = true)
    (h : Sound policy s p iv) {item : Str × Value} (hitem : item ∈ iv.items)
    (hl : isLocal policy s (p ++ [item.1]) = false) :
    Sound policy s (p ++ [item.1]) item.2 := by
  cases iv with
  | leaf a => cases hitem
  | node items =>
      have hlaid : Laid policy s (p ++ [item.1]) item.2 := by
        cases h.laid with
        | leaf hc' _ => rw [hc] at hc'; cases hc'
        | node _ _ hitems => exact hitems item hitem hl
      exact ⟨(accepted_node hc h.accepted).1 item hitem hl, hlaid⟩

theorem Sound.ne_null {s : Section} {p : Path} {iv : Value} (h : Sound policy s p iv) :
    iv ≠ null := by
  rintro rfl
  cases h.laid with
  | leaf _ hv => cases hv

/-- Under a key of an absent or sound value stands an absent or sound one. -/
theorem sound_valueOf {s : Section} {p : Path} {iv : Value} (hc : container s p = true)
    (hiv : iv.Distinct) (h : iv = null ∨ Sound policy s p iv) {k : Str}
    (hl : isLocal policy s (p ++ [k]) = false) :
    valueOf k iv.items = null ∨ Sound policy s (p ++ [k]) (valueOf k iv.items) := by
  by_cases hv : valueOf k iv.items = null
  · exact Or.inl hv
  · have hmem := mem_of_valueOf_ne_null hiv.nodup hv
    rcases h with rfl | h
    · cases hmem
    · exact Or.inr (h.of_mem hc hmem hl)

/-- A row of a laid-out identity list is an array with content. -/
theorem row_of_laid {s : Section} {l : IdentityList} (hl : lists s = some l) {inn : Items}
    (hlaid : Laid policy s [l.key] (.node inn)) {item : Str × Value} (hitem : item ∈ inn)
    (hlocal : isLocal policy s ([l.key] ++ [item.1]) = false) :
    item ∈ taken (fun k => isLocal policy s ([l.key] ++ [k])) inn := by
  have hc := container_list hl
  have hrowc : container s ([l.key] ++ [item.1]) = true := container_row hl item.1
  cases hlaid with
  | leaf hc' _ => rw [hc] at hc'; cases hc'
  | node _ _ hitems =>
      have hrow := hitems item hitem hlocal
      obtain ⟨xs, hxs, _⟩ :=
        keptLeaves_of_laid_node hrowc (feed_of_length_ne_four (by simp)) hrow
      have hne : xs ≠ [] := by
        rw [hxs] at hrow
        cases hrow with
        | leaf _ hv => cases hv
        | node _ hne _ => exact hne (schema_row hl item.1).1 (by simp)
      refine List.mem_filter.mpr ⟨hitem, ?_⟩
      dsimp only
      rw [hlocal, hxs]
      simp [isArray, hne]

theorem hasLocalKey_iff {s : Section} {p : Path} {items : Items} :
    hasLocalKey policy s p items = true ↔ ∃ item ∈ items,
      isLocal policy s (p ++ [item.1]) = true ∨
        hasLocal policy s (p ++ [item.1]) item.2 = true := by
  induction items with
  | nil => simp [hasLocalKey]
  | cons item items ih =>
      rw [hasLocalKey, Bool.or_eq_true, Bool.or_eq_true, ih, List.exists_mem_cons_iff]

/-- What has a key of the receiver's own stays, when the payload has nothing there. -/
theorem mergeKeys_null_ne_nil {s : Section} (cv : Value) : ∀ p : Path,
    hasLocal policy s p cv = true →
      mergeKeys (fun k => isLocal policy s (p ++ [k])) (fun k => node policy s (p ++ [k])) []
        cv.items ≠ [] := by
  induction cv using KeyTree.inductionTree with
  | hleaf a => intro p h; cases h
  | hnode items ih =>
      intro p h e
      rw [hasLocal, Bool.and_eq_true, hasLocalKey_iff] at h
      obtain ⟨_, item, hitem, hown⟩ := h
      have hout := List.filterMap_eq_nil_iff.mp (List.append_eq_nil_iff.mp e).1 item hitem
      cases hl : isLocal policy s (p ++ [item.1]) with
      | true => rw [if_pos hl] at hout; cases hout
      | false =>
          have hbelow := hown.resolve_left (by rw [hl]; exact Bool.false_ne_true)
          have hplace : container s (p ++ [item.1]) = true ∧ listAt s (p ++ [item.1]) = none := by
            cases hv : item.2 with
            | leaf a => rw [hv] at hbelow; cases hbelow
            | node below =>
                rw [hv, hasLocal, Bool.and_eq_true, Bool.and_eq_true, Option.isNone_iff_eq_none]
                  at hbelow
                exact hbelow.1
          have hmerged := ih item hitem (p ++ [item.1]) hbelow
          have hf : emptyFeed (p ++ [item.1]) null = false := by simp [emptyFeed, null, text]
          have hnode : node policy s (p ++ [item.1]) null item.2 ≠ null := by
            rw [node_keys policy hplace.1 hf hplace.2]
            intro hnull
            dsimp only at hnull
            split at hnull
            · rename_i h
              exact hmerged (of_decide_eq_true (Bool.and_eq_true_iff.mp h).1)
            · exact SyncSchema.node_ne_null _ hnull
          have hkept : keep item.1 (node policy s (p ++ [item.1]) null item.2) = none := by
            dsimp only at hout
            rwa [if_neg (by rw [hl]; exact Bool.false_ne_true)] at hout
          rw [keep, if_neg hnode] at hkept
          cases hkept

/-- Ignored keys have no part in a merge. -/
theorem mergeKeys_ignored {islocal : Str → Bool} {merge : Str → Value → Value → Value}
    {inn : Items} (h : ∀ item ∈ inn, islocal item.1 = true) (cur : Items) :
    mergeKeys islocal merge inn cur = mergeKeys islocal merge [] cur := by
  refine congrArg₂ (· ++ ·) (List.filterMap_congr fun item _ => ?_) ?_
  · cases hl : islocal item.1 with
    | true => rw [if_pos rfl, if_pos rfl]
    | false =>
        have hout : item.1 ∉ inn.map Prod.fst := by
          intro hin
          obtain ⟨x, hx, hkey⟩ := List.mem_map.mp hin
          rw [← hkey, h x hx] at hl
          cases hl
        rw [valueOf_of_not_mem hout]
        rfl
  · refine List.filterMap_eq_nil_iff.mpr fun item hitem => ?_
    rw [h item hitem, Bool.or_true, if_pos rfl]

/-- The keys of a merged deny-list container are not empty. -/
theorem mergeKeys_ne_nil {s : Section} {p : Path} {iv cv : Value} (hiv : iv.Distinct)
    (hcv : cv.Distinct) (hheld : (∀ item ∈ iv.items, isLocal policy s (p ++ [item.1]) = true) →
      hasLocal policy s p cv = true)
    (hvalues : ∀ item ∈ iv.items, isLocal policy s (p ++ [item.1]) = false → item.2 ≠ null) :
    mergeKeys (fun k => isLocal policy s (p ++ [k])) (fun k => node policy s (p ++ [k]))
      iv.items cv.items ≠ [] := by
  by_cases hall : ∀ item ∈ iv.items, isLocal policy s (p ++ [item.1]) = true
  · rw [@mergeKeys_ignored (fun k => isLocal policy s (p ++ [k])) _ _ hall]
    exact mergeKeys_null_ne_nil cv p (hheld hall)
  · push Not at hall
    obtain ⟨item, hitem, hl⟩ := hall
    have hl' := Bool.eq_false_of_not_eq_true hl
    intro e
    have hvalue := valueOf_node hiv hcv item.1 hl'
    rw [e, valueOf_eq_of_mem hiv.nodup hitem] at hvalue
    exact node_ne_null policy (hvalues item hitem hl') _ _ hvalue.symm

theorem mem_keys_of_mem_mergeKeys {islocal : Str → Bool} {merge : Str → Value → Value → Value}
    {inn cur : Items} {item : Str × Value} (h : item ∈ mergeKeys islocal merge inn cur) :
    item.1 ∈ inn.map Prod.fst ++ cur.map Prod.fst := by
  rcases List.mem_append.mp h with h | h
  · obtain ⟨x, hx, hkeep⟩ := List.mem_filterMap.mp h
    rw [mergeKeys_fst x item hkeep]
    exact List.mem_append_right _ (List.mem_map_of_mem hx)
  · obtain ⟨x, hx, hkeep⟩ := List.mem_filterMap.mp h
    rw [mergeKeys_snd x item hkeep]
    exact List.mem_append_left _ (List.mem_map_of_mem hx)

/-- Under a kept key stands the merge of what the payload and the receiver have there. -/
theorem snd_of_mem_mergeKeys {s : Section} {p : Path} {iv cv : Value} (hiv : iv.Distinct)
    (hcv : cv.Distinct) {item : Str × Value}
    (hitem : item ∈ mergeKeys (fun k => isLocal policy s (p ++ [k]))
      (fun k => node policy s (p ++ [k])) iv.items cv.items)
    (hl : isLocal policy s (p ++ [item.1]) = false) :
    item.2 = node policy s (p ++ [item.1]) (valueOf item.1 iv.items) (valueOf item.1 cv.items) := by
  have hd : (KeyTree.node (mergeKeys (fun k => isLocal policy s (p ++ [k]))
      (fun k => node policy s (p ++ [k])) iv.items cv.items) : Value).Distinct :=
    distinct_mergeKeys (distinct_items hiv) (distinct_items hcv) fun k => distinct_node s (p ++ [k])
  rw [← valueOf_node hiv hcv item.1 hl, valueOf_eq_of_mem hd.nodup_keys hitem]

/-- A row of the result is merged with the receiver's row of its identity; where there is none, it
gets the defaults. -/
theorem snd_mergeRow (l : IdentityList) {merge : Str → Value → Value → Value} {cv : Value}
    (hcv : cv.Distinct) (item : Str × Value) :
    ∃ old : Value, old.Distinct ∧ old = (lookup (idText l item.2) (rowsById l cv.items)).getD null ∧
      ((mergeRow l merge cv.items item).2 = merge item.1 item.2 old ∨
        (mergeRow l merge cv.items item).2 =
          withDefaults (merge item.1 item.2 old) l.defaults) := by
  cases hlook : lookup (idText l item.2) (rowsById l cv.items) with
  | some old =>
      obtain ⟨x, hx, rfl, _⟩ := exists_of_lookup_rowsById hlook
      refine ⟨x.2, hcv.of_mem (List.mem_filter.mp hx).1, rfl, Or.inl ?_⟩
      simp only [mergeRow, hlook]
  | none => exact ⟨null, .leaf _, rfl, Or.inr (by simp only [mergeRow, hlook])⟩

/-- A result is laid out when the payload is and the receiver fits it. -/
theorem laid_node (s : Section) (p : Path) : ∀ iv cv : Value, iv.Distinct → cv.Distinct →
    iv = null ∨ Sound policy s p iv → Fits policy s p iv cv →
    node policy s p iv cv = null ∨ Laid policy s p (node policy s p iv cv) := by
  induction p using path_induction (s := s) with
  | leaf p hc =>
      intro iv cv _ _ h _
      rw [node_leaf policy hc]
      rcases h with rfl | h
      · exact Or.inl rfl
      · cases h.laid with
        | leaf _ hv =>
            obtain ⟨t, rfl⟩ := exists_text_of_isString hv
            exact Or.inr (.leaf hc rfl)
        | emptyFeed hc' _ => rw [hc] at hc'; cases hc'
        | node hc' _ _ => rw [hc] at hc'; cases hc'
  | step p hc ih =>
      intro iv cv hiv hcv h hfits
      cases hf : emptyFeed p iv with
      | true =>
          rw [node_emptyFeed policy hc hf]
          rw [emptyFeed, Bool.and_eq_true] at hf
          exact Or.inr (.emptyFeed hc hf.1)
      | false =>
          cases hfits with
          | leaf hc' _ _ => rw [hc] at hc'; cases hc'
          | emptyFeed hfeed _ => simp [emptyFeed, hfeed] at hf
          | noRows hlist _ =>
              rw [node_rows policy hc hf hlist]
              exact Or.inl (if_pos rfl)
          | keys hlist _ hheld _ hbelow =>
              rw [node_keys policy hc hf hlist]
              dsimp only
              split
              · exact Or.inl rfl
              · rename_i hsome
                refine Or.inr (.node hc (fun hs hp e => ?_) fun item hitem hl => ?_)
                · by_cases hnull : iv = null
                  · subst hnull
                    simp [e] at hsome
                  · exact mergeKeys_ne_nil hiv hcv (hheld hs hp hnull)
                      (fun x hx hl => ((h.resolve_left hnull).of_mem hc hx hl).ne_null) e
                · have hne := ne_null_of_mem_mergeKeys hitem hl
                  rw [snd_of_mem_mergeKeys hiv hcv hitem hl] at hne ⊢
                  exact (ih _ _ _ (items_distinct hiv _) (items_distinct hcv _)
                    (sound_valueOf hc hiv h hl)
                    (hbelow item.1 (mem_keys_of_mem_mergeKeys hitem) hl)).resolve_left hne
          | @rows _ inn _ l hlist hsome hbelow =>
              obtain ⟨hl, rfl⟩ := listAt_eq_some_iff.mp hlist
              have hsound := h.resolve_left (SyncSchema.node_ne_null _)
              rw [node_rows policy hc hf hlist, if_neg (SyncSchema.node_ne_null _),
                KeyTree.items_node, mergeRows_eq_map]
              refine Or.inr (.node hc (fun _ _ e => ?_) fun row hrow _ => ?_)
              · obtain ⟨item, hitem, hlocal⟩ := hsome
                have htaken := row_of_laid hl hsound.laid hitem hlocal
                rw [List.map_eq_nil_iff.mp e] at htaken
                cases htaken
              · obtain ⟨item, hitem, rfl⟩ := List.mem_map.mp hrow
                obtain ⟨hin, hlocal, _⟩ := mem_of_taken hitem
                have hrow' := hsound.of_mem hc hin hlocal
                obtain ⟨old, hold, rfl, hvalue⟩ := snd_mergeRow l hcv item
                have hlaid := (ih item.1 item.2 _ (hiv.of_mem hin) hold (Or.inr hrow')
                  (hbelow item hin hlocal)).resolve_left (node_ne_null policy hrow'.ne_null _ _)
                rw [mergeRow_fst]
                rcases hvalue with hvalue | hvalue
                · rw [hvalue]
                  exact hlaid
                · rw [hvalue]
                  exact laid_withDefaults hl hlaid

theorem classified_append {s : Section} {l : IdentityList} (hl : lists s = some l) {k : Str}
    {new : Value} (h : Classified policy s ([l.key] ++ [k]) new) :
    Classified policy s ([l.key] ++ [k]) (withDefaults new l.defaults) := by
  have hc : container s ([l.key] ++ [k]) = true := container_row hl k
  have hlocal : ∀ item ∈ l.defaults.filter fun item => !(new.items.map Prod.fst).contains item.1,
      isLocal policy s ([l.key] ++ [k] ++ [item.1]) = true := fun item hitem =>
    isLocal_default policy hl k (List.mem_filter.mp hitem).1
  refine .node (fun item hitem hlocal' => ?_) fun item hitem hlocal' => ?_
  · rcases List.mem_append.mp hitem with hitem | hitem
    · cases h with
      | leaf hc' _ => rw [hc] at hc'; cases hc'
      | scalar => cases hitem
      | node hkeys _ => exact hkeys item hitem hlocal'
    · have hpath : settings s = none ∧ pathIsLocal s [l.key, k, item.1] = true :=
        ⟨(schema_row hl k).1, default_path hl k (List.mem_filter.mp hitem).1⟩
      simp [projects, hpath.1, hpath.2]
  · rcases List.mem_append.mp hitem with hitem | hitem
    · cases h with
      | leaf hc' _ => rw [hc] at hc'; cases hc'
      | scalar => cases hitem
      | node _ hitems => exact hitems item hitem hlocal'
    · rw [hlocal item hitem] at hlocal'
      cases hlocal'

/-- The local keys of a result are the receiver's. -/
theorem local_of_mem_mergeKeys {islocal : Str → Bool} {merge : Str → Value → Value → Value}
    {inn cur : Items} {item : Str × Value} (h : item ∈ mergeKeys islocal merge inn cur)
    (hl : islocal item.1 = true) : item ∈ cur := by
  rcases List.mem_append.mp h with h | h
  · obtain ⟨x, hx, hkeep⟩ := List.mem_filterMap.mp h
    rw [mergeKeys_fst x item hkeep] at hl
    rw [hl, if_pos rfl] at hkeep
    exact Option.some.inj hkeep ▸ hx
  · obtain ⟨x, _, hkeep⟩ := List.mem_filterMap.mp h
    rw [mergeKeys_snd x item hkeep] at hl
    rw [hl, Bool.or_true, if_pos rfl] at hkeep
    cases hkeep

/-- The policy keys of a result are named as the schema asks when the receiver fits the payload. -/
theorem classified_node (s : Section) (p : Path) : ∀ iv cv : Value, iv.Distinct → cv.Distinct →
    Fits policy s p iv cv → Classified policy s p (node policy s p iv cv) := by
  induction p using path_induction (s := s) with
  | leaf p hc => exact fun iv cv _ _ _ => .leaf hc _
  | step p hc ih =>
      intro iv cv hiv hcv hfits
      cases hf : emptyFeed p iv with
      | true =>
          rw [node_emptyFeed policy hc hf]
          exact .scalar _ _
      | false =>
          cases hfits with
          | leaf hc' _ _ => rw [hc] at hc'; cases hc'
          | emptyFeed hfeed _ => simp [emptyFeed, hfeed] at hf
          | noRows hlist _ =>
              rw [node_rows policy hc hf hlist, if_pos rfl]
              exact .scalar _ _
          | keys hlist _ _ hnamed hbelow =>
              rw [node_keys policy hc hf hlist]
              dsimp only
              split
              · exact .scalar _ _
              · refine .node (fun item hitem hl => ?_) fun item hitem hl => ?_
                · exact hnamed item (local_of_mem_mergeKeys hitem hl) hl
                · rw [snd_of_mem_mergeKeys hiv hcv hitem hl]
                  exact ih _ _ _ (items_distinct hiv _) (items_distinct hcv _)
                    (hbelow item.1 (mem_keys_of_mem_mergeKeys hitem) hl)
          | @rows _ inn _ l hlist _ hbelow =>
              obtain ⟨hl, rfl⟩ := listAt_eq_some_iff.mp hlist
              rw [node_rows policy hc hf hlist, if_neg (SyncSchema.node_ne_null _),
                KeyTree.items_node, mergeRows_eq_map]
              refine .node (fun row hrow hlocal => ?_) fun row hrow _ => ?_
              · obtain ⟨item, hitem, rfl⟩ := List.mem_map.mp hrow
                rw [mergeRow_fst, (mem_of_taken hitem).2.1] at hlocal
                cases hlocal
              · obtain ⟨item, hitem, rfl⟩ := List.mem_map.mp hrow
                obtain ⟨hin, hlocal, _⟩ := mem_of_taken hitem
                obtain ⟨old, hold, rfl, hvalue⟩ := snd_mergeRow l hcv item
                have hclassified := ih item.1 item.2 _ (hiv.of_mem hin) hold
                  (hbelow item hin hlocal)
                rw [mergeRow_fst]
                rcases hvalue with hvalue | hvalue
                · rw [hvalue]
                  exact hclassified
                · rw [hvalue]
                  exact classified_append hl hclassified

/-! ### Agreement -/

/-- What the digest sees of a value without what is ignored. -/
def seen (policy : SectionAlias → Str → Bool) (s : Section) (p : Path) (v : Value) : Option Value :=
  (withoutIgnored policy s p v).map canon

theorem seen_null (s : Section) (p : Path) : seen policy s p null = none := by
  rw [seen, null, withoutIgnored_scalar]
  rfl

/-- The canonical children that are kept, key by key. -/
theorem itemsCanonical_keptItems (s : Section) (p : Path) (items : Items) :
    KeyTree.itemsCanonical isIntKey (Nat.toDigits 10) (keptItems policy s p items) =
      items.filterMap fun item =>
        if isLocal policy s (p ++ [item.1]) then none
        else (seen policy s (p ++ [item.1]) item.2).map fun t => (item.1, t) := by
  rw [KeyTree.itemsCanonical_eq_map, keptItems, List.map_filterMap]
  refine List.filterMap_congr fun item _ => ?_
  cases hl : isLocal policy s (p ++ [item.1]) with
  | true => simp
  | false => simp [seen, Function.comp_def]

theorem mem_itemsCanonical {s : Section} {p : Path} {items : Items}
    (hnodup : (items.map Prod.fst).Nodup) (y : Str × Value) :
    y ∈ KeyTree.itemsCanonical isIntKey (Nat.toDigits 10) (keptItems policy s p items) ↔
      isLocal policy s (p ++ [y.1]) = false ∧
        seen policy s (p ++ [y.1]) (valueOf y.1 items) = some y.2 := by
  rw [itemsCanonical_keptItems, List.mem_filterMap]
  constructor
  · rintro ⟨x, hx, hy⟩
    split at hy
    · cases hy
    · rename_i hl
      obtain ⟨t, ht, rfl⟩ := Option.map_eq_some_iff.mp hy
      exact ⟨Bool.eq_false_of_not_eq_true hl, by rw [valueOf_eq_of_mem hnodup hx, ht]⟩
  · rintro ⟨hl, hy⟩
    have hne : valueOf y.1 items ≠ null := by
      intro e
      rw [e, seen_null] at hy
      cases hy
    exact ⟨_, mem_of_valueOf_ne_null hnodup hne, by simp [hl, hy]⟩

theorem seen_node {s : Section} {p : Path} (hc : container s p = true) (items : Items) :
    seen policy s p (.node items) =
      if keptItems policy s p items = [] then none
      else some (canon (.node (keptItems policy s p items))) := by
  rw [seen, withoutIgnored_node policy hc]
  split <;> rfl

theorem itemsCanonical_eq_nil_iff {items : Items} :
    KeyTree.itemsCanonical isIntKey (Nat.toDigits 10) items = [] ↔ items = [] := by
  rw [KeyTree.itemsCanonical_eq_map, List.map_eq_nil_iff]

/-- Containers that are seen alike key by key are seen alike, when a list has its rows in one
order. -/
theorem seen_node_eq {s : Section} {p : Path} (hc : container s p = true) {xs ys : Items}
    (hxs : (xs.map Prod.fst).Nodup) (hys : (ys.map Prod.fst).Nodup)
    (hkeys : ∀ k, isLocal policy s (p ++ [k]) = false →
      seen policy s (p ++ [k]) (valueOf k xs) = seen policy s (p ++ [k]) (valueOf k ys))
    (hlist : ((keptItems policy s p ys).all fun item => isIntKey item.1) = true →
      (keptItems policy s p xs).map Prod.fst = (keptItems policy s p ys).map Prod.fst) :
    seen policy s p (.node xs) = seen policy s p (.node ys) := by
  have hmem : ∀ y, y ∈ KeyTree.itemsCanonical isIntKey (Nat.toDigits 10) (keptItems policy s p xs) ↔
      y ∈ KeyTree.itemsCanonical isIntKey (Nat.toDigits 10) (keptItems policy s p ys) := by
    intro y
    rw [mem_itemsCanonical hxs, mem_itemsCanonical hys]
    exact and_congr_right fun hl => by rw [hkeys y.1 hl]
  have hempty : keptItems policy s p xs = [] ↔ keptItems policy s p ys = [] := by
    rw [← itemsCanonical_eq_nil_iff, ← @itemsCanonical_eq_nil_iff (keptItems policy s p ys)]
    rw [List.eq_nil_iff_forall_not_mem, List.eq_nil_iff_forall_not_mem]
    exact forall_congr' fun y => not_congr (hmem y)
  have hfst : ∀ items : Items, ∀ x, x ∈ items.map Prod.fst ↔
      ∃ y ∈ KeyTree.itemsCanonical isIntKey (Nat.toDigits 10) items, y.1 = x := by
    intro items x
    rw [← KeyTree.keys_itemsCanonical isIntKey (Nat.toDigits 10), List.mem_map]
  have hall : ((keptItems policy s p xs).all fun item => isIntKey item.1) = true →
      ((keptItems policy s p ys).all fun item => isIntKey item.1) = true := by
    intro h
    rw [List.all_eq_true] at h ⊢
    intro y hy
    obtain ⟨z, hz, hzy⟩ := (hfst _ y.1).mp (List.mem_map_of_mem hy)
    obtain ⟨x, hx, hxz⟩ := List.mem_map.mp ((hfst _ z.1).mpr ⟨z, (hmem z).mpr hz, rfl⟩)
    rw [← hzy, ← hxz]
    exact h x hx
  rw [seen_node hc, seen_node hc]
  by_cases hne : keptItems policy s p ys = []
  · rw [if_pos hne, if_pos (hempty.mpr hne)]
  · rw [if_neg hne, if_neg fun e => hne (hempty.mp e)]
    exact congrArg some (KeyTree.canonical_node_eq (nodup_keptItems policy hxs)
      (nodup_keptItems policy hys) hmem fun h => hlist (hall h))

theorem keys_filterMap_eq_filter {f : Str × Value → Option (Str × Value)} {P : Str → Bool}
    {items : Items}
    (h : ∀ x ∈ items, (f x).map Prod.fst = if P x.1 then some x.1 else none) :
    (items.filterMap f).map Prod.fst = (items.map Prod.fst).filter P := by
  rw [List.map_filterMap, ← List.filterMap_eq_filter, List.filterMap_map]
  refine List.filterMap_congr fun x hx => ?_
  rw [h x hx]
  rfl

theorem isSome_seen (s : Section) (p : Path) (v : Value) :
    (seen policy s p v).isSome = (withoutIgnored policy s p v).isSome := by
  rw [seen, Option.isSome_map]

/-- The key of a kept child, when its value is not all ignored. -/
theorem fst_kept (s : Section) (p : Path) (x : Str × Value) :
    (if isLocal policy s (p ++ [x.1]) then none
      else (withoutIgnored policy s (p ++ [x.1]) x.2).map fun t => (x.1, t)).map Prod.fst =
      if !isLocal policy s (p ++ [x.1]) && (seen policy s (p ++ [x.1]) x.2).isSome then some x.1
      else none := by
  rw [isSome_seen]
  cases isLocal policy s (p ++ [x.1]) <;>
    cases withoutIgnored policy s (p ++ [x.1]) x.2 <;> rfl

theorem keys_keptItems {s : Section} {p : Path} {inn : Items} (hinn : (inn.map Prod.fst).Nodup) :
    (keptItems policy s p inn).map Prod.fst = (inn.map Prod.fst).filter fun k =>
      !isLocal policy s (p ++ [k]) && (seen policy s (p ++ [k]) (valueOf k inn)).isSome :=
  keys_filterMap_eq_filter fun x hx => by
    rw [fst_kept, valueOf_eq_of_mem hinn hx]

theorem contains_keys_keptItems {s : Section} {p : Path} {inn : Items}
    (hinn : (inn.map Prod.fst).Nodup) (k : Str) :
    ((keptItems policy s p inn).map Prod.fst).contains k =
      (!isLocal policy s (p ++ [k]) && (seen policy s (p ++ [k]) (valueOf k inn)).isSome) := by
  rw [keys_keptItems hinn, Bool.eq_iff_iff, List.contains_iff_mem, List.mem_filter]
  refine and_iff_right_of_imp fun h => ?_
  rw [Bool.and_eq_true] at h
  have hne : valueOf k inn ≠ null := by
    intro e
    rw [e, seen_null] at h
    cases h.2
  exact List.mem_map_of_mem (f := Prod.fst) (mem_of_valueOf_ne_null hinn hne)

/-- A merged container keeps the receiver's order for the keys it has. -/
theorem keys_kept_mergeKeys {s : Section} {p : Path} {inn cur : Items}
    (hinn : (inn.map Prod.fst).Nodup) (hcur : (cur.map Prod.fst).Nodup)
    (ih : ∀ k, isLocal policy s (p ++ [k]) = false →
      seen policy s (p ++ [k]) (node policy s (p ++ [k]) (valueOf k inn) (valueOf k cur)) =
        seen policy s (p ++ [k]) (valueOf k inn)) :
    (keptItems policy s p (mergeKeys (fun k => isLocal policy s (p ++ [k]))
        (fun k => node policy s (p ++ [k])) inn cur)).map Prod.fst =
      receiverFirst (cur.map Prod.fst) ((keptItems policy s p inn).map Prod.fst) := by
  have hkeep : ∀ k : Str, isLocal policy s (p ++ [k]) = false →
      ((keep k (node policy s (p ++ [k]) (valueOf k inn) (valueOf k cur))).bind fun x =>
        if isLocal policy s (p ++ [x.1]) then none
        else (withoutIgnored policy s (p ++ [x.1]) x.2).map fun t => (x.1, t)).map Prod.fst =
      if (seen policy s (p ++ [k]) (valueOf k inn)).isSome then some k else none := by
    intro k hl
    rw [← ih k hl]
    by_cases hnull : node policy s (p ++ [k]) (valueOf k inn) (valueOf k cur) = null
    · rw [hnull, keep, if_pos rfl, seen_null]
      rfl
    · rw [keep, if_neg hnull, Option.bind_some, fst_kept, hl, Bool.not_false, Bool.true_and]
  rw [receiverFirst, keptItems, mergeKeys, List.filterMap_append, List.map_append,
    List.filterMap_filterMap, List.filterMap_filterMap]
  congr 1
  · refine keys_filterMap_eq_filter fun x hx => ?_
    rw [contains_keys_keptItems hinn]
    cases hl : isLocal policy s (p ++ [x.1]) with
    | true => simp [hl]
    | false =>
        have hvalue := hkeep x.1 hl
        rw [valueOf_eq_of_mem hcur hx] at hvalue
        rw [if_neg Bool.false_ne_true, hvalue, Bool.not_false, Bool.true_and]
  · rw [keys_keptItems hinn, List.filter_filter]
    refine keys_filterMap_eq_filter fun x hx => ?_
    cases hl : isLocal policy s (p ++ [x.1]) with
    | true => simp
    | false =>
        cases hc : (cur.map Prod.fst).contains x.1 with
        | true => simp
        | false =>
            have hout : x.1 ∉ cur.map Prod.fst := fun hin => by
              rw [List.contains_iff_mem.mpr hin] at hc
              cases hc
            have hvalue := hkeep x.1 hl
            rw [valueOf_eq_of_mem hinn hx, valueOf_of_not_mem hout] at hvalue
            rw [valueOf_eq_of_mem hinn hx]
            simpa using hvalue

theorem keptItems_append_local {s : Section} {p : Path} {items extra : Items}
    (h : ∀ item ∈ extra, isLocal policy s (p ++ [item.1]) = true) :
    keptItems policy s p (items ++ extra) = keptItems policy s p items := by
  have hextra : keptItems policy s p extra = [] := by
    refine List.filterMap_eq_nil_iff.mpr fun item hitem => ?_
    rw [h item hitem]
    rfl
  have happend : keptItems policy s p (items ++ extra) =
      keptItems policy s p items ++ keptItems policy s p extra := List.filterMap_append
  rw [happend, hextra, List.append_nil]

/-- The local defaults of a new row are not seen. -/
theorem seen_withDefaults {s : Section} {l : IdentityList} (hl : lists s = some l) {k : Str}
    {new : Value} (hnew : isArray new = true) :
    seen policy s ([l.key] ++ [k]) (withDefaults new l.defaults) =
      seen policy s ([l.key] ++ [k]) new := by
  cases new with
  | leaf a => cases hnew
  | node items =>
      have hc : container s ([l.key] ++ [k]) = true := container_row hl k
      rw [withDefaults, seen_node hc, seen_node hc, KeyTree.items_node,
        keptItems_append_local fun f hf => isLocal_default policy hl k (List.mem_filter.mp hf).1]

theorem isArray_node_row {s : Section} {l : IdentityList} (hl : lists s = some l) {k : Str}
    {row : Value} (hrow : row ≠ null) (old : Value) :
    isArray (node policy s ([l.key] ++ [k]) row old) = true := by
  have hc : container s ([l.key] ++ [k]) = true := container_row hl k
  have hf : emptyFeed ([l.key] ++ [k]) row = false := by
    rw [emptyFeed, feed_of_length_ne_four (by simp), Bool.false_and]
  rw [node_keys policy hc hf (listAt_of_length_ne_one s (by simp))]
  simp only [hrow, decide_false, Bool.and_false, Bool.false_eq_true, if_false]
  rfl

/-- A row of the result is seen as the incoming row is. -/
theorem seen_mergeRow {s : Section} {l : IdentityList} (hl : lists s = some l) {cv : Value}
    (hcv : cv.Distinct) {item : Str × Value} (hrow : item.2 ≠ null)
    (ih : ∀ old : Value, old.Distinct →
      old = (lookup (idText l item.2) (rowsById l cv.items)).getD null →
      seen policy s ([l.key] ++ [item.1]) (node policy s ([l.key] ++ [item.1]) item.2 old) =
        seen policy s ([l.key] ++ [item.1]) item.2) :
    seen policy s ([l.key] ++ [item.1])
        (mergeRow l (fun k => node policy s ([l.key] ++ [k])) cv.items item).2 =
      seen policy s ([l.key] ++ [item.1]) item.2 := by
  obtain ⟨old, hold, hlook, hvalue⟩ := snd_mergeRow l hcv item
  rcases hvalue with hvalue | hvalue
  · rw [hvalue]
    exact ih old hold hlook
  · rw [hvalue, seen_withDefaults hl (isArray_node_row hl hrow old)]
    exact ih old hold hlook

/-- Merged rows are seen, one by one and in their order, as the incoming ones are. -/
theorem seen_mergeRows {s : Section} {l : IdentityList} (hl : lists s = some l) {inn cur : Items}
    (hlaid : Laid policy s [l.key] (.node inn))
    (ih : ∀ item ∈ taken (fun k => isLocal policy s ([l.key] ++ [k])) inn,
      seen policy s ([l.key] ++ [item.1])
          (mergeRow l (fun k => node policy s ([l.key] ++ [k])) cur item).2 =
        seen policy s ([l.key] ++ [item.1]) item.2) :
    seen policy s [l.key] (.node (mergeRows l (fun k => isLocal policy s ([l.key] ++ [k]))
      (fun k => node policy s ([l.key] ++ [k])) inn cur)) = seen policy s [l.key] (.node inn) := by
  have hc := container_list hl
  have hrows : KeyTree.itemsCanonical isIntKey (Nat.toDigits 10) (keptItems policy s [l.key]
      (mergeRows l (fun k => isLocal policy s ([l.key] ++ [k]))
        (fun k => node policy s ([l.key] ++ [k])) inn cur)) =
      KeyTree.itemsCanonical isIntKey (Nat.toDigits 10) (keptItems policy s [l.key] inn) := by
    rw [itemsCanonical_keptItems, itemsCanonical_keptItems, mergeRows_eq_map, List.filterMap_map]
    have htaken : (taken (fun k => isLocal policy s ([l.key] ++ [k])) inn).filterMap (fun item =>
          if isLocal policy s ([l.key] ++ [item.1]) then none
          else (seen policy s ([l.key] ++ [item.1]) item.2).map fun t => (item.1, t)) =
        inn.filterMap fun item =>
          if isLocal policy s ([l.key] ++ [item.1]) then none
          else (seen policy s ([l.key] ++ [item.1]) item.2).map fun t => (item.1, t) := by
      rw [taken, List.filterMap_filter]
      refine List.filterMap_congr fun item hitem => ?_
      cases hlocal : isLocal policy s ([l.key] ++ [item.1]) with
      | true => simp
      | false =>
          have hin := (List.mem_filter.mp (row_of_laid hl hlaid hitem hlocal)).2
          dsimp only at hin
          rw [hlocal] at hin
          rw [if_pos hin]
    rw [← htaken]
    refine List.filterMap_congr fun item hitem => ?_
    rw [Function.comp_apply, mergeRow_fst, ih item hitem]
  have hempty := congrArg (· = []) hrows
  simp only [itemsCanonical_eq_nil_iff] at hempty
  rw [seen_node hc, seen_node hc]
  simp only [hempty, canon, KeyTree.canonical, hrows]

section Below

variable {s : Section} {p : Path} {iv cv : Value}

theorem Fits.of_key (hc : container s p = true) (hlist : listAt s p = none)
    (h : Fits policy s p iv cv) {k : Str} (hk : k ∈ iv.items.map Prod.fst)
    (hl : isLocal policy s (p ++ [k]) = false) :
    Fits policy s (p ++ [k]) (valueOf k iv.items) (valueOf k cv.items) := by
  cases h with
  | leaf hc' _ _ => rw [hc] at hc'; cases hc'
  | emptyFeed => cases hk
  | noRows => cases hk
  | rows hlist' _ _ => rw [hlist] at hlist'; cases hlist'
  | keys _ _ _ _ hbelow => exact hbelow k (List.mem_append_left _ hk) hl

theorem Fits.order (hc : container s p = true) (hlist : listAt s p = none)
    (h : Fits policy s p iv cv)
    (hall : ((keptItems policy s p iv.items).all fun item => isIntKey item.1) = true) :
    receiverFirst (cv.items.map Prod.fst) ((keptItems policy s p iv.items).map Prod.fst) =
      (keptItems policy s p iv.items).map Prod.fst := by
  cases h with
  | leaf hc' _ _ => rw [hc] at hc'; cases hc'
  | emptyFeed => simp [receiverFirst, text, keptItems]
  | noRows => simp [receiverFirst, null, keptItems]
  | rows hlist' _ _ => rw [hlist] at hlist'; cases hlist'
  | keys _ horder _ _ _ => exact horder hall

theorem Fits.of_row {inn : Items} {l : IdentityList} (hc : container s p = true)
    (hlist : listAt s p = some l) (h : Fits policy s p (.node inn) cv) {item : Str × Value}
    (hitem : item ∈ inn) (hl : isLocal policy s (p ++ [item.1]) = false) :
    Fits policy s (p ++ [item.1]) item.2
      ((lookup (idText l item.2) (rowsById l cv.items)).getD null) := by
  cases h with
  | leaf hc' _ _ => rw [hc] at hc'; cases hc'
  | keys hlist' _ _ _ _ => rw [hlist] at hlist'; cases hlist'
  | rows hlist' _ hbelow =>
      rw [hlist] at hlist'
      cases hlist'
      exact hbelow item hitem hl

/-- An absent or sound container is seen as the array of its items. -/
theorem seen_items (hc : container s p = true) (hf : emptyFeed p iv = false)
    (h : iv = null ∨ Sound policy s p iv) :
    seen policy s p iv = seen policy s p (.node iv.items) := by
  cases iv with
  | node inn => rfl
  | leaf a =>
      rcases h with hnull | h
      · rw [hnull, seen_null, seen_node hc]
        rfl
      · cases h.laid with
        | leaf hc' _ => rw [hc] at hc'; cases hc'
        | emptyFeed _ hf' => simp [emptyFeed, hf', text] at hf

/-- A feed row that is empty in the payload is seen as the empty row of the result. -/
theorem seen_emptyFeed (hc : container s p = true) (hf : emptyFeed p iv = true)
    (h : iv = null ∨ Sound policy s p iv) : seen policy s p (text []) = seen policy s p iv := by
  rw [emptyFeed, Bool.and_eq_true] at hf
  cases iv with
  | leaf a => rw [show KeyTree.leaf a = text [] by simpa using hf.2]
  | node items =>
      have hitems : items = [] := by simpa [text] using hf.2
      cases (h.resolve_left (SyncSchema.node_ne_null _)).laid with
      | leaf hc' _ => rw [hc] at hc'; cases hc'
      | node _ hne _ => exact absurd hitems (hne (settings_of_feed hc hf.1)
          (by rintro rfl; exact absurd hf.1 (by decide)))

/-- A container of the result is seen as the payload's, when their values are. -/
theorem seen_merged_keys (hc : container s p = true) (hlist : listAt s p = none)
    (hf : emptyFeed p iv = false) (hiv : iv.Distinct) (hcv : cv.Distinct)
    (hsound : iv = null ∨ Sound policy s p iv) (hfits : iv = null ∨ Fits policy s p iv cv)
    (hkeys : ∀ k, isLocal policy s (p ++ [k]) = false →
      seen policy s (p ++ [k]) (node policy s (p ++ [k]) (valueOf k iv.items)
        (valueOf k cv.items)) = seen policy s (p ++ [k]) (valueOf k iv.items)) :
    seen policy s p (node policy s p iv cv) = seen policy s p iv := by
  have hnode : seen policy s p (node policy s p iv cv) =
      seen policy s p (.node (mergeKeys (fun k => isLocal policy s (p ++ [k]))
        (fun k => node policy s (p ++ [k])) iv.items cv.items)) := by
    rw [node_keys policy hc hf hlist]
    dsimp only
    split
    · rename_i h
      rw [Bool.and_eq_true, decide_eq_true_eq] at h
      rw [h.1, seen_null, seen_node hc]
      rfl
    · rfl
  have hnodup : ((mergeKeys (fun k => isLocal policy s (p ++ [k]))
      (fun k => node policy s (p ++ [k])) iv.items cv.items).map Prod.fst).Nodup :=
    nodup_mergeKeys hiv.nodup hcv.nodup
  rw [hnode, seen_items hc hf hsound]
  refine seen_node_eq hc hnodup hiv.nodup (fun k hl => ?_) fun hall => ?_
  · rw [valueOf_node hiv hcv k hl]
    exact hkeys k hl
  · rw [keys_kept_mergeKeys hiv.nodup hcv.nodup hkeys]
    rcases hfits with rfl | hfits
    · simp [receiverFirst, null, keptItems]
    · exact hfits.order hc hlist hall

end Below

/-- What the digest sees of a result is what it sees of the payload without what is ignored. -/
theorem seen_merged (s : Section) (p : Path) : ∀ iv cv : Value, iv.Distinct → cv.Distinct →
    iv = null ∨ Sound policy s p iv → iv = null ∨ Fits policy s p iv cv →
    seen policy s p (node policy s p iv cv) = seen policy s p iv := by
  induction p using path_induction (s := s) with
  | leaf p hc =>
      intro iv cv _ _ h _
      rw [node_leaf policy hc]
      rcases h with rfl | h
      · rfl
      · cases h.laid with
        | leaf _ hv =>
            obtain ⟨t, rfl⟩ := exists_text_of_isString hv
            rfl
        | emptyFeed hc' _ => rw [hc] at hc'; cases hc'
        | node hc' _ _ => rw [hc] at hc'; cases hc'
  | step p hc ih =>
      intro iv cv hiv hcv hsound hfits
      cases hf : emptyFeed p iv with
      | true =>
          rw [node_emptyFeed policy hc hf]
          exact seen_emptyFeed hc hf hsound
      | false =>
          cases hlist : listAt s p with
          | none =>
              refine seen_merged_keys hc hlist hf hiv hcv hsound hfits fun k hl => ?_
              refine ih k _ _ (items_distinct hiv k) (items_distinct hcv k)
                (sound_valueOf hc hiv hsound hl) ?_
              by_cases hv : valueOf k iv.items = null
              · exact Or.inl hv
              · have hmem := mem_of_valueOf_ne_null hiv.nodup hv
                rcases hfits with rfl | hfits
                · cases hmem
                · exact Or.inr (hfits.of_key hc hlist (List.mem_map_of_mem (f := Prod.fst) hmem) hl)
          | some l =>
              obtain ⟨hl, rfl⟩ := listAt_eq_some_iff.mp hlist
              rw [node_rows policy hc hf hlist]
              split
              · rename_i hnull
                rw [hnull]
              · rename_i hnull
                have h := hsound.resolve_left hnull
                have ha := hfits.resolve_left hnull
                cases iv with
                | leaf a =>
                    cases h.laid with
                    | leaf hc' _ => rw [hc] at hc'; cases hc'
                    | emptyFeed _ hf' => simp [feed] at hf'
                | node inn =>
                    refine seen_mergeRows hl h.laid fun item hitem => ?_
                    obtain ⟨hin, hlocal, hfull⟩ := mem_of_taken hitem
                    have hrownull : item.2 ≠ null := by
                      intro e
                      rw [e] at hfull
                      exact absurd hfull (by decide)
                    refine seen_mergeRow hl hcv hrownull fun old hold hlook => ?_
                    exact ih item.1 item.2 old (hiv.of_mem hin) hold
                      (Or.inr (h.of_mem hc hin hlocal))
                      (Or.inr (hlook ▸ ha.of_row hc hlist hin hlocal))

/-! ### Sections -/

/-- No row of an identity list at or below this position is an empty string. -/
def RowsFilled (s : Section) (p : Path) (v : Value) : Prop :=
  ∀ l, lists s = some l → ∀ (k : Str) (q : Path), p ++ q = [l.key, k] → valueAt q v ≠ text []

/-- An accepted payload without empty arrays and empty group rows is laid out by the schema. -/
theorem laid_of_accepted (s : Section) (p : Path) : ∀ v : Value, v.Distinct → v.Full →
    Accepted policy s p v → RowsFilled s p v → Laid policy s p v := by
  induction p using path_induction (s := s) with
  | leaf p hc =>
      intro v _ hfull hacc _
      rcases accepted_leaf hc hacc with hv | rfl
      · exact .leaf hc hv
      · cases hfull with | node hne _ => exact absurd rfl hne
  | step p hc ih =>
      intro v hd hfull hacc hrows
      cases v with
      | leaf a =>
          have hempty := accepted_scalar hc hacc
          simp only [emptyElement, Bool.and_eq_true, decide_eq_true_eq, Bool.or_eq_true] at hempty
          obtain ⟨htext, hfeed | ⟨hkey, hlength⟩⟩ := hempty
          · rw [htext]
            exact .emptyFeed hc hfeed
          · obtain ⟨l, hl, _⟩ := Option.map_eq_some_iff.mp hkey
            obtain ⟨x, k, rfl⟩ := List.length_eq_two.mp hlength
            have hx := eq_key_of_container hl hc
            exact absurd htext (hrows l hl k [] (by rw [hx]; rfl))
      | node items =>
          refine .node hc (fun _ _ e => ?_) fun item hitem hl => ?_
          · cases hfull with | node hne _ => exact hne e
          · have hbelow : item.2.Full := by
              cases hfull with | node _ hitems => exact hitems item hitem
            refine ih item.1 item.2 (hd.of_mem hitem) hbelow
              ((accepted_node hc hacc).1 item hitem hl) fun l hls k q hq => ?_
            have hrow := hrows l hls k (item.1 :: q) (by rw [← hq]; simp)
            rwa [valueAt, KeyTree.items_node, valueOf_eq_of_mem hd.nodup_keys hitem] at hrow

variable (policy) in
/-- A payload section without empty arrays and empty group rows, and a receiver that fits it. -/
structure Comparable (s : Section) (inc cur : Value) : Prop where
  full : isArray inc = true → inc.Full
  rows : ∀ l, lists s = some l → ∀ k, valueAt [l.key, k] inc ≠ text []
  fits : Fits policy s [] inc cur

theorem sound_section {s : Section} {inc cur : Value} (hinc : inc.Distinct)
    (h : Comparable policy s inc cur) (hacc : inc = null ∨ Accepted policy s [] inc) :
    inc = null ∨ Sound policy s [] inc := by
  refine hacc.imp_right fun hacc => ?_
  have harray : isArray inc = true := by
    cases inc with
    | node items => rfl
    | leaf a =>
        have := accepted_scalar (s := s) (p := []) rfl hacc
        simp [emptyElement, feed] at this
  have hrows : RowsFilled s [] inc := by
    intro l hl k q hq
    rw [List.nil_append] at hq
    rw [hq]
    exact h.rows l hl k
  exact ⟨hacc, laid_of_accepted s [] inc hinc (h.full harray) hacc hrows⟩

/-- A section of the result is a shaped one. -/
theorem shaped_section {s : Section} {inc cur : Value} (hinc : inc.Distinct) (hcur : cur.Distinct)
    (h : Comparable policy s inc cur) (hacc : inc = null ∨ Accepted policy s [] inc) :
    let out := ((mergeSection policy s inc cur).map Prod.snd).getD null
    out.Distinct ∧ (isArray out = true → Laid policy s [] out ∧ Classified policy s [] out) := by
  intro out
  have hout : out = ((mergeSection policy s inc cur).map Prod.snd).getD null := rfl
  rw [mergeSection] at hout
  split at hout
  · rw [hout]
    exact ⟨.leaf _, by simp [null, isArray]⟩
  · dsimp only [Option.map_some, Option.getD_some] at hout
    split at hout
    · split at hout
      · rw [hout]
        exact ⟨.leaf _, by simp [text, isArray]⟩
      · rw [hout]
        exact ⟨.node List.nodup_nil (by simp), fun _ =>
          ⟨.node rfl (fun _ hp => absurd rfl hp) (by simp), .node (by simp) (by simp)⟩⟩
    · rename_i hne
      rw [hout]
      exact ⟨distinct_node s [] inc cur hinc hcur, fun _ =>
        ⟨(laid_node s [] inc cur hinc hcur (sound_section hinc h hacc) h.fits).resolve_left hne,
          classified_node s [] inc cur hinc hcur h.fits⟩⟩

theorem canon_kept_of_seen {s : Section} {v w : Value} (hv : v = null ∨ isArray v = true)
    (hw : w = null ∨ isArray w = true) (h : seen policy s [] v = seen policy s [] w) :
    canon (.node (keptItems policy s [] v.items)) =
      canon (.node (keptItems policy s [] w.items)) := by
  have hseen : ∀ v : Value, v = null ∨ isArray v = true →
      canon (.node (keptItems policy s [] v.items)) =
        (seen policy s [] v).getD (canon (.node [])) := by
    rintro v (rfl | hv)
    · rw [seen_null]
      rfl
    · cases v with
      | leaf a => cases hv
      | node items =>
          rw [seen_node rfl, KeyTree.items_node]
          split
          · rename_i hkept
            rw [hkept]
            rfl
          · rfl
  rw [hseen v hv, hseen w hw, h]

/-- The digest sees a section of the result as it sees the payload's without what is ignored. -/
theorem canon_section {s : Section} {inc cur : Value} (hinc : inc.Distinct) (hcur : cur.Distinct)
    (h : Comparable policy s inc cur) (hacc : inc = null ∨ Accepted policy s [] inc) :
    canon (.node (keptItems policy s []
      (((mergeSection policy s inc cur).map Prod.snd).getD null).items)) =
      canon (.node (keptItems policy s [] inc.items)) := by
  have hsound := sound_section hinc h hacc
  have harray : inc = null ∨ isArray inc = true := hsound.imp_right fun h => by
    cases inc with
    | node items => rfl
    | leaf a =>
        have := accepted_scalar (s := s) (p := []) rfl h.accepted
        simp [emptyElement, feed] at this
  by_cases hne : node policy s [] inc cur = null
  · have hinull : inc = null := by
      by_contra hinc'
      exact node_ne_null policy hinc' [] cur hne
    subst hinull
    rw [mergeSection]
    split
    · rfl
    · simp only [hne, if_true, Option.map_some, Option.getD_some]
      split <;> rfl
  · have hmerged : ((mergeSection policy s inc cur).map Prod.snd).getD null =
        node policy s [] inc cur := by
      rw [mergeSection]
      split
      · rename_i hnull
        simp only [Bool.and_eq_true, decide_eq_true_eq] at hnull
        rw [hnull.1, hnull.2] at hne
        exact absurd (node_null_null policy s []) hne
      · simp only [hne, if_false, Option.map_some, Option.getD_some]
    rw [hmerged]
    refine canon_kept_of_seen (Or.inr ?_) harray
      (seen_merged s [] inc cur hinc hcur hsound (Or.inr h.fits))
    rw [node_section_eq hne]
    rfl

/-- A payload without what is ignored is a shaped one. -/
theorem shaped_ignoredRemoved {incoming : Items} (hd : (KeyTree.node incoming : Value).Distinct)
    (hlaid : ∀ s : Section, isArray (valueOf s.name incoming) = true →
      Laid policy s [] (valueOf s.name incoming)) :
    ShapedSections policy (ignoredRemoved policy incoming) := by
  intro s
  rw [valueOf_ignoredRemoved]
  split
  · exact ⟨.leaf _, nofun⟩
  · rename_i hne
    have hsd : (valueOf s.name incoming).Distinct := items_distinct hd s.name
    have hlaid' := hlaid s
    cases hv : valueOf s.name incoming with
    | leaf a => rw [hv] at hne; exact absurd rfl hne
    | node items =>
        rw [hv] at hsd hlaid' hne
        rw [KeyTree.items_node] at hne
        have hkept : withoutIgnored policy s [] (.node items) =
            some (.node (keptItems policy s [] items)) := by
          rw [withoutIgnored_node policy rfl, if_neg hne]
        exact ⟨distinct_withoutIgnored [] _ _ hkept hsd, fun _ =>
          ⟨laid_withoutIgnored [] _ _ hkept (hlaid' rfl),
            classified_withoutIgnored [] _ _ hkept⟩⟩

theorem keptItems_ignoredRemoved (incoming : Items) (s : Section) :
    keptItems policy s [] (valueOf s.name (ignoredRemoved policy incoming)).items =
      keptItems policy s [] (valueOf s.name incoming).items := by
  rw [valueOf_ignoredRemoved]
  split
  · rename_i hkept
    rw [hkept]
    rfl
  · refine keptItems_kept fun y hy => ?_
    obtain ⟨-, v, -, hv⟩ := mem_keptItems.mp hy
    exact withoutIgnored_again _ v y.2 hv

variable (policy) in
/-- After a merge the receiver's policy digest is that of the payload without the leaves the
merge ignored and without the containers this empties. -/
theorem receiver_digest_eq {incoming current out : Items} {ignored : List Str}
    (hincoming : (KeyTree.node incoming : Value).Distinct)
    (hcurrent : (KeyTree.node current : Value).Distinct)
    (hsides : ∀ s : Section,
      Comparable policy s (valueOf s.name incoming) (valueOf s.name current))
    (h : pfbSyncPolicyMerge policy incoming current = .ok (out, ignored))
    {δ : Type*} (hash : Items → δ) :
    pfbSyncPolicyDigest hash (pfbSyncPolicyProjection policy out) =
      pfbSyncPolicyDigest hash
        (pfbSyncPolicyProjection policy (ignoredRemoved policy incoming)) := by
  obtain ⟨skipped, hgather, _⟩ := merge_eq_ok h
  have hacc : ∀ s : Section, valueOf s.name incoming = null ∨
      Accepted policy s [] (valueOf s.name incoming) := fun s => by
    obtain ⟨found, hfound⟩ := exists_of_gather hgather s (mem_syncSections s)
    exact (checkSection_eq_ok hfound).1
  have hinc : ∀ s : Section, (valueOf s.name incoming).Distinct := fun s =>
    items_distinct hincoming s.name
  have hcur : ∀ s : Section, (valueOf s.name current).Distinct := fun s =>
    items_distinct hcurrent s.name
  have hout : ShapedSections policy out := fun s => by
    rw [valueOf_merged h s]
    exact shaped_section (hinc s) (hcur s) (hsides s) (hacc s)
  have hpayload : ShapedSections policy (ignoredRemoved policy incoming) :=
    shaped_ignoredRemoved hincoming fun s harray =>
      ((sound_section (hinc s) (hsides s) (hacc s)).resolve_left fun e => by
        rw [e] at harray; cases harray).laid
  rw [pfbSyncPolicyDigest, pfbSyncPolicyDigest, hout.digestTree_eq, hpayload.digestTree_eq,
    canonicalTree, canonicalTree, List.map_map, List.map_map]
  refine congrArg hash (List.map_congr_left fun s _ => Prod.ext rfl ?_)
  have hcanon := canon_section (hinc s) (hcur s) (hsides s) (hacc s)
  rw [← valueOf_merged h s] at hcanon
  rw [Function.comp_apply, Function.comp_apply]
  dsimp only
  rw [keptItems_ignoredRemoved]
  exact hcanon

/-! ### Tests -/

/-- The test of `Fits`, down to the depth of the schema. -/
def fitsAt (policy : SectionAlias → Str → Bool) : ℕ → Section → Path → Value → Value → Bool
  | 0, s, p, _, _ => !container s p
  | depth + 1, s, p, iv, cv =>
      if !container s p || (feed p && iv = text []) then true
      else
        match listAt s p with
        | some l =>
            iv = null || (isArray iv &&
              (iv.items.any fun item => !isLocal policy s (p ++ [item.1])) &&
              iv.items.all fun item => isLocal policy s (p ++ [item.1]) ||
                fitsAt policy depth s (p ++ [item.1]) item.2
                  ((lookup (idText l item.2) (rowsById l cv.items)).getD null))
        | none =>
            let kept := (keptItems policy s p iv.items).map Prod.fst
            (!kept.all isIntKey || receiverFirst (cv.items.map Prod.fst) kept = kept) &&
            ((settings s).isSome || p.isEmpty || iv = null ||
              (iv.items.any fun item => !isLocal policy s (p ++ [item.1])) ||
              hasLocal policy s p cv) &&
            (cv.items.all fun item =>
              !isLocal policy s (p ++ [item.1]) || !projects policy s (p ++ [item.1])) &&
            (iv.items.map Prod.fst ++ cv.items.map Prod.fst).all fun k =>
              isLocal policy s (p ++ [k]) ||
                fitsAt policy depth s (p ++ [k]) (valueOf k iv.items) (valueOf k cv.items)

theorem fits_of_fitsAt {s : Section} (depth : ℕ) : ∀ (p : Path) (iv cv : Value),
    fitsAt policy depth s p iv cv = true → Fits policy s p iv cv := by
  induction depth with
  | zero =>
      intro p iv cv h
      rw [fitsAt, Bool.not_eq_true'] at h
      exact .leaf h iv cv
  | succ depth ih =>
      intro p iv cv h
      rw [fitsAt] at h
      split at h
      · rename_i hleaf
        rw [Bool.or_eq_true, Bool.not_eq_true', Bool.and_eq_true, decide_eq_true_eq] at hleaf
        rcases hleaf with hc | ⟨hf, rfl⟩
        · exact .leaf hc iv cv
        · exact .emptyFeed hf cv
      · cases hlist : listAt s p with
        | some l =>
            simp only [hlist, Bool.or_eq_true, decide_eq_true_eq, Bool.and_eq_true,
              List.any_eq_true, List.all_eq_true, Bool.not_eq_true'] at h
            rcases h with rfl | ⟨⟨harray, hsome⟩, hbelow⟩
            · exact .noRows hlist cv
            · cases iv with
              | leaf a => cases harray
              | node inn =>
                  refine .rows hlist hsome fun item hitem hl => ih _ _ _ ?_
                  exact (hbelow item hitem).resolve_left (by rw [hl]; exact Bool.false_ne_true)
        | none =>
            simp only [hlist, Bool.or_eq_true, decide_eq_true_eq, Bool.and_eq_true,
              List.any_eq_true, List.all_eq_true, Bool.not_eq_true'] at h
            obtain ⟨⟨⟨horder, hheld⟩, hnamed⟩, hbelow⟩ := h
            refine .keys hlist (fun hall => ?_) (fun hs hp hiv hown => ?_) (fun item hitem hl => ?_)
              fun k hk hl => ih _ _ _ ?_
            · refine horder.resolve_left fun hnot => ?_
              rw [List.all_map] at hnot
              exact Bool.false_ne_true (hnot.symm.trans hall)
            · rcases hheld with (((hs' | hp') | hnull) | ⟨item, hitem, hl⟩) | hheld
              · rw [hs] at hs'
                cases hs'
              · exact absurd (List.isEmpty_iff.mp hp') hp
              · exact absurd hnull hiv
              · rw [hown item hitem] at hl
                cases hl
              · exact hheld
            · exact (hnamed item hitem).resolve_left (by rw [hl]; exact Bool.noConfusion)
            · exact (hbelow k hk).resolve_left (by rw [hl]; exact Bool.false_ne_true)

/-- The tests of both sides of a section. -/
def isComparable (policy : SectionAlias → Str → Bool) (s : Section) (inc cur : Value) : Bool :=
  (!isArray inc || decide inc.Full) &&
  (match lists s with
    | none => true
    | some l => (valueOf l.key inc.items).items.all fun row => row.2 ≠ text []) &&
  fitsAt policy schemaDepth s [] inc cur

theorem comparable_of_isComparable {s : Section} {inc cur : Value} (hinc : inc.Distinct)
    (h : isComparable policy s inc cur = true) : Comparable policy s inc cur := by
  rw [isComparable, Bool.and_eq_true, Bool.and_eq_true] at h
  obtain ⟨⟨hfull, hrows⟩, hfits⟩ := h
  refine ⟨fun harray => ?_, fun l hl k => ?_, fits_of_fitsAt _ [] inc cur hfits⟩
  · rw [harray, Bool.not_true, Bool.false_or] at hfull
    exact of_decide_eq_true hfull
  · rw [hl] at hrows
    intro htext
    have hvalue : valueOf k (valueOf l.key inc.items).items = text [] := htext
    have hmem := mem_of_valueOf_ne_null (items_distinct hinc l.key).nodup
      (by rw [hvalue]; exact nofun)
    have hrow := List.all_eq_true.mp hrows _ hmem
    rw [hvalue] at hrow
    simp at hrow

theorem receiver_digest_eq_receiverNode :
    pfbSyncPolicyMerge sharedKeys senderNode receiverNode = .ok (receivedNode, ignoredOfSender) ∧
    pfbSyncPolicyDigest id (pfbSyncPolicyProjection sharedKeys receivedNode) =
      pfbSyncPolicyDigest id
        (pfbSyncPolicyProjection sharedKeys (ignoredRemoved sharedKeys senderNode)) := by
  have hsides : ∀ s ∈ pfblockerngSyncSections true, isComparable sharedKeys s
      (valueOf s.name senderNode) (valueOf s.name receiverNode) = true := by
    decide +kernel
  exact ⟨merge_senderNode, receiver_digest_eq sharedKeys distinct_senderNode distinct_receiverNode
    (fun s => comparable_of_isComparable (items_distinct distinct_senderNode s.name)
      (hsides s (mem_syncSections s))) merge_senderNode id⟩

/-! ### What each condition is for -/

/-- An accepted payload without empty arrays, after which the digests differ. -/
def Disagrees (incoming current : Items) : Prop :=
  (KeyTree.node incoming : Value).Distinct ∧ (KeyTree.node current : Value).Distinct ∧
    (KeyTree.node incoming : Value).Full ∧
    ∃ r, pfbSyncPolicyMerge sharedKeys incoming current = .ok r ∧
      pfbSyncPolicyDigest id (pfbSyncPolicyProjection sharedKeys r.1) ≠
        pfbSyncPolicyDigest id
          (pfbSyncPolicyProjection sharedKeys (ignoredRemoved sharedKeys incoming))

/-- The feed rows of the one group of a node. -/
def feedRows (rows : Items) : Items := [groups [(kZero, group "spam".toList [] rows)]]

def firstRow : Str × Value := (kZero, feedRow "a".toList)

def secondRow : Str × Value := (kOne, feedRow "b".toList)

def unclassifiedRow (k : Str) : Str × Value := (k, .node [(upperKey, text on)])

/-- A receiver that holds the second feed row alone gets the first one after it; a feed row with
nothing but an ignored key arrives as an empty one, and so does a list whose only row is ignored;
and a key of the receiver's that cannot be classified stays in its feed row. -/
theorem digests_differ :
    Disagrees (feedRows [firstRow, secondRow]) (feedRows [secondRow]) ∧
    Disagrees (feedRows [firstRow, unclassifiedRow kOne]) [] ∧
    Disagrees [groups [(upperKey, group "spam".toList [] [firstRow])]] [] ∧
    Disagrees (feedRows [firstRow]) (feedRows [unclassifiedRow kZero]) := by
  refine ⟨⟨by decide +kernel, by decide +kernel, by decide +kernel,
      (feedRows [secondRow, firstRow], []), by decide +kernel, by decide +kernel⟩,
    ⟨by decide +kernel, by decide +kernel, by decide +kernel,
      ([groups [(kZero, withDefaults (group "spam".toList [] [firstRow, (kOne, .node [])]) ipRow)]],
        ["installedpackages/pfblockernglistsv4/config/0/row/1/*".toList]),
      by decide +kernel, by decide +kernel⟩,
    ⟨by decide +kernel, by decide +kernel, by decide +kernel,
      ([groups []], ["installedpackages/pfblockernglistsv4/config/*/aliasname".toList,
        "installedpackages/pfblockernglistsv4/config/*/row/0/url".toList]),
      by decide +kernel, by decide +kernel⟩,
    ⟨by decide +kernel, by decide +kernel, by decide +kernel,
      (feedRows [(kZero, .node [(upperKey, text on), ("url".toList, text "a".toList)])], []),
      by decide +kernel, by decide +kernel⟩⟩

end PfBlockerNG.SyncAgreement
