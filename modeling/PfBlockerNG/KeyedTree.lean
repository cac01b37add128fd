import Mathlib.Data.List.Sort
import Mathlib.Data.List.Nodup
import Mathlib.Tactic.Common
import PfBlockerNG.OrderedDict

/-!
Ordered trees whose children stand under keys: paths and leaves, the tree rebuilt from its
leaves, and the canonical form in which equal contents compare equal.
-/

namespace PfBlockerNG.KeyedTree

open OrderedDict

universe u v

inductive KeyTree (κ : Type u) (α : Type v)
  | leaf (a : α)
  | node (items : List (κ × KeyTree κ α))

namespace KeyTree

variable {κ : Type u} {α : Type v}

/-- The children of a node; a leaf has none. -/
def items : KeyTree κ α → List (κ × KeyTree κ α)
  | leaf _ => []
  | node items => items

@[simp] theorem items_leaf (a : α) : (leaf a : KeyTree κ α).items = [] := rfl

@[simp] theorem items_node (items : List (κ × KeyTree κ α)) : (node items).items = items := rfl

theorem node_ne_leaf (items : List (κ × KeyTree κ α)) (a : α) : node items ≠ leaf a := by simp

mutual

def decEq [DecidableEq κ] [DecidableEq α] : (s t : KeyTree κ α) → Decidable (s = t)
  | leaf a, leaf b =>
      if h : a = b then isTrue (congrArg leaf h) else isFalse fun e => h (leaf.inj e)
  | leaf _, node _ => isFalse nofun
  | node _, leaf _ => isFalse nofun
  | node xs, node ys =>
      match itemsDecEq xs ys with
      | isTrue h => isTrue (congrArg node h)
      | isFalse h => isFalse fun e => h (node.inj e)

def itemsDecEq [DecidableEq κ] [DecidableEq α] :
    (xs ys : List (κ × KeyTree κ α)) → Decidable (xs = ys)
  | [], [] => isTrue rfl
  | [], _ :: _ => isFalse nofun
  | _ :: _, [] => isFalse nofun
  | (k, s) :: xs, (l, t) :: ys =>
      if hk : k = l then
        match decEq s t, itemsDecEq xs ys with
        | isTrue h, isTrue h' => isTrue (by rw [hk, h, h'])
        | isFalse h, _ => isFalse fun e => h (Prod.mk.inj (List.cons.inj e).1).2
        | _, isFalse h => isFalse fun e => h (List.cons.inj e).2
      else isFalse fun e => hk (Prod.mk.inj (List.cons.inj e).1).1

end

instance [DecidableEq κ] [DecidableEq α] : DecidableEq (KeyTree κ α) := decEq

mutual

theorem inductionTree {P : KeyTree κ α → Prop} (hleaf : ∀ a, P (leaf a))
    (hnode : ∀ items, (∀ item ∈ items, P item.2) → P (node items)) : ∀ t, P t
  | leaf a => hleaf a
  | node items => hnode items (inductionItems hleaf hnode items)

theorem inductionItems {P : KeyTree κ α → Prop} (hleaf : ∀ a, P (leaf a))
    (hnode : ∀ items, (∀ item ∈ items, P item.2) → P (node items)) :
    ∀ items : List (κ × KeyTree κ α), ∀ item ∈ items, P item.2
  | [], _, h => absurd h List.not_mem_nil
  | (_, t) :: items, item, h =>
      (List.mem_cons.mp h).elim (fun e => e ▸ inductionTree hleaf hnode t)
        (inductionItems hleaf hnode items item)

end

/-- No node holds two children under one key. -/
inductive Distinct : KeyTree κ α → Prop
  | leaf (a : α) : Distinct (leaf a)
  | node {items : List (κ × KeyTree κ α)} (hkeys : (items.map Prod.fst).Nodup)
      (hitems : ∀ item ∈ items, Distinct item.2) : Distinct (node items)

theorem distinct_node {items : List (κ × KeyTree κ α)} :
    Distinct (node items) ↔ (items.map Prod.fst).Nodup ∧ ∀ item ∈ items, Distinct item.2 := by
  constructor
  · rintro (_ | ⟨hkeys, hitems⟩)
    exact ⟨hkeys, hitems⟩
  · exact fun h => .node h.1 h.2

theorem Distinct.nodup {t : KeyTree κ α} (h : Distinct t) : (t.items.map Prod.fst).Nodup := by
  cases h with
  | leaf a => exact List.nodup_nil
  | node hkeys _ => exact hkeys

theorem Distinct.nodup_keys {items : List (κ × KeyTree κ α)} (h : Distinct (KeyTree.node items)) :
    (items.map Prod.fst).Nodup := h.nodup

theorem Distinct.of_mem {t : KeyTree κ α} (h : Distinct t) {item : κ × KeyTree κ α}
    (hitem : item ∈ t.items) : Distinct item.2 := by
  cases h with
  | leaf a => exact absurd hitem List.not_mem_nil
  | node _ hitems => exact hitems item hitem

/-! ### Leaves and paths -/

mutual

/-- The leaves with their paths, in order; a node without children counts as a leaf. -/
def leaves : KeyTree κ α → List (List κ × KeyTree κ α)
  | leaf a => [([], leaf a)]
  | node [] => [([], node [])]
  | node (item :: items) => itemsLeaves (item :: items)

def itemsLeaves : List (κ × KeyTree κ α) → List (List κ × KeyTree κ α)
  | [] => []
  | (k, t) :: items => (leaves t).map (fun e => (k :: e.1, e.2)) ++ itemsLeaves items

end

theorem itemsLeaves_eq_flatMap (items : List (κ × KeyTree κ α)) :
    itemsLeaves items =
      items.flatMap fun item => (leaves item.2).map fun e => (item.1 :: e.1, e.2) := by
  induction items with
  | nil => rfl
  | cons item items ih => rw [itemsLeaves, ih, List.flatMap_cons]

theorem itemsLeaves_ne_nil_path {items : List (κ × KeyTree κ α)} {e : List κ × KeyTree κ α}
    (he : e ∈ itemsLeaves items) : e.1 ≠ [] := by
  rw [itemsLeaves_eq_flatMap] at he
  obtain ⟨item, _, hin⟩ := List.mem_flatMap.mp he
  obtain ⟨e', _, rfl⟩ := List.mem_map.mp hin
  exact List.cons_ne_nil _ _

/-- No node below is without children. -/
inductive Full : KeyTree κ α → Prop
  | leaf (a : α) : Full (leaf a)
  | node {items : List (κ × KeyTree κ α)} (hne : items ≠ [])
      (hitems : ∀ item ∈ items, Full item.2) : Full (node items)

theorem full_node {items : List (κ × KeyTree κ α)} :
    Full (node items) ↔ items ≠ [] ∧ ∀ item ∈ items, Full item.2 := by
  constructor
  · rintro (_ | ⟨hne, hitems⟩)
    exact ⟨hne, hitems⟩
  · exact fun h => .node h.1 h.2

theorem leaves_node_of_full {items : List (κ × KeyTree κ α)} (h : Full (node items)) :
    leaves (node items) = itemsLeaves items := by
  cases items with
  | nil => cases h with | node hne _ => exact absurd rfl hne
  | cons item items => rfl

theorem leaves_ne_nil_of_full {t : KeyTree κ α} (h : Full t) : leaves t ≠ [] := by
  induction t using inductionTree with
  | hleaf a => exact List.cons_ne_nil _ _
  | hnode items ih =>
      rw [leaves_node_of_full h]
      cases h with
      | node hne hitems =>
          cases items with
          | nil => exact absurd rfl hne
          | cons item items =>
              have hhead := ih item List.mem_cons_self (hitems item List.mem_cons_self)
              simp [itemsLeaves, hhead]

section
variable [DecidableEq κ]

/-- The children under `k`, none when what stands there is no node. -/
def childItems (k : κ) (items : List (κ × KeyTree κ α)) : List (κ × KeyTree κ α) :=
  ((lookup k items).map KeyTree.items).getD []

/-- Put `t` under a path, turning what is in the way into nodes. -/
def put (t : KeyTree κ α) : List κ → List (κ × KeyTree κ α) → List (κ × KeyTree κ α)
  | [], items => items
  | [k], items => store k t items
  | k :: k' :: path, items => store k (node (put t (k' :: path) (childItems k items))) items

/-- The children a list of leaves with their paths makes, one after the other. -/
def plant (items : List (κ × KeyTree κ α)) (entries : List (List κ × KeyTree κ α)) :
    List (κ × KeyTree κ α) :=
  entries.foldl (fun items entry => put entry.2 entry.1 items) items

@[simp] theorem plant_nil (items : List (κ × KeyTree κ α)) : plant items [] = items := rfl

@[simp] theorem plant_cons (items : List (κ × KeyTree κ α)) (e : List κ × KeyTree κ α)
    (entries : List (List κ × KeyTree κ α)) :
    plant items (e :: entries) = plant (put e.2 e.1 items) entries := rfl

theorem plant_append (items : List (κ × KeyTree κ α)) (xs ys : List (List κ × KeyTree κ α)) :
    plant items (xs ++ ys) = plant (plant items xs) ys := List.foldl_append

theorem store_store (k : κ) (a b : KeyTree κ α) (items : List (κ × KeyTree κ α)) :
    store k b (store k a items) = store k b items := by
  induction items with
  | nil => simp [store]
  | cons item items ih =>
      by_cases h : item.1 = k <;> simp [store, h, ih]

@[simp] theorem childItems_store (k : κ) (t : KeyTree κ α) (items : List (κ × KeyTree κ α)) :
    childItems k (store k t items) = t.items := by
  simp [childItems, lookup_store]

theorem childItems_of_not_mem {k : κ} {items : List (κ × KeyTree κ α)}
    (h : k ∉ items.map Prod.fst) : childItems k items = [] := by
  simp [childItems, (lookup_eq_none_iff k items).mpr h]

/-- Leaves that all go under one key make the node under it. -/
theorem plant_under (k : κ) {entries : List (List κ × KeyTree κ α)} (hne : entries ≠ [])
    (hpaths : ∀ e ∈ entries, e.1 ≠ []) (items : List (κ × KeyTree κ α)) :
    plant items (entries.map fun e => (k :: e.1, e.2)) =
      store k (node (plant (childItems k items) entries)) items := by
  induction entries generalizing items with
  | nil => exact absurd rfl hne
  | cons e entries ih =>
      have hput : put e.2 (k :: e.1) items =
          store k (node (put e.2 e.1 (childItems k items))) items := by
        cases hpath : e.1 with
        | nil => exact absurd hpath (hpaths e List.mem_cons_self)
        | cons k' path => rfl
      rw [List.map_cons, plant_cons, hput]
      by_cases hrest : entries = []
      · subst hrest
        rfl
      · rw [ih hrest (fun e' he' => hpaths e' (List.mem_cons_of_mem _ he')), childItems_store,
          store_store]
        rfl

/-- Children whose leaves append them one by one are what all their leaves make. -/
theorem plant_itemsLeaves_of {items : List (κ × KeyTree κ α)} (hkeys : (items.map Prod.fst).Nodup)
    (hchild : ∀ item ∈ items, ∀ acc : List (κ × KeyTree κ α), item.1 ∉ acc.map Prod.fst →
      plant acc ((leaves item.2).map fun e => (item.1 :: e.1, e.2)) = acc ++ [item]) :
    plant [] (itemsLeaves items) = items := by
  suffices h : ∀ rest before : List (κ × KeyTree κ α), before ++ rest = items →
      plant before (itemsLeaves rest) = items from h items [] rfl
  intro rest
  induction rest with
  | nil => intro before h; simpa [itemsLeaves] using h
  | cons item rest ih =>
      intro before h
      have hin : item ∈ items := by rw [← h]; simp
      have hfresh : item.1 ∉ before.map Prod.fst := by
        rw [← h, List.map_append, List.map_cons] at hkeys
        exact fun hm => (List.nodup_append.mp hkeys).2.2 _ hm _ List.mem_cons_self rfl
      rw [itemsLeaves, plant_append, hchild item hin before hfresh]
      exact ih (before ++ [item]) (by rw [← h, List.append_assoc, List.singleton_append])

/-- Planting the leaves of a tree under a fresh key appends the tree itself. -/
theorem plant_leaves {t : KeyTree κ α} (hfull : Full t) (hdistinct : Distinct t) (k : κ)
    (acc : List (κ × KeyTree κ α)) (hk : k ∉ acc.map Prod.fst) :
    plant acc ((leaves t).map fun e => (k :: e.1, e.2)) = acc ++ [(k, t)] := by
  induction t using inductionTree generalizing acc k with
  | hleaf a => exact store_of_not_mem hk
  | hnode items ih =>
      have hchildren : ∀ item ∈ items, Full item.2 := by
        cases hfull with | node _ hall => exact hall
      have hitems : plant [] (itemsLeaves items) = items :=
        plant_itemsLeaves_of hdistinct.nodup fun item hin acc' hfresh =>
          ih item hin (hchildren item hin) (hdistinct.of_mem hin) item.1 acc' hfresh
      have hne : itemsLeaves items ≠ [] :=
        leaves_node_of_full hfull ▸ leaves_ne_nil_of_full hfull
      rw [leaves_node_of_full hfull, plant_under k hne (fun e he => itemsLeaves_ne_nil_path he),
        childItems_of_not_mem hk, hitems, store_of_not_mem hk]

/-- A tree in which no node is empty is the one its leaves make. -/
theorem plant_itemsLeaves {items : List (κ × KeyTree κ α)} (hkeys : (items.map Prod.fst).Nodup)
    (hfull : ∀ item ∈ items, Full item.2) (hdistinct : ∀ item ∈ items, Distinct item.2) :
    plant [] (itemsLeaves items) = items :=
  plant_itemsLeaves_of hkeys fun item hin acc hfresh =>
    plant_leaves (hfull item hin) (hdistinct item hin) item.1 acc hfresh

theorem childItems_append_cons {k : κ} (t : KeyTree κ α) {before rest : List (κ × KeyTree κ α)}
    (h : k ∉ before.map Prod.fst) : childItems k (before ++ (k, t) :: rest) = t.items := by
  rw [childItems, lookup_append, (lookup_eq_none_iff k before).mpr h]
  simp [lookup]

/-- The leaves of several trees, each under a key of its own that already stands there. -/
theorem plant_under_each {ι : Type*} (key : ι → κ) (f : ι → List (κ × KeyTree κ α)) (is : List ι)
    (hf : ∀ i ∈ is, plant [] (itemsLeaves (f i)) = f i) (before : List (κ × KeyTree κ α))
    (hkeys : (before.map Prod.fst ++ is.map key).Nodup) :
    plant (before ++ is.map fun i => (key i, node []))
        (is.flatMap fun i => (itemsLeaves (f i)).map fun e => (key i :: e.1, e.2)) =
      before ++ is.map fun i => (key i, node (f i)) := by
  induction is generalizing before with
  | nil => rfl
  | cons i is ih =>
      have hout : key i ∉ before.map Prod.fst := fun hin =>
        (List.nodup_append.mp hkeys).2.2 _ hin _ List.mem_cons_self rfl
      have hplanted : plant (before ++ (key i, node []) :: is.map fun i => (key i, node []))
          ((itemsLeaves (f i)).map fun e => (key i :: e.1, e.2)) =
          before ++ (key i, node (f i)) :: is.map fun i => (key i, node []) := by
        have hi := hf i List.mem_cons_self
        by_cases hne : itemsLeaves (f i) = []
        · rw [hne] at hi ⊢
          rw [← hi]
          rfl
        · rw [plant_under _ hne (fun e he => itemsLeaves_ne_nil_path he),
            childItems_append_cons _ hout, items_node, hi, store_append_cons _ _ hout]
      have hnext := ih (fun j hj => hf j (List.mem_cons_of_mem _ hj))
        (before ++ [(key i, node (f i))]) (by simpa using hkeys)
      rw [List.map_cons, List.flatMap_cons, plant_append, hplanted]
      simpa using hnext

end

theorem nodup_leaves {t : KeyTree κ α} (h : Distinct t) : ((leaves t).map Prod.fst).Nodup := by
  induction t using inductionTree with
  | hleaf a => exact List.nodup_singleton _
  | hnode items ih =>
      have hitems : ((itemsLeaves items).map Prod.fst).Nodup := by
        rw [itemsLeaves_eq_flatMap, List.map_flatMap]
        have hkeys : (items.map Prod.fst).Nodup := h.nodup
        refine List.nodup_flatMap.mpr ⟨fun item hitem => ?_, ?_⟩
        · rw [List.map_map]
          have hchild := ih item hitem (h.of_mem hitem)
          have hcons := hchild.map (f := (item.1 :: ·)) fun _ _ e => (List.cons.inj e).2
          rwa [List.map_map] at hcons
        · refine (List.pairwise_map.mp hkeys).imp fun {x y} hxy => ?_
          intro path hx hy
          obtain ⟨_, hx', rfl⟩ := List.mem_map.mp hx
          obtain ⟨_, hy', heq⟩ := List.mem_map.mp hy
          obtain ⟨_, _, rfl⟩ := List.mem_map.mp hx'
          obtain ⟨_, _, rfl⟩ := List.mem_map.mp hy'
          exact hxy (List.cons.inj heq).1.symm
      cases items with
      | nil => exact List.nodup_singleton _
      | cons item items => exact hitems

theorem nodup_itemsLeaves {items : List (κ × KeyTree κ α)} (h : Distinct (node items)) :
    ((itemsLeaves items).map Prod.fst).Nodup := by
  cases items with
  | nil => exact List.nodup_nil
  | cons item items => exact nodup_leaves h

/-! ### Tests -/

section
variable (test : List (κ × KeyTree κ α) → Bool)

mutual

/-- The test holds of the children of every node. -/
def everyNode : KeyTree κ α → Bool
  | leaf _ => true
  | node items => test items && everyItem items

def everyItem : List (κ × KeyTree κ α) → Bool
  | [] => true
  | (_, t) :: items => everyNode t && everyItem items

end

variable {test}

theorem everyItem_iff {items : List (κ × KeyTree κ α)} :
    everyItem test items = true ↔ ∀ item ∈ items, everyNode test item.2 = true := by
  induction items with
  | nil => simp [everyItem]
  | cons item items ih => rw [everyItem, Bool.and_eq_true, ih, List.forall_mem_cons]

theorem everyNode_node {items : List (κ × KeyTree κ α)} :
    everyNode test (node items) = true ↔
      test items = true ∧ ∀ item ∈ items, everyNode test item.2 = true := by
  rw [everyNode, Bool.and_eq_true, everyItem_iff]

end

theorem distinct_iff_everyNode [DecidableEq κ] (t : KeyTree κ α) :
    everyNode (fun items => decide (items.map Prod.fst).Nodup) t = true ↔ Distinct t := by
  induction t using inductionTree with
  | hleaf a => exact iff_of_true rfl (.leaf a)
  | hnode items ih =>
      rw [everyNode_node, distinct_node, decide_eq_true_eq]
      exact and_congr_right fun _ => forall₂_congr ih

instance [DecidableEq κ] (t : KeyTree κ α) : Decidable (Distinct t) :=
  decidable_of_iff _ (distinct_iff_everyNode t)

theorem full_iff_everyNode (t : KeyTree κ α) :
    everyNode (fun items => !items.isEmpty) t = true ↔ Full t := by
  induction t using inductionTree with
  | hleaf a => exact iff_of_true rfl (.leaf a)
  | hnode items ih =>
      rw [everyNode_node, Bool.not_eq_true', List.isEmpty_eq_false_iff, full_node]
      exact and_congr_right fun _ => forall₂_congr ih

instance (t : KeyTree κ α) : Decidable (Full t) := decidable_of_iff _ (full_iff_everyNode t)

/-! ### Canonical form -/

section
variable [LinearOrder κ] (isIndex : κ → Bool) (index : ℕ → κ)

/-- A list, all of whose keys are indices, is numbered anew; other children are sorted by key. -/
def arrange (items : List (κ × KeyTree κ α)) : List (κ × KeyTree κ α) :=
  if items.all fun item => isIndex item.1 then
    items.mapIdx fun i item => (index i, item.2)
  else items.insertionSort fun a b => a.1 ≤ b.1

mutual

def canonical : KeyTree κ α → KeyTree κ α
  | leaf a => leaf a
  | node items => node (arrange isIndex index (itemsCanonical items))

def itemsCanonical : List (κ × KeyTree κ α) → List (κ × KeyTree κ α)
  | [] => []
  | (k, t) :: items => (k, canonical t) :: itemsCanonical items

end

theorem itemsCanonical_eq_map (items : List (κ × KeyTree κ α)) :
    itemsCanonical isIndex index items =
      items.map fun item => (item.1, canonical isIndex index item.2) := by
  induction items with
  | nil => rfl
  | cons item items ih => rw [itemsCanonical, ih, List.map_cons]

theorem keys_itemsCanonical (items : List (κ × KeyTree κ α)) :
    (itemsCanonical isIndex index items).map Prod.fst = items.map Prod.fst := by
  rw [itemsCanonical_eq_map, List.map_map]
  rfl

variable {isIndex index} in
/-- Children that agree up to their order are arranged alike, unless they are a list. -/
theorem arrange_eq_of_perm {xs ys : List (κ × KeyTree κ α)} (hkeys : (xs.map Prod.fst).Nodup)
    (hperm : xs.Perm ys) (hlist : (xs.all fun item => isIndex item.1) = true → xs = ys) :
    arrange isIndex index xs = arrange isIndex index ys := by
  have hall : (ys.all fun item => isIndex item.1) = xs.all fun item => isIndex item.1 :=
    hperm.symm.all_eq
  by_cases h : (xs.all fun item => isIndex item.1) = true
  · rw [hlist h]
  · rw [arrange, arrange, if_neg h, if_neg (hall ▸ h)]
    have hsame : ∀ a b : κ × KeyTree κ α, a ∈ xs.insertionSort (fun a b => a.1 ≤ b.1) →
        b ∈ ys.insertionSort (fun a b => a.1 ≤ b.1) → a.1 ≤ b.1 → b.1 ≤ a.1 → a = b := by
      intro a b ha hb hab hba
      have hax := (List.perm_insertionSort _ xs).subset ha
      have hbx := hperm.symm.subset ((List.perm_insertionSort _ ys).subset hb)
      exact List.inj_on_of_nodup_map hkeys hax hbx (le_antisymm hab hba)
    exact List.Perm.eq_of_pairwise hsame (List.pairwise_insertionSort _ xs)
      (List.pairwise_insertionSort _ ys)
      ((List.perm_insertionSort _ xs).trans (hperm.trans (List.perm_insertionSort _ ys).symm))

variable {isIndex index} in
/-- Two nodes are canonically equal when the same keys hold canonically equal children, in the
same order where the keys are all indices. -/
theorem canonical_node_eq {xs ys : List (κ × KeyTree κ α)} (hxs : (xs.map Prod.fst).Nodup)
    (hys : (ys.map Prod.fst).Nodup)
    (hmem : ∀ item, item ∈ itemsCanonical isIndex index xs ↔
      item ∈ itemsCanonical isIndex index ys)
    (hlist : (xs.all fun item => isIndex item.1) = true → xs.map Prod.fst = ys.map Prod.fst) :
    canonical isIndex index (node xs) = canonical isIndex index (node ys) := by
  have hx : ((itemsCanonical isIndex index xs).map Prod.fst).Nodup := by
    rwa [keys_itemsCanonical]
  have hy : ((itemsCanonical isIndex index ys).map Prod.fst).Nodup := by
    rwa [keys_itemsCanonical]
  have hperm := (List.perm_ext_iff_of_nodup hx.of_map hy.of_map).mpr hmem
  rw [canonical, canonical, arrange_eq_of_perm hx hperm fun hall => ?_]
  have hkeys : (itemsCanonical isIndex index xs).map Prod.fst =
      (itemsCanonical isIndex index ys).map Prod.fst := by
    rw [keys_itemsCanonical, keys_itemsCanonical]
    refine hlist ?_
    rw [itemsCanonical_eq_map, List.all_map] at hall
    exact hall
  refine List.ext_getElem (by simpa using congrArg List.length hkeys) fun i hi hi' => ?_
  have hkey : (itemsCanonical isIndex index xs)[i].1 = (itemsCanonical isIndex index ys)[i].1 := by
    have := congrArg (fun l => l[i]?) hkeys
    simpa [hi, hi'] using this
  exact List.inj_on_of_nodup_map hy ((hmem _).mp (List.getElem_mem hi)) (List.getElem_mem hi') hkey

end

end KeyTree

end PfBlockerNG.KeyedTree
