import Mathlib.Data.List.Nodup
import Mathlib.Data.List.Basic

/-!
Insertion-ordered dictionaries. Overwriting a key keeps its place in the
iteration order; a new key goes to the end. Keys are distinct by construction.
-/

namespace PfBlockerNG.OrderedDict

universe u v w

variable {κ : Type u} {α : Type v} [DecidableEq κ]

/-- Value of the first pair whose key is `k`. -/
def lookup (k : κ) : List (κ × α) → Option α
  | [] => none
  | (k', a) :: items => if k' = k then some a else lookup k items

/-- Overwrite the value of `k` in place, or append a new pair. -/
def store (k : κ) (a : α) : List (κ × α) → List (κ × α)
  | [] => [(k, a)]
  | (k', a') :: items => if k' = k then (k, a) :: items else (k', a') :: store k a items

theorem lookup_nil (k : κ) : lookup k ([] : List (κ × α)) = none := rfl

theorem lookup_cons (k : κ) (item : κ × α) (items : List (κ × α)) :
    lookup k (item :: items) = if item.1 = k then some item.2 else lookup k items := rfl

theorem store_nil (k : κ) (a : α) : store k a [] = [(k, a)] := rfl

theorem store_cons (k : κ) (a : α) (item : κ × α) (items : List (κ × α)) :
    store k a (item :: items) =
      if item.1 = k then (k, a) :: items else item :: store k a items := rfl

theorem keys_store (k : κ) (a : α) (items : List (κ × α)) :
    (store k a items).map Prod.fst =
      if k ∈ items.map Prod.fst then items.map Prod.fst else items.map Prod.fst ++ [k] := by
  induction items with
  | nil => simp [store_nil]
  | cons item items ih =>
      obtain ⟨k', a'⟩ := item
      by_cases h : k' = k
      · simp [store_cons, h]
      · have hne : ¬ k = k' := fun e => h e.symm
        simp only [store_cons, h, if_false, List.map_cons, List.mem_cons, hne, false_or, ih]
        split <;> simp

theorem nodup_store {k : κ} {a : α} {items : List (κ × α)}
    (h : (items.map Prod.fst).Nodup) : ((store k a items).map Prod.fst).Nodup := by
  rw [keys_store]
  split
  · exact h
  · rename_i hk
    exact List.nodup_append.mpr ⟨h, List.nodup_singleton k, fun x hx y hy => by
      rintro rfl
      exact hk (List.mem_singleton.mp hy ▸ hx)⟩

theorem lookup_store (k k' : κ) (a : α) (items : List (κ × α)) :
    lookup k' (store k a items) = if k = k' then some a else lookup k' items := by
  induction items with
  | nil => simp [store_nil, lookup_nil, lookup_cons]
  | cons item items ih =>
      obtain ⟨k₀, a₀⟩ := item
      by_cases h : k₀ = k
      · subst h
        by_cases hk : k₀ = k' <;> simp [store_cons, lookup_cons, hk]
      · by_cases hk : k₀ = k'
        · subst hk
          simp [store_cons, lookup_cons, h, Ne.symm h]
        · simp [store_cons, lookup_cons, h, hk, ih]

theorem lookup_eq_none_iff (k : κ) (items : List (κ × α)) :
    lookup k items = none ↔ k ∉ items.map Prod.fst := by
  induction items with
  | nil => simp [lookup_nil]
  | cons item items ih =>
      obtain ⟨k', a⟩ := item
      by_cases h : k' = k
      · simp [lookup_cons, h]
      · have hne : ¬ k = k' := fun e => h e.symm
        simp [lookup_cons, h, hne, ih]

theorem lookup_eq_some_iff {items : List (κ × α)} (h : (items.map Prod.fst).Nodup)
    (k : κ) (a : α) : lookup k items = some a ↔ (k, a) ∈ items := by
  induction items with
  | nil => simp [lookup_nil]
  | cons item items ih =>
      obtain ⟨k', a'⟩ := item
      rw [List.map_cons, List.nodup_cons] at h
      by_cases hk : k' = k
      · subst hk
        have hout : (k', a) ∉ items := fun hm => h.1 (List.mem_map.mpr ⟨_, hm, rfl⟩)
        simp [lookup_cons, hout, eq_comm]
      · have hne : ¬ k = k' := fun e => hk e.symm
        simp [lookup_cons, hk, hne, ih h.2]

theorem lookup_append (k : κ) (xs ys : List (κ × α)) :
    lookup k (xs ++ ys) = (lookup k xs).or (lookup k ys) := by
  induction xs with
  | nil => rfl
  | cons item xs ih =>
      by_cases h : item.1 = k <;> simp [lookup_cons, h, ih]

section
variable {β : Type w} {f : κ × α → Option (κ × β)}

omit [DecidableEq κ] in
theorem keys_filterMap_sublist (hf : ∀ x y, f x = some y → y.1 = x.1) (items : List (κ × α)) :
    ((items.filterMap f).map Prod.fst).Sublist (items.map Prod.fst) := by
  induction items with
  | nil => exact List.Sublist.slnil
  | cons item items ih =>
      cases h : f item with
      | none => simpa [List.filterMap_cons, h] using ih.cons item.1
      | some y =>
          rw [List.filterMap_cons, h, List.map_cons, List.map_cons, hf item y h]
          exact ih.cons_cons item.1

/-- A lookup in what a key-keeping function leaves of a dictionary. -/
theorem lookup_filterMap (hf : ∀ x y, f x = some y → y.1 = x.1) {items : List (κ × α)}
    (hnodup : (items.map Prod.fst).Nodup) (k : κ) :
    lookup k (items.filterMap f) = (lookup k items).bind fun a => (f (k, a)).map Prod.snd := by
  induction items with
  | nil => rfl
  | cons item items ih =>
      obtain ⟨k', a⟩ := item
      rw [List.map_cons, List.nodup_cons] at hnodup
      have hrest := ih hnodup.2
      by_cases hk : k' = k
      · subst hk
        have hout : lookup k' (items.filterMap f) = none := by
          rw [hrest, (lookup_eq_none_iff k' items).mpr hnodup.1]
          rfl
        cases h : f (k', a) with
        | none => simp [h, lookup_cons, hout]
        | some y => simp [h, lookup_cons, hf _ _ h]
      · cases h : f (k', a) with
        | none => simp [h, lookup_cons, hk, hrest]
        | some y => simp [h, lookup_cons, hf _ _ h, hk, hrest]

end

theorem store_of_not_mem {k : κ} {a : α} {items : List (κ × α)}
    (h : k ∉ items.map Prod.fst) : store k a items = items ++ [(k, a)] := by
  induction items with
  | nil => rfl
  | cons item items ih =>
      rw [List.map_cons, List.mem_cons, not_or] at h
      simp [store_cons, Ne.symm h.1, ih h.2]

theorem store_append_cons {k : κ} (a b : α) {before rest : List (κ × α)}
    (h : k ∉ before.map Prod.fst) :
    store k a (before ++ (k, b) :: rest) = before ++ (k, a) :: rest := by
  induction before with
  | nil => simp [store_cons]
  | cons item before ih =>
      rw [List.map_cons, List.mem_cons, not_or] at h
      simp [store_cons, Ne.symm h.1, ih h.2]

theorem foldl_store {items extra : List (κ × α)}
    (h : (items.map Prod.fst ++ extra.map Prod.fst).Nodup) :
    extra.foldl (fun items x => store x.1 x.2 items) items = items ++ extra := by
  induction extra generalizing items with
  | nil => simp
  | cons x extra ih =>
      have hx : x.1 ∉ items.map Prod.fst := fun hin =>
        (List.nodup_append.mp h).2.2 _ hin _ List.mem_cons_self rfl
      rw [List.foldl_cons, store_of_not_mem hx, ih (by simpa using h)]
      simp

/-- An insertion-ordered dictionary: its pairs in iteration order, no key twice. -/
structure Dict (κ : Type u) (α : Type v) where
  items : List (κ × α)
  nodup : (items.map Prod.fst).Nodup

namespace Dict

omit [DecidableEq κ] in
@[ext] theorem ext {d e : Dict κ α} (h : d.items = e.items) : d = e := by
  cases d
  cases e
  simp_all

def empty : Dict κ α := ⟨[], List.nodup_nil⟩

def get (d : Dict κ α) (k : κ) : Option α := lookup k d.items

def set (d : Dict κ α) (k : κ) (a : α) : Dict κ α := ⟨store k a d.items, nodup_store d.nodup⟩

/-- Write every pair of a list, in order. -/
def update (d : Dict κ α) (pairs : List (κ × α)) : Dict κ α :=
  pairs.foldl (fun e p => e.set p.1 p.2) d

def pop (d : Dict κ α) (k : κ) : Dict κ α :=
  ⟨d.items.filter fun p => p.1 ≠ k, (List.filter_sublist.map Prod.fst).nodup d.nodup⟩

def keys (d : Dict κ α) : List κ := d.items.map Prod.fst

def length (d : Dict κ α) : Nat := d.items.length

/-- Every value through `f`, which sees the key too. -/
def mapValues {β : Type w} (f : κ → α → β) (d : Dict κ α) : Dict κ β :=
  ⟨d.items.map fun p => (p.1, f p.1 p.2), by
    rw [List.map_map]
    exact d.nodup⟩

/-- Truth value: some pair is held. -/
def nonempty (d : Dict κ α) : Bool := !d.items.isEmpty

@[simp] theorem get_empty (k : κ) : (empty : Dict κ α).get k = none := rfl

omit [DecidableEq κ] in
@[simp] theorem nonempty_empty : (empty : Dict κ α).nonempty = false := rfl

theorem get_set (d : Dict κ α) (k k' : κ) (a : α) :
    (d.set k a).get k' = if k = k' then some a else d.get k' :=
  lookup_store k k' a d.items

@[simp] theorem get_set_self (d : Dict κ α) (k : κ) (a : α) : (d.set k a).get k = some a := by
  simp [get_set]

theorem get_set_of_ne (d : Dict κ α) {k k' : κ} (a : α) (h : k ≠ k') :
    (d.set k a).get k' = d.get k' := by
  simp [get_set, h]

theorem get_eq_some_iff (d : Dict κ α) (k : κ) (a : α) :
    d.get k = some a ↔ (k, a) ∈ d.items :=
  lookup_eq_some_iff d.nodup k a

theorem mem_keys_iff (d : Dict κ α) (k : κ) : k ∈ d.keys ↔ ∃ a, d.get k = some a := by
  rw [keys, ← Option.ne_none_iff_exists', ne_eq, get, lookup_eq_none_iff, not_not]

theorem get_pop (d : Dict κ α) (k k' : κ) :
    (d.pop k).get k' = if k = k' then none else d.get k' := by
  refine Option.ext fun a => ?_
  rw [get_eq_some_iff, pop, List.mem_filter]
  by_cases h : k = k'
  · simp [h]
  · simp [h, get_eq_some_iff, Ne.symm h]

theorem get_mapValues {β : Type w} (f : κ → α → β) (d : Dict κ α) (k : κ) :
    (d.mapValues f).get k = (d.get k).map (f k) := by
  refine Option.ext fun b => ?_
  rw [get_eq_some_iff, mapValues, List.mem_map, Option.map_eq_some_iff]
  simp only [get_eq_some_iff, Prod.mk.injEq]
  constructor
  · rintro ⟨⟨k', a⟩, hmem, rfl, rfl⟩
    exact ⟨a, hmem, rfl⟩
  · rintro ⟨a, hmem, rfl⟩
    exact ⟨(k, a), hmem, rfl, rfl⟩

theorem nonempty_eq_true_iff (d : Dict κ α) : d.nonempty = true ↔ ∃ k a, d.get k = some a := by
  simp only [get_eq_some_iff]
  cases hitems : d.items with
  | nil => simp [nonempty, hitems]
  | cons item items =>
      exact ⟨fun _ => ⟨item.1, item.2, by simp⟩, fun _ => by simp [nonempty, hitems]⟩

theorem nonempty_eq_of_map_eq {β : Type w} {γ : Type*} {d : Dict κ α} {e : Dict κ β} {f : α → γ}
    {g : β → γ} (h : ∀ k, (d.get k).map f = (e.get k).map g) : d.nonempty = e.nonempty := by
  refine Bool.eq_iff_iff.mpr ?_
  rw [nonempty_eq_true_iff, nonempty_eq_true_iff]
  have hsome : ∀ k, (∃ a, d.get k = some a) ↔ ∃ b, e.get k = some b := fun k => by
    rw [← Option.isSome_iff_exists, ← Option.isSome_iff_exists, ← Option.isSome_map (f := f), h k,
      Option.isSome_map]
  exact exists_congr hsome

theorem get_eq_none_of_nonempty_eq_false {d : Dict κ α} (h : d.nonempty = false) (k : κ) :
    d.get k = none := by
  refine Option.eq_none_iff_forall_ne_some.mpr fun a ha => ?_
  rw [(nonempty_eq_true_iff d).mpr ⟨k, a, ha⟩] at h
  cases h

theorem get_update_of_not_mem (d : Dict κ α) {pairs : List (κ × α)} {k : κ}
    (h : k ∉ pairs.map Prod.fst) : (d.update pairs).get k = d.get k := by
  induction pairs generalizing d with
  | nil => rfl
  | cons p pairs ih =>
      rw [List.map_cons, List.mem_cons, not_or] at h
      exact (ih (d.set p.1 p.2) h.2).trans (get_set_of_ne d p.2 (Ne.symm h.1))

theorem get_update_of_mem (d : Dict κ α) {pairs : List (κ × α)}
    (hnodup : (pairs.map Prod.fst).Nodup) {k : κ} {a : α} (h : (k, a) ∈ pairs) :
    (d.update pairs).get k = some a := by
  induction pairs generalizing d with
  | nil => exact absurd h List.not_mem_nil
  | cons p pairs ih =>
      rw [List.map_cons, List.nodup_cons] at hnodup
      rcases List.mem_cons.mp h with heq | h
      · subst heq
        exact (get_update_of_not_mem (d.set k a) hnodup.1).trans (get_set_self d k a)
      · exact ih (d.set p.1 p.2) hnodup.2 h

theorem mem_or_get_of_get_update {d : Dict κ α} {pairs : List (κ × α)} {k : κ} {a : α}
    (h : (d.update pairs).get k = some a) : (k, a) ∈ pairs ∨ d.get k = some a := by
  induction pairs generalizing d with
  | nil => exact Or.inr h
  | cons p pairs ih =>
      rcases ih h with hmem | hget
      · exact Or.inl (List.mem_cons_of_mem _ hmem)
      · rw [get_set] at hget
        split at hget
        · rename_i hk
          exact Or.inl (List.mem_cons.mpr (Or.inl (by rw [← hk, ← Option.some.inj hget])))
        · exact Or.inr hget

end Dict

end PfBlockerNG.OrderedDict
