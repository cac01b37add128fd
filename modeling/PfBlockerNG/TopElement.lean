import Mathlib.Order.Bounds.Basic

/-!
The greatest of a set of ranks, where nothing ranks as the bottom element, and the rules
for scans that keep the greatest rank seen.
-/

namespace PfBlockerNG.TopElement

universe u v w

section Holder

variable {α : Type u} [LinearOrder α] {β : Type v} {γ : Type w} (rank : β → α)

/-- Keep the holder unless something of a strictly higher rank is offered. -/
def offer (holder : Option β) (x : Option β) : Option β :=
  match holder, x with
  | holder, none => holder
  | none, some x => some x
  | some h, some x => if rank h < rank x then some x else some h

/-- The holder is an element of `s` of the greatest rank, if `s` has any. -/
structure Holds (s : Set β) (holder : Option β) : Prop where
  mem : ∀ h, holder = some h → h ∈ s
  outranks : ∀ x ∈ s, ∃ h, holder = some h ∧ rank x ≤ rank h

variable {rank} {s t : Set β} {holder : Option β}

theorem holds_empty : Holds rank (∅ : Set β) none where
  mem _ h := by cases h
  outranks _ h := h.elim

theorem Holds.congr (h : Holds rank s holder) (hst : s = t) : Holds rank t holder := hst ▸ h

theorem Holds.offer (h : Holds rank s holder) (x : Option β) :
    Holds rank (s ∪ {y | x = some y}) (offer rank holder x) := by
  cases x with
  | none =>
      have hoffer : TopElement.offer rank holder none = holder := by cases holder <;> rfl
      exact hoffer.symm ▸ h.congr (by simp)
  | some x =>
      cases holder with
      | none =>
          refine ⟨fun y hy => Or.inr hy, fun y hy => ⟨x, rfl, ?_⟩⟩
          rcases hy with hy | hy
          · obtain ⟨_, hnone, -⟩ := h.outranks y hy
            cases hnone
          · exact (congrArg rank (Option.some.inj hy)).ge
      | some held =>
          have hheld := h.mem held rfl
          have hle : ∀ y ∈ s, rank y ≤ rank held := fun y hy => by
            obtain ⟨_, hsome, hy⟩ := h.outranks y hy
            exact Option.some.inj hsome ▸ hy
          simp only [TopElement.offer]
          split
          · rename_i hlt
            refine ⟨fun y hy => Or.inr hy, fun y hy => ⟨x, rfl, ?_⟩⟩
            rcases hy with hy | hy
            · exact (hle y hy).trans hlt.le
            · exact (congrArg rank (Option.some.inj hy)).ge
          · rename_i hlt
            refine ⟨fun y hy => Or.inl (Option.some.inj hy ▸ hheld), fun y hy => ⟨held, rfl, ?_⟩⟩
            rcases hy with hy | hy
            · exact hle y hy
            · exact Option.some.inj hy ▸ not_lt.mp hlt

/-- A scan that offers what each element yields. -/
theorem Holds.foldl (f : γ → Option β) (xs : List γ) (h : Holds rank s holder) :
    Holds rank (s ∪ {y | ∃ x ∈ xs, f x = some y})
      (xs.foldl (fun holder x => TopElement.offer rank holder (f x)) holder) := by
  induction xs generalizing s holder with
  | nil => exact h.congr (by simp)
  | cons x xs ih =>
      rw [List.foldl_cons]
      refine (ih (h.offer (f x))).congr ?_
      ext y
      simp only [Set.mem_union, Set.mem_ofPred_eq, List.mem_cons, exists_eq_or_imp, or_assoc]

/-- The rank kept depends on the ranks offered only. -/
theorem map_offer {holder holder' x x' : Option β} (h : holder.map rank = holder'.map rank)
    (hx : x.map rank = x'.map rank) :
    (TopElement.offer rank holder x).map rank = (TopElement.offer rank holder' x').map rank := by
  cases x <;> cases x' <;> cases holder <;> cases holder' <;>
    simp only [Option.map_some, Option.map_none, Option.some.injEq, reduceCtorEq] at h hx <;>
    simp only [TopElement.offer, apply_ite (Option.map rank), Option.map_some, Option.map_none, h,
      hx]

theorem map_foldl_offer {f f' : γ → Option β} (hf : ∀ x, (f x).map rank = (f' x).map rank)
    (xs : List γ) {holder holder' : Option β} (h : holder.map rank = holder'.map rank) :
    (xs.foldl (fun holder x => TopElement.offer rank holder (f x)) holder).map rank =
      (xs.foldl (fun holder x => TopElement.offer rank holder (f' x)) holder').map rank := by
  induction xs generalizing holder holder' with
  | nil => exact h
  | cons x xs ih => exact ih (map_offer h (hf x))

end Holder

section Top

variable {α : Type u} [LinearOrder α] [OrderBot α]

/-- `a` is the greatest element of `s`, or the bottom element when `s` has none above it. -/
def Top (s : Set α) (a : α) : Prop := IsGreatest (insert ⊥ s) a

variable {s t : Set α} {a b : α}

theorem Top.unique (h : Top s a) (h' : Top s b) : a = b := IsGreatest.unique h h'

theorem Top.le (h : Top s a) {x : α} (hx : x ∈ s) : x ≤ a := h.2 (Set.mem_insert_of_mem _ hx)

theorem Top.eq_bot_or_mem (h : Top s a) : a = ⊥ ∨ a ∈ s := h.1

theorem Top.mem (h : Top s a) (ha : ⊥ < a) : a ∈ s := h.1.resolve_left ha.ne'

theorem top_intro (hmem : a = ⊥ ∨ a ∈ s) (hle : ∀ x ∈ s, x ≤ a) : Top s a := by
  refine ⟨hmem, fun x hx => ?_⟩
  rcases hx with rfl | hx
  · exact bot_le
  · exact hle x hx

theorem top_empty : Top (∅ : Set α) ⊥ := top_intro (Or.inl rfl) fun _ h => h.elim

theorem top_singleton (x : α) : Top {x} x :=
  top_intro (Or.inr rfl) fun _ h => (Set.mem_singleton_iff.mp h).le

theorem Top.congr (h : Top s a) (hst : s = t) : Top t a := hst ▸ h

theorem Top.union (hs : Top s a) (ht : Top t b) : Top (s ∪ t) (max a b) := by
  refine top_intro ?_ fun x hx => ?_
  · rcases le_total a b with hab | hab
    · rw [max_eq_right hab]
      exact ht.eq_bot_or_mem.imp_right Or.inr
    · rw [max_eq_left hab]
      exact hs.eq_bot_or_mem.imp_right Or.inl
  · rcases hx with hx | hx
    · exact (hs.le hx).trans (le_max_left a b)
    · exact (ht.le hx).trans (le_max_right a b)

theorem Top.insert (hs : Top s a) (x : α) : Top (s ∪ {x}) (max a x) := hs.union (top_singleton x)

/-- Elements that are no new maximum leave the top as it is. -/
theorem Top.union_of_le (hs : Top s a) (ht : ∀ x ∈ t, x ≤ a) : Top (s ∪ t) a :=
  top_intro (hs.eq_bot_or_mem.imp_right Or.inl) fun x hx => hx.elim hs.le (ht x)

theorem Top.mono (hs : Top s a) (ht : Top t b) (h : s ⊆ t) : a ≤ b := by
  rcases hs.eq_bot_or_mem with rfl | ha
  · exact bot_le
  · exact ht.le (h ha)

/-- The greater of a rank and another that may be missing. -/
def join (best : α) (rank : Option α) : α :=
  match rank with
  | none => best
  | some r => max best r

theorem Top.join (h : Top s a) (rank : Option α) :
    Top (s ∪ {r | rank = some r}) (join a rank) := by
  cases rank with
  | none => exact h.congr (by simp)
  | some r₀ =>
      refine (h.insert r₀).congr ?_
      ext r
      simp [eq_comm]

/-- A scan that keeps the greatest rank among the elements that match. -/
theorem Top.foldl {β : Type v} (rank : β → Option α) (xs : List β) (h : Top s a) :
    Top (s ∪ {r | ∃ x ∈ xs, rank x = some r})
      (xs.foldl (fun best x => TopElement.join best (rank x)) a) := by
  induction xs generalizing s a with
  | nil => exact h.congr (by simp)
  | cons x xs ih =>
      rw [List.foldl_cons]
      refine (ih (h.join (rank x))).congr ?_
      ext r
      simp only [Set.mem_union, Set.mem_ofPred_eq, List.mem_cons, exists_eq_or_imp, or_assoc]

end Top

end PfBlockerNG.TopElement
