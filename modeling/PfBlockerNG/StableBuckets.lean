import Mathlib.Data.List.Flatten
import Mathlib.Data.List.Nodup
import Mathlib.Data.List.Perm.Basic

/-!
Sorting a list into buckets that move as a whole: each element goes to the bucket of its key, the
buckets are put one after another, and nothing inside a bucket moves.
-/

namespace PfBlockerNG.StableBuckets

variable {α β : Type*} [DecidableEq β]

/-- The elements with one key, in their order. -/
def bucket (key : α → β) (l : List α) (k : β) : List α := l.filter fun x => key x = k

/-- The buckets of `keys` one after another. -/
def regroup (key : α → β) (keys : List β) (l : List α) : List α := keys.flatMap (bucket key l)

theorem mem_bucket {key : α → β} {l : List α} {k : β} {x : α} :
    x ∈ bucket key l k ↔ x ∈ l ∧ key x = k := by
  simp [bucket]

theorem bucket_eq_nil {key : α → β} {l : List α} {k : β} (h : ∀ x ∈ l, key x ≠ k) :
    bucket key l k = [] :=
  List.filter_eq_nil_iff.mpr fun x hx hkey => h x hx (of_decide_eq_true hkey)

theorem bucket_subset (key : α → β) (l : List α) (k : β) : bucket key l k ⊆ l :=
  fun _ hx => (mem_bucket.mp hx).1

theorem bucket_append (key : α → β) (l l' : List α) (k : β) :
    bucket key (l ++ l') k = bucket key l k ++ bucket key l' k :=
  List.filter_append l l'

theorem mem_of_mem_regroup {key : α → β} {keys : List β} {l : List α} {x : α}
    (h : x ∈ regroup key keys l) : x ∈ l := by
  obtain ⟨k, -, hx⟩ := List.mem_flatMap.mp h
  exact (mem_bucket.mp hx).1

theorem bucket_bucket (key : α → β) (l : List α) (j k : β) :
    bucket key (bucket key l j) k = if j = k then bucket key l k else [] := by
  unfold bucket
  rw [List.filter_filter]
  split
  · next h =>
      subst h
      simp
  · next h =>
      refine List.filter_eq_nil_iff.mpr fun x _ hx => ?_
      simp only [Bool.and_eq_true, decide_eq_true_eq] at hx
      exact h (hx.2.symm.trans hx.1)

/-- A bucket keeps its order. -/
theorem bucket_regroup (key : α → β) {keys : List β} (hnodup : keys.Nodup) (l : List α) {k : β}
    (hk : k ∈ keys) : bucket key (regroup key keys l) k = bucket key l k := by
  induction keys with
  | nil => cases hk
  | cons j keys ih =>
      rw [List.nodup_cons] at hnodup
      rw [regroup, List.flatMap_cons, bucket_append, bucket_bucket]
      rcases List.mem_cons.mp hk with rfl | hk
      · have hrest : bucket key (keys.flatMap (bucket key l)) k = [] := by
          refine List.filter_eq_nil_iff.mpr fun x hx hkey => ?_
          obtain ⟨i, hi, hmem⟩ := List.mem_flatMap.mp hx
          rw [decide_eq_true_eq, (mem_bucket.mp hmem).2] at hkey
          exact hnodup.1 (hkey ▸ hi)
        rw [if_pos rfl, hrest, List.append_nil]
      · have hne : j ≠ k := fun h => hnodup.1 (h ▸ hk)
        rw [if_neg hne, List.nil_append]
        exact ih hnodup.2 hk

/-- Buckets that take every element lose none and repeat none. -/
theorem regroup_perm (key : α → β) {keys : List β} (hnodup : keys.Nodup) {l : List α}
    (hall : ∀ x ∈ l, key x ∈ keys) : (regroup key keys l).Perm l := by
  induction keys generalizing l with
  | nil =>
      have hnil : l = [] := List.eq_nil_iff_forall_not_mem.mpr fun x hx => by cases hall x hx
      rw [hnil]
      rfl
  | cons j keys ih =>
      rw [List.nodup_cons] at hnodup
      have hother : keys.flatMap (bucket key l) =
          regroup key keys (l.filter fun x => ¬ key x = j) := by
        refine List.flatMap_congr fun k hk => ?_
        unfold bucket
        rw [List.filter_filter]
        refine List.filter_congr fun x _ => ?_
        have hne : k ≠ j := fun h => hnodup.1 (h ▸ hk)
        by_cases hx : key x = k
        · simp [hx, hne]
        · simp [hx]
      have hrest : (regroup key keys (l.filter fun x => ¬ key x = j)).Perm
          (l.filter fun x => ¬ key x = j) := by
        refine ih hnodup.2 fun x hx => ?_
        obtain ⟨hmem, hne⟩ := List.mem_filter.mp hx
        exact (List.mem_cons.mp (hall x hmem)).resolve_left (of_decide_eq_true hne)
      rw [regroup, List.flatMap_cons, hother]
      refine (hrest.append_left _).trans ?_
      have hsplit := List.filter_append_perm (fun x => decide (key x = j)) l
      simpa [bucket] using hsplit

/-- Segments of one rank each, in the order of their ranks. -/
theorem pairwise_segments {f : α → Nat} {segments : List (Nat × List α)}
    (hsorted : segments.Pairwise fun s t => s.1 ≤ t.1)
    (hrank : ∀ s ∈ segments, ∀ x ∈ s.2, f x = s.1) :
    (segments.flatMap Prod.snd).Pairwise fun x y => f x ≤ f y := by
  induction segments with
  | nil => exact List.Pairwise.nil
  | cons s segments ih =>
      rw [List.pairwise_cons] at hsorted
      rw [List.flatMap_cons, List.pairwise_append]
      refine ⟨?_, ih hsorted.2 fun t ht => hrank t (List.mem_cons_of_mem _ ht), ?_⟩
      · refine List.pairwise_of_forall_mem_list fun x hx y hy => ?_
        exact Nat.le_of_eq ((hrank s List.mem_cons_self x hx).trans
          (hrank s List.mem_cons_self y hy).symm)
      · intro x hx y hy
        obtain ⟨t, ht, hmem⟩ := List.mem_flatMap.mp hy
        rw [hrank s List.mem_cons_self x hx, hrank t (List.mem_cons_of_mem _ ht) y hmem]
        exact hsorted.1 t ht

end PfBlockerNG.StableBuckets
