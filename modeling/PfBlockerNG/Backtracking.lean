import Mathlib

/-!
Backtracking matching over an arbitrary alphabet: the ends an expression can
reach from a position, in the order a leftmost backtracking matcher tries them,
and the size of the search tree such a matcher walks before it gives up.
-/

namespace PfBlockerNG.Backtracking

universe u v w

/-- Expressions over atoms `α` (one symbol each) and zero-width tests `ζ`. A branch
without elements is `empty`; `eps` closes a chain of `cat`. -/
inductive Re (α : Type u) (ζ : Type v) where
  | empty
  | eps
  | atom (a : α)
  | zero (z : ζ)
  | rep (a : α) (low : Nat) (high : Option Nat) (lazy : Bool)
  | run (as : List α) (low : Nat) (high : Option Nat) (lazy : Bool)
  | opt (r : Re α ζ) (lazy : Bool)
  | group (r : Re α ζ)
  | cat (r s : Re α ζ)
  | alt (r s : Re α ζ)

/-- Which events of a walk are search-tree nodes of their own besides the
symbols consumed and the tests passed. -/
structure Charge where
  branchEnd : Bool
  repeatEnd : Bool

variable {α : Type u} {ζ : Type v} {σ : Type w}
variable (mem : α → σ → Bool) (test : ζ → List σ → Nat → Bool) (name : List σ)

def hit (a : α) (i : Nat) : Bool := (name[i]?).any (mem a)

/-- Length of the longest stretch of symbols of `a` that starts at `i`. -/
def stretch (a : α) (i : Nat) : Nat := ((name.drop i).takeWhile (mem a)).length

def capped (high : Option Nat) (n : Nat) : Nat := high.elim n (min n)

/-- Iteration counts a repeat can end with when it can go through at most `n`. -/
def counts (low n : Nat) (lazy : Bool) : List Nat :=
  let ks := (List.range (n + 1)).filter (low ≤ ·)
  if lazy then ks else ks.reverse

/-- Number of leading atoms of `as` that match one after another from `i`. -/
def matchedPrefix : List α → Nat → Nat
  | [], _ => 0
  | a :: as, i => if hit mem name a i then matchedPrefix as (i + 1) + 1 else 0

/-- Complete passes through `as` from `i`, at most `fuel`. -/
def passes (as : List α) : Nat → Nat → Nat
  | 0, _ => 0
  | fuel + 1, i =>
      if matchedPrefix mem name as i = as.length then passes as fuel (i + as.length) + 1 else 0

/-- The ends of `r` from `i`, in the order of the walk. -/
def ends : Re α ζ → Nat → List Nat
  | .empty, i => [i]
  | .eps, i => [i]
  | .atom a, i => if hit mem name a i then [i + 1] else []
  | .zero z, i => if test z name i then [i] else []
  | .rep a low high lazy, i =>
      (counts low (capped high (stretch mem name a i)) lazy).map (i + ·)
  | .run as low high lazy, i =>
      (counts low (passes mem name as (capped high name.length) i) lazy).map (i + · * as.length)
  | .opt r lazy, i => if lazy then i :: ends r i else ends r i ++ [i]
  | .group r, i => ends r i
  | .cat r s, i => (ends r i).flatMap (ends s)
  | .alt r s, i => ends r i ++ ends s i

/-- Nodes for `n` ends of one repeat. -/
def Charge.ofEnds (c : Charge) (n : Nat) : Nat := if c.repeatEnd then n else min n 1

def Charge.ofBranch (c : Charge) (n : Nat) : Nat := if c.branchEnd then n else 0

/-- Size of the search tree of `r` from `i` when no continuation succeeds. -/
def nodes (c : Charge) : Re α ζ → Nat → Nat
  | .empty, _ => if c.branchEnd then 0 else 1
  | .eps, _ => 0
  | .atom a, i => (ends mem test name (.atom a) i).length
  | .zero z, i => (ends mem test name (.zero z) i).length
  | .rep a low high lazy, i =>
      capped high (stretch mem name a i) +
        c.ofEnds (ends mem test name (.rep a low high lazy) i).length
  | .run as low high lazy, i =>
      let n := passes mem name as (capped high name.length) i
      n * as.length +
        (if n < capped high name.length then matchedPrefix mem name as (i + n * as.length) else 0) +
        c.ofBranch n + c.ofEnds (ends mem test name (.run as low high lazy) i).length
  | .opt r _, i => nodes c r i + c.ofBranch (ends mem test name r i).length + 1
  | .group r, i => nodes c r i + c.ofBranch (ends mem test name r i).length
  | .cat r s, i => nodes c r i + ((ends mem test name r i).map (nodes c s)).sum
  | .alt r s, i => nodes c r i + nodes c s i

/-- `re.search`: some start position matches. -/
def search (r : Re α ζ) : Bool :=
  (List.range (name.length + 1)).any fun i => !(ends mem test name r i).isEmpty

theorem stretch_le (a : α) (i : Nat) : stretch mem name a i ≤ name.length := by
  refine (List.takeWhile_sublist _).length_le.trans ?_
  rw [List.length_drop]
  omega

theorem capped_le (high : Option Nat) (n : Nat) : capped high n ≤ n := by
  cases high with
  | none => exact le_refl n
  | some h => exact min_le_left n h

theorem capped_le_high {h : Nat} (n : Nat) : capped (some h) n ≤ h := min_le_right n h

theorem mem_counts_iff {low n k : Nat} {lazy : Bool} :
    k ∈ counts low n lazy ↔ low ≤ k ∧ k ≤ n := by
  have hk : k ∈ counts low n lazy ↔ k ∈ (List.range (n + 1)).filter (low ≤ ·) := by
    cases lazy <;> simp [counts]
  rw [hk, List.mem_filter, List.mem_range, decide_eq_true_iff, and_comm, Nat.lt_succ_iff]

theorem mem_counts {low n k : Nat} {lazy : Bool} (h : k ∈ counts low n lazy) :
    low ≤ k ∧ k ≤ n := mem_counts_iff.mp h

theorem length_counts (low n : Nat) (lazy : Bool) :
    (counts low n lazy).length = n + 1 - low := by
  have hrange : ∀ m, ((List.range m).filter (low ≤ ·)).length = m - low := by
    intro m
    induction m with
    | zero => simp
    | succ m ih =>
        rw [List.range_succ, List.filter_append, List.length_append, ih]
        by_cases h : low ≤ m
        · simp [h]
          omega
        · simp [h]
          omega
  cases lazy <;> simp [counts, hrange]

theorem nodup_counts (low n : Nat) (lazy : Bool) : (counts low n lazy).Nodup := by
  have hup : ((List.range (n + 1)).filter (low ≤ ·)).Nodup := List.nodup_range.filter _
  cases lazy
  · exact List.nodup_reverse.mpr hup
  · exact hup

theorem passes_le (as : List α) (fuel i : Nat) : passes mem name as fuel i ≤ fuel := by
  induction fuel generalizing i with
  | zero => simp [passes]
  | succ fuel ih =>
      rw [passes]
      split
      · exact Nat.succ_le_succ (ih _)
      · exact Nat.zero_le _

theorem matchedPrefix_le (as : List α) (i : Nat) : matchedPrefix mem name as i ≤ as.length := by
  induction as generalizing i with
  | nil => simp [matchedPrefix]
  | cons a as ih =>
      rw [matchedPrefix]
      split
      · exact Nat.succ_le_succ (ih _)
      · exact Nat.zero_le _

/-- Every symbol a repeat goes over belongs to its atom. -/
theorem hit_of_lt_stretch {a : α} {i j : Nat} (hij : i ≤ j) (h : j < i + stretch mem name a i) :
    hit mem name a j = true := by
  have hlt : j - i < ((name.drop i).takeWhile (mem a)).length := by
    rw [stretch] at h
    omega
  have hget := List.getElem_mem hlt
  have hsat : mem a ((name.drop i).takeWhile (mem a))[j - i] = true := by
    simpa using List.all_takeWhile (p := mem a) (l := name.drop i) |> fun hall =>
      List.all_eq_true.mp hall _ hget
  have hj : j < name.length := by
    have hle := (List.takeWhile_sublist (mem a) (l := name.drop i)).length_le
    rw [List.length_drop] at hle
    omega
  have heq : ((name.drop i).takeWhile (mem a))[j - i] = name[j] := by
    rw [(List.takeWhile_prefix (mem a)).getElem hlt, List.getElem_drop]
    congr 1
    omega
  rw [heq] at hsat
  simp [hit, List.getElem?_eq_getElem hj, hsat]

theorem ends_rep (a : α) (low : Nat) (high : Option Nat) (lazy : Bool) (i : Nat) :
    ends mem test name (.rep a low high lazy) i =
      (counts low (capped high (stretch mem name a i)) lazy).map (i + ·) := rfl

theorem ends_run (as : List α) (low : Nat) (high : Option Nat) (lazy : Bool) (i : Nat) :
    ends mem test name (.run as low high lazy) i =
      (counts low (passes mem name as (capped high name.length) i) lazy).map
        (i + · * as.length) := rfl

theorem ends_atom (a : α) (i : Nat) :
    ends mem test name (.atom a) i = if hit mem name a i then [i + 1] else [] := rfl

theorem ends_cat (r s : Re α ζ) (i : Nat) :
    ends mem test name (.cat r s) i =
      (ends mem test name r i).flatMap (ends mem test name s) := rfl

theorem nodes_atom (c : Charge) (a : α) (i : Nat) :
    nodes mem test name c (.atom a) i = (ends mem test name (.atom a) i).length := rfl

theorem nodes_rep (c : Charge) (a : α) (low : Nat) (high : Option Nat) (lazy : Bool) (i : Nat) :
    nodes mem test name c (.rep a low high lazy) i =
      capped high (stretch mem name a i) +
        c.ofEnds (ends mem test name (.rep a low high lazy) i).length := rfl

theorem nodes_run (c : Charge) (as : List α) (low : Nat) (high : Option Nat) (lazy : Bool)
    (i : Nat) :
    nodes mem test name c (.run as low high lazy) i =
      passes mem name as (capped high name.length) i * as.length +
        (if passes mem name as (capped high name.length) i < capped high name.length then
          matchedPrefix mem name as
            (i + passes mem name as (capped high name.length) i * as.length)
        else 0) +
        c.ofBranch (passes mem name as (capped high name.length) i) +
        c.ofEnds (ends mem test name (.run as low high lazy) i).length := rfl

theorem nodes_cat (c : Charge) (r s : Re α ζ) (i : Nat) :
    nodes mem test name c (.cat r s) i =
      nodes mem test name c r i + ((ends mem test name r i).map (nodes mem test name c s)).sum :=
  rfl

theorem length_ends_rep (a : α) (low : Nat) (high : Option Nat) (lazy : Bool) (i : Nat) :
    (ends mem test name (.rep a low high lazy) i).length =
      capped high (stretch mem name a i) + 1 - low := by
  rw [ends_rep, List.length_map, length_counts]

theorem length_ends_run (as : List α) (low : Nat) (high : Option Nat) (lazy : Bool) (i : Nat) :
    (ends mem test name (.run as low high lazy) i).length =
      passes mem name as (capped high name.length) i + 1 - low := by
  rw [ends_run, List.length_map, length_counts]

/-- After the last complete pass the run breaks off inside the next one. -/
theorem matchedPrefix_passes_lt {as : List α} {fuel i : Nat}
    (h : passes mem name as fuel i < fuel) :
    matchedPrefix mem name as (i + passes mem name as fuel i * as.length) < as.length := by
  induction fuel generalizing i with
  | zero => cases h
  | succ fuel ih =>
      rw [passes] at h ⊢
      split
      · rename_i hfull
        rw [if_pos hfull] at h
        have hnext := ih (i := i + as.length) (by omega)
        rwa [Nat.succ_mul, Nat.add_comm (_ * _), ← Nat.add_assoc]
      · rename_i hpart
        have hle := matchedPrefix_le mem name as i
        simp only [Nat.zero_mul, Nat.add_zero]
        omega

/-- Iterations a repeat can end with: the search tree of a failed repeat is the
longest stretch with one end. -/
theorem nodes_rep_le {c : Charge} (hc : c.repeatEnd = false) (a : α) (low : Nat)
    (high : Option Nat) (lazy : Bool) (i : Nat) :
    nodes mem test name c (.rep a low high lazy) i ≤
      capped high (stretch mem name a i) + 1 := by
  simp only [nodes_rep, Charge.ofEnds, hc]
  exact Nat.add_le_add_left (min_le_right _ _) _

theorem nodes_run_le {c : Charge} (hb : c.branchEnd = false) (hc : c.repeatEnd = false)
    {as : List α} (has : 0 < as.length) (low : Nat) (high : Option Nat) (lazy : Bool) (i : Nat) :
    nodes mem test name c (.run as low high lazy) i ≤
      (capped high name.length + 1) * as.length := by
  simp only [nodes_run, Charge.ofEnds, Charge.ofBranch, hb, hc]
  generalize hn : passes mem name as (capped high name.length) i = n
  have hends : min (ends mem test name (.run as low high lazy) i).length 1 ≤ 1 :=
    min_le_right _ _
  have hle : n ≤ capped high name.length := hn ▸ passes_le mem name as _ i
  by_cases hlt : n < capped high name.length
  · have hpart := matchedPrefix_passes_lt mem name (hn.symm ▸ hlt)
    rw [hn] at hpart
    have hmul : (n + 1) * as.length ≤ capped high name.length * as.length :=
      Nat.mul_le_mul_right _ hlt
    rw [Nat.succ_mul] at hmul ⊢
    simp only [hlt, if_true, Bool.false_eq_true, if_false]
    omega
  · have heq : n = capped high name.length := by omega
    rw [Nat.succ_mul, ← heq]
    simp only [Nat.lt_irrefl, Bool.false_eq_true, if_false]
    omega

theorem sum_map_le_single (k₀ : Nat) {l : List Nat} (hl : l.Nodup) {f : Nat → Nat} {n : Nat}
    (hle : ∀ k ∈ l, f k ≤ n) (hzero : ∀ k ∈ l, k ≠ k₀ → f k = 0) : (l.map f).sum ≤ n := by
  induction l with
  | nil => exact Nat.zero_le _
  | cons k l ih =>
      rw [List.nodup_cons] at hl
      rw [List.map_cons, List.sum_cons]
      by_cases hk : k = k₀
      · subst hk
        have hrest : (l.map f).sum = 0 := by
          refine List.sum_eq_zero fun x hx => ?_
          obtain ⟨j, hj, rfl⟩ := List.mem_map.mp hx
          exact hzero j (List.mem_cons_of_mem _ hj) (fun e => hl.1 (e ▸ hj))
        have hfirst := hle k List.mem_cons_self
        omega
      · have hrest := ih hl.2 (fun j hj => hle j (List.mem_cons_of_mem _ hj))
          (fun j hj => hzero j (List.mem_cons_of_mem _ hj))
        rw [hzero k List.mem_cons_self hk]
        omega

/-- A repeat whose symbols the continuation cannot start with passes on at most
one of its ends. -/
theorem sum_ends_rep_le {a : α} {low : Nat} {high : Option Nat} {lazy : Bool} {i : Nat}
    {f : Nat → Nat} {n : Nat} (hle : ∀ j ∈ ends mem test name (.rep a low high lazy) i, f j ≤ n)
    (hdead : ∀ j, hit mem name a j = true → f j = 0) :
    ((ends mem test name (.rep a low high lazy) i).map f).sum ≤ n := by
  refine sum_map_le_single (i + capped high (stretch mem name a i))
    ((nodup_counts _ _ _).map fun _ _ h => Nat.add_left_cancel h) hle ?_
  intro k hk hne
  obtain ⟨n, hn, rfl⟩ := List.mem_map.mp hk
  have hbound := mem_counts hn
  have hcap := capped_le high (stretch mem name a i)
  exact hdead _ (hit_of_lt_stretch mem name (Nat.le_add_right i n) (by omega))

theorem length_ends_cat (r s : Re α ζ) (i : Nat) :
    (ends mem test name (.cat r s) i).length =
      ((ends mem test name r i).map fun j => (ends mem test name s j).length).sum := by
  rw [ends_cat, List.length_flatMap]

/-- Nothing continues where the first part of a chain cannot start. -/
theorem cat_dead {c : Charge} {r s : Re α ζ} {i : Nat} (hnodes : nodes mem test name c r i = 0)
    (hends : ends mem test name r i = []) :
    nodes mem test name c (.cat r s) i = 0 ∧ ends mem test name (.cat r s) i = [] := by
  simp [nodes_cat, ends_cat, hnodes, hends]

theorem stretch_eq_zero {a : α} {i : Nat} (h : hit mem name a i = false) :
    stretch mem name a i = 0 := by
  rw [stretch, List.length_eq_zero_iff]
  cases hdrop : name.drop i with
  | nil => rfl
  | cons x xs =>
      have hget : name[i]? = some x := by
        rw [← List.head?_drop, hdrop]
        rfl
      rw [hit, hget] at h
      simp [show mem a x = false from h]

/-- An atom, or a repeat with a mandatory iteration, dies where its set does not match. -/
theorem atom_dead {c : Charge} {a : α} {i : Nat} (h : hit mem name a i = false) :
    nodes mem test name c (.atom a) i = 0 ∧ ends mem test name (.atom a) i = [] := by
  simp [nodes_atom, ends_atom, h]

theorem rep_dead {c : Charge} {a : α} {low : Nat} {high : Option Nat} {lazy : Bool} {i : Nat}
    (hlow : 1 ≤ low) (h : hit mem name a i = false) :
    nodes mem test name c (.rep a low high lazy) i = 0 ∧
      ends mem test name (.rep a low high lazy) i = [] := by
  have hcap : capped high (stretch mem name a i) = 0 := by
    rw [stretch_eq_zero mem name h]
    exact Nat.le_zero.mp (capped_le high 0)
  have hends : ends mem test name (.rep a low high lazy) i = [] := by
    rw [← List.length_eq_zero_iff, length_ends_rep, hcap]
    omega
  refine ⟨?_, hends⟩
  rw [nodes_rep, hends, hcap]
  simp [Charge.ofEnds]

theorem ends_cat_eq_nil {r s : Re α ζ} {i : Nat}
    (h : ends mem test name (.cat r s) i = []) :
    ∀ j ∈ ends mem test name r i, ends mem test name s j = [] := by
  simpa [ends_cat, List.flatMap_eq_nil_iff] using h

theorem sum_map_le_mul {l : List Nat} {f : Nat → Nat} {n : Nat} (h : ∀ k ∈ l, f k ≤ n) :
    (l.map f).sum ≤ l.length * n := by
  induction l with
  | nil => simp
  | cons k l ih =>
      rw [List.map_cons, List.sum_cons, List.length_cons, Nat.succ_mul, Nat.add_comm]
      exact Nat.add_le_add (ih fun j hj => h j (List.mem_cons_of_mem _ hj))
        (h k List.mem_cons_self)

theorem search_eq_false_iff (r : Re α ζ) :
    search mem test name r = false ↔ ∀ i ≤ name.length, ends mem test name r i = [] := by
  simp only [search, List.any_eq_false, List.mem_range, Bool.not_eq_true, Bool.not_eq_false',
    List.isEmpty_iff, Nat.lt_succ_iff]

end PfBlockerNG.Backtracking
