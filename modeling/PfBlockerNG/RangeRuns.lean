import Mathlib.Data.List.Basic
import Mathlib.Data.List.Pairwise
import Mathlib.Order.Nat

/-!
Ranges of numbers in ascending order, joined where one begins right behind the other.
-/

namespace PfBlockerNG.RangeRuns

structure Run where
  first : Nat
  last : Nat
  le : first ≤ last
  deriving DecidableEq, Repr

def Run.Has (r : Run) (n : Nat) : Prop := r.first ≤ n ∧ n ≤ r.last

def Run.one (n : Nat) : Run := ⟨n, n, le_rfl⟩

def Run.shift (base : Nat) (r : Run) : Run :=
  ⟨base + r.first, base + r.last, Nat.add_le_add_left r.le base⟩

/-- The next range, joined to the last one if they touch. -/
def appendRun (runs : List Run) (r : Run) : List Run :=
  match runs.getLast? with
  | none => [r]
  | some l =>
      if h : l.last + 1 = r.first then
        runs.dropLast ++ [⟨l.first, r.last, by have := l.le; have := r.le; omega⟩]
      else runs ++ [r]

/-- All ranges joined, as long as no more than `limit` are left. -/
def joinUpTo (limit : Nat) (rs : List Run) : Option (List Run) :=
  rs.foldlM (fun runs r =>
    let runs := appendRun runs r
    if limit < runs.length then none else some runs) []

def Covered (runs : List Run) (n : Nat) : Prop := ∃ r ∈ runs, r.Has n

def Ascending (runs : List Run) : Prop := runs.Pairwise fun r s => r.last < s.first

@[simp] theorem has_one {m n : Nat} : (Run.one m).Has n ↔ n = m :=
  ⟨fun h => Nat.le_antisymm h.2 h.1, fun h => by rw [h]; exact ⟨le_rfl, le_rfl⟩⟩

theorem has_shift {base n : Nat} {r : Run} :
    (r.shift base).Has n ↔ ∃ d, n = base + d ∧ r.Has d := by
  constructor
  · rintro ⟨hfirst, hlast⟩
    simp only [Run.shift] at hfirst hlast
    exact ⟨n - base, by omega, by omega, by omega⟩
  · rintro ⟨d, rfl, hfirst, hlast⟩
    exact ⟨Nat.add_le_add_left hfirst base, Nat.add_le_add_left hlast base⟩

theorem covered_append {runs rs : List Run} {n : Nat} :
    Covered (runs ++ rs) n ↔ Covered runs n ∨ Covered rs n := by
  simp only [Covered, List.mem_append, or_and_right, exists_or]

theorem covered_singleton {r : Run} {n : Nat} : Covered [r] n ↔ r.Has n := by
  simp [Covered]

theorem covered_map {α : Type*} {f : α → Run} {l : List α} {n : Nat} :
    Covered (l.map f) n ↔ ∃ a ∈ l, (f a).Has n := by
  simp [Covered]

theorem covered_shift {base n : Nat} {runs : List Run} :
    Covered (runs.map (Run.shift base)) n ↔ ∃ d, n = base + d ∧ Covered runs d := by
  rw [covered_map]
  simp only [has_shift, Covered]
  constructor
  · rintro ⟨r, hr, d, rfl, hd⟩
    exact ⟨d, rfl, r, hr, hd⟩
  · rintro ⟨d, rfl, r, hr, hd⟩
    exact ⟨r, hr, d, rfl, hd⟩

theorem covered_flatMap {α : Type*} {f : α → List Run} {l : List α} {n : Nat} :
    Covered (l.flatMap f) n ↔ ∃ a ∈ l, Covered (f a) n := by
  simp only [Covered, List.mem_flatMap]
  constructor
  · rintro ⟨r, ⟨a, ha, hr⟩, hn⟩
    exact ⟨a, ha, r, hr, hn⟩
  · rintro ⟨a, ha, r, hr, hn⟩
    exact ⟨r, ⟨a, ha, hr⟩, hn⟩

/-- One step adds the numbers of its range and nothing else. -/
theorem covered_appendRun {runs : List Run} {r : Run} {n : Nat} :
    Covered (appendRun runs r) n ↔ Covered runs n ∨ r.Has n := by
  unfold appendRun
  split
  · rename_i hlast
    rw [List.getLast?_eq_none_iff.mp hlast, covered_singleton]
    simp [Covered]
  · rename_i l hlast
    split
    · rename_i htouch
      have hruns := List.dropLast_append_getLast? l hlast
      conv_rhs => rw [← hruns]
      rw [covered_append, covered_append, covered_singleton, covered_singleton, or_assoc]
      apply or_congr_right
      have hl := l.le
      have hr := r.le
      simp only [Run.Has]
      omega
    · rw [covered_append, covered_singleton]

theorem ascending_appendRun {runs : List Run} {r : Run} (hruns : Ascending runs)
    (hr : ∀ l ∈ runs, l.last < r.first) :
    Ascending (appendRun runs r) ∧ ∀ l ∈ appendRun runs r, l.last ≤ r.last := by
  have hend : ∀ l ∈ runs, l.last ≤ r.last := fun l hl => (hr l hl).le.trans r.le
  unfold appendRun
  split
  · refine ⟨List.pairwise_singleton _ _, fun l hl => ?_⟩
    rw [List.mem_singleton.mp hl]
  · rename_i l hlast
    split
    · have heq := List.dropLast_append_getLast? l hlast
      rw [Ascending, ← heq, List.pairwise_append] at hruns
      refine ⟨List.pairwise_append.mpr ⟨hruns.1, List.pairwise_singleton _ _, ?_⟩, ?_⟩
      · intro a ha b hb
        rw [List.mem_singleton.mp hb]
        exact hruns.2.2 a ha l (List.mem_singleton_self l)
      · intro a ha
        rcases List.mem_append.mp ha with ha | ha
        · exact hend a (List.dropLast_subset runs ha)
        · rw [List.mem_singleton.mp ha]
    · refine ⟨List.pairwise_append.mpr ⟨hruns, List.pairwise_singleton _ _, ?_⟩, ?_⟩
      · intro a ha b hb
        rw [List.mem_singleton.mp hb]
        exact hr a ha
      · intro a ha
        rcases List.mem_append.mp ha with ha | ha
        · exact hend a ha
        · rw [List.mem_singleton.mp ha]

theorem covered_foldl {runs rs : List Run} {n : Nat} :
    Covered (rs.foldl appendRun runs) n ↔ Covered runs n ∨ Covered rs n := by
  induction rs generalizing runs with
  | nil => simp [Covered]
  | cons r rs ih =>
      rw [List.foldl_cons, ih, covered_appendRun, or_assoc, ← covered_singleton, ← covered_append]
      rfl

theorem ascending_foldl {runs rs : List Run} (hruns : Ascending runs) (hrs : Ascending rs)
    (h : ∀ l ∈ runs, ∀ r ∈ rs, l.last < r.first) : Ascending (rs.foldl appendRun runs) := by
  induction rs generalizing runs with
  | nil => exact hruns
  | cons r rs ih =>
      obtain ⟨hr, hrs⟩ := List.pairwise_cons.mp hrs
      obtain ⟨hasc, hend⟩ := ascending_appendRun hruns fun l hl => h l hl r List.mem_cons_self
      exact ih hasc hrs fun l hl s hs => (hend l hl).trans_lt (hr s hs)

theorem eq_of_joinUpTo {limit : Nat} {rs joined : List Run} (h : joinUpTo limit rs = some joined) :
    joined = rs.foldl appendRun [] := by
  have hfold : ∀ (rs runs : List Run), rs.foldlM (fun runs r =>
      let runs := appendRun runs r
      if limit < runs.length then none else some runs) runs = some joined →
      joined = rs.foldl appendRun runs := by
    intro rs
    induction rs with
    | nil => exact fun runs h => (Option.some.inj h).symm
    | cons r rs ih =>
        intro runs h
        rw [List.foldlM_cons] at h
        dsimp only at h
        split at h
        · cases h
        · exact ih _ h
  exact hfold rs [] h

/-- What is joined is the same numbers, in ranges that do not overlap. -/
theorem joinUpTo_spec {limit : Nat} {rs joined : List Run} (hrs : Ascending rs)
    (h : joinUpTo limit rs = some joined) :
    Ascending joined ∧ ∀ n, Covered joined n ↔ Covered rs n := by
  rw [eq_of_joinUpTo h]
  refine ⟨ascending_foldl List.Pairwise.nil hrs fun l hl => absurd hl List.not_mem_nil, fun n => ?_⟩
  rw [covered_foldl]
  simp [Covered]

/-! ### Blocks of equal width -/

def Within (lo hi : Nat) (runs : List Run) : Prop := ∀ r ∈ runs, lo ≤ r.first ∧ r.last < hi

/-- Ranges that stay in their own block, block after block. -/
theorem ascending_blocks (base width : Nat) {l : List Nat} {n : Nat} {f : Nat → List Run}
    (hl : l.Pairwise (· < ·)) (hn : ∀ a ∈ l, a < n) (hf : ∀ a ∈ l, Ascending (f a) ∧
      Within (base + a * width) (base + a * width + width) (f a)) :
    Ascending (l.flatMap f) ∧ Within base (base + n * width) (l.flatMap f) := by
  constructor
  · refine List.pairwise_flatMap.mpr ⟨fun a ha => (hf a ha).1, ?_⟩
    refine hl.imp_of_mem fun {a b} ha hb hab r hr s hs => ?_
    have hend := ((hf a ha).2 r hr).2
    have hstart := ((hf b hb).2 s hs).1
    have hwidth : (a + 1) * width ≤ b * width := Nat.mul_le_mul_right width hab
    rw [Nat.add_one_mul] at hwidth
    omega
  · intro r hr
    obtain ⟨a, ha, hr⟩ := List.mem_flatMap.mp hr
    obtain ⟨hstart, hend⟩ := (hf a ha).2 r hr
    have hwidth : (a + 1) * width ≤ n * width := Nat.mul_le_mul_right width (hn a ha)
    rw [Nat.add_one_mul] at hwidth
    omega

theorem ascending_shift {runs : List Run} (h : Ascending runs) (base : Nat) :
    Ascending (runs.map (Run.shift base)) :=
  List.pairwise_map.mpr (h.imp fun hlt => Nat.add_lt_add_left hlt base)

theorem within_shift {runs : List Run} {lo hi : Nat} (h : Within lo hi runs) (base : Nat) :
    Within (base + lo) (base + hi) (runs.map (Run.shift base)) := by
  intro r hr
  obtain ⟨s, hs, rfl⟩ := List.mem_map.mp hr
  exact ⟨Nat.add_le_add_left (h s hs).1 base, Nat.add_lt_add_left (h s hs).2 base⟩

/-- Single numbers joined. -/
theorem join_ones {ns : List Nat} (h : ns.Pairwise (· < ·)) :
    Ascending ((ns.map Run.one).foldl appendRun []) ∧
      ∀ n, Covered ((ns.map Run.one).foldl appendRun []) n ↔ n ∈ ns := by
  refine ⟨ascending_foldl List.Pairwise.nil (List.pairwise_map.mpr h)
    fun l hl => absurd hl List.not_mem_nil, fun n => ?_⟩
  rw [covered_foldl, covered_map]
  simp [Covered]

theorem within_of_covered {runs : List Run} {hi : Nat} (h : ∀ n, Covered runs n → n < hi) :
    Within 0 hi runs :=
  fun r hr => ⟨Nat.zero_le _, h r.last ⟨r, hr, r.le, le_rfl⟩⟩

end PfBlockerNG.RangeRuns
