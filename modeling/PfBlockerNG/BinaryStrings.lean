import Mathlib.Data.List.Basic
import Mathlib.Tactic.Ring
import Mathlib.Tactic.Linarith
import Mathlib.Data.Nat.Bitwise

/-!
Fixed-width binary strings, most significant bit first: their value, their order and the block of
values that share a prefix.
-/

namespace PfBlockerNG.BinaryStrings

def value : List Bool → Nat
  | [] => 0
  | b :: bs => b.toNat * 2 ^ bs.length + value bs

/-- The `w` low bits of `n`. -/
def ofNat : Nat → Nat → List Bool
  | 0, _ => []
  | w + 1, n => ofNat w (n / 2) ++ [n % 2 == 1]

/-- Lexicographic comparison of two strings. -/
def strcmp (as bs : List Bool) : Ordering := List.compareLex compare as bs

/-- Offset of the last `b`. -/
def strrpos (b : Bool) : List Bool → Option Nat
  | [] => none
  | c :: bs => match strrpos b bs with
    | some i => some (i + 1)
    | none => if c = b then some 0 else none

@[simp] theorem value_nil : value [] = 0 := rfl

theorem value_cons (b : Bool) (bs : List Bool) :
    value (b :: bs) = b.toNat * 2 ^ bs.length + value bs := rfl

theorem ofNat_zero (n : Nat) : ofNat 0 n = [] := rfl

theorem ofNat_succ (w n : Nat) : ofNat (w + 1) n = ofNat w (n / 2) ++ [n % 2 == 1] := rfl

theorem value_append (as bs : List Bool) :
    value (as ++ bs) = value as * 2 ^ bs.length + value bs := by
  induction as with
  | nil => simp
  | cons a as ih =>
      simp only [List.cons_append, value_cons, ih, List.length_append, pow_add]
      ring

theorem value_lt (bs : List Bool) : value bs < 2 ^ bs.length := by
  induction bs with
  | nil => simp
  | cons b bs ih =>
      simp only [value_cons, List.length_cons, pow_succ]
      cases b <;> simp <;> omega

@[simp] theorem value_replicate_false (n : Nat) : value (List.replicate n false) = 0 := by
  induction n with
  | zero => rfl
  | succ n ih => simp [List.replicate_succ, value_cons, ih]

theorem value_replicate_true (n : Nat) : value (List.replicate n true) + 1 = 2 ^ n := by
  induction n with
  | zero => rfl
  | succ n ih =>
      simp only [List.replicate_succ, value_cons, List.length_replicate, Bool.toNat_true, pow_succ]
      omega

@[simp] theorem length_ofNat (w n : Nat) : (ofNat w n).length = w := by
  induction w generalizing n with
  | zero => rfl
  | succ w ih => simp [ofNat_succ, ih]

theorem value_ofNat (w n : Nat) : value (ofNat w n) = n % 2 ^ w := by
  induction w generalizing n with
  | zero => simp [ofNat_zero, Nat.mod_one]
  | succ w ih =>
      rw [ofNat_succ, value_append, ih]
      have hbit : value [n % 2 == 1] = n % 2 := by
        rcases Nat.mod_two_eq_zero_or_one n with h | h <;> simp [value_cons, h]
      rw [hbit, List.length_singleton, pow_one, pow_succ, Nat.mul_comm (2 ^ w) 2, Nat.mod_mul]
      ring

theorem eq_of_value_eq {as bs : List Bool} (hlen : as.length = bs.length)
    (h : value as = value bs) : as = bs := by
  induction as generalizing bs with
  | nil => exact (List.length_eq_zero_iff.mp hlen.symm).symm
  | cons a as ih =>
      obtain _ | ⟨b, bs⟩ := bs
      · simp at hlen
      · simp only [List.length_cons, add_left_inj] at hlen
        have ha := value_lt as
        have hb := value_lt bs
        simp only [value_cons] at h
        rw [hlen] at h ha
        have hab : a = b := by
          cases a <;> cases b <;> simp_all; all_goals omega
        subst hab
        rw [ih hlen (by omega)]

theorem ofNat_value (bs : List Bool) : ofNat bs.length (value bs) = bs :=
  eq_of_value_eq (by simp) (by rw [value_ofNat, Nat.mod_eq_of_lt (value_lt bs)])

/-- Strings of one length are ordered as their values are. -/
theorem strcmp_eq_compare {as bs : List Bool} (hlen : as.length = bs.length) :
    strcmp as bs = compare (value as) (value bs) := by
  induction as generalizing bs with
  | nil =>
      rw [List.length_eq_zero_iff.mp hlen.symm]
      rfl
  | cons a as ih =>
      obtain _ | ⟨b, bs⟩ := bs
      · simp at hlen
      · simp only [List.length_cons, add_left_inj] at hlen
        have ha := value_lt as
        have hb := value_lt bs
        have hcons : strcmp (a :: as) (b :: bs) = (compare a b).then (strcmp as bs) :=
          List.compareLex_cons_cons
        rw [hcons, ih hlen]
        simp only [value_cons]
        rw [hlen] at ha ⊢
        cases a <;> cases b <;>
          simp only [Bool.toNat_false, Bool.toNat_true, zero_mul, one_mul, zero_add]
        · rfl
        · have hless : value as < 2 ^ bs.length + value bs := by omega
          exact (compare_lt_iff_lt.mpr hless).symm
        · have hmore : value bs < 2 ^ bs.length + value as := by omega
          exact (compare_gt_iff_gt.mpr hmore).symm
        · have hsame : compare (2 ^ bs.length + value as) (2 ^ bs.length + value bs) =
              compare (value as) (value bs) := by
            simp only [Nat.compare_eq_ite_lt]
            simp
          rw [hsame]
          rfl

theorem strcmp_gt_iff {as bs : List Bool} (hlen : as.length = bs.length) :
    strcmp as bs = .gt ↔ value bs < value as := by
  rw [strcmp_eq_compare hlen, compare_gt_iff_gt]

theorem strcmp_lt_iff {as bs : List Bool} (hlen : as.length = bs.length) :
    strcmp as bs = .lt ↔ value as < value bs := by
  rw [strcmp_eq_compare hlen, compare_lt_iff_lt]

theorem strcmp_isLE_iff {as bs : List Bool} (hlen : as.length = bs.length) :
    (strcmp as bs).isLE = true ↔ value as ≤ value bs := by
  rw [strcmp_eq_compare hlen, Nat.isLE_compare]

instance : Std.TransCmp strcmp := inferInstanceAs (Std.TransCmp (List.compareLex compare))

instance : Std.Total (fun as bs => (strcmp as bs).isLE = true) where
  total as bs := by
    rcases h : strcmp as bs with _ | _ | _
    · exact Or.inl rfl
    · exact Or.inl rfl
    · exact Or.inr (Ordering.isLE_of_eq_lt (Std.OrientedCmp.gt_iff_lt.mp h))

instance : IsTrans (List Bool) (fun as bs => (strcmp as bs).isLE = true) where
  trans _ _ _ h h' := Std.TransCmp.isLE_trans h h'

theorem strrpos_eq_none_iff (b : Bool) (bs : List Bool) :
    strrpos b bs = none ↔ bs = List.replicate bs.length (!b) := by
  induction bs with
  | nil => simp [strrpos]
  | cons c bs ih =>
      simp only [strrpos, List.length_cons, List.replicate_succ, List.cons.injEq, ← ih]
      cases strrpos b bs with
      | some i => simp
      | none => cases b <;> cases c <;> simp

/-- After the last `b` stand only the other bit. -/
theorem eq_of_strrpos {b : Bool} {bs : List Bool} {i : Nat} (h : strrpos b bs = some i) :
    i < bs.length ∧ bs = bs.take i ++ b :: List.replicate (bs.length - i - 1) (!b) := by
  induction bs generalizing i with
  | nil => simp [strrpos] at h
  | cons c bs ih =>
      simp only [strrpos] at h
      cases hr : strrpos b bs with
      | some j =>
          rw [hr] at h
          obtain rfl := Option.some.inj h
          obtain ⟨hlt, heq⟩ := ih hr
          refine ⟨by simpa using hlt, ?_⟩
          simp only [List.length_cons, List.take_succ_cons, List.cons_append, List.cons.injEq,
            true_and]
          rw [show bs.length + 1 - (j + 1) - 1 = bs.length - j - 1 by omega]
          exact heq
      | none =>
          rw [hr] at h
          simp only at h
          split at h
          · rename_i hc
            obtain rfl := Option.some.inj h
            refine ⟨by simp, ?_⟩
            simp only [List.take_zero, List.nil_append, hc, List.length_cons, Nat.sub_zero,
              Nat.add_sub_cancel, List.cons.injEq, true_and]
            exact (strrpos_eq_none_iff b bs).mp hr
          · simp at h

/-- The strings that begin with `p` are those between `p0…0` and `p1…1`. -/
theorem take_eq_iff_between {bs : List Bool} {p : List Bool} {n : Nat}
    (hlen : bs.length = p.length + n) :
    bs.take p.length = p ↔ value (p ++ List.replicate n false) ≤ value bs ∧
      value bs ≤ value (p ++ List.replicate n true) := by
  have hsplit : bs = bs.take p.length ++ bs.drop p.length := (List.take_append_drop _ _).symm
  have htake : (bs.take p.length).length = p.length := by simp [hlen]
  have hdrop : (bs.drop p.length).length = n := by simp [hlen]
  have hlow := value_lt (bs.drop p.length)
  have hones := value_replicate_true n
  rw [hdrop] at hlow
  have hval : value bs = value (bs.take p.length) * 2 ^ n + value (bs.drop p.length) := by
    conv_lhs => rw [hsplit]
    rw [value_append, hdrop]
  rw [value_append, value_append, List.length_replicate, List.length_replicate,
    value_replicate_false, hval]
  constructor
  · intro h
    rw [h]
    omega
  · rintro ⟨h₁, h₂⟩
    refine eq_of_value_eq htake ?_
    have hpos : 0 < 2 ^ n := by positivity
    rcases Nat.lt_trichotomy (value (bs.take p.length)) (value p) with h | h | h
    · have := Nat.mul_le_mul_right (2 ^ n) (Nat.succ_le_of_lt h)
      rw [Nat.succ_mul] at this
      omega
    · exact h
    · have := Nat.mul_le_mul_right (2 ^ n) (Nat.succ_le_of_lt h)
      rw [Nat.succ_mul] at this
      omega

/-- Zeroing the tail divides the value down. -/
theorem value_take_zeros (bs : List Bool) (i : Nat) :
    value (bs.take i ++ List.replicate (bs.length - i) false) =
      value bs / 2 ^ (bs.length - i) * 2 ^ (bs.length - i) := by
  have hval : value bs = value (bs.take i) * 2 ^ (bs.length - i) + value (bs.drop i) := by
    conv_lhs => rw [← List.take_append_drop i bs]
    rw [value_append, List.length_drop]
  have hlow := value_lt (bs.drop i)
  rw [List.length_drop] at hlow
  have hdiv : value bs / 2 ^ (bs.length - i) = value (bs.take i) := by
    rw [hval, Nat.mul_comm, Nat.mul_add_div (by positivity), Nat.div_eq_of_lt hlow, Nat.add_zero]
  rw [hdiv, value_append, List.length_replicate, value_replicate_false, Nat.add_zero]

/-- The string of the next value. -/
theorem value_next {bs : List Bool} {i : Nat} (h : strrpos false bs = some i) :
    (bs.take i ++ true :: List.replicate (bs.length - i - 1) false).length = bs.length ∧
      value (bs.take i ++ true :: List.replicate (bs.length - i - 1) false) = value bs + 1 := by
  obtain ⟨hlt, heq⟩ := eq_of_strrpos h
  have hones := value_replicate_true (bs.length - i - 1)
  refine ⟨by simp; omega, ?_⟩
  conv_rhs => rw [heq]
  simp only [value_append, value_cons, List.length_cons, List.length_replicate, Bool.toNat_true,
    Bool.toNat_false, value_replicate_false, Bool.not_false]
  omega

/-- The string of the value before. -/
theorem value_previous {bs : List Bool} {i : Nat} (h : strrpos true bs = some i) :
    (bs.take i ++ false :: List.replicate (bs.length - i - 1) true).length = bs.length ∧
      value (bs.take i ++ false :: List.replicate (bs.length - i - 1) true) + 1 = value bs := by
  obtain ⟨hlt, heq⟩ := eq_of_strrpos h
  have hones := value_replicate_true (bs.length - i - 1)
  refine ⟨by simp; omega, ?_⟩
  conv_rhs => rw [heq]
  simp only [value_append, value_cons, List.length_cons, List.length_replicate, Bool.toNat_true,
    Bool.toNat_false, value_replicate_false, Bool.not_true]
  omega

theorem value_of_no_zero {bs : List Bool} (h : strrpos false bs = none) :
    value bs + 1 = 2 ^ bs.length := by
  rw [strrpos_eq_none_iff] at h
  conv_lhs => rw [h]
  exact value_replicate_true _

theorem value_of_no_one {bs : List Bool} (h : strrpos true bs = none) : value bs = 0 := by
  rw [strrpos_eq_none_iff] at h
  rw [h]
  exact value_replicate_false _

end PfBlockerNG.BinaryStrings
