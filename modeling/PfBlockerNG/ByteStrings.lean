import Mathlib.Data.List.Induction
import Mathlib.Data.Nat.Bitwise

/-!
Byte strings: big-endian integers of a fixed number of octets, and octets that stand at an offset
of a longer string.
-/

namespace PfBlockerNG.ByteStrings

abbrev Bytes := List UInt8

/-- The value of octets read most significant first. -/
def ofOctets (bs : Bytes) : Nat := bs.foldl (fun n b => n * 256 + b.toNat) 0

/-- `x` on `n` octets, most significant first. -/
def toOctets : Nat → Nat → Bytes
  | 0, _ => []
  | n + 1, x => toOctets n (x / 256) ++ [UInt8.ofNat (x % 256)]

@[simp] theorem toOctets_length (n x : Nat) : (toOctets n x).length = n := by
  induction n generalizing x with
  | zero => rfl
  | succ n ih => simp [toOctets, ih]

theorem ofOctets_append_singleton (bs : Bytes) (b : UInt8) :
    ofOctets (bs ++ [b]) = ofOctets bs * 256 + b.toNat := by
  simp [ofOctets]

theorem ofOctets_toOctets {n x : Nat} (h : x < 256 ^ n) : ofOctets (toOctets n x) = x := by
  induction n generalizing x with
  | zero =>
      have hx : x = 0 := by simpa using h
      subst x
      rfl
  | succ n ih =>
      have hdiv : x / 256 < 256 ^ n := by
        rw [pow_succ] at h
        exact Nat.div_lt_of_lt_mul (by omega)
      have hbyte : (UInt8.ofNat (x % 256)).toNat = x % 256 := by
        simp
      rw [toOctets, ofOctets_append_singleton, ih hdiv, hbyte]
      omega

theorem ofOctets_lt (bs : Bytes) : ofOctets bs < 256 ^ bs.length := by
  induction bs using List.reverseRecOn with
  | nil => simp [ofOctets]
  | append_singleton bs b ih =>
      have hb : b.toNat < 256 := b.toNat_lt
      rw [ofOctets_append_singleton, List.length_append, List.length_singleton, pow_succ]
      omega

/-- `bs` stands at offset `pos` of `data`. -/
def At (data : Bytes) (pos : Nat) (bs : Bytes) : Prop := bs <+: data.drop pos

theorem At.le_length {data : Bytes} {pos : Nat} {bs : Bytes} (h : At data pos bs)
    (hne : bs ≠ []) : pos + bs.length ≤ data.length := by
  have hle := h.length_le
  have hpos := List.length_pos_iff.mpr hne
  rw [List.length_drop] at hle
  omega

/-- What stands in a string stands in every longer one. -/
theorem At.mono {data data' : Bytes} {pos : Nat} {bs : Bytes} (h : At data pos bs)
    (hext : data <+: data') : At data' pos bs := by
  obtain ⟨ext, rfl⟩ := hext
  rcases Nat.le_total pos data.length with hle | hle
  · unfold At
    rw [List.drop_append_of_le_length hle]
    exact h.trans (List.prefix_append _ _)
  · have hnil : bs = [] := by
      have hlen := h.length_le
      rw [List.length_drop] at hlen
      exact List.eq_nil_of_length_eq_zero (by omega)
    subst bs
    exact List.nil_prefix

theorem at_append (data bs : Bytes) : At (data ++ bs) data.length bs := by
  simp [At]

theorem At.append_left {data : Bytes} {pos : Nat} {as bs : Bytes} (h : At data pos (as ++ bs)) :
    At data pos as :=
  (List.prefix_append as bs).trans h

theorem At.append_right {data : Bytes} {pos : Nat} {as bs : Bytes}
    (h : At data pos (as ++ bs)) : At data (pos + as.length) bs := by
  obtain ⟨rest, hrest⟩ := h
  refine ⟨rest, ?_⟩
  rw [← List.drop_drop, ← hrest]
  simp

theorem At.take {data : Bytes} {pos : Nat} {bs : Bytes} (h : At data pos bs) :
    (data.drop pos).take bs.length = bs := by
  exact (List.prefix_iff_eq_take.mp h).symm

theorem At.getElem?_head {data : Bytes} {pos : Nat} {b : UInt8} {bs : Bytes}
    (h : At data pos (b :: bs)) : data[pos]? = some b := by
  obtain ⟨rest, hrest⟩ := h
  have hhead : (data.drop pos)[0]? = some b := by
    rw [← hrest]
    rfl
  simpa using hhead

/-- `struct.unpack_from` of one unsigned field of `n` octets. -/
def unpack (n : Nat) (data : Bytes) (pos : Nat) : Nat := ofOctets ((data.drop pos).take n)

theorem At.unpack {data : Bytes} {pos n x : Nat} (h : At data pos (toOctets n x))
    (hx : x < 256 ^ n) : unpack n data pos = x := by
  have htake := h.take
  rw [toOctets_length] at htake
  rw [ByteStrings.unpack, htake, ofOctets_toOctets hx]

theorem unpack_lt (n : Nat) (data : Bytes) (pos : Nat) : unpack n data pos < 256 ^ n := by
  refine (ofOctets_lt _).trans_le ?_
  exact Nat.pow_le_pow_right (by omega) (List.length_take_le n _)

end PfBlockerNG.ByteStrings
