import Mathlib.Data.BitVec
import PfBlockerNG.ByteStrings

/-!
The addresses and prefixes of Go's netip, and the texts of a Go program as byte strings.
-/

namespace PfBlockerNG.Netip

open PfBlockerNG.ByteStrings

/-! ### Texts -/

/-- An ASCII literal. -/
def ascii (s : String) : Bytes := s.toList.map fun c => UInt8.ofNat c.toNat

def decimal (n : Nat) : Bytes := ascii (toString n)

/-- `strings.Cut` at one byte: before, after, and whether it was found. -/
def cut (sep : UInt8) (s : Bytes) : Bytes × Bytes × Bool :=
  if sep ∈ s then (s.takeWhile (· ≠ sep), (s.dropWhile (· ≠ sep)).drop 1, true) else (s, [], false)

theorem cut_append {sep : UInt8} {before : Bytes} (h : sep ∉ before) (rest : Bytes) :
    cut sep (before ++ sep :: rest) = (before, rest, true) := by
  have hne : ∀ c ∈ before, decide (c ≠ sep) = true := by
    intro c hc
    simp only [ne_eq, decide_not, Bool.not_eq_eq_eq_not, Bool.not_true, decide_eq_false_iff_not]
    rintro rfl
    exact h hc
  rw [cut, if_pos (List.mem_append_right _ List.mem_cons_self), List.takeWhile_append_of_pos hne,
    List.dropWhile_append_of_pos hne]
  simp

/-- `strings.ReplaceAll(s, "\n", " ")`. -/
def oneLine (s : Bytes) : Bytes := s.map fun c => if c = 10 then 32 else c

/-! ### Addresses -/

/-- `netip.Addr`, but for the zero one. -/
inductive Addr where
  | v4 (bits : BitVec 32)
  | v6 (bits : BitVec 128) (zone : Bytes)
  deriving DecidableEq

namespace Addr

def is4 : Addr → Bool
  | .v4 _ => true
  | .v6 _ _ => false

def is4In6 : Addr → Bool
  | .v4 _ => false
  | .v6 bits _ => bits >>> 32 == 0xffff

def unmap : Addr → Addr
  | .v4 bits => .v4 bits
  | .v6 bits zone => if bits >>> 32 == 0xffff then .v4 (bits.setWidth 32) else .v6 bits zone

def zone : Addr → Bytes
  | .v4 _ => []
  | .v6 _ zone => zone

/-- `WithZone("")`. -/
def withoutZone : Addr → Addr
  | .v4 bits => .v4 bits
  | .v6 bits _ => .v6 bits []

def bitLen : Addr → Nat
  | .v4 _ => 32
  | .v6 _ _ => 128

theorem unmap_of_not_is4In6 {a : Addr} (h : a.is4In6 = false) : a.unmap = a := by
  cases a with
  | v4 bits => rfl
  | v6 bits zone => exact if_neg (by rw [is4In6] at h; rw [h]; exact Bool.false_ne_true)

theorem withoutZone_of_zone_nil {a : Addr} (h : a.zone = []) : a.withoutZone = a := by
  cases a with
  | v4 bits => rfl
  | v6 bits zone => exact congrArg (Addr.v6 bits) h.symm

end Addr

structure AddrPort where
  addr : Addr
  port : UInt16
  deriving DecidableEq

/-! ### Prefixes -/

/-- Shifting out the low bits twice is shifting them out once. -/
theorem ushiftRight_shiftLeft_ushiftRight {w : Nat} (x : BitVec w) (k : Nat) :
    x >>> k <<< k >>> k = x >>> k := by
  ext i hi
  simp only [BitVec.getElem_ushiftRight, BitVec.getLsbD_shiftLeft, BitVec.getLsbD_ushiftRight]
  by_cases h : k + i < w
  · simp [h]
  · simp [h, BitVec.getLsbD_of_ge x (k + i) (Nat.le_of_not_lt h)]

/-- The first `n` bits, without the zone. -/
def Addr.mask (n : Nat) : Addr → Addr
  | .v4 bits => .v4 (bits >>> (32 - n) <<< (32 - n))
  | .v6 bits _ => .v6 (bits >>> (128 - n) <<< (128 - n)) []

theorem Addr.mask_mask (a : Addr) (n : Nat) : (a.mask n).mask n = a.mask n := by
  cases a with
  | v4 bits => rw [mask, mask, ushiftRight_shiftLeft_ushiftRight]
  | v6 bits zone => rw [mask, mask, ushiftRight_shiftLeft_ushiftRight]

theorem Addr.bitLen_mask (a : Addr) (n : Nat) : (a.mask n).bitLen = a.bitLen := by
  cases a <;> rfl

/-- `netip.Prefix` with its host bits cleared. -/
structure Prefix where
  addr : Addr
  bits : Nat
  fits : bits ≤ addr.bitLen
  masked : addr.mask bits = addr
  deriving DecidableEq

/-- `netip.Addr.Prefix`. -/
def Addr.toPrefix (a : Addr) (n : Nat) : Option Prefix :=
  if h : n ≤ a.bitLen then some ⟨a.mask n, n, a.bitLen_mask n ▸ h, a.mask_mask n⟩ else none

/-- An address of the family of a prefix has its first bits. -/
def Prefix.Contains (p : Prefix) (a : Addr) : Prop :=
  match p.addr, a with
  | .v4 network, .v4 bits => bits >>> (32 - p.bits) = network >>> (32 - p.bits)
  | .v6 network _, .v6 bits _ => bits >>> (128 - p.bits) = network >>> (128 - p.bits)
  | .v4 _, .v6 _ _ | .v6 _ _, .v4 _ => False

theorem Prefix.ext_iff' {p q : Prefix} : p = q ↔ p.addr = q.addr ∧ p.bits = q.bits := by
  cases p
  cases q
  simp

theorem toPrefix_eq_some_iff {a : Addr} {n : Nat} {p : Prefix} :
    a.toPrefix n = some p ↔ p.bits = n ∧ p.Contains a := by
  unfold Addr.toPrefix
  constructor
  · intro h
    split at h
    · obtain rfl := Option.some.inj h
      refine ⟨rfl, ?_⟩
      cases a with
      | v4 bits => exact (ushiftRight_shiftLeft_ushiftRight bits _).symm
      | v6 bits zone => exact (ushiftRight_shiftLeft_ushiftRight bits _).symm
    · cases h
  · rintro ⟨rfl, hcontains⟩
    obtain ⟨addr, bits, fits, masked⟩ := p
    cases addr with
    | v4 network =>
        cases a with
        | v6 => exact hcontains.elim
        | v4 x =>
            refine (dif_pos fits).trans (congrArg some (Prefix.ext_iff'.mpr ⟨?_, rfl⟩))
            have hx : x >>> (32 - bits) = network >>> (32 - bits) := hcontains
            show Addr.v4 (x >>> (32 - bits) <<< (32 - bits)) = Addr.v4 network
            rw [hx]
            exact masked
    | v6 network zone =>
        cases a with
        | v4 => exact hcontains.elim
        | v6 x own =>
            refine (dif_pos fits).trans (congrArg some (Prefix.ext_iff'.mpr ⟨?_, rfl⟩))
            have hx : x >>> (128 - bits) = network >>> (128 - bits) := hcontains
            show Addr.v6 (x >>> (128 - bits) <<< (128 - bits)) [] = Addr.v6 network zone
            rw [hx]
            exact masked

end PfBlockerNG.Netip
