import Mathlib.Data.List.Basic
import Mathlib.Data.List.Infix
import PfBlockerNG.ByteStrings
import PfBlockerNG.Strings

/-!
The UTF-8 octets of a text, and string functions on octets. An ASCII text stands in a text where
its octets stand in the octets of the text.
-/

namespace PfBlockerNG.Utf8

open PfBlockerNG.ByteStrings
open PfBlockerNG.Strings

def encode (s : Str) : Bytes := s.flatMap String.utf8EncodeChar

/-! ### String functions on octets -/

/-- Offset of the first occurrence of `needle`. -/
def strpos (needle : Bytes) : Bytes → Option Nat
  | [] => if needle = [] then some 0 else none
  | b :: bs => if needle.isPrefixOf (b :: bs) then some 0 else (strpos needle bs).map (· + 1)

/-- Offset of the last occurrence of `needle`. -/
def strrpos (needle : Bytes) : Bytes → Option Nat
  | [] => if needle = [] then some 0 else none
  | b :: bs => match strrpos needle bs with
    | some i => some (i + 1)
    | none => if needle.isPrefixOf (b :: bs) then some 0 else none

/-- Length of the initial run of octets of `mask`. -/
def strspn (mask bs : Bytes) : Nat := (bs.takeWhile mask.contains).length

/-- The length of a character by its first octet. -/
def leadLength (b : UInt8) : Nat :=
  if b.toNat < 0xC2 then 1
  else if b.toNat < 0xE0 then 2
  else if b.toNat < 0xF0 then 3
  else if b.toNat < 0xF8 then 4
  else 1

/-- `mb_substr($s, 0, 1, 'UTF-8')`. -/
def firstChar : Bytes → Bytes
  | [] => []
  | b :: bs => (b :: bs).take (leadLength b)

/-- The character at the start of the octets. -/
def decodeChar (bs : Bytes) : Option Char := bs.toByteArray.utf8DecodeChar? 0

/-! ### The octets of a character -/

@[simp] theorem encode_nil : encode [] = [] := rfl

@[simp] theorem encode_cons (c : Char) (s : Str) :
    encode (c :: s) = String.utf8EncodeChar c ++ encode s := rfl

theorem encode_append (s t : Str) : encode (s ++ t) = encode s ++ encode t :=
  List.flatMap_append

theorem length_encode_pos_iff (s : Str) : 0 < (encode s).length ↔ 0 < s.length := by
  cases s with
  | nil => rfl
  | cons c s =>
      have hpos := List.length_pos_iff.mpr (String.utf8EncodeChar_ne_nil (c := c))
      rw [encode_cons, List.length_append]
      exact iff_of_true (Nat.add_pos_left hpos _) (Nat.succ_pos _)

theorem encodeChar_ascii {c : Char} (h : c.toNat < 128) :
    String.utf8EncodeChar c = [UInt8.ofNat c.toNat] := by
  have hle : c.val.toNat ≤ 0x7f := Nat.le_of_lt_succ h
  simp only [String.utf8EncodeChar, hle, if_true]
  rfl

theorem encodeChar_not_ascii {c : Char} (h : 128 ≤ c.toNat) :
    ∀ b ∈ String.utf8EncodeChar c, 128 ≤ b.toNat := by
  have hgt : ¬ c.val.toNat ≤ 0x7f := Nat.not_le.mpr h
  intro b hb
  simp only [String.utf8EncodeChar, hgt, if_false] at hb
  split at hb
  · simp only [List.mem_cons, List.not_mem_nil, or_false] at hb
    rcases hb with rfl | rfl <;> simp only [UInt8.toNat_ofNat'] <;> omega
  · split at hb
    · simp only [List.mem_cons, List.not_mem_nil, or_false] at hb
      rcases hb with rfl | rfl | rfl <;> simp only [UInt8.toNat_ofNat'] <;> omega
    · simp only [List.mem_cons, List.not_mem_nil, or_false] at hb
      rcases hb with rfl | rfl | rfl | rfl <;> simp only [UInt8.toNat_ofNat'] <;> omega

theorem exists_encodeChar_eq_cons (c : Char) :
    ∃ b bs, String.utf8EncodeChar c = b :: bs ∧ leadLength b = bs.length + 1 := by
  have hvalid : c.val.toNat < 0x110000 := by
    rcases c.valid with h | ⟨-, h⟩
    · exact Nat.lt_trans h (by decide)
    · exact h
  unfold String.utf8EncodeChar leadLength
  dsimp only
  split
  · refine ⟨_, _, rfl, ?_⟩
    rw [if_pos (by rw [UInt8.toNat_ofNat']; omega)]
    rfl
  · split
    · refine ⟨_, _, rfl, ?_⟩
      rw [if_neg (by rw [UInt8.toNat_ofNat']; omega), if_pos (by rw [UInt8.toNat_ofNat']; omega)]
      rfl
    · split
      · refine ⟨_, _, rfl, ?_⟩
        rw [if_neg (by rw [UInt8.toNat_ofNat']; omega),
          if_neg (by rw [UInt8.toNat_ofNat']; omega), if_pos (by rw [UInt8.toNat_ofNat']; omega)]
        rfl
      · refine ⟨_, _, rfl, ?_⟩
        rw [if_neg (by rw [UInt8.toNat_ofNat']; omega),
          if_neg (by rw [UInt8.toNat_ofNat']; omega), if_neg (by rw [UInt8.toNat_ofNat']; omega),
          if_pos (by rw [UInt8.toNat_ofNat']; omega)]
        rfl

/-- The first character of a text is cut out whole. -/
theorem firstChar_encode (c : Char) (s : Str) :
    firstChar (encode (c :: s)) = String.utf8EncodeChar c := by
  obtain ⟨b, bs, hc, hlead⟩ := exists_encodeChar_eq_cons c
  rw [encode_cons, hc, List.cons_append, firstChar, hlead, ← List.cons_append,
    List.take_left' (List.length_cons ..)]

@[simp] theorem decodeChar_encodeChar (c : Char) :
    decodeChar (String.utf8EncodeChar c) = some c := by
  have happend := ByteArray.utf8DecodeChar?_utf8EncodeChar_append (b := ByteArray.empty) (c := c)
  rwa [ByteArray.append_empty] at happend

/-! ### Where an ASCII text stands -/

theorem mem_encode_ascii {c : Char} (hc : c.toNat < 128) {s : Str} :
    UInt8.ofNat c.toNat ∈ encode s ↔ c ∈ s := by
  have hbyte : (UInt8.ofNat c.toNat).toNat = c.toNat := by
    rw [UInt8.toNat_ofNat']
    omega
  rw [encode, List.mem_flatMap]
  constructor
  · rintro ⟨d, hd, hmem⟩
    by_cases hascii : d.toNat < 128
    · rw [encodeChar_ascii hascii, List.mem_singleton] at hmem
      have hval := congrArg UInt8.toNat hmem
      rw [hbyte, UInt8.toNat_ofNat'] at hval
      have hcd : c = d := Char.toNat_inj.mp (by omega)
      exact hcd ▸ hd
    · have hge := encodeChar_not_ascii (Nat.not_lt.mp hascii) _ hmem
      omega
  · intro hmem
    exact ⟨c, hmem, by rw [encodeChar_ascii hc]; exact List.mem_singleton_self _⟩

theorem cons_prefix_encode {c d : Char} (hc : c.toNat < 128) {p : Bytes} {s : Str} :
    UInt8.ofNat c.toNat :: p <+: String.utf8EncodeChar d ++ encode s ↔
      c = d ∧ p <+: encode s := by
  by_cases hd : d.toNat < 128
  · have hbyte : UInt8.ofNat c.toNat = UInt8.ofNat d.toNat ↔ c = d := by
      rw [← UInt8.toNat_inj, UInt8.toNat_ofNat', UInt8.toNat_ofNat', ← Char.toNat_inj]
      omega
    rw [encodeChar_ascii hd, List.singleton_append, List.cons_prefix_cons, hbyte]
  · obtain ⟨b, bs, hbs, -⟩ := exists_encodeChar_eq_cons d
    have hge := encodeChar_not_ascii (Nat.not_lt.mp hd) b (by rw [hbs]; exact List.mem_cons_self)
    rw [hbs, List.cons_append, List.cons_prefix_cons]
    constructor
    · rintro ⟨hcb, -⟩
      rw [← hcb, UInt8.toNat_ofNat'] at hge
      omega
    · rintro ⟨rfl, -⟩
      exact absurd hc hd

theorem encode_prefix_iff {p s : Str} (hp : p.all isAscii = true) :
    encode p <+: encode s ↔ p <+: s := by
  induction p generalizing s with
  | nil => simp
  | cons c p ih =>
      rw [List.all_cons, Bool.and_eq_true, isAscii, decide_eq_true_eq] at hp
      rw [encode_cons, encodeChar_ascii hp.1, List.singleton_append]
      cases s with
      | nil => simp
      | cons d s => rw [encode_cons, cons_prefix_encode hp.1, ih hp.2, List.cons_prefix_cons]

theorem startsWith_encode {p s : Str} (hp : p.all isAscii = true) :
    (encode p).isPrefixOf (encode s) = startsWith p s := by
  rw [startsWith, Bool.eq_iff_iff, List.isPrefixOf_iff_prefix, List.isPrefixOf_iff_prefix]
  exact encode_prefix_iff hp

theorem concat_suffix_encode {c d : Char} (hc : c.toNat < 128) {s : Str} :
    [UInt8.ofNat c.toNat] <:+ encode (s ++ [d]) ↔ c = d := by
  rw [encode_append, encode_cons, encode_nil, List.append_nil]
  constructor
  · intro hsuffix
    have hlast := hsuffix.getLast (List.cons_ne_nil _ _)
    rw [List.getLast_singleton, List.getLast_append_of_ne_nil _ String.utf8EncodeChar_ne_nil]
      at hlast
    have hmem : UInt8.ofNat c.toNat ∈ encode [d] := by
      rw [encode_cons, encode_nil, List.append_nil, hlast]
      exact List.getLast_mem _
    exact List.mem_singleton.mp ((mem_encode_ascii hc).mp hmem)
  · rintro rfl
    rw [encodeChar_ascii hc]
    exact List.suffix_append _ _

/-- A text ends in an ASCII character where its octets end in it. -/
theorem endsWith_encode {c : Char} (hc : c.toNat < 128) (s : Str) :
    (encode [c]).isSuffixOf (encode s) = endsWith [c] s := by
  rw [endsWith, Bool.eq_iff_iff, List.isSuffixOf_iff_suffix, List.isSuffixOf_iff_suffix,
    encode_cons, encodeChar_ascii hc, encode_nil, List.append_nil]
  induction s using List.reverseRecOn with
  | nil => simp
  | append_singleton s d _ =>
      rw [concat_suffix_encode hc]
      constructor
      · rintro rfl
        exact List.suffix_append _ _
      · intro hsuffix
        simpa using hsuffix.getLast (List.cons_ne_nil _ _)

/-! ### Offsets -/

/-- The offset in octets of the character at offset `i`. -/
def offset (s : Str) (i : Nat) : Nat := (encode (s.take i)).length

theorem offset_zero (s : Str) : offset s 0 = 0 := rfl

theorem offset_succ (c : Char) (s : Str) (i : Nat) :
    offset (c :: s) (i + 1) = offset s i + (String.utf8EncodeChar c).length := by
  rw [offset, List.take_succ_cons, encode_cons, List.length_append, Nat.add_comm]
  rfl

theorem offset_lt {s : Str} {i j : Nat} (hij : i < j) (hi : i < s.length) :
    offset s i < offset s j := by
  induction s generalizing i j with
  | nil => exact absurd hi (Nat.not_lt_zero _)
  | cons c s ih =>
      obtain ⟨j, rfl⟩ := Nat.exists_eq_succ_of_ne_zero (Nat.ne_of_gt (Nat.zero_lt_of_lt hij))
      cases i with
      | zero =>
          rw [offset_succ, offset_zero]
          have hpos := List.length_pos_iff.mpr (String.utf8EncodeChar_ne_nil (c := c))
          omega
      | succ i =>
          rw [offset_succ, offset_succ]
          exact Nat.add_lt_add_right
            (ih (Nat.lt_of_succ_lt_succ hij) (Nat.lt_of_succ_lt_succ hi)) _

theorem offset_lt_iff {s : Str} {i j : Nat} (hi : i < s.length) (hj : j < s.length) :
    offset s i < offset s j ↔ i < j := by
  constructor
  · intro hlt
    by_contra hge
    rcases Nat.lt_or_eq_of_le (Nat.not_lt.mp hge) with hji | rfl
    · exact Nat.lt_asymm hlt (offset_lt hji hj)
    · exact Nat.lt_irrefl _ hlt
  · intro hij
    exact offset_lt hij hi

theorem offset_pos_iff {s : Str} (hs : s ≠ []) (i : Nat) : 0 < offset s i ↔ 0 < i := by
  constructor
  · rintro hpos
    rw [Nat.pos_iff_ne_zero]
    rintro rfl
    exact Nat.lt_irrefl _ hpos
  · intro hpos
    exact offset_lt hpos (List.length_pos_iff.mpr hs)

theorem take_offset (s : Str) (i : Nat) : (encode s).take (offset s i) = encode (s.take i) := by
  conv_lhs => rw [← List.take_append_drop i s, encode_append]
  rw [offset, List.take_append_drop]
  exact List.take_left

theorem offset_le (s : Str) (i : Nat) : offset s i ≤ (encode s).length := by
  have hsplit := congrArg (fun t => (encode t).length) (List.take_append_drop i s)
  simp only [encode_append, List.length_append] at hsplit
  rw [offset]
  omega

theorem le_strspn_iff {mask bs : Bytes} {n : Nat} (hn : n ≤ bs.length) :
    n ≤ strspn mask bs ↔ (bs.take n).all mask.contains = true := by
  rw [strspn]
  induction bs generalizing n with
  | nil => simp_all
  | cons b bs ih =>
      cases n with
      | zero => simp
      | succ n =>
          rw [List.length_cons, Nat.succ_le_succ_iff] at hn
          rw [List.take_succ_cons, List.all_cons, Bool.and_eq_true, ← ih hn, List.takeWhile_cons]
          split
          · next hmem =>
              rw [hmem, List.length_cons, Nat.succ_le_succ_iff]
              exact (and_iff_right rfl).symm
          · next hmem =>
              rw [List.length_nil]
              exact iff_of_false (Nat.not_succ_le_zero n) fun hall => hmem hall.1

theorem all_mask_encode {mask : Str} (hmask : mask.all isAscii = true) (s : Str) :
    (encode s).all (encode mask).contains = s.all mask.contains := by
  rw [Bool.eq_iff_iff, List.all_eq_true, List.all_eq_true]
  simp only [List.contains_iff_mem]
  have hchars : ∀ c ∈ mask, c.toNat < 128 := by
    simpa [isAscii] using hmask
  constructor
  · intro hall c hc
    by_cases hascii : c.toNat < 128
    · exact (mem_encode_ascii hascii).mp (hall _ ((mem_encode_ascii hascii).mpr hc))
    · obtain ⟨b, bs, hbs, -⟩ := exists_encodeChar_eq_cons c
      have hb : b ∈ String.utf8EncodeChar c := by
        rw [hbs]
        exact List.mem_cons_self
      have hge := encodeChar_not_ascii (Nat.not_lt.mp hascii) b hb
      obtain ⟨d, hd, hbd⟩ := List.mem_flatMap.mp (hall b (List.mem_flatMap.mpr ⟨c, hc, hb⟩))
      rw [encodeChar_ascii (hchars d hd), List.mem_singleton] at hbd
      have hlt := hchars d hd
      rw [hbd, UInt8.toNat_ofNat'] at hge
      omega
  · intro hall b hb
    obtain ⟨c, hc, hbc⟩ := List.mem_flatMap.mp hb
    exact List.mem_flatMap.mpr ⟨c, hall c hc, hbc⟩

/-- The initial run of characters of an ASCII mask. -/
theorem offset_le_strspn_iff {mask : Str} (hmask : mask.all isAscii = true) (s : Str) (i : Nat) :
    offset s i ≤ strspn (encode mask) (encode s) ↔ (s.take i).all mask.contains = true := by
  rw [le_strspn_iff (offset_le s i), take_offset, all_mask_encode hmask]

theorem strpos_skip {b : UInt8} {needle bs : Bytes} (hb : b ∉ bs) (rest : Bytes) :
    strpos (b :: needle) (bs ++ rest) = (strpos (b :: needle) rest).map (· + bs.length) := by
  induction bs with
  | nil => simp
  | cons a bs ih =>
      rw [List.mem_cons, not_or] at hb
      have hfirst : (b :: needle).isPrefixOf (a :: (bs ++ rest)) = false := by
        rw [List.isPrefixOf, beq_eq_false_iff_ne.mpr hb.1, Bool.false_and]
      rw [List.cons_append, strpos, hfirst, if_neg Bool.false_ne_true, ih hb.2, Option.map_map]
      rfl

theorem strrpos_skip {b : UInt8} {needle bs : Bytes} (hb : b ∉ bs) (rest : Bytes) :
    strrpos (b :: needle) (bs ++ rest) = (strrpos (b :: needle) rest).map (· + bs.length) := by
  induction bs with
  | nil => simp
  | cons a bs ih =>
      rw [List.mem_cons, not_or] at hb
      have hfirst : (b :: needle).isPrefixOf (a :: (bs ++ rest)) = false := by
        rw [List.isPrefixOf, beq_eq_false_iff_ne.mpr hb.1, Bool.false_and]
      rw [List.cons_append, strrpos, ih hb.2]
      cases strrpos (b :: needle) rest with
      | none => simp [hfirst]
      | some i => rfl

theorem ascii_of_cons {c : Char} {p : Str} (hp : (c :: p).all isAscii = true) :
    c.toNat < 128 := by
  rw [List.all_cons, Bool.and_eq_true] at hp
  exact of_decide_eq_true hp.1

/-- After its first octet, a character has no octet of an ASCII one. -/
theorem not_mem_tail {c d : Char} (hc : c.toNat < 128) {b : UInt8} {bs : Bytes}
    (hd : String.utf8EncodeChar d = b :: bs) : UInt8.ofNat c.toNat ∉ bs := by
  intro hmem
  by_cases hascii : d.toNat < 128
  · rw [encodeChar_ascii hascii, List.cons.injEq] at hd
    exact List.not_mem_nil (hd.2 ▸ hmem)
  · have hge := encodeChar_not_ascii (Nat.not_lt.mp hascii) (UInt8.ofNat c.toNat)
      (by rw [hd]; exact List.mem_cons_of_mem _ hmem)
    rw [UInt8.toNat_ofNat'] at hge
    omega

/-- An ASCII text is first found where its octets are. -/
theorem strpos_encode {p : Str} (hne : p ≠ []) (hp : p.all isAscii = true) (s : Str) :
    strpos (encode p) (encode s) = (find p s).map (offset s) := by
  obtain ⟨c, p, rfl⟩ := List.exists_cons_of_ne_nil hne
  have hc := ascii_of_cons hp
  have hneedle : encode (c :: p) = UInt8.ofNat c.toNat :: encode p := by
    rw [encode_cons, encodeChar_ascii hc, List.singleton_append]
  induction s with
  | nil => simp [strpos, find, hneedle]
  | cons d s ih =>
      obtain ⟨b, bs, hbs, -⟩ := exists_encodeChar_eq_cons d
      have hfirst := startsWith_encode (s := d :: s) hp
      have hoctets : encode (d :: s) = b :: (bs ++ encode s) := by
        rw [encode_cons, hbs, List.cons_append]
      rw [hoctets] at hfirst ⊢
      rw [strpos, hfirst, find]
      split
      · rfl
      · rw [hneedle, strpos_skip (not_mem_tail hc hbs), ← hneedle, ih, Option.map_map,
          Option.map_map, Option.map_map]
        congr 1
        funext i
        change offset s i + bs.length + 1 = offset (d :: s) (i + 1)
        rw [offset_succ, hbs, List.length_cons, Nat.add_assoc]

/-- An ASCII text is last found where its octets are. -/
theorem strrpos_encode {p : Str} (hne : p ≠ []) (hp : p.all isAscii = true) (s : Str) :
    strrpos (encode p) (encode s) = (rfind p s).map (offset s) := by
  obtain ⟨c, p, rfl⟩ := List.exists_cons_of_ne_nil hne
  have hc := ascii_of_cons hp
  have hneedle : encode (c :: p) = UInt8.ofNat c.toNat :: encode p := by
    rw [encode_cons, encodeChar_ascii hc, List.singleton_append]
  induction s with
  | nil => simp [strrpos, rfind, hneedle]
  | cons d s ih =>
      obtain ⟨b, bs, hbs, -⟩ := exists_encodeChar_eq_cons d
      have hfirst := startsWith_encode (s := d :: s) hp
      have hoctets : encode (d :: s) = b :: (bs ++ encode s) := by
        rw [encode_cons, hbs, List.cons_append]
      have hrest : strrpos (encode (c :: p)) (bs ++ encode s) =
          (rfind (c :: p) s).map fun i => offset s i + bs.length := by
        rw [hneedle, strrpos_skip (not_mem_tail hc hbs), ← hneedle, ih, Option.map_map]
        rfl
      rw [hoctets] at hfirst ⊢
      rw [strrpos, hrest, hfirst, rfind]
      cases rfind (c :: p) s with
      | none => cases startsWith (c :: p) (d :: s) <;> rfl
      | some i =>
          change some (offset s i + bs.length + 1) = some (offset (d :: s) (i + 1))
          rw [offset_succ, hbs, List.length_cons, Nat.add_assoc]

end PfBlockerNG.Utf8
