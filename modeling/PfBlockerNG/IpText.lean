import PfBlockerNG.BinaryStrings
import PfBlockerNG.PyText

/-!
The text of addresses and subnets: dotted quads, the IPv6 reader the platform supplies, CIDR tokens
and the blocks of addresses they name. An address is its packed bits, 32 or 128 of them.
-/

namespace PfBlockerNG.IpText

open PfBlockerNG.Strings
open PfBlockerNG.PyText
open PfBlockerNG.BinaryStrings

abbrev Addr := List Bool

/-- The addresses of `width` bits that begin with `net`. -/
structure Block where
  width : Nat
  net : List Bool
  le : net.length ≤ width
deriving DecidableEq

namespace Block

def Contains (b : Block) (a : Addr) : Prop := a.length = b.width ∧ b.net <+: a

instance (b : Block) (a : Addr) : Decidable (b.Contains a) :=
  inferInstanceAs (Decidable (_ ∧ _))

def first (b : Block) : Addr := b.net ++ List.replicate (b.width - b.net.length) false

def last (b : Block) : Addr := b.net ++ List.replicate (b.width - b.net.length) true

@[simp] theorem length_first (b : Block) : b.first.length = b.width := by
  have := b.le
  simp only [first, List.length_append, List.length_replicate]
  omega

@[simp] theorem length_last (b : Block) : b.last.length = b.width := by
  have := b.le
  simp only [last, List.length_append, List.length_replicate]
  omega

theorem contains_iff_between {b : Block} {a : Addr} :
    b.Contains a ↔ a.length = b.width ∧ value b.first ≤ value a ∧ value a ≤ value b.last := by
  unfold Contains first last
  have hle := b.le
  constructor
  · rintro ⟨hlen, hbegins⟩
    refine ⟨hlen, (take_eq_iff_between (n := b.width - b.net.length) (by omega)).mp ?_⟩
    exact (List.prefix_iff_eq_take.mp hbegins).symm
  · rintro ⟨hlen, hbetween⟩
    refine ⟨hlen, List.prefix_iff_eq_take.mpr ?_⟩
    exact ((take_eq_iff_between (n := b.width - b.net.length) (by omega)).mpr hbetween).symm

theorem value_first_le_last (b : Block) : value b.first ≤ value b.last := by
  have := value_replicate_true (b.width - b.net.length)
  simp only [first, last, value_append, List.length_replicate, value_replicate_false]
  omega

end Block

def octetBits (octets : List Nat) : List Bool := octets.flatMap (ofNat 8)

/-- `str_split($bin, 8)` with every piece read as a number. -/
def octetsOf : List Bool → List Nat
  | a :: b :: c :: d :: e :: f :: g :: h :: rest => value [a, b, c, d, e, f, g, h] :: octetsOf rest
  | [] => []
  | bits => [value bits]

theorem length_octetBits (octets : List Nat) : (octetBits octets).length = 8 * octets.length := by
  induction octets with
  | nil => rfl
  | cons o octets ih =>
      simp only [octetBits, List.flatMap_cons, List.length_append, length_ofNat,
        List.length_cons] at ih ⊢
      omega

theorem octetsOf_spec {bits : List Bool} (h : 8 ∣ bits.length) :
    octetBits (octetsOf bits) = bits ∧ (octetsOf bits).length = bits.length / 8 ∧
      ∀ o ∈ octetsOf bits, o < 256 := by
  induction bits using octetsOf.induct with
  | case1 a b c d e f g i rest ih =>
      have hrest : 8 ∣ rest.length := by
        simp only [List.length_cons] at h
        omega
      obtain ⟨hbits, hlen, hlt⟩ := ih hrest
      refine ⟨?_, ?_, ?_⟩
      · have hhead := ofNat_value [a, b, c, d, e, f, g, i]
        simp only [List.length_cons, List.length_nil] at hhead
        simp only [octetsOf, octetBits, List.flatMap_cons]
        rw [hhead]
        exact congrArg ([a, b, c, d, e, f, g, i] ++ ·) hbits
      · simp only [octetsOf, List.length_cons, hlen]
        omega
      · intro o ho
        rcases List.mem_cons.mp ho with rfl | ho
        · exact lt_of_lt_of_eq (value_lt [a, b, c, d, e, f, g, i]) (by simp)
        · exact hlt o ho
  | case2 => simp [octetsOf, octetBits]
  | case3 bits hnil hlong =>
      match bits, h, hnil, hlong with
      | [], _, _, hlong => exact (hlong rfl).elim
      | [_], h, _, _ | [_, _], h, _, _ | [_, _, _], h, _, _ | [_, _, _, _], h, _, _
      | [_, _, _, _, _], h, _, _ | [_, _, _, _, _, _], h, _, _
      | [_, _, _, _, _, _, _], h, _, _ => simp at h
      | _ :: _ :: _ :: _ :: _ :: _ :: _ :: _ :: _, _, hnil, _ =>
          exact (hnil _ _ _ _ _ _ _ _ _ rfl).elim

/-- `(int)` of a run of digits. -/
def decimal (s : Str) : Nat := s.foldl (fun n c => 10 * n + (c.toNat - '0'.toNat)) 0

/-- Decimal text without leading zeros. -/
def octetText (n : Nat) : Str := Nat.toDigits 10 n

def readOctet (s : Str) : Option Nat :=
  if decimal s < 256 ∧ octetText (decimal s) = s then some (decimal s) else none

/-- The octets of a dotted quad; an octet with a leading zero is none. -/
def readQuad (t : Str) : Option (List Nat) :=
  match splitDots t with
  | [a, b, c, d] => do pure [← readOctet a, ← readOctet b, ← readOctet c, ← readOctet d]
  | _ => none

def quadText (octets : List Nat) : Str := joinDots (octets.map octetText)

/-- The platform's IPv6 text: `inet_pton()`, `inet_ntop()` and `is_ipaddrv6()`, which also takes a
link-local address with its zone. -/
structure Ipv6Text where
  pton : Str → Option (List Nat)
  ntop : List Nat → Str
  isIpaddr : Str → Bool
  length_of_pton : ∀ {t octets}, pton t = some octets → octets.length = 16
  lt_of_pton : ∀ {t octets}, pton t = some octets → ∀ o ∈ octets, o < 256
  clean_of_pton : ∀ {t octets}, pton t = some octets →
    ∀ c ∈ t, (isHexDigit c || c == ':' || c == '.') = true
  colon_of_pton : ∀ {t octets}, pton t = some octets → ':' ∈ t
  isIpaddr_of_pton : ∀ {t octets}, pton t = some octets → isIpaddr t = true
  pton_ntop : ∀ {octets}, octets.length = 16 → (∀ o ∈ octets, o < 256) →
    pton (ntop octets) = some octets

/-- What `trim()` strips. -/
def isTrimmed (c : Char) : Bool :=
  c == ' ' || c == '\t' || c == '\n' || c == '\r' || c == Char.ofNat 0 || c == Char.ofNat 11

def trim (s : Str) : Str := rstripWhile isTrimmed (lstripWhile isTrimmed s)

/-- The mask of a subnet: one to three digits. -/
def readMask (m : Str) : Option Nat :=
  if isAsciiDigits m && decide (m.length ≤ 3) then some (decimal m) else none

section Reading

variable (T : Ipv6Text)

def inetPton (t : Str) : Option (List Nat) :=
  match readQuad t with
  | some octets => some octets
  | none => T.pton t

def hostOf (t : Str) : Option Addr := (inetPton T t).map octetBits

def hostBlock (a : Addr) : Block := ⟨a.length, a, le_refl _⟩

/-- The block an `address/mask` text names. -/
def subnetOf (s : Str) : Option Block :=
  match partition '/' s with
  | (net, true, mask) => match readMask mask, hostOf T net with
    | some bits, some a =>
        if bits ≤ a.length then some ⟨a.length, a.take bits, List.length_take_le' _ _⟩ else none
    | _, _ => none
  | _ => none

/-- What a bare host or a CIDR text names. -/
def entryOf (s : Str) : Option Block :=
  if '/' ∈ s then subnetOf T s else (hostOf T s).map hostBlock

/-- `is_subnetv6()`. -/
def isSubnetv6 (s : Str) : Bool :=
  match partition '/' s with
  | (ip, true, mask) => T.isIpaddr ip && !ip.contains '%' &&
      (match readMask mask with
        | some bits => decide (bits ≤ 128)
        | none => false)
  | _ => false

/-- `ip_in_subnet()`: the leading bits of the two packed addresses agree. -/
def ipInSubnet (addr subnet : Str) : Bool :=
  match partition '/' subnet with
  | (net, true, mask) => match readMask mask, inetPton T addr, inetPton T net with
    | some bits, some a, some n =>
        a.length == n.length && decide (bits ≤ n.length * 8) &&
          (octetBits a).take bits == (octetBits n).take bits
    | _, _, _ => false
  | _ => false

end Reading

theorem decimal_octetText (n : Nat) : decimal (octetText n) = n := by
  unfold decimal octetText
  rw [← Nat.ofDigitChars_eq_foldl, Nat.ofDigitChars_toDigits (by omega) (by omega)]

theorem readOctet_octetText {n : Nat} (h : n < 256) : readOctet (octetText n) = some n := by
  rw [readOctet, decimal_octetText, if_pos ⟨h, rfl⟩]

theorem octetText_clean (n : Nat) : (octetText n).all isAsciiDigit = true ∧ octetText n ≠ [] :=
  ⟨List.all_eq_true.mpr fun _ hc => Nat.isDigit_of_mem_toDigits (by omega) (by omega) hc,
    Nat.toDigits_ne_nil⟩

theorem readOctet_eq_some {s : Str} {n : Nat} (h : readOctet s = some n) :
    n < 256 ∧ s = octetText n := by
  unfold readOctet at h
  split at h
  · rename_i hs
    obtain rfl := Option.some.inj h
    exact ⟨hs.1, hs.2.symm⟩
  · cases h

theorem readQuad_eq_some {t : Str} {octets : List Nat} (h : readQuad t = some octets) :
    octets.length = 4 ∧ (∀ o ∈ octets, o < 256) ∧ splitDots t = octets.map octetText := by
  unfold readQuad at h
  split at h
  · rename_i a b c d hsplit
    simp only [Option.bind_eq_bind, Option.pure_def, Option.bind_eq_some_iff,
      Option.some.injEq] at h
    obtain ⟨i, hi, j, hj, k, hk, l, hl, rfl⟩ := h
    obtain ⟨hi', rfl⟩ := readOctet_eq_some hi
    obtain ⟨hj', rfl⟩ := readOctet_eq_some hj
    obtain ⟨hk', rfl⟩ := readOctet_eq_some hk
    obtain ⟨hl', rfl⟩ := readOctet_eq_some hl
    exact ⟨rfl, by simp [hi', hj', hk', hl'], hsplit⟩
  · cases h

theorem readQuad_quadText {octets : List Nat} (hlen : octets.length = 4)
    (hlt : ∀ o ∈ octets, o < 256) : readQuad (quadText octets) = some octets := by
  match octets, hlen, hlt with
  | [i, j, k, l], _, hlt =>
      have hdots : ∀ s ∈ [i, j, k, l].map octetText, '.' ∉ s := by
        intro s hs hdot
        obtain ⟨o, ho, rfl⟩ := List.mem_map.mp hs
        have hall := (octetText_clean o).1
        exact absurd (List.all_eq_true.mp hall _ hdot) (by decide)
      have hsplit : splitDots (quadText [i, j, k, l]) = [i, j, k, l].map octetText :=
        List.splitOn_intercalate _ hdots (by simp)
      unfold readQuad
      rw [hsplit]
      simp [readOctet_octetText (hlt i (by simp)), readOctet_octetText (hlt j (by simp)),
        readOctet_octetText (hlt k (by simp)), readOctet_octetText (hlt l (by simp))]

/-- A dotted quad is digits and dots. -/
theorem quad_clean {t : Str} {octets : List Nat} (h : readQuad t = some octets) :
    ∀ c ∈ t, (isAsciiDigit c || c == '.') = true := by
  obtain ⟨-, hlt, hsplit⟩ := readQuad_eq_some h
  intro c hc
  have hjoin : t = joinDots (splitDots t) := (List.intercalate_splitOn '.').symm
  rw [hjoin, hsplit] at hc
  rcases mem_intercalate hc with rfl | ⟨s, hs, hcs⟩
  · simp
  · obtain ⟨o, ho, rfl⟩ := List.mem_map.mp hs
    simp [List.all_eq_true.mp (octetText_clean o).1 c hcs]

section Reading

variable {T : Ipv6Text}

theorem inetPton_eq_some {t : Str} {octets : List Nat} (h : inetPton T t = some octets) :
    (readQuad t = some octets ∧ ':' ∉ t) ∨ (T.pton t = some octets ∧ ':' ∈ t) := by
  unfold inetPton at h
  split at h
  · rename_i os hos
    obtain rfl := Option.some.inj h
    exact Or.inl ⟨hos, fun hc => absurd (quad_clean hos ':' hc) (by decide)⟩
  · exact Or.inr ⟨h, T.colon_of_pton h⟩

/-- An address text without a colon is an IPv4 one, with a colon an IPv6 one. -/
theorem length_of_hostOf {t : Str} {a : Addr} (h : hostOf T t = some a) :
    a.length = if ':' ∈ t then 128 else 32 := by
  obtain ⟨octets, hos, rfl⟩ := Option.map_eq_some_iff.mp h
  rw [length_octetBits]
  rcases inetPton_eq_some hos with ⟨hquad, hc⟩ | ⟨hpton, hc⟩
  · rw [if_neg hc, (readQuad_eq_some hquad).1]
  · rw [if_pos hc, T.length_of_pton hpton]

theorem clean_of_hostOf {t : Str} {a : Addr} (h : hostOf T t = some a) :
    ∀ c ∈ t, (isHexDigit c || c == ':' || c == '.') = true := by
  obtain ⟨octets, hos, rfl⟩ := Option.map_eq_some_iff.mp h
  rcases inetPton_eq_some hos with ⟨hquad, -⟩ | ⟨hpton, -⟩
  · intro c hc
    have := quad_clean hquad c hc
    simp only [Bool.or_eq_true] at this
    rcases this with hd | hd
    · simp [isHexDigit, hd]
    · simp [hd]
  · exact T.clean_of_pton hpton

theorem not_mem_of_hostOf {t : Str} {a : Addr} (h : hostOf T t = some a) {c : Char}
    (hc : (isHexDigit c || c == ':' || c == '.') = false) : c ∉ t := by
  intro hmem
  rw [clean_of_hostOf h c hmem] at hc
  cases hc

theorem trim_of_forall {s : Str} (h : ∀ c ∈ s, isTrimmed c = false) : trim s = s := by
  rw [trim, lstripWhile_of_all h, rstripWhile_of_all h]

theorem subnetOf_eq_some_iff {s : Str} {b : Block} :
    subnetOf T s = some b ↔ ∃ net mask bits a, partition '/' s = (net, true, mask) ∧
      readMask mask = some bits ∧ hostOf T net = some a ∧ bits ≤ a.length ∧
      b.width = a.length ∧ b.net = a.take bits := by
  unfold subnetOf
  split
  · rename_i net mask hpart
    split
    · rename_i bits a hbits ha
      constructor
      · intro h
        split at h
        · rename_i hle
          obtain rfl := Option.some.inj h
          exact ⟨net, mask, bits, a, hpart, hbits, ha, hle, rfl, rfl⟩
        · cases h
      · rintro ⟨net', mask', bits', a', hpart', hbits', ha', hle, hwidth, hnet⟩
        rw [hpart] at hpart'
        obtain ⟨rfl, -, rfl⟩ := Prod.mk.injEq .. ▸ hpart'
        rw [hbits] at hbits'
        rw [ha] at ha'
        obtain rfl := Option.some.inj hbits'
        obtain rfl := Option.some.inj ha'
        rw [if_pos hle, Option.some.injEq]
        cases b
        simp_all
    · rename_i hnone
      constructor
      · intro h
        cases h
      · rintro ⟨net', mask', bits', a', hpart', hbits', ha', -⟩
        rw [hpart] at hpart'
        obtain ⟨rfl, -, rfl⟩ := Prod.mk.injEq .. ▸ hpart'
        exact (hnone bits' a' hbits' ha').elim
  · rename_i hpart
    constructor
    · intro h
      cases h
    · rintro ⟨net, mask, -, -, h, -⟩
      exact (hpart net mask h).elim

/-- `ip_in_subnet()` is membership in the block the subnet text names. -/
theorem ipInSubnet_iff {addr subnet : Str} :
    ipInSubnet T addr subnet = true ↔ ∃ a b, hostOf T addr = some a ∧ subnetOf T subnet = some b ∧
      b.Contains a := by
  constructor
  · intro h
    unfold ipInSubnet at h
    split at h
    · rename_i net mask hpart
      split at h
      · rename_i bits oa on hbits hoa hon
        simp only [Bool.and_eq_true, beq_iff_eq, decide_eq_true_eq] at h
        obtain ⟨⟨hlen, hle⟩, htake⟩ := h
        refine ⟨octetBits oa, ⟨(octetBits on).length, (octetBits on).take bits,
          List.length_take_le' _ _⟩, by simp [hostOf, hoa], subnetOf_eq_some_iff.mpr
          ⟨net, mask, bits, octetBits on, hpart, hbits, by simp [hostOf, hon], ?_, rfl, rfl⟩,
          ?_, ?_⟩
        · rw [length_octetBits]
          omega
        · change (octetBits oa).length = (octetBits on).length
          rw [length_octetBits, length_octetBits, hlen]
        · change (octetBits on).take bits <+: octetBits oa
          rw [← htake]
          exact List.take_prefix _ _
      · cases h
    · cases h
  · rintro ⟨a, b, ha, hb, hlen, hbegins⟩
    obtain ⟨net, mask, bits, n, hpart, hbits, hn, hle, hwidth, hnet⟩ := subnetOf_eq_some_iff.mp hb
    obtain ⟨oa, hoa, rfl⟩ := Option.map_eq_some_iff.mp ha
    obtain ⟨on, hon, rfl⟩ := Option.map_eq_some_iff.mp hn
    unfold ipInSubnet
    rw [hpart]
    simp only [hbits, hoa, hon, Bool.and_eq_true, beq_iff_eq, decide_eq_true_eq]
    rw [hwidth, length_octetBits, length_octetBits] at hlen
    rw [length_octetBits] at hle
    refine ⟨⟨by omega, by omega⟩, ?_⟩
    rw [hnet, List.prefix_iff_eq_take, List.length_take, length_octetBits] at hbegins
    rw [hbegins, Nat.min_eq_left hle]

theorem hostOf_nil : hostOf T [] = none := by
  cases h : hostOf T [] with
  | none => rfl
  | some a =>
      obtain ⟨octets, hos, -⟩ := Option.map_eq_some_iff.mp h
      rcases inetPton_eq_some hos with ⟨hquad, -⟩ | ⟨-, hc⟩
      · have hnone : readQuad [] = none := by decide
        rw [hnone] at hquad
        cases hquad
      · cases hc

theorem readMask_eq_some {m : Str} {bits : Nat} (h : readMask m = some bits) :
    bits = decimal m ∧ ∀ c ∈ m, isAsciiDigit c = true := by
  unfold readMask at h
  split at h
  · rename_i hm
    simp only [isAsciiDigits, Bool.and_eq_true, decide_eq_true_eq] at hm
    exact ⟨(Option.some.inj h).symm, List.all_eq_true.mp hm.1.2⟩
  · cases h

/-- The text of an entry holds no blank and no `#`. -/
theorem clean_of_entryOf {s : Str} {b : Block} (h : entryOf T s = some b) :
    s ≠ [] ∧ ∀ c ∈ s, (isHexDigit c || c == ':' || c == '.' || c == '/') = true := by
  unfold entryOf at h
  split at h
  · rename_i hslash
    obtain ⟨net, mask, bits, a, hpart, hmask, ha, -⟩ := subnetOf_eq_some_iff.mp h
    obtain ⟨rfl, -⟩ := (partition_eq_found_iff _ _ _ _).mp hpart
    refine ⟨by simp, fun c hc => ?_⟩
    rcases List.mem_append.mp hc with hc | hc
    · rw [clean_of_hostOf ha c hc, Bool.true_or]
    · rcases List.mem_cons.mp hc with rfl | hc
      · simp
      · have := (readMask_eq_some hmask).2 c hc
        simp [isHexDigit, this]
  · obtain ⟨a, ha, -⟩ := Option.map_eq_some_iff.mp h
    refine ⟨?_, fun c hc => by rw [clean_of_hostOf ha c hc, Bool.true_or]⟩
    rintro rfl
    rw [hostOf_nil] at ha
    cases ha

theorem not_mem_of_entryOf {s : Str} {b : Block} (h : entryOf T s = some b) {c : Char}
    (hc : (isHexDigit c || c == ':' || c == '.' || c == '/') = false) : c ∉ s := by
  intro hmem
  rw [(clean_of_entryOf h).2 c hmem] at hc
  cases hc

theorem trim_of_entryOf {s : Str} {b : Block} (h : entryOf T s = some b) : trim s = s := by
  refine trim_of_forall fun c hc => ?_
  cases ht : isTrimmed c with
  | false => rfl
  | true =>
      simp only [isTrimmed, Bool.or_eq_true, beq_iff_eq] at ht
      rcases ht with ((((rfl | rfl) | rfl) | rfl) | rfl) | rfl <;>
        exact absurd hc (not_mem_of_entryOf h (by decide))

theorem pton_of_hostOf {t : Str} {a : Addr} (h : hostOf T t = some a) (hlen : a.length = 128) :
    ∃ octets, T.pton t = some octets := by
  obtain ⟨octets, hos, rfl⟩ := Option.map_eq_some_iff.mp h
  rcases inetPton_eq_some hos with ⟨hquad, -⟩ | ⟨hpton, -⟩
  · rw [length_octetBits, (readQuad_eq_some hquad).1] at hlen
    omega
  · exact ⟨octets, hpton⟩

/-- An `is_subnetv6()` text has a mask up to 128, and every IPv6 block's text is one. -/
theorem isSubnetv6_of_subnetOf {s : Str} {b : Block} (h : subnetOf T s = some b)
    (hwidth : b.width = 128) : isSubnetv6 T s = true := by
  obtain ⟨net, mask, bits, a, hpart, hmask, ha, hle, hlen, -⟩ := subnetOf_eq_some_iff.mp h
  rw [hwidth] at hlen
  obtain ⟨octets, hpton⟩ := pton_of_hostOf ha hlen.symm
  have hzone : net.contains '%' = false := by
    rw [List.contains_eq_mem]
    exact decide_eq_false (not_mem_of_hostOf ha (by decide))
  unfold isSubnetv6
  rw [hpart]
  simp only [hmask, T.isIpaddr_of_pton hpton, hzone, Bool.not_false, Bool.and_true, Bool.true_and,
    decide_eq_true_eq]
  omega

theorem isSubnetv6_eq_true {s : Str} (h : isSubnetv6 T s = true) :
    ∃ net mask bits, partition '/' s = (net, true, mask) ∧ readMask mask = some bits ∧
      bits ≤ 128 := by
  unfold isSubnetv6 at h
  split at h
  · rename_i net mask hpart
    cases hmask : readMask mask with
    | none => simp [hmask] at h
    | some bits =>
        simp only [hmask, Bool.and_eq_true, decide_eq_true_eq] at h
        exact ⟨net, mask, bits, hpart, hmask, h.2⟩
  · cases h

/-- The two ends of an `address/mask` block, from the value of the address. -/
theorem value_ends_of_subnetOf {s : Str} {b : Block} (h : subnetOf T s = some b) :
    ∃ net mask bits a, partition '/' s = (net, true, mask) ∧ readMask mask = some bits ∧
      hostOf T net = some a ∧ bits ≤ b.width ∧ b.width = a.length ∧
      value b.first = value a / 2 ^ (b.width - bits) * 2 ^ (b.width - bits) ∧
      value b.last + 1 = value b.first + 2 ^ (b.width - bits) := by
  obtain ⟨net, mask, bits, a, hpart, hmask, ha, hle, hwidth, hnet⟩ := subnetOf_eq_some_iff.mp h
  have hlen : b.net.length = bits := by rw [hnet, List.length_take, Nat.min_eq_left hle]
  have hones := value_replicate_true (b.width - bits)
  refine ⟨net, mask, bits, a, hpart, hmask, ha, by omega, hwidth, ?_, ?_⟩
  · rw [Block.first, hlen, hnet, hwidth]
    exact value_take_zeros a bits
  · rw [Block.first, Block.last, hlen, value_append, value_append, List.length_replicate,
      List.length_replicate, value_replicate_false]
    omega

theorem entryOf_of_subnet {s : Str} (h : '/' ∈ s) : entryOf T s = subnetOf T s := if_pos h

theorem entryOf_of_bare {s : Str} (h : '/' ∉ s) : entryOf T s = (hostOf T s).map hostBlock :=
  if_neg h

theorem contains_hostBlock {a b : Addr} : (hostBlock a).Contains b ↔ b = a := by
  unfold Block.Contains hostBlock
  constructor
  · rintro ⟨hlen, hbegins⟩
    exact (hbegins.eq_of_length hlen.symm).symm
  · rintro rfl
    exact ⟨rfl, List.prefix_refl _⟩

/-- A bare host with its own full mask is the same entry. -/
theorem subnetOf_host {t mask : Str} {a : Addr} (h : hostOf T t = some a)
    (hmask : readMask mask = some a.length) :
    subnetOf T (t ++ '/' :: mask) = some (hostBlock a) := by
  have hpart : partition '/' (t ++ '/' :: mask) = (t, true, mask) :=
    (partition_eq_found_iff _ _ _ _).mpr ⟨rfl, not_mem_of_hostOf h (by decide)⟩
  exact subnetOf_eq_some_iff.mpr
    ⟨t, mask, a.length, a, hpart, hmask, h, le_refl _, rfl, by simp [hostBlock]⟩

end Reading

/-! An IPv6 reader that takes the uncompressed form only: eight groups of four hex digits. -/

def hexDigit (n : Nat) : Char := Char.ofNat (if n < 10 then 48 + n else 87 + n)

def hexPair (n : Nat) : Str := [hexDigit (n / 16), hexDigit (n % 16)]

def hexValue (c : Char) : Nat := if isAsciiDigit c then c.toNat - 48 else c.toNat - 87

def readHexPair (a b : Char) : Option Nat :=
  let n := 16 * hexValue a + hexValue b
  if n < 256 ∧ hexPair n = [a, b] then some n else none

def groupTexts : List Nat → List Str
  | a :: b :: octets => (hexPair a ++ hexPair b) :: groupTexts octets
  | _ => []

def readGroups : List Str → Option (List Nat)
  | [] => some []
  | [a, b, c, d] :: groups => do
      let x ← readHexPair a b
      let y ← readHexPair c d
      let octets ← readGroups groups
      pure (x :: y :: octets)
  | _ :: _ => none

def fullFormPton (t : Str) : Option (List Nat) :=
  (readGroups (t.splitOn ':')).filter (fun octets => octets.length == 16)

theorem hexDigit_value : ∀ d < 16, hexValue (hexDigit d) = d ∧ isHexDigit (hexDigit d) = true := by
  decide

theorem readHexPair_hexPair {n : Nat} (h : n < 256) :
    readHexPair (hexDigit (n / 16)) (hexDigit (n % 16)) = some n := by
  have hvalue : 16 * (n / 16) + n % 16 = n := Nat.div_add_mod n 16
  simp only [readHexPair, (hexDigit_value (n / 16) (by omega)).1,
    (hexDigit_value (n % 16) (by omega)).1, hvalue]
  exact if_pos ⟨h, rfl⟩

theorem hexPair_clean {n : Nat} (h : n < 256) : (hexPair n).all isHexDigit = true := by
  simp [hexPair, (hexDigit_value (n / 16) (by omega)).2, (hexDigit_value (n % 16) (by omega)).2]

theorem readGroups_eq_some {groups : List Str} {octets : List Nat}
    (h : readGroups groups = some octets) :
    (∀ o ∈ octets, o < 256) ∧ groups = groupTexts octets ∧ octets.length = 2 * groups.length := by
  induction groups using readGroups.induct generalizing octets with
  | case1 =>
      obtain rfl := Option.some.inj h
      simp [groupTexts]
  | case2 a b c d groups ih =>
      simp only [readGroups, Option.bind_eq_bind, Option.bind_eq_some_iff, Option.pure_def,
        Option.some.injEq] at h
      obtain ⟨x, hx, y, hy, os, hos, rfl⟩ := h
      obtain ⟨hlt, hgroups, hlen⟩ := ih hos
      unfold readHexPair at hx hy
      simp only [Option.ite_none_right_eq_some, Option.some.injEq] at hx hy
      obtain ⟨⟨hxlt, hxt⟩, rfl⟩ := hx
      obtain ⟨⟨hylt, hyt⟩, rfl⟩ := hy
      refine ⟨?_, ?_, by simp [hlen]; omega⟩
      · intro o ho
        rcases List.mem_cons.mp ho with rfl | ho
        · exact hxlt
        · rcases List.mem_cons.mp ho with rfl | ho
          · exact hylt
          · exact hlt o ho
      · rw [groupTexts, hxt, hyt, ← hgroups]
        rfl
  | case3 g groups hg => simp [readGroups] at h

theorem readGroups_groupTexts {octets : List Nat} (hlen : 2 ∣ octets.length)
    (hlt : ∀ o ∈ octets, o < 256) : readGroups (groupTexts octets) = some octets := by
  induction octets using groupTexts.induct with
  | case1 a b octets ih =>
      have hdvd : 2 ∣ octets.length := by
        simp only [List.length_cons] at hlen
        omega
      have ha := readHexPair_hexPair (hlt a (by simp))
      have hb := readHexPair_hexPair (hlt b (by simp))
      have hrest := ih hdvd (fun o ho => hlt o (by simp [ho]))
      simp [groupTexts, readGroups, hexPair, ha, hb, hrest]
  | case2 octets hshort =>
      match octets, hlen, hshort with
      | [], _, _ => rfl
      | [_], hlen, _ => simp at hlen
      | a :: b :: os, _, hshort => exact (hshort a b os rfl).elim

theorem groupTexts_clean {octets : List Nat} (hlt : ∀ o ∈ octets, o < 256) :
    ∀ g ∈ groupTexts octets, ∀ c ∈ g, isHexDigit c = true := by
  induction octets using groupTexts.induct with
  | case1 a b octets ih =>
      intro g hg c hc
      rcases List.mem_cons.mp hg with rfl | hg
      · rcases List.mem_append.mp hc with hc | hc
        · exact List.all_eq_true.mp (hexPair_clean (hlt a (by simp))) c hc
        · exact List.all_eq_true.mp (hexPair_clean (hlt b (by simp))) c hc
      · exact ih (fun o ho => hlt o (by simp [ho])) g hg c hc
  | case2 octets hshort => simp [groupTexts]

theorem fullFormPton_eq_some {t : Str} {octets : List Nat} (h : fullFormPton t = some octets) :
    octets.length = 16 ∧ (∀ o ∈ octets, o < 256) ∧ t.splitOn ':' = groupTexts octets := by
  obtain ⟨hread, hlen⟩ := Option.filter_eq_some_iff.mp h
  obtain ⟨hlt, hgroups, -⟩ := readGroups_eq_some hread
  exact ⟨beq_iff_eq.mp hlen, hlt, hgroups⟩

def fullForm : Ipv6Text where
  pton := fullFormPton
  ntop octets := [':'].intercalate (groupTexts octets)
  isIpaddr t := (fullFormPton t).isSome
  length_of_pton h := (fullFormPton_eq_some h).1
  lt_of_pton h := (fullFormPton_eq_some h).2.1
  clean_of_pton := by
    intro t octets h c hc
    obtain ⟨-, hlt, hsplit⟩ := fullFormPton_eq_some h
    rw [← @List.intercalate_splitOn _ t _ _ ':', hsplit] at hc
    rcases mem_intercalate hc with rfl | ⟨g, hg, hcg⟩
    · simp
    · simp [groupTexts_clean hlt g hg c hcg]
  colon_of_pton := by
    intro t octets h
    obtain ⟨hlen, hlt, hsplit⟩ := fullFormPton_eq_some h
    rw [← @List.intercalate_splitOn _ t _ _ ':', hsplit]
    match octets, hlen with
    | a :: b :: c :: d :: os, _ => simp [groupTexts, List.intercalate]
  isIpaddr_of_pton h := by simp [h]
  pton_ntop := by
    intro octets hlen hlt
    have hcolon : ∀ g ∈ groupTexts octets, ':' ∉ g := fun g hg hc =>
      absurd (groupTexts_clean hlt g hg ':' hc) (by decide)
    have hne : groupTexts octets ≠ [] := by
      match octets, hlen with
      | a :: b :: os, _ => simp [groupTexts]
    rw [fullFormPton, List.splitOn_intercalate _ hcolon hne,
      readGroups_groupTexts (by omega) hlt]
    simp [Option.filter, hlen]

end PfBlockerNG.IpText
