import PfBlockerNG.IpText
import Mathlib.Data.List.Sort

/-!
The IPv6 set subtraction: CIDR tokens become ranges of 128-bit strings, the holes are walked in
order and the gaps between them are covered by CIDRs again.
-/

namespace PfBlockerNG.CidrSubtract

open PfBlockerNG.Strings
open PfBlockerNG.PyText
open PfBlockerNG.BinaryStrings
open PfBlockerNG.IpText

/-- What `pfb_v6_cidr_to_range` makes of a token. -/
inductive ParsedRange where
  | blank
  | malformed
  | range (start last : List Bool)
deriving DecidableEq

/-- `ip_range_to_subnet_array()`, which covers a range of addresses by CIDRs. -/
abbrev Cover := Str → Str → List Str

section Model

variable (T : Ipv6Text) (cover : Cover)

/-- The packed address `addr`, split after `bits` bits. -/
def packedRange (addr : Str) (bits : Nat) : ParsedRange :=
  match inetPton T addr with
  | none => .malformed
  | some packed =>
      if packed.length ≠ 16 then .malformed
      else
        let addrBin := octetBits packed
        let hostLen := 128 - bits
        .range (addrBin.take bits ++ List.replicate hostLen false)
          (addrBin.take bits ++ List.replicate hostLen true)

def pfbV6CidrToRange (token : Str) : ParsedRange :=
  let token := trim token
  if token = [] ∨ startsWith ['#'] token = true then .blank
  else if '/' ∉ token then
    if T.isIpaddr token then packedRange T token 128 else .malformed
  else if isSubnetv6 T token then
    let (addr, _, bitsRaw) := partition '/' token
    packedRange T addr (decimal bitsRaw)
  else .malformed

def pfbV6BinInc (bin : List Bool) : Option (List Bool) :=
  match strrpos false bin with
  | none => none
  | some pos => some (bin.take pos ++ true :: List.replicate (bin.length - pos - 1) false)

def pfbV6BinDec (bin : List Bool) : Option (List Bool) :=
  match strrpos true bin with
  | none => none
  | some pos => some (bin.take pos ++ false :: List.replicate (bin.length - pos - 1) true)

def pfbV6BinToAddr (bin : List Bool) : Str :=
  T.ntop (octetsOf (List.replicate (128 - bin.length) false ++ bin))

def pfbV6EmitCoveringCidrs (start last : List Bool) : List Str :=
  cover (pfbV6BinToAddr T start) (pfbV6BinToAddr T last)

/-- A hole clipped to the entry it intersects. -/
def clip (estart eend : List Bool) (hole : List Bool × List Bool) :
    Option (List Bool × List Bool) :=
  if strcmp hole.1 eend = .gt ∨ strcmp hole.2 estart = .lt then none
  else some (if strcmp hole.1 estart = .gt then hole.1 else estart,
    if strcmp hole.2 eend = .lt then hole.2 else eend)

/-- The gaps before the holes and after the last one, from the cursor on. -/
def walk (eend : List Bool) : Option (List Bool) → List (List Bool × List Bool) → List Str
  | none, _ => []
  | some cursor, [] =>
      if (strcmp cursor eend).isLE then pfbV6EmitCoveringCidrs T cover cursor eend else []
  | some cursor, (hstart, hend) :: holes =>
      (if strcmp hstart cursor = .gt then
        match pfbV6BinDec hstart with
        | some gapEnd => pfbV6EmitCoveringCidrs T cover cursor gapEnd
        | none => []
      else []) ++
      walk eend (if strcmp hend cursor = .lt then some cursor else pfbV6BinInc hend) holes

/-- What is left of one entry; `holes` are in order. -/
def carve (holes : List (List Bool × List Bool)) (entry : List Bool × List Bool) : List Str :=
  match holes.filterMap (clip entry.1 entry.2) with
  | [] => pfbV6EmitCoveringCidrs T cover entry.1 entry.2
  | intersecting => walk T cover entry.2 (some entry.1) intersecting

def rangeOf : ParsedRange → Option (List Bool × List Bool)
  | .range start last => some (start, last)
  | _ => none

def ranges (tokens : List Str) : List (List Bool × List Bool) :=
  tokens.filterMap (fun token => rangeOf (pfbV6CidrToRange T token))

/-- The tokens reported as malformed. -/
def malformed (tokens : List Str) : List Str :=
  tokens.filter (fun token => pfbV6CidrToRange T token == .malformed)

/-- The covering CIDRs of `cidrs` without `holes`, and the malformed tokens of both. -/
def pfbCidrSubtractV6 (cidrs holes : List Str) : List Str × List Str :=
  let holeRanges := (ranges T holes).insertionSort (fun a b => (strcmp a.1 b.1).isLE = true)
  ((ranges T cidrs).flatMap (carve T cover holeRanges), malformed T cidrs ++ malformed T holes)

end Model

/-- An address lies in one of the blocks the tokens name. -/
def Covers (T : Ipv6Text) (tokens : List Str) (a : Addr) : Prop :=
  ∃ t ∈ tokens, ∃ b, entryOf T t = some b ∧ b.Contains a

/-- `ip_range_to_subnet_array()` covers exactly the addresses of its range. -/
def ExactCover (T : Ipv6Text) (cover : Cover) : Prop :=
  ∀ s e a b, hostOf T s = some a → hostOf T e = some b → a.length = b.length →
    value a ≤ value b → ∀ x, Covers T (cover s e) x ↔
      x.length = a.length ∧ value a ≤ value x ∧ value x ≤ value b

/-- The addresses between the two ends. -/
def Between (r : List Bool × List Bool) (a : Addr) : Prop :=
  value r.1 ≤ value a ∧ value a ≤ value r.2

/-- Both ends have 128 bits and are in order. -/
def Proper (r : List Bool × List Bool) : Prop :=
  r.1.length = 128 ∧ r.2.length = 128 ∧ value r.1 ≤ value r.2

theorem covers_append {T : Ipv6Text} {s t : List Str} {a : Addr} :
    Covers T (s ++ t) a ↔ Covers T s a ∨ Covers T t a := by
  simp only [Covers, List.mem_append, or_and_right, exists_or]

@[simp] theorem not_covers_nil {T : Ipv6Text} {a : Addr} : ¬ Covers T [] a := by
  rintro ⟨t, ht, -⟩
  cases ht

theorem covers_flatMap {T : Ipv6Text} {α : Type*} {f : α → List Str} {l : List α} {a : Addr} :
    Covers T (l.flatMap f) a ↔ ∃ x ∈ l, Covers T (f x) a := by
  simp only [Covers, List.mem_flatMap]
  constructor
  · rintro ⟨t, ⟨x, hx, ht⟩, h⟩
    exact ⟨x, hx, t, ht, h⟩
  · rintro ⟨x, hx, t, ht, h⟩
    exact ⟨t, ⟨x, hx, ht⟩, h⟩

/-- A cover of nothing but covers. -/
theorem covers_congr {T : Ipv6Text} {s t : List Str} (h : ∀ x, x ∈ s ↔ x ∈ t) {a : Addr} :
    Covers T s a ↔ Covers T t a := by
  simp only [Covers, h]

theorem pfbV6BinInc_spec {bin : List Bool} :
    (pfbV6BinInc bin = none → value bin + 1 = 2 ^ bin.length) ∧
      ∀ next, pfbV6BinInc bin = some next → next.length = bin.length ∧
        value next = value bin + 1 := by
  unfold pfbV6BinInc
  split
  · rename_i h
    exact ⟨fun _ => value_of_no_zero h, fun _ hn => by cases hn⟩
  · rename_i pos h
    exact ⟨(fun hn => by cases hn), fun next hn => Option.some.inj hn ▸ value_next h⟩

theorem pfbV6BinDec_spec {bin : List Bool} :
    (pfbV6BinDec bin = none → value bin = 0) ∧
      ∀ previous, pfbV6BinDec bin = some previous → previous.length = bin.length ∧
        value previous + 1 = value bin := by
  unfold pfbV6BinDec
  split
  · rename_i h
    exact ⟨fun _ => value_of_no_one h, fun _ hn => by cases hn⟩
  · rename_i pos h
    exact ⟨(fun hn => by cases hn), fun previous hn => Option.some.inj hn ▸ value_previous h⟩

section Correctness

variable {T : Ipv6Text} {cover : Cover}

theorem hostOf_pfbV6BinToAddr {bin : List Bool} (h : bin.length = 128) :
    hostOf T (pfbV6BinToAddr T bin) = some bin := by
  have hwhole : 8 ∣ bin.length := by rw [h]; decide
  obtain ⟨hbits, hlen, hlt⟩ := octetsOf_spec hwhole
  have hpton : T.pton (T.ntop (octetsOf bin)) = some (octetsOf bin) :=
    T.pton_ntop (by rw [hlen, h]) hlt
  have hcolon := T.colon_of_pton hpton
  have haddr : pfbV6BinToAddr T bin = T.ntop (octetsOf bin) := by simp [pfbV6BinToAddr, h]
  have hquad : readQuad (T.ntop (octetsOf bin)) = none := by
    cases hq : readQuad (T.ntop (octetsOf bin)) with
    | none => rfl
    | some octets => exact absurd (quad_clean hq ':' hcolon) (by decide)
  rw [haddr, hostOf, inetPton, hquad, hpton, Option.map_some, hbits]

theorem covers_emit (hcover : ExactCover T cover) {start last : List Bool}
    (hs : start.length = 128) (hl : last.length = 128) (hle : value start ≤ value last) (x : Addr) :
    Covers T (pfbV6EmitCoveringCidrs T cover start last) x ↔
      x.length = 128 ∧ value start ≤ value x ∧ value x ≤ value last := by
  have h := hcover _ _ _ _ (hostOf_pfbV6BinToAddr hs) (hostOf_pfbV6BinToAddr hl)
    (hs.trans hl.symm) hle x
  rwa [hs] at h

/-- The gap emitted before a hole. -/
theorem covers_gap (hcover : ExactCover T cover) {cursor hstart : List Bool}
    (hc : cursor.length = 128) (hs : hstart.length = 128) (x : Addr) :
    Covers T (if strcmp hstart cursor = .gt then
        match pfbV6BinDec hstart with
        | some gapEnd => pfbV6EmitCoveringCidrs T cover cursor gapEnd
        | none => []
      else []) x ↔ x.length = 128 ∧ value cursor ≤ value x ∧ value x < value hstart := by
  split
  · rename_i hgt
    rw [strcmp_gt_iff (hs.trans hc.symm)] at hgt
    obtain ⟨hnone, hsome⟩ := @pfbV6BinDec_spec hstart
    cases hdec : pfbV6BinDec hstart with
    | none =>
        have := hnone hdec
        omega
    | some gapEnd =>
        obtain ⟨hlen, hval⟩ := hsome gapEnd hdec
        rw [covers_emit hcover hc (hlen.trans hs) (by omega)]
        refine and_congr_right fun _ => and_congr_right fun _ => ?_
        omega
  · rename_i hgt
    rw [strcmp_gt_iff (hs.trans hc.symm)] at hgt
    simp only [not_covers_nil, false_iff]
    rintro ⟨-, h₁, h₂⟩
    omega

/-- The walk covers what lies from the cursor on in no hole. -/
theorem covers_walk (hcover : ExactCover T cover) {eend : List Bool} (he : eend.length = 128)
    {holes : List (List Bool × List Bool)}
    (hproper : ∀ h ∈ holes, Proper h ∧ value h.2 ≤ value eend)
    (hsorted : holes.Pairwise fun a b => value a.1 ≤ value b.1) {cursor : List Bool}
    (hc : cursor.length = 128) (x : Addr) :
    Covers T (walk T cover eend (some cursor) holes) x ↔
      x.length = 128 ∧ value cursor ≤ value x ∧ value x ≤ value eend ∧
        ∀ h ∈ holes, ¬ Between h x := by
  induction holes generalizing cursor with
  | nil =>
      rw [walk]
      split
      · rename_i hle
        rw [strcmp_isLE_iff (hc.trans he.symm)] at hle
        rw [covers_emit hcover hc he hle]
        simp
      · rename_i hle
        rw [strcmp_isLE_iff (hc.trans he.symm)] at hle
        simp only [not_covers_nil, false_iff]
        rintro ⟨-, h₁, h₂, -⟩
        omega
  | cons hole holes ih =>
      obtain ⟨hstart, hend⟩ := hole
      obtain ⟨⟨hslen, helen, hle⟩, hend_le⟩ : (hstart.length = 128 ∧ hend.length = 128 ∧
          value hstart ≤ value hend) ∧ value hend ≤ value eend := hproper _ List.mem_cons_self
      obtain ⟨hfirst, hrest⟩ : (∀ h ∈ holes, value hstart ≤ value h.1) ∧ _ :=
        List.pairwise_cons.mp hsorted
      have ih := fun {c : List Bool} (hlen : c.length = 128) =>
        ih (fun h hh => hproper h (List.mem_cons_of_mem _ hh)) hrest hlen
      have hsplit : Covers T (walk T cover eend (if strcmp hend cursor = .lt then some cursor
          else pfbV6BinInc hend) holes) x ↔ x.length = 128 ∧ value cursor ≤ value x ∧
            value hend < value x ∧ value x ≤ value eend ∧ ∀ h ∈ holes, ¬ Between h x := by
        split
        · rename_i hlt
          rw [strcmp_lt_iff (helen.trans hc.symm)] at hlt
          rw [ih hc]
          constructor
          · rintro ⟨h₁, h₂, h₃, h₄⟩
            exact ⟨h₁, h₂, by omega, h₃, h₄⟩
          · rintro ⟨h₁, h₂, -, h₃, h₄⟩
            exact ⟨h₁, h₂, h₃, h₄⟩
        · rename_i hge
          rw [strcmp_lt_iff (helen.trans hc.symm)] at hge
          obtain ⟨hnone, hsome⟩ := @pfbV6BinInc_spec hend
          cases hinc : pfbV6BinInc hend with
          | none =>
              have htop := hnone hinc
              simp only [walk, not_covers_nil, false_iff]
              rintro ⟨hx, -, h₂, -⟩
              have hlt := value_lt x
              rw [hx] at hlt
              rw [helen] at htop
              omega
          | some next =>
              obtain ⟨hlen, hval⟩ := hsome next hinc
              rw [ih (hlen.trans helen)]
              constructor
              · rintro ⟨h₁, h₂, h₃, h₄⟩
                exact ⟨h₁, by omega, by omega, h₃, h₄⟩
              · rintro ⟨h₁, h₂, h₃, h₄, h₅⟩
                exact ⟨h₁, by omega, h₄, h₅⟩
      rw [walk, covers_append, covers_gap hcover hc hslen, hsplit]
      simp only [List.forall_mem_cons]
      constructor
      · rintro (⟨h₁, h₂, h₃⟩ | ⟨h₁, h₂, h₃, h₄, h₅⟩)
        · refine ⟨h₁, h₂, by omega, fun hb => by have := hb.1; simp only at this; omega, ?_⟩
          intro h hh hb
          have := hfirst h hh
          have := hb.1
          omega
        · exact ⟨h₁, h₂, h₄, fun hb => by have := hb.2; simp only at this; omega, h₅⟩
      · rintro ⟨h₁, h₂, h₃, h₄, h₅⟩
        by_cases hb : value x < value hstart
        · exact Or.inl ⟨h₁, h₂, hb⟩
        · refine Or.inr ⟨h₁, h₂, ?_, h₃, h₅⟩
          by_contra hlt
          exact h₄ ⟨by simp only; omega, by simp only; omega⟩

theorem clip_spec {estart eend : List Bool} {hole : List Bool × List Bool}
    (hs : estart.length = 128) (he : eend.length = 128) (hentry : value estart ≤ value eend)
    (hp : Proper hole) :
    (clip estart eend hole = none → ∀ x, value estart ≤ value x → value x ≤ value eend →
      ¬ Between hole x) ∧
    ∀ c, clip estart eend hole = some c → Proper c ∧ value c.2 ≤ value eend ∧
      value c.1 = max (value hole.1) (value estart) ∧
      ∀ x, value estart ≤ value x → value x ≤ value eend → (Between c x ↔ Between hole x) := by
  obtain ⟨h1, h2, hle⟩ := hp
  simp only [clip, Between, Proper, strcmp_gt_iff (h1.trans he.symm),
    strcmp_lt_iff (h2.trans hs.symm), strcmp_gt_iff (h1.trans hs.symm),
    strcmp_lt_iff (h2.trans he.symm)]
  split
  · rename_i hout
    refine ⟨fun _ x hx hx' hb => ?_, fun _ hn => by cases hn⟩
    omega
  · rename_i hin
    refine ⟨(fun hn => by cases hn), fun c hc => ?_⟩
    obtain rfl := Option.some.inj hc
    simp only
    split <;> split <;>
      refine ⟨⟨by assumption, by assumption, by omega⟩, by omega, by omega, ?_⟩ <;>
      intro x hx hx' <;> omega

theorem covers_carve (hcover : ExactCover T cover) {holes : List (List Bool × List Bool)}
    (hproper : ∀ h ∈ holes, Proper h) (hsorted : holes.Pairwise fun a b => value a.1 ≤ value b.1)
    {entry : List Bool × List Bool} (hentry : Proper entry) (x : Addr) :
    Covers T (carve T cover holes entry) x ↔
      x.length = 128 ∧ Between entry x ∧ ∀ h ∈ holes, ¬ Between h x := by
  obtain ⟨hs, he, hle⟩ := hentry
  have hclip := fun (h : List Bool × List Bool) (hh : h ∈ holes) =>
    clip_spec hs he hle (hproper h hh)
  have hholes : Between entry x → ((∀ c ∈ holes.filterMap (clip entry.1 entry.2), ¬ Between c x) ↔
      ∀ h ∈ holes, ¬ Between h x) := by
    rintro ⟨hx, hx'⟩
    constructor
    · intro hall h hh hb
      cases hc : clip entry.1 entry.2 h with
      | none => exact (hclip h hh).1 hc x hx hx' hb
      | some c =>
          exact hall c (List.mem_filterMap.mpr ⟨h, hh, hc⟩)
            ((((hclip h hh).2 c hc).2.2.2 x hx hx').mpr hb)
    · intro hall c hc hb
      obtain ⟨h, hh, hc⟩ := List.mem_filterMap.mp hc
      exact hall h hh ((((hclip h hh).2 c hc).2.2.2 x hx hx').mp hb)
  unfold carve
  split
  · rename_i hnil
    rw [hnil] at hholes
    rw [covers_emit hcover hs he hle]
    constructor
    · rintro ⟨h₁, h₂⟩
      exact ⟨h₁, h₂, (hholes h₂).mp (fun _ hc => by cases hc)⟩
    · rintro ⟨h₁, h₂, -⟩
      exact ⟨h₁, h₂⟩
  · rw [covers_walk hcover he ?_ ?_ hs]
    · constructor
      · rintro ⟨h₁, h₂, h₃, h₄⟩
        exact ⟨h₁, ⟨h₂, h₃⟩, (hholes ⟨h₂, h₃⟩).mp h₄⟩
      · rintro ⟨h₁, h₂, h₃⟩
        exact ⟨h₁, h₂.1, h₂.2, (hholes h₂).mpr h₃⟩
    · intro c hc
      obtain ⟨h, hh, hc⟩ := List.mem_filterMap.mp hc
      obtain ⟨hp, hlast, -⟩ := (hclip h hh).2 c hc
      exact ⟨hp, hlast⟩
    · rw [List.pairwise_filterMap]
      refine hsorted.imp_of_mem ?_
      intro a b ha hb hab c hc d hd
      have h₁ := ((hclip a ha).2 c hc).2.2.1
      have h₂ := ((hclip b hb).2 d hd).2.2.1
      omega

theorem packedRange_eq_range_iff {addr : Str} {bits : Nat} {s l : List Bool} :
    packedRange T addr bits = .range s l ↔ ∃ a, hostOf T addr = some a ∧ a.length = 128 ∧
      s = a.take bits ++ List.replicate (128 - bits) false ∧
      l = a.take bits ++ List.replicate (128 - bits) true := by
  unfold packedRange hostOf
  cases hpton : inetPton T addr with
  | none => simp
  | some packed =>
      simp only [Option.map_some, Option.some.injEq, exists_eq_left', length_octetBits]
      split
      · rename_i hlen
        simp only [reduceCtorEq, false_iff]
        rintro ⟨h, -⟩
        omega
      · rename_i hlen
        simp only [ParsedRange.range.injEq]
        constructor
        · rintro ⟨rfl, rfl⟩
          exact ⟨by omega, rfl, rfl⟩
        · rintro ⟨-, rfl, rfl⟩
          exact ⟨rfl, rfl⟩

/-- A token parses to a range exactly when it names an IPv6 block, and then to its two ends. -/
theorem pfbV6CidrToRange_eq_range_iff {token : Str} {s l : List Bool} :
    pfbV6CidrToRange T token = .range s l ↔ ∃ b, entryOf T (trim token) = some b ∧
      b.width = 128 ∧ s = b.first ∧ l = b.last := by
  unfold pfbV6CidrToRange
  simp only
  split
  · rename_i hblank
    simp only [reduceCtorEq, false_iff]
    rintro ⟨b, hb, -⟩
    obtain ⟨hne, -⟩ := clean_of_entryOf hb
    rcases hblank with hnil | hhash
    · exact hne hnil
    · obtain ⟨rest, hrest⟩ := List.isPrefixOf_iff_prefix.mp hhash
      exact not_mem_of_entryOf hb (by decide)
        (hrest ▸ List.mem_append_left _ (List.mem_singleton_self _))
  · split
    · rename_i hslash
      rw [entryOf_of_bare hslash]
      have hiff : packedRange T (trim token) 128 = .range s l ↔
          ∃ b, (hostOf T (trim token)).map hostBlock = some b ∧ b.width = 128 ∧
            s = b.first ∧ l = b.last := by
        rw [packedRange_eq_range_iff]
        constructor
        · rintro ⟨a, ha, hlen, rfl, rfl⟩
          refine ⟨hostBlock a, by rw [ha]; rfl, hlen, ?_, ?_⟩
          · simp [Block.first, hostBlock, ← hlen]
          · simp [Block.last, hostBlock, ← hlen]
        · rintro ⟨b, hb, hwidth, rfl, rfl⟩
          obtain ⟨a, ha, rfl⟩ := Option.map_eq_some_iff.mp hb
          have hlen : a.length = 128 := hwidth
          refine ⟨a, ha, hlen, ?_, ?_⟩
          · simp [Block.first, hostBlock, ← hlen]
          · simp [Block.last, hostBlock, ← hlen]
      split
      · exact hiff
      · rename_i hno
        simp only [reduceCtorEq, false_iff, ← hiff]
        intro h
        obtain ⟨a, ha, hlen, -⟩ := packedRange_eq_range_iff.mp h
        obtain ⟨octets, hpton⟩ := pton_of_hostOf ha hlen
        exact hno (T.isIpaddr_of_pton hpton)
    · rename_i hslash
      rw [entryOf_of_subnet (not_not.mp hslash)]
      split
      · rename_i hsub
        obtain ⟨net, mask, bits, hpart, hmask, hbits⟩ := isSubnetv6_eq_true hsub
        rw [hpart, ← (readMask_eq_some hmask).1]
        simp only
        rw [packedRange_eq_range_iff]
        constructor
        · rintro ⟨a, ha, hlen, rfl, rfl⟩
          refine ⟨⟨a.length, a.take bits, List.length_take_le' _ _⟩, subnetOf_eq_some_iff.mpr
            ⟨net, mask, bits, a, hpart, hmask, ha, by omega, rfl, rfl⟩, hlen, ?_, ?_⟩
          · simp [Block.first, hlen, Nat.min_eq_left hbits]
          · simp [Block.last, hlen, Nat.min_eq_left hbits]
        · rintro ⟨b, hb, hwidth, rfl, rfl⟩
          obtain ⟨net', mask', bits', a, hpart', hmask', ha, -, hlen, hnet⟩ :=
            subnetOf_eq_some_iff.mp hb
          rw [hpart] at hpart'
          obtain ⟨rfl, -, rfl⟩ := Prod.mk.injEq .. ▸ hpart'
          obtain rfl := Option.some.inj (hmask.symm.trans hmask')
          have hlen : a.length = 128 := hlen.symm.trans hwidth
          refine ⟨a, ha, hlen, ?_, ?_⟩
          · simp [Block.first, hnet, hwidth, hlen, Nat.min_eq_left hbits]
          · simp [Block.last, hnet, hwidth, hlen, Nat.min_eq_left hbits]
      · rename_i hno
        simp only [reduceCtorEq, false_iff]
        rintro ⟨b, hb, hwidth, -⟩
        exact hno (isSubnetv6_of_subnetOf hb hwidth)

/-- The ranges of a token list are the ends of the IPv6 blocks its tokens name. -/
theorem mem_ranges_iff {tokens : List Str} {r : List Bool × List Bool} :
    r ∈ ranges T tokens ↔ ∃ t ∈ tokens, ∃ b, entryOf T (trim t) = some b ∧ b.width = 128 ∧
      r = (b.first, b.last) := by
  simp only [ranges, List.mem_filterMap]
  refine exists_congr fun t => and_congr_right fun _ => ?_
  have hrange : rangeOf (pfbV6CidrToRange T t) = some r ↔
      pfbV6CidrToRange T t = .range r.1 r.2 := by
    cases pfbV6CidrToRange T t <;> simp [rangeOf, Prod.ext_iff]
  rw [hrange, pfbV6CidrToRange_eq_range_iff]
  simp only [Prod.ext_iff]

theorem proper_of_mem_ranges {tokens : List Str} {r : List Bool × List Bool}
    (h : r ∈ ranges T tokens) : Proper r := by
  obtain ⟨t, -, b, -, hwidth, rfl⟩ := mem_ranges_iff.mp h
  exact ⟨by simp [hwidth], by simp [hwidth], b.value_first_le_last⟩

theorem exists_between_iff {tokens : List Str} {a : Addr} (ha : a.length = 128) :
    (∃ r ∈ ranges T tokens, Between r a) ↔ Covers T (tokens.map trim) a := by
  constructor
  · rintro ⟨r, hr, hb⟩
    obtain ⟨t, ht, b, hentry, hwidth, rfl⟩ := mem_ranges_iff.mp hr
    exact ⟨trim t, List.mem_map_of_mem ht, b, hentry,
      Block.contains_iff_between.mpr ⟨ha.trans hwidth.symm, hb⟩⟩
  · rintro ⟨u, hu, b, hentry, hb⟩
    obtain ⟨t, ht, rfl⟩ := List.mem_map.mp hu
    obtain ⟨hlen, hbetween⟩ := Block.contains_iff_between.mp hb
    exact ⟨_, mem_ranges_iff.mpr ⟨t, ht, b, hentry, hlen.symm.trans ha, rfl⟩, hbetween⟩

/-- What is left covers the IPv6 addresses of the entries that lie in no hole. -/
theorem covers_pfbCidrSubtractV6 (hcover : ExactCover T cover) {cidrs holes : List Str} (a : Addr) :
    Covers T (pfbCidrSubtractV6 T cover cidrs holes).1 a ↔
      a.length = 128 ∧ Covers T (cidrs.map trim) a ∧ ¬ Covers T (holes.map trim) a := by
  have hsorted : ((ranges T holes).insertionSort
      (fun r q => (strcmp r.1 q.1).isLE = true)).Pairwise fun r q => value r.1 ≤ value q.1 := by
    have : IsTrans (List Bool × List Bool) (fun r q => (strcmp r.1 q.1).isLE = true) :=
      ⟨fun _ _ _ h h' => Std.TransCmp.isLE_trans h h'⟩
    have : Std.Total (fun r q : List Bool × List Bool => (strcmp r.1 q.1).isLE = true) :=
      ⟨fun r q => Std.Total.total (r := fun as bs => (strcmp as bs).isLE = true) r.1 q.1⟩
    refine (List.pairwise_insertionSort _ (ranges T holes)).imp_of_mem ?_
    intro r q hr hq hle
    have hr := proper_of_mem_ranges ((List.mem_insertionSort _).mp hr)
    have hq := proper_of_mem_ranges ((List.mem_insertionSort _).mp hq)
    exact (strcmp_isLE_iff (hr.1.trans hq.1.symm)).mp hle
  simp only [pfbCidrSubtractV6, covers_flatMap]
  constructor
  · rintro ⟨entry, hentry, hcarve⟩
    obtain ⟨ha, hb, hnot⟩ := (covers_carve hcover
      (fun h hh => proper_of_mem_ranges ((List.mem_insertionSort _).mp hh)) hsorted
      (proper_of_mem_ranges hentry) a).mp hcarve
    refine ⟨ha, (exists_between_iff ha).mp ⟨entry, hentry, hb⟩, ?_⟩
    rw [← exists_between_iff ha]
    rintro ⟨h, hh, hbh⟩
    exact hnot h ((List.mem_insertionSort _).mpr hh) hbh
  · rintro ⟨ha, hin, hout⟩
    obtain ⟨entry, hentry, hb⟩ := (exists_between_iff ha).mpr hin
    refine ⟨entry, hentry, (covers_carve hcover
      (fun h hh => proper_of_mem_ranges ((List.mem_insertionSort _).mp hh)) hsorted
      (proper_of_mem_ranges hentry) a).mpr ⟨ha, hb, fun h hh hbh => hout ?_⟩⟩
    exact (exists_between_iff ha).mp ⟨h, (List.mem_insertionSort _).mp hh, hbh⟩

end Correctness

end PfBlockerNG.CidrSubtract
