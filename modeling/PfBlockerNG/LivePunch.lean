import PfBlockerNG.CidrSubtract

/-!
The live punch: the entries of a pf table that contain a host are replaced by what is left of them
without it, one `pfctl` operation at a time.
-/

namespace PfBlockerNG.LivePunch

open PfBlockerNG.Strings
open PfBlockerNG.PyText
open PfBlockerNG.BinaryStrings
open PfBlockerNG.IpText
open PfBlockerNG.CidrSubtract

def ip2long32 (ip : Str) : Nat :=
  match readQuad ip with
  | some octets => value (octetBits octets)
  | none => 0

def long2ip32 (n : Nat) : Str := quadText (octetsOf (ofNat 32 (n &&& 0xFFFFFFFF)))

def netmask (bits : Nat) : Nat :=
  if bits = 0 then 0 else (0xFFFFFFFF <<< (32 - bits)) &&& 0xFFFFFFFF

/-- The operations to run, `delete` after `add`. -/
structure Plan where
  delete : List Str
  add : List Str
deriving DecidableEq

section Model

variable (T : Ipv6Text) (cover : Cover)

def pfbV4CarveSingle (cidr hostIp : Str) : List Str :=
  let cidr := if '/' ∈ cidr then cidr else cidr ++ "/32".toList
  let (addr, _, bits) := partition '/' cidr
  let mask := netmask (decimal bits)
  let start := ip2long32 addr &&& mask
  -- `(~$mask) & 0xFFFFFFFF`
  let last := start ||| (mask ^^^ 0xFFFFFFFF)
  let hole := ip2long32 hostIp
  (if start < hole then cover (long2ip32 start) (long2ip32 (hole - 1)) else []) ++
    (if hole < last then cover (long2ip32 (hole + 1)) (long2ip32 last) else [])

def hostMask (isV6 : Bool) : Str := if isV6 then "/128".toList else "/32".toList

/-- One membership line's part of the plan. -/
def planEntry (ip : Str) (plan : Plan) (line : Str) : Plan :=
  let isV6 := ip.contains ':'
  let hostCidr := ip ++ hostMask isV6
  let entry := trim line
  if entry = [] ∨ startsWith ['#'] entry = true then plan
  else
    let cidr := if '/' ∈ entry then entry else entry ++ hostMask isV6
    if ipInSubnet T ip cidr then
      let delete := plan.delete ++ [entry]
      if cidr = hostCidr then { plan with delete }
      else if isV6 then
        { delete, add := plan.add ++ (pfbCidrSubtractV6 T cover [cidr] [hostCidr]).1 }
      else { delete, add := plan.add ++ pfbV4CarveSingle cover cidr ip }
    else plan

def pfbLivePunchPlan (ip : Str) (tableEntries : List Str) : Plan :=
  let plan := tableEntries.foldl (planEntry T cover ip) ⟨[], []⟩
  ⟨plan.delete.eraseDups, plan.add.eraseDups⟩

end Model

/-- The entries a pf table holds. -/
abbrev Table := List Block

def Matched (t : Table) (a : Addr) : Prop := ∃ b ∈ t, b.Contains a

instance (t : Table) (a : Addr) : Decidable (Matched t a) :=
  inferInstanceAs (Decidable (∃ b ∈ t, b.Contains a))

inductive Op where
  | add (entry : Str)
  | delete (entry : Str)

/-- The table and what it was after each operation so far. -/
structure Live where
  table : Table
  states : List Table

section Apply

variable (T : Ipv6Text)

/-- The table a membership listing shows. -/
def tableOf (lines : List Str) : Table := lines.filterMap (fun line => entryOf T (trim line))

/-- What a successful operation makes of the table. -/
def Op.effect (t : Table) : Op → Table
  | .add entry => match entryOf T entry with
    | some b => if b ∈ t then t else t ++ [b]
    | none => t
  | .delete entry => match entryOf T entry with
    | some b => t.filter (· ≠ b)
    | none => t

/-- One `exec()`; `fails n` says whether the operation number `n` of the call fails. -/
def exec (fails : Nat → Bool) (op : Op) (s : Live) : Bool × Live :=
  let failed := fails s.states.length
  let table := if failed then s.table else op.effect T s.table
  (!failed, ⟨table, s.states ++ [table]⟩)

def rollback (fails : Nat → Bool) (applied : List Str) (s : Live) : Live :=
  applied.foldl (fun s entry => (exec T fails (.delete entry) s).2) s

/-- The adds, with the rollback of the first one that fails; the text is the failed operation. -/
def applyAdds (fails : Nat → Bool) : List Str → List Str → Live → Option Str × Live
  | _, [], s => (none, s)
  | applied, entry :: entries, s =>
      match exec T fails (.add entry) s with
      | (true, s') => applyAdds fails (applied ++ [entry]) entries s'
      | (false, s') => (some ("add ".toList ++ entry), rollback T fails applied s')

/-- The deletes, up to the first one that fails. -/
def applyDeletes (fails : Nat → Bool) : List Str → Live → Option Str × Live
  | [], s => (none, s)
  | entry :: entries, s =>
      match exec T fails (.delete entry) s with
      | (true, s') => applyDeletes fails entries s'
      | (false, s') => (some ("delete ".toList ++ entry), s')

/-- The first operation that failed, none when the punch is ok, and the table it leaves. -/
def pfbLivePunchApply (fails : Nat → Bool) (plan : Plan) (table : Table) : Option Str × Live :=
  match applyAdds T fails [] plan.add ⟨table, []⟩ with
  | (none, s) => applyDeletes T fails plan.delete s
  | (some fail, s) => (some fail, s)

/-- A membership listing shows every entry of its table once. -/
structure Listing where
  lines : List Str
  nodup : (tableOf T lines).Nodup

end Apply

theorem eraseDups_sublist {α : Type*} [BEq α] [LawfulBEq α] (l : List α) :
    l.eraseDups.Sublist l := by
  induction hn : l.length using Nat.strong_induction_on generalizing l with
  | _ n ih =>
      obtain _ | ⟨a, l⟩ := l
      · exact List.Sublist.slnil
      · rw [List.eraseDups_cons]
        have hlen := List.length_filter_le (fun b => !b == a) l
        rw [List.length_cons] at hn
        exact ((ih _ (by omega) _ rfl).trans List.filter_sublist).cons_cons a

theorem mem_eraseDups {α : Type*} [BEq α] [LawfulBEq α] {l : List α} {a : α} :
    a ∈ l.eraseDups ↔ a ∈ l := by
  constructor
  · exact fun h => (eraseDups_sublist l).subset h
  · induction hn : l.length using Nat.strong_induction_on generalizing l with
    | _ n ih =>
        intro h
        obtain _ | ⟨b, l⟩ := l
        · exact h
        · rw [List.eraseDups_cons]
          rcases List.mem_cons.mp h with rfl | h
          · exact List.mem_cons_self
          · by_cases hab : a = b
            · exact hab ▸ List.mem_cons_self
            · have hlen := List.length_filter_le (fun c => !c == b) l
              rw [List.length_cons] at hn
              refine List.mem_cons_of_mem _ (ih _ (by omega) rfl ?_)
              simp [h, hab]

section Arithmetic

theorem testBit_netmask {bits i : Nat} (hi : i < 32) :
    (netmask bits).testBit i = decide (32 - bits ≤ i) := by
  have hones : 0xFFFFFFFF = 2 ^ 32 - 1 := rfl
  unfold netmask
  split
  · have hlt : ¬ 32 - bits ≤ i := by omega
    simp [hlt]
  · rw [hones, Nat.testBit_and, Nat.testBit_shiftLeft, Nat.testBit_two_pow_sub_one,
      Nat.testBit_two_pow_sub_one]
    have hlt : i - (32 - bits) < 32 := by omega
    simp [hi, hlt]

theorem netmask_complement :
    ∀ bits ≤ 32, netmask bits ^^^ 0xFFFFFFFF = 2 ^ (32 - bits) - 1 := by decide

/-- Masking keeps the leading bits. -/
theorem and_netmask {n bits : Nat} (hn : n < 2 ^ 32) :
    n &&& netmask bits = n / 2 ^ (32 - bits) * 2 ^ (32 - bits) := by
  refine Nat.eq_of_testBit_eq fun i => ?_
  rw [Nat.testBit_and, Nat.testBit_mul_two_pow, Nat.testBit_div_two_pow]
  by_cases hi : i < 32
  · rw [testBit_netmask hi]
    by_cases hle : 32 - bits ≤ i
    · simp [hle]
    · simp [hle]
  · have hzero : n.testBit i = false :=
      Nat.testBit_lt_two_pow (lt_of_lt_of_le hn (Nat.pow_le_pow_right (by omega) (by omega)))
    by_cases hle : 32 - bits ≤ i
    · simp [hzero, hle]
    · simp [hzero, hle]

theorem or_ones {n k : Nat} : n * 2 ^ k ||| (2 ^ k - 1) = n * 2 ^ k + (2 ^ k - 1) := by
  rw [Nat.mul_comm]
  exact (Nat.two_pow_add_eq_or_of_lt (Nat.sub_lt (by positivity) (by omega)) n).symm

end Arithmetic

section Carve

variable {T : Ipv6Text} {cover : Cover}

theorem ip2long32_eq {t : Str} {a : Addr} (h : hostOf T t = some a) (hlen : a.length = 32) :
    ip2long32 t = value a := by
  obtain ⟨octets, hos, rfl⟩ := Option.map_eq_some_iff.mp h
  rcases inetPton_eq_some hos with ⟨hquad, -⟩ | ⟨hpton, -⟩
  · rw [ip2long32, hquad]
  · rw [length_octetBits, T.length_of_pton hpton] at hlen
    omega

theorem hostOf_long2ip32 {n : Nat} (h : n < 2 ^ 32) :
    hostOf T (long2ip32 n) = some (ofNat 32 n) := by
  have hwhole : 8 ∣ (ofNat 32 n).length := by rw [length_ofNat]; decide
  obtain ⟨hbits, hlen, hlt⟩ := octetsOf_spec hwhole
  rw [length_ofNat] at hlen
  have hmask : n &&& 0xFFFFFFFF = n := Nat.and_two_pow_sub_one_of_lt_two_pow (n := 32) h
  rw [hostOf, inetPton, long2ip32, hmask, readQuad_quadText hlen hlt]
  simp [hbits]

theorem covers_long (hcover : ExactCover T cover) {m n : Nat} (hmn : m ≤ n) (hn : n < 2 ^ 32)
    (a : Addr) : Covers T (cover (long2ip32 m) (long2ip32 n)) a ↔
      a.length = 32 ∧ m ≤ value a ∧ value a ≤ n := by
  have h := hcover _ _ _ _ (hostOf_long2ip32 (lt_of_le_of_lt hmn hn)) (hostOf_long2ip32 hn)
    (by rw [length_ofNat, length_ofNat])
    (by
      rw [value_ofNat, value_ofNat, Nat.mod_eq_of_lt hn, Nat.mod_eq_of_lt (by omega)]
      exact hmn) a
  rwa [length_ofNat, value_ofNat, value_ofNat, Nat.mod_eq_of_lt hn,
    Nat.mod_eq_of_lt (show m < 2 ^ 32 by omega)] at h

/-- What is carved out of an IPv4 subnet is the host alone. -/
theorem covers_pfbV4CarveSingle (hcover : ExactCover T cover) {cidr ip : Str} {b : Block}
    {h : Addr} (hb : subnetOf T cidr = some b) (hwidth : b.width = 32)
    (hip : hostOf T ip = some h) (hin : b.Contains h) (a : Addr) :
    Covers T (pfbV4CarveSingle cover cidr ip) a ↔ b.Contains a ∧ a ≠ h := by
  obtain ⟨net, mask, bits, n, hpart, hmask, hn, hbits, hnlen, hfirst, hlast⟩ :=
    value_ends_of_subnetOf hb
  rw [hwidth] at hbits hnlen hfirst hlast
  obtain ⟨rfl, -⟩ := (partition_eq_found_iff _ _ _ _).mp hpart
  have hslash : '/' ∈ net ++ '/' :: mask := by simp
  have hnval := value_lt n
  rw [← hnlen] at hnval
  have hcomp := netmask_complement bits hbits
  have hstart : ip2long32 net &&& netmask (decimal mask) = value b.first := by
    rw [ip2long32_eq hn hnlen.symm, ← (readMask_eq_some hmask).1, and_netmask hnval, hfirst]
  have hend : value b.first ||| (netmask (decimal mask) ^^^ 0xFFFFFFFF) = value b.last := by
    rw [← (readMask_eq_some hmask).1, hcomp, hfirst, or_ones]
    rw [hfirst] at hlast
    have : 0 < 2 ^ (32 - bits) := by positivity
    omega
  obtain ⟨hhlen, hh₁, hh₂⟩ := Block.contains_iff_between.mp hin
  rw [hwidth] at hhlen
  have hlastlt := value_lt b.last
  rw [b.length_last, hwidth] at hlastlt
  simp only [pfbV4CarveSingle, if_pos hslash, hpart, hstart, hend, ip2long32_eq hip hhlen]
  have hlow : Covers T (if value b.first < value h then cover (long2ip32 (value b.first))
      (long2ip32 (value h - 1)) else []) a ↔
        a.length = 32 ∧ value b.first ≤ value a ∧ value a < value h := by
    split
    · rw [covers_long hcover (by omega) (by omega)]
      refine and_congr_right fun _ => and_congr_right fun _ => ?_
      omega
    · simp only [not_covers_nil, false_iff]
      omega
  have hhigh : Covers T (if value h < value b.last then cover (long2ip32 (value h + 1))
      (long2ip32 (value b.last)) else []) a ↔
        a.length = 32 ∧ value h < value a ∧ value a ≤ value b.last := by
    split
    · rw [covers_long hcover (by omega) (by omega)]
      rfl
    · simp only [not_covers_nil, false_iff]
      omega
  rw [covers_append, hlow, hhigh, Block.contains_iff_between, hwidth]
  have hne : a.length = 32 → (a ≠ h ↔ value a ≠ value h) := fun hlen =>
    not_congr ⟨congrArg value, eq_of_value_eq (hlen.trans hhlen.symm)⟩
  constructor
  · rintro (⟨h₁, h₂, h₃⟩ | ⟨h₁, h₂, h₃⟩)
    · exact ⟨⟨h₁, h₂, by omega⟩, (hne h₁).mpr (by omega)⟩
    · exact ⟨⟨h₁, by omega, h₃⟩, (hne h₁).mpr (by omega)⟩
  · rintro ⟨⟨h₁, h₂, h₃⟩, h₄⟩
    rcases Nat.lt_or_gt_of_ne ((hne h₁).mp h₄) with hlt | hgt
    · exact Or.inl ⟨h₁, h₂, hlt⟩
    · exact Or.inr ⟨h₁, hgt, h₃⟩

/-- A bare entry with the mask of the host's family contains the host as it did without. -/
theorem subnetOf_bare_iff {ip t : Str} {h : Addr} {b : Block} (hip : hostOf T ip = some h) :
    (subnetOf T (t ++ hostMask (ip.contains ':')) = some b ∧ '/' ∉ t ∧ b.Contains h) ↔
      hostOf T t = some h ∧ b = hostBlock h := by
  have hlen := length_of_hostOf hip
  have hmask : ∃ m, hostMask (ip.contains ':') = '/' :: m ∧ readMask m = some h.length := by
    rw [hlen]
    by_cases hc : ':' ∈ ip
    · exact ⟨"128".toList, by simp [hostMask, hc], by rw [if_pos hc]; decide⟩
    · exact ⟨"32".toList, by simp [hostMask, hc], by rw [if_neg hc]; decide⟩
  obtain ⟨m, hm, hbits⟩ := hmask
  rw [hm]
  constructor
  · rintro ⟨hsub, hslash, hin, hbegins⟩
    obtain ⟨net, mask, bits, a, hpart, hmask, ha, hle, hwidth, hnet⟩ := subnetOf_eq_some_iff.mp hsub
    rw [(partition_eq_found_iff _ _ _ _).mpr ⟨rfl, hslash⟩] at hpart
    obtain ⟨rfl, -, rfl⟩ := Prod.mk.injEq .. ▸ hpart
    obtain rfl := Option.some.inj (hbits.symm.trans hmask)
    have hnet' : b.net = a := by rw [hnet, List.take_of_length_le (by omega)]
    obtain rfl : a = h := by
      rw [hnet'] at hbegins
      exact hbegins.eq_of_length (by omega)
    refine ⟨ha, ?_⟩
    obtain ⟨width, net, _⟩ := b
    simp only at hwidth hnet'
    subst hwidth hnet'
    rfl
  · rintro ⟨ht, rfl⟩
    exact ⟨subnetOf_host ht hbits, not_mem_of_hostOf ht (by decide), contains_hostBlock.mpr rfl⟩

/-- What a line adds to the plan: itself when its entry contains the host, with what is left of
it. -/
theorem planEntry_spec (hcover : ExactCover T cover) {ip : Str} {h : Addr}
    (hip : hostOf T ip = some h) (plan : Plan) (line : Str) :
    (∃ b, entryOf T (trim line) = some b ∧ b.Contains h ∧ ∃ rest,
      planEntry T cover ip plan line = ⟨plan.delete ++ [trim line], plan.add ++ rest⟩ ∧
        ∀ a, Covers T rest a ↔ b.Contains a ∧ a ≠ h) ∨
    ((∀ b, entryOf T (trim line) = some b → ¬ b.Contains h) ∧
      planEntry T cover ip plan line = plan) := by
  have hhost := length_of_hostOf hip
  unfold planEntry
  simp only
  split
  · rename_i hskip
    refine Or.inr ⟨fun b hb => ?_, rfl⟩
    obtain ⟨hne, -⟩ := clean_of_entryOf hb
    rcases hskip with hnil | hhash
    · exact absurd hnil hne
    · obtain ⟨rest, hrest⟩ := List.isPrefixOf_iff_prefix.mp hhash
      exact absurd (hrest ▸ List.mem_append_left _ (List.mem_singleton_self _))
        (not_mem_of_entryOf hb (by decide))
  · generalize trim line = entry
    -- the block of the line and of the subnet text made of it are one
    have hblock : ∀ b, (subnetOf T (if '/' ∈ entry then entry
        else entry ++ hostMask (ip.contains ':')) = some b ∧ b.Contains h) ↔
          (entryOf T entry = some b ∧ b.Contains h) := by
      intro b
      by_cases hslash : '/' ∈ entry
      · rw [if_pos hslash, entryOf_of_subnet hslash]
      · rw [if_neg hslash, entryOf_of_bare hslash]
        constructor
        · rintro ⟨hsub, hin⟩
          obtain ⟨ht, rfl⟩ := (subnetOf_bare_iff hip).mp ⟨hsub, hslash, hin⟩
          exact ⟨by rw [ht]; rfl, hin⟩
        · rintro ⟨hentry, hin⟩
          obtain ⟨a, ha, rfl⟩ := Option.map_eq_some_iff.mp hentry
          obtain rfl := contains_hostBlock.mp hin
          obtain ⟨hsub, -⟩ := (subnetOf_bare_iff hip).mpr ⟨ha, rfl⟩
          exact ⟨hsub, hin⟩
    generalize hcidr : (if '/' ∈ entry then entry else entry ++ hostMask (ip.contains ':')) = cidr
      at hblock
    have hself : subnetOf T (ip ++ hostMask (ip.contains ':')) = some (hostBlock h) :=
      ((subnetOf_bare_iff hip).mpr ⟨hip, rfl⟩).1
    split
    · rename_i hsubnet
      obtain ⟨a, b, ha, hb, hin⟩ := ipInSubnet_iff.mp hsubnet
      obtain rfl := Option.some.inj (hip.symm.trans ha)
      obtain ⟨hentry, -⟩ := (hblock b).mp ⟨hb, hin⟩
      refine Or.inl ⟨b, hentry, hin, ?_⟩
      split
      · rename_i heq
        rw [heq, hself] at hb
        obtain rfl := Option.some.inj hb
        refine ⟨[], by simp, fun x => ?_⟩
        rw [contains_hostBlock]
        simp
      · split
        · rename_i hv6
          refine ⟨_, rfl, fun x => ?_⟩
          have hslash : ∀ {s : Str} {c : Block}, subnetOf T s = some c → '/' ∈ s := by
            intro s c hc
            obtain ⟨net, mask, -, -, hpart, -⟩ := subnetOf_eq_some_iff.mp hc
            rw [((partition_eq_found_iff _ _ _ _).mp hpart).1]
            simp
          have hcover₁ : ∀ {s : Str} {c : Block}, subnetOf T s = some c →
              (Covers T ([s].map trim) x ↔ c.Contains x) := by
            intro s c hc
            have hentry := (entryOf_of_subnet (hslash hc)).trans hc
            simp [Covers, trim_of_entryOf hentry, hentry]
          rw [covers_pfbCidrSubtractV6 hcover, hcover₁ hb, hcover₁ hself, contains_hostBlock]
          have hmem : ':' ∈ ip := by simpa using hv6
          rw [if_pos hmem] at hhost
          constructor
          · rintro ⟨-, hx⟩
            exact hx
          · rintro ⟨hx, hne⟩
            exact ⟨hx.1.trans (hin.1.symm.trans hhost), hx, hne⟩
        · rename_i hv4
          have hmem : ':' ∉ ip := by simpa using hv4
          rw [if_neg hmem] at hhost
          exact ⟨_, rfl, covers_pfbV4CarveSingle hcover hb (hin.1.symm.trans hhost) hip hin⟩
    · rename_i hsubnet
      refine Or.inr ⟨fun b hb hin => hsubnet (ipInSubnet_iff.mpr ⟨h, b, hip, ?_, hin⟩), rfl⟩
      exact ((hblock b).mpr ⟨hb, hin⟩).1

/-- The line's entry contains the host. -/
def hits (T : Ipv6Text) (h : Addr) (line : Str) : Bool :=
  match entryOf T (trim line) with
  | some b => decide (b.Contains h)
  | none => false

theorem hits_eq_true_iff {h : Addr} {line : Str} :
    hits T h line = true ↔ ∃ b, entryOf T (trim line) = some b ∧ b.Contains h := by
  unfold hits
  split
  · rename_i b hb
    simp [hb]
  · rename_i hb
    simp [hb]

theorem tableOf_cons (line : Str) (lines : List Str) :
    tableOf T (line :: lines) = (entryOf T (trim line)).toList ++ tableOf T lines := by
  cases h : entryOf T (trim line) <;> simp [tableOf, h]

theorem foldl_planEntry (hcover : ExactCover T cover) {ip : Str} {h : Addr}
    (hip : hostOf T ip = some h) (plan : Plan) (lines : List Str) :
    ∃ rest, lines.foldl (planEntry T cover ip) plan =
        ⟨plan.delete ++ (lines.filter (hits T h)).map trim, plan.add ++ rest⟩ ∧
      ∀ a, Covers T rest a ↔ (∃ b ∈ tableOf T lines, b.Contains h ∧ b.Contains a) ∧ a ≠ h := by
  induction lines generalizing plan with
  | nil => exact ⟨[], by simp, by simp [tableOf]⟩
  | cons line lines ih =>
      rw [List.foldl_cons]
      rcases planEntry_spec hcover hip plan line with ⟨b, hb, hin, rest, heq, hrest⟩ | ⟨hout, heq⟩
      · obtain ⟨rest', heq', hrest'⟩ := ih ⟨plan.delete ++ [trim line], plan.add ++ rest⟩
        have hhit : hits T h line = true := hits_eq_true_iff.mpr ⟨b, hb, hin⟩
        refine ⟨rest ++ rest', by rw [heq, heq']; simp [hhit], fun a => ?_⟩
        rw [covers_append, hrest, hrest', tableOf_cons, hb]
        simp only [Option.toList_some, List.singleton_append, List.exists_mem_cons_iff]
        constructor
        · rintro (⟨ha, hne⟩ | ⟨ha, hne⟩)
          · exact ⟨Or.inl ⟨hin, ha⟩, hne⟩
          · exact ⟨Or.inr ha, hne⟩
        · rintro ⟨⟨-, ha⟩ | ha, hne⟩
          · exact Or.inl ⟨ha, hne⟩
          · exact Or.inr ⟨ha, hne⟩
      · obtain ⟨rest', heq', hrest'⟩ := ih plan
        have hhit : hits T h line = false := by
          rw [← Bool.not_eq_true, hits_eq_true_iff]
          rintro ⟨b, hb, hin⟩
          exact hout b hb hin
        refine ⟨rest', by rw [heq, heq']; simp [hhit], fun a => ?_⟩
        rw [hrest', tableOf_cons]
        refine and_congr_left fun _ => ?_
        cases hb : entryOf T (trim line) with
        | none => rfl
        | some b =>
            simp only [Option.toList_some, List.singleton_append, List.exists_mem_cons_iff]
            simp [hout b hb]

/-- What a plan for `h` does to a table: it deletes the entries that contain `h`, each once, and
adds what is left of them. -/
structure PlanFor (T : Ipv6Text) (h : Addr) (before : Table) (plan : Plan) : Prop where
  deletes : ∀ e ∈ plan.delete, ∃ b ∈ before, entryOf T e = some b ∧ b.Contains h
  deleted : ∀ b ∈ before, b.Contains h → ∃ e ∈ plan.delete, entryOf T e = some b
  distinct : plan.delete.Pairwise fun e e' => entryOf T e ≠ entryOf T e'
  covers : ∀ a, Covers T plan.add a ↔ (∃ b ∈ before, b.Contains h ∧ b.Contains a) ∧ a ≠ h

theorem planFor (hcover : ExactCover T cover) {ip : Str} {h : Addr} (hip : hostOf T ip = some h)
    (listing : Listing T) :
    PlanFor T h (tableOf T listing.lines) (pfbLivePunchPlan T cover ip listing.lines) := by
  obtain ⟨rest, heq, hrest⟩ := foldl_planEntry hcover hip ⟨[], []⟩ listing.lines
  have hdelete : ∀ e, e ∈ (pfbLivePunchPlan T cover ip listing.lines).delete ↔
      ∃ line ∈ listing.lines, hits T h line = true ∧ trim line = e := by
    intro e
    simp only [pfbLivePunchPlan, heq, mem_eraseDups, List.nil_append, List.mem_map,
      List.mem_filter, and_assoc]
  refine ⟨?_, ?_, ?_, ?_⟩
  · intro e he
    obtain ⟨line, hline, hhit, rfl⟩ := (hdelete e).mp he
    obtain ⟨b, hb, hin⟩ := hits_eq_true_iff.mp hhit
    exact ⟨b, List.mem_filterMap.mpr ⟨line, hline, hb⟩, hb, hin⟩
  · intro b hb hin
    obtain ⟨line, hline, hentry⟩ := List.mem_filterMap.mp hb
    exact ⟨trim line, (hdelete _).mpr ⟨line, hline, hits_eq_true_iff.mpr ⟨b, hentry, hin⟩, rfl⟩,
      hentry⟩
  · have hnodup := List.pairwise_filterMap.mp listing.nodup
    have hpairs : ((listing.lines.filter (hits T h)).map trim).Pairwise
        fun e e' => entryOf T e ≠ entryOf T e' := by
      rw [List.pairwise_map, List.pairwise_filter]
      refine hnodup.imp ?_
      intro line line' hne hhit hhit' hsame
      obtain ⟨b, hb, -⟩ := hits_eq_true_iff.mp hhit
      exact hne b hb b (hsame ▸ hb) rfl
    have hplan : (pfbLivePunchPlan T cover ip listing.lines).delete =
        ((listing.lines.filter (hits T h)).map trim).eraseDups := by
      simp only [pfbLivePunchPlan, heq, List.nil_append]
    rw [hplan]
    exact hpairs.sublist (eraseDups_sublist _)
  · intro a
    rw [← hrest a]
    refine covers_congr fun e => ?_
    simp only [pfbLivePunchPlan, heq, mem_eraseDups, List.nil_append]

end Carve

section Run

variable {T : Ipv6Text} {h : Addr} {before : Table} {plan : Plan} {fails : Nat → Bool}

/-- The tables while the adds run and roll back: the entries that contain the host stay, and what
comes or goes beside them lies inside one of them. -/
structure Carving (T : Ipv6Text) (h : Addr) (before : Table) (plan : Plan) (t : Table) : Prop where
  keeps : ∀ b ∈ before, b.Contains h → b ∈ t
  mem : ∀ b ∈ t, b ∈ before ∨ ∃ e ∈ plan.add, entryOf T e = some b
  missing : ∀ b ∈ before, b ∉ t → ∃ e ∈ plan.add, entryOf T e = some b

/-- The tables while the deletes run: what is left of every entry is there, and of the entries that
contain the host those still to be deleted. -/
structure Emptying (T : Ipv6Text) (h : Addr) (before : Table) (plan : Plan) (remaining : List Str)
    (t : Table) : Prop where
  added : ∀ e ∈ plan.add, ∀ b, entryOf T e = some b → b ∈ t
  others : ∀ b ∈ before, ¬ b.Contains h → b ∈ t
  mem : ∀ b ∈ t, b ∈ before ∨ ∃ e ∈ plan.add, entryOf T e = some b
  left : ∀ b ∈ before, b.Contains h → (b ∈ t ↔ ∃ e ∈ remaining, entryOf T e = some b)

/-- The table matches every other address as before, and `h` only when it did. -/
def Spares (h : Addr) (before t : Table) : Prop :=
  (∀ a, a ≠ h → (Matched t a ↔ Matched before a)) ∧ (Matched t h → Matched before h)

/-- A punch that matches everything else as before on the way, and in the end everything else when
it is ok and everything when it is not. -/
structure Exact (h : Addr) (before : Table) (result : Option Str × Live) : Prop where
  spares : ∀ t ∈ result.2.states, Spares h before t
  ok : result.1 = none → ∀ a, Matched result.2.table a ↔ Matched before a ∧ a ≠ h
  failed : result.1 ≠ none → ∀ a, Matched result.2.table a ↔ Matched before a

/-- `P` of the table and of every table since the first operation. -/
def Throughout (P : Table → Prop) (s : Live) : Prop := P s.table ∧ ∀ t ∈ s.states, P t

theorem mem_effect_add {e : Str} {t : Table} {c : Block} :
    c ∈ Op.effect T t (.add e) ↔ c ∈ t ∨ entryOf T e = some c := by
  simp only [Op.effect]
  cases hb : entryOf T e with
  | none => simp
  | some b =>
      simp only [Option.some.injEq]
      split
      · rename_i hmem
        constructor
        · exact Or.inl
        · rintro (hc | rfl)
          · exact hc
          · exact hmem
      · rw [List.mem_append, List.mem_singleton, eq_comm]

theorem mem_effect_delete {e : Str} {t : Table} {c : Block} :
    c ∈ Op.effect T t (.delete e) ↔ c ∈ t ∧ entryOf T e ≠ some c := by
  simp only [Op.effect]
  cases hb : entryOf T e with
  | none => simp
  | some b =>
      simp only [List.mem_filter, decide_eq_true_eq, ne_eq, Option.some.injEq]
      exact and_congr_right fun _ => not_congr eq_comm

theorem exec_throughout {P : Table → Prop} {op : Op} {s : Live} (hs : Throughout P s)
    (hstep : P (op.effect T s.table)) : Throughout P (exec T fails op s).2 := by
  obtain ⟨htable, hstates⟩ := hs
  have hnew : P (if fails s.states.length then s.table else op.effect T s.table) := by
    split
    · exact htable
    · exact hstep
  refine ⟨hnew, fun t ht => ?_⟩
  rcases List.mem_append.mp ht with ht | ht
  · exact hstates t ht
  · exact List.mem_singleton.mp ht ▸ hnew

theorem exec_true {op : Op} {s s' : Live} (h : exec T fails op s = (true, s')) :
    s'.table = op.effect T s.table := by
  simp only [exec, Prod.mk.injEq, Bool.not_eq_true'] at h
  obtain ⟨hok, rfl⟩ := h
  simp [hok]

theorem exec_false {op : Op} {s s' : Live} (h : exec T fails op s = (false, s')) :
    s'.table = s.table := by
  simp only [exec, Prod.mk.injEq, Bool.not_eq_false'] at h
  obtain ⟨hok, rfl⟩ := h
  simp [hok]

/-- A remainder lies inside an entry that contains the host, and does not contain it. -/
theorem PlanFor.remainder (hplan : PlanFor T h before plan) {e : Str} {b : Block}
    (he : e ∈ plan.add) (hb : entryOf T e = some b) :
    ¬ b.Contains h ∧ ∀ a, b.Contains a → ∃ c ∈ before, c.Contains h ∧ c.Contains a := by
  refine ⟨fun hin => ?_, fun a ha => ?_⟩
  · exact ((hplan.covers h).mp ⟨e, he, b, hb, hin⟩).2 rfl
  · exact ((hplan.covers a).mp ⟨e, he, b, hb, ha⟩).1

theorem Carving.matched_iff (hplan : PlanFor T h before plan) {t : Table}
    (hc : Carving T h before plan t) (a : Addr) : Matched t a ↔ Matched before a := by
  constructor
  · rintro ⟨b, hb, ha⟩
    rcases hc.mem b hb with hmem | ⟨e, he, hentry⟩
    · exact ⟨b, hmem, ha⟩
    · obtain ⟨c, hcb, -, hca⟩ := (hplan.remainder he hentry).2 a ha
      exact ⟨c, hcb, hca⟩
  · rintro ⟨b, hb, ha⟩
    by_cases hmem : b ∈ t
    · exact ⟨b, hmem, ha⟩
    · obtain ⟨e, he, hentry⟩ := hc.missing b hb hmem
      obtain ⟨c, hcb, hch, hca⟩ := (hplan.remainder he hentry).2 a ha
      exact ⟨c, hc.keeps c hcb hch, hca⟩

theorem Carving.add {e : Str} (he : e ∈ plan.add) {t : Table} (hc : Carving T h before plan t) :
    Carving T h before plan (Op.effect T t (.add e)) where
  keeps b hb hin := mem_effect_add.mpr (Or.inl (hc.keeps b hb hin))
  mem b hb := by
    rcases mem_effect_add.mp hb with hmem | hentry
    · exact hc.mem b hmem
    · exact Or.inr ⟨e, he, hentry⟩
  missing b hb hnot := hc.missing b hb (fun hmem => hnot (mem_effect_add.mpr (Or.inl hmem)))

theorem Carving.delete (hplan : PlanFor T h before plan) {e : Str} (he : e ∈ plan.add) {t : Table}
    (hc : Carving T h before plan t) : Carving T h before plan (Op.effect T t (.delete e)) where
  keeps b hb hin := mem_effect_delete.mpr
    ⟨hc.keeps b hb hin, fun hentry => (hplan.remainder he hentry).1 hin⟩
  mem b hb := hc.mem b (mem_effect_delete.mp hb).1
  missing b hb hnot := by
    by_cases hmem : b ∈ t
    · by_cases hentry : entryOf T e = some b
      · exact ⟨e, he, hentry⟩
      · exact absurd (mem_effect_delete.mpr ⟨hmem, hentry⟩) hnot
    · exact hc.missing b hb hmem

theorem rollback_throughout (hplan : PlanFor T h before plan) {applied : List Str}
    (happlied : ∀ e ∈ applied, e ∈ plan.add) {s : Live}
    (hs : Throughout (Carving T h before plan) s) :
    Throughout (Carving T h before plan) (rollback T fails applied s) := by
  induction applied generalizing s with
  | nil => exact hs
  | cons e applied ih =>
      exact ih (fun e' he' => happlied e' (List.mem_cons_of_mem _ he'))
        (exec_throughout hs (hs.1.delete hplan (happlied e List.mem_cons_self)))

/-- The add phase keeps every table matching as before, and leaves every remainder in place when
nothing failed. -/
theorem applyAdds_spec (hplan : PlanFor T h before plan) {applied entries : List Str}
    (hall : ∀ e ∈ applied ++ entries, e ∈ plan.add) {s : Live}
    (hs : Throughout (Carving T h before plan) s)
    (hadded : ∀ e ∈ applied, ∀ b, entryOf T e = some b → b ∈ s.table) {fail : Option Str}
    {s' : Live}
    (hrun : applyAdds T fails applied entries s = (fail, s')) :
    Throughout (Carving T h before plan) s' ∧
      (fail = none → ∀ e ∈ applied ++ entries, ∀ b, entryOf T e = some b → b ∈ s'.table) := by
  induction entries generalizing applied s with
  | nil =>
      obtain ⟨rfl, rfl⟩ := Prod.mk.injEq .. ▸ hrun
      exact ⟨hs, fun _ => by simpa using hadded⟩
  | cons e entries ih =>
      have he : e ∈ plan.add := hall e (by simp)
      have hnext : Throughout (Carving T h before plan) (exec T fails (.add e) s).2 :=
        exec_throughout hs (hs.1.add he)
      rw [applyAdds] at hrun
      split at hrun
      · rename_i s₁ hexec
        rw [hexec] at hnext
        have hstep : ∀ e' ∈ applied ++ [e], ∀ b, entryOf T e' = some b → b ∈ s₁.table := by
          intro e' he' b hb
          rw [exec_true hexec]
          rcases List.mem_append.mp he' with he' | he'
          · exact mem_effect_add.mpr (Or.inl (hadded e' he' b hb))
          · exact mem_effect_add.mpr (Or.inr (List.mem_singleton.mp he' ▸ hb))
        have hrest : ∀ e' ∈ applied ++ [e] ++ entries, e' ∈ plan.add := by simpa using hall
        have h' := ih hrest hnext hstep hrun
        simpa using h'
      · rename_i s₁ hexec
        rw [hexec] at hnext
        obtain ⟨rfl, rfl⟩ := Prod.mk.injEq .. ▸ hrun
        exact ⟨rollback_throughout hplan (fun e' he' => hall e' (by simp [he'])) hnext,
          (fun hn => by cases hn)⟩

theorem Carving.emptying (hplan : PlanFor T h before plan) {t : Table}
    (hc : Carving T h before plan t)
    (hadded : ∀ e ∈ plan.add, ∀ b, entryOf T e = some b → b ∈ t) :
    Emptying T h before plan plan.delete t where
  added := hadded
  others b hb _ := by
    by_contra hmem
    obtain ⟨e, he, hentry⟩ := hc.missing b hb hmem
    exact hmem (hadded e he b hentry)
  mem := hc.mem
  left b hb hin := ⟨fun _ => hplan.deleted b hb hin, fun _ => hc.keeps b hb hin⟩

theorem Emptying.spares (hplan : PlanFor T h before plan) {remaining : List Str} {t : Table}
    (he : Emptying T h before plan remaining t) : Spares h before t := by
  constructor
  · intro a hne
    constructor
    · rintro ⟨b, hb, ha⟩
      rcases he.mem b hb with hmem | ⟨e, hadd, hentry⟩
      · exact ⟨b, hmem, ha⟩
      · obtain ⟨c, hcb, -, hca⟩ := (hplan.remainder hadd hentry).2 a ha
        exact ⟨c, hcb, hca⟩
    · rintro ⟨b, hb, ha⟩
      by_cases hin : b.Contains h
      · obtain ⟨e, hadd, c, hentry, hca⟩ := (hplan.covers a).mpr ⟨⟨b, hb, hin, ha⟩, hne⟩
        exact ⟨c, he.added e hadd c hentry, hca⟩
      · exact ⟨b, he.others b hb hin, ha⟩
  · rintro ⟨b, hb, ha⟩
    rcases he.mem b hb with hmem | ⟨e, hadd, hentry⟩
    · exact ⟨b, hmem, ha⟩
    · exact absurd ha (hplan.remainder hadd hentry).1

theorem Emptying.matched_host_iff (hplan : PlanFor T h before plan) {remaining : List Str}
    (hsub : ∀ e ∈ remaining, e ∈ plan.delete) {t : Table}
    (he : Emptying T h before plan remaining t) : Matched t h ↔ remaining ≠ [] := by
  constructor
  · rintro ⟨b, hb, ha⟩ rfl
    rcases he.mem b hb with hmem | ⟨e, hadd, hentry⟩
    · obtain ⟨e, hnil, -⟩ := (he.left b hmem ha).mp hb
      cases hnil
    · exact (hplan.remainder hadd hentry).1 ha
  · intro hne
    obtain ⟨e, hmem⟩ := List.exists_mem_of_ne_nil _ hne
    obtain ⟨b, hb, hentry, hin⟩ := hplan.deletes e (hsub e hmem)
    exact ⟨b, (he.left b hb hin).mpr ⟨e, hmem, hentry⟩, hin⟩

theorem Emptying.delete (hplan : PlanFor T h before plan) {e : Str} {remaining : List Str}
    (hmem : e ∈ plan.delete) (hdistinct : ∀ e' ∈ remaining, entryOf T e ≠ entryOf T e') {t : Table}
    (he : Emptying T h before plan (e :: remaining) t) :
    Emptying T h before plan remaining (Op.effect T t (.delete e)) := by
  obtain ⟨b, -, hb, hin⟩ := hplan.deletes e hmem
  refine ⟨?_, ?_, ?_, ?_⟩
  · intro e' hadd c hentry
    refine mem_effect_delete.mpr ⟨he.added e' hadd c hentry, fun hsame => ?_⟩
    obtain rfl := Option.some.inj (hb.symm.trans hsame)
    exact (hplan.remainder hadd hentry).1 hin
  · intro c hc hout
    refine mem_effect_delete.mpr ⟨he.others c hc hout, fun hsame => ?_⟩
    obtain rfl := Option.some.inj (hb.symm.trans hsame)
    exact hout hin
  · exact fun c hc => he.mem c (mem_effect_delete.mp hc).1
  · intro c hc hch
    rw [mem_effect_delete, he.left c hc hch]
    constructor
    · rintro ⟨⟨e', he', hentry⟩, hne⟩
      rcases List.mem_cons.mp he' with rfl | he'
      · exact absurd hentry hne
      · exact ⟨e', he', hentry⟩
    · rintro ⟨e', he', hentry⟩
      exact ⟨⟨e', List.mem_cons_of_mem _ he', hentry⟩,
        fun hsame => hdistinct e' he' (hsame.trans hentry.symm)⟩

/-- The delete phase leaves `h` matched until the last delete. -/
theorem applyDeletes_spec (hplan : PlanFor T h before plan) {remaining : List Str}
    (hsub : ∀ e ∈ remaining, e ∈ plan.delete)
    (hdistinct : remaining.Pairwise fun e e' => entryOf T e ≠ entryOf T e') {s : Live}
    (he : Emptying T h before plan remaining s.table)
    (hs : Throughout (Spares h before) s) {fail : Option Str} {s' : Live}
    (hrun : applyDeletes T fails remaining s = (fail, s')) :
    Throughout (Spares h before) s' ∧ (Matched s'.table h ↔ fail ≠ none) := by
  induction remaining generalizing s with
  | nil =>
      obtain ⟨rfl, rfl⟩ := Prod.mk.injEq .. ▸ hrun
      refine ⟨hs, ?_⟩
      rw [he.matched_host_iff hplan hsub]
      simp
  | cons e remaining ih =>
      obtain ⟨hfirst, hrest⟩ := List.pairwise_cons.mp hdistinct
      have hdel := he.delete hplan (hsub e List.mem_cons_self) hfirst
      have hnext : Throughout (Spares h before) (exec T fails (.delete e) s).2 :=
        exec_throughout hs (hdel.spares hplan)
      rw [applyDeletes] at hrun
      split at hrun
      · rename_i s₁ hexec
        rw [hexec] at hnext
        exact ih (fun e' he' => hsub e' (List.mem_cons_of_mem _ he')) hrest
          (by rw [exec_true hexec]; exact hdel) hnext hrun
      · rename_i s₁ hexec
        rw [hexec] at hnext
        obtain ⟨rfl, rfl⟩ := Prod.mk.injEq .. ▸ hrun
        refine ⟨hnext, ?_⟩
        rw [exec_false hexec, he.matched_host_iff hplan hsub]
        simp

/-- A live punch is exact and fails closed, whichever operations fail. -/
theorem punch_exact (cover : Cover) (hcover : ExactCover T cover) (ip : Str)
    (hip : hostOf T ip = some h) (listing : Listing T) (fails : Nat → Bool) :
    Exact h (tableOf T listing.lines)
      (pfbLivePunchApply T fails (pfbLivePunchPlan T cover ip listing.lines)
        (tableOf T listing.lines)) := by
  have hplan := planFor hcover hip listing
  generalize tableOf T listing.lines = before at hplan ⊢
  generalize pfbLivePunchPlan T cover ip listing.lines = plan at hplan ⊢
  have hstart : Throughout (Carving T h before plan) ⟨before, []⟩ :=
    ⟨⟨fun _ hb _ => hb, fun _ hb => Or.inl hb, fun _ hb hnot => absurd hb hnot⟩, by simp⟩
  obtain ⟨fail, s, hadds⟩ : ∃ fail s, applyAdds T fails [] plan.add ⟨before, []⟩ = (fail, s) :=
    ⟨_, _, rfl⟩
  obtain ⟨hcarving, hadded⟩ := applyAdds_spec hplan (by simp) hstart (by simp) hadds
  have hspares : Throughout (Spares h before) s := by
    have hsame := fun {t : Table} (hc : Carving T h before plan t) => hc.matched_iff hplan
    exact ⟨⟨fun a _ => hsame hcarving.1 a, (hsame hcarving.1 h).mp⟩, fun t ht =>
      ⟨fun a _ => hsame (hcarving.2 t ht) a, (hsame (hcarving.2 t ht) h).mp⟩⟩
  cases fail with
  | some text =>
      rw [pfbLivePunchApply, hadds]
      exact ⟨hspares.2, (fun hn => by cases hn), fun _ a => hcarving.1.matched_iff hplan a⟩
  | none =>
      rw [pfbLivePunchApply, hadds]
      simp only
      obtain ⟨fail, live, hdeletes⟩ :
          ∃ fail live, applyDeletes T fails plan.delete s = (fail, live) :=
        ⟨_, _, rfl⟩
      have hempty := hcarving.1.emptying hplan (by simpa using hadded rfl)
      obtain ⟨hstates, hhost⟩ := applyDeletes_spec hplan (fun _ he => he) hplan.distinct hempty
        hspares hdeletes
      rw [hdeletes]
      refine ⟨hstates.2, fun hok a => ?_, fun hfail a => ?_⟩
      · by_cases ha : a = h
        · have hunmatched : ¬ Matched live.table h := fun hm => (hhost.mp hm) hok
          rw [ha]
          simp [hunmatched]
        · simp [hstates.1.1 a ha, ha]
      · by_cases ha : a = h
        · subst ha
          exact ⟨hstates.1.2, fun _ => hhost.mpr hfail⟩
        · exact hstates.1.1 a ha

end Run

section Singles

variable {T : Ipv6Text}

def hostText (T : Ipv6Text) (a : Addr) : Str :=
  if a.length = 32 then quadText (octetsOf a) else T.ntop (octetsOf a)

/-- A range covered by its single addresses. -/
def singles (T : Ipv6Text) (s e : Str) : List Str :=
  match hostOf T s, hostOf T e with
  | some a, some b => (List.range (value b + 1 - value a)).map fun i =>
      hostText T (ofNat a.length (value a + i)) ++ hostMask (a.length != 32)
  | _, _ => []

theorem hostOf_hostText {a : Addr} (h : a.length = 32 ∨ a.length = 128) :
    hostOf T (hostText T a) = some a := by
  have hwhole : 8 ∣ a.length := by rcases h with h | h <;> rw [h] <;> decide
  obtain ⟨hbits, hlen, hlt⟩ := octetsOf_spec hwhole
  rcases h with h | h
  · rw [hostText, if_pos h, hostOf, inetPton, readQuad_quadText (by rw [hlen, h]) hlt]
    simp [hbits]
  · rw [hostText, if_neg (by omega)]
    have haddr : pfbV6BinToAddr T a = T.ntop (octetsOf a) := by simp [pfbV6BinToAddr, h]
    rw [← haddr]
    exact hostOf_pfbV6BinToAddr h

theorem entryOf_single {a : Addr} (h : a.length = 32 ∨ a.length = 128) :
    entryOf T (hostText T a ++ hostMask (a.length != 32)) = some (hostBlock a) := by
  have hmask : ∃ m, hostMask (a.length != 32) = '/' :: m ∧ readMask m = some a.length := by
    rcases h with h | h <;> rw [h]
    · exact ⟨"32".toList, rfl, by decide⟩
    · exact ⟨"128".toList, rfl, by decide⟩
  obtain ⟨m, hm, hbits⟩ := hmask
  rw [hm, entryOf_of_subnet (by simp), subnetOf_host (hostOf_hostText h) hbits]

theorem singles_exact : ExactCover T (singles T) := by
  intro s e a b hs he hlen hle x
  have hwidth : a.length = 32 ∨ a.length = 128 := by
    rw [length_of_hostOf hs]
    split
    · exact Or.inr rfl
    · exact Or.inl rfl
  have hb := value_lt b
  rw [← hlen] at hb
  have hmem : Covers T (singles T s e) x ↔
      ∃ i < value b + 1 - value a, x = ofNat a.length (value a + i) := by
    have hentry : ∀ i, entryOf T (hostText T (ofNat a.length (value a + i)) ++
        hostMask (a.length != 32)) = some (hostBlock (ofNat a.length (value a + i))) := by
      intro i
      have h := entryOf_single (T := T) (a := ofNat a.length (value a + i)) (by simpa using hwidth)
      rwa [length_ofNat] at h
    simp only [Covers, singles, hs, he, List.mem_map, List.mem_range]
    constructor
    · rintro ⟨-, ⟨i, hi, rfl⟩, c, hc, hx⟩
      rw [hentry i] at hc
      obtain rfl := Option.some.inj hc
      exact ⟨i, hi, contains_hostBlock.mp hx⟩
    · rintro ⟨i, hi, rfl⟩
      exact ⟨_, ⟨i, hi, rfl⟩, _, hentry i, contains_hostBlock.mpr rfl⟩
  rw [hmem]
  constructor
  · rintro ⟨i, hi, rfl⟩
    rw [length_ofNat, value_ofNat, Nat.mod_eq_of_lt (by omega)]
    exact ⟨rfl, by omega, by omega⟩
  · rintro ⟨hxlen, h₁, h₂⟩
    refine ⟨value x - value a, by omega, eq_of_value_eq (by simpa using hxlen) ?_⟩
    rw [value_ofNat, Nat.mod_eq_of_lt (by omega)]
    omega

/-- A table of one IPv4 pair. -/
def pairListing : Listing fullForm := ⟨["10.0.0.4/31".toList], by decide⟩

theorem punch_exact_pair :
    Matched (tableOf fullForm pairListing.lines) (octetBits [10, 0, 0, 4]) ∧
    Exact (octetBits [10, 0, 0, 4]) (tableOf fullForm pairListing.lines)
      (pfbLivePunchApply fullForm (fun _ => false)
        (pfbLivePunchPlan fullForm (singles fullForm) "10.0.0.4".toList pairListing.lines)
        (tableOf fullForm pairListing.lines)) :=
  ⟨by decide, punch_exact (singles fullForm) singles_exact "10.0.0.4".toList (by decide) pairListing
    (fun _ => false)⟩

end Singles

end PfBlockerNG.LivePunch
