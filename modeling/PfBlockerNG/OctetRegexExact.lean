import PfBlockerNG.OctetMatches
import Mathlib.Data.List.TakeWhile
import Mathlib.Data.Nat.Digits.Defs

/-!
The expansion of a regex rule is exact: its CIDRs hold the addresses the whole regex matches and no
others, without an overlap.
-/

namespace PfBlockerNG.OctetRegexExact

open PfBlockerNG.AbpAnchor
open PfBlockerNG.GroupRepeats
open PfBlockerNG.IpText
open PfBlockerNG.OctetMatches
open PfBlockerNG.OctetParts
open PfBlockerNG.OctetRegex
open PfBlockerNG.PcreReading
open PfBlockerNG.PyText
open PfBlockerNG.RangeRuns
open PfBlockerNG.Strings

/-- An IPv4 network. -/
structure Cidr where
  net : Nat
  len : Nat
  lt : net < 2 ^ 32
  le : len ≤ 32

namespace Cidr

def Contains (c : Cidr) (x : Nat) : Prop := x / 2 ^ (32 - c.len) = c.net / 2 ^ (32 - c.len)

def text (c : Cidr) : Str := long2ip c.net ++ '/' :: octetText c.len

def Disjoint (c d : Cidr) : Prop := ∀ x, ¬ (c.Contains x ∧ d.Contains x)

end Cidr

def Holds (cidrs : List Cidr) (x : Nat) : Prop := ∃ c ∈ cidrs, c.Contains x

/-- `ip_range_to_subnet_array()`: whenever it returns, its CIDRs are the range, each address
once. -/
def ExactCover (subnets : Str → Str → Option (List Str)) : Prop :=
  ∀ start stop texts, start ≤ stop → stop < 2 ^ 32 →
    subnets (long2ip start) (long2ip stop) = some texts →
    ∃ cidrs : List Cidr, texts = cidrs.map Cidr.text ∧ cidrs.Pairwise Cidr.Disjoint ∧
      ∀ x, Holds cidrs x ↔ start ≤ x ∧ x ≤ stop

/-! ### The octets -/

/-- The address of four octets. -/
def address (a b c d : Nat) : Nat := a * 2 ^ 24 + b * 2 ^ 16 + c * 2 ^ 8 + d

theorem base_eq (a : Nat) {b c : Nat} (hb : b < 256) (hc : c < 256) :
    base a b c = a * 2 ^ 24 + b * 2 ^ 16 + c * 2 ^ 8 := by
  have hleft : a <<< 24 ||| b <<< 16 = (a * 2 ^ 8 + b) <<< 16 := by
    have hlt : b <<< 16 < 2 ^ 24 := by
      rw [Nat.shiftLeft_eq]
      omega
    rw [← Nat.shiftLeft_add_eq_or_of_lt hlt, Nat.shiftLeft_eq, Nat.shiftLeft_eq, Nat.shiftLeft_eq]
    omega
  have hlt : c <<< 8 < 2 ^ 16 := by
    rw [Nat.shiftLeft_eq]
    omega
  rw [base, hleft, ← Nat.shiftLeft_add_eq_or_of_lt hlt, Nat.shiftLeft_eq, Nat.shiftLeft_eq]
  omega

theorem octetSet_spec {E : Env} {part : Str} {ns : List Nat} (h : octetSet E part = some ns) :
    ∃ r, readRegex E.openLow ("^(?:".toList ++ part ++ ")$".toList) = some r ∧
      ns = (List.range 256).filter fun n => pregMatch r (octetText n) := by
  unfold octetSet at h
  split at h
  · cases h
  · rename_i r hr
    split at h
    · cases h
    · dsimp only at h
      split at h
      · cases h
      · exact ⟨r, hr, (Option.some.inj h).symm⟩

theorem words_octets (ns : List Nat) : Words (ns.map octetText) := by
  intro w hw c hc
  obtain ⟨n, -, rfl⟩ := List.mem_map.mp hw
  exact List.all_eq_true.mp (octetText_clean n).1 c hc

/-- The octets a part stands for. -/
theorem mem_octetSet {E : Env} {part : Str} {ns : List Nat} {J : List Regex}
    (h : octetSet E part = some ns) (hJ : PartReads E.openLow part J) :
    ns.Pairwise (· < ·) ∧ ∀ n, n ∈ ns ↔ n < 256 ∧ Full J (octetText n) := by
  obtain ⟨r, hr, rfl⟩ := octetSet_spec h
  obtain rfl := Option.some.inj (hJ.alone.symm.trans hr)
  refine ⟨List.pairwise_lt_range.filter _, fun n => ?_⟩
  rw [List.mem_filter, List.mem_range]
  rw [pregMatch_part hJ.refuses (words_octets [n])]

/-- Octets in ascending order. -/
def Octets (ns : List Nat) : Prop := ns.Pairwise (· < ·) ∧ ∀ n ∈ ns, n < 256

/-- The joined ranges are the addresses of the four sets. -/
theorem mergedRuns_spec {as bs cs ds : List Nat} (ha : Octets as) (hb : Octets bs) (hc : Octets cs)
    (hd : Octets ds) {merged : List Run} (h : mergedRuns as bs cs ds = some merged) :
    Ascending merged ∧ ∀ x, Covered merged x ↔
      ∃ a ∈ as, ∃ b ∈ bs, ∃ c ∈ cs, ∃ d ∈ ds, x = address a b c d := by
  unfold mergedRuns at h
  dsimp only at h
  split at h
  · cases h
  · obtain ⟨hruns, hcovered⟩ := join_ones hd.1
    generalize (ds.map Run.one).foldl appendRun [] = runs at h hruns hcovered
    have hwithin : Within 0 256 runs := within_of_covered fun n hn => hd.2 n ((hcovered n).mp hn)
    have hblock : ∀ a ∈ as, ∀ b ∈ bs, ∀ c ∈ cs, Ascending (runs.map (Run.shift (base a b c))) ∧
        Within (a * 16777216 + b * 65536 + c * 256) (a * 16777216 + b * 65536 + c * 256 + 256)
          (runs.map (Run.shift (base a b c))) := by
      intro a _ b hb' c hc'
      have hbase := base_eq a (hb.2 b hb') (hc.2 c hc')
      refine ⟨ascending_shift hruns _, fun r hr => ?_⟩
      obtain ⟨hlo, hhi⟩ := within_shift hwithin (base a b c) r hr
      omega
    have hcs : ∀ a ∈ as, ∀ b ∈ bs,
        Ascending (cs.flatMap fun c => runs.map (Run.shift (base a b c))) ∧
        Within (a * 16777216 + b * 65536) (a * 16777216 + b * 65536 + 256 * 256)
          (cs.flatMap fun c => runs.map (Run.shift (base a b c))) := fun a ha' b hb' =>
      ascending_blocks _ 256 hc.1 hc.2 (hblock a ha' b hb')
    have hbs : ∀ a ∈ as,
        Ascending (bs.flatMap fun b => cs.flatMap fun c => runs.map (Run.shift (base a b c))) ∧
        Within (a * 16777216) (a * 16777216 + 256 * 65536)
          (bs.flatMap fun b => cs.flatMap fun c => runs.map (Run.shift (base a b c))) := by
      intro a ha'
      have hrows : ∀ b ∈ bs, Ascending (cs.flatMap fun c => runs.map (Run.shift (base a b c))) ∧
          Within (a * 16777216 + b * 65536) (a * 16777216 + b * 65536 + 65536)
            (cs.flatMap fun c => runs.map (Run.shift (base a b c))) := by
        refine fun b hb' => ⟨(hcs a ha' b hb').1, fun r hr => ?_⟩
        have hrow := (hcs a ha' b hb').2 r hr
        omega
      exact ascending_blocks _ 65536 hb.1 hb.2 hrows
    have hrows : ∀ a ∈ as, Ascending (bs.flatMap fun b => cs.flatMap fun c =>
        runs.map (Run.shift (base a b c))) ∧ Within (0 + a * 16777216) (0 + a * 16777216 + 16777216)
          (bs.flatMap fun b => cs.flatMap fun c => runs.map (Run.shift (base a b c))) := by
      refine fun a ha' => ⟨(hbs a ha').1, fun r hr => ?_⟩
      have hrow := (hbs a ha').2 r hr
      omega
    have has := ascending_blocks 0 16777216 ha.1 ha.2 hrows
    obtain ⟨hasc, hjoined⟩ := joinUpTo_spec has.1 h
    refine ⟨hasc, fun x => ?_⟩
    have haddress : ∀ a, ∀ b ∈ bs, ∀ c ∈ cs, ∀ d, base a b c + d = address a b c d := by
      intro a b hb' c hc' d
      rw [base_eq a (hb.2 b hb') (hc.2 c hc'), address]
    simp only [hjoined, covered_flatMap, covered_shift, hcovered]
    constructor
    · rintro ⟨a, ha', b, hb', c, hc', d, rfl, hd'⟩
      exact ⟨a, ha', b, hb', c, hc', d, hd', haddress a b hb' c hc' d⟩
    · rintro ⟨a, ha', b, hb', c, hc', d, hd', rfl⟩
      exact ⟨a, ha', b, hb', c, hc', d, (haddress a b hb' c hc' d).symm, hd'⟩

/-! ### The networks -/

theorem maskOf_text (c : Cidr) : maskOf c.text = c.len := by
  have hslash : '/' ∉ long2ip c.net := (words_octets _).quadlike.not_mem rfl (by decide)
  have hafter : after '/' c.text = some (octetText c.len) :=
    (after_eq_some_iff _ _ _).mpr ⟨_, hslash, rfl⟩
  have hdigits : (octetText c.len).takeWhile isAsciiDigit = octetText c.len :=
    List.takeWhile_eq_self_iff.mpr (List.all_eq_true.mp (octetText_clean c.len).1)
  rw [maskOf, hafter, Option.getD_some, hdigits, decimal_octetText]

theorem addCidr_fold {texts cidrs done : List Str} (h : texts.foldlM addCidr done = some cidrs) :
    cidrs = done ++ texts ∧ (∀ t ∈ texts, 16 ≤ maskOf t) ∧
      (done.length ≤ 256 → cidrs.length ≤ 256) := by
  induction texts generalizing done with
  | nil =>
      obtain rfl := Option.some.inj h
      exact ⟨(List.append_nil done).symm, by simp, id⟩
  | cons t texts ih =>
      rw [List.foldlM_cons, Option.bind_eq_bind, Option.bind_eq_some_iff] at h
      obtain ⟨next, hnext, h⟩ := h
      unfold addCidr at hnext
      split at hnext
      · cases hnext
      · rename_i hfits
        push Not at hfits
        obtain rfl := Option.some.inj hnext
        obtain ⟨rfl, hmasks, hlen⟩ := ih h
        refine ⟨by simp, List.forall_mem_cons.mpr ⟨hfits.2, hmasks⟩, fun _ => hlen ?_⟩
        rw [List.length_append, List.length_singleton]
        omega

/-- The networks of some ranges so far: each address once, none too wide, not too many. -/
structure Expanded (done : List Run) (cidrs : List Cidr) : Prop where
  holds : ∀ x, Holds cidrs x ↔ Covered done x
  disjoint : cidrs.Pairwise Cidr.Disjoint
  wide : ∀ c ∈ cidrs, 16 ≤ c.len
  length : cidrs.length ≤ 256

theorem holds_append {cidrs more : List Cidr} {x : Nat} :
    Holds (cidrs ++ more) x ↔ Holds cidrs x ∨ Holds more x := by
  simp only [Holds, List.mem_append, or_and_right, exists_or]

theorem expanded_addRun {E : Env} (hcover : ExactCover E.ipRangeToSubnetArray) {done : List Run}
    {cidrs : List Cidr} {r : Run} {texts : List Str} (h : Expanded done cidrs)
    (hr : ∀ l ∈ done, l.last < r.first) (hlast : r.last < 2 ^ 32)
    (hadd : addRun E (cidrs.map Cidr.text) r = some texts) :
    ∃ more, texts = (cidrs ++ more).map Cidr.text ∧ Expanded (done ++ [r]) (cidrs ++ more) := by
  obtain ⟨subnets, hsubnets, hfold⟩ := Option.bind_eq_some_iff.mp hadd
  obtain ⟨more, rfl, hdisjoint, hholds⟩ := hcover _ _ _ r.le hlast hsubnets
  obtain ⟨rfl, hmasks, hlen⟩ := addCidr_fold hfold
  rw [List.forall_mem_map] at hmasks
  simp only [maskOf_text] at hmasks
  simp only [← List.map_append, List.length_map] at hlen
  refine ⟨more, (List.map_append ..).symm, ?_, ?_, ?_, ?_⟩
  · intro x
    rw [holds_append, covered_append, covered_singleton, h.holds, hholds, Run.Has]
  · refine List.pairwise_append.mpr ⟨h.disjoint, hdisjoint, fun c hc d hd x hx => ?_⟩
    obtain ⟨l, hl, hxl⟩ := (h.holds x).mp ⟨c, hc, hx.1⟩
    obtain ⟨hfirst, -⟩ := (hholds x).mp ⟨d, hd, hx.2⟩
    have hbefore := hr l hl
    have hend := hxl.2
    omega
  · intro c hc
    rcases List.mem_append.mp hc with hc | hc
    · exact h.wide c hc
    · exact hmasks c hc
  · exact hlen h.length

theorem expanded_foldlM {E : Env} (hcover : ExactCover E.ipRangeToSubnetArray)
    {done runs : List Run} {cidrs : List Cidr} {texts : List Str} (h : Expanded done cidrs)
    (hruns : Ascending (done ++ runs)) (hlast : ∀ r ∈ runs, r.last < 2 ^ 32)
    (hfold : runs.foldlM (addRun E) (cidrs.map Cidr.text) = some texts) :
    ∃ all, texts = all.map Cidr.text ∧ Expanded (done ++ runs) all := by
  induction runs generalizing done cidrs with
  | nil =>
      obtain rfl := Option.some.inj hfold
      rw [List.append_nil]
      exact ⟨cidrs, rfl, h⟩
  | cons r runs ih =>
      rw [List.foldlM_cons, Option.bind_eq_bind, Option.bind_eq_some_iff] at hfold
      obtain ⟨next, hnext, hfold⟩ := hfold
      have hbefore := (List.pairwise_append.mp hruns).2.2
      obtain ⟨more, rfl, hmore⟩ := expanded_addRun hcover h
        (fun l hl => hbefore l hl r List.mem_cons_self) (hlast r List.mem_cons_self) hnext
      have hsplit : done ++ r :: runs = done ++ [r] ++ runs := by simp
      rw [hsplit] at hruns ⊢
      exact ih hmore hruns (fun s hs => hlast s (List.mem_cons_of_mem r hs)) hfold

/-! ### The whole rule -/

theorem forall₂_of_mapM {α β : Type} {f : α → Option β} {l : List α} {l' : List β}
    (h : l.mapM f = some l') : List.Forall₂ (fun a b => f a = some b) l l' := by
  induction l generalizing l' with
  | nil =>
      obtain rfl := Option.some.inj h
      exact .nil
  | cons a l ih =>
      rw [List.mapM_cons, Option.bind_eq_bind, Option.bind_eq_some_iff] at h
      obtain ⟨b, hb, h⟩ := h
      rw [Option.bind_eq_bind, Option.bind_eq_some_iff] at h
      obtain ⟨bs, hbs, h⟩ := h
      obtain rfl := Option.some.inj h
      exact .cons hb (ih hbs)

theorem exists_of_mem_forall₂ {α β : Type} {R : α → β → Prop} {l : List α} {l' : List β}
    (h : List.Forall₂ R l l') {a : α} (ha : a ∈ l) : ∃ b ∈ l', R a b := by
  induction h with
  | nil => exact absurd ha List.not_mem_nil
  | @cons b c l l' hbc _ ih =>
      rcases List.mem_cons.mp ha with rfl | ha
      · exact ⟨c, List.mem_cons_self, hbc⟩
      · obtain ⟨d, hd, had⟩ := ih ha
        exact ⟨d, List.mem_cons_of_mem c hd, had⟩

/-- What a line with an expansion went through. -/
theorem expansion_eq_some {E : Env} {line : Str} {texts : List Str}
    (h : expansion E line = some texts) : ∃ parts as bs cs ds merged,
      octetParts E line = some parts ∧
      List.Forall₂ (fun part ns => octetSet E part = some ns) parts [as, bs, cs, ds] ∧
      mergedRuns as bs cs ds = some merged ∧ merged.foldlM (addRun E) [] = some texts := by
  unfold expansion at h
  rw [Option.bind_eq_bind, Option.bind_eq_some_iff] at h
  obtain ⟨parts, hparts, h⟩ := h
  split at h
  · cases h
  · rw [Option.bind_eq_bind, Option.bind_eq_some_iff] at h
    obtain ⟨sets, hsets, h⟩ := h
    split at h
    · rename_i as bs cs ds
      rw [Option.bind_eq_bind, Option.bind_eq_some_iff] at h
      obtain ⟨merged, hmerged, h⟩ := h
      exact ⟨parts, as, bs, cs, ds, merged, hparts, forall₂_of_mapM hsets, hmerged, h⟩
    · cases h

theorem address_iff {a b c d x : Nat} (ha : a < 256) (hb : b < 256) (hc : c < 256)
    (hd : d < 256) : x = address a b c d ↔ x < 2 ^ 32 ∧ x / 256 ^ 3 % 256 = a ∧
      x / 256 ^ 2 % 256 = b ∧ x / 256 % 256 = c ∧ x % 256 = d := by
  unfold address
  omega

theorem length_octetText {n : Nat} (h : n < 256) : (octetText n).length ≤ 3 :=
  Nat.toDigits_length 10 n 3 (by decide) (by omega)

/-- The octets of an address. -/
def quadOctets (x : Nat) : List Nat :=
  [x / 256 ^ 3 % 256, x / 256 ^ 2 % 256, x / 256 % 256, x % 256]

theorem quadOctets_lt {x n : Nat} (h : n ∈ quadOctets x) : n < 256 := by
  simp only [quadOctets, List.mem_cons, List.not_mem_nil, or_false] at h
  omega

/-- The sets of the parts hold the octets the parts match. -/
theorem mem_octetSets {E : Env} {parts : List Str} {sets : List (List Nat)}
    {Js : List (List Regex)}
    (hsets : List.Forall₂ (fun part ns => octetSet E part = some ns) parts sets)
    (hJs : List.Forall₂ (PartReads E.openLow) parts Js) : (∀ ns ∈ sets, Octets ns) ∧
      ∀ os, (∀ o ∈ os, o < 256) → (List.Forall₂ (fun ns o => o ∈ ns) sets os ↔
        List.Forall₂ (fun J o => Full J (octetText o)) Js os) := by
  induction hsets generalizing Js with
  | nil =>
      cases hJs
      exact ⟨by simp, fun os _ => by simp⟩
  | @cons part ns parts sets hset _ ih =>
      obtain _ | ⟨hJ, hJs⟩ := hJs
      obtain ⟨hasc, hmem⟩ := mem_octetSet hset hJ
      obtain ⟨hrest, hiff⟩ := ih hJs
      refine ⟨List.forall_mem_cons.mpr ⟨⟨hasc, fun n hn => ((hmem n).mp hn).1⟩, hrest⟩, ?_⟩
      intro os hos
      cases os with
      | nil => simp
      | cons o os =>
          obtain ⟨ho, hos⟩ := List.forall_mem_cons.mp hos
          rw [List.forall₂_cons, List.forall₂_cons, hiff os hos, hmem]
          simp only [ho, true_and]

/-- The whole regex, part by part. -/
theorem pregMatch_rule {E : Env} {line : Str} {parts : List Str} {Js : List (List Regex)}
    (hparts : octetParts E line = some parts) (hlen : parts.length = 4)
    (hJs : List.Forall₂ (PartReads E.openLow) parts Js) :
    ∃ r, readRegex E.openLow (ruleText line) = some r ∧ ∀ x, pregMatch r (long2ip x) = true ↔
      List.Forall₂ (fun J o => Full J (octetText o)) Js (quadOctets x) := by
  obtain ⟨lead, I, K, hr, hI, hK, hlead⟩ := adds_rule hparts hJs
  refine ⟨_, hr, fun x => ?_⟩
  have hwords : Words ((quadOctets x).map octetText) := words_octets _
  have hfirst : (octetText (x / 256 ^ 3 % 256)).length ≤ 3 :=
    length_octetText (Nat.mod_lt _ (by decide))
  rw [← List.forall₂_map_right_iff]
  exact rule_iff hJs hI hK hlead hwords hlen hfirst

theorem covered_iff {as bs cs ds : List Nat} {merged : List Run}
    (h : ∀ ns ∈ [as, bs, cs, ds], Octets ns) (hmerged : mergedRuns as bs cs ds = some merged) :
    Ascending merged ∧ ∀ x, Covered merged x ↔
      x < 2 ^ 32 ∧ List.Forall₂ (fun ns o => o ∈ ns) [as, bs, cs, ds] (quadOctets x) := by
  simp only [List.forall_mem_cons] at h
  obtain ⟨ha, hb, hc, hd, -⟩ := h
  obtain ⟨hasc, hcovered⟩ := mergedRuns_spec ha hb hc hd hmerged
  refine ⟨hasc, fun x => ?_⟩
  simp only [hcovered, quadOctets, List.forall₂_cons, List.forall₂_nil_left_iff, and_true]
  constructor
  · rintro ⟨a, ha', b, hb', c, hc', d, hd', hx⟩
    obtain ⟨hlt, rfl, rfl, rfl, rfl⟩ :=
      (address_iff (ha.2 a ha') (hb.2 b hb') (hc.2 c hc') (hd.2 d hd')).mp hx
    exact ⟨hlt, ha', hb', hc', hd'⟩
  · rintro ⟨hlt, ha', hb', hc', hd'⟩
    refine ⟨_, ha', _, hb', _, hc', _, hd', ?_⟩
    have hmod : ∀ n, n % 256 < 256 := fun n => Nat.mod_lt n (by decide)
    exact (address_iff (hmod _) (hmod _) (hmod _) (hmod _)).mpr ⟨hlt, rfl, rfl, rfl, rfl⟩

/-- A non-empty expansion is exact. -/
theorem regex_rule_exact (E : Env) (hcover : ExactCover E.ipRangeToSubnetArray) (line : Str)
    (h : pfbDnsblAbpRegexIp4Cidrs E line ≠ []) :
    ∃ r cidrs, readRegex E.openLow (ruleText line) = some r ∧
      pfbDnsblAbpRegexIp4Cidrs E line = cidrs.map Cidr.text ∧
      (∀ x, Holds cidrs x ↔ x < 2 ^ 32 ∧ pregMatch r (long2ip x) = true) ∧
      cidrs.Pairwise Cidr.Disjoint ∧ (∀ c ∈ cidrs, 16 ≤ c.len) ∧ cidrs.length ≤ 256 := by
  have hsome : ∃ texts, expansion E line = some texts := by
    cases hline : expansion E line with
    | none => exact absurd (by rw [pfbDnsblAbpRegexIp4Cidrs, hline]; rfl) h
    | some texts => exact ⟨texts, rfl⟩
  obtain ⟨texts, htexts⟩ := hsome
  obtain ⟨parts, as, bs, cs, ds, merged, hparts, hsets, hmerged, hfold⟩ := expansion_eq_some htexts
  have hread : ∀ p ∈ parts, ∃ r,
      readRegex E.openLow ("^(?:".toList ++ p ++ ")$".toList) = some r := by
    intro p hp
    obtain ⟨ns, -, hns⟩ := exists_of_mem_forall₂ hsets hp
    obtain ⟨r, hr, -⟩ := octetSet_spec hns
    exact ⟨r, hr⟩
  obtain ⟨hlen, Js, hJs⟩ := partReads_of_accepted hparts hread
  obtain ⟨hoctets, hmember⟩ := mem_octetSets hsets hJs
  obtain ⟨r, hr, hmatch⟩ := pregMatch_rule hparts hlen hJs
  obtain ⟨hasc, hcovered⟩ := covered_iff hoctets hmerged
  have hlast : ∀ run ∈ merged, run.last < 2 ^ 32 := fun run hrun =>
    ((hcovered run.last).mp ⟨run, hrun, run.le, le_rfl⟩).1
  have hempty : Expanded [] [] := ⟨fun x => by simp [Holds, Covered], .nil, by simp, by simp⟩
  obtain ⟨cidrs, rfl, hall⟩ := expanded_foldlM hcover hempty hasc hlast hfold
  refine ⟨r, cidrs, hr, ?_, fun x => ?_, hall.disjoint, hall.wide, hall.length⟩
  · rw [pfbDnsblAbpRegexIp4Cidrs, htexts, Option.getD_some]
  · rw [hall.holds, List.nil_append, hcovered, hmember _ fun o ho => quadOctets_lt ho, hmatch]

/-- A cover by single hosts. -/
def singles (start stop : Str) : Option (List Str) :=
  (readQuad start).bind fun s => (readQuad stop).map fun e =>
    let first := s.foldl (fun n o => 256 * n + o) 0
    let last := e.foldl (fun n o => 256 * n + o) 0
    (List.range (last + 1 - first)).map fun i => long2ip (first + i) ++ "/32".toList

theorem singles_exact : ExactCover singles := by
  intro start stop texts hle hlt htexts
  have hread : ∀ n, readQuad (long2ip n) = some (quadOctets n) := fun n =>
    readQuad_quadText rfl fun o ho => quadOctets_lt ho
  have hvalue : ∀ n < 2 ^ 32, (quadOctets n).foldl (fun n o => 256 * n + o) 0 = n := by
    intro n hn
    simp only [quadOctets, List.foldl_cons, List.foldl_nil]
    omega
  rw [singles, hread, hread, Option.bind_some, Option.map_some, hvalue _ (by omega),
    hvalue _ hlt] at htexts
  obtain rfl := Option.some.inj htexts
  have hnet : ∀ i, (start + i) % 2 ^ 32 < 2 ^ 32 := fun i => Nat.mod_lt _ (by decide)
  have hcontains : ∀ i x, (⟨(start + i) % 2 ^ 32, 32, hnet i, le_rfl⟩ : Cidr).Contains x ↔
      x = (start + i) % 2 ^ 32 := by
    intro i x
    simp [Cidr.Contains]
  refine ⟨(List.range (stop + 1 - start)).map fun i => ⟨(start + i) % 2 ^ 32, 32, hnet i, le_rfl⟩,
    ?_, ?_, fun x => ?_⟩
  · rw [List.map_map]
    refine List.map_congr_left fun i hi => ?_
    have hmod : (start + i) % 2 ^ 32 = start + i := by
      rw [List.mem_range] at hi
      exact Nat.mod_eq_of_lt (by omega)
    simp only [Function.comp_apply, Cidr.text, hmod]
    rfl
  · refine List.pairwise_map.mpr (List.pairwise_lt_range.imp_of_mem fun {i k} hi hk hik x hx => ?_)
    rw [hcontains, hcontains] at hx
    rw [List.mem_range] at hi hk
    omega
  · simp only [Holds, List.mem_map, List.mem_range]
    constructor
    · rintro ⟨-, ⟨i, hi, rfl⟩, hx⟩
      rw [hcontains] at hx
      omega
    · rintro ⟨hfirst, hlast⟩
      refine ⟨_, ⟨x - start, by omega, rfl⟩, (hcontains _ _).mpr ?_⟩
      omega

/-- A rule of two hosts with a scheme and a path. -/
def hostRule : Str := "/^(.*://)?1\\.2\\.3\\.(4|5)(/.*)?$/".toList

def hostEnv : Env := ⟨false, fun _ _ => false, false, singles⟩

theorem regex_rule_exact_hosts : ∃ r cidrs, readRegex false (ruleText hostRule) = some r ∧
    pfbDnsblAbpRegexIp4Cidrs hostEnv hostRule = cidrs.map Cidr.text ∧
    (∀ x, Holds cidrs x ↔ x < 2 ^ 32 ∧ pregMatch r (long2ip x) = true) ∧
    cidrs.Pairwise Cidr.Disjoint ∧ (∀ c ∈ cidrs, 16 ≤ c.len) ∧ cidrs.length ≤ 256 :=
  regex_rule_exact hostEnv singles_exact hostRule (by decide +kernel)

end PfBlockerNG.OctetRegexExact
