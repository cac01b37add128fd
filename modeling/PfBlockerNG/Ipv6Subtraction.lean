import PfBlockerNG.LivePunch

/-!
The IPv6 subtraction as a whole: the CIDRs it returns and the tokens it reports.
-/

namespace PfBlockerNG.Ipv6Subtraction

open PfBlockerNG.Strings
open PfBlockerNG.IpText
open PfBlockerNG.BinaryStrings
open PfBlockerNG.CidrSubtract
open PfBlockerNG.LivePunch

section Reading

variable (T : Ipv6Text)

/-- A token the subtraction takes no notice of. -/
def isSilent (token : Str) : Bool :=
  trim token == [] || startsWith ['#'] (trim token)

/-- The token names an IPv6 address or subnet. -/
def isParsable (token : Str) : Bool := (entryOf T (trim token)).any (·.width == 128)

end Reading

variable {T : Ipv6Text} {cover : Cover}

theorem isParsable_iff {token : Str} :
    isParsable T token = true ↔ ∃ s l, pfbV6CidrToRange T token = .range s l := by
  unfold isParsable
  rw [Option.any_eq_true]
  constructor
  · rintro ⟨b, hb, hwidth⟩
    exact ⟨b.first, b.last,
      pfbV6CidrToRange_eq_range_iff.mpr ⟨b, hb, beq_iff_eq.mp hwidth, rfl, rfl⟩⟩
  · rintro ⟨s, l, hrange⟩
    obtain ⟨b, hb, hwidth, -⟩ := pfbV6CidrToRange_eq_range_iff.mp hrange
    exact ⟨b, hb, beq_iff_eq.mpr hwidth⟩

theorem isSilent_iff {token : Str} :
    isSilent token = true ↔ pfbV6CidrToRange T token = .blank := by
  have hpacked : ∀ addr bits, packedRange T addr bits ≠ .blank := by
    intro addr bits
    unfold packedRange
    split
    · exact ParsedRange.noConfusion
    · split <;> exact ParsedRange.noConfusion
  unfold isSilent pfbV6CidrToRange
  rw [Bool.or_eq_true, beq_iff_eq]
  simp only
  split
  · next hsilent => exact iff_of_true hsilent rfl
  · next hsilent =>
      refine iff_of_false hsilent ?_
      split
      · split
        · exact hpacked _ _
        · exact ParsedRange.noConfusion
      · split
        · exact hpacked _ _
        · exact ParsedRange.noConfusion

/-- The malformed tokens are those that say something and name no block. -/
theorem malformed_eq (tokens : List Str) :
    malformed T tokens = tokens.filter (fun token => !isSilent token && !isParsable T token) := by
  refine List.filter_congr fun token _ => ?_
  rw [Bool.eq_iff_iff, beq_iff_eq, Bool.and_eq_true, Bool.not_eq_true', Bool.not_eq_true',
    ← Bool.not_eq_true, ← Bool.not_eq_true, isParsable_iff, isSilent_iff (T := T)]
  cases pfbV6CidrToRange T token with
  | blank => simp
  | malformed => simp
  | range s l => simp

/-- What the subtraction returns covers the IPv6 addresses of the parsable entries outside the
parsable holes, and it reports the other tokens that are neither blank nor comments. -/
theorem subtraction_exact (hcover : ExactCover T cover) (cidrs holes : List Str) :
    (∀ a, Covers T (pfbCidrSubtractV6 T cover cidrs holes).1 a ↔
      Covers T ((cidrs.filter (isParsable T)).map trim) a ∧
        ¬ Covers T ((holes.filter (isParsable T)).map trim) a) ∧
      (pfbCidrSubtractV6 T cover cidrs holes).2 =
        (cidrs ++ holes).filter (fun token => !isSilent token && !isParsable T token) := by
  have hparsable : ∀ {tokens : List Str} {a : Addr},
      Covers T ((tokens.filter (isParsable T)).map trim) a ↔
        a.length = 128 ∧ Covers T (tokens.map trim) a := by
    intro tokens a
    constructor
    · rintro ⟨u, hu, b, hb, hlen, hstart⟩
      obtain ⟨t, ht, rfl⟩ := List.mem_map.mp hu
      obtain ⟨ht, hpars⟩ := List.mem_filter.mp ht
      obtain ⟨b', hb', hwidth⟩ := (Option.any_eq_true _ _).mp hpars
      obtain rfl := Option.some.inj (hb'.symm.trans hb)
      exact ⟨hlen.trans (beq_iff_eq.mp hwidth), _, List.mem_map_of_mem ht, b', hb, hlen, hstart⟩
    · rintro ⟨ha, u, hu, b, hb, hlen, hstart⟩
      obtain ⟨t, ht, rfl⟩ := List.mem_map.mp hu
      refine ⟨_, List.mem_map_of_mem (List.mem_filter.mpr ⟨ht, ?_⟩), b, hb, hlen, hstart⟩
      exact (Option.any_eq_true _ _).mpr ⟨b, hb, beq_iff_eq.mpr (hlen.symm.trans ha)⟩
  refine ⟨fun a => ?_, ?_⟩
  · rw [covers_pfbCidrSubtractV6 hcover, hparsable, hparsable]
    constructor
    · rintro ⟨ha, hin, hout⟩
      exact ⟨⟨ha, hin⟩, fun h => hout h.2⟩
    · rintro ⟨⟨ha, hin⟩, hout⟩
      exact ⟨ha, hin, fun h => hout ⟨ha, h⟩⟩
  · rw [List.filter_append, ← malformed_eq, ← malformed_eq]
    rfl

/-- The last pair of the address space without its last address, and a token that is no address. -/
theorem subtraction_exact_pair :
    (pfbCidrSubtractV6 fullForm (singles fullForm)
      ["ffff:ffff:ffff:ffff:ffff:ffff:ffff:fffe/127".toList, "10.0.0.1".toList]
      ["ffff:ffff:ffff:ffff:ffff:ffff:ffff:ffff".toList, "# none".toList]).2 =
        ["10.0.0.1".toList] ∧
    ∀ a, Covers fullForm (pfbCidrSubtractV6 fullForm (singles fullForm)
        ["ffff:ffff:ffff:ffff:ffff:ffff:ffff:fffe/127".toList, "10.0.0.1".toList]
        ["ffff:ffff:ffff:ffff:ffff:ffff:ffff:ffff".toList, "# none".toList]).1 a ↔
      Covers fullForm
          ((["ffff:ffff:ffff:ffff:ffff:ffff:ffff:fffe/127".toList, "10.0.0.1".toList].filter
            (isParsable fullForm)).map trim) a ∧
        ¬ Covers fullForm
          ((["ffff:ffff:ffff:ffff:ffff:ffff:ffff:ffff".toList, "# none".toList].filter
            (isParsable fullForm)).map trim) a := by
  obtain ⟨hcovers, herrors⟩ := subtraction_exact (T := fullForm) singles_exact
    ["ffff:ffff:ffff:ffff:ffff:ffff:ffff:fffe/127".toList, "10.0.0.1".toList]
    ["ffff:ffff:ffff:ffff:ffff:ffff:ffff:ffff".toList, "# none".toList]
  exact ⟨herrors.trans (by decide +kernel), hcovers⟩

end PfBlockerNG.Ipv6Subtraction
