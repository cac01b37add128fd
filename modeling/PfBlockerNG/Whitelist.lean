import PfBlockerNG.Bands
import PfBlockerNG.TopElement
import Mathlib.Order.Nat

/-!
The two walks over whiteDB: the fast path asks whether some entry matches a name, the
numeric path for the highest band among the entries that do.
-/

namespace PfBlockerNG.Whitelist

open PfBlockerNG.Strings
open PfBlockerNG.OrderedDict
open PfBlockerNG.Bands
open PfBlockerNG.TopElement

abbrev WhiteDb := Dict Str WhiteEntry

def www : Str := "www.".toList

/-- `name[4:]` of a name that starts with `www.`. -/
def wwwStrip (name : Str) : Option Str := if startsWith www name then some (name.drop 4) else none

/-- `q`, its parent and so on, each with the counter of the loop. -/
def suffixWalk : Nat → Str → List (Nat × Str)
  | 0, _ => []
  | x + 1, q => (x + 1, q) :: suffixWalk x (parent q)

/-- The wildcard walk of a name, from its parent up. -/
def whiteWalk (name : Str) : List (Nat × Str) :=
  suffixWalk (dots (parent name) + 1) (parent name)

/-- The wildcard entry one step of the walk finds. -/
def walkEntry (db : WhiteDb) (tldSeg : Int) (step : Nat × Str) : Option WhiteEntry :=
  if tldSeg ≤ step.1 then (db.get step.2).filter WhiteEntry.wildcard else none

/-- `whitelist_lookup_domain`: whether an entry matches and whether the first is
important. -/
def whitelistLookupDomain (name : Str) (db : WhiteDb) (tldSeg : Int) : Bool × Bool :=
  match db.get name with
  | some entry => (true, entry.important)
  | none =>
      match (wwwStrip name).bind db.get with
      | some entry => (true, entry.important)
      | none =>
          match (whiteWalk name).findSome? (walkEntry db tldSeg) with
          | some entry => (true, entry.important)
          | none => (false, false)

/-- `whitelist_check_domain`. -/
def whitelistCheckDomain (name : Str) (db : WhiteDb) (tldSeg : Int) : Bool :=
  (whitelistLookupDomain name db tldSeg).1

/-- Band of the entry found, if one is. -/
def bandFound (entry : Option WhiteEntry) : Option Nat := entry.map fun e => e.band.prio

/-- `whitelist_lookup_band`. -/
def whitelistLookupBand (name : Str) (db : WhiteDb) (tldSeg : Int) : Nat :=
  let exact := join 0 (bandFound (db.get name))
  if exact = AllowBand.user.prio then exact
  else
    let stripped := join exact (bandFound ((wwwStrip name).bind db.get))
    if stripped = AllowBand.user.prio then stripped
    else
      (whiteWalk name).foldl (fun best step => join best (bandFound (walkEntry db tldSeg step)))
        stripped

/-- An entry of `db` matches `name`: exactly, after a `www.` strip, or as a wildcard
proper parent of at least `tldSeg` labels. -/
def Matches (db : WhiteDb) (tldSeg : Int) (name : Str) (e : WhiteEntry) : Prop :=
  db.get name = some e ∨ (∃ rest, name = www ++ rest ∧ db.get rest = some e) ∨
    ∃ p k, name = p ++ '.' :: k ∧ tldSeg ≤ dots k + 1 ∧ db.get k = some e ∧ e.wildcard = true

/-- Bands of the matching entries. -/
def whiteBands (db : WhiteDb) (tldSeg : Int) (name : Str) : Set Nat :=
  {r | ∃ e, Matches db tldSeg name e ∧ r = e.band.prio}

theorem wwwStrip_eq_some_iff (name rest : Str) :
    wwwStrip name = some rest ↔ name = www ++ rest := by
  unfold wwwStrip startsWith
  split
  · rename_i h
    obtain ⟨t, rfl⟩ := List.isPrefixOf_iff_prefix.mp h
    rw [Option.some.injEq, show 4 = www.length from rfl, List.drop_left, List.append_right_inj]
  · rename_i h
    simp only [reduceCtorEq, false_iff]
    rintro rfl
    exact h (List.isPrefixOf_iff_prefix.mpr (List.prefix_append _ _))

theorem mem_suffixWalk_iff (q k : Str) (x : Nat) :
    (x, k) ∈ suffixWalk (dots q + 1) q ↔ DottedSuffix k q ∧ x = dots k + 1 := by
  generalize hn : dots q = n
  induction n generalizing q with
  | zero =>
      have hnone := (dots_eq_zero_iff q).mp hn
      simp only [suffixWalk, List.mem_singleton, Prod.mk.injEq, dottedSuffix_iff k q, hnone,
        reduceCtorEq, false_and, exists_false, or_false]
      constructor
      · rintro ⟨rfl, rfl⟩
        exact ⟨rfl, by omega⟩
      · rintro ⟨rfl, rfl⟩
        exact ⟨by omega, rfl⟩
  | succ n ih =>
      cases ht : after '.' q with
      | none =>
          rw [(dots_eq_zero_iff q).mpr ht] at hn
          cases hn
      | some t =>
          have hdots : dots t = n := by
            rw [dots_of_after ht] at hn
            omega
          rw [suffixWalk, List.mem_cons, parent_of_after ht, ih t hdots, dottedSuffix_iff k q, ht]
          simp only [Prod.mk.injEq, Option.some.injEq, exists_eq_left']
          constructor
          · rintro (⟨rfl, rfl⟩ | ⟨hk, rfl⟩)
            · exact ⟨Or.inl rfl, by omega⟩
            · exact ⟨Or.inr hk, rfl⟩
          · rintro ⟨rfl | hk, rfl⟩
            · exact Or.inl ⟨by omega, rfl⟩
            · exact Or.inr ⟨hk, rfl⟩

/-- The walk of a dotted name visits its proper parents; that of a single label visits
the label itself. -/
theorem mem_whiteWalk_iff (name k : Str) (x : Nat) :
    (x, k) ∈ whiteWalk name ↔
      ((∃ p, name = p ++ '.' :: k) ∨ (dots name = 0 ∧ k = name)) ∧ x = dots k + 1 := by
  rw [whiteWalk, mem_suffixWalk_iff, exists_prefix_iff]
  cases ht : after '.' name with
  | none =>
      have hdots := (dots_eq_zero_iff name).mpr ht
      have hparent : parent name = name := by simp [parent, ht]
      rw [hparent, dottedSuffix_iff k name, ht]
      simp [hdots]
  | some t =>
      have hdots : dots name ≠ 0 := by
        rw [dots_of_after ht]
        omega
      rw [parent_of_after ht]
      simp [hdots]

theorem walkEntry_eq_some_iff {db : WhiteDb} {tldSeg : Int} {x : Nat} {k : Str} {e : WhiteEntry} :
    walkEntry db tldSeg (x, k) = some e ↔
      tldSeg ≤ x ∧ db.get k = some e ∧ e.wildcard = true := by
  unfold walkEntry
  split <;> simp [*, Option.filter_eq_some_iff]

/-- The matching entries are those the three lookups find. -/
theorem matches_iff (db : WhiteDb) (tldSeg : Int) (name : Str) (e : WhiteEntry) :
    Matches db tldSeg name e ↔ db.get name = some e ∨ (wwwStrip name).bind db.get = some e ∨
      ∃ step ∈ whiteWalk name, walkEntry db tldSeg step = some e := by
  have hwww : (wwwStrip name).bind db.get = some e ↔
      ∃ rest, name = www ++ rest ∧ db.get rest = some e := by
    simp only [Option.bind_eq_some_iff, wwwStrip_eq_some_iff]
  rw [Matches, hwww]
  constructor
  · rintro (h | h | ⟨p, k, hname, hseg, hk⟩)
    · exact Or.inl h
    · exact Or.inr (Or.inl h)
    · exact Or.inr (Or.inr ⟨(dots k + 1, k), (mem_whiteWalk_iff _ _ _).mpr ⟨Or.inl ⟨p, hname⟩, rfl⟩,
        walkEntry_eq_some_iff.mpr ⟨by exact_mod_cast hseg, hk⟩⟩)
  · rintro (h | h | ⟨⟨x, k⟩, hstep, hentry⟩)
    · exact Or.inl h
    · exact Or.inr (Or.inl h)
    · obtain ⟨hk, rfl⟩ := (mem_whiteWalk_iff _ _ _).mp hstep
      obtain ⟨hseg, hget, hwild⟩ := walkEntry_eq_some_iff.mp hentry
      rcases hk with ⟨p, hname⟩ | ⟨-, rfl⟩
      · exact Or.inr (Or.inr ⟨p, k, hname, by exact_mod_cast hseg, hget, hwild⟩)
      · exact Or.inl hget

/-- An entry of `k` reaches `name`; only a wildcard reaches below `k`. -/
def Reaches (tldSeg : Int) (k name : Str) (wildcard : Bool) : Prop :=
  name = k ∨ name = www ++ k ∨
    ((∃ p, name = p ++ '.' :: k) ∧ tldSeg ≤ dots k + 1 ∧ wildcard = true)

theorem Reaches.mono {tldSeg : Int} {k name : Str} {w : Bool} (h : Reaches tldSeg k name w) :
    Reaches tldSeg k name true := by
  rcases h with h | h | ⟨hp, hseg, -⟩
  · exact Or.inl h
  · exact Or.inr (Or.inl h)
  · exact Or.inr (Or.inr ⟨hp, hseg, rfl⟩)

theorem matches_iff_reaches (db : WhiteDb) (tldSeg : Int) (name : Str) (e : WhiteEntry) :
    Matches db tldSeg name e ↔ ∃ k, db.get k = some e ∧ Reaches tldSeg k name e.wildcard := by
  unfold Matches Reaches
  constructor
  · rintro (hget | ⟨rest, hname, hget⟩ | ⟨p, k, hname, hseg, hget, hwild⟩)
    · exact ⟨name, hget, Or.inl rfl⟩
    · exact ⟨rest, hget, Or.inr (Or.inl hname)⟩
    · exact ⟨k, hget, Or.inr (Or.inr ⟨⟨p, hname⟩, hseg, hwild⟩)⟩
  · rintro ⟨k, hget, rfl | hname | ⟨⟨p, hname⟩, hseg, hwild⟩⟩
    · exact Or.inl hget
    · exact Or.inr (Or.inl ⟨k, hname, hget⟩)
    · exact Or.inr (Or.inr ⟨p, k, hname, hseg, hget, hwild⟩)

/-- The fast path's answer is whether some entry matches. -/
theorem whitelistCheckDomain_iff (name : Str) (db : WhiteDb) (tldSeg : Int) :
    whitelistCheckDomain name db tldSeg = true ↔ ∃ e, Matches db tldSeg name e := by
  simp only [matches_iff, whitelistCheckDomain, whitelistLookupDomain]
  cases hexact : db.get name with
  | some e => simp
  | none =>
      cases hwww : (wwwStrip name).bind db.get with
      | some e => exact iff_of_true rfl ⟨e, Or.inr (Or.inl rfl)⟩
      | none =>
          cases hwalk : (whiteWalk name).findSome? (walkEntry db tldSeg) with
          | some e =>
              obtain ⟨step, hstep, he⟩ := List.exists_of_findSome?_eq_some hwalk
              exact iff_of_true rfl ⟨e, Or.inr (Or.inr ⟨step, hstep, he⟩)⟩
          | none =>
              rw [List.findSome?_eq_none_iff] at hwalk
              refine iff_of_false (by simp) ?_
              rintro ⟨e, h | h | ⟨step, hstep, he⟩⟩
              · cases h
              · cases h
              · rw [hwalk step hstep] at he
                cases he

/-- The numeric path's answer is the highest band among the matching entries. -/
theorem top_whitelistLookupBand (name : Str) (db : WhiteDb) (tldSeg : Int) :
    Top (whiteBands db tldSeg name) (whitelistLookupBand name db tldSeg) := by
  have hsplit : whiteBands db tldSeg name =
      (∅ ∪ {r | bandFound (db.get name) = some r} ∪
        {r | bandFound ((wwwStrip name).bind db.get) = some r}) ∪
        {r | ∃ step ∈ whiteWalk name, bandFound (walkEntry db tldSeg step) = some r} := by
    ext r
    simp only [whiteBands, matches_iff, Set.mem_union, Set.mem_ofPred_eq, Set.mem_empty_iff_false,
      false_or, bandFound, Option.map_eq_some_iff]
    grind
  have hcap : ∀ r ∈ whiteBands db tldSeg name, r ≤ AllowBand.user.prio := by
    rintro r ⟨e, -, rfl⟩
    exact e.band.prio_le
  rw [hsplit] at hcap ⊢
  have hexact : Top _ (join 0 (bandFound (db.get name))) := top_empty.join _
  have hwww := hexact.join (bandFound ((wwwStrip name).bind db.get))
  have hwalk := hwww.foldl (fun step => bandFound (walkEntry db tldSeg step)) (whiteWalk name)
  dsimp only [whitelistLookupBand]
  split
  · rename_i h
    rw [Set.union_assoc] at hcap ⊢
    exact hexact.union_of_le fun r hr => h ▸ hcap r (Or.inr hr)
  · split
    · rename_i h
      exact hwww.union_of_le fun r hr => h ▸ hcap r (Or.inr hr)
    · exact hwalk

end PfBlockerNG.Whitelist
