import PfBlockerNG.RegexRules

/-!
The cost an admitted pattern is given bounds the search tree of a failed search.
The bound of a branch is read from its right end: an element costs its own nodes
and multiplies what follows it, unless it hands nothing on.
-/

namespace PfBlockerNG.RegexCost

open PfBlockerNG.Strings
open PfBlockerNG.Backtracking
open PfBlockerNG.RegexRules

/-- An optional iteration and the end after it are one node, and the end of a branch
is a node only when the branch is empty. -/
def merged : Charge := ⟨false, false⟩

abbrev hostEnds (name : Str) (r : HostRe) (i : Nat) : List Nat :=
  ends Atom.matches Zero.holds name r i

abbrev hostNodes (name : Str) (r : HostRe) (i : Nat) : Nat :=
  nodes Atom.matches Zero.holds name merged r i

/-- `re.search` of an admitted pattern. -/
def found (a : Admitted) (name : Str) : Bool := search Atom.matches Zero.holds name a.re

/-- `n` is within `bound`, or `bound` is saturated. -/
def Within (bound n : Nat) : Prop := n ≤ bound ∨ costSaturation ≤ bound

theorem Within.of_le {bound n : Nat} (h : n ≤ bound) : Within bound n := Or.inl h

theorem Within.mono {bound n m : Nat} (h : Within bound n) (hm : m ≤ n) : Within bound m :=
  h.imp_left hm.trans

theorem Within.add {a b m n : Nat} (ha : Within a m) (hb : Within b n) :
    Within (a + b) (m + n) := by
  rcases ha with ha | ha
  · rcases hb with hb | hb
    · exact Or.inl (Nat.add_le_add ha hb)
    · exact Or.inr (by omega)
  · exact Or.inr (by omega)

theorem Within.mul {a b m n : Nat} (ha : Within a m) (hb : Within b n) :
    Within (a * b) (m * n) := by
  rcases ha with ha | ha
  · rcases hb with hb | hb
    · exact Or.inl (Nat.mul_le_mul ha hb)
    · rcases Nat.eq_zero_or_pos a with rfl | hpos
      · exact Or.inl (by simp [Nat.le_zero.mp ha])
      · exact Or.inr (hb.trans (Nat.le_mul_of_pos_left b hpos))
  · rcases Nat.eq_zero_or_pos b with rfl | hpos
    · rcases hb with hb | hb
      · exact Or.inl (by simp [Nat.le_zero.mp hb])
      · exact absurd hb (by decide)
    · exact Or.inr (ha.trans (Nat.le_mul_of_pos_right a hpos))

theorem Within.saturate {bound n : Nat} (h : Within bound n) :
    Within (min bound costSaturation) n := by
  rcases Nat.le_total bound costSaturation with hle | hle
  · rwa [min_eq_left hle]
  · exact Or.inr (by rw [min_eq_right hle])

theorem Within.sum {bound len : Nat} {l : List Nat} {f : Nat → Nat} (hlen : Within len l.length)
    (h : ∀ k ∈ l, Within bound (f k)) : Within (len * bound) (l.map f).sum := by
  by_cases hsat : costSaturation ≤ bound
  · cases l with
    | nil => exact Or.inl (Nat.zero_le _)
    | cons k l =>
        have hpos : 0 < len := by
          rcases hlen with hlen | hlen
          · exact Nat.lt_of_lt_of_le (by simp) hlen
          · exact Nat.lt_of_lt_of_le (by decide) hlen
        exact Or.inr (hsat.trans (Nat.le_mul_of_pos_left bound hpos))
  · have hle : ∀ k ∈ l, f k ≤ bound := fun k hk => (h k hk).resolve_right hsat
    exact (hlen.mul (Within.of_le (le_refl bound))).mono (sum_map_le_mul hle)

/-! ### Elements -/

/-- What the numbers of a group's body say about its expression. -/
structure BodySound (name : Str) (body : Frame) : Prop where
  nodes_within : ∀ i, Within body.nodes (hostNodes name body.re i)
  ends_within : ∀ i, Within body.out (hostEnds name body.re i).length
  length_run : body.run.length = body.atoms

/-- The items the reading loop appends. -/
inductive ItemSound (name : Str) : Item → Prop
  | zeroWidth (z : Zero) : ItemSound name (Item.zeroWidth z)
  | leadingAnchor : ItemSound name Item.leadingAnchor
  | ofAtom (a : Atom) (q : Option Quantifier) : ItemSound name (Item.ofAtom a q)
  | ofGroup (body : Frame) (q : Option Quantifier) (hbody : BodySound name body)
      (hq : mayRepeat body q = true) : ItemSound name (Item.ofGroup body q)

/-- Nodes an item costs for each way to reach it. -/
def itemNodes (item : Item) : Nat := (itemCost false item [] 0 1).1

/-- Ways on after an item that hands its work on. -/
def itemWays (item : Item) : Nat := (itemCost false item [] 0 1).2

def dropsFactor (top : Bool) (item : Item) (rest : List Item) : Bool :=
  item.kind == .atom && item.quantified && handsNothingOn item rest top

def factor (top : Bool) (item : Item) (rest : List Item) : Nat :=
  if dropsFactor top item rest then 1 else itemWays item

theorem itemCost_eq (top : Bool) (item : Item) (rest : List Item) (nodes paths : Nat) :
    itemCost top item rest nodes paths =
      (nodes + paths * itemNodes item, paths * factor top item rest) := by
  have hnothing : handsNothingOn item [] false = false := rfl
  simp only [factor, dropsFactor, itemNodes, itemWays, itemCost, hnothing]
  by_cases hatom : item.kind = .atom
  · cases hq : item.quantified
    · simp [hatom]
    · cases hh : handsNothingOn item rest top <;> simp [hatom]
  · simp only [hatom, false_and, if_false]
    split
    · simp [Nat.mul_add, hatom]
    · split
      · simp [Nat.mul_assoc, hatom]
      · split <;> simp [hatom]

theorem attempts_repeated (a : Atom) (q : Quantifier) :
    attempts (Item.repeated a q) = q.high.elim regexCostUnbounded (· - q.low + 1) := by
  cases h : q.high <;> simp [attempts, Item.repeated, h]

/-- Iterations of a repeat on a name fit its attempts. -/
theorem capped_lt_attempts {name : Str} (hlen : name.length ≤ 253) (q : Quantifier) {n : Nat}
    (hn : n ≤ name.length) :
    capped q.high n + 1 ≤ q.low + q.high.elim regexCostUnbounded (· - q.low + 1) := by
  cases hhigh : q.high with
  | none =>
      simp only [capped, Option.elim, regexCostUnbounded]
      omega
  | some h =>
      have hordered := q.ordered h (by simp [hhigh])
      have hcap := capped_le_high (h := h) n
      simp only [Option.elim]
      omega

theorem itemNodes_repeated (a : Atom) (q : Quantifier) :
    itemNodes (Item.repeated a q) = q.low + attempts (Item.repeated a q) := by
  simp [itemNodes, itemCost, Item.repeated]

theorem itemWays_repeated (a : Atom) (q : Quantifier) :
    itemWays (Item.repeated a q) = attempts (Item.repeated a q) := by
  have hnothing : handsNothingOn (Item.repeated a q) [] false = false := rfl
  simp only [itemWays, itemCost, hnothing]
  simp [Item.repeated]

/-- A repeated group that is not optional is charged as the run it repeats. -/
theorem itemCost_ofGroup_run {body : Frame} {q : Quantifier} (hq : q.isOptional = false) :
    itemNodes (Item.ofGroup body (some q)) =
        body.atoms * (q.low + q.high.elim regexCostUnbounded (· - q.low + 1)) ∧
      itemWays (Item.ofGroup body (some q)) =
        q.high.elim regexCostUnbounded (· - q.low + 1) := by
  have hopt : ¬ (q.low = 0 ∧ q.high = some 1) := by
    simpa [Quantifier.isOptional] using hq
  have hattempts : attempts (Item.ofGroup body (some q)) =
      q.high.elim regexCostUnbounded (· - q.low + 1) := by
    cases h : q.high <;> simp [attempts, Item.ofGroup, h]
  simp only [itemNodes, itemWays, itemCost, hattempts]
  simp [Item.ofGroup, hopt]

theorem itemCost_ofGroup_optional {body : Frame} {q : Quantifier} (hq : q.isOptional = true) :
    itemNodes (Item.ofGroup body (some q)) = 1 + body.nodes ∧
      itemWays (Item.ofGroup body (some q)) = 1 + body.out := by
  have hopt : q.low = 0 ∧ q.high = some 1 := by
    simpa [Quantifier.isOptional] using hq
  simp [itemNodes, itemWays, itemCost, Item.ofGroup, hopt]

theorem length_ends_atom_le (name : Str) (a : Atom) (i : Nat) :
    (hostEnds name (.atom a) i).length ≤ 1 := by
  simp only [hostEnds, ends]
  split <;> simp

theorem length_ends_zero_le (name : Str) (z : Zero) (i : Nat) :
    (hostEnds name (.zero z) i).length ≤ 1 := by
  simp only [hostEnds, ends]
  split <;> simp

/-- The nodes of an item and the ways it can end are within its numbers. -/
theorem itemSound_within {name : Str} (hlen : name.length ≤ 253) {item : Item}
    (h : ItemSound name item) (i : Nat) :
    Within (itemNodes item) (hostNodes name item.re i) ∧
      Within (itemWays item) (hostEnds name item.re i).length := by
  cases h with
  | zeroWidth z =>
      exact ⟨Within.of_le (length_ends_zero_le name z i),
        Within.of_le (length_ends_zero_le name z i)⟩
  | leadingAnchor => exact ⟨Within.of_le (Nat.zero_le _), Within.of_le (le_refl 1)⟩
  | ofAtom a q =>
      cases q with
      | none =>
          exact ⟨Within.of_le (length_ends_atom_le name a i),
            Within.of_le (length_ends_atom_le name a i)⟩
      | some q =>
          have hcap := capped_lt_attempts hlen q (stretch_le Atom.matches name a i)
          rw [Item.ofAtom, itemNodes_repeated, itemWays_repeated, attempts_repeated]
          constructor
          · exact Within.of_le ((nodes_rep_le _ _ _ rfl a q.low q.high q.lazy i).trans hcap)
          · refine Within.of_le ?_
            rw [Item.repeated, hostEnds, length_ends_rep]
            omega
  | ofGroup body q hbody hq =>
      cases q with
      | none =>
          constructor
          · simpa [itemNodes, itemCost, Item.ofGroup, hostNodes, nodes, merged, Charge.ofBranch]
              using hbody.nodes_within i
          · simpa [itemWays, itemCost, Item.ofGroup, hostEnds, ends] using hbody.ends_within i
      | some q =>
          cases hopt : q.isOptional with
          | true =>
              rw [(itemCost_ofGroup_optional hopt).1, (itemCost_ofGroup_optional hopt).2]
              have hre : (Item.ofGroup body (some q)).re = .opt body.re q.lazy := by
                simp [Item.ofGroup, hopt]
              rw [hre]
              constructor
              · have hone := (Within.of_le (le_refl 1)).add (hbody.nodes_within i)
                rw [Nat.add_comm 1 (hostNodes name body.re i)] at hone
                exact hone
              · have hone := (Within.of_le (le_refl 1)).add (hbody.ends_within i)
                refine hone.mono ?_
                cases q.lazy <;> simp [hostEnds, ends, Nat.add_comm]
          | false =>
              have hrun : 0 < body.run.length := by
                rw [hbody.length_run]
                simp only [mayRepeat, Option.all_some, hopt, Bool.false_or, Bool.and_eq_true,
                  bne_iff_ne] at hq
                exact Nat.pos_of_ne_zero hq.2
              have hcap := capped_lt_attempts hlen q (le_refl name.length)
              rw [(itemCost_ofGroup_run hopt).1, (itemCost_ofGroup_run hopt).2]
              have hre : (Item.ofGroup body (some q)).re =
                  .run body.run q.low q.high q.lazy := by
                simp [Item.ofGroup, hopt]
              rw [hre]
              constructor
              · refine Within.of_le ((nodes_run_le _ _ _ rfl rfl hrun _ _ _ i).trans ?_)
                rw [← hbody.length_run, Nat.mul_comm]
                exact Nat.mul_le_mul_left _ hcap
              · refine Within.of_le ?_
                have hpasses := passes_le Atom.matches name body.run (capped q.high name.length) i
                rw [hostEnds, length_ends_run]
                omega

/-! ### Branches -/

/-- The elements of a branch, one after another. -/
def chain (items : List Item) : HostRe := items.foldr (fun item r => .cat item.re r) .eps

def branchNodes (top : Bool) : List Item → Nat
  | [] => 0
  | item :: rest => itemNodes item + factor top item rest * branchNodes top rest

def branchWays (top : Bool) : List Item → Nat
  | [] => 1
  | item :: rest => factor top item rest * branchWays top rest

theorem min_saturate_add (a b : Nat) :
    min (min a costSaturation + b) costSaturation = min (a + b) costSaturation := by
  omega

theorem min_add_saturate_mul (a p n : Nat) :
    min (a + min p costSaturation * n) costSaturation = min (a + p * n) costSaturation := by
  rcases Nat.le_total p costSaturation with hp | hp
  · rw [min_eq_left hp]
  · rw [min_eq_right hp]
    rcases Nat.eq_zero_or_pos n with rfl | hn
    · simp
    · have h₁ : costSaturation ≤ costSaturation * n := Nat.le_mul_of_pos_right _ hn
      have h₂ : costSaturation ≤ p * n := hp.trans (Nat.le_mul_of_pos_right _ hn)
      omega

/-- The accumulating loop computes the bound read from the right, saturated. -/
theorem branchLoop_eq (top : Bool) (items : List Item) {nodes paths : Nat}
    (hnodes : nodes ≤ costSaturation) (hpaths : paths ≤ costSaturation) :
    branchLoop top items nodes paths =
      (min (nodes + paths * branchNodes top items) costSaturation,
        min (paths * branchWays top items) costSaturation) := by
  induction items generalizing nodes paths with
  | nil => simp [branchLoop, branchNodes, branchWays, hnodes, hpaths]
  | cons item rest ih =>
      rw [branchLoop, itemCost_eq]
      simp only
      rw [ih (min_le_right _ _) (min_le_right _ _), branchNodes, branchWays]
      congr 1
      · rw [min_saturate_add, min_add_saturate_mul, Nat.mul_add, Nat.add_assoc, Nat.mul_assoc]
      · have hmul := min_add_saturate_mul 0 (paths * factor top item rest) (branchWays top rest)
        rwa [Nat.zero_add, Nat.zero_add, Nat.mul_assoc] at hmul

/-- A character that two atoms match is a common member of their sets. -/
theorem matches_disjoint {a b : Atom} (h : a.members &&& b.members = 0) {c : Char}
    (ha : a.matches c = true) : b.matches c = false := by
  have hbit : ∀ k, a.members.testBit k = true → b.members.testBit k = false := by
    intro k hk
    have := congrArg (Nat.testBit · k) h
    simpa [Nat.testBit_and, hk] using this
  by_contra hb
  rw [Bool.not_eq_false] at hb
  unfold Atom.matches at ha hb
  by_cases hc : c.toNat < 128
  · rw [if_pos hc] at ha hb
    rw [hbit _ ha] at hb
    cases hb
  · rw [if_neg hc] at ha hb
    have hcovers : ∀ x : Atom,
        (x.negated != x.escapes.any (ClassEscape.matchesLatin1 c.toNat)) = true →
          x.members.testBit 128 = true := by
      intro x hx
      refine x.covers ?_
      cases hneg : x.negated
      · refine Or.inr fun hnil => ?_
        simp [hneg, hnil] at hx
      · exact Or.inl rfl
    have := hbit _ (hcovers a ha)
    rw [hcovers b hb] at this
    cases this

theorem hit_disjoint {a b : Atom} (h : a.members &&& b.members = 0) {name : Str} {j : Nat}
    (ha : hit Atom.matches name a j = true) : hit Atom.matches name b j = false := by
  cases hget : name[j]? with
  | none => simp [hit, hget] at ha
  | some c =>
      rw [hit, hget, Option.any_some] at ha ⊢
      exact matches_disjoint h ha

/-- A mandatory atom dies where a disjoint atom matches. -/
theorem following_dead {name : Str} {a : Atom} {following : Item}
    (hf : ItemSound name following) (hkind : following.kind = .atom) (hlow : 1 ≤ following.low)
    (hdisjoint : a.members &&& following.members = 0) {j : Nat}
    (hj : hit Atom.matches name a j = true) :
    hostNodes name following.re j = 0 ∧ hostEnds name following.re j = [] := by
  cases hf with
  | zeroWidth z => cases hkind
  | leadingAnchor => cases hkind
  | ofGroup body q hbody hq => cases hkind
  | ofAtom b q =>
      cases q with
      | none => exact atom_dead _ _ _ (hit_disjoint hdisjoint hj)
      | some q => exact rep_dead _ _ _ hlow (hit_disjoint hdisjoint hj)

/-- What `handsNothingOn` leaves of a branch: only `$`, or a disjoint mandatory atom. -/
theorem dropsFactor_cases {name : Str} {top : Bool} {item : Item} {rest : List Item}
    (hitem : ItemSound name item) (h : dropsFactor top item rest = true) :
    ∃ a q, item = Item.repeated a q ∧
      ((top = true ∧ ∀ d ∈ rest, d.dollar = true) ∨
        ∃ following rest', rest = following :: rest' ∧ following.kind = .atom ∧
          1 ≤ following.low ∧ a.members &&& following.members = 0) := by
  simp only [dropsFactor, Bool.and_eq_true, beq_iff_eq] at h
  obtain ⟨⟨hkind, hquantified⟩, hhands⟩ := h
  cases hitem with
  | zeroWidth z => cases hkind
  | leadingAnchor => cases hkind
  | ofGroup body q hbody hq => cases hkind
  | ofAtom a q =>
      cases q with
      | none => cases hquantified
      | some q =>
          refine ⟨a, q, rfl, ?_⟩
          unfold handsNothingOn at hhands
          rw [Bool.or_eq_true] at hhands
          rcases hhands with hdollar | hfollowing
          · rw [Bool.and_eq_true, List.all_eq_true] at hdollar
            exact Or.inl hdollar
          · cases rest with
            | nil => cases hfollowing
            | cons following rest' =>
                simp only [Bool.and_eq_true, beq_iff_eq, decide_eq_true_eq] at hfollowing
                exact Or.inr ⟨following, rest', rfl, hfollowing.1.1, hfollowing.1.2, hfollowing.2⟩

/-- The work after one item: what each of its ends leads to, added up. -/
theorem within_rest {name : Str} (hlen : name.length ≤ 253) {top : Bool} {item : Item}
    {rest : List Item} (hitem : ItemSound name item) (hrest : ∀ x ∈ rest, ItemSound name x)
    {f : Nat → Nat} {bound i : Nat} (hbound : ∀ j ∈ hostEnds name item.re i, Within bound (f j))
    (hdollar : top = true → (∀ d ∈ rest, d.dollar = true) →
      ∀ j ∈ hostEnds name item.re i, f j = 0)
    (hdead : ∀ following rest', rest = following :: rest' → ∀ j,
      hostNodes name following.re j = 0 ∧ hostEnds name following.re j = [] → f j = 0) :
    Within (factor top item rest * bound) ((hostEnds name item.re i).map f).sum := by
  unfold factor
  cases hdrop : dropsFactor top item rest with
  | false => exact Within.sum (itemSound_within hlen hitem i).2 hbound
  | true =>
      rw [if_pos rfl, Nat.one_mul]
      obtain ⟨a, q, rfl, ⟨htop, hall⟩ | ⟨following, rest', rfl, hkind, hlow, hdisjoint⟩⟩ :=
        dropsFactor_cases hitem hdrop
      · refine Within.of_le ?_
        have hzero : ((hostEnds name (Item.repeated a q).re i).map f).sum = 0 := by
          refine List.sum_eq_zero fun x hx => ?_
          obtain ⟨j, hj, rfl⟩ := List.mem_map.mp hx
          exact hdollar htop hall j hj
        omega
      · by_cases hsat : costSaturation ≤ bound
        · exact Or.inr hsat
        · have hle := fun j hj => (hbound j hj).resolve_right hsat
          refine Within.of_le (sum_ends_rep_le _ _ _ hle fun j hj => ?_)
          exact hdead following rest' rfl j
            (following_dead (hrest following List.mem_cons_self) hkind hlow hdisjoint hj)

theorem nodes_chain_cons (name : Str) (item : Item) (rest : List Item) (i : Nat) :
    hostNodes name (chain (item :: rest)) i =
      hostNodes name item.re i +
        ((hostEnds name item.re i).map (hostNodes name (chain rest))).sum := rfl

theorem chain_dead {name : Str} {item : Item} {rest : List Item} {j : Nat}
    (h : hostNodes name item.re j = 0 ∧ hostEnds name item.re j = []) :
    hostNodes name (chain (item :: rest)) j = 0 ∧ hostEnds name (chain (item :: rest)) j = [] :=
  cat_dead _ _ _ h.1 h.2

/-- The bound of a branch of a group holds from every position. -/
theorem chain_within {name : Str} (hlen : name.length ≤ 253) {items : List Item}
    (hitems : ∀ x ∈ items, ItemSound name x) (i : Nat) :
    Within (branchNodes false items) (hostNodes name (chain items) i) ∧
      Within (branchWays false items) (hostEnds name (chain items) i).length := by
  induction items generalizing i with
  | nil => exact ⟨Within.of_le (le_refl 0), Within.of_le (le_refl 1)⟩
  | cons item rest ih =>
      have hitem := hitems item List.mem_cons_self
      have hrest := fun x hx => hitems x (List.mem_cons_of_mem _ hx)
      constructor
      · rw [nodes_chain_cons, branchNodes]
        refine (itemSound_within hlen hitem i).1.add
          (within_rest hlen hitem hrest (fun j _ => (ih hrest j).1) (fun h => by cases h) ?_)
        rintro following rest' rfl j hj
        exact (chain_dead hj).1
      · have hlength : (hostEnds name (chain (item :: rest)) i).length =
            ((hostEnds name item.re i).map fun j => (hostEnds name (chain rest) j).length).sum :=
          length_ends_cat _ _ _ _ _ _
        rw [hlength, branchWays]
        refine within_rest hlen hitem hrest (fun j _ => (ih hrest j).2) (fun h => by cases h) ?_
        rintro following rest' rfl j hj
        rw [(chain_dead hj).2]
        rfl

theorem re_of_dollar {name : Str} {item : Item} (h : ItemSound name item)
    (hdollar : item.dollar = true) : item.re = .zero .dollar := by
  cases h with
  | zeroWidth z => cases z <;> first | rfl | cases hdollar
  | leadingAnchor => cases hdollar
  | ofAtom a q => cases q <;> cases hdollar
  | ofGroup body q hbody hq => cases hdollar

/-- Where `$` holds, a tail of `$` matches. -/
theorem ends_dollars {name : Str} {items : List Item} (hitems : ∀ x ∈ items, ItemSound name x)
    (hall : ∀ d ∈ items, d.dollar = true) {j : Nat} (hj : Zero.dollar.holds name j = true) :
    hostEnds name (chain items) j = [j] := by
  induction items with
  | nil => rfl
  | cons item rest ih =>
      have hre := re_of_dollar (hitems item List.mem_cons_self) (hall item List.mem_cons_self)
      have hrest := ih (fun x hx => hitems x (List.mem_cons_of_mem _ hx))
        (fun d hd => hall d (List.mem_cons_of_mem _ hd))
      change (hostEnds name item.re j).flatMap (hostEnds name (chain rest)) = [j]
      rw [hre]
      simp [hostEnds, ends, hj, hrest]

/-- Where a branch of dollars fails, it fails at its first element. -/
theorem nodes_dollars {name : Str} {items : List Item} (hitems : ∀ x ∈ items, ItemSound name x)
    (hall : ∀ d ∈ items, d.dollar = true) {j : Nat} (hfail : hostEnds name (chain items) j = []) :
    hostNodes name (chain items) j = 0 := by
  cases items with
  | nil => rfl
  | cons item rest =>
      have hre := re_of_dollar (hitems item List.mem_cons_self) (hall item List.mem_cons_self)
      have hnot : Zero.dollar.holds name j ≠ true := by
        intro hj
        rw [ends_dollars hitems hall hj] at hfail
        cases hfail
      refine (chain_dead ?_).1
      rw [hre]
      simp [hostNodes, hostEnds, nodes, ends, hnot]

/-- The bound of a branch of the whole pattern holds where the branch fails. -/
theorem chain_within_of_fail {name : Str} (hlen : name.length ≤ 253) {items : List Item}
    (hitems : ∀ x ∈ items, ItemSound name x) {i : Nat}
    (hfail : hostEnds name (chain items) i = []) :
    Within (branchNodes true items) (hostNodes name (chain items) i) := by
  induction items generalizing i with
  | nil => exact Within.of_le (le_refl 0)
  | cons item rest ih =>
      have hitem := hitems item List.mem_cons_self
      have hrest := fun x hx => hitems x (List.mem_cons_of_mem _ hx)
      have hnext := ends_cat_eq_nil _ _ _ hfail
      rw [nodes_chain_cons, branchNodes]
      refine (itemSound_within hlen hitem i).1.add
        (within_rest hlen hitem hrest (fun j hj => ih hrest (hnext j hj)) ?_ ?_)
      · intro _ hall j hj
        exact nodes_dollars hrest hall (hnext j hj)
      · rintro following rest' rfl j hj
        exact (chain_dead hj).1

/-! ### Frames -/

theorem branchCost_eq (items : List Item) (top : Bool) (hne : items ≠ []) :
    branchCost items top =
      (min (branchNodes top items) costSaturation, min (branchWays top items) costSaturation) := by
  cases items with
  | nil => exact absurd rfl hne
  | cons item rest =>
      have h := branchLoop_eq top (item :: rest) (Nat.zero_le _) (show 1 ≤ costSaturation by decide)
      rw [Nat.zero_add, Nat.one_mul, Nat.one_mul] at h
      exact h

/-- The numbers of one branch bound its expression; in the whole pattern only where the
branch fails. -/
theorem branchCost_within {name : Str} (hlen : name.length ≤ 253) {items : List Item} {top : Bool}
    (hitems : ∀ x ∈ items, ItemSound name x) (i : Nat)
    (hfail : top = true → hostEnds name (branchRe items) i = []) :
    Within (branchCost items top).1 (hostNodes name (branchRe items) i) ∧
      (top = false →
        Within (branchCost items top).2 (hostEnds name (branchRe items) i).length) := by
  cases hitems' : items with
  | nil => exact ⟨Within.of_le (le_refl 1), fun _ => Within.of_le (le_refl 1)⟩
  | cons item rest =>
      have hne : items ≠ [] := by simp [hitems']
      have hre : branchRe items = chain items := by simp [branchRe, chain, hitems']
      rw [← hitems', branchCost_eq items top hne, hre]
      cases top with
      | false =>
          have h := chain_within hlen hitems i
          exact ⟨h.1.saturate, fun _ => h.2.saturate⟩
      | true =>
          refine ⟨(chain_within_of_fail hlen hitems ?_).saturate, fun h => by cases h⟩
          rw [← hre]
          exact hfail rfl

/-- What the numbers of a frame say about its current and its finished branches. -/
structure FrameSound (name : Str) (frame : Frame) : Prop where
  items : ∀ x ∈ frame.items, ItemSound name x
  nodes_within : ∀ i, (frame.top = true → ∀ r ∈ frame.finished, hostEnds name r i = []) →
    Within frame.nodes (frame.finished.map (hostNodes name · i)).sum
  ends_within : frame.top = false → ∀ i,
    Within frame.out (frame.finished.map fun r => (hostEnds name r i).length).sum
  length_run : frame.run.length = frame.atoms

theorem FrameSound.endBranch {name : Str} (hlen : name.length ≤ 253) {frame : Frame}
    (h : FrameSound name frame) : FrameSound name frame.endBranch where
  items := by simp [Frame.endBranch]
  nodes_within := by
    intro i hfail
    simp only [Frame.endBranch, List.map_append, List.map_cons, List.map_nil, List.sum_append,
      List.sum_cons, List.sum_nil, Nat.add_zero] at hfail ⊢
    have hold := h.nodes_within i fun htop r hr => hfail htop r (by simp [hr])
    exact (hold.add (branchCost_within hlen h.items i fun htop =>
      hfail htop _ (by simp)).1).saturate
  ends_within := by
    intro htop i
    simp only [Frame.endBranch, List.map_append, List.map_cons, List.map_nil, List.sum_append,
      List.sum_cons, List.sum_nil, Nat.add_zero] at htop ⊢
    refine ((h.ends_within htop i).add
      ((branchCost_within hlen h.items i ?_).2 htop)).saturate
    simp [htop]
  length_run := h.length_run

theorem FrameSound.append {name : Str} {frame frame' : Frame} (h : FrameSound name frame)
    (new : List Item) (hnew : ∀ x ∈ new, ItemSound name x)
    (hitems : frame'.items = frame.items ++ new) (htop : frame'.top = frame.top)
    (hnodes : frame'.nodes = frame.nodes) (hout : frame'.out = frame.out)
    (hfinished : frame'.finished = frame.finished) (hrun : frame'.run.length = frame'.atoms) :
    FrameSound name frame' where
  items := by
    intro x hx
    rw [hitems, List.mem_append] at hx
    exact hx.elim (h.items x) (hnew x)
  nodes_within := by
    rw [htop, hnodes, hfinished]
    exact h.nodes_within
  ends_within := by
    rw [htop, hout, hfinished]
    exact h.ends_within
  length_run := hrun

/-! ### The reading loop -/

/-- The stack of frames: the whole pattern at the bottom, groups above it. -/
inductive StackSound (name : Str) : Frame → List Frame → Prop
  | top {frame : Frame} (h : FrameSound name frame) (htop : frame.top = true) :
      StackSound name frame []
  | nested {frame enclosing : Frame} {outer : List Frame} (h : FrameSound name frame)
      (htop : frame.top = false) (houter : StackSound name enclosing outer) :
      StackSound name frame (enclosing :: outer)

theorem StackSound.frame {name : Str} {frame : Frame} {outer : List Frame}
    (h : StackSound name frame outer) : FrameSound name frame := by
  cases h with
  | top h htop => exact h
  | nested h htop houter => exact h

/-- Changing the innermost frame keeps the stack sound. -/
theorem StackSound.replace {name : Str} {frame frame' : Frame} {outer : List Frame}
    (h : StackSound name frame outer) (hframe : FrameSound name frame')
    (htop : frame'.top = frame.top) : StackSound name frame' outer := by
  cases h with
  | top h htop' => exact .top hframe (htop.trans htop')
  | nested h htop' houter => exact .nested hframe (htop.trans htop') houter

theorem scan_of_admitPattern {pattern : Str} {a : Admitted} (h : admitPattern pattern = .ok a) :
    ∃ s, scan pattern pattern.length { frame := { top := true } } = .ok s ∧
      finish pattern s = .ok a := by
  unfold admitPattern at h
  split at h
  · cases h
  · split at h
    · cases h
    · split at h
      · cases h
      · simp only [bind, Except.bind] at h
        split at h
        · cases h
        · rename_i s hscan
          exact ⟨s, hscan, h⟩

theorem regexAdmission_eq_admitted {pattern text : Str} {cost : Nat}
    (h : regexAdmission pattern = (cost, none, text)) :
    ∃ a, admitPattern pattern = .ok a ∧ a.cost = cost ∧ a.compileText = text := by
  unfold regexAdmission at h
  split at h
  · rename_i a ha
    simp only [Prod.mk.injEq, true_and] at h
    exact ⟨a, ha, h⟩
  · simp at h

end PfBlockerNG.RegexCost
