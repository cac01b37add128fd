import PfBlockerNG.Netip
import PfBlockerNG.OrderedDict

/-!
Access rules of the gateway: the rows of a config as a table by prefix, the lookup of a client by
the lengths present, and the longest match that the rows stand for.
-/

namespace PfBlockerNG.AccessRules

open PfBlockerNG.Netip
open PfBlockerNG.OrderedDict

/-- `ACLAction`. -/
inductive AclAction where
  | forward
  | drop
  | refuse
  deriving DecidableEq

structure AclRules where
  entries : Nat
  byPrefix : Dict Prefix AclAction
  bits4 : List Nat
  bits6 : List Nat

def unboundLocalhost : List Prefix :=
  [⟨.v4 0x7f000000, 8, by decide, by decide⟩, ⟨.v6 1 [], 128, by decide, by decide⟩]

/-- Every prefix of a list is allowed where it is not listed. -/
def allowUnlisted (rows : Dict Prefix AclAction) (prefixes : List Prefix) : Dict Prefix AclAction :=
  prefixes.foldl (fun rows p => if (rows.get p).isSome then rows else rows.set p .forward) rows

/-- Lengths of the prefixes of one family, longest first. -/
def lengths (rows : Dict Prefix AclAction) (is4 : Bool) : List Nat :=
  (List.range 129).reverse.filter fun b =>
    rows.keys.any fun p => p.addr.is4 == is4 && p.bits == b

/-- `newACLRules`. -/
def newAclRules (rows : Dict Prefix AclAction) : AclRules :=
  let byPrefix := allowUnlisted rows unboundLocalhost
  ⟨rows.length, byPrefix, lengths byPrefix true, lengths byPrefix false⟩

/-- `aclRules.lookup`. -/
def AclRules.lookup (r : AclRules) (client : Addr) : AclAction :=
  let bits := if client.is4 then r.bits4 else r.bits6
  (bits.findSome? fun b => (client.toPrefix b).bind r.byPrefix.get).getD .refuse

/-! ### What rows stand for -/

/-- A row as it is read: `access-control`, or one that allows implicitly. -/
inductive Row where
  | access (p : Prefix) (action : AclAction)
  | implicit (p : Prefix)
  deriving DecidableEq

/-- The action an access-control row gives a prefix. -/
def Row.names (p : Prefix) : Row → Option AclAction
  | .access q action => if q = p then some action else none
  | .implicit _ => none

/-- The action of a prefix: of its last access-control row, else `allow` where an implicit row or a
default names it. -/
def verdict (rows : List Row) (p : Prefix) : Option AclAction :=
  (rows.reverse.findSome? (Row.names p)).or
    (if .implicit p ∈ rows ∨ p ∈ unboundLocalhost then some .forward else none)

/-- The longest prefix that contains the client decides; without one the client is refused. -/
def Decides (rows : List Row) (client : Addr) (action : AclAction) : Prop :=
  (∃ p, p.Contains client.unmap ∧ verdict rows p = some action ∧
    ∀ q, q.Contains client.unmap → verdict rows q ≠ none → q.bits ≤ p.bits) ∨
  (action = .refuse ∧ ∀ p, p.Contains client.unmap → verdict rows p = none)

theorem eq_of_contains {p q : Prefix} {a : Addr} (hp : p.Contains a) (hq : q.Contains a)
    (h : p.bits = q.bits) : p = q :=
  Option.some.inj ((toPrefix_eq_some_iff.mpr ⟨h, hp⟩).symm.trans
    (toPrefix_eq_some_iff.mpr ⟨rfl, hq⟩))

theorem Decides.unique {rows : List Row} {client : Addr} {a b : AclAction}
    (ha : Decides rows client a) (hb : Decides rows client b) : a = b := by
  rcases ha with ⟨p, hp, hpa, hlongest⟩ | ⟨rfl, hnone⟩
  · rcases hb with ⟨q, hq, hqb, hlongest'⟩ | ⟨rfl, hnone⟩
    · have hbits : p.bits = q.bits :=
        le_antisymm (hlongest' p hp (by rw [hpa]; exact Option.some_ne_none _))
          (hlongest q hq (by rw [hqb]; exact Option.some_ne_none _))
      obtain rfl := eq_of_contains hp hq hbits
      exact Option.some.inj (hpa.symm.trans hqb)
    · cases hpa.symm.trans (hnone p hp)
  · rcases hb with ⟨q, hq, hqb, -⟩ | ⟨rfl, -⟩
    · cases hqb.symm.trans (hnone q hq)
    · rfl

/-! ### The table -/

theorem get_allowUnlisted (rows : Dict Prefix AclAction) (prefixes : List Prefix) (p : Prefix) :
    (allowUnlisted rows prefixes).get p =
      (rows.get p).or (if p ∈ prefixes then some .forward else none) := by
  unfold allowUnlisted
  induction prefixes generalizing rows with
  | nil => simp
  | cons q prefixes ih =>
      rw [List.foldl_cons, ih]
      by_cases hq : q = p
      · subst hq
        cases hget : rows.get q <;> simp [hget]
      · have hrest : (if (rows.get q).isSome then rows else rows.set q .forward).get p =
            rows.get p := by
          split
          · rfl
          · exact Dict.get_set_of_ne _ _ hq
        have hmem : p ∈ q :: prefixes ↔ p ∈ prefixes := by
          rw [List.mem_cons]
          exact or_iff_right fun heq => hq heq.symm
        simp only [hrest, hmem]

theorem contains_family {p : Prefix} {a : Addr} (h : p.Contains a) : p.addr.is4 = a.is4 := by
  unfold Prefix.Contains at h
  split at h
  · next hp => rw [hp]; rfl
  · next hp => rw [hp]; rfl
  · exact h.elim
  · exact h.elim

theorem bits_le (p : Prefix) : p.bits ≤ 128 := by
  have hfits := p.fits
  cases haddr : p.addr with
  | v4 bits =>
      rw [haddr] at hfits
      exact le_trans hfits (by simp [Addr.bitLen])
  | v6 bits zone =>
      rw [haddr] at hfits
      exact hfits

theorem mem_lengths {rows : Dict Prefix AclAction} {p : Prefix} (h : rows.get p ≠ none) :
    p.bits ∈ lengths rows p.addr.is4 := by
  obtain ⟨action, haction⟩ := Option.ne_none_iff_exists'.mp h
  refine List.mem_filter.mpr ⟨?_, List.any_eq_true.mpr ⟨p, ?_, by simp⟩⟩
  · rw [List.mem_reverse, List.mem_range]
    exact Nat.lt_succ_of_le (bits_le p)
  · exact (Dict.mem_keys_iff rows p).mpr ⟨action, haction⟩

theorem lengths_descending (rows : Dict Prefix AclAction) (is4 : Bool) :
    (lengths rows is4).Pairwise (· > ·) :=
  (List.pairwise_reverse.mpr List.pairwise_lt_range).sublist List.filter_sublist

/-! ### Reading rows into the table -/

/-- What a row does to the table, and to the prefixes that are allowed after the walk. -/
def note (read : Dict Prefix AclAction × List Prefix) : Row → Dict Prefix AclAction × List Prefix
  | .access p action => (read.1.set p action, read.2)
  | .implicit p => (read.1, read.2 ++ [p])

theorem get_foldl_note (rows : List Row) (read : Dict Prefix AclAction × List Prefix)
    (p : Prefix) :
    (rows.foldl note read).1.get p =
      (rows.reverse.findSome? (Row.names p)).or (read.1.get p) := by
  induction rows generalizing read with
  | nil => rfl
  | cons row rows ih =>
      rw [List.foldl_cons, ih, List.reverse_cons, List.findSome?_append, Option.or_assoc]
      refine congrArg _ ?_
      cases row with
      | implicit q => rfl
      | access q action =>
          show (read.1.set q action).get p = _
          rw [Dict.get_set]
          by_cases hq : q = p <;> simp [Row.names, hq]

theorem mem_foldl_note (rows : List Row) (read : Dict Prefix AclAction × List Prefix)
    (p : Prefix) : p ∈ (rows.foldl note read).2 ↔ p ∈ read.2 ∨ .implicit p ∈ rows := by
  induction rows generalizing read with
  | nil => simp
  | cons row rows ih =>
      rw [List.foldl_cons, ih]
      cases row with
      | access q action => simp [note]
      | implicit q => simp [note, or_assoc]

/-- The table that the code builds is the one the rows stand for. -/
theorem get_table (rows : List Row) (p : Prefix) :
    let read := rows.foldl note (Dict.empty, [])
    (allowUnlisted (allowUnlisted read.1 read.2) unboundLocalhost).get p = verdict rows p := by
  intro read
  have himplicit : p ∈ read.2 ↔ .implicit p ∈ rows := by
    rw [mem_foldl_note]
    exact or_iff_right List.not_mem_nil
  rw [get_allowUnlisted, get_allowUnlisted, get_foldl_note, Dict.get_empty, Option.or_none,
    Option.or_assoc, verdict]
  refine congrArg _ ?_
  by_cases hp : p ∈ read.2
  · rw [if_pos hp, if_pos (Or.inl (himplicit.mp hp))]
    rfl
  · have hout := mt himplicit.mpr hp
    simp only [hp, hout, if_false, false_or, Option.none_or]

/-! ### The lookup -/

variable {rows : List Row} {table : Dict Prefix AclAction}

/-- Among the lengths of the table, the first that hits is that of the longest match. -/
theorem decides_of_lengths (client : Addr) (htable : ∀ p, table.get p = verdict rows p) :
    Decides rows client
      (((lengths table client.unmap.is4).findSome? fun b =>
        (client.unmap.toPrefix b).bind table.get).getD .refuse) := by
  generalize haddr : client.unmap = a
  have hhit : ∀ {b action}, (a.toPrefix b).bind table.get = some action ↔
      ∃ p, p.bits = b ∧ p.Contains a ∧ verdict rows p = some action := by
    intro b action
    rw [Option.bind_eq_some_iff]
    simp only [toPrefix_eq_some_iff, htable, and_assoc]
  have hmem : ∀ {p}, p.Contains a → verdict rows p ≠ none → p.bits ∈ lengths table a.is4 := by
    intro p hp hverdict
    rw [← contains_family hp]
    exact mem_lengths (by rwa [htable])
  cases hfind : (lengths table a.is4).findSome? fun b => (a.toPrefix b).bind table.get with
  | none =>
      refine Or.inr ⟨rfl, fun p hp => ?_⟩
      rw [haddr] at hp
      by_contra hverdict
      obtain ⟨action, haction⟩ := Option.ne_none_iff_exists'.mp hverdict
      have hmiss := List.findSome?_eq_none_iff.mp hfind p.bits (hmem hp hverdict)
      cases hmiss.symm.trans (hhit.mpr ⟨p, rfl, hp, haction⟩)
  | some action =>
      obtain ⟨longer, b, shorter, hsplit, hb, hmiss⟩ := List.findSome?_eq_some_iff.mp hfind
      obtain ⟨p, rfl, hp, hverdict⟩ := hhit.mp hb
      refine Or.inl ⟨p, haddr ▸ hp, hverdict, fun q hq hsome => ?_⟩
      rw [haddr] at hq
      have hq' := hmem hq hsome
      have hdescending := lengths_descending table a.is4
      rw [hsplit] at hq' hdescending
      rcases List.mem_append.mp hq' with hlonger | hrest
      · obtain ⟨other, hother⟩ := Option.ne_none_iff_exists'.mp hsome
        cases (hmiss q.bits hlonger).symm.trans (hhit.mpr ⟨q, rfl, hq, hother⟩)
      · rcases List.mem_cons.mp hrest with heq | hshorter
        · exact le_of_eq heq
        · have htail := (List.pairwise_append.mp hdescending).2.1
          exact le_of_lt (List.rel_of_pairwise_cons htail hshorter)

/-- `ACL.Lookup` on rules whose table is that of the rows. -/
theorem lookup_iff (htable : ∀ p, (allowUnlisted table unboundLocalhost).get p = verdict rows p)
    (client : Addr) (action : AclAction) :
    (newAclRules table).lookup client.unmap = action ↔ Decides rows client action := by
  have hdecides : Decides rows client ((newAclRules table).lookup client.unmap) := by
    have hlookup := decides_of_lengths client htable
    unfold newAclRules AclRules.lookup
    dsimp only
    cases hfamily : client.unmap.is4 with
    | true => rwa [hfamily] at hlookup
    | false => rwa [hfamily] at hlookup
  exact ⟨fun h => h ▸ hdecides, fun h => hdecides.unique h⟩

end PfBlockerNG.AccessRules
