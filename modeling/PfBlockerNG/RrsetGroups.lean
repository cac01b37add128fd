import Mathlib.Data.List.Perm.Basic
import PfBlockerNG.DnsWire
import PfBlockerNG.OrderedDict

/-!
The records of a reply as rrsets: each section grouped by owner, type and class, signatures at the
end of the set they cover, and the CNAME walk over what results.
-/

namespace PfBlockerNG.RrsetGroups

open PfBlockerNG.ByteStrings
open PfBlockerNG.Strings
open PfBlockerNG.DnsWire
open PfBlockerNG.OrderedDict

def typeCNAME : Nat := 5
def typeOPT : Nat := 41
def typeRRSIG : Nat := 46

def typeNames : List (Nat × Str) :=
  [(1, "A".toList), (2, "NS".toList), (5, "CNAME".toList), (6, "SOA".toList), (12, "PTR".toList),
    (15, "MX".toList), (16, "TXT".toList), (24, "SIG".toList), (28, "AAAA".toList),
    (33, "SRV".toList), (39, "DNAME".toList), (41, "OPT".toList), (43, "DS".toList),
    (46, "RRSIG".toList), (47, "NSEC".toList), (48, "DNSKEY".toList), (50, "NSEC3".toList),
    (51, "NSEC3PARAM".toList), (64, "SVCB".toList), (65, "HTTPS".toList), (255, "ANY".toList)]

def typeStr (rtype : Nat) : Str :=
  (typeNames.lookup rtype).getD ("TYPE".toList ++ Nat.toDigits 10 rtype)

structure RRSetData where
  count : Nat
  rrsigCount : Nat
  rrData : List Bytes
  rrTtl : List Nat
  deriving DecidableEq, Repr

/-- An rrset: the type of its key, and its data. -/
structure RRSet where
  typeStr : Str
  data : RRSetData
  deriving DecidableEq, Repr

/-- Owner in lower case, type and class. -/
abbrev Key := Str × Nat × Nat

/-- `_rr_data`. -/
def rrData (rdata : Bytes) : Except EncodeError Bytes := do
  let size ← pack 2 rdata.length
  return size ++ rdata

/-- `xs.insert(i, x)`. -/
def insertAt {α : Type} (i : Nat) (x : α) (xs : List α) : List α := xs.take i ++ x :: xs.drop i

def RRSet.fresh (rtype : Nat) : RRSet := ⟨RrsetGroups.typeStr rtype, ⟨0, 0, [], []⟩⟩

def RRSet.addSignature (rrset : RRSet) (data : Bytes) (ttl : Nat) : RRSet :=
  { rrset with data :=
    { rrset.data with
      rrsigCount := rrset.data.rrsigCount + 1
      rrData := rrset.data.rrData ++ [data]
      rrTtl := rrset.data.rrTtl ++ [ttl] } }

def RRSet.addPlain (rrset : RRSet) (data : Bytes) (ttl : Nat) : RRSet :=
  { rrset with data :=
    { rrset.data with
      count := rrset.data.count + 1
      rrData := insertAt rrset.data.count data rrset.data.rrData
      rrTtl := insertAt rrset.data.count ttl rrset.data.rrTtl } }

section Grouping

variable (lower : Str → Str)

def ownKey (rr : RR) : Key := (lower rr.name, rr.rtype, rr.rclass)

/-- The key of the set a signature covers. -/
def coveredKey (rr : RR) : Option Key :=
  if rr.rtype = typeRRSIG ∧ 2 ≤ rr.rdata.length then
    some (lower rr.name, unpack 2 rr.rdata 0, rr.rclass)
  else none

/-- One round over the records of a section; `by_key` holds the section's rrsets in the order they
are created. -/
def addRecord (byKey : Dict Key RRSet) (rr : RR) : Except EncodeError (Dict Key RRSet) :=
  if rr.rtype = typeOPT then .ok byKey
  else
    match (coveredKey lower rr).bind fun key => (byKey.get key).map fun rrset => (key, rrset) with
    | some (key, covered) => do
        let data ← rrData rr.rdata
        return byKey.set key (covered.addSignature data rr.ttl)
    | none => do
        let rrset := (byKey.get (ownKey lower rr)).getD (RRSet.fresh rr.rtype)
        let data ← rrData rr.rdata
        return byKey.set (ownKey lower rr) (rrset.addPlain data rr.ttl)

/-- The rrsets of one section. -/
def groupSection (records : List RR) : Except EncodeError (List RRSet) := do
  let byKey ← records.foldlM (addRecord lower) Dict.empty
  return byKey.items.map Prod.snd

def plainTtls (records : List RR) : List Nat :=
  (records.filter fun rr => rr.rtype ≠ typeOPT).map RR.ttl

/-- What `_build_rrsets` returns: the rrsets, how many each section has, and the least TTL. -/
structure Built where
  rrsets : List RRSet
  counts : Nat × Nat × Nat
  ttl : Nat
  deriving DecidableEq, Repr

/-- `_build_rrsets`. -/
def buildRrsets (answer authority additional : List RR) : Except EncodeError Built := do
  let an ← groupSection lower answer
  let ns ← groupSection lower authority
  let ar ← groupSection lower additional
  return {
    rrsets := an ++ ns ++ ar
    counts := (an.length, ns.length, ar.length)
    ttl := (plainTtls (answer ++ authority ++ additional)).min?.getD 0 }

end Grouping

/-- The rr_data that `operate` takes as CNAMEs of a reply. -/
def operateCnames (rrsets : List RRSet) (anNumrrsets : Nat) : List Bytes :=
  if 1 < anNumrrsets then
    (rrsets.take anNumrrsets).flatMap fun rrset =>
      if rrset.typeStr = "CNAME".toList then
        (List.range rrset.data.count).filterMap fun j => rrset.data.rrData[j]?
      else []
  else []

/-! ### Groups of records -/

/-- The records of one rrset: the plain ones and the signatures. -/
structure Group where
  key : Key
  plain : List RR
  sigs : List RR

namespace Group

def records (g : Group) : List RR := g.plain ++ g.sigs

def wireData (rr : RR) : Bytes := toOctets 2 rr.rdata.length ++ rr.rdata

/-- The rrset of a group: the plain records first, data and TTL at the same index. -/
def rrset (g : Group) : RRSet where
  typeStr := typeStr g.key.2.1
  data :=
    { count := g.plain.length
      rrsigCount := g.sigs.length
      rrData := g.records.map wireData
      rrTtl := g.records.map RR.ttl }

def item (g : Group) : Key × RRSet := (g.key, g.rrset)

end Group

/-- A group of one section: plain records of its key, then signatures that cover it, both in the
order of the message. -/
structure Group.Sound (lower : Str → Str) (records : List RR) (g : Group) : Prop where
  nonempty : g.plain ≠ []
  plainOrder : g.plain.Sublist records
  sigsOrder : g.sigs.Sublist records
  plainKey : ∀ rr ∈ g.plain, ownKey lower rr = g.key
  sigsKey : ∀ rr ∈ g.sigs, coveredKey lower rr = some g.key

/-- Groups of different keys that hold each record of a section exactly once. -/
structure Groups (lower : Str → Str) (records : List RR) (groups : List Group) : Prop where
  keys : (groups.map Group.key).Nodup
  perm : (groups.flatMap Group.records).Perm (records.filter fun rr => rr.rtype ≠ typeOPT)
  sound : ∀ g ∈ groups, g.Sound lower records

def FitsWire (rr : RR) : Prop := rr.rtype ≠ typeOPT → rr.rdata.length < 256 ^ 2

theorem rrData_eq_ok {rr : RR} (h : rr.rdata.length < 256 ^ 2) :
    rrData rr.rdata = .ok (Group.wireData rr) := by
  rw [rrData, pack_eq_ok h]
  rfl

theorem rrData_eq_error {rr : RR} (h : ¬ rr.rdata.length < 256 ^ 2) :
    rrData rr.rdata = .error .struct := by
  rw [rrData, pack, if_neg h]
  rfl

theorem insertAt_length_append {α : Type} (x : α) (xs ys : List α) :
    insertAt xs.length x (xs ++ ys) = xs ++ x :: ys := by
  rw [insertAt, List.take_left, List.drop_left]

theorem Group.addSignature_rrset (g : Group) (rr : RR) :
    g.rrset.addSignature (wireData rr) rr.ttl =
      { g with sigs := g.sigs ++ [rr] : Group }.rrset := by
  simp [RRSet.addSignature, Group.rrset, Group.records]

theorem Group.addPlain_rrset (g : Group) (rr : RR) :
    g.rrset.addPlain (wireData rr) rr.ttl = { g with plain := g.plain ++ [rr] : Group }.rrset := by
  have hdata := insertAt_length_append (wireData rr) (g.plain.map wireData) (g.sigs.map wireData)
  have httl := insertAt_length_append rr.ttl (g.plain.map RR.ttl) (g.sigs.map RR.ttl)
  rw [List.length_map] at hdata httl
  simp [RRSet.addPlain, Group.rrset, Group.records, hdata, httl]

theorem Group.addPlain_fresh (lower : Str → Str) (rr : RR) :
    (RRSet.fresh rr.rtype).addPlain (wireData rr) rr.ttl =
      (⟨ownKey lower rr, [rr], []⟩ : Group).rrset := rfl

/-! ### One record -/

section Step

variable {lower : Str → Str} {done : List RR} {rr : RR}

theorem Group.Sound.snoc {g : Group} (h : g.Sound lower done) (rr : RR) :
    g.Sound lower (done ++ [rr]) where
  nonempty := h.nonempty
  plainOrder := h.plainOrder.trans (List.sublist_append_left done [rr])
  sigsOrder := h.sigsOrder.trans (List.sublist_append_left done [rr])
  plainKey := h.plainKey
  sigsKey := h.sigsKey

theorem Group.Sound.addPlain {g : Group} (h : g.Sound lower done) (hkey : ownKey lower rr = g.key) :
    ({ g with plain := g.plain ++ [rr] } : Group).Sound lower (done ++ [rr]) where
  nonempty := List.append_ne_nil_of_right_ne_nil _ (List.cons_ne_nil rr [])
  plainOrder := h.plainOrder.append (List.Sublist.refl [rr])
  sigsOrder := h.sigsOrder.trans (List.sublist_append_left done [rr])
  plainKey := by
    intro x hx
    rcases List.mem_append.mp hx with hx | hx
    · exact h.plainKey x hx
    · rw [List.mem_singleton.mp hx]
      exact hkey
  sigsKey := h.sigsKey

theorem Group.Sound.addSignature {g : Group} (h : g.Sound lower done)
    (hkey : coveredKey lower rr = some g.key) :
    ({ g with sigs := g.sigs ++ [rr] } : Group).Sound lower (done ++ [rr]) where
  nonempty := h.nonempty
  plainOrder := h.plainOrder.trans (List.sublist_append_left done [rr])
  sigsOrder := h.sigsOrder.append (List.Sublist.refl [rr])
  plainKey := h.plainKey
  sigsKey := by
    intro x hx
    rcases List.mem_append.mp hx with hx | hx
    · exact h.sigsKey x hx
    · rw [List.mem_singleton.mp hx]
      exact hkey

theorem Group.sound_fresh : (⟨ownKey lower rr, [rr], []⟩ : Group).Sound lower (done ++ [rr]) where
  nonempty := List.cons_ne_nil rr []
  plainOrder := List.sublist_append_right done [rr]
  sigsOrder := List.nil_sublist _
  plainKey := by simp
  sigsKey := by simp

theorem filter_snoc (hopt : rr.rtype ≠ typeOPT) :
    ((done ++ [rr]).filter fun rr => rr.rtype ≠ typeOPT) =
      (done.filter fun rr => rr.rtype ≠ typeOPT) ++ [rr] := by
  simp [hopt]

theorem Groups.skip {groups : List Group} (h : Groups lower done groups)
    (hopt : rr.rtype = typeOPT) : Groups lower (done ++ [rr]) groups where
  keys := h.keys
  perm := by
    have hsame : ((done ++ [rr]).filter fun rr => rr.rtype ≠ typeOPT) =
        done.filter fun rr => rr.rtype ≠ typeOPT := by simp [hopt]
    rw [hsame]
    exact h.perm
  sound g hg := (h.sound g hg).snoc rr

/-- One group takes the record. -/
theorem Groups.replace {before rest : List Group} {g g' : Group}
    (h : Groups lower done (before ++ g :: rest)) (hopt : rr.rtype ≠ typeOPT)
    (hkey : g'.key = g.key) (hperm : g'.records.Perm (g.records ++ [rr]))
    (hsound : g'.Sound lower (done ++ [rr])) :
    Groups lower (done ++ [rr]) (before ++ g' :: rest) where
  keys := by
    have hkeys := h.keys
    rw [List.map_append, List.map_cons] at hkeys ⊢
    rwa [hkey]
  perm := by
    rw [filter_snoc hopt]
    refine List.Perm.trans ?_ (h.perm.append_right [rr])
    simp only [List.flatMap_append, List.flatMap_cons, List.append_assoc]
    refine List.Perm.append_left _ ?_
    refine (hperm.append_right _).trans ?_
    rw [List.append_assoc]
    exact List.Perm.append_left _ List.perm_append_comm
  sound x hx := by
    rcases List.mem_append.mp hx with hx | hx
    · exact (h.sound x (List.mem_append_left _ hx)).snoc rr
    · rcases List.mem_cons.mp hx with rfl | hx
      · exact hsound
      · exact (h.sound x (List.mem_append_right _ (List.mem_cons_of_mem _ hx))).snoc rr

/-- A new group starts with the record. -/
theorem Groups.start {groups : List Group} (h : Groups lower done groups)
    (hopt : rr.rtype ≠ typeOPT) (hfresh : ownKey lower rr ∉ groups.map Group.key) :
    Groups lower (done ++ [rr]) (groups ++ [⟨ownKey lower rr, [rr], []⟩]) where
  keys := by
    rw [List.map_append]
    refine List.nodup_append.mpr ⟨h.keys, List.nodup_singleton _, fun key hin other hother => ?_⟩
    rw [List.mem_singleton.mp hother]
    rintro rfl
    exact hfresh hin
  perm := by
    rw [filter_snoc hopt, List.flatMap_append]
    exact h.perm.append (List.Perm.refl _)
  sound x hx := by
    rcases List.mem_append.mp hx with hx | hx
    · exact (h.sound x hx).snoc rr
    · rw [List.mem_singleton.mp hx]
      exact Group.sound_fresh

/-- The rrsets of the dictionary are those of the groups. -/
def Holds (byKey : Dict Key RRSet) (groups : List Group) : Prop :=
  byKey.items = groups.map Group.item

theorem keys_item (groups : List Group) :
    (groups.map Group.item).map Prod.fst = groups.map Group.key := by
  rw [List.map_map]
  rfl

theorem Holds.exists_of_get {byKey : Dict Key RRSet} {groups : List Group} {key : Key}
    {rrset : RRSet} (h : Holds byKey groups) (hget : byKey.get key = some rrset) :
    ∃ before g rest, groups = before ++ g :: rest ∧ g.key = key ∧ rrset = g.rrset ∧
      key ∉ before.map Group.key := by
  have hmem := (byKey.get_eq_some_iff key rrset).mp hget
  rw [h] at hmem
  obtain ⟨g, hg, hitem⟩ := List.mem_map.mp hmem
  obtain ⟨before, rest, rfl⟩ := List.append_of_mem hg
  have hkey : g.key = key := congrArg Prod.fst hitem
  have hnodup := byKey.nodup
  rw [h, keys_item, List.map_append, List.map_cons, List.nodup_append] at hnodup
  refine ⟨before, g, rest, rfl, hkey, (congrArg Prod.snd hitem).symm, fun hin => ?_⟩
  exact hnodup.2.2 key hin g.key List.mem_cons_self hkey.symm

theorem Holds.not_mem_of_get {byKey : Dict Key RRSet} {groups : List Group} {key : Key}
    (h : Holds byKey groups) (hget : byKey.get key = none) : key ∉ groups.map Group.key := by
  rw [Dict.get, lookup_eq_none_iff, h, keys_item] at hget
  exact hget

theorem Holds.set {byKey : Dict Key RRSet} {before rest : List Group} {g g' : Group}
    (h : Holds byKey (before ++ g :: rest)) (hkey : g'.key = g.key)
    (hout : g.key ∉ before.map Group.key) :
    Holds (byKey.set g.key g'.rrset) (before ++ g' :: rest) := by
  have hitems : byKey.items = before.map Group.item ++ (g.key, g.rrset) :: rest.map Group.item := by
    rw [h, List.map_append, List.map_cons]
    rfl
  show store g.key g'.rrset byKey.items = _
  rw [hitems, store_append_cons _ _ (by rwa [keys_item]), List.map_append, List.map_cons]
  rw [← hkey]
  rfl

theorem Holds.snoc {byKey : Dict Key RRSet} {groups : List Group} {g : Group}
    (h : Holds byKey groups) (hout : g.key ∉ groups.map Group.key) :
    Holds (byKey.set g.key g.rrset) (groups ++ [g]) := by
  show store g.key g.rrset byKey.items = _
  rw [h, store_of_not_mem (by rwa [keys_item]), List.map_append]
  rfl

/-- What one record does to the groups. -/
theorem addRecord_groups {byKey : Dict Key RRSet} {groups : List Group}
    (hholds : Holds byKey groups) (hgroups : Groups lower done groups) (hfits : FitsWire rr) :
    ∃ byKey' groups', addRecord lower byKey rr = .ok byKey' ∧ Holds byKey' groups' ∧
      Groups lower (done ++ [rr]) groups' := by
  by_cases hopt : rr.rtype = typeOPT
  · exact ⟨byKey, groups, if_pos hopt, hholds, hgroups.skip hopt⟩
  · have hdata := rrData_eq_ok (hfits hopt)
    rw [addRecord, if_neg hopt]
    cases hcovered : (coveredKey lower rr).bind
        fun key => (byKey.get key).map fun rrset => (key, rrset) with
    | some found =>
        obtain ⟨key, hkey, hfound⟩ := Option.bind_eq_some_iff.mp hcovered
        obtain ⟨covered, hget, rfl⟩ := Option.map_eq_some_iff.mp hfound
        obtain ⟨before, g, rest, rfl, rfl, rfl, hout⟩ := hholds.exists_of_get hget
        have hsound := hgroups.sound g (by simp)
        simp only [hdata, bind, Except.bind, pure, Except.pure, Group.addSignature_rrset]
        refine ⟨_, _, rfl, hholds.set rfl hout, hgroups.replace hopt rfl ?_
          (hsound.addSignature hkey)⟩
        simp [Group.records]
    | none =>
        cases hget : byKey.get (ownKey lower rr) with
        | some rrset =>
            obtain ⟨before, g, rest, rfl, hkey, rfl, hout⟩ := hholds.exists_of_get hget
            have hsound := hgroups.sound g (by simp)
            simp only [hdata, bind, Except.bind, pure, Except.pure, Option.getD_some,
              Group.addPlain_rrset, ← hkey]
            refine ⟨_, _, rfl, hholds.set rfl (by rwa [hkey]), hgroups.replace hopt rfl ?_
              (hsound.addPlain hkey.symm)⟩
            simp only [Group.records, List.append_assoc]
            exact List.Perm.append_left _ List.perm_append_comm
        | none =>
            have hout := hholds.not_mem_of_get hget
            simp only [hdata, bind, Except.bind, pure, Except.pure, Option.getD_none,
              Group.addPlain_fresh lower rr]
            exact ⟨_, _, rfl, hholds.snoc (g := ⟨ownKey lower rr, [rr], []⟩) hout,
              hgroups.start hopt hout⟩

theorem addRecord_eq_error (byKey : Dict Key RRSet) (h : ¬ FitsWire rr) :
    addRecord lower byKey rr = .error .struct := by
  rw [FitsWire, Classical.not_imp] at h
  obtain ⟨hopt, hlarge⟩ := h
  rw [addRecord, if_neg hopt]
  split
  · simp [rrData_eq_error hlarge, bind, Except.bind]
  · simp [rrData_eq_error hlarge, bind, Except.bind]

end Step

/-! ### A section and a reply -/

section Run

variable {lower : Str → Str}

theorem groups_nil : Groups lower [] [] where
  keys := List.nodup_nil
  perm := List.Perm.refl _
  sound := by simp

theorem foldlM_addRecord {done records : List RR} {byKey : Dict Key RRSet} {groups : List Group}
    (hholds : Holds byKey groups) (hgroups : Groups lower done groups)
    (hfits : ∀ rr ∈ records, FitsWire rr) :
    ∃ byKey' groups', records.foldlM (addRecord lower) byKey = .ok byKey' ∧
      Holds byKey' groups' ∧ Groups lower (done ++ records) groups' := by
  induction records generalizing done byKey groups with
  | nil => exact ⟨byKey, groups, rfl, hholds, by simpa using hgroups⟩
  | cons rr records ih =>
      rw [List.forall_mem_cons] at hfits
      obtain ⟨byKey₁, groups₁, hstep, hholds₁, hgroups₁⟩ :=
        addRecord_groups hholds hgroups hfits.1
      obtain ⟨byKey₂, groups₂, hrun, hholds₂, hgroups₂⟩ := ih hholds₁ hgroups₁ hfits.2
      refine ⟨byKey₂, groups₂, ?_, hholds₂, by simpa using hgroups₂⟩
      rw [List.foldlM_cons, hstep]
      exact hrun

theorem foldlM_addRecord_eq_error {records : List RR} (byKey : Dict Key RRSet)
    (h : ¬ ∀ rr ∈ records, FitsWire rr) :
    records.foldlM (addRecord lower) byKey = .error .struct := by
  induction records generalizing byKey with
  | nil => exact absurd (by simp) h
  | cons rr records ih =>
      rw [List.foldlM_cons]
      by_cases hfits : FitsWire rr
      · rw [List.forall_mem_cons, not_and] at h
        cases hstep : addRecord lower byKey rr with
        | error e =>
            rw [addRecord] at hstep
            split at hstep
            · cases hstep
            · next hopt =>
                rw [rrData_eq_ok (hfits hopt)] at hstep
                split at hstep <;> cases hstep
        | ok byKey' => exact ih byKey' (h hfits)
      · rw [addRecord_eq_error byKey hfits]
        rfl

theorem groupSection_eq_ok (lower : Str → Str) {records : List RR}
    (hfits : ∀ rr ∈ records, FitsWire rr) :
    ∃ groups, groupSection lower records = .ok (groups.map Group.rrset) ∧
      Groups lower records groups := by
  obtain ⟨byKey, groups, hrun, hholds, hgroups⟩ :=
    foldlM_addRecord (show Holds Dict.empty [] from rfl) groups_nil hfits
  refine ⟨groups, ?_, hgroups⟩
  rw [groupSection, hrun]
  show Except.ok (byKey.items.map Prod.snd) = _
  rw [hholds, List.map_map]
  rfl

theorem groupSection_eq_error {records : List RR} (h : ¬ ∀ rr ∈ records, FitsWire rr) :
    groupSection lower records = .error .struct := by
  rw [groupSection, foldlM_addRecord_eq_error _ h]
  rfl

theorem exists_of_groupSection_eq_ok {records : List RR} {rrsets : List RRSet}
    (h : groupSection lower records = .ok rrsets) :
    (∀ rr ∈ records, FitsWire rr) ∧
      ∃ groups, rrsets = groups.map Group.rrset ∧ Groups lower records groups := by
  by_cases hfits : ∀ rr ∈ records, FitsWire rr
  · obtain ⟨groups, hok, hgroups⟩ := groupSection_eq_ok lower hfits
    rw [hok] at h
    injection h with h
    exact ⟨hfits, groups, h.symm, hgroups⟩
  · rw [groupSection_eq_error hfits] at h
    cases h

variable {answer authority additional : List RR}

theorem exists_of_buildRrsets_eq_ok {built : Built}
    (h : buildRrsets lower answer authority additional = .ok built) :
    (∀ rr ∈ answer ++ authority ++ additional, FitsWire rr) ∧
      ∃ an ns ar : List Group, Groups lower answer an ∧ Groups lower authority ns ∧
        Groups lower additional ar ∧ built.rrsets = (an ++ ns ++ ar).map Group.rrset ∧
        built.counts = (an.length, ns.length, ar.length) := by
  obtain ⟨rrsetsAn, han, h⟩ := bind_eq_ok_iff.mp h
  obtain ⟨rrsetsNs, hns, h⟩ := bind_eq_ok_iff.mp h
  obtain ⟨rrsetsAr, har, h⟩ := bind_eq_ok_iff.mp h
  injection h with h
  subst h
  obtain ⟨hfitsAn, an, rfl, hgroupsAn⟩ := exists_of_groupSection_eq_ok han
  obtain ⟨hfitsNs, ns, rfl, hgroupsNs⟩ := exists_of_groupSection_eq_ok hns
  obtain ⟨hfitsAr, ar, rfl, hgroupsAr⟩ := exists_of_groupSection_eq_ok har
  refine ⟨?_, an, ns, ar, hgroupsAn, hgroupsNs, hgroupsAr, by simp, by simp⟩
  simp only [List.forall_mem_append]
  exact ⟨⟨hfitsAn, hfitsNs⟩, hfitsAr⟩

theorem exists_buildRrsets_eq_ok
    (hfits : ∀ rr ∈ answer ++ authority ++ additional, FitsWire rr) :
    ∃ built, buildRrsets lower answer authority additional = .ok built := by
  simp only [List.forall_mem_append] at hfits
  obtain ⟨an, han, -⟩ := groupSection_eq_ok lower hfits.1.1
  obtain ⟨ns, hns, -⟩ := groupSection_eq_ok lower hfits.1.2
  obtain ⟨ar, har, -⟩ := groupSection_eq_ok lower hfits.2
  rw [buildRrsets, han, hns, har]
  exact ⟨_, rfl⟩

end Run

/-! ### The CNAMEs of an answer -/

theorem typeStr_eq_cname_iff (rtype : Nat) :
    typeStr rtype = "CNAME".toList ↔ rtype = typeCNAME := by
  constructor
  · intro h
    rw [typeStr] at h
    cases hlookup : typeNames.lookup rtype with
    | none =>
        rw [hlookup] at h
        cases h
    | some name =>
        rw [hlookup, Option.getD_some] at h
        subst h
        have hmem : (rtype, "CNAME".toList) ∈ typeNames := by
          obtain ⟨before, rest, hnames, -⟩ := List.lookup_eq_some_iff.mp hlookup
          rw [hnames]
          simp
        simpa [typeNames, typeCNAME] using hmem
  · rintro rfl
    rfl

theorem filterMap_range_getElem? {α : Type} (xs ys : List α) :
    ((List.range xs.length).filterMap fun j => (xs ++ ys)[j]?) = xs := by
  induction xs with
  | nil => rfl
  | cons x xs ih =>
      rw [List.length_cons, List.range_succ_eq_map, List.filterMap_cons, List.filterMap_map]
      exact congrArg (x :: ·) ih

/-- The records `operate` takes from one rrset. -/
theorem Group.walk (g : Group) :
    ((List.range g.rrset.data.count).filterMap fun j => g.rrset.data.rrData[j]?) =
      g.plain.map wireData := by
  have h := filterMap_range_getElem? (g.plain.map wireData) (g.sigs.map wireData)
  rw [List.length_map, ← List.map_append] at h
  exact h

theorem Group.Sound.filter_cname {lower : Str → Str} {records : List RR} {g : Group}
    (h : g.Sound lower records) :
    (g.records.filter fun rr => rr.rtype = typeCNAME) =
      if typeStr g.key.2.1 = "CNAME".toList then g.plain else [] := by
  have hsigs : (g.sigs.filter fun rr => rr.rtype = typeCNAME) = [] := by
    refine List.filter_eq_nil_iff.mpr fun rr hrr hcname => ?_
    have hkey := h.sigsKey rr hrr
    rw [coveredKey] at hkey
    split at hkey
    · next hsig =>
        rw [hsig.1] at hcname
        exact absurd hcname (by decide)
    · cases hkey
  rw [Group.records, List.filter_append, hsigs, List.append_nil]
  split
  · next hname =>
      refine List.filter_eq_self.mpr fun rr hrr => ?_
      have hkey := congrArg (fun key => key.2.1) (h.plainKey rr hrr)
      rw [decide_eq_true_eq]
      exact hkey.trans ((typeStr_eq_cname_iff _).mp hname)
  · next hname =>
      refine List.filter_eq_nil_iff.mpr fun rr hrr hcname => hname ?_
      have hkey := congrArg (fun key => key.2.1) (h.plainKey rr hrr)
      rw [decide_eq_true_eq] at hcname
      exact (typeStr_eq_cname_iff _).mpr (hkey.symm.trans hcname)

/-- The walk over the rrsets of an answer. -/
theorem operateCnames_perm {lower : Str → Str} {answer : List RR} {an rest : List Group}
    (h : Groups lower answer an) (hmany : 1 < an.length) :
    (operateCnames ((an ++ rest).map Group.rrset) an.length).Perm
      ((answer.filter fun rr => rr.rtype = typeCNAME).map Group.wireData) := by
  have hwalk : operateCnames ((an ++ rest).map Group.rrset) an.length =
      (an.flatMap fun g => g.records.filter fun rr => rr.rtype = typeCNAME).map Group.wireData := by
    rw [operateCnames, if_pos hmany, ← List.map_take, List.take_left, List.flatMap_map,
      List.map_flatMap]
    refine List.flatMap_congr fun g hg => ?_
    rw [(h.sound g hg).filter_cname, Group.walk]
    show (if typeStr g.key.2.1 = "CNAME".toList then _ else _) = _
    split <;> simp
  rw [hwalk, ← List.filter_flatMap]
  refine List.Perm.map _ ((h.perm.filter _).trans ?_)
  rw [List.filter_filter]
  refine List.Perm.of_eq (List.filter_congr fun rr _ => ?_)
  by_cases hcname : rr.rtype = typeCNAME
  · simp [hcname, typeCNAME, typeOPT]
  · simp [hcname]

/-- A reply is built when its records fit the wire; the rrsets of a section are those of groups that
hold each of its records once, and `operate` takes the CNAMEs of an answer of several rrsets. -/
theorem rrsets_lose_nothing (lower : Str → Str) (answer authority additional : List RR) :
    ((∃ built, buildRrsets lower answer authority additional = .ok built) ↔
        ∀ rr ∈ answer ++ authority ++ additional, FitsWire rr) ∧
      ∀ built, buildRrsets lower answer authority additional = .ok built →
        ∃ an ns ar : List Group,
          Groups lower answer an ∧ Groups lower authority ns ∧ Groups lower additional ar ∧
          built.rrsets = (an ++ ns ++ ar).map Group.rrset ∧
          built.counts = (an.length, ns.length, ar.length) ∧
          built.counts.1 + built.counts.2.1 + built.counts.2.2 = built.rrsets.length ∧
          (1 < built.counts.1 → (operateCnames built.rrsets built.counts.1).Perm
            ((answer.filter fun rr => rr.rtype = typeCNAME).map Group.wireData)) ∧
          (built.counts.1 ≤ 1 → operateCnames built.rrsets built.counts.1 = []) := by
  refine ⟨⟨fun ⟨built, h⟩ => (exists_of_buildRrsets_eq_ok h).1, exists_buildRrsets_eq_ok⟩, ?_⟩
  intro built h
  obtain ⟨-, an, ns, ar, han, hns, har, hrrsets, hcounts⟩ := exists_of_buildRrsets_eq_ok h
  refine ⟨an, ns, ar, han, hns, har, hrrsets, hcounts, ?_, fun hmany => ?_, fun hfew => ?_⟩
  · simp [hrrsets, hcounts, Nat.add_assoc]
  · rw [hcounts] at hmany ⊢
    rw [hrrsets, List.append_assoc]
    exact operateCnames_perm han hmany
  · rw [operateCnames, if_neg (Nat.not_lt.mpr hfew)]

/-- An answer of one CNAME has one rrset, and `operate` takes nothing of it. -/
theorem operateCnames_single :
    ∃ built, buildRrsets id [⟨"a.".toList, typeCNAME, 1, 60, [1, 98, 0]⟩] [] [] = .ok built ∧
      ¬ (operateCnames built.rrsets built.counts.1).Perm
        (([⟨"a.".toList, typeCNAME, 1, 60, [1, 98, 0]⟩] : List RR).filter
          (fun rr => rr.rtype = typeCNAME) |>.map Group.wireData) := by
  refine ⟨⟨[⟨"CNAME".toList, 1, 0, [[0, 3, 1, 98, 0]], [60]⟩], (1, 0, 0), 60⟩, by decide, ?_⟩
  intro h
  have hlength := h.length_eq
  revert hlength
  decide

end PfBlockerNG.RrsetGroups
