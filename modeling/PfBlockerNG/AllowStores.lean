import PfBlockerNG.FastPath

/-!
The allows an input emits and the whitelist they leave: a domain ends with the highest
band among its allows, as a wildcard when an allow of that band is one.
-/

namespace PfBlockerNG.AllowStores

open PfBlockerNG.Strings
open PfBlockerNG.PyText
open PfBlockerNG.OrderedDict
open PfBlockerNG.Bands
open PfBlockerNG.TopElement
open PfBlockerNG.AbpRules
open PfBlockerNG.Reconcile
open PfBlockerNG.Whitelist
open PfBlockerNG.Build
open PfBlockerNG.BlockStores
open PfBlockerNG.FastPath

/-- An allow emitted for a domain. -/
structure Allow where
  domain : Str
  band : AllowBand
  wildcard : Bool
  deriving DecidableEq, Repr

/-- Allows of one domain in order: by band, a wildcard over an exact one. -/
def strength (band : AllowBand) (wildcard : Bool) : Nat := 2 * band.prio + wildcard.toNat

def Allow.strength (a : Allow) : Nat := AllowStores.strength a.band a.wildcard

def entryStrength (e : WhiteEntry) : Nat := strength e.band e.wildcard

/-- Strength of the entry of a key, 0 when it has none. -/
def storedStrength (db : WhiteDb) (k : Str) : Nat := (db.get k).elim 0 entryStrength

def strengthsFor (k : Str) (allows : List Allow) : Set Nat :=
  {r | ∃ a ∈ allows, a.domain = k ∧ r = a.strength}

/-- Each key holds the strongest allow of its domain. -/
def Strongest (allows : List Allow) (db : WhiteDb) : Prop :=
  ∀ k, Top (strengthsFor k allows) (storedStrength db k)

theorem strength_pos (b : AllowBand) (w : Bool) : 0 < strength b w := by
  cases b <;> cases w <;> decide

theorem strength_inj {b b' : AllowBand} {w w' : Bool} (h : strength b w = strength b' w') :
    b = b' ∧ w = w' := by
  cases b <;> cases b' <;> cases w <;> cases w' <;> first | exact ⟨rfl, rfl⟩ | cases h

theorem strength_or (b : AllowBand) (w w' : Bool) :
    strength b (w || w') = max (strength b w) (strength b w') := by
  cases w <;> cases w' <;> simp [strength]

theorem strength_le_of_prio_lt {b b' : AllowBand} (h : b.prio < b'.prio) (w w' : Bool) :
    strength b w ≤ strength b' w' := by
  have hgap : b.prio + 1 < b'.prio := by
    cases b <;> cases b' <;> simp_all [AllowBand.prio]
  have hw : w.toNat ≤ 1 := Bool.toNat_le w
  unfold strength
  omega

theorem strengthsFor_append (k : Str) (as bs : List Allow) :
    strengthsFor k (as ++ bs) = strengthsFor k as ∪ strengthsFor k bs := by
  ext r
  simp only [strengthsFor, List.mem_append, or_and_right, exists_or, Set.mem_union,
    Set.mem_ofPred_eq]

theorem strengthsFor_singleton (k : Str) (a : Allow) :
    strengthsFor k [a] = {r | (if a.domain = k then some a.strength else none) = some r} := by
  ext r
  simp [strengthsFor, eq_comm]

theorem strongest_nil : Strongest [] Dict.empty := fun k =>
  top_empty.congr (by simp [strengthsFor])

variable {u : Unicode} {config : Config} {f : Top1mFilter} {db : WhiteDb} {as : List Allow}

/-- An allow joins the whitelist when its key takes the greater of the two strengths. -/
theorem Strongest.concat (h : Strongest as db) {db' : WhiteDb} (a : Allow)
    (hself : storedStrength db' a.domain = max (storedStrength db a.domain) a.strength)
    (hother : ∀ k, a.domain ≠ k → db'.get k = db.get k) : Strongest (as ++ [a]) db' := by
  intro k
  rw [strengthsFor_append, strengthsFor_singleton]
  by_cases hk : a.domain = k
  · subst hk
    have hjoin := (h a.domain).join (some a.strength)
    rw [join, ← hself] at hjoin
    rwa [if_pos rfl]
  · have hjoin := (h k).join none
    rwa [if_neg hk, storedStrength, hother k hk]

theorem Strongest.concat_set (h : Strongest as db) (a : Allow) {e : WhiteEntry}
    (he : entryStrength e = max (storedStrength db a.domain) a.strength) :
    Strongest (as ++ [a]) (db.set a.domain e) :=
  h.concat a (by rw [storedStrength, Dict.get_set_self]; exact he)
    fun _ hk => Dict.get_set_of_ne _ _ hk

theorem Strongest.concat_of_le (h : Strongest as db) (a : Allow)
    (hle : a.strength ≤ storedStrength db a.domain) : Strongest (as ++ [a]) db :=
  h.concat a (max_eq_left hle).symm fun _ _ => rfl

/-! ### The user's whitelists -/

/-- What a line of a whitelist allows. -/
def userAllow? (u : Unicode) (raw : Str) : Option Allow :=
  (whitelistLine u raw).kept.map fun line => ⟨line.1, .user, line.2⟩

def userAllows (u : Unicode) (lines : List Str) : List Allow := lines.filterMap (userAllow? u)

theorem entryStrength_whiteWidenEntry {e e' : WhiteEntry} (h : e.band = .user)
    (h' : e'.band = .user) :
    entryStrength (whiteWidenEntry e e') = max (entryStrength e) (entryStrength e') := by
  unfold entryStrength
  rw [band_whiteWidenEntry h h', h, h']
  exact strength_or .user e.wildcard e'.wildcard

theorem strongest_addUserAllow (h : Strongest as db) (huser : AllUser db) (d : Str) {e : WhiteEntry}
    (he : e.band = .user) :
    Strongest (as ++ [⟨d, .user, e.wildcard⟩]) (addUserAllow db d e) := by
  have hstrength : entryStrength e = Allow.strength ⟨d, .user, e.wildcard⟩ := by
    rw [entryStrength, he]
    rfl
  unfold addUserAllow
  split
  · rename_i hget
    refine h.concat_set ⟨d, .user, e.wildcard⟩ ?_
    rw [storedStrength, hget, hstrength]
    exact (Nat.zero_max _).symm
  · rename_i existing hget
    refine h.concat_set ⟨d, .user, e.wildcard⟩ ?_
    rw [storedStrength, hget, entryStrength_whiteWidenEntry (huser d existing hget) he, hstrength]
    rfl

theorem strongest_addWhitelistLine {acc : WhiteDb × DomainNames.RejectTally} (source raw : Str)
    (h : Strongest as acc.1) (huser : AllUser acc.1) :
    Strongest (as ++ (userAllow? u raw).toList) (addWhitelistLine u source acc raw).1 ∧
      AllUser (addWhitelistLine u source acc raw).1 := by
  unfold addWhitelistLine userAllow?
  cases whitelistLine u raw with
  | skip => exact ⟨by simpa [Outcome.kept] using h, huser⟩
  | reject bucket => exact ⟨by simpa [Outcome.kept] using h, huser⟩
  | keep line =>
      exact ⟨strongest_addUserAllow h huser line.1 rfl, allUser_addUserAllow huser rfl⟩

theorem strongest_whitelistLines (acc : WhiteDb × DomainNames.RejectTally) (source : Str)
    (lines : List Str) (h : Strongest as acc.1) (huser : AllUser acc.1) :
    Strongest (as ++ userAllows u lines) (lines.foldl (addWhitelistLine u source) acc).1 ∧
      AllUser (lines.foldl (addWhitelistLine u source) acc).1 := by
  induction lines generalizing as acc with
  | nil => exact ⟨by simpa [userAllows] using h, huser⟩
  | cons raw lines ih =>
      obtain ⟨hline, hlineUser⟩ := strongest_addWhitelistLine (u := u) source raw h huser
      have hrest := ih _ hline hlineUser
      rwa [List.append_assoc, userAllows, ← filterMap_cons_toList] at hrest

theorem strongest_normaliseWhitelist (u : Unicode) (lines : List Str)
    (tally : DomainNames.RejectTally) (source : Str) :
    Strongest (userAllows u lines) (normaliseWhitelist u lines tally source).1 := by
  have hempty : AllUser (Dict.empty : WhiteDb) := fun _ _ h => by cases h
  exact (strongest_whitelistLines (Dict.empty, tally) source lines strongest_nil hempty).1

/-- The entries of a whitelist, as allows. -/
def itemAllows (db : WhiteDb) : List Allow :=
  db.items.map fun item => ⟨item.1, .user, item.2.wildcard⟩

theorem top_itemAllows (huser : AllUser db) (k : Str) :
    Top (strengthsFor k (itemAllows db)) (storedStrength db k) := by
  have hmem : ∀ r, r ∈ strengthsFor k (itemAllows db) ↔
      ∃ e, db.get k = some e ∧ r = entryStrength e := by
    intro r
    simp only [strengthsFor, itemAllows, List.mem_map, Set.mem_ofPred_eq]
    constructor
    · rintro ⟨_, ⟨⟨k', e⟩, hitem, rfl⟩, rfl, rfl⟩
      have hget := (Dict.get_eq_some_iff _ _ _).mpr hitem
      exact ⟨e, hget, by simp [Allow.strength, entryStrength, huser _ _ hget]⟩
    · rintro ⟨e, hget, rfl⟩
      exact ⟨_, ⟨(k, e), (Dict.get_eq_some_iff _ _ _).mp hget, rfl⟩, rfl, by
        simp [Allow.strength, entryStrength, huser _ _ hget]⟩
  refine top_intro ?_ fun r hr => ?_
  · unfold storedStrength
    cases hget : db.get k with
    | none => exact Or.inl rfl
    | some e => exact Or.inr ((hmem _).mpr ⟨e, hget, rfl⟩)
  · obtain ⟨e, hget, rfl⟩ := (hmem r).mp hr
    simp [storedStrength, hget]

theorem strongest_addUserAllows (items : List (Str × WhiteEntry))
    (hitems : ∀ item ∈ items, item.2.band = .user) (h : Strongest as db) (huser : AllUser db) :
    Strongest (as ++ items.map fun item => ⟨item.1, .user, item.2.wildcard⟩)
      (items.foldl (fun db item => addUserAllow db item.1 item.2) db) := by
  induction items generalizing as db with
  | nil => simpa using h
  | cons item items ih =>
      have hband := hitems item (List.mem_cons_self ..)
      have hrest := ih (fun item' hitem' => hitems item' (List.mem_cons_of_mem _ hitem'))
        (strongest_addUserAllow h huser item.1 hband) (allUser_addUserAllow huser hband)
      rwa [List.append_assoc] at hrest

/-- The unlock set is joined to the whitelist. -/
theorem strongest_userWhite (u : Unicode) (config : Config) :
    Strongest (userAllows u config.userWhitelist ++ userAllows u config.userUnlock)
      (userWhite u config).1 := by
  intro k
  have hwhite := strongest_normaliseWhitelist u config.userWhitelist Dict.empty
    "user-whitelist".toList
  have hunlock := strongest_normaliseWhitelist u config.userUnlock
    (normaliseWhitelist u config.userWhitelist Dict.empty "user-whitelist".toList).2
    "user-unlock".toList
  have huser := allUser_normaliseWhitelist (u := u) config.userUnlock
    (normaliseWhitelist u config.userWhitelist Dict.empty "user-whitelist".toList).2
    "user-unlock".toList
  have hjoined := strongest_addUserAllows _ (fun item hitem => huser item.1 item.2
    ((Dict.get_eq_some_iff _ _ _).mpr hitem)) hwhite (allUser_normaliseWhitelist _ _ _) k
  rw [strengthsFor_append] at hjoined ⊢
  rw [show storedStrength (userWhite u config).1 k = _ from
    hjoined.unique ((hwhite k).union (top_itemAllows huser k))]
  exact (hwhite k).union (hunlock k)

/-! ### The permit rows -/

/-- What a line of a permit row allows. -/
def permitAllow? (u : Unicode) (line : Str) : Option Allow :=
  (permitHost u (strip line)).kept.map fun domain => ⟨domain, .feed, true⟩

/-- What a row allows while the rows are read. -/
def rowAllows (u : Unicode) (row : FeedRow) : List Allow :=
  if row.isPermit then row.lines.filterMap (permitAllow? u) else []

/-- The whitelist as long as the rows are read: no entry is weaker than a permit's. -/
structure Permitting (as : List Allow) (db : WhiteDb) : Prop where
  strongest : Strongest as db
  permitted : ∀ k e, db.get k = some e → strength .feed true ≤ entryStrength e

theorem permitting_addPermit {st : BuildState} (h : Permitting as st.whiteDb) (row : FeedRow)
    (domain : Str) :
    Permitting (as ++ [⟨domain, .feed, true⟩]) (addPermit row domain st).whiteDb := by
  simp only [addPermit]
  split
  · rename_i hget
    refine ⟨h.strongest.concat_set ⟨domain, .feed, true⟩ ?_, fun k e hk => ?_⟩
    · rw [storedStrength, hget]
      exact (Nat.zero_max _).symm
    · rw [Dict.get_set] at hk
      split at hk
      · obtain rfl := Option.some.inj hk
        exact le_rfl
      · exact h.permitted k e hk
  · rename_i existing hget
    rw [if_neg (by cases existing.band <;> decide)]
    refine ⟨h.strongest.concat_of_le ⟨domain, .feed, true⟩ ?_, h.permitted⟩
    rw [storedStrength, hget]
    exact h.permitted domain existing hget

theorem permitting_permitLine {st : BuildState} (h : Permitting as st.whiteDb) (row : FeedRow)
    (line : Str) :
    Permitting (as ++ (permitAllow? u line).toList) (permitLine u row st line).whiteDb := by
  unfold permitLine permitAllow?
  cases permitHost u (strip line) with
  | skip => simpa [Outcome.kept] using h
  | reject bucket => simpa [Outcome.kept, BuildState.tally] using h
  | keep domain => exact permitting_addPermit h row domain

theorem permitting_permitLines {st : BuildState} (row : FeedRow) (lines : List Str)
    (h : Permitting as st.whiteDb) :
    Permitting (as ++ lines.filterMap (permitAllow? u))
      (lines.foldl (permitLine u row) st).whiteDb := by
  induction lines generalizing as st with
  | nil => simpa using h
  | cons line lines ih =>
      have hrest := ih (permitting_permitLine (u := u) h row line)
      rwa [List.append_assoc, ← filterMap_cons_toList] at hrest

theorem permitting_buildRow (u : Unicode) (config : Config) (f : Top1mFilter) {st : BuildState}
    (h : Permitting as st.whiteDb) (row : FeedRow) :
    Permitting (as ++ rowAllows u row) (buildRow u config f st row).whiteDb := by
  unfold buildRow rowAllows
  split
  · exact permitting_permitLines row row.lines h
  · rw [List.append_nil]
    refine List.foldlRecOn (motive := fun st' : BuildState => Permitting as st'.whiteDb) _ _ h
      fun st' hst' line _ => ?_
    rw [(sameAllows_plainLine row st' line).whiteDb]
    exact hst'

theorem permitting_rows {st : BuildState} (manifest : List FeedRow)
    (h : Permitting as st.whiteDb) :
    Permitting (as ++ manifest.flatMap (rowAllows u))
      (manifest.foldl (buildRow u config f) st).whiteDb := by
  induction manifest generalizing as st with
  | nil => simpa using h
  | cons row manifest ih =>
      have hrest := ih (permitting_buildRow u config f h row)
      rwa [List.append_assoc] at hrest

theorem permitting_initialState (u : Unicode) (config : Config) :
    Permitting (userAllows u config.userWhitelist ++ userAllows u config.userUnlock)
      (initialState u config).whiteDb := by
  have hwhite : (initialState u config).whiteDb = (userWhite u config).1 := by
    refine List.foldlRecOn (motive := fun st : BuildState => st.whiteDb = (userWhite u config).1)
      _ _ rfl fun st hst tld _ => hst
  rw [hwhite]
  refine ⟨strongest_userWhite u config, fun k e hget => ?_⟩
  rw [entryStrength, allUser_userWhite u config k e hget]
  exact strength_le_of_prio_lt (by decide) true e.wildcard

/-! ### The adblock rules -/

def abpAllow (a : AllowDomainRule) : Allow := ⟨a.domain, a.band, a.wildcard⟩

theorem strongest_addAbpAllow (h : Strongest as db) (a : AllowDomainRule) :
    Strongest (as ++ [abpAllow a]) (addAbpAllow db a) := by
  unfold addAbpAllow
  dsimp only
  split
  · rename_i hget
    refine h.concat_set (abpAllow a) ?_
    rw [storedStrength, show (abpAllow a).domain = a.domain from rfl, hget]
    exact (Nat.zero_max _).symm
  · rename_i existing hget
    have hstored : storedStrength db (abpAllow a).domain = entryStrength existing := by
      rw [storedStrength, show (abpAllow a).domain = a.domain from rfl, hget]
      rfl
    split
    · rename_i hlt
      refine h.concat_set (abpAllow a) ?_
      rw [hstored]
      exact (max_eq_right (strength_le_of_prio_lt hlt _ _)).symm
    · rename_i hge
      split
      · rename_i hband
        refine h.concat_set (abpAllow a) ?_
        rw [hstored, show entryStrength existing = strength a.band existing.wildcard by
          rw [entryStrength, hband]]
        exact strength_or a.band existing.wildcard a.wildcard
      · rename_i hband
        refine h.concat_of_le (abpAllow a) ?_
        rw [hstored]
        exact strength_le_of_prio_lt
          (lt_of_le_of_ne (not_lt.mp hge) fun heq => hband (AllowBand.prio_inj heq).symm) _ _

theorem strongest_addAbpAllows (allows : List AllowDomainRule) (h : Strongest as db) :
    Strongest (as ++ allows.map abpAllow) (allows.foldl addAbpAllow db) := by
  induction allows generalizing as db with
  | nil => simpa using h
  | cons a allows ih =>
      have hrest := ih (strongest_addAbpAllow h a)
      rwa [List.append_assoc] at hrest

/-- Everything a build allows by domain, in order: the user's whitelists, the permit rows,
then the adblock rules. -/
def allows (u : Unicode) (manifest : List FeedRow) (config : Config) : List Allow :=
  userAllows u config.userWhitelist ++ userAllows u config.userUnlock ++
    manifest.flatMap (rowAllows u) ++
    ((survivors (manifestRules u manifest)).filterMap (allowDomain? u)).map abpAllow

/-- No allow of its domain is stronger. -/
def Prevails (allows : List Allow) (a : Allow) : Prop :=
  a ∈ allows ∧ ∀ b ∈ allows, b.domain = a.domain → b.strength ≤ a.strength

/-- What a key holds is the allow that prevails for it. -/
theorem Strongest.prevails_iff (h : Strongest as db) (a : Allow) :
    Prevails as a ↔
      ∃ e, db.get a.domain = some e ∧ e.band = a.band ∧ e.wildcard = a.wildcard := by
  have htop := h a.domain
  constructor
  · rintro ⟨hmem, hle⟩
    have hstored := htop.le ⟨a, hmem, rfl, rfl⟩
    have hpos : 0 < storedStrength db a.domain :=
      lt_of_lt_of_le (strength_pos a.band a.wildcard) hstored
    obtain ⟨b, hb, hdomain, hstrength⟩ := htop.mem hpos
    cases hget : db.get a.domain with
    | none =>
        rw [storedStrength, hget] at hpos
        exact absurd hpos (lt_irrefl 0)
    | some e =>
        rw [storedStrength, hget] at hstored hstrength
        have heq : entryStrength e = a.strength :=
          le_antisymm (hstrength.trans_le (hle b hb hdomain)) hstored
        exact ⟨e, rfl, strength_inj heq⟩
  · rintro ⟨e, hget, hband, hwild⟩
    have hstored : storedStrength db a.domain = a.strength := by
      rw [storedStrength, hget, Option.elim_some, entryStrength, hband, hwild]
      rfl
    rw [hstored] at htop
    obtain ⟨b, hb, hdomain, hstrength⟩ := htop.mem (strength_pos a.band a.wildcard)
    obtain ⟨hband', hwild'⟩ := strength_inj hstrength
    obtain rfl : a = b := by
      cases a
      cases b
      simp_all
    exact ⟨hb, fun b' hb' hdomain' => htop.le ⟨b', hb', hdomain', rfl⟩⟩

/-- The whitelist of a build holds the strongest allow of each domain. -/
theorem strongest_build (u : Unicode) (manifest : List FeedRow) (config : Config) :
    Strongest (allows u manifest config) (build u manifest config).whiteDb := by
  rw [build_whiteDb]
  exact strongest_addAbpAllows _
    (permitting_rows manifest (permitting_initialState u config)).strongest

end PfBlockerNG.AllowStores
