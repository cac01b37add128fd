import PfBlockerNG.StableBuckets
import PfBlockerNG.Strings

/-!
Rebuilding the firewall rules: the administrator's rules are sorted into buckets, the rules of the
package are generated anew from their templates, and the pass order puts the buckets in sequence.
-/

namespace PfBlockerNG.AutoruleList

open PfBlockerNG.Strings
open PfBlockerNG.StableBuckets

variable {ρ : Type*}

/-- A rule of `filter/rule`; a key that is not set is `none`, and `rest` are the other keys. -/
structure Rule (ρ : Type*) where
  descr : Option Str
  type : Option Str
  floating : Option Str
  interface : Option Str
  associatedRuleId : Option Str
  ipprotocol : Option Str
  /-- `['source']['address']`. -/
  source : Option Str
  /-- `['destination']['address']`. -/
  destination : Option Str
  tracker : Option Str
  rest : ρ
deriving DecidableEq

/-- An entry of the rule list; a corrupt one is not an array. -/
inductive Entry (ρ : Type*) where
  | corrupt (value : Str)
  | rule (r : Rule ρ)
deriving DecidableEq

/-! The types of the rules of the pass/match buckets. -/

def passType : Str := "pass".toList

def matchType : Str := "match".toList

/-- `PFB_DNS_REDIR_DESCR_V4_PFX`. -/
def dnsRedirDescrPfx : Str := "pfB_DNS_Redirect_".toList

/-- `PFB_DOT_BLOCK_DESCR_PFX`. -/
def dotBlockDescrPfx : Str := "pfB_DoT_Block_".toList

/-- `pfb_rule_alias_needs_v4_suffix()`. -/
def pfbRuleAliasNeedsV4Suffix (address ipprotocol : Str) : Bool :=
  startsWith "pfB_".toList address && !endsWith "_v4".toList address &&
    !endsWith "_v6".toList address && ipprotocol == "inet".toList

def withV4Suffix (ipprotocol : Str) (address : Option Str) : Option Str :=
  if pfbRuleAliasNeedsV4Suffix (address.getD []) ipprotocol then
    some (address.getD [] ++ "_v4".toList)
  else address

namespace Entry

def descr : Entry ρ → Str
  | corrupt _ => []
  | rule r => r.descr.getD []

def isFloating : Entry ρ → Bool
  | corrupt _ => false
  | rule r => r.floating.getD [] == "yes".toList

def type : Entry ρ → Str
  | corrupt _ => []
  | rule r => r.type.getD []

def interface : Entry ρ → Str
  | corrupt _ => []
  | rule r => r.interface.getD []

/-- `isset($rule['associated-rule-id'])`. -/
def isAssociated : Entry ρ → Bool
  | corrupt _ => false
  | rule r => r.associatedRuleId.isSome

/-- The upgrade of the alias names of a user rule. -/
def upgrade : Entry ρ → Entry ρ
  | corrupt value => corrupt value
  | rule r => rule { r with
      source := withV4Suffix (r.ipprotocol.getD []) r.source
      destination := withV4Suffix (r.ipprotocol.getD []) r.destination }

end Entry

/-- `pfb_rule_is_pfb_owned()`. -/
def pfbRuleIsPfbOwned (e : Entry ρ) : Bool :=
  startsWith "pfB_".toList e.descr && !startsWith dnsRedirDescrPfx e.descr &&
    !startsWith dotBlockDescrPfx e.descr

inductive PassOrder where
  | order0
  | order1
  | order2
  | order3
  | order4
deriving DecidableEq

/-- `$order`; what is no known value behaves as `order_0`. -/
def passOrder (order : Option Str) : PassOrder :=
  let order := order.getD []
  if order = "order_1".toList then .order1
  else if order = "order_2".toList then .order2
  else if order = "order_3".toList then .order3
  else if order = "order_4".toList then .order4
  else .order0

/-- The lists the user rules are sorted into. -/
structure UserRules (ρ : Type*) where
  userPm : List (Entry ρ)
  userBr : List (Entry ρ)
  fpermit : List (Entry ρ)
  fmatch : List (Entry ρ)
  fother : List (Entry ρ)

/-- One turn of the loop over the existing rules. -/
def assign (order : PassOrder) (float : Bool) (managed : List Str) (lists : UserRules ρ)
    (e : Entry ρ) : UserRules ρ :=
  if pfbRuleIsPfbOwned e then lists
  else
    let e := e.upgrade
    if float then
      if order == .order0 && e.isFloating then { lists with fother := lists.fother ++ [e] }
      else if e.isFloating && e.type == passType then
        { lists with fpermit := lists.fpermit ++ [e] }
      else if e.isFloating && e.type == matchType then
        { lists with fmatch := lists.fmatch ++ [e] }
      else if e.isFloating then { lists with fother := lists.fother ++ [e] }
      else { lists with userBr := lists.userBr ++ [e] }
    else if e.isFloating then { lists with fother := lists.fother ++ [e] }
    else if e.interface ∈ managed ∧ (e.type = passType ∨ e.isAssociated) ∧ order ≠ .order0 then
      { lists with userPm := lists.userPm ++ [e] }
    else { lists with userBr := lists.userBr ++ [e] }

def assignAll (order : PassOrder) (float : Bool) (managed : List Str)
    (existing : List (Entry ρ)) : UserRules ρ :=
  existing.foldl (assign order float managed) ⟨[], [], [], [], []⟩

namespace Rule

def permits (r : Rule ρ) : Prop := r.type = some passType ∨ r.type = some matchType

def floats (r : Rule ρ) : Prop := r.floating = some "yes".toList

instance (r : Rule ρ) : Decidable r.permits := inferInstanceAs (Decidable (_ ∨ _))

instance (r : Rule ρ) : Decidable r.floats := inferInstanceAs (Decidable (_ = _))

end Rule

/-- `$pfb_generated`: the templates of the package's rules, with what the caller promises of
them. With float mode on the permit and deny templates float too. -/
structure Generated (ρ : Type*) (float : Bool) where
  permitInbound : List (Rule ρ)
  permitOutbound : List (Rule ρ)
  denyInbound : List (Rule ρ)
  denyOutbound : List (Rule ρ)
  matchInbound : List (Rule ρ)
  matchOutbound : List (Rule ρ)
  permitSelf : List (Rule ρ)
  denySelf : List (Rule ρ)
  matchSelf : List (Rule ρ)
  dnsblFloat : List (Rule ρ)
  inboundFloating : Str
  outboundFloating : Str
  owned : ∀ r ∈ permitInbound ++ permitOutbound ++ denyInbound ++ denyOutbound ++ matchInbound ++
    matchOutbound ++ permitSelf ++ denySelf ++ matchSelf ++ dnsblFloat,
      pfbRuleIsPfbOwned (.rule r) = true
  permits : ∀ r ∈ permitInbound ++ permitOutbound ++ matchInbound ++ matchOutbound ++ permitSelf ++
    matchSelf ++ dnsblFloat, r.permits
  denies : ∀ r ∈ denyInbound ++ denyOutbound ++ denySelf, ¬ r.permits
  floats : ∀ r ∈ matchInbound ++ matchOutbound ++ permitSelf ++ denySelf ++ matchSelf ++ dnsblFloat,
    r.floats
  mode : ∀ r ∈ permitInbound ++ permitOutbound ++ denyInbound ++ denyOutbound,
    (r.floats ↔ float = true)

section Emission

variable {σ : Type*} (pfbTracker : σ → Str → Str → Str → Str × σ)

/-- A template placed on an interface under its tracker. -/
def Rule.place (r : Rule ρ) (interface tracker : Str) : Rule ρ :=
  { r with interface := some interface, tracker := some tracker }

/-- One loop over templates; `pfb_tracker()` goes by the interface `forInterface`. -/
def emit (interface forInterface role : Str) : List (Rule ρ) → σ → List (Rule ρ) × σ
  | [], s => ([], s)
  | r :: rs, s =>
      let (tracker, s) := pfbTracker s (r.descr.getD []) forInterface role
      let (placed, s) := emit interface forInterface role rs s
      (r.place interface tracker :: placed, s)

structure PfbRules (ρ : Type*) where
  ppermit : List (Rule ρ)
  pmatch : List (Rule ρ)
  pdeny : List (Rule ρ)

/-- What the loop over the interfaces of one direction runs on. -/
structure Direction (ρ : Type*) where
  permit : List (Rule ρ)
  matching : List (Rule ρ)
  deny : List (Rule ρ)
  floating : Str
  permitRole : Str
  matchRole : Str
  denyRole : Str

/-- The loop over the interfaces of a direction; `once` is `$pfbrunonce`. -/
def emitDirection (d : Direction ρ) : List Str → Bool → PfbRules ρ × σ → PfbRules ρ × σ
  | [], _, acc => acc
  | interface :: interfaces, once, (rules, s) =>
      let (permit, s) := emit pfbTracker interface interface d.permitRole d.permit s
      let (matching, s) :=
        if once && !d.matching.isEmpty then
          emit pfbTracker d.floating interface d.matchRole d.matching s
        else ([], s)
      let (deny, s) := emit pfbTracker interface interface d.denyRole d.deny s
      emitDirection d interfaces (once && d.matching.isEmpty)
        (⟨rules.ppermit ++ permit, rules.pmatch ++ matching, rules.pdeny ++ deny⟩, s)

/-- `$twins`. -/
structure Twins (ρ : Type*) where
  permitSelf : List (Rule ρ)
  matchSelf : List (Rule ρ)
  denySelf : List (Rule ρ)

def emitTwins (permitSelf matchSelf denySelf : List (Rule ρ)) :
    List Str → Twins ρ × σ → Twins ρ × σ
  | [], acc => acc
  | interface :: interfaces, (twins, s) =>
      let (permit, s) := emit pfbTracker interface interface "permit_self".toList permitSelf s
      let (matching, s) := emit pfbTracker interface interface "match_self".toList matchSelf s
      let (deny, s) := emit pfbTracker interface interface "deny_self".toList denySelf s
      emitTwins permitSelf matchSelf denySelf interfaces
        (⟨twins.permitSelf ++ permit, twins.matchSelf ++ matching, twins.denySelf ++ deny⟩, s)

/-- `$apply`: one group's buckets in the sequence of the pass order. -/
def apply {α : Type*} (order : PassOrder) (pm br upm ubr : List α) : List α :=
  match order with
  | .order1 => upm ++ pm ++ br ++ ubr
  | .order2 => pm ++ upm ++ br ++ ubr
  | .order4 => pm ++ br ++ ubr ++ upm
  | .order0 | .order3 => pm ++ br ++ upm ++ ubr

variable {float : Bool}

def inbound (gen : Generated ρ float) : Direction ρ where
  permit := gen.permitInbound
  matching := gen.matchInbound
  deny := gen.denyInbound
  floating := gen.inboundFloating
  permitRole := "permit_in".toList
  matchRole := "match_in".toList
  denyRole := "deny_in".toList

def outbound (gen : Generated ρ float) : Direction ρ where
  permit := gen.permitOutbound
  matching := gen.matchOutbound
  deny := gen.denyOutbound
  floating := gen.outboundFloating
  permitRole := "permit_out".toList
  matchRole := "match_out".toList
  denyRole := "deny_out".toList

/-- The rules of the package, generated from the templates. -/
def generate (gen : Generated ρ float) (inIfaces outIfaces : List Str) (s : σ) :
    PfbRules ρ × Twins ρ :=
  let (rules, s) := emitDirection pfbTracker (inbound gen) inIfaces true (⟨[], [], []⟩, s)
  let (rules, s) := emitDirection pfbTracker (outbound gen) outIfaces true (rules, s)
  let (twins, _) :=
    emitTwins pfbTracker gen.permitSelf gen.matchSelf gen.denySelf inIfaces (⟨[], [], []⟩, s)
  (rules, twins)

/-- `pfb_build_autorule_list()`, from a state of the trackers. -/
def pfbBuildAutoruleList (existing : List (Entry ρ)) (gen : Generated ρ float)
    (order : Option Str) (inIfaces outIfaces : List Str) (s : σ) : List (Entry ρ) :=
  let order := passOrder order
  let lists := assignAll order float (inIfaces ++ outIfaces) existing
  let (rules, twins) := generate pfbTracker gen inIfaces outIfaces s
  let own := List.map Entry.rule
  if float then
    apply order (own (gen.dnsblFloat ++ rules.ppermit ++ rules.pmatch ++ twins.permitSelf ++
        twins.matchSelf)) (own (rules.pdeny ++ twins.denySelf)) (lists.fpermit ++ lists.fmatch)
        lists.fother ++
      apply order [] [] [] lists.userBr
  else
    apply order (own (gen.dnsblFloat ++ rules.pmatch ++ twins.permitSelf ++ twins.matchSelf))
        (own twins.denySelf) lists.fother [] ++
      apply order (own rules.ppermit) (own rules.pdeny) lists.userPm lists.userBr

end Emission

/-! The rules of the administrator. -/

section Users

theorem withV4Suffix_idem (ipprotocol : Str) (address : Option Str) :
    withV4Suffix ipprotocol (withV4Suffix ipprotocol address) =
      withV4Suffix ipprotocol address := by
  by_cases hneeds : pfbRuleAliasNeedsV4Suffix (address.getD []) ipprotocol = true
  · have hdone : withV4Suffix ipprotocol address = some (address.getD [] ++ "_v4".toList) :=
      if_pos hneeds
    have hends : endsWith "_v4".toList (address.getD [] ++ "_v4".toList) = true :=
      List.isSuffixOf_iff_suffix.mpr (List.suffix_append _ _)
    have hsuffixed : pfbRuleAliasNeedsV4Suffix (address.getD [] ++ "_v4".toList) ipprotocol =
        false := by
      rw [pfbRuleAliasNeedsV4Suffix, hends, Bool.not_true, Bool.and_false, Bool.false_and,
        Bool.false_and]
    rw [hdone]
    exact if_neg (ne_true_of_eq_false hsuffixed)
  · have hkept : withV4Suffix ipprotocol address = address := if_neg hneeds
    rw [hkept, hkept]

namespace Entry

@[simp] theorem upgrade_upgrade (e : Entry ρ) : e.upgrade.upgrade = e.upgrade := by
  cases e with
  | corrupt value => rfl
  | rule r => simp only [upgrade, withV4Suffix_idem]

@[simp] theorem upgrade_descr (e : Entry ρ) : e.upgrade.descr = e.descr := by cases e <;> rfl

end Entry

@[simp] theorem pfbRuleIsPfbOwned_upgrade (e : Entry ρ) :
    pfbRuleIsPfbOwned e.upgrade = pfbRuleIsPfbOwned e := by
  simp only [pfbRuleIsPfbOwned, Entry.upgrade_descr]

/-- The user rules of a list, under their upgraded alias names. -/
def userRules (existing : List (Entry ρ)) : List (Entry ρ) :=
  (existing.filter fun e => !pfbRuleIsPfbOwned e).map Entry.upgrade

inductive UserBucket where
  | userPm
  | userBr
  | fpermit
  | fmatch
  | fother
deriving DecidableEq

def UserRules.get (lists : UserRules ρ) : UserBucket → List (Entry ρ)
  | .userPm => lists.userPm
  | .userBr => lists.userBr
  | .fpermit => lists.fpermit
  | .fmatch => lists.fmatch
  | .fother => lists.fother

/-- The bucket of a user rule. With float mode on, and an order other than `order_0`, the floating
rules are split by their type; with float mode off the rules of managed interfaces are split into
those that pass or are associated with another rule, and the rest. -/
def route (order : PassOrder) (float : Bool) (managed : List Str) (e : Entry ρ) : UserBucket :=
  if e.isFloating then
    if float && order != .order0 then
      if e.type = passType then .fpermit
      else if e.type = matchType then .fmatch
      else .fother
    else .fother
  else if !float && order != .order0 then
    if e.interface ∈ managed ∧ (e.type = passType ∨ e.isAssociated) then .userPm else .userBr
  else .userBr

def UserRules.add (lists : UserRules ρ) (e : Entry ρ) : UserBucket → UserRules ρ
  | .userPm => { lists with userPm := lists.userPm ++ [e] }
  | .userBr => { lists with userBr := lists.userBr ++ [e] }
  | .fpermit => { lists with fpermit := lists.fpermit ++ [e] }
  | .fmatch => { lists with fmatch := lists.fmatch ++ [e] }
  | .fother => { lists with fother := lists.fother ++ [e] }

theorem UserRules.add_get (lists : UserRules ρ) (e : Entry ρ) (j k : UserBucket) :
    (lists.add e j).get k = lists.get k ++ if j = k then [e] else [] := by
  cases j <;> cases k <;> simp [add, get]

theorem assign_eq (order : PassOrder) (float : Bool) (managed : List Str) (lists : UserRules ρ)
    (e : Entry ρ) :
    assign order float managed lists e =
      if pfbRuleIsPfbOwned e then lists
      else lists.add e.upgrade (route order float managed e.upgrade) := by
  have htypes : matchType ≠ passType := by decide
  unfold assign route
  generalize e.upgrade = e'
  split
  · rfl
  · dsimp only
    cases hfloating : e'.isFloating with
    | true =>
        cases float with
        | false => rfl
        | true =>
            by_cases horder : order = .order0
            · simp [horder, UserRules.add]
            · by_cases hpass : e'.type = passType
              · simp [horder, hpass, UserRules.add]
              · by_cases hmatch : e'.type = matchType
                · simp [horder, hmatch, htypes, UserRules.add]
                · simp [horder, hpass, hmatch, UserRules.add]
    | false =>
        cases float with
        | true => simp [UserRules.add]
        | false =>
            by_cases horder : order = .order0
            · simp [horder, UserRules.add]
            · by_cases hmanaged : e'.interface ∈ managed ∧
                  (e'.type = passType ∨ e'.isAssociated = true)
              · simp [horder, hmanaged, UserRules.add]
              · simp [horder, hmanaged, UserRules.add]

/-- The loop sorts the user rules into their buckets. -/
theorem assignAll_get (order : PassOrder) (float : Bool) (managed : List Str)
    (existing : List (Entry ρ)) (k : UserBucket) :
    (assignAll order float managed existing).get k =
      bucket (route order float managed) (userRules existing) k := by
  have hloop : ∀ lists : UserRules ρ, (existing.foldl (assign order float managed) lists).get k =
      lists.get k ++ bucket (route order float managed) (userRules existing) k := by
    induction existing with
    | nil =>
        intro lists
        simp [userRules, bucket]
    | cons e existing ih =>
        intro lists
        rw [List.foldl_cons, ih, assign_eq]
        by_cases howned : pfbRuleIsPfbOwned e = true
        · simp [howned, userRules]
        · rw [if_neg howned, UserRules.add_get, List.append_assoc]
          congr 1
          by_cases hroute : route order float managed e.upgrade = k <;>
            simp [hroute, howned, userRules, bucket]
  refine (hloop _).trans ?_
  cases k <;> rfl

theorem mem_userRules {existing : List (Entry ρ)} {e : Entry ρ} (h : e ∈ userRules existing) :
    pfbRuleIsPfbOwned e = false ∧ e.upgrade = e := by
  obtain ⟨e', he', rfl⟩ := List.mem_map.mp h
  have hfree := (List.mem_filter.mp he').2
  rw [Bool.not_eq_true'] at hfree
  exact ⟨by rw [pfbRuleIsPfbOwned_upgrade, hfree], Entry.upgrade_upgrade e'⟩

end Users

/-! The rules of the package. -/

section Package

variable {σ : Type*} {pfbTracker : σ → Str → Str → Str → Str × σ} {float : Bool}

/-- A rule placed from one of the templates. -/
def Placed (templates : List (Rule ρ)) (r : Rule ρ) : Prop :=
  ∃ t ∈ templates, ∃ interface tracker, r = t.place interface tracker

theorem Placed.mono {xs ys : List (Rule ρ)} (h : xs ⊆ ys) {r : Rule ρ} (hr : Placed xs r) :
    Placed ys r := by
  obtain ⟨t, ht, hplace⟩ := hr
  exact ⟨t, h ht, hplace⟩

theorem placed_emit (interface forInterface role : Str) (templates : List (Rule ρ)) (s : σ) :
    ∀ r ∈ (emit pfbTracker interface forInterface role templates s).1, Placed templates r := by
  induction templates generalizing s with
  | nil =>
      intro r hr
      cases hr
  | cons t templates ih =>
      intro r hr
      rcases List.mem_cons.mp hr with rfl | hr
      · exact ⟨t, List.mem_cons_self, _, _, rfl⟩
      · exact (ih _ r hr).mono (List.subset_cons_self t templates)

/-- Every rule of the lists is placed from the templates of its list. -/
structure PfbRules.From (rules : PfbRules ρ) (permit matching deny : List (Rule ρ)) : Prop where
  ppermit : ∀ r ∈ rules.ppermit, Placed permit r
  pmatch : ∀ r ∈ rules.pmatch, Placed matching r
  pdeny : ∀ r ∈ rules.pdeny, Placed deny r

variable (pfbTracker) in
theorem emitDirection_from {d : Direction ρ} {permit matching deny : List (Rule ρ)}
    (hpermit : d.permit ⊆ permit) (hmatching : d.matching ⊆ matching) (hdeny : d.deny ⊆ deny)
    (interfaces : List Str) (once : Bool) (acc : PfbRules ρ × σ)
    (hacc : acc.1.From permit matching deny) :
    (emitDirection pfbTracker d interfaces once acc).1.From permit matching deny := by
  induction interfaces generalizing once acc with
  | nil => exact hacc
  | cons interface interfaces ih =>
      obtain ⟨rules, s⟩ := acc
      have honce : ∀ (b : Bool) (s : σ), ∀ r ∈ (if b then
          emit pfbTracker d.floating interface d.matchRole d.matching s else ([], s)).1,
            Placed d.matching r := by
        intro b s r hr
        cases b with
        | false => cases hr
        | true => exact placed_emit _ _ _ _ _ r hr
      unfold emitDirection
      refine ih _ _ ⟨?_, ?_, ?_⟩
      · intro r hr
        rcases List.mem_append.mp hr with hr | hr
        · exact hacc.ppermit r hr
        · exact (placed_emit _ _ _ _ _ r hr).mono hpermit
      · intro r hr
        rcases List.mem_append.mp hr with hr | hr
        · exact hacc.pmatch r hr
        · exact (honce _ _ r hr).mono hmatching
      · intro r hr
        rcases List.mem_append.mp hr with hr | hr
        · exact hacc.pdeny r hr
        · exact (placed_emit _ _ _ _ _ r hr).mono hdeny

structure Twins.From (twins : Twins ρ) (permitSelf matchSelf denySelf : List (Rule ρ)) : Prop where
  permitSelf : ∀ r ∈ twins.permitSelf, Placed permitSelf r
  matchSelf : ∀ r ∈ twins.matchSelf, Placed matchSelf r
  denySelf : ∀ r ∈ twins.denySelf, Placed denySelf r

theorem emitTwins_from {permitSelf matchSelf denySelf : List (Rule ρ)} (interfaces : List Str)
    (acc : Twins ρ × σ) (hacc : acc.1.From permitSelf matchSelf denySelf) :
    (emitTwins pfbTracker permitSelf matchSelf denySelf interfaces acc).1.From permitSelf matchSelf
      denySelf := by
  induction interfaces generalizing acc with
  | nil => exact hacc
  | cons interface interfaces ih =>
      obtain ⟨twins, s⟩ := acc
      unfold emitTwins
      refine ih _ ⟨?_, ?_, ?_⟩
      · intro r hr
        rcases List.mem_append.mp hr with hr | hr
        · exact hacc.permitSelf r hr
        · exact placed_emit _ _ _ _ _ r hr
      · intro r hr
        rcases List.mem_append.mp hr with hr | hr
        · exact hacc.matchSelf r hr
        · exact placed_emit _ _ _ _ _ r hr
      · intro r hr
        rcases List.mem_append.mp hr with hr | hr
        · exact hacc.denySelf r hr
        · exact placed_emit _ _ _ _ _ r hr

variable (pfbTracker) in
theorem generate_from (gen : Generated ρ float) (inIfaces outIfaces : List Str) (s : σ) :
    (generate pfbTracker gen inIfaces outIfaces s).1.From
        (gen.permitInbound ++ gen.permitOutbound) (gen.matchInbound ++ gen.matchOutbound)
        (gen.denyInbound ++ gen.denyOutbound) ∧
      (generate pfbTracker gen inIfaces outIfaces s).2.From gen.permitSelf gen.matchSelf
        gen.denySelf := by
  have hempty : (⟨[], [], []⟩ : PfbRules ρ).From (gen.permitInbound ++ gen.permitOutbound)
      (gen.matchInbound ++ gen.matchOutbound) (gen.denyInbound ++ gen.denyOutbound) :=
    ⟨fun _ hr => (by cases hr), fun _ hr => (by cases hr), fun _ hr => (by cases hr)⟩
  have hin := emitDirection_from pfbTracker (d := inbound gen)
    (List.subset_append_left _ _) (List.subset_append_left _ _) (List.subset_append_left _ _)
    inIfaces true (_, s) hempty
  refine ⟨emitDirection_from pfbTracker (d := outbound gen) (List.subset_append_right _ _)
    (List.subset_append_right _ _) (List.subset_append_right _ _) outIfaces true _ hin, ?_⟩
  exact emitTwins_from inIfaces _
    ⟨fun _ hr => (by cases hr), fun _ hr => (by cases hr), fun _ hr => (by cases hr)⟩

end Package

/-! The columns of the ORDER table, and where the rebuild puts a rule. -/

section Order

inductive Column where
  | pfbPass
  | pfbBlock
  | userPass
  | userBlock
deriving DecidableEq

/-- The ORDER table. In `order_0` the user rules are one column, the last. -/
def orderTable : PassOrder → List Column
  | .order1 => [.userPass, .pfbPass, .pfbBlock, .userBlock]
  | .order2 => [.pfbPass, .userPass, .pfbBlock, .userBlock]
  | .order4 => [.pfbPass, .pfbBlock, .userBlock, .userPass]
  | .order0 | .order3 => [.pfbPass, .pfbBlock, .userPass, .userBlock]

def Entry.permits (e : Entry ρ) : Prop := e.type = passType ∨ e.type = matchType

instance (e : Entry ρ) : Decidable e.permits := inferInstanceAs (Decidable (_ ∨ _))

/-- The column of a rule. User rules that are not split stand together: the floating ones with
float mode off in the pass/match column, the others in the last one. -/
def column (order : PassOrder) (float : Bool) (managed : List Str) (e : Entry ρ) : Column :=
  if pfbRuleIsPfbOwned e then if e.permits then .pfbPass else .pfbBlock
  else if e.isFloating then
    if float then if order ≠ .order0 ∧ e.permits then .userPass else .userBlock
    else .userPass
  else if float then .userBlock
  else if order ≠ .order0 ∧ e.interface ∈ managed ∧ (e.type = passType ∨ e.isAssociated) then
    .userPass
  else .userBlock

/-- The position of a rule's column in its group. -/
def rank (order : PassOrder) (float : Bool) (managed : List Str) (e : Entry ρ) : Nat :=
  (orderTable order).idxOf (column order float managed e)

/-- The groups one after the other. -/
def place (order : PassOrder) (float : Bool) (managed : List Str) (e : Entry ρ) : Nat :=
  (if e.isFloating then 0 else 4) + rank order float managed e

/-- The bucket of a column. -/
def pick {α : Type*} (pm br upm ubr : List α) : Column → List α
  | .pfbPass => pm
  | .pfbBlock => br
  | .userPass => upm
  | .userBlock => ubr

/-- The columns of a group with their positions. -/
def segments {α : Type*} (base : Nat) (order : PassOrder) (pm br upm ubr : List α) :
    List (Nat × List α) :=
  (orderTable order).map fun c => (base + (orderTable order).idxOf c, pick pm br upm ubr c)

theorem apply_eq_segments {α : Type*} (base : Nat) (order : PassOrder) (pm br upm ubr : List α) :
    apply order pm br upm ubr = (segments base order pm br upm ubr).flatMap Prod.snd := by
  cases order <;> simp [apply, segments, orderTable, pick]

theorem rank_lt (order : PassOrder) (float : Bool) (managed : List Str) (e : Entry ρ) :
    rank order float managed e < 4 := by
  unfold rank
  generalize column order float managed e = c
  cases order <;> cases c <;> decide

/-- Two groups whose rules stand in their columns. -/
theorem pairwise_place {order : PassOrder} {float : Bool} {managed : List Str}
    {pm br upm ubr pm' br' upm' ubr' : List (Entry ρ)}
    (hfloating : ∀ c, ∀ e ∈ pick pm br upm ubr c,
      e.isFloating = true ∧ column order float managed e = c)
    (hinterface : ∀ c, ∀ e ∈ pick pm' br' upm' ubr' c,
      e.isFloating = false ∧ column order float managed e = c) :
    (apply order pm br upm ubr ++ apply order pm' br' upm' ubr').Pairwise fun e e' =>
      place order float managed e ≤ place order float managed e' := by
  have hpositions : ((orderTable order).map (fun c => 0 + (orderTable order).idxOf c) ++
      (orderTable order).map fun c => 4 + (orderTable order).idxOf c).Pairwise (· ≤ ·) := by
    cases order <;> decide
  rw [apply_eq_segments 0, apply_eq_segments 4, ← List.flatMap_append]
  refine pairwise_segments ?_ ?_
  · rw [← List.pairwise_map (f := Prod.fst), List.map_append, segments, segments, List.map_map,
      List.map_map]
    exact hpositions
  · intro segment hsegment e he
    rcases List.mem_append.mp hsegment with hmem | hmem
    · obtain ⟨c, -, rfl⟩ := List.mem_map.mp hmem
      obtain ⟨hfloat, hcolumn⟩ := hfloating c e he
      simp [place, rank, hfloat, hcolumn]
    · obtain ⟨c, -, rfl⟩ := List.mem_map.mp hmem
      obtain ⟨hfloat, hcolumn⟩ := hinterface c e he
      simp [place, rank, hfloat, hcolumn]

end Order

section Rebuild

variable {σ : Type*} {pfbTracker : σ → Str → Str → Str → Str × σ} {float : Bool}

/-- The sequence of the user buckets; those the float mode does not fill are empty. -/
def bucketOrder : PassOrder → List UserBucket
  | .order4 => [.fother, .fpermit, .fmatch, .userBr, .userPm]
  | .order0 | .order1 | .order2 | .order3 => [.fpermit, .fmatch, .fother, .userPm, .userBr]

theorem nodup_bucketOrder (order : PassOrder) : (bucketOrder order).Nodup := by
  cases order <;> decide

theorem mem_bucketOrder (order : PassOrder) (k : UserBucket) : k ∈ bucketOrder order := by
  cases order <;> cases k <;> decide

theorem getD_eq_iff {o : Option Str} {v : Str} (hv : v ≠ []) : o.getD [] = v ↔ o = some v := by
  cases o with
  | none => simp [Ne.symm hv]
  | some t => simp

theorem Entry.permits_rule (r : Rule ρ) : (Entry.rule r).permits ↔ r.permits :=
  or_congr (getD_eq_iff (by decide)) (getD_eq_iff (by decide))

theorem Entry.isFloating_rule (r : Rule ρ) : (Entry.rule r).isFloating = true ↔ r.floats :=
  beq_iff_eq.trans (getD_eq_iff (by decide))

/-- Rules of the package of one column and one group. -/
def OwnList (rules : List (Rule ρ)) (pass floats : Bool) : Prop :=
  ∀ r ∈ rules, pfbRuleIsPfbOwned (.rule r) = true ∧ (r.permits ↔ pass = true) ∧
    (r.floats ↔ floats = true)

theorem OwnList.append {xs ys : List (Rule ρ)} {pass floats : Bool} (hxs : OwnList xs pass floats)
    (hys : OwnList ys pass floats) : OwnList (xs ++ ys) pass floats :=
  fun r hr => (List.mem_append.mp hr).elim (hxs r) (hys r)

theorem OwnList.subset {xs ys : List (Rule ρ)} {pass floats : Bool} (hys : OwnList ys pass floats)
    (h : xs ⊆ ys) : OwnList xs pass floats := fun r hr => hys r (h hr)

/-- What a rule was placed from decides its column and its group. -/
theorem OwnList.of_placed {templates rules : List (Rule ρ)} {pass floats : Bool}
    (h : OwnList templates pass floats) (hplaced : ∀ r ∈ rules, Placed templates r) :
    OwnList rules pass floats := by
  intro r hr
  obtain ⟨t, ht, interface, tracker, rfl⟩ := hplaced r hr
  exact h t ht

theorem OwnList.column {rules : List (Rule ρ)} {pass floats : Bool}
    (h : OwnList rules pass floats) {e : Entry ρ} (he : e ∈ rules.map Entry.rule)
    (order : PassOrder) (managed : List Str) :
    e.isFloating = floats ∧
      column order float managed e = if pass then .pfbPass else .pfbBlock := by
  obtain ⟨r, hr, rfl⟩ := List.mem_map.mp he
  obtain ⟨howned, hpass, hfloats⟩ := h r hr
  refine ⟨Bool.eq_iff_iff.mpr ((Entry.isFloating_rule r).trans hfloats), ?_⟩
  unfold AutoruleList.column
  rw [if_pos howned]
  exact if_congr ((Entry.permits_rule r).trans hpass) rfl rfl

namespace Generated

variable (gen : Generated ρ float)

theorem ownPermit : OwnList (gen.permitInbound ++ gen.permitOutbound) true float := by
  intro r hr
  refine ⟨gen.owned r ?_, iff_of_true (gen.permits r ?_) rfl, gen.mode r ?_⟩ <;>
    simp only [List.mem_append] at hr ⊢ <;> tauto

theorem ownDeny : OwnList (gen.denyInbound ++ gen.denyOutbound) false float := by
  intro r hr
  refine ⟨gen.owned r ?_, iff_of_false (gen.denies r ?_) Bool.false_ne_true, gen.mode r ?_⟩ <;>
    simp only [List.mem_append] at hr ⊢ <;> tauto

/-- The match templates, the permitting twins and the DNSBL rules float. -/
theorem ownFloating : OwnList (gen.matchInbound ++ gen.matchOutbound ++ gen.permitSelf ++
    gen.matchSelf ++ gen.dnsblFloat) true true := by
  intro r hr
  refine ⟨gen.owned r ?_, iff_of_true (gen.permits r ?_) rfl, iff_of_true (gen.floats r ?_) rfl⟩ <;>
    simp only [List.mem_append] at hr ⊢ <;> tauto

theorem ownDenySelf : OwnList gen.denySelf false true := by
  intro r hr
  refine ⟨gen.owned r ?_, iff_of_false (gen.denies r ?_) Bool.false_ne_true,
    iff_of_true (gen.floats r ?_) rfl⟩ <;> simp only [List.mem_append] <;> tauto

end Generated

/-- The lists of rules of the package, by the column and the group they are for. -/
structure Package (rules : PfbRules ρ) (twins : Twins ρ) (dnsbl : List (Rule ρ)) (float : Bool) :
    Prop where
  ppermit : OwnList rules.ppermit true float
  pdeny : OwnList rules.pdeny false float
  floating : OwnList (dnsbl ++ rules.pmatch ++ twins.permitSelf ++ twins.matchSelf) true true
  denySelf : OwnList twins.denySelf false true

/-- With float mode on all that permits is one floating column. -/
theorem Package.pass {rules : PfbRules ρ} {twins : Twins ρ} {dnsbl : List (Rule ρ)}
    (h : Package rules twins dnsbl true) :
    OwnList (dnsbl ++ rules.ppermit ++ rules.pmatch ++ twins.permitSelf ++ twins.matchSelf) true
      true := by
  refine (h.ppermit.append h.floating).subset fun r hr => ?_
  simp only [List.mem_append] at hr ⊢
  tauto

variable (pfbTracker) in
theorem generate_package (gen : Generated ρ float) (inIfaces outIfaces : List Str) (s : σ) :
    Package (generate pfbTracker gen inIfaces outIfaces s).1
      (generate pfbTracker gen inIfaces outIfaces s).2 gen.dnsblFloat float := by
  obtain ⟨hrules, htwins⟩ := generate_from pfbTracker gen inIfaces outIfaces s
  have hfloating : ∀ {part : List (Rule ρ)}, part ⊆ gen.matchInbound ++ gen.matchOutbound ++
      gen.permitSelf ++ gen.matchSelf ++ gen.dnsblFloat → OwnList part true true :=
    fun h => gen.ownFloating.subset h
  refine ⟨gen.ownPermit.of_placed hrules.ppermit, gen.ownDeny.of_placed hrules.pdeny, ?_,
    gen.ownDenySelf.of_placed htwins.denySelf⟩
  refine (((hfloating ?_).append (OwnList.of_placed (hfloating ?_) hrules.pmatch)).append
    (OwnList.of_placed (hfloating ?_) htwins.permitSelf)).append
    (OwnList.of_placed (hfloating ?_) htwins.matchSelf) <;>
    intro r hr <;> simp only [List.mem_append] at hr ⊢ <;> tauto

theorem filter_own {rules : List (Rule ρ)} {pass floats : Bool} (h : OwnList rules pass floats) :
    (rules.map Entry.rule).filter (fun e => !pfbRuleIsPfbOwned e) = [] := by
  refine List.filter_eq_nil_iff.mpr fun e he => ?_
  obtain ⟨r, hr, rfl⟩ := List.mem_map.mp he
  simp [(h r hr).1]

theorem filter_bucket (existing : List (Entry ρ)) (key : Entry ρ → UserBucket) (k : UserBucket) :
    (bucket key (userRules existing) k).filter (fun e => !pfbRuleIsPfbOwned e) =
      bucket key (userRules existing) k :=
  List.filter_eq_self.mpr fun e he => by
    simp [(mem_userRules (bucket_subset _ _ _ he)).1]

theorem apply_filter {α : Type*} (p : α → Bool) (order : PassOrder) (pm br upm ubr : List α) :
    (apply order pm br upm ubr).filter p =
      apply order (pm.filter p) (br.filter p) (upm.filter p) (ubr.filter p) := by
  cases order <;> simp [apply]

/-- With float mode on no bucket is for managed interfaces, with float mode off the floating rules
are one bucket. -/
theorem route_filled (order : PassOrder) (float : Bool) (managed : List Str) (e : Entry ρ) :
    route order float managed e ∉
      if float then [UserBucket.userPm] else [UserBucket.fpermit, UserBucket.fmatch] := by
  unfold route
  cases float with
  | true =>
      simp only [Bool.true_and, Bool.not_true, Bool.false_and, Bool.false_eq_true, if_false,
        if_true, List.mem_singleton]
      repeat' split
      all_goals decide
  | false =>
      simp only [Bool.false_and, Bool.not_false, Bool.true_and, Bool.false_eq_true, if_false,
        List.mem_cons, List.not_mem_nil, or_false]
      repeat' split
      all_goals decide

variable (pfbTracker) in
/-- The user rules of the new list are the buckets of the old ones. -/
theorem filter_pfbBuildAutoruleList (existing : List (Entry ρ)) (gen : Generated ρ float)
    (order : Option Str) (inIfaces outIfaces : List Str) (s : σ) :
    (pfbBuildAutoruleList pfbTracker existing gen order inIfaces outIfaces s).filter
        (fun e => !pfbRuleIsPfbOwned e) =
      regroup (route (passOrder order) float (inIfaces ++ outIfaces))
        (bucketOrder (passOrder order)) (userRules existing) := by
  have hget := assignAll_get (passOrder order) float (inIfaces ++ outIfaces) existing
  have hpackage := generate_package pfbTracker gen inIfaces outIfaces s
  have hroute := fun e : Entry ρ => route_filled (passOrder order) float (inIfaces ++ outIfaces) e
  unfold pfbBuildAutoruleList
  dsimp only
  generalize generate pfbTracker gen inIfaces outIfaces s = generated at hpackage ⊢
  generalize assignAll (passOrder order) float (inIfaces ++ outIfaces) existing = lists at hget ⊢
  generalize route (passOrder order) float (inIfaces ++ outIfaces) = key at hget hroute ⊢
  obtain ⟨rules, twins⟩ := generated
  have hkept : ∀ k, (lists.get k).filter (fun e => !pfbRuleIsPfbOwned e) = lists.get k := by
    intro k
    rw [hget k]
    exact filter_bucket existing key k
  have huserPm := hkept .userPm
  have huserBr := hkept .userBr
  have hfpermit := hkept .fpermit
  have hfmatch := hkept .fmatch
  have hfother := hkept .fother
  have hregroup : regroup key (bucketOrder (passOrder order)) (userRules existing) =
      (bucketOrder (passOrder order)).flatMap lists.get :=
    List.flatMap_congr fun k _ => (hget k).symm
  simp only [UserRules.get] at huserPm huserBr hfpermit hfmatch hfother
  rw [hregroup]
  cases float with
  | true =>
      have hnone : lists.userPm = [] :=
        (hget .userPm).trans (bucket_eq_nil fun e _ h => hroute e (by simp [h]))
      simp only [if_true]
      rw [List.filter_append, apply_filter, apply_filter, filter_own hpackage.pass,
        filter_own (hpackage.pdeny.append hpackage.denySelf), List.filter_append, hfpermit, hfmatch,
        hfother, huserBr]
      cases passOrder order <;> simp [apply, bucketOrder, UserRules.get, hnone]
  | false =>
      have hfpermit : lists.fpermit = [] :=
        (hget .fpermit).trans (bucket_eq_nil fun e _ h => hroute e (by simp [h]))
      have hfmatch : lists.fmatch = [] :=
        (hget .fmatch).trans (bucket_eq_nil fun e _ h => hroute e (by simp [h]))
      simp only [Bool.false_eq_true, if_false]
      rw [List.filter_append, apply_filter, apply_filter, filter_own hpackage.floating,
        filter_own hpackage.denySelf, filter_own hpackage.ppermit, filter_own hpackage.pdeny,
        hfother, huserPm, huserBr]
      cases passOrder order <;> simp [apply, bucketOrder, UserRules.get, hfpermit, hfmatch]

/-- The group and the column of a bucket. -/
def bucketColumn (float : Bool) : UserBucket → Bool × Column
  | .fpermit | .fmatch => (true, .userPass)
  | .fother => (true, if float then .userBlock else .userPass)
  | .userPm => (false, .userPass)
  | .userBr => (false, .userBlock)

theorem column_of_route {e : Entry ρ} (hfree : pfbRuleIsPfbOwned e = false) (order : PassOrder)
    (float : Bool) (managed : List Str) :
    (e.isFloating, column order float managed e) =
      bucketColumn float (route order float managed e) := by
  have htypes : matchType ≠ passType := by decide
  unfold column route Entry.permits
  rw [if_neg (ne_true_of_eq_false hfree)]
  cases e.isFloating with
  | true =>
      cases float with
      | true =>
          by_cases horder : order = .order0
          · simp [horder, bucketColumn]
          · by_cases hpass : e.type = passType
            · simp [horder, hpass, bucketColumn]
            · by_cases hmatch : e.type = matchType
              · simp [horder, hmatch, htypes, bucketColumn]
              · simp [horder, hpass, hmatch, bucketColumn]
      | false => rfl
  | false =>
      cases float with
      | true => simp [bucketColumn]
      | false =>
          by_cases horder : order = .order0
          · simp [horder, bucketColumn]
          · by_cases hmanaged : e.interface ∈ managed ∧ (e.type = passType ∨ e.isAssociated = true)
            · simp [horder, hmanaged, bucketColumn]
            · simp [horder, hmanaged, bucketColumn]

/-- Floating rules first, and each group in the columns of the table. -/
theorem pairwise_pfbBuildAutoruleList (existing : List (Entry ρ)) (gen : Generated ρ float)
    (order : Option Str) (inIfaces outIfaces : List Str) (s : σ) :
    (pfbBuildAutoruleList pfbTracker existing gen order inIfaces outIfaces s).Pairwise
      fun e e' => place (passOrder order) float (inIfaces ++ outIfaces) e ≤
        place (passOrder order) float (inIfaces ++ outIfaces) e' := by
  have hget := assignAll_get (passOrder order) float (inIfaces ++ outIfaces) existing
  have hpackage := generate_package pfbTracker gen inIfaces outIfaces s
  unfold pfbBuildAutoruleList
  dsimp only
  generalize generate pfbTracker gen inIfaces outIfaces s = generated at hpackage ⊢
  generalize assignAll (passOrder order) float (inIfaces ++ outIfaces) existing = lists at hget ⊢
  obtain ⟨rules, twins⟩ := generated
  have huser : ∀ k, ∀ e ∈ lists.get k, (e.isFloating,
      column (passOrder order) float (inIfaces ++ outIfaces) e) = bucketColumn float k := by
    intro k e he
    rw [hget k, mem_bucket] at he
    rw [column_of_route (mem_userRules he.1).1, he.2]
  have hown : ∀ {rules : List (Rule ρ)} {pass floats : Bool}, OwnList rules pass floats →
      ∀ e ∈ rules.map Entry.rule, e.isFloating = floats ∧
        column (passOrder order) float (inIfaces ++ outIfaces) e =
          if pass then .pfbPass else .pfbBlock :=
    fun h e he => h.column he _ _
  have hnone : ∀ {P : Entry ρ → Prop}, ∀ e ∈ ([] : List (Entry ρ)), P e :=
    fun e he => by cases he
  cases float with
  | true =>
      simp only [if_true]
      refine pairwise_place (fun c => ?_) fun c => ?_
      · cases c with
        | pfbPass => exact hown hpackage.pass
        | pfbBlock => exact hown (hpackage.pdeny.append hpackage.denySelf)
        | userPass =>
            intro e he
            rcases List.mem_append.mp he with he | he
            · exact Prod.mk.inj (huser .fpermit e he)
            · exact Prod.mk.inj (huser .fmatch e he)
        | userBlock => exact fun e he => Prod.mk.inj (huser .fother e he)
      · cases c with
        | pfbPass => exact hnone
        | pfbBlock => exact hnone
        | userPass => exact hnone
        | userBlock => exact fun e he => Prod.mk.inj (huser .userBr e he)
  | false =>
      simp only [Bool.false_eq_true, if_false]
      refine pairwise_place (fun c => ?_) fun c => ?_
      · cases c with
        | pfbPass => exact hown hpackage.floating
        | pfbBlock => exact hown hpackage.denySelf
        | userPass => exact fun e he => Prod.mk.inj (huser .fother e he)
        | userBlock => exact hnone
      · cases c with
        | pfbPass => exact hown hpackage.ppermit
        | pfbBlock => exact hown hpackage.pdeny
        | userPass => exact fun e he => Prod.mk.inj (huser .userPm e he)
        | userBlock => exact fun e he => Prod.mk.inj (huser .userBr e he)

variable (pfbTracker) in
/-- A rebuild of the new list sorts the same user rules into the same buckets. -/
theorem assignAll_pfbBuildAutoruleList (existing : List (Entry ρ)) (gen : Generated ρ float)
    (order : Option Str) (inIfaces outIfaces : List Str) (s : σ) :
    assignAll (passOrder order) float (inIfaces ++ outIfaces)
        (pfbBuildAutoruleList pfbTracker existing gen order inIfaces outIfaces s) =
      assignAll (passOrder order) float (inIfaces ++ outIfaces) existing := by
  have hfilter := filter_pfbBuildAutoruleList pfbTracker existing gen order
    inIfaces outIfaces s
  have husers :
      userRules (pfbBuildAutoruleList pfbTracker existing gen order inIfaces outIfaces s) =
        regroup (route (passOrder order) float (inIfaces ++ outIfaces))
          (bucketOrder (passOrder order)) (userRules existing) := by
    rw [userRules, hfilter]
    refine (List.map_congr_left fun e he => ?_).trans (List.map_id _)
    exact (mem_userRules (mem_of_mem_regroup he)).2
  have hget : ∀ k, (assignAll (passOrder order) float (inIfaces ++ outIfaces)
      (pfbBuildAutoruleList pfbTracker existing gen order inIfaces outIfaces s)).get k =
        (assignAll (passOrder order) float (inIfaces ++ outIfaces) existing).get k := by
    intro k
    rw [assignAll_get, assignAll_get, husers,
      bucket_regroup _ (nodup_bucketOrder _) _ (mem_bucketOrder _ k)]
  generalize assignAll (passOrder order) float (inIfaces ++ outIfaces)
    (pfbBuildAutoruleList pfbTracker existing gen order inIfaces outIfaces s) = lists at hget ⊢
  generalize assignAll (passOrder order) float (inIfaces ++ outIfaces) existing = lists' at hget ⊢
  obtain ⟨userPm, userBr, fpermit, fmatch, fother⟩ := lists
  obtain ⟨userPm', userBr', fpermit', fmatch', fother'⟩ := lists'
  obtain rfl : userPm = userPm' := hget .userPm
  obtain rfl : userBr = userBr' := hget .userBr
  obtain rfl : fpermit = fpermit' := hget .fpermit
  obtain rfl : fmatch = fmatch' := hget .fmatch
  obtain rfl : fother = fother' := hget .fother
  rfl

/-- The rebuild keeps the user rules, each once and unchanged but for the alias suffix, and in
each bucket their order; the floating rules come first and each group stands in the columns of
the ORDER table; and a second rebuild changes nothing. -/
theorem rebuild_conserves_user_rules (existing : List (Entry ρ)) (gen : Generated ρ float)
    (order : Option Str) (inIfaces outIfaces : List Str) (s : σ) :
    let result := pfbBuildAutoruleList pfbTracker existing gen order inIfaces outIfaces s
    let users := result.filter fun e => !pfbRuleIsPfbOwned e
    let managed := inIfaces ++ outIfaces
    users.Perm (userRules existing) ∧
    (∀ k, bucket (route (passOrder order) float managed) users k =
      bucket (route (passOrder order) float managed) (userRules existing) k) ∧
    (result.Pairwise fun e e' => (e'.isFloating = true → e.isFloating = true) ∧
      (e.isFloating = e'.isFloating →
        rank (passOrder order) float managed e ≤ rank (passOrder order) float managed e')) ∧
    pfbBuildAutoruleList pfbTracker result gen order inIfaces outIfaces s = result := by
  intro result users managed
  have husers : users = regroup (route (passOrder order) float managed)
      (bucketOrder (passOrder order)) (userRules existing) :=
    filter_pfbBuildAutoruleList pfbTracker existing gen order inIfaces outIfaces s
  refine ⟨?_, fun k => ?_, ?_, ?_⟩
  · rw [husers]
    exact regroup_perm _ (nodup_bucketOrder _) fun e _ => mem_bucketOrder _ _
  · rw [husers]
    exact bucket_regroup _ (nodup_bucketOrder _) _ (mem_bucketOrder _ k)
  · refine (pairwise_pfbBuildAutoruleList existing gen order inIfaces outIfaces s).imp ?_
    intro e e' hplace
    have hlt := rank_lt (passOrder order) float (inIfaces ++ outIfaces) e'
    unfold place at hplace
    refine ⟨fun hfloat => ?_, fun hsame => ?_⟩
    · by_contra hnot
      rw [if_pos hfloat, if_neg hnot] at hplace
      omega
    · rw [hsame] at hplace
      exact Nat.le_of_add_le_add_left hplace
  · have hsame := assignAll_pfbBuildAutoruleList pfbTracker existing gen order
      inIfaces outIfaces s
    change pfbBuildAutoruleList pfbTracker result gen order inIfaces outIfaces s =
      pfbBuildAutoruleList pfbTracker existing gen order inIfaces outIfaces s
    unfold pfbBuildAutoruleList
    dsimp only
    rw [hsame]

end Rebuild

/-- The column of a rule by its type alone. -/
def typeColumn (order : PassOrder) (e : Entry ρ) : Column :=
  if pfbRuleIsPfbOwned e then if e.permits then .pfbPass else .pfbBlock
  else if order ≠ .order0 ∧ e.permits then .userPass else .userBlock

def bareRule (descr type : Str) (floating : Option Str) : Rule Unit where
  descr := some descr
  type := some type
  floating := floating
  interface := some "lan".toList
  associatedRuleId := none
  ipprotocol := some "inet".toList
  source := none
  destination := none
  tracker := none
  rest := ()

/-- The firewall-traffic twin of one permit list. -/
def permitTwin : Generated Unit false where
  permitInbound := []
  permitOutbound := []
  denyInbound := []
  denyOutbound := []
  matchInbound := []
  matchOutbound := []
  permitSelf := [bareRule "pfB_PermitList_v4 Auto Rule".toList passType (some "yes".toList)]
  denySelf := []
  matchSelf := []
  dnsblFloat := []
  inboundFloating := []
  outboundFloating := []
  owned := by decide
  permits := by decide
  denies := by decide
  floats := by decide
  mode := by decide

/-- With float mode off a floating block rule of the administrator leads in `order_1`, before the
floating pass rules of the package. -/
theorem floating_block_leads :
    ¬ (pfbBuildAutoruleList (fun s _ _ _ => (s, s))
        [.rule (bareRule "U-float".toList "block".toList (some "yes".toList))] permitTwin
        (some "order_1".toList) ["lan".toList] [] []).Pairwise
      fun e e' => e.isFloating = e'.isFloating →
        (orderTable .order1).idxOf (typeColumn .order1 e) ≤
          (orderTable .order1).idxOf (typeColumn .order1 e') := by
  decide

end PfBlockerNG.AutoruleList
