import Mathlib.Data.Int.Basic
import Mathlib.Data.Int.ModEq
import Mathlib.Order.Bounds.Defs
import Mathlib.Tactic.Ring
import PfBlockerNG.Strings
import PfBlockerNG.OrderedDict

/-!
Feed schedules: the scan for the next local quarter-hour occurrence, and the plan that selects the
due feeds and the earliest wake.
-/

namespace PfBlockerNG.Schedule

open PfBlockerNG.Strings

/-- A time zone: seconds east of UTC at each instant. -/
structure Zone where
  offset : Int → Int

def Zone.localSeconds (z : Zone) (t : Int) : Int := t + z.offset t

/-- `format('N')`: Monday is 1, Sunday 7. -/
def Zone.weekday (z : Zone) (t : Int) : Int := (z.localSeconds t / 86400 + 3) % 7 + 1

/-- `format('G')`. -/
def Zone.hour (z : Zone) (t : Int) : Int := z.localSeconds t % 86400 / 3600

/-- `format('i')`. -/
def Zone.minute (z : Zone) (t : Int) : Int := z.localSeconds t % 3600 / 60

/-- `format('s')`. -/
def Zone.second (z : Zone) (t : Int) : Int := z.localSeconds t % 60

inductive Cadence where
  | never
  | hours01
  | hours02
  | hours03
  | hours04
  | hours06
  | hours08
  | hours12
  | everyDay
  | weekly
  deriving DecidableEq, Repr

/-- `$valid_cadences`. -/
def Cadence.hours : Cadence → Int
  | .never => 0
  | .hours01 => 1
  | .hours02 => 2
  | .hours03 => 3
  | .hours04 => 4
  | .hours06 => 6
  | .hours08 => 8
  | .hours12 => 12
  | .everyDay => 0
  | .weekly => 0

/-- A normalized schedule. -/
structure Slot where
  weekday : Int
  hour : Int
  minute : Int
  weekday_range : 1 ≤ weekday ∧ weekday ≤ 7
  hour_range : 0 ≤ hour ∧ hour ≤ 23
  minute_quarter : minute ∈ ([0, 15, 30, 45] : List Int)
  deriving DecidableEq

/-- Fifteen days. -/
def window : Int := 15 * 86400

/-- The `match` of the scan on the cadence. -/
def cadenceMatches (z : Zone) (cadence : Cadence) (slot : Slot) (t : Int) : Bool :=
  match cadence with
  | .hours01 => z.minute t == slot.minute
  | .hours02 | .hours03 | .hours04 | .hours06 | .hours08 | .hours12 =>
      z.minute t == slot.minute && (z.hour t - slot.hour).tmod (max 1 cadence.hours) == 0
  | .everyDay => z.hour t == slot.hour && z.minute t == slot.minute
  | .weekly => z.weekday t == slot.weekday && z.hour t == slot.hour && z.minute t == slot.minute
  | .never => false

/-- The fallback that walks single seconds up to the first local quarter-hour. -/
def align (z : Zone) (limit candidate : Int) : Int :=
  if candidate ≤ limit then
    if z.second candidate = 0 ∧ z.minute candidate % 15 = 0 then candidate
    else align z limit (candidate + 1)
  else candidate
termination_by (limit + 1 - candidate).toNat

/-- The scan over quarter-hours. -/
def scan (z : Zone) (cadence : Cadence) (slot : Slot) (limit candidate : Int) : Option Int :=
  if candidate ≤ limit then
    if cadenceMatches z cadence slot candidate then some candidate
    else scan z cadence slot limit (candidate + 900)
  else none
termination_by (limit + 1 - candidate).toNat

def secondsIntoQuarter (z : Zone) (t : Int) : Int := z.minute t % 15 * 60 + z.second t

/-- The first candidate of the scan. -/
def firstCandidate (z : Zone) (reference : Int) : Int :=
  if secondsIntoQuarter z (reference + 1) ≠ 0 then
    reference + 1 + (900 - secondsIntoQuarter z (reference + 1))
  else reference + 1

/-- The first local quarter-hour occurrence strictly after a reference, within fifteen days. -/
def nextOccurrence (z : Zone) (cadence : Cadence) (slot : Slot) (reference : Int) : Option Int :=
  if cadence = .never then none
  else
    let limit := reference + 15 * 86400
    let candidate := firstCandidate z reference
    scan z cadence slot limit (align z (min limit (candidate + 900)) candidate)

theorem le_align (z : Zone) (limit candidate : Int) : candidate ≤ align z limit candidate := by
  fun_induction align z limit candidate with
  | case1 => exact Int.le_refl _
  | case2 candidate _ _ ih => omega
  | case3 => exact Int.le_refl _

theorem secondsIntoQuarter_eq (z : Zone) (t : Int) :
    secondsIntoQuarter z t = z.localSeconds t % 900 := by
  unfold secondsIntoQuarter Zone.minute Zone.second
  omega

theorem lt_firstCandidate (z : Zone) (reference : Int) :
    reference < firstCandidate z reference := by
  unfold firstCandidate
  rw [secondsIntoQuarter_eq]
  split <;> omega

theorem scan_eq_some {z : Zone} {cadence : Cadence} {slot : Slot} {limit candidate o : Int}
    (h : scan z cadence slot limit candidate = some o) :
    candidate ≤ o ∧ o ≤ limit ∧ 900 ∣ o - candidate ∧ cadenceMatches z cadence slot o = true ∧
      ∀ o', candidate ≤ o' → o' < o → 900 ∣ o' - candidate →
        cadenceMatches z cadence slot o' = false := by
  fun_induction scan z cadence slot limit candidate with
  | case1 candidate hle hmatch =>
      injection h with h
      subst h
      refine ⟨Int.le_refl _, hle, by simp, hmatch, fun o' hge hlt => ?_⟩
      omega
  | case2 candidate hle hmatch ih =>
      obtain ⟨hge, hlimit, hdvd, hmatch', hleast⟩ := ih h
      refine ⟨by omega, hlimit, by omega, hmatch', fun o' hge' hlt hdvd' => ?_⟩
      by_cases heq : o' = candidate
      · subst heq
        simpa using hmatch
      · exact hleast o' (by omega) hlt (by omega)
  | case3 => cases h

theorem scan_eq_none {z : Zone} {cadence : Cadence} {slot : Slot} {limit candidate : Int}
    (h : scan z cadence slot limit candidate = none) {o : Int} (hge : candidate ≤ o)
    (hle : o ≤ limit) (hdvd : 900 ∣ o - candidate) : cadenceMatches z cadence slot o = false := by
  fun_induction scan z cadence slot limit candidate with
  | case1 => cases h
  | case2 candidate hle' hmatch ih =>
      by_cases heq : o = candidate
      · subst heq
        simpa using hmatch
      · exact ih h (by omega) (by omega)
  | case3 => omega

/-- An occurrence lies after its reference, within fifteen days, in every zone. -/
theorem nextOccurrence_bounds {z : Zone} {cadence : Cadence} {slot : Slot} {reference o : Int}
    (h : nextOccurrence z cadence slot reference = some o) :
    reference < o ∧ o ≤ reference + window := by
  unfold nextOccurrence at h
  split at h
  · cases h
  · obtain ⟨hge, hle, -⟩ := scan_eq_some h
    have hfirst := lt_firstCandidate z reference
    have halign := le_align z
      (min (reference + 15 * 86400) (firstCandidate z reference + 900)) (firstCandidate z reference)
    exact ⟨by omega, hle⟩

/-- An instant is an occurrence: a local quarter-hour the cadence and the slot name. -/
def Occurs (z : Zone) (cadence : Cadence) (slot : Slot) (o : Int) : Prop :=
  secondsIntoQuarter z o = 0 ∧ cadenceMatches z cadence slot o = true

/-- The offsets of the zone agree modulo a quarter of an hour. -/
def Zone.Quarterly (z : Zone) : Prop := ∀ t t', (900 : Int) ∣ z.offset t - z.offset t'

theorem Zone.Quarterly.of_dvd {z : Zone} (h : ∀ t, (900 : Int) ∣ z.offset t) : z.Quarterly :=
  fun t t' => Int.dvd_sub (h t) (h t')

theorem Zone.Quarterly.aligned {z : Zone} (h : z.Quarterly) {t t' : Int}
    (ht : secondsIntoQuarter z t = 0) :
    secondsIntoQuarter z t' = 0 ↔ (900 : Int) ∣ t' - t := by
  have hoff := h t' t
  rw [secondsIntoQuarter_eq, Zone.localSeconds] at ht ⊢
  omega

theorem firstCandidate_aligned {z : Zone} (h : z.Quarterly) (reference : Int) :
    secondsIntoQuarter z (firstCandidate z reference) = 0 ∧
      firstCandidate z reference ≤ reference + 900 := by
  unfold firstCandidate
  split
  · next hne =>
      have hoff := h (reference + 1 + (900 - secondsIntoQuarter z (reference + 1)))
        (reference + 1)
      rw [secondsIntoQuarter_eq] at hne hoff ⊢
      rw [secondsIntoQuarter_eq]
      unfold Zone.localSeconds at *
      omega
  · next heq => exact ⟨by simpa using heq, by omega⟩

theorem align_of_aligned {z : Zone} {candidate : Int} (limit : Int)
    (h : secondsIntoQuarter z candidate = 0) : align z limit candidate = candidate := by
  have hparts : z.second candidate = 0 ∧ z.minute candidate % 15 = 0 := by
    have hsecond : 0 ≤ z.second candidate := Int.emod_nonneg _ (by omega)
    unfold secondsIntoQuarter at h
    omega
  rw [align, if_pos hparts, ite_self]

/-- No instant after the reference is aligned before the first candidate. -/
theorem firstCandidate_le {z : Zone} (h : z.Quarterly) {reference o : Int}
    (ho : secondsIntoQuarter z o = 0) (hlt : reference < o) :
    firstCandidate z reference ≤ o ∧ (900 : Int) ∣ o - firstCandidate z reference := by
  obtain ⟨haligned, hle⟩ := firstCandidate_aligned h reference
  have hdvd := (h.aligned haligned).mp ho
  exact ⟨by omega, hdvd⟩

theorem nextOccurrence_eq_scan {z : Zone} (h : z.Quarterly) {cadence : Cadence}
    (hcadence : cadence ≠ .never) (slot : Slot) (reference : Int) :
    nextOccurrence z cadence slot reference =
      scan z cadence slot (reference + 15 * 86400) (firstCandidate z reference) := by
  unfold nextOccurrence
  rw [if_neg hcadence]
  simp only [align_of_aligned _ (firstCandidate_aligned h reference).1]

theorem Occurs.ne_never {z : Zone} {cadence : Cadence} {slot : Slot} {o : Int}
    (h : Occurs z cadence slot o) : cadence ≠ .never := by
  rintro rfl
  exact absurd h.2 (by simp [cadenceMatches])

/-- In a quarterly zone the scan finds the first occurrence after the reference. -/
theorem nextOccurrence_eq_some {z : Zone} (h : z.Quarterly) {cadence : Cadence} {slot : Slot}
    {reference o : Int} (hnext : nextOccurrence z cadence slot reference = some o) :
    Occurs z cadence slot o ∧
      ∀ o', reference < o' → o' < o → ¬ Occurs z cadence slot o' := by
  have hcadence : cadence ≠ .never := by
    rintro rfl
    simp [nextOccurrence] at hnext
  rw [nextOccurrence_eq_scan h hcadence] at hnext
  obtain ⟨hge, hle, hdvd, hmatch, hleast⟩ := scan_eq_some hnext
  obtain ⟨haligned, -⟩ := firstCandidate_aligned h reference
  refine ⟨⟨(h.aligned haligned).mpr hdvd, hmatch⟩, fun o' hlt hlt' ho' => ?_⟩
  obtain ⟨hge', hdvd'⟩ := firstCandidate_le h ho'.1 hlt
  have hmatch' := ho'.2
  rw [hleast o' hge' hlt' hdvd'] at hmatch'
  cases hmatch'

/-- An occurrence within fifteen days of the reference is not missed. -/
theorem exists_nextOccurrence {z : Zone} (h : z.Quarterly) {cadence : Cadence} {slot : Slot}
    {reference o : Int} (ho : Occurs z cadence slot o) (hlt : reference < o)
    (hle : o ≤ reference + window) :
    ∃ o', nextOccurrence z cadence slot reference = some o' ∧ o' ≤ o := by
  obtain ⟨hge, hdvd⟩ := firstCandidate_le h ho.1 hlt
  cases hnext : nextOccurrence z cadence slot reference with
  | none =>
      rw [nextOccurrence_eq_scan h ho.ne_never] at hnext
      have hmatch := ho.2
      rw [scan_eq_none hnext hge hle hdvd] at hmatch
      cases hmatch
  | some o' =>
      refine ⟨o', rfl, ?_⟩
      by_contra hgt
      exact (nextOccurrence_eq_some h hnext).2 o hlt (by omega) ho

/-- The instants whose local clock shows the slot of a cadence. -/
def OnSlot (z : Zone) (cadence : Cadence) (slot : Slot) (t : Int) : Prop :=
  z.second t = 0 ∧
    match cadence with
    | .never => False
    | .hours01 => z.minute t = slot.minute
    | .hours02 | .hours03 | .hours04 | .hours06 | .hours08 | .hours12 =>
        z.hour t ≡ slot.hour [ZMOD cadence.hours] ∧ z.minute t = slot.minute
    | .everyDay => z.hour t = slot.hour ∧ z.minute t = slot.minute
    | .weekly => z.weekday t = slot.weekday ∧ z.hour t = slot.hour ∧ z.minute t = slot.minute

/-- Every change of the offset is a whole number of quarter-hours. -/
def Zone.QuarterChanges (z : Zone) : Prop := ∀ t, (900 : Int) ∣ z.offset (t + 1) - z.offset t

theorem Zone.QuarterChanges.quarterly {z : Zone} (h : z.QuarterChanges) : z.Quarterly := by
  have hforward : ∀ (n : Nat) (t : Int), (900 : Int) ∣ z.offset (t + n) - z.offset t := by
    intro n
    induction n with
    | zero =>
        intro t
        simp
    | succ n ih =>
        intro t
        have hstep := h (t + n)
        rw [add_assoc] at hstep
        have hsum := Int.dvd_add hstep (ih t)
        push_cast
        rwa [sub_add_sub_cancel] at hsum
  intro t t'
  rcases Int.le_total t' t with hle | hle
  · have hn := hforward (t - t').toNat t'
    rwa [Int.toNat_of_nonneg (by omega), add_sub_cancel] at hn
  · have hn := hforward (t' - t).toNat t
    rw [Int.toNat_of_nonneg (by omega), add_sub_cancel] at hn
    omega

theorem tmod_sub_eq_zero_iff (a b : Int) {n : Int} (hn : 1 ≤ n) :
    (a - b).tmod (max 1 n) = 0 ↔ a ≡ b [ZMOD n] := by
  rw [max_eq_right hn, ← Int.dvd_iff_tmod_eq_zero, Int.modEq_comm]
  exact Int.modEq_iff_dvd.symm

/-- The occurrences of the scan are the instants on the slot. -/
theorem occurs_iff_onSlot {z : Zone} {cadence : Cadence} {slot : Slot} {t : Int} :
    Occurs z cadence slot t ↔ OnSlot z cadence slot t := by
  have hsecond : 0 ≤ z.second t := Int.emod_nonneg _ (by omega)
  have hquarter : z.minute t = slot.minute → (secondsIntoQuarter z t = 0 ↔ z.second t = 0) := by
    intro heq
    have hminute := slot.minute_quarter
    simp only [List.mem_cons, List.not_mem_nil, or_false] at hminute
    unfold secondsIntoQuarter
    omega
  cases cadence <;>
    simp only [Occurs, OnSlot, cadenceMatches, Bool.and_eq_true, beq_iff_eq, Cadence.hours,
      Bool.false_eq_true, and_false]
  case hours01 => exact and_congr_left hquarter
  case everyDay => exact and_congr_left fun hmatch => hquarter hmatch.2
  case weekly =>
    rw [and_assoc]
    exact and_congr_left fun hmatch => hquarter hmatch.2.2
  all_goals
    rw [tmod_sub_eq_zero_iff _ _ (by decide), and_comm (b := _ ≡ _ [ZMOD _])]
    exact and_congr_left fun hmatch => hquarter hmatch.2

/-- The scan returns the least instant of its window that is on the slot, or nothing when there is
none; an instant on the slot is found from the second before it, so a local time that is read
twice is found twice. -/
theorem nextOccurrence_isLeast {z : Zone} (h : z.QuarterChanges) (cadence : Cadence) (slot : Slot)
    (reference : Int) :
    (∀ o, nextOccurrence z cadence slot reference = some o ↔
        IsLeast {t | reference < t ∧ t ≤ reference + 15 * 86400 ∧ OnSlot z cadence slot t} o) ∧
      (nextOccurrence z cadence slot reference = none ↔
        ¬ ∃ t, reference < t ∧ t ≤ reference + 15 * 86400 ∧ OnSlot z cadence slot t) ∧
      ∀ o o', OnSlot z cadence slot o → z.localSeconds o' = z.localSeconds o →
        nextOccurrence z cadence slot (o - 1) = some o ∧
          nextOccurrence z cadence slot (o' - 1) = some o' := by
  have hz := h.quarterly
  have hsome : ∀ r o, nextOccurrence z cadence slot r = some o ↔
      IsLeast {t | r < t ∧ t ≤ r + 15 * 86400 ∧ OnSlot z cadence slot t} o := by
    intro r o
    constructor
    · intro hnext
      obtain ⟨ho, hleast⟩ := nextOccurrence_eq_some hz hnext
      obtain ⟨hlt, hle⟩ := nextOccurrence_bounds hnext
      refine ⟨⟨hlt, hle, occurs_iff_onSlot.mp ho⟩, ?_⟩
      rintro t ⟨hlt', -, ht⟩
      by_contra hgt
      exact hleast t hlt' (by omega) (occurs_iff_onSlot.mpr ht)
    · rintro ⟨⟨hlt, hle, ho⟩, hleast⟩
      obtain ⟨o', hnext, hle'⟩ := exists_nextOccurrence hz (occurs_iff_onSlot.mpr ho) hlt hle
      obtain ⟨hlt', hwithin⟩ := nextOccurrence_bounds hnext
      have ho' := occurs_iff_onSlot.mp (nextOccurrence_eq_some hz hnext).1
      rw [hnext, le_antisymm hle' (hleast ⟨hlt', hwithin, ho'⟩)]
  have hfound : ∀ o, OnSlot z cadence slot o → nextOccurrence z cadence slot (o - 1) = some o := by
    intro o ho
    refine (hsome (o - 1) o).mpr ⟨⟨by omega, by omega, ho⟩, ?_⟩
    rintro t ⟨hlt, -⟩
    omega
  refine ⟨hsome reference, ?_, fun o o' ho heq => ⟨hfound o ho, hfound o' ?_⟩⟩
  · constructor
    · rintro hnone ⟨t, hlt, hle, ht⟩
      obtain ⟨o', hnext, -⟩ := exists_nextOccurrence hz (occurs_iff_onSlot.mpr ht) hlt hle
      rw [hnone] at hnext
      cases hnext
    · intro hno
      cases hnext : nextOccurrence z cadence slot reference with
      | none => rfl
      | some o => exact absurd ⟨o, ((hsome reference o).mp hnext).1⟩ hno
  · simpa only [OnSlot, Zone.second, Zone.minute, Zone.hour, Zone.weekday, heq] using ho

/-- Clocks go back by an hour at 7200. -/
def fallBack : Zone := ⟨fun t => if t < 7200 then 3600 else 0⟩

theorem fallBack_quarterChanges : fallBack.QuarterChanges := by
  intro t
  show (900 : Int) ∣ (if t + 1 < 7200 then 3600 else 0) - (if t < 7200 then 3600 else 0)
  split <;> split <;> decide

theorem nextOccurrence_isLeast_fallBack :
    nextOccurrence fallBack .everyDay ⟨1, 2, 30, by decide, by decide, by decide⟩ 5399 =
        some 5400 ∧
      nextOccurrence fallBack .everyDay ⟨1, 2, 30, by decide, by decide, by decide⟩ 8999 =
        some 9000 :=
  (nextOccurrence_isLeast fallBack_quarterChanges .everyDay
    ⟨1, 2, 30, by decide, by decide, by decide⟩ 0).2.2 5400 9000 ⟨by decide, by decide, by decide⟩
    rfl

/-! ### The plan -/

/-- The walk of `$latest_occurrence` and of `$due_occurrence`: from occurrence to occurrence up
to a bound. -/
def walk (z : Zone) (cadence : Cadence) (slot : Slot) (upper reference : Int)
    (latest : Option Int) : Option Int :=
  match _h : nextOccurrence z cadence slot reference with
  | none => latest
  | some o => if o ≤ upper then walk z cadence slot upper o (some o) else latest
termination_by (upper - reference).toNat
decreasing_by
  have hlt := (nextOccurrence_bounds _h).1
  omega

def latestOccurrence (z : Zone) (cadence : Cadence) (slot : Slot) (start upper : Int) :
    Option Int :=
  walk z cadence slot upper start none

def dueOccurrence (z : Zone) (cadence : Cadence) (slot : Slot) (cursor : Option Int) (now : Int) :
    Option Int :=
  match cursor with
  | none => latestOccurrence z cadence slot (now - window - 1) now
  | some c => walk z cadence slot now (max c (now - window - 1)) none

/-- A normalized feed group. -/
structure Group where
  cadence : Cadence
  enabled : Bool
  hasActiveRows : Bool
  override : Option Slot
  lastCompletedOccurrence : Option Int
  deriving DecidableEq

def Group.effective (group : Group) (default : Slot) : Slot := group.override.getD default

def Group.eligible (group : Group) : Bool :=
  group.enabled && group.hasActiveRows && group.cadence != .never

structure Plan where
  due : List Str
  nextDue : Option Int
  occurrences : List (Str × Int)
  deriving DecidableEq, Repr

/-- `$next_due` after an occurrence: the earlier of the two. -/
def earliest : Option Int → Option Int → Option Int
  | none, next => next
  | some o, none => some o
  | some o, some next => if o < next then some o else some next

/-- One round of the loop of `pfb_schedule_plan`. -/
def planGroup (z : Zone) (default : Slot) (since : Option Int) (now : Int) (plan : Plan)
    (key : Str) (group : Group) : Plan :=
  if group.eligible then
    let slot := group.effective default
    let occurrence := nextOccurrence z group.cadence slot now
    let latestDue :=
      dueOccurrence z group.cadence slot (group.lastCompletedOccurrence.or since) now
    { due := match latestDue with
        | none => plan.due
        | some _ => plan.due ++ [key]
      nextDue := earliest occurrence plan.nextDue
      occurrences := match latestDue with
        | none => plan.occurrences
        | some o => plan.occurrences ++ [(key, o)] }
  else plan

/-- Due feeds, their latest occurrences and the earliest wake. -/
def plan (groups : List (Str × Group)) (default : Slot) (since : Option Int) (now : Int)
    (z : Zone) : Plan :=
  groups.foldl (fun acc entry => planGroup z default since now acc entry.1 entry.2)
    ⟨[], none, []⟩

theorem walk_step {z : Zone} {cadence : Cadence} {slot : Slot} {upper reference o : Int}
    (latest : Option Int) (h : nextOccurrence z cadence slot reference = some o)
    (hle : o ≤ upper) :
    walk z cadence slot upper reference latest = walk z cadence slot upper o (some o) := by
  rw [walk.eq_def]
  split
  · next hnone =>
      rw [h] at hnone
      cases hnone
  · next o' hsome =>
      rw [h] at hsome
      injection hsome with hsome
      subst hsome
      rw [if_pos hle]

/-- What the walk finds lies after its reference and within its bound, in every zone. -/
theorem walk_eq_some {z : Zone} {cadence : Cadence} {slot : Slot} {upper reference o : Int}
    {latest : Option Int} (h : walk z cadence slot upper reference latest = some o) :
    latest = some o ∨ reference < o ∧ o ≤ upper := by
  fun_induction walk z cadence slot upper reference latest with
  | case1 => exact Or.inl h
  | case2 reference latest o' hnext hle ih =>
      have hbounds := nextOccurrence_bounds hnext
      rcases ih h with heq | ⟨hlt, hupper⟩
      · injection heq with heq
        subst heq
        exact Or.inr ⟨hbounds.1, hle⟩
      · exact Or.inr ⟨by omega, hupper⟩
  | case3 => exact Or.inl h

theorem walk_isSome {z : Zone} {cadence : Cadence} {slot : Slot} {upper reference : Int}
    {latest : Option Int} (h : latest.isSome = true) :
    (walk z cadence slot upper reference latest).isSome = true := by
  fun_induction walk z cadence slot upper reference latest with
  | case1 => exact h
  | case2 _ _ _ _ _ ih => exact ih rfl
  | case3 => exact h

/-- In a quarterly zone the walk stops at occurrences only. -/
theorem walk_occurs {z : Zone} (h : z.Quarterly) {cadence : Cadence} {slot : Slot}
    {upper reference o : Int} {latest : Option Int}
    (hlatest : ∀ l, latest = some l → Occurs z cadence slot l)
    (hwalk : walk z cadence slot upper reference latest = some o) : Occurs z cadence slot o := by
  fun_induction walk z cadence slot upper reference latest with
  | case1 => exact hlatest o hwalk
  | case2 reference latest o' hnext _ ih =>
      refine ih (fun l hl => ?_) hwalk
      cases hl
      exact (nextOccurrence_eq_some h hnext).1
  | case3 => exact hlatest o hwalk

/-- The walk never goes back. -/
theorem walk_ge {z : Zone} {cadence : Cadence} {slot : Slot} {upper reference l : Int}
    (hl : l ≤ reference) :
    ∃ o, walk z cadence slot upper reference (some l) = some o ∧ l ≤ o := by
  have hsome : (walk z cadence slot upper reference (some l)).isSome = true := walk_isSome rfl
  obtain ⟨o, ho⟩ := Option.isSome_iff_exists.mp hsome
  refine ⟨o, ho, ?_⟩
  rcases walk_eq_some ho with heq | ⟨hlt, -⟩
  · injection heq with heq
    omega
  · omega

/-- In a quarterly zone the walk reaches every occurrence within fifteen days of its
reference, or goes past it. -/
theorem walk_reaches {z : Zone} (h : z.Quarterly) {cadence : Cadence} {slot : Slot}
    {upper reference o : Int} (latest : Option Int) (ho : Occurs z cadence slot o)
    (hlt : reference < o) (hle : o ≤ upper) (hnear : upper ≤ reference + window) :
    ∃ o', walk z cadence slot upper reference latest = some o' ∧ o ≤ o' := by
  obtain ⟨o₁, hnext, hle₁⟩ := exists_nextOccurrence h ho hlt (by omega)
  have hbounds := nextOccurrence_bounds hnext
  rw [walk_step latest hnext (by omega)]
  by_cases heq : o₁ = o
  · subst heq
    exact walk_ge (Int.le_refl _)
  · exact walk_reaches h (some o₁) ho (by omega) hle (by omega)
termination_by (upper - reference).toNat
decreasing_by
  omega

/-- The instant the search for due work starts after. -/
def searchStart (cursor : Option Int) (now : Int) : Int :=
  match cursor with
  | none => now - window - 1
  | some c => max c (now - window - 1)

theorem dueOccurrence_eq_walk (z : Zone) (cadence : Cadence) (slot : Slot) (cursor : Option Int)
    (now : Int) : dueOccurrence z cadence slot cursor now =
      walk z cadence slot now (searchStart cursor now) none := by
  cases cursor <;> rfl

theorem lt_searchStart_iff {cursor : Option Int} {now o : Int} :
    searchStart cursor now < o ↔ now - window ≤ o ∧ ∀ c, cursor = some c → c < o := by
  cases cursor with
  | none =>
      simp only [searchStart, reduceCtorEq, false_implies, implies_true, and_true]
      omega
  | some c =>
      simp only [searchStart, Option.some.injEq, forall_eq']
      omega

/-- Due work lies in the window, at or before now and after the cursor, in every zone. -/
theorem dueOccurrence_bounds {z : Zone} {cadence : Cadence} {slot : Slot} {cursor : Option Int}
    {now o : Int} (h : dueOccurrence z cadence slot cursor now = some o) :
    now - window ≤ o ∧ o ≤ now ∧ ∀ c, cursor = some c → c < o := by
  rw [dueOccurrence_eq_walk] at h
  rcases walk_eq_some h with hnone | ⟨hlt, hle⟩
  · cases hnone
  · obtain ⟨hwindow, hcursor⟩ := lt_searchStart_iff.mp hlt
    exact ⟨hwindow, hle, hcursor⟩

/-- The search can get past its first step: it starts inside the window, or an occurrence before
now lies in the window. -/
def Reachable (z : Zone) (cadence : Cadence) (slot : Slot) (cursor : Option Int) (now : Int) :
    Prop :=
  (∃ c, cursor = some c ∧ now - window ≤ c) ∨
    ∃ o, Occurs z cadence slot o ∧ now - window ≤ o ∧ o < now

/-- In a quarterly zone no occurrence of the window after the cursor is missed. -/
theorem dueOccurrence_reaches {z : Zone} (h : z.Quarterly) {cadence : Cadence} {slot : Slot}
    {cursor : Option Int} {now o : Int} (ho : Occurs z cadence slot o)
    (hwindow : now - window ≤ o) (hle : o ≤ now) (hcursor : ∀ c, cursor = some c → c < o)
    (hreach : Reachable z cadence slot cursor now) :
    ∃ o', dueOccurrence z cadence slot cursor now = some o' ∧ o ≤ o' := by
  rw [dueOccurrence_eq_walk]
  have hlt : searchStart cursor now < o := lt_searchStart_iff.mpr ⟨hwindow, hcursor⟩
  by_cases hnear : now ≤ searchStart cursor now + window
  · exact walk_reaches h none ho hlt hle hnear
  · have hfirst : ∃ p, Occurs z cadence slot p ∧ searchStart cursor now < p ∧ p < now := by
      rcases hreach with ⟨c, rfl, hc⟩ | ⟨p, hp, hge, hltp⟩
      · have hstart : searchStart (some c) now = max c (now - window - 1) := rfl
        omega
      · refine ⟨p, hp, ?_, hltp⟩
        cases cursor with
        | none => exact lt_searchStart_iff.mpr ⟨hge, fun c hc => nomatch hc⟩
        | some c =>
            have hstart : searchStart (some c) now = max c (now - window - 1) := rfl
            omega
    have hstart : now - window - 1 ≤ searchStart cursor now := by
      cases cursor with
      | none => exact Int.le_refl _
      | some c => exact Int.le_max_right _ _
    obtain ⟨p, hp, hgt, hltp⟩ := hfirst
    obtain ⟨o₁, hnext, hle₁⟩ := exists_nextOccurrence h hp hgt (by omega)
    have hbounds := nextOccurrence_bounds hnext
    rw [walk_step none hnext (by omega)]
    by_cases hpast : o ≤ o₁
    · have hge : ∃ o', walk z cadence slot now o₁ (some o₁) = some o' ∧ o₁ ≤ o' :=
        walk_ge (Int.le_refl o₁)
      obtain ⟨o', hwalk, hge⟩ := hge
      exact ⟨o', hwalk, by omega⟩
    · exact walk_reaches h (some o₁) ho (by omega) hle (by omega)

/-- The occurrence the plan records for a group. -/
def dueEntry (z : Zone) (default : Slot) (since : Option Int) (now : Int)
    (entry : Str × Group) : Option (Str × Int) :=
  if entry.2.eligible then
    (dueOccurrence z entry.2.cadence (entry.2.effective default)
      (entry.2.lastCompletedOccurrence.or since) now).map fun o => (entry.1, o)
  else none

theorem planGroup_occurrences (z : Zone) (default : Slot) (since : Option Int) (now : Int)
    (acc : Plan) (entry : Str × Group) :
    (planGroup z default since now acc entry.1 entry.2).occurrences =
      acc.occurrences ++ (dueEntry z default since now entry).toList ∧
    (planGroup z default since now acc entry.1 entry.2).due =
      acc.due ++ (dueEntry z default since now entry).toList.map Prod.fst := by
  unfold planGroup dueEntry
  split
  · cases hdue : dueOccurrence z entry.2.cadence (entry.2.effective default)
        (entry.2.lastCompletedOccurrence.or since) now <;> simp [hdue]
  · simp

theorem foldl_planGroup (z : Zone) (default : Slot) (since : Option Int) (now : Int)
    (groups : List (Str × Group)) (acc : Plan) :
    (groups.foldl (fun acc entry => planGroup z default since now acc entry.1 entry.2)
      acc).occurrences = acc.occurrences ++ groups.filterMap (dueEntry z default since now) ∧
    (groups.foldl (fun acc entry => planGroup z default since now acc entry.1 entry.2)
      acc).due = acc.due ++ (groups.filterMap (dueEntry z default since now)).map Prod.fst := by
  induction groups generalizing acc with
  | nil => simp
  | cons entry groups ih =>
      obtain ⟨hocc, hdue⟩ := planGroup_occurrences z default since now acc entry
      obtain ⟨ihocc, ihdue⟩ := ih (planGroup z default since now acc entry.1 entry.2)
      rw [List.foldl_cons, ihocc, ihdue, hocc, hdue]
      cases hentry : dueEntry z default since now entry <;> simp [hentry]

theorem plan_occurrences (groups : List (Str × Group)) (default : Slot) (since : Option Int)
    (now : Int) (z : Zone) :
    (plan groups default since now z).occurrences =
      groups.filterMap (dueEntry z default since now) := by
  rw [plan, (foldl_planGroup z default since now groups _).1]
  rfl

theorem plan_due (groups : List (Str × Group)) (default : Slot) (since : Option Int)
    (now : Int) (z : Zone) :
    (plan groups default since now z).due =
      (plan groups default since now z).occurrences.map Prod.fst := by
  rw [plan_occurrences, plan, (foldl_planGroup z default since now groups _).2]
  rfl

theorem mem_plan_occurrences {groups : List (Str × Group)} {default : Slot} {since : Option Int}
    {now : Int} {z : Zone} {key : Str} {o : Int} :
    (key, o) ∈ (plan groups default since now z).occurrences ↔
      ∃ group, (key, group) ∈ groups ∧ group.eligible = true ∧
        dueOccurrence z group.cadence (group.effective default)
          (group.lastCompletedOccurrence.or since) now = some o := by
  rw [plan_occurrences, List.mem_filterMap]
  constructor
  · rintro ⟨⟨key', group⟩, hmem, hentry⟩
    unfold dueEntry at hentry
    split at hentry
    · next helig =>
        rw [Option.map_eq_some_iff] at hentry
        obtain ⟨o', hdue, heq⟩ := hentry
        cases heq
        exact ⟨group, hmem, helig, hdue⟩
    · cases hentry
  · rintro ⟨group, hmem, helig, hdue⟩
    refine ⟨(key, group), hmem, ?_⟩
    simp [dueEntry, helig, hdue]

/-- The plan names no group twice. -/
theorem nodup_plan_occurrences {groups : List (Str × Group)}
    (h : (groups.map Prod.fst).Nodup) (default : Slot) (since : Option Int) (now : Int)
    (z : Zone) : ((plan groups default since now z).occurrences.map Prod.fst).Nodup := by
  rw [plan_occurrences]
  refine List.Nodup.sublist ?_ h
  induction groups with
  | nil => exact List.Sublist.refl _
  | cons entry groups ih =>
      rw [List.map_cons, List.nodup_cons] at h
      have hkey : ∀ p, dueEntry z default since now entry = some p → p.1 = entry.1 := by
        intro p hp
        unfold dueEntry at hp
        split at hp
        · rw [Option.map_eq_some_iff] at hp
          obtain ⟨o, -, rfl⟩ := hp
          rfl
        · cases hp
      cases hentry : dueEntry z default since now entry with
      | none =>
          rw [List.filterMap_cons_none hentry]
          exact (ih h.2).cons _
      | some p =>
          rw [List.filterMap_cons_some hentry, List.map_cons, List.map_cons, hkey p hentry]
          exact (ih h.2).cons_cons _

theorem earliest_le_right (occurrence : Option Int) {next : Option Int} {d : Int}
    (h : next = some d) : ∃ d', earliest occurrence next = some d' ∧ d' ≤ d := by
  subst h
  cases occurrence with
  | none => exact ⟨d, rfl, Int.le_refl d⟩
  | some o =>
      simp only [earliest]
      split
      · exact ⟨o, rfl, by omega⟩
      · exact ⟨d, rfl, Int.le_refl d⟩

theorem earliest_le_left {occurrence : Option Int} (next : Option Int) {o : Int}
    (h : occurrence = some o) : ∃ d, earliest occurrence next = some d ∧ d ≤ o := by
  subst h
  cases next with
  | none => exact ⟨o, rfl, Int.le_refl o⟩
  | some d =>
      simp only [earliest]
      split
      · exact ⟨o, rfl, Int.le_refl o⟩
      · exact ⟨d, rfl, by omega⟩

theorem planGroup_nextDue (z : Zone) (default : Slot) (since : Option Int) (now : Int) (acc : Plan)
    (key : Str) (group : Group) :
    (∀ d, acc.nextDue = some d →
      ∃ d', (planGroup z default since now acc key group).nextDue = some d' ∧ d' ≤ d) ∧
    ∀ n, group.eligible = true →
      nextOccurrence z group.cadence (group.effective default) now = some n →
      ∃ d, (planGroup z default since now acc key group).nextDue = some d ∧ d ≤ n := by
  unfold planGroup
  by_cases helig : group.eligible = true
  · rw [if_pos helig]
    exact ⟨fun d hd => earliest_le_right _ hd, fun n _ hn => earliest_le_left _ hn⟩
  · rw [if_neg helig]
    exact ⟨fun d hd => ⟨d, hd, Int.le_refl d⟩, fun n h => absurd h helig⟩

/-- The earliest wake is not later than the next occurrence of any eligible group. -/
theorem plan_nextDue_le {groups : List (Str × Group)} {default : Slot} {since : Option Int}
    {now : Int} {z : Zone} {key : Str} {group : Group} {n : Int} (hmem : (key, group) ∈ groups)
    (helig : group.eligible = true)
    (hnext : nextOccurrence z group.cadence (group.effective default) now = some n) :
    ∃ d, (plan groups default since now z).nextDue = some d ∧ d ≤ n := by
  have hkeep : ∀ (groups : List (Str × Group)) (acc : Plan) (d : Int), acc.nextDue = some d →
      ∃ d', (groups.foldl (fun acc entry => planGroup z default since now acc entry.1 entry.2)
        acc).nextDue = some d' ∧ d' ≤ d := by
    intro groups
    induction groups with
    | nil => exact fun acc d hd => ⟨d, hd, Int.le_refl d⟩
    | cons entry groups ih =>
        intro acc d hd
        obtain ⟨d₁, hd₁, hle₁⟩ :=
          (planGroup_nextDue z default since now acc entry.1 entry.2).1 d hd
        obtain ⟨d₂, hd₂, hle₂⟩ := ih _ d₁ hd₁
        exact ⟨d₂, hd₂, by omega⟩
  unfold plan
  generalize (⟨[], none, []⟩ : Plan) = acc
  induction groups generalizing acc with
  | nil => exact absurd hmem List.not_mem_nil
  | cons entry groups ih =>
      rcases List.mem_cons.mp hmem with heq | hmem
      · subst heq
        obtain ⟨d, hd, hle⟩ := (planGroup_nextDue z default since now acc key group).2 n helig hnext
        obtain ⟨d', hd', hle'⟩ := hkeep groups _ d hd
        exact ⟨d', hd', by omega⟩
      · exact ih hmem _

/-! ### Schedules that recur within the window -/

/-- No fifteen days pass without an occurrence. -/
def Recurs (z : Zone) (cadence : Cadence) (slot : Slot) : Prop :=
  ∀ t, ∃ o, Occurs z cadence slot o ∧ t < o ∧ o ≤ t + window

section Recurring

variable {z : Zone} {cadence : Cadence} {slot : Slot}

/-- The scan always finds the first occurrence. -/
theorem nextOccurrence_of_recurs (h : z.Quarterly) (hrec : Recurs z cadence slot)
    (reference : Int) :
    ∃ n, nextOccurrence z cadence slot reference = some n ∧
      ∀ o, Occurs z cadence slot o → reference < o → n ≤ o := by
  obtain ⟨o, ho, hlt, hle⟩ := hrec reference
  obtain ⟨n, hnext, -⟩ := exists_nextOccurrence h ho hlt hle
  refine ⟨n, hnext, fun o' ho' hlt' => ?_⟩
  by_contra hgt
  exact (nextOccurrence_eq_some h hnext).2 o' hlt' (by omega) ho'

/-- Work is due exactly where the window holds an occurrence past the cursor. -/
theorem exists_dueOccurrence_iff (h : z.Quarterly) (hrec : Recurs z cadence slot)
    (cursor : Option Int) (now : Int) :
    (∃ o, dueOccurrence z cadence slot cursor now = some o) ↔
      ∃ o, Occurs z cadence slot o ∧ now - window ≤ o ∧ o ≤ now ∧
        ∀ c, cursor = some c → c < o := by
  constructor
  · rintro ⟨o, hdue⟩
    obtain ⟨hrecent, hpast, hafter⟩ := dueOccurrence_bounds hdue
    rw [dueOccurrence_eq_walk] at hdue
    have ho : Occurs z cadence slot o :=
      walk_occurs h (fun l (hl : none = some l) => by cases hl) hdue
    exact ⟨o, ho, hrecent, hpast, hafter⟩
  · rintro ⟨o, ho, hrecent, hpast, hafter⟩
    obtain ⟨o', ho', hlt, hle⟩ := hrec (now - window - 1)
    obtain ⟨o'', hdue, -⟩ := dueOccurrence_reaches h ho hrecent hpast hafter
      (Or.inr ⟨o', ho', by omega, by omega⟩)
    exact ⟨o'', hdue⟩

/-- Past any instant before now the window holds an occurrence, once one lies between them. -/
theorem recent_of_recurs (hrec : Recurs z cadence slot) {now o : Int}
    (ho : Occurs z cadence slot o) (hpast : o ≤ now) :
    ∃ o', Occurs z cadence slot o' ∧ now - window ≤ o' ∧ o' ≤ now ∧ o ≤ o' := by
  by_cases hrecent : now - window ≤ o
  · exact ⟨o, ho, hrecent, hpast, Int.le_refl o⟩
  · obtain ⟨o', ho', hlt, hle⟩ := hrec (now - window - 1)
    exact ⟨o', ho', by omega, by omega, by omega⟩

end Recurring

/-- A slot of the week is an occurrence for every cadence. -/
theorem weekly_occurs {z : Zone} {slot : Slot} {o : Int} (h : Occurs z .weekly slot o)
    {cadence : Cadence} (hcadence : cadence ≠ .never) : Occurs z cadence slot o := by
  obtain ⟨haligned, hmatch⟩ := h
  simp only [cadenceMatches, Bool.and_eq_true, beq_iff_eq] at hmatch
  obtain ⟨⟨hweekday, hhour⟩, hminute⟩ := hmatch
  refine ⟨haligned, ?_⟩
  cases cadence with
  | never => exact absurd rfl hcadence
  | _ => simp [cadenceMatches, hweekday, hhour, hminute]

/-- Where the clock never changes, every schedule recurs within the window. -/
theorem recurs_of_fixed {offset : Int} {cadence : Cadence} (hcadence : cadence ≠ .never)
    (slot : Slot) : Recurs ⟨fun _ => offset⟩ cadence slot := by
  intro t
  obtain ⟨weekday, hour, minute, hweekday, hhour, hminute⟩ := slot
  have hquarter : minute % 15 = 0 ∧ 0 ≤ minute ∧ minute < 60 := by
    simp only [List.mem_cons, List.not_mem_nil, or_false] at hminute
    omega
  have hslot : Occurs ⟨fun _ => offset⟩ .weekly ⟨weekday, hour, minute, hweekday, hhour, hminute⟩
      (((t + offset) / 604800 + 1) * 604800 + (weekday + 3) % 7 * 86400 + hour * 3600 +
        minute * 60 - offset) := by
    simp only [Occurs, secondsIntoQuarter_eq, cadenceMatches, Zone.weekday, Zone.hour, Zone.minute,
      Zone.localSeconds, Bool.and_eq_true, beq_iff_eq]
    omega
  refine ⟨_, weekly_occurs hslot hcadence, ?_, ?_⟩
  · omega
  · unfold window
    omega

end PfBlockerNG.Schedule
