import PfBlockerNG.PyText
import PfBlockerNG.Schedule

/-!
The schedule state: one record per feed or Extra with its pending and completed occurrences, its
validity, and the writers that update it under the lock.
-/

namespace PfBlockerNG.ScheduleState

open PfBlockerNG.Strings
open PfBlockerNG.PyText
open PfBlockerNG.OrderedDict
open PfBlockerNG.Schedule

/-- `PfbScheduleTerminalResult`. -/
inductive TerminalResult where
  | success
  | retryCapReached
  deriving DecidableEq, Repr

/-- A record of the state; a field that is absent is `none`, and `pending_attempted` is only ever
present as `TRUE`. -/
structure Item where
  lastSuccessfulCheck : Option Int
  lastCompletedOccurrence : Option Int
  completionOutcome : Option TerminalResult
  pendingOccurrence : Option Int
  pendingAttempted : Bool
  deriving DecidableEq, Repr

/-- `[]`. -/
def Item.empty : Item := ⟨none, none, none, none, false⟩

abbrev Items := Dict Str Item

def Items.item (items : Items) (id : Str) : Item := (items.get id).getD Item.empty

/-! ### Identifiers -/

/-- `is_numeric` on a string. -/
def isNumeric (s : Str) : Bool :=
  let blank := fun c : Char => c ∈ [' ', '\t', '\n', '\r', Char.ofNat 11, Char.ofNat 12]
  let unsigned := fun s : Str =>
    match s with
    | '+' :: rest => rest
    | '-' :: rest => rest
    | _ => s
  let body := unsigned (s.dropWhile blank)
  let whole := body.takeWhile isAsciiDigit
  let rest := body.dropWhile isAsciiDigit
  let (fraction, rest) : Str × Str :=
    match rest with
    | '.' :: more => (more.takeWhile isAsciiDigit, more.dropWhile isAsciiDigit)
    | _ => ([], rest)
  let rest :=
    match rest with
    | c :: more =>
        if (c = 'e' ∨ c = 'E') ∧ ((unsigned more).takeWhile isAsciiDigit) ≠ [] then
          (unsigned more).dropWhile isAsciiDigit
        else rest
    | [] => rest
  (whole ++ fraction) ≠ [] && (rest.dropWhile blank).isEmpty

/-- `[A-Za-z0-9_]`. -/
def wordChar (c : Char) : Bool :=
  isAsciiDigit c || ('a' ≤ c && c ≤ 'z') || ('A' ≤ c && c ≤ 'Z') || c == '_'

/-- `[A-Za-z0-9_]+` with the suffix of its family. -/
def feedHeader (suffix header : Str) : Bool :=
  header.all wordChar && endsWith suffix header && suffix.length < header.length

def isExtra (id : Str) : Bool := startsWith ['e', 'x', 't', 'r', 'a', ':'] id

/-- The identifiers of feeds and Extras. -/
def validId (id : Str) : Bool :=
  (startsWith ['i', 'p', 'v', '4', ':'] id && feedHeader ['_', 'v', '4'] (id.drop 5)) ||
    (startsWith ['i', 'p', 'v', '6', ':'] id && feedHeader ['_', 'v', '6'] (id.drop 5)) ||
    (startsWith ['d', 'n', 's', 'b', 'l', ':'] id && feedHeader [] (id.drop 6)) ||
    id == ['e', 'x', 't', 'r', 'a', ':', 'd', 'c', 'c'] ||
    id == ['e', 'x', 't', 'r', 'a', ':', 'b', 'l']

/-- `$id !== '' && !is_numeric($id)`. -/
def stateKey (id : Str) : Bool := !id.isEmpty && !isNumeric id

theorem isNumeric_of_letter {c : Char} (h : c = 'i' ∨ c = 'd' ∨ c = 'e') (rest : Str) :
    isNumeric (c :: rest) = false := by
  rcases h with rfl | rfl | rfl <;> rfl

/-- Identifiers of feeds and Extras may key the state. -/
theorem stateKey_of_validId {id : Str} (h : validId id = true) : stateKey id = true := by
  have hhead : ∃ c rest, id = c :: rest ∧ (c = 'i' ∨ c = 'd' ∨ c = 'e') := by
    simp only [validId, startsWith, Bool.or_eq_true, Bool.and_eq_true, List.isPrefixOf_iff_prefix,
      beq_iff_eq] at h
    rcases h with (((h | h) | h) | h) | h
    · obtain ⟨rest, hrest⟩ := h.1
      exact ⟨'i', _, hrest.symm, Or.inl rfl⟩
    · obtain ⟨rest, hrest⟩ := h.1
      exact ⟨'i', _, hrest.symm, Or.inl rfl⟩
    · obtain ⟨rest, hrest⟩ := h.1
      exact ⟨'d', _, hrest.symm, Or.inr (Or.inl rfl)⟩
    · exact ⟨'e', _, h, Or.inr (Or.inr rfl)⟩
    · exact ⟨'e', _, h, Or.inr (Or.inr rfl)⟩
  obtain ⟨c, rest, rfl, hc⟩ := hhead
  rw [stateKey, isNumeric_of_letter hc]
  rfl

/-! ### Validity -/

def nonnegative (field : Option Int) : Bool := field.all (0 ≤ ·)

def itemValid (item : Item) : Bool :=
  item != Item.empty &&
  nonnegative item.lastSuccessfulCheck && nonnegative item.lastCompletedOccurrence &&
  nonnegative item.pendingOccurrence &&
  (!item.pendingAttempted || item.pendingOccurrence.isSome) &&
  item.lastCompletedOccurrence.isSome == item.completionOutcome.isSome &&
  !(match item.lastCompletedOccurrence, item.pendingOccurrence with
    | some completed, some pending => decide (pending ≤ completed)
    | _, _ => false)

/-- `pfb_schedule_state_valid`. -/
def stateValid (items : Items) : Bool := items.items.all fun p => stateKey p.1 && itemValid p.2

/-! ### Writers -/

/-- `pfb_schedule_state_update`: `none` when the state read or the result is refused. -/
def stateUpdate (update : Items → Items) (items : Items) : Option Items :=
  if stateValid items && stateValid (update items) then some (update items) else none

/-- One round of `foreach ($occurrences as $id => $occurrence)`; `f` gives the item to store, or
`none` where the round stores nothing. -/
def oneOccurrence (f : Int → Item → Option Item) (items : Items) (p : Str × Int) : Items :=
  match f p.2 (items.item p.1) with
  | some item => items.set p.1 item
  | none => items

def eachOccurrence (f : Int → Item → Option Item) (occurrences : List (Str × Int))
    (items : Items) : Items :=
  occurrences.foldl (oneOccurrence f) items

/-- One round of the update of `pfb_schedule_state_set_pending`. -/
def setPendingItem (occurrence : Int) (item : Item) : Option Item :=
  if item.pendingOccurrence = none ∧ item.lastCompletedOccurrence.all (· < occurrence) = true then
    some { item with pendingOccurrence := some occurrence }
  else some item

def setPending (occurrences : List (Str × Int)) (items : Items) : Option Items :=
  if occurrences = [] then some items
  else if occurrences.any (fun p => !stateKey p.1 || decide (p.2 < 0)) then none
  else stateUpdate (eachOccurrence setPendingItem occurrences) items

/-- One round of the update with which the tick raises older pending occurrences. -/
def raiseItem (occurrence : Int) (item : Item) : Option Item :=
  if item.pendingOccurrence.getD (-1) < occurrence then
    some { item with pendingOccurrence := some occurrence, pendingAttempted := false }
  else none

def raisePending (occurrences : List (Str × Int)) (items : Items) : Option Items :=
  stateUpdate (eachOccurrence raiseItem occurrences) items

/-- The update with which the tick marks a failed Extra. -/
def markAttempted (id : Str) (occurrence : Int) (items : Items) : Option Items :=
  stateUpdate (fun items =>
    if (items.item id).pendingOccurrence = some occurrence then
      items.set id { items.item id with pendingAttempted := true }
    else items) items

/-- The record after a terminal check. -/
def recordItem (outcome : TerminalResult) (now : Int) (item : Item) : Item :=
  let item := if outcome = .success then { item with lastSuccessfulCheck := some now } else item
  match item.pendingOccurrence with
  | some pending =>
      { item with
        lastCompletedOccurrence := some pending
        completionOutcome := some outcome
        pendingOccurrence := none
        pendingAttempted := false }
  | none => item

def recordOutcome (id : Str) (outcome : TerminalResult) (now : Int) (expected : Option Int)
    (items : Items) : Option Items :=
  if validId id then
    stateUpdate (fun items =>
      let item := items.item id
      if expected.isSome ∧ item.pendingOccurrence ≠ expected then items
      else if outcome = .retryCapReached ∧ item.pendingOccurrence = none then items
      else items.set id (recordItem outcome now item)) items
  else none

/-! ### What validity says -/

/-- A valid record, field by field. -/
structure ItemOk (item : Item) : Prop where
  nonempty : item ≠ Item.empty
  checked : ∀ t, item.lastSuccessfulCheck = some t → 0 ≤ t
  completed : ∀ t, item.lastCompletedOccurrence = some t → 0 ≤ t
  pending : ∀ t, item.pendingOccurrence = some t → 0 ≤ t
  attempted : item.pendingAttempted = true → item.pendingOccurrence.isSome = true
  outcome : item.lastCompletedOccurrence.isSome = item.completionOutcome.isSome
  later : ∀ c p, item.lastCompletedOccurrence = some c → item.pendingOccurrence = some p → c < p

theorem nonnegative_iff (field : Option Int) :
    nonnegative field = true ↔ ∀ t, field = some t → 0 ≤ t := by
  cases field <;> simp [nonnegative]

theorem itemValid_iff (item : Item) : itemValid item = true ↔ ItemOk item := by
  have hlater : (!(match item.lastCompletedOccurrence, item.pendingOccurrence with
      | some completed, some pending => decide (pending ≤ completed)
      | _, _ => false)) = true ↔
      ∀ c p, item.lastCompletedOccurrence = some c → item.pendingOccurrence = some p → c < p := by
    cases item.lastCompletedOccurrence <;> cases item.pendingOccurrence <;> simp
  unfold itemValid
  simp only [Bool.and_eq_true, bne_iff_ne, ne_eq, nonnegative_iff, beq_iff_eq, hlater,
    Bool.or_eq_true, Bool.not_eq_true']
  constructor
  · rintro ⟨⟨⟨⟨⟨⟨hne, hcheck⟩, hcompleted⟩, hpending⟩, hattempted⟩, houtcome⟩, hlater⟩
    refine ⟨hne, hcheck, hcompleted, hpending, fun ha => ?_, houtcome, hlater⟩
    rcases hattempted with hfalse | hsome
    · rw [ha] at hfalse
      cases hfalse
    · exact hsome
  · rintro ⟨hne, hcheck, hcompleted, hpending, hattempted, houtcome, hlater⟩
    refine ⟨⟨⟨⟨⟨⟨hne, hcheck⟩, hcompleted⟩, hpending⟩, ?_⟩, houtcome⟩, hlater⟩
    cases ha : item.pendingAttempted with
    | false => exact Or.inl rfl
    | true => exact Or.inr (hattempted ha)

theorem stateValid_iff (items : Items) :
    stateValid items = true ↔
      ∀ id item, items.get id = some item → stateKey id = true ∧ ItemOk item := by
  simp only [stateValid, List.all_eq_true, Prod.forall, Bool.and_eq_true, itemValid_iff,
    Dict.get_eq_some_iff]

theorem stateUpdate_valid {update : Items → Items} {items items' : Items}
    (h : stateUpdate update items = some items') : stateValid items' = true := by
  unfold stateUpdate at h
  split at h
  · next hvalid =>
      injection h with h
      subst h
      exact (Bool.and_eq_true_iff.mp hvalid).2
  · cases h

theorem stateUpdate_eq_some {update : Items → Items} {items : Items}
    (h : stateValid items = true) (h' : stateValid (update items) = true) :
    stateUpdate update items = some (update items) := by
  rw [stateUpdate, h, h']
  rfl

/-- The record of an identifier is valid, or absent. -/
theorem item_ok {items : Items} (h : stateValid items = true) (id : Str) :
    items.item id = Item.empty ∨ ItemOk (items.item id) := by
  unfold Items.item
  cases hget : items.get id with
  | none => exact Or.inl rfl
  | some item => exact Or.inr ((stateValid_iff items).mp h id item hget).2

theorem item_set (items : Items) (id id' : Str) (item : Item) :
    Items.item (items.set id item) id' = if id = id' then item else items.item id' := by
  unfold Items.item
  rw [Dict.get_set]
  split <;> rfl

theorem oneOccurrence_get_self (f : Int → Item → Option Item) (items : Items) (p : Str × Int) :
    (oneOccurrence f items p).get p.1 = (f p.2 (items.item p.1)).or (items.get p.1) := by
  unfold oneOccurrence
  cases f p.2 (items.item p.1) with
  | none => rfl
  | some item => exact Dict.get_set_self items p.1 item

theorem oneOccurrence_get_of_ne (f : Int → Item → Option Item) (items : Items) {p : Str × Int}
    {id : Str} (h : id ≠ p.1) : (oneOccurrence f items p).get id = items.get id := by
  unfold oneOccurrence
  cases f p.2 (items.item p.1) with
  | none => rfl
  | some item => exact Dict.get_set_of_ne items item h.symm

/-- What the loop leaves for an identifier it names once, and for one it does not name. -/
theorem eachOccurrence_get {f : Int → Item → Option Item} {occurrences : List (Str × Int)}
    (h : (occurrences.map Prod.fst).Nodup) (items : Items) :
    (∀ id o, (id, o) ∈ occurrences →
      (eachOccurrence f occurrences items).get id =
        (f o (items.item id)).or (items.get id)) ∧
    ∀ id, id ∉ occurrences.map Prod.fst →
      (eachOccurrence f occurrences items).get id = items.get id := by
  induction occurrences generalizing items with
  | nil => exact ⟨fun id o hmem => absurd hmem List.not_mem_nil, fun id _ => rfl⟩
  | cons p occurrences ih =>
      rw [List.map_cons, List.nodup_cons] at h
      obtain ⟨ihmem, ihout⟩ := ih h.2 (oneOccurrence f items p)
      refine ⟨fun id o hmem => ?_, fun id hout => ?_⟩
      · rcases List.mem_cons.mp hmem with heq | hmem
        · subst heq
          exact (ihout id h.1).trans (oneOccurrence_get_self f items (id, o))
        · have hne : id ≠ p.1 := by
            intro heq
            have hkey : id ∈ occurrences.map Prod.fst := List.mem_map.mpr ⟨(id, o), hmem, rfl⟩
            rw [heq] at hkey
            exact h.1 hkey
          have hget := oneOccurrence_get_of_ne f items hne
          have hitem : (oneOccurrence f items p).item id = items.item id := by
            rw [Items.item, hget, Items.item]
          rw [← hget, ← hitem]
          exact ihmem id o hmem
      · rw [List.map_cons, List.mem_cons, not_or] at hout
        exact (ihout id hout.2).trans (oneOccurrence_get_of_ne f items hout.1)

end PfBlockerNG.ScheduleState
