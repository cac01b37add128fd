import PfBlockerNG.ScheduleTick

/-!
Runs of the scheduler: the state stays valid, completed occurrences only grow, no reservation
within the epoch is refused, and a reservation covers every occurrence of its window.
-/

namespace PfBlockerNG.ScheduleRuns

open PfBlockerNG.Strings
open PfBlockerNG.OrderedDict
open PfBlockerNG.Schedule
open PfBlockerNG.ScheduleState
open PfBlockerNG.ScheduleTick

def completedOf (items : Items) (id : Str) : Option Int := (items.item id).lastCompletedOccurrence

def pendingOf (items : Items) (id : Str) : Option Int := (items.item id).pendingOccurrence

/-! ### One reservation -/

/-- A planned occurrence leaves a valid record. -/
theorem setPendingItem_ok {item : Item} (h : item = Item.empty ∨ ItemOk item) {o : Int}
    (ho : 0 ≤ o) (hafter : ∀ c, item.lastCompletedOccurrence = some c → c < o) :
    ∃ item', setPendingItem o item = some item' ∧ ItemOk item' ∧
      item'.lastCompletedOccurrence = item.lastCompletedOccurrence ∧
      item'.pendingOccurrence = some (item.pendingOccurrence.getD o) := by
  have hall : item.lastCompletedOccurrence.all (· < o) = true := by
    cases hc : item.lastCompletedOccurrence with
    | none => rfl
    | some c => simpa using hafter c hc
  unfold setPendingItem
  cases hp : item.pendingOccurrence with
  | some p =>
      have hne : ¬ (some p = none ∧ item.lastCompletedOccurrence.all (· < o) = true) := by simp
      rw [if_neg hne]
      rcases h with rfl | hok
      · cases hp
      · exact ⟨item, rfl, hok, rfl, hp⟩
  | none =>
      rw [if_pos ⟨rfl, hall⟩]
      refine ⟨_, rfl, ?_, rfl, rfl⟩
      rcases h with rfl | hok
      · refine ⟨by simp [Item.empty], ?_, ?_, ?_, ?_, rfl, ?_⟩
        · intro t ht
          cases ht
        · intro t ht
          cases ht
        · intro t ht
          cases ht
          exact ho
        · intro _
          rfl
        · intro c p hc
          cases hc
      · refine ⟨?_, hok.checked, hok.completed, ?_, fun _ => rfl, hok.outcome, ?_⟩
        · intro heq
          have hpending := congrArg Item.pendingOccurrence heq
          cases hpending
        · intro t ht
          cases ht
          exact ho
        · intro c p hc hp'
          cases hp'
          exact hafter c hc

/-- Raising a pending occurrence leaves a valid record. -/
theorem raiseItem_ok {item item' : Item} (h : ItemOk item) {o : Int} (ho : 0 ≤ o)
    (hafter : ∀ c, item.lastCompletedOccurrence = some c → c < o)
    (hraise : raiseItem o item = some item') : ItemOk item' := by
  unfold raiseItem at hraise
  split at hraise
  · injection hraise with hraise
    subst hraise
    refine ⟨?_, h.checked, h.completed, ?_, fun _ => rfl, h.outcome, ?_⟩
    · intro heq
      have hpending := congrArg Item.pendingOccurrence heq
      cases hpending
    · intro t ht
      cases ht
      exact ho
    · intro c p hc hp
      cases hp
      exact hafter c hc
  · cases hraise

/-- After the raise the pending occurrence is the planned one or a later one. -/
theorem raiseItem_pending (o : Int) {item : Item} {p : Int}
    (h : item.pendingOccurrence = some p) :
    ∃ p', ((raiseItem o item).getD item).pendingOccurrence = some p' ∧ o ≤ p' ∧
      ((raiseItem o item).getD item).lastCompletedOccurrence = item.lastCompletedOccurrence := by
  unfold raiseItem
  rw [h, Option.getD_some]
  split
  · exact ⟨o, rfl, Int.le_refl o, rfl⟩
  · next hge => exact ⟨p, h, by omega, rfl⟩

/-- The occurrences may be reserved: distinct keys of the state, at or after the epoch and past
the completed occurrences. -/
structure Fresh (items : Items) (occurrences : List (Str × Int)) : Prop where
  nodup : (occurrences.map Prod.fst).Nodup
  key : ∀ id o, (id, o) ∈ occurrences → stateKey id = true
  epoch : ∀ id o, (id, o) ∈ occurrences → 0 ≤ o
  after : ∀ id o, (id, o) ∈ occurrences → ∀ c, completedOf items id = some c → c < o

theorem item_of_get {items : Items} {id : Str} {item : Item} (h : items.get id = some item) :
    items.item id = item := by
  rw [Items.item, h, Option.getD_some]

/-- A loop that stores valid records leaves a valid state. -/
theorem eachOccurrence_valid {f : Int → Item → Option Item} {occurrences : List (Str × Int)}
    {items : Items} (hvalid : stateValid items = true) (hfresh : Fresh items occurrences)
    (hf : ∀ id o, (id, o) ∈ occurrences → ∀ item', f o (items.item id) = some item' →
      ItemOk item') : stateValid (eachOccurrence f occurrences items) = true := by
  obtain ⟨hmem, hout⟩ := eachOccurrence_get (f := f) hfresh.nodup items
  rw [stateValid_iff] at hvalid ⊢
  intro id item hget
  by_cases hkey : id ∈ occurrences.map Prod.fst
  · obtain ⟨⟨id', o⟩, hp, rfl⟩ := List.mem_map.mp hkey
    rw [hmem id' o hp] at hget
    cases hitem : f o (items.item id') with
    | none =>
        rw [hitem] at hget
        exact hvalid id' item hget
    | some item' =>
        rw [hitem] at hget
        cases hget
        exact ⟨hfresh.key id' o hp, hf id' o hp item hitem⟩
  · rw [hout id hkey] at hget
    exact hvalid id item hget

/-- Fresh occurrences are set pending. -/
theorem setPending_spec {items : Items} {occurrences : List (Str × Int)}
    (hvalid : stateValid items = true) (hfresh : Fresh items occurrences)
    (hne : occurrences ≠ []) :
    ∃ items', setPending occurrences items = some items' ∧ stateValid items' = true ∧
      ∀ id o, (id, o) ∈ occurrences →
        ItemOk (items'.item id) ∧ completedOf items' id = completedOf items id ∧
        ∃ p, pendingOf items' id = some p := by
  have hvalid' : stateValid (eachOccurrence setPendingItem occurrences items) = true := by
    refine eachOccurrence_valid hvalid hfresh fun id o hp item' hitem => ?_
    obtain ⟨item₁, hset, hok, -⟩ := setPendingItem_ok (item_ok hvalid id)
      (hfresh.epoch id o hp) (hfresh.after id o hp)
    rw [hset] at hitem
    cases hitem
    exact hok
  have hclean : occurrences.any (fun p => !stateKey p.1 || decide (p.2 < 0)) = false := by
    rw [List.any_eq_false]
    rintro ⟨id, o⟩ hp
    have hepoch := hfresh.epoch id o hp
    simp only [hfresh.key id o hp, Bool.not_true, Bool.false_or, decide_eq_true_eq]
    omega
  refine ⟨eachOccurrence setPendingItem occurrences items, ?_, hvalid', fun id o hp => ?_⟩
  · rw [setPending, if_neg hne, hclean]
    exact stateUpdate_eq_some hvalid hvalid'
  · obtain ⟨item', hset, hok, hcompleted, hpending⟩ := setPendingItem_ok (item_ok hvalid id)
      (hfresh.epoch id o hp) (hfresh.after id o hp)
    have hget := (eachOccurrence_get (f := setPendingItem) hfresh.nodup items).1 id o hp
    rw [hset, Option.some_or] at hget
    rw [completedOf, pendingOf, item_of_get hget]
    exact ⟨hok, hcompleted, _, hpending⟩

/-- Pending occurrences are raised to the planned ones. -/
theorem raisePending_spec {items : Items} {occurrences : List (Str × Int)}
    (hvalid : stateValid items = true) (hfresh : Fresh items occurrences)
    (hready : ∀ id o, (id, o) ∈ occurrences →
      ItemOk (items.item id) ∧ ∃ p, pendingOf items id = some p) :
    ∃ items', raisePending occurrences items = some items' ∧ stateValid items' = true ∧
      ∀ id o, (id, o) ∈ occurrences →
        completedOf items' id = completedOf items id ∧
        ∃ p, pendingOf items' id = some p ∧ o ≤ p := by
  have hvalid' : stateValid (eachOccurrence raiseItem occurrences items) = true :=
    eachOccurrence_valid hvalid hfresh fun id o hp item' hitem =>
      raiseItem_ok (hready id o hp).1 (hfresh.epoch id o hp) (hfresh.after id o hp) hitem
  refine ⟨eachOccurrence raiseItem occurrences items, ?_, hvalid', fun id o hp => ?_⟩
  · exact stateUpdate_eq_some hvalid hvalid'
  · obtain ⟨p, hpending⟩ := (hready id o hp).2
    obtain ⟨p', hpending', hle, hcompleted⟩ := raiseItem_pending o hpending
    have hget := (eachOccurrence_get (f := raiseItem) hfresh.nodup items).1 id o hp
    have hitem : (eachOccurrence raiseItem occurrences items).item id =
        (raiseItem o (items.item id)).getD (items.item id) := by
      rw [Items.item, hget, Items.item]
      cases raiseItem o ((items.get id).getD Item.empty) <;> rfl
    rw [completedOf, pendingOf, hitem]
    exact ⟨hcompleted, p', hpending', hle⟩

theorem fresh_tick {digest : Digest} {model : RuntimeModel} {items : Items} {now : Int} {z : Zone}
    {cache : Option (Dict Str LedgerEntry)} {ready : Bool}
    (hmodel : modelValid digest model = true)
    (hepoch : ∀ p ∈ tickOccurrences model items now z cache ready, 0 ≤ p.2) :
    Fresh items (tickOccurrences model items now z cache ready) where
  nodup := nodup_tickOccurrences model items now z cache ready
  key id o hp := by
    obtain ⟨entry, hentry⟩ := (planned_of_tick hp).entry
    simp only [modelValid, Bool.and_eq_true, List.all_eq_true] at hmodel
    exact stateKey_of_validId (hmodel.1.2 _ hentry).1
  epoch id o hp := hepoch _ hp
  after id o hp := (planned_of_tick hp).after

/-- A tick under a valid model whose occurrences are not before the epoch reserves all of them. -/
theorem reserve_spec {digest : Digest} {model : RuntimeModel} {items : Items} {now : Int}
    {z : Zone} {cache : Option (Dict Str LedgerEntry)} {ready : Bool}
    (hmodel : modelValid digest model = true) (hvalid : stateValid items = true)
    (hepoch : ∀ p ∈ tickOccurrences model items now z cache ready, 0 ≤ p.2) :
    (reserve digest model now z cache ready items).2 = true ∧
      stateValid (reserve digest model now z cache ready items).1 = true ∧
      ∀ id o, (id, o) ∈ tickOccurrences model items now z cache ready →
        ∃ p, pendingOf (reserve digest model now z cache ready items).1 id = some p ∧ o ≤ p := by
  have hfresh : Fresh items (tickOccurrences model items now z cache ready) :=
    fresh_tick hmodel hepoch
  unfold reserve
  rw [hmodel, hvalid]
  by_cases hne : tickOccurrences model items now z cache ready = []
  · simp only [hne, if_true]
    exact ⟨rfl, hvalid, fun id o hp => absurd hp List.not_mem_nil⟩
  · obtain ⟨items₁, hset, hvalid₁, hready⟩ := setPending_spec hvalid hfresh hne
    have hfresh₁ : Fresh items₁ (tickOccurrences model items now z cache ready) := by
      refine ⟨hfresh.nodup, hfresh.key, hfresh.epoch, fun id o hp c hc => ?_⟩
      rw [(hready id o hp).2.1] at hc
      exact hfresh.after id o hp c hc
    obtain ⟨items₂, hraise, hvalid₂, hpending⟩ := raisePending_spec hvalid₁ hfresh₁
      fun id o hp => ⟨(hready id o hp).1, (hready id o hp).2.2⟩
    simp only [Bool.and_self, if_true, if_neg hne, hset, hraise]
    exact ⟨trivial, hvalid₂, fun id o hp => (hpending id o hp).2⟩

/-! ### Runs -/

theorem getD_stateUpdate_valid {update : Items → Items} {items : Items}
    (h : stateValid items = true) : stateValid ((stateUpdate update items).getD items) = true := by
  cases hupdate : stateUpdate update items with
  | none => exact h
  | some items' => exact stateUpdate_valid hupdate

theorem setPending_valid {items items' : Items} {occurrences : List (Str × Int)}
    (hvalid : stateValid items = true) (h : setPending occurrences items = some items') :
    stateValid items' = true := by
  unfold setPending at h
  split at h
  · cases h
    exact hvalid
  · split at h
    · cases h
    · exact stateUpdate_valid h

/-- Every step leaves a valid state. -/
theorem step_valid {items : Items} (h : stateValid items = true) (e : Event) :
    stateValid (step items e) = true := by
  cases e with
  | tick digest model now z cache ready =>
      change stateValid (reserve digest model now z cache ready items).1 = true
      unfold reserve
      split
      · dsimp only
        split
        · exact h
        · split
          · exact h
          · next items₁ hset =>
              split
              · exact setPending_valid h hset
              · next items₂ hraise => exact stateUpdate_valid hraise
      · exact h
  | markAttempted id occurrence => exact getD_stateUpdate_valid h
  | recordOutcome id outcome now expected =>
      change stateValid ((recordOutcome id outcome now expected items).getD items) = true
      unfold recordOutcome
      split
      · exact getD_stateUpdate_valid h
      · exact h

/-- What a step does to the completed occurrence of an identifier: nothing, or it completes the
pending one. -/
def Moves (items items' : Items) (id : Str) : Prop :=
  completedOf items' id = completedOf items id ∨
    ∃ p, pendingOf items id = some p ∧ completedOf items' id = some p

theorem completedOf_set (items : Items) (id id' : Str) (item : Item) :
    completedOf (items.set id item) id' =
      if id = id' then item.lastCompletedOccurrence else completedOf items id' := by
  rw [completedOf, item_set]
  split <;> rfl

theorem completedOf_eachOccurrence {f : Int → Item → Option Item}
    (hf : ∀ o item item', f o item = some item' →
      item'.lastCompletedOccurrence = item.lastCompletedOccurrence)
    (occurrences : List (Str × Int)) (items : Items) (id : Str) :
    completedOf (eachOccurrence f occurrences items) id = completedOf items id := by
  induction occurrences generalizing items with
  | nil => rfl
  | cons p occurrences ih =>
      refine (ih (oneOccurrence f items p)).trans ?_
      unfold oneOccurrence
      split
      · next item hitem =>
          rw [completedOf_set]
          split
          · next heq =>
              subst heq
              exact hf _ _ _ hitem
          · rfl
      · rfl

theorem completedOf_setPending {items items' : Items} {occurrences : List (Str × Int)}
    (h : setPending occurrences items = some items') (id : Str) :
    completedOf items' id = completedOf items id := by
  have hkeeps : ∀ o item item', setPendingItem o item = some item' →
      item'.lastCompletedOccurrence = item.lastCompletedOccurrence := by
    intro o item item' hitem
    unfold setPendingItem at hitem
    split at hitem <;> cases hitem <;> rfl
  unfold setPending at h
  split at h
  · cases h
    rfl
  · split at h
    · cases h
    · unfold stateUpdate at h
      split at h
      · cases h
        exact completedOf_eachOccurrence hkeeps occurrences items id
      · cases h

theorem completedOf_raisePending {items items' : Items} {occurrences : List (Str × Int)}
    (h : raisePending occurrences items = some items') (id : Str) :
    completedOf items' id = completedOf items id := by
  have hkeeps : ∀ o item item', raiseItem o item = some item' →
      item'.lastCompletedOccurrence = item.lastCompletedOccurrence := by
    intro o item item' hitem
    unfold raiseItem at hitem
    split at hitem <;> cases hitem
    rfl
  unfold raisePending stateUpdate at h
  split at h
  · cases h
    exact completedOf_eachOccurrence hkeeps occurrences items id
  · cases h

theorem completedOf_reserve (digest : Digest) (model : RuntimeModel) (now : Int) (z : Zone)
    (cache : Option (Dict Str LedgerEntry)) (ready : Bool) (items : Items) (id : Str) :
    completedOf (reserve digest model now z cache ready items).1 id = completedOf items id := by
  unfold reserve
  split
  · dsimp only
    split
    · rfl
    · split
      · rfl
      · next items₁ hset =>
          split
          · exact completedOf_setPending hset id
          · next items₂ hraise =>
              exact (completedOf_raisePending hraise id).trans (completedOf_setPending hset id)
  · rfl

theorem recordItem_completed (outcome : TerminalResult) (now : Int) (item : Item) :
    (recordItem outcome now item).lastCompletedOccurrence =
      (item.pendingOccurrence.or item.lastCompletedOccurrence) := by
  unfold recordItem
  cases outcome <;> cases hp : item.pendingOccurrence <;> simp [hp]

theorem moves_set_record (items : Items) (id id' : Str) (outcome : TerminalResult) (now : Int) :
    Moves items (items.set id (recordItem outcome now (items.item id))) id' := by
  unfold Moves
  rw [completedOf_set]
  by_cases heq : id = id'
  · subst heq
    rw [if_pos rfl, recordItem_completed]
    cases hp : (items.item id).pendingOccurrence with
    | none => exact Or.inl rfl
    | some p => exact Or.inr ⟨p, hp, rfl⟩
  · rw [if_neg heq]
    exact Or.inl rfl

/-- Steps move completed occurrences only by completing what is pending. -/
theorem step_moves (items : Items) (e : Event) (id : Str) : Moves items (step items e) id := by
  cases e with
  | tick digest model now z cache ready =>
      exact Or.inl (completedOf_reserve digest model now z cache ready items id)
  | markAttempted id' occurrence =>
      refine Or.inl ?_
      change completedOf ((markAttempted id' occurrence items).getD items) id = _
      unfold markAttempted stateUpdate
      split
      · rw [Option.getD_some]
        dsimp only
        split
        · rw [completedOf_set]
          split
          · next heq => rw [heq, completedOf]
          · rfl
        · rfl
      · rfl
  | recordOutcome id' outcome now expected =>
      change Moves items ((recordOutcome id' outcome now expected items).getD items) id
      unfold recordOutcome stateUpdate
      split
      · split
        · rw [Option.getD_some]
          dsimp only
          split
          · exact Or.inl rfl
          · split
            · exact Or.inl rfl
            · exact moves_set_record items id' id outcome now
        · exact Or.inl rfl
      · exact Or.inl rfl

theorem runFrom_valid {items : Items} (h : stateValid items = true) (events : List Event) :
    stateValid (runFrom items events) = true := by
  induction events generalizing items with
  | nil => exact h
  | cons e events ih => exact ih (step_valid h e)

theorem run_valid (events : List Event) : stateValid (run events) = true :=
  runFrom_valid rfl events

/-- In a valid state the pending occurrence is later than the completed one. -/
theorem completed_lt_pending {items : Items} (h : stateValid items = true) {id : Str} {c p : Int}
    (hc : completedOf items id = some c) (hp : pendingOf items id = some p) : c < p := by
  rcases item_ok h id with hempty | hok
  · rw [completedOf, hempty] at hc
    cases hc
  · exact hok.later c p hc hp

/-- Along a run the completed occurrence of an identifier never decreases. -/
theorem completed_mono {items : Items} (h : stateValid items = true) {id : Str} {c : Int}
    (hc : completedOf items id = some c) (events : List Event) :
    ∃ c', completedOf (runFrom items events) id = some c' ∧ c ≤ c' := by
  induction events generalizing items c with
  | nil => exact ⟨c, hc, Int.le_refl c⟩
  | cons e events ih =>
      rcases step_moves items e id with hsame | ⟨p, hp, hcompleted⟩
      · exact ih (step_valid h e) (hsame.trans hc)
      · have hlt := completed_lt_pending h hc hp
        obtain ⟨c', hc', hle⟩ := ih (step_valid h e) hcompleted
        exact ⟨c', hc', by omega⟩

/-- After a published reservation an occurrence of the window is completed or pending, or a
later one is. -/
def Covered (items : Items) (id : Str) (o : Int) : Prop :=
  (∃ c, completedOf items id = some c ∧ o ≤ c) ∨ ∃ p, pendingOf items id = some p ∧ o ≤ p

theorem eligible_feed {digest : Digest} {model : RuntimeModel}
    (hmodel : modelValid digest model = true) {items : Items} {id : Str} {entry : Entry}
    (hentry : (id, entry) ∈ model.feeds) (henabled : entry.enabled = true)
    (hcadence : entry.cadence ≠ .never) {z : Zone} {now o : Int}
    (hscheduled : model.scheduled = true)
    (hdue : dueOccurrence z entry.cadence (entry.override.getD model.default)
      (completedOf items id) now = some o) :
    (id, o) ∈ feedOccurrences model items now z := by
  simp only [modelValid, Bool.and_eq_true, List.all_eq_true] at hmodel
  have hrows : entry.hasActiveRows = true :=
    (hmodel.1.2 _ (List.mem_of_mem_filter hentry)).2
  rw [feedOccurrences, if_pos hscheduled]
  refine mem_plan_occurrences.mpr ⟨_, mem_groups.mpr ⟨entry, hentry, rfl⟩, ?_, ?_⟩
  · simp [Entry.group_eligible, henabled, hrows, hcadence]
  · rw [Option.or_none]
    exact hdue

/-- A reservation covers the occurrences of its window. -/
theorem reserve_covers {digest : Digest} {model : RuntimeModel} {items : Items} {now : Int}
    {z : Zone} {cache : Option (Dict Str LedgerEntry)} {ready : Bool}
    (hmodel : modelValid digest model = true) (hvalid : stateValid items = true)
    (hepoch : ∀ p ∈ tickOccurrences model items now z cache ready, 0 ≤ p.2)
    (hz : z.Quarterly) (hscheduled : model.scheduled = true) {id : Str} {entry : Entry}
    (hentry : (id, entry) ∈ model.feeds) (henabled : entry.enabled = true) {o : Int}
    (ho : Occurs z entry.cadence (entry.override.getD model.default) o)
    (hrecent : now - window ≤ o) (hpast : o ≤ now)
    (hreach : o < now ∨ Reachable z entry.cadence (entry.override.getD model.default)
      (completedOf items id) now) :
    Covered (reserve digest model now z cache ready items).1 id o := by
  obtain ⟨-, -, hpending⟩ := reserve_spec hmodel hvalid hepoch
  by_cases hafter : ∀ c, completedOf items id = some c → c < o
  · have hreach' : Reachable z entry.cadence (entry.override.getD model.default)
        (completedOf items id) now := by
      rcases hreach with hlt | hreach
      · exact Or.inr ⟨o, ho, hrecent, hlt⟩
      · exact hreach
    obtain ⟨o', hdue, hle⟩ := dueOccurrence_reaches hz ho hrecent hpast hafter hreach'
    have hfeed := eligible_feed hmodel hentry henabled ho.ne_never hscheduled hdue
    obtain ⟨p, hp, hle'⟩ := hpending id o' (mem_tickOccurrences_of_feed cache ready hfeed)
    exact Or.inr ⟨p, hp, by omega⟩
  · push Not at hafter
    obtain ⟨c, hc, hle⟩ := hafter
    exact Or.inl ⟨c, (completedOf_reserve digest model now z cache ready items id).trans hc, hle⟩

/-- A published reservation holds nothing before the epoch. -/
theorem epoch_of_published {digest : Digest} {model : RuntimeModel} {items : Items} {now : Int}
    {z : Zone} {cache : Option (Dict Str LedgerEntry)} {ready : Bool}
    (h : (reserve digest model now z cache ready items).2 = true) :
    ∀ p ∈ tickOccurrences model items now z cache ready, 0 ≤ p.2 := by
  intro p hp
  by_contra hneg
  have hany : (tickOccurrences model items now z cache ready).any
      (fun p => !stateKey p.1 || decide (p.2 < 0)) = true := by
    refine List.any_eq_true.mpr ⟨p, hp, ?_⟩
    have hlt : p.2 < 0 := by omega
    simp [hlt]
  have hne : tickOccurrences model items now z cache ready ≠ [] := List.ne_nil_of_mem hp
  have hset : setPending (tickOccurrences model items now z cache ready) items = none := by
    rw [setPending, if_neg hne, if_pos hany]
  unfold reserve at h
  split at h
  · simp only [if_neg hne, hset] at h
    cases h
  · cases h

/-- From fifteen days after the epoch on, nothing before the epoch is planned. -/
theorem epoch_of_late {model : RuntimeModel} {items : Items} {now : Int} {z : Zone}
    {cache : Option (Dict Str LedgerEntry)} {ready : Bool} (h : window ≤ now) :
    ∀ p ∈ tickOccurrences model items now z cache ready, 0 ≤ p.2 := by
  rintro ⟨id, o⟩ hp
  have hrecent := (planned_of_tick hp).recent
  change 0 ≤ o
  omega

/-- After every run: the state is valid; what was completed stays completed, only grows, and is
never pending again; a tick under a valid model is refused only for an occurrence before the epoch;
and a reservation covers every occurrence of its window. -/
theorem scheduler_consistent (events : List Event) :
    stateValid (run events) = true ∧
    (∀ id c, completedOf (run events) id = some c → ∀ more,
      (∃ c', completedOf (runFrom (run events) more) id = some c' ∧ c ≤ c') ∧
      pendingOf (runFrom (run events) more) id ≠ some c) ∧
    ∀ digest model now z cache ready, modelValid digest model = true →
      ((reserve digest model now z cache ready (run events)).2 = false →
        ∃ p ∈ tickOccurrences model (run events) now z cache ready, p.2 < 0) ∧
      (window ≤ now → (reserve digest model now z cache ready (run events)).2 = true) ∧
      ((reserve digest model now z cache ready (run events)).2 = true → z.Quarterly →
        model.scheduled = true → ∀ id entry, (id, entry) ∈ model.feeds → entry.enabled = true →
        ∀ o, Occurs z entry.cadence (entry.override.getD model.default) o →
          now - window ≤ o → o ≤ now →
          (o < now ∨ Reachable z entry.cadence (entry.override.getD model.default)
            (completedOf (run events) id) now) →
          Covered (reserve digest model now z cache ready (run events)).1 id o) := by
  have hvalid := run_valid events
  refine ⟨hvalid, fun id c hc more => ?_, fun digest model now z cache ready hmodel => ?_⟩
  · obtain ⟨c', hc', hle⟩ := completed_mono hvalid hc more
    refine ⟨⟨c', hc', hle⟩, fun hp => ?_⟩
    have hlt := completed_lt_pending (runFrom_valid hvalid more) hc' hp
    omega
  · refine ⟨fun hrefused => ?_, fun hlate => ?_, ?_⟩
    · by_contra hnone
      push Not at hnone
      rw [(reserve_spec hmodel hvalid hnone).1] at hrefused
      cases hrefused
    · exact (reserve_spec hmodel hvalid (epoch_of_late hlate)).1
    · intro hpublished hz hscheduled id entry hentry henabled o ho hrecent hpast hreach
      exact reserve_covers hmodel hvalid (epoch_of_published hpublished) hz hscheduled hentry
        henabled ho hrecent hpast hreach

def utc : Zone := ⟨fun _ => 0⟩

/-- Local time moved from 44 minutes 30 seconds behind UTC to UTC on 7 January 1972. -/
def monrovia : Zone := ⟨fun t => if t < 63593070 then -2670 else 0⟩

def mondayMidnight : Slot := ⟨1, 0, 0, by decide, by decide, by decide⟩

def feedId : Str := ['i', 'p', 'v', '4', ':', 'a', '_', 'v', '4']

def fixedDigest : Digest := fun _ _ _ => some (List.replicate 64 '0')

/-- A scheduled model of one enabled feed. -/
def oneFeed (cadence : Cadence) : RuntimeModel where
  configHash := List.replicate 64 '0'
  scheduled := true
  default := mondayMidnight
  entries := Dict.empty.set feedId ⟨cadence, true, true, none⟩

theorem utc_quarterly : utc.Quarterly := fun _ _ => by simp [utc]

/-- An hourly feed after a first tick and its success, at a second tick. -/
theorem scheduler_consistent_hourly :
    Covered (reserve fixedDigest (oneFeed .hours01) 1300000 utc none true
      (run [.tick fixedDigest (oneFeed .hours01) 1296000 utc none true,
        .recordOutcome feedId .success 1296010 none])).1 feedId 1299600 := by
  have hmodel : modelValid fixedDigest (oneFeed .hours01) = true := by decide
  obtain ⟨-, -, hreserve⟩ := scheduler_consistent
    [.tick fixedDigest (oneFeed .hours01) 1296000 utc none true,
      .recordOutcome feedId .success 1296010 none]
  obtain ⟨-, hlate, hcovers⟩ := hreserve fixedDigest (oneFeed .hours01) 1300000 utc none true hmodel
  exact hcovers (hlate (by decide)) utc_quarterly rfl feedId ⟨.hours01, true, true, none⟩
    (by decide) rfl 1299600 ⟨by decide, by decide⟩ (by decide) (by decide)
    (Or.inl (by decide))

/-- At the epoch the latest Monday lies before it and the reservation is refused; and when the
offset changes by a part of a quarter-hour, the scan misses the midnights after the change. -/
theorem reservation_not_consistent :
    (modelValid fixedDigest (oneFeed .weekly) = true ∧
      (reserve fixedDigest (oneFeed .weekly) 0 utc none true (run [])).2 = false ∧
      Occurs utc .weekly mondayMidnight (-259200) ∧
      ¬ Covered (reserve fixedDigest (oneFeed .weekly) 0 utc none true (run [])).1 feedId
        (-259200)) ∧
    modelValid fixedDigest (oneFeed .everyDay) = true ∧
      (reserve fixedDigest (oneFeed .everyDay) 63763200 monrovia none true (run [])).2 = true ∧
      Occurs monrovia .everyDay mondayMidnight 63763200 ∧
      ¬ Covered (reserve fixedDigest (oneFeed .everyDay) 63763200 monrovia none true (run [])).1
        feedId 63763200 := by
  have hepoch : (reserve fixedDigest (oneFeed .weekly) 0 utc none true (run [])).2 = false ∧
      completedOf (reserve fixedDigest (oneFeed .weekly) 0 utc none true (run [])).1 feedId =
        none ∧
      pendingOf (reserve fixedDigest (oneFeed .weekly) 0 utc none true (run [])).1 feedId =
        none := by decide +kernel
  have hlost : (reserve fixedDigest (oneFeed .everyDay) 63763200 monrovia none true (run [])).2 =
        true ∧
      completedOf (reserve fixedDigest (oneFeed .everyDay) 63763200 monrovia none true
        (run [])).1 feedId = none ∧
      pendingOf (reserve fixedDigest (oneFeed .everyDay) 63763200 monrovia none true
        (run [])).1 feedId = some 63506670 := by decide +kernel
  obtain ⟨hrefused, hcompleted₀, hpending₀⟩ := hepoch
  obtain ⟨hpublished, hcompleted, hpending⟩ := hlost
  refine ⟨⟨by decide, hrefused, ⟨by decide, by decide⟩, ?_⟩, by decide,
    hpublished, ⟨by decide, by decide⟩, ?_⟩
  · rintro (⟨c, hc, -⟩ | ⟨p, hp, -⟩)
    · rw [hcompleted₀] at hc
      cases hc
    · rw [hpending₀] at hp
      cases hp
  · rintro (⟨c, hc, -⟩ | ⟨p, hp, hle⟩)
    · rw [hcompleted] at hc
      cases hc
    · rw [hpending] at hp
      cases hp
      omega

end PfBlockerNG.ScheduleRuns
