import PfBlockerNG.DecisionAgreement

/-!
The FORWARDs of a decision session: the slot of a call, the FORWARDs the decider waits on, the empty
REPLYs an abandoned call is owed, and the agreement of both sides in every reachable session.
-/

namespace PfBlockerNG.DecisionForwards

open OrderedDict Transitions DecisionSession DecisionAgreement
open DecisionSession.Session

/-! ### The slot of a call -/

/-- The forwarder runs, or has returned and the call is still marked busy. -/
def isServing : Pc → Bool
  | .running _ | .replied _ => true
  | _ => false

def isAbandoning : Pc → Bool
  | .abandoning => true
  | _ => false

/-- The slot holds a FORWARD only while the call is busy, and a busy call that still waits has
one in its slot or is being served. -/
structure Slot (c : Call) : Prop where
  busy : c.slot ≠ none → c.busy = true
  held : c.busy = true → c.abandoned = false → c.slot ≠ none ∨ isServing c.pc = true
  serving : isServing c.pc = true → c.slot = none ∧ c.busy = true
  abandoned : c.abandoned = true → c.pc = .abandoning ∨ c.pc = .returned (.error .cancelled)
  abandoning : c.pc = .abandoning → c.abandoned = true

/-- A call that is not being served moves on and keeps its slot. -/
theorem Slot.move {c c' : Call} (h : Slot c) (hslot : c'.slot = c.slot) (hbusy : c'.busy = c.busy)
    (habandoned : c'.abandoned = c.abandoned) (hwas : isServing c.pc = false)
    (hpc : isServing c'.pc = false) (hgone : c'.pc ≠ .abandoning)
    (hpast : c.pc = .abandoning ∨ c.pc = .returned (.error .cancelled) →
      c'.pc = .returned (.error .cancelled)) : Slot c' where
  busy := by rw [hslot, hbusy]; exact h.busy
  held hb ha := by
    rw [hbusy] at hb
    rw [habandoned] at ha
    rw [hslot, hpc]
    exact Or.inl ((h.held hb ha).resolve_right (by simp [hwas]))
  serving hserving := by rw [hpc] at hserving; cases hserving
  abandoned ha := Or.inr (hpast (h.abandoned (habandoned ▸ ha)))
  abandoning ha := absurd ha hgone

theorem Slot.delivered {c : Call} (h : Slot c) (hwas : isServing c.pc = false)
    (hpc : c.pc ≠ .abandoning ∧ c.pc ≠ .returned (.error .cancelled)) : Slot c.delivered := by
  have hpast {p : Prop} : c.pc = .abandoning ∨ c.pc = .returned (.error .cancelled) → p := by
    rintro (h | h)
    · exact absurd h hpc.1
    · exact absurd h hpc.2
  rcases delivered_cases c with ⟨_, hc⟩ | ⟨answer, _, hc⟩
  · rw [hc]
    exact h.move rfl rfl rfl hwas rfl (by simp) hpast
  · rw [hc]
    exact h.move rfl rfl rfl hwas rfl (by simp) hpast

theorem slot_abandon (c : Call) : Slot c.abandon := by
  unfold Call.abandon
  cases hslot : c.slot with
  | none =>
      exact {
        busy := by simp
        held := by simp
        serving := by simp [isServing]
        abandoned := fun _ => Or.inr rfl
        abandoning := by simp }
  | some wire =>
      exact {
        busy := by simp
        held := by simp
        serving := by simp [isServing]
        abandoned := fun _ => Or.inl rfl
        abandoning := fun _ => rfl }

theorem slot_effect {s s' : Session} {e : Event} (h : ∀ k, Slot (s.calls k))
    (heffect : Effect s e s') :
    ∀ k, Slot (s'.calls k) := by
  cases heffect with
  | refused k _ hpc | registered k _ hpc | queryLost k hpc | querySent k hpc | replySent k _ hpc =>
      refine forall_update (P := fun _ => Slot) h ?_
      exact (h k).move rfl rfl rfl (by simp [hpc, isServing]) rfl (by simp) (by simp [hpc])
  | picked k wire hpc hslot =>
      refine forall_update (P := fun _ => Slot) h ?_
      have hbusy : (s.calls k).busy = true := (h k).busy (by simp [hslot])
      refine ⟨by simp, fun _ _ => Or.inr rfl, fun _ => ⟨rfl, hbusy⟩, fun ha => ?_, by simp⟩
      have := (h k).abandoned ha
      simp [hpc] at this
  | forwarded k request reply hpc =>
      refine forall_update (P := fun _ => Slot) h ?_
      have hserving := (h k).serving (by rw [hpc]; rfl)
      refine ⟨(h k).busy, fun _ _ => Or.inr rfl, fun _ => hserving, fun ha => ?_, by simp⟩
      have := (h k).abandoned ha
      simp [hpc] at this
  | answered k reply hpc =>
      refine forall_update (P := fun _ => Slot) h ?_
      have hserving := (h k).serving (by rw [hpc]; rfl)
      refine ⟨by simp [hserving.1], by simp, by simp [isServing], fun ha => ?_, by simp⟩
      have := (h k).abandoned ha
      simp [hpc] at this
  | replyLost k _ hpc | finalTaken k _ hpc | doneSeen k hpc =>
      refine forall_update (P := fun _ => Slot) h ?_
      exact (h k).delivered (by simp [hpc, isServing]) (by simp [hpc])
  | cancelled k => exact forall_update (P := fun _ => Slot) h (slot_abandon _)
  | emptyLost k hpc | emptySent k hpc =>
      refine forall_update (P := fun _ => Slot) h ?_
      exact (h k).move rfl rfl rfl (by simp [hpc, isServing]) rfl (by simp) (by simp)
  | forwardRefused _ k | settled _ k | owedSent _ k =>
      refine forall_update (P := fun _ => Slot) h ?_
      exact { (h k) with }
  | forwardDelivered _ k wire _ _ _ _ habandoned hbusy hslot =>
      refine forall_update (P := fun _ => Slot) h ?_
      refine ⟨fun _ => rfl, fun _ _ => Or.inl (by simp), fun hserving => ?_, (h k).abandoned,
        (h k).abandoning⟩
      have := ((h k).serving hserving).2
      rw [hbusy] at this
      cases this
  | readyRead | protocolError | forwardIgnored | forwardRepeated | finalIgnored | owedLost | failed
  | closed | retired | drained | drainedAgain | queryReceived | queryRejected | replyReceived
  | replyIgnored | forwardSent | timedOut | continued | finished | stopped => exact h

/-- A call that returned while its id is still in the table was given up, or the session ended. -/
def Gone (s : Session) : Prop :=
  ∀ id k result, lookup id s.table = some k → (s.calls k).pc = .returned result →
    (s.calls k).abandoned = true ∨ Broken s

theorem Gone.congr {s s' : Session} (h : Gone s) (hcalls : s'.calls = s.calls)
    (htable : s'.table = s.table) (hbroken : Broken s → Broken s') : Gone s' := by
  intro id k result hentry hpc
  rw [htable] at hentry
  rw [hcalls] at hpc ⊢
  exact (h id k result hentry hpc).imp (fun h => h) hbroken

theorem Gone.move {s s' : Session} (h : Gone s) {k : Nat} {c : Call}
    (hcalls : s'.calls = Function.update s.calls k c)
    (htable : ∀ {id k'}, lookup id s'.table = some k' → k' = k ∨ lookup id s.table = some k')
    (hbroken : Broken s → Broken s')
    (hc : ∀ id result, lookup id s'.table = some k → c.pc = .returned result →
      c.abandoned = true ∨ Broken s') : Gone s' := by
  intro id k' result hentry hpc
  rw [hcalls] at hpc ⊢
  by_cases hk : k' = k
  · subst hk
    rw [Function.update_self] at hpc ⊢
    exact hc id result hentry hpc
  · rw [Function.update_of_ne hk] at hpc ⊢
    have hold := (htable hentry).resolve_left hk
    exact (h id k' result hold hpc).imp (fun h => h) hbroken

theorem gone_effect {s s' : Session} {e : Event} (h : Gone s) (htokens : Tokens s)
    (hslots : ∀ k, Slot (s.calls k))
    (heffect : Effect s e s') : Gone s' := by
  cases heffect with
  | refused k err hpc =>
      refine h.move rfl Or.inr (fun h => h) fun id _ hentry _ => ?_
      exact absurd hpc ((htokens.entry k).idle hentry)
  | registered k id hpc hfree =>
      refine h.move rfl (fun {id' k'} hentry => ?_) (fun h => h) (by simp)
      change lookup id' ((id, k) :: s.table) = some k' at hentry
      rw [lookup] at hentry
      split at hentry
      · exact Or.inl (Option.some.inj hentry).symm
      · exact Or.inr hentry
  | queryLost k | replyLost k | emptyLost k =>
      exact h.move rfl Or.inr (fun _ => Or.inl rfl) fun _ _ _ _ => Or.inr (Or.inl rfl)
  | querySent k | picked k | forwarded k | answered k | replySent k =>
      exact h.move rfl Or.inr (fun h => h) (by simp)
  | finalTaken k answer _ hfinal =>
      refine h.move rfl Or.inr (fun h => h) fun id _ hentry _ => ?_
      have hnone := (htokens.entry k).final hentry
      rw [hfinal] at hnone
      cases hnone
  | cancelled k =>
      refine h.move rfl Or.inr (fun h => h) fun _ _ _ _ => Or.inl ?_
      unfold Call.abandon
      split <;> rfl
  | emptySent k hpc =>
      refine h.move rfl Or.inr (fun h => h) fun _ _ _ _ => Or.inl ?_
      exact (hslots k).abandoning hpc
  | doneSeen k _ hended =>
      exact h.move rfl Or.inr (fun h => h) fun _ _ _ _ => Or.inr (Or.inl hended)
  | forwardRefused id k | forwardDelivered id k | owedSent id k =>
      exact h.move rfl Or.inr (fun h => h) fun id' result hentry hpc => h id' k result hentry hpc
  | settled id k =>
      have hold : ∀ {id' k'}, lookup id' (eraseID id s.table) = some k' →
          lookup id' s.table = some k' := by
        intro id' k' hentry
        rw [lookup_eraseID] at hentry
        split at hentry
        · cases hentry
        · exact hentry
      exact h.move rfl (fun hentry => Or.inr (hold hentry)) (fun h => h)
        fun id' result hentry hpc => h id' k result (hold hentry) hpc
  | protocolError | owedLost | failed => exact h.congr rfl rfl fun _ => Or.inl rfl
  | closed => exact h.congr rfl rfl fun _ => Or.inr rfl
  | readyRead | forwardIgnored | forwardRepeated | finalIgnored | retired | drained | drainedAgain
  | queryReceived | queryRejected | replyReceived | replyIgnored | forwardSent | timedOut
  | continued | finished | stopped => exact h.congr rfl rfl fun h => h

/-! ### The FORWARDs the decider waits on -/

/-- The goroutine of a call has a FORWARD to serve, serves one, or is about to answer it. -/
def Active (c : Call) : Prop :=
  match c.pc with
  | .selecting => c.slot ≠ none
  | .running _ | .replied _ | .sending _ | .abandoning => True
  | _ => False

/-- Why a FORWARD the decider waits on will be answered: it is on its way to the call, its
answer is on its way back or owed by the reader, or the call is active. -/
def Served (s : Session) (id k : Nat) : Prop :=
  (∃ wire, .forward id wire ∈ s.toGateway) ∨ (∃ payload, .reply id payload ∈ s.toDecider) ∨
    (∃ k', s.owed = some (id, k')) ∨ Active (s.calls k)

def Waiting (s : Session) : Prop :=
  ∀ id k, s.tasks id = some ⟨k, .waiting⟩ → Broken s ∨ Served s id k

theorem Served.mono {s s' : Session} {id k : Nat} (h : Served s id k)
    (hforward : ∀ wire, .forward id wire ∈ s.toGateway → Broken s' ∨ Served s' id k)
    (hreply : ∀ payload, .reply id payload ∈ s.toDecider → .reply id payload ∈ s'.toDecider)
    (howed : ∀ p, s.owed = some p → s'.owed = some p)
    (hactive : Active (s.calls k) → Broken s' ∨ Served s' id k) : Broken s' ∨ Served s' id k := by
  rcases h with ⟨wire, hmem⟩ | ⟨payload, hmem⟩ | ⟨k', hk'⟩ | hcall
  · exact hforward wire hmem
  · exact Or.inr (Or.inr (Or.inl ⟨payload, hreply payload hmem⟩))
  · exact Or.inr (Or.inr (Or.inr (Or.inl ⟨k', howed _ hk'⟩)))
  · exact hactive hcall

/-- The tasks, the streams and the calls stay. -/
theorem Waiting.congr {s s' : Session} (h : Waiting s)
    (htasks : ∀ id k, s'.tasks id = some ⟨k, .waiting⟩ → s.tasks id = some ⟨k, .waiting⟩)
    (hbroken : Broken s → Broken s') (hgateway : ∀ frame ∈ s.toGateway, frame ∈ s'.toGateway)
    (hreply : ∀ id k payload, s'.tasks id = some ⟨k, .waiting⟩ → .reply id payload ∈ s.toDecider →
      .reply id payload ∈ s'.toDecider)
    (howed : s'.owed = s.owed) (hcalls : s'.calls = s.calls) : Waiting s' := by
  intro id k htask
  rcases h id k (htasks id k htask) with hover | hserved
  · exact Or.inl (hbroken hover)
  · exact hserved.mono (fun wire hmem => Or.inr (Or.inl ⟨wire, hgateway _ hmem⟩))
      (fun payload => hreply id k payload htask) (fun p hp => howed.trans hp)
      (fun hcall => Or.inr (Or.inr (Or.inr (Or.inr (hcalls ▸ hcall)))))

/-- One call moves; an active call stays active or has its answer sent. -/
theorem Waiting.move {s s' : Session} (h : Waiting s) {k : Nat} {c : Call}
    (hcalls : s'.calls = Function.update s.calls k c) (htasks : s'.tasks = s.tasks)
    (hbroken : Broken s → Broken s') (hgateway : s'.toGateway = s.toGateway)
    (hdecider : ∀ frame ∈ s.toDecider, frame ∈ s'.toDecider) (howed : s'.owed = s.owed)
    (hactive : ∀ id, s.tasks id = some ⟨k, .waiting⟩ → Active (s.calls k) →
      Broken s' ∨ Served s' id k) : Waiting s' := by
  intro id k' htask
  rw [htasks] at htask
  rcases h id k' htask with hover | hserved
  · exact Or.inl (hbroken hover)
  · refine hserved.mono (fun wire hmem => Or.inr (Or.inl ⟨wire, hgateway ▸ hmem⟩))
      (fun payload => hdecider _) (fun p hp => howed.trans hp) fun hcall => ?_
    by_cases hk : k' = k
    · subst hk
      exact hactive id htask hcall
    · refine Or.inr (Or.inr (Or.inr (Or.inr ?_)))
      rwa [hcalls, Function.update_of_ne hk]

/-- The reader takes a frame; a FORWARD it takes is served or owed an answer. -/
theorem Waiting.read {s s' : Session} (h : Waiting s) {frame : ToGateway}
    {frames : List ToGateway} (hread : s.toGateway = frame :: frames)
    (hgateway : s'.toGateway = frames) (htasks : s'.tasks = s.tasks)
    (hdecider : s'.toDecider = s.toDecider) (hbroken : Broken s → Broken s')
    (howed : ∀ p, s.owed = some p → s'.owed = some p)
    (hactive : ∀ k, Active (s.calls k) → Active (s'.calls k))
    (hserved : ∀ id k wire, frame = .forward id wire → s.tasks id = some ⟨k, .waiting⟩ →
      Broken s' ∨ Served s' id k) : Waiting s' := by
  intro id k htask
  rw [htasks] at htask
  rcases h id k htask with hover | hold
  · exact Or.inl (hbroken hover)
  · refine hold.mono (fun wire hmem => ?_) (fun payload hmem => hdecider ▸ hmem) howed
      fun hcall => Or.inr (Or.inr (Or.inr (Or.inr (hactive k hcall))))
    rw [hread] at hmem
    rcases List.mem_cons.mp hmem with heq | hmem
    · exact hserved id k wire heq.symm htask
    · exact Or.inr (Or.inl ⟨wire, hgateway ▸ hmem⟩)

/-- The call of a query the decider holds is in the table and past its QUERY. -/
theorem task_entry {s : Session} (h : Tokens s) {id k : Nat} {phase : Phase}
    (htask : s.tasks id = some ⟨k, phase⟩) :
    lookup id s.table = some k ∧ (s.calls k).id = id ∧ (s.calls k).pc ≠ .registered := by
  obtain ⟨hentry, hone⟩ := h.lookup_of_mem (mem_underWay_of_task htask)
  refine ⟨hentry, (h.entry k).named hentry, ?_⟩
  rcases (h.entry k).token hentry with ⟨_, hpc⟩ | ⟨hnil, _⟩
  · exact hpc
  · rw [hone] at hnil
    cases hnil

/-- The call of a query the decider holds waits or is active unless it was given up. -/
theorem selecting_or_active {s : Session} (htokens : Tokens s) (hgone : Gone s) {id k : Nat}
    {phase : Phase} (htask : s.tasks id = some ⟨k, phase⟩)
    (habandoned : (s.calls k).abandoned = false) :
    Broken s ∨ (s.calls k).pc = .selecting ∨ Active (s.calls k) := by
  obtain ⟨hentry, -, hregistered⟩ := task_entry htokens htask
  have hidle := (htokens.entry k).idle hentry
  have hreturned := hgone id k
  unfold Active
  cases hpc : (s.calls k).pc with
  | idle => exact absurd hpc hidle
  | registered => exact absurd hpc hregistered
  | selecting => exact Or.inr (Or.inl rfl)
  | running | replied | sending | abandoning => exact Or.inr (Or.inr trivial)
  | returned result =>
      rcases hreturned result hentry hpc with habandoned' | hover
      · rw [habandoned] at habandoned'
        cases habandoned'
      · exact Or.inl hover

/-- A call that stays where it is and keeps what is in its slot stays active. -/
theorem active_update {calls : Nat → Call} {k : Nat} {c : Call} (hpc : c.pc = (calls k).pc)
    (hslot : (calls k).slot ≠ none → c.slot ≠ none) (k' : Nat) (h : Active (calls k')) :
    Active (Function.update calls k c k') := by
  by_cases hk : k' = k
  · subst hk
    rw [Function.update_self]
    unfold Active at h ⊢
    rw [hpc]
    revert h
    cases (calls k').pc <;> simp only [imp_self]
    exact hslot
  · rwa [Function.update_of_ne hk]

theorem waiting_effect {s s' : Session} {e : Event} (h : Waiting s) (htokens : Tokens s)
    (hgone : Gone s)
    (hslots : ∀ k, Slot (s.calls k)) (heffect : Effect s e s') : Waiting s' := by
  have hnamed : ∀ {id k}, s.tasks id = some ⟨k, .waiting⟩ → (s.calls k).id = id :=
    fun htask => (task_entry htokens htask).2.1
  cases heffect with
  | refused k _ hpc | registered k _ hpc | querySent k hpc =>
      refine h.move rfl rfl (fun h => h) rfl (fun _ hmem => ?_) rfl fun id htask hcall => ?_
      · first | exact hmem | exact List.mem_append_left _ hmem
      · simp [Active, hpc] at hcall
  | queryLost k | replyLost k | emptyLost k =>
      exact h.move rfl rfl (fun _ => Or.inl rfl) rfl (fun _ hmem => hmem) rfl
        fun _ _ _ => Or.inl (Or.inl rfl)
  | picked k | forwarded k | answered k =>
      refine h.move rfl rfl (fun h => h) rfl (fun _ hmem => hmem) rfl fun id _ _ => ?_
      exact Or.inr (Or.inr (Or.inr (Or.inr (by simp [setCall, Active]))))
  | replySent k reply | emptySent k =>
      refine h.move rfl rfl (fun h => h) rfl (fun _ hmem => List.mem_append_left _ hmem) rfl
        fun id htask _ => ?_
      have hid := hnamed htask
      subst hid
      exact Or.inr (Or.inr (Or.inl ⟨_, List.mem_append_right _ (List.mem_singleton_self _)⟩))
  | finalTaken k answer _ hfinal =>
      refine h.move rfl rfl (fun h => h) rfl (fun _ hmem => hmem) rfl fun id htask _ => ?_
      have hnone := (htokens.entry k).final (task_entry htokens htask).1
      rw [hfinal] at hnone
      cases hnone
  | cancelled k hpc =>
      refine h.move rfl rfl (fun h => h) rfl (fun _ hmem => hmem) rfl fun id _ hcall => ?_
      simp only [Active, hpc] at hcall
      refine Or.inr (Or.inr (Or.inr (Or.inr ?_)))
      obtain ⟨wire, hslot⟩ := Option.ne_none_iff_exists'.mp hcall
      simp [setCall, Call.abandon, hslot, Active]
  | doneSeen k _ hended =>
      exact h.move rfl rfl (fun h => h) rfl (fun _ hmem => hmem) rfl
        fun _ _ _ => Or.inl (Or.inl hended)
  | readyRead frames hread =>
      refine h.read hread rfl rfl rfl (fun h => h) (fun _ hp => hp) (fun _ h => h) ?_
      intro id k wire hframe
      cases hframe
  | protocolError frame frames hread =>
      exact h.read hread rfl rfl rfl (fun _ => Or.inl rfl) (fun _ hp => hp) (fun _ h => h)
        fun _ _ _ _ _ => Or.inl (Or.inl rfl)
  | forwardIgnored id wire frames hread hfree =>
      refine h.read hread rfl rfl rfl (fun h => h) (fun _ hp => hp) (fun _ h => h) ?_
      intro id' k wire' hframe htask
      cases hframe
      have hentry := (task_entry htokens htask).1
      rw [hfree] at hentry
      cases hentry
  | forwardRefused id k wire frames hread howed hentry =>
      refine h.read hread rfl rfl rfl (fun h => h) (fun p hp => ?_)
        (active_update rfl fun h => h) ?_
      · rw [howed] at hp
        cases hp
      · intro id' k' wire' hframe _
        cases hframe
        exact Or.inr (Or.inr (Or.inr (Or.inl ⟨k, rfl⟩)))
  | forwardRepeated id k wire frames hread howed hentry habandoned hbusy =>
      refine h.read hread rfl rfl rfl (fun h => h) (fun _ hp => hp) (fun _ h => h) ?_
      intro id' k' wire' hframe htask
      cases hframe
      obtain rfl := Option.some.inj ((task_entry htokens htask).1.symm.trans hentry)
      have hheld := (hslots k').held hbusy habandoned
      rcases selecting_or_active htokens hgone htask habandoned with hover | hpc | hcall
      · exact Or.inl hover
      · refine Or.inr (Or.inr (Or.inr (Or.inr ?_)))
        simpa [Active, hpc, isServing] using hheld
      · exact Or.inr (Or.inr (Or.inr (Or.inr hcall)))
  | forwardDelivered id k wire frames hread howed hentry habandoned =>
      have hfilled := @active_update s.calls k
        { s.calls k with busy := true, slot := some wire } rfl (by simp)
      refine h.read hread rfl rfl rfl (fun h => h) (fun _ hp => hp) hfilled ?_
      intro id' k' wire' hframe htask
      cases hframe
      obtain rfl := Option.some.inj ((task_entry htokens htask).1.symm.trans hentry)
      rcases selecting_or_active htokens hgone htask habandoned with hover | hpc | hcall
      · exact Or.inl hover
      · refine Or.inr (Or.inr (Or.inr (Or.inr ?_)))
        simp [setCall, Active, hpc]
      · exact Or.inr (Or.inr (Or.inr (Or.inr (hfilled k' hcall))))
  | finalIgnored id frame frames hread hfree hframe =>
      refine h.read hread rfl rfl rfl (fun h => h) (fun _ hp => hp) (fun _ h => h) ?_
      rintro id' k wire rfl
      rcases hframe with ⟨_, _, h⟩ | ⟨_, h⟩ <;> cases h
  | settled id k answer frame frames hread hentry hfinal hframe =>
      refine h.read hread rfl rfl rfl (fun h => h) (fun _ hp => hp)
        (active_update rfl fun h => h) ?_
      rintro id' k wire rfl
      rcases hframe with ⟨_, _, h, _⟩ | ⟨_, h, _⟩ <;> cases h
  | owedLost id k howed => exact fun _ _ _ => Or.inl (Or.inl rfl)
  | owedSent id k howed =>
      intro id' k' htask
      refine (h id' k' htask).imp (fun h => h) fun hserved => ?_
      rcases hserved with hforward | ⟨payload, hmem⟩ | ⟨k'', hk''⟩ | hcall
      · exact Or.inl hforward
      · exact Or.inr (Or.inl ⟨payload, List.mem_append_left _ hmem⟩)
      · cases howed.symm.trans hk''
        exact Or.inr (Or.inl ⟨[], List.mem_append_right _ (List.mem_singleton_self _)⟩)
      · have hcall' := @active_update s.calls k
          { s.calls k with emptied := (s.calls k).emptied + 1 } rfl (fun h => h) k' hcall
        exact Or.inr (Or.inr (Or.inr hcall'))
  | failed => exact fun _ _ _ => Or.inl (Or.inl rfl)
  | closed => exact fun _ _ _ => Or.inl (Or.inr rfl)
  | retired | drained | drainedAgain =>
      exact h.congr (fun _ _ h => h) (fun h => h) (fun _ h => h) (fun _ _ _ _ h => h) rfl rfl
  | queryReceived id k frames hreceive hup htask =>
      refine h.congr (fun id' k' htask' => ?_) (fun h => h) (fun _ h => h)
        (fun id' k' payload _ hmem => ?_) rfl rfl
      · by_cases hid : id' = id
        · subst hid
          simp [setTask] at htask'
        · simpa [setTask, hid] using htask'
      · rw [hreceive] at hmem
        simpa using hmem
  | queryRejected | stopped =>
      intro id' k' htask'
      cases htask'
  | replyReceived id k payload frames hreceive htask =>
      have hother : ∀ {id' k'}, Function.update s.tasks id (some ⟨k, .resumed⟩) id' =
          some ⟨k', .waiting⟩ → id' ≠ id := by
        rintro id' k' htask' rfl
        simp at htask'
      refine h.congr (fun id' k' htask' => ?_) (fun h => h) (fun _ h => h)
        (fun id' k' payload' htask' hmem => ?_) rfl rfl
      · simpa [setTask, hother htask'] using htask'
      · rw [hreceive] at hmem
        simpa [hother htask'] using hmem
  | replyIgnored id payload frames hreceive htask =>
      refine h.congr (fun _ _ h => h) (fun h => h) (fun _ h => h)
        (fun id' k' payload' htask' hmem => ?_) rfl rfl
      have hid : id' ≠ id := by
        rintro rfl
        exact htask k' htask'
      rw [hreceive] at hmem
      simpa [hid] using hmem
  | forwardSent id k wire htask =>
      intro id' k' htask'
      by_cases hid : id' = id
      · subst hid
        exact Or.inr (Or.inl ⟨wire, List.mem_append_right _ (List.mem_singleton_self _)⟩)
      · have hold : s.tasks id' = some ⟨k', .waiting⟩ := by
          simpa [emit, setTask, hid] using htask'
        refine (h id' k' hold).imp_right fun hserved => hserved.imp_left ?_
        rintro ⟨wire, hmem⟩
        exact ⟨wire, List.mem_append_left _ hmem⟩
  | timedOut id k htask | continued id k htask =>
      refine h.congr (fun id' k' htask' => ?_) (fun h => h) (fun _ h => h) (fun _ _ _ _ h => h) rfl
        rfl
      by_cases hid : id' = id
      · subst hid
        simp [setTask] at htask'
      · simpa [setTask, hid] using htask'
  | finished id k answer htask =>
      refine h.congr (fun id' k' htask' => ?_) (fun h => h)
        (fun _ hmem => List.mem_append_left _ hmem) (fun _ _ _ _ h => h) rfl rfl
      by_cases hid : id' = id
      · subst hid
        simp [emit, setTask] at htask'
      · simpa [emit, setTask, hid] using htask'

/-! ### The empty REPLYs of abandoned calls -/

/-- Empty REPLYs a goroutine still has to send. -/
def owes (c : Call) : Nat := if isAbandoning c.pc then 1 else 0

/-- Empty REPLYs still to be sent for a call, by the reader or by its goroutine. -/
def pending (s : Session) (k : Nat) : Nat :=
  (if s.owed.any (fun p => p.2 = k) then 1 else 0) + owes (s.calls k)

/-- Each FORWARD refused has had its empty REPLY or is about to have it. -/
def Counted (s : Session) : Prop :=
  ∀ k, Broken s ∨ (s.calls k).refused = (s.calls k).emptied + pending s k

theorem Counted.move {s s' : Session} (h : Counted s) {k : Nat} {c : Call}
    (hcalls : s'.calls = Function.update s.calls k c) (howed : s'.owed = s.owed)
    (hbroken : Broken s → Broken s')
    (hc : ∀ n, (s.calls k).refused = (s.calls k).emptied + (n + owes (s.calls k)) →
      c.refused = c.emptied + (n + owes c)) : Counted s' := by
  intro k'
  refine (h k').imp hbroken fun hcount => ?_
  rw [pending, howed, hcalls]
  by_cases hk : k' = k
  · subst hk
    rw [Function.update_self]
    exact hc _ hcount
  · rwa [Function.update_of_ne hk]

theorem Counted.congr {s s' : Session} (h : Counted s) (hcalls : s'.calls = s.calls)
    (howed : s'.owed = s.owed) (hbroken : Broken s → Broken s') : Counted s' := by
  intro k
  rw [pending, howed, hcalls]
  exact (h k).imp hbroken fun hcount => hcount

theorem counted_effect {s s' : Session} {e : Event} (h : Counted s) (heffect : Effect s e s') :
    Counted s' := by
  cases heffect with
  | refused k _ hpc | registered k _ hpc | querySent k hpc | picked k _ hpc | forwarded k _ _ hpc
  | answered k _ hpc | replySent k _ hpc =>
      refine h.move rfl rfl (fun h => h) fun n hcount => ?_
      simpa [owes, hpc, isAbandoning] using hcount
  | queryLost | replyLost | emptyLost | protocolError | owedLost | failed =>
      exact fun _ => Or.inl (Or.inl rfl)
  | closed => exact fun _ => Or.inl (Or.inr rfl)
  | finalTaken k _ hpc | doneSeen k hpc =>
      refine h.move rfl rfl (fun h => h) fun n hcount => ?_
      rcases delivered_cases (s.calls k) with ⟨_, hc⟩ | ⟨_, _, hc⟩ <;>
        simpa [hc, owes, hpc, isAbandoning] using hcount
  | cancelled k hpc =>
      refine h.move rfl rfl (fun h => h) fun n hcount => ?_
      simp only [owes, hpc, isAbandoning] at hcount
      cases hslot : (s.calls k).slot with
      | none => simpa [Call.abandon, hslot, owes, isAbandoning] using hcount
      | some wire =>
          simp only [Call.abandon, hslot, owes, isAbandoning, if_true]
          simp only [Bool.false_eq_true, if_false] at hcount
          omega
  | emptySent k hpc =>
      refine h.move rfl rfl (fun h => h) fun n hcount => ?_
      simp only [owes, hpc, isAbandoning, if_true] at hcount
      simp only [owes, isAbandoning, Bool.false_eq_true, if_false]
      omega
  | forwardRefused id k wire frames hread howed =>
      intro k'
      refine (h k').imp (fun h => h) fun hcount => ?_
      rw [pending, howed] at hcount
      by_cases hk : k' = k
      · subst hk
        simp only [Option.any_none, Bool.false_eq_true, if_false] at hcount
        simp only [setCall, pending, Function.update_self, Option.any_some, decide_true, if_true,
          owes]
          at hcount ⊢
        omega
      · simpa [setCall, pending, hk, Ne.symm hk] using hcount
  | owedSent id k howed =>
      intro k'
      refine (h k').imp (fun h => h) fun hcount => ?_
      rw [pending, howed] at hcount
      by_cases hk : k' = k
      · subst hk
        simp only [Option.any_some, decide_true, if_true] at hcount
        simp only [setCall, push, pending, Function.update_self, Option.any_none,
          Bool.false_eq_true,
          if_false, owes] at hcount ⊢
        omega
      · simpa [setCall, push, pending, hk, Ne.symm hk] using hcount
  | forwardDelivered id k | settled id k =>
      exact h.move rfl rfl (fun h => h) fun n hcount => hcount
  | readyRead | forwardIgnored | forwardRepeated | finalIgnored | retired | drained | drainedAgain
  | queryReceived | queryRejected | replyReceived | replyIgnored | forwardSent | timedOut
  | continued | finished | stopped =>
      exact h.congr rfl rfl fun h => h

/-! ### Agreement -/

structure Inv (s : Session) : Prop where
  tokens : Tokens s
  answers : Answers s
  slots : ∀ k, Slot (s.calls k)
  gone : Gone s
  waiting : Waiting s
  counted : Counted s

theorem Inv.initial : Inv initial where
  tokens := .initial
  answers :=
    { frame := by
        intro frame id k hmem hframe
        cases List.mem_singleton.mp hmem
        cases hframe
      call := fun _ =>
        { final := by simp [DecisionSession.initial]
          returned := by simp [DecisionSession.initial] } }
  slots _ := by constructor <;> simp [DecisionSession.initial, isServing]
  gone := by
    intro id k result hentry
    cases hentry
  waiting := by
    intro id k htask
    cases htask
  counted _ := Or.inr rfl

theorem Inv.step {s s' : Session} {e : Event} (h : Inv s) (hstep : s.step e = some s') :
    Inv s' := by
  have heffect := step_effect hstep
  exact {
    tokens := h.tokens.effect heffect
    answers := h.answers.effect h.tokens heffect
    slots := slot_effect h.slots heffect
    gone := gone_effect h.gone h.tokens h.slots heffect
    waiting := waiting_effect h.waiting h.tokens h.gone h.slots heffect
    counted := counted_effect h.counted heffect }

/-- A goroutine that has a REPLY to write. -/
def writing : Pc → Bool
  | .replied _ | .sending _ | .abandoning => true
  | _ => false

/-- No frame is in flight or being written, and an end of the session has reached the decider. -/
structure Quiet (s : Session) : Prop where
  toDecider : s.toDecider = []
  toGateway : s.toGateway = []
  owed : s.owed = none
  writing : ∀ k, writing (s.calls k).pc = false
  ended : Broken s → s.stopped = true

/-- What both sides agree on. -/
structure Agreement (s : Session) : Prop where
  /-- A Decide call returns what the decider computed for its query. -/
  answer : ∀ k answer, (s.calls k).pc = .returned (.ok answer) → s.computed k = some answer
  /-- The decider does not hold the id of a QUERY it receives. -/
  fresh : ∀ id k frames, s.toDecider = .query id k :: frames → s.tasks id = none
  /-- When nothing is in flight, a FORWARD the decider waits on is with the call of its id. -/
  served : Quiet s → ∀ id k, s.tasks id = some ⟨k, .waiting⟩ → lookup id s.table = some k ∧
    ((∃ request, (s.calls k).pc = .running request) ∨
      (s.calls k).pc = .selecting ∧ (s.calls k).slot ≠ none)
  /-- Each FORWARD for an abandoned call gets one empty REPLY while the session lasts. -/
  emptied : ∀ k, Broken s ∨ (s.calls k).refused = (s.calls k).emptied + pending s k
  /-- The reader never blocks on the channels of a call. -/
  unblocked : s.reading = true → s.owed = none → s.toGateway ≠ [] → (s.step .read).isSome = true

theorem Inv.fresh {s : Session} (h : Inv s) {id k : Nat} {frames : List ToDecider}
    (hquery : s.toDecider = .query id k :: frames) : s.tasks id = none := by
  have hone := (h.tokens.lookup_of_mem
    (mem_underWay_of_query (hquery ▸ List.mem_cons_self))).2
  cases htask : s.tasks id with
  | none => rfl
  | some task =>
      have hlength := congrArg List.length hone
      simp [underWay, hquery, htask, queryOf] at hlength

theorem Inv.served {s : Session} (h : Inv s) (hquiet : Quiet s) {id k : Nat}
    (htask : s.tasks id = some ⟨k, .waiting⟩) : lookup id s.table = some k ∧
      ((∃ request, (s.calls k).pc = .running request) ∨
        (s.calls k).pc = .selecting ∧ (s.calls k).slot ≠ none) := by
  refine ⟨(task_entry h.tokens htask).1, ?_⟩
  rcases h.waiting id k htask with hover | ⟨wire, hmem⟩ | ⟨payload, hmem⟩ | ⟨k', howed⟩ | hcall
  · rw [h.tokens.stopped (hquiet.ended hover) id] at htask
    cases htask
  · rw [hquiet.toGateway] at hmem
    cases hmem
  · rw [hquiet.toDecider] at hmem
    cases hmem
  · rw [hquiet.owed] at howed
    cases howed
  · have hwriting := hquiet.writing k
    unfold Active at hcall
    cases hpc : (s.calls k).pc with
    | selecting =>
        rw [hpc] at hcall
        exact Or.inr ⟨rfl, hcall⟩
    | running request => exact Or.inl ⟨request, rfl⟩
    | replied | sending | abandoning =>
        rw [hpc] at hwriting
        cases hwriting
    | idle | registered | returned => simp [hpc] at hcall

theorem deliver_isSome {c : Call} (h : Slot c) (wire : Wire) : (c.deliver wire).isSome = true := by
  unfold Call.deliver
  split
  · rfl
  · split
    · rfl
    · rename_i hbusy
      cases hslot : c.slot with
      | none => rfl
      | some wire' => exact absurd (h.busy (by simp [hslot])) hbusy

theorem finish_isSome {s : Session} (h : Tokens s) (frames : List ToGateway) (id : Nat)
    (answer : Option Wire) :
    (Session.finish { s with toGateway := frames } id answer).isSome = true := by
  unfold Session.finish
  split
  · rfl
  · rename_i k hentry
    have hfinal : (s.calls k).final = none := (h.entry k).final hentry
    simp [Call.settle, hfinal]

theorem step_read {s : Session} {frame : ToGateway} {frames : List ToGateway}
    (hreading : s.reading = true) (howed : s.owed = none) (hread : s.toGateway = frame :: frames) :
    s.step .read = Session.readFrame { s with toGateway := frames } frame := by
  simp only [Session.step]
  split
  · rename_i hread'
    obtain ⟨rfl, rfl⟩ := List.cons.inj (hread'.symm.trans hread)
    rfl
  · rename_i hne
    exact absurd hread (hne frame frames hreading howed)

theorem Inv.unblocked {s : Session} (h : Inv s) (hreading : s.reading = true)
    (howed : s.owed = none) (hframes : s.toGateway ≠ []) : (s.step .read).isSome = true := by
  obtain ⟨frame, frames, hread⟩ := List.exists_cons_of_ne_nil hframes
  rw [step_read hreading howed hread]
  cases frame with
  | ready => rfl
  | forward id wire =>
      simp only [readFrame]
      split
      · rfl
      · split
        · rfl
        · rw [Option.isSome_map]
          exact deliver_isSome (h.slots _) wire
  | answer id wire k =>
      simp only [readFrame]
      split
      · rfl
      · exact finish_isSome h.tokens frames id (some wire)
  | drop id k => exact finish_isSome h.tokens frames id none

theorem Inv.agreement {s : Session} (h : Inv s) : Agreement s where
  answer k _ hpc := (h.answers.call k).returned hpc
  fresh _ _ _ hquery := h.fresh hquery
  served hquiet _ _ htask := h.served hquiet htask
  emptied := h.counted
  unblocked := h.unblocked

/-- Both sides agree after every run of the session. -/
theorem session_agreement {es : List Event} {s : Session}
    (h : run Session.step initial es = some s) : Agreement s :=
  (run_invariant (fun _ _ _ hinv hstep => Inv.step hinv hstep) Inv.initial h).agreement

/-- A query is given up with its FORWARD in the slot; the decider has its empty REPLY and
decides. -/
def abandonedRun : List Event :=
  [ .read, .decide 0, .sendQuery 0 true, .receive, .forward 1 [7], .read, .cancel 0
  , .sendEmpty 0 true, .receive, .resume 1, .finish 1 (some [9]), .read ]

theorem session_agreement_abandoned :
    ∃ s, run Session.step initial abandonedRun = some s ∧ Agreement s := by
  obtain ⟨s, hs⟩ : ∃ s, run Session.step initial abandonedRun = some s := ⟨_, rfl⟩
  exact ⟨s, hs, session_agreement hs⟩

end PfBlockerNG.DecisionForwards
