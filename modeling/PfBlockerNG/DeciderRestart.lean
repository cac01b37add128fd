import PfBlockerNG.DecisionForwards

/-!
Decider restarts: a query reads the active decider, registers with it, and is handed to the active
one once more if a restart retired the first; a replaced decider drains what it holds.
-/

namespace PfBlockerNG.DeciderRestart

open OrderedDict Transitions DecisionSession DecisionAgreement DecisionForwards
open DecisionSession.Session

/-! ### What a session step does to one call -/

/-- The call has its final frame and returns it unless its context ends first. -/
def Keeps (answer : Option Wire) (c : Call) : Prop :=
  c.final = some answer ∧ (∀ result, c.pc = .returned result → result = .error .cancelled) ∨
    c.pc = .returned (.ok answer)

/-- What no step takes from a call, its own registration apart. -/
structure Progress (c c' : Call) : Prop where
  idle : c'.pc = .idle ↔ c.pc = .idle
  registered : c'.pc = .registered → c.pc = .registered
  returned : ∀ {result}, c.pc = .returned result → c'.pc = .returned result
  retired : c'.pc = .returned (.error .retired) → c.pc = .returned (.error .retired)
  kept : ∀ {answer}, Keeps answer c → Keeps answer c'

theorem Progress.refl (c : Call) : Progress c c := ⟨.rfl, id, id, id, id⟩

/-- A step of a call that is under way. -/
theorem Progress.move {c c' : Call} (hidle : c.pc ≠ .idle) (hidle' : c'.pc ≠ .idle)
    (hreturned : ∀ result, c.pc ≠ .returned result) (hregistered : c'.pc ≠ .registered)
    (hretired : c'.pc ≠ .returned (.error .retired))
    (hkept : ∀ {answer}, c.final = some answer → Keeps answer c') : Progress c c' where
  idle := ⟨fun h => absurd h hidle', fun h => absurd h hidle⟩
  registered h := absurd h hregistered
  returned h := absurd h (hreturned _)
  retired h := absurd h hretired
  kept := by
    rintro answer (⟨hfinal, -⟩ | hpc)
    · exact hkept hfinal
    · exact absurd hpc (hreturned _)

theorem Progress.delivered {c : Call} (hidle : c.pc ≠ .idle)
    (hreturned : ∀ result, c.pc ≠ .returned result) : Progress c c.delivered := by
  rcases delivered_cases c with ⟨hfinal, hc⟩ | ⟨answer, hfinal, hc⟩
  · rw [hc]
    refine .move hidle (by simp) hreturned (by simp) (by simp) fun h => ?_
    rw [hfinal] at h
    cases h
  · rw [hc]
    refine .move hidle (by simp) hreturned (by simp) (by simp) fun h => ?_
    cases hfinal.symm.trans h
    exact Or.inr rfl

theorem progress {s s' : Session} {e : Event} (htokens : Tokens s) (heffect : Effect s e s')
    (k : Nat) (he : e ≠ .decide k) : Progress (s.calls k) (s'.calls k) := by
  have hrefl : ∀ k, e ≠ .decide k → Progress (s.calls k) (s.calls k) := fun _ _ => .refl _
  revert k
  cases heffect with
  | refused k | registered k =>
      exact forall_update (P := fun k' c => _ → Progress (s.calls k') c) hrefl
        fun he => absurd rfl he
  | queryLost k hpc =>
      refine forall_update (P := fun k' c => _ → Progress (s.calls k') c) hrefl fun _ => ?_
      refine .move (by simp [hpc]) (by simp) (by simp [hpc]) (by simp) (by simp) ?_
      intro answer hfinal
      have hnone := (htokens.entry k).final ((htokens.entry k).registered hpc)
      rw [hnone] at hfinal
      cases hfinal
  | querySent k hpc | picked k _ hpc | forwarded k _ _ hpc | answered k _ hpc
  | replySent k _ hpc | emptyLost k hpc | emptySent k hpc =>
      refine forall_update (P := fun k' c => _ → Progress (s.calls k') c) hrefl fun _ => ?_
      exact .move (by simp [hpc]) (by simp) (by simp [hpc]) (by simp) (by simp)
        fun {answer} hfinal => Or.inl ⟨hfinal, by simp⟩
  | replyLost k _ hpc | finalTaken k _ hpc | doneSeen k hpc =>
      refine forall_update (P := fun k' c => _ → Progress (s.calls k') c) hrefl fun _ => ?_
      exact .delivered (by simp [hpc]) (by simp [hpc])
  | cancelled k hpc =>
      refine forall_update (P := fun k' c => _ → Progress (s.calls k') c) hrefl fun _ => ?_
      unfold Call.abandon
      split <;> exact .move (by simp [hpc]) (by simp) (by simp [hpc]) (by simp) (by simp)
        fun {answer} hfinal => Or.inl ⟨hfinal, by simp⟩
  | forwardRefused _ k | forwardDelivered _ k | owedSent _ k =>
      refine forall_update (P := fun k' c => _ → Progress (s.calls k') c) hrefl fun _ => ?_
      exact ⟨.rfl, id, id, id, id⟩
  | settled id' k answer frame frames hread hentry hfinal =>
      refine forall_update (P := fun k' c => _ → Progress (s.calls k') c) hrefl fun _ => ?_
      refine ⟨.rfl, id, id, id, ?_⟩
      rintro answer' (⟨hfinal', -⟩ | hpc)
      · rw [hfinal] at hfinal'
        cases hfinal'
      · exact Or.inr hpc
  | readyRead | protocolError | forwardIgnored | forwardRepeated | finalIgnored | owedLost | failed
  | closed | retired | drained | drainedAgain | queryReceived | queryRejected | replyReceived
  | replyIgnored | forwardSent | timedOut | continued | finished | stopped => exact hrefl

/-- The context of the call has not ended while it waited. -/
def Uncancelled (c : Call) : Prop := c.pc ≠ .abandoning ∧ c.pc ≠ .returned (.error .cancelled)

theorem Uncancelled.delivered (c : Call) : Uncancelled c.delivered := by
  rcases delivered_cases c with ⟨-, hc⟩ | ⟨answer, -, hc⟩
  · simp [Uncancelled, hc]
  · simp [Uncancelled, hc]

/-- Registration of a call: reserved, or refused and told why. -/
theorem decide_cases {s s' : Session} {k : Nat} (h : s.step (.decide k) = some s') :
    (s.calls k).pc = .idle ∧ ((s'.calls k).pc = .registered ∨
      ∃ err, (s'.calls k).pc = .returned (.error err) ∧ (err = .retired ↔ s.retired = true)) := by
  cases step_effect h with
  | refused _ err hpc herr =>
      exact ⟨hpc, Or.inr ⟨err, by simp [setCall], herr⟩⟩
  | registered _ id hpc => exact ⟨hpc, Or.inl (by simp [setCall])⟩

theorem retired_mono {s s' : Session} {e : Event} (h : Effect s e s')
    (hretired : s.retired = true) : s'.retired = true := by
  cases h <;> first | exact hretired | rfl

theorem retired_of_ne {s s' : Session} {e : Event} (h : Effect s e s') (he : e ≠ .markRetired)
    (hretired : s'.retired = true) : s.retired = true := by
  cases h <;> first | exact hretired | exact absurd rfl he

/-- A closed `idle` says that a retired decider holds no query. -/
structure Drained (s : Session) : Prop where
  retired : s.idle ≠ none → s.retired = true
  empty : s.idle = some true → s.table = []

theorem Drained.closeIdle {s : Session} (h : Drained s) : Drained s.closeIdle where
  retired hne := by
    refine h.retired fun hnone => hne ?_
    simp [Session.closeIdle, hnone]
  empty hsome := by
    by_cases htable : s.table = []
    · exact htable
    · refine h.empty ?_
      simpa [Session.closeIdle, htable] using hsome

theorem Drained.effect {s s' : Session} {e : Event} (h : Drained s) (heffect : Effect s e s')
    (he : e = .drained → s.retired = true) : Drained s' := by
  cases heffect with
  | registered k id hpc hfree hactive =>
      have hidle : s.idle = none := by
        by_contra hne
        rw [h.retired hne] at hactive
        cases hactive
      exact ⟨fun hne => absurd hidle hne, fun hsome => absurd (hidle.symm.trans hsome) (by simp)⟩
  | drained => exact ⟨fun _ => he rfl, by simp⟩
  | retired => exact ⟨fun _ => rfl, h.empty⟩
  | finalIgnored => exact Drained.closeIdle ⟨h.retired, h.empty⟩
  | settled id k =>
      refine Drained.closeIdle ⟨h.retired, fun hsome => ?_⟩
      have htable := h.empty hsome
      simp [htable, eraseID]
  | _ => exact ⟨h.retired, h.empty⟩

/-! ### The gateway -/

/-- Where a query is between its read of the active decider and its answer; `answered` names the
decider first asked and the one it was handed to. -/
inductive Query where
  | idle
  | loaded (d : Nat)
  | asking (d : Nat)
  | refused (d : Nat)
  | reloaded (d d' : Nat)
  | askingAgain (d d' : Nat)
  | answered (first : Nat) (second : Option Nat) (result : Except Err (Option Wire))

/-- Deciders in the order they took over, and the queries of clients. `marking` is a decider
that was replaced and is not marked retired yet. -/
structure Gateway where
  sessions : Nat → Session
  active : Nat
  marking : Option Nat
  queries : Nat → Query

def start : Gateway where
  sessions _ := initial
  active := 0
  marking := none
  queries _ := .idle

inductive Action where
  | load (q : Nat)
  | decide (q : Nat)
  | returned (q : Nat)
  | reload (q : Nat)
  | restart
  | mark
  | session (d : Nat) (e : Event)
  deriving DecidableEq

namespace Gateway

def setQuery (g : Gateway) (q : Nat) (query : Query) : Gateway :=
  { g with queries := Function.update g.queries q query }

def setSession (g : Gateway) (d : Nat) (s : Session) : Gateway :=
  { g with sessions := Function.update g.sessions d s }

/-- A session moves by itself: registrations and retirements are the gateway's, and only the
routine that retires a decider asks whether it has drained. -/
def ownStep (s : Session) : Event → Bool
  | .decide _ | .markRetired => false
  | .drained => s.retired
  | _ => true

/-- The answer of a Decide call; a query its first decider refused as retired is handed over. -/
def outcome (first : Nat) (second : Option Nat) : Except Err (Option Wire) → Query
  | .error .retired =>
      match second with
      | none => .refused first
      | some d => .answered first (some d) (.error .retired)
  | result => .answered first second result

def step (g : Gateway) : Action → Option Gateway
  | .load q =>
      match g.queries q with
      | .idle => some (g.setQuery q (.loaded g.active))
      | _ => none
  | .decide q =>
      match g.queries q with
      | .loaded d =>
          ((g.sessions d).step (.decide q)).map fun s => (g.setSession d s).setQuery q (.asking d)
      | .reloaded d d' =>
          ((g.sessions d').step (.decide q)).map fun s =>
            (g.setSession d' s).setQuery q (.askingAgain d d')
      | _ => none
  | .returned q =>
      match g.queries q with
      | .asking d =>
          match ((g.sessions d).calls q).pc with
          | .returned result => some (g.setQuery q (outcome d none result))
          | _ => none
      | .askingAgain d d' =>
          match ((g.sessions d').calls q).pc with
          | .returned result => some (g.setQuery q (outcome d (some d') result))
          | _ => none
      | _ => none
  | .reload q =>
      match g.queries q with
      | .refused d => some (g.setQuery q (.reloaded d g.active))
      | _ => none
  | .restart =>
      match g.marking, (g.sessions (g.active + 1)).readySeen with
      | none, true => some { g with active := g.active + 1, marking := some g.active }
      | _, _ => none
  | .mark =>
      match g.marking with
      | some d =>
          ((g.sessions d).step .markRetired).map fun s => { g.setSession d s with marking := none }
      | none => none
  | .session d e =>
      if ownStep (g.sessions d) e then ((g.sessions d).step e).map (g.setSession d) else none

end Gateway

def pcOf (g : Gateway) (d q : Nat) : Pc := ((g.sessions d).calls q).pc

/-- The decider turned the query away because it was retired; nothing was sent to it. -/
def TurnedAway (g : Gateway) (d q : Nat) : Prop :=
  pcOf g d q = .returned (.error .retired) ∧ (g.sessions d).retired = true

/-- The deciders a query has a call with, and how far each is. -/
def Consistent (g : Gateway) (q : Nat) : Query → Prop
  | .idle | .loaded _ => ∀ d, pcOf g d q = .idle
  | .asking d => ∀ d', d' ≠ d → pcOf g d' q = .idle
  | .refused d => (∀ d', d' ≠ d → pcOf g d' q = .idle) ∧ TurnedAway g d q
  | .reloaded d d₂ => (∀ d', d' ≠ d → pcOf g d' q = .idle) ∧ TurnedAway g d q ∧ d < d₂
  | .askingAgain d d₂ =>
      (∀ d', d' ≠ d → d' ≠ d₂ → pcOf g d' q = .idle) ∧ TurnedAway g d q ∧ d < d₂
  | .answered d none result =>
      (∀ d', d' ≠ d → pcOf g d' q = .idle) ∧ pcOf g d q = .returned result ∧
        result ≠ .error .retired
  | .answered d (some d₂) result =>
      (∀ d', d' ≠ d → d' ≠ d₂ → pcOf g d' q = .idle) ∧ TurnedAway g d q ∧ d < d₂ ∧
        pcOf g d₂ q = .returned result

structure GatewayInv (g : Gateway) : Prop where
  session : ∀ d, Inv (g.sessions d)
  drained : ∀ d, Drained (g.sessions d)
  refused : ∀ d q, pcOf g d q = .returned (.error .retired) → (g.sessions d).retired = true
  retired : ∀ d, (g.sessions d).retired = true → d < g.active
  marking : ∀ d, g.marking = some d → d < g.active
  query : ∀ q, Consistent g q (g.queries q)

/-- Consistency outlives steps that leave idle and returned calls alone. -/
theorem Consistent.mono {g g' : Gateway} {q : Nat} {query : Query} (h : Consistent g q query)
    (hidle : ∀ d, pcOf g d q = .idle → pcOf g' d q = .idle)
    (hreturned : ∀ d result, pcOf g d q = .returned result → pcOf g' d q = .returned result)
    (hretired : ∀ d, (g.sessions d).retired = true → (g'.sessions d).retired = true) :
    Consistent g' q query := by
  have haway : ∀ {d}, TurnedAway g d q → TurnedAway g' d q :=
    fun h => ⟨hreturned _ _ h.1, hretired _ h.2⟩
  cases query with
  | idle | loaded => exact fun d => hidle d (h d)
  | asking d => exact fun d' hne => hidle d' (h d' hne)
  | refused d => exact ⟨fun d' hne => hidle d' (h.1 d' hne), haway h.2⟩
  | reloaded d d₂ => exact ⟨fun d' hne => hidle d' (h.1 d' hne), haway h.2.1, h.2.2⟩
  | askingAgain d d₂ =>
      exact ⟨fun d' hne hne' => hidle d' (h.1 d' hne hne'), haway h.2.1, h.2.2⟩
  | answered d second result =>
      cases second with
      | none => exact ⟨fun d' hne => hidle d' (h.1 d' hne), hreturned _ _ h.2.1, h.2.2⟩
      | some d₂ =>
          exact ⟨fun d' hne hne' => hidle d' (h.1 d' hne hne'), haway h.2.1, h.2.2.1,
            hreturned _ _ h.2.2.2⟩

theorem GatewayInv.start : GatewayInv start where
  session _ := Inv.initial
  drained _ := by constructor <;> simp [DeciderRestart.start, initial]
  refused d q h := by simp [pcOf, DeciderRestart.start, initial] at h
  retired d h := by simp [DeciderRestart.start, initial] at h
  marking d h := by simp [DeciderRestart.start] at h
  query q d := rfl

section Sessions

variable {g : Gateway} {d : Nat} {s : Session} {e : Event}

theorem pcOf_setSession_of_ne {d' : Nat} (hd : d' ≠ d) (q : Nat) :
    pcOf (g.setSession d s) d' q = pcOf g d' q := by
  simp [pcOf, Gateway.setSession, hd]

theorem pcOf_setSession (q : Nat) : pcOf (g.setSession d s) d q = (s.calls q).pc := by
  simp [pcOf, Gateway.setSession]

theorem retired_setSession (heffect : Effect (g.sessions d) e s) {d' : Nat}
    (h : (g.sessions d').retired = true) : ((g.setSession d s).sessions d').retired = true := by
  by_cases hd : d' = d
  · subst hd
    simpa [Gateway.setSession] using retired_mono heffect h
  · simpa [Gateway.setSession, hd] using h

/-- A step of one session keeps every query consistent that it does not register. -/
theorem GatewayInv.consistent (h : GatewayInv g) (hstep : (g.sessions d).step e = some s) {q : Nat}
    (he : e ≠ .decide q) : Consistent (g.setSession d s) q (g.queries q) := by
  have heffect := step_effect hstep
  have hprogress := progress (h.session d).tokens heffect q he
  refine (h.query q).mono (fun d' hpc => ?_) (fun d' result hpc => ?_)
    (fun d' => retired_setSession heffect)
  · by_cases hd : d' = d
    · subst hd
      rw [pcOf_setSession]
      exact hprogress.idle.mpr hpc
    · rwa [pcOf_setSession_of_ne hd]
  · by_cases hd : d' = d
    · subst hd
      rw [pcOf_setSession]
      exact hprogress.returned hpc
    · rwa [pcOf_setSession_of_ne hd]

/-- A session steps; what the other fields must satisfy is left to the caller. -/
theorem GatewayInv.update {g' : Gateway} (h : GatewayInv g)
    (hstep : (g.sessions d).step e = some s) (hsessions : g'.sessions = (g.setSession d s).sessions)
    (hactive : g'.active = g.active) (hmarking : ∀ d', g'.marking = some d' → g.marking = some d')
    (hdrained : e = .drained → (g.sessions d).retired = true)
    (hretired : s.retired = true → d < g.active)
    (hrefused : ∀ q, (s.calls q).pc = .returned (.error .retired) → s.retired = true)
    (hquery : ∀ q, Consistent g' q (g'.queries q)) : GatewayInv g' where
  session d' := by
    rw [hsessions]
    by_cases hd : d' = d
    · subst hd
      simpa [Gateway.setSession] using (h.session d').step hstep
    · simpa [Gateway.setSession, hd] using h.session d'
  drained d' := by
    rw [hsessions]
    by_cases hd : d' = d
    · subst hd
      simpa [Gateway.setSession] using (h.drained d').effect (step_effect hstep) hdrained
    · simpa [Gateway.setSession, hd] using h.drained d'
  refused d' q hpc := by
    unfold pcOf at hpc
    rw [hsessions] at hpc ⊢
    by_cases hd : d' = d
    · subst hd
      simp only [Gateway.setSession, Function.update_self] at hpc ⊢
      exact hrefused q hpc
    · simp only [Gateway.setSession, Function.update_of_ne hd] at hpc ⊢
      exact h.refused d' q hpc
  retired d' hd' := by
    rw [hsessions] at hd'
    rw [hactive]
    by_cases hd : d' = d
    · subst hd
      simp only [Gateway.setSession, Function.update_self] at hd'
      exact hretired hd'
    · simp only [Gateway.setSession, Function.update_of_ne hd] at hd'
      exact h.retired d' hd'
  marking d' hd' := by
    rw [hactive]
    exact h.marking d' (hmarking d' hd')
  query := hquery

/-- A step that registers nothing turns nobody away. -/
theorem GatewayInv.refused_step (h : GatewayInv g) (hstep : (g.sessions d).step e = some s)
    (he : ∀ q, e ≠ .decide q) (q : Nat) (hpc : (s.calls q).pc = .returned (.error .retired)) :
    s.retired = true := by
  have heffect := step_effect hstep
  exact retired_mono heffect
    (h.refused d q ((progress (h.session d).tokens heffect q (he q)).retired hpc))

end Sessions

/-- Only the query moves. -/
theorem GatewayInv.setQuery {g : Gateway} (h : GatewayInv g) {q : Nat} {query : Query}
    (hquery : Consistent g q query) : GatewayInv (g.setQuery q query) where
  session := h.session
  drained := h.drained
  refused := h.refused
  retired := h.retired
  marking := h.marking
  query q' := by
    by_cases hq : q' = q
    · subst hq
      simp only [Gateway.setQuery, Function.update_self]
      exact hquery
    · simp only [Gateway.setQuery, Function.update_of_ne hq]
      exact h.query q'

/-- Registration of a query with the decider it read. -/
theorem GatewayInv.decide {g : Gateway} (h : GatewayInv g) {q d : Nat} {s : Session} {query : Query}
    (hstep : (g.sessions d).step (.decide q) = some s)
    (hquery : Consistent ((g.setSession d s).setQuery q query) q query) :
    GatewayInv ((g.setSession d s).setQuery q query) := by
  have heffect := step_effect hstep
  have hretired : s.retired = true → (g.sessions d).retired = true :=
    retired_of_ne heffect (by simp)
  refine h.update hstep rfl rfl (fun _ h => h) (by simp) (fun hs => h.retired d (hretired hs))
    (fun q' hpc => ?_) fun q' => ?_
  · by_cases hq : q' = q
    · subst hq
      rcases (decide_cases hstep).2 with hreg | ⟨err, herr, hiff⟩
      · rw [hreg] at hpc
        cases hpc
      · rw [herr] at hpc
        cases hpc
        exact retired_mono heffect (hiff.mp rfl)
    · have hprogress := progress (h.session d).tokens heffect q' (by simp [Ne.symm hq])
      exact retired_mono heffect (h.refused d q' (hprogress.retired hpc))
  · by_cases hq : q' = q
    · subst hq
      simp only [Gateway.setQuery, Function.update_self]
      exact hquery
    · simp only [Gateway.setQuery, Function.update_of_ne hq]
      exact h.consistent hstep (by simp [Ne.symm hq])

/-- What a Decide call returned places its query consistently. -/
theorem consistent_outcome {g g' : Gateway} {q d : Nat} {result : Except Err (Option Wire)}
    (hsessions : g'.sessions = g.sessions) (hothers : ∀ d', d' ≠ d → pcOf g d' q = .idle)
    (hpc : pcOf g d q = .returned result)
    (hretired : pcOf g d q = .returned (.error .retired) → (g.sessions d).retired = true) :
    Consistent g' q (Gateway.outcome d none result) := by
  have hpcs : ∀ d', pcOf g' d' q = pcOf g d' q := fun d' => by rw [pcOf, hsessions, pcOf]
  have hasked : result ≠ .error .retired → Consistent g' q (.answered d none result) :=
    fun hne => ⟨fun d' hd => (hpcs d').trans (hothers d' hd), (hpcs d).trans hpc, hne⟩
  unfold Gateway.outcome
  split
  · refine ⟨fun d' hd => (hpcs d').trans (hothers d' hd), (hpcs d).trans hpc, ?_⟩
    rw [hsessions]
    exact hretired hpc
  · rename_i hne
    exact hasked fun heq => hne heq

theorem outcome_some (d d₂ : Nat) (result : Except Err (Option Wire)) :
    Gateway.outcome d (some d₂) result = .answered d (some d₂) result := by
  unfold Gateway.outcome
  split <;> rfl

theorem GatewayInv.step {g g' : Gateway} {a : Action} (h : GatewayInv g)
    (hstep : g.step a = some g') : GatewayInv g' := by
  cases a with
  | load q =>
      simp only [Gateway.step] at hstep
      split at hstep
      · rename_i hquery
        obtain rfl := Option.some.inj hstep
        have hidle := h.query q
        rw [hquery] at hidle
        exact h.setQuery hidle
      · cases hstep
  | decide q =>
      simp only [Gateway.step] at hstep
      split at hstep
      · rename_i d hquery
        obtain ⟨s, hs, rfl⟩ := Option.map_eq_some_iff.mp hstep
        refine h.decide hs fun d' hd => ?_
        have hidle := h.query q
        rw [hquery] at hidle
        exact (pcOf_setSession_of_ne hd q).trans (hidle d')
      · rename_i d d₂ hquery
        obtain ⟨s, hs, rfl⟩ := Option.map_eq_some_iff.mp hstep
        have hold := h.query q
        rw [hquery] at hold
        obtain ⟨hothers, haway, hlt⟩ := hold
        refine h.decide hs ⟨fun d' hd hd' => ?_, ⟨?_, ?_⟩, hlt⟩
        · exact (pcOf_setSession_of_ne hd' q).trans (hothers d' hd)
        · exact (pcOf_setSession_of_ne (Nat.ne_of_lt hlt) q).trans haway.1
        · exact retired_setSession (step_effect hs) haway.2
      · cases hstep
  | returned q =>
      simp only [Gateway.step] at hstep
      split at hstep
      · rename_i d hquery
        have hold := h.query q
        rw [hquery] at hold
        split at hstep
        · rename_i result hpc
          obtain rfl := Option.some.inj hstep
          exact h.setQuery (consistent_outcome rfl hold hpc (h.refused d q))
        · cases hstep
      · rename_i d d₂ hquery
        have hold := h.query q
        rw [hquery] at hold
        split at hstep
        · rename_i result hpc
          obtain rfl := Option.some.inj hstep
          rw [outcome_some]
          exact h.setQuery ⟨hold.1, hold.2.1, hold.2.2, hpc⟩
        · cases hstep
      · cases hstep
  | reload q =>
      simp only [Gateway.step] at hstep
      split at hstep
      · rename_i d hquery
        obtain rfl := Option.some.inj hstep
        have hold := h.query q
        rw [hquery] at hold
        exact h.setQuery ⟨hold.1, hold.2, h.retired d hold.2.2⟩
      · cases hstep
  | restart =>
      simp only [Gateway.step] at hstep
      split at hstep
      · rename_i hmarking _
        obtain rfl := Option.some.inj hstep
        exact {
          session := h.session
          drained := h.drained
          refused := h.refused
          retired := fun d hd => Nat.lt_succ_of_lt (h.retired d hd)
          marking := fun d hd => Option.some.inj hd ▸ Nat.lt_succ_self _
          query := h.query }
      · cases hstep
  | mark =>
      simp only [Gateway.step] at hstep
      split at hstep
      · rename_i d hmarking
        obtain ⟨s, hs, rfl⟩ := Option.map_eq_some_iff.mp hstep
        exact h.update hs rfl rfl (by simp) (by simp) (fun _ => h.marking d hmarking)
          (h.refused_step hs (by simp)) fun q => h.consistent hs (by simp)
      · cases hstep
  | session d e =>
      simp only [Gateway.step] at hstep
      split at hstep
      · rename_i hown
        obtain ⟨s, hs, rfl⟩ := Option.map_eq_some_iff.mp hstep
        have hdecide : ∀ q, e ≠ .decide q := by
          rintro q rfl
          simp [Gateway.ownStep] at hown
        have hmark : e ≠ .markRetired := by
          rintro rfl
          simp [Gateway.ownStep] at hown
        have hdrained : e = .drained → (g.sessions d).retired = true := by
          rintro rfl
          simpa [Gateway.ownStep] using hown
        exact h.update hs rfl rfl (fun _ h => h) hdrained
          (fun hs' => h.retired d (retired_of_ne (step_effect hs) hmark hs'))
          (h.refused_step hs hdecide) fun q => h.consistent hs (hdecide q)
      · cases hstep

/-! ### Runs of the gateway -/

/-- Each session stays, or takes one step of its own. -/
theorem sessions_step {g g' : Gateway} {a : Action} (hstep : g.step a = some g') (d : Nat) :
    g'.sessions d = g.sessions d ∨ ∃ e, (g.sessions d).step e = some (g'.sessions d) ∧
      (a = .session d e ∨ (∃ q, e = .decide q) ∨ e = .markRetired) := by
  have hset : ∀ {d₀ s} {e : Event}, (g.sessions d₀).step e = some s →
      (a = .session d₀ e ∨ (∃ q, e = .decide q) ∨ e = .markRetired) →
      Function.update g.sessions d₀ s d = g.sessions d ∨
        ∃ e, (g.sessions d).step e = some (Function.update g.sessions d₀ s d) ∧
          (a = .session d e ∨ (∃ q, e = .decide q) ∨ e = .markRetired) := by
    intro d₀ s e hs hkind
    by_cases hd : d = d₀
    · subst hd
      rw [Function.update_self]
      exact Or.inr ⟨e, hs, hkind⟩
    · exact Or.inl (Function.update_of_ne hd _ _)
  cases a with
  | load q | reload q =>
      simp only [Gateway.step] at hstep
      split at hstep
      · exact Or.inl (Option.some.inj hstep ▸ rfl)
      · cases hstep
  | decide q =>
      simp only [Gateway.step] at hstep
      split at hstep
      · obtain ⟨s, hs, rfl⟩ := Option.map_eq_some_iff.mp hstep
        exact hset hs (Or.inr (Or.inl ⟨q, rfl⟩))
      · obtain ⟨s, hs, rfl⟩ := Option.map_eq_some_iff.mp hstep
        exact hset hs (Or.inr (Or.inl ⟨q, rfl⟩))
      · cases hstep
  | returned q =>
      simp only [Gateway.step] at hstep
      split at hstep
      · split at hstep
        · exact Or.inl (Option.some.inj hstep ▸ rfl)
        · cases hstep
      · split at hstep
        · exact Or.inl (Option.some.inj hstep ▸ rfl)
        · cases hstep
      · cases hstep
  | restart =>
      simp only [Gateway.step] at hstep
      split at hstep
      · exact Or.inl (Option.some.inj hstep ▸ rfl)
      · cases hstep
  | mark =>
      simp only [Gateway.step] at hstep
      split at hstep
      · obtain ⟨s, hs, rfl⟩ := Option.map_eq_some_iff.mp hstep
        exact hset hs (Or.inr (Or.inr rfl))
      · cases hstep
  | session d₀ e =>
      simp only [Gateway.step] at hstep
      split at hstep
      · obtain ⟨s, hs, rfl⟩ := Option.map_eq_some_iff.mp hstep
        exact hset hs (Or.inl rfl)
      · cases hstep

/-- A call that is not idle progresses with every step of the gateway. -/
theorem GatewayInv.progress {g g' : Gateway} {a : Action} (h : GatewayInv g)
    (hstep : g.step a = some g') {d q : Nat} (hpc : pcOf g d q ≠ .idle) :
    Progress ((g.sessions d).calls q) ((g'.sessions d).calls q) := by
  rcases sessions_step hstep d with hsame | ⟨e, hs, -⟩
  · rw [hsame]
    exact .refl _
  · refine DeciderRestart.progress (h.session d).tokens (step_effect hs) q ?_
    rintro rfl
    exact hpc (decide_cases hs).1

/-- Only one decider has a call of a query that it did not turn away. -/
theorem GatewayInv.unique {g : Gateway} (h : GatewayInv g) {q d d' : Nat}
    (hidle : pcOf g d q ≠ .idle) (haway : pcOf g d q ≠ .returned (.error .retired))
    (hidle' : pcOf g d' q ≠ .idle) (haway' : pcOf g d' q ≠ .returned (.error .retired)) :
    d = d' := by
  have hone : ∀ {d₀}, (∀ d', d' ≠ d₀ → pcOf g d' q = .idle) → d = d' := by
    intro d₀ hothers
    have hd : d = d₀ := by_contra fun hne => hidle (hothers d hne)
    have hd' : d' = d₀ := by_contra fun hne => hidle' (hothers d' hne)
    exact hd.trans hd'.symm
  have htwo : ∀ {d₁ d₂}, (∀ d', d' ≠ d₁ → d' ≠ d₂ → pcOf g d' q = .idle) → TurnedAway g d₁ q →
      d = d' := by
    intro d₁ d₂ hothers hfirst
    have hne : d ≠ d₁ := fun heq => haway (heq ▸ hfirst.1)
    have hne' : d' ≠ d₁ := fun heq => haway' (heq ▸ hfirst.1)
    have hd : d = d₂ := by_contra fun hne₂ => hidle (hothers d hne hne₂)
    have hd' : d' = d₂ := by_contra fun hne₂ => hidle' (hothers d' hne' hne₂)
    exact hd.trans hd'.symm
  have hquery := h.query q
  cases hq : g.queries q with
  | idle | loaded =>
      rw [hq] at hquery
      exact absurd (hquery d) hidle
  | asking =>
      rw [hq] at hquery
      exact hone hquery
  | refused | reloaded =>
      rw [hq] at hquery
      exact hone hquery.1
  | askingAgain =>
      rw [hq] at hquery
      exact htwo hquery.1 hquery.2.1
  | answered first second result =>
      rw [hq] at hquery
      cases second with
      | none => exact hone hquery.1
      | some d₂ => exact htwo hquery.1 hquery.2.1

end PfBlockerNG.DeciderRestart
