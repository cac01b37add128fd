import PfBlockerNG.DecisionSession
import Mathlib.Data.List.Perm.Basic

/-!
What holds of every reachable decision session: one token for each reserved id, answers that the
decider computed for the query of the call they reach, and FORWARDs that are served or answered.
-/

namespace PfBlockerNG.DecisionAgreement

open OrderedDict Transitions DecisionSession
open DecisionSession.Session

/-! ### Everything a step can do -/

/-- The effects a step can have, with the guards they are taken under. -/
inductive Effect (s : Session) : Event → Session → Prop where
  | refused (k : Nat) (err : Err) (hpc : (s.calls k).pc = .idle)
      (herr : err = .retired ↔ s.retired = true) (hcancelled : err ≠ .cancelled) :
      Effect s (.decide k) (s.setCall k { s.calls k with pc := .returned (.error err) })
  | registered (k id : Nat) (hpc : (s.calls k).pc = .idle) (hfree : lookup id s.table = none)
      (hactive : s.retired = false) :
      Effect s (.decide k) { s.setCall k { s.calls k with id := id, pc := .registered } with
        table := (id, k) :: s.table, nextID := id }
  | queryLost (k : Nat) (hpc : (s.calls k).pc = .registered) :
      Effect s (.sendQuery k false)
        (s.setCall k { s.calls k with pc := .returned (.error .ended) }).fail
  | querySent (k : Nat) (hpc : (s.calls k).pc = .registered) (hopen : s.closed = false) :
      Effect s (.sendQuery k true)
        ((s.setCall k { s.calls k with pc := .selecting }).push (.query (s.calls k).id k))
  | picked (k : Nat) (wire : Wire) (hpc : (s.calls k).pc = .selecting)
      (hslot : (s.calls k).slot = some wire) :
      Effect s (.pick k) (s.setCall k { s.calls k with slot := none, pc := .running wire })
  | forwarded (k : Nat) (request reply : Wire) (hpc : (s.calls k).pc = .running request) :
      Effect s (.forwarded k reply) (s.setCall k { s.calls k with pc := .replied reply })
  | answered (k : Nat) (reply : Wire) (hpc : (s.calls k).pc = .replied reply) :
      Effect s (.answered k) (s.setCall k { s.calls k with busy := false, pc := .sending reply })
  | replyLost (k : Nat) (reply : Wire) (hpc : (s.calls k).pc = .sending reply) :
      Effect s (.sendReply k false) (s.setCall k (s.calls k).delivered).fail
  | replySent (k : Nat) (reply : Wire) (hpc : (s.calls k).pc = .sending reply)
      (hopen : s.closed = false) :
      Effect s (.sendReply k true) ((s.setCall k { s.calls k with pc := .selecting }).push
        (.reply (s.calls k).id reply))
  | finalTaken (k : Nat) (answer : Option Wire) (hpc : (s.calls k).pc = .selecting)
      (hfinal : (s.calls k).final = some answer) :
      Effect s (.takeFinal k) (s.setCall k (s.calls k).delivered)
  | cancelled (k : Nat) (hpc : (s.calls k).pc = .selecting) :
      Effect s (.cancel k) (s.setCall k (s.calls k).abandon)
  | emptyLost (k : Nat) (hpc : (s.calls k).pc = .abandoning) :
      Effect s (.sendEmpty k false)
        (s.setCall k { s.calls k with pc := .returned (.error .cancelled) }).fail
  | emptySent (k : Nat) (hpc : (s.calls k).pc = .abandoning) (hopen : s.closed = false) :
      Effect s (.sendEmpty k true) ((s.setCall k { s.calls k with
        pc := .returned (.error .cancelled), emptied := (s.calls k).emptied + 1 }).push
          (.reply (s.calls k).id []))
  | doneSeen (k : Nat) (hpc : (s.calls k).pc = .selecting) (hended : s.ended = true) :
      Effect s (.done k) (s.setCall k (s.calls k).delivered)
  | readyRead (frames : List ToGateway) (hread : s.toGateway = .ready :: frames) :
      Effect s .read { s with toGateway := frames, readySeen := true }
  | protocolError (frame : ToGateway) (frames : List ToGateway)
      (hread : s.toGateway = frame :: frames) :
      Effect s .read { s with toGateway := frames, ended := true, reading := false }
  | forwardIgnored (id : Nat) (wire : Wire) (frames : List ToGateway)
      (hread : s.toGateway = .forward id wire :: frames) (hfree : lookup id s.table = none) :
      Effect s .read { s with toGateway := frames }
  | forwardRefused (id k : Nat) (wire : Wire) (frames : List ToGateway)
      (hread : s.toGateway = .forward id wire :: frames) (howed : s.owed = none)
      (hentry : lookup id s.table = some k) (habandoned : (s.calls k).abandoned = true) :
      Effect s .read { s.setCall k { s.calls k with refused := (s.calls k).refused + 1 } with
        toGateway := frames, owed := some (id, k) }
  | forwardRepeated (id k : Nat) (wire : Wire) (frames : List ToGateway)
      (hread : s.toGateway = .forward id wire :: frames) (howed : s.owed = none)
      (hentry : lookup id s.table = some k) (habandoned : (s.calls k).abandoned = false)
      (hbusy : (s.calls k).busy = true) :
      Effect s .read { s with toGateway := frames }
  | forwardDelivered (id k : Nat) (wire : Wire) (frames : List ToGateway)
      (hread : s.toGateway = .forward id wire :: frames) (howed : s.owed = none)
      (hentry : lookup id s.table = some k) (habandoned : (s.calls k).abandoned = false)
      (hbusy : (s.calls k).busy = false) (hslot : (s.calls k).slot = none) :
      Effect s .read { s.setCall k { s.calls k with busy := true, slot := some wire } with
        toGateway := frames }
  | finalIgnored (id : Nat) (frame : ToGateway) (frames : List ToGateway)
      (hread : s.toGateway = frame :: frames) (hfree : lookup id s.table = none)
      (hframe : (∃ wire k, frame = .answer id wire k) ∨ ∃ k, frame = .drop id k) :
      Effect s .read { s with toGateway := frames }.closeIdle
  | settled (id k : Nat) (answer : Option Wire) (frame : ToGateway) (frames : List ToGateway)
      (hread : s.toGateway = frame :: frames) (hentry : lookup id s.table = some k)
      (hfinal : (s.calls k).final = none)
      (hframe : (∃ wire k', frame = .answer id wire k' ∧ answer = some wire) ∨
        ∃ k', frame = .drop id k' ∧ answer = none) :
      Effect s .read { s.setCall k { s.calls k with final := some answer } with
        toGateway := frames, table := eraseID id s.table }.closeIdle
  | owedLost (id k : Nat) (howed : s.owed = some (id, k)) :
      Effect s (.sendOwed false) { s.fail with owed := none }
  | owedSent (id k : Nat) (howed : s.owed = some (id, k)) (hopen : s.closed = false) :
      Effect s (.sendOwed true)
        { (s.setCall k { s.calls k with emptied := (s.calls k).emptied + 1 }).push
          (.reply id []) with owed := none }
  | failed : Effect s .fail s.fail
  | closed : Effect s .close { s with closed := true }
  | retired : Effect s .markRetired { s with retired := true }
  | drained (hidle : s.idle = none) :
      Effect s .drained { s with idle := some (s.table = []) }
  | drainedAgain (closed : Bool) (hidle : s.idle = some closed) : Effect s .drained s
  | queryReceived (id k : Nat) (frames : List ToDecider)
      (hreceive : s.toDecider = .query id k :: frames) (hup : s.stopped = false)
      (htask : s.tasks id = none) :
      Effect s .receive { s.setTask id (some ⟨k, .deciding⟩) with toDecider := frames }
  | queryRejected (id k : Nat) (task : Task) (frames : List ToDecider)
      (hreceive : s.toDecider = .query id k :: frames) (htask : s.tasks id = some task) :
      Effect s .receive { s with toDecider := frames, stopped := true, tasks := fun _ => none }
  | replyReceived (id k : Nat) (payload : Wire) (frames : List ToDecider)
      (hreceive : s.toDecider = .reply id payload :: frames)
      (htask : s.tasks id = some ⟨k, .waiting⟩) :
      Effect s .receive { s.setTask id (some ⟨k, .resumed⟩) with toDecider := frames }
  | replyIgnored (id : Nat) (payload : Wire) (frames : List ToDecider)
      (hreceive : s.toDecider = .reply id payload :: frames)
      (htask : ∀ k, s.tasks id ≠ some ⟨k, .waiting⟩) :
      Effect s .receive { s with toDecider := frames }
  | forwardSent (id k : Nat) (wire : Wire) (htask : s.tasks id = some ⟨k, .deciding⟩) :
      Effect s (.forward id wire) ((s.setTask id (some ⟨k, .waiting⟩)).emit (.forward id wire))
  | timedOut (id k : Nat) (htask : s.tasks id = some ⟨k, .waiting⟩) :
      Effect s (.timeout id) (s.setTask id (some ⟨k, .deciding⟩))
  | continued (id k : Nat) (htask : s.tasks id = some ⟨k, .resumed⟩) :
      Effect s (.resume id) (s.setTask id (some ⟨k, .deciding⟩))
  | finished (id k : Nat) (answer : Option Wire) (htask : s.tasks id = some ⟨k, .deciding⟩) :
      Effect s (.finish id answer) ({ s.setTask id none with
        computed := Function.update s.computed k (some answer) }.emit
          (match answer with
          | some wire => .answer id wire k
          | none => .drop id k))
  | stopped : Effect s .stop { s with stopped := true, tasks := fun _ => none }

theorem freeID_free {table : List (Nat × Nat)} {nextID id : Nat}
    (h : freeID table nextID = some id) : lookup id table = none := by
  have := List.find?_some h
  simp only [Bool.and_eq_true, Option.isNone_iff_eq_none] at this
  exact this.2

theorem register_ok {s : Session} {id : Nat} (h : s.register = .ok id) :
    lookup id s.table = none ∧ s.retired = false := by
  unfold register at h
  split at h
  · cases h
  · rename_i hactive
    split at h
    · cases h
    · split at h
      · cases h
      · split at h
        · rename_i hfree
          injection h with h
          exact ⟨h ▸ freeID_free hfree, by simpa using hactive⟩
        · cases h

theorem register_error {s : Session} {err : Err} (h : s.register = .error err) :
    (err = .retired ↔ s.retired = true) ∧ err ≠ .cancelled := by
  unfold register at h
  split at h
  · rename_i hretired
    cases h
    exact ⟨by simpa using hretired, by simp⟩
  · rename_i hactive
    have herr : err = .ended ∨ err = .busy := by
      split at h
      · cases h
        exact Or.inl rfl
      · split at h
        · cases h
          exact Or.inr rfl
        · split at h <;> cases h
          exact Or.inr rfl
    rcases herr with rfl | rfl <;> simpa using hactive

theorem finish_effect {s s' : Session} {id : Nat} {answer : Option Wire} {frame : ToGateway}
    {frames : List ToGateway} (hread : s.toGateway = frame :: frames)
    (hframe : (∃ wire k', frame = .answer id wire k' ∧ answer = some wire) ∨
      ∃ k', frame = .drop id k' ∧ answer = none)
    (h : Session.finish { s with toGateway := frames } id answer = some s') :
    Effect s .read s' := by
  unfold Session.finish at h
  split at h
  · rename_i hfree
    obtain rfl := Option.some.inj h
    refine .finalIgnored id frame frames hread hfree ?_
    exact hframe.imp (fun ⟨wire, k, h, _⟩ => ⟨wire, k, h⟩) (fun ⟨k, h, _⟩ => ⟨k, h⟩)
  · rename_i k hentry
    obtain ⟨c, hc, rfl⟩ := Option.map_eq_some_iff.mp h
    unfold Call.settle at hc
    split at hc
    · rename_i hfinal
      obtain rfl := Option.some.inj hc
      exact .settled id k answer frame frames hread hentry hfinal hframe
    · cases hc

theorem readFrame_effect {s s' : Session} {frame : ToGateway} {frames : List ToGateway}
    (hread : s.toGateway = frame :: frames) (howed : s.owed = none)
    (h : Session.readFrame { s with toGateway := frames } frame = some s') :
    Effect s .read s' := by
  cases frame with
  | ready =>
      simp only [readFrame, Option.some.injEq] at h
      subst h
      split
      · exact .protocolError _ frames hread
      · exact .readyRead frames hread
  | forward id wire =>
      simp only [readFrame] at h
      split at h
      · obtain rfl := Option.some.inj h
        exact .protocolError _ frames hread
      · split at h
        · rename_i hfree
          obtain rfl := Option.some.inj h
          exact .forwardIgnored id wire frames hread hfree
        · rename_i k hentry
          obtain ⟨⟨abandoned, c⟩, hc, rfl⟩ := Option.map_eq_some_iff.mp h
          unfold Call.deliver at hc
          split at hc
          · rename_i habandoned
            cases hc
            exact .forwardRefused id k wire frames hread howed hentry habandoned
          · rename_i habandoned
            simp only [Bool.not_eq_true] at habandoned
            split at hc
            · rename_i hbusy
              cases hc
              have heffect := Effect.forwardRepeated id k wire frames hread howed hentry
                habandoned hbusy
              simpa [setCall, howed] using heffect
            · rename_i hbusy
              simp only [Bool.not_eq_true] at hbusy
              split at hc
              · rename_i hslot
                cases hc
                have heffect := Effect.forwardDelivered id k wire frames hread howed hentry
                  habandoned hbusy hslot
                simpa [setCall, howed] using heffect
              · cases hc
  | answer id wire k =>
      simp only [readFrame] at h
      split at h
      · obtain rfl := Option.some.inj h
        exact .protocolError _ frames hread
      · exact finish_effect hread (Or.inl ⟨wire, k, rfl, rfl⟩) h
  | drop id k => exact finish_effect hread (Or.inr ⟨k, rfl, rfl⟩) h

theorem receiveFrame_effect {s : Session} {frame : ToDecider} {frames : List ToDecider}
    (hup : s.stopped = false) (hreceive : s.toDecider = frame :: frames) :
    Effect s .receive (Session.receiveFrame { s with toDecider := frames } frame) := by
  cases frame with
  | query id k =>
      simp only [receiveFrame]
      split
      · rename_i htask
        exact .queryReceived id k frames hreceive hup htask
      · rename_i task htask
        exact .queryRejected id k task frames hreceive htask
  | reply id payload =>
      simp only [receiveFrame]
      split
      · rename_i k htask
        exact .replyReceived id k payload frames hreceive htask
      · rename_i htask
        exact .replyIgnored id payload frames hreceive htask

theorem step_effect {s s' : Session} {e : Event} (h : s.step e = some s') :
    Effect s e s' := by
  cases e with
  | read =>
      simp only [step] at h
      split at h
      · rename_i howed hread
        exact readFrame_effect hread howed h
      · cases h
  | receive =>
      simp only [step] at h
      split at h
      · rename_i hup hreceive
        obtain rfl := Option.some.inj h
        exact receiveFrame_effect hup hreceive
      · cases h
  | decide k =>
      simp only [step] at h
      split at h
      · rename_i hpc
        split at h
        · rename_i hregister
          obtain rfl := Option.some.inj h
          exact .refused k _ hpc (register_error hregister).1 (register_error hregister).2
        · rename_i id hregister
          obtain rfl := Option.some.inj h
          exact .registered k id hpc (register_ok hregister).1 (register_ok hregister).2
      · cases h
  | sendQuery k written =>
      simp only [step] at h
      split at h
      · rename_i hpc
        cases written
        · obtain rfl := Option.some.inj h
          exact .queryLost k hpc
        · simp only [Bool.not_true, Bool.false_eq_true, if_false] at h
          split at h
          · cases h
          · rename_i hopen
            obtain rfl := Option.some.inj h
            exact .querySent k hpc (by simpa using hopen)
      · cases h
  | pick k =>
      simp only [step] at h
      split at h
      · rename_i wire hpc hslot
        obtain rfl := Option.some.inj h
        exact .picked k wire hpc hslot
      · cases h
  | forwarded k reply =>
      simp only [step] at h
      split at h
      · rename_i request hpc
        obtain rfl := Option.some.inj h
        exact .forwarded k request reply hpc
      · cases h
  | answered k =>
      simp only [step] at h
      split at h
      · rename_i reply hpc
        obtain rfl := Option.some.inj h
        exact .answered k reply hpc
      · cases h
  | sendReply k written =>
      simp only [step] at h
      split at h
      · rename_i reply hpc
        cases written
        · obtain rfl := Option.some.inj h
          exact .replyLost k reply hpc
        · simp only [Bool.not_true, Bool.false_eq_true, if_false] at h
          split at h
          · cases h
          · rename_i hopen
            obtain rfl := Option.some.inj h
            exact .replySent k reply hpc (by simpa using hopen)
      · cases h
  | takeFinal k =>
      simp only [step] at h
      split at h
      · rename_i answer hpc hfinal
        obtain rfl := Option.some.inj h
        exact .finalTaken k answer hpc hfinal
      · cases h
  | cancel k =>
      simp only [step] at h
      split at h
      · rename_i hpc
        obtain rfl := Option.some.inj h
        exact .cancelled k hpc
      · cases h
  | sendEmpty k written =>
      simp only [step] at h
      split at h
      · rename_i hpc
        cases written
        · obtain rfl := Option.some.inj h
          exact .emptyLost k hpc
        · simp only [Bool.not_true, Bool.false_eq_true, if_false] at h
          split at h
          · cases h
          · rename_i hopen
            obtain rfl := Option.some.inj h
            exact .emptySent k hpc (by simpa using hopen)
      · cases h
  | done k =>
      simp only [step] at h
      split at h
      · rename_i hpc
        split at h
        · rename_i hended
          obtain rfl := Option.some.inj h
          exact .doneSeen k hpc hended
        · cases h
      · cases h
  | sendOwed written =>
      simp only [step] at h
      split at h
      · rename_i id k howed
        cases written
        · obtain rfl := Option.some.inj h
          exact .owedLost id k howed
        · simp only [Bool.not_true, Bool.false_eq_true, if_false] at h
          split at h
          · cases h
          · rename_i hopen
            obtain rfl := Option.some.inj h
            exact .owedSent id k howed (by simpa using hopen)
      · cases h
  | fail => exact Option.some.inj h ▸ .failed
  | close => exact Option.some.inj h ▸ .closed
  | markRetired => exact Option.some.inj h ▸ .retired
  | drained =>
      simp only [step] at h
      split at h
      · rename_i hidle
        exact Option.some.inj h ▸ .drained hidle
      · rename_i closed hidle
        exact Option.some.inj h ▸ .drainedAgain closed hidle
  | forward id wire =>
      simp only [step] at h
      split at h
      · rename_i k htask
        exact Option.some.inj h ▸ .forwardSent id k wire htask
      · cases h
  | timeout id =>
      simp only [step] at h
      split at h
      · rename_i k htask
        exact Option.some.inj h ▸ .timedOut id k htask
      · cases h
  | resume id =>
      simp only [step] at h
      split at h
      · rename_i k htask
        exact Option.some.inj h ▸ .continued id k htask
      · cases h
  | finish id answer =>
      simp only [step] at h
      split at h
      · rename_i k htask
        exact Option.some.inj h ▸ .finished id k answer htask
      · cases h
  | stop => exact Option.some.inj h ▸ .stopped

/-! ### One token for each reserved id -/

/-- The session has ended for one side at least: what is written may be lost. -/
def Broken (s : Session) : Prop := s.ended = true ∨ s.closed = true

/-- The query of an id, as a frame carries it. -/
def queryOf (id : Nat) : ToDecider → Option Nat
  | .query id' k => if id' = id then some k else none
  | .reply _ _ => none

/-- The decided query of an id, as a final frame carries it. -/
def finalOf (id : Nat) : ToGateway → Option Nat
  | .answer id' _ k | .drop id' k => if id' = id then some k else none
  | .ready | .forward _ _ => none

/-- The queries under way for an id: sent, with the decider, or decided and not read yet. -/
def underWay (s : Session) (id : Nat) : List Nat :=
  s.toDecider.filterMap (queryOf id) ++ (s.tasks id).toList.map Task.call ++
    s.toGateway.filterMap (finalOf id)

/-- A registered call is in the table under its id, has no final frame yet, and its query is
under way unless it is still to be sent or the session is over. -/
structure Entry (s : Session) (k : Nat) (c : Call) : Prop where
  fresh : c.pc = .idle → c.final = none
  registered : c.pc = .registered → lookup c.id s.table = some k
  named : ∀ {id}, lookup id s.table = some k → c.id = id
  final : ∀ {id}, lookup id s.table = some k → c.final = none
  idle : ∀ {id}, lookup id s.table = some k → c.pc ≠ .idle
  unanswered : ∀ {id}, lookup id s.table = some k → ∀ answer, c.pc ≠ .returned (.ok answer)
  token : ∀ {id}, lookup id s.table = some k →
    underWay s id = [k] ∧ c.pc ≠ .registered ∨
      underWay s id = [] ∧ (c.pc = .registered ∨ Broken s ∨ s.stopped = true)

structure Tokens (s : Session) : Prop where
  entry : ∀ k, Entry s k (s.calls k)
  free : ∀ id, lookup id s.table = none → underWay s id = []
  stopped : s.stopped = true → ∀ id, s.tasks id = none

/-- The table, what is under way and the flags are all that an entry looks at. -/
theorem Entry.congr {s s' : Session} {k : Nat} {c : Call} (h : Entry s k c)
    (htable : s'.table = s.table) (hheld : ∀ id, (underWay s' id).Perm (underWay s id))
    (hbroken : Broken s → Broken s') (hstopped : s.stopped = true → s'.stopped = true) :
    Entry s' k c where
  fresh := h.fresh
  registered := htable ▸ h.registered
  named := htable ▸ h.named
  final := htable ▸ h.final
  idle := htable ▸ h.idle
  unanswered := htable ▸ h.unanswered
  token := by
    intro id hentry
    rw [htable] at hentry
    have hperm := hheld id
    rcases h.token hentry with ⟨hheld, hpc⟩ | ⟨hheld, hpc⟩
    · rw [hheld, List.perm_singleton] at hperm
      exact Or.inl ⟨hperm, hpc⟩
    · rw [hheld, List.perm_nil] at hperm
      exact Or.inr ⟨hperm, hpc.imp (fun h => h) (Or.imp hbroken hstopped)⟩

/-- A call past its registration moves on. -/
theorem Entry.move {s : Session} {k : Nat} {c c' : Call} (h : Entry s k c) (hid : c'.id = c.id)
    (hfinal : c.final = none → c'.final = none) (hidle : c'.pc ≠ .idle)
    (hregistered : c'.pc ≠ .registered)
    (hanswered : c.final = none → ∀ answer, c'.pc ≠ .returned (.ok answer))
    (hwas : c.pc ≠ .registered ∨ Broken s) : Entry s k c' where
  fresh hpc := absurd hpc hidle
  registered hpc := absurd hpc hregistered
  named hentry := hid.trans (h.named hentry)
  final hentry := hfinal (h.final hentry)
  idle _ := hidle
  unanswered hentry := hanswered (h.final hentry)
  token hentry := by
    rcases h.token hentry with ⟨hheld, _⟩ | ⟨hheld, hpc⟩
    · exact Or.inl ⟨hheld, hregistered⟩
    · refine Or.inr ⟨hheld, Or.inr ?_⟩
      rcases hpc with hpc | hpc
      · exact Or.inl (hwas.resolve_left fun h => h hpc)
      · exact hpc

section Frame

variable {s s' : Session}

/-- A step that leaves the table and what is under way keeps the tokens. -/
theorem Tokens.congr (h : Tokens s) (htable : s'.table = s.table)
    (hheld : ∀ id, (underWay s' id).Perm (underWay s id)) (hbroken : Broken s → Broken s')
    (hstopped : s'.stopped = s.stopped) (htasks : s'.stopped = true → ∀ id, s'.tasks id = none)
    (hcalls : ∀ k, Entry s' k (s.calls k) → Entry s' k (s'.calls k)) : Tokens s' where
  entry k := hcalls k ((h.entry k).congr htable hheld hbroken (hstopped ▸ fun h => h))
  free id hfree := by
    have hperm := hheld id
    rw [htable] at hfree
    rwa [h.free id hfree, List.perm_nil] at hperm
  stopped := htasks

/-- One call moves on; the table, the streams and the tasks stay. -/
theorem Tokens.move (h : Tokens s) {k : Nat} {c : Call}
    (hcalls : s'.calls = Function.update s.calls k c)
    (htable : s'.table = s.table) (hheld : ∀ id, (underWay s' id).Perm (underWay s id))
    (hbroken : Broken s → Broken s') (hstopped : s'.stopped = s.stopped)
    (htasks : s'.tasks = s.tasks) (hmove : Entry s' k (s.calls k) → Entry s' k c) : Tokens s' := by
  refine h.congr htable hheld hbroken hstopped ?_ ?_
  · rw [hstopped, htasks]
    exact h.stopped
  · intro k' hentry
    rw [hcalls]
    by_cases hk : k' = k
    · subst hk
      rw [Function.update_self]
      exact hmove hentry
    · rwa [Function.update_of_ne hk]

end Frame

theorem delivered_cases (c : Call) :
    (c.final = none ∧ c.delivered = { c with pc := .returned (.error .ended) }) ∨
      ∃ answer, c.final = some answer ∧
        c.delivered = { c with final := none, pc := .returned (.ok answer) } := by
  unfold Call.delivered
  cases h : c.final with
  | none => exact Or.inl ⟨rfl, rfl⟩
  | some answer => exact Or.inr ⟨answer, rfl, rfl⟩

theorem Entry.delivered {s : Session} {k : Nat} {c : Call} (h : Entry s k c)
    (hpc : c.pc ≠ .registered) : Entry s k c.delivered := by
  rcases delivered_cases c with ⟨hfinal, hc⟩ | ⟨answer, hfinal, hc⟩
  · rw [hc]
    exact h.move rfl (fun h => h) (by simp) (by simp) (by simp) (Or.inl hpc)
  · rw [hc]
    exact h.move rfl (fun _ => rfl) (by simp) (by simp) (by simp [hfinal]) (Or.inl hpc)

theorem Entry.abandon {s : Session} {k : Nat} {c : Call} (h : Entry s k c)
    (hpc : c.pc ≠ .registered) : Entry s k c.abandon := by
  unfold Call.abandon
  split <;> exact h.move rfl (fun h => h) (by simp) (by simp) (by simp) (Or.inl hpc)

theorem lookup_eraseID (id id' : Nat) (table : List (Nat × Nat)) :
    lookup id' (eraseID id table) = if id' = id then none else lookup id' table := by
  induction table with
  | nil => simp [eraseID, lookup]
  | cons entry table ih =>
      obtain ⟨i, k⟩ := entry
      by_cases hi : i = id
      · subst hi
        have herase : eraseID i ((i, k) :: table) = eraseID i table := by simp [eraseID]
        rw [herase, ih, lookup]
        split
        · rfl
        · rename_i hid
          rw [if_neg (Ne.symm hid)]
      · have herase : eraseID id ((i, k) :: table) = (i, k) :: eraseID id table := by
          simp [eraseID, hi]
        rw [herase, lookup, lookup, ih]
        by_cases hid : i = id'
        · subst hid
          simp [hi]
        · simp [hid]

/-- What is under way for an id is the query of the call that holds it. -/
theorem Tokens.lookup_of_mem {s : Session} (h : Tokens s) {id k : Nat} (hk : k ∈ underWay s id) :
    lookup id s.table = some k ∧ underWay s id = [k] := by
  cases hentry : lookup id s.table with
  | none =>
      rw [h.free id hentry] at hk
      cases hk
  | some k' =>
      rcases (h.entry k').token hentry with ⟨hheld, _⟩ | ⟨hheld, _⟩
      · rw [hheld, List.mem_singleton] at hk
        exact ⟨hk ▸ rfl, hk ▸ hheld⟩
      · rw [hheld] at hk
        cases hk

theorem mem_underWay_of_query {s : Session} {id k : Nat} (h : .query id k ∈ s.toDecider) :
    k ∈ underWay s id := by
  simp only [underWay, List.mem_append, List.mem_filterMap]
  exact Or.inl (Or.inl ⟨_, h, by simp [queryOf]⟩)

theorem mem_underWay_of_task {s : Session} {id : Nat} {task : Task} (h : s.tasks id = some task) :
    task.call ∈ underWay s id := by
  simp [underWay, h]

theorem mem_underWay_of_final {s : Session} {id k : Nat} {frame : ToGateway}
    (hmem : frame ∈ s.toGateway) (h : finalOf id frame = some k) : k ∈ underWay s id := by
  simp only [underWay, List.mem_append, List.mem_filterMap]
  exact Or.inr ⟨_, hmem, h⟩

theorem underWay_push_reply (s : Session) (id id' : Nat) (payload : Wire) :
    underWay (s.push (.reply id' payload)) id = underWay s id := by
  simp [underWay, push, queryOf]

theorem underWay_push_query (s : Session) (id id' k : Nat) :
    (underWay (s.push (.query id' k)) id).Perm
      ((if id' = id then [k] else []) ++ underWay s id) := by
  simp only [underWay, push, List.filterMap_append, List.append_assoc]
  rw [← List.append_assoc _ (List.filterMap _ _)]
  refine (List.perm_append_comm.append_right _).trans (List.Perm.of_eq ?_)
  by_cases h : id' = id <;> simp [queryOf, h]

/-- A frame read that carries no query leaves the same under way. -/
theorem underWay_read {s : Session} {id : Nat} {frame : ToGateway} {frames : List ToGateway}
    (hread : s.toGateway = frame :: frames) :
    (underWay s id).Perm
      ((finalOf id frame).toList ++ underWay { s with toGateway := frames } id) := by
  simp only [underWay, hread]
  cases h : finalOf id frame with
  | none => simp [h]
  | some k =>
      simp only [List.filterMap_cons, h, Option.toList_some, List.singleton_append]
      exact List.perm_middle

theorem underWay_receive {s : Session} {id : Nat} {frame : ToDecider} {frames : List ToDecider}
    (hreceive : s.toDecider = frame :: frames) :
    underWay s id = (queryOf id frame).toList ++ underWay { s with toDecider := frames } id := by
  simp only [underWay, hreceive]
  cases h : queryOf id frame <;> simp [h]

theorem underWay_setTask (s : Session) {id : Nat} {k : Nat} (phase : Phase) {task : Task}
    (htask : s.tasks id = some task) (hcall : task.call = k) (id' : Nat) :
    underWay (s.setTask id (some ⟨k, phase⟩)) id' = underWay s id' := by
  by_cases h : id' = id
  · subst h
    simp [underWay, setTask, htask, hcall]
  · simp [underWay, setTask, h]

theorem Tokens.initial : Tokens initial where
  entry k :=
    { fresh := fun _ => rfl
      registered := by intro h; cases h
      named := by intro id h; cases h
      final := by intro id h; cases h
      idle := by intro id h; cases h
      unanswered := by intro id h; cases h
      token := by intro id h; cases h }
  free id _ := by simp [underWay, DecisionSession.initial, finalOf]
  stopped h := by cases h

/-- A session that ends may lose what is under way. -/
theorem Tokens.lose {s s' : Session} (h : Tokens s) (hcalls : s'.calls = s.calls)
    (htable : s'.table = s.table) (hheld : ∀ id, (underWay s' id).Sublist (underWay s id))
    (hover : Broken s' ∨ s'.stopped = true)
    (hstopped : s'.stopped = true → ∀ id, s'.tasks id = none) :
    Tokens s' where
  entry k :=
    { fresh := by rw [hcalls]; exact (h.entry k).fresh
      registered := by rw [hcalls, htable]; exact (h.entry k).registered
      named := by rw [hcalls, htable]; exact (h.entry k).named
      final := by rw [hcalls, htable]; exact (h.entry k).final
      idle := by rw [hcalls, htable]; exact (h.entry k).idle
      unanswered := by rw [hcalls, htable]; exact (h.entry k).unanswered
      token := by
        intro id hentry
        rw [htable] at hentry
        rw [hcalls]
        have hsub := hheld id
        rcases (h.entry k).token hentry with ⟨hheld, hpc⟩ | ⟨hheld, hpc⟩
        · rw [hheld, List.sublist_singleton] at hsub
          rcases hsub with hnil | hone
          · exact Or.inr ⟨hnil, Or.inr hover⟩
          · exact Or.inl ⟨hone, hpc⟩
        · rw [hheld, List.sublist_nil] at hsub
          exact Or.inr ⟨hsub, hpc.imp (fun h => h) fun _ => hover⟩ }
  free id hfree := by
    have hsub := hheld id
    rw [htable] at hfree
    rwa [h.free id hfree, List.sublist_nil] at hsub
  stopped := hstopped

/-- A new entry: nothing is under way for its id, and its call was not in the table. -/
theorem Tokens.register {s : Session} (h : Tokens s) {k id : Nat} (hpc : (s.calls k).pc = .idle)
    (hfree : lookup id s.table = none) :
    Tokens { s.setCall k { s.calls k with id := id, pc := .registered } with
      table := (id, k) :: s.table, nextID := id } where
  entry k' := by
    by_cases hk : k' = k
    · subst hk
      have hother : ∀ {id'}, lookup id' ((id, k') :: s.table) = some k' → id = id' := by
        intro id' hentry
        rw [lookup] at hentry
        split at hentry
        · assumption
        · exact absurd hpc ((h.entry k').idle hentry)
      simp only [setCall, Function.update_self]
      exact {
        fresh := by simp
        registered := fun _ => by simp [lookup]
        named := fun hentry => hother hentry
        final := fun _ => (h.entry k').fresh hpc
        idle := fun _ => by simp
        unanswered := fun _ => by simp
        token := fun {id'} hentry => by
          obtain rfl := hother hentry
          exact Or.inr ⟨h.free id hfree, Or.inl rfl⟩ }
    · simp only [setCall, Function.update_of_ne hk]
      have hother : ∀ {id'}, lookup id' ((id, k) :: s.table) = some k' →
          lookup id' s.table = some k' := by
        intro id' hentry
        rw [lookup] at hentry
        split at hentry
        · exact absurd (Option.some.inj hentry).symm hk
        · exact hentry
      have hold := h.entry k'
      exact {
        fresh := hold.fresh
        registered := fun hreg => by
          rw [lookup]
          split
          · rename_i hid
            have hreserved := hold.registered hreg
            rw [← hid, hfree] at hreserved
            cases hreserved
          · exact hold.registered hreg
        named := fun hentry => hold.named (hother hentry)
        final := fun hentry => hold.final (hother hentry)
        idle := fun hentry => hold.idle (hother hentry)
        unanswered := fun hentry => hold.unanswered (hother hentry)
        token := fun hentry => hold.token (hother hentry) }
  free id' hfree' := by
    rw [lookup] at hfree'
    split at hfree'
    · cases hfree'
    · exact h.free id' hfree'
  stopped := h.stopped

/-- The query of a registered call is sent. -/
theorem Tokens.sendQuery {s : Session} (h : Tokens s) {k : Nat}
    (hpc : (s.calls k).pc = .registered) :
    Tokens ((s.setCall k { s.calls k with pc := .selecting }).push (.query (s.calls k).id k)) := by
  have hentry := (h.entry k).registered hpc
  have hunder : ∀ id', (underWay ((s.setCall k { s.calls k with pc := .selecting }).push
      (.query (s.calls k).id k)) id').Perm
        ((if (s.calls k).id = id' then [k] else []) ++ underWay s id') :=
    fun id' => underWay_push_query _ id' _ k
  refine { entry := fun k' => ?_, free := fun id' hfree => ?_, stopped := h.stopped }
  · by_cases hk : k' = k
    · subst hk
      have hold := h.entry k'
      simp only [setCall, push, Function.update_self]
      exact {
        fresh := by simp
        registered := by simp
        named := hold.named
        final := hold.final
        idle := by simp
        unanswered := by simp
        token := by
          intro id' hentry'
          obtain rfl := hold.named hentry'
          rcases hold.token hentry' with ⟨_, hne⟩ | ⟨hnil, _⟩
          · exact absurd hpc hne
          · have hperm := hunder (s.calls k').id
            rw [hnil, if_pos rfl, List.append_nil, List.perm_singleton] at hperm
            exact Or.inl ⟨hperm, by simp⟩ }
    · simp only [setCall, push, Function.update_of_ne hk]
      have hold := h.entry k'
      exact {
        fresh := hold.fresh
        registered := hold.registered
        named := hold.named
        final := hold.final
        idle := hold.idle
        unanswered := hold.unanswered
        token := by
          intro id' hentry'
          have hid : (s.calls k).id ≠ id' := by
            rintro rfl
            exact hk (Option.some.inj (hentry'.symm.trans hentry))
          have hperm := hunder id'
          rw [if_neg hid, List.nil_append] at hperm
          rcases hold.token hentry' with ⟨hone, hne⟩ | ⟨hnil, hover⟩
          · rw [hone, List.perm_singleton] at hperm
            exact Or.inl ⟨hperm, hne⟩
          · rw [hnil, List.perm_nil] at hperm
            exact Or.inr ⟨hperm, hover⟩ }
  · have hid : (s.calls k).id ≠ id' := by
      rintro rfl
      exact absurd (hfree.symm.trans hentry) (by simp)
    have hperm := hunder id'
    rwa [if_neg hid, List.nil_append, h.free id' hfree, List.perm_nil] at hperm

theorem finalOf_of_ne {frame : ToGateway} {id id' k : Nat} (h : finalOf id frame = some k)
    (hid : id' ≠ id) : finalOf id' frame = none := by
  cases frame with
  | answer id₀ _ _ | drop id₀ _ =>
      simp only [finalOf, Option.ite_none_right_eq_some] at h
      simp [finalOf, h.1, Ne.symm hid]
  | ready | forward => rfl

/-- A final frame is read: the call has it, and its id is free again. -/
theorem Tokens.settle {s : Session} (h : Tokens s) {id k : Nat} {frame : ToGateway}
    {frames : List ToGateway} (answer : Option Wire) (hread : s.toGateway = frame :: frames)
    (hentry : lookup id s.table = some k) (hframe : ∃ k', finalOf id frame = some k') :
    Tokens { s.setCall k { s.calls k with final := some answer } with
      toGateway := frames, table := eraseID id s.table }.closeIdle := by
  obtain ⟨k', hframe⟩ := hframe
  have hmem : k' ∈ underWay s id :=
    mem_underWay_of_final (hread ▸ List.mem_cons_self) hframe
  obtain ⟨hentry', hone⟩ := h.lookup_of_mem hmem
  obtain rfl := Option.some.inj (hentry'.symm.trans hentry)
  have hnil : underWay { s with toGateway := frames } id = [] := by
    have hperm : (underWay s id).Perm _ := underWay_read hread
    rw [hone, hframe] at hperm
    simpa using hperm.symm.length_eq
  have hsame : ∀ id', id' ≠ id →
      (underWay { s with toGateway := frames } id').Perm (underWay s id') := by
    intro id' hid
    have hperm : (underWay s id').Perm _ := underWay_read hread
    rw [finalOf_of_ne hframe hid] at hperm
    exact hperm.symm
  have herased : ∀ {id' k''}, lookup id' (eraseID id s.table) = some k'' →
      id' ≠ id ∧ lookup id' s.table = some k'' := by
    intro id' k'' hlookup
    rw [lookup_eraseID] at hlookup
    split at hlookup
    · cases hlookup
    · rename_i hid
      exact ⟨hid, hlookup⟩
  refine { entry := fun k'' => ?_, free := fun id' hfree => ?_, stopped := h.stopped }
  · have hold := h.entry k''
    by_cases hk : k'' = k'
    · subst hk
      have hgone : ∀ {id'}, lookup id' (eraseID id s.table) ≠ some k'' := by
        intro id' hlookup
        obtain ⟨hid, hlookup⟩ := herased hlookup
        exact hid ((hold.named hlookup).symm.trans (hold.named hentry))
      simp only [closeIdle, setCall, Function.update_self]
      exact {
        fresh := fun hpc => absurd hpc (hold.idle hentry)
        registered := fun hpc => by
          rcases hold.token hentry with ⟨_, hne⟩ | ⟨hempty, _⟩
          · exact absurd hpc hne
          · rw [hone] at hempty
            cases hempty
        named := fun hlookup => absurd hlookup hgone
        final := fun hlookup => absurd hlookup hgone
        idle := fun hlookup => absurd hlookup hgone
        unanswered := fun hlookup => absurd hlookup hgone
        token := fun hlookup => absurd hlookup hgone }
    · simp only [closeIdle, setCall, Function.update_of_ne hk]
      exact {
        fresh := hold.fresh
        registered := fun hpc => by
          have hlookup := hold.registered hpc
          rw [lookup_eraseID, if_neg]
          · exact hlookup
          · rintro hid
            rw [hid, hentry] at hlookup
            exact hk (Option.some.inj hlookup).symm
        named := fun hlookup => hold.named (herased hlookup).2
        final := fun hlookup => hold.final (herased hlookup).2
        idle := fun hlookup => hold.idle (herased hlookup).2
        unanswered := fun hlookup => hold.unanswered (herased hlookup).2
        token := fun {id'} hlookup => by
          obtain ⟨hid, hlookup⟩ := herased hlookup
          have hperm := hsame id' hid
          rcases hold.token hlookup with ⟨hone', hne⟩ | ⟨hempty, hover⟩
          · rw [hone', List.perm_singleton] at hperm
            exact Or.inl ⟨hperm, hne⟩
          · rw [hempty, List.perm_nil] at hperm
            exact Or.inr ⟨hperm, hover⟩ }
  · by_cases hid : id' = id
    · exact hid ▸ hnil
    · have hlookup : lookup id' (eraseID id s.table) = none := hfree
      rw [lookup_eraseID, if_neg hid] at hlookup
      have hperm := hsame id' hid
      rwa [h.free id' hlookup, List.perm_nil] at hperm

/-- Reading a frame that decides nothing. -/
theorem underWay_read_eq {s : Session} {frame : ToGateway} {frames : List ToGateway}
    (hread : s.toGateway = frame :: frames) (hframe : ∀ id, finalOf id frame = none) (id : Nat) :
    (underWay { s with toGateway := frames } id).Perm (underWay s id) := by
  have hperm : (underWay s id).Perm _ := underWay_read hread
  rw [hframe id] at hperm
  exact hperm.symm

theorem underWay_emit_forward (s : Session) (id id' : Nat) (wire : Wire) :
    underWay (s.emit (.forward id' wire)) id = underWay s id := by
  simp [underWay, emit, finalOf]

/-- A decided query goes from its task to its final frame. -/
theorem underWay_finish {s : Session} {id k : Nat} {phase : Phase}
    (htask : s.tasks id = some ⟨k, phase⟩) (computed : Nat → Option (Option Wire))
    (answer : Option Wire) (id' : Nat) :
    (underWay ({ s.setTask id none with computed := computed }.emit
      (match answer with
      | some wire => .answer id wire k
      | none => .drop id k)) id').Perm (underWay s id') := by
  have hframe : finalOf id' (match answer with
      | some wire => ToGateway.answer id wire k
      | none => .drop id k) = if id = id' then some k else none := by
    cases answer <;> rfl
  simp only [underWay, emit, List.filterMap_append, List.filterMap_cons, List.filterMap_nil, hframe]
  by_cases hid : id = id'
  · subst hid
    simp only [setTask, Function.update_self, htask, if_true, Option.toList_none,
      Option.toList_some,
      List.map_nil, List.map_cons, List.append_nil, List.append_assoc]
    exact (List.perm_append_comm).append_left _
  · simp [setTask, hid, Ne.symm hid]

theorem Tokens.not_stopped {s s' : Session} (h : Tokens s) {id : Nat} {task : Task}
    (htask : s.tasks id = some task) : s.stopped = true → ∀ id, s'.tasks id = none := by
  intro hstopped
  rw [h.stopped hstopped id] at htask
  cases htask

theorem Tokens.effect {s s' : Session} {e : Event} (h : Tokens s)
    (heffect : Effect s e s') : Tokens s' := by
  cases heffect with
  | refused k err hpc =>
      refine h.move rfl rfl (fun _ => .refl _) (fun h => h) rfl rfl fun hentry => ?_
      exact hentry.move rfl (fun h => h) (by simp) (by simp) (by simp) (Or.inl (by simp [hpc]))
  | registered k id hpc hfree => exact h.register hpc hfree
  | queryLost k hpc =>
      refine h.move rfl rfl (fun _ => .refl _) (fun _ => Or.inl rfl) rfl rfl fun hentry => ?_
      exact hentry.move rfl (fun h => h) (by simp) (by simp) (by simp) (Or.inr (Or.inl rfl))
  | querySent k hpc => exact h.sendQuery hpc
  | picked k wire hpc | forwarded k wire _ hpc | answered k wire hpc =>
      refine h.move rfl rfl (fun _ => .refl _) (fun h => h) rfl rfl fun hentry => ?_
      exact hentry.move rfl (fun h => h) (by simp) (by simp) (by simp) (Or.inl (by simp [hpc]))
  | replyLost k reply hpc =>
      refine h.move rfl rfl (fun _ => .refl _) (fun _ => Or.inl rfl) rfl rfl fun hentry => ?_
      exact hentry.delivered (by simp [hpc])
  | replySent k reply hpc =>
      refine h.move rfl rfl (fun id => .of_eq (underWay_push_reply _ id _ reply)) (fun h => h)
        rfl rfl fun hentry => ?_
      exact hentry.move rfl (fun h => h) (by simp) (by simp) (by simp) (Or.inl (by simp [hpc]))
  | finalTaken k _ hpc | doneSeen k hpc =>
      refine h.move rfl rfl (fun _ => .refl _) (fun h => h) rfl rfl fun hentry => ?_
      exact hentry.delivered (by simp [hpc])
  | cancelled k hpc =>
      refine h.move rfl rfl (fun _ => .refl _) (fun h => h) rfl rfl fun hentry => ?_
      exact hentry.abandon (by simp [hpc])
  | emptyLost k hpc =>
      refine h.move rfl rfl (fun _ => .refl _) (fun _ => Or.inl rfl) rfl rfl fun hentry => ?_
      exact hentry.move rfl (fun h => h) (by simp) (by simp) (by simp) (Or.inl (by simp [hpc]))
  | emptySent k hpc =>
      refine h.move rfl rfl (fun id => .of_eq (underWay_push_reply _ id _ [])) (fun h => h)
        rfl rfl fun hentry => ?_
      exact hentry.move rfl (fun h => h) (by simp) (by simp) (by simp) (Or.inl (by simp [hpc]))
  | readyRead frames hread =>
      exact h.congr rfl (underWay_read_eq hread fun _ => rfl) (fun h => h) rfl h.stopped
        fun _ hentry => hentry
  | protocolError frame frames hread =>
      refine h.lose rfl rfl (fun id => ?_) (Or.inl (Or.inl rfl)) h.stopped
      simp only [underWay, hread]
      exact ((List.sublist_cons_self _ _).filterMap _).append_left _
  | forwardIgnored id wire frames hread | forwardRepeated id _ wire frames hread =>
      exact h.congr rfl (underWay_read_eq hread fun _ => rfl) (fun h => h) rfl h.stopped
        fun _ hentry => hentry
  | forwardRefused id k wire frames hread howed hentry
  | forwardDelivered id k wire frames hread howed hentry =>
      refine h.move rfl rfl (underWay_read_eq hread fun _ => rfl) (fun h => h) rfl rfl
        fun hold => ?_
      exact { hold with fresh := fun hpc => absurd hpc ((h.entry k).idle hentry) }
  | finalIgnored id frame frames hread hfree hframe =>
      have hfinal : ∀ id' k, finalOf id' frame = some k → id' = id := by
        intro id' k hk
        rcases hframe with ⟨wire, k', rfl⟩ | ⟨k', rfl⟩ <;>
          simp only [finalOf, Option.ite_none_right_eq_some] at hk <;> exact hk.1.symm
      have hnone : ∀ id', finalOf id' frame = none := by
        intro id'
        cases hk : finalOf id' frame with
        | none => rfl
        | some k =>
            obtain rfl := hfinal id' k hk
            have hmem := mem_underWay_of_final (hread ▸ List.mem_cons_self) hk
            rw [h.free id' hfree] at hmem
            cases hmem
      exact h.congr rfl (underWay_read_eq hread hnone) (fun h => h) rfl h.stopped
        fun _ hentry => hentry
  | settled id k answer frame frames hread hentry hfinal hframe =>
      refine h.settle answer hread hentry ?_
      rcases hframe with ⟨wire, k', rfl, _⟩ | ⟨k', rfl, _⟩ <;> exact ⟨k', by simp [finalOf]⟩
  | owedLost id k howed =>
      exact h.congr rfl (fun _ => .refl _) (fun _ => Or.inl rfl) rfl h.stopped
        fun _ hentry => hentry
  | owedSent id k howed =>
      refine h.move rfl rfl (fun id' => .of_eq (underWay_push_reply _ id' id [])) (fun h => h)
        rfl rfl fun hold => ?_
      exact { hold with }
  | failed =>
      exact h.congr rfl (fun _ => .refl _) (fun _ => Or.inl rfl) rfl h.stopped
        fun _ hentry => hentry
  | closed =>
      exact h.congr rfl (fun _ => .refl _) (fun _ => Or.inr rfl) rfl h.stopped
        fun _ hentry => hentry
  | retired | drained | drainedAgain =>
      exact h.congr rfl (fun _ => .refl _) (fun h => h) rfl h.stopped fun _ hentry => hentry
  | queryReceived id k frames hreceive hup htask =>
      refine h.congr rfl (fun id' => ?_) (fun h => h) rfl ?_ fun _ hentry => hentry
      · rw [underWay_receive hreceive]
        by_cases hid : id' = id
        · subst hid
          simp only [underWay, setTask, Function.update_self, queryOf, htask]
          simp only [Option.toList_some, Option.toList_none, List.map_cons, List.map_nil,
            List.append_nil, List.singleton_append, List.append_assoc]
          exact List.perm_middle
        · simp [underWay, setTask, queryOf, hid, Ne.symm hid]
      · intro hstopped
        exact absurd hstopped (by simp [setTask, hup])
  | queryRejected id k task frames hreceive htask =>
      refine h.lose rfl rfl (fun id' => ?_) (Or.inr rfl) fun _ _ => rfl
      simp only [underWay, hreceive, Option.toList_none, List.map_nil, List.append_nil,
        List.append_assoc]
      exact ((List.sublist_cons_self _ _).filterMap _).append
        (List.sublist_append_right _ _)
  | replyReceived id k payload frames hreceive htask =>
      refine h.congr rfl (fun id' => ?_) (fun h => h) rfl (h.not_stopped htask)
        fun _ hentry => hentry
      have hreply : underWay s id' = underWay { s with toDecider := frames } id' :=
        underWay_receive hreceive
      rw [hreply]
      exact .of_eq (underWay_setTask { s with toDecider := frames } .resumed htask rfl id')
  | replyIgnored id payload frames hreceive htask =>
      refine h.congr rfl (fun id' => ?_) (fun h => h) rfl h.stopped fun _ hentry => hentry
      have hrest : underWay s id' = _ := underWay_receive hreceive
      exact .of_eq hrest.symm
  | forwardSent id k wire htask =>
      refine h.congr rfl (fun id' => ?_) (fun h => h) rfl (h.not_stopped htask)
        fun _ hentry => hentry
      rw [underWay_emit_forward]
      exact .of_eq (underWay_setTask s .waiting htask rfl id')
  | timedOut id k htask | continued id k htask =>
      refine h.congr rfl (fun id' => ?_) (fun h => h) rfl (h.not_stopped htask)
        fun _ hentry => hentry
      exact .of_eq (underWay_setTask s .deciding htask rfl id')
  | finished id k answer htask =>
      refine h.congr rfl (fun id' => ?_) (fun h => h) rfl (h.not_stopped htask)
        fun _ hentry => hentry
      exact underWay_finish htask _ answer id'
  | stopped =>
      refine h.lose rfl rfl (fun id => ?_) (Or.inr rfl) fun _ _ => rfl
      simp only [underWay, Option.toList_none, List.map_nil, List.append_nil]
      exact (List.sublist_append_left _ _).append_right _

/-! ### Answers -/

/-- What a final frame decides. -/
def decision : ToGateway → Option Wire
  | .answer _ wire _ => some wire
  | _ => none

/-- Whatever reached a call is what the decider computed for its query. -/
structure Answered (computed : Nat → Option (Option Wire)) (k : Nat) (c : Call) : Prop where
  final : ∀ {answer}, c.final = some answer → computed k = some answer
  returned : ∀ {answer}, c.pc = .returned (.ok answer) → computed k = some answer

structure Answers (s : Session) : Prop where
  frame : ∀ {frame id k}, frame ∈ s.toGateway → finalOf id frame = some k →
    s.computed k = some (decision frame)
  call : ∀ k, Answered s.computed k (s.calls k)

theorem Answered.delivered {computed : Nat → Option (Option Wire)} {k : Nat} {c : Call}
    (h : Answered computed k c) : Answered computed k c.delivered := by
  rcases delivered_cases c with ⟨hfinal, hc⟩ | ⟨answer, hfinal, hc⟩
  · rw [hc]
    exact { final := h.final, returned := by simp }
  · rw [hc]
    refine { final := by simp, returned := fun hpc => ?_ }
    simp only [Pc.returned.injEq, Except.ok.injEq] at hpc
    exact h.final (hpc ▸ hfinal)

theorem Answered.abandon {computed : Nat → Option (Option Wire)} {k : Nat} {c : Call}
    (h : Answered computed k c) : Answered computed k c.abandon := by
  unfold Call.abandon
  split <;> exact { final := h.final, returned := by simp }

theorem forall_update {P : Nat → Call → Prop} {calls : Nat → Call} (h : ∀ k, P k (calls k))
    {k : Nat} {c : Call} (hc : P k c) (k' : Nat) : P k' (Function.update calls k c k') := by
  by_cases hk : k' = k
  · subst hk
    rwa [Function.update_self]
  · rw [Function.update_of_ne hk]
    exact h k'

/-- No new final frame, nothing newly computed. -/
theorem Answers.congr {s s' : Session} (h : Answers s) (hcomputed : s'.computed = s.computed)
    (hframes : ∀ frame ∈ s'.toGateway, frame ∈ s.toGateway)
    (hcalls : ∀ k, Answered s.computed k (s'.calls k)) : Answers s' where
  frame hmem hframe := hcomputed ▸ h.frame (hframes _ hmem) hframe
  call k := hcomputed ▸ hcalls k

/-- A query is decided once: nothing of it is known before. -/
theorem Answers.finish {s : Session} (h : Answers s) (htokens : Tokens s) {id k : Nat}
    {phase : Phase} (htask : s.tasks id = some ⟨k, phase⟩) (answer : Option Wire) :
    Answers ({ s.setTask id none with
      computed := Function.update s.computed k (some answer) }.emit
        (match answer with
        | some wire => .answer id wire k
        | none => .drop id k)) := by
  obtain ⟨hentry, hone⟩ := htokens.lookup_of_mem (mem_underWay_of_task htask)
  have hold := htokens.entry k
  have hother : ∀ {frame id' k'}, frame ∈ s.toGateway → finalOf id' frame = some k' → k' ≠ k := by
    rintro frame id' k' hmem hframe rfl
    have hentry' := (htokens.lookup_of_mem (mem_underWay_of_final hmem hframe)).1
    obtain rfl : id' = id := (hold.named hentry').symm.trans (hold.named hentry)
    have hlength := congrArg List.length hone
    have hfinals : 0 < (s.toGateway.filterMap (finalOf id')).length :=
      List.length_pos_of_mem (List.mem_filterMap.mpr ⟨frame, hmem, hframe⟩)
    simp only [underWay, htask, Option.toList_some, List.map_cons, List.map_nil,
      List.length_append, List.length_cons, List.length_nil] at hlength
    omega
  refine { frame := fun {frame id' k'} hmem hframe => ?_, call := fun k' => ?_ }
  · simp only [emit, List.mem_append, List.mem_singleton] at hmem
    rcases hmem with hmem | rfl
    · change Function.update s.computed k (some answer) k' = _
      rw [Function.update_of_ne (hother hmem hframe)]
      exact h.frame hmem hframe
    · change Function.update s.computed k (some answer) k' = _
      cases answer <;>
      · simp only [finalOf, Option.ite_none_right_eq_some, Option.some.injEq] at hframe
        rw [← hframe.2, Function.update_self]
        rfl
  · change Answered (Function.update s.computed k (some answer)) k' (s.calls k')
    by_cases hk : k' = k
    · subst hk
      refine { final := fun hfinal => ?_, returned := fun hpc => ?_ }
      · rw [hold.final hentry] at hfinal
        cases hfinal
      · exact absurd hpc (hold.unanswered hentry _)
    · have hcomputed : Function.update s.computed k (some answer) k' = s.computed k' :=
        Function.update_of_ne hk _ _
      exact {
        final := fun hfinal => hcomputed.trans ((h.call k').final hfinal)
        returned := fun hpc => hcomputed.trans ((h.call k').returned hpc) }

theorem Answers.effect {s s' : Session} {e : Event} (h : Answers s) (htokens : Tokens s)
    (heffect : Effect s e s') : Answers s' := by
  cases heffect with
  | refused k | registered k | queryLost k | querySent k | picked k | forwarded k | answered k
  | replySent k | emptyLost k | emptySent k =>
      refine h.congr rfl (fun _ hmem => hmem) (forall_update h.call ?_)
      exact { final := (h.call k).final, returned := by simp }
  | replyLost k | finalTaken k | doneSeen k =>
      exact h.congr rfl (fun _ hmem => hmem) (forall_update h.call (h.call k).delivered)
  | cancelled k =>
      exact h.congr rfl (fun _ hmem => hmem) (forall_update h.call (h.call k).abandon)
  | readyRead frames hread | protocolError _ frames hread | forwardIgnored _ _ frames hread
  | forwardRepeated _ _ _ frames hread | finalIgnored _ _ frames hread =>
      exact h.congr rfl (fun _ hmem => hread ▸ List.mem_cons_of_mem _ hmem) h.call
  | forwardRefused _ k _ frames hread | forwardDelivered _ k _ frames hread =>
      refine h.congr rfl (fun _ hmem => hread ▸ List.mem_cons_of_mem _ hmem)
        (forall_update h.call ?_)
      exact { final := (h.call k).final, returned := (h.call k).returned }
  | settled id k answer frame frames hread hentry hfinal hframe =>
      refine h.congr rfl (fun _ hmem => hread ▸ List.mem_cons_of_mem _ hmem)
        (forall_update h.call ?_)
      have hmem : frame ∈ s.toGateway := hread ▸ List.mem_cons_self
      have hdecided : ∃ k', finalOf id frame = some k' ∧ decision frame = answer := by
        rcases hframe with ⟨wire, k', rfl, rfl⟩ | ⟨k', rfl, rfl⟩ <;>
          exact ⟨k', by simp [finalOf], rfl⟩
      obtain ⟨k', hk', rfl⟩ := hdecided
      have hlookup := (htokens.lookup_of_mem (mem_underWay_of_final hmem hk')).1
      obtain rfl := Option.some.inj (hlookup.symm.trans hentry)
      refine { final := fun hanswer => ?_, returned := (h.call k').returned }
      exact Option.some.inj hanswer ▸ h.frame hmem hk'
  | owedSent _ k =>
      refine h.congr rfl (fun _ hmem => hmem) (forall_update h.call ?_)
      exact { final := (h.call k).final, returned := (h.call k).returned }
  | owedLost | failed | closed | retired | drained | drainedAgain | queryReceived | queryRejected
  | replyReceived | replyIgnored | timedOut | continued | stopped =>
      exact h.congr rfl (fun _ hmem => hmem) h.call
  | forwardSent id k wire =>
      refine { frame := fun {frame id' k'} hmem hframe => ?_, call := h.call }
      simp only [emit, setTask, List.mem_append, List.mem_singleton] at hmem
      rcases hmem with hmem | rfl
      · exact h.frame hmem hframe
      · cases hframe
  | finished id k answer htask => exact h.finish htokens htask answer

end PfBlockerNG.DecisionAgreement
