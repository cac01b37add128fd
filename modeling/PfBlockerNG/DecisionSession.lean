import PfBlockerNG.OrderedDict
import PfBlockerNG.Transitions
import Mathlib

/-!
One decision session between the gateway and a decider: Decide calls and the reader on the
gateway's side, a task for each query on the decider's, and one ordered stream each way.
The payload of a QUERY is named by the call it was built for.
-/

namespace PfBlockerNG.DecisionSession

open OrderedDict

abbrev Wire := List UInt8

def maxWire : Nat := 65535
def maxOutstanding : Nat := 4096

/-- Frames from the gateway. An empty payload of a REPLY says that Unbound gave none. -/
inductive ToDecider where
  | query (id call : Nat)
  | reply (id : Nat) (payload : Wire)
  deriving DecidableEq

/-- Frames from the decider. The call of a final frame names the query it decides; the gateway
does not read it. -/
inductive ToGateway where
  | ready
  | forward (id : Nat) (wire : Wire)
  | answer (id : Nat) (wire : Wire) (call : Nat)
  | drop (id call : Nat)
  deriving DecidableEq

inductive Err where
  | retired
  | busy
  | ended
  | cancelled
  deriving DecidableEq

/-- Where the goroutine of a Decide call is; `none` as an answer is a DROP. -/
inductive Pc where
  | idle
  | registered
  | selecting
  | running (request : Wire)
  | replied (reply : Wire)
  | sending (reply : Wire)
  | abandoning
  | returned (result : Except Err (Option Wire))

/-- A Decide call. `refused` counts the FORWARDs that found it abandoned or were left in its slot
by the abandonment, `emptied` the empty REPLYs sent for them. -/
structure Call where
  id : Nat := 0
  slot : Option Wire := none
  final : Option (Option Wire) := none
  busy : Bool := false
  abandoned : Bool := false
  pc : Pc := .idle
  refused : Nat := 0
  emptied : Nat := 0

namespace Call

/-- Hand a FORWARD to the call: whether it was abandoned, and the call after it. No result
means that the slot is full and the reader blocks. -/
def deliver (c : Call) (wire : Wire) : Option (Bool × Call) :=
  if c.abandoned then some (true, { c with refused := c.refused + 1 })
  else if c.busy then some (false, c)
  else
    match c.slot with
    | none => some (false, { c with busy := true, slot := some wire })
    | some _ => none

/-- Hand the call its final frame; no result means that the reader blocks. -/
def settle (c : Call) (answer : Option Wire) : Option Call :=
  match c.final with
  | none => some { c with final := some answer }
  | some _ => none

/-- Give the call up. A FORWARD never picked up still needs its empty REPLY. -/
def abandon (c : Call) : Call :=
  match c.slot with
  | some _ =>
      { c with abandoned := true, slot := none, pc := .abandoning, refused := c.refused + 1 }
  | none => { c with abandoned := true, pc := .returned (.error .cancelled) }

/-- Return the answer the decider already gave, else the session's end. -/
def delivered (c : Call) : Call :=
  match c.final with
  | some answer => { c with final := none, pc := .returned (.ok answer) }
  | none => { c with pc := .returned (.error .ended) }

end Call

/-- Where the decider's task for an id is: its `resolve` runs, waits on a FORWARD, or has had
its waiter completed and not resumed yet. -/
inductive Phase where
  | deciding
  | waiting
  | resumed
  deriving DecidableEq

structure Task where
  call : Nat
  phase : Phase

structure Session where
  calls : Nat → Call
  table : List (Nat × Nat)
  nextID : Nat
  retired : Bool
  /-- Closed or not, once `drained` was asked. -/
  idle : Option Bool
  ended : Bool
  closed : Bool
  reading : Bool
  readySeen : Bool
  /-- The id and the call of the empty REPLY the reader is about to send. -/
  owed : Option (Nat × Nat)
  toDecider : List ToDecider
  toGateway : List ToGateway
  stopped : Bool
  tasks : Nat → Option Task
  /-- What the decider computed for the query of each call. -/
  computed : Nat → Option (Option Wire)

/-- The decider has sent READY and nothing else has happened. -/
def initial : Session where
  calls _ := {}
  table := []
  nextID := 0
  retired := false
  idle := none
  ended := false
  closed := false
  reading := true
  readySeen := false
  owed := none
  toDecider := []
  toGateway := [.ready]
  stopped := false
  tasks _ := none
  computed _ := none

inductive Event where
  | decide (k : Nat)
  | sendQuery (k : Nat) (written : Bool)
  | pick (k : Nat)
  | forwarded (k : Nat) (reply : Wire)
  | answered (k : Nat)
  | sendReply (k : Nat) (written : Bool)
  | takeFinal (k : Nat)
  | cancel (k : Nat)
  | sendEmpty (k : Nat) (written : Bool)
  | done (k : Nat)
  | read
  | sendOwed (written : Bool)
  | fail
  | close
  | markRetired
  | drained
  | receive
  | forward (id : Nat) (wire : Wire)
  | timeout (id : Nat)
  | resume (id : Nat)
  | finish (id : Nat) (answer : Option Wire)
  | stop
  deriving DecidableEq

namespace Session

def setCall (s : Session) (k : Nat) (c : Call) : Session :=
  { s with calls := Function.update s.calls k c }

def setTask (s : Session) (id : Nat) (task : Option Task) : Session :=
  { s with tasks := Function.update s.tasks id task }

def push (s : Session) (frame : ToDecider) : Session :=
  { s with toDecider := s.toDecider ++ [frame] }

def emit (s : Session) (frame : ToGateway) : Session :=
  { s with toGateway := s.toGateway ++ [frame] }

/-- End the session; the reader that finds a protocol error stops too. -/
def fail (s : Session) : Session := { s with ended := true }

def protocolError (s : Session) : Session := { s with ended := true, reading := false }

/-- The first id after the last one given that is not 0 and not held. -/
def freeID (table : List (Nat × Nat)) (nextID : Nat) : Option Nat :=
  ((List.range (table.length + 2)).map fun i => (nextID + 1 + i) % 2 ^ 32).find?
    fun id => id ≠ 0 && (lookup id table).isNone

/-- Reserve an id for the call, or say why not. -/
def register (s : Session) : Except Err Nat :=
  if s.retired then .error .retired
  else if s.ended then .error .ended
  else if maxOutstanding ≤ s.table.length then .error .busy
  else
    match freeID s.table s.nextID with
    | some id => .ok id
    | none => .error .busy

def eraseID (id : Nat) (table : List (Nat × Nat)) : List (Nat × Nat) :=
  table.filter fun entry => entry.1 ≠ id

/-- Close `idle` when the table is empty and `drained` was asked for. -/
def closeIdle (s : Session) : Session :=
  { s with idle := if s.table = [] then s.idle.map fun _ => true else s.idle }

/-- The final frame of an id: the call has it before it leaves the table. -/
def finish (s : Session) (id : Nat) (answer : Option Wire) : Option Session :=
  match lookup id s.table with
  | none => some s.closeIdle
  | some k =>
      ((s.calls k).settle answer).map fun c =>
        closeIdle { s.setCall k c with table := eraseID id s.table }

/-- One turn of the reader on a frame it has read. -/
def readFrame (s : Session) : ToGateway → Option Session
  | .ready => some (if s.readySeen then s.protocolError else { s with readySeen := true })
  | .forward id wire =>
      if maxWire < wire.length then some s.protocolError
      else
        match lookup id s.table with
        | none => some s
        | some k =>
            ((s.calls k).deliver wire).map fun (abandoned, c) =>
              { s.setCall k c with owed := if abandoned then some (id, k) else none }
  | .answer id wire _ =>
      if wire = [] ∨ maxWire < wire.length then some s.protocolError else s.finish id (some wire)
  | .drop id _ => s.finish id none

/-- The decider's read loop on one frame; an id it still holds ends the session. -/
def receiveFrame (s : Session) : ToDecider → Session
  | .query id k =>
      match s.tasks id with
      | none => s.setTask id (some ⟨k, .deciding⟩)
      | some _ => { s with stopped := true, tasks := fun _ => none }
  | .reply id _ =>
      match s.tasks id with
      | some ⟨k, .waiting⟩ => s.setTask id (some ⟨k, .resumed⟩)
      | _ => s

/-- One step of a goroutine, the reader, the decider or a task of it; a written frame needs an
open socket, a write that fails ends the session. -/
def step (s : Session) : Event → Option Session
  | .decide k =>
      match (s.calls k).pc with
      | .idle =>
          match s.register with
          | .error err => some (s.setCall k { s.calls k with pc := .returned (.error err) })
          | .ok id =>
              some { s.setCall k { s.calls k with id := id, pc := .registered } with
                table := (id, k) :: s.table
                nextID := id }
      | _ => none
  | .sendQuery k written =>
      match (s.calls k).pc with
      | .registered =>
          if !written then
            some (s.setCall k { s.calls k with pc := .returned (.error .ended) }).fail
          else if s.closed then none
          else some ((s.setCall k { s.calls k with pc := .selecting }).push
            (.query (s.calls k).id k))
      | _ => none
  | .pick k =>
      match (s.calls k).pc, (s.calls k).slot with
      | .selecting, some wire =>
          some (s.setCall k { s.calls k with slot := none, pc := .running wire })
      | _, _ => none
  | .forwarded k reply =>
      match (s.calls k).pc with
      | .running _ => some (s.setCall k { s.calls k with pc := .replied reply })
      | _ => none
  | .answered k =>
      match (s.calls k).pc with
      | .replied reply => some (s.setCall k { s.calls k with busy := false, pc := .sending reply })
      | _ => none
  | .sendReply k written =>
      match (s.calls k).pc with
      | .sending reply =>
          if !written then some (s.setCall k (s.calls k).delivered).fail
          else if s.closed then none
          else some ((s.setCall k { s.calls k with pc := .selecting }).push
            (.reply (s.calls k).id reply))
      | _ => none
  | .takeFinal k =>
      match (s.calls k).pc, (s.calls k).final with
      | .selecting, some _ => some (s.setCall k (s.calls k).delivered)
      | _, _ => none
  | .cancel k =>
      match (s.calls k).pc with
      | .selecting => some (s.setCall k (s.calls k).abandon)
      | _ => none
  | .sendEmpty k written =>
      match (s.calls k).pc with
      | .abandoning =>
          if !written then
            some (s.setCall k { s.calls k with pc := .returned (.error .cancelled) }).fail
          else if s.closed then none
          else some ((s.setCall k { s.calls k with
            pc := .returned (.error .cancelled), emptied := (s.calls k).emptied + 1 }).push
              (.reply (s.calls k).id []))
      | _ => none
  | .done k =>
      match (s.calls k).pc with
      | .selecting => if s.ended then some (s.setCall k (s.calls k).delivered) else none
      | _ => none
  | .read =>
      match s.reading, s.owed, s.toGateway with
      | true, none, frame :: frames => { s with toGateway := frames }.readFrame frame
      | _, _, _ => none
  | .sendOwed written =>
      match s.owed with
      | some (id, k) =>
          if !written then some { s.fail with owed := none }
          else if s.closed then none
          else some { (s.setCall k { s.calls k with emptied := (s.calls k).emptied + 1 }).push
            (.reply id []) with owed := none }
      | none => none
  | .fail => some s.fail
  | .close => some { s with closed := true }
  | .markRetired => some { s with retired := true }
  | .drained =>
      match s.idle with
      | none => some { s with idle := some (s.table = []) }
      | some _ => some s
  | .receive =>
      match s.stopped, s.toDecider with
      | false, frame :: frames => some ({ s with toDecider := frames }.receiveFrame frame)
      | _, _ => none
  | .forward id wire =>
      match s.tasks id with
      | some ⟨k, .deciding⟩ => some ((s.setTask id (some ⟨k, .waiting⟩)).emit (.forward id wire))
      | _ => none
  | .timeout id =>
      match s.tasks id with
      | some ⟨k, .waiting⟩ => some (s.setTask id (some ⟨k, .deciding⟩))
      | _ => none
  | .resume id =>
      match s.tasks id with
      | some ⟨k, .resumed⟩ => some (s.setTask id (some ⟨k, .deciding⟩))
      | _ => none
  | .finish id answer =>
      match s.tasks id with
      | some ⟨k, .deciding⟩ =>
          some ({ s.setTask id none with
            computed := Function.update s.computed k (some answer) }.emit
              (match answer with
              | some wire => .answer id wire k
              | none => .drop id k))
      | _ => none
  | .stop => some { s with stopped := true, tasks := fun _ => none }

end Session

end PfBlockerNG.DecisionSession
