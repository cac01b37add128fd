import PfBlockerNG.ByteStrings
import PfBlockerNG.Transitions
import Mathlib.Logic.Function.Basic

/-!
The pooled TCP connections of one client to the resolver: the code of `tcpPool.exchange` and
`tcpUpstream.exchange` as steps of any number of concurrent exchanges, over connections whose
other end a server answers.
-/

namespace PfBlockerNG.UpstreamPool

open PfBlockerNG.ByteStrings
open PfBlockerNG.Transitions

/-- A message after its length, as TCP carries it. -/
def frame (message : Bytes) : Bytes := toOctets 2 message.length ++ message

/-- A query that fits one frame. -/
structure Query where
  wire : Bytes
  fits : wire.length < 256 ^ 2

inductive Err where
  | eof
  | unexpectedEof
  | connReset
  | brokenPipe
  | deadline
  | timeout
  | mismatchedId
  | other
  deriving DecidableEq, Repr

/-- `reusedTCPLost`. -/
def reusedTcpLost : Err → Bool
  | .eof | .unexpectedEof | .connReset | .brokenPipe => true
  | .deadline | .timeout | .mismatchedId | .other => false

/-- What `io.ReadFull` makes of an error after `n` bytes. -/
def readFullErr (n : Nat) : Err → Err
  | .eof => if n = 0 then .eof else .unexpectedEof
  | err => err

/-- Both ends of one TCP connection. `asked` are the exchanges that wrote to it, with their
queries; the server answers what it `received` in order, from number `next` on. -/
structure Conn where
  isOpen : Bool := true
  toServer : Bytes := []
  greeted : Bool := false
  asked : List (Nat × Bytes) := []
  received : List Bytes := []
  next : Nat := 0
  answers : List (Nat × Bytes) := []
  toClient : Bytes := []

/-- Where an exchange stands: before the lock of the pool, at the head of the loop of
`tcpUpstream.exchange` with turns left, in `try`, back in `tcpPool.exchange`, or done. Connections
are named by their number. -/
inductive Phase where
  | entered
  | attempt (left : Nat) (conn : Option Nat)
  | sending (left : Nat) (reused : Bool) (conn : Nat)
  | reading (left : Nat) (reused : Bool) (conn : Nat) (got : Bytes)
  | settled (conn : Option Nat) (reply : Option Bytes)
  | returned (reply : Option Bytes)

/-- The connection an exchange has to itself. -/
def Phase.holds : Phase → Option Nat
  | .attempt _ conn => conn
  | .sending _ _ conn => some conn
  | .reading _ _ conn _ => some conn
  | .settled conn _ => conn
  | .entered | .returned _ => none

/-- The connection that `try` is on. -/
def Phase.tries : Phase → Option Nat
  | .sending _ _ conn => some conn
  | .reading _ _ conn _ => some conn
  | .entered | .attempt _ _ | .settled _ _ | .returned _ => none

/-- The reply an exchange ends with. -/
def Phase.reply : Phase → Option Bytes
  | .settled _ reply | .returned reply => reply
  | .entered | .attempt _ _ | .sending _ _ _ | .reading _ _ _ _ => none

/-- A call of `tcpPool.exchange`; `alive` while its context is. -/
structure Exchange where
  query : Query
  alive : Bool := true
  phase : Phase := .entered

structure State where
  idle : List Nat := []
  dialled : Nat := 0
  conn : Nat → Conn := fun _ => {}
  exchange : Nat → Option Exchange := fun _ => none

namespace State

def withPhase (s : State) (e : Nat) (x : Exchange) (phase : Phase) : State :=
  { s with exchange := Function.update s.exchange e (some { x with phase := phase }) }

def withConn (s : State) (c : Nat) (conn : Conn) : State :=
  { s with conn := Function.update s.conn c conn }

end State

/-- Steps of the gateway, of the network and of the server. -/
inductive Event where
  | call (e : Nat) (query : Query)
  | cancel (e : Nat)
  | take (e : Nat)
  | start (e : Nat)
  | dial (e : Nat) (failure : Option Err)
  | write (e : Nat) (sent : Nat) (failure : Option Err)
  | read (e : Nat) (n : Nat)
  | readError (e : Nat) (err : Err)
  | put (e : Nat)
  | close
  | greet (c : Nat)
  | receive (c : Nat)
  | answer (c : Nat) (k : Nat) (reply : Bytes)

section Client

/-- A failed `try`: the connection is closed, and a lost reused one is dialled once more. -/
def failed (s : State) (e : Nat) (x : Exchange) (left : Nat) (reused : Bool) (c : Nat) (conn : Conn)
    (err : Err) : State :=
  (s.withConn c { conn with isOpen := false }).withPhase e x
    (if !reused || !x.alive || !reusedTcpLost err then .settled none none else .attempt left none)

/-- `p.idle` when the lock is held: the top connection, or a new upstream. -/
def take (s : State) (e : Nat) (x : Exchange) : State :=
  { s with idle := s.idle.dropLast }.withPhase e x (.attempt 2 s.idle.getLast?)

/-- The dial of `try`. -/
def dial (s : State) (e : Nat) (x : Exchange) (left : Nat) : Option Err → State
  | some _ => s.withPhase e x (.settled none none)
  | none => ({ s with dialled := s.dialled + 1 }.withConn s.dialled {}).withPhase e x
      (.sending left false s.dialled)

/-- What `try` writes: the header goes out once, in front of the first query. -/
def outgoing (header : Bytes) (x : Exchange) (reused : Bool) : Bytes :=
  (if reused then [] else header) ++ frame x.query.wire

def write (header : Bytes) (s : State) (e : Nat) (x : Exchange) (left : Nat) (reused : Bool)
    (c sent : Nat) (failure : Option Err) : State :=
  let conn := s.conn c
  let asked := conn.asked ++ [(e, x.query.wire)]
  let message := outgoing header x reused
  match failure with
  | none =>
      (s.withConn c
        { conn with toServer := conn.toServer ++ message, asked := asked }).withPhase e x
        (.reading left reused c [])
  | some err => failed s e x left reused c
      { conn with toServer := conn.toServer ++ message.take sent, asked := asked } err

/-- Bytes the two `io.ReadFull` calls still want. -/
def wanted (got : Bytes) : Nat :=
  if got.length < 2 then 2 - got.length else 2 + ofOctets (got.take 2) - got.length

def sameId (wire reply : Bytes) : Bool :=
  2 ≤ wire.length && 2 ≤ reply.length && wire.take 2 == reply.take 2

/-- More bytes of the reply, and the check of its id when it is whole. -/
def read (s : State) (e : Nat) (x : Exchange) (left : Nat) (reused : Bool) (c : Nat) (got : Bytes)
    (n : Nat) : State :=
  let conn := s.conn c
  let got := got ++ conn.toClient.take n
  let conn := { conn with toClient := conn.toClient.drop n }
  if got.length < 2 ∨ 0 < wanted got then
    (s.withConn c conn).withPhase e x (.reading left reused c got)
  else if sameId x.query.wire (got.drop 2) then
    (s.withConn c conn).withPhase e x (.settled (some c) (some (got.drop 2)))
  else failed s e x left reused c conn .mismatchedId

/-- The end of `tcpPool.exchange`: a connection that is still there goes back to the pool. -/
def put (s : State) (e : Nat) (x : Exchange) (conn : Option Nat) (reply : Option Bytes) : State :=
  { s with idle := s.idle ++ conn.toList }.withPhase e x (.returned reply)

/-- `tcpPool.close`. -/
def closeIdle (s : State) : State :=
  { s with
    idle := []
    conn := fun c => if c ∈ s.idle then { s.conn c with isOpen := false } else s.conn c }

end Client

section Server

/-- The PROXY header is taken off the stream. -/
def greet (header : Bytes) (conn : Conn) : Option Conn :=
  if conn.greeted = false ∧ header <+: conn.toServer then
    some { conn with greeted := true, toServer := conn.toServer.drop header.length }
  else none

/-- One framed query is taken off the stream. -/
def receive (conn : Conn) : Option Conn :=
  let length := ofOctets (conn.toServer.take 2)
  if conn.greeted = true ∧ 2 + length ≤ conn.toServer.length ∧ 2 ≤ conn.toServer.length then
    some { conn with
      received := conn.received ++ [(conn.toServer.drop 2).take length]
      toServer := conn.toServer.drop (2 + length) }
  else none

/-- Query `k` is answered: at most once, and not after a later one. -/
def answer (conn : Conn) (k : Nat) (reply : Bytes) : Option Conn :=
  if conn.next ≤ k ∧ k < conn.received.length ∧ reply.length < 256 ^ 2 then
    some { conn with
      next := k + 1
      answers := conn.answers ++ [(k, reply)]
      toClient := conn.toClient ++ frame reply }
  else none

/-- The server acts on connections that were dialled. -/
def serve (s : State) (c : Nat) (conn : Option Conn) : Option State :=
  if c < s.dialled then conn.map (s.withConn c) else none

end Server

/-- One step; none when it is not enabled. -/
def step (header : Bytes) (s : State) : Event → Option State
  | .call e query =>
      match s.exchange e with
      | none => some { s with exchange := Function.update s.exchange e (some { query := query }) }
      | some _ => none
  | .cancel e =>
      (s.exchange e).map fun x =>
        { s with exchange := Function.update s.exchange e (some { x with alive := false }) }
  | .take e =>
      (s.exchange e).bind fun x =>
        match x.phase with
        | .entered => some (take s e x)
        | _ => none
  | .start e =>
      (s.exchange e).bind fun x =>
        match x.phase with
        | .attempt 0 conn => some (s.withPhase e x (.settled conn none))
        | .attempt (left + 1) (some c) => some (s.withPhase e x (.sending left true c))
        | _ => none
  | .dial e failure =>
      (s.exchange e).bind fun x =>
        match x.phase with
        | .attempt (left + 1) none => some (dial s e x left failure)
        | _ => none
  | .write e sent failure =>
      (s.exchange e).bind fun x =>
        match x.phase with
        | .sending left reused c => some (write header s e x left reused c sent failure)
        | _ => none
  | .read e n =>
      (s.exchange e).bind fun x =>
        match x.phase with
        | .reading left reused c got =>
            if 0 < n ∧ n ≤ wanted got ∧ n ≤ (s.conn c).toClient.length then
              some (read s e x left reused c got n)
            else none
        | _ => none
  | .readError e err =>
      (s.exchange e).bind fun x =>
        match x.phase with
        | .reading left reused c got =>
            let full := if got.length < 2 then got.length else got.length - 2
            some (failed s e x left reused c (s.conn c) (readFullErr full err))
        | _ => none
  | .put e =>
      (s.exchange e).bind fun x =>
        match x.phase with
        | .settled conn reply => some (put s e x conn reply)
        | _ => none
  | .close => some (closeIdle s)
  | .greet c => serve s c (greet header (s.conn c))
  | .receive c => serve s c (receive (s.conn c))
  | .answer c k reply => serve s c (answer (s.conn c) k reply)

/-! ### Frames -/

theorem take_frame {message : Bytes} (h : message.length < 256 ^ 2) (rest : Bytes) :
    ofOctets ((frame message ++ rest).take 2) = message.length := by
  have htake : (frame message ++ rest).take 2 = toOctets 2 message.length := by
    rw [frame, List.append_assoc, List.take_left' (toOctets_length _ _)]
  rw [htake, ofOctets_toOctets h]

theorem drop_frame (message rest : Bytes) : (frame message ++ rest).drop 2 = message ++ rest := by
  rw [frame, List.append_assoc, List.drop_left' (toOctets_length _ _)]

theorem length_frame (message : Bytes) : (frame message).length = 2 + message.length := by
  rw [frame, List.length_append, toOctets_length]

/-- The prefix of a frame that wants nothing more is the frame. -/
theorem eq_frame_of_wanted {message got rest : Bytes} (hfits : message.length < 256 ^ 2)
    (h : got ++ rest = frame message) (hlength : 2 ≤ got.length) (hwanted : wanted got = 0) :
    got = frame message ∧ rest = [] := by
  have hsize : ofOctets (got.take 2) = message.length := by
    rw [← take_frame hfits [], List.append_nil, ← h, List.take_append_of_le_length hlength]
  rw [wanted, if_neg (by omega), hsize] at hwanted
  have htotal := congrArg List.length h
  rw [List.length_append, length_frame] at htotal
  have hrest : rest = [] := List.eq_nil_of_length_eq_zero (by omega)
  rw [hrest, List.append_nil] at h
  exact ⟨h, hrest⟩

/-! ### What a connection can be between two steps -/

/-- Nothing is on its way, and every query has been dealt with. -/
structure Quiet (conn : Conn) : Prop where
  isOpen : conn.isOpen = true
  toServer : conn.toServer = []
  greeted : conn.greeted = true
  received : conn.received = conn.asked.map Prod.snd
  next : conn.next = conn.received.length
  toClient : conn.toClient = []

/-- Just dialled. -/
structure New (header : Bytes) (conn : Conn) : Prop where
  isOpen : conn.isOpen = true
  toServer : conn.toServer = []
  greeted : conn.greeted = true → header = []
  asked : conn.asked = []
  received : conn.received = []
  next : conn.next = 0
  toClient : conn.toClient = []

/-- How far the one open query of a connection is; `past` are those before it. -/
inductive Stage (header : Bytes) (wire : Bytes) (past : List Bytes) (got : Bytes) (conn : Conn) :
    Prop
  | sent : conn.received = past → conn.next = past.length →
      conn.toServer = (if conn.greeted then [] else header) ++ frame wire → conn.toClient = [] →
      got = [] → Stage header wire past got conn
  | arrived : conn.received = past ++ [wire] → conn.next = past.length → conn.greeted = true →
      conn.toServer = [] → conn.toClient = [] → got = [] → Stage header wire past got conn
  | replied (reply : Bytes) : conn.received = past ++ [wire] → conn.next = past.length + 1 →
      conn.greeted = true → conn.toServer = [] → reply.length < 256 ^ 2 →
      got ++ conn.toClient = frame reply → (past.length, reply) ∈ conn.answers →
      Stage header wire past got conn

/-- Exchange `e` waits on the connection for the answer to its query, with `got` of it read. -/
structure Awaits (header : Bytes) (e : Nat) (wire got : Bytes) (conn : Conn) : Prop where
  isOpen : conn.isOpen = true
  asked : ∃ before, conn.asked = before ++ [(e, wire)] ∧
    Stage header wire (before.map Prod.snd) got conn

/-- The server gave `reply` to the query that exchange `e` wrote on the connection. -/
def Answers (conn : Conn) (e : Nat) (wire reply : Bytes) : Prop :=
  ∃ k, conn.asked[k]? = some (e, wire) ∧ conn.received[k]? = some wire ∧ (k, reply) ∈ conn.answers

/-- What is on record of a connection stays on record. -/
structure Grows (conn conn' : Conn) : Prop where
  asked : conn.asked <+: conn'.asked
  received : conn.received <+: conn'.received
  answers : conn.answers <+: conn'.answers
  closed : conn.isOpen = false → conn'.isOpen = false

namespace Grows

theorem refl (conn : Conn) : Grows conn conn :=
  ⟨List.prefix_rfl, List.prefix_rfl, List.prefix_rfl, id⟩

theorem answers_mono {conn conn' : Conn} (h : Grows conn conn') {e : Nat} {wire reply : Bytes}
    (ha : Answers conn e wire reply) : Answers conn' e wire reply := by
  obtain ⟨k, hasked, hreceived, hmem⟩ := ha
  refine ⟨k, ?_, ?_, h.answers.subset hmem⟩
  · obtain ⟨later, hlater⟩ := h.asked
    rw [← hlater, List.getElem?_append_left (List.getElem?_eq_some_iff.mp hasked).1]
    exact hasked
  · obtain ⟨later, hlater⟩ := h.received
    rw [← hlater, List.getElem?_append_left (List.getElem?_eq_some_iff.mp hreceived).1]
    exact hreceived

end Grows

section Server

variable {header wire got reply : Bytes} {conn conn' : Conn} {e k : Nat}

theorem greet_grows (h : greet header conn = some conn') : Grows conn conn' := by
  obtain ⟨-, rfl⟩ := Option.ite_none_right_eq_some.mp h |>.imp_right Option.some.inj
  exact ⟨List.prefix_rfl, List.prefix_rfl, List.prefix_rfl, id⟩

theorem receive_grows (h : receive conn = some conn') : Grows conn conn' := by
  obtain ⟨-, rfl⟩ := Option.ite_none_right_eq_some.mp h |>.imp_right Option.some.inj
  exact ⟨List.prefix_rfl, List.prefix_append _ _, List.prefix_rfl, id⟩

theorem answer_grows (h : answer conn k reply = some conn') : Grows conn conn' := by
  obtain ⟨-, rfl⟩ := Option.ite_none_right_eq_some.mp h |>.imp_right Option.some.inj
  exact ⟨List.prefix_rfl, List.prefix_rfl, List.prefix_append _ _, id⟩

/-- What the server may do next on a connection. -/
inductive Serves (header : Bytes) (conn conn' : Conn) : Prop
  | greet : greet header conn = some conn' → Serves header conn conn'
  | receive : receive conn = some conn' → Serves header conn conn'
  | answer (k : Nat) (reply : Bytes) : answer conn k reply = some conn' → Serves header conn conn'

theorem Serves.grows (h : Serves header conn conn') : Grows conn conn' := by
  cases h with
  | greet h => exact greet_grows h
  | receive h => exact receive_grows h
  | answer k reply h => exact answer_grows h

theorem Serves.asked (h : Serves header conn conn') : conn'.asked = conn.asked := by
  cases h with
  | greet h =>
      obtain ⟨-, rfl⟩ := Option.ite_none_right_eq_some.mp h |>.imp_right Option.some.inj
      rfl
  | receive h =>
      obtain ⟨-, rfl⟩ := Option.ite_none_right_eq_some.mp h |>.imp_right Option.some.inj
      rfl
  | answer k reply h =>
      obtain ⟨-, rfl⟩ := Option.ite_none_right_eq_some.mp h |>.imp_right Option.some.inj
      rfl

theorem Serves.not_quiet (h : Serves header conn conn') : ¬ Quiet conn := by
  intro hquiet
  cases h with
  | greet h =>
      have hguard := (Option.ite_none_right_eq_some.mp h).1
      exact absurd (hguard.1.symm.trans hquiet.greeted) (by decide)
  | receive h =>
      have hguard := (Option.ite_none_right_eq_some.mp h).1
      have hlength := hguard.2.2
      rw [hquiet.toServer] at hlength
      exact absurd hlength (by decide)
  | answer k reply h =>
      have hguard := (Option.ite_none_right_eq_some.mp h).1
      have hnext := hquiet.next
      omega

theorem Serves.new (h : Serves header conn conn') (hnew : New header conn) : New header conn' := by
  cases h with
  | greet h =>
      obtain ⟨⟨-, hbegins⟩, rfl⟩ := Option.ite_none_right_eq_some.mp h |>.imp_right Option.some.inj
      have hempty : header = [] := by
        rw [hnew.toServer] at hbegins
        exact List.prefix_nil.mp hbegins
      exact ⟨hnew.isOpen, by simp [hnew.toServer], fun _ => hempty, hnew.asked, hnew.received,
        hnew.next, hnew.toClient⟩
  | receive h =>
      have hguard := (Option.ite_none_right_eq_some.mp h).1
      have hlength := hguard.2.2
      rw [hnew.toServer] at hlength
      exact absurd hlength (by decide)
  | answer k reply h =>
      have hguard := (Option.ite_none_right_eq_some.mp h).1
      rw [hnew.received] at hguard
      exact absurd hguard.2.1 (Nat.not_lt_zero k)

/-- The server can only deal with the open query. -/
theorem Serves.awaits (h : Serves header conn conn') (hfits : wire.length < 256 ^ 2)
    (hawaits : Awaits header e wire got conn) : Awaits header e wire got conn' := by
  obtain ⟨hopen, before, hasked, hstage⟩ := hawaits
  cases h with
  | greet h =>
      obtain ⟨⟨hgreeted, hbegins⟩, rfl⟩ :=
        Option.ite_none_right_eq_some.mp h |>.imp_right Option.some.inj
      refine ⟨hopen, before, hasked, ?_⟩
      cases hstage with
      | sent hreceived hnext htoServer htoClient hgot =>
          refine .sent hreceived hnext ?_ htoClient hgot
          show conn.toServer.drop header.length = [] ++ frame wire
          rw [htoServer, hgreeted, if_neg Bool.false_ne_true, List.drop_left, List.nil_append]
      | arrived _ _ htrue => exact absurd (hgreeted.symm.trans htrue) (by decide)
      | replied _ _ _ htrue => exact absurd (hgreeted.symm.trans htrue) (by decide)
  | receive h =>
      obtain ⟨⟨hgreeted, -, hlength⟩, rfl⟩ :=
        Option.ite_none_right_eq_some.mp h |>.imp_right Option.some.inj
      refine ⟨hopen, before, hasked, ?_⟩
      cases hstage with
      | sent hreceived hnext htoServer htoClient hgot =>
          rw [hgreeted, if_pos rfl, List.nil_append] at htoServer
          have hsize : ofOctets (conn.toServer.take 2) = wire.length := by
            rw [htoServer, ← List.append_nil (frame wire), take_frame hfits]
          have hdrop : conn.toServer.drop 2 = wire := by
            rw [htoServer, ← List.append_nil (frame wire), drop_frame, List.append_nil]
          refine .arrived ?_ hnext hgreeted ?_ htoClient hgot
          · show conn.received ++ [(conn.toServer.drop 2).take _] = _
            rw [hsize, hdrop, List.take_length, hreceived]
          · show conn.toServer.drop (2 + ofOctets _) = []
            rw [hsize, htoServer, ← length_frame, List.drop_length]
      | arrived _ _ _ htoServer =>
          rw [htoServer] at hlength
          exact absurd hlength (by decide)
      | replied _ _ _ _ htoServer =>
          rw [htoServer] at hlength
          exact absurd hlength (by decide)
  | answer k reply h =>
      obtain ⟨⟨hle, hlt, hreply⟩, rfl⟩ :=
        Option.ite_none_right_eq_some.mp h |>.imp_right Option.some.inj
      refine ⟨hopen, before, hasked, ?_⟩
      cases hstage with
      | sent hreceived hnext =>
          rw [hreceived] at hlt
          omega
      | arrived hreceived hnext hgreeted htoServer htoClient hgot =>
          have hk : k = (before.map Prod.snd).length := by
            rw [hreceived, List.length_append, List.length_singleton] at hlt
            omega
          refine .replied reply hreceived (congrArg (· + 1) hk) hgreeted htoServer hreply ?_ ?_
          · show got ++ (conn.toClient ++ frame reply) = _
            rw [hgot, htoClient, List.nil_append, List.nil_append]
          · exact List.mem_append_right _ (List.mem_singleton.mpr (by rw [hk]))
      | replied _ hreceived hnext =>
          rw [hreceived, List.length_append, List.length_singleton] at hlt
          omega

end Server

/-! ### What a step does -/

/-- The steps by what they do, with the guards of `step` as premises. -/
inductive Moves (header : Bytes) (s : State) : State → Prop
  | call (e : Nat) (query : Query) : s.exchange e = none →
      Moves header s
        { s with exchange := Function.update s.exchange e (some { query := query }) }
  | cancel (e : Nat) (x : Exchange) : s.exchange e = some x →
      Moves header s
        { s with exchange := Function.update s.exchange e (some { x with alive := false }) }
  | take (e : Nat) (x : Exchange) : s.exchange e = some x → x.phase = .entered →
      Moves header s (take s e x)
  | spent (e : Nat) (x : Exchange) (conn : Option Nat) : s.exchange e = some x →
      x.phase = .attempt 0 conn → Moves header s (s.withPhase e x (.settled conn none))
  | reuse (e : Nat) (x : Exchange) (left c : Nat) : s.exchange e = some x →
      x.phase = .attempt (left + 1) (some c) →
      Moves header s (s.withPhase e x (.sending left true c))
  | dial (e : Nat) (x : Exchange) (left : Nat) (failure : Option Err) : s.exchange e = some x →
      x.phase = .attempt (left + 1) none → Moves header s (dial s e x left failure)
  | write (e : Nat) (x : Exchange) (left : Nat) (reused : Bool) (c sent : Nat)
      (failure : Option Err) : s.exchange e = some x → x.phase = .sending left reused c →
      Moves header s (write header s e x left reused c sent failure)
  | read (e : Nat) (x : Exchange) (left : Nat) (reused : Bool) (c : Nat) (got : Bytes) (n : Nat) :
      s.exchange e = some x → x.phase = .reading left reused c got → 0 < n →
      n ≤ (s.conn c).toClient.length → Moves header s (read s e x left reused c got n)
  | readError (e : Nat) (x : Exchange) (left : Nat) (reused : Bool) (c : Nat) (got : Bytes)
      (err : Err) : s.exchange e = some x → x.phase = .reading left reused c got →
      Moves header s (failed s e x left reused c (s.conn c) err)
  | put (e : Nat) (x : Exchange) (conn : Option Nat) (reply : Option Bytes) :
      s.exchange e = some x → x.phase = .settled conn reply → Moves header s (put s e x conn reply)
  | close : Moves header s (closeIdle s)
  | serve (c : Nat) (conn' : Conn) : c < s.dialled → Serves header (s.conn c) conn' →
      Moves header s (s.withConn c conn')

theorem serve_moves {header : Bytes} {s s' : State} {c : Nat} {conn : Option Conn}
    (hstep : serve s c conn = some s')
    (hserves : ∀ conn', conn = some conn' → Serves header (s.conn c) conn') :
    Moves header s s' := by
  obtain ⟨hlt, hmap⟩ := Option.ite_none_right_eq_some.mp hstep
  obtain ⟨conn', hconn, rfl⟩ := Option.map_eq_some_iff.mp hmap
  exact .serve c conn' hlt (hserves conn' hconn)

theorem step_moves {header : Bytes} {s s' : State} {event : Event}
    (hstep : step header s event = some s') : Moves header s s' := by
  cases event with
  | call e query =>
      simp only [step] at hstep
      split at hstep
      · next hnone => exact Option.some.inj hstep ▸ .call e query hnone
      · cases hstep
  | cancel e =>
      obtain ⟨x, hx, rfl⟩ := Option.map_eq_some_iff.mp hstep
      exact .cancel e x hx
  | take e =>
      obtain ⟨x, hx, hstep⟩ := Option.bind_eq_some_iff.mp hstep
      split at hstep
      · next hphase => exact Option.some.inj hstep ▸ .take e x hx hphase
      · cases hstep
  | start e =>
      obtain ⟨x, hx, hstep⟩ := Option.bind_eq_some_iff.mp hstep
      split at hstep
      · next conn hphase => exact Option.some.inj hstep ▸ .spent e x conn hx hphase
      · next left c hphase => exact Option.some.inj hstep ▸ .reuse e x left c hx hphase
      · cases hstep
  | dial e failure =>
      obtain ⟨x, hx, hstep⟩ := Option.bind_eq_some_iff.mp hstep
      split at hstep
      · next left hphase => exact Option.some.inj hstep ▸ .dial e x left failure hx hphase
      · cases hstep
  | write e sent failure =>
      obtain ⟨x, hx, hstep⟩ := Option.bind_eq_some_iff.mp hstep
      split at hstep
      · next left reused c hphase =>
          exact Option.some.inj hstep ▸ .write e x left reused c sent failure hx hphase
      · cases hstep
  | read e n =>
      obtain ⟨x, hx, hstep⟩ := Option.bind_eq_some_iff.mp hstep
      split at hstep
      · next left reused c got hphase =>
          obtain ⟨⟨hpos, -, hle⟩, hread⟩ := Option.ite_none_right_eq_some.mp hstep
          exact Option.some.inj hread ▸ .read e x left reused c got n hx hphase hpos hle
      · cases hstep
  | readError e err =>
      obtain ⟨x, hx, hstep⟩ := Option.bind_eq_some_iff.mp hstep
      split at hstep
      · next left reused c got hphase =>
          exact Option.some.inj hstep ▸ .readError e x left reused c got _ hx hphase
      · cases hstep
  | put e =>
      obtain ⟨x, hx, hstep⟩ := Option.bind_eq_some_iff.mp hstep
      split at hstep
      · next conn reply hphase => exact Option.some.inj hstep ▸ .put e x conn reply hx hphase
      · cases hstep
  | close => exact Option.some.inj hstep ▸ .close
  | greet c => exact serve_moves hstep fun _ => .greet
  | receive c => exact serve_moves hstep fun _ => .receive
  | answer c k reply => exact serve_moves hstep fun _ => .answer k reply

/-! ### The invariant of the pool -/

/-- What the connection of an exchange is in each phase. -/
def Fit (header : Bytes) (e : Nat) (x : Exchange) (conn : Conn) : Prop :=
  match x.phase with
  | .sending _ false _ => New header conn
  | .reading _ _ _ got => Awaits header e x.query.wire got conn
  | _ => Quiet conn

/-- Idle connections are quiet, and no two parties have one connection. -/
structure Inv (header : Bytes) (s : State) : Prop where
  nodup : s.idle.Nodup
  idle : ∀ c ∈ s.idle, c < s.dialled ∧ Quiet (s.conn c)
  held : ∀ e x c, s.exchange e = some x → x.phase.holds = some c →
    c < s.dialled ∧ c ∉ s.idle ∧ Fit header e x (s.conn c)
  apart : ∀ e e' x x' c, s.exchange e = some x → s.exchange e' = some x' →
    x.phase.holds = some c → x'.phase.holds = some c → e = e'
  replies : ∀ e x r, s.exchange e = some x → x.phase.reply = some r →
    ∃ c, Answers (s.conn c) e x.query.wire r
  fresh : ∀ c, s.dialled ≤ c → s.conn c = {}

theorem inv_initial (header : Bytes) : Inv header {} where
  nodup := List.nodup_nil
  idle _ h := absurd h List.not_mem_nil
  held _ _ _ h := by cases h
  apart _ _ _ _ _ h := by cases h
  replies _ _ _ h := by cases h
  fresh _ _ := rfl

section Steps

variable {header : Bytes} {s s' : State} {e : Nat}

/-- A step of one exchange: it touches its own connection, one of the pool or a new one. -/
theorem Inv.of_exchange (h : Inv header s) {x' : Exchange} (own : Option Nat)
    (hown : ∀ c, own = some c → ∃ x, s.exchange e = some x ∧ x.phase.holds = some c)
    (hexchange : s'.exchange = Function.update s.exchange e (some x'))
    (hgrows : ∀ c, Grows (s.conn c) (s'.conn c))
    (hothers : ∀ c, c < s.dialled → own ≠ some c → s'.conn c = s.conn c)
    (hdialled : s.dialled ≤ s'.dialled)
    (hfresh : ∀ c, s'.dialled ≤ c → s'.conn c = s.conn c) (hnodup : s'.idle.Nodup)
    (hidle : ∀ c ∈ s'.idle, (c ∈ s.idle ∨ own = some c) ∧ c < s'.dialled ∧ Quiet (s'.conn c))
    (hheld : ∀ c, x'.phase.holds = some c → (own = some c ∨ c ∈ s.idle ∨ s.dialled ≤ c) ∧
      c < s'.dialled ∧ c ∉ s'.idle ∧ Fit header e x' (s'.conn c))
    (hreply : ∀ r, x'.phase.reply = some r → ∃ c, Answers (s'.conn c) e x'.query.wire r) :
    Inv header s' := by
  have hother : ∀ {e' x}, e' ≠ e → s'.exchange e' = some x → s.exchange e' = some x := by
    intro e' x hne hx
    rwa [hexchange, Function.update_of_ne hne] at hx
  have hself : ∀ {x}, s'.exchange e = some x → x = x' := by
    intro x hx
    rw [hexchange, Function.update_self] at hx
    exact (Option.some.inj hx).symm
  have hnotOwn : ∀ {e' x c}, e' ≠ e → s.exchange e' = some x → x.phase.holds = some c →
      own ≠ some c := by
    intro e' x c hne hx hc hmine
    obtain ⟨y, hy, hholds⟩ := hown c hmine
    exact hne (h.apart e' e x y c hx hy hc hholds)
  have hclash : ∀ {e' x c}, e' ≠ e → s.exchange e' = some x → x.phase.holds = some c →
      x'.phase.holds ≠ some c := by
    intro e' x c hne hx hc hmine
    obtain ⟨hlt, hidle', -⟩ := h.held e' x c hx hc
    rcases (hheld c hmine).1 with heq | hmem | hle
    · exact hnotOwn hne hx hc heq
    · exact hidle' hmem
    · omega
  refine ⟨hnodup, fun c hc => (hidle c hc).2, ?_, ?_, ?_, ?_⟩
  · intro e' x c hx hc
    by_cases hne : e' = e
    · subst hne
      obtain rfl := hself hx
      exact (hheld c hc).2
    · have hold := hother hne hx
      obtain ⟨hlt, hnot, hfit⟩ := h.held e' x c hold hc
      have hmine := hnotOwn hne hold hc
      refine ⟨Nat.lt_of_lt_of_le hlt hdialled, fun hmem => ?_, ?_⟩
      · rcases (hidle c hmem).1 with hold' | heq
        · exact hnot hold'
        · exact hmine heq
      · rwa [hothers c hlt hmine]
  · intro e₁ e₂ x₁ x₂ c h₁ h₂ hc₁ hc₂
    by_cases hne₁ : e₁ = e
    · by_cases hne₂ : e₂ = e
      · rw [hne₁, hne₂]
      · subst hne₁
        obtain rfl := hself h₁
        exact absurd hc₁ (hclash hne₂ (hother hne₂ h₂) hc₂)
    · by_cases hne₂ : e₂ = e
      · subst hne₂
        obtain rfl := hself h₂
        exact absurd hc₂ (hclash hne₁ (hother hne₁ h₁) hc₁)
      · exact h.apart e₁ e₂ x₁ x₂ c (hother hne₁ h₁) (hother hne₂ h₂) hc₁ hc₂
  · intro e' x r hx hr
    by_cases hne : e' = e
    · subst hne
      obtain rfl := hself hx
      exact hreply r hr
    · obtain ⟨c, hc⟩ := h.replies e' x r (hother hne hx) hr
      exact ⟨c, (hgrows c).answers_mono hc⟩
  · intro c hc
    rw [hfresh c hc]
    exact h.fresh c (le_trans hdialled hc)

/-- A step of the server on one connection. -/
theorem Inv.of_server (h : Inv header s) {c : Nat} (hdialled : c < s.dialled) {conn' : Conn}
    (hserves : Serves header (s.conn c) conn') : Inv header (s.withConn c conn') := by
  have hconn : ∀ {c'}, c' ≠ c → (s.withConn c conn').conn c' = s.conn c' :=
    fun hne => Function.update_of_ne hne _ _
  have hself : (s.withConn c conn').conn c = conn' := Function.update_self _ _ _
  refine ⟨h.nodup, fun c' hc' => ?_, fun e x c' hx hc' => ?_, h.apart, fun e x r hx hr => ?_,
    fun c' hc' => ?_⟩
  · obtain ⟨hlt, hquiet⟩ := h.idle c' hc'
    have hne : c' ≠ c := by
      rintro rfl
      exact hserves.not_quiet hquiet
    exact ⟨hlt, (hconn hne).symm ▸ hquiet⟩
  · obtain ⟨hlt, hnot, hfit⟩ := h.held e x c' hx hc'
    refine ⟨hlt, hnot, ?_⟩
    by_cases hne : c' = c
    · subst hne
      rw [hself]
      unfold Fit at hfit ⊢
      split
      · next hphase =>
          rw [hphase] at hfit
          exact hserves.new hfit
      · next hphase =>
          rw [hphase] at hfit
          exact hserves.awaits x.query.fits hfit
      · exact absurd (by simpa using hfit) hserves.not_quiet
    · rwa [hconn hne]
  · obtain ⟨c', hc'⟩ := h.replies e x r hx hr
    refine ⟨c', ?_⟩
    by_cases hne : c' = c
    · subst hne
      rw [hself]
      exact hserves.grows.answers_mono hc'
    · rwa [hconn hne]
  · rw [hconn (Nat.ne_of_gt (Nat.lt_of_lt_of_le hdialled hc'))]
    exact h.fresh c' hc'

theorem Inv.closeIdle (h : Inv header s) : Inv header (closeIdle s) := by
  have hgrows : ∀ c, Grows (s.conn c) ((UpstreamPool.closeIdle s).conn c) := by
    intro c
    show Grows _ (if c ∈ s.idle then _ else _)
    split
    · exact ⟨List.prefix_rfl, List.prefix_rfl, List.prefix_rfl, fun _ => rfl⟩
    · exact Grows.refl _
  refine ⟨List.nodup_nil, fun c hc => absurd hc List.not_mem_nil, fun e x c hx hc => ?_, h.apart,
    fun e x r hx hr => ?_, fun c hc => ?_⟩
  · obtain ⟨hlt, hnot, hfit⟩ := h.held e x c hx hc
    refine ⟨hlt, List.not_mem_nil, ?_⟩
    show Fit header e x (if c ∈ s.idle then _ else _)
    rwa [if_neg hnot]
  · obtain ⟨c, hc⟩ := h.replies e x r hx hr
    exact ⟨c, (hgrows c).answers_mono hc⟩
  · show (if c ∈ s.idle then _ else _) = _
    rw [if_neg fun hmem => absurd (h.idle c hmem).1 (Nat.not_lt_of_le hc)]
    exact h.fresh c hc

variable {x : Exchange} {c left : Nat} {reused : Bool}

/-- A step of an exchange on the connection it has. -/
theorem Inv.of_own (h : Inv header s) (hx : s.exchange e = some x) (hc : x.phase.holds = some c)
    {conn' : Conn} {phase : Phase} (hgrows : Grows (s.conn c) conn')
    (hholds : ∀ c', phase.holds = some c' → c' = c ∧ Fit header e { x with phase := phase } conn')
    (hreply : ∀ r, phase.reply = some r → Answers conn' e x.query.wire r) :
    Inv header ((s.withConn c conn').withPhase e x phase) := by
  have hconn : ∀ {c'}, c' ≠ c → Function.update s.conn c conn' c' = s.conn c' :=
    fun hne => Function.update_of_ne hne _ _
  have hself : Function.update s.conn c conn' c = conn' := Function.update_self _ _ _
  obtain ⟨hlt, hnot, -⟩ := h.held e x c hx hc
  refine h.of_exchange (some c)
    (fun c' hc' => Option.some.inj hc' ▸ ⟨x, hx, hc⟩) rfl ?_ ?_ (le_refl _) ?_ h.nodup ?_ ?_ ?_
  · intro c'
    show Grows _ (Function.update s.conn c conn' c')
    by_cases hne : c' = c
    · rw [hne, hself]
      exact hgrows
    · rw [hconn hne]
      exact Grows.refl _
  · intro c' _ hne
    exact hconn fun heq => hne (congrArg some heq.symm)
  · intro c' hc'
    exact hconn (Nat.ne_of_gt (Nat.lt_of_lt_of_le hlt hc'))
  · intro c' hc'
    have hne : c' ≠ c := fun heq => hnot (heq ▸ hc')
    obtain ⟨hlt', hquiet⟩ := h.idle c' hc'
    refine ⟨Or.inl hc', hlt', ?_⟩
    show Quiet (Function.update s.conn c conn' c')
    rwa [hconn hne]
  · intro c' hc'
    obtain ⟨heq, hfit⟩ := hholds c' hc'
    rw [heq]
    refine ⟨Or.inl rfl, hlt, hnot, ?_⟩
    show Fit header e _ (Function.update s.conn c conn' c)
    rwa [hself]
  · intro r hr
    refine ⟨c, ?_⟩
    show Answers (Function.update s.conn c conn' c) e x.query.wire r
    rw [hself]
    exact hreply r hr

theorem Inv.failed (h : Inv header s) (hx : s.exchange e = some x) (hc : x.phase.holds = some c)
    {conn : Conn} (hgrows : Grows (s.conn c) conn) (err : Err) :
    Inv header (failed s e x left reused c conn err) := by
  refine h.of_own hx hc ⟨hgrows.asked, hgrows.received, hgrows.answers, fun _ => rfl⟩ ?_ ?_
  · intro c' hc'
    split at hc' <;> cases hc'
  · intro r hr
    split at hr <;> cases hr

theorem Inv.write (h : Inv header s) (hx : s.exchange e = some x)
    (hphase : x.phase = .sending left reused c) (sent : Nat) (failure : Option Err) :
    Inv header (write header s e x left reused c sent failure) := by
  have hc : x.phase.holds = some c := by
    rw [hphase]
    rfl
  obtain ⟨-, -, hfit⟩ := h.held e x c hx hc
  have hgrows : ∀ written, Grows (s.conn c)
      { s.conn c with
        toServer := written
        asked := (s.conn c).asked ++ [(e, x.query.wire)] } := fun _ =>
    ⟨List.prefix_append _ _, List.prefix_rfl, List.prefix_rfl, id⟩
  cases failure with
  | some err => exact h.failed hx hc (hgrows _) err
  | none =>
      refine h.of_own hx hc (hgrows _) ?_ ?_
      · rintro c' ⟨⟩
        refine ⟨rfl, ?_⟩
        unfold Fit at hfit
        rw [hphase] at hfit
        cases reused with
        | true =>
            refine ⟨hfit.isOpen, _, rfl, .sent hfit.received ?_ ?_ hfit.toClient rfl⟩
            · rw [← hfit.received]
              exact hfit.next
            · show (s.conn c).toServer ++ ([] ++ frame x.query.wire) = _
              rw [hfit.toServer, if_pos hfit.greeted]
              rfl
        | false =>
            refine ⟨hfit.isOpen, _, rfl, .sent ?_ ?_ ?_ hfit.toClient rfl⟩
            · rw [hfit.asked]
              exact hfit.received
            · rw [hfit.asked]
              exact hfit.next
            · show (s.conn c).toServer ++ (header ++ frame x.query.wire) =
                (if (s.conn c).greeted = true then [] else header) ++ frame x.query.wire
              rw [hfit.toServer, List.nil_append]
              split
              · next hgreeted => rw [hfit.greeted hgreeted]
              · rfl
      · rintro r ⟨⟩

/-- Bytes come in only once the query is answered, and a whole frame is that answer. -/
theorem Inv.read (h : Inv header s) (hx : s.exchange e = some x) {got : Bytes}
    (hphase : x.phase = .reading left reused c got) {n : Nat} (hpos : 0 < n)
    (hle : n ≤ (s.conn c).toClient.length) :
    Inv header (read s e x left reused c got n) := by
  have hc : x.phase.holds = some c := by
    rw [hphase]
    rfl
  obtain ⟨-, -, hfit⟩ := h.held e x c hx hc
  unfold Fit at hfit
  rw [hphase] at hfit
  obtain ⟨hopen, before, hasked, hstage⟩ := hfit
  have hgrows : Grows (s.conn c) { s.conn c with toClient := (s.conn c).toClient.drop n } :=
    ⟨List.prefix_rfl, List.prefix_rfl, List.prefix_rfl, id⟩
  cases hstage with
  | sent _ _ _ hempty =>
      rw [hempty] at hle
      exact absurd hpos (Nat.not_lt_of_le hle)
  | arrived _ _ _ _ hempty =>
      rw [hempty] at hle
      exact absurd hpos (Nat.not_lt_of_le hle)
  | replied reply hreceived hnext hgreeted htoServer hreply hframe hmem =>
      have hrest : (got ++ (s.conn c).toClient.take n) ++ (s.conn c).toClient.drop n =
          frame reply := by
        rw [List.append_assoc, List.take_append_drop, hframe]
      unfold UpstreamPool.read
      dsimp only
      split
      · refine h.of_own hx hc hgrows ?_ (by rintro r ⟨⟩)
        rintro c' ⟨⟩
        exact ⟨rfl, hopen, before, hasked,
          .replied reply hreceived hnext hgreeted htoServer hreply hrest hmem⟩
      next hwhole =>
      rw [not_or, Nat.not_lt, Nat.not_lt, Nat.le_zero] at hwhole
      obtain ⟨hgot, hdrained⟩ := eq_frame_of_wanted hreply hrest hwhole.1 hwhole.2
      have hbody : (got ++ (s.conn c).toClient.take n).drop 2 = reply := by
        rw [hgot, ← List.append_nil (frame reply), drop_frame, List.append_nil]
      split
      · refine h.of_own hx hc hgrows ?_ ?_
        · rintro c' ⟨⟩
          refine ⟨rfl, hopen, htoServer, hgreeted, ?_, ?_, hdrained⟩
          · show (s.conn c).received = (s.conn c).asked.map Prod.snd
            rw [hreceived, hasked, List.map_append]
            rfl
          · show (s.conn c).next = (s.conn c).received.length
            rw [hnext, hreceived, List.length_append, List.length_singleton]
        · intro r hr
          obtain rfl := Option.some.inj hr
          rw [hbody]
          have hlength : (before.map Prod.snd).length = before.length := List.length_map _
          refine ⟨before.length, ?_, ?_, ?_⟩
          · show (s.conn c).asked[before.length]? = _
            rw [hasked, List.getElem?_concat_length]
          · show (s.conn c).received[before.length]? = _
            rw [hreceived, ← hlength, List.getElem?_concat_length]
          · rw [← hlength]
            exact hmem
      · exact h.failed hx hc hgrows _

/-- A step of one exchange that leaves the pool and the connections as they are. -/
theorem Inv.of_phase (h : Inv header s) (hx : s.exchange e = some x) (x' : Exchange)
    (hquery : x'.query = x.query)
    (hholds : ∀ c, x'.phase.holds = some c → x.phase.holds = some c ∧
      (Fit header e x (s.conn c) → Fit header e x' (s.conn c)))
    (hreply : ∀ r, x'.phase.reply = some r → x.phase.reply = some r) :
    Inv header { s with exchange := Function.update s.exchange e (some x') } := by
  refine h.of_exchange x.phase.holds (fun c hc => ⟨x, hx, hc⟩) rfl
    (fun _ => Grows.refl _) (fun _ _ _ => rfl) (le_refl _) (fun _ _ => rfl) h.nodup
    (fun c hc => ⟨Or.inl hc, h.idle c hc⟩) ?_ ?_
  · intro c hc
    obtain ⟨hmine, hfits⟩ := hholds c hc
    obtain ⟨hlt, hnot, hfit⟩ := h.held e x c hx hmine
    exact ⟨Or.inl hmine, hlt, hnot, hfits hfit⟩
  · intro r hr
    rw [hquery]
    exact h.replies e x r hx (hreply r hr)

theorem Inv.call (h : Inv header s) (query : Query) :
    Inv header { s with exchange := Function.update s.exchange e (some { query := query }) } :=
  h.of_exchange none (by rintro c ⟨⟩) rfl (fun _ => Grows.refl _) (fun _ _ _ => rfl)
    (le_refl _) (fun _ _ => rfl) h.nodup (fun c hc => ⟨Or.inl hc, h.idle c hc⟩) (by rintro c ⟨⟩)
    (by rintro r ⟨⟩)

theorem Inv.take (h : Inv header s) : Inv header (take s e x) := by
  refine h.of_exchange none (by rintro c ⟨⟩) rfl (fun _ => Grows.refl _)
    (fun _ _ _ => rfl) (le_refl _) (fun _ _ => rfl)
    (h.nodup.sublist (List.dropLast_sublist _)) ?_ ?_ (by rintro r ⟨⟩)
  · intro c hc
    have hmem := List.dropLast_subset _ hc
    exact ⟨Or.inl hmem, h.idle c hmem⟩
  · intro c hc
    obtain ⟨below, hidle⟩ := List.getLast?_eq_some_iff.mp hc
    have hmem : c ∈ s.idle := hidle ▸ List.mem_append_right _ (List.mem_singleton_self c)
    refine ⟨Or.inr (Or.inl hmem), (h.idle c hmem).1, ?_, (h.idle c hmem).2⟩
    show c ∉ s.idle.dropLast
    have hnodup := h.nodup
    rw [hidle, List.dropLast_concat]
    rw [hidle, List.nodup_append] at hnodup
    exact fun hbelow => hnodup.2.2 c hbelow c (List.mem_singleton_self c) rfl

theorem Inv.dial (h : Inv header s) (hx : s.exchange e = some x) (failure : Option Err) :
    Inv header (dial s e x left failure) := by
  cases failure with
  | some err =>
      refine h.of_phase hx { x with phase := .settled none none } rfl ?_ (by rintro r ⟨⟩)
      rintro c ⟨⟩
  | none =>
      have hconn : ∀ {c}, c ≠ s.dialled → Function.update s.conn s.dialled {} c = s.conn c :=
        fun hne => Function.update_of_ne hne _ _
      have hself : Function.update s.conn s.dialled {} s.dialled = {} := Function.update_self _ _ _
      refine h.of_exchange none (by rintro c ⟨⟩) rfl ?_ ?_ (Nat.le_succ _) ?_ h.nodup
        ?_ ?_ (by rintro r ⟨⟩)
      · intro c
        show Grows _ (Function.update s.conn s.dialled {} c)
        rcases eq_or_ne c s.dialled with rfl | hne
        · rw [hself, h.fresh _ (le_refl _)]
          exact Grows.refl _
        · rw [hconn hne]
          exact Grows.refl _
      · intro c hlt _
        exact hconn (Nat.ne_of_lt hlt)
      · intro c hlt
        exact hconn (Nat.ne_of_gt hlt)
      · intro c hc
        obtain ⟨hlt, hquiet⟩ := h.idle c hc
        refine ⟨Or.inl hc, Nat.lt_succ_of_lt hlt, ?_⟩
        show Quiet (Function.update s.conn s.dialled {} c)
        rwa [hconn (Nat.ne_of_lt hlt)]
      · rintro c ⟨⟩
        refine ⟨Or.inr (Or.inr (le_refl _)), Nat.lt_succ_self _, ?_, ?_⟩
        · intro hc
          exact absurd (h.idle _ hc).1 (Nat.lt_irrefl _)
        · show New header (Function.update s.conn s.dialled {} s.dialled)
          rw [hself]
          exact ⟨rfl, rfl, fun htrue => absurd htrue (by decide), rfl, rfl, rfl, rfl⟩

theorem Inv.put (h : Inv header s) (hx : s.exchange e = some x) {conn : Option Nat}
    {reply : Option Bytes} (hphase : x.phase = .settled conn reply) :
    Inv header (put s e x conn reply) := by
  have hmine : ∀ c, conn = some c → x.phase.holds = some c := by
    rw [hphase]
    exact fun _ => id
  have hquiet : ∀ c, conn = some c → c < s.dialled ∧ c ∉ s.idle ∧ Quiet (s.conn c) := by
    intro c hc
    obtain ⟨hlt, hnot, hfit⟩ := h.held e x c hx (hmine c hc)
    unfold Fit at hfit
    rw [hphase] at hfit
    exact ⟨hlt, hnot, hfit⟩
  refine h.of_exchange conn (fun c hc => ⟨x, hx, hmine c hc⟩) rfl (fun _ => Grows.refl _)
    (fun _ _ _ => rfl) (le_refl _) (fun _ _ => rfl) ?_ ?_ (by rintro c ⟨⟩) ?_
  · show (s.idle ++ conn.toList).Nodup
    refine List.nodup_append.mpr ⟨h.nodup, by cases conn <;> simp, ?_⟩
    rintro c hc c' hc' rfl
    exact (hquiet c (Option.mem_toList.mp hc')).2.1 hc
  · intro c hc
    rcases List.mem_append.mp hc with hmem | hmem
    · exact ⟨Or.inl hmem, h.idle c hmem⟩
    · have hconn := Option.mem_toList.mp hmem
      exact ⟨Or.inr hconn, (hquiet c hconn).1, (hquiet c hconn).2.2⟩
  · intro r hr
    refine h.replies e x r hx ?_
    rw [hphase]
    exact hr

theorem Inv.spent (h : Inv header s) (hx : s.exchange e = some x) {conn : Option Nat}
    (hphase : x.phase = .attempt 0 conn) : Inv header (s.withPhase e x (.settled conn none)) := by
  refine h.of_phase hx { x with phase := .settled conn none } rfl ?_ (by rintro r ⟨⟩)
  intro c hc
  unfold Fit
  rw [hphase]
  exact ⟨hc, id⟩

theorem Inv.reuse (h : Inv header s) (hx : s.exchange e = some x)
    (hphase : x.phase = .attempt (left + 1) (some c)) :
    Inv header (s.withPhase e x (.sending left true c)) := by
  refine h.of_phase hx { x with phase := .sending left true c } rfl ?_ (by rintro r ⟨⟩)
  intro c' hc'
  unfold Fit
  rw [hphase]
  exact ⟨hc', id⟩

/-- Every step keeps the invariant. -/
theorem Inv.step {event : Event} (h : Inv header s) (hstep : step header s event = some s') :
    Inv header s' := by
  cases step_moves hstep with
  | call e query => exact h.call query
  | cancel e x hx =>
      exact h.of_phase hx { x with alive := false } rfl (fun c hc => ⟨hc, id⟩) fun _ => id
  | take => exact h.take
  | spent e x conn hx hphase => exact h.spent hx hphase
  | reuse e x left c hx hphase => exact h.reuse hx hphase
  | dial e x left failure hx => exact h.dial hx failure
  | write e x left reused c sent failure hx hphase => exact h.write hx hphase sent failure
  | read e x left reused c got n hx hphase hpos hle => exact h.read hx hphase hpos hle
  | readError e x left reused c got err hx hphase =>
      have hc : x.phase.holds = some c := by
        rw [hphase]
        rfl
      exact h.failed hx hc (Grows.refl _) _
  | put e x conn reply hx hphase => exact h.put hx hphase
  | close => exact h.closeIdle
  | serve c conn' hlt hserves => exact h.of_server hlt hserves

end Steps

/-! ### A failed connection -/

/-- From `s` to `s'` exchange `e` gives up the connection `c` it was trying. -/
structure GivesUp (s s' : State) (e c : Nat) : Prop where
  tried : ∃ x, s.exchange e = some x ∧ x.phase.tries = some c
  lost : ∃ x, s'.exchange e = some x ∧ x.phase.holds ≠ some c

/-- Since `s`, nothing was written to `c`, and nobody has it. -/
structure Retired (s s' : State) (c : Nat) : Prop where
  closed : (s'.conn c).isOpen = false
  unasked : (s'.conn c).asked = (s.conn c).asked
  notIdle : c ∉ s'.idle
  notHeld : ∀ e x, s'.exchange e = some x → x.phase.holds ≠ some c

section Failure

variable {header : Bytes} {s s' : State} {e c : Nat}

theorem Phase.holds_of_tries {phase : Phase} (h : phase.tries = some c) : phase.holds = some c := by
  cases phase <;> first | exact h | cases h

theorem Inv.open_of_idle (h : Inv header s) (hc : c ∈ s.idle) : (s.conn c).isOpen = true :=
  (h.idle c hc).2.isOpen

theorem Inv.open_of_holds (h : Inv header s) {x : Exchange} (hx : s.exchange e = some x)
    (hc : x.phase.holds = some c) : (s.conn c).isOpen = true := by
  obtain ⟨-, -, hfit⟩ := h.held e x c hx hc
  unfold Fit at hfit
  split at hfit
  · exact hfit.isOpen
  · exact hfit.isOpen
  · exact Quiet.isOpen hfit

/-- A step on exchange `e'` alone cannot make another one give up. -/
theorem GivesUp.of_update (h : GivesUp s s' e c) {e' : Nat} {y : Exchange}
    (hexchange : s'.exchange = Function.update s.exchange e' (some y)) :
    e' = e ∧ y.phase.holds ≠ some c := by
  obtain ⟨⟨x, hx, htries⟩, x', hx', hlost⟩ := h
  rw [hexchange] at hx'
  by_cases hne : e = e'
  · subst hne
    rw [Function.update_self] at hx'
    exact ⟨rfl, Option.some.inj hx' ▸ hlost⟩
  · rw [Function.update_of_ne hne, hx] at hx'
    exact absurd (Phase.holds_of_tries htries) (Option.some.inj hx' ▸ hlost)

theorem GivesUp.not_of_same (hexchange : s'.exchange = s.exchange) : ¬ GivesUp s s' e c := by
  rintro ⟨⟨x, hx, htries⟩, x', hx', hlost⟩
  rw [hexchange, hx] at hx'
  exact hlost (Option.some.inj hx' ▸ Phase.holds_of_tries htries)

theorem failed_closes (x : Exchange) (left : Nat) (reused : Bool) (conn : Conn) (err : Err) :
    ((failed s e x left reused c conn err).conn c).isOpen = false :=
  congrArg Conn.isOpen (Function.update_self c _ s.conn)

/-- Whoever gives up a connection closes it. -/
theorem GivesUp.closes (h : GivesUp s s' e c) {event : Event}
    (hstep : step header s event = some s') : (s'.conn c).isOpen = false := by
  obtain ⟨x, hx, htries⟩ := h.tried
  have hphase : ∀ {e' y x' phase}, s.exchange e' = some y → y.phase = phase →
      s'.exchange = Function.update s.exchange e' (some x') →
      phase.tries = some c ∧ x'.phase.holds ≠ some c := by
    rintro e' y x' phase hy rfl hexchange
    obtain ⟨rfl, hlost⟩ := h.of_update hexchange
    exact ⟨Option.some.inj (hx.symm.trans hy) ▸ htries, hlost⟩
  cases step_moves hstep with
  | call e' query hnone =>
      obtain ⟨rfl, -⟩ := h.of_update rfl
      cases hnone.symm.trans hx
  | cancel e' y hy =>
      obtain ⟨htried, hlost⟩ := hphase hy rfl rfl
      exact absurd (Phase.holds_of_tries htried) hlost
  | take e' y hy hentered => cases (hphase hy hentered rfl).1
  | spent e' y conn hy hattempt => cases (hphase hy hattempt rfl).1
  | reuse e' y left c' hy hattempt => cases (hphase hy hattempt rfl).1
  | dial e' y left failure hy hattempt =>
      cases failure with
      | none => cases (hphase hy hattempt rfl).1
      | some err => cases (hphase hy hattempt rfl).1
  | write e' y left reused c' sent failure hy hsending =>
      cases failure with
      | none =>
          obtain ⟨htried, hlost⟩ := hphase hy hsending rfl
          exact absurd htried hlost
      | some err =>
          obtain rfl := Option.some.inj (hphase hy hsending rfl).1
          exact failed_closes y left reused _ err
  | read e' y left reused c' got n hy hreading =>
      unfold read at hphase ⊢
      dsimp only at hphase ⊢
      split
      · next hpart =>
          rw [if_pos hpart] at hphase
          obtain ⟨htried, hlost⟩ := hphase hy hreading rfl
          exact absurd htried hlost
      next hwhole =>
      rw [if_neg hwhole] at hphase
      split
      · next hsame =>
          rw [if_pos hsame] at hphase
          obtain ⟨htried, hlost⟩ := hphase hy hreading rfl
          exact absurd htried hlost
      · next hother =>
          rw [if_neg hother] at hphase
          obtain rfl := Option.some.inj (hphase hy hreading rfl).1
          exact failed_closes y left reused _ _
  | readError e' y left reused c' got err hy hreading =>
      obtain rfl := Option.some.inj (hphase hy hreading rfl).1
      exact failed_closes y left reused _ _
  | put e' y conn reply hy hsettled => cases (hphase hy hsettled rfl).1
  | close => exact absurd h (GivesUp.not_of_same rfl)
  | serve => exact absurd h (GivesUp.not_of_same rfl)

theorem read_conn (s : State) (e : Nat) (x : Exchange) (left : Nat) (reused : Bool) (c : Nat)
    (got : Bytes) (n : Nat) :
    ∃ conn', (read s e x left reused c got n).conn = Function.update s.conn c conn' := by
  unfold read
  dsimp only
  split
  · exact ⟨_, rfl⟩
  · split <;> exact ⟨_, rfl⟩

theorem write_conn (header : Bytes) (s : State) (e : Nat) (x : Exchange) (left : Nat)
    (reused : Bool) (c sent : Nat) (failure : Option Err) :
    ∃ conn', (write header s e x left reused c sent failure).conn =
      Function.update s.conn c conn' := by
  cases failure <;> exact ⟨_, rfl⟩

/-- A closed connection is left as it is but for the server's end. -/
theorem closed_step (h : Inv header s) {event : Event} (hstep : step header s event = some s')
    (hclosed : (s.conn c).isOpen = false) :
    (s'.conn c).isOpen = false ∧ (s'.conn c).asked = (s.conn c).asked := by
  have hsame : s'.conn c = s.conn c →
      (s'.conn c).isOpen = false ∧ (s'.conn c).asked = (s.conn c).asked := by
    intro heq
    rw [heq]
    exact ⟨hclosed, rfl⟩
  have hown : ∀ {e x phase c' conn'}, s.exchange e = some x → x.phase = phase →
      phase.holds = some c' → s'.conn = Function.update s.conn c' conn' → s'.conn c = s.conn c := by
    rintro e x phase c' conn' hx rfl hc' heq
    rw [heq]
    refine Function.update_of_ne ?_ _ _
    rintro rfl
    exact absurd (h.open_of_holds hx hc') (by rw [hclosed]; decide)
  cases step_moves hstep with
  | call | cancel | take | spent | reuse | put => exact hsame rfl
  | dial e x left failure =>
      cases failure with
      | some err => exact hsame rfl
      | none =>
          refine hsame (Function.update_of_ne ?_ _ _)
          rintro rfl
          rw [h.fresh _ (le_refl _)] at hclosed
          cases hclosed
  | write e x left reused c' sent failure hx hphase =>
      obtain ⟨conn', hconn⟩ := write_conn header s e x left reused c' sent failure
      exact hsame (hown hx hphase rfl hconn)
  | read e x left reused c' got n hx hphase =>
      obtain ⟨conn', hconn⟩ := read_conn s e x left reused c' got n
      exact hsame (hown hx hphase rfl hconn)
  | readError e x left reused c' got err hx hphase => exact hsame (hown hx hphase rfl rfl)
  | close =>
      refine hsame (if_neg fun hmem => ?_)
      exact absurd (h.open_of_idle hmem) (by rw [hclosed]; decide)
  | serve c' conn' hlt hserves =>
      by_cases hne : c = c'
      · subst hne
        show (Function.update s.conn c conn' c).isOpen = false ∧
          (Function.update s.conn c conn' c).asked = _
        rw [Function.update_self]
        exact ⟨hserves.grows.closed hclosed, hserves.asked⟩
      · exact hsame (Function.update_of_ne hne _ _)

theorem retired_run (h : Inv header s) {events : List Event} (hclosed : (s.conn c).isOpen = false)
    (hrun : run (step header) s events = some s') : Retired s s' c := by
  obtain ⟨hinv, hopen, hasked⟩ := run_invariant
    (P := fun t => Inv header t ∧ (t.conn c).isOpen = false ∧ (t.conn c).asked = (s.conn c).asked)
    (fun t event t' ht hstep =>
      have hkept := closed_step ht.1 hstep ht.2.1
      ⟨ht.1.step hstep, hkept.1, hkept.2.trans ht.2.2⟩)
    ⟨h, hclosed, rfl⟩ hrun
  refine ⟨hopen, hasked, fun hmem => ?_, fun e x hx hholds => ?_⟩
  · exact absurd (hinv.open_of_idle hmem) (by rw [hopen]; decide)
  · exact absurd (hinv.open_of_holds hx hholds) (by rw [hopen]; decide)

end Failure

theorem inv_run {header : Bytes} {s : State} {events : List Event}
    (hrun : run (step header) {} events = some s) : Inv header s :=
  run_invariant (fun _ _ _ h hstep => h.step hstep) (inv_initial header) hrun

/-- In every run, a reply is the answer to the query of its exchange, written and received on one
connection; and a connection that an exchange gave up is never used again. -/
theorem answers_never_cross (header : Bytes) (events : List Event) (s : State)
    (hrun : run (step header) {} events = some s) :
    (∀ e x reply, s.exchange e = some x → x.phase = .returned (some reply) →
      ∃ c, Answers (s.conn c) e x.query.wire reply) ∧
    ∀ event s' e c, step header s event = some s' → GivesUp s s' e c →
      ∀ later s'', run (step header) s' later = some s'' → Retired s' s'' c := by
  have hinv := inv_run hrun
  constructor
  · intro e x reply hx hphase
    exact hinv.replies e x reply hx (by rw [hphase]; rfl)
  · intro event s' e c hstep hgives later s'' hlater
    exact retired_run (hinv.step hstep) (hgives.closes hstep) hlater

/-- One query is answered, and the next one on the connection times out. -/
def timeout : List Event :=
  let query : Query := ⟨[0, 7], by decide⟩
  [.call 0 query, .take 0, .dial 0 none, .write 0 0 none, .greet 0, .receive 0,
    .answer 0 0 [0, 7, 1], .read 0 2, .read 0 3, .put 0, .call 1 query, .take 1, .start 1,
    .write 1 0 none]

theorem answers_never_cross_timeout : ∃ s s',
    run (step []) {} timeout = some s ∧ step [] s (.readError 1 .deadline) = some s' ∧
      (∃ c, Answers (s.conn c) 0 [0, 7] [0, 7, 1]) ∧ Retired s' s' 0 := by
  have hrun : run (step []) {} timeout = some ((run (step []) {} timeout).get rfl) := rfl
  have hcross := answers_never_cross [] timeout _ hrun
  refine ⟨_, _, hrun, rfl, hcross.1 0 _ [0, 7, 1] rfl rfl, ?_⟩
  refine hcross.2 (.readError 1 .deadline) _ 1 0 rfl ⟨⟨_, rfl, rfl⟩, _, rfl, ?_⟩ [] _ rfl
  rintro ⟨⟩

end PfBlockerNG.UpstreamPool
