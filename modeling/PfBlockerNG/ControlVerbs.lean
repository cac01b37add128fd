import Mathlib.Data.Finset.Basic
import Mathlib.Data.List.Sort
import PfBlockerNG.Netip
import PfBlockerNG.OrderedDict

/-!
The control socket of the gateway: the listeners it serves, the refusals that stand, the listeners
DDR designates and the address table, and the messages that change them.
-/

namespace PfBlockerNG.ControlVerbs

open PfBlockerNG.ByteStrings
open PfBlockerNG.Netip
open PfBlockerNG.OrderedDict

/-! ### What the code takes from outside -/

/-- Readers and writers of Go's netip, and `%q` and `%.64q` of fmt. -/
structure Library where
  parseAddr : Bytes → Except Bytes Addr
  parseAddrPort : Bytes → Except Bytes AddrPort
  addrText : Addr → Bytes
  text : AddrPort → Bytes
  quote : Bytes → Bytes
  quote64 : Bytes → Bytes
  parse_text : ∀ ap, parseAddrPort (text ap) = .ok ap

/-- What `Getsockname` gives. -/
inductive Sockaddr where
  | inet4 (addr : BitVec 32) (port : UInt16)
  | inet6 (addr : BitVec 128) (port : UInt16)
  | other

/-- A descriptor as the kernel answers for it; `unusable` is why `net.FileListener` or
`net.FilePacketConn` fails on it. -/
structure Descriptor where
  sockType : Except Bytes Nat
  accepting : Bool
  name : Except Bytes Sockaddr
  unusable : Option Bytes

/-- One connection of the control socket: whether its peer is root, the bytes that come before the
read fails with `ending`, the descriptors with them, and what the rest of the gateway says. -/
structure Message where
  root : Bool := true
  bytes : Bytes
  ending : Bytes := []
  fds : List Descriptor := []
  cut : Bool := false
  stopping : Bool := false
  doqFailure : Option Bytes := none
  restartFailure : Option Bytes := none
  pushFailure : Option Bytes := none

structure Config where
  port : Nat
  dotPort : Nat
  dohPort : Nat
  doqPort : Nat
  dotPort6 : Nat := 0
  dohPort6 : Nat := 0
  doqPort6 : Nat := 0
  doh443Port : Nat := 0
  plain53Port : Nat := 0
  tls853Port : Nat := 0
  dotListen : List Bytes := []
  dotListen853 : List Bytes := []
  dohListen : List Bytes := []
  dohListen443 : List Bytes := []
  doqListen : List Bytes := []
  doqListen853 : List Bytes := []

structure Gateway where
  library : Library
  config : Config
  certs : Bool

/-! ### Tables -/

inductive Kind where
  | plain
  | dot
  | doh
  | doq
  deriving DecidableEq

def Kind.name : Kind → Bytes
  | .plain => ascii "udp+tcp"
  | .dot => ascii "dot"
  | .doh => ascii "doh"
  | .doq => ascii "doq"

def listenerKinds : List Kind := [.plain, .dot, .doh, .doq]

structure Listener where
  kind : Kind
  ap : AddrPort

/-- The listeners DDR designates, and the addresses it advertises DoH on without a port. -/
structure Ddr where
  dot : List AddrPort
  doh : List AddrPort
  doq : List AddrPort
  doh443 : Finset Addr

structure NameAddrs where
  v4 : Option Addr := none
  v6 : Option Addr := none

structure AddressTable where
  names : Dict Addr NameAddrs
  doh443 : Finset Addr

/-- `ddr` and `names` are there when the gateway was started with `--ddr` and `--dns-name`. -/
structure State where
  served : Dict Bytes Listener
  refused : Dict Bytes Bytes
  ddr : Option Ddr
  names : Option (Dict Addr NameAddrs)

def key (l : Library) (listener : Listener) : Bytes :=
  listener.kind.name ++ ascii " " ++ l.text listener.ap

def track (l : Library) (s : State) (listener : Listener) : State :=
  { s with
    served := s.served.set (key l listener) listener
    refused := s.refused.pop (key l listener) }

/-- What the start leaves to the control socket. -/
def started (l : Library) (listeners : List Listener) (refused : Dict Bytes Bytes)
    (ddr : Option Ddr) (names : Option (Dict Addr NameAddrs)) : State :=
  listeners.foldl (track l) ⟨Dict.empty, refused, ddr, names⟩

/-! ### Ports -/

namespace Config

def port443 (c : Config) : Nat := if c.doh443Port ≠ 0 then c.doh443Port else 443

def port53 (c : Config) : Nat := if c.plain53Port ≠ 0 then c.plain53Port else 53

def port853 (c : Config) : Nat := if c.tls853Port ≠ 0 then c.tls853Port else 853

def perFamily (l : Library) (host : Bytes) (port port6 : Nat) : Nat :=
  match l.parseAddr host with
  | .ok address => if !address.is4 && !address.is4In6 && port6 ≠ 0 then port6 else port
  | .error _ => port

def transportPort (l : Library) (c : Config) (kind : Kind) (host : Bytes) : Nat :=
  match kind with
  | .dot => perFamily l host c.dotPort c.dotPort6
  | .doh => perFamily l host c.dohPort c.dohPort6
  | .doq => perFamily l host c.doqPort c.doqPort6
  | .plain => c.port

/-- The second result of `listenerSet.port`. -/
def serves (c : Config) : Kind → Bool
  | .plain => true
  | .dot => 0 < c.dotListen.length + c.dotListen853.length
  | .doh => 0 < c.dohListen.length + c.dohListen443.length
  | .doq => 0 < c.doqListen.length + c.doqListen853.length

def standard (c : Config) : Kind → Nat
  | .plain => c.port53
  | .dot | .doq => c.port853
  | .doh => c.port443

end Config

/-! ### Reading a message -/

def ctlMaxPem : Nat := 64 * 1024
def ctlMaxListener : Nat := 256
def ctlMaxTable : Nat := 64 * 1024
def ctlRestart : Nat := 0xffffffff
def ctlAdd : Nat := 0xfffffffe
def ctlRemove : Nat := 0xfffffffd
def ctlList : Nat := 0xfffffffc
def ctlAddrTable : Nat := 0xfffffffb

/-- The four bytes of a length, or of a verb. -/
def readHead (m : Message) (rest : Bytes) : Except Bytes (Nat × Bytes) :=
  if rest.length < 4 then .error (ascii "no message: " ++ m.ending)
  else .ok (ofOctets (rest.take 4), rest.drop 4)

def readBody (m : Message) (n : Nat) (rest : Bytes) : Except Bytes Bytes :=
  if rest.length < n then
    .error (ascii "the message ended after " ++ decimal rest.length ++ ascii " of " ++ decimal n ++
      ascii " bytes: " ++ m.ending)
  else .ok (rest.take n)

def kindNames : Bytes := (ascii ", ").intercalate (listenerKinds.map Kind.name)

def parseListener (l : Library) (body : Bytes) : Except Bytes Listener :=
  let (kind, hostPort, found) := cut 32 body
  match if found then listenerKinds.find? (·.name = kind) else none with
  | none =>
      .error (l.quote body ++ ascii " is not `<kind> <host:port>` with a kind of " ++ kindNames)
  | some kind =>
      let refuse := .error (l.quote hostPort ++ ascii (" is not a host:port of an IP address, " ++
        "in its canonical spelling, without a zone, IPv4-mapped form or port 0"))
      match l.parseAddrPort hostPort with
      | .error _ => refuse
      | .ok ap =>
          if ap.addr.zone ≠ [] ∨ ap.addr.is4In6 ∨ ap.port = 0 ∨ l.text ap ≠ hostPort then refuse
          else .ok ⟨kind, ap⟩

def readListener (l : Library) (m : Message) (rest : Bytes) : Except Bytes Listener := do
  let (n, rest) ← readHead m rest
  if n < 1 ∨ ctlMaxListener < n then
    throw (ascii "a listener of " ++ decimal n ++ ascii " bytes is not between 1 and " ++
      decimal ctlMaxListener)
  parseListener l (← readBody m n rest)

/-! ### Descriptors -/

def sockStream : Nat := 1
def sockDgram : Nat := 2

/-- `checkSocket`. -/
def checkSocket (l : Library) (fd : Descriptor) (typ : Nat) (ap : AddrPort) :
    Except Bytes Unit := do
  match fd.sockType with
  | .error e => throw (ascii "is not a socket: " ++ e)
  | .ok got =>
      if got ≠ typ then
        throw (ascii "is a socket of type " ++ decimal got ++ ascii ", want " ++ decimal typ)
  if typ = sockStream ∧ fd.accepting = false then throw (ascii "is not listening")
  let bound : AddrPort ←
    match fd.name with
    | .error e => throw (ascii "has no address: " ++ e)
    | .ok (.inet4 addr port) => pure ⟨.v4 addr, port⟩
    | .ok (.inet6 addr port) => pure ⟨.v6 addr [], port⟩
    | .ok .other => throw (ascii "is not bound to an IP address")
  if bound ≠ ap then
    throw (ascii "is bound to " ++ l.text bound ++ ascii ", not " ++ l.text ap)

/-- Socket types of a kind, one for each descriptor. -/
def types : Kind → List Nat
  | .plain => [sockDgram, sockStream]
  | .dot | .doh => [sockStream]
  | .doq => [sockDgram]

def checkSockets (l : Library) (ap : AddrPort) :
    Nat → List Nat → List Descriptor → Except Bytes Unit
  | i, typ :: typs, fd :: fds =>
      match checkSocket l fd typ ap with
      | .error e => .error (ascii "descriptor " ++ decimal i ++ ascii " " ++ e)
      | .ok () => checkSockets l ap (i + 1) typs fds
  | _, _, _ => .ok ()

/-- `listenerSet.admit`. -/
def admission (g : Gateway) (m : Message) (listener : Listener) (isServed : Bool) :
    Except Bytes Unit := do
  let ⟨kind, ap⟩ := listener
  let port := g.config.transportPort g.library kind (g.library.addrText ap.addr)
  if g.config.serves kind = false then
    throw (kind.name ++ ascii " is not served by this gateway: it was started without a " ++
      kind.name ++ ascii " listen address")
  if ap.port.toNat ≠ port ∧ ap.port.toNat ≠ g.config.standard kind then
    throw (ascii "port " ++ decimal ap.port.toNat ++ ascii " is neither the port " ++
      decimal port ++ ascii " of " ++ kind.name ++ ascii " nor " ++
      decimal (g.config.standard kind))
  if isServed then throw (key g.library listener ++ ascii " is served already")
  if m.stopping then throw (ascii "the gateway is stopping")
  if m.cut then throw (ascii "more descriptors came than the control socket takes")
  if m.fds.length ≠ (types kind).length then
    throw (kind.name ++ ascii " takes " ++ decimal (types kind).length ++ ascii " descriptors, " ++
      decimal m.fds.length ++ ascii " came")
  checkSockets g.library ap 0 (types kind) m.fds

/-- `listenerSet.serve`: whether the descriptors can be served. -/
def serve (m : Message) (kind : Kind) : Except Bytes Unit :=
  match m.fds.findSome? Descriptor.unusable, kind, m.doqFailure with
  | some e, _, _ => .error e
  | none, .doq, some e => .error e
  | none, _, _ => .ok ()

/-! ### The verbs -/

namespace Ddr

def bound (ap : AddrPort) : AddrPort := ⟨ap.addr.unmap.withoutZone, ap.port⟩

/-- `ddr.change` on one list. -/
def follow (add : Bool) (ap : AddrPort) (on : List AddrPort) : List AddrPort :=
  if add then on ++ [bound ap] else on.filter (· ≠ bound ap)

/-- `ddr.change`. -/
def change (d : Ddr) (add : Bool) : Listener → Ddr
  | ⟨.dot, ap⟩ => { d with dot := follow add ap d.dot }
  | ⟨.doh, ap⟩ => { d with doh := follow add ap d.doh }
  | ⟨.doq, ap⟩ => { d with doq := follow add ap d.doq }
  | ⟨.plain, _⟩ => d

end Ddr

def ok : Bytes := ascii "ok"

def errorReply (s : State) (e : Bytes) : Bytes × State := (ascii "error: " ++ e, s)

def added (l : Library) (s : State) (listener : Listener) : State :=
  let s := track l s listener
  { s with ddr := s.ddr.map fun d => d.change true listener }

def removed (l : Library) (s : State) (listener : Listener) : State :=
  { s with
    served := s.served.pop (key l listener)
    ddr := s.ddr.map fun d => d.change false listener }

def replaced (s : State) (table : AddressTable) : State :=
  { s with
    names := some table.names
    ddr := s.ddr.map fun d => { d with doh443 := table.doh443 } }

/-- `listenerSet.change`. -/
def change (g : Gateway) (add : Bool) (m : Message) (rest : Bytes) (s : State) : Bytes × State :=
  match readListener g.library m rest with
  | .error e => errorReply s e
  | .ok listener =>
      let k := key g.library listener
      if add then
        match admission g m listener (s.served.get k).isSome with
        | .error e => errorReply s e
        | .ok () =>
            match serve m listener.kind with
            | .error e => errorReply s e
            | .ok () => (ok, added g.library s listener)
      else
        match s.served.get k with
        | none => errorReply s (k ++ ascii " is not served")
        | some _ => (ok, removed g.library s listener)

/-- `listenerSet.list`. -/
def list (s : State) : Bytes :=
  let sorted (keys : List Bytes) := keys.mergeSort fun a b => decide (a ≤ b)
  ((sorted s.served.keys).flatMap fun k => ascii "listening " ++ k ++ ascii "\n") ++
    ((sorted s.refused.keys).flatMap fun k => ascii "refused " ++ k ++ ascii " " ++
      oneLine ((s.refused.get k).getD []) ++ ascii "\n") ++ ascii "ok\n"

def parseNameIP (l : Library) (s : Bytes) : Except Bytes Addr := do
  let ip ← l.parseAddr s
  if ip.zone ≠ [] then throw (l.quote s ++ ascii " has a zone")
  return ip.unmap

/-- The addresses after `=`. -/
def parseAnswers (l : Library) : NameAddrs → List Bytes → Except Bytes NameAddrs
  | addrs, [] => .ok addrs
  | addrs, s :: rest => do
      let ip ← parseNameIP l s
      if (if ip.is4 then addrs.v4 else addrs.v6).isSome then
        throw (ascii "two addresses of one family")
      parseAnswers l
        (if ip.is4 then { addrs with v4 := some ip } else { addrs with v6 := some ip }) rest

def parseNameAnswer (l : Library) (v : Bytes) : Except Bytes (Addr × NameAddrs) := do
  let (lhs, rhs, found) := Netip.cut 61 v
  if found = false then throw (ascii "want LOCAL=ADDR[,ADDR]")
  let localAddr ← parseNameIP l lhs
  if rhs = [] then return (localAddr, {})
  return (localAddr, ← parseAnswers l {} (rhs.splitOn 44))

def nameTable (l : Library) : Dict Addr NameAddrs → List Bytes → Except Bytes (Dict Addr NameAddrs)
  | table, [] => .ok table
  | table, v :: values =>
      match parseNameAnswer l v with
      | .error e => .error (l.quote64 v ++ ascii ": " ++ e)
      | .ok (localAddr, addrs) =>
          if (table.get localAddr).isSome then
            .error (l.quote64 v ++ ascii ": " ++ l.addrText localAddr ++ ascii " is named twice")
          else nameTable l (table.set localAddr addrs) values

/-- The lines of a table, from number `i` on: the values of the name answers, and the addresses. -/
def tableLines (l : Library) : Nat → List Bytes → Except Bytes (List Bytes × Finset Addr)
  | _, [] => .ok ([], ∅)
  | i, line :: rest => do
      let (word, value, _) := Netip.cut 32 line
      let place := ascii "line " ++ decimal i ++ ascii ": " ++ l.quote64 line
      if word = ascii "dns-name-answer" then
        let (answers, doh443) ← tableLines l (i + 1) rest
        return (value :: answers, doh443)
      else if word = ascii "ddr-doh-443" then
        match parseNameIP l value with
        | .error e => throw (place ++ ascii ": " ++ e)
        | .ok ip =>
            let (answers, doh443) ← tableLines l (i + 1) rest
            return (answers, insert ip doh443)
      else throw (place ++ ascii " does not start with dns-name-answer or ddr-doh-443")

def parseAddressTable (l : Library) (body : Bytes) : Except Bytes AddressTable := do
  let (answers, doh443) ← tableLines l 1 (if body = [] then [] else body.splitOn 10)
  return ⟨← nameTable l Dict.empty answers, doh443⟩

def readTable (m : Message) (rest : Bytes) : Except Bytes Bytes := do
  let (n, rest) ← readHead m rest
  if ctlMaxTable < n then
    throw (ascii "an address table of " ++ decimal n ++ ascii " bytes is over " ++
      decimal ctlMaxTable)
  readBody m n rest

/-- `ctlServer.addressTable`. -/
def addressTable (g : Gateway) (m : Message) (rest : Bytes) (s : State) : Bytes × State :=
  match readTable m rest with
  | .error e => errorReply s e
  | .ok body =>
      match s.names, parseAddressTable g.library body with
      | none, _ => errorReply s (ascii "started without --dns-name")
      | some _, .error e => errorReply s e
      | some _, .ok table =>
          if table.doh443.card > 0 ∧ s.ddr.isNone then
            errorReply s (ascii "started without --ddr")
          else (ok, replaced s table)

/-- The certificate push, which leaves these tables. -/
def push (g : Gateway) (m : Message) (n : Nat) (rest : Bytes) : Except Bytes Unit := do
  if n = 0 ∨ ctlMaxPem < n then
    throw (ascii "a message of " ++ decimal n ++ ascii " bytes is not between 1 and " ++
      decimal ctlMaxPem)
  discard (readBody m n rest)
  if g.certs = false then
    throw (ascii "no TLS transport is served, so there is no certificate to replace")
  match m.pushFailure with
  | some e => throw e
  | none => return ()

/-- One reply line. -/
def line (reply : Bytes) : Bytes := oneLine reply ++ ascii "\n"

/-- `ctlServer.handle`; no reply to a peer that is not root. -/
def handle (g : Gateway) (m : Message) (s : State) : Option Bytes × State :=
  let answer (r : Bytes × State) := (some (line r.1), r.2)
  if m.root = false then (none, s)
  else
    match readHead m m.bytes with
    | .error e => answer (errorReply s e)
    | .ok (n, rest) =>
        if n = ctlRestart then
          match m.restartFailure with
          | some e => answer (errorReply s e)
          | none => answer (ok, s)
        else if n = ctlAdd ∨ n = ctlRemove then answer (change g (n = ctlAdd) m rest s)
        else if n = ctlList then (some (list s), s)
        else if n = ctlAddrTable then answer (addressTable g m rest s)
        else
          match push g m n rest with
          | .error e => answer (errorReply s e)
          | .ok () => answer (ok, s)

/-! ### What a message does -/

/-- The spelling `parseListener` takes: no zone, no IPv4-mapped address. -/
def Canonical (listener : Listener) : Prop :=
  listener.ap.addr.zone = [] ∧ listener.ap.addr.is4In6 = false

theorem bound_of_canonical {listener : Listener} (h : Canonical listener) :
    Ddr.bound listener.ap = listener.ap := by
  unfold Ddr.bound
  rw [Addr.unmap_of_not_is4In6 h.2, Addr.withoutZone_of_zone_nil h.1]

theorem parseListener_canonical {l : Library} {body : Bytes} {listener : Listener}
    (h : parseListener l body = .ok listener) : Canonical listener := by
  unfold parseListener at h
  dsimp only at h
  split at h
  · cases h
  · split at h
    · cases h
    · split at h
      · cases h
      · next hguard =>
          obtain rfl := Except.ok.inj h
          simp only [not_or, not_not, Bool.not_eq_true] at hguard
          exact ⟨hguard.1, hguard.2.1⟩

theorem readListener_canonical {l : Library} {m : Message} {rest : Bytes} {listener : Listener}
    (h : readListener l m rest = .ok listener) : Canonical listener := by
  unfold readListener at h
  simp only [bind, Except.bind, throw, throwThe, MonadExceptOf.throw] at h
  split at h
  · cases h
  · split at h
    · cases h
    · split at h
      · cases h
      · exact parseListener_canonical h

theorem admit_new {g : Gateway} {m : Message} {listener : Listener} {isServed : Bool}
    (h : admission g m listener isServed = .ok ()) : isServed = false := by
  unfold admission at h
  simp only [bind, Except.bind, throw, throwThe, MonadExceptOf.throw] at h
  split at h
  · cases h
  · split at h
    · cases h
    · split at h
      · cases h
      · next hserved => exact Bool.eq_false_of_not_eq_true hserved

/-- The changes that a message can make. -/
inductive Changes (l : Library) (s : State) : State → Prop
  | add (listener : Listener) : Canonical listener → s.served.get (key l listener) = none →
      Changes l s (added l s listener)
  | remove (listener : Listener) : Canonical listener → Changes l s (removed l s listener)
  | replace (table : AddressTable) : Changes l s (replaced s table)

/-- A message leaves the tables, or is answered with `ok`. -/
inductive Outcome (l : Library) (s : State) : Option Bytes × State → Prop
  | unchanged (reply : Option Bytes) : Outcome l s (reply, s)
  | changed (s' : State) : Changes l s s' → Outcome l s (some (line ok), s')

theorem change_outcome (g : Gateway) (add : Bool) (m : Message) (rest : Bytes) (s : State) :
    Outcome g.library s (some (line (change g add m rest s).1), (change g add m rest s).2) := by
  unfold change
  split
  · exact .unchanged _
  next listener hread =>
  have hcanonical := readListener_canonical hread
  dsimp only
  split
  · split
    · exact .unchanged _
    next hadmit =>
    split
    · exact .unchanged _
    · have hnew := admit_new hadmit
      rw [Option.isSome_eq_false_iff, Option.isNone_iff_eq_none] at hnew
      exact .changed _ (.add listener hcanonical hnew)
  · split
    · exact .unchanged _
    · exact .changed _ (.remove listener hcanonical)

theorem addressTable_outcome (g : Gateway) (m : Message) (rest : Bytes) (s : State) :
    Outcome g.library s (some (line (addressTable g m rest s).1), (addressTable g m rest s).2) := by
  unfold addressTable
  split
  · exact .unchanged _
  · split
    · exact .unchanged _
    · exact .unchanged _
    split
    · exact .unchanged _
    · exact .changed _ (.replace _)

theorem handle_outcome (g : Gateway) (m : Message) (s : State) :
    Outcome g.library s (handle g m s) := by
  unfold handle
  dsimp only
  split
  · exact .unchanged _
  split
  · exact .unchanged _
  next n rest _ =>
  split
  · split <;> exact .unchanged _
  split
  · exact change_outcome g _ m rest s
  split
  · exact .unchanged _
  split
  · exact addressTable_outcome g m rest s
  · split <;> exact .unchanged _

theorem not_error_ok : ¬ ascii "error: " <+: line ok := by decide

theorem unchanged_of_error {g : Gateway} {m : Message} {s s' : State} {reply : Bytes}
    (h : handle g m s = (some reply, s')) (herror : ascii "error: " <+: reply) : s' = s := by
  have houtcome := handle_outcome g m s
  rw [h] at houtcome
  cases houtcome with
  | unchanged => rfl
  | changed => exact absurd herror not_error_ok

/-! ### The invariants -/

theorem key_injective {l : Library} {x y : Listener} (h : key l x = key l y) : x = y := by
  have hcut : ∀ z : Listener, cut 32 (key l z) = (z.kind.name, l.text z.ap, true) := by
    intro z
    have hplain : 32 ∉ z.kind.name := by cases z.kind <;> decide
    rw [key, List.append_assoc]
    exact cut_append hplain _
  have hparts := (hcut x).symm.trans ((congrArg (cut 32) h).trans (hcut y))
  obtain ⟨hname, htext⟩ := Prod.mk.inj hparts
  have hap : x.ap = y.ap := by
    have hparse := congrArg l.parseAddrPort (Prod.mk.inj htext).1
    rw [l.parse_text, l.parse_text] at hparse
    exact Except.ok.inj hparse
  have hkind : x.kind = y.kind := by
    revert hname
    cases x.kind <;> cases y.kind <;>
      first | exact fun _ => rfl | exact fun heq => absurd heq (by decide)
  cases x
  cases y
  cases hap
  cases hkind
  rfl

/-- Listeners are served under their keys, and a served key is not refused. -/
structure Inv (l : Library) (s : State) : Prop where
  keyed : ∀ k listener, s.served.get k = some listener → k = key l listener
  apart : ∀ k listener, s.served.get k = some listener → s.refused.get k = none

/-- The addresses a table of DDR holds for a kind. -/
def Ddr.on (d : Ddr) : Kind → List AddrPort
  | .dot => d.dot
  | .doh => d.doh
  | .doq => d.doq
  | .plain => []

/-- The lists of DDR hold the addresses of the served listeners of their kinds, and no others. -/
def InStep (s : State) : Prop :=
  ∀ d, s.ddr = some d → ∀ kind, kind ≠ .plain → ∀ ap,
    ap ∈ d.on kind ↔ ∃ k, s.served.get k = some ⟨kind, ap⟩

theorem Inv.track {l : Library} {s : State} (h : Inv l s) (listener : Listener) :
    Inv l (track l s listener) := by
  constructor
  · intro k other hget
    change (s.served.set _ _).get k = some other at hget
    rw [Dict.get_set] at hget
    split at hget
    · next heq => exact Option.some.inj hget ▸ heq.symm
    · exact h.keyed k other hget
  · intro k other hget
    change (s.served.set _ _).get k = some other at hget
    show (s.refused.pop _).get k = none
    rw [Dict.get_pop]
    rw [Dict.get_set] at hget
    split
    · rfl
    · next hne =>
        rw [if_neg hne] at hget
        exact h.apart k other hget

theorem inv_started (l : Library) (listeners : List Listener) (refused : Dict Bytes Bytes)
    (ddr : Option Ddr) (names : Option (Dict Addr NameAddrs)) :
    Inv l (started l listeners refused ddr names) := by
  have hempty : Inv l ⟨Dict.empty, refused, ddr, names⟩ :=
    ⟨by rintro k listener ⟨⟩, by rintro k listener ⟨⟩⟩
  unfold started
  generalize State.mk Dict.empty refused ddr names = s at hempty ⊢
  induction listeners generalizing s with
  | nil => exact hempty
  | cons listener listeners ih => exact ih _ (hempty.track listener)

theorem Inv.changes {l : Library} {s s' : State} (h : Inv l s) (hchange : Changes l s s') :
    Inv l s' := by
  cases hchange with
  | add listener => exact ⟨(h.track listener).keyed, (h.track listener).apart⟩
  | replace table => exact ⟨h.keyed, h.apart⟩
  | remove listener =>
      have hold : ∀ {k other}, (s.served.pop (key l listener)).get k = some other →
          s.served.get k = some other := by
        intro k other hget
        rw [Dict.get_pop] at hget
        split at hget
        · cases hget
        · exact hget
      exact ⟨fun k other hget => h.keyed k other (hold hget),
        fun k other hget => h.apart k other (hold hget)⟩

theorem on_change_self (d : Ddr) (add : Bool) {listener : Listener} (h : listener.kind ≠ .plain) :
    (d.change add listener).on listener.kind =
      Ddr.follow add listener.ap (d.on listener.kind) := by
  obtain ⟨kind, ap⟩ := listener
  cases kind with
  | plain => exact absurd rfl h
  | dot | doh | doq => rfl

theorem on_change_of_ne (d : Ddr) (add : Bool) {listener : Listener} {kind : Kind}
    (h : listener.kind ≠ kind) : (d.change add listener).on kind = d.on kind := by
  obtain ⟨own, ap⟩ := listener
  cases own <;> cases kind <;> first | rfl | exact absurd rfl h

section Tables

variable {l : Library} {s : State} {listener : Listener} {kind : Kind} {ap : AddrPort}

theorem served_added (hnew : s.served.get (key l listener) = none) :
    (∃ k, (added l s listener).served.get k = some ⟨kind, ap⟩) ↔
      listener = ⟨kind, ap⟩ ∨ ∃ k, s.served.get k = some ⟨kind, ap⟩ := by
  show (∃ k, (s.served.set _ _).get k = _) ↔ _
  constructor
  · rintro ⟨k, hk⟩
    rw [Dict.get_set] at hk
    split at hk
    · exact Or.inl (Option.some.inj hk)
    · exact Or.inr ⟨k, hk⟩
  · rintro (rfl | ⟨k, hk⟩)
    · exact ⟨_, Dict.get_set_self _ _ _⟩
    · refine ⟨k, ?_⟩
      rw [Dict.get_set_of_ne]
      · exact hk
      · rintro rfl
        cases hnew.symm.trans hk

theorem served_removed (h : Inv l s) :
    (∃ k, (removed l s listener).served.get k = some ⟨kind, ap⟩) ↔
      listener ≠ ⟨kind, ap⟩ ∧ ∃ k, s.served.get k = some ⟨kind, ap⟩ := by
  show (∃ k, (s.served.pop _).get k = _) ↔ _
  constructor
  · rintro ⟨k, hk⟩
    rw [Dict.get_pop] at hk
    split at hk
    · cases hk
    · next hne =>
        refine ⟨?_, k, hk⟩
        rintro rfl
        exact hne (h.keyed k _ hk).symm
  · rintro ⟨hne, k, hk⟩
    refine ⟨k, ?_⟩
    rw [Dict.get_pop, if_neg]
    · exact hk
    · rw [h.keyed k _ hk]
      exact fun heq => hne (key_injective heq)

theorem InStep.added (h : InStep s) (hcanonical : Canonical listener)
    (hnew : s.served.get (key l listener) = none) : InStep (added l s listener) := by
  intro d' hd' kind hkind ap
  obtain ⟨d, hd, rfl⟩ := Option.map_eq_some_iff.mp hd'
  rw [served_added hnew, ← h d hd kind hkind ap]
  by_cases hown : listener.kind = kind
  · subst hown
    rw [on_change_self d true hkind, Ddr.follow, if_pos rfl, bound_of_canonical hcanonical,
      List.mem_append, List.mem_singleton, or_comm]
    refine or_congr_left ⟨?_, fun heq => congrArg Listener.ap heq.symm⟩
    rintro rfl
    rfl
  · rw [on_change_of_ne d true hown]
    refine (or_iff_right ?_).symm
    rintro rfl
    exact hown rfl

theorem InStep.removed (h : InStep s) (hinv : Inv l s) (hcanonical : Canonical listener) :
    InStep (removed l s listener) := by
  intro d' hd' kind hkind ap
  obtain ⟨d, hd, rfl⟩ := Option.map_eq_some_iff.mp hd'
  rw [served_removed hinv, ← h d hd kind hkind ap]
  by_cases hown : listener.kind = kind
  · subst hown
    rw [on_change_self d false hkind, Ddr.follow, if_neg Bool.false_ne_true,
      bound_of_canonical hcanonical, List.mem_filter, decide_eq_true_iff, and_comm]
    refine and_congr_left' (not_congr ⟨?_, fun heq => congrArg Listener.ap heq.symm⟩)
    rintro rfl
    rfl
  · rw [on_change_of_ne d false hown]
    refine (and_iff_right ?_).symm
    rintro rfl
    exact hown rfl

theorem InStep.changes {s' : State} (h : InStep s) (hinv : Inv l s) (hchange : Changes l s s') :
    InStep s' := by
  cases hchange with
  | add listener hcanonical hnew => exact h.added hcanonical hnew
  | remove listener hcanonical => exact h.removed hinv hcanonical
  | replace table =>
      intro d' hd' kind hkind ap
      obtain ⟨d, hd, rfl⟩ := Option.map_eq_some_iff.mp hd'
      refine Iff.trans ?_ (h d hd kind hkind ap)
      cases kind <;> exact Iff.rfl

end Tables

/-! ### Runs -/

/-- The tables after a list of messages. -/
def after (g : Gateway) (s : State) (messages : List Message) : State :=
  messages.foldl (fun s m => (handle g m s).2) s

theorem handle_keeps {g : Gateway} {s : State} (m : Message) (hinv : Inv g.library s) :
    Inv g.library (handle g m s).2 ∧ (InStep s → InStep (handle g m s).2) := by
  have houtcome := handle_outcome g m s
  generalize handle g m s = r at houtcome ⊢
  cases houtcome with
  | unchanged => exact ⟨hinv, id⟩
  | changed s' hchange => exact ⟨hinv.changes hchange, fun h => h.changes hinv hchange⟩

theorem after_keeps {g : Gateway} {s : State} (messages : List Message) (hinv : Inv g.library s) :
    Inv g.library (after g s messages) ∧ (InStep s → InStep (after g s messages)) := by
  induction messages generalizing s with
  | nil => exact ⟨hinv, id⟩
  | cons m messages ih =>
      obtain ⟨hinv', hstep⟩ := handle_keeps m hinv
      obtain ⟨hlast, hrest⟩ := ih hinv'
      exact ⟨hlast, fun h => hrest (hstep h)⟩

/-- After any messages to a started gateway: an error leaves every table, the lists of DDR are in
step if they were at the start, and no key is both served and refused. -/
theorem messages_keep_tables (g : Gateway) (listeners : List Listener) (refused : Dict Bytes Bytes)
    (ddr : Option Ddr) (names : Option (Dict Addr NameAddrs)) (messages : List Message) :
    let start := started g.library listeners refused ddr names
    let s := after g start messages
    (∀ m reply s', handle g m s = (some reply, s') → ascii "error: " <+: reply → s' = s) ∧
      (InStep start → InStep s) ∧ ∀ k, ¬ (k ∈ s.served.keys ∧ k ∈ s.refused.keys) := by
  intro start s
  obtain ⟨hinv, hstep⟩ := after_keeps messages (inv_started g.library listeners refused ddr names)
  refine ⟨fun m reply s' h => unchanged_of_error h, hstep, ?_⟩
  rintro k ⟨hserved, hrefused⟩
  obtain ⟨listener, hlistener⟩ := (Dict.mem_keys_iff _ k).mp hserved
  obtain ⟨why, hwhy⟩ := (Dict.mem_keys_iff _ k).mp hrefused
  cases hwhy.symm.trans (hinv.apart k listener hlistener)

/-! ### One listener added -/

def loopback : AddrPort := ⟨.v4 0x7f000001, 853⟩

/-- netip at `loopback`; other addresses are spelled by their bytes. -/
def spell (ap : AddrPort) : Bytes :=
  if ap = loopback then ascii "127.0.0.1:853"
  else match ap.addr with
    | .v4 bits => 4 :: (toOctets 4 bits.toNat ++ toOctets 2 ap.port.toNat)
    | .v6 bits zone => 6 :: (toOctets 16 bits.toNat ++ (toOctets 2 ap.port.toNat ++ zone))

def unspell : Bytes → Except Bytes AddrPort
  | 4 :: rest => .ok ⟨.v4 (BitVec.ofNat 32 (ofOctets (rest.take 4))),
      UInt16.ofNat (ofOctets ((rest.drop 4).take 2))⟩
  | 6 :: rest => .ok ⟨.v6 (BitVec.ofNat 128 (ofOctets (rest.take 16))) (rest.drop 18),
      UInt16.ofNat (ofOctets ((rest.drop 16).take 2))⟩
  | s => if s = ascii "127.0.0.1:853" then .ok loopback else .error (ascii "not an ip:port")

theorem unspell_spell (ap : AddrPort) : unspell (spell ap) = .ok ap := by
  by_cases hap : ap = loopback
  · rw [spell, if_pos hap, hap]
    rfl
  obtain ⟨addr, port⟩ := ap
  have hport : ofOctets (toOctets 2 port.toNat) = port.toNat := ofOctets_toOctets port.toNat_lt
  rw [spell, if_neg hap]
  cases addr with
  | v4 bits =>
      have hbits : ofOctets (toOctets 4 bits.toNat) = bits.toNat := ofOctets_toOctets bits.isLt
      simp only [unspell]
      rw [List.take_left' (toOctets_length _ _), List.drop_left' (toOctets_length _ _),
        List.take_of_length_le (Nat.le_of_eq (toOctets_length _ _)), hbits, hport,
        BitVec.ofNat_toNat, BitVec.setWidth_eq, UInt16.ofNat_toNat]
  | v6 bits zone =>
      have hbits : ofOctets (toOctets 16 bits.toNat) = bits.toNat := ofOctets_toOctets bits.isLt
      simp only [unspell]
      rw [List.take_left' (toOctets_length _ _), List.drop_left' (toOctets_length _ _),
        List.take_left' (toOctets_length _ _), hbits, hport, BitVec.ofNat_toNat,
        BitVec.setWidth_eq, UInt16.ofNat_toNat, ← List.append_assoc,
        List.drop_left' (by rw [List.length_append, toOctets_length, toOctets_length])]

def loopbackLibrary : Library where
  parseAddr s := if s = ascii "127.0.0.1" then .ok loopback.addr else .error (ascii "not an ip")
  parseAddrPort := unspell
  addrText _ := ascii "127.0.0.1"
  text := spell
  quote s := 34 :: s ++ [34]
  quote64 s := 34 :: s.take 64 ++ [34]
  parse_text := unspell_spell

def dotGateway : Gateway where
  library := loopbackLibrary
  config := {
    port := 53, dotPort := 853, dohPort := 4443, doqPort := 853, dotListen := [ascii "127.0.0.1"] }
  certs := true

/-- `dot 127.0.0.1:853` with a listening socket bound there. -/
def addDot : Message where
  bytes := [255, 255, 255, 254, 0, 0, 0, 17] ++ ascii "dot 127.0.0.1:853"
  fds := [⟨.ok sockStream, true, .ok (.inet4 0x7f000001 853), none⟩]

theorem messages_keep_tables_addDot :
    let start := started loopbackLibrary [] Dict.empty (some ⟨[], [], [], ∅⟩) none
    let s := after dotGateway start [addDot]
    s.ddr.map Ddr.dot = some [loopback] ∧ InStep s := by
  refine ⟨by decide, ?_⟩
  refine (messages_keep_tables dotGateway [] Dict.empty (some ⟨[], [], [], ∅⟩) none [addDot]).2.1 ?_
  rintro d ⟨⟩ kind - ap
  refine iff_of_false ?_ ?_
  · cases kind <;> exact List.not_mem_nil
  · rintro ⟨k, ⟨⟩⟩

end PfBlockerNG.ControlVerbs
