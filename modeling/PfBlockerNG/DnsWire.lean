import PfBlockerNG.DnsNames

/-!
The DNS wire codec: `parse` with the expansion of compressed names, and `encode` with the
compression of owner names.
-/

namespace PfBlockerNG.DnsWire

open PfBlockerNG.ByteStrings
open PfBlockerNG.Strings
open PfBlockerNG.DnsNames

structure Question where
  name : Str
  qtype : Nat
  qclass : Nat
  deriving DecidableEq, Repr

structure RR where
  name : Str
  rtype : Nat
  rclass : Nat
  ttl : Nat
  rdata : Bytes
  deriving DecidableEq, Repr

structure Message where
  id : Nat
  flags : Nat
  questions : List Question
  answers : List RR
  authority : List RR
  additional : List RR
  deriving DecidableEq, Repr

/-- A part of an rdata layout: a run of fixed octets, or a domain name. -/
inductive Part where
  | octets (n : Nat)
  | name
  deriving DecidableEq, Repr

/-- The layouts of the types whose names may be compressed on the wire. -/
def nameLayouts : List (Nat × List Part) :=
  [(2, [.name]),
   (3, [.name]),
   (4, [.name]),
   (5, [.name]),
   (6, [.name, .name, .octets 20]),
   (7, [.name]),
   (8, [.name]),
   (9, [.name]),
   (12, [.name]),
   (14, [.name, .name]),
   (15, [.octets 2, .name])]

def maxHops : Nat := 127
def headerSize : Nat := 12

/-- The labels of the name at `cur`, following compression pointers, and the offset past it in the
stream. The other arguments are the locals of the loop. -/
def readLabels (data : Bytes) (cur : Nat) (labels : List Label) (wireLen : Nat)
    (stop : Option Nat) (hops : Nat) : Except String (List Label × Nat) :=
  match data[cur]? with
  | none => .error "truncated name"
  | some head =>
      let octet := head.toNat
      if octet = 0 then .ok (labels, stop.getD (cur + 1))
      else if octet &&& 0xC0 = 0xC0 then
        match data[cur + 1]? with
        | none => .error "truncated compression pointer"
        | some low =>
            let target := ((octet &&& 0x3F) <<< 8) ||| low.toNat
            if cur ≤ target then .error "compression pointer does not point backwards"
            else if h : maxHops < hops + 1 then
              .error "more than 127 compression pointers in one name"
            else readLabels data target labels wireLen (some (stop.getD (cur + 2))) (hops + 1)
      else if octet &&& 0xC0 ≠ 0 then
        .error "reserved label type or label longer than 63 octets"
      else if data.length < cur + 1 + octet then .error "truncated label"
      else if h : maxName < wireLen + (1 + octet) then .error "name longer than 255 octets"
      else
        readLabels data (cur + 1 + octet) (labels ++ [(data.drop (cur + 1)).take octet])
          (wireLen + (1 + octet)) stop hops
termination_by (maxName - wireLen) + (maxHops - hops)
decreasing_by
  · simp only [maxName, maxHops] at *
    omega
  · simp only [maxName, maxHops] at *
    omega

/-- `_read_labels(data, pos)`. -/
def readName (data : Bytes) (pos : Nat) : Except String (List Label × Nat) :=
  readLabels data pos [] 1 none 0

/-- The parts of a layout read from `cur` on, and the offset reached. -/
def expandParts (data : Bytes) (stop : Nat) : List Part → Nat → Except String (Bytes × Nat)
  | [], cur => .ok ([], cur)
  | .name :: parts, cur => do
      let (labels, cur) ← readName data cur
      if stop < cur then .error "name overruns rdata"
      let (out, last) ← expandParts data stop parts cur
      return (uncompressed labels ++ out, last)
  | .octets n :: parts, cur => do
      if stop < cur + n then .error "fixed rdata field overruns rdata"
      let (out, last) ← expandParts data stop parts (cur + n)
      return ((data.drop cur).take n ++ out, last)

def expandRdata (data : Bytes) (rtype start stop : Nat) : Except String Bytes :=
  match nameLayouts.lookup rtype with
  | none => .ok ((data.drop start).take (stop - start))
  | some layout => do
      let (out, cur) ← expandParts data stop layout start
      if cur ≠ stop then .error "rdata length mismatch"
      return out

/-- One round of the loop over the questions. -/
def parseQuestion (data : Bytes) (pos : Nat) : Except String (Question × Nat) := do
  let (labels, pos) ← readName data pos
  if data.length < pos + 4 then .error "truncated question"
  return (⟨labelsToText labels, unpack 2 data pos, unpack 2 data (pos + 2)⟩, pos + 4)

/-- One round of the loop over the records of a section. -/
def parseRecord (data : Bytes) (pos : Nat) : Except String (RR × Nat) := do
  let (labels, pos) ← readName data pos
  if data.length < pos + 10 then .error "truncated record"
  let rtype := unpack 2 data pos
  let rdlength := unpack 2 data (pos + 8)
  if data.length < pos + 10 + rdlength then .error "rdata overruns packet"
  let rdata ← expandRdata data rtype (pos + 10) (pos + 10 + rdlength)
  return (⟨labelsToText labels, rtype, unpack 2 data (pos + 2), unpack 4 data (pos + 4), rdata⟩,
    pos + 10 + rdlength)

/-- `for _ in range(count)` over an item read at the position reached. -/
def repeated {α : Type} (item : Nat → Except String (α × Nat)) :
    Nat → Nat → Except String (List α × Nat)
  | 0, pos => .ok ([], pos)
  | n + 1, pos => do
      let (x, pos) ← item pos
      let (xs, pos) ← repeated item n pos
      return (x :: xs, pos)

/-- Parse a message; octets after the last declared record are ignored. -/
def parse (data : Bytes) : Except String Message := do
  if data.length < headerSize then .error "short header"
  let qdcount := unpack 2 data 4
  let ancount := unpack 2 data 6
  let nscount := unpack 2 data 8
  let arcount := unpack 2 data 10
  if data.length - headerSize < qdcount * 5 + (ancount + nscount + arcount) * 11 then
    .error "record counts exceed packet size"
  let (questions, pos) ← repeated (parseQuestion data) qdcount headerSize
  let (answers, pos) ← repeated (parseRecord data) ancount pos
  let (authority, pos) ← repeated (parseRecord data) nscount pos
  let (additional, _) ← repeated (parseRecord data) arcount pos
  return ⟨unpack 2 data 0, unpack 2 data 2, questions, answers, authority, additional⟩

/-- What `encode` raises: the `ValueError` of a name, or `struct.error`. -/
inductive EncodeError where
  | name (e : NameError)
  | struct
  deriving DecidableEq, Repr

/-- `struct.pack` of one unsigned field of `n` octets. -/
def pack (n x : Nat) : Except EncodeError Bytes :=
  if x < 256 ^ n then .ok (toOctets n x) else .error .struct

/-- The output so far, and the offset of each suffix written, by its lower-cased labels. -/
structure Writer where
  out : Bytes
  seen : List (List Label × Nat)

def Writer.extend (w : Writer) (bs : Bytes) : Writer := { w with out := w.out ++ bs }

/-- The entry for the suffix about to be written, where a pointer can reach it. -/
def Writer.note (w : Writer) (suffix : List Label) : Writer :=
  if w.out.length < 0x4000 then { w with seen := (suffix, w.out.length) :: w.seen } else w

theorem Writer.extend_begins (w : Writer) (bs : Bytes) : w.out <+: (w.extend bs).out :=
  List.prefix_append _ _

theorem Writer.extend_at (w : Writer) (bs : Bytes) : At (w.extend bs).out w.out.length bs :=
  at_append _ _

@[simp] theorem Writer.extend_length (w : Writer) (bs : Bytes) :
    (w.extend bs).out.length = w.out.length + bs.length :=
  List.length_append

@[simp] theorem Writer.extend_seen (w : Writer) (bs : Bytes) : (w.extend bs).seen = w.seen := rfl

@[simp] theorem Writer.note_out (w : Writer) (suffix : List Label) :
    (w.note suffix).out = w.out := by
  unfold Writer.note
  split <;> rfl

theorem Writer.mem_note {w : Writer} {suffix : List Label} {entry : List Label × Nat}
    (h : entry ∈ (w.note suffix).seen) :
    entry ∈ w.seen ∨ entry = (suffix, w.out.length) ∧ w.out.length < 0x4000 := by
  unfold Writer.note at h
  split at h
  · next hlow =>
      rcases List.mem_cons.mp h with h | h
      · exact Or.inr ⟨h, hlow⟩
      · exact Or.inl h
  · exact Or.inl h

/-- The loop of `put_name` over the labels. -/
def putLabels : List Label → Writer → Except EncodeError Writer
  | [], w => .ok (w.extend [0])
  | label :: rest, w =>
      match w.seen.lookup ((label :: rest).map lower) with
      | some offset => do
          let pointer ← pack 2 (0xC000 ||| offset)
          return w.extend pointer
      | none =>
          putLabels rest ((w.note ((label :: rest).map lower)).extend
            (UInt8.ofNat label.length :: label))

def putName (t : DigitTables) (name : Str) (w : Writer) : Except EncodeError Writer :=
  match nameToLabels t name with
  | .error e => .error (.name e)
  | .ok labels => putLabels labels w

def putQuestion (t : DigitTables) (question : Question) (w : Writer) :
    Except EncodeError Writer := do
  let w ← putName t question.name w
  let qtype ← pack 2 question.qtype
  let qclass ← pack 2 question.qclass
  return w.extend (qtype ++ qclass)

def putRecord (t : DigitTables) (rr : RR) (w : Writer) : Except EncodeError Writer := do
  let w ← putName t rr.name w
  let rtype ← pack 2 rr.rtype
  let rclass ← pack 2 rr.rclass
  let ttl ← pack 4 rr.ttl
  let rdlength ← pack 2 rr.rdata.length
  return w.extend (rtype ++ rclass ++ ttl ++ rdlength ++ rr.rdata)

/-- `for x in xs: put(x)`. -/
def putAll {α : Type} (put : α → Writer → Except EncodeError Writer) :
    List α → Writer → Except EncodeError Writer
  | [], w => .ok w
  | x :: xs, w => do
      let w ← put x w
      putAll put xs w

def encode (t : DigitTables) (message : Message) : Except EncodeError Bytes := do
  let id ← pack 2 message.id
  let flags ← pack 2 message.flags
  let qdcount ← pack 2 message.questions.length
  let ancount ← pack 2 message.answers.length
  let nscount ← pack 2 message.authority.length
  let arcount ← pack 2 message.additional.length
  let w : Writer := ⟨id ++ flags ++ qdcount ++ ancount ++ nscount ++ arcount, []⟩
  let w ← putAll (putQuestion t) message.questions w
  let w ← putAll (putRecord t) (message.answers ++ message.authority ++ message.additional) w
  return w.out

theorem bind_eq_ok_iff {ε α β : Type} {x : Except ε α} {f : α → Except ε β} {b : β} :
    x >>= f = .ok b ↔ ∃ a, x = .ok a ∧ f a = .ok b := by
  cases x with
  | error e =>
      constructor
      · intro h
        cases h
      · rintro ⟨a, ha, -⟩
        cases ha
  | ok a => simp [bind, Except.bind]

theorem pack_eq_ok {n x : Nat} (h : x < 256 ^ n) : pack n x = .ok (toOctets n x) := by
  rw [pack, if_pos h]

end PfBlockerNG.DnsWire
