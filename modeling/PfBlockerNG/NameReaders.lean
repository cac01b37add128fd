import PfBlockerNG.DnsNameWire

/-!
The two readers of a compressed name, round by round: the loop of `_read_labels` and the loop over
the question of a packet. Each access checks its own bounds, and one that falls outside is told
apart from a refusal.
-/

namespace PfBlockerNG.NameReaders

open PfBlockerNG.ByteStrings
open PfBlockerNG.DnsNames
open PfBlockerNG.DnsWire
open PfBlockerNG.DnsNameWire

/-! ### Rounds of a loop -/

section Rounds

variable {σ ρ ε : Type}

/-- At most `n` rounds of a loop that fails, goes on with new locals, or returns. -/
def rounds (round : σ → Except ε (σ ⊕ ρ)) : Nat → σ → Except ε (σ ⊕ ρ)
  | 0, s => .ok (.inl s)
  | n + 1, s =>
      match round s with
      | .ok (.inl s') => rounds round n s'
      | out => out

variable {round : σ → Except ε (σ ⊕ ρ)}

theorem rounds_of_inl {s s' : σ} (h : round s = .ok (.inl s')) (n : Nat) :
    rounds round (n + 1) s = rounds round n s' := by
  rw [rounds, h]

theorem rounds_of_inr {s : σ} {r : ρ} (h : round s = .ok (.inr r)) (n : Nat) :
    rounds round (n + 1) s = .ok (.inr r) := by
  rw [rounds, h]

theorem rounds_of_error {s : σ} {e : ε} (h : round s = .error e) (n : Nat) :
    rounds round (n + 1) s = .error e := by
  rw [rounds, h]

/-- What every round preserves holds of the locals after `n` rounds. -/
theorem rounds_invariant {I : Nat → σ → Prop}
    (hround : ∀ n s s', I n s → round s = .ok (.inl s') → I (n + 1) s') {n k : Nat} {s s' : σ}
    (hs : I k s) (h : rounds round n s = .ok (.inl s')) : I (k + n) s' := by
  induction n generalizing k s with
  | zero =>
      cases h
      exact hs
  | succ n ih =>
      cases hr : round s with
      | error e =>
          rw [rounds_of_error hr] at h
          cases h
      | ok out =>
          cases out with
          | inl next =>
              rw [rounds_of_inl hr] at h
              have hnext := ih (hround k s next hs hr) h
              rwa [Nat.add_right_comm] at hnext
          | inr r =>
              rw [rounds_of_inr hr] at h
              cases h

end Rounds

/-! ### `_read_labels` -/

/-- An access outside the data, or the reader's own error with its text. -/
inductive Fault where
  | outside
  | wire (text : String)
  deriving DecidableEq, Repr

/-- `data[i]`. -/
def octetAt (data : Bytes) (i : Nat) : Except Fault Nat :=
  match data[i]? with
  | none => .error .outside
  | some octet => .ok octet.toNat

/-- `data[i : i + n]` where all of it is there. -/
def sliceAt (data : Bytes) (i n : Nat) : Except Fault Bytes :=
  if data.length < i + n then .error .outside else .ok ((data.drop i).take n)

structure Locals where
  labels : List Label
  wireLen : Nat
  stop : Option Nat
  hops : Nat
  cur : Nat
  deriving DecidableEq, Repr

def Locals.start (pos : Nat) : Locals := ⟨[], 1, none, 0, pos⟩

/-- One round of `_read_labels`. -/
def readLabelsRound (data : Bytes) (s : Locals) : Except Fault (Locals ⊕ List Label × Nat) :=
  if data.length ≤ s.cur then .error (.wire "truncated name")
  else do
    let octet ← octetAt data s.cur
    if octet = 0 then .ok (.inr (s.labels, s.stop.getD (s.cur + 1)))
    else if octet &&& 0xC0 = 0xC0 then
      if data.length ≤ s.cur + 1 then .error (.wire "truncated compression pointer")
      else do
        let low ← octetAt data (s.cur + 1)
        let target := ((octet &&& 0x3F) <<< 8) ||| low
        if s.cur ≤ target then .error (.wire "compression pointer does not point backwards")
        else if maxHops < s.hops + 1 then
          .error (.wire "more than 127 compression pointers in one name")
        else .ok (.inl { s with
          stop := some (s.stop.getD (s.cur + 2)), hops := s.hops + 1, cur := target })
    else if octet &&& 0xC0 ≠ 0 then
      .error (.wire "reserved label type or label longer than 63 octets")
    else if data.length < s.cur + 1 + octet then .error (.wire "truncated label")
    else if maxName < s.wireLen + (1 + octet) then .error (.wire "name longer than 255 octets")
    else do
      let label ← sliceAt data (s.cur + 1) octet
      .ok (.inl { s with
        labels := s.labels ++ [label], wireLen := s.wireLen + (1 + octet)
        cur := s.cur + 1 + octet })

/-- The loop of `_read_labels(data, pos)`, `n` rounds of it. -/
def readLabelsRounds (data : Bytes) (pos n : Nat) : Except Fault (Locals ⊕ List Label × Nat) :=
  rounds (readLabelsRound data) n (Locals.start pos)

/-! ### `upstreamQuestion.read` -/

/-- A run-time panic, or the answer false. -/
inductive Refusal where
  | panic
  | unread
  deriving DecidableEq, Repr

/-- `wire[i]`. -/
def byteAt (wire : Bytes) (i : Nat) : Except Refusal Nat :=
  match wire[i]? with
  | none => .error .panic
  | some octet => .ok octet.toNat

/-- `wire[i : i + n]`. -/
def bytesAt (wire : Bytes) (i n : Nat) : Except Refusal Bytes :=
  if wire.length < i + n then .error .panic else .ok ((wire.drop i).take n)

/-- `binary.BigEndian.Uint16(wire[i:])`. -/
def uint16At (wire : Bytes) (i : Nat) : Except Refusal Nat :=
  if wire.length < i + 2 then .error .panic else .ok (unpack 2 wire i)

/-- `q.name[size] = c` on the array of 255 octets, of which `name` holds the first `size`. -/
def put (name : Bytes) (c : UInt8) : Except Refusal Bytes :=
  if name.length < 255 then .ok (name ++ [c]) else .error .panic

def foldOctet (c : UInt8) : UInt8 := if 0x41 ≤ c ∧ c ≤ 0x5A then c + 0x20 else c

/-- `upstreamQuestion`: the octets of the name, `length` of them, and type and class. -/
structure UpstreamQuestion where
  name : Bytes
  typ : Nat
  class_ : Nat
  deriving DecidableEq, Repr

structure UpstreamLocals where
  name : Bytes
  pos : Nat
  stop : Nat
  hops : Nat
  deriving DecidableEq, Repr

def UpstreamLocals.start : UpstreamLocals := ⟨[], headerSize, 0, 0⟩

/-- One round of the loop of `upstreamQuestion.read`. -/
def upstreamRound (wire : Bytes) (s : UpstreamLocals) :
    Except Refusal (UpstreamLocals ⊕ UpstreamQuestion) :=
  if wire.length ≤ s.pos then .error .unread
  else do
    let n ← byteAt wire s.pos
    if n &&& 0xC0 = 0xC0 then
      if wire.length ≤ s.pos + 1 then .error .unread
      else do
        let low ← byteAt wire (s.pos + 1)
        let target := ((n &&& 0x3F) <<< 8) ||| low
        if target < headerSize ∨ s.pos ≤ target ∨ 127 < s.hops + 1 then .error .unread
        else .ok (.inl { s with
          stop := if s.stop = 0 then s.pos + 2 else s.stop, hops := s.hops + 1, pos := target })
    else if n &&& 0xC0 = 0 then
      if n = 0 then do
        let name ← put s.name 0
        let stop := if s.stop = 0 then s.pos + 1 else s.stop
        if wire.length < stop + 4 then .error .unread
        else do
          let typ ← uint16At wire stop
          let class_ ← uint16At wire (stop + 2)
          .ok (.inr ⟨name, typ, class_⟩)
      else if wire.length < s.pos + 1 + n ∨ 255 ≤ s.name.length + 1 + n then .error .unread
      else do
        let name ← put s.name (UInt8.ofNat n)
        let label ← bytesAt wire (s.pos + 1) n
        let name ← label.foldlM (fun name c => put name (foldOctet c)) name
        .ok (.inl { s with name := name, pos := s.pos + 1 + n })
    else .error .unread

/-- `upstreamQuestion.read`, with at most `n` rounds of its loop. -/
def upstreamRead (wire : Bytes) (n : Nat) : Except Refusal (UpstreamLocals ⊕ UpstreamQuestion) :=
  if wire.length < headerSize then .error .unread
  else do
    let questions ← uint16At wire 4
    if questions = 0 then .error .unread
    else rounds (upstreamRound wire) n UpstreamLocals.start

/-! ### The rounds of `_read_labels` -/

/-- The name still to be read from the locals. -/
def readFrom (data : Bytes) (s : Locals) : Except String (List Label × Nat) :=
  readLabels data s.cur s.labels s.wireLen s.stop s.hops

/-- How a finished loop ends. -/
def ended (out : Except String (List Label × Nat)) : Except Fault (Locals ⊕ List Label × Nat) :=
  match out with
  | .error text => .error (.wire text)
  | .ok name => .ok (.inr name)

/-- The offset a pointer gives. -/
def targetOf (head low : UInt8) : Nat := ((head.toNat &&& 0x3F) <<< 8) ||| low.toNat

/-- Why a round refuses. -/
inductive Refused (data : Bytes) (s : Locals) : Prop
  | truncated (hhead : data[s.cur]? = none)
  | truncatedPointer {head : UInt8} (hhead : data[s.cur]? = some head)
      (hkind : head.toNat &&& 0xC0 = 0xC0) (hlow : data[s.cur + 1]? = none)
  | forward {head low : UInt8} (hhead : data[s.cur]? = some head)
      (hkind : head.toNat &&& 0xC0 = 0xC0) (hlow : data[s.cur + 1]? = some low)
      (hbad : s.cur ≤ targetOf head low ∨ maxHops < s.hops + 1)
  | reserved {head : UInt8} (hhead : data[s.cur]? = some head)
      (hkind : ¬ head.toNat &&& 0xC0 = 0xC0) (hbits : ¬ head.toNat &&& 0xC0 = 0)
  | long {head : UInt8} (hhead : data[s.cur]? = some head) (hpos : ¬ head.toNat = 0)
      (hkind : ¬ head.toNat &&& 0xC0 = 0xC0) (hbits : head.toNat &&& 0xC0 = 0)
      (hbad : data.length < s.cur + 1 + head.toNat ∨ maxName < s.wireLen + (1 + head.toNat))

def afterPointer (s : Locals) (head low : UInt8) : Locals :=
  { s with stop := some (s.stop.getD (s.cur + 2)), hops := s.hops + 1, cur := targetOf head low }

def afterLabel (data : Bytes) (s : Locals) (head : UInt8) : Locals :=
  { s with
    labels := s.labels ++ [(data.drop (s.cur + 1)).take head.toNat]
    wireLen := s.wireLen + (1 + head.toNat)
    cur := s.cur + 1 + head.toNat }

/-- A round refuses, reads the root, follows a pointer, or takes a label. -/
inductive RoundOf (data : Bytes) (s : Locals) : Prop
  | refused (text : String) (hwhy : Refused data s)
      (h : readLabelsRound data s = .error (.wire text)) (hfrom : readFrom data s = .error text)
  | root (head : UInt8) (hhead : data[s.cur]? = some head) (hzero : head.toNat = 0)
      (h : readLabelsRound data s = .ok (.inr (s.labels, s.stop.getD (s.cur + 1))))
      (hfrom : readFrom data s = .ok (s.labels, s.stop.getD (s.cur + 1)))
  | pointer (head low : UInt8) (hhead : data[s.cur]? = some head)
      (hkind : head.toNat &&& 0xC0 = 0xC0) (hlow : data[s.cur + 1]? = some low)
      (hback : targetOf head low < s.cur) (hhops : s.hops < maxHops)
      (h : readLabelsRound data s = .ok (.inl (afterPointer s head low)))
      (hfrom : readFrom data s = readFrom data (afterPointer s head low))
  | label (head : UInt8) (hhead : data[s.cur]? = some head) (hpos : 0 < head.toNat)
      (hshort : head.toNat < 64) (hinside : s.cur + 1 + head.toNat ≤ data.length)
      (hfits : s.wireLen + (1 + head.toNat) ≤ maxName)
      (h : readLabelsRound data s = .ok (.inl (afterLabel data s head)))
      (hfrom : readFrom data s = readFrom data (afterLabel data s head))

theorem octetAt_eq_ok {data : Bytes} {i : Nat} {octet : UInt8} (h : data[i]? = some octet) :
    octetAt data i = .ok octet.toNat := by
  rw [octetAt, h]

theorem lt_length_of_getElem?_eq_some {data : Bytes} {i : Nat} {octet : UInt8}
    (h : data[i]? = some octet) : ¬ data.length ≤ i :=
  Nat.not_le.mpr (List.getElem?_eq_some_iff.mp h).1

theorem roundOf (data : Bytes) (s : Locals) : RoundOf data s := by
  cases hhead : data[s.cur]? with
  | none =>
      refine .refused "truncated name" (.truncated hhead) ?_ ?_
      · rw [readLabelsRound, if_pos (List.getElem?_eq_none_iff.mp hhead)]
      · rw [readFrom, readLabels, hhead]
  | some head =>
      have hin := lt_length_of_getElem?_eq_some hhead
      by_cases hzero : head.toNat = 0
      · refine .root head hhead hzero ?_ ?_
        · rw [readLabelsRound, if_neg hin, octetAt_eq_ok hhead]
          simp only [hzero, bind, Except.bind, if_true]
        · rw [readFrom, readLabels, hhead]
          simp only [hzero, if_true]
      by_cases hkind : head.toNat &&& 0xC0 = 0xC0
      · cases hlow : data[s.cur + 1]? with
        | none =>
            refine .refused "truncated compression pointer"
              (.truncatedPointer hhead hkind hlow) ?_ ?_
            · rw [readLabelsRound, if_neg hin, octetAt_eq_ok hhead]
              simp only [hzero, hkind, List.getElem?_eq_none_iff.mp hlow, bind, Except.bind,
                if_true, if_false]
            · rw [readFrom, readLabels, hhead]
              simp only [hzero, hkind, hlow, if_true, if_false]
        | some low =>
            have hin' := lt_length_of_getElem?_eq_some hlow
            by_cases hback : s.cur ≤ ((head.toNat &&& 0x3F) <<< 8) ||| low.toNat
            · refine .refused "compression pointer does not point backwards"
                (.forward hhead hkind hlow (Or.inl hback)) ?_ ?_
              · rw [readLabelsRound, if_neg hin, octetAt_eq_ok hhead]
                simp only [hzero, hkind, hin', octetAt_eq_ok hlow, hback, bind, Except.bind,
                  if_true, if_false]
              · rw [readFrom, readLabels, hhead]
                simp only [hzero, hkind, hlow, hback, if_true, if_false]
            by_cases hhops : maxHops < s.hops + 1
            · refine .refused "more than 127 compression pointers in one name"
                (.forward hhead hkind hlow (Or.inr hhops)) ?_ ?_
              · rw [readLabelsRound, if_neg hin, octetAt_eq_ok hhead]
                simp only [hzero, hkind, hin', octetAt_eq_ok hlow, hback, hhops, bind, Except.bind,
                  if_true, if_false]
              · rw [readFrom, readLabels, hhead]
                simp only [hzero, hkind, hlow, hback, hhops, if_true, if_false, dite_true]
            · refine .pointer head low hhead hkind hlow (Nat.not_le.mp hback)
                (Nat.lt_of_succ_le (Nat.not_lt.mp hhops)) ?_ ?_
              · rw [readLabelsRound, if_neg hin, octetAt_eq_ok hhead]
                simp only [hzero, hkind, hin', octetAt_eq_ok hlow, hback, hhops, bind, Except.bind,
                  if_true, if_false]
                rfl
              · rw [readFrom, readLabels, hhead]
                simp only [hzero, hkind, hlow, hback, hhops, if_true, if_false, dite_false]
                rfl
      by_cases hbits : ¬ head.toNat &&& 0xC0 = 0
      · refine .refused "reserved label type or label longer than 63 octets"
          (.reserved hhead hkind hbits) ?_ ?_
        · rw [readLabelsRound, if_neg hin, octetAt_eq_ok hhead]
          simp only [hzero, hkind, hbits, ne_eq, bind, Except.bind, if_true, if_false,
            not_false_iff]
        · rw [readFrom, readLabels, hhead]
          simp only [hzero, hkind, hbits, ne_eq, if_true, if_false, not_false_iff]
      have hlow : head.toNat &&& 0xC0 = 0 := not_not.mp hbits
      by_cases hinside : data.length < s.cur + 1 + head.toNat
      · refine .refused "truncated label" (.long hhead hzero hkind hlow (Or.inl hinside)) ?_ ?_
        · rw [readLabelsRound, if_neg hin, octetAt_eq_ok hhead]
          simp only [hzero, hkind, hbits, hinside, bind, Except.bind, if_true, if_false]
        · rw [readFrom, readLabels, hhead]
          simp only [hzero, hkind, hbits, hinside, if_true, if_false]
      by_cases hfits : maxName < s.wireLen + (1 + head.toNat)
      · refine .refused "name longer than 255 octets"
          (.long hhead hzero hkind hlow (Or.inr hfits)) ?_ ?_
        · rw [readLabelsRound, if_neg hin, octetAt_eq_ok hhead]
          simp only [hzero, hkind, hbits, hinside, hfits, bind, Except.bind, if_true, if_false]
        · rw [readFrom, readLabels, hhead]
          simp only [hzero, hkind, hbits, hinside, hfits, if_false, dite_true]
      refine .label head hhead (Nat.pos_of_ne_zero hzero) ((high_bits _ head.toNat_lt).2.mp hlow)
        (Nat.not_lt.mp hinside) (Nat.not_lt.mp hfits) ?_ ?_
      · rw [readLabelsRound, if_neg hin, octetAt_eq_ok hhead]
        simp only [hzero, hkind, hbits, hinside, hfits, sliceAt, bind, Except.bind, if_false]
        rfl
      · rw [readFrom, readLabels, hhead]
        simp only [hzero, hkind, hbits, hinside, hfits, if_false, dite_false]
        rfl

/-- What holds of the locals after `n` rounds. -/
structure Bounded (n : Nat) (s : Locals) : Prop where
  valid : ValidLabels s.labels
  wireLen : s.wireLen = wireLength s.labels
  hops : s.hops ≤ maxHops
  count : n = s.hops + s.labels.length

theorem Bounded.start (pos : Nat) : Bounded 0 (Locals.start pos) :=
  ⟨validLabels_nil, rfl, Nat.zero_le _, rfl⟩

theorem Bounded.labels_le {n : Nat} {s : Locals} (h : Bounded n s) : s.labels.length ≤ 127 := by
  have hlength := h.valid.two_mul_length_lt
  have hfits := h.valid.fits
  simp only [maxName] at hfits
  omega

theorem Bounded.afterPointer {n : Nat} {s : Locals} (h : Bounded n s) (head low : UInt8)
    (hhops : s.hops < maxHops) : Bounded (n + 1) (afterPointer s head low) where
  valid := h.valid
  wireLen := h.wireLen
  hops := hhops
  count := by
    rw [h.count]
    exact Nat.add_right_comm _ _ _

theorem taken_length {data : Bytes} {i n : Nat} (h : i + n ≤ data.length) :
    ((data.drop i).take n).length = n := by
  rw [List.length_take, List.length_drop]
  omega

theorem Bounded.afterLabel {n : Nat} {data : Bytes} {s : Locals} (h : Bounded n s) {head : UInt8}
    (hpos : 0 < head.toNat) (hshort : head.toNat < 64)
    (hinside : s.cur + 1 + head.toNat ≤ data.length)
    (hfits : s.wireLen + (1 + head.toNat) ≤ maxName) :
    Bounded (n + 1) (afterLabel data s head) where
  valid := by
    have hlength := taken_length hinside
    refine h.valid.push ?_ ?_ ?_
    · rwa [hlength]
    · rw [hlength]
      exact Nat.le_of_lt_succ hshort
    · rwa [hlength, ← h.wireLen]
  wireLen := by
    show s.wireLen + (1 + head.toNat) = wireLength (s.labels ++ [_])
    rw [wireLength_push, taken_length hinside, h.wireLen]
  hops := h.hops
  count := by
    show n + 1 = s.hops + (s.labels ++ [_]).length
    rw [h.count, List.length_append, List.length_singleton, Nat.add_assoc]

theorem Bounded.round {data : Bytes} {n : Nat} {s s' : Locals} (h : Bounded n s)
    (hround : readLabelsRound data s = .ok (.inl s')) : Bounded (n + 1) s' := by
  cases roundOf data s with
  | refused text _ hout =>
      rw [hout] at hround
      cases hround
  | root _ _ _ hout =>
      rw [hout] at hround
      cases hround
  | pointer head low _ _ _ _ hhops hout =>
      rw [hout] at hround
      cases hround
      exact h.afterPointer head low hhops
  | label head _ hpos hshort hinside hfits hout =>
      rw [hout] at hround
      cases hround
      exact h.afterLabel hpos hshort hinside hfits

theorem readLabelsRounds_bounded {data : Bytes} {pos n : Nat} {s : Locals}
    (h : readLabelsRounds data pos n = .ok (.inl s)) : Bounded n s := by
  have hinv := rounds_invariant (fun n s s' hs hr => Bounded.round (n := n) hs hr)
    (Bounded.start pos) h
  rwa [Nat.zero_add] at hinv

/-- The loop is still running, or it has ended as the reader does. -/
theorem rounds_readFrom (data : Bytes) (n : Nat) (s : Locals) :
    (∃ s', rounds (readLabelsRound data) n s = .ok (.inl s')) ∨
      rounds (readLabelsRound data) n s = ended (readFrom data s) := by
  induction n generalizing s with
  | zero => exact Or.inl ⟨s, rfl⟩
  | succ n ih =>
      cases roundOf data s with
      | refused text _ hout hfrom =>
          rw [rounds_of_error hout, hfrom]
          exact Or.inr rfl
      | root _ _ _ hout hfrom =>
          rw [rounds_of_inr hout, hfrom]
          exact Or.inr rfl
      | pointer head low _ _ _ _ _ hout hfrom =>
          rw [rounds_of_inl hout, hfrom]
          exact ih _
      | label head _ _ _ _ _ hout hfrom =>
          rw [rounds_of_inl hout, hfrom]
          exact ih _

/-- After 255 rounds the loop is over. -/
theorem readLabelsRounds_eq (data : Bytes) (pos : Nat) :
    readLabelsRounds data pos 255 = ended (readName data pos) := by
  rcases rounds_readFrom data 255 (Locals.start pos) with ⟨s, hs⟩ | h
  · have hbounded := readLabelsRounds_bounded hs
    have hlabels := hbounded.labels_le
    have hhops := hbounded.hops
    have hcount := hbounded.count
    simp only [maxHops] at hhops
    omega
  · exact h

/-! ### The two loops side by side -/

/-- The loops stand at the same place of the same name, the one with its labels, the other with
their lower-cased octets. -/
structure Lockstep (p : Locals) (q : UpstreamLocals) : Prop where
  name : uncompressed (p.labels.map lower) = q.name ++ [0]
  pos : q.pos = p.cur
  hops : q.hops = p.hops
  stop : q.stop = p.stop.getD 0
  stopPos : p.stop ≠ some 0

theorem Lockstep.start : Lockstep (Locals.start headerSize) UpstreamLocals.start :=
  ⟨rfl, rfl, rfl, rfl, by decide⟩

theorem wireLength_map_lower (labels : List Label) :
    wireLength (labels.map lower) = wireLength labels := by
  simp [wireLength, lower_length, Function.comp_def]

theorem Lockstep.size {n : Nat} {p : Locals} {q : UpstreamLocals} (h : Lockstep p q)
    (hb : Bounded n p) : q.name.length + 1 = p.wireLen := by
  have hlength := congrArg List.length h.name
  rw [uncompressed_length, wireLength_map_lower, List.length_append, List.length_singleton]
    at hlength
  rw [hb.wireLen, hlength]

theorem Lockstep.stop_getD {p : Locals} {q : UpstreamLocals} (h : Lockstep p q) (e : Nat) :
    (if q.stop = 0 then e else q.stop) = p.stop.getD e := by
  rw [h.stop]
  cases hstop : p.stop with
  | none => rfl
  | some last =>
      have hne : last ≠ 0 := by
        rintro rfl
        exact h.stopPos hstop
      exact if_neg hne

theorem uncompressed_push {labels : List Label} {front : Bytes} (label : Label)
    (h : uncompressed labels = front ++ [0]) :
    uncompressed (labels ++ [label]) = front ++ (UInt8.ofNat label.length :: label) ++ [0] := by
  have hfront := List.append_cancel_right h
  rw [uncompressed, List.flatMap_append, hfront, List.flatMap_singleton]

theorem foldlM_put {name label : Bytes} (h : name.length + label.length ≤ 255) :
    label.foldlM (fun name c => put name (foldOctet c)) name = .ok (name ++ lower label) := by
  induction label generalizing name with
  | nil =>
      rw [lower, List.map_nil, List.append_nil]
      rfl
  | cons c label ih =>
      rw [List.length_cons] at h
      have hput : put name (foldOctet c) = .ok (name ++ [foldOctet c]) := if_pos (by omega)
      rw [List.foldlM_cons, hput]
      refine (ih ?_).trans ?_
      · rw [List.length_append, List.length_singleton]
        omega
      · rw [List.append_assoc]
        rfl

/-- A pointer into the header stands at the locals. -/
def HeaderPointer (data : Bytes) (p : Locals) : Prop :=
  ∃ head low : UInt8, data[p.cur]? = some head ∧ head.toNat &&& 0xC0 = 0xC0 ∧
    data[p.cur + 1]? = some low ∧ targetOf head low < headerSize

/-- How the question's loop ends on a name that ends at `stop`. -/
def questionAt (data : Bytes) (labels : List Label) (stop : Nat) :
    Except Refusal (UpstreamLocals ⊕ UpstreamQuestion) :=
  if data.length < stop + 4 then .error .unread
  else .ok (.inr ⟨uncompressed (labels.map lower), unpack 2 data stop, unpack 2 data (stop + 2)⟩)

/-- A round of the one loop and a round of the other. -/
inductive Matched (data : Bytes) (p : Locals) (q : UpstreamLocals) : Prop
  | refused (h : upstreamRound data q = .error .unread)
      (hwhy : (∃ text, readFrom data p = .error text) ∨ HeaderPointer data p)
  | root (labels : List Label) (stop : Nat) (hfrom : readFrom data p = .ok (labels, stop))
      (h : upstreamRound data q = questionAt data labels stop)
  | step (p' : Locals) (q' : UpstreamLocals) (hp : readLabelsRound data p = .ok (.inl p'))
      (hfrom : readFrom data p = readFrom data p') (h : upstreamRound data q = .ok (.inl q'))
      (hnext : Lockstep p' q')

theorem byteAt_eq_ok {data : Bytes} {i : Nat} {octet : UInt8} (h : data[i]? = some octet) :
    byteAt data i = .ok octet.toNat := by
  rw [byteAt, h]

theorem uint16At_eq_ok {wire : Bytes} {i : Nat} (h : ¬ wire.length < i + 2) :
    uint16At wire i = .ok (unpack 2 wire i) := if_neg h

section Lockstep

variable {data : Bytes} {n : Nat} {p : Locals} {q : UpstreamLocals}

theorem Lockstep.refused (h : Lockstep p q) (hb : Bounded n p) (hwhy : Refused data p) :
    upstreamRound data q = .error .unread := by
  cases hwhy with
  | truncated hhead =>
      rw [upstreamRound, if_pos]
      rw [h.pos]
      exact List.getElem?_eq_none_iff.mp hhead
  | truncatedPointer hhead hkind hlow =>
      rw [upstreamRound, h.pos, if_neg (lt_length_of_getElem?_eq_some hhead), byteAt_eq_ok hhead]
      simp only [hkind, List.getElem?_eq_none_iff.mp hlow, bind, Except.bind, if_true]
  | forward hhead hkind hlow hbad =>
      rw [upstreamRound, h.pos, if_neg (lt_length_of_getElem?_eq_some hhead), byteAt_eq_ok hhead]
      simp only [hkind, lt_length_of_getElem?_eq_some hlow, byteAt_eq_ok hlow, bind, Except.bind,
        if_true, if_false, h.hops]
      exact if_pos (Or.inr hbad)
  | reserved hhead hkind hbits =>
      rw [upstreamRound, h.pos, if_neg (lt_length_of_getElem?_eq_some hhead), byteAt_eq_ok hhead]
      simp only [hkind, hbits, bind, Except.bind, if_false]
  | long hhead hpos hkind hbits hbad =>
      have hsize := h.size hb
      rw [upstreamRound, h.pos, if_neg (lt_length_of_getElem?_eq_some hhead), byteAt_eq_ok hhead]
      simp only [hpos, hbits, bind, Except.bind, OfNat.zero_ne_ofNat, if_true, if_false]
      refine if_pos (hbad.imp_right fun hlong => ?_)
      simp only [maxName] at hlong
      omega

theorem Lockstep.root (h : Lockstep p q) (hb : Bounded n p) {head : UInt8}
    (hhead : data[p.cur]? = some head) (hzero : head.toNat = 0) :
    upstreamRound data q = questionAt data p.labels (p.stop.getD (p.cur + 1)) := by
  have hsize := h.size hb
  have hfits := hb.valid.fits
  rw [← hb.wireLen] at hfits
  have hput : put q.name 0 = .ok (q.name ++ [0]) := if_pos (by
    simp only [maxName] at hfits
    omega)
  rw [upstreamRound, h.pos, if_neg (lt_length_of_getElem?_eq_some hhead), byteAt_eq_ok hhead,
    questionAt, h.name]
  simp only [hzero, Nat.zero_and, hput, h.stop_getD, bind, Except.bind, if_true,
    OfNat.zero_ne_ofNat, if_false]
  split
  · rfl
  · next hin =>
      rw [uint16At_eq_ok (by omega), uint16At_eq_ok (by omega)]

theorem Lockstep.pointer (h : Lockstep p q) {head low : UInt8}
    (hhead : data[p.cur]? = some head) (hkind : head.toNat &&& 0xC0 = 0xC0)
    (hlow : data[p.cur + 1]? = some low) (hback : targetOf head low < p.cur)
    (hhops : p.hops < maxHops) (hheader : ¬ targetOf head low < headerSize) :
    ∃ q', upstreamRound data q = .ok (.inl q') ∧ Lockstep (afterPointer p head low) q' := by
  refine ⟨{ q with stop := p.stop.getD (p.cur + 2), hops := p.hops + 1, pos := targetOf head low },
    ?_, ⟨h.name, rfl, rfl, rfl, ?_⟩⟩
  · have hgood : ¬ (targetOf head low < headerSize ∨ p.cur ≤ targetOf head low ∨
        127 < p.hops + 1) := by
      simp only [maxHops] at hhops
      omega
    rw [upstreamRound, h.pos, if_neg (lt_length_of_getElem?_eq_some hhead), byteAt_eq_ok hhead]
    simp only [hkind, lt_length_of_getElem?_eq_some hlow, byteAt_eq_ok hlow, bind, Except.bind,
      if_true, if_false, h.hops, h.stop_getD]
    exact if_neg hgood
  · show some (p.stop.getD (p.cur + 2)) ≠ some 0
    intro hzero
    have hlast := Option.some.inj hzero
    cases hstop : p.stop with
    | none =>
        rw [hstop, Option.getD_none] at hlast
        omega
    | some last =>
        rw [hstop, Option.getD_some] at hlast
        exact h.stopPos (hstop.trans (congrArg some hlast))

theorem Lockstep.label (h : Lockstep p q) (hb : Bounded n p) {head : UInt8}
    (hhead : data[p.cur]? = some head) (hpos : 0 < head.toNat) (hshort : head.toNat < 64)
    (hinside : p.cur + 1 + head.toNat ≤ data.length)
    (hfits : p.wireLen + (1 + head.toNat) ≤ maxName) :
    ∃ q', upstreamRound data q = .ok (.inl q') ∧ Lockstep (afterLabel data p head) q' := by
  have hsize := h.size hb
  simp only [maxName] at hfits
  have hlength := taken_length hinside
  have hbits := high_bits _ head.toNat_lt
  have hput : put q.name (UInt8.ofNat head.toNat) = .ok (q.name ++ [UInt8.ofNat head.toNat]) :=
    if_pos (by omega)
  have hslice : bytesAt data (p.cur + 1) head.toNat =
      .ok ((data.drop (p.cur + 1)).take head.toNat) := if_neg (Nat.not_lt.mpr hinside)
  have hgood : ¬ (data.length < p.cur + 1 + head.toNat ∨
      255 ≤ q.name.length + 1 + head.toNat) := by
    omega
  have hroom : (q.name ++ [UInt8.ofNat head.toNat]).length +
      ((data.drop (p.cur + 1)).take head.toNat).length ≤ 255 := by
    rw [List.length_append, List.length_singleton, hlength]
    omega
  have hcopy := foldlM_put hroom
  refine ⟨{ q with
    name := q.name ++ [UInt8.ofNat head.toNat] ++ lower ((data.drop (p.cur + 1)).take head.toNat)
    pos := p.cur + 1 + head.toNat }, ?_, ⟨?_, rfl, h.hops, h.stop, h.stopPos⟩⟩
  · rw [upstreamRound, h.pos, if_neg (lt_length_of_getElem?_eq_some hhead), byteAt_eq_ok hhead]
    simp only [hbits.2.mpr hshort, Nat.ne_of_gt hpos, hgood, hput, hslice, hcopy, bind,
      Except.bind, OfNat.zero_ne_ofNat, if_true, if_false]
  · show uncompressed ((p.labels ++ [_]).map lower) = _
    rw [List.map_append, List.map_singleton, uncompressed_push _ h.name, lower_length, hlength]
    simp

/-- From locals in lockstep the rounds match. -/
theorem Lockstep.matched (h : Lockstep p q) (hb : Bounded n p) : Matched data p q := by
  cases roundOf data p with
  | refused text hwhy hout hfrom => exact .refused (h.refused hb hwhy) (Or.inl ⟨text, hfrom⟩)
  | root head hhead hzero hout hfrom => exact .root _ _ hfrom (h.root hb hhead hzero)
  | pointer head low hhead hkind hlow hback hhops hout hfrom =>
      by_cases hheader : targetOf head low < headerSize
      · refine .refused ?_ (Or.inr ⟨head, low, hhead, hkind, hlow, hheader⟩)
        rw [upstreamRound, h.pos, if_neg (lt_length_of_getElem?_eq_some hhead), byteAt_eq_ok hhead]
        simp only [hkind, lt_length_of_getElem?_eq_some hlow, byteAt_eq_ok hlow, bind, Except.bind,
          if_true, if_false]
        exact if_pos (Or.inl hheader)
      · obtain ⟨q', hgo, hnext⟩ := h.pointer hhead hkind hlow hback hhops hheader
        exact .step _ q' hout hfrom hgo hnext
  | label head hhead hpos hshort hinside hfits hout hfrom =>
      obtain ⟨q', hgo, hnext⟩ := h.label hb hhead hpos hshort hinside hfits
      exact .step _ q' hout hfrom hgo hnext

end Lockstep

/-- Where the two loops stand after `n` rounds from locals in lockstep. -/
theorem rounds_lockstep (data : Bytes) (n : Nat) {k : Nat} {p : Locals} {q : UpstreamLocals}
    (h : Lockstep p q) (hb : Bounded k p) :
    (∃ p' q', rounds (readLabelsRound data) n p = .ok (.inl p') ∧
        rounds (upstreamRound data) n q = .ok (.inl q') ∧ Lockstep p' q') ∨
      (rounds (upstreamRound data) n q = .error .unread ∧
        ((∃ text, readFrom data p = .error text) ∨
          ∃ m p', rounds (readLabelsRound data) m p = .ok (.inl p') ∧ HeaderPointer data p')) ∨
      ∃ labels stop, readFrom data p = .ok (labels, stop) ∧
        rounds (upstreamRound data) n q = questionAt data labels stop := by
  induction n generalizing k p q with
  | zero => exact Or.inl ⟨p, q, rfl, rfl, h⟩
  | succ n ih =>
      cases (h.matched hb : Matched data p q) with
      | refused hgo hwhy =>
          refine Or.inr (Or.inl ⟨rounds_of_error hgo n, hwhy.imp_right fun hheader => ?_⟩)
          exact ⟨0, p, rfl, hheader⟩
      | root labels stop hfrom hgo =>
          refine Or.inr (Or.inr ⟨labels, stop, hfrom, ?_⟩)
          by_cases hshort : data.length < stop + 4
          · rw [questionAt, if_pos hshort] at hgo ⊢
            exact rounds_of_error hgo n
          · rw [questionAt, if_neg hshort] at hgo ⊢
            exact rounds_of_inr hgo n
      | step p' q' hp hfrom hgo hnext =>
          rw [rounds_of_inl hp, rounds_of_inl hgo, hfrom]
          refine (ih hnext (hb.round hp)).imp_right (Or.imp_left fun ⟨hrun, hwhy⟩ => ?_)
          refine ⟨hrun, hwhy.imp_right fun ⟨m, last, hm, hheader⟩ => ?_⟩
          exact ⟨m + 1, last, by rwa [rounds_of_inl hp], hheader⟩

/-- The pointers that the reader follows from the question on stay out of the header. -/
def PointersOutOfHeader (data : Bytes) : Prop :=
  ∀ n p, readLabelsRounds data headerSize n = .ok (.inl p) → ¬ HeaderPointer data p

def HasQuestion (wire : Bytes) : Prop := headerSize ≤ wire.length ∧ unpack 2 wire 4 ≠ 0

theorem upstreamRead_of_hasQuestion {wire : Bytes} (h : HasQuestion wire) (n : Nat) :
    upstreamRead wire n = rounds (upstreamRound wire) n UpstreamLocals.start := by
  obtain ⟨hlength, hquestions⟩ := h
  have hroom : ¬ wire.length < 4 + 2 := by
    simp only [headerSize] at hlength
    omega
  rw [upstreamRead, if_neg (Nat.not_lt.mpr hlength), uint16At_eq_ok hroom]
  exact if_neg hquestions

theorem upstreamRead_of_not_hasQuestion {wire : Bytes} (h : ¬ HasQuestion wire) (n : Nat) :
    upstreamRead wire n = .error .unread := by
  by_cases hlength : wire.length < headerSize
  · exact if_pos hlength
  · have hzero : unpack 2 wire 4 = 0 := by
      by_contra hne
      exact h ⟨Nat.not_lt.mp hlength, hne⟩
    have hroom : ¬ wire.length < 4 + 2 := by
      simp only [headerSize] at hlength
      omega
    rw [upstreamRead, if_neg hlength, uint16At_eq_ok hroom]
    exact if_pos hzero

/-- The locals of the question's loop after `n` rounds are those of the other loop. -/
theorem upstreamRead_bounded {wire : Bytes} {n : Nat} {q : UpstreamLocals}
    (h : upstreamRead wire n = .ok (.inl q)) : ∃ p, Bounded n p ∧ Lockstep p q := by
  by_cases hquestion : HasQuestion wire
  · rw [upstreamRead_of_hasQuestion hquestion] at h
    rcases rounds_lockstep wire n Lockstep.start (Bounded.start headerSize) with
      ⟨p, q', hp, hq, hstep⟩ | ⟨hq, -⟩ | ⟨labels, stop, -, hq⟩
    · rw [hq] at h
      cases h
      exact ⟨p, readLabelsRounds_bounded hp, hstep⟩
    · rw [hq] at h
      cases h
    · rw [hq, questionAt] at h
      split at h <;> cases h
  · rw [upstreamRead_of_not_hasQuestion hquestion] at h
    cases h

theorem upstreamRead_cases (wire : Bytes) :
    upstreamRead wire 255 = .error .unread ∧ (HasQuestion wire → PointersOutOfHeader wire →
        ∀ labels stop, readName wire headerSize = .ok (labels, stop) → wire.length < stop + 4) ∨
      ∃ labels stop, HasQuestion wire ∧ readName wire headerSize = .ok (labels, stop) ∧
        ¬ wire.length < stop + 4 ∧ upstreamRead wire 255 =
          .ok (.inr ⟨uncompressed (labels.map lower), unpack 2 wire stop,
            unpack 2 wire (stop + 2)⟩) := by
  by_cases hquestion : HasQuestion wire
  · rw [upstreamRead_of_hasQuestion hquestion]
    rcases rounds_lockstep wire 255 Lockstep.start (Bounded.start headerSize) with
      ⟨p, q, hp, -, -⟩ | ⟨hq, hwhy⟩ | ⟨labels, stop, hread, hq⟩
    · have hend := readLabelsRounds_eq wire headerSize
      rw [readLabelsRounds, hp] at hend
      cases hread : readName wire headerSize <;> rw [hread] at hend <;> cases hend
    · refine Or.inl ⟨hq, fun _ hout labels stop hread => ?_⟩
      rcases hwhy with ⟨text, herror⟩ | ⟨m, p, hp, hheader⟩
      · change readName wire headerSize = .error text at herror
        rw [hread] at herror
        cases herror
      · exact absurd hheader (hout m p hp)
    · change readName wire headerSize = .ok (labels, stop) at hread
      rw [questionAt] at hq
      split at hq
      · next hshort =>
          refine Or.inl ⟨hq, fun _ _ labels' stop' hread' => ?_⟩
          rw [hread] at hread'
          cases hread'
          exact hshort
      · next hroom => exact Or.inr ⟨labels, stop, hquestion, hread, hroom, hq⟩
  · exact Or.inl ⟨upstreamRead_of_not_hasQuestion hquestion 255, fun h => absurd h hquestion⟩

theorem parseQuestion_eq_ok {wire : Bytes} {pos : Nat} {labels : List Label} {stop : Nat}
    (hread : readName wire pos = .ok (labels, stop)) (hroom : ¬ wire.length < stop + 4) :
    parseQuestion wire pos =
      .ok (⟨labelsToText labels, unpack 2 wire stop, unpack 2 wire (stop + 2)⟩, stop + 4) := by
  rw [parseQuestion, hread]
  simp only [bind, Except.bind, if_neg hroom]
  rfl

theorem exists_of_parseQuestion_eq_ok {wire : Bytes} {pos next : Nat} {question : Question}
    (h : parseQuestion wire pos = .ok (question, next)) :
    ∃ labels stop, readName wire pos = .ok (labels, stop) ∧ ¬ wire.length < stop + 4 := by
  rw [parseQuestion] at h
  obtain ⟨⟨labels, stop⟩, hread, h⟩ := bind_eq_ok_iff.mp h
  refine ⟨labels, stop, hread, fun hshort => ?_⟩
  simp only [hshort, if_true] at h
  cases h

theorem validLabels_map_lower {labels : List Label} (h : ValidLabels labels) :
    ValidLabels (labels.map lower) where
  nonempty l hl := by
    obtain ⟨label, hlabel, rfl⟩ := List.mem_map.mp hl
    rw [lower_length]
    exact h.nonempty label hlabel
  short l hl := by
    obtain ⟨label, hlabel, rfl⟩ := List.mem_map.mp hl
    rw [lower_length]
    exact h.short label hlabel
  fits := by
    rw [wireLength_map_lower]
    exact h.fits

/-- Both readers end within 255 rounds, of at most 127 pointers and 127 labels, on no access outside
the data, with their refusal or with labels that fit on the wire. Where the pointers stay out of the
header they read the same questions, and the same labels up to case. -/
theorem name_reading_bounded (data : Bytes) :
    (∀ pos,
      (∀ n p, readLabelsRounds data pos n = .ok (.inl p) →
        p.hops ≤ 127 ∧ p.labels.length ≤ 127 ∧ n = p.hops + p.labels.length) ∧
      ((∃ text, readLabelsRounds data pos 255 = .error (.wire text)) ∨
        ∃ labels stop, readLabelsRounds data pos 255 = .ok (.inr (labels, stop)) ∧
          ValidLabels labels) ∧
      readLabelsRounds data pos 255 = ended (readName data pos)) ∧
    (∀ n q, upstreamRead data n = .ok (.inl q) →
      ∃ labels : List Label, uncompressed labels = q.name ++ [0] ∧ ValidLabels labels ∧
        q.hops ≤ 127 ∧ labels.length ≤ 127 ∧ n = q.hops + labels.length) ∧
    (upstreamRead data 255 = .error .unread ∨
      ∃ labels typ class_, upstreamRead data 255 =
        .ok (.inr ⟨uncompressed labels, typ, class_⟩) ∧ ValidLabels labels) ∧
    (PointersOutOfHeader data →
      ((∃ question, upstreamRead data 255 = .ok (.inr question)) ↔
        HasQuestion data ∧ ∃ question next,
          parseQuestion data headerSize = .ok (question, next)) ∧
      ∀ question, upstreamRead data 255 = .ok (.inr question) →
        ∃ labels stop, readName data headerSize = .ok (labels, stop) ∧
          question.name = uncompressed (labels.map lower) ∧
          parseQuestion data headerSize =
            .ok (⟨labelsToText labels, question.typ, question.class_⟩, stop + 4)) := by
  refine ⟨fun pos => ⟨fun n p h => ?_, ?_, readLabelsRounds_eq data pos⟩, fun n q h => ?_, ?_,
    fun hout => ⟨⟨fun ⟨question, hq⟩ => ?_, fun ⟨hquestion, question, next, hparse⟩ => ?_⟩,
      fun question hq => ?_⟩⟩
  · have hbounded := readLabelsRounds_bounded h
    exact ⟨hbounded.hops, hbounded.labels_le, hbounded.count⟩
  · rw [readLabelsRounds_eq]
    cases hread : readName data pos with
    | error text => exact Or.inl ⟨text, rfl⟩
    | ok name => exact Or.inr ⟨name.1, name.2, rfl, readName_valid hread⟩
  · obtain ⟨p, hbounded, hstep⟩ := upstreamRead_bounded h
    refine ⟨p.labels.map lower, hstep.name, validLabels_map_lower hbounded.valid, ?_, ?_, ?_⟩
    · rw [hstep.hops]
      exact hbounded.hops
    · rw [List.length_map]
      exact hbounded.labels_le
    · rw [hstep.hops, List.length_map]
      exact hbounded.count
  · rcases upstreamRead_cases data with ⟨hq, -⟩ | ⟨labels, stop, -, hread, -, hq⟩
    · exact Or.inl hq
    · exact Or.inr ⟨labels.map lower, _, _, hq, validLabels_map_lower (readName_valid hread)⟩
  · rcases upstreamRead_cases data with ⟨hq', -⟩ | ⟨labels, stop, hquestion, hread, hroom, -⟩
    · rw [hq] at hq'
      cases hq'
    · exact ⟨hquestion, _, _, parseQuestion_eq_ok hread hroom⟩
  · rcases upstreamRead_cases data with ⟨-, hfail⟩ | ⟨labels, stop, -, -, -, hq⟩
    · obtain ⟨labels, stop, hread, hroom⟩ := exists_of_parseQuestion_eq_ok hparse
      exact absurd (hfail hquestion hout labels stop hread) hroom
    · exact ⟨_, hq⟩
  · rcases upstreamRead_cases data with ⟨hq', -⟩ | ⟨labels, stop, hquestion, hread, hroom, hq'⟩
    · rw [hq] at hq'
      cases hq'
    · rw [hq] at hq'
      cases hq'
      exact ⟨labels, stop, hread, rfl, parseQuestion_eq_ok hread hroom⟩

end PfBlockerNG.NameReaders
