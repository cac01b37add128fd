import PfBlockerNG.ConfigRegistry
import PfBlockerNG.ControlTimers

/-!
The command file between the control command of the package and the watcher in the resolver
module: writers that take turns under a lock, and a reader that consumes each record once.
-/

namespace PfBlockerNG.ControlChannel

open PfBlockerNG.ConfigRegistry (isDigits intOfDigits)
open PfBlockerNG.ControlTimers
open PfBlockerNG.OrderedDict
open PfBlockerNG.Strings
open PfBlockerNG.Transitions

/-! ### Records -/

/-- A value of a record: the writer emits strings and integers only. -/
inductive Field where
  | text (s : Str)
  | number (n : Nat)
  deriving DecidableEq, Repr

abbrev Record := Dict Str Field

/-- `"{}".format(value)`. -/
def Field.format : Field → Str
  | text s => s
  | number n => Nat.toDigits 10 n

def kSeq : Str := "seq".toList
def kCmd : Str := "cmd".toList
def kIp : Str := "ip".toList
def kDuration : Str := "duration".toList
def kTs : Str := "ts".toList
def pythonControl : Str := "python_control".toList

def verbs : List Str := [disableVerb, enableVerb, addBypassVerb, removeBypassVerb]

/-- The arguments of `pfb_unbound_py_write_control`; `waits` is `$wait_timeout > 0`. -/
structure Request where
  cmd : Str
  ip : Str
  duration : Str
  waits : Bool

/-- The optional duration of the commands that take one. -/
def withDuration (q : Request) (record : Record) : Option Record :=
  if (q.cmd = disableVerb ∨ q.cmd = addBypassVerb) ∧ q.duration ≠ [] then
    if isDigits q.duration ∧ 1 ≤ intOfDigits q.duration ∧ intOfDigits q.duration ≤ 3600 then
      some (record.set kDuration (.number (intOfDigits q.duration)))
    else none
  else some record

/-- What `pfb_unbound_py_write_control` checks before it takes the lock; `filterIp` is `pfb_filter`
with `PFB_FILTER_IP`. -/
def controlRecord (filterIp : Str → Str) (q : Request) : Option Record :=
  let record := Dict.empty.set kCmd (.text q.cmd)
  if q.cmd ∉ verbs then none
  else if q.cmd = addBypassVerb ∨ q.cmd = removeBypassVerb then
    let cleanIp := filterIp q.ip
    if cleanIp = [] ∨ cleanIp = ['0'] then none
    else withDuration q (record.set kIp (.text cleanIp))
  else withDuration q record

/-- `seq` of a record, when it is an integer. -/
def seqOf (record : Record) : Option Nat :=
  match record.get kSeq with
  | some (.number n) => some n
  | _ => none

/-- The record as it is published. -/
def sealed (record : Record) (n ts : Nat) : Record :=
  (record.set kSeq (.number n)).set kTs (.number ts)

def durationToken (record : Record) : List Str :=
  match record.get kDuration with
  | some value => [value.format]
  | none => []

/-- `_control_record_to_command`. -/
def controlRecordToCommand (record : Record) : Option (List Str) :=
  match record.get kCmd with
  | some (.text cmd) =>
      if cmd ∉ verbs then none
      else if cmd = addBypassVerb ∨ cmd = removeBypassVerb then
        match record.get kIp with
        | some (.text ip) =>
            if ip.isEmpty then none
            else if cmd = addBypassVerb then
              some ([pythonControl, cmd, ip] ++ durationToken record)
            else some [pythonControl, cmd, ip]
        | _ => none
      else if cmd = disableVerb then some ([pythonControl, cmd] ++ durationToken record)
      else some [pythonControl, cmd]
  | _ => none

/-! ### The system -/

/-- A call of the writer. `since` counts the baselines taken before it published; a confirmed
call also has the count at its return. -/
inductive Call where
  | idle
  | ready (record : Record) (waits : Bool)
  | holding (record : Record) (waits : Bool)
  | waiting (n since : Nat)
  | refused
  | died
  | returned (n since : Nat) (confirmed : Option Nat)

/-- Where `pfb_control_watcher` stands, with `last_seq`. -/
inductive Watcher where
  | off
  | starting
  | baseline (last : Nat)
  | idle (last : Nat)
  | consumed (n : Nat) (record : Record)
  | handled (n : Nat)

/-- What became of a published record. -/
inductive Fate where
  | pending
  | consumed
  | applied
  | adopted (baseline : Nat)
  | dropped (baselines : Nat)
  | overwritten
  deriving DecidableEq

/-- What the control state of the module was made of. -/
inductive Cause where
  | started (fresh : Control)
  | channel (n : Nat) (tokens : List Str) (starts : Bool)
  | other (e : Event)

/-- The two files, the module that reads them, and in `published`, `fate` (by number) and `trace`
what has happened so far. -/
structure Board where
  channel : Option Record
  marker : Option Nat
  watcher : Watcher
  baselines : Nat
  control : Control
  published : List Record
  fate : Nat → Fate
  trace : List Cause

/-- The writers around a board. -/
structure System where
  board : Board
  lock : Option Nat
  calls : Nat → Call

inductive ReaderAct where
  | start (fresh : Control)
  /-- `_control_read_record`, which may fail. -/
  | read (readable : Bool)
  | handle (starts : Bool)
  | mark (written : Bool)
  | stop
  | other (e : Event)

inductive Act where
  | call (k : Nat) (q : Request)
  | lock (k : Nat)
  | giveUp (k : Nat)
  /-- The writer reads the channel for the number before its own; that read may fail. -/
  | publish (k ts : Nat) (readable : Bool)
  | fail (k : Nat)
  | confirm (k : Nat)
  | expire (k : Nat)
  | die (k : Nat)
  | reader (a : ReaderAct)

/-- What a read of the channel gives: nothing when it fails. -/
def readRecord (b : Board) (readable : Bool) : Option Record := if readable then b.channel else none

/-- The number a read of the channel gives, 0 without one. -/
def seqRead (b : Board) (readable : Bool) : Nat := ((readRecord b readable).bind seqOf).getD 0

/-- The number that stands in the channel. -/
def current (b : Board) : Nat := (b.channel.bind seqOf).getD 0

/-- What a fate becomes when a later record replaces the one in the channel. -/
def Fate.replaced : Fate → Fate
  | pending => overwritten
  | fate => fate

def Fate.adoptedAt (baseline : Nat) : Fate → Fate
  | pending => adopted baseline
  | fate => fate

/-- The record is written with its number over the current one. -/
def publish (record : Record) (n ts : Nat) (b : Board) : Board :=
  { b with
    channel := some (sealed record n ts)
    published := b.published ++ [sealed record n ts]
    fate := Function.update b.fate (current b) (b.fate (current b)).replaced }

section Steps

variable (py : Platform)

/-- One step of the module: its start and stop, a turn of `pfb_control_watcher`, or anything else
that reaches the control state. -/
def readerStep (b : Board) : ReaderAct → Option Board
  | .start fresh =>
      match b.watcher with
      | .off =>
          if fresh.threads = [] ∧ fresh.journal = [] then
            some { b with
              watcher := .starting, control := fresh, trace := b.trace ++ [.started fresh] }
          else none
      | _ => none
  | .read readable =>
      match b.watcher with
      | .starting =>
          some { b with
            watcher := .baseline (seqRead b readable)
            baselines := b.baselines + 1
            fate := Function.update b.fate (seqRead b readable)
              ((b.fate (seqRead b readable)).adoptedAt (b.baselines + 1)) }
      | .idle last =>
          match readRecord b readable with
          | some record =>
              match seqOf record with
              | some n =>
                  if n ≤ last then some b
                  else some { b with
                    watcher := .consumed n record, fate := Function.update b.fate n .consumed }
              | none => some b
          | none => some b
      | _ => none
  | .handle starts =>
      match b.watcher with
      | .consumed n record =>
          match controlRecordToCommand record with
          | some tokens =>
              (ControlTimers.step py b.control (.command tokens starts)).map fun control =>
                { b with
                  watcher := .handled n
                  control := control
                  fate := Function.update b.fate n .applied
                  trace := b.trace ++ [.channel n tokens starts] }
          | none => some { b with
              watcher := .handled n, fate := Function.update b.fate n (.dropped b.baselines) }
      | _ => none
  | .mark written =>
      match b.watcher with
      | .baseline n | .handled n =>
          some { b with watcher := .idle n, marker := if written then some n else b.marker }
      | _ => none
  | .stop =>
      match b.watcher with
      | .off => none
      | .consumed n _ =>
          some { b with watcher := .off, fate := Function.update b.fate n (.dropped b.baselines) }
      | _ => some { b with watcher := .off }
  | .other e =>
      match b.watcher with
      | .off => none
      | _ => (ControlTimers.step py b.control e).map fun control =>
          { b with control := control, trace := b.trace ++ [.other e] }

def setCall (s : System) (k : Nat) (c : Call) : System :=
  { s with calls := Function.update s.calls k c }

/-- The lock goes with the call that held it. -/
def finish (s : System) (k : Nat) (c : Call) : System :=
  { setCall s k c with lock := if s.lock = some k then none else s.lock }

variable (filterIp : Str → Str)

def step (s : System) : Act → Option System
  | .call k q =>
      match s.calls k with
      | .idle =>
          match controlRecord filterIp q with
          | some record => some (setCall s k (.ready record q.waits))
          | none => some (setCall s k .refused)
      | _ => none
  | .lock k =>
      match s.calls k, s.lock with
      | .ready record waits, none =>
          some { setCall s k (.holding record waits) with lock := some k }
      | _, _ => none
  | .giveUp k =>
      match s.calls k with
      | .ready _ _ => some (setCall s k .refused)
      | _ => none
  | .publish k ts readable =>
      match s.calls k with
      | .holding record waits =>
          let n := seqRead s.board readable + 1
          let s' := { s with board := publish record n ts s.board }
          if waits then some (setCall s' k (.waiting n s.board.baselines))
          else some (finish s' k (.returned n s.board.baselines none))
      | _ => none
  | .fail k =>
      match s.calls k with
      | .holding _ _ => some (finish s k .refused)
      | _ => none
  | .confirm k =>
      match s.calls k, s.board.marker with
      | .waiting n since, some m =>
          if n ≤ m then some (finish s k (.returned n since (some s.board.baselines))) else none
      | _, _ => none
  | .expire k =>
      match s.calls k with
      | .waiting n since => some (finish s k (.returned n since none))
      | _ => none
  | .die k =>
      match s.calls k with
      | .ready _ _ | .holding _ _ | .waiting _ _ => some (finish s k .died)
      | _ => none
  | .reader a => (readerStep py s.board a).map fun board => { s with board := board }

end Steps

/-- The package as installed: no files, no call, no watcher. -/
def initial (control : Control) : System where
  board :=
    { channel := none
      marker := none
      watcher := .off
      baselines := 0
      control := control
      published := []
      fate := fun _ => .pending
      trace := [] }
  lock := none
  calls := fun _ => .idle

/-- The reads that give out and take over numbers succeed: a writer's before it publishes, and a
watcher's as it starts. -/
def ReadsNumber (s : System) : Act → Prop
  | .publish _ _ readable => readRecord s.board readable = s.board.channel
  | .reader (.read readable) =>
      s.board.watcher = .starting → readRecord s.board readable = s.board.channel
  | _ => True

/-- The published commands that were handed to the module, by their number. -/
def applied (trace : List Cause) : List Nat :=
  trace.filterMap fun
    | .channel n _ _ => some n
    | _ => none

/-- The control state a trace leads to: that of `ControlTimers`, from the last start. -/
def replay (py : Platform) (c : Control) : List Cause → Option Control
  | [] => some c
  | .started fresh :: rest => replay py fresh rest
  | .channel _ tokens starts :: rest =>
      (ControlTimers.step py c (.command tokens starts)).bind fun c => replay py c rest
  | .other e :: rest => (ControlTimers.step py c e).bind fun c => replay py c rest

/-! ### What a published record says -/

theorem get_sealed (record : Record) (n ts : Nat) {k : Str} (hseq : kSeq ≠ k) (hts : kTs ≠ k) :
    (sealed record n ts).get k = record.get k := by
  rw [sealed, Dict.get_set_of_ne _ _ hts, Dict.get_set_of_ne _ _ hseq]

theorem seqOf_sealed (record : Record) (n ts : Nat) : seqOf (sealed record n ts) = some n := by
  have hget : (sealed record n ts).get kSeq = some (.number n) := by
    rw [sealed, Dict.get_set_of_ne _ _ (by decide), Dict.get_set_self]
  simp [seqOf, hget]

/-- The tokens a record of the writer stands for. -/
def tokensOf (filterIp : Str → Str) (q : Request) : List Str :=
  [pythonControl, q.cmd] ++
    (if q.cmd = addBypassVerb ∨ q.cmd = removeBypassVerb then [filterIp q.ip] else []) ++
    (if (q.cmd = disableVerb ∨ q.cmd = addBypassVerb) ∧ q.duration ≠ [] then
      [Nat.toDigits 10 (intOfDigits q.duration)] else [])

theorem get_withDuration {q : Request} {base record : Record}
    (h : withDuration q base = some record) {k : Str} (hk : kDuration ≠ k) :
    record.get k = base.get k := by
  unfold withDuration at h
  split at h
  · split at h
    · rw [← Option.some.inj h, Dict.get_set_of_ne _ _ hk]
    · cases h
  · rw [Option.some.inj h]

theorem durationToken_withDuration {q : Request} {base record : Record}
    (hbase : base.get kDuration = none) (h : withDuration q base = some record) :
    durationToken record =
      if (q.cmd = disableVerb ∨ q.cmd = addBypassVerb) ∧ q.duration ≠ [] then
        [Nat.toDigits 10 (intOfDigits q.duration)] else [] := by
  unfold withDuration at h
  split at h
  · rename_i htakes
    split at h
    · rw [← Option.some.inj h, durationToken, Dict.get_set_self, if_pos htakes]
      rfl
    · cases h
  · rename_i htakes
    rw [if_neg htakes, ← Option.some.inj h, durationToken, hbase]

theorem durationToken_sealed (record : Record) (n ts : Nat) :
    durationToken (sealed record n ts) = durationToken record := by
  rw [durationToken, get_sealed record n ts (by decide) (by decide), durationToken]

/-- The watcher reads back from a published record the command its writer validated. -/
theorem controlRecordToCommand_sealed {filterIp : Str → Str} {q : Request} {record : Record}
    (h : controlRecord filterIp q = some record) (n ts : Nat) :
    controlRecordToCommand (sealed record n ts) = some (tokensOf filterIp q) := by
  unfold controlRecord at h
  split at h
  · cases h
  rename_i hverb
  rw [not_not] at hverb
  rw [controlRecordToCommand, get_sealed record n ts (by decide) (by decide),
    get_sealed record n ts (by decide) (by decide), durationToken_sealed, tokensOf]
  split at h
  · rename_i hbypass
    dsimp only at h
    split at h
    · cases h
    rename_i hip
    have hcmd : record.get kCmd = some (.text q.cmd) := by
      rw [get_withDuration h (by decide), Dict.get_set_of_ne _ _ (by decide), Dict.get_set_self]
    have hget : record.get kIp = some (.text (filterIp q.ip)) := by
      rw [get_withDuration h (by decide), Dict.get_set_self]
    have htoken := durationToken_withDuration (by
      rw [Dict.get_set_of_ne _ _ (by decide), Dict.get_set_of_ne _ _ (by decide),
        Dict.get_empty]) h
    have hnonempty : (filterIp q.ip).isEmpty = false := by
      simpa using fun e => hip (.inl e)
    rw [hcmd, hget, htoken]
    simp only [hverb, not_true_eq_false, if_false, hbypass, if_true, hnonempty]
    rcases hbypass with hadd | hremove
    · simp [hadd]
    · simp [hremove, show removeBypassVerb ≠ addBypassVerb by decide,
        show removeBypassVerb ≠ disableVerb by decide]
  · rename_i hbypass
    have hcmd : record.get kCmd = some (.text q.cmd) := by
      rw [get_withDuration h (by decide), Dict.get_set_self]
    have htoken := durationToken_withDuration (by
      rw [Dict.get_set_of_ne _ _ (by decide), Dict.get_empty]) h
    rw [hcmd, htoken]
    simp only [hverb, not_true_eq_false, if_false, hbypass]
    split
    · simp
    · rename_i hdisable
      have hnone : ¬((q.cmd = disableVerb ∨ q.cmd = addBypassVerb) ∧ q.duration ≠ []) :=
        fun e => e.1.elim hdisable fun hadd => hbypass (.inl hadd)
      simp [hnone]

/-- What the watcher reads from a published record: its number, and the command that was asked
for, with the checked address and the duration in plain decimal. -/
theorem published_record_read_back {filterIp : Str → Str} {q : Request} {record : Record}
    (h : controlRecord filterIp q = some record) (n ts : Nat) :
    seqOf (sealed record n ts) = some n ∧
      controlRecordToCommand (sealed record n ts) = some (tokensOf filterIp q) :=
  ⟨seqOf_sealed record n ts, controlRecordToCommand_sealed h n ts⟩

theorem published_record_read_back_bypass :
    ∃ record, controlRecord id ⟨addBypassVerb, "192.0.2.7".toList, "060".toList, true⟩ =
        some record ∧
      controlRecordToCommand (sealed record 3 7) =
        some [pythonControl, addBypassVerb, "192.0.2.7".toList, "60".toList] := by
  have hvalid : (controlRecord id ⟨addBypassVerb, "192.0.2.7".toList, "060".toList,
      true⟩).isSome = true := by decide +kernel
  obtain ⟨record, hrecord⟩ := Option.isSome_iff_exists.mp hvalid
  exact ⟨record, hrecord, (published_record_read_back hrecord 3 7).2.trans (by decide +kernel)⟩

/-! ### Boards -/

/-- `last_seq`, once the baseline is taken. -/
def lastSeq : Watcher → Option Nat
  | .off | .starting => none
  | .baseline last | .idle last | .handled last => some last
  | .consumed n _ => some n

/-- A marker that has reached the record says what became of it. -/
def Covered (b : Board) (m : Nat) : Prop :=
  b.fate m ≠ .pending ∧ b.fate m ≠ .consumed ∧ ∀ e, b.fate m = .dropped e → e < b.baselines

/-- What holds of the files, the watcher and the fates at all times. -/
structure Sound (b : Board) : Prop where
  numbered : ∀ i r, b.published[i]? = some r →
    seqOf r = some (i + 1) ∧ (controlRecordToCommand r).isSome
  channel : b.channel = b.published.getLast?
  ahead : ∀ m, b.published.length < m → b.fate m = .pending
  pending : ∀ m, 0 < m → b.fate m = .pending → b.published.length ≤ m
  overwritten : ∀ m, 0 < m → b.fate m = .overwritten → m < b.published.length
  consumed : ∀ m, 0 < m → (b.fate m = .consumed ↔ ∃ r, b.watcher = .consumed m r)
  record : ∀ n r, b.watcher = .consumed n r → 0 < n ∧ b.published[n - 1]? = some r
  last : ∀ l, lastSeq b.watcher = some l → l ≤ b.published.length ∧ ∀ m, 0 < m →
    (m ≤ l → b.fate m ≠ .pending) ∧ (l < m → b.fate m = .pending ∨ b.fate m = .overwritten)
  adopted : ∀ m e, 0 < m → b.fate m = .adopted e → e ≤ b.baselines
  dropped : ∀ m e, 0 < m → b.fate m = .dropped e →
    e ≤ b.baselines ∧ ((lastSeq b.watcher).isSome → e < b.baselines)
  marker : ∀ M, b.marker = some M → M ≤ b.published.length ∧ ∀ m, 0 < m → m ≤ M → Covered b m

theorem sound_initial (control : Control) : Sound (initial control).board where
  numbered _ _ h := by simp [initial] at h
  channel := rfl
  ahead _ _ := rfl
  pending _ _ _ := Nat.zero_le _
  overwritten _ _ h := by cases h
  consumed _ _ := by simp [initial]
  record _ _ h := by cases h
  last _ h := by cases h
  adopted _ _ _ h := by cases h
  dropped _ _ _ h := by cases h
  marker _ h := by cases h

theorem current_eq {b : Board} (h : Sound b) : current b = b.published.length := by
  rw [current, h.channel, List.getLast?_eq_getElem?]
  cases hlast : b.published[b.published.length - 1]? with
  | none =>
      have hlength := List.getElem?_eq_none_iff.mp hlast
      simp only [Option.bind_none, Option.getD_none]
      omega
  | some r =>
      have hlength := (List.getElem?_eq_some_iff.mp hlast).1
      rw [Option.bind_some, (h.numbered _ r hlast).1, Option.getD_some]
      omega

theorem seqRead_eq {b : Board} {readable : Bool} (h : readRecord b readable = b.channel) :
    seqRead b readable = current b := by
  rw [seqRead, h, current]

theorem channel_of_readRecord {b : Board} {readable : Bool} {r : Record}
    (h : readRecord b readable = some r) : b.channel = some r := by
  cases readable with
  | false => cases h
  | true => exact h

theorem replaced_of_ne {fate : Fate} (h : fate ≠ .pending) : fate.replaced = fate := by
  cases fate <;> first | rfl | exact absurd rfl h

theorem adoptedAt_of_ne {fate : Fate} (h : fate ≠ .pending) (e : Nat) :
    fate.adoptedAt e = fate := by
  cases fate <;> first | rfl | exact absurd rfl h

/-- The only fate a publication changes is that of a pending record. -/
theorem fate_publish {b : Board} (h : Sound b) (record : Record) (ts m : Nat) :
    (publish record (current b + 1) ts b).fate m = b.fate m ∨
      m = b.published.length ∧ b.fate m = .pending ∧
        (publish record (current b + 1) ts b).fate m = .overwritten := by
  by_cases hm : m = current b
  · rw [publish]
    dsimp only
    rw [hm, Function.update_self]
    by_cases hp : b.fate (current b) = .pending
    · exact .inr ⟨current_eq h, hp, by rw [hp]; rfl⟩
    · exact .inl (replaced_of_ne hp)
  · exact .inl (Function.update_of_ne hm _ _)

theorem fate_publish_eq {b : Board} (h : Sound b) (record : Record) (ts m : Nat) {fate : Fate}
    (hpending : fate ≠ .pending) (hoverwritten : fate ≠ .overwritten) :
    (publish record (current b + 1) ts b).fate m = fate ↔ b.fate m = fate := by
  rcases fate_publish h record ts m with hsame | ⟨-, hp, ho⟩
  · rw [hsame]
  · rw [hp, ho]
    exact ⟨fun e => absurd e.symm hoverwritten, fun e => absurd e.symm hpending⟩

theorem published_publish {b : Board} (h : Sound b) (record : Record) (ts : Nat) :
    (publish record (current b + 1) ts b).published =
      b.published ++ [sealed record (b.published.length + 1) ts] := by
  rw [← current_eq h]
  rfl

theorem sound_publish {b : Board} (h : Sound b) {record : Record} {ts : Nat}
    (htokens : ∀ n ts, (controlRecordToCommand (sealed record n ts)).isSome) :
    Sound (publish record (current b + 1) ts b) := by
  have hpublished := published_publish h record ts
  have hlength : (publish record (current b + 1) ts b).published.length =
      b.published.length + 1 := by
    rw [hpublished, List.length_append, List.length_singleton]
  have hkeep := fun m => fate_publish h record ts m
  have hsame {fate : Fate} (m : Nat) (hp : fate ≠ .pending) (ho : fate ≠ .overwritten) :=
    fate_publish_eq h record ts m hp ho
  constructor
  case numbered =>
    intro i r hr
    rw [hpublished, List.getElem?_append] at hr
    split at hr
    · exact h.numbered i r hr
    · rename_i hi
      obtain ⟨hone, rfl⟩ := List.getElem?_eq_some_iff.mp hr
      rw [List.length_singleton] at hone
      rw [List.getElem_singleton, seqOf_sealed]
      exact ⟨congrArg some (by omega), htokens _ ts⟩
  case channel =>
    rw [hpublished, List.getLast?_concat, ← current_eq h]
    rfl
  case ahead =>
    intro m hm
    rw [hlength] at hm
    rcases hkeep m with hold | ⟨rfl, -, -⟩
    · rw [hold]
      exact h.ahead m (by omega)
    · omega
  case pending =>
    intro m hpos hm
    rw [hlength]
    rcases hkeep m with hold | ⟨-, -, ho⟩
    · rw [hold] at hm
      have hle := h.pending m hpos hm
      rcases Nat.lt_or_eq_of_le hle with hlt | rfl
      · exact hlt
      · have hover : (publish record (current b + 1) ts b).fate b.published.length =
            .overwritten := by
          rw [publish, current_eq h]
          dsimp only
          rw [Function.update_self, hm]
          rfl
        rw [hold, hm] at hover
        cases hover
    · rw [ho] at hm
      cases hm
  case overwritten =>
    intro m hpos hm
    rw [hlength]
    rcases hkeep m with hold | ⟨rfl, -, -⟩
    · have hlt := h.overwritten m hpos (hold ▸ hm)
      omega
    · exact Nat.lt_succ_self _
  case consumed =>
    intro m hpos
    rw [hsame m (by simp) (by simp)]
    exact h.consumed m hpos
  case record =>
    intro n r hr
    obtain ⟨hpos, hget⟩ := h.record n r hr
    refine ⟨hpos, ?_⟩
    rw [hpublished, List.getElem?_append_left (List.getElem?_eq_some_iff.mp hget).1, hget]
  case last =>
    intro l hl
    obtain ⟨hle, hfates⟩ := h.last l hl
    refine ⟨by omega, fun m hpos => ⟨fun hm => ?_, fun hm => ?_⟩⟩
    · rcases hkeep m with hold | ⟨-, -, ho⟩
      · rw [hold]
        exact (hfates m hpos).1 hm
      · rw [ho]
        simp
    · rcases hkeep m with hold | ⟨-, -, ho⟩
      · rw [hold]
        exact (hfates m hpos).2 hm
      · exact .inr ho
  case adopted =>
    intro m e hpos hm
    exact h.adopted m e hpos ((hsame m (by simp) (by simp)).mp hm)
  case dropped =>
    intro m e hpos hm
    exact h.dropped m e hpos ((hsame m (by simp) (by simp)).mp hm)
  case marker =>
    intro M hM
    obtain ⟨hle, hcovered⟩ := h.marker M hM
    refine ⟨by omega, fun m hpos hm => ?_⟩
    obtain ⟨hp, hc, hd⟩ := hcovered m hpos hm
    refine ⟨?_, fun e => hc ((hsame m (by simp) (by simp)).mp e),
      fun e he => hd e ((hsame m (by simp) (by simp)).mp he)⟩
    rcases hkeep m with hold | ⟨-, -, ho⟩
    · rw [hold]
      exact hp
    · rw [ho]
      simp

section Reader

variable {py : Platform} {b b' : Board}

/-- A watcher that starts takes the record it finds for an old one. -/
theorem sound_baseline (h : Sound b) (hwatcher : b.watcher = .starting) :
    Sound { b with
      watcher := .baseline (current b)
      baselines := b.baselines + 1
      fate := Function.update b.fate (current b)
        ((b.fate (current b)).adoptedAt (b.baselines + 1)) } := by
  have hlast := current_eq h
  have hnone : ∀ m, 0 < m → b.fate m ≠ .consumed := by
    intro m hpos hm
    obtain ⟨r, hr⟩ := (h.consumed m hpos).mp hm
    rw [hwatcher] at hr
    cases hr
  have hfate : ∀ m, Function.update b.fate (current b)
        ((b.fate (current b)).adoptedAt (b.baselines + 1)) m = b.fate m ∧
          (m = b.published.length → b.fate m ≠ .pending) ∨
      m = b.published.length ∧ b.fate m = .pending ∧ Function.update b.fate (current b)
        ((b.fate (current b)).adoptedAt (b.baselines + 1)) m = .adopted (b.baselines + 1) := by
    intro m
    by_cases hm : m = current b
    · rw [hm, Function.update_self]
      by_cases hp : b.fate (current b) = .pending
      · exact .inr ⟨hlast, hp, by rw [hp]; rfl⟩
      · exact .inl ⟨adoptedAt_of_ne hp _, fun _ => hp⟩
    · exact .inl ⟨Function.update_of_ne hm _ _, fun e => absurd (e.trans hlast.symm) hm⟩
  refine ⟨h.numbered, h.channel, fun m hm => ?_, fun m hpos hm => ?_, fun m hpos hm => ?_,
    fun m hpos => ?_, fun n r hr => ?_, fun l hl => ?_, fun m e hpos hm => ?_,
    fun m e hpos hm => ?_, fun M hM => ?_⟩
  · rcases hfate m with ⟨hold, -⟩ | ⟨rfl, -, -⟩
    · exact hold.trans (h.ahead m hm)
    · exact absurd hm (Nat.lt_irrefl _)
  · rcases hfate m with ⟨hold, -⟩ | ⟨-, -, hnew⟩
    · exact h.pending m hpos (hold ▸ hm)
    · cases hnew.symm.trans hm
  · rcases hfate m with ⟨hold, -⟩ | ⟨-, -, hnew⟩
    · exact h.overwritten m hpos (hold ▸ hm)
    · cases hnew.symm.trans hm
  · refine ⟨fun hm => ?_, ?_⟩
    · rcases hfate m with ⟨hold, -⟩ | ⟨-, -, hnew⟩
      · exact absurd (hold ▸ hm) (hnone m hpos)
      · cases hnew.symm.trans hm
    · rintro ⟨r, hr⟩
      cases hr
  · cases hr
  · obtain rfl := Option.some.inj hl
    refine ⟨hlast.le, fun m hpos => ⟨fun hm hp => ?_, fun hm => ?_⟩⟩
    · rcases hfate m with ⟨hold, hne⟩ | ⟨-, -, hnew⟩
      · have hpending := hold.symm.trans hp
        exact hne (Nat.le_antisymm (hm.trans hlast.le) (h.pending m hpos hpending)) hpending
      · cases hnew.symm.trans hp
    · rcases hfate m with ⟨hold, -⟩ | ⟨rfl, -, -⟩
      · exact .inl (hold.trans (h.ahead m (hlast ▸ hm)))
      · exact absurd (hlast ▸ hm) (Nat.lt_irrefl _)
  · rcases hfate m with ⟨hold, -⟩ | ⟨-, -, hnew⟩
    · exact (h.adopted m e hpos (hold ▸ hm)).trans (Nat.le_succ _)
    · rw [Fate.adopted.inj (hnew.symm.trans hm)]
  · rcases hfate m with ⟨hold, -⟩ | ⟨-, -, hnew⟩
    · have hle := (h.dropped m e hpos (hold ▸ hm)).1
      exact ⟨hle.trans (Nat.le_succ _), fun _ => Nat.lt_succ_of_le hle⟩
    · cases hnew.symm.trans hm
  · obtain ⟨hle, hcovered⟩ := h.marker M hM
    refine ⟨hle, fun m hpos hm => ?_⟩
    obtain ⟨hp, hc, hd⟩ := hcovered m hpos hm
    rcases hfate m with ⟨hold, -⟩ | ⟨-, hp', -⟩
    · exact ⟨hold.trans_ne hp, hold.trans_ne hc,
        fun e he => (hd e (hold.symm.trans he)).trans (Nat.lt_succ_self _)⟩
    · exact absurd hp' hp

/-- The watcher takes a record that is newer than the last one. -/
theorem sound_consume (h : Sound b) {last n : Nat} {r : Record} (hwatcher : b.watcher = .idle last)
    (hchannel : b.channel = some r) (hseq : seqOf r = some n) (hlt : last < n) :
    Sound { b with watcher := .consumed n r, fate := Function.update b.fate n .consumed } := by
  have hcurrent : n = b.published.length := by
    rw [← current_eq h, current, hchannel, Option.bind_some, hseq, Option.getD_some]
  have hget : b.published[n - 1]? = some r := by
    rw [hcurrent, ← List.getLast?_eq_getElem?, ← h.channel, hchannel]
  have hnone : ∀ m, 0 < m → b.fate m ≠ .consumed := by
    intro m hpos hm
    obtain ⟨r, hr⟩ := (h.consumed m hpos).mp hm
    rw [hwatcher] at hr
    cases hr
  obtain ⟨-, hfates⟩ := h.last last (by rw [hwatcher]; rfl)
  have hpending : b.fate n = .pending := by
    rcases (hfates n (by omega)).2 hlt with hp | ho
    · exact hp
    · have := h.overwritten n (by omega) ho
      omega
  have hother {fate : Fate} (hfate : fate ≠ .consumed) (hp : fate ≠ .pending) (m : Nat) :
      Function.update b.fate n .consumed m = fate ↔ b.fate m = fate := by
    by_cases hm : m = n
    · rw [hm, Function.update_self, hpending]
      exact ⟨fun e => absurd e.symm hfate, fun e => absurd e.symm hp⟩
    · rw [Function.update_of_ne hm]
  refine ⟨h.numbered, h.channel, fun m hm => ?_, fun m hpos hm => ?_, fun m hpos hm => ?_,
    fun m hpos => ?_, fun m r' hr => ?_, fun l hl => ?_, fun m e hpos hm => ?_,
    fun m e hpos hm => ?_, fun M hM => ?_⟩
  · have hne : m ≠ n := by rw [hcurrent]; exact hm.ne'
    exact (Function.update_of_ne hne _ _).trans (h.ahead m hm)
  · by_cases hmn : m = n
    · exact hmn ▸ hcurrent.ge
    · exact h.pending m hpos ((Function.update_of_ne hmn _ _).symm.trans hm)
  · exact h.overwritten m hpos ((hother (by simp) (by simp) m).mp hm)
  · by_cases hmn : m = n
    · subst hmn
      exact ⟨fun _ => ⟨r, rfl⟩, fun _ => Function.update_self _ _ _⟩
    · refine ⟨fun hm => absurd ((Function.update_of_ne hmn _ _).symm.trans hm) (hnone m hpos), ?_⟩
      rintro ⟨r', hr'⟩
      exact absurd (Watcher.consumed.inj hr').1.symm hmn
  · obtain ⟨rfl, rfl⟩ := Watcher.consumed.inj hr
    exact ⟨by omega, hget⟩
  · obtain rfl := Option.some.inj hl
    refine ⟨hcurrent.le, fun m hpos => ⟨fun hm hp => ?_, fun hm => ?_⟩⟩
    · by_cases hmn : m = n
      · rw [hmn] at hp
        cases (Function.update_self n Fate.consumed b.fate).symm.trans hp
      · have hle := h.pending m hpos ((Function.update_of_ne hmn _ _).symm.trans hp)
        omega
    · exact .inl ((Function.update_of_ne (by omega) _ _).trans (h.ahead m (by omega)))
  · exact h.adopted m e hpos ((hother (by simp) (by simp) m).mp hm)
  · obtain ⟨hle, hlater⟩ := h.dropped m e hpos ((hother (by simp) (by simp) m).mp hm)
    exact ⟨hle, fun _ => hlater (by rw [hwatcher]; rfl)⟩
  · obtain ⟨hle, hcovered⟩ := h.marker M hM
    refine ⟨hle, fun m hpos hm => ?_⟩
    obtain ⟨hp, hc, hd⟩ := hcovered m hpos hm
    have hmn : m ≠ n := by
      rintro rfl
      exact hp hpending
    have hold : Function.update b.fate n .consumed m = b.fate m := Function.update_of_ne hmn _ _
    exact ⟨hold.trans_ne hp, hold.trans_ne hc, fun e he => hd e (hold.symm.trans he)⟩

/-- The consumed record is applied, or lost with the module. -/
theorem sound_settle (h : Sound b) {n : Nat} {r : Record} (hwatcher : b.watcher = .consumed n r)
    {watcher : Watcher} {fate : Fate} (control : Control) (trace : List Cause)
    (hfate : fate = .applied ∧ watcher = .handled n ∨
      fate = .dropped b.baselines ∧ watcher = .off) :
    Sound { b with
      watcher := watcher, fate := Function.update b.fate n fate, control := control,
      trace := trace } := by
  obtain ⟨hn, hget⟩ := h.record n r hwatcher
  have hconsumed : b.fate n = .consumed := (h.consumed n hn).mpr ⟨r, hwatcher⟩
  have hlength : n ≤ b.published.length := by
    have := (List.getElem?_eq_some_iff.mp hget).1
    omega
  obtain ⟨-, hfates⟩ := h.last n (by rw [hwatcher]; rfl)
  have hne : fate ≠ .pending ∧ fate ≠ .overwritten ∧ fate ≠ .consumed ∧ ∀ e, fate ≠ .adopted e := by
    rcases hfate with ⟨rfl, -⟩ | ⟨rfl, -⟩ <;> simp
  have hold : ∀ m, m ≠ n → Function.update b.fate n fate m = b.fate m :=
    fun m hm => Function.update_of_ne hm _ _
  have hnew : Function.update b.fate n fate n = fate := Function.update_self _ _ _
  have hother {g : Fate} (hg : fate ≠ g) (hc : g ≠ .consumed) (m : Nat)
      (hm : Function.update b.fate n fate m = g) : b.fate m = g := by
    by_cases hmn : m = n
    · exact absurd (hnew.symm.trans (hmn ▸ hm)) hg
    · exact (hold m hmn).symm.trans hm
  refine ⟨h.numbered, h.channel, fun m hm => ?_, fun m hpos hm => ?_, fun m hpos hm => ?_,
    fun m hpos => ?_, fun m r' hr => ?_, fun l hl => ?_, fun m e hpos hm => ?_,
    fun m e hpos hm => ?_, fun M hM => ?_⟩
  · exact (hold m (by intro e; exact absurd (e ▸ hm) (not_lt.mpr hlength))).trans (h.ahead m hm)
  · exact h.pending m hpos (hother hne.1 (by simp) m hm)
  · exact h.overwritten m hpos (hother hne.2.1 (by simp) m hm)
  · refine ⟨fun hm => ?_, ?_⟩
    · by_cases hmn : m = n
      · exact absurd (hnew.symm.trans (hmn ▸ hm)) hne.2.2.1
      · obtain ⟨r', hr'⟩ := (h.consumed m hpos).mp ((hold m hmn).symm.trans hm)
        exact absurd (Watcher.consumed.inj (hr'.symm.trans hwatcher)).1 hmn
    · rintro ⟨r', hr'⟩
      rcases hfate with ⟨-, rfl⟩ | ⟨-, rfl⟩ <;> cases hr'
  · rcases hfate with ⟨-, rfl⟩ | ⟨-, rfl⟩ <;> cases hr
  · rcases hfate with ⟨-, rfl⟩ | ⟨-, rfl⟩
    · obtain rfl := Option.some.inj hl
      refine ⟨hlength, fun m hpos => ⟨fun hm hp => ?_, fun hm => ?_⟩⟩
      · exact (hfates m hpos).1 hm (hother hne.1 (by simp) m hp)
      · exact ((hfates m hpos).2 hm).imp (hold m hm.ne').trans (hold m hm.ne').trans
    · cases hl
  · exact h.adopted m e hpos (hother (hne.2.2.2 e) (by simp) m hm)
  · by_cases hmn : m = n
    · rcases hfate with ⟨rfl, -⟩ | ⟨rfl, rfl⟩
      · cases hnew.symm.trans (hmn ▸ hm)
      · rw [Fate.dropped.inj (hnew.symm.trans (hmn ▸ hm))]
        exact ⟨Nat.le_refl _, fun hl => by simp [lastSeq] at hl⟩
    · obtain ⟨hle, hlater⟩ := h.dropped m e hpos ((hold m hmn).symm.trans hm)
      exact ⟨hle, fun _ => hlater (by rw [hwatcher]; rfl)⟩
  · obtain ⟨hle, hcovered⟩ := h.marker M hM
    refine ⟨hle, fun m hpos hm => ?_⟩
    obtain ⟨hp, hc, hd⟩ := hcovered m hpos hm
    have hmn : m ≠ n := by
      rintro rfl
      exact hc hconsumed
    exact ⟨(hold m hmn).trans_ne hp, (hold m hmn).trans_ne hc,
      fun e he => hd e ((hold m hmn).symm.trans he)⟩

theorem sound_mark (h : Sound b) {n : Nat} (written : Bool)
    (hwatcher : b.watcher = .baseline n ∨ b.watcher = .handled n) :
    Sound { b with watcher := .idle n, marker := if written then some n else b.marker } := by
  have hlast : lastSeq b.watcher = some n := by rcases hwatcher with hw | hw <;> rw [hw] <;> rfl
  obtain ⟨hlength, hfates⟩ := h.last n hlast
  have hnone : ∀ m, 0 < m → b.fate m ≠ .consumed := by
    intro m hpos hm
    obtain ⟨r, hr⟩ := (h.consumed m hpos).mp hm
    rcases hwatcher with hw | hw <;> rw [hw] at hr <;> cases hr
  refine { h with
    consumed := fun m hpos => ⟨fun hm => absurd hm (hnone m hpos), ?_⟩
    record := fun m r hr => by cases hr
    last := fun l hl => Option.some.inj hl ▸ ⟨hlength, hfates⟩
    dropped := fun m e hpos hm => ⟨(h.dropped m e hpos hm).1,
      fun _ => (h.dropped m e hpos hm).2 (by rw [hlast]; rfl)⟩
    marker := fun M hM => ?_ }
  · rintro ⟨r, hr⟩
    cases hr
  · cases written with
    | false => exact h.marker M hM
    | true =>
        obtain rfl := Option.some.inj hM
        exact ⟨hlength, fun m hpos hm => ⟨(hfates m hpos).1 hm, hnone m hpos,
          fun e he => (h.dropped m e hpos he).2 (by rw [hlast]; rfl)⟩⟩

/-- A watcher without a record in hand may stop, and one that is off may start. -/
theorem sound_unhanded (h : Sound b) {watcher : Watcher} (hlast : lastSeq watcher = none)
    (hhand : ∀ n r, b.watcher ≠ .consumed n r) (control : Control) (trace : List Cause) :
    Sound { b with watcher := watcher, control := control, trace := trace } := by
  have hother : ∀ n r, watcher ≠ .consumed n r := by
    rintro n r rfl
    cases hlast
  refine { h with
    consumed := fun m hpos => ⟨fun hm => ?_, ?_⟩
    record := fun m r hr => absurd hr (hother m r)
    last := fun l hl => by cases hlast.symm.trans hl
    dropped := fun m e hpos hm => ⟨(h.dropped m e hpos hm).1, fun hl => ?_⟩ }
  · obtain ⟨r, hr⟩ := (h.consumed m hpos).mp hm
    exact absurd hr (hhand m r)
  · rintro ⟨r, hr⟩
    exact absurd hr (hother m r)
  · exact absurd hl (by rw [hlast]; simp)

/-- What one step of the module does to a board. -/
inductive Turn (py : Platform) (b : Board) : Board → Prop
  | started (fresh : Control) (hoff : b.watcher = .off) (hthreads : fresh.threads = [])
      (hjournal : fresh.journal = []) :
      Turn py b { b with
        watcher := .starting, control := fresh, trace := b.trace ++ [.started fresh] }
  | adopted (hstarting : b.watcher = .starting) :
      Turn py b { b with
        watcher := .baseline (current b)
        baselines := b.baselines + 1
        fate := Function.update b.fate (current b)
          ((b.fate (current b)).adoptedAt (b.baselines + 1)) }
  | consumed (last n : Nat) (r : Record) (hidle : b.watcher = .idle last)
      (hchannel : b.channel = some r) (hseq : seqOf r = some n) (hlt : last < n) :
      Turn py b { b with watcher := .consumed n r, fate := Function.update b.fate n .consumed }
  | applied (n : Nat) (r : Record) (tokens : List Str) (starts : Bool) (control : Control)
      (hconsumed : b.watcher = .consumed n r) (htokens : controlRecordToCommand r = some tokens)
      (hcontrol : ControlTimers.step py b.control (.command tokens starts) = some control) :
      Turn py b { b with
        watcher := .handled n
        control := control
        fate := Function.update b.fate n .applied
        trace := b.trace ++ [.channel n tokens starts] }
  | marked (n : Nat) (written : Bool)
      (hwatcher : b.watcher = .baseline n ∨ b.watcher = .handled n) :
      Turn py b { b with watcher := .idle n, marker := if written then some n else b.marker }
  | dropped (n : Nat) (r : Record) (hconsumed : b.watcher = .consumed n r) :
      Turn py b { b with
        watcher := .off, fate := Function.update b.fate n (.dropped b.baselines) }
  | stopped (hhand : ∀ n r, b.watcher ≠ .consumed n r) : Turn py b { b with watcher := .off }
  | same : Turn py b b
  | other (e : Event) (control : Control)
      (hcontrol : ControlTimers.step py b.control e = some control) :
      Turn py b { b with control := control, trace := b.trace ++ [.other e] }

theorem turn_of_readerStep (h : Sound b) {a : ReaderAct}
    (hread : ∀ readable, a = .read readable → b.watcher = .starting →
      readRecord b readable = b.channel)
    (hstep : readerStep py b a = some b') : Turn py b b' := by
  cases a with
  | start fresh =>
      simp only [readerStep] at hstep
      split at hstep
      · rename_i hoff
        split at hstep
        · rename_i hfresh
          exact Option.some.inj hstep ▸ .started fresh hoff hfresh.1 hfresh.2
        · cases hstep
      · cases hstep
  | read readable =>
      simp only [readerStep] at hstep
      split at hstep
      · rename_i hstarting
        rw [seqRead_eq (hread readable rfl hstarting)] at hstep
        exact Option.some.inj hstep ▸ .adopted hstarting
      · rename_i last hidle
        split at hstep
        · rename_i r hrecord
          split at hstep
          · rename_i n hseq
            split at hstep
            · exact Option.some.inj hstep ▸ .same
            · rename_i hlt
              exact Option.some.inj hstep ▸
                .consumed last n r hidle (channel_of_readRecord hrecord) hseq (by omega)
          · exact Option.some.inj hstep ▸ .same
        · exact Option.some.inj hstep ▸ .same
      · cases hstep
  | handle starts =>
      simp only [readerStep] at hstep
      split at hstep
      · rename_i n r hconsumed
        have hsome := (h.numbered _ r (h.record n r hconsumed).2).2
        obtain ⟨tokens, htokens⟩ := Option.isSome_iff_exists.mp hsome
        rw [htokens] at hstep
        obtain ⟨control, hcontrol, rfl⟩ := Option.map_eq_some_iff.mp hstep
        exact .applied n r tokens starts control hconsumed htokens hcontrol
      · cases hstep
  | mark written =>
      simp only [readerStep] at hstep
      split at hstep
      · rename_i n hbaseline
        exact Option.some.inj hstep ▸ .marked n written (.inl hbaseline)
      · rename_i n hhandled
        exact Option.some.inj hstep ▸ .marked n written (.inr hhandled)
      · cases hstep
  | stop =>
      simp only [readerStep] at hstep
      split at hstep
      · cases hstep
      · rename_i n r hconsumed
        exact Option.some.inj hstep ▸ .dropped n r hconsumed
      · rename_i hhand
        exact Option.some.inj hstep ▸ .stopped hhand
  | other e =>
      simp only [readerStep] at hstep
      split at hstep
      · cases hstep
      · obtain ⟨control, hcontrol, rfl⟩ := Option.map_eq_some_iff.mp hstep
        exact .other e control hcontrol

theorem sound_turn (h : Sound b) (hturn : Turn py b b') : Sound b' := by
  cases hturn with
  | started fresh hoff hthreads hjournal =>
      exact sound_unhanded h rfl (fun n r hr => by rw [hoff] at hr; cases hr) _ _
  | adopted hstarting => exact sound_baseline h hstarting
  | consumed last n r hidle hchannel hseq hlt => exact sound_consume h hidle hchannel hseq hlt
  | applied n r tokens starts control hconsumed htokens hcontrol =>
      exact sound_settle h hconsumed control _ (.inl ⟨rfl, rfl⟩)
  | marked n written hwatcher => exact sound_mark h written hwatcher
  | dropped n r hconsumed => exact sound_settle h hconsumed b.control b.trace (.inr ⟨rfl, rfl⟩)
  | stopped hhand => exact sound_unhanded h rfl hhand b.control b.trace
  | same => exact h
  | other e control hcontrol => exact { h with }

/-- How fates may change while the module works. -/
structure Progress (b b' : Board) : Prop where
  published : b'.published = b.published
  baselines : b.baselines ≤ b'.baselines
  fate : ∀ m, b'.fate m = b.fate m ∨
    (b.fate m = .pending ∨ b.fate m = .consumed) ∧
      (b'.fate m = .consumed ∨ b'.fate m = .applied ∨
        b'.fate m = .adopted (b.baselines + 1) ∨ b'.fate m = .dropped b.baselines)

theorem fate_update {b : Board} {n : Nat} {fate : Fate}
    (hold : b.fate n = .pending ∨ b.fate n = .consumed)
    (hnew : fate = .consumed ∨ fate = .applied ∨ fate = .adopted (b.baselines + 1) ∨
      fate = .dropped b.baselines) (m : Nat) :
    Function.update b.fate n fate m = b.fate m ∨
      (b.fate m = .pending ∨ b.fate m = .consumed) ∧
        (Function.update b.fate n fate m = .consumed ∨
          Function.update b.fate n fate m = .applied ∨
          Function.update b.fate n fate m = .adopted (b.baselines + 1) ∨
          Function.update b.fate n fate m = .dropped b.baselines) := by
  by_cases hm : m = n
  · rw [hm, Function.update_self]
    exact .inr ⟨hold, hnew⟩
  · exact .inl (Function.update_of_ne hm _ _)

theorem progress_turn (h : Sound b) (hturn : Turn py b b') : Progress b b' := by
  cases hturn with
  | started fresh hoff hthreads hjournal => exact ⟨rfl, Nat.le_refl _, fun _ => .inl rfl⟩
  | adopted hstarting =>
      refine ⟨rfl, Nat.le_succ _, fun m => ?_⟩
      by_cases hp : b.fate (current b) = .pending
      · exact fate_update (.inl hp) (by rw [hp]; exact .inr (.inr (.inl rfl))) m
      · refine .inl ?_
        dsimp only
        rw [adoptedAt_of_ne hp, Function.update_eq_self]
  | consumed last n r hidle hchannel hseq hlt =>
      refine ⟨rfl, Nat.le_refl _, fate_update (.inl ?_) (.inl rfl)⟩
      have hn : n = b.published.length := by
        rw [← current_eq h, current, hchannel, Option.bind_some, hseq, Option.getD_some]
      rcases ((h.last last (by rw [hidle]; rfl)).2 n (by omega)).2 hlt with hp | ho
      · exact hp
      · have := h.overwritten n (by omega) ho
        omega
  | applied n r tokens starts control hconsumed htokens hcontrol =>
      exact ⟨rfl, Nat.le_refl _, fate_update
        (.inr ((h.consumed n (h.record n r hconsumed).1).mpr ⟨r, hconsumed⟩)) (.inr (.inl rfl))⟩
  | marked n written hwatcher => exact ⟨rfl, Nat.le_refl _, fun _ => .inl rfl⟩
  | dropped n r hconsumed =>
      exact ⟨rfl, Nat.le_refl _, fate_update
        (.inr ((h.consumed n (h.record n r hconsumed).1).mpr ⟨r, hconsumed⟩))
        (.inr (.inr (.inr rfl)))⟩
  | stopped hhand => exact ⟨rfl, Nat.le_refl _, fun _ => .inl rfl⟩
  | same => exact ⟨rfl, Nat.le_refl _, fun _ => .inl rfl⟩
  | other e control hcontrol => exact ⟨rfl, Nat.le_refl _, fun _ => .inl rfl⟩

end Reader

/-! ### The commands handed to the module -/

theorem applied_append (trace : List Cause) (c : Cause) :
    applied (trace ++ [c]) = applied trace ++ applied [c] := List.filterMap_append

theorem replay_append (py : Platform) (c : Control) (trace trace' : List Cause) :
    replay py c (trace ++ trace') = (replay py c trace).bind fun c => replay py c trace' := by
  induction trace generalizing c with
  | nil => rfl
  | cons cause trace ih =>
      cases cause with
      | started fresh => exact ih fresh
      | channel n tokens starts =>
          rw [List.cons_append, replay, replay, Option.bind_assoc]
          exact congrArg _ (funext ih)
      | other e =>
          rw [List.cons_append, replay, replay, Option.bind_assoc]
          exact congrArg _ (funext ih)

/-- Numbers of the published records with a fate. -/
def withFate (b : Board) (fate : Fate) : List Nat :=
  (List.range' 1 b.published.length).filter fun m => b.fate m = fate

/-- The trace says what was applied, and what the control state was made of. -/
structure Traced (py : Platform) (control : Control) (b : Board) : Prop where
  order : applied b.trace = withFate b .applied
  tokens : ∀ n tokens starts, Cause.channel n tokens starts ∈ b.trace →
    0 < n ∧ ∃ r, b.published[n - 1]? = some r ∧ controlRecordToCommand r = some tokens
  replay : replay py control b.trace = some b.control

/-- A number that joins a filtered range behind all that were there. -/
theorem filter_join {p q : Nat → Bool} {n length : Nat} (hpos : 0 < n) (hle : n ≤ length)
    (hq : q n = true) (hp : p n = false) (hbelow : ∀ m, m < n → q m = p m)
    (habove : ∀ m, n < m → p m = false ∧ q m = false) :
    (List.range' 1 length).filter q = (List.range' 1 length).filter p ++ [n] := by
  obtain ⟨before, rfl⟩ := Nat.exists_eq_add_of_lt hpos
  obtain ⟨after, rfl⟩ := Nat.exists_eq_add_of_le hle
  have hrange : List.range' 1 (0 + before + 1 + after) =
      List.range' 1 before ++ (0 + before + 1) :: List.range' (before + 2) after := by
    rw [show 0 + before + 1 + after = before + (after + 1) by omega, ← List.range'_append_1,
      List.range'_succ]
    simp only [Nat.zero_add, Nat.add_comm 1 before]
  have hfirst : (List.range' 1 before).filter q = (List.range' 1 before).filter p := by
    refine List.filter_congr fun m hm => hbelow m ?_
    have := List.mem_range'_1.mp hm
    omega
  have hlast : ∀ r : Nat → Bool, (∀ m, 0 + before + 1 < m → r m = false) →
      (List.range' (before + 2) after).filter r = [] := by
    intro r hr
    refine List.filter_eq_nil_iff.mpr fun m hm => ?_
    have := List.mem_range'_1.mp hm
    rw [hr m (by omega)]
    simp
  rw [hrange, List.filter_append, List.filter_append, List.filter_cons_of_pos hq,
    List.filter_cons_of_neg (by rw [hp]; exact Bool.false_ne_true), hfirst,
    hlast q fun m hm => (habove m hm).2, hlast p fun m hm => (habove m hm).1, List.append_nil]

theorem withFate_congr {b b' : Board} {fate : Fate}
    (hlength : b'.published.length = b.published.length)
    (hfate : ∀ m, 0 < m → (b'.fate m = fate ↔ b.fate m = fate)) :
    withFate b' fate = withFate b fate := by
  rw [withFate, hlength]
  refine List.filter_congr fun m hm => ?_
  have := List.mem_range'_1.mp hm
  exact decide_eq_decide.mpr (hfate m (by omega))

theorem traced_publish {py : Platform} {control : Control} {b : Board} (h : Sound b)
    (ht : Traced py control b) (record : Record) (ts : Nat) :
    Traced py control (publish record (current b + 1) ts b) := by
  refine ⟨?_, fun n tokens starts hmem => ?_, ht.replay⟩
  · have hnew : (publish record (current b + 1) ts b).fate (b.published.length + 1) ≠ .applied := by
      intro hm
      rw [fate_publish_eq h record ts _ (by simp) (by simp), h.ahead _ (Nat.lt_succ_self _)] at hm
      cases hm
    have hrange : List.range' 1 (b.published.length + 1) =
        List.range' 1 b.published.length ++ [b.published.length + 1] := by
      rw [List.range'_concat, Nat.one_mul, Nat.add_comm 1]
    change applied b.trace = _
    rw [withFate, published_publish h, List.length_append, List.length_singleton, hrange,
      List.filter_append, List.filter_cons_of_neg (by simpa using hnew), List.filter_nil,
      List.append_nil, ht.order, withFate]
    refine List.filter_congr fun m _ => ?_
    exact decide_eq_decide.mpr (fate_publish_eq h record ts m (by simp) (by simp)).symm
  · obtain ⟨hpos, r, hget, htokens⟩ := ht.tokens n tokens starts hmem
    refine ⟨hpos, r, ?_, htokens⟩
    rw [published_publish h, List.getElem?_append_left (List.getElem?_eq_some_iff.mp hget).1, hget]

theorem applied_of_update {fate : Nat → Fate} {m n : Nat} {x : Fate}
    (hx : x = .applied → fate n = .applied) (hm : Function.update fate n x m = .applied) :
    fate m = .applied := by
  rcases eq_or_ne m n with rfl | hmn
  · exact hx ((Function.update_self _ _ _).symm.trans hm)
  · exact (Function.update_of_ne hmn _ _).symm.trans hm

theorem traced_turn {py : Platform} {control : Control} {b b' : Board} (h : Sound b)
    (ht : Traced py control b) (hturn : Turn py b b') : Traced py control b' := by
  have hother {c : Cause} (hc : ∀ n tokens starts, c ≠ .channel n tokens starts) {n : Nat}
      {tokens : List Str} {starts : Bool} (hmem : Cause.channel n tokens starts ∈ b.trace ++ [c]) :
      Cause.channel n tokens starts ∈ b.trace := by
    rcases List.mem_append.mp hmem with hmem | hmem
    · exact hmem
    · exact absurd (List.mem_singleton.mp hmem).symm (hc n tokens starts)
  have hkeep (hp : Progress b b') (hnew : ∀ m, 0 < m → b'.fate m = .applied → b.fate m = .applied) :
      withFate b' .applied = withFate b .applied := by
    refine withFate_congr (by rw [hp.published]) fun m hm => ⟨hnew m hm, fun hold => ?_⟩
    rcases hp.fate m with hsame | ⟨hopen, -⟩
    · rw [hsame, hold]
    · rcases hopen with hopen | hopen <;> cases hopen.symm.trans hold
  have hprogress := progress_turn h hturn
  cases hturn with
  | started fresh hoff hthreads hjournal =>
      refine ⟨?_, fun n tokens starts hmem => ht.tokens n tokens starts (hother (by simp) hmem), ?_⟩
      · rw [applied_append, ht.order]
        exact List.append_nil _
      · rw [replay_append, ht.replay]
        rfl
  | adopted hstarting =>
      have hadopted (hx : (b.fate (current b)).adoptedAt (b.baselines + 1) = .applied) :
          b.fate (current b) = .applied := by
        cases hfate : b.fate (current b) <;> rw [hfate] at hx <;> cases hx
      have hnew := hkeep hprogress fun m _ hm => applied_of_update hadopted hm
      exact ⟨ht.order.trans hnew.symm, ht.tokens, ht.replay⟩
  | consumed last n r hidle hchannel hseq hlt =>
      have hnew := hkeep hprogress fun m _ hm => applied_of_update (fun hx => by cases hx) hm
      exact ⟨ht.order.trans hnew.symm, ht.tokens, ht.replay⟩
  | applied n r tokens starts control' hconsumed htokens hcontrol =>
      obtain ⟨hpos, hget⟩ := h.record n r hconsumed
      have hlength := (List.getElem?_eq_some_iff.mp hget).1
      have hfates := (h.last n (by rw [hconsumed]; rfl)).2
      refine ⟨?_, fun m tokens' starts' hmem => ?_, ?_⟩
      · rw [applied_append, ht.order]
        refine (filter_join hpos (by omega) ?_ ?_ (fun m hm => ?_) fun m hm => ?_).symm
        · exact decide_eq_true (Function.update_self _ _ _)
        · rw [(h.consumed n hpos).mpr ⟨r, hconsumed⟩]
          rfl
        · exact congrArg (fun fate => decide (fate = Fate.applied))
            (Function.update_of_ne hm.ne _ _)
        · have hnone : b.fate m ≠ .applied := by
            rcases (hfates m (by omega)).2 hm with hp | ho
            · rw [hp]
              simp
            · rw [ho]
              simp
          exact ⟨decide_eq_false hnone,
            decide_eq_false ((Function.update_of_ne hm.ne' _ _).trans_ne hnone)⟩
      · rcases List.mem_append.mp hmem with hmem | hmem
        · exact ht.tokens m tokens' starts' hmem
        · obtain ⟨rfl, rfl, -⟩ := Cause.channel.inj (List.mem_singleton.mp hmem)
          exact ⟨hpos, r, hget, htokens⟩
      · rw [replay_append, ht.replay, Option.bind_some, replay, hcontrol]
        rfl
  | marked n written hwatcher => exact ⟨ht.order, ht.tokens, ht.replay⟩
  | dropped n r hconsumed =>
      have hnew := hkeep hprogress fun m _ hm => applied_of_update (fun hx => by cases hx) hm
      exact ⟨ht.order.trans hnew.symm, ht.tokens, ht.replay⟩
  | stopped hhand => exact ⟨ht.order, ht.tokens, ht.replay⟩
  | same => exact ht
  | other e control' hcontrol =>
      refine ⟨?_, fun n tokens starts hmem => ht.tokens n tokens starts (hother (by simp) hmem), ?_⟩
      · rw [applied_append, ht.order]
        exact List.append_nil _
      · rw [replay_append, ht.replay, Option.bind_some, replay, hcontrol]
        rfl

/-! ### Calls -/

/-- What a confirmed call may rely on: its record was applied, or it met the module between two
starts of its watcher. -/
def Resolved (b : Board) (n since till : Nat) : Prop :=
  b.fate n = .applied ∨ (∃ e, b.fate n = .adopted e ∧ since < e ∧ e ≤ till) ∨
    ∃ e, b.fate n = .dropped e ∧ since ≤ e ∧ e < till

/-- What is known of the record a call waits for. -/
def Awaited (b : Board) (n since : Nat) : Prop :=
  0 < n ∧ n = b.published.length ∧ since ≤ b.baselines ∧
    (∀ e, b.fate n = .adopted e → since < e) ∧ ∀ e, b.fate n = .dropped e → since ≤ e

/-- What holds of the calls at all times. -/
structure Held (s : System) : Prop where
  sound : Sound s.board
  record : ∀ k record waits, s.calls k = .ready record waits ∨ s.calls k = .holding record waits →
    ∀ n ts, (controlRecordToCommand (sealed record n ts)).isSome
  holding : ∀ k record waits, s.calls k = .holding record waits → s.lock = some k
  waiting : ∀ k n since, s.calls k = .waiting n since → s.lock = some k ∧ Awaited s.board n since
  returned : ∀ k n since till, s.calls k = .returned n since (some till) →
    0 < n ∧ Resolved s.board n since till

theorem held_initial (control : Control) : Held (initial control) where
  sound := sound_initial control
  record _ _ _ h := by simp [initial] at h
  holding _ _ _ h := by cases h
  waiting _ _ _ h := by cases h
  returned _ _ _ _ h := by cases h

theorem Resolved.of_kept {b b' : Board} {n since till : Nat} (h : Resolved b n since till)
    (hfate : b.fate n ≠ .pending → b.fate n ≠ .consumed → b'.fate n = b.fate n) :
    Resolved b' n since till := by
  have hsame : b'.fate n = b.fate n := by
    rcases h with h | ⟨e, h, -⟩ | ⟨e, h, -⟩ <;> exact hfate (by simp [h]) (by simp [h])
  rw [Resolved, hsame]
  exact h

theorem resolved_publish {b : Board} (hb : Sound b) {n since till : Nat}
    (h : Resolved b n since till) (record : Record) (ts : Nat) :
    Resolved (publish record (current b + 1) ts b) n since till := by
  refine h.of_kept fun hp _ => ?_
  rcases fate_publish hb record ts n with hsame | ⟨-, hpending, -⟩
  · exact hsame
  · exact absurd hpending hp

section Calls

variable {py : Platform} {filterIp : Str → Str} {s s' : System} {k : Nat}

/-- A call that is over. -/
theorem held_finish (h : Held s) {c : Call} (hover : c = .refused ∨ c = .died ∨
      ∃ n since confirmed, c = .returned n since confirmed)
    (hreturned : ∀ n since till, c = .returned n since (some till) →
      0 < n ∧ Resolved s.board n since till) : Held (finish s k c) := by
  have hcall : ∀ k', (finish s k c).calls k' = if k' = k then c else s.calls k' :=
    fun k' => Function.update_apply _ _ _ _
  have hlock : ∀ k', k' ≠ k → s.lock = some k' → (finish s k c).lock = some k' := by
    intro k' hk hl
    simp only [finish]
    rw [if_neg (by rw [hl]; simpa using hk), hl]
  refine ⟨h.sound, fun k' record waits hk => ?_, fun k' record waits hk => ?_,
    fun k' n since hk => ?_, fun k' n since till hk => ?_⟩
  all_goals rw [hcall] at hk
  · split at hk
    · rcases hover with rfl | rfl | ⟨_, _, _, rfl⟩ <;> simp at hk
    · exact h.record k' record waits hk
  · split at hk
    · rcases hover with rfl | rfl | ⟨_, _, _, rfl⟩ <;> cases hk
    · rename_i hne
      exact hlock k' hne (h.holding k' record waits hk)
  · split at hk
    · rcases hover with rfl | rfl | ⟨_, _, _, rfl⟩ <;> cases hk
    · rename_i hne
      obtain ⟨hl, hawaited⟩ := h.waiting k' n since hk
      exact ⟨hlock k' hne hl, hawaited⟩
  · split at hk
    · exact hreturned n since till hk
    · exact h.returned k' n since till hk

/-- A call that has checked its arguments. -/
theorem held_checked (h : Held s) {c : Call} (hchecked : c = .refused ∨ ∃ record waits,
      c = .ready record waits ∧ ∀ n ts, (controlRecordToCommand (sealed record n ts)).isSome) :
    Held (setCall s k c) := by
  have hcall : ∀ k', (setCall s k c).calls k' = if k' = k then c else s.calls k' :=
    fun k' => Function.update_apply _ _ _ _
  refine ⟨h.sound, fun k' record waits hk => ?_, fun k' record waits hk => ?_,
    fun k' n since hk => ?_, fun k' n since till hk => ?_⟩
  all_goals rw [hcall] at hk
  · split at hk
    · rcases hchecked with rfl | ⟨record', waits', rfl, htokens⟩
      · simp at hk
      · rcases hk with hk | hk
        · obtain ⟨rfl, -⟩ := Call.ready.inj hk
          exact htokens
        · cases hk
    · exact h.record k' record waits hk
  · split at hk
    · rcases hchecked with rfl | ⟨_, _, rfl, -⟩ <;> cases hk
    · exact h.holding k' record waits hk
  · split at hk
    · rcases hchecked with rfl | ⟨_, _, rfl, -⟩ <;> cases hk
    · exact h.waiting k' n since hk
  · split at hk
    · rcases hchecked with rfl | ⟨_, _, rfl, -⟩ <;> cases hk
    · exact h.returned k' n since till hk

/-- A call that gets the free lock. -/
theorem held_lock (h : Held s) {record : Record} {waits : Bool} (hfree : s.lock = none)
    (hready : s.calls k = .ready record waits) :
    Held { setCall s k (.holding record waits) with lock := some k } := by
  have hcall : ∀ k', Function.update s.calls k (.holding record waits) k' =
      if k' = k then .holding record waits else s.calls k' :=
    fun k' => Function.update_apply _ _ _ _
  refine ⟨h.sound, fun k' record' waits' hk => ?_, fun k' record' waits' hk => ?_,
    fun k' n since hk => ?_, fun k' n since till hk => ?_⟩
  all_goals
    simp only [setCall] at hk
    rw [hcall] at hk
  · split at hk
    · rcases hk with hk | hk
      · cases hk
      · obtain ⟨rfl, -⟩ := Call.holding.inj hk
        exact h.record k record waits (.inl hready)
    · exact h.record k' record' waits' hk
  · split at hk
    · rename_i heq
      rw [heq]
    · have hl := h.holding k' record' waits' hk
      rw [hfree] at hl
      cases hl
  · split at hk
    · cases hk
    · have hl := (h.waiting k' n since hk).1
      rw [hfree] at hl
      cases hl
  · split at hk
    · cases hk
    · exact h.returned k' n since till hk

/-- A call that publishes its record. -/
theorem held_publish (h : Held s) {record : Record} {waits : Bool}
    (hholding : s.calls k = .holding record waits) (ts : Nat) :
    Held (setCall { s with board := publish record (current s.board + 1) ts s.board } k
      (.waiting (current s.board + 1) s.board.baselines)) := by
  have hsound : Sound (publish record (current s.board + 1) ts s.board) :=
    sound_publish h.sound (h.record k record waits (.inr hholding))
  have hl := h.holding k record waits hholding
  have hcall : ∀ k', Function.update s.calls k
      (.waiting (current s.board + 1) s.board.baselines) k' =
        if k' = k then .waiting (current s.board + 1) s.board.baselines else s.calls k' :=
    fun k' => Function.update_apply _ _ _ _
  refine ⟨hsound, fun k' record' waits' hk => ?_, fun k' record' waits' hk => ?_,
    fun k' n since hk => ?_, fun k' n since till hk => ?_⟩
  all_goals
    simp only [setCall] at hk
    rw [hcall] at hk
  · split at hk
    · simp at hk
    · exact h.record k' record' waits' hk
  · split at hk
    · cases hk
    · exact h.holding k' record' waits' hk
  · split at hk
    · rename_i heq
      obtain ⟨rfl, rfl⟩ := Call.waiting.inj hk
      have hlength : current s.board + 1 =
          (publish record (current s.board + 1) ts s.board).published.length := by
        rw [published_publish h.sound, List.length_append, List.length_singleton,
          current_eq h.sound]
      have hpending : (publish record (current s.board + 1) ts s.board).fate (current s.board + 1) =
          .pending :=
        (Function.update_of_ne (Nat.succ_ne_self _) _ _).trans
          (h.sound.ahead _ (by rw [current_eq h.sound]; exact Nat.lt_succ_self _))
      refine ⟨heq ▸ hl, Nat.succ_pos _, hlength, Nat.le_refl _, fun e he => ?_, fun e he => ?_⟩
      · cases hpending.symm.trans he
      · cases hpending.symm.trans he
    · rename_i hne
      have hl' := (h.waiting k' n since hk).1
      exact absurd (Option.some.inj (hl'.symm.trans hl)) hne
  · split at hk
    · cases hk
    · obtain ⟨hpos, hresolved⟩ := h.returned k' n since till hk
      exact ⟨hpos, resolved_publish h.sound hresolved record ts⟩

theorem finish_setCall (c c' : Call) : finish (setCall s k c) k c' = finish s k c' := by
  simp only [finish, setCall, Function.update_idem]
  rfl

/-- A step of the module. -/
theorem held_reader (h : Held s) {b : Board} (hturn : Turn py s.board b) :
    Held { s with board := b } := by
  have hprogress := progress_turn h.sound hturn
  refine ⟨sound_turn h.sound hturn, h.record, h.holding, fun k' n since hk => ?_,
    fun k' n since till hk => ?_⟩
  · obtain ⟨hl, hpos, hn, hsince, hadopted, hdropped⟩ := h.waiting k' n since hk
    refine ⟨hl, hpos, by rw [hn, hprogress.published], hsince.trans hprogress.baselines,
      fun e he => ?_, fun e he => ?_⟩
    · rcases hprogress.fate n with hsame | ⟨-, hnew | hnew | hnew | hnew⟩
      · exact hadopted e (hsame.symm.trans he)
      · cases hnew.symm.trans he
      · cases hnew.symm.trans he
      · obtain rfl := Fate.adopted.inj (hnew.symm.trans he)
        exact Nat.lt_succ_of_le hsince
      · cases hnew.symm.trans he
    · rcases hprogress.fate n with hsame | ⟨-, hnew | hnew | hnew | hnew⟩
      · exact hdropped e (hsame.symm.trans he)
      · cases hnew.symm.trans he
      · cases hnew.symm.trans he
      · cases hnew.symm.trans he
      · obtain rfl := Fate.dropped.inj (hnew.symm.trans he)
        exact hsince
  · obtain ⟨hpos, hresolved⟩ := h.returned k' n since till hk
    refine ⟨hpos, hresolved.of_kept fun hp hc => ?_⟩
    rcases hprogress.fate n with hsame | ⟨hopen, -⟩
    · exact hsame
    · rcases hopen with hopen | hopen
      · exact absurd hopen hp
      · exact absurd hopen hc

/-- The call is over as soon as its record stands. -/
theorem held_unawaited (h : Held s) {record : Record} {waits : Bool}
    (hholding : s.calls k = .holding record waits) (ts : Nat) :
    Held (finish { s with board := publish record (current s.board + 1) ts s.board } k
      (.returned (current s.board + 1) s.board.baselines none)) := by
  rw [← finish_setCall (.waiting (current s.board + 1) s.board.baselines)]
  exact held_finish (held_publish h hholding ts) (.inr (.inr ⟨_, _, _, rfl⟩))
    fun n since till e => by cases e

theorem resolved_of_marker {b : Board} {n since m : Nat} (hb : Sound b) (h : Awaited b n since)
    (hmarker : b.marker = some m) (hle : n ≤ m) : Resolved b n since b.baselines := by
  obtain ⟨hpos, hn, hsince, hadopted, hdropped⟩ := h
  obtain ⟨hp, hc, hd⟩ := (hb.marker m hmarker).2 n hpos hle
  cases hfate : b.fate n with
  | pending => exact absurd hfate hp
  | consumed => exact absurd hfate hc
  | applied => exact .inl hfate
  | adopted e => exact .inr (.inl ⟨e, hfate, hadopted e hfate, hb.adopted n e hpos hfate⟩)
  | dropped e => exact .inr (.inr ⟨e, hfate, hdropped e hfate, hd e hfate⟩)
  | overwritten =>
      have := hb.overwritten n hpos hfate
      omega

theorem held_step (h : Held s) {a : Act} (hreads : ReadsNumber s a)
    (hstep : step py filterIp s a = some s') : Held s' := by
  cases a with
  | call k q =>
      simp only [step] at hstep
      split at hstep
      · split at hstep
        · rename_i record hrecord
          refine Option.some.inj hstep ▸
            held_checked h (.inr ⟨record, q.waits, rfl, fun n ts => ?_⟩)
          rw [controlRecordToCommand_sealed hrecord]
          rfl
        · exact Option.some.inj hstep ▸ held_checked h (.inl rfl)
      · cases hstep
  | lock k =>
      simp only [step] at hstep
      split at hstep
      · rename_i record waits hready hfree
        exact Option.some.inj hstep ▸ held_lock h hfree hready
      · cases hstep
  | giveUp k =>
      simp only [step] at hstep
      split at hstep
      · exact Option.some.inj hstep ▸ held_checked h (.inl rfl)
      · cases hstep
  | publish k ts readable =>
      simp only [step, seqRead_eq hreads] at hstep
      split at hstep
      · rename_i record waits hholding
        split at hstep
        · exact Option.some.inj hstep ▸ held_publish h hholding ts
        · exact Option.some.inj hstep ▸ held_unawaited h hholding ts
      · cases hstep
  | fail k =>
      simp only [step] at hstep
      split at hstep
      · exact Option.some.inj hstep ▸ held_finish h (.inl rfl) fun n since till e => by cases e
      · cases hstep
  | confirm k =>
      simp only [step] at hstep
      split at hstep
      · rename_i n since m hwaiting hmarker
        split at hstep
        · rename_i hle
          obtain ⟨-, hawaited⟩ := h.waiting k n since hwaiting
          refine Option.some.inj hstep ▸ held_finish h (.inr (.inr ⟨_, _, _, rfl⟩))
            fun n' since' till e => ?_
          obtain ⟨rfl, rfl, htill⟩ := Call.returned.inj e
          rw [← Option.some.inj htill]
          exact ⟨hawaited.1, resolved_of_marker h.sound hawaited hmarker hle⟩
        · cases hstep
      · cases hstep
  | expire k =>
      simp only [step] at hstep
      split at hstep
      · exact Option.some.inj hstep ▸ held_finish h (.inr (.inr ⟨_, _, _, rfl⟩))
          fun n since till e => by cases e
      · cases hstep
  | die k =>
      simp only [step] at hstep
      split at hstep
      · exact Option.some.inj hstep ▸ held_finish h (.inr (.inl rfl)) fun _ _ _ e => by cases e
      · exact Option.some.inj hstep ▸ held_finish h (.inr (.inl rfl)) fun _ _ _ e => by cases e
      · exact Option.some.inj hstep ▸ held_finish h (.inr (.inl rfl)) fun _ _ _ e => by cases e
      · cases hstep
  | reader a =>
      obtain ⟨b, hreader, rfl⟩ := Option.map_eq_some_iff.mp hstep
      exact held_reader h (turn_of_readerStep h.sound (fun _ e => by rw [e] at hreads; exact hreads)
        hreader)

/-- The board of a step: as it was, with a new record, or after a turn of the module. -/
theorem board_of_step (h : Held s) {a : Act} (hreads : ReadsNumber s a)
    (hstep : step py filterIp s a = some s') :
    s'.board = s.board ∨ (∃ record ts, s'.board = publish record (current s.board + 1) ts s.board) ∨
      Turn py s.board s'.board := by
  cases a with
  | publish k ts readable =>
      simp only [step, seqRead_eq hreads] at hstep
      split at hstep
      · rename_i record waits hholding
        refine .inr (.inl ⟨record, ts, ?_⟩)
        split at hstep <;> rw [← Option.some.inj hstep] <;> rfl
      · cases hstep
  | reader a =>
      obtain ⟨b, hreader, rfl⟩ := Option.map_eq_some_iff.mp hstep
      exact .inr (.inr (turn_of_readerStep h.sound
        (fun _ e => by rw [e] at hreads; exact hreads) hreader))
  | call | lock | giveUp | fail | confirm | expire | die =>
      refine .inl ?_
      simp only [step] at hstep
      repeat' split at hstep
      all_goals first | (rw [← Option.some.inj hstep]; rfl) | cases hstep

end Calls

/-! ### Runs -/

section Runs

variable {py : Platform} {filterIp : Str → Str} {control : Control} {acts : List Act} {s : System}

theorem held_run (hreads : Along (step py filterIp) ReadsNumber (initial control) acts)
    (h : run (step py filterIp) (initial control) acts = some s) : Held s :=
  run_invariant_along (fun _ _ _ hs hread hstep => held_step hs hread hstep) (held_initial control)
    hreads h

theorem traced_run (hreads : Along (step py filterIp) ReadsNumber (initial control) acts)
    (h : run (step py filterIp) (initial control) acts = some s) :
    Traced py control s.board := by
  have hinit : Held (initial control) ∧ Traced py control (initial control).board :=
    ⟨held_initial control, rfl, fun _ _ _ hmem => absurd hmem List.not_mem_nil, rfl⟩
  refine (run_invariant_along (P := fun s => Held s ∧ Traced py control s.board)
    (fun s a s' hs hread hstep => ⟨held_step hs.1 hread hstep, ?_⟩) hinit hreads h).2
  rcases board_of_step hs.1 hread hstep with hsame | ⟨record, ts, hpublished⟩ | hturn
  · rw [hsame]
    exact hs.2
  · rw [hpublished]
    exact traced_publish hs.1.sound hs.2 record ts
  · exact traced_turn hs.1.sound hs.2 hturn

/-- Over any run in which the reads for a number succeed, with any calls and any starts and stops
of the module, the commands handed to the module are the published records, each at most once and
in the order of their publication, and the control state is what these commands and nothing but
the module's own events made of it. -/
theorem commands_applied_in_order
    (hreads : Along (step py filterIp) ReadsNumber (initial control) acts)
    (h : run (step py filterIp) (initial control) acts = some s) :
    (applied s.board.trace).Sublist (List.range' 1 s.board.published.length) ∧
      (∀ n tokens starts, Cause.channel n tokens starts ∈ s.board.trace →
        ∃ r, s.board.published[n - 1]? = some r ∧ seqOf r = some n ∧
          controlRecordToCommand r = some tokens) ∧
      replay py control s.board.trace = some s.board.control := by
  have hsound := (held_run hreads h).sound
  obtain ⟨horder, htokens, hreplay⟩ := traced_run hreads h
  refine ⟨?_, fun n tokens starts hmem => ?_, hreplay⟩
  · rw [horder]
    exact List.filter_sublist
  · obtain ⟨hpos, r, hget, hcommand⟩ := htokens n tokens starts hmem
    have hseq := (hsound.numbered (n - 1) r hget).1
    rw [Nat.sub_add_cancel hpos] at hseq
    exact ⟨r, hget, hseq, hcommand⟩

/-- A call that was told its record is consumed: the record was handed to the module, unless the
watcher took a baseline between the publication and the answer. -/
theorem confirmed_call_applied
    (hreads : Along (step py filterIp) ReadsNumber (initial control) acts)
    (h : run (step py filterIp) (initial control) acts = some s)
    {k n since till : Nat} (hcall : s.calls k = .returned n since (some till)) :
    n ∈ applied s.board.trace ∨ since < till := by
  have hheld := held_run hreads h
  obtain ⟨hpos, happlied | ⟨e, -, hlt, hle⟩ | ⟨e, -, hle, hlt⟩⟩ :=
    hheld.returned k n since till hcall
  · refine .inl ?_
    have hlength : n ≤ s.board.published.length := by
      by_contra hgt
      have hpending := hheld.sound.ahead n (by omega)
      rw [happlied] at hpending
      cases hpending
    rw [(traced_run hreads h).order, withFate, List.mem_filter, List.mem_range'_1]
    exact ⟨by omega, decide_eq_true happlied⟩
  · exact .inr (hlt.trans_le hle)
  · exact .inr (hle.trans_lt hlt)

end Runs

/-- The module starts and takes a baseline. -/
def baselineActs (readable : Bool) : List Act :=
  [.reader (.start idle), .reader (.read readable), .reader (.mark true)]

/-- A call publishes its command, the watcher handles it, and the call is told so. -/
def commandActs (k : Nat) (cmd : Str) (readable starts : Bool) : List Act :=
  [.call k ⟨cmd, [], [], true⟩, .lock k, .publish k 7 readable, .reader (.read true),
    .reader (.handle starts), .reader (.mark true), .confirm k]

/-- Two commands, the second after a restart of the module. -/
def restartRun : List Act :=
  baselineActs true ++ commandActs 0 disableVerb true true ++ [.reader .stop] ++
    baselineActs true ++ commandActs 1 enableVerb true false

def Act.readable : Act → Bool
  | .publish _ _ readable => readable
  | .reader (.read readable) => readable
  | _ => true

theorem readsNumber_of_readable {a : Act} (h : a.readable = true) (s : System) :
    ReadsNumber s a := by
  cases a with
  | publish k ts readable =>
      rw [show readable = true from h]
      rfl
  | reader a =>
      cases a with
      | read readable =>
          rw [show readable = true from h]
          exact fun _ => rfl
      | start | handle | mark | stop | other => trivial
  | call | lock | giveUp | fail | confirm | expire | die => trivial

theorem along_restartRun :
    Along (step asciiPlatform id) ReadsNumber (initial idle) restartRun := by
  have hreadable : ∀ a ∈ restartRun, a.readable = true := by decide
  exact along_of_forall (fun a ha => readsNumber_of_readable (hreadable a ha)) _

theorem commands_applied_in_order_restart :
    ∃ s, run (step asciiPlatform id) (initial idle) restartRun = some s ∧
      applied s.board.trace = [1, 2] ∧
      (applied s.board.trace).Sublist (List.range' 1 s.board.published.length) ∧
      replay asciiPlatform idle s.board.trace = some s.board.control := by
  have hrun : (run (step asciiPlatform id) (initial idle) restartRun).map
      (fun s => applied s.board.trace) = some [1, 2] := by
    decide +kernel
  obtain ⟨s, hs, happlied⟩ := Option.map_eq_some_iff.mp hrun
  obtain ⟨horder, -, hreplay⟩ := commands_applied_in_order along_restartRun hs
  exact ⟨s, hs, happlied, horder, hreplay⟩

theorem confirmed_call_applied_restart :
    ∃ s, run (step asciiPlatform id) (initial idle) restartRun = some s ∧
      s.calls 1 = .returned 2 2 (some 2) ∧ 2 ∈ applied s.board.trace := by
  have hrun : (run (step asciiPlatform id) (initial idle) restartRun).map (fun s => s.calls 1) =
      some (.returned 2 2 (some 2)) := rfl
  obtain ⟨s, hs, hcall⟩ := Option.map_eq_some_iff.mp hrun
  exact ⟨s, hs, hcall, (confirmed_call_applied along_restartRun hs hcall).resolve_right
    (Nat.lt_irrefl _)⟩

/-- A baseline that cannot be read hands the record of the last run over again. -/
example : (run (step asciiPlatform id) (initial idle)
    (baselineActs true ++ commandActs 0 disableVerb true true ++ [.reader .stop] ++
      baselineActs false ++ [.reader (.read true), .reader (.handle true)])).map
      (fun s => applied s.board.trace) = some [1, 1] := by
  decide +kernel

/-- A writer that cannot read the channel starts over at 1, and is told at once that its record is
consumed. -/
example : (run (step asciiPlatform id) (initial idle)
    (baselineActs true ++ commandActs 0 disableVerb true true ++
      [.call 1 ⟨enableVerb, [], [], true⟩, .lock 1, .publish 1 8 false, .confirm 1,
        .reader (.read true)])).map
      (fun s => (s.calls 1, applied s.board.trace)) = some (.returned 1 1 (some 1), [1]) :=
  rfl

end PfBlockerNG.ControlChannel
