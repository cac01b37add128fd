import PfBlockerNG.OrderedDict
import PfBlockerNG.Strings
import Mathlib.Algebra.BigOperators.Group.List.Basic
import Mathlib.Algebra.Order.Ring.Rat

/-!
The statistics worker. Counter increments are batched as deltas and written to the two
statistics databases; a write is retried and a failed one leaves its delta pending.
-/

namespace PfBlockerNG.CounterWorker

open PfBlockerNG.OrderedDict
open PfBlockerNG.Strings

structure ResolverRow where
  row : Int
  totalqueries : Int
  queries : Int
  deriving DecidableEq, Repr

structure DnsblRow where
  groupname : Str
  timestamp : Str
  entries : Int
  counter : Int
  deriving DecidableEq, Repr

/-- The table of one database, and whether a connection to it is cached in `_db_conns`. -/
structure Table (ρ : Type) where
  rows : List ρ
  connected : Bool

/-- How one attempt of `_db_run` goes: whether connecting raises, whether the work or its
commit raises, and the time of day. -/
structure Attempt where
  connectFault : Bool
  writeFault : Bool
  timestamp : Str

/-- The group of the upstream blocks, which no feed creates. -/
def upstream : Str := "Upstream".toList

/-- `_db_seed_upstream_row`. -/
def dbSeedUpstreamRow (timestamp : Str) (rows : List DnsblRow) : List DnsblRow :=
  if rows.any fun r => r.groupname = upstream then rows else rows ++ [⟨upstream, timestamp, 0, 0⟩]

/-- `_db_create` of the resolver database. -/
def dbCreateResolver (_ : Str) (rows : List ResolverRow) : List ResolverRow :=
  if rows.isEmpty then [⟨0, 0, 0⟩] else rows

/-- `_db_create` of the DNSBL database. -/
def dbCreateDnsbl (timestamp : Str) (rows : List DnsblRow) : List DnsblRow :=
  dbSeedUpstreamRow timestamp rows

variable {ρ : Type}

/-- `_db_run` over the attempts it has left: a faulting attempt drops the connection and what
it did not commit, and the next one connects again. -/
def dbRun (create work : Str → List ρ → List ρ) : List Attempt → Table ρ → Table ρ × Bool
  | [], t => (t, false)
  | a :: rest, t =>
      if !t.connected && a.connectFault then dbRun create work rest t
      else
        let rows := if t.connected then t.rows else create a.timestamp t.rows
        if a.writeFault then dbRun create work rest ⟨rows, false⟩
        else (⟨work a.timestamp rows, true⟩, true)

/-- The four attempts of `range(4)`. -/
def tries (attempts : Nat → Attempt) : List Attempt := (List.range 4).map attempts

/-- `UPDATE resolver SET totalqueries = totalqueries + ? WHERE row = 0`. -/
def countResolver (delta : Nat) (rows : List ResolverRow) : List ResolverRow :=
  rows.map fun r => if r.row = 0 then { r with totalqueries := r.totalqueries + delta } else r

/-- `UPDATE dnsbl SET counter = counter + ? WHERE groupname = ?`. -/
def countGroup (delta : Nat) (group : Str) (rows : List DnsblRow) : List DnsblRow :=
  rows.map fun r => if r.groupname = group then { r with counter := r.counter + delta } else r

/-- `_db_flush_resolver`. -/
def dbFlushResolver (con : Bool) (delta : Nat) (attempts : Nat → Attempt) (t : Table ResolverRow) :
    Table ResolverRow × Bool :=
  if delta = 0 || !con then (t, true)
  else dbRun dbCreateResolver (fun _ => countResolver delta) (tries attempts) t

/-- `_flush`: the work of one DNSBL flush. -/
def flushWork (deltas : Dict Str Nat) (timestamp : Str) (rows : List DnsblRow) : List DnsblRow :=
  deltas.items.foldl (fun rows item => countGroup item.2 item.1 rows)
    (if (deltas.get upstream).isSome then dbSeedUpstreamRow timestamp rows else rows)

/-- `_db_flush_dnsbl`. -/
def dbFlushDnsbl (con : Bool) (deltas : Dict Str Nat) (attempts : Nat → Attempt)
    (t : Table DnsblRow) : Table DnsblRow × Bool :=
  if !deltas.nonempty || !con then (t, true)
  else dbRun dbCreateDnsbl (flushWork deltas) (tries attempts) t

/-- A queued operation. -/
inductive Task where
  | resolver
  | dnsbl (group : Str)
  | stop
  | other (kind : Str)
  deriving DecidableEq, Repr

/-- What a read of the queue returns: `queue.Empty`, or an item, which may be `None`. -/
inductive Got where
  | empty
  | item (task : Option Task)
  deriving DecidableEq, Repr

/-- `sqlite3_resolver_con` and `sqlite3_dnsbl_con`. -/
structure Stats where
  resolverCon : Bool
  dnsblCon : Bool

/-- Where the worker is: in `get`, draining the queue, at the test before a flush, in one of
the two halves of the flush, or past its loop. -/
inductive Phase where
  | get
  | drain
  | check
  | flushResolver
  | flushDnsbl
  | stopped
  deriving DecidableEq, Repr

/-- The worker's variables and the two databases; `dequeued` lists what the queue gave. -/
structure State where
  phase : Phase
  task : Option Task
  stop : Bool
  resolverDelta : Nat
  dnsblDeltas : Dict Str Nat
  lastFlush : ℚ
  resolver : Table ResolverRow
  dnsbl : Table DnsblRow
  dequeued : List Task

/-- What the next calls return: the queue's answer, the clock, and the attempts of a write. -/
structure Answer where
  got : Got
  now : ℚ
  attempts : Nat → Attempt

/-- `PFB_DB_FLUSH_INTERVAL` and `PFB_DB_MAX_BATCH`. -/
def flushInterval : ℚ := 1

def maxBatch : Nat := 2000

/-- `accumulate`. -/
def State.accumulate (s : State) (t : Task) : State :=
  match t with
  | .resolver => { s with resolverDelta := s.resolverDelta + 1 }
  | .dnsbl group =>
      { s with dnsblDeltas := s.dnsblDeltas.set group ((s.dnsblDeltas.get group).getD 0 + 1) }
  | _ => s

/-- An item leaves the queue; every one but `stop` is accumulated. -/
def State.dequeue (s : State) (t : Task) : State :=
  let s := { s with dequeued := s.dequeued ++ [t] }
  if t = .stop then s else s.accumulate t

/-- The first half of `flush`. -/
def State.flushResolver (s : State) (stats : Stats) (a : Answer) : State :=
  if s.resolverDelta = 0 then s
  else
    let (t, ok) := dbFlushResolver stats.resolverCon s.resolverDelta a.attempts s.resolver
    { s with resolver := t, resolverDelta := if ok then 0 else s.resolverDelta }

/-- The second half of `flush`. -/
def State.flushDnsbl (s : State) (stats : Stats) (a : Answer) : State :=
  if s.dnsblDeltas.nonempty then
    let (t, ok) := dbFlushDnsbl stats.dnsblCon s.dnsblDeltas a.attempts s.dnsbl
    { s with dnsbl := t, dnsblDeltas := if ok then .empty else s.dnsblDeltas }
  else s

/-- The triggers of a flush: stop, a timeout, a full batch, the interval. -/
def State.due (s : State) (now : ℚ) : Bool :=
  s.stop || s.task.isNone || maxBatch ≤ s.resolverDelta + s.dnsblDeltas.length ||
    flushInterval ≤ now - s.lastFlush

/-- `pfb_db_worker`, one call to the outside at a time. -/
def step (stats : Stats) (s : State) (a : Answer) : State :=
  match s.phase with
  | .get =>
      match a.got with
      | .item (some t) =>
          { s.dequeue t with task := some t, phase := if t = .stop then .drain else .check }
      | _ => { s with task := none, phase := .check }
  | .drain =>
      match a.got with
      | .empty => { s with stop := true, phase := .check }
      | .item none => s
      | .item (some t) => s.dequeue t
  | .check =>
      { s with phase :=
          if s.due a.now then .flushResolver else if s.stop then .stopped else .get }
  | .flushResolver => { s.flushResolver stats a with phase := .flushDnsbl }
  | .flushDnsbl =>
      { s.flushDnsbl stats a with
        lastFlush := a.now, phase := if s.stop then .stopped else .get }
  | .stopped => s

/-- The worker as it starts on two databases. -/
def State.start (resolver : Table ResolverRow) (dnsbl : Table DnsblRow) (now : ℚ) : State :=
  { phase := .get, task := none, stop := false, resolverDelta := 0, dnsblDeltas := .empty,
    lastFlush := now, resolver, dnsbl, dequeued := [] }

/-- The worker after any number of calls. -/
def run (stats : Stats) (s : State) (answers : List Answer) : State :=
  answers.foldl (step stats) s

/-- The counters of a group's rows. -/
def counters (group : Str) (rows : List DnsblRow) : List Int :=
  (rows.filter fun r => r.groupname = group).map DnsblRow.counter

/-- The counters of the resolver's rows 0. -/
def totals (rows : List ResolverRow) : List Int :=
  (rows.filter fun r => r.row = 0).map ResolverRow.totalqueries

/-- The increments of a group that wait for a flush. -/
def State.pending (s : State) (group : Str) : Nat := (s.dnsblDeltas.get group).getD 0

/-- The database has the one row a counter needs; the upstream row may still be missing. -/
def Recordable (group : Str) (rows : List DnsblRow) : Prop :=
  (counters group rows).length = 1 ∨ group = upstream ∧ counters group rows = []

/-- The one row of a group holds `v`; a missing upstream row holds 0. -/
def Recorded (group : Str) (v : Int) (rows : List DnsblRow) : Prop :=
  counters group rows = [v] ∨ group = upstream ∧ counters group rows = [] ∧ v = 0

theorem Recorded.sum {group : Str} {v : Int} {rows : List DnsblRow}
    (h : Recorded group v rows) : (counters group rows).sum = v := by
  rcases h with h | ⟨_, h, rfl⟩
  · rw [h, List.sum_singleton]
  · rw [h, List.sum_nil]

theorem Recordable.recorded {group : Str} {rows : List DnsblRow} (h : Recordable group rows) :
    Recorded group (counters group rows).sum rows := by
  rcases h with h | ⟨hg, h⟩
  · obtain ⟨v, hv⟩ := List.length_eq_one_iff.mp h
    exact Or.inl (by rw [hv, List.sum_singleton])
  · exact Or.inr ⟨hg, h, by rw [h, List.sum_nil]⟩

section Writes

/-- A run that fails has committed creations only; one that succeeds ends with the work. -/
theorem dbRun_cases {create work : Str → List ρ → List ρ} {P : List ρ → Prop}
    (hcreate : ∀ timestamp rows, P rows → P (create timestamp rows)) (attempts : List Attempt)
    (t : Table ρ) (h : P t.rows) :
    ((dbRun create work attempts t).2 = false ∧ P (dbRun create work attempts t).1.rows) ∨
      ((dbRun create work attempts t).2 = true ∧
        ∃ timestamp rows, P rows ∧
          (dbRun create work attempts t).1.rows = work timestamp rows) := by
  induction attempts generalizing t with
  | nil => exact Or.inl ⟨rfl, h⟩
  | cons a rest ih =>
      have hrows : P (if t.connected then t.rows else create a.timestamp t.rows) := by
        split
        · exact h
        · exact hcreate _ _ h
      unfold dbRun
      split
      · exact ih t h
      · dsimp only
        split
        · exact ih _ hrows
        · exact Or.inr ⟨rfl, a.timestamp, _, hrows, rfl⟩

theorem counters_seed (group timestamp : Str) (rows : List DnsblRow) :
    counters group (dbSeedUpstreamRow timestamp rows) =
      if group = upstream ∧ counters group rows = [] then [0] else counters group rows := by
  have hempty : counters upstream rows = [] ↔
      (rows.any fun r => r.groupname = upstream) = false := by
    simp [counters]
  unfold dbSeedUpstreamRow
  split
  · rename_i h
    rw [if_neg]
    rintro ⟨rfl, hnone⟩
    rw [hempty.mp hnone] at h
    exact Bool.false_ne_true h
  · rename_i h
    rw [Bool.not_eq_true] at h
    by_cases hg : group = upstream
    · subst hg
      have hnone := hempty.mpr h
      rw [if_pos ⟨rfl, hnone⟩]
      simp only [counters, List.filter_append, List.map_append] at hnone ⊢
      rw [hnone]
      simp
    · have hg' : ¬ upstream = group := fun e => hg e.symm
      simp [counters, hg, hg']

theorem counters_countGroup (group named : Str) (delta : Nat) (rows : List DnsblRow) :
    counters group (countGroup delta named rows) =
      (counters group rows).map fun c : Int => if named = group then c + delta else c := by
  induction rows with
  | nil => rfl
  | cons r rows ih =>
      simp only [counters, countGroup, List.map_cons] at ih ⊢
      by_cases hn : r.groupname = named <;> by_cases hg : r.groupname = group
      · have e : named = group := hn.symm.trans hg
        simp_all
      · have e : ¬ named = group := fun e => hg (hn.trans e)
        simp_all
      · have e : ¬ named = group := fun e => hn (hg.trans e.symm)
        simp_all
      · simp_all

/-- Every row of a group gains the delta of the group. -/
theorem counters_foldl (group : Str) {items : List (Str × Nat)}
    (h : (items.map Prod.fst).Nodup) (rows : List DnsblRow) :
    counters group (items.foldl (fun rows item => countGroup item.2 item.1 rows) rows) =
      (counters group rows).map fun c : Int => c + (lookup group items).getD 0 := by
  induction items generalizing rows with
  | nil => simp [lookup]
  | cons item items ih =>
      obtain ⟨named, delta⟩ := item
      obtain ⟨hfresh, hrest⟩ := List.nodup_cons.mp h
      rw [List.foldl_cons, ih hrest, counters_countGroup, List.map_map]
      apply List.map_congr_left
      intro c _
      by_cases e : named = group
      · subst e
        have hnone : lookup named items = none := (lookup_eq_none_iff _ _).mpr hfresh
        simp [lookup, hnone]
      · simp [lookup, e]

theorem Recorded.seed {group : Str} {v : Int} {rows : List DnsblRow}
    (h : Recorded group v rows) (timestamp : Str) :
    Recorded group v (dbSeedUpstreamRow timestamp rows) := by
  unfold Recorded
  rw [counters_seed]
  rcases h with h | ⟨hg, h, rfl⟩
  · rw [if_neg (by rw [h]; simp), h]
    exact Or.inl rfl
  · exact Or.inl (if_pos ⟨hg, h⟩)

/-- The work of a flush adds to a group's row the delta of the group. -/
theorem Recorded.flushWork {group : Str} {v : Int} {rows : List DnsblRow}
    (h : Recorded group v rows) (deltas : Dict Str Nat) (timestamp : Str) :
    Recorded group (v + ((deltas.get group).getD 0 : Nat))
      (flushWork deltas timestamp rows) := by
  unfold Recorded CounterWorker.flushWork
  rw [counters_foldl group deltas.nodup]
  split
  · rename_i hup
    rcases h.seed timestamp with hone | ⟨rfl, hnone, _⟩
    · rw [hone]
      exact Or.inl rfl
    · rw [counters_seed] at hnone
      split at hnone
      · exact absurd hnone (List.cons_ne_nil _ _)
      · rename_i hne
        exact absurd ⟨rfl, hnone⟩ hne
  · rename_i hup
    rcases h with hone | ⟨rfl, hnone, rfl⟩
    · rw [hone]
      exact Or.inl rfl
    · rw [Bool.not_eq_true, Option.isSome_eq_false_iff, Option.isNone_iff_eq_none] at hup
      exact Or.inr ⟨rfl, by rw [hnone, List.map_nil], by rw [hup]; rfl⟩

theorem totals_countResolver (delta : Nat) (rows : List ResolverRow) :
    totals (countResolver delta rows) = (totals rows).map fun n : Int => n + delta := by
  induction rows with
  | nil => rfl
  | cons r rows ih =>
      simp only [totals, countResolver, List.map_cons] at ih ⊢
      by_cases h : r.row = 0 <;> simp_all

theorem totals_create {v : Int} {rows : List ResolverRow} (h : totals rows = [v])
    (timestamp : Str) : totals (dbCreateResolver timestamp rows) = [v] := by
  unfold dbCreateResolver
  split
  · rename_i hempty
    rw [List.isEmpty_iff.mp hempty] at h
    exact absurd h.symm (List.cons_ne_nil _ _)
  · exact h

/-- A DNSBL flush adds the deltas, or fails and keeps every counter. -/
theorem dbFlushDnsbl_cases {group : Str} {v : Int} {t : Table DnsblRow}
    (h : Recorded group v t.rows) (deltas : Dict Str Nat) (attempts : Nat → Attempt) :
    ((dbFlushDnsbl true deltas attempts t).2 = false ∧
        Recorded group v (dbFlushDnsbl true deltas attempts t).1.rows) ∨
      ((dbFlushDnsbl true deltas attempts t).2 = true ∧
        Recorded group (v + ((deltas.get group).getD 0 : Nat))
          (dbFlushDnsbl true deltas attempts t).1.rows) := by
  unfold dbFlushDnsbl
  split
  · rename_i hempty
    have hnone : deltas.get group = none :=
      Dict.get_eq_none_of_nonempty_eq_false (by simpa using hempty) group
    exact Or.inr ⟨rfl, by simpa [hnone] using h⟩
  · rcases dbRun_cases (P := Recorded group v)
        (fun timestamp rows hrows => hrows.seed timestamp) (tries attempts) t h with
      hfail | ⟨hok, timestamp, rows, hrows, hwork⟩
    · exact Or.inl hfail
    · exact Or.inr ⟨hok, hwork ▸ hrows.flushWork deltas timestamp⟩

theorem dbFlushResolver_cases {v : Int} {t : Table ResolverRow} (h : totals t.rows = [v])
    (delta : Nat) (attempts : Nat → Attempt) :
    ((dbFlushResolver true delta attempts t).2 = false ∧
        totals (dbFlushResolver true delta attempts t).1.rows = [v]) ∨
      ((dbFlushResolver true delta attempts t).2 = true ∧
        totals (dbFlushResolver true delta attempts t).1.rows = [v + delta]) := by
  unfold dbFlushResolver
  split
  · rename_i hzero
    have hdelta : delta = 0 := by simpa using hzero
    exact Or.inr ⟨rfl, by simpa [hdelta] using h⟩
  · rcases dbRun_cases (P := fun rows => totals rows = [v])
        (fun timestamp rows hrows => totals_create hrows timestamp) (tries attempts) t h with
      hfail | ⟨hok, _, rows, hrows, hwork⟩
    · exact Or.inl hfail
    · refine Or.inr ⟨hok, ?_⟩
      rw [hwork, totals_countResolver, hrows]
      rfl

end Writes

/-- The recorded counter and the pending delta of a group make its start plus what the
queue gave of it. -/
def GroupConserved (group : Str) (n : Int) (s : State) : Prop :=
  ∃ v, Recorded group v s.dnsbl.rows ∧
    v + s.pending group = n + s.dequeued.count (.dnsbl group)

def ResolverConserved (n : Int) (s : State) : Prop :=
  ∃ v, totals s.resolver.rows = [v] ∧ v + s.resolverDelta = n + s.dequeued.count .resolver

section Conservation

variable {group : Str} {n : Int} {s : State}

theorem GroupConserved.dequeue (h : GroupConserved group n s) (t : Task) :
    GroupConserved group n (s.dequeue t) := by
  obtain ⟨v, hv, hsum⟩ := h
  cases t with
  | dnsbl named =>
      refine ⟨v, hv, ?_⟩
      by_cases e : named = group
      · subst e
        simp only [State.pending, State.dequeue, State.accumulate, reduceCtorEq, if_false,
          Dict.get_set_self, Option.getD_some, List.count_append, List.count_singleton_self]
        simp only [State.pending] at hsum
        omega
      · simpa [State.pending, State.dequeue, State.accumulate, Dict.get_set_of_ne _ _ e,
          List.count_append, List.count_singleton, e] using hsum
  | _ => exact ⟨v, hv, by simpa [State.pending, State.dequeue, State.accumulate,
      List.count_append] using hsum⟩

theorem ResolverConserved.dequeue (h : ResolverConserved n s) (t : Task) :
    ResolverConserved n (s.dequeue t) := by
  obtain ⟨v, hv, hsum⟩ := h
  cases t with
  | resolver =>
      refine ⟨v, hv, ?_⟩
      simp only [State.dequeue, State.accumulate, reduceCtorEq, if_false, List.count_append,
        List.count_singleton_self]
      omega
  | _ => exact ⟨v, hv, by simpa [State.dequeue, State.accumulate,
      List.count_append] using hsum⟩

variable {stats : Stats}

/-- A flush of the group deltas moves them into the table, or leaves both as they were. -/
theorem GroupConserved.flushDnsbl (hcon : stats.dnsblCon = true) (h : GroupConserved group n s)
    (a : Answer) : GroupConserved group n (s.flushDnsbl stats a) := by
  obtain ⟨v, hv, hsum⟩ := h
  unfold State.flushDnsbl
  rw [hcon]
  split
  · rcases dbFlushDnsbl_cases hv s.dnsblDeltas a.attempts with ⟨hfail, hkept⟩ | ⟨hok, hadded⟩
    · refine ⟨v, hkept, ?_⟩
      simpa only [hfail, Bool.false_eq_true, if_false, State.pending] using hsum
    · refine ⟨v + s.pending group, hadded, ?_⟩
      simpa only [hok, if_true, State.pending, Dict.get_empty, Option.getD_none,
        Nat.cast_zero, add_zero] using hsum
  · exact ⟨v, hv, hsum⟩

theorem ResolverConserved.flushResolver (hcon : stats.resolverCon = true)
    (h : ResolverConserved n s) (a : Answer) : ResolverConserved n (s.flushResolver stats a) := by
  obtain ⟨v, hv, hsum⟩ := h
  unfold State.flushResolver
  rw [hcon]
  split
  · exact ⟨v, hv, hsum⟩
  · rcases dbFlushResolver_cases hv s.resolverDelta a.attempts with
      ⟨hfail, hkept⟩ | ⟨hok, hadded⟩
    · refine ⟨v, hkept, ?_⟩
      simpa only [hfail, Bool.false_eq_true, if_false] using hsum
    · refine ⟨v + s.resolverDelta, hadded, ?_⟩
      simpa only [hok, if_true, Nat.cast_zero, add_zero] using hsum

/-- One half of a flush leaves the other database and its delta alone. -/
theorem GroupConserved.flushResolver (h : GroupConserved group n s) (a : Answer) :
    GroupConserved group n (s.flushResolver stats a) := by
  unfold State.flushResolver
  split <;> exact h

theorem ResolverConserved.flushDnsbl (h : ResolverConserved n s) (a : Answer) :
    ResolverConserved n (s.flushDnsbl stats a) := by
  unfold State.flushDnsbl
  split <;> exact h

theorem GroupConserved.step (hcon : stats.dnsblCon = true) (h : GroupConserved group n s)
    (a : Answer) : GroupConserved group n (step stats s a) := by
  unfold CounterWorker.step
  split
  · split
    · exact h.dequeue _
    · exact h
  · split
    · exact h
    · exact h
    · exact h.dequeue _
  · exact h
  · exact h.flushResolver a
  · exact h.flushDnsbl hcon a
  · exact h

theorem ResolverConserved.step (hcon : stats.resolverCon = true) (h : ResolverConserved n s)
    (a : Answer) : ResolverConserved n (step stats s a) := by
  unfold CounterWorker.step
  split
  · split
    · exact h.dequeue _
    · exact h
  · split
    · exact h
    · exact h
    · exact h.dequeue _
  · exact h
  · exact h.flushResolver hcon a
  · exact h.flushDnsbl a
  · exact h

/-- What every step keeps, every run keeps. -/
theorem run_induction {P : State → Prop} (hstep : ∀ s a, P s → P (CounterWorker.step stats s a))
    (h : P s) (answers : List Answer) : P (run stats s answers) := by
  induction answers generalizing s with
  | nil => exact h
  | cons a answers ih => exact ih (hstep s a h)

theorem run_groupConserved (hcon : stats.dnsblCon = true) (resolver : Table ResolverRow)
    {dnsbl : Table DnsblRow} (h : Recordable group dnsbl.rows) (now : ℚ) (answers : List Answer) :
    GroupConserved group (counters group dnsbl.rows).sum
      (run stats (.start resolver dnsbl now) answers) := by
  apply run_induction
  · intro s a hs
    exact hs.step hcon a
  · exact ⟨_, h.recorded, by simp [State.start, State.pending]⟩

theorem run_resolverConserved (hcon : stats.resolverCon = true) {resolver : Table ResolverRow}
    (dnsbl : Table DnsblRow) (h : (totals resolver.rows).length = 1) (now : ℚ)
    (answers : List Answer) :
    ResolverConserved (totals resolver.rows).sum
      (run stats (.start resolver dnsbl now) answers) := by
  apply run_induction
  · intro s a hs
    exact hs.step hcon a
  · obtain ⟨v, hv⟩ := List.length_eq_one_iff.mp h
    exact ⟨v, hv, by simp [State.start, hv]⟩

end Conservation

/-- At every point of every run of the worker, a group with its row has recorded and pending
together what it started with and what the queue gave, and so has the resolver total. -/
theorem counters_conserved (stats : Stats) (hresolver : stats.resolverCon = true)
    (hdnsbl : stats.dnsblCon = true) (resolver : Table ResolverRow) (dnsbl : Table DnsblRow)
    (now : ℚ) (answers : List Answer) :
    (∀ group, Recordable group dnsbl.rows →
      (counters group (run stats (.start resolver dnsbl now) answers).dnsbl.rows).sum +
          (run stats (.start resolver dnsbl now) answers).pending group =
        (counters group dnsbl.rows).sum +
          (run stats (.start resolver dnsbl now) answers).dequeued.count (.dnsbl group)) ∧
      ((totals resolver.rows).length = 1 →
        (totals (run stats (.start resolver dnsbl now) answers).resolver.rows).sum +
            (run stats (.start resolver dnsbl now) answers).resolverDelta =
          (totals resolver.rows).sum +
            (run stats (.start resolver dnsbl now) answers).dequeued.count .resolver) := by
  constructor
  · intro group h
    obtain ⟨v, hv, hsum⟩ := run_groupConserved hdnsbl resolver h now answers
    rw [hv.sum]
    exact hsum
  · intro h
    obtain ⟨v, hv, hsum⟩ := run_resolverConserved hresolver dnsbl h now answers
    rw [hv, List.sum_singleton]
    exact hsum

section Runs

/-- An attempt in which nothing raises, and one whose write does. -/
def written : Attempt := ⟨false, false, []⟩

def faulted : Attempt := ⟨false, true, []⟩

/-- One blocked name of a group, then a timeout and the flush it starts. -/
def blockAndFlush (group : Str) (attempt : Attempt) : List Answer :=
  [⟨.item (some (.dnsbl group)), 0, fun _ => attempt⟩, ⟨.empty, 0, fun _ => attempt⟩,
    ⟨.empty, 0, fun _ => attempt⟩, ⟨.empty, 0, fun _ => attempt⟩,
    ⟨.empty, 0, fun _ => attempt⟩, ⟨.empty, 0, fun _ => attempt⟩]

def ads : Str := "Ads".toList

/-- The databases once created, with a row for each of the listed groups. -/
def started (groups : List Str) : State :=
  .start ⟨[⟨0, 0, 0⟩], true⟩ ⟨groups.map fun g => ⟨g, [], 0, 0⟩, true⟩ 0

/-- A failed flush keeps its delta; the next one writes it, and seeds the upstream row. -/
theorem counters_conserved_retry :
    (counters ads (run ⟨true, true⟩ (started [ads])
        (blockAndFlush ads faulted ++ blockAndFlush upstream written)).dnsbl.rows).sum +
      (run ⟨true, true⟩ (started [ads])
        (blockAndFlush ads faulted ++ blockAndFlush upstream written)).pending ads = 1 ∧
    (counters upstream (run ⟨true, true⟩ (started [ads])
        (blockAndFlush ads faulted ++ blockAndFlush upstream written)).dnsbl.rows).sum +
      (run ⟨true, true⟩ (started [ads])
        (blockAndFlush ads faulted ++ blockAndFlush upstream written)).pending upstream = 1 := by
  obtain ⟨hgroups, _⟩ := counters_conserved ⟨true, true⟩ rfl rfl ⟨[⟨0, 0, 0⟩], true⟩
    ⟨[⟨ads, [], 0, 0⟩], true⟩ 0 (blockAndFlush ads faulted ++ blockAndFlush upstream written)
  constructor
  · exact (hgroups ads (Or.inl (by decide))).trans (by decide +kernel)
  · exact (hgroups upstream (Or.inr ⟨rfl, by decide⟩)).trans (by decide +kernel)

/-- The increment of a group that has no row is flushed into nothing and forgotten. -/
theorem unrecorded_group :
    ¬ ((counters ads (run ⟨true, true⟩ (started [upstream])
          (blockAndFlush ads written)).dnsbl.rows).sum +
        (run ⟨true, true⟩ (started [upstream]) (blockAndFlush ads written)).pending ads =
      (counters ads (started [upstream]).dnsbl.rows).sum +
        (run ⟨true, true⟩ (started [upstream]) (blockAndFlush ads written)).dequeued.count
          (.dnsbl ads)) := by
  decide +kernel

end Runs

end PfBlockerNG.CounterWorker
