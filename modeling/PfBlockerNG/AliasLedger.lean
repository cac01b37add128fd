import PfBlockerNG.AliasDelta
import PfBlockerNG.Transitions

/-!
One alias across sync passes and tick retries: its mirror file, its kernel table, and the ledger
entry that a failed call of `pfctl` opens and a successful one closes. The texts of the entries are
canonical, so a table is the set of texts it holds.
-/

namespace PfBlockerNG.AliasLedger

open PfBlockerNG.Strings
open PfBlockerNG.Transitions
open PfBlockerNG.AliasDelta

structure Alias where
  /-- The aliasdir file, when there is one. -/
  mirror : Option Str
  table : Finset Str
  /-- The `('ip', alias, 'apply')` entry stands on the ledger. -/
  pending : Bool

/-- What became of the temporary file of a batch. -/
inductive TempFile where
  | written
  | missing
  | short (file : Str)

structure Outcome where
  temp : TempFile
  ok : Bool

/-- What one sync pass finds and is told. -/
structure Pass where
  save : Bool
  crossList : Bool
  feedChanged : Bool
  /-- The contents of the member files that exist, the custom list last. -/
  members : List Str
  unlockFile : Bool
  /-- The alias is in `$pfb_alias_lists_all`. -/
  active : Bool
  mode : AliasDeltaMode
  batchSize : Int
  /-- What becomes of the n-th call of `pfctl`. -/
  outcome : Nat → Outcome

/-- The entries of a mirror; a missing one has none. -/
def mirrored (mirror : Option Str) : Finset Str := networks some (entryLines (mirror.getD []))

namespace Alias

/-- `pfb_pfctl_table_op()`, with whether `pfctl` succeeded. -/
def pfbPfctlTableOp (s : Alias) (call : TableOp × Bool) : Alias :=
  if call.2 then { s with table := call.1.run some s.table, pending := false }
  else { s with pending := true }

/-- `pfb_ip_apply_retry()`. -/
def pfbIpApplyRetry (s : Alias) (ok : Bool) : Alias :=
  match s.mirror with
  | some file => s.pfbPfctlTableOp (.replace file, ok)
  | none => s.pfbPfctlTableOp (.kill, ok)

end Alias

/-- The call a batch comes to; a batch without its temporary file is dropped. -/
def callOf (op : TableOp) (outcome : Outcome) : Option (TableOp × Bool) :=
  match op, outcome.temp with
  | .add _, .missing => none
  | .delete _, .missing => none
  | .add _, .short file => some (.add file, outcome.ok)
  | .delete _, .short file => some (.delete file, outcome.ok)
  | op, _ => some (op, outcome.ok)

def callsOf (outcome : Nat → Outcome) (ops : List TableOp) : List (TableOp × Bool) :=
  ops.zipIdx.filterMap fun (op, n) => callOf op (outcome n)

/-- `empty()` of a text. -/
def phpEmpty (s : Str) : Bool := s == [] || s == ['0']

/-- `pfb_alias_set_different()`. -/
def pfbAliasSetDifferent (newSet : List Str) (mirror : Option Str) : Bool :=
  match mirror with
  | none => newSet != []
  | some content => newSet != pfbCanonicalAliasSet content

namespace Pass

/-- The member files of the alias are read in this pass. -/
def eligible (p : Pass) (s : Alias) : Bool := p.crossList || p.feedChanged || s.table == ∅

/-- `$alias_ips`. -/
def aliasIps (p : Pass) (s : Alias) : Str := if p.eligible s then p.members.flatten else []

/-- `$pfbupdate`. -/
def updated (p : Pass) (s : Alias) : Bool := p.eligible s && p.members != []

/-- The mirror after the alias loop, and the stashed previous set of an alias whose mirror was
written. -/
def writeMirror (p : Pass) (s : Alias) : Option Str × Option (List Str) :=
  if phpEmpty (p.aliasIps s) && s.table == ∅ then (none, none)
  else if p.updated s then
    let canonicalSet := pfbCanonicalAliasSet (p.aliasIps s)
    if pfbAliasSetDifferent canonicalSet s.mirror || s.table == ∅ then
      let prevSet := if s.table == ∅ then [] else pfbCanonicalAliasSet (s.mirror.getD [])
      (some (pfbWriteCanonicalAlias canonicalSet), some prevSet)
    else (s.mirror, none)
  else (s.mirror, none)

/-- The calls of `pfctl` a pass without a rule change asks for. -/
def tableOps (p : Pass) (mirror : Option Str) (stash : Option (List Str)) : List TableOp :=
  if p.save then []
  else if stash.isSome || (p.unlockFile && p.active) then
    match mirror with
    | some file =>
        let desired := pfbCanonicalAliasSet file
        let previous := stash.getD desired
        let forceReplace := (stash.getD []).isEmpty
        (pfbApplyAliasDelta file desired previous p.mode p.batchSize forceReplace).2
    | none => []
  else []

end Pass

namespace Alias

def perform (s : Alias) (calls : List (TableOp × Bool)) : Alias := calls.foldl pfbPfctlTableOp s

/-- `sync_package_pfblockerng()` for this alias, in a pass that finds no rule change. -/
def syncPackage (s : Alias) (p : Pass) : Alias :=
  let (mirror, stash) := p.writeMirror s
  { s with mirror := mirror }.perform (callsOf p.outcome (p.tableOps mirror stash))

/-- The table holds the entries of the mirror. -/
def Synced (s : Alias) : Prop := s.table = mirrored s.mirror

/-- A table that missed an update is on the ledger. -/
def Covered (s : Alias) : Prop := s.Synced ∨ s.pending = true

end Alias

inductive Event where
  | sync (p : Pass)
  | retry (ok : Bool)

def step (s : Alias) : Event → Option Alias
  | .sync p => some (s.syncPackage p)
  | .retry ok => if s.pending then some (s.pfbIpApplyRetry ok) else none

/-- The entries that a batch gets into or out of the table: none when its call fails or does not
come, those of the file when its temporary file is short. -/
def Outcome.carried (o : Outcome) (entries : List Str) : List Str :=
  match o.ok, o.temp with
  | true, .written => entries
  | true, .short file => entryLines file
  | _, _ => []

namespace Pass

/-- `$canonical_set`. -/
def desired (p : Pass) (s : Alias) : List Str := pfbCanonicalAliasSet (p.aliasIps s)

/-- The pass writes the mirror. -/
def writes (p : Pass) (s : Alias) : Bool :=
  !(phpEmpty (p.aliasIps s) && s.table == ∅) && p.updated s &&
    (pfbAliasSetDifferent (p.desired s) s.mirror || s.table == ∅)

/-- The pass applies a changed set to a filled table in batches. -/
def takesDelta (p : Pass) (s : Alias) : Prop :=
  p.save = false ∧ p.writes s = true ∧ s.table ≠ ∅ ∧
    pfbCanonicalAliasSet (s.mirror.getD []) ≠ [] ∧
      replaces (p.desired s) (pfbCanonicalAliasSet (s.mirror.getD [])) p.mode false = false

/-- `$add_set`, against the set the mirror held. -/
def addSet (p : Pass) (s : Alias) : List Str :=
  arrayDiff (p.desired s) (pfbCanonicalAliasSet (s.mirror.getD []))

/-- `$del_set`. -/
def delSet (p : Pass) (s : Alias) : List Str :=
  arrayDiff (pfbCanonicalAliasSet (s.mirror.getD [])) (p.desired s)

def size (p : Pass) : Nat := pfbAliasDeltaBatchClamp p.batchSize

/-- Batches of adds, and of all. -/
def addCount (p : Pass) (s : Alias) : Nat := batchCount p.size (p.addSet s)

def callCount (p : Pass) (s : Alias) : Nat := p.addCount s + batchCount p.size (p.delSet s)

/-- A batch of adds carries the entry. -/
def Adds (p : Pass) (s : Alias) (e : Str) : Prop :=
  ∃ n < p.addCount s, e ∈ (p.outcome n).carried (batch p.size (p.addSet s) n)

/-- A batch of deletes carries the entry. -/
def Deletes (p : Pass) (s : Alias) (e : Str) : Prop :=
  ∃ n < batchCount p.size (p.delSet s),
    e ∈ (p.outcome (p.addCount s + n)).carried (batch p.size (p.delSet s) n)

/-- Of the batches with a temporary file the last one fails. -/
def LastFails (p : Pass) (s : Alias) : Prop :=
  ∃ n < p.callCount s, (p.outcome n).temp ≠ .missing ∧ (p.outcome n).ok = false ∧
    ∀ m < p.callCount s, n < m → (p.outcome m).temp = .missing

/-- No batch has a temporary file. -/
def NoFiles (p : Pass) (s : Alias) : Prop := ∀ n < p.callCount s, (p.outcome n).temp = .missing

/-- The batches carry every entry in that the table lacks, and out, what it holds beyond. -/
structure Accounts (p : Pass) (s : Alias) : Prop where
  added : ∀ e ∈ p.desired s, e ∉ s.table → p.Adds s e
  kept : ∀ e ∈ p.desired s, ¬ p.Deletes s e
  removed : ∀ e, e ∉ p.desired s → e ∈ s.table ∨ p.Adds s e → p.Deletes s e

/-- A settings save that writes the mirror finds the entry open, or in the table what it writes. -/
def SaveMeets (p : Pass) (s : Alias) : Prop :=
  p.save = true → p.writes s = true → s.pending = true ∨ s.table = networks some (p.desired s)

/-- The last batch of a delta that comes to a call fails, or none comes to one while the entry is
open, or those that succeed account for the difference between the table and the desired set. -/
def DeltaMeets (p : Pass) (s : Alias) : Prop :=
  p.takesDelta s → p.LastFails s ∨ (p.NoFiles s ∧ s.pending = true) ∨ p.Accounts s

end Pass

def Meets (s : Alias) : Event → Prop
  | .sync p => p.SaveMeets s ∧ p.DeltaMeets s
  | .retry _ => True

section Calls

/-- The entry is in the file of an add that succeeded. -/
def Added (calls : List (TableOp × Bool)) (e : Str) : Prop :=
  ∃ file, (TableOp.add file, true) ∈ calls ∧ e ∈ entryLines file

/-- The entry is in the file of a delete that succeeded. -/
def Deleted (calls : List (TableOp × Bool)) (e : Str) : Prop :=
  ∃ file, (TableOp.delete file, true) ∈ calls ∧ e ∈ entryLines file

/-- The operations that succeeded. -/
def succeeded (calls : List (TableOp × Bool)) : List TableOp := (calls.filter (·.2)).map (·.1)

theorem mem_succeeded {calls : List (TableOp × Bool)} {op : TableOp} :
    op ∈ succeeded calls ↔ (op, true) ∈ calls := by
  simp [succeeded]

@[simp] theorem perform_mirror (s : Alias) (calls : List (TableOp × Bool)) :
    (s.perform calls).mirror = s.mirror := by
  induction calls generalizing s with
  | nil => rfl
  | cons call calls ih =>
      refine (ih _).trans ?_
      unfold Alias.pfbPfctlTableOp
      split <;> rfl

theorem perform_table (s : Alias) (calls : List (TableOp × Bool)) :
    (s.perform calls).table = runAll some s.table (succeeded calls) := by
  induction calls generalizing s with
  | nil => rfl
  | cons call calls ih =>
      refine (ih _).trans ?_
      obtain ⟨op, ok⟩ := call
      cases ok <;> rfl

/-- The last call decides whether the entry is open. -/
theorem perform_pending (s : Alias) (calls : List (TableOp × Bool)) :
    (s.perform calls).pending = (calls.getLast?.map fun call => !call.2).getD s.pending := by
  induction calls generalizing s with
  | nil => rfl
  | cons call calls ih =>
      refine (ih _).trans ?_
      obtain ⟨op, ok⟩ := call
      cases calls with
      | nil => cases ok <;> rfl
      | cons next rest => rw [List.getLast?_cons_cons, List.getLast?_cons]; rfl

@[simp] theorem mem_networks_some {entries : List Str} {e : Str} :
    e ∈ networks some entries ↔ e ∈ entries := by
  simp [mem_networks]

theorem mem_runAll_adds {ops : List TableOp} (h : ∀ op ∈ ops, ∃ file, op = .add file)
    {table : Finset Str} {e : Str} :
    e ∈ runAll some table ops ↔ e ∈ table ∨ ∃ file, .add file ∈ ops ∧ e ∈ entryLines file := by
  induction ops generalizing table with
  | nil => simp [runAll]
  | cons op ops ih =>
      obtain ⟨file, rfl⟩ := h op List.mem_cons_self
      refine (ih fun op' hop' => h op' (List.mem_cons_of_mem _ hop')).trans ?_
      simp only [TableOp.run, Finset.mem_union, mem_networks_some, List.mem_cons,
        TableOp.add.injEq, or_and_right, exists_or, exists_eq_left, or_assoc]

theorem mem_runAll_deletes {ops : List TableOp} (h : ∀ op ∈ ops, ∃ file, op = .delete file)
    {table : Finset Str} {e : Str} :
    e ∈ runAll some table ops ↔
      e ∈ table ∧ ¬ ∃ file, .delete file ∈ ops ∧ e ∈ entryLines file := by
  induction ops generalizing table with
  | nil => simp [runAll]
  | cons op ops ih =>
      obtain ⟨file, rfl⟩ := h op List.mem_cons_self
      refine (ih fun op' hop' => h op' (List.mem_cons_of_mem _ hop')).trans ?_
      simp only [TableOp.run, Finset.mem_sdiff, mem_networks_some, List.mem_cons,
        TableOp.delete.injEq, or_and_right, exists_or, exists_eq_left, not_or, and_assoc]

/-- Adds before deletes: what is added and not deleted is held. -/
theorem perform_table_iff {adds deletes : List (TableOp × Bool)}
    (hadds : ∀ call ∈ adds, ∃ file, call.1 = .add file)
    (hdeletes : ∀ call ∈ deletes, ∃ file, call.1 = .delete file) (s : Alias) (e : Str) :
    e ∈ (s.perform (adds ++ deletes)).table ↔
      (e ∈ s.table ∨ Added adds e) ∧ ¬ Deleted deletes e := by
  have hkind : ∀ {calls : List (TableOp × Bool)} {kind : Str → TableOp},
      (∀ call ∈ calls, ∃ file, call.1 = kind file) →
        ∀ op ∈ succeeded calls, ∃ file, op = kind file :=
    fun h op hop => h (op, true) (mem_succeeded.mp hop)
  have hsplit : succeeded (adds ++ deletes) = succeeded adds ++ succeeded deletes := by
    simp [succeeded]
  rw [perform_table, hsplit, runAll_append, mem_runAll_deletes (hkind hdeletes),
    mem_runAll_adds (hkind hadds)]
  simp only [mem_succeeded, Added, Deleted]

theorem callOf_add {file : Str} {o : Outcome} {call : TableOp × Bool}
    (h : callOf (.add file) o = some call) : ∃ file, call.1 = .add file := by
  obtain ⟨temp, ok⟩ := o
  cases temp with
  | written => exact ⟨file, Option.some.inj h ▸ rfl⟩
  | missing => cases h
  | short file' => exact ⟨file', Option.some.inj h ▸ rfl⟩

theorem callOf_delete {file : Str} {o : Outcome} {call : TableOp × Bool}
    (h : callOf (.delete file) o = some call) : ∃ file, call.1 = .delete file := by
  obtain ⟨temp, ok⟩ := o
  cases temp with
  | written => exact ⟨file, Option.some.inj h ▸ rfl⟩
  | missing => cases h
  | short file' => exact ⟨file', Option.some.inj h ▸ rfl⟩

/-- A batch of the delta: an add or a delete. -/
def IsBatch (op : TableOp) : Prop := ∃ file, op = .add file ∨ op = .delete file

/-- A batch comes to a call unless its temporary file is missing. -/
theorem callOf_cases {op : TableOp} (h : IsBatch op) (o : Outcome) :
    (o.temp = .missing ∧ callOf op o = none) ∨
      (o.temp ≠ .missing ∧ ∃ op', callOf op o = some (op', o.ok)) := by
  obtain ⟨temp, ok⟩ := o
  obtain ⟨file, rfl | rfl⟩ := h
  · cases temp with
    | written => exact Or.inr ⟨by simp, _, rfl⟩
    | missing => exact Or.inl ⟨rfl, rfl⟩
    | short file' => exact Or.inr ⟨by simp, _, rfl⟩
  · cases temp with
    | written => exact Or.inr ⟨by simp, _, rfl⟩
    | missing => exact Or.inl ⟨rfl, rfl⟩
    | short file' => exact Or.inr ⟨by simp, _, rfl⟩

theorem callOf_add_iff {chunk : List Str} (hclean : Clean chunk) (o : Outcome) (e : Str) :
    (∃ file, callOf (.add (fileOf chunk)) o = some (.add file, true) ∧ e ∈ entryLines file) ↔
      e ∈ o.carried chunk := by
  have hfile := entryLines_fileOf hclean
  obtain ⟨temp, ok⟩ := o
  cases temp <;> cases ok <;> simp [callOf, Outcome.carried, hfile]

theorem callOf_delete_iff {chunk : List Str} (hclean : Clean chunk) (o : Outcome) (e : Str) :
    (∃ file, callOf (.delete (fileOf chunk)) o = some (.delete file, true) ∧
        e ∈ entryLines file) ↔ e ∈ o.carried chunk := by
  have hfile := entryLines_fileOf hclean
  obtain ⟨temp, ok⟩ := o
  cases temp <;> cases ok <;> simp [callOf, Outcome.carried, hfile]

theorem mem_callsOf {outcome : Nat → Outcome} {ops : List TableOp} {call : TableOp × Bool} :
    call ∈ callsOf outcome ops ↔
      ∃ n op, ops[n]? = some op ∧ callOf op (outcome n) = some call := by
  unfold callsOf
  rw [List.mem_filterMap]
  constructor
  · rintro ⟨⟨op, n⟩, hmem, hcall⟩
    exact ⟨n, op, List.mem_zipIdx_iff_getElem?.mp hmem, hcall⟩
  · rintro ⟨n, op, hop, hcall⟩
    exact ⟨(op, n), List.mem_zipIdx_iff_getElem?.mpr hop, hcall⟩

theorem filterMap_zipIdx (outcome : Nat → Outcome) (ops : List TableOp) (k : Nat) :
    (ops.zipIdx k).filterMap (fun (op, n) => callOf op (outcome n)) =
      callsOf (fun n => outcome (k + n)) ops := by
  unfold callsOf
  induction ops generalizing outcome k with
  | nil => rfl
  | cons op ops ih =>
      have hshift : (fun n => outcome (k + 1 + n)) = fun n => outcome (k + (1 + n)) := by
        funext n
        rw [Nat.add_assoc]
      rw [List.zipIdx_cons, List.zipIdx_cons, List.filterMap_cons, List.filterMap_cons,
        ih outcome (k + 1), Nat.zero_add, ih (fun n => outcome (k + n)) 1, hshift]
      rfl

/-- The batches after the first ones find the outcomes after theirs. -/
theorem callsOf_append (outcome : Nat → Outcome) (ops ops' : List TableOp) :
    callsOf outcome (ops ++ ops') =
      callsOf outcome ops ++ callsOf (fun n => outcome (ops.length + n)) ops' := by
  rw [← filterMap_zipIdx, callsOf, List.zipIdx_append, List.filterMap_append, Nat.zero_add]
  rfl

theorem callsOf_concat (outcome : Nat → Outcome) (ops : List TableOp) (op : TableOp) :
    callsOf outcome (ops ++ [op]) =
      callsOf outcome ops ++ (callOf op (outcome ops.length)).toList := by
  rw [callsOf_append]
  rfl

/-- Which call is the last, by the temporary files. -/
theorem callsOf_last_iff (outcome : Nat → Outcome) {ops : List TableOp}
    (h : ∀ op ∈ ops, IsBatch op) :
    (∃ op, (callsOf outcome ops).getLast? = some (op, false)) ↔
      ∃ n < ops.length, (outcome n).temp ≠ .missing ∧ (outcome n).ok = false ∧
        ∀ m < ops.length, n < m → (outcome m).temp = .missing := by
  induction ops using List.reverseRecOn with
  | nil => simp [callsOf]
  | append_singleton ops op ih =>
      have ih := ih fun op' hop' => h op' (List.mem_append_left _ hop')
      rw [callsOf_concat, List.length_append, List.length_singleton]
      rcases callOf_cases (h op (by simp)) (outcome ops.length) with
        ⟨hmissing, hnone⟩ | ⟨hfile, op', hsome⟩
      · rw [hnone, Option.toList_none, List.append_nil, ih]
        constructor
        · rintro ⟨n, hn, htemp, hok, hrest⟩
          refine ⟨n, by omega, htemp, hok, fun m hm hlt => ?_⟩
          rcases Nat.lt_succ_iff_lt_or_eq.mp hm with hm | rfl
          · exact hrest m hm hlt
          · exact hmissing
        · rintro ⟨n, hn, htemp, hok, hrest⟩
          rcases Nat.lt_succ_iff_lt_or_eq.mp hn with hn | rfl
          · exact ⟨n, hn, htemp, hok, fun m hm => hrest m (by omega)⟩
          · exact absurd hmissing htemp
      · rw [hsome, Option.toList_some, List.getLast?_concat]
        constructor
        · rintro ⟨_, hlast⟩
          have hok := congrArg Prod.snd (Option.some.inj hlast)
          exact ⟨ops.length, by omega, hfile, hok, fun m hm hlt => by omega⟩
        · rintro ⟨n, hn, -, hok, hrest⟩
          rcases Nat.lt_succ_iff_lt_or_eq.mp hn with hn | rfl
          · exact absurd (hrest ops.length (by omega) hn) hfile
          · exact ⟨op', by rw [hok]⟩

theorem callsOf_nil_iff (outcome : Nat → Outcome) {ops : List TableOp}
    (h : ∀ op ∈ ops, IsBatch op) :
    callsOf outcome ops = [] ↔ ∀ n < ops.length, (outcome n).temp = .missing := by
  rw [List.eq_nil_iff_forall_not_mem]
  simp only [mem_callsOf, not_exists, not_and]
  constructor
  · intro hnone n hn
    rcases callOf_cases (h _ (List.getElem_mem hn)) (outcome n) with hmissing | ⟨-, op', hsome⟩
    · exact hmissing.1
    · exact absurd hsome (hnone _ n _ (List.getElem?_eq_getElem hn))
  · intro hmissing call n op hop hcall
    obtain ⟨hn, hget⟩ := List.getElem?_eq_some_iff.mp hop
    rcases callOf_cases (h op (hget ▸ List.getElem_mem hn)) (outcome n) with
      ⟨-, hnone⟩ | ⟨hfile, -⟩
    · rw [hnone] at hcall
      cases hcall
    · exact hfile (hmissing n hn)

end Calls

section Passes

theorem mirrored_write (content : Str) :
    mirrored (some (pfbWriteCanonicalAlias (pfbCanonicalAliasSet content))) =
      networks some (pfbCanonicalAliasSet content) := by
  unfold mirrored
  rw [Option.getD_some, entryLines_pfbWriteCanonicalAlias (clean_pfbCanonicalAliasSet content)]

/-- A successful replace from the mirror leaves the table with its entries. -/
theorem covered_replace {s : Alias} {file : Str} (hmirror : s.mirror = some file) (ok : Bool) :
    (s.pfbPfctlTableOp (.replace file, ok)).Covered ∧
      (ok = true → (s.pfbPfctlTableOp (.replace file, ok)).Synced) := by
  cases ok with
  | false => exact ⟨Or.inr rfl, fun h => by cases h⟩
  | true =>
      have hsynced : (s.pfbPfctlTableOp (.replace file, true)).Synced := by
        change networks some (entryLines file) = mirrored s.mirror
        rw [hmirror]
        rfl
      exact ⟨Or.inl hsynced, fun _ => hsynced⟩

theorem covered_retry (s : Alias) (ok : Bool) :
    (s.pfbIpApplyRetry ok).Covered ∧ (ok = true → (s.pfbIpApplyRetry ok).Synced) := by
  unfold Alias.pfbIpApplyRetry
  split
  · next file hmirror => exact covered_replace hmirror ok
  · next hmirror =>
      cases ok with
      | false => exact ⟨Or.inr rfl, fun h => by cases h⟩
      | true =>
          have hsynced : (s.pfbPfctlTableOp (.kill, true)).Synced := by
            change ∅ = mirrored s.mirror
            rw [hmirror]
            rfl
          exact ⟨Or.inl hsynced, fun _ => hsynced⟩

theorem writeMirror_of_writes {p : Pass} {s : Alias} (h : p.writes s = true) :
    p.writeMirror s = (some (pfbWriteCanonicalAlias (p.desired s)),
      some (if s.table == ∅ then [] else pfbCanonicalAliasSet (s.mirror.getD []))) := by
  unfold Pass.writes Pass.desired at h
  simp only [Bool.and_eq_true, Bool.not_eq_true'] at h
  obtain ⟨⟨hkept, hupdated⟩, hwrite⟩ := h
  unfold Pass.writeMirror
  dsimp only
  rw [hkept, hupdated, hwrite]
  rfl

/-- Otherwise the mirror stays, or goes with an empty table. -/
theorem writeMirror_of_not_writes {p : Pass} {s : Alias} (h : p.writes s = false) :
    p.writeMirror s = (s.mirror, none) ∨ (p.writeMirror s = (none, none) ∧ s.table = ∅) := by
  unfold Pass.writes Pass.desired at h
  unfold Pass.writeMirror
  cases hempty : phpEmpty (p.aliasIps s) && s.table == ∅ with
  | true =>
      rw [Bool.and_eq_true, beq_iff_eq] at hempty
      exact Or.inr ⟨rfl, hempty.2⟩
  | false =>
      rw [hempty, Bool.not_false, Bool.true_and] at h
      refine Or.inl ?_
      rw [if_neg Bool.false_ne_true]
      split
      · next hupdated =>
          rw [hupdated, Bool.true_and] at h
          simp [h]
      · rfl

/-- A pass whose alias has no stashed set replaces the table or leaves it. -/
theorem tableOps_none (p : Pass) (mirror : Option Str) :
    p.tableOps mirror none = [] ∨
      ∃ file, mirror = some file ∧ p.tableOps mirror none = [.replace file] := by
  unfold Pass.tableOps
  split
  · exact Or.inl rfl
  · split
    · cases mirror with
      | none => exact Or.inl rfl
      | some file => exact Or.inr ⟨file, rfl, rfl⟩
    · exact Or.inl rfl

theorem tableOps_some {p : Pass} (hsave : p.save = false) (content : Str) (prev : List Str) :
    p.tableOps (some (pfbWriteCanonicalAlias (pfbCanonicalAliasSet content))) (some prev) =
      if replaces (pfbCanonicalAliasSet content) prev p.mode prev.isEmpty then
        [.replace (pfbWriteCanonicalAlias (pfbCanonicalAliasSet content))]
      else deltaOps p.batchSize (pfbCanonicalAliasSet content) prev := by
  unfold Pass.tableOps
  rw [hsave]
  simp only [Bool.false_eq_true, if_false, Option.isSome_some, Bool.true_or, if_true,
    Option.getD_some, pfbCanonicalAliasSet_pfbWriteCanonicalAlias]
  rw [pfbApplyAliasDelta_eq]
  split <;> rfl

/-- The mirror a pass does not write keeps what was covered. -/
theorem covered_of_not_writes {p : Pass} {s : Alias} (h : s.Covered) (hw : p.writes s = false) :
    (s.syncPackage p).Covered := by
  have hafter : ∀ t : Alias, t.Covered → ∀ ops : List TableOp,
      (ops = [] ∨ ∃ file, t.mirror = some file ∧ ops = [.replace file]) →
      (t.perform (callsOf p.outcome ops)).Covered := by
    rintro t ht ops (rfl | ⟨file, hmirror, rfl⟩)
    · exact ht
    · exact (covered_replace hmirror (p.outcome 0).ok).1
  unfold Alias.syncPackage
  rcases writeMirror_of_not_writes hw with hkept | ⟨hgone, hempty⟩
  · rw [hkept]
    exact hafter s h _ (tableOps_none p s.mirror)
  · rw [hgone]
    exact hafter { s with mirror := none } (Or.inl hempty) _ (tableOps_none p none)

theorem covered_save_iff {p : Pass} {s : Alias} (hw : p.writes s = true) (hsave : p.save = true) :
    (s.syncPackage p).Covered ↔ p.SaveMeets s := by
  have hops : ∀ mirror stash, p.tableOps mirror stash = [] := fun _ _ => by
    unfold Pass.tableOps
    rw [hsave]
    rfl
  unfold Alias.syncPackage
  rw [writeMirror_of_writes hw]
  dsimp only
  rw [hops]
  unfold Alias.Covered Alias.Synced Pass.SaveMeets
  change s.table = mirrored (some (pfbWriteCanonicalAlias (p.desired s))) ∨ s.pending = true ↔ _
  rw [Pass.desired, mirrored_write, or_comm]
  exact ⟨fun h _ _ => h, fun h => h hsave hw⟩

theorem perform_pending_iff (s : Alias) (calls : List (TableOp × Bool)) :
    (s.perform calls).pending = true ↔
      (∃ op, calls.getLast? = some (op, false)) ∨ (calls = [] ∧ s.pending = true) := by
  rw [perform_pending]
  cases hlast : calls.getLast? with
  | none => simp [List.getLast?_eq_none_iff.mp hlast]
  | some call =>
      obtain ⟨op, ok⟩ := call
      have hne : calls ≠ [] := by
        rintro rfl
        cases hlast
      cases ok <;> simp [hne]

/-- The operation that `kind` makes of each batch of a list. -/
def batchOps (kind : Str → TableOp) (size : Nat) (entries : List Str) : List TableOp :=
  (List.range (batchCount size entries)).map fun n => kind (fileOf (batch size entries n))

theorem getElem?_batchOps {kind : Str → TableOp} {size : Nat} {entries : List Str} {n : Nat}
    {op : TableOp} : (batchOps kind size entries)[n]? = some op ↔
      n < batchCount size entries ∧ kind (fileOf (batch size entries n)) = op := by
  rw [batchOps, List.getElem?_map, Option.map_eq_some_iff]
  constructor
  · rintro ⟨m, hm, rfl⟩
    obtain ⟨hn, hget⟩ := List.getElem?_eq_some_iff.mp hm
    rw [List.getElem_range] at hget
    subst hget
    exact ⟨by simpa using hn, rfl⟩
  · rintro ⟨hn, rfl⟩
    exact ⟨n, by simp [hn], rfl⟩

/-- What the calls of the batches carry, by the outcome of each. -/
theorem carried_iff {kind : Str → TableOp} (entries : List Str) (hclean : Clean entries)
    (hcarried : ∀ {chunk : List Str}, Clean chunk → ∀ o e,
      (∃ file, callOf (kind (fileOf chunk)) o = some (kind file, true) ∧ e ∈ entryLines file) ↔
        e ∈ o.carried chunk) (size : Nat) (outcome : Nat → Outcome) (e : Str) :
    (∃ file, (kind file, true) ∈ callsOf outcome (batchOps kind size entries) ∧
        e ∈ entryLines file) ↔
      ∃ n < batchCount size entries, e ∈ (outcome n).carried (batch size entries n) := by
  have hbatch : ∀ n, Clean (batch size entries n) := fun n =>
    hclean.sublist fun _ he => List.drop_subset _ _ (List.take_subset _ _ he)
  constructor
  · rintro ⟨file, hcall, he⟩
    obtain ⟨n, op, hop, hcall⟩ := mem_callsOf.mp hcall
    obtain ⟨hn, rfl⟩ := getElem?_batchOps.mp hop
    exact ⟨n, hn, (hcarried (hbatch n) _ e).mp ⟨file, hcall, he⟩⟩
  · rintro ⟨n, hn, he⟩
    obtain ⟨file, hcall, he⟩ := (hcarried (hbatch n) _ e).mpr he
    exact ⟨file, mem_callsOf.mpr ⟨n, _, getElem?_batchOps.mpr ⟨hn, rfl⟩, hcall⟩, he⟩

theorem length_batchOps (kind : Str → TableOp) (size : Nat) (entries : List Str) :
    (batchOps kind size entries).length = batchCount size entries := by
  simp [batchOps]

theorem deltaOps_eq (batchSize : Int) (desired last : List Str) :
    deltaOps batchSize desired last =
      batchOps .add (pfbAliasDeltaBatchClamp batchSize) (arrayDiff desired last) ++
        batchOps .delete (pfbAliasDeltaBatchClamp batchSize) (arrayDiff last desired) := by
  have hsize : 0 < pfbAliasDeltaBatchClamp batchSize := by
    unfold pfbAliasDeltaBatchClamp
    split_ifs <;> omega
  unfold deltaOps batchOps
  dsimp only
  rw [arrayChunk_eq_map hsize, arrayChunk_eq_map hsize, List.map_map, List.map_map]
  rfl

theorem isBatch_deltaOps {batchSize : Int} {desired last : List Str} :
    ∀ op ∈ deltaOps batchSize desired last, IsBatch op := by
  intro op hop
  rw [deltaOps_eq] at hop
  rcases List.mem_append.mp hop with hop | hop
  · obtain ⟨n, -, rfl⟩ := List.mem_map.mp hop
    exact ⟨_, Or.inl rfl⟩
  · obtain ⟨n, -, rfl⟩ := List.mem_map.mp hop
    exact ⟨_, Or.inr rfl⟩

/-- The kind of a call is that of its batch. -/
theorem kind_callsOf {kind : Str → TableOp} {size : Nat} {entries : List Str}
    (hkind : ∀ {file o call}, callOf (kind file) o = some call → ∃ file, call.1 = kind file)
    (outcome : Nat → Outcome) :
    ∀ call ∈ callsOf outcome (batchOps kind size entries), ∃ file, call.1 = kind file := by
  intro call hcall
  obtain ⟨n, op, hop, hcall⟩ := mem_callsOf.mp hcall
  obtain ⟨-, rfl⟩ := getElem?_batchOps.mp hop
  exact hkind hcall

/-- What the batches of a delta leave in a table. -/
theorem mem_table_delta {p : Pass} {s : Alias} (mirror : Option Str) (e : Str) :
    e ∈ ({ s with mirror := mirror }.perform (callsOf p.outcome (deltaOps p.batchSize (p.desired s)
        (pfbCanonicalAliasSet (s.mirror.getD []))))).table ↔
      (e ∈ s.table ∨ p.Adds s e) ∧ ¬ p.Deletes s e := by
  have hclean := clean_pfbCanonicalAliasSet
  have hadds := carried_iff (p.addSet s) (clean_arrayDiff (hclean (p.aliasIps s)))
    callOf_add_iff p.size p.outcome e
  have hdeletes := carried_iff (p.delSet s) (clean_arrayDiff (hclean (s.mirror.getD [])))
    callOf_delete_iff p.size (fun n => p.outcome (p.addCount s + n)) e
  rw [deltaOps_eq, callsOf_append, length_batchOps]
  rw [perform_table_iff (kind_callsOf callOf_add _) (kind_callsOf callOf_delete _)]
  exact and_congr (or_congr_right hadds) (not_congr hdeletes)

/-- After a delta the alias is covered exactly by its batches. -/
theorem covered_delta_iff {p : Pass} {s : Alias} :
    ({ s with mirror := some (pfbWriteCanonicalAlias (p.desired s)) }.perform (callsOf p.outcome
        (deltaOps p.batchSize (p.desired s) (pfbCanonicalAliasSet (s.mirror.getD []))))).Covered ↔
      p.LastFails s ∨ (p.NoFiles s ∧ s.pending = true) ∨ p.Accounts s := by
  have hlength : (deltaOps p.batchSize (p.desired s)
      (pfbCanonicalAliasSet (s.mirror.getD []))).length = p.callCount s := by
    rw [deltaOps_eq, List.length_append, length_batchOps, length_batchOps]
    rfl
  unfold Alias.Covered Alias.Synced
  rw [perform_mirror, perform_pending_iff, callsOf_last_iff p.outcome isBatch_deltaOps,
    callsOf_nil_iff p.outcome isBatch_deltaOps, hlength, or_comm, or_assoc]
  refine or_congr_right (or_congr_right ?_)
  change _ = mirrored (some (pfbWriteCanonicalAlias (pfbCanonicalAliasSet (p.aliasIps s)))) ↔ _
  rw [mirrored_write, Finset.ext_iff]
  simp only [mem_table_delta, mem_networks_some]
  constructor
  · intro h
    refine ⟨fun e he hnot => ?_, fun e he => ((h e).mpr he).2, fun e hnot hheld => ?_⟩
    · exact ((h e).mpr he).1.resolve_left hnot
    · by_contra hkept
      exact hnot ((h e).mp ⟨hheld, hkept⟩)
  · intro h e
    constructor
    · rintro ⟨hheld, hkept⟩
      by_contra hnot
      exact hkept (h.removed e hnot hheld)
    · intro he
      exact ⟨or_iff_not_imp_left.mpr (h.added e he), h.kept e he⟩

/-- An empty table and an empty previous set force a replace. -/
theorem replaces_stash (desired previous : List Str) (mode : AliasDeltaMode) (empty : Bool) :
    replaces desired (if empty then [] else previous) mode
        (if empty then [] else previous).isEmpty = false ↔
      empty = false ∧ previous ≠ [] ∧ replaces desired previous mode false = false := by
  cases empty with
  | true => simp [replaces]
  | false =>
      cases previous with
      | nil => simp [replaces]
      | cons e es => simp

theorem covered_update_iff {p : Pass} {s : Alias} (hw : p.writes s = true)
    (hsave : p.save = false) : (s.syncPackage p).Covered ↔ p.DeltaMeets s := by
  have hforced := replaces_stash (pfbCanonicalAliasSet (p.aliasIps s))
    (pfbCanonicalAliasSet (s.mirror.getD [])) p.mode (s.table == ∅)
  rw [beq_eq_false_iff_ne] at hforced
  unfold Alias.syncPackage
  rw [writeMirror_of_writes hw]
  dsimp only
  rw [Pass.desired, tableOps_some hsave]
  by_cases hdelta : p.takesDelta s
  · rw [if_neg (ne_true_of_eq_false (hforced.mpr hdelta.2.2))]
    obtain ⟨-, -, htable, -⟩ := id hdelta
    rw [if_neg (by simpa using htable)]
    exact covered_delta_iff.trans ⟨fun h _ => h, fun h => h hdelta⟩
  · refine iff_of_true ?_ fun h => absurd h hdelta
    rw [if_pos ?_]
    · exact (covered_replace rfl _).1
    · by_contra hreplaces
      exact hdelta ⟨hsave, hw, hforced.mp (eq_false_of_ne_true hreplaces)⟩

/-- One pass keeps what was covered exactly when it meets the condition. -/
theorem covered_syncPackage_iff {p : Pass} {s : Alias} (h : s.Covered) :
    (s.syncPackage p).Covered ↔ p.SaveMeets s ∧ p.DeltaMeets s := by
  cases hw : p.writes s with
  | false =>
      refine iff_of_true (covered_of_not_writes h hw) ⟨fun _ hwrites => ?_, fun hdelta => ?_⟩
      · rw [hw] at hwrites
        cases hwrites
      · rw [hdelta.2.1] at hw
        cases hw
  | true =>
      cases hsave : p.save with
      | true =>
          rw [covered_save_iff hw hsave]
          refine ⟨fun hmeets => ⟨hmeets, fun hdelta => ?_⟩, And.left⟩
          rw [hdelta.1] at hsave
          cases hsave
      | false =>
          rw [covered_update_iff hw hsave]
          refine ⟨fun hmeets => ⟨fun hsaves => ?_, hmeets⟩, And.right⟩
          rw [hsave] at hsaves
          cases hsaves

end Passes

theorem covered_step_iff {s s' : Alias} {e : Event} (h : s.Covered) (hstep : step s e = some s') :
    s'.Covered ↔ Meets s e := by
  cases e with
  | sync p =>
      obtain rfl := Option.some.inj hstep
      exact covered_syncPackage_iff h
  | retry ok =>
      simp only [step] at hstep
      split at hstep
      · obtain rfl := Option.some.inj hstep
        exact iff_of_true (covered_retry s ok).1 trivial
      · cases hstep

/-- In every run whose passes meet the condition, a table that missed an update is on the ledger;
the first pass that does not meet it leaves one that is not. And a retry that succeeds ends every
divergence. -/
theorem missed_update_on_ledger {s₀ s : Alias} {es : List Event} (hstart : s₀.Covered)
    (hrun : run step s₀ es = some s) (hmeets : Along step Meets s₀ es) :
    s.Covered ∧ (∀ e s', step s e = some s' → (s'.Covered ↔ Meets s e)) ∧
      ∀ s', step s (.retry true) = some s' → s'.Synced := by
  have hcovered : s.Covered := run_invariant_along
    (fun _ _ _ h hmeet hstep => (covered_step_iff h hstep).mpr hmeet) hstart hmeets hrun
  refine ⟨hcovered, fun e s' hstep => covered_step_iff hcovered hstep, fun s' hstep => ?_⟩
  simp only [step] at hstep
  split at hstep
  · exact Option.some.inj hstep ▸ (covered_retry s true).2 rfl
  · cases hstep

/-- An alias whose table holds its one entry. -/
def applied : Alias where
  mirror := some "198.18.0.1\n".toList
  table := {"198.18.0.1".toList}
  pending := false

/-- An update pass that finds another entry in the member file. -/
def changedFeed : Pass where
  save := false
  crossList := false
  feedChanged := true
  members := ["198.18.0.2\n".toList]
  unlockFile := false
  active := true
  mode := .replace
  batchSize := 512
  outcome := fun _ => ⟨.written, false⟩

/-- Batches that all succeed, on a table that holds the entries of the mirror. -/
theorem accounts_of_synced {p : Pass} {s : Alias}
    (htable : ∀ e, e ∈ s.table ↔ e ∈ pfbCanonicalAliasSet (s.mirror.getD []))
    (hall : ∀ n < p.callCount s, p.outcome n = ⟨.written, true⟩) : p.Accounts s := by
  have hsize : 0 < p.size := by
    unfold Pass.size pfbAliasDeltaBatchClamp
    split_ifs <;> omega
  have hadds : ∀ e, p.Adds s e ↔ e ∈ p.addSet s := fun e => by
    rw [mem_iff_mem_batch hsize]
    refine exists_congr fun n => and_congr_right fun hn => ?_
    rw [hall n (Nat.lt_of_lt_of_le hn (Nat.le_add_right _ _))]
    rfl
  have hdeletes : ∀ e, p.Deletes s e ↔ e ∈ p.delSet s := fun e => by
    rw [mem_iff_mem_batch hsize]
    refine exists_congr fun n => and_congr_right fun hn => ?_
    rw [hall _ (Nat.add_lt_add_left hn _)]
    rfl
  have hadd : ∀ e, e ∈ p.addSet s ↔ e ∈ p.desired s ∧ e ∉ s.table := fun e => by
    rw [Pass.addSet, mem_arrayDiff, htable]
  have hdel : ∀ e, e ∈ p.delSet s ↔ e ∈ s.table ∧ e ∉ p.desired s := fun e => by
    rw [Pass.delSet, mem_arrayDiff, htable]
  refine ⟨fun e he hnot => ?_, fun e he hdeleted => ?_, fun e hnot hheld => ?_⟩
  · exact (hadds e).mpr ((hadd e).mpr ⟨he, hnot⟩)
  · exact ((hdel e).mp ((hdeletes e).mp hdeleted)).2 he
  · rcases hheld with hheld | hadded
    · exact (hdeletes e).mpr ((hdel e).mpr ⟨hheld, hnot⟩)
    · exact absurd ((hadd e).mp ((hadds e).mp hadded)).1 hnot

/-- An update pass that takes the delta path, and the next one, whose last batch fails. -/
def deltaFeed : Pass := { changedFeed with mode := .delta, outcome := fun _ => ⟨.written, true⟩ }

def deltaFails : Pass :=
  { changedFeed with
    mode := .delta, members := ["198.18.0.3\n".toList], outcome := fun n => ⟨.written, n == 0⟩ }

theorem missed_update_on_ledger_delta : ∃ s,
    run step applied [.sync deltaFeed, .sync deltaFails, .retry true] = some s ∧ s.Covered := by
  have hstart : applied.Covered := Or.inl (by unfold Alias.Synced; decide)
  have hset : pfbCanonicalAliasSet (applied.mirror.getD []) = ["198.18.0.1".toList] := by decide
  have haccounts : deltaFeed.Accounts applied := by
    refine accounts_of_synced (fun e => ?_) fun _ _ => rfl
    rw [hset]
    exact Finset.mem_singleton.trans List.mem_singleton.symm
  have hcount : deltaFails.callCount (applied.syncPackage deltaFeed) = 2 := by decide
  have hfails : deltaFails.LastFails (applied.syncPackage deltaFeed) := by
    refine ⟨1, by rw [hcount]; decide, fun h => (by cases h), rfl, fun m hm hlt => ?_⟩
    rw [hcount] at hm
    omega
  have hmeets : Along step Meets applied [.sync deltaFeed, .sync deltaFails, .retry true] :=
    ⟨⟨fun h => (by cases h), fun _ => Or.inr (Or.inr haccounts)⟩,
      ⟨fun h => (by cases h), fun _ => Or.inl hfails⟩, trivial, trivial⟩
  exact ⟨_, rfl, (missed_update_on_ledger hstart rfl hmeets).1⟩

/-- A settings save writes a mirror that no pass applies; and a failed add is struck off the ledger
by the delete that follows it. -/
theorem missed_update_off_ledger : applied.Covered ∧
    (∃ s, run step applied [.sync { changedFeed with save := true, crossList := true }] = some s ∧
      ¬ s.Covered) ∧
    ∃ s, run step applied [.sync { changedFeed with
        mode := .delta, outcome := fun n => ⟨.written, n != 0⟩ }] = some s ∧ ¬ s.Covered := by
  unfold Alias.Covered Alias.Synced
  exact ⟨by decide, ⟨_, rfl, by decide⟩, ⟨_, rfl, by decide⟩⟩

end PfBlockerNG.AliasLedger
