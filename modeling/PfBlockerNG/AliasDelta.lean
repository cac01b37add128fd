import Mathlib.Data.Finset.Basic
import Mathlib.Data.List.Lex
import Mathlib.Data.List.Sort
import Mathlib.Data.List.Dedup
import Mathlib.Data.Char
import PfBlockerNG.IpText

/-!
Applying a changed alias to its kernel table: the canonical member sets, the forward delta in
batches of adds and deletes, and the full replace it stands for.
-/

namespace PfBlockerNG.AliasDelta

open PfBlockerNG.Strings
open PfBlockerNG.IpText

variable {κ : Type*} [DecidableEq κ]

/-- Neither blank nor a comment. -/
def isEntryLine (l : Str) : Bool := l != [] && l.head? != some '#'

def entryLines (content : Str) : List Str := (content.splitOn '\n').filter isEntryLine

/-- `pfb_canonical_alias_set()`. -/
def pfbCanonicalAliasSet (memberContent : Str) : List Str :=
  if memberContent = [] then [] else (entryLines memberContent).dedup.insertionSort (· ≤ ·)

/-- Entries on lines of their own, `implode("\n", ..) . "\n"`. -/
def fileOf (entries : List Str) : Str := ['\n'].intercalate entries ++ ['\n']

/-- What `pfb_write_canonical_alias()` writes. -/
def pfbWriteCanonicalAlias (canonicalSet : List Str) : Str :=
  if canonicalSet = [] then [] else fileOf canonicalSet

/-- `PfbAliasDeltaMode`. -/
inductive AliasDeltaMode where
  | auto
  | delta
  | replace
deriving DecidableEq

/-- `pfctl -T` on one table, with the text of the file it is given. -/
inductive TableOp where
  | replace (file : Str)
  | add (file : Str)
  | delete (file : Str)
  | kill
deriving DecidableEq

/-- `pfb_alias_delta_batch_clamp()`. -/
def pfbAliasDeltaBatchClamp (raw : Int) : Nat :=
  if raw < 64 then 64 else if raw > 4096 then 4096 else raw.toNat

/-- `array_chunk()`; `chunk` is the piece being filled. -/
def arrayChunk {α : Type*} (size : Nat) : List α → List α → List (List α)
  | chunk, [] => if chunk.isEmpty then [] else [chunk]
  | chunk, x :: xs =>
      if (chunk ++ [x]).length = size then (chunk ++ [x]) :: arrayChunk size [] xs
      else arrayChunk size (chunk ++ [x]) xs

/-- `array_diff()`. -/
def arrayDiff (xs ys : List Str) : List Str := xs.filter (· ∉ ys)

/-- A twentieth of the larger set or more changed, `PFB_DELTA_CHURN_THRESHOLD`. -/
def largeChurn (desiredSet lastSet : List Str) : Bool :=
  let churn := (arrayDiff desiredSet lastSet).length + (arrayDiff lastSet desiredSet).length
  let tableSize := max desiredSet.length lastSet.length
  decide (0 < tableSize ∧ tableSize ≤ churn * 20)

/-- `pfb_apply_alias_delta()`: whether it takes the delta path, and its calls of `pfctl`. -/
def pfbApplyAliasDelta (tableFile : Str) (desiredSet lastSet : List Str) (mode : AliasDeltaMode)
    (batchSize : Int) (forceReplace : Bool) : Bool × List TableOp :=
  let batchSize := pfbAliasDeltaBatchClamp batchSize
  if forceReplace || mode == .replace then (false, [.replace tableFile])
  else
    let addSet := arrayDiff desiredSet lastSet
    let delSet := arrayDiff lastSet desiredSet
    if mode == .auto && largeChurn desiredSet lastSet then (false, [.replace tableFile])
    else if addSet.isEmpty && delSet.isEmpty then (true, [])
    else
      (true, (arrayChunk batchSize [] addSet).map (fun chunk => .add (fileOf chunk)) ++
        (arrayChunk batchSize [] delSet).map (fun chunk => .delete (fileOf chunk)))

/-- The replace path is taken. -/
def replaces (desiredSet lastSet : List Str) (mode : AliasDeltaMode) (forceReplace : Bool) : Bool :=
  forceReplace || mode == .replace || (mode == .auto && largeChurn desiredSet lastSet)

/-! What pf makes of a call, `read` being how it reads an entry. -/

section Tables

variable (read : Str → Option κ)

def networks (entries : List Str) : Finset κ := (entries.filterMap read).toFinset

namespace TableOp

def run (table : Finset κ) : TableOp → Finset κ
  | replace file => networks read (entryLines file)
  | add file => table ∪ networks read (entryLines file)
  | delete file => table \ networks read (entryLines file)
  | kill => ∅

end TableOp

def runAll (table : Finset κ) (ops : List TableOp) : Finset κ := ops.foldl (TableOp.run read) table

/-- The table before the first call and after each. -/
def tables : Finset κ → List TableOp → List (Finset κ)
  | table, [] => [table]
  | table, op :: ops => table :: tables (op.run read table) ops

end Tables

section Texts

/-- Entries that stand on lines of their own. -/
def Clean (entries : List Str) : Prop := ∀ e ∈ entries, isEntryLine e = true ∧ '\n' ∉ e

theorem Clean.sublist {entries part : List Str} (h : Clean entries) (hsub : part ⊆ entries) :
    Clean part := fun e he => h e (hsub he)

theorem clean_pfbCanonicalAliasSet (content : Str) : Clean (pfbCanonicalAliasSet content) := by
  intro e he
  unfold pfbCanonicalAliasSet at he
  split at he
  · cases he
  · have hline := List.mem_dedup.mp ((List.mem_insertionSort _).mp he)
    exact ⟨(List.mem_filter.mp hline).2, not_mem_of_mem_splitOn (List.mem_filter.mp hline).1⟩

/-- Entries written to a file are the entries read from it. -/
theorem entryLines_fileOf {entries : List Str} (h : Clean entries) :
    entryLines (fileOf entries) = entries := by
  have hfilter : entries.filter isEntryLine = entries :=
    List.filter_eq_self.mpr fun e he => (h e he).1
  unfold entryLines fileOf
  rw [List.splitOn_append_cons_self]
  cases entries with
  | nil => rfl
  | cons e es =>
      rw [List.splitOn_intercalate _ (fun l hl => (h l hl).2) (List.cons_ne_nil _ _),
        List.filter_append, hfilter]
      simp [isEntryLine]

theorem entryLines_pfbWriteCanonicalAlias {entries : List Str} (h : Clean entries) :
    entryLines (pfbWriteCanonicalAlias entries) = entries := by
  unfold pfbWriteCanonicalAlias
  split
  · next hnil =>
      subst hnil
      rfl
  · exact entryLines_fileOf h

/-- A canonical set is read back from the mirror it is written to. -/
theorem pfbCanonicalAliasSet_pfbWriteCanonicalAlias (content : Str) :
    pfbCanonicalAliasSet (pfbWriteCanonicalAlias (pfbCanonicalAliasSet content)) =
      pfbCanonicalAliasSet content := by
  have hlines := entryLines_pfbWriteCanonicalAlias (clean_pfbCanonicalAliasSet content)
  have hnodup : (pfbCanonicalAliasSet content).Nodup := by
    unfold pfbCanonicalAliasSet
    split
    · exact List.nodup_nil
    · exact (List.perm_insertionSort _ _).nodup_iff.mpr (List.nodup_dedup _)
  have hsorted : (pfbCanonicalAliasSet content).Pairwise (· ≤ ·) := by
    unfold pfbCanonicalAliasSet
    split
    · exact List.Pairwise.nil
    · exact List.pairwise_insertionSort _ _
  generalize pfbCanonicalAliasSet content = canonicalSet at hlines hnodup hsorted ⊢
  conv_lhs => unfold pfbCanonicalAliasSet
  split
  · next hnil =>
      rw [hnil] at hlines
      exact hlines
  · rw [hlines, hnodup.dedup, hsorted.insertionSort_eq]

theorem mem_arrayDiff {xs ys : List Str} {e : Str} : e ∈ arrayDiff xs ys ↔ e ∈ xs ∧ e ∉ ys := by
  simp [arrayDiff]

theorem flatten_arrayChunk {α : Type*} (size : Nat) (chunk xs : List α) :
    (arrayChunk size chunk xs).flatten = chunk ++ xs := by
  induction xs generalizing chunk with
  | nil =>
      unfold arrayChunk
      split
      · next hempty => simp [List.isEmpty_iff.mp hempty]
      · simp
  | cons x xs ih =>
      unfold arrayChunk
      split
      · rw [List.flatten_cons, ih]
        simp
      · rw [ih]
        simp

/-- The `n`-th batch of a list. -/
def batch {α : Type*} (size : Nat) (xs : List α) (n : Nat) : List α :=
  (xs.drop (n * size)).take size

/-- How many batches a list comes to. -/
def batchCount {α : Type*} (size : Nat) (xs : List α) : Nat := (xs.length + size - 1) / size

theorem arrayChunk_eq {α : Type*} {size : Nat} {chunk : List α} (h : chunk.length < size)
    {xs : List α} (hne : chunk ++ xs ≠ []) :
    arrayChunk size chunk xs =
      (chunk ++ xs).take size :: arrayChunk size [] ((chunk ++ xs).drop size) := by
  induction xs generalizing chunk with
  | nil =>
      rw [List.append_nil] at hne ⊢
      have hchunk : chunk.isEmpty = false := by simpa using hne
      rw [List.take_of_length_le h.le, List.drop_of_length_le h.le]
      simp [arrayChunk, hchunk]
  | cons x xs ih =>
      have hsplit : chunk ++ x :: xs = (chunk ++ [x]) ++ xs := by simp
      rw [arrayChunk]
      split
      · next hfull => rw [hsplit, List.take_left' hfull, List.drop_left' hfull]
      · next hroom =>
          have hlength : (chunk ++ [x]).length = chunk.length + 1 := List.length_append
          rw [hsplit]
          exact ih (by omega) (by simp)

/-- The pieces of a list are its batches. -/
theorem arrayChunk_eq_map {α : Type*} {size : Nat} (hsize : 0 < size) (xs : List α) :
    arrayChunk size [] xs = (List.range (batchCount size xs)).map (batch size xs) := by
  generalize hlength : xs.length = length
  induction length using Nat.strong_induction_on generalizing xs with
  | _ length ih =>
      subst hlength
      cases hxs : xs with
      | nil =>
          have hcount : batchCount size ([] : List α) = 0 := by
            rw [batchCount, List.length_nil, Nat.zero_add, Nat.div_eq_of_lt (by omega)]
          rw [hcount]
          rfl
      | cons x rest =>
          rw [← hxs]
          have hpos : 0 < xs.length := by simp [hxs]
          have hdrop : (xs.drop size).length = xs.length - size := List.length_drop
          have hcount : batchCount size xs = batchCount size (xs.drop size) + 1 := by
            unfold batchCount
            rw [hdrop]
            rcases Nat.le_total xs.length size with hle | hle
            · have hnone : (0 + size - 1) / size = 0 := Nat.div_eq_of_lt (by omega)
              have hone : (xs.length + size - 1) / size = 1 := by
                refine Nat.div_eq_of_lt_le ?_ ?_
                · rw [Nat.one_mul]
                  omega
                · rw [Nat.succ_mul, Nat.one_mul]
                  omega
              rw [Nat.sub_eq_zero_of_le hle, hnone, hone]
            · rw [← Nat.add_div_right _ hsize]
              congr 1
              omega
          have hbatch : ∀ n, batch size xs (n + 1) = batch size (xs.drop size) n := fun n => by
            rw [batch, batch, List.drop_drop, Nat.succ_mul, Nat.add_comm]
          rw [arrayChunk_eq (by simpa using hsize) (by simp [hxs]), List.nil_append,
            ih _ (by omega) (xs.drop size) rfl, hcount, List.range_succ_eq_map, List.map_cons,
            List.map_map]
          refine congrArg₂ List.cons (by simp [batch]) (List.map_congr_left fun n _ => ?_)
          exact (hbatch n).symm

theorem mem_iff_mem_batch {α : Type*} {size : Nat} (hsize : 0 < size) {xs : List α} {x : α} :
    x ∈ xs ↔ ∃ n < batchCount size xs, x ∈ batch size xs n := by
  have hflat := flatten_arrayChunk size [] xs
  rw [List.nil_append, arrayChunk_eq_map hsize] at hflat
  conv_lhs => rw [← hflat]
  simp only [List.mem_flatten, List.mem_map, List.mem_range, exists_exists_and_eq_and]

end Texts

/-- The calls of the delta path. -/
def deltaOps (batchSize : Int) (desiredSet lastSet : List Str) : List TableOp :=
  let batch := arrayChunk (pfbAliasDeltaBatchClamp batchSize) []
  (batch (arrayDiff desiredSet lastSet)).map (fun chunk => .add (fileOf chunk)) ++
    (batch (arrayDiff lastSet desiredSet)).map (fun chunk => .delete (fileOf chunk))

theorem pfbApplyAliasDelta_eq (tableFile : Str) (desiredSet lastSet : List Str)
    (mode : AliasDeltaMode) (batchSize : Int) (forceReplace : Bool) :
    pfbApplyAliasDelta tableFile desiredSet lastSet mode batchSize forceReplace =
      if replaces desiredSet lastSet mode forceReplace then (false, [.replace tableFile])
      else (true, deltaOps batchSize desiredSet lastSet) := by
  unfold pfbApplyAliasDelta replaces
  by_cases hforce : (forceReplace || mode == .replace) = true
  · simp [hforce]
  · rw [if_neg hforce]
    rw [Bool.not_eq_true] at hforce
    rw [hforce]
    by_cases hchurn : (mode == .auto && largeChurn desiredSet lastSet) = true
    · simp [hchurn]
    · simp only [hchurn, Bool.false_or, if_false, Bool.false_eq_true]
      split
      · next hempty =>
          simp only [Bool.and_eq_true, List.isEmpty_iff] at hempty
          simp [deltaOps, hempty.1, hempty.2, arrayChunk]
      · rfl

section Tables

variable {read : Str → Option κ}

theorem mem_networks {entries : List Str} {b : κ} :
    b ∈ networks read entries ↔ ∃ e ∈ entries, read e = some b := by
  simp [networks]

theorem networks_append (xs ys : List Str) :
    networks read (xs ++ ys) = networks read xs ∪ networks read ys := by
  ext b
  simp only [Finset.mem_union, mem_networks, List.mem_append, or_and_right, exists_or]

theorem networks_mono {xs ys : List Str} (h : xs ⊆ ys) : networks read xs ⊆ networks read ys := by
  intro b hb
  obtain ⟨e, he, hread⟩ := mem_networks.mp hb
  exact mem_networks.mpr ⟨e, h he, hread⟩

theorem runAll_append (table : Finset κ) (ops ops' : List TableOp) :
    runAll read table (ops ++ ops') = runAll read (runAll read table ops) ops' :=
  List.foldl_append

/-- Batches of adds put in what their entries name. -/
theorem runAll_adds {chunks : List (List Str)} (h : Clean chunks.flatten) (table : Finset κ) :
    runAll read table (chunks.map fun chunk => .add (fileOf chunk)) =
      table ∪ networks read chunks.flatten := by
  induction chunks generalizing table with
  | nil => simp [runAll, networks]
  | cons chunk chunks ih =>
      have hchunk : Clean chunk := h.sublist (List.subset_append_left _ _)
      have hchunks : Clean chunks.flatten := h.sublist (List.subset_append_right _ _)
      change runAll read ((TableOp.add (fileOf chunk)).run read table) _ = _
      rw [ih hchunks, TableOp.run, entryLines_fileOf hchunk, List.flatten_cons, networks_append,
        Finset.union_assoc]

/-- Batches of deletes take out what their entries name. -/
theorem runAll_deletes {chunks : List (List Str)} (h : Clean chunks.flatten) (table : Finset κ) :
    runAll read table (chunks.map fun chunk => .delete (fileOf chunk)) =
      table \ networks read chunks.flatten := by
  induction chunks generalizing table with
  | nil => simp [runAll, networks]
  | cons chunk chunks ih =>
      have hchunk : Clean chunk := h.sublist (List.subset_append_left _ _)
      have hchunks : Clean chunks.flatten := h.sublist (List.subset_append_right _ _)
      change runAll read ((TableOp.delete (fileOf chunk)).run read table) _ = _
      rw [ih hchunks, TableOp.run, entryLines_fileOf hchunk, List.flatten_cons, networks_append,
        sdiff_sdiff_left, Finset.sup_eq_union]

theorem clean_arrayDiff {xs ys : List Str} (h : Clean xs) : Clean (arrayDiff xs ys) :=
  h.sublist fun _ he => (mem_arrayDiff.mp he).1

/-- The delta leaves what is desired, less what the deleted entries name. -/
theorem runAll_deltaOps {desiredSet lastSet : List Str} (hdesired : Clean desiredSet)
    (hlast : Clean lastSet) (batchSize : Int) :
    runAll read (networks read lastSet) (deltaOps batchSize desiredSet lastSet) =
      networks read desiredSet \ networks read (arrayDiff lastSet desiredSet) := by
  unfold deltaOps
  rw [runAll_append, runAll_adds, runAll_deletes, flatten_arrayChunk, flatten_arrayChunk,
    List.nil_append, List.nil_append]
  · ext b
    simp only [Finset.mem_sdiff, Finset.mem_union]
    refine and_congr_left fun hdel => ⟨?_, fun hb => ?_⟩
    · rintro (hb | hb)
      · obtain ⟨e, he, hread⟩ := mem_networks.mp hb
        by_cases hkept : e ∈ desiredSet
        · exact mem_networks.mpr ⟨e, hkept, hread⟩
        · exact absurd (mem_networks.mpr ⟨e, mem_arrayDiff.mpr ⟨he, hkept⟩, hread⟩) hdel
      · exact networks_mono (fun e he => (mem_arrayDiff.mp he).1) hb
    · obtain ⟨e, he, hread⟩ := mem_networks.mp hb
      by_cases hheld : e ∈ lastSet
      · exact Or.inl (mem_networks.mpr ⟨e, hheld, hread⟩)
      · exact Or.inr (mem_networks.mpr ⟨e, mem_arrayDiff.mpr ⟨he, hheld⟩, hread⟩)
  · rw [flatten_arrayChunk]
    exact clean_arrayDiff hlast
  · rw [flatten_arrayChunk]
    exact clean_arrayDiff hdesired

theorem mem_tables_append {table t : Finset κ} {ops ops' : List TableOp}
    (h : t ∈ tables read table (ops ++ ops')) :
    t ∈ tables read table ops ∨ t ∈ tables read (runAll read table ops) ops' := by
  induction ops generalizing table with
  | nil => exact Or.inr h
  | cons op ops ih =>
      rcases List.mem_cons.mp h with rfl | h
      · exact Or.inl List.mem_cons_self
      · exact (ih h).imp_left (List.mem_cons_of_mem _)

/-- What the first table holds and every call keeps, every table holds. -/
theorem forall_tables {P : Finset κ → Prop} {table : Finset κ} {ops : List TableOp}
    (hstart : P table) (hstep : ∀ op ∈ ops, ∀ t, P t → P (op.run read t)) :
    ∀ t ∈ tables read table ops, P t := by
  induction ops generalizing table with
  | nil =>
      intro t ht
      exact List.mem_singleton.mp ht ▸ hstart
  | cons op ops ih =>
      intro t ht
      rcases List.mem_cons.mp ht with rfl | ht
      · exact hstart
      · refine ih (hstep op List.mem_cons_self _ hstart) ?_ t ht
        exact fun op' hop' => hstep op' (List.mem_cons_of_mem _ hop')

/-- When no deleted entry names what a desired one names, every table of the delta holds all that
was there before or all that is desired. -/
theorem subset_of_mem_tables {desiredSet lastSet : List Str} (hdesired : Clean desiredSet)
    (hlast : Clean lastSet) {batchSize : Int}
    (hdisjoint :
      Disjoint (networks read (arrayDiff lastSet desiredSet)) (networks read desiredSet)) :
    ∀ t ∈ tables read (networks read lastSet) (deltaOps batchSize desiredSet lastSet),
      networks read lastSet ⊆ t ∨ networks read desiredSet ⊆ t := by
  intro t ht
  rcases mem_tables_append ht with ht | ht
  · refine Or.inl (forall_tables (P := (networks read lastSet ⊆ ·)) (le_refl _) ?_ t ht)
    intro op hop s hs
    obtain ⟨chunk, -, rfl⟩ := List.mem_map.mp hop
    exact hs.trans Finset.subset_union_left
  · have hadds : networks read desiredSet ⊆ runAll read (networks read lastSet)
        ((arrayChunk (pfbAliasDeltaBatchClamp batchSize) [] (arrayDiff desiredSet lastSet)).map
          fun chunk => .add (fileOf chunk)) := by
      rw [runAll_adds (by rw [flatten_arrayChunk]; exact clean_arrayDiff hdesired),
        flatten_arrayChunk, List.nil_append, ← networks_append]
      refine networks_mono fun e he => ?_
      by_cases hheld : e ∈ lastSet
      · exact List.mem_append_left _ hheld
      · exact List.mem_append_right _ (mem_arrayDiff.mpr ⟨he, hheld⟩)
    refine Or.inr (forall_tables (P := (networks read desiredSet ⊆ ·)) hadds ?_ t ht)
    intro op hop s hs
    obtain ⟨chunk, hchunk, rfl⟩ := List.mem_map.mp hop
    have hsub : chunk ⊆ arrayDiff lastSet desiredSet := fun e he => by
      have hmem := List.mem_flatten.mpr ⟨chunk, hchunk, he⟩
      rwa [flatten_arrayChunk] at hmem
    have hfile : entryLines (fileOf chunk) = chunk :=
      entryLines_fileOf ((clean_arrayDiff hlast).sublist hsub)
    refine Finset.subset_sdiff.mpr ⟨hs, ?_⟩
    rw [hfile]
    exact (hdisjoint.mono_left (networks_mono hsub)).symm

end Tables

/-- Member content whose entries are valid hosts and subnets. -/
structure Members (T : Ipv6Text) where
  content : Str
  valid : ∀ e ∈ pfbCanonicalAliasSet content, (entryOf T e).isSome = true

namespace Members

variable {T : Ipv6Text}

def set (members : Members T) : List Str := pfbCanonicalAliasSet members.content

/-- What pf reads from the set: an entry is its masked network. -/
def table (members : Members T) : Finset Block := networks (entryOf T) members.set

/-- The aliasdir file of the set. -/
def mirror (members : Members T) : Str := pfbWriteCanonicalAlias members.set

theorem clean (members : Members T) : Clean members.set := clean_pfbCanonicalAliasSet _

theorem networks_mirror (members : Members T) :
    networks (entryOf T) (entryLines members.mirror) = members.table := by
  rw [mirror, entryLines_pfbWriteCanonicalAlias members.clean, table]

end Members

/-- The addresses a table matches. -/
def Matches (table : Finset Block) (a : Addr) : Prop := ∃ b ∈ table, b.Contains a

/-- From a table that holds `last`, the calls of `pfctl` lead where a full replace leads, and the
table never misses an address that both sets match. -/
def DeltaIsReplace {T : Ipv6Text} (last desired : Members T) (mode : AliasDeltaMode)
    (batchSize : Int) (forceReplace : Bool) : Prop :=
  let ops := (pfbApplyAliasDelta desired.mirror desired.set last.set mode batchSize forceReplace).2
  runAll (entryOf T) last.table ops = (TableOp.replace desired.mirror).run (entryOf T) last.table ∧
    ∀ t ∈ tables (entryOf T) last.table ops, ∀ a,
      Matches last.table a → Matches desired.table a → Matches t a

theorem Matches.mono {s t : Finset Block} (h : s ⊆ t) {a : Addr} : Matches s a → Matches t a := by
  rintro ⟨b, hb, hcontains⟩
  exact ⟨b, h hb, hcontains⟩

theorem replace_run {T : Ipv6Text} (members : Members T) (table : Finset Block) :
    (TableOp.replace members.mirror).run (entryOf T) table = members.table :=
  members.networks_mirror

/-- The delta ends as a replace does exactly when no entry it deletes names a network that a
desired entry names too. -/
theorem deltaIsReplace_iff {T : Ipv6Text} (last desired : Members T) (mode : AliasDeltaMode)
    (batchSize : Int) (forceReplace : Bool) :
    DeltaIsReplace last desired mode batchSize forceReplace ↔
      replaces desired.set last.set mode forceReplace = true ∨
        ∀ e ∈ last.set, e ∉ desired.set → ∀ e' ∈ desired.set, entryOf T e ≠ entryOf T e' := by
  unfold DeltaIsReplace
  rw [pfbApplyAliasDelta_eq, replace_run]
  by_cases hreplaces : replaces desired.set last.set mode forceReplace = true
  · rw [if_pos hreplaces]
    refine iff_of_true ⟨replace_run desired last.table, ?_⟩ (Or.inl hreplaces)
    intro t ht a hlast hdesired
    rcases List.mem_cons.mp ht with rfl | ht
    · exact hlast
    · rw [List.mem_singleton.mp ht, replace_run]
      exact hdesired
  · rw [if_neg hreplaces]
    dsimp only
    have hdisjoint : Disjoint (networks (entryOf T) (arrayDiff last.set desired.set))
          desired.table ↔
        ∀ e ∈ last.set, e ∉ desired.set → ∀ e' ∈ desired.set, entryOf T e ≠ entryOf T e' := by
      rw [Finset.disjoint_left]
      constructor
      · intro h e he hgone e' he' hsame
        obtain ⟨b, hb⟩ := Option.isSome_iff_exists.mp (last.valid e he)
        exact h (mem_networks.mpr ⟨e, mem_arrayDiff.mpr ⟨he, hgone⟩, hb⟩)
          (mem_networks.mpr ⟨e', he', hsame ▸ hb⟩)
      · intro h b hb hb'
        obtain ⟨e, he, hread⟩ := mem_networks.mp hb
        obtain ⟨e', he', hread'⟩ := mem_networks.mp hb'
        obtain ⟨hmem, hgone⟩ := mem_arrayDiff.mp he
        exact h e hmem hgone e' he' (hread.trans hread'.symm)
    have hend : runAll (entryOf T) last.table (deltaOps batchSize desired.set last.set) =
        desired.table \ networks (entryOf T) (arrayDiff last.set desired.set) :=
      runAll_deltaOps desired.clean last.clean batchSize
    rw [hend, Finset.sdiff_eq_self_iff_disjoint, disjoint_comm, hdisjoint]
    refine ⟨fun h => Or.inr h.1, fun h => ?_⟩
    have hnames := h.resolve_left hreplaces
    refine ⟨hnames, fun t ht a hlast hdesired => ?_⟩
    have hkept := subset_of_mem_tables desired.clean last.clean (hdisjoint.mpr hnames) t ht
    rcases hkept with hsub | hsub
    · exact hlast.mono hsub
    · exact hdesired.mono hsub

/-- A network spelled with host bits. -/
def spelledWithHost : Members fullForm where
  content := "8.8.8.8/16\n".toList
  valid := by decide

/-- The same network without them. -/
def spelledMasked : Members fullForm where
  content := "8.8.0.0/16\n".toList
  valid := by decide

theorem delta_loses_respelled_network :
    ¬ DeltaIsReplace spelledWithHost spelledMasked .delta 512 false := by
  have hhost : spelledWithHost.set = ["8.8.8.8/16".toList] := by decide
  have hmasked : spelledMasked.set = ["8.8.0.0/16".toList] := by decide
  intro h
  have hend := h.1
  rw [replace_run] at hend
  simp only [Members.table, Members.mirror, hhost, hmasked] at hend
  exact absurd hend (by decide)

end PfBlockerNG.AliasDelta
