import Mathlib.Data.List.Lex
import Mathlib.Data.List.Sort
import PfBlockerNG.CrashRuns
import PfBlockerNG.KeyedTree
import PfBlockerNG.Strings

/-!
The entries of directories and the file operations a publication uses, each of which may fail.
-/

namespace PfBlockerNG.DirectoryFiles

open PfBlockerNG.Strings
open PfBlockerNG.OrderedDict
open PfBlockerNG.KeyedTree
open PfBlockerNG.CrashRuns

/-- What a symbolic link leads to. -/
inductive Reach where
  | nothing
  | file
  | directory
  deriving DecidableEq, Repr

inductive Node where
  | file (content : Str)
  | link (leadsTo : Reach)
  deriving DecidableEq, Repr

/-- A file, a link, or a directory with its entries in the order they are read. -/
abbrev Entry := KeyTree Str Node

namespace Entry

/-- `is_dir`, which follows a link. -/
def isDir : Entry → Bool
  | .node _ => true
  | .leaf (.link .directory) => true
  | .leaf _ => false

def isLink : Entry → Bool
  | .leaf (.link _) => true
  | _ => false

/-- `file_exists`, which follows a link. -/
def isThere : Entry → Bool
  | .leaf (.link .nothing) => false
  | _ => true

/-- The entry that stands below under the given names. -/
def descend : List Str → Entry → Option Entry
  | [], e => some e
  | k :: ks, .node items => (lookup k items).bind (descend ks)
  | _ :: _, .leaf _ => none

/-- The entry without what stands below it under the given names. -/
def prune : List Str → Entry → Entry
  | [k], .node items => .node (items.filter fun i => i.1 != k)
  | k :: ks, .node items =>
      .node (items.map fun i => if i.1 = k then (i.1, prune ks i.2) else i)
  | _, e => e

mutual

/-- The places below an entry, those of its children before a directory's own; no link is
followed. -/
def walk : Entry → List (List Str)
  | .leaf _ => []
  | .node items => walkItems items

def walkItems : List (Str × Entry) → List (List Str)
  | [] => []
  | (k, e) :: items => (walk e).map (k :: ·) ++ [k] :: walkItems items

end

/-- Whether a rename of the entry may take the place of what the target holds: a directory only
that of an empty directory, anything else only that of what is no directory. -/
def replaces (e : Entry) : Option Entry → Bool
  | none => true
  | some (.node items) => items.isEmpty && (match e with | .node _ => true | .leaf _ => false)
  | some (.leaf _) => match e with | .node _ => false | .leaf _ => true

end Entry

/-- An entry of a directory, by its name there. -/
structure EntryPath where
  directory : Str
  name : Str
  deriving DecidableEq, Repr

/-- An entry of a directory or what stands below it. -/
structure Place where
  path : EntryPath
  inner : List Str
  deriving DecidableEq, Repr

def EntryPath.place (p : EntryPath) : Place := ⟨p, []⟩

structure Rename where
  source : EntryPath
  target : EntryPath
  moved : Entry
  deriving DecidableEq

/-- The entries of the directories, and every rename so far, the latest first. -/
structure World where
  entries : Dict EntryPath Entry
  renames : List Rename

namespace World

def get (w : World) (p : EntryPath) : Option Entry := w.entries.get p

/-- Sets what a path holds. -/
def put (w : World) (p : EntryPath) : Option Entry → World
  | none => { w with entries := w.entries.pop p }
  | some e => { w with entries := w.entries.set p e }

def find (w : World) (x : Place) : Option Entry := (w.get x.path).bind (Entry.descend x.inner)

/-- Takes away what stands at a place. -/
def erase (w : World) (x : Place) : World :=
  match x.inner with
  | [] => w.put x.path none
  | inner => w.put x.path ((w.get x.path).map (Entry.prune inner))

def names (w : World) (directory : Str) : List Str :=
  ((w.entries.keys.filter fun p => p.directory = directory).map EntryPath.name).insertionSort
    (· ≤ ·)

/-- What is left by a rename that was made. -/
def moved (w : World) (source target : EntryPath) (e : Entry) : World :=
  { entries := (w.entries.pop source).set target e, renames := ⟨source, target, e⟩ :: w.renames }

/-- Moves the entry at one path to another, where that is allowed. -/
def rename (w : World) (source target : EntryPath) : Bool × World :=
  match w.get source with
  | none => (false, w)
  | some e =>
      if Entry.replaces e (w.get target) then (true, w.moved source target e) else (false, w)

end World

namespace World

variable {w w' : World} {p q : EntryPath}

theorem get_put (w : World) (p q : EntryPath) (o : Option Entry) :
    (w.put p o).get q = if p = q then o else w.get q := by
  cases o with
  | none => exact w.entries.get_pop p q
  | some e => exact w.entries.get_set p q e

@[simp] theorem renames_put (w : World) (p : EntryPath) (o : Option Entry) :
    (w.put p o).renames = w.renames := by
  cases o <;> rfl

theorem get_moved (w : World) (source target : EntryPath) (e : Entry) (q : EntryPath) :
    (w.moved source target e).get q =
      if target = q then some e else if source = q then none else w.get q := by
  rw [get, moved, Dict.get_set, Dict.get_pop]
  rfl

/-- A rename is made whole or not at all. -/
theorem rename_cases (w : World) (source target : EntryPath) :
    w.rename source target = (false, w) ∨ ∃ e, w.get source = some e ∧
      Entry.replaces e (w.get target) = true ∧
        w.rename source target = (true, w.moved source target e) := by
  unfold rename
  cases he : w.get source with
  | none => exact .inl rfl
  | some e =>
      dsimp only
      split
      next hreplaces => exact .inr ⟨e, rfl, hreplaces, rfl⟩
      next => exact .inl rfl

theorem mem_names {d n : Str} : n ∈ w.names d ↔ w.get ⟨d, n⟩ ≠ none := by
  rw [names, List.mem_insertionSort, List.mem_map, Option.ne_none_iff_exists', get,
    ← Dict.mem_keys_iff]
  constructor
  · rintro ⟨p, hp, rfl⟩
    obtain ⟨hmem, hdirectory⟩ := List.mem_filter.mp hp
    rw [← of_decide_eq_true hdirectory]
    exact hmem
  · exact fun h => ⟨_, List.mem_filter.mpr ⟨h, decide_eq_true rfl⟩, rfl⟩

/-- Nothing has changed but what one path holds, and nothing was renamed. -/
structure OnlyAt (p : EntryPath) (w w' : World) : Prop where
  renames : w'.renames = w.renames
  get : ∀ q, q ≠ p → w'.get q = w.get q

theorem OnlyAt.refl (p : EntryPath) (w : World) : OnlyAt p w w := ⟨rfl, fun _ _ => rfl⟩

theorem OnlyAt.put (h : OnlyAt p w w') (o : Option Entry) : OnlyAt p w (w'.put p o) :=
  ⟨(renames_put w' p o).trans h.renames, fun q hq => by
    rw [get_put, if_neg (Ne.symm hq)]
    exact h.get q hq⟩

theorem OnlyAt.erase {x : Place} (h : OnlyAt x.path w w') : OnlyAt x.path w (w'.erase x) := by
  unfold World.erase
  split
  · exact h.put none
  · exact h.put _

end World

/-! ### The operations -/

open Process

abbrev Run := Process World

/-- `scandir`. -/
def scandir (directory : Str) : Run (Option (List Str)) :=
  operation (fun w => (some (['.'] :: ['.', '.'] :: w.names directory), w)) none

def rename (source target : EntryPath) : Run Bool :=
  operation (fun w => w.rename source target) false

/-- `unlink` takes a file or a link away. -/
def unlink (x : Place) : Run Bool :=
  operation (fun w =>
    match w.find x with
    | some (.leaf _) => (true, w.erase x)
    | _ => (false, w)) false

/-- `rmdir` takes an empty directory away. -/
def rmdir (x : Place) : Run Bool :=
  operation (fun w =>
    match w.find x with
    | some (.node []) => (true, w.erase x)
    | _ => (false, w)) false

def mkdir (p : EntryPath) : Run Bool :=
  operation (fun w =>
    match w.get p with
    | none => (true, w.put p (some (.node [])))
    | some _ => (false, w)) false

/-- `chmod`; modes are no part of an entry here. -/
def chmod (p : EntryPath) : Run Bool := operation (fun w => ((w.get p).isSome, w)) false

/-- `tempnam` makes an empty file under a name that nothing has yet. -/
def tempnam (p : EntryPath) : Run (Option EntryPath) :=
  operation (fun w =>
    match w.get p with
    | none => (some p, w.put p (some (.leaf (.file []))))
    | some _ => (none, w)) none

/-- The opening of an iterator over what stands below a directory. -/
def opendir (p : EntryPath) : Run (Option (List (List Str))) :=
  operation (fun w =>
    match w.get p with
    | some (.node items) => (some (Entry.walkItems items), w)
    | _ => (none, w)) none

/-- `rmdir_recursive` and `unlink_if_exists` are not part of the package: of these only the path
they work on is known, and what they leave there. -/
def rmdirRecursive (p : EntryPath) (left : Option Entry) : Run Unit :=
  operation (fun w => ((), w.put p left)) ()

def unlinkIfExists (p : EntryPath) (left : Option Entry) : Run Unit :=
  operation (fun w => ((), w.put p left)) ()

def isDir (x : Place) : Run Bool := test fun w => (w.find x).any Entry.isDir

def isLink (x : Place) : Run Bool := test fun w => (w.find x).any Entry.isLink

def fileExists (x : Place) : Run Bool := test fun w => (w.find x).any Entry.isThere

/-! ### What the operations leave alone -/

section Keeps

variable {sure : Bool} {w : World} {p : EntryPath} {x : Place} {I : World → Prop}

theorem keeps_isDir (x : Place) : Keeps sure (isDir x) I := keeps_test _

theorem keeps_isLink (x : Place) : Keeps sure (isLink x) I := keeps_test _

theorem keeps_fileExists (x : Place) : Keeps sure (fileExists x) I := keeps_test _

theorem keeps_opendir (p : EntryPath) : Keeps sure (opendir p) I :=
  keeps_operation fun w hw => by
    split <;> exact hw

theorem keeps_chmod (p : EntryPath) : Keeps sure (chmod p) I := keeps_operation fun _ hw => hw

theorem unlink_keeps : Keeps sure (unlink x) (World.OnlyAt x.path w) :=
  keeps_operation fun w' hw => by
    split
    · exact hw.erase
    · exact hw

theorem rmdir_keeps : Keeps sure (rmdir x) (World.OnlyAt x.path w) :=
  keeps_operation fun w' hw => by
    split
    · exact hw.erase
    · exact hw

theorem mkdir_keeps : Keeps sure (mkdir p) (World.OnlyAt p w) :=
  keeps_operation fun w' hw => by
    split
    · exact hw.put (some (.node []))
    · exact hw

theorem tempnam_keeps : Keeps sure (tempnam p) (World.OnlyAt p w) :=
  keeps_operation fun w' hw => by
    split
    · exact hw.put (some (.leaf (.file [])))
    · exact hw

end Keeps

end PfBlockerNG.DirectoryFiles
