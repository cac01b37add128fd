import PfBlockerNG.CrashRuns
import PfBlockerNG.DirectoryFiles
import PfBlockerNG.PhpArray

/-!
Snapshots of the package's sections of the configuration: one file for each settings family, saved
whole and put back among the sections of other packages.
-/

namespace PfBlockerNG.SettingsFamily

open PfBlockerNG.Strings
open PfBlockerNG.OrderedDict
open PfBlockerNG.KeyedTree
open PfBlockerNG.PhpArray (Leaf)
open PfBlockerNG.CrashRuns
open PfBlockerNG.CrashRuns.Process
open PfBlockerNG.DirectoryFiles (EntryPath)

/-! ### The configuration -/

/-- What is no array: a scalar or NULL, or an object. -/
inductive Atom where
  | plain (l : Leaf)
  | object (name : Str)
  deriving DecidableEq, Repr

abbrev Value := KeyTree Str Atom

/-- An array by its first level, where keys are distinct. -/
abbrev Sections := Dict Str Value

inductive Top where
  | array (items : Sections)
  | other (a : Atom)

abbrev Config := Dict Str Top

def packagesKey : Str := "installedpackages".toList

def ownStem : Str := "pfblockerng".toList

/-- `config_get_path('installedpackages', [])`, or no sections where that is no array. -/
def installedPackages (config : Config) : Sections :=
  match config.get packagesKey with
  | some (.array items) => items
  | _ => .empty

def isOwned (p : Str × Value) : Bool := startsWith ownStem p.1

def isForeign (p : Str × Value) : Bool := !isOwned p

/-- `pfb_settings_family_owned_sections`. -/
def ownedSections (config : Config) : Sections :=
  (installedPackages config).items.foldl
    (fun owned p => if isOwned p then owned.set p.1 p.2 else owned) .empty

/-! ### The rebuilt sections -/

/-- The loop of `pfb_settings_family_replace` over the live sections. -/
structure Rebuild where
  rebuilt : Sections
  index : Nat
  owned : Sections

def Rebuild.entry (ownedKeys : List Str) (r : Rebuild) (p : Str × Value) : Rebuild :=
  if isOwned p then
    match ownedKeys[r.index]? with
    | some key =>
        { rebuilt := r.rebuilt.set key ((r.owned.get key).getD (.leaf (.plain .null)))
          index := r.index + 1
          owned := r.owned.pop key }
    | none => r
  else { r with rebuilt := r.rebuilt.set p.1 p.2 }

def rebuild (installed owned : Sections) : Sections :=
  let r := installed.items.foldl (Rebuild.entry owned.keys) ⟨.empty, 0, owned⟩
  r.rebuilt.update r.owned.items

/-! ### A snapshot as it is read back -/

mutual

/-- `$validate_value`. A value is a tree, in which no reference leads back, so the guard against
that is left out. -/
def validateValue : Value → Bool
  | .leaf (.plain _) => true
  | .leaf (.object _) => false
  | .node items => validateItems items

def validateItems : List (Str × Value) → Bool
  | [] => true
  | (_, v) :: items => validateValue v && validateItems items

end

/-- What is not part of the package: the serialization, its transport encoding, the XML document
of a family and a payload, and what `write_config` makes of the configuration. -/
structure Formats where
  serialize : Sections → Str
  unserialize : Str → Option Top
  base64Encode : Str → Str
  base64Decode : Str → Option Str
  dump : Str → Str → Option Str
  parse : Str → Option Sections
  written : Config → Config

/-- `isset($items[$k]) && is_string($items[$k])`. -/
def stringAt (k : Str) (items : Sections) : Option Str :=
  match items.get k with
  | some (.leaf (.plain (.str s))) => some s
  | _ => none

/-- The sections a parsed snapshot holds, where it is one of the family and passes every check. -/
def snapshot (F : Formats) (family : Str) (parsed : Sections) : Option Sections :=
  match stringAt "family".toList parsed, stringAt "payload".toList parsed with
  | some name, some payload =>
      if name = family then
        match (F.base64Decode payload).bind F.unserialize with
        | some (.array owned) =>
            if owned.nonempty && owned.items.all isOwned && validateItems owned.items then
              some owned
            else none
        | _ => none
      else none
  | _, _ => none

/-! ### Files -/

structure Stat where
  mode : Nat
  uid : Nat
  deriving DecidableEq, Repr

inductive Kind where
  | directory
  | file
  | link
  | other
  deriving DecidableEq, Repr

/-- `$stat['mode'] & 0170000`. -/
def Stat.kind (s : Stat) : Kind :=
  if s.mode &&& 0o170000 = 0o040000 then .directory
  else if s.mode &&& 0o170000 = 0o100000 then .file
  else if s.mode &&& 0o170000 = 0o120000 then .link
  else .other

structure File where
  stat : Stat
  content : Str
  deriving DecidableEq, Repr

structure System where
  config : Config
  root : Option Stat
  files : Dict EntryPath File

/-- `PFB_SETTINGS_FAMILY_RANK`. -/
def familyRank : List (Str × Nat) :=
  [("3.3".toList, 0), ("4.0".toList, 1), ("4.1".toList, 2)]

/-- The machine: the database directory, the effective user, and the directory `mkdir` makes. -/
structure Site where
  root : Str
  euid : Nat
  made : Stat

namespace Site

def expectedOwner (site : Site) : Nat :=
  if site.root = "/var/db/pfblockerng".toList then 0 else site.euid

def slot (site : Site) (family : Str) : EntryPath :=
  ⟨site.root, "settings-".toList ++ family ++ ".xml".toList⟩

/-- No write by others, and the expected owner. -/
def isOwnRoot (site : Site) (s : Stat) : Bool :=
  s.mode &&& 0o22 == 0 && s.uid == site.expectedOwner

/-- Mode 0600 and the expected owner. -/
def isPrivate (site : Site) (s : Stat) : Bool :=
  s.mode &&& 0o7777 == 0o600 && s.uid == site.expectedOwner

end Site

/-! ### The operations -/

abbrev Run := Process System

def lstatRoot : Run (Option Stat) := observe System.root

def lstat (p : EntryPath) : Run (Option Stat) := observe fun w => (w.files.get p).map File.stat

def rootIsLink : Run Bool := test fun w => w.root.any fun s => s.kind = .link

def isLink (p : EntryPath) : Run Bool :=
  test fun w => (w.files.get p).any fun f => f.stat.kind = .link

def mkdirRoot (site : Site) : Run Bool :=
  operation (fun w =>
    match w.root with
    | none => (true, { w with root := some site.made })
    | some _ => (false, w)) false

/-- `tempnam` makes a private empty file under a name that nothing has yet. -/
def tempnam (site : Site) (p : EntryPath) : Run Bool :=
  operation (fun w =>
    match w.files.get p with
    | none => (true, { w with files := w.files.set p ⟨⟨0o100600, site.euid⟩, []⟩ })
    | some _ => (false, w)) false

/-- `file_put_contents`, of which so many characters reach the file. -/
def filePutContents (p : EntryPath) (content : Str) (reach : Nat) : Run (Option Nat) :=
  operation (fun w =>
    match w.files.get p with
    | some f => (some (content.take reach).length,
        { w with files := w.files.set p { f with content := content.take reach } })
    | none => (none, w)) none

def fileGetContents (p : EntryPath) : Run (Option Str) :=
  operation (fun w => ((w.files.get p).map File.content, w)) none

/-- `chmod` to 0600. -/
def chmodPrivate (p : EntryPath) : Run Bool :=
  operation (fun w =>
    match w.files.get p with
    | some f => (true, { w with
        files := w.files.set p { f with stat := { f.stat with
          mode := f.stat.mode - f.stat.mode % 0o10000 + 0o600 } } })
    | none => (false, w)) false

def unlink (p : EntryPath) : Run Bool :=
  operation (fun w => ((w.files.get p).isSome, { w with files := w.files.pop p })) false

def rename (source target : EntryPath) : Run Bool :=
  operation (fun w =>
    match w.files.get source with
    | none => (false, w)
    | some f =>
        if (w.files.get target).any fun g => g.stat.kind = .directory then (false, w)
        else (true, { w with files := (w.files.pop source).set target f })) false

/-! ### Saving -/

/-- What the machine does in a save: where `tempnam` makes its file, and how much of a write
reaches it. -/
structure Saving where
  directory : Str
  unique : Str
  reach : Nat

def Saving.temporary (e : Saving) : EntryPath := ⟨e.directory, ".settings-".toList ++ e.unique⟩

section Save

variable (F : Formats) (site : Site)

/-- What `pfb_settings_family_save` asks of the root it finds. -/
def rootIsSafe (s : Stat) : Run Bool := do
  if s.kind = .directory then
    if ← rootIsLink then return false else return site.isOwnRoot s
  else return false

def recheckRoot : Run Bool := do
  match ← lstatRoot with
  | none => return false
  | some s => rootIsSafe site s

/-- The root, made where there is none, and asked for twice. -/
def prepareRoot : Run Bool := do
  match ← lstatRoot with
  | none => if ← mkdirRoot site then recheckRoot site else return false
  | some s => if ← rootIsSafe site s then recheckRoot site else return false

/-- A slot that is there already must be a private file. -/
def slotIsSafe (slot : EntryPath) : Run Bool := do
  match ← lstat slot with
  | none => return true
  | some s =>
      if s.kind = .file then
        if ← isLink slot then return false else return site.isPrivate s
      else return false

def isPrivateFile (s : Option Stat) : Bool :=
  s.any fun s => s.kind = .file && site.isPrivate s

def abandon (temporary : EntryPath) : Run Bool := do
  let _ ← unlink temporary
  return false

/-- The document reaches the temporary file whole. -/
def writeExactly (e : Saving) (xml : Str) : Run Bool := do
  let written ← filePutContents e.temporary xml e.reach
  if written = some xml.length then
    return (← fileGetContents e.temporary) = some xml
  else return false

/-- The slot reads back as it was written. -/
def readsBack (slot : EntryPath) (xml : Str) : Run Bool := do
  if isPrivateFile site (← lstat slot) then return (← fileGetContents slot) = some xml
  else return false

def writeSlot (e : Saving) (slot : EntryPath) (xml : Str) : Run Bool := do
  if ← tempnam site e.temporary then
    if ← writeExactly e xml then
      if ← chmodPrivate e.temporary then
        if isPrivateFile site (← lstat e.temporary) then
          if ← rename e.temporary slot then readsBack site slot xml
          else abandon e.temporary
        else abandon e.temporary
      else abandon e.temporary
    else abandon e.temporary
  else return false

/-- The document that a save of these sections writes. -/
def document (family : Str) (owned : Sections) : Option Str :=
  F.dump family (F.base64Encode (F.serialize owned))

/-- `pfb_settings_family_save`. -/
def save (e : Saving) (family : Str) : Run Bool := do
  if (lookup family familyRank).isSome then
    let owned ← inspect fun w => ownedSections w.config
    if owned.nonempty then
      if ← prepareRoot site then
        if ← slotIsSafe site (site.slot family) then
          match document F family owned with
          | none | some [] => return false
          | some xml => writeSlot site e (site.slot family) xml
        else return false
      else return false
    else return true
  else return false

/-! ### Restoring -/

/-- What `pfb_settings_family_replace` asks of the root and of the slot. -/
def isRestorable (slot : EntryPath) (rootStat slotStat : Stat) : Run Bool := do
  if ← rootIsLink then return false
  else if rootStat.kind = .directory && site.isOwnRoot rootStat && slotStat.kind = .file then
    if ← isLink slot then return false else return site.isPrivate slotStat
  else return false

/-- `parse_xml_config`. -/
def parseSlot (slot : EntryPath) : Run (Option Sections) :=
  operation (fun w => ((w.files.get slot).bind fun f => F.parse f.content, w)) none

/-- The live sections give way to the rebuilt ones. -/
def install (owned : Sections) : Run Unit := do
  modify fun w => { w with
    config := w.config.set packagesKey (.array (rebuild (installedPackages w.config) owned)) }
  operation (fun w => ((), { w with config := F.written w.config })) ()

/-- `pfb_settings_family_replace`. -/
def replace (family : Str) : Run Bool := do
  if (lookup family familyRank).isSome then
    match ← lstat (site.slot family) with
    | none => return true
    | some slotStat =>
        match ← lstatRoot with
        | none => return false
        | some rootStat =>
            if ← isRestorable site (site.slot family) rootStat slotStat then
              match (← parseSlot F (site.slot family)).bind (snapshot F family) with
              | none => return false
              | some owned =>
                  install F owned
                  return true
            else return false
  else return false

end Save

end PfBlockerNG.SettingsFamily
