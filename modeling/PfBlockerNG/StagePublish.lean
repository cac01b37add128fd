import PfBlockerNG.DirectoryFiles

/-!
Publication of an extracted directory beside the one in service: the staged copy, the two renames,
the removal of the backup, and the recovery of what an interrupted publication left.
-/

namespace PfBlockerNG.StagePublish

open PfBlockerNG.Strings
open PfBlockerNG.CrashRuns
open PfBlockerNG.CrashRuns.Process
open PfBlockerNG.DirectoryFiles

def backupStem : Str := ".pfbstagebak2_".toList

def stagingStem : Str := ".pfbstagedir_".toList

/-- Where the previous publication stands while a new one takes its place. -/
def backupPath (target : EntryPath) : EntryPath := ⟨target.directory, backupStem ++ target.name⟩

/-- `is_dir($path) && !is_link($path)`. -/
def isOwnDir (x : Place) : Run Bool := do
  if ← isDir x then return !(← isLink x) else return false

/-- `file_exists($path) || is_link($path)`. -/
def isTaken (x : Place) : Run Bool := do
  if ← fileExists x then return true else isLink x

/-- `$entry->isDir() && !$entry->isLink() ? @rmdir($entry_path) : @unlink($entry_path)`. -/
def delete (x : Place) : Run Bool := do
  if ← isOwnDir x then rmdir x else unlink x

/-- One turn of the loop of `pfb_stage_publish_dir_remove`: whether it goes on. -/
def removeEntry (x : Place) : Run Bool := do
  if ← delete x then return true else return !(← isTaken x)

/-- `pfb_stage_publish_dir_remove`. File flags are no part of an entry, so the call that clears
them is left out. -/
def remove (p : EntryPath) : Run Bool := do
  if ← isOwnDir p.place then
    match ← opendir p with
    | none => return false
    | some places =>
        if ← places.allM fun inner => removeEntry ⟨p, inner⟩ then
          if ← rmdir p.place then return true else return !(← isDir p.place)
        else return false
  else return false

/-- A backup against its target: whether it counts as a success. -/
def recoverBackup (backup target : EntryPath) : Run Bool := do
  if ← isOwnDir backup.place then
    if ← isTaken target.place then
      if ← isOwnDir target.place then remove backup else return false
    else rename backup target
  else return true

/-- One turn of the loop of `pfb_stage_publish_dir_recover`. -/
def recoverEntry (directory entry : Str) : Run Bool :=
  if entry = ['.'] ∨ entry = ['.', '.'] ∨ startsWith backupStem entry = false then pure true
  else if entry.drop backupStem.length = [] then pure true
  else recoverBackup ⟨directory, entry⟩ ⟨directory, entry.drop backupStem.length⟩

/-- `pfb_stage_publish_dir_recover`. -/
def recover (directory : Str) : Run Bool := do
  match ← scandir directory with
  | none => return false
  | some entries =>
      entries.foldlM (fun success entry => do
        let kept ← recoverEntry directory entry
        return success && kept) true

/-- A call of `pfb_stage_publish_dir`, with what the rest of the system does in it: the name
`tempnam` finds, what the extraction leaves at the staging path and returns, and what the clean-up
of the staging path leaves there. -/
structure Publication where
  target : EntryPath
  stagingDirectory : Str
  unique : Str
  extracted : Option Entry
  code : Int
  leftover : Option Entry

namespace Publication

def staged (c : Publication) : EntryPath := ⟨c.stagingDirectory, stagingStem ++ c.unique⟩

/-- `pfb_download_extraction_succeeded`. -/
def succeeded (code : Int) : Bool := code == 0

/-- `rmdir_recursive` of the staging path, and the failure it is followed by. -/
def discard (c : Publication) : Run Bool := do
  let _ ← rmdirRecursive c.staged c.leftover
  return false

/-- The same of a staging path that could not be prepared. -/
def discardUnprepared (c : Publication) : Run Bool := do
  if ← isDir c.staged.place then c.discard
  else
    let _ ← unlinkIfExists c.staged c.leftover
    return false

/-- The staging file becomes a directory. -/
def prepare (c : Publication) : Run Bool := do
  if ← unlink c.staged.place then
    if ← mkdir c.staged then chmod c.staged else return false
  else return false

def extract (c : Publication) : Run Int :=
  operation (fun w => (c.code, w.put c.staged c.extracted)) (-1)

/-- `is_link($target) || (file_exists($target) && !is_dir($target))`. -/
def isForeign (target : Place) : Run Bool := do
  if ← isLink target then return true
  else if ← fileExists target then return !(← isDir target) else return false

/-- The previous publication moves aside: whether the swap may go on, and whether there was one. -/
def moveAside (target : EntryPath) : Run (Bool × Bool) := do
  if ← isDir target.place then
    if ← isTaken (backupPath target).place then return (false, true)
    else return (← rename target (backupPath target), true)
  else return (true, false)

/-- The staged directory takes the target's place. -/
def swap (c : Publication) (hadTarget : Bool) : Run Bool := do
  if ← rename c.staged c.target then
    if hadTarget then remove (backupPath c.target) else return true
  else
    if hadTarget then
      let _ ← recover c.target.directory
      c.discard
    else c.discard

/-- `pfb_stage_publish_dir` from the extraction on. -/
def publishStaged (c : Publication) : Run Bool := do
  if succeeded (← c.extract) then
    if ← isForeign c.target.place then c.discard
    else
      let aside ← moveAside c.target
      if aside.1 then c.swap aside.2 else c.discard
  else c.discard

/-- `pfb_stage_publish_dir`. -/
def publish (c : Publication) : Run Bool := do
  if ← recover c.target.directory then
    match ← tempnam c.staged with
    | none => return false
    | some _ => if ← c.prepare then c.publishStaged else c.discardUnprepared
  else return false

end Publication

/-- A call made of this code in one process, with what happens to its operations. -/
inductive Call where
  | publish (c : Publication) (s : Script)
  | recover (directory : Str) (s : Script)

/-- What a call leaves, wherever its process ended. -/
def Call.after (w : World) : Call → World
  | .publish c s => (c.publish s w).state
  | .recover directory s => (StagePublish.recover directory s w).state

def afterAll (w : World) (calls : List Call) : World := calls.foldl Call.after w

end PfBlockerNG.StagePublish
