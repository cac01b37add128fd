import Mathlib.Data.List.Sort
import PfBlockerNG.AccessRules

/-!
The config the access rules come from: its rows and includes as the gateway reads them, and the
rules it keeps over reloads.
-/

namespace PfBlockerNG.AccessConfig

open PfBlockerNG.ByteStrings
open PfBlockerNG.Netip
open PfBlockerNG.OrderedDict
open PfBlockerNG.AccessRules

/-! ### What the code takes from outside -/

/-- Readers of netip, `filepath.Match` (none where the pattern is malformed), `filepath.Join` and
`%q`. -/
structure Library where
  parseAddr : Bytes → Option Addr
  parsePrefix : Bytes → Option (Addr × Nat)
  matchName : Bytes → Bytes → Option Bool
  join : Bytes → Bytes → Bytes
  quote : Bytes → Bytes

/-- `os.FileInfo`; `file` is what `os.SameFile` compares. -/
structure Info where
  file : Nat
  modTime : Int
  size : Nat
  mode : Nat
  deriving DecidableEq

def Info.isDir (info : Info) : Bool := info.mode.testBit 31

inductive StatError where
  | notExist
  | notDir
  | loop
  | other (text : Bytes)

structure OpenError where
  text : Bytes
  permission : Bool

/-- An open file: the bytes up to its end or to the read that fails. -/
structure File where
  info : Except Bytes Info
  content : Bytes
  failure : Option Bytes

structure FileSystem where
  stat : Bytes → Except StatError Info
  openFile : Bytes → Except OpenError File
  readdir : Bytes → Except Bytes (List Bytes)

/-! ### Rows -/

def aclActions : List (Bytes × AclAction) :=
  [(ascii "deny", .drop), (ascii "refuse", .refuse), (ascii "allow", .forward),
    (ascii "allow_snoop", .forward), (ascii "allow_setrd", .forward),
    (ascii "allow_cookie", .forward), (ascii "deny_non_local", .forward),
    (ascii "refuse_non_local", .forward)]

def aclKeys : List Bytes :=
  [ascii "access-control", ascii "access-control-view", ascii "access-control-tag",
    ascii "access-control-tag-action", ascii "access-control-tag-data"]

/-- `aclWords`: none where the part before the comment is not UTF-8. -/
def aclWords (line : Bytes) : Option (List Bytes) :=
  let line := (cut 35 line).1
  if (ByteArray.mk line.toArray).validateUTF8 then
    some ((line.splitOnP fun c => c = 32 || c = 9 || c = 13).filter (· ≠ []))
  else none

def unquote (s : Bytes) : Bytes :=
  match s with
  | [] => []
  | q :: rest =>
      if rest ≠ [] ∧ (q = 34 ∨ q = 39) ∧ rest.getLast? = some q then rest.dropLast else s

/-- `ruleHead`: keyword, netblock and the words after it. -/
def ruleHead : List Bytes → Option (Bytes × Bytes × List Bytes)
  | [] => none
  | word :: words =>
      let (key, glued, found) := cut 58 word
      if found = false ∨ key ∉ aclKeys then none
      else if glued ≠ [] then some (key, glued, words)
      else match words with
        | [] => none
        | netblock :: tail => some (key, netblock, tail)

def parseNetblock (l : Library) (s : Bytes) : Option Prefix :=
  if 47 ∈ s then (l.parsePrefix s).bind fun (a, n) => a.toPrefix n
  else (l.parseAddr s).bind fun a => if a.zone = [] then a.toPrefix a.bitLen else none

def parseAclLine (l : Library) (line : Bytes) : Option (Prefix × AclAction) := do
  let words ← aclWords line
  let (key, netblock, tail) ← ruleHead words
  match tail with
  | [action] =>
      if key = ascii "access-control" then
        let action ← lookup (unquote action) aclActions
        let p ← parseNetblock l (unquote netblock)
        return (p, action)
      else none
  | _ => none

def parseImplicitRow (l : Library) (line : Bytes) : Option Prefix := do
  let words ← aclWords line
  let (key, netblock, _) ← ruleHead words
  if key = ascii "access-control" then none else parseNetblock l (unquote netblock)

/-! ### Globs -/

/-- `readDirNames`. -/
def readDirNames (fs : FileSystem) (dir : Bytes) : Except Bytes (List Bytes) :=
  (fs.readdir dir).map fun names => names.mergeSort fun a b => decide (a ≤ b)

/-- `filepath.Split`, with the directory as `globFiles` goes on with it. -/
def splitPattern (pattern : Bytes) : Bytes × Bytes :=
  let file := (pattern.reverse.takeWhile (· ≠ 47)).reverse
  match pattern.take (pattern.length - file.length) with
  | [] => (ascii ".", file)
  | [47] => (ascii "/", file)
  | dir => (dir.dropLast, file)

/-- The names of one directory that a pattern matches. -/
def matchesIn (l : Library) (fs : FileSystem) (file dir : Bytes) : Except Bytes (List Bytes) :=
  match fs.stat dir with
  | .error (.other e) => .error e
  | .error _ => .ok []
  | .ok info =>
      if info.isDir = false then .ok []
      else (readDirNames fs dir).map fun names =>
        (names.filter fun name =>
          !((ascii ".").isPrefixOf name && !(ascii ".").isPrefixOf file) &&
            (l.matchName file name).getD false).map (l.join dir)

/-- `globFiles`; a directory with wildcards is shorter than its pattern. -/
def globWithin (l : Library) (fs : FileSystem) : Nat → Bytes → Except Bytes (List Bytes)
  | 0, _ => .ok []
  | left + 1, pattern => do
      if l.matchName pattern [] = none then throw (ascii "syntax error in pattern")
      let (dir, file) := splitPattern pattern
      let dirs ← if dir.any (· ∈ ascii "*?[\\") then globWithin l fs left dir else pure [dir]
      return (← dirs.mapM (matchesIn l fs file)).flatten

def globFiles (l : Library) (fs : FileSystem) (pattern : Bytes) : Except Bytes (List Bytes) :=
  globWithin l fs (pattern.length + 1) pattern

/-! ### The walk -/

def maxAclLine : Nat := 4096
def maxAclDepth : Nat := 100
def maxAclFiles : Nat := 4096

structure AclFile where
  path : Bytes
  info : Option Info

structure AclGlob where
  pattern : Bytes
  found : List Bytes
  failed : Bool

structure AclDeps where
  files : List AclFile := []
  globs : List AclGlob := []

/-- `confWalker`. -/
structure Walker where
  rows : Dict Prefix AclAction := Dict.empty
  deps : AclDeps := {}
  opened : Nat := 0
  implicit : List Prefix := []

namespace Walker

def addFile (w : Walker) (path : Bytes) (info : Option Info) : Walker :=
  { w with deps := { w.deps with files := w.deps.files ++ [⟨path, info⟩] } }

def addGlob (w : Walker) (glob : AclGlob) : Walker :=
  { w with deps := { w.deps with globs := w.deps.globs ++ [glob] } }

end Walker

/-- The terminated lines of a file that fit the reader. -/
def readable (content : Bytes) : List Bytes :=
  (content.splitOn 10).dropLast.filter fun line => line.length + 1 ≤ maxAclLine + 2

def trimLeft (s : Bytes) : Bytes := s.dropWhile fun c => c = 32 || c = 9

def includeTarget (l : Library) (source directive : Bytes) : Except Bytes Bytes :=
  let rest := trimLeft (cut 58 directive).2.1
  match rest with
  | 34 :: quoted =>
      let (target, _, found) := cut 34 quoted
      if found then .ok target
      else .error (source ++ ascii ": include: unterminated quote in " ++ l.quote directive)
  | _ => .ok (rest.takeWhile fun c => !(c = 32 || c = 9 || c = 13))

/-- `strings.ReplaceAll(target, "[!", "[^")`. -/
def negate : Bytes → Bytes
  | 91 :: 33 :: rest => 91 :: 94 :: negate rest
  | c :: rest => c :: negate rest
  | [] => []

section Walk

variable (l : Library) (fs : FileSystem)

/-- A walk of one file, given by its path; it may fail. -/
abbrev Walk := Bytes → Walker → Option Bytes × Walker

/-- The files an include names, one after the other. -/
def walkAll (sub : Walk) : List Bytes → Walker → Option Bytes × Walker
  | [], w => (none, w)
  | path :: paths, w =>
      match sub path w with
      | (some e, w) => (some e, w)
      | (none, w) => walkAll sub paths w

/-- `confWalker.include`. -/
def walkInclude (sub : Walk) (source directive : Bytes) (w : Walker) : Option Bytes × Walker :=
  match includeTarget l source directive with
  | .error e => (some e, w)
  | .ok target =>
      if target = [] then (some (source ++ ascii ": include without a path"), w)
      else if target.any (· ∈ ascii "\x7b~") then
        (some (source ++ ascii ": include " ++ l.quote target ++
          ascii ": brace and tilde patterns are not supported"), w)
      else if target.any (· ∈ ascii "*?[") then
        let pattern := negate target
        match globFiles l fs pattern with
        | .error e =>
            (some (source ++ ascii ": include " ++ l.quote target ++ ascii ": " ++ e),
              w.addGlob ⟨pattern, [], true⟩)
        | .ok found => walkAll sub found (w.addGlob ⟨pattern, found, false⟩)
      else sub target w

/-- `confWalker.line`. -/
def walkLine (sub : Walk) (source raw : Bytes) (w : Walker) : Option Bytes × Walker :=
  let line := trimLeft raw
  if (ascii "access-control:").isPrefixOf line then
    match parseAclLine l raw with
    | some (p, action) => (none, { w with rows := w.rows.set p action })
    | none => (none, w)
  else if (ascii "access-control-").isPrefixOf line then
    match parseImplicitRow l line with
    | some p => (none, { w with implicit := w.implicit ++ [p] })
    | none => (none, w)
  else if (ascii "include:").isPrefixOf line ∨ (ascii "include-toplevel:").isPrefixOf line then
    walkInclude l fs sub source line w
  else (none, w)

def walkLines (sub : Walk) (source : Bytes) : List Bytes → Walker → Option Bytes × Walker
  | [], w => (none, w)
  | raw :: rest, w =>
      match walkLine l fs sub source raw w with
      | (some e, w) => (some e, w)
      | (none, w) => walkLines sub source rest w

/-- `confWalker.file`, with the number of nested files that it may still open. -/
def walkFile : Nat → Walk
  | 0, path, w =>
      (some (path ++ ascii ": includes nest more than " ++ decimal maxAclDepth ++ ascii " deep"), w)
  | left + 1, path, w =>
      let w := { w with opened := w.opened + 1 }
      if maxAclFiles < w.opened then
        (some (path ++ ascii ": more than " ++ decimal maxAclFiles ++ ascii " files included"), w)
      else
        match fs.openFile path with
        | .error e =>
            let before := if e.permission then (fs.stat path).toOption else none
            (some e.text, w.addFile path before)
        | .ok file =>
            match file.info with
            | .error e => (some e, w)
            | .ok info =>
                match walkLines l fs (walkFile left) path (readable file.content)
                    (w.addFile path (some info)) with
                | (some e, w) => (some e, w)
                | (none, w) => (file.failure, w)

end Walk

/-! ### Loads -/

/-- `aclDeps.changed`. -/
def AclDeps.changed (l : Library) (fs : FileSystem) (deps : AclDeps) : Bool :=
  deps.files.any (fun f => decide ((fs.stat f.path).toOption ≠ f.info)) ||
    deps.globs.any fun g =>
      match globFiles l fs g.pattern with
      | .error _ => !g.failed || decide (g.found ≠ [])
      | .ok found => g.failed || decide (found ≠ g.found)

/-- `aclSnapshot`. -/
structure Snapshot where
  deps : AclDeps
  rules : AclRules
  broken : Bool

def walk (l : Library) (fs : FileSystem) (path : Bytes) : Option Bytes × Walker :=
  walkFile l fs (maxAclDepth + 1) path {}

/-- `ACL.load`. -/
def load (l : Library) (path : Bytes) (fs : FileSystem) (prev : Option Snapshot) : Snapshot :=
  match walk l fs path, prev with
  | (none, w), _ => ⟨w.deps, newAclRules (allowUnlisted w.rows w.implicit), false⟩
  | (some _, w), some ⟨_, rules, false⟩ => ⟨w.deps, rules, false⟩
  | (some _, w), _ => ⟨w.deps, ⟨0, Dict.empty, [], []⟩, true⟩

/-- `ACL.Refresh`: the files as they are when the dependencies are checked, and as they are read. -/
structure Refresh where
  check : FileSystem
  fs : FileSystem

def refresh (l : Library) (path : Bytes) (r : Refresh) (snap : Snapshot) : Snapshot :=
  if snap.deps.changed l r.check then load l path r.fs (some snap) else snap

/-- `ACL.Lookup`; no client is the zero address. -/
def Snapshot.lookup (snap : Snapshot) : Option Addr → AclAction
  | none => .forward
  | some client => if snap.broken then .forward else snap.rules.lookup client.unmap

/-! ### The rows of a config -/

section Rows

variable (l : Library) (fs : FileSystem)

/-- The files an include names, in the order they are read. -/
def included (directive : Bytes) : List Bytes :=
  match includeTarget l [] directive with
  | .error _ => []
  | .ok target =>
      if target.any (· ∈ ascii "*?[") then ((globFiles l fs (negate target)).toOption).getD []
      else [target]

/-- The rows of one line, with those of the files it includes. -/
def lineRows (sub : Bytes → List Row) (raw : Bytes) : List Row :=
  let line := trimLeft raw
  if (ascii "access-control:").isPrefixOf line then
    (parseAclLine l raw).toList.map fun (p, action) => .access p action
  else if (ascii "access-control-").isPrefixOf line then
    (parseImplicitRow l line).toList.map .implicit
  else if (ascii "include:").isPrefixOf line ∨ (ascii "include-toplevel:").isPrefixOf line then
    (included l fs line).flatMap sub
  else []

/-- The rows of a file in include order, down to a depth. -/
def fileRows : Nat → Bytes → List Row
  | 0, _ => []
  | left + 1, path =>
      match fs.openFile path with
      | .error _ => []
      | .ok file => (readable file.content).flatMap (lineRows l fs (fileRows left))

end Rows

/-- What a load reads when it succeeds. -/
def read (l : Library) (path : Bytes) (fs : FileSystem) : Option (List Row) :=
  match (walk l fs path).1 with
  | none => some (fileRows l fs (maxAclDepth + 1) path)
  | some _ => none

/-! ### The walk reads the rows -/

section Walk

variable {l : Library} {fs : FileSystem}

/-- From one walker to the other the given rows are read. -/
def Noted (w w' : Walker) (rows : List Row) : Prop :=
  (w'.rows, w'.implicit) = rows.foldl note (w.rows, w.implicit)

theorem Noted.append {w w' w'' : Walker} {rows rows' : List Row} (h : Noted w w' rows)
    (h' : Noted w' w'' rows') : Noted w w'' (rows ++ rows') := by
  unfold Noted at h h' ⊢
  rw [List.foldl_append, ← h, h']

/-- A walk without an error reads the rows that `rowsOf` gives the file. -/
def Reads (sub : Walk) (rowsOf : Bytes → List Row) : Prop :=
  ∀ path w w', sub path w = (none, w') → Noted w w' (rowsOf path)

variable {sub : Walk} {rowsOf : Bytes → List Row}

theorem walkAll_reads (hsub : Reads sub rowsOf) (paths : List Bytes) {w w' : Walker}
    (h : walkAll sub paths w = (none, w')) : Noted w w' (paths.flatMap rowsOf) := by
  induction paths generalizing w with
  | nil =>
      obtain rfl := (Prod.mk.inj h).2
      rfl
  | cons path paths ih =>
      rw [walkAll] at h
      split at h
      · cases h
      · next hpath => exact (hsub path _ _ hpath).append (ih h)

theorem includeTarget_source {source directive target : Bytes}
    (h : includeTarget l source directive = .ok target) (other : Bytes) :
    includeTarget l other directive = .ok target := by
  unfold includeTarget at h ⊢
  dsimp only at h ⊢
  generalize trimLeft (cut 58 directive).2.1 = rest at h ⊢
  split at h
  · split at h
    · next hfound => rwa [if_pos hfound]
    · cases h
  · exact h

theorem walkInclude_reads (hsub : Reads sub rowsOf) (source directive : Bytes) {w w' : Walker}
    (h : walkInclude l fs sub source directive w = (none, w')) :
    Noted w w' ((included l fs directive).flatMap rowsOf) := by
  unfold walkInclude at h
  unfold included
  split at h
  · cases h
  next target htarget =>
  rw [includeTarget_source htarget]
  dsimp only
  split at h
  · cases h
  split at h
  · cases h
  split at h
  · next hglob =>
      rw [if_pos hglob]
      dsimp only at h
      cases hfound : globFiles l fs (negate target) with
      | error e =>
          rw [hfound] at h
          cases h
      | ok found =>
          rw [hfound] at h
          have hall : walkAll sub found (w.addGlob ⟨negate target, found, false⟩) = (none, w') := h
          have hread := walkAll_reads hsub found hall
          exact hread
  · next hplain =>
      rw [if_neg hplain]
      have hread := hsub target _ _ h
      rwa [List.flatMap_singleton]

theorem walkLine_reads (hsub : Reads sub rowsOf) (source raw : Bytes) {w w' : Walker}
    (h : walkLine l fs sub source raw w = (none, w')) :
    Noted w w' (lineRows l fs rowsOf raw) := by
  unfold walkLine at h
  unfold lineRows
  dsimp only at h ⊢
  split
  · next hkey =>
      rw [if_pos hkey] at h
      cases hrow : parseAclLine l raw with
      | none =>
          rw [hrow] at h
          obtain rfl := (Prod.mk.inj h).2
          rfl
      | some row =>
          rw [hrow] at h
          obtain rfl := (Prod.mk.inj h).2
          rfl
  next hkey =>
  rw [if_neg hkey] at h
  split
  · next hkey =>
      rw [if_pos hkey] at h
      cases hrow : parseImplicitRow l (trimLeft raw) with
      | none =>
          rw [hrow] at h
          obtain rfl := (Prod.mk.inj h).2
          rfl
      | some p =>
          rw [hrow] at h
          obtain rfl := (Prod.mk.inj h).2
          rfl
  next hkey =>
  rw [if_neg hkey] at h
  split
  · next hkey =>
      rw [if_pos hkey] at h
      exact walkInclude_reads hsub source _ h
  · next hkey =>
      rw [if_neg hkey] at h
      obtain rfl := (Prod.mk.inj h).2
      rfl

theorem walkLines_reads (hsub : Reads sub rowsOf) (source : Bytes) (lines : List Bytes)
    {w w' : Walker} (h : walkLines l fs sub source lines w = (none, w')) :
    Noted w w' (lines.flatMap (lineRows l fs rowsOf)) := by
  induction lines generalizing w with
  | nil =>
      obtain rfl := (Prod.mk.inj h).2
      rfl
  | cons raw rest ih =>
      rw [walkLines] at h
      split at h
      · cases h
      · next hline => exact (walkLine_reads hsub source raw hline).append (ih h)

theorem walkFile_reads (left : Nat) : Reads (walkFile l fs left) (fileRows l fs left) := by
  induction left with
  | zero =>
      intro path w w' h
      cases h
  | succ left ih =>
      intro path w w' h
      rw [walkFile] at h
      dsimp only at h
      rw [fileRows]
      split at h
      · cases h
      cases hopen : fs.openFile path with
      | error e =>
          rw [hopen] at h
          cases h
      | ok file =>
          rw [hopen] at h
          dsimp only at h ⊢
          split at h
          · cases h
          split at h
          · cases h
          · next hlines =>
              obtain rfl := (Prod.mk.inj h).2
              have hread := walkLines_reads ih path _ hlines
              exact hread

end Walk

/-! ### Loads and refreshes -/

variable (l : Library) (path : Bytes)

/-- A snapshot answers as the rows of the last good load decide; before one, it forwards all. -/
def Answers (snap : Snapshot) : Option (List Row) → Prop
  | none => snap.broken = true
  | some rows => snap.broken = false ∧
      ∀ client action, snap.rules.lookup client.unmap = action ↔ Decides rows client action

variable {l path}

theorem read_eq_some {fs : FileSystem} {rows : List Row} (h : read l path fs = some rows) :
    ∃ w, walk l fs path = (none, w) ∧
      ∀ p, (allowUnlisted (allowUnlisted w.rows w.implicit) unboundLocalhost).get p =
        verdict rows p := by
  unfold read at h
  cases hwalk : walk l fs path with
  | mk failure w =>
      rw [hwalk] at h
      cases failure with
      | some e => cases h
      | none =>
          obtain rfl := Option.some.inj h
          have hread : (w.rows, w.implicit) =
              (fileRows l fs (maxAclDepth + 1) path).foldl note (Dict.empty, []) :=
            walkFile_reads _ path _ _ hwalk
          refine ⟨w, rfl, fun p => ?_⟩
          rw [← get_table, ← hread]

theorem read_eq_none {fs : FileSystem} (h : read l path fs = none) :
    ∃ e w, walk l fs path = (some e, w) := by
  unfold read at h
  cases hwalk : walk l fs path with
  | mk failure w =>
      rw [hwalk] at h
      cases failure with
      | none => cases h
      | some e => exact ⟨e, w, rfl⟩

theorem load_answers (l : Library) (path : Bytes) (fs : FileSystem) (prev : Option Snapshot)
    (good : Option (List Row))
    (hprev : ∀ snap, prev = some snap → Answers snap good) (hfirst : prev = none → good = none) :
    Answers (load l path fs prev) ((read l path fs).or good) := by
  cases hread : read l path fs with
  | some rows =>
      obtain ⟨w, hwalk, htable⟩ := read_eq_some hread
      unfold load
      rw [hwalk]
      exact ⟨rfl, fun client action => lookup_iff htable client action⟩
  | none =>
      obtain ⟨e, w, hwalk⟩ := read_eq_none hread
      unfold load
      rw [hwalk, Option.none_or]
      cases prev with
      | none =>
          rw [hfirst rfl]
          rfl
      | some snap =>
          have hanswers := hprev snap rfl
          obtain ⟨deps, rules, broken⟩ := snap
          cases good with
          | none =>
              obtain rfl : broken = true := hanswers
              rfl
          | some rows =>
              obtain rfl : broken = false := hanswers.1
              exact hanswers

theorem refresh_answers (r : Refresh) {snap : Snapshot} {good : Option (List Row)}
    (h : Answers snap good) :
    Answers (refresh l path r snap)
      (if snap.deps.changed l r.check then (read l path r.fs).or good else good) := by
  unfold refresh
  split
  · refine load_answers l path r.fs (some snap) good ?_ (by rintro ⟨⟩)
    rintro _ ⟨⟩
    exact h
  · exact h

/-- The snapshot of an ACL made on one file system and then refreshed, and the rows that its last
good load read. -/
def after (l : Library) (path : Bytes) (first : FileSystem) (refreshes : List Refresh) :
    Snapshot × Option (List Row) :=
  refreshes.foldl (fun (snap, good) r => (refresh l path r snap,
    if snap.deps.changed l r.check then (read l path r.fs).or good else good))
    (load l path first none, read l path first)

theorem after_answers (l : Library) (path : Bytes) (first : FileSystem)
    (refreshes : List Refresh) :
    Answers (after l path first refreshes).1 (after l path first refreshes).2 := by
  have hfirst : Answers (load l path first none) (read l path first) := by
    have hload := load_answers l path first none none (by rintro _ ⟨⟩) fun _ => rfl
    rwa [Option.or_none] at hload
  unfold after
  generalize load l path first none = snap at hfirst ⊢
  generalize read l path first = good at hfirst ⊢
  induction refreshes generalizing snap good with
  | nil => exact hfirst
  | cons r refreshes ih => exact ih _ _ (refresh_answers r hfirst)

/-- The longest match of the rows decides every client; without rows every client is forwarded. -/
def Follows (snap : Snapshot) : Option (List Row) → Prop
  | none => ∀ client, snap.lookup client = .forward
  | some rows => ∀ client action, snap.lookup (some client) = action ↔ Decides rows client action

theorem Answers.follows {snap : Snapshot} {good : Option (List Row)} (h : Answers snap good) :
    Follows snap good := by
  cases good with
  | none =>
      intro client
      have hbroken : snap.broken = true := h
      cases client with
      | none => rfl
      | some client => exact if_pos hbroken
  | some rows =>
      intro client action
      show (if snap.broken then AclAction.forward else snap.rules.lookup client.unmap) = _ ↔ _
      rw [h.1]
      exact h.2 client action

/-- A failed load keeps the answers of good rules. -/
theorem lookup_refresh_of_failed {snap : Snapshot} (hgood : snap.broken = false) (r : Refresh)
    (hfailed : read l path r.fs = none) (client : Option Addr) :
    (refresh l path r snap).lookup client = snap.lookup client := by
  unfold refresh
  split
  · obtain ⟨e, w, hwalk⟩ := read_eq_none hfailed
    obtain ⟨deps, rules, broken⟩ := snap
    obtain rfl : broken = false := hgood
    unfold load
    rw [hwalk]
    cases client <;> rfl
  · rfl

/-- Over any refreshes, an ACL follows the rows that the last good load read, and a failed load
changes no answer. -/
theorem lookup_after (l : Library) (path : Bytes) (first : FileSystem) (refreshes : List Refresh) :
    let (snap, good) := after l path first refreshes
    Follows snap good ∧ ∀ r client, good ≠ none → read l path r.fs = none →
      (refresh l path r snap).lookup client = snap.lookup client := by
  have hanswers := after_answers l path first refreshes
  generalize after l path first refreshes = state at hanswers
  obtain ⟨snap, good⟩ := state
  refine ⟨hanswers.follows, fun r client hsome hfailed => ?_⟩
  obtain ⟨rows, rfl⟩ := Option.ne_none_iff_exists'.mp hsome
  exact lookup_refresh_of_failed hanswers.1 r hfailed client

end PfBlockerNG.AccessConfig
