import PfBlockerNG.ShellText
import PfBlockerNG.Suppression
import Mathlib.Data.List.SplitBy

/-!
The masterfile holds every row of the deny lists behind the name of its list. `remove()` takes lists
out of it and `suppress()` replaces the rows of one list.
-/

namespace PfBlockerNG.Masterfile

open PfBlockerNG.Strings
open PfBlockerNG.PyText
open PfBlockerNG.ShellText
open PfBlockerNG.Suppression

/-- The characters the caller lets through in the name of a list. -/
def isNameChar (c : Char) : Bool := c.isAlphanum || c == '_' || c == '-'

/-- The name of a masterfile line. -/
def aliasOf (l : Str) : Str := l.takeWhile (· != ' ')

/-- `grep` for a name, which has no special character. -/
def grep (p : Str) (ls : List Str) : List Str := ls.filter (fun l => decide (p <:+: l))

/-- `grep "^name[[:space:]]"`. -/
def grepAlias (name : Str) (ls : List Str) : List Str :=
  ls.filter (fun l => startsWith name l && (l.drop name.length).head?.any isSpaceC)

/-- `cut -d ' ' -f2`. -/
def cut2 (l : Str) : Str := (l.splitOn ' ')[1]?.getD l

inductive Folder where
  | orig
  | deny
  | match
  | permit
  | native
  deriving DecidableEq

/-- The masterfile, its second column and the names of the list files. A file that was removed
reads as an empty one. -/
structure Lists where
  masterfile : List Str
  mastercat : List Str
  files : Folder → List Str

/-- A path separator or a traversal sequence. -/
def isPath (s : Str) : Bool := '/' ∈ s || decide (['.', '.'] <:+: s)

/-- `${i%*,}`. -/
def stripComma (i : Str) : Str := if i.getLast? = some ',' then i.dropLast else i

/-- `sed 's/,/, /g'`. -/
def spaceCommas (s : Str) : Str := s.flatMap fun c => if c = ',' then [',', ' '] else [c]

/-- The headers `remove` runs on. -/
def headersOf (arg : Str) : List Str :=
  ((words (spaceCommas arg)).map stripComma).filter fun header => !isPath header && header ≠ []

/-- The masterfile without the rows of a header. -/
def removeRows (masterfile : List Str) (header : Str) : List Str :=
  if grep (header ++ [' ']) masterfile = [] then masterfile
  else awkExclude (grepAlias header masterfile) masterfile

def removeHeader (d : Lists) (header : Str) : Lists :=
  { d with
    masterfile := removeRows d.masterfile header
    files := fun folder => (d.files folder).filter fun name => !startsWith header name }

/-- `remove()`. -/
def remove (name arg : Str) (d : Lists) : Lists :=
  if isPath name then d
  else
    let d' := (headersOf arg).foldl removeHeader d
    { d' with mastercat := d'.masterfile.map cut2 }

/-- `iprange A --except B`, `none` when it fails. -/
abbrev IprangeRun := List Str → List Str → Option (List Str)

/-- The list of a feed, and the masterfile with its second column. -/
structure Suppressed where
  list : List Str
  masterfile : List Str
  mastercat : List Str

/-- `suppress()`, over the sorted suppression lines. -/
def suppress (iprange : IprangeRun) (data : List Str) (name : Str) (dedup : Bool)
    (s : Suppressed) : Suppressed :=
  if data.all List.isEmpty || name = [] || name = "suppressheader".toList then s
  else
    let list := (iprange (s.list.filter isMemberLine) (data.filter pfbIsCidrToken)).getD s.list
    if dedup && grep name s.masterfile ≠ [] then
      let masterfile := awkExclude (grepAlias name s.masterfile) s.masterfile ++
        list.map (name ++ ' ' :: ·)
      { list, masterfile, mastercat := masterfile.map cut2 }
    else { s with list }

/-- A masterfile line: a name, a blank and a row. -/
def IsRow (l : Str) : Prop :=
  ∃ name row, name ≠ [] ∧ name.all isNameChar = true ∧ ' ' ∉ row ∧ l = name ++ ' ' :: row

/-- The part of a file name before its first dot. -/
def stem (name : Str) : Str := name.takeWhile (· != '.')

/-- The header has a line of its own, or no line's name ends with it. -/
def Clear (masterfile : List Str) (header : Str) : Prop :=
  (∃ l ∈ masterfile, aliasOf l = header) ∨ ∀ l ∈ masterfile, ¬ header <:+ aliasOf l

/-- At its turn every header is clear. -/
def Unshadowed (masterfile : List Str) (headers : List Str) : Prop :=
  ∀ earlier header later, headers = earlier ++ header :: later →
    Clear (masterfile.filter (aliasOf · ∉ earlier)) header

theorem not_mem_of_isName {name : Str} (h : name.all isNameChar = true) {c : Char}
    (hc : isNameChar c = false) : c ∉ name := by
  intro hmem
  rw [List.all_eq_true.mp h c hmem] at hc
  cases hc

theorem aliasOf_append {name : Str} (h : ' ' ∉ name) (row : Str) :
    aliasOf (name ++ ' ' :: row) = name := by
  rw [aliasOf, List.takeWhile_append_of_pos fun c hc => ?_]
  · simp
  · rw [bne_iff_ne]
    rintro rfl
    exact h hc

theorem isNameChar_of_isSpaceC {c : Char} (h : isSpaceC c = true) : isNameChar c = false := by
  have hbound : c.toNat ≤ 32 := by
    rw [isSpaceC, Bool.or_eq_true, beq_iff_eq, Bool.and_eq_true, decide_eq_true_eq,
      decide_eq_true_eq] at h
    rcases h with rfl | h
    · decide
    · omega
  rw [isNameChar, Bool.eq_false_iff]
  intro hname
  rw [Bool.or_eq_true, Bool.or_eq_true, beq_iff_eq, beq_iff_eq] at hname
  rcases hname with (hname | rfl) | rfl
  · simp only [Char.isAlphanum, Char.isAlpha, Char.isUpper, Char.isLower, Char.isDigit,
      Bool.or_eq_true, Bool.and_eq_true, decide_eq_true_eq, ge_iff_le, UInt32.le_iff_toNat_le]
      at hname
    change _ at hbound
    rcases hname with (⟨hlow, -⟩ | ⟨hlow, -⟩) | ⟨hlow, -⟩ <;>
      exact absurd (hlow.trans hbound) (by decide)
  · exact absurd hbound (by decide)
  · exact absurd hbound (by decide)

theorem takeWhile_name {name : Str} (h : name.all isNameChar = true) {c : Char}
    (hc : isNameChar c = false) (rest : Str) :
    (name ++ c :: rest).takeWhile isNameChar = name := by
  rw [List.takeWhile_append_of_pos (List.all_eq_true.mp h)]
  simp [hc]

/-- The anchored pattern picks the lines of the name. -/
theorem grepAlias_eq {ls : List Str} (hrows : ∀ l ∈ ls, IsRow l) {header : Str}
    (hheader : header.all isNameChar = true) :
    grepAlias header ls = ls.filter (aliasOf · = header) := by
  refine List.filter_congr fun l hl => ?_
  obtain ⟨name, row, -, hname, -, rfl⟩ := hrows l hl
  have hblank := not_mem_of_isName hname (c := ' ') (by decide)
  rw [aliasOf_append hblank, Bool.eq_iff_iff, Bool.and_eq_true, decide_eq_true_eq]
  constructor
  · rintro ⟨hstart, hspace⟩
    obtain ⟨rest, hrest⟩ := List.isPrefixOf_iff_prefix.mp hstart
    obtain ⟨c, hc, hspace⟩ := (Option.any_eq_true _ _).mp hspace
    rw [← hrest, List.drop_left] at hc
    obtain ⟨rest', rfl⟩ := List.head?_eq_some_iff.mp hc
    have htake := takeWhile_name hheader (isNameChar_of_isSpaceC hspace) rest'
    rw [hrest, takeWhile_name hname (by decide)] at htake
    exact htake
  · rintro rfl
    refine ⟨List.isPrefixOf_iff_prefix.mpr (List.prefix_append _ _), ?_⟩
    rw [List.drop_left]
    rfl

/-- The presence guard sees every name that ends with the header. -/
theorem guard_iff {l header : Str} (hrow : IsRow l) :
    header ++ [' '] <:+: l ↔ header <:+ aliasOf l := by
  obtain ⟨name, row, -, hname, hrowblank, rfl⟩ := hrow
  have hblank := not_mem_of_isName hname (c := ' ') (by decide)
  rw [aliasOf_append hblank]
  constructor
  · rintro ⟨front, rest, heq⟩
    have hshape : (front ++ header) ++ ' ' :: rest = name ++ ' ' :: row := by
      rw [← heq]
      simp
    have hcount := congrArg (List.count ' ') hshape
    rw [List.count_append, List.count_cons_self, @List.count_append _ _ _ name,
      List.count_cons_self, List.count_eq_zero.mpr hblank, List.count_eq_zero.mpr hrowblank]
      at hcount
    have hfree : ' ' ∉ front ++ header := List.count_eq_zero.mp (by omega)
    have hleft := aliasOf_append hfree rest
    rw [hshape, aliasOf_append hblank] at hleft
    exact ⟨front, hleft.symm⟩
  · rintro ⟨front, rfl⟩
    exact ⟨front, row, by simp⟩

theorem isRow_filter {ls : List Str} (hrows : ∀ l ∈ ls, IsRow l) (p : Str → Bool) :
    ∀ l ∈ ls.filter p, IsRow l := fun l hl => hrows l (List.mem_filter.mp hl).1

/-- With a line of the alias among the rows the set difference drops the lines of the alias. -/
theorem awkExclude_alias {ls : List Str} {header : Str} (h : ∃ l ∈ ls, aliasOf l = header) :
    awkExclude (ls.filter (aliasOf · = header)) ls = ls.filter (aliasOf · ≠ header) := by
  obtain ⟨l, hl, heq⟩ := h
  have hmem : l ∈ ls.filter (aliasOf · = header) :=
    List.mem_filter.mpr ⟨hl, decide_eq_true heq⟩
  rw [awkExclude, if_neg (List.ne_nil_of_mem hmem)]
  refine List.filter_congr fun l' hl' => ?_
  rw [Bool.eq_iff_iff, decide_eq_true_eq, decide_eq_true_eq, List.mem_filter, decide_eq_true_eq,
    not_and]
  exact ⟨fun h => h hl', fun h _ => h⟩

theorem removeRows_of_clear {ls : List Str} (hrows : ∀ l ∈ ls, IsRow l) {header : Str}
    (hheader : header.all isNameChar = true) (hclear : Clear ls header) :
    removeRows ls header = ls.filter (aliasOf · ≠ header) := by
  rw [removeRows, grepAlias_eq hrows hheader]
  by_cases hown : ∃ l ∈ ls, aliasOf l = header
  · rw [awkExclude_alias hown, if_neg]
    obtain ⟨l, hl, rfl⟩ := hown
    refine List.ne_nil_of_mem (List.mem_filter.mpr ⟨hl, decide_eq_true ?_⟩)
    exact (guard_iff (hrows l hl)).mpr (List.suffix_refl _)
  · have hnone := hclear.resolve_left hown
    rw [if_pos]
    · refine (List.filter_eq_self.mpr fun l hl => decide_eq_true ?_).symm
      exact fun heq => hown ⟨l, hl, heq⟩
    · refine List.filter_eq_nil_iff.mpr fun l hl => ?_
      rw [decide_eq_true_eq, guard_iff (hrows l hl)]
      exact hnone l hl

theorem removeRows_of_not_clear {ls : List Str} (hrows : ∀ l ∈ ls, IsRow l) {header : Str}
    (hheader : header.all isNameChar = true) (hclear : ¬ Clear ls header) :
    removeRows ls header = [] := by
  rw [Clear, not_or] at hclear
  obtain ⟨hown, hsome⟩ := hclear
  have hnil : ls.filter (aliasOf · = header) = [] := by
    refine List.filter_eq_nil_iff.mpr fun l hl => ?_
    rw [decide_eq_true_eq]
    exact fun heq => hown ⟨l, hl, heq⟩
  rw [removeRows, grepAlias_eq hrows hheader, hnil, if_neg]
  · rfl
  · push Not at hsome
    obtain ⟨l, hl, hends⟩ := hsome
    refine List.ne_nil_of_mem (List.mem_filter.mpr ⟨hl, decide_eq_true ?_⟩)
    exact (guard_iff (hrows l hl)).mpr hends

theorem filter_cons_alias (ls : List Str) (header : Str) (earlier : List Str) :
    (ls.filter (aliasOf · ≠ header)).filter (aliasOf · ∉ earlier) =
      ls.filter (aliasOf · ∉ header :: earlier) := by
  rw [List.filter_filter]
  refine List.filter_congr fun l _ => ?_
  rw [Bool.eq_iff_iff, Bool.and_eq_true, decide_eq_true_eq, decide_eq_true_eq, decide_eq_true_eq,
    List.mem_cons, not_or]
  exact and_comm

theorem unshadowed_cons {ls : List Str} {header : Str} {headers : List Str} :
    Unshadowed ls (header :: headers) ↔
      Clear ls header ∧ Unshadowed (ls.filter (aliasOf · ≠ header)) headers := by
  constructor
  · intro h
    refine ⟨?_, fun earlier header' later heq => ?_⟩
    · have hfirst := h [] header headers rfl
      rwa [List.filter_eq_self.mpr fun l _ => decide_eq_true List.not_mem_nil] at hfirst
    · have hlater := h (header :: earlier) header' later (by rw [heq, List.cons_append])
      rwa [filter_cons_alias]
  · rintro ⟨hclear, h⟩ earlier header' later heq
    cases earlier with
    | nil =>
        rw [List.nil_append, List.cons.injEq] at heq
        rwa [← heq.1, List.filter_eq_self.mpr fun l _ => decide_eq_true List.not_mem_nil]
    | cons first earlier =>
        rw [List.cons_append, List.cons.injEq] at heq
        rw [← filter_cons_alias, ← heq.1]
        exact h earlier header' later heq.2

theorem foldl_removeRows_nil (headers : List Str) : headers.foldl removeRows [] = [] := by
  induction headers with
  | nil => rfl
  | cons header headers ih => exact ih

/-- A header that is not clear at its turn empties the masterfile for good. -/
theorem foldl_removeRows {ls : List Str} (hrows : ∀ l ∈ ls, IsRow l) {headers : List Str}
    (hheaders : ∀ header ∈ headers, header.all isNameChar = true) :
    (Unshadowed ls headers →
        headers.foldl removeRows ls = ls.filter (aliasOf · ∉ headers)) ∧
      (¬ Unshadowed ls headers → headers.foldl removeRows ls = []) := by
  induction headers generalizing ls with
  | nil =>
      refine ⟨fun _ => ?_, fun h => (h ?_).elim⟩
      · exact (List.filter_eq_self.mpr fun l _ => decide_eq_true List.not_mem_nil).symm
      · rintro (_ | ⟨_, _⟩) header later heq <;> cases heq
  | cons header headers ih =>
      have hheader := hheaders header List.mem_cons_self
      rw [unshadowed_cons, List.foldl_cons]
      by_cases hclear : Clear ls header
      · rw [removeRows_of_clear hrows hheader hclear, ← filter_cons_alias]
        have hrest := ih (isRow_filter hrows fun l => decide (aliasOf l ≠ header))
          fun h hh => hheaders h (List.mem_cons_of_mem _ hh)
        exact ⟨fun h => hrest.1 h.2, fun h => hrest.2 fun hun => h ⟨hclear, hun⟩⟩
      · refine ⟨fun h => (hclear h.1).elim, fun _ => ?_⟩
        rw [removeRows_of_not_clear hrows hheader hclear, foldl_removeRows_nil]

theorem foldl_removeHeader (headers : List Str) (d : Lists) :
    (headers.foldl removeHeader d).masterfile = headers.foldl removeRows d.masterfile ∧
      ∀ folder name, name ∈ (headers.foldl removeHeader d).files folder ↔
        name ∈ d.files folder ∧ ∀ header ∈ headers, ¬ header <+: name := by
  induction headers generalizing d with
  | nil => simp
  | cons header headers ih =>
      obtain ⟨hrows, hfiles⟩ := ih (removeHeader d header)
      refine ⟨hrows, fun folder name => ?_⟩
      rw [List.foldl_cons, hfiles]
      simp only [removeHeader, List.mem_filter, Bool.not_eq_true', startsWith,
        List.forall_mem_cons, ← Bool.not_eq_true, List.isPrefixOf_iff_prefix, and_assoc]

/-- A name without a dot begins a file name exactly when it begins its stem. -/
theorem prefix_stem_iff {header name : Str} (h : header.all isNameChar = true) :
    header <+: stem name ↔ header <+: name := by
  constructor
  · exact fun hstart => hstart.trans (List.takeWhile_prefix _)
  · rintro ⟨rest, rfl⟩
    rw [stem, List.takeWhile_append_of_pos fun c hc => ?_]
    · exact List.prefix_append _ _
    · rw [bne_iff_ne]
      rintro rfl
      exact not_mem_of_isName h (by decide) hc

/-- The rows of the headers are gone, the other lines stand in their order, and a deleted list file
belongs to one of the headers. -/
def Removes (d : Lists) (headers : List Str) (d' : Lists) : Prop :=
  d'.masterfile = d.masterfile.filter (aliasOf · ∉ headers) ∧
    ∀ folder, ∀ name ∈ d.files folder, name ∉ d'.files folder → stem name ∈ headers

/-- The lines of the name are replaced by the rows of its list, when it has any. -/
def Replaces (name : Str) (s s' : Suppressed) : Prop :=
  s'.masterfile =
    if s.masterfile.any (aliasOf · = name) then
      s.masterfile.filter (aliasOf · ≠ name) ++ s'.list.map (name ++ ' ' :: ·)
    else s.masterfile

theorem remove_removes_iff {name arg : Str} {d : Lists} (hname : isPath name = false)
    (hheaders : ∀ header ∈ headersOf arg, header.all isNameChar = true)
    (hrows : ∀ l ∈ d.masterfile, IsRow l) :
    Removes d (headersOf arg) (remove name arg d) ↔
      ((∀ l ∈ d.masterfile, aliasOf l ∈ headersOf arg) ∨
        Unshadowed d.masterfile (headersOf arg)) ∧
      ∀ folder, ∀ file ∈ d.files folder, stem file ∉ headersOf arg →
        ∀ header ∈ headersOf arg, ¬ header <+: stem file := by
  obtain ⟨hmaster, hfiles⟩ := foldl_removeHeader (headersOf arg) d
  obtain ⟨hclear, hshadowed⟩ := foldl_removeRows hrows hheaders
  unfold Removes remove
  rw [hname]
  simp only [Bool.false_eq_true, if_false, hmaster, hfiles]
  refine and_congr ?_ ?_
  · constructor
    · intro heq
      by_cases hun : Unshadowed d.masterfile (headersOf arg)
      · exact Or.inr hun
      · refine Or.inl fun l hl => ?_
        rw [hshadowed hun] at heq
        have hnone := List.filter_eq_nil_iff.mp heq.symm l hl
        rwa [decide_eq_true_eq, not_not] at hnone
    · intro h
      by_cases hun : Unshadowed d.masterfile (headersOf arg)
      · exact hclear hun
      · rw [hshadowed hun]
        refine (List.filter_eq_nil_iff.mpr fun l hl => ?_).symm
        rw [decide_eq_true_eq, not_not]
        exact h.resolve_right hun l hl
  · refine forall_congr' fun folder => forall_congr' fun file => forall_congr' fun hfile => ?_
    constructor
    · intro h hstem header hheader hstart
      refine hstem (h fun hkept => hkept.2 header hheader ?_)
      exact (prefix_stem_iff (hheaders header hheader)).mp hstart
    · intro h hgone
      by_contra hstem
      refine hgone ⟨hfile, fun header hheader hstart => ?_⟩
      exact h hstem header hheader ((prefix_stem_iff (hheaders header hheader)).mpr hstart)

theorem suppress_replaces_iff (iprange : IprangeRun) {data : List Str} {name : Str}
    {s : Suppressed} (hdata : data.all List.isEmpty = false) (hne : name ≠ [])
    (hheader : name ≠ "suppressheader".toList) (hname : name.all isNameChar = true)
    (hrows : ∀ l ∈ s.masterfile, IsRow l) :
    Replaces name s (suppress iprange data name true s) ↔
      (∃ l ∈ s.masterfile, aliasOf l = name) ∨ ∀ l ∈ s.masterfile, ¬ name <:+: l := by
  have hrun : suppress iprange data name true s =
      (let list := (iprange (s.list.filter isMemberLine) (data.filter pfbIsCidrToken)).getD s.list
      if grep name s.masterfile ≠ [] then
        let masterfile := awkExclude (s.masterfile.filter (aliasOf · = name)) s.masterfile ++
          list.map (name ++ ' ' :: ·)
        { list, masterfile, mastercat := masterfile.map cut2 }
      else { s with list }) := by
    rw [suppress, hdata, decide_eq_false hne, decide_eq_false hheader, grepAlias_eq hrows hname]
    simp only [Bool.or_false, Bool.false_eq_true, if_false, Bool.true_and, decide_eq_true_eq]
  have hany :
      s.masterfile.any (aliasOf · = name) = true ↔ ∃ l ∈ s.masterfile, aliasOf l = name := by
    simp only [List.any_eq_true, decide_eq_true_eq]
  unfold Replaces
  rw [hrun]
  by_cases hown : ∃ l ∈ s.masterfile, aliasOf l = name
  · rw [if_pos (hany.mpr hown), awkExclude_alias hown]
    have hgrep : grep name s.masterfile ≠ [] := by
      obtain ⟨l, hl, rfl⟩ := hown
      refine List.ne_nil_of_mem (List.mem_filter.mpr ⟨hl, decide_eq_true ?_⟩)
      exact (List.takeWhile_prefix _).isInfix
    rw [if_pos hgrep]
    exact iff_of_true rfl (Or.inl hown)
  · rw [if_neg (fun h => hown (hany.mp h)), or_iff_right hown]
    by_cases hgrep : grep name s.masterfile = []
    · rw [if_neg (not_not.mpr hgrep)]
      refine iff_of_true rfl fun l hl => ?_
      have hnone := List.filter_eq_nil_iff.mp hgrep l hl
      rwa [decide_eq_true_eq] at hnone
    · rw [if_pos hgrep]
      obtain ⟨l, hl⟩ := List.exists_mem_of_ne_nil _ hgrep
      obtain ⟨hl, hwithin⟩ := List.mem_filter.mp hl
      refine iff_of_false (fun heq => hown ?_) fun h => h l hl (of_decide_eq_true hwithin)
      have hnil : s.masterfile.filter (aliasOf · = name) = [] := by
        refine List.filter_eq_nil_iff.mpr fun l' hl' => ?_
        rw [decide_eq_true_eq]
        exact fun heq => hown ⟨l', hl', heq⟩
      simp only [hnil, awkExclude, if_true, List.nil_append] at heq
      rw [← heq] at hl
      obtain ⟨row, -, rfl⟩ := List.mem_map.mp hl
      refine ⟨_, heq ▸ hl, aliasOf_append (not_mem_of_isName hname (by decide)) row⟩

/-- Taking lists out and replacing the rows of a list are exact unless a name stands inside another
one: a header without lines ends the name of a line that is left, a header begins the stem of
another list's file, or a name without lines occurs in some line. -/
theorem surgery_exact_iff (iprange : IprangeRun) {first arg : Str} {d : Lists}
    (hfirst : isPath first = false)
    (hheaders : ∀ header ∈ headersOf arg, header.all isNameChar = true)
    (hrows : ∀ l ∈ d.masterfile, IsRow l) {data : List Str} {name : Str} {s : Suppressed}
    (hdata : data.all List.isEmpty = false) (hne : name ≠ [])
    (hheader : name ≠ "suppressheader".toList) (hname : name.all isNameChar = true)
    (hrows' : ∀ l ∈ s.masterfile, IsRow l) :
    Removes d (headersOf arg) (remove first arg d) ∧
        Replaces name s (suppress iprange data name true s) ↔
      (((∀ l ∈ d.masterfile, aliasOf l ∈ headersOf arg) ∨
          Unshadowed d.masterfile (headersOf arg)) ∧
        ∀ folder, ∀ file ∈ d.files folder, stem file ∉ headersOf arg →
          ∀ header ∈ headersOf arg, ¬ header <+: stem file) ∧
      ((∃ l ∈ s.masterfile, aliasOf l = name) ∨ ∀ l ∈ s.masterfile, ¬ name <:+: l) :=
  and_congr (remove_removes_iff hfirst hheaders hrows)
    (suppress_replaces_iff iprange hdata hne hheader hname hrows')

/-- The masterfile of one list. -/
def badAds : List Str := ["BadAds_v4 192.0.2.1".toList]

/-- The list of a name that ends another one is neither removed nor replaced: both empty the
masterfile of the other list. -/
theorem surgery_inexact_badAds :
    ¬ Removes ⟨badAds, [], fun _ => []⟩ ["Ads_v4".toList]
        (remove ['x'] "Ads_v4".toList ⟨badAds, [], fun _ => []⟩) ∧
      ¬ Replaces "Ads_v4".toList ⟨["198.51.100.7".toList], badAds, []⟩
        (suppress (fun _ _ => none) ["203.0.113.7/32".toList] "Ads_v4".toList true
          ⟨["198.51.100.7".toList], badAds, []⟩) := by
  refine ⟨fun h => absurd h.1 (by decide), fun h => ?_⟩
  unfold Replaces at h
  exact absurd h (by decide)

/-- The masterfile of two lists, of which the name of one ends that of the other. -/
def bothAds : List Str := ["Ads_v4 192.0.2.1".toList, "BadAds_v4 192.0.2.2".toList]

def bothAdsFiles : Folder → List Str := fun _ => ["Ads_v4.txt".toList, "BadAds_v4.txt".toList]

theorem bothAds_isRow : ∀ l ∈ bothAds, IsRow l := by
  intro l hl
  rcases List.mem_pair.mp hl with rfl | rfl
  · exact ⟨"Ads_v4".toList, "192.0.2.1".toList, by decide, by decide, by decide, rfl⟩
  · exact ⟨"BadAds_v4".toList, "192.0.2.2".toList, by decide, by decide, by decide, rfl⟩

theorem surgery_exact_bothAds :
    Removes ⟨bothAds, [], bothAdsFiles⟩ (headersOf "Ads_v4".toList)
        (remove ['x'] "Ads_v4".toList ⟨bothAds, [], bothAdsFiles⟩) ∧
      Replaces "Ads_v4".toList ⟨["198.51.100.7".toList], bothAds, []⟩
        (suppress (fun _ _ => none) ["203.0.113.7/32".toList] "Ads_v4".toList true
          ⟨["198.51.100.7".toList], bothAds, []⟩) := by
  have hheaders : headersOf "Ads_v4".toList = ["Ads_v4".toList] := by decide
  have hown : ∃ l ∈ bothAds, aliasOf l = "Ads_v4".toList :=
    ⟨_, List.mem_cons_self, by decide⟩
  refine (surgery_exact_iff (fun _ _ => none) (by decide) (by decide) bothAds_isRow (by decide)
    (by decide) (by decide) (by decide) bothAds_isRow).mpr ⟨⟨Or.inr ?_, ?_⟩, Or.inl hown⟩
  · rw [hheaders, unshadowed_cons]
    refine ⟨Or.inl hown, fun earlier header later heq => ?_⟩
    cases earlier <;> cases heq
  · intro folder file hfile hstem header hheader hstart
    rw [hheaders, List.mem_singleton] at hheader
    subst hheader
    rcases List.mem_pair.mp hfile with rfl | rfl
    · exact absurd hstem (by decide)
    · exact absurd hstart (by decide)

end PfBlockerNG.Masterfile
