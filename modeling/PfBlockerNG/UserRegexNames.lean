import PfBlockerNG.Build

/-!
The administrator's regex list: the rows of its text, the name each row is given, and the
dictionary the accepted rows are compiled into.
-/

namespace PfBlockerNG.UserRegexNames

open PfBlockerNG.Strings
open PfBlockerNG.PyText
open PfBlockerNG.OrderedDict
open PfBlockerNG.Bands
open PfBlockerNG.RegexRules
open PfBlockerNG.Matcher
open PfBlockerNG.Build

/-! ### Rows -/

def isBreak (c : Char) : Bool := c == '\r' || c == '\n'

/-- `re.split(r"[\r\n]+", text)`. -/
def splitBreaks : Str → List Str
  | [] => [[]]
  | c :: s =>
      if isBreak c then if s.head?.any isBreak then splitBreaks s else [] :: splitBreaks s
      else (splitBreaks s).modifyHead (c :: ·)

/-- `pfb_split_regex_line`, after `backslashes` backslashes. -/
def splitRegexLine (backslashes : Nat) : Str → Str × Option Str
  | [] => ([], none)
  | c :: s =>
      if c = '\\' then ((splitRegexLine (backslashes + 1) s).map (c :: ·) id)
      else if c = '#' ∧ backslashes % 2 = 0 then ([], some s)
      else (splitRegexLine 0 s).map (c :: ·) id

/-- `re.sub(r"\W", "", s, flags=re.ASCII)`. -/
def wordChars (s : Str) : Str :=
  s.filter fun c => isAsciiDigit c || ('a' ≤ c && c ≤ 'z') || ('A' ≤ c && c ≤ 'Z') || c == '_'

/-- The name a description stands for. -/
def descriptionName (description : Str) : Str :=
  wordChars ((strip (splitRegexLine 0 description).1).map fun c => if c = ' ' then '_' else c)

/-- A row with a pattern: its number, the name it asks for, and the pattern. -/
structure Row where
  number : Nat
  base : Str
  pattern : Str
  deriving DecidableEq, Repr

def rowOf (line : Str × Nat) : Option Row :=
  let (cut, description) := splitRegexLine 0 line.1
  let pattern := rstripWhile isSpace cut
  if pattern.isEmpty then none
  else
    let name := match description with
      | some description => descriptionName description
      | none => "Regex_".toList ++ decimal line.2
    some ⟨line.2, name.map asciiLower, pattern⟩

/-- The rows of a list, numbered from one over the lines that are neither blank nor comments. -/
def rowsOf (text : Str) : List Row :=
  ((((splitBreaks text).map strip).filter fun line =>
    !line.isEmpty && !startsWith "#".toList line).zipIdx 1).filterMap rowOf

/-! ### Names -/

/-- `"{}_{}".format(name, row_number)`. -/
def numbered (row : Row) : Str := row.base ++ '_' :: decimal row.number

def nameFor (names : List Str) (row : Row) : Str :=
  if row.base ∈ names then numbered row else row.base

/-- The names of the rows, beside those of the rows before. -/
def namesFrom : List Str → List Row → List Str
  | _, [] => []
  | names, row :: rows => nameFor names row :: namesFrom (nameFor names row :: names) rows

/-- `_load_user_regex_entries`. -/
def loadUserRegexEntries (text : Str) : List (Str × Str) :=
  (namesFrom [] (rowsOf text)).zip ((rowsOf text).map Row.pattern)

/-! ### The dictionary -/

/-- The entry of a row that the gate, the length cap and the compiler accept; `compiles` says what
`re.compile` accepts. -/
def compiled (compiles : Str → Bool) (regexCap : Bool) (pattern : Str) :
    Option (RegexPayload BlockBand) :=
  match admitPattern pattern with
  | .error _ => none
  | .ok admitted =>
      if regexCap && regexStaticLenCap < pattern.length then none
      else if compiles admitted.compileText then
        some ⟨admitted.compileText, admitted.re, false, .user⟩
      else none

def compileEntry (compiles : Str → Bool) (regexCap : Bool) (entry : Str × Str) :
    Option (Str × RegexPayload BlockBand) :=
  (compiled compiles regexCap entry.2).map (entry.1, ·)

/-- `_dnsbl_compile_user_regex`. -/
def compileUserRegex (compiles : Str → Bool) (regexCap : Bool) (entries : List (Str × Str)) :
    RegexDb BlockBand :=
  entries.foldl (fun db entry => match compileEntry compiles regexCap entry with
    | none => db
    | some rule => db.set rule.1 rule.2) Dict.empty

/-- No two rows of a text have one name, and the dictionary has an entry for every accepted row. -/
structure KeepsRows (text : Str) : Prop where
  distinct : ((loadUserRegexEntries text).map Prod.fst).Nodup
  kept : ∀ compiles regexCap,
    (compileUserRegex compiles regexCap (loadUserRegexEntries text)).items =
      (loadUserRegexEntries text).filterMap (compileEntry compiles regexCap)

/-! ### Numbers -/

theorem rowOf_number {line : Str × Nat} {row : Row} (h : rowOf line = some row) :
    row.number = line.2 := by
  unfold rowOf at h
  dsimp only at h
  split at h
  · cases h
  · exact (Option.some.inj h) ▸ rfl

theorem pairwise_zipIdx (lines : List Str) (n : Nat) :
    (lines.zipIdx n).Pairwise fun a b => a.2 < b.2 := by
  have hnumbers : ((lines.zipIdx n).map Prod.snd).Pairwise (· < ·) := by
    rw [List.zipIdx_map_snd]
    exact List.pairwise_lt_range'
  exact List.pairwise_map.mp hnumbers

/-- The rows stand in the order of their numbers. -/
theorem pairwise_rowsOf (text : Str) :
    (rowsOf text).Pairwise fun a b => a.number < b.number := by
  refine (pairwise_zipIdx _ 1).filterMap _ ?_
  intro a b hab row hrow row' hrow'
  rw [rowOf_number hrow, rowOf_number hrow']
  exact hab

theorem decimal_injective {m n : Nat} (h : decimal m = decimal n) : m = n := by
  rw [← Nat.ofDigitChars_ten_toDigits (n := m), ← Nat.ofDigitChars_ten_toDigits (n := n)]
  exact congrArg (Nat.ofDigitChars 10 · 0) h

theorem underscore_not_mem_decimal (n : Nat) : '_' ∉ decimal n := fun h =>
  absurd (Nat.isDigit_of_mem_toDigits (by decide) (by decide) h) (by decide)

/-- What follows the last occurrence of a character is determined. -/
theorem eq_of_append_cons {c : Char} {a b s t : Str} (hs : c ∉ s) (ht : c ∉ t)
    (h : a ++ c :: s = b ++ c :: t) : s = t := by
  rcases List.append_eq_append_iff.mp h with ⟨u, -, hu⟩ | ⟨u, -, hu⟩
  · cases u with
    | nil => exact (List.cons.inj hu).2
    | cons d u =>
        rw [List.cons_append, List.cons.injEq] at hu
        exact absurd (hu.2 ▸ List.mem_append_right _ List.mem_cons_self) hs
  · cases u with
    | nil => exact (List.cons.inj hu).2.symm
    | cons d u =>
        rw [List.cons_append, List.cons.injEq] at hu
        exact absurd (hu.2 ▸ List.mem_append_right _ List.mem_cons_self) ht

theorem numbered_number {i j : Row} (h : numbered i = numbered j) : i.number = j.number :=
  decimal_injective
    (eq_of_append_cons (underscore_not_mem_decimal _) (underscore_not_mem_decimal _) h)

/-! ### Names that repeat -/

/-- The name a row asks for is taken: an earlier row asks for it too, or has it as its numbered
form. -/
inductive Taken (rows : List Row) : Row → Prop
  | again {i j : Row} (hi : i ∈ rows) (hlt : i.number < j.number) (hbase : i.base = j.base) :
      Taken rows j
  | numbered {i j : Row} (hi : i ∈ rows) (hlt : i.number < j.number) (htaken : Taken rows i)
      (hbase : numbered i = j.base) : Taken rows j

/-- Above a row whose name is taken, no row asks for its numbered form. -/
def NoClash (rows : List Row) : Prop :=
  ∀ j ∈ rows, Taken rows j → ∀ i ∈ rows, i.number < j.number → i.base ≠ numbered j

/-- The names given to the first rows of a list. -/
def Given (rows before : List Row) (names : List Str) : Prop :=
  ∀ x, x ∈ names ↔ ∃ i ∈ before, x = i.base ∨ (Taken rows i ∧ x = numbered i)

section
variable {rows before rest : List Row} {row : Row} {names : List Str}

theorem mem_before (hrows : rows = before ++ row :: rest)
    (horder : rows.Pairwise fun a b => a.number < b.number) {i : Row} :
    i ∈ rows ∧ i.number < row.number ↔ i ∈ before := by
  subst hrows
  obtain ⟨-, hafter, hcross⟩ := List.pairwise_append.mp horder
  constructor
  · rintro ⟨hi, hlt⟩
    rcases List.mem_append.mp hi with hi | hi
    · exact hi
    · rcases List.mem_cons.mp hi with rfl | hi
      · exact absurd hlt (Nat.lt_irrefl _)
      · exact absurd (List.rel_of_pairwise_cons hafter hi) (Nat.lt_asymm hlt)
  · intro hi
    exact ⟨List.mem_append_left _ hi, hcross i hi row List.mem_cons_self⟩

theorem taken_iff (hrows : rows = before ++ row :: rest)
    (horder : rows.Pairwise fun a b => a.number < b.number) (hgiven : Given rows before names) :
    Taken rows row ↔ row.base ∈ names := by
  rw [hgiven]
  constructor
  · rintro (⟨hi, hlt, hbase⟩ | ⟨hi, hlt, htaken, hbase⟩)
    · exact ⟨_, (mem_before hrows horder).mp ⟨hi, hlt⟩, Or.inl hbase.symm⟩
    · exact ⟨_, (mem_before hrows horder).mp ⟨hi, hlt⟩, Or.inr ⟨htaken, hbase.symm⟩⟩
  · rintro ⟨i, hi, hbase | ⟨htaken, hbase⟩⟩
    · obtain ⟨hi, hlt⟩ := (mem_before hrows horder).mpr hi
      exact .again hi hlt hbase.symm
    · obtain ⟨hi, hlt⟩ := (mem_before hrows horder).mpr hi
      exact .numbered hi hlt htaken hbase.symm

theorem given_next (hrows : rows = before ++ row :: rest)
    (horder : rows.Pairwise fun a b => a.number < b.number) (hgiven : Given rows before names) :
    Given rows (before ++ [row]) (nameFor names row :: names) := by
  have htaken := taken_iff hrows horder hgiven
  intro x
  have hlast : (∃ i ∈ before ++ [row], x = i.base ∨ (Taken rows i ∧ x = numbered i)) ↔
      x ∈ names ∨ x = row.base ∨ (Taken rows row ∧ x = numbered row) := by
    rw [hgiven]
    simp only [List.mem_append, List.mem_singleton, or_and_right, exists_or, exists_eq_left]
  rw [List.mem_cons, hlast]
  unfold nameFor
  split
  · rename_i hmem
    have hbase : x = row.base → x ∈ names := fun h => h ▸ hmem
    rw [and_iff_right (htaken.mpr hmem)]
    tauto
  · rename_i hmem
    have hrow : ¬ Taken rows row := fun h => hmem (htaken.mp h)
    tauto

/-- The name of a row is new, unless the row is numbered and an earlier one asks for that name. -/
theorem nameFor_not_mem_iff (hrows : rows = before ++ row :: rest)
    (horder : rows.Pairwise fun a b => a.number < b.number) (hgiven : Given rows before names) :
    nameFor names row ∉ names ↔
      (Taken rows row → ∀ i ∈ rows, i.number < row.number → i.base ≠ numbered row) := by
  rw [taken_iff hrows horder hgiven]
  unfold nameFor
  split
  · rename_i hmem
    rw [hgiven]
    constructor
    · intro hnew _ i hi hlt hbase
      exact hnew ⟨i, (mem_before hrows horder).mp ⟨hi, hlt⟩, Or.inl hbase.symm⟩
    · rintro hclear ⟨i, hi, hbase⟩
      obtain ⟨hi, hlt⟩ := (mem_before hrows horder).mpr hi
      rcases hbase with hbase | ⟨-, hbase⟩
      · exact hclear hmem i hi hlt hbase.symm
      · exact absurd (numbered_number hbase) (Nat.ne_of_gt hlt)
  · rename_i hmem
    exact iff_of_true hmem fun h => absurd h hmem

/-- The names of the rest are new and distinct exactly where no numbered form clashes. -/
theorem nodup_namesFrom_iff (hrows : rows = before ++ rest)
    (horder : rows.Pairwise fun a b => a.number < b.number) (hgiven : Given rows before names) :
    ((namesFrom names rest).Nodup ∧ ∀ x ∈ namesFrom names rest, x ∉ names) ↔
      ∀ j ∈ rest, Taken rows j → ∀ i ∈ rows, i.number < j.number → i.base ≠ numbered j := by
  induction rest generalizing before names with
  | nil => simp [namesFrom]
  | cons row rest ih =>
      have hsplit : rows = (before ++ [row]) ++ rest := by
        rw [hrows, List.append_assoc]
        rfl
      have hnext := ih hsplit (given_next hrows horder hgiven)
      have hfirst := nameFor_not_mem_iff hrows horder hgiven
      rw [List.forall_mem_cons, ← hfirst, ← hnext, namesFrom, List.nodup_cons,
        List.forall_mem_cons]
      constructor
      · rintro ⟨⟨hnot, hnodup⟩, hnew, hrest⟩
        refine ⟨hnew, hnodup, fun x hx hmem => ?_⟩
        rcases List.mem_cons.mp hmem with rfl | hmem
        · exact hnot hx
        · exact hrest x hx hmem
      · rintro ⟨hnew, hnodup, hrest⟩
        refine ⟨⟨fun hmem => hrest _ hmem List.mem_cons_self, hnodup⟩, hnew, fun x hx hmem => ?_⟩
        exact hrest x hx (List.mem_cons_of_mem _ hmem)

theorem nodup_names_iff (horder : rows.Pairwise fun a b => a.number < b.number) :
    (namesFrom [] rows).Nodup ↔ NoClash rows := by
  have hgiven : Given rows [] [] := fun x => by simp
  have hiff := nodup_namesFrom_iff (List.nil_append rows).symm horder hgiven
  rw [NoClash, ← hiff]
  exact (and_iff_left fun _ _ => List.not_mem_nil).symm

end

/-! ### The rows that are kept -/

theorem length_namesFrom (names : List Str) (rows : List Row) :
    (namesFrom names rows).length = rows.length := by
  induction rows generalizing names with
  | nil => rfl
  | cons row rows ih => rw [namesFrom, List.length_cons, List.length_cons, ih]

theorem keys_loadUserRegexEntries (text : Str) :
    (loadUserRegexEntries text).map Prod.fst = namesFrom [] (rowsOf text) := by
  refine List.map_fst_zip ?_
  rw [length_namesFrom, List.length_map]

theorem compileEntry_key {compiles : Str → Bool} {regexCap : Bool} (entry : Str × Str)
    (rule : Str × RegexPayload BlockBand) (h : compileEntry compiles regexCap entry = some rule) :
    rule.1 = entry.1 := by
  obtain ⟨payload, -, rfl⟩ := Option.map_eq_some_iff.mp h
  rfl

theorem items_compile (compiles : Str → Bool) (regexCap : Bool) (entries : List (Str × Str))
    (db : RegexDb BlockBand) :
    (entries.foldl (fun db entry => match compileEntry compiles regexCap entry with
      | none => db
      | some rule => db.set rule.1 rule.2) db).items =
      (entries.filterMap (compileEntry compiles regexCap)).foldl
        (fun items rule => store rule.1 rule.2 items) db.items := by
  induction entries generalizing db with
  | nil => rfl
  | cons entry entries ih =>
      rw [List.foldl_cons, ih, List.filterMap_cons]
      cases compileEntry compiles regexCap entry with
      | none => rfl
      | some rule => rfl

/-- Rows of distinct names are kept one by one. -/
theorem kept_of_distinct {entries : List (Str × Str)} (h : (entries.map Prod.fst).Nodup)
    (compiles : Str → Bool) (regexCap : Bool) :
    (compileUserRegex compiles regexCap entries).items =
      entries.filterMap (compileEntry compiles regexCap) := by
  rw [compileUserRegex, items_compile]
  refine (foldl_store ?_).trans (List.nil_append _)
  rw [Dict.empty, List.map_nil, List.nil_append]
  exact (keys_filterMap_sublist compileEntry_key entries).nodup h

/-- The rows of a text keep their names and their places exactly where no row asks for the numbered
form of a later row whose name is taken. -/
theorem keepsRows_iff (text : Str) : KeepsRows text ↔ NoClash (rowsOf text) := by
  rw [← nodup_names_iff (pairwise_rowsOf text), ← keys_loadUserRegexEntries]
  exact ⟨KeepsRows.distinct, fun h => ⟨h, kept_of_distinct h⟩⟩

/-- Three rows `a_3`, `a` and `a`: the third is named after the first. -/
theorem numbered_name_given_twice :
    ¬ KeepsRows "^one$ # a_3\n^two$ # a\n^three$ # a".toList := by
  intro h
  exact absurd h.distinct (by decide)

end PfBlockerNG.UserRegexNames
