import PfBlockerNG.NumericHosts
import PfBlockerNG.OrderedDict
import Mathlib.Data.List.Sort

/-!
The package upgrade comments out the stored regex rows the save-time probe rejects: a comment with
the reason above each of them, everything else as it stands.
-/

namespace PfBlockerNG.RegexUpgrade

open PfBlockerNG.Strings
open PfBlockerNG.PyText
open PfBlockerNG.IpText
open PfBlockerNG.NumericHosts
open PfBlockerNG.OrderedDict

/-- A row of the stored list with its line end. -/
structure Row where
  text : Str
  nl : Str
  deriving DecidableEq, Repr

/-- The rows of a text: `preg_split('/(\r\n|\n|\r)/')` and the loop over its pieces. An empty piece
after the last line end is no row. -/
def splitRows : Str → List Row
  | [] => []
  | '\r' :: '\n' :: s => ⟨[], ['\r', '\n']⟩ :: splitRows s
  | c :: s =>
      if c = '\n' ∨ c = '\r' then ⟨[], [c]⟩ :: splitRows s
      else match splitRows s with
        | [] => [⟨[c], []⟩]
        | row :: rows => ⟨c :: row.text, row.nl⟩ :: rows

/-- The rows one after another. -/
def joinRows (rows : List Row) : Str := rows.flatMap fun row => row.text ++ row.nl

/-- `/^line (\d+): (.*)$/s`. -/
def parseError (error : Str) : Option (Nat × Str) :=
  if startsWith "line ".toList error then
    let rest := error.drop 5
    let digits := rest.takeWhile isAsciiDigit
    let tail := rest.drop digits.length
    if digits ≠ [] ∧ startsWith ": ".toList tail then some (decimal digits, tail.drop 2) else none
  else none

/-- `$blocked`: the message of each rejected line, a later one in the place of an earlier one. -/
def blocked (errors : List Str) : Dict Nat Str :=
  errors.foldl (fun d error => match parseError error with
    | some (line, message) => if line < 1 then d else d.set line message
    | none => d) Dict.empty

/-- `ksort`. -/
def ksort (items : List (Nat × Str)) : List (Nat × Str) :=
  items.insertionSort fun a b => a.1 ≤ b.1

/-- The lines of the comments in the rewritten list. -/
def whereLines (rows : List Row) (lines : List Nat) : List Nat :=
  lines.foldl
    (fun acc line => if line - 1 < rows.length then acc ++ [line + acc.length] else acc) []

/-- `str_replace(["\r", "\n"], '', $message)`. -/
def oneLine (message : Str) : Str := message.filter fun c => c != '\r' && c != '\n'

/-- The comment above a rejected row. -/
def whyRow (row : Row) (message : Str) : Row :=
  ⟨"# blocked at package upgrade: ".toList ++ oneLine message,
    if row.nl ≠ [] then row.nl else ['\n']⟩

def commented (row : Row) : Row := ⟨"# ".toList ++ row.text, row.nl⟩

/-- `array_splice` of one rejected row. -/
def splice (rows : List Row) (entry : Nat × Str) : List Row :=
  match rows[entry.1 - 1]? with
  | none => rows
  | some row => rows.take (entry.1 - 1) ++ [whyRow row entry.2, commented row] ++ rows.drop entry.1

/-- What the notice says: the first lines and the number of the others. -/
structure Notice where
  shown : List Nat
  more : Nat
  deriving DecidableEq, Repr

def noticeOf (lines : List Nat) : Notice :=
  ⟨lines.take 10, lines.length - (lines.take 10).length⟩

def Notice.text (n : Notice) : Str :=
  ("pfBlockerNG commented out invalid Regex List pattern(s) at package upgrade; see the " ++
      "'# blocked at package upgrade' ").toList ++
    (if n.shown.length + n.more = 1 then "comment on line " else "comments on lines ").toList ++
    ", ".toList.intercalate (n.shown.map octetText) ++
    (if 0 < n.more then " and ".toList ++ octetText n.more ++ " more".toList else [])

/-- The list that is written and the notice that is sent. -/
structure Outcome where
  text : Str
  notice : Notice
  deriving DecidableEq, Repr

/-- `pfb_dnsbl_regex_upgrade_comment_out()`, `none` when nothing is written. -/
def commentOut (probe : Str → List Str) (text : Str) : Option Outcome :=
  if text = [] then none
  else
    let entries := ksort (blocked (probe text)).items
    if entries = [] then none
    else
      let rows := splitRows text
      let lines := whereLines rows (entries.map Prod.fst)
      if lines = [] then none
      else
        let rewritten := joinRows (entries.reverse.foldl splice rows)
        if rewritten = text then none else some ⟨rewritten, noticeOf lines⟩

/-- A row the probe skips. -/
def isComment (text : Str) : Bool := startsWith ['#'] (lstripWhile isSpace text)

/-- The save-time probe: a line for each row that is no comment and that `verdict` rejects. -/
def probeOf (verdict : Str → Option Str) (text : Str) : List Str :=
  (splitRows text).zipIdx 1 |>.filterMap fun (row, line) =>
    if isComment row.text then none
    else (verdict row.text).map fun message =>
      "line ".toList ++ octetText line ++ ": ".toList ++ message

/-- What stands in the place of one row, each new row with whether it was inserted. -/
def markedRow (message : Option Str) (row : Row) : List (Row × Bool) :=
  match message with
  | none => [(row, false)]
  | some m => [(whyRow row m, true), (commented row, false)]

/-- The rewritten rows of a list whose first row has the number `line`. -/
def marked (message : Nat → Option Str) (line : Nat) (rows : List Row) : List (Row × Bool) :=
  (rows.zipIdx line).flatMap fun p => markedRow (message p.2) p.1

/-- The line numbers of the inserted rows. -/
def insertedLines (rows : List (Row × Bool)) : List Nat :=
  ((rows.zipIdx 1).filter (·.1.2)).map Prod.snd

/-- A piece between line ends. -/
def Plain (t : Str) : Prop := '\n' ∉ t ∧ '\r' ∉ t

def IsEnd (nl : Str) : Prop := nl = ['\n'] ∨ nl = ['\r'] ∨ nl = ['\r', '\n']

/-- The rows of a text: plain pieces with line ends, the last one perhaps without; a carriage return
that ends a row is not followed by a line feed. -/
inductive Lined : List Row → Prop where
  | nil : Lined []
  | last (t : Str) : Plain t → t ≠ [] → Lined [⟨t, []⟩]
  | row (t nl : Str) (rows : List Row) : Plain t → IsEnd nl →
      (nl = ['\r'] → (joinRows rows).head? ≠ some '\n') → Lined rows → Lined (⟨t, nl⟩ :: rows)

theorem joinRows_cons (row : Row) (rows : List Row) :
    joinRows (row :: rows) = row.text ++ row.nl ++ joinRows rows := List.flatMap_cons

theorem splitRows_char {c : Char} (hn : c ≠ '\n') (hr : c ≠ '\r') (s : Str) :
    splitRows (c :: s) = match splitRows s with
      | [] => [⟨[c], []⟩]
      | row :: rows => ⟨c :: row.text, row.nl⟩ :: rows := by
  rw [splitRows.eq_3 _ _ fun _ h _ => hr h, if_neg (not_or.mpr ⟨hn, hr⟩)]

theorem splitRows_last {t : Str} (h : Plain t) (hne : t ≠ []) : splitRows t = [⟨t, []⟩] := by
  induction t with
  | nil => exact (hne rfl).elim
  | cons c t ih =>
      obtain ⟨hn, hr⟩ := h
      rw [List.mem_cons, not_or] at hn hr
      rw [splitRows_char (Ne.symm hn.1) (Ne.symm hr.1)]
      cases t with
      | nil => rfl
      | cons d t => rw [ih ⟨hn.2, hr.2⟩ (List.cons_ne_nil d t)]

theorem splitRows_end {nl : Str} (h : IsEnd nl) {s : Str} (hs : nl = ['\r'] → s.head? ≠ some '\n') :
    splitRows (nl ++ s) = ⟨[], nl⟩ :: splitRows s := by
  rcases h with rfl | rfl | rfl
  · exact (splitRows.eq_3 _ _ fun _ h _ => absurd h (by decide)).trans (if_pos (Or.inl rfl))
  · cases s with
    | nil => rfl
    | cons d s =>
        have hd : d ≠ '\n' := fun heq => hs rfl (by rw [heq]; rfl)
        refine (splitRows.eq_3 _ _ fun _ _ h => hd ?_).trans (if_pos (Or.inr rfl))
        exact (List.cons.inj h).1
  · rfl

theorem splitRows_row {t nl : Str} (h : Plain t) (hnl : IsEnd nl) {s : Str}
    (hs : nl = ['\r'] → s.head? ≠ some '\n') :
    splitRows (t ++ nl ++ s) = ⟨t, nl⟩ :: splitRows s := by
  induction t with
  | nil => exact splitRows_end hnl hs
  | cons c t ih =>
      obtain ⟨hn, hr⟩ := h
      rw [List.mem_cons, not_or] at hn hr
      rw [List.cons_append, List.cons_append, splitRows_char (Ne.symm hn.1) (Ne.symm hr.1),
        ih ⟨hn.2, hr.2⟩]

/-- Rows that were joined are found again. -/
theorem splitRows_joinRows {rows : List Row} (h : Lined rows) :
    splitRows (joinRows rows) = rows := by
  induction h with
  | nil => rfl
  | last t ht hne =>
      rw [joinRows_cons, List.append_nil]
      exact (congrArg splitRows (List.append_nil t)).trans (splitRows_last ht hne)
  | row t nl rows ht hnl hs _ ih => rw [joinRows_cons, splitRows_row ht hnl hs, ih]

theorem joinRows_splitRows (s : Str) : joinRows (splitRows s) = s := by
  fun_induction splitRows s with
  | case1 => rfl
  | case2 s ih => rw [joinRows_cons, ih]; rfl
  | case3 c s _ hend ih => rw [joinRows_cons, ih]; rfl
  | case4 c s _ hend hnil ih =>
      rw [hnil] at ih
      rw [← ih]
      rfl
  | case5 c s _ hend row rows hcons ih =>
      rw [hcons] at ih
      rw [← ih]
      rfl

theorem lined_splitRows (s : Str) : Lined (splitRows s) := by
  fun_induction splitRows s with
  | case1 => exact Lined.nil
  | case2 s ih =>
      exact Lined.row _ _ _ ⟨List.not_mem_nil, List.not_mem_nil⟩ (Or.inr (Or.inr rfl))
        (fun h => by cases h) ih
  | case3 c s hnot hend ih =>
      refine Lined.row _ _ _ ⟨List.not_mem_nil, List.not_mem_nil⟩ ?_ (fun h => ?_) ih
      · exact hend.imp (congrArg ([·])) fun h => Or.inl (congrArg ([·]) h)
      · rw [joinRows_splitRows]
        obtain ⟨rfl, -⟩ := List.cons.inj h
        cases s with
        | nil => simp
        | cons d s =>
            rintro heq
            obtain rfl := Option.some.inj heq
            exact hnot s rfl rfl
  | case4 c s _ hend hnil ih =>
      rw [not_or] at hend
      refine Lined.last _ ⟨?_, ?_⟩ (List.cons_ne_nil _ _)
      · exact fun h => hend.1 (List.mem_singleton.mp h).symm
      · exact fun h => hend.2 (List.mem_singleton.mp h).symm
  | case5 c s _ hend row rows hcons ih =>
      rw [not_or] at hend
      rw [hcons] at ih
      have hplain : ∀ t, Plain t → Plain (c :: t) := by
        rintro t ⟨hn, hr⟩
        refine ⟨?_, ?_⟩
        · rw [List.mem_cons, not_or]
          exact ⟨Ne.symm hend.1, hn⟩
        · rw [List.mem_cons, not_or]
          exact ⟨Ne.symm hend.2, hr⟩
      cases ih with
      | last t ht hne => exact Lined.last _ (hplain t ht) (List.cons_ne_nil _ _)
      | row t nl _ ht hnl hs hrest => exact Lined.row _ _ _ (hplain t ht) hnl hs hrest

theorem marked_cons (message : Nat → Option Str) (line : Nat) (row : Row) (rows : List Row) :
    marked message line (row :: rows) =
      markedRow (message line) row ++ marked message (line + 1) rows := by
  rw [marked, List.zipIdx_cons, List.flatMap_cons]
  rfl

theorem marked_append (message : Nat → Option Str) (line : Nat) (xs ys : List Row) :
    marked message line (xs ++ ys) =
      marked message line xs ++ marked message (line + xs.length) ys := by
  rw [marked, List.zipIdx_append, List.flatMap_append]
  rfl

theorem marked_congr {message message' : Nat → Option Str} {line : Nat} {rows : List Row}
    (h : ∀ i, line ≤ i → i < line + rows.length → message i = message' i) :
    marked message line rows = marked message' line rows := by
  induction rows generalizing line with
  | nil => rfl
  | cons row rows ih =>
      rw [List.length_cons] at h
      rw [marked_cons, marked_cons, h line (Nat.le_refl _) (by omega)]
      exact congrArg _ (ih fun i hle hlt => h i (by omega) (by omega))

theorem marked_none {message : Nat → Option Str} {line : Nat} {rows : List Row}
    (h : ∀ i, line ≤ i → i < line + rows.length → message i = none) :
    marked message line rows = rows.map (·, false) := by
  induction rows generalizing line with
  | nil => rfl
  | cons row rows ih =>
      rw [List.length_cons] at h
      rw [marked_cons, h line (Nat.le_refl _) (by omega),
        ih fun i hle hlt => h i (by omega) (by omega)]
      rfl

theorem fst_marked_none {message : Nat → Option Str} {line : Nat} {rows : List Row}
    (h : ∀ i, line ≤ i → i < line + rows.length → message i = none) :
    (marked message line rows).map Prod.fst = rows := by
  rw [marked_none h, List.map_map]
  exact List.map_id rows

theorem plain_oneLine (message : Str) : Plain (oneLine message) := by
  have hkeep : ∀ c ∈ oneLine message, (c != '\n' && c != '\r') = true := fun c hc => by
    rw [oneLine, List.mem_filter, Bool.and_comm] at hc
    exact hc.2
  refine ⟨fun h => ?_, fun h => ?_⟩
  · exact absurd (hkeep _ h) (by decide)
  · exact absurd (hkeep _ h) (by decide)

theorem Plain.append {s t : Str} (hs : Plain s) (ht : Plain t) : Plain (s ++ t) := by
  refine ⟨?_, ?_⟩
  · exact fun h => (List.mem_append.mp h).elim hs.1 ht.1
  · exact fun h => (List.mem_append.mp h).elim hs.2 ht.2

theorem plain_whyRow (row : Row) (message : Str) : Plain (whyRow row message).text := by
  have hwhy : Plain "# blocked at package upgrade: ".toList := ⟨by decide, by decide⟩
  exact hwhy.append (plain_oneLine message)

theorem plain_commented (row : Row) (h : Plain row.text) : Plain (commented row).text := by
  have hsharp : Plain "# ".toList := ⟨by decide, by decide⟩
  exact hsharp.append h

theorem isEnd_ne_nil {nl : Str} (h : IsEnd nl) : nl ≠ [] := by
  rcases h with rfl | rfl | rfl <;> exact List.cons_ne_nil _ _

theorem whyRow_nl (row : Row) (m : Str) :
    (whyRow row m).nl = if row.nl ≠ [] then row.nl else ['\n'] := rfl

theorem whyRow_nl_of_nil (t m : Str) : (whyRow ⟨t, []⟩ m).nl = ['\n'] := rfl

theorem isEnd_whyRow (row : Row) (h : row.nl = [] ∨ IsEnd row.nl) (m : Str) :
    IsEnd (whyRow row m).nl := by
  rw [whyRow_nl]
  rcases h with h | h
  · rw [h]
    exact Or.inl rfl
  · rw [if_pos (isEnd_ne_nil h)]
    exact h

theorem head_joinRows_marked (message : Nat → Option Str) {line : Nat} {rows : List Row}
    (hrows : Lined rows) (h : (joinRows rows).head? ≠ some '\n') :
    (joinRows ((marked message line rows).map Prod.fst)).head? ≠ some '\n' := by
  have hstep : ∀ (row : Row) (rest rest' : List Row), row.text ++ row.nl ≠ [] →
      (joinRows (row :: rest)).head? ≠ some '\n' →
      (joinRows ((markedRow (message line) row).map Prod.fst ++ rest')).head? ≠ some '\n' := by
    intro row rest rest' hne hhead
    cases hm : message line with
    | none =>
        rw [joinRows_cons, List.head?_append_of_ne_nil _ hne] at hhead
        refine (congrArg (· ≠ some '\n') ?_).mpr hhead
        exact (congrArg List.head? (joinRows_cons row rest')).trans
          (List.head?_append_of_ne_nil _ hne)
    | some m => exact fun hsome => absurd (Option.some.inj hsome) (by decide)
  cases hrows with
  | nil => exact h
  | last t ht hne =>
      rw [marked_cons, List.map_append]
      exact hstep _ _ _ (by rwa [List.append_nil]) h
  | row t nl rows ht hnl hs hrest =>
      rw [marked_cons, List.map_append]
      exact hstep _ _ _ (fun happ => isEnd_ne_nil hnl (List.append_eq_nil_iff.mp happ).2) h

/-- Commenting out keeps the rows apart. -/
theorem lined_marked (message : Nat → Option Str) {line : Nat} {rows : List Row}
    (h : Lined rows) : Lined ((marked message line rows).map Prod.fst) := by
  induction h generalizing line with
  | nil => exact Lined.nil
  | last t ht hne =>
      rw [marked_cons, List.map_append]
      cases message line with
      | none => exact Lined.last t ht hne
      | some m =>
          refine Lined.row _ _ _ (plain_whyRow ⟨t, []⟩ m)
            (isEnd_whyRow ⟨t, []⟩ (Or.inl rfl) m) ?_ ?_
          · exact fun hcr => absurd ((whyRow_nl_of_nil t m).symm.trans hcr) (by decide)
          · exact Lined.last _ (plain_commented ⟨t, []⟩ ht) (List.cons_ne_nil _ _)
  | row t nl rows ht hnl hs hrest ih =>
      have hhead : nl = ['\r'] →
          (joinRows ((marked message (line + 1) rows).map Prod.fst)).head? ≠ some '\n' :=
        fun hcr => head_joinRows_marked message hrest (hs hcr)
      rw [marked_cons, List.map_append]
      cases message line with
      | none => exact Lined.row t nl _ ht hnl hhead ih
      | some m =>
          refine Lined.row _ _ _ (plain_whyRow ⟨t, nl⟩ m)
            (isEnd_whyRow ⟨t, nl⟩ (Or.inr hnl) m) ?_ ?_
          · exact fun _ hsome => absurd (Option.some.inj hsome) (by decide)
          · exact Lined.row _ _ _ (plain_commented ⟨t, nl⟩ ht) hnl hhead ih

theorem splice_at (xs ys : List Row) (row : Row) (m : Str) :
    splice (xs ++ row :: ys) (xs.length + 1, m) =
      xs ++ whyRow row m :: commented row :: ys := by
  have hrow : (xs ++ row :: ys)[xs.length + 1 - 1]? = some row := by
    rw [Nat.add_sub_cancel, List.getElem?_append_right (Nat.le_refl _), Nat.sub_self]
    rfl
  have hdrop : (xs ++ row :: ys).drop (xs.length + 1) = ys := by
    rw [List.drop_append]
    simp
  simp only [splice, hrow, hdrop]
  rw [Nat.add_sub_cancel, List.take_left, List.append_assoc]
  rfl

theorem splice_out {rows : List Row} {entry : Nat × Str} (h : rows.length ≤ entry.1 - 1) :
    splice rows entry = rows := by
  rw [splice, List.getElem?_eq_none h]

/-- One more line from below. -/
theorem splice_marked {message : Nat → Option Str} {line : Nat} (hpos : 1 ≤ line) (m : Str)
    (rows : List Row) (h : ∀ i ≤ line, message i = none) :
    splice ((marked message 1 rows).map Prod.fst) (line, m) =
      (marked (fun i => if line = i then some m else message i) 1 rows).map Prod.fst := by
  rcases Nat.lt_or_ge (line - 1) rows.length with hlt | hge
  · obtain ⟨xs, row, ys, rfl, hlen⟩ :
        ∃ xs row ys, rows = xs ++ row :: ys ∧ xs.length + 1 = line := by
      refine ⟨rows.take (line - 1), rows[line - 1], rows.drop (line - 1 + 1), ?_, ?_⟩
      · rw [← List.drop_eq_getElem_cons hlt, List.take_append_drop]
      · rw [List.length_take]
        omega
    have habove : ∀ message' : Nat → Option Str, (∀ i < line, message' i = none) →
        (marked message' 1 (xs ++ row :: ys)).map Prod.fst = xs ++
          ((markedRow (message' line) row).map Prod.fst ++
            (marked message' (line + 1) ys).map Prod.fst) := fun message' hnone => by
      rw [marked_append, List.map_append, fst_marked_none fun i _ hi => hnone i (by omega),
        marked_cons, List.map_append, Nat.add_comm 1, hlen]
    rw [habove message fun i hi => h i (Nat.le_of_lt hi), h line (Nat.le_refl _),
      habove _ fun i hi => by rw [if_neg (by omega), h i (Nat.le_of_lt hi)], if_pos rfl]
    have hat := splice_at xs ((marked message (line + 1) ys).map Prod.fst) row m
    rw [hlen] at hat
    refine hat.trans ?_
    have hbelow : marked message (line + 1) ys =
        marked (fun i => if line = i then some m else message i) (line + 1) ys :=
      marked_congr fun i hle _ => (if_neg (by omega)).symm
    rw [hbelow]
    rfl
  · rw [fst_marked_none fun i _ hi => h i (by omega), splice_out hge]
    exact (fst_marked_none fun i _ hi => by rw [if_neg (by omega), h i (by omega)]).symm

theorem foldr_splice {entries : List (Nat × Str)} (hpos : ∀ e ∈ entries, 1 ≤ e.1)
    (hasc : entries.Pairwise (·.1 < ·.1)) (rows : List Row) :
    entries.foldr (fun e rows => splice rows e) rows =
      (marked (fun i => lookup i entries) 1 rows).map Prod.fst := by
  induction entries with
  | nil => exact (fst_marked_none fun _ _ _ => rfl).symm
  | cons e entries ih =>
      obtain ⟨line, m⟩ := e
      rw [List.pairwise_cons] at hasc
      rw [List.foldr_cons, ih (fun e he => hpos e (List.mem_cons_of_mem _ he)) hasc.2]
      refine splice_marked (hpos _ List.mem_cons_self) m rows fun i hi => ?_
      rw [lookup_eq_none_iff, List.mem_map]
      rintro ⟨e, he, rfl⟩
      exact absurd (hasc.1 e he) (Nat.not_lt.mpr hi)

/-- The comments above a row move it down by as many lines. -/
def shift : Nat → List Nat → List Nat
  | _, [] => []
  | moved, line :: lines => (line + moved) :: shift (moved + 1) lines

theorem whereLines_eq_shift (rows : List Row) (lines : List Nat) :
    whereLines rows lines = shift 0 (lines.filter fun line => line - 1 < rows.length) := by
  have hrun : ∀ acc : List Nat, lines.foldl (fun acc line =>
      if line - 1 < rows.length then acc ++ [line + acc.length] else acc) acc =
        acc ++ shift acc.length (lines.filter fun line => line - 1 < rows.length) := by
    induction lines with
    | nil => exact fun acc => (List.append_nil acc).symm
    | cons line lines ih =>
        intro acc
        rw [List.foldl_cons, ih]
        by_cases h : line - 1 < rows.length
        · simp [h, shift]
        · simp [h]
  exact hrun []

theorem inserted_eq_shift (message : Nat → Option Str) (line moved : Nat) (rows : List Row) :
    ((((marked message line rows).zipIdx (line + moved)).filter (·.1.2)).map Prod.snd) =
      shift moved ((List.range' line rows.length).filter fun i => (message i).isSome) := by
  induction rows generalizing line moved with
  | nil => rfl
  | cons row rows ih =>
      rw [marked_cons, List.zipIdx_append, List.filter_append, List.map_append, List.length_cons,
        List.range'_succ]
      cases hm : message line with
      | none =>
          rw [List.filter_cons_of_neg (by rw [hm]; exact Bool.false_ne_true), ← ih]
          simp [markedRow, Nat.add_right_comm]
      | some m =>
          rw [List.filter_cons_of_pos (by rw [hm]; rfl), shift, ← ih]
          simp [markedRow, Nat.add_assoc, Nat.add_comm, Nat.add_left_comm]

theorem blocked_pos (errors : List Str) : ∀ e ∈ (blocked errors).items, 1 ≤ e.1 := by
  have hrun : ∀ d : Dict Nat Str, (∀ e ∈ d.items, 1 ≤ e.1) →
      ∀ e ∈ (errors.foldl (fun d error => match parseError error with
        | some (line, message) => if line < 1 then d else d.set line message
        | none => d) d).items, 1 ≤ e.1 := by
    induction errors with
    | nil => exact fun d hd => hd
    | cons error errors ih =>
        intro d hd
        rw [List.foldl_cons]
        refine ih _ ?_
        cases parseError error with
        | none => exact hd
        | some p =>
            obtain ⟨line, message⟩ := p
            dsimp only
            split
            · exact hd
            · rename_i hline
              rintro ⟨k, a⟩ he
              rw [← Dict.get_eq_some_iff, Dict.get_set] at he
              split at he
              · omega
              · exact hd (k, a) ((Dict.get_eq_some_iff d k a).mp he)
  exact hrun Dict.empty fun e he => absurd he List.not_mem_nil

theorem ksort_perm (items : List (Nat × Str)) : (ksort items).Perm items :=
  List.perm_insertionSort _ items

theorem ksort_nodup {items : List (Nat × Str)} (h : (items.map Prod.fst).Nodup) :
    ((ksort items).map Prod.fst).Nodup :=
  ((ksort_perm items).map Prod.fst).nodup_iff.mpr h

theorem lookup_ksort {items : List (Nat × Str)} (h : (items.map Prod.fst).Nodup) (line : Nat) :
    lookup line (ksort items) = lookup line items := by
  refine Option.ext fun a => ?_
  rw [lookup_eq_some_iff (ksort_nodup h), lookup_eq_some_iff h, (ksort_perm items).mem_iff]

theorem ksort_ascending {items : List (Nat × Str)} (h : (items.map Prod.fst).Nodup) :
    (ksort items).Pairwise (·.1 < ·.1) := by
  have hle : (ksort items).Pairwise fun a b : Nat × Str => a.1 ≤ b.1 :=
    List.pairwise_insertionSort _ items
  have hne := List.pairwise_map.mp (ksort_nodup h)
  exact hle.imp₂ (fun _ _ => Nat.lt_of_le_of_ne) hne

/-- The announced lines are those of the inserted rows. -/
theorem whereLines_ksort {items : List (Nat × Str)} (hnodup : (items.map Prod.fst).Nodup)
    (hpos : ∀ e ∈ items, 1 ≤ e.1) (rows : List Row) :
    whereLines rows ((ksort items).map Prod.fst) =
      insertedLines (marked (fun i => lookup i (ksort items)) 1 rows) := by
  have hasc : ((ksort items).map Prod.fst).Pairwise (· < ·) :=
    List.pairwise_map.mpr (ksort_ascending hnodup)
  have hsame : ((ksort items).map Prod.fst).filter (fun line => line - 1 < rows.length) =
      (List.range' 1 rows.length).filter fun i => (lookup i (ksort items)).isSome := by
    have hrange : (List.range' 1 rows.length).Pairwise (· < ·) := List.pairwise_lt_range' 1
    refine List.Pairwise.eq_of_mem_iff (hasc.filter _) (hrange.filter _) fun i => ?_
    rw [List.mem_filter, List.mem_filter, List.mem_range'_1, Option.isSome_iff_ne_none, ne_eq,
      lookup_eq_none_iff, not_not, decide_eq_true_eq]
    have hkey : i ∈ (ksort items).map Prod.fst → 1 ≤ i := fun hi => by
      obtain ⟨e, he, rfl⟩ := List.mem_map.mp hi
      exact hpos e ((ksort_perm items).mem_iff.mp he)
    constructor
    · rintro ⟨hi, hlt⟩
      exact ⟨⟨hkey hi, by have := hkey hi; omega⟩, hi⟩
    · rintro ⟨⟨_, hlt⟩, hi⟩
      exact ⟨hi, by omega⟩
  rw [whereLines_eq_shift, hsame]
  exact (inserted_eq_shift _ 1 0 rows).symm

/-- The message for a line, when the probe rejects it. -/
def rejected (errors : List Str) (line : Nat) : Option Str := (blocked errors).get line

theorem parseError_line (line : Nat) (message : Str) :
    parseError ("line ".toList ++ octetText line ++ ": ".toList ++ message) =
      some (line, message) := by
  obtain ⟨hall, hne⟩ := octetText_clean line
  have hall := List.all_eq_true.mp hall
  have htake : (octetText line ++ (": ".toList ++ message)).takeWhile isAsciiDigit =
      octetText line := by
    rw [List.takeWhile_append_of_pos hall]
    exact List.append_nil _
  have hrest : ("line ".toList ++ octetText line ++ ": ".toList ++ message).drop 5 =
      octetText line ++ (": ".toList ++ message) := by
    rw [List.append_assoc, List.append_assoc]
    rfl
  have hstart : startsWith "line ".toList
      ("line ".toList ++ octetText line ++ ": ".toList ++ message) = true := by
    rw [List.append_assoc, List.append_assoc]
    exact List.isPrefixOf_iff_prefix.mpr (List.prefix_append _ _)
  have hcolon : startsWith ": ".toList (": ".toList ++ message) = true :=
    List.isPrefixOf_iff_prefix.mpr (List.prefix_append _ _)
  rw [parseError, if_pos hstart]
  simp only [hrest, htake]
  rw [List.drop_left, if_pos ⟨hne, hcolon⟩, decimal_octetText]
  rfl

theorem rejected_ne_none {errors : List Str} {error : Str} (h : error ∈ errors) {line : Nat}
    {message : Str} (hparse : parseError error = some (line, message)) (hpos : 1 ≤ line) :
    rejected errors line ≠ none := by
  have hkeep : ∀ (rest : List Str) (d : Dict Nat Str), d.get line ≠ none →
      (rest.foldl (fun d error => match parseError error with
        | some (line, message) => if line < 1 then d else d.set line message
        | none => d) d).get line ≠ none := by
    intro rest
    induction rest with
    | nil => exact fun d hd => hd
    | cons e rest ih =>
        intro d hd
        rw [List.foldl_cons]
        refine ih _ ?_
        cases parseError e with
        | none => exact hd
        | some p =>
            dsimp only
            split
            · exact hd
            · rw [Dict.get_set]
              split
              · exact Option.some_ne_none _
              · exact hd
  obtain ⟨xs, ys, rfl⟩ := List.append_of_mem h
  rw [rejected, blocked, List.foldl_append, List.foldl_cons]
  refine hkeep ys _ ?_
  rw [hparse]
  dsimp only
  rw [if_neg (by omega), Dict.get_set_self]
  exact Option.some_ne_none _

/-- A row that the probe does not reject is a comment or passes. -/
theorem passes_of_rejected_none {verdict : Str → Option Str} {text : Str} {row : Row} {line : Nat}
    (hrow : (row, line) ∈ (splitRows text).zipIdx 1)
    (h : rejected (probeOf verdict text) line = none) :
    isComment row.text = true ∨ verdict row.text = none := by
  by_contra hnot
  rw [not_or, Bool.not_eq_true] at hnot
  obtain ⟨message, hmessage⟩ := Option.ne_none_iff_exists'.mp hnot.2
  refine rejected_ne_none (List.mem_filterMap.mpr ⟨(row, line), hrow, ?_⟩)
    (parseError_line line message) (List.le_snd_of_mem_zipIdx hrow) h
  dsimp only
  rw [hnot.1, hmessage]
  rfl

theorem probeOf_eq_nil {verdict : Str → Option Str} {text : Str}
    (h : ∀ row ∈ splitRows text, isComment row.text = true ∨ verdict row.text = none) :
    probeOf verdict text = [] := by
  refine List.filterMap_eq_nil_iff.mpr fun p hp => ?_
  obtain ⟨row, line⟩ := p
  dsimp only
  rcases h row (List.fst_mem_of_mem_zipIdx hp) with hcomment | hnone
  · rw [if_pos hcomment]
  · rw [hnone]
    split <;> rfl

theorem isComment_whyRow (row : Row) (m : Str) : isComment (whyRow row m).text = true := rfl

theorem isComment_commented (row : Row) : isComment (commented row).text = true := rfl

section
variable (probe : Str → List Str) (text : Str)

theorem insertedLines_eq_shift (message : Nat → Option Str) (rows : List Row) :
    insertedLines (marked message 1 rows) =
      shift 0 ((List.range' 1 rows.length).filter fun i => (message i).isSome) :=
  inserted_eq_shift message 1 0 rows

theorem insertedLines_eq_nil_iff (message : Nat → Option Str) (rows : List Row) :
    insertedLines (marked message 1 rows) = [] ↔
      ∀ line, 1 ≤ line → line ≤ rows.length → message line = none := by
  have hshift : ∀ lines, shift 0 lines = [] ↔ lines = [] := fun lines => by
    cases lines with
    | nil => exact Iff.rfl
    | cons line lines => exact iff_of_false (List.cons_ne_nil _ _) (List.cons_ne_nil _ _)
  rw [insertedLines_eq_shift, hshift, List.filter_eq_nil_iff]
  simp only [List.mem_range'_1, Option.not_isSome_iff_eq_none]
  exact ⟨fun h line hle hlen => h line ⟨hle, by omega⟩,
    fun h line hline => h line hline.1 (by omega)⟩

theorem length_marked (message : Nat → Option Str) (line : Nat) (rows : List Row) :
    rows.length ≤ (marked message line rows).length ∧
      ((marked message line rows).length = rows.length →
        ∀ i, line ≤ i → i < line + rows.length → message i = none) := by
  induction rows generalizing line with
  | nil => exact ⟨Nat.le_refl _, fun _ i hle hlt => absurd hlt (Nat.not_lt.mpr hle)⟩
  | cons row rows ih =>
      obtain ⟨hle, heq⟩ := ih (line + 1)
      rw [marked_cons, List.length_append, List.length_cons]
      cases hm : message line with
      | none =>
          refine ⟨?_, fun h i hi hlt => ?_⟩
          · rw [markedRow, List.length_singleton]
            omega
          · rw [markedRow, List.length_singleton] at h
            rcases Nat.eq_or_lt_of_le hi with rfl | hi
            · exact hm
            · exact heq (by omega) i hi (by omega)
      | some m =>
          have htwo : (markedRow (some m) row).length = 2 := rfl
          rw [htwo]
          exact ⟨by omega, fun h => by omega⟩

/-- The rewritten list. -/
theorem foldl_splice_ksort (rows : List Row) :
    (ksort (blocked (probe text)).items).reverse.foldl splice rows =
      (marked (rejected (probe text)) 1 rows).map Prod.fst := by
  have hpos : ∀ e ∈ ksort (blocked (probe text)).items, 1 ≤ e.1 := fun e he =>
    blocked_pos _ e ((ksort_perm _).mem_iff.mp he)
  rw [List.foldl_reverse, foldr_splice hpos (ksort_ascending (blocked _).nodup)]
  simp only [lookup_ksort (blocked _).nodup]
  rfl

theorem whereLines_eq (rows : List Row) :
    whereLines rows ((ksort (blocked (probe text)).items).map Prod.fst) =
      insertedLines (marked (rejected (probe text)) 1 rows) := by
  rw [whereLines_ksort (blocked _).nodup (blocked_pos _)]
  simp only [lookup_ksort (blocked _).nodup]
  rfl

/-- One run: nothing without a rejected row, else the rewritten rows. -/
theorem commentOut_eq : commentOut probe text =
    if insertedLines (marked (rejected (probe text)) 1 (splitRows text)) = [] then none
    else some ⟨joinRows ((marked (rejected (probe text)) 1 (splitRows text)).map Prod.fst),
      noticeOf (insertedLines (marked (rejected (probe text)) 1 (splitRows text)))⟩ := by
  have hwhere := whereLines_eq probe text (splitRows text)
  simp only [commentOut, foldl_splice_ksort, hwhere]
  by_cases htext : text = []
  · subst htext
    rfl
  by_cases hnil : insertedLines (marked (rejected (probe text)) 1 (splitRows text)) = []
  · rw [if_neg htext, if_pos hnil]
    simp only [hnil, if_true, ite_self]
  · have hentries : ksort (blocked (probe text)).items ≠ [] := fun h => hnil (by
      rw [← hwhere, h]
      rfl)
    have hchanged : joinRows ((marked (rejected (probe text)) 1 (splitRows text)).map Prod.fst) ≠
        text := fun h => by
      have hlined : Lined ((marked (rejected (probe text)) 1 (splitRows text)).map Prod.fst) :=
        lined_marked _ (lined_splitRows text)
      have hrows := splitRows_joinRows hlined
      rw [h] at hrows
      have hlen := congrArg List.length hrows
      rw [List.length_map] at hlen
      refine hnil ((insertedLines_eq_nil_iff _ _).mpr fun line hle hlt => ?_)
      exact (length_marked _ 1 _).2 hlen.symm line hle (by omega)
    rw [if_neg htext, if_neg hentries, if_neg hnil, if_neg hchanged, if_neg hnil]

theorem rewritten_rows {o : Outcome} (h : commentOut probe text = some o) :
    splitRows o.text = (marked (rejected (probe text)) 1 (splitRows text)).map Prod.fst := by
  rw [commentOut_eq] at h
  split at h
  · cases h
  · obtain rfl := Option.some.inj h
    exact splitRows_joinRows (lined_marked _ (lined_splitRows text))

/-- Every rewritten row is a comment or a row that was not rejected. -/
theorem mem_marked {message : Nat → Option Str} {line : Nat} {rows : List Row} {row : Row}
    (h : row ∈ (marked message line rows).map Prod.fst) :
    isComment row.text = true ∨ ∃ i, (row, i) ∈ rows.zipIdx line ∧ message i = none := by
  obtain ⟨p, hp, rfl⟩ := List.mem_map.mp h
  obtain ⟨⟨old, i⟩, hold, hp⟩ := List.mem_flatMap.mp hp
  cases hm : message i with
  | none =>
      simp only [hm] at hp
      obtain rfl := List.mem_singleton.mp hp
      exact Or.inr ⟨i, hold, hm⟩
  | some m =>
      simp only [hm] at hp
      rcases List.mem_cons.mp hp with rfl | hp
      · exact Or.inl (isComment_whyRow old m)
      · obtain rfl := List.mem_singleton.mp hp
        exact Or.inl (isComment_commented old)

/-- A probe that skips comments rejects nothing in the rewritten list. -/
theorem second_run {o : Outcome} (h : commentOut probe text = some o) {verdict : Str → Option Str}
    (hprobe : probe text = probeOf verdict text) : probeOf verdict o.text = [] := by
  refine probeOf_eq_nil fun row hrow => ?_
  rw [rewritten_rows probe text h, hprobe] at hrow
  rcases mem_marked hrow with hcomment | ⟨line, hline, hnone⟩
  · exact Or.inl hcomment
  · exact passes_of_rejected_none hline hnone

theorem commentOut_of_no_errors (h : probe text = []) : commentOut probe text = none := by
  have hnone : ∀ line, rejected (probe text) line = none := by
    rw [h]
    exact fun _ => rfl
  rw [commentOut_eq, if_pos ((insertedLines_eq_nil_iff _ _).mpr fun line _ _ => hnone line)]

end

/-- The rejected rows are commented out, the others stay, the notice gives the first ten lines of
the comments and counts the rest, and a second run writes nothing. -/
theorem commentOut_rejected (probe : Str → List Str) (text : Str) :
    (commentOut probe text = none ↔ ∀ line, 1 ≤ line → line ≤ (splitRows text).length →
      rejected (probe text) line = none) ∧
    ∀ o, commentOut probe text = some o →
      o.text = joinRows ((marked (rejected (probe text)) 1 (splitRows text)).map Prod.fst) ∧
      splitRows o.text = (marked (rejected (probe text)) 1 (splitRows text)).map Prod.fst ∧
      o.notice.shown = (insertedLines (marked (rejected (probe text)) 1 (splitRows text))).take 10 ∧
      o.notice.shown.length + o.notice.more =
        (insertedLines (marked (rejected (probe text)) 1 (splitRows text))).length ∧
      ∀ verdict, probe text = probeOf verdict text →
        commentOut (probeOf verdict) o.text = none := by
  refine ⟨?_, fun o ho => ?_⟩
  · rw [commentOut_eq, ← insertedLines_eq_nil_iff]
    split
    · exact iff_of_true rfl ‹_›
    · exact iff_of_false (Option.some_ne_none _) ‹_›
  · have hrows := rewritten_rows probe text ho
    have htext : o.text = joinRows (splitRows o.text) := (joinRows_splitRows o.text).symm
    refine ⟨hrows ▸ htext, hrows, ?_⟩
    have hsecond := fun verdict hprobe =>
      commentOut_of_no_errors (probeOf verdict) o.text (second_run probe text ho hprobe)
    rw [commentOut_eq] at ho
    split at ho
    · cases ho
    · obtain rfl := Option.some.inj ho
      refine ⟨rfl, ?_, hsecond⟩
      exact Nat.add_sub_cancel' (List.length_take_le' _ _)

/-- Two rejected rows among three, the last one without a line end. -/
theorem commentOut_rejected_mixed :
    ∃ o,
      commentOut (fun _ => ["line 3: x".toList, "line 2: y".toList]) "a\r\n(\r)".toList =
        some o ∧
      o.text = ("a\r\n# blocked at package upgrade: y\r# (\r" ++
        "# blocked at package upgrade: x\n# )").toList ∧
      o.notice.shown = [2, 4] := by
  refine ⟨_, rfl, ?_⟩
  obtain ⟨htext, -, hshown, -⟩ := (commentOut_rejected
    (fun _ => ["line 3: x".toList, "line 2: y".toList]) "a\r\n(\r)".toList).2 _ rfl
  exact ⟨htext.trans (by decide), hshown.trans (by decide)⟩

/-- Eleven rejected rows: the comment on line 21 is not among the announced ones. -/
theorem commentOut_eleven :
    ∃ o, commentOut (probeOf fun _ => some ['x']) (List.replicate 11 ['(', '\n']).flatten = some o ∧
      21 ∈ insertedLines (marked (rejected (probeOf (fun _ => some ['x'])
        (List.replicate 11 ['(', '\n']).flatten)) 1
          (splitRows (List.replicate 11 ['(', '\n']).flatten)) ∧
      21 ∉ o.notice.shown :=
  ⟨_, rfl, by decide, by decide⟩

end PfBlockerNG.RegexUpgrade
