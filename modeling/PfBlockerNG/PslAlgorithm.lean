import Mathlib.Data.Set.Defs
import PfBlockerNG.PublicSuffix

/-!
The reading of the public suffix list and the published algorithm on rules and labels: the one
walk over the tails of a name yields the suffix of the prevailing rule, with and without the
private section.
-/

namespace PfBlockerNG.PslAlgorithm

open PfBlockerNG.Strings
open PfBlockerNG.PyText
open PfBlockerNG.PublicSuffix

/-! ### The longest suffix with a property -/

section LongestSuffix

variable {α : Type} (p : List α → Bool)

/-- The longest non-empty suffix that has the property. -/
def longestSuffix : List α → Option (List α)
  | [] => none
  | a :: l => if p (a :: l) then some (a :: l) else longestSuffix l

theorem longestSuffix_eq_none {l : List α} (h : longestSuffix p l = none) :
    ∀ t, t ≠ [] → t <:+ l → p t = false := by
  induction l with
  | nil =>
      intro t hne hsuf
      exact absurd (List.suffix_nil.mp hsuf) hne
  | cons a l ih =>
      intro t hne hsuf
      rw [longestSuffix] at h
      split at h
      · cases h
      · next hp =>
          rcases List.suffix_cons_iff.mp hsuf with rfl | hsuf
          · simpa using hp
          · exact ih h t hne hsuf

theorem longestSuffix_eq_some {l s : List α} (h : longestSuffix p l = some s) :
    s ≠ [] ∧ s <:+ l ∧ p s = true ∧ ∀ t, t <:+ l → p t = true → t.length ≤ s.length := by
  induction l with
  | nil => cases h
  | cons a l ih =>
      rw [longestSuffix] at h
      split at h
      · next hp =>
          injection h with h
          subst h
          exact ⟨List.cons_ne_nil a l, List.suffix_rfl, hp, fun t hsuf _ => hsuf.length_le⟩
      · next hp =>
          obtain ⟨hne, hsuf, hs, hmax⟩ := ih h
          refine ⟨hne, hsuf.trans (List.suffix_cons a l), hs, fun t ht hpt => ?_⟩
          rcases List.suffix_cons_iff.mp ht with rfl | ht
          · exact absurd hpt hp
          · exact hmax t ht hpt

end LongestSuffix

/-! ### The authority text -/

def isLineBreak (c : Char) : Bool :=
  let n := c.toNat
  (10 ≤ n && n ≤ 13) || (28 ≤ n && n ≤ 30) || n == 0x85 || n == 0x2028 || n == 0x2029

/-- The loop of `str.splitlines`: `line` is what the open line holds. -/
def splitlinesFrom : Str → Str → List Str
  | line, [] => if line.isEmpty then [] else [line]
  | line, '\r' :: '\n' :: text => line :: splitlinesFrom [] text
  | line, c :: text =>
      if isLineBreak c then line :: splitlinesFrom [] text else splitlinesFrom (line ++ [c]) text

def splitlines (text : Str) : List Str := splitlinesFrom [] text

/-- Syntax of a rule. -/
inductive Kind where
  | exact
  | wildcard
  | exception
  deriving DecidableEq, Repr

def isRuleComment (line : Str) : Bool := startsWith ['#'] line || startsWith ['/', '/'] line

/-- `_psl_rule_token`: the kind and the normalized name of a rule. -/
def pslRuleToken (u : Unicode) (raw : Str) : Except Invalid (Kind × Str) := do
  let token := (strip raw).takeWhile (!isSpace ·)
  if token.isEmpty || isRuleComment token then throw "not a rule".toList
  let (kind, token) ←
    if startsWith ['!'] token then pure (Kind.exception, token.drop 1)
    else if startsWith ['*', '.'] token then pure (Kind.wildcard, token.drop 2)
    else if token.contains '*' || token.contains '!' then throw "invalid PSL rule".toList
    else pure (Kind.exact, token)
  if token.isEmpty || startsWith ['.'] token || endsWith ['.'] token ||
      (find ['.', '.'] token).isSome then
    throw "invalid PSL rule".toList
  let labels ← normalizeName u token
  return (kind, joinDots labels)

/-- Rules of a section in source order. -/
def pslTokens (u : Unicode) (lines : List Str) : Except Invalid (List (Kind × Str)) :=
  ((lines.map strip).filter fun line => !(line.isEmpty || isRuleComment line)).mapM
    (pslRuleToken u)

def tokensOf (kind : Kind) (tokens : List (Kind × Str)) : List Str :=
  tokens.filterMap fun token => if token.1 = kind then some token.2 else none

/-- An exception stands under a wildcard of its section. -/
def hasFamily (wildcard : List Str) (rule : Str) : Bool :=
  match after '.' rule with
  | some family => wildcard.contains family
  | none => false

/-- `_psl_section`. -/
def pslSection (u : Unicode) (lines : List Str) : Except Invalid PslSets := do
  let tokens ← pslTokens u lines
  let sets : PslSets :=
    ⟨tokensOf .exact tokens, tokensOf .wildcard tokens, tokensOf .exception tokens⟩
  if sets.exception.all (hasFamily sets.wildcard) then return sets
  else throw "PSL exception has no wildcard family".toList

def pslMarkers : List Str :=
  ["// ===BEGIN ICANN DOMAINS===".toList, "// ===END ICANN DOMAINS===".toList,
    "// ===BEGIN PRIVATE DOMAINS===".toList, "// ===END PRIVATE DOMAINS===".toList]

/-- The only line that is the marker. -/
def markerPosition (lines : List Str) (marker : Str) : Except Invalid Nat :=
  match (List.range lines.length).filter fun i => (lines[i]?).any (strip · == marker) with
  | [i] => .ok i
  | _ => .error "PSL authority markers missing or duplicated".toList

/-- `lines[first + 1 : last]`. -/
def between (lines : List Str) (first last : Nat) : List Str := (lines.take last).drop (first + 1)

/-- `parse_psl_rules`. -/
def parsePslRules (u : Unicode) (text : Str) : Except Invalid PslRules := do
  let lines := splitlines text
  match ← pslMarkers.mapM (markerPosition lines) with
  | [first, last, privateFirst, privateLast] =>
      if first < last ∧ last < privateFirst ∧ privateFirst < privateLast then
        let icann ← pslSection u (between lines first last)
        let priv ← pslSection u (between lines privateFirst privateLast)
        return ⟨icann.exact, icann.wildcard, icann.exception,
          priv.exact, priv.wildcard, priv.exception⟩
      else throw "PSL authority markers out of order".toList
  | _ => throw "PSL authority markers missing or duplicated".toList

/-! ### The published algorithm -/

/-- A rule as labels; a wildcard holds the labels below its leftmost one. -/
inductive Rule where
  | exact (labels : List Str)
  | wildcard (base : List Str)
  | exception (labels : List Str)

namespace Rule

def Matches (name : List Str) : Rule → Prop
  | .exact labels => labels <:+ name
  | .wildcard base => ∃ label, label :: base <:+ name
  | .exception labels => labels <:+ name

/-- Number of labels. -/
def size : Rule → Nat
  | .exact labels => labels.length
  | .wildcard base => base.length + 1
  | .exception labels => labels.length

def IsException : Rule → Prop
  | .exception _ => True
  | _ => False

/-- The public suffix a prevailing rule gives: the labels it matches, without the leftmost one of
an exception. -/
def suffix (name : List Str) : Rule → List Str
  | .exception labels => lastN (labels.length - 1) name
  | rule => lastN rule.size name

end Rule

/-- The prevailing rule: an exception before any other match, of either kind the one with the most
labels. -/
def Wins (rules : Set Rule) (name : List Str) (rule : Rule) : Prop :=
  rule ∈ rules ∧ rule.Matches name ∧
    ∀ other ∈ rules, other.Matches name →
      (other.IsException → rule.IsException) ∧
        ((other.IsException ↔ rule.IsException) → other.size ≤ rule.size)

/-- The public suffix of a name: that of the prevailing rule, or the last label. -/
def Prevails (rules : Set Rule) (name suffix : List Str) : Prop :=
  (∃ rule, Wins rules name rule ∧ suffix = rule.suffix name) ∨
    (∀ rule ∈ rules, ¬ rule.Matches name) ∧ suffix = lastN 1 name

/-- The rules the texts of a section spell. -/
def rulesOf (sets : PslSets) : Set Rule := fun rule =>
  match rule with
  | .exact labels => ∃ text ∈ sets.exact, labels = splitDots text
  | .wildcard base => ∃ text ∈ sets.wildcard, base = splitDots text
  | .exception labels => ∃ text ∈ sets.exception, labels = splitDots text

theorem Wins.suffix_eq {rules : Set Rule} {name : List Str} {rule other : Rule}
    (h : Wins rules name rule) (h' : Wins rules name other) :
    rule.suffix name = other.suffix name := by
  obtain ⟨hmem, hmatch, hbest⟩ := h
  obtain ⟨hmem', hmatch', hbest'⟩ := h'
  have hkind : other.IsException ↔ rule.IsException :=
    ⟨(hbest other hmem' hmatch').1, (hbest' rule hmem hmatch).1⟩
  have hsize : other.size = rule.size :=
    le_antisymm ((hbest other hmem' hmatch').2 hkind) ((hbest' rule hmem hmatch).2 hkind.symm)
  cases rule <;> cases other <;> simp_all [Rule.suffix, Rule.IsException, Rule.size]

/-- A name has one public suffix. -/
theorem Prevails.unique {rules : Set Rule} {name s t : List Str} (hs : Prevails rules name s)
    (ht : Prevails rules name t) : s = t := by
  rcases hs with ⟨rule, hwins, rfl⟩ | ⟨hnone, rfl⟩
  · rcases ht with ⟨other, hwins', rfl⟩ | ⟨hnone, -⟩
    · exact hwins.suffix_eq hwins'
    · exact absurd hwins.2.1 (hnone rule hwins.1)
  · rcases ht with ⟨other, hwins', rfl⟩ | ⟨-, rfl⟩
    · exact absurd hwins'.2.1 (hnone other hwins'.1)
    · rfl

/-! ### The walk -/

/-- The walk of one section. -/
def walkLoop (sets : PslSets) : Option Str → List Str → Walk → Walk
  | _, [], w => w
  | before, tail :: rest, w =>
      walkLoop sets (some tail) rest
        (ordinary sets before tail (carve w (sets.exception.contains tail) (rest.headD [])))

/-- The two sections walk side by side, as the exceptions of one are among those of both. -/
theorem prevailingLoop_eq {icann combined : PslSets}
    (hsub : ∀ t, icann.exception.contains t = true → combined.exception.contains t = true)
    (before : Option Str) (rest : List Str) (i w : Walk) :
    prevailingLoop icann combined before rest i w =
      (walkLoop icann before rest i, walkLoop combined before rest w) := by
  induction rest generalizing before i w with
  | nil => rfl
  | cons tail rest ih =>
      have hboth : (combined.exception.contains tail && icann.exception.contains tail) =
          icann.exception.contains tail := by
        rw [Bool.and_eq_right_iff_imp]
        exact hsub tail
      simp only [prevailingLoop, walkLoop, hboth, ih]

def isExceptionTail (sets : PslSets) (tail : List Str) : Bool :=
  sets.exception.contains (joinDots tail)

/-- A tail that is an exact rule, or one label below a wildcard's base. -/
def isOrdinaryTail (sets : PslSets) (tail : List Str) : Bool :=
  sets.exact.contains (joinDots tail) ||
    (!tail.tail.isEmpty && sets.wildcard.contains (joinDots tail.tail))

/-- The ordinary suffix still to be found, `before` being the tail just passed. -/
def ordinaryFrom (sets : PslSets) (before : Option (List Str)) (labels : List Str) :
    Option (List Str) :=
  match before with
  | some longer =>
      if !labels.isEmpty && sets.wildcard.contains (joinDots labels) then some longer
      else longestSuffix (isOrdinaryTail sets) labels
  | none => longestSuffix (isOrdinaryTail sets) labels

theorem headD_tails (labels : List Str) : (tails labels).headD [] = joinDots labels := by
  cases labels with
  | nil => rfl
  | cons label labels => rfl

theorem ordinaryFrom_cons {sets : PslSets} {label : Str} {labels : List Str}
    (hexact : sets.exact.contains (joinDots (label :: labels)) = false) :
    longestSuffix (isOrdinaryTail sets) (label :: labels) =
      ordinaryFrom sets (some (label :: labels)) labels := by
  rw [longestSuffix]
  simp only [isOrdinaryTail, List.tail_cons, hexact, Bool.false_or, ordinaryFrom]

/-- What one tail adds to a walk that has no suffix. -/
theorem ordinary_of_suffix_eq_none (sets : PslSets) (before : Option (List Str)) (label : Str)
    (labels : List Str) (w : Walk) (hs : w.suffix = none) :
    ∃ found, ordinary sets (before.map joinDots) (joinDots (label :: labels)) w =
        { w with suffix := found.map joinDots } ∧
      ordinaryFrom sets before (label :: labels) =
        if found.isSome then found else ordinaryFrom sets (some (label :: labels)) labels := by
  by_cases hwild : before.isSome = true ∧ joinDots (label :: labels) ∈ sets.wildcard
  · obtain ⟨hbefore, hwild⟩ := hwild
    obtain ⟨longer, rfl⟩ := Option.isSome_iff_exists.mp hbefore
    refine ⟨some longer, ?_, ?_⟩
    · simp [ordinary, hs, hwild]
    · simp [ordinaryFrom, hwild]
  · have hfrom : ordinaryFrom sets before (label :: labels) =
        longestSuffix (isOrdinaryTail sets) (label :: labels) := by
      cases before with
      | none => rfl
      | some longer =>
          simp only [ordinaryFrom, ite_eq_right_iff]
          intro h
          simp_all
    rw [hfrom]
    by_cases hexact : joinDots (label :: labels) ∈ sets.exact
    · refine ⟨some (label :: labels), ?_, ?_⟩
      · cases before <;> simp_all [ordinary]
      · simp [longestSuffix, isOrdinaryTail, hexact]
    · refine ⟨none, ?_, ?_⟩
      · cases w with
        | mk suffix carved => cases before <;> simp_all [ordinary]
      · simpa using ordinaryFrom_cons (by simpa using hexact)

/-- What the walk over the tails of `labels` ends with. -/
theorem walkLoop_tails (sets : PslSets) (labels : List Str) (before : Option (List Str))
    (w : Walk) (hw : w.carved = true → w.suffix.isSome = true) :
    (walkLoop sets (before.map joinDots) (tails labels) w).suffix =
      match (if w.carved then none else longestSuffix (isExceptionTail sets) labels) with
      | some tail => some (joinDots tail.tail)
      | none => if w.suffix.isSome then w.suffix
          else (ordinaryFrom sets before labels).map joinDots := by
  induction labels generalizing before w with
  | nil =>
      cases before <;> cases hs : w.suffix <;>
        simp [tails, walkLoop, longestSuffix, ordinaryFrom, hs]
  | cons label labels ih =>
      rw [tails, walkLoop, headD_tails]
      have hih := ih (some (label :: labels))
      rw [Option.map_some] at hih
      by_cases hcarved : w.carved = true
      · have hs := hw hcarved
        have hcarve : carve w (sets.exception.contains (joinDots (label :: labels)))
            (joinDots labels) = w := by simp [carve, hcarved]
        have hordinary :
            ordinary sets (before.map joinDots) (joinDots (label :: labels)) w = w := by
          simp [ordinary, hs]
        rw [hcarve, hordinary, hih w hw]
        simp [hcarved, hs]
      · cases hhit : sets.exception.contains (joinDots (label :: labels)) with
        | true =>
            have hcarve : carve w true (joinDots labels) = ⟨some (joinDots labels), true⟩ := by
              simp [carve, hcarved]
            have hordinary : ordinary sets (before.map joinDots) (joinDots (label :: labels))
                ⟨some (joinDots labels), true⟩ = ⟨some (joinDots labels), true⟩ := rfl
            rw [hcarve, hordinary, hih _ (fun _ => rfl)]
            rw [longestSuffix, isExceptionTail, hhit]
            simp [hcarved]
        | false =>
            have hcarve : carve w false (joinDots labels) = w := by simp [carve]
            have hlongest : longestSuffix (isExceptionTail sets) (label :: labels) =
                longestSuffix (isExceptionTail sets) labels := by
              rw [longestSuffix, isExceptionTail, hhit]
              rfl
            rw [hcarve, hlongest]
            cases hs : w.suffix with
            | some suffix =>
                have hordinary :
                    ordinary sets (before.map joinDots) (joinDots (label :: labels)) w = w := by
                  simp [ordinary, hs]
                rw [hordinary, hih w hw]
                simp [hs]
            | none =>
                obtain ⟨found, hordinary, hfrom⟩ :=
                  ordinary_of_suffix_eq_none sets before label labels w hs
                rw [hordinary, hfrom,
                  hih { w with suffix := found.map joinDots } (fun h => absurd h hcarved)]
                cases found <;> simp

/-- The labels of the suffix the walk of one section finds. -/
def walkedSuffix (sets : PslSets) (name : List Str) : List Str :=
  match longestSuffix (isExceptionTail sets) name with
  | some tail => tail.tail
  | none => (longestSuffix (isOrdinaryTail sets) name).getD (lastN 1 name)

theorem lastN_length {s name : List Str} (h : s <:+ name) : lastN s.length name = s := by
  obtain ⟨front, rfl⟩ := h
  rw [lastN, List.length_append, Nat.add_sub_cancel_right, List.drop_left]

theorem lastN_one {name : List Str} (hne : name ≠ []) : lastN 1 name = [name.getLastD []] := by
  obtain ⟨front, label, rfl⟩ := List.eq_nil_or_concat name |>.resolve_left hne
  rw [List.concat_eq_append, List.getLastD_concat]
  exact lastN_length (List.suffix_append front [label])

theorem walkLoop_suffix (sets : PslSets) {name : List Str} (hne : name ≠ []) :
    (walkLoop sets none (tails name) {}).suffix.getD (name.getLastD []) =
      joinDots (walkedSuffix sets name) := by
  have hwalk := walkLoop_tails sets name none {} (by simp)
  simp only [Option.map_none] at hwalk
  rw [hwalk, walkedSuffix, ordinaryFrom]
  have hlast : joinDots (lastN 1 name) = name.getLastD [] := by
    rw [lastN_one hne]
    exact List.intercalate_singleton
  cases longestSuffix (isExceptionTail sets) name with
  | some tail => rfl
  | none => cases longestSuffix (isOrdinaryTail sets) name <;> simp [hlast]

/-- Both suffixes come from one walk of each section. -/
theorem prevailing_eq (rules : PslRules) {name : List Str} (hne : name ≠ []) :
    prevailing rules name =
      (joinDots (walkedSuffix rules.icannSets name),
        joinDots (walkedSuffix rules.combinedSets name)) := by
  have hsub : ∀ t, rules.icannSets.exception.contains t = true →
      rules.combinedSets.exception.contains t = true := by
    intro t ht
    rw [List.contains_iff_mem] at ht ⊢
    exact List.mem_append_left _ ht
  rw [prevailing, prevailingLoop_eq hsub]
  simp only [walkLoop_suffix _ hne]

/-! ### The walk finds the prevailing rule -/

theorem splitDots_joinDots {labels : List Str} (hne : labels ≠ []) (hdots : ∀ l ∈ labels, '.' ∉ l) :
    splitDots (joinDots labels) = labels := List.splitOn_intercalate '.' hdots hne

theorem joinDots_splitDots (text : Str) : joinDots (splitDots text) = text :=
  List.intercalate_splitOn '.'

/-- A matching rule as a tail of the name. -/
theorem exists_tail_of_matches {sets : PslSets} {name : List Str} {rule : Rule}
    (hrule : rule ∈ rulesOf sets) (hmatch : rule.Matches name) :
    ∃ tail, tail ≠ [] ∧ tail <:+ name ∧ tail.length = rule.size ∧
      (rule.IsException → isExceptionTail sets tail = true) ∧
      (¬ rule.IsException → isOrdinaryTail sets tail = true) := by
  cases rule with
  | exact labels =>
      obtain ⟨text, htext, rfl⟩ := hrule
      refine ⟨splitDots text, List.splitOn_ne_nil _ _, hmatch, rfl, False.elim, fun _ => ?_⟩
      rw [isOrdinaryTail, joinDots_splitDots]
      simp [htext]
  | wildcard base =>
      obtain ⟨text, htext, rfl⟩ := hrule
      obtain ⟨label, hsuf⟩ := hmatch
      refine ⟨label :: splitDots text, List.cons_ne_nil _ _, hsuf, rfl, False.elim, fun _ => ?_⟩
      have hne : splitDots text ≠ [] := List.splitOn_ne_nil _ _
      rw [isOrdinaryTail, List.tail_cons, joinDots_splitDots]
      simp [htext, hne]
  | exception labels =>
      obtain ⟨text, htext, rfl⟩ := hrule
      refine ⟨splitDots text, List.splitOn_ne_nil _ _, hmatch, rfl, fun _ => ?_,
        fun h => absurd trivial h⟩
      rw [isExceptionTail, joinDots_splitDots]
      simp [htext]

section Prevailing

variable {sets : PslSets} {name tail : List Str}

theorem wins_exception (hdots : ∀ l ∈ name, '.' ∉ l)
    (h : longestSuffix (isExceptionTail sets) name = some tail) :
    Wins (rulesOf sets) name (.exception tail) := by
  obtain ⟨hne, hsuf, htail, hmax⟩ := longestSuffix_eq_some _ h
  have hsplit : splitDots (joinDots tail) = tail :=
    splitDots_joinDots hne fun l hl => hdots l (hsuf.subset hl)
  rw [isExceptionTail, List.contains_iff_mem] at htail
  refine ⟨⟨joinDots tail, htail, hsplit.symm⟩, hsuf, fun other hother hmatch => ?_⟩
  refine ⟨fun _ => trivial, fun hkind => ?_⟩
  obtain ⟨t, -, htsuf, htsize, htexc, -⟩ := exists_tail_of_matches hother hmatch
  rw [← htsize]
  exact hmax t htsuf (htexc (hkind.mpr trivial))

/-- Without a matching exception every matching rule is an ordinary tail. -/
theorem ordinary_of_matches (hnone : longestSuffix (isExceptionTail sets) name = none)
    {rule : Rule} (hrule : rule ∈ rulesOf sets) (hmatch : rule.Matches name) :
    ¬ rule.IsException ∧ ∃ t, t ≠ [] ∧ t <:+ name ∧ t.length = rule.size ∧
      isOrdinaryTail sets t = true := by
  obtain ⟨t, htne, htsuf, htsize, htexc, htord⟩ := exists_tail_of_matches hrule hmatch
  have hnot : ¬ rule.IsException := fun h => by
    have hfalse := longestSuffix_eq_none _ hnone t htne htsuf
    rw [htexc h] at hfalse
    cases hfalse
  exact ⟨hnot, t, htne, htsuf, htsize, htord hnot⟩

theorem exists_wins_ordinary (hdots : ∀ l ∈ name, '.' ∉ l)
    (hnone : longestSuffix (isExceptionTail sets) name = none)
    (h : longestSuffix (isOrdinaryTail sets) name = some tail) :
    ∃ rule, Wins (rulesOf sets) name rule ∧ tail = rule.suffix name := by
  obtain ⟨hne, hsuf, htail, hmax⟩ := longestSuffix_eq_some _ h
  have hdotsTail : ∀ l ∈ tail, '.' ∉ l := fun l hl => hdots l (hsuf.subset hl)
  have hbest : ∀ rule : Rule, ¬ rule.IsException → rule.size = tail.length →
      ∀ other ∈ rulesOf sets, other.Matches name →
        (other.IsException → rule.IsException) ∧
          ((other.IsException ↔ rule.IsException) → other.size ≤ rule.size) := by
    intro rule _ hsize other hother hmatch
    obtain ⟨hnot, t, -, htsuf, htsize, htord⟩ := ordinary_of_matches hnone hother hmatch
    refine ⟨fun h => absurd h hnot, fun _ => ?_⟩
    rw [hsize, ← htsize]
    exact hmax t htsuf htord
  rw [isOrdinaryTail, Bool.or_eq_true, List.contains_iff_mem] at htail
  rcases htail with hexact | hwild
  · have hmem : Rule.exact tail ∈ rulesOf sets :=
      ⟨joinDots tail, hexact, (splitDots_joinDots hne hdotsTail).symm⟩
    exact ⟨.exact tail, ⟨hmem, hsuf, hbest _ id rfl⟩, (lastN_length hsuf).symm⟩
  · obtain _ | ⟨label, base⟩ := tail
    · exact absurd rfl hne
    · rw [List.tail_cons, Bool.and_eq_true, List.contains_iff_mem] at hwild
      obtain ⟨hbase, hwild⟩ := hwild
      have hbaseNe : base ≠ [] := by
        rintro rfl
        cases hbase
      have hmem : Rule.wildcard base ∈ rulesOf sets :=
        ⟨joinDots base, hwild, (splitDots_joinDots hbaseNe
          fun l hl => hdotsTail l (List.mem_cons_of_mem _ hl)).symm⟩
      exact ⟨.wildcard base, ⟨hmem, ⟨label, hsuf⟩, hbest _ id rfl⟩, (lastN_length hsuf).symm⟩

/-- What the walk finds is the published suffix. -/
theorem prevails_walkedSuffix (hdots : ∀ l ∈ name, '.' ∉ l) :
    Prevails (rulesOf sets) name (walkedSuffix sets name) := by
  rw [walkedSuffix]
  cases hexc : longestSuffix (isExceptionTail sets) name with
  | some tail =>
      refine Or.inl ⟨.exception tail, wins_exception hdots hexc, ?_⟩
      have hsuf : tail.tail <:+ name :=
        (List.tail_suffix tail).trans (longestSuffix_eq_some _ hexc).2.1
      have hlast := lastN_length hsuf
      rw [List.length_tail] at hlast
      exact hlast.symm
  | none =>
      cases hord : longestSuffix (isOrdinaryTail sets) name with
      | some tail => exact Or.inl (exists_wins_ordinary hdots hexc hord)
      | none =>
          refine Or.inr ⟨fun rule hrule hmatch => ?_, rfl⟩
          obtain ⟨-, t, htne, htsuf, -, htord⟩ := ordinary_of_matches hexc hrule hmatch
          have hfalse := longestSuffix_eq_none _ hord t htne htsuf
          rw [htord] at hfalse
          cases hfalse

/-- Every exception is below a wildcard base, so it has a dot. -/
def ExceptionsDotted (sets : PslSets) : Prop := ∀ text ∈ sets.exception, '.' ∈ text

theorem walkedSuffix_suffix (hne : name ≠ []) (hdots : ∀ l ∈ name, '.' ∉ l)
    (hdotted : ExceptionsDotted sets) :
    walkedSuffix sets name ≠ [] ∧ walkedSuffix sets name <:+ name := by
  rw [walkedSuffix]
  cases hexc : longestSuffix (isExceptionTail sets) name with
  | some tail =>
      obtain ⟨htne, hsuf, htail, -⟩ := longestSuffix_eq_some _ hexc
      refine ⟨fun hnil => ?_, (List.tail_suffix tail).trans hsuf⟩
      obtain ⟨label, rfl⟩ : ∃ label, tail = [label] := by
        obtain _ | ⟨label, rest⟩ := tail
        · exact absurd rfl htne
        · exact ⟨label, congrArg (label :: ·) hnil⟩
      rw [isExceptionTail, List.contains_iff_mem] at htail
      have hdot := hdotted _ htail
      rw [joinDots, List.intercalate_singleton] at hdot
      exact hdots label (hsuf.subset List.mem_cons_self) hdot
  | none =>
      cases hord : longestSuffix (isOrdinaryTail sets) name with
      | some tail =>
          obtain ⟨htne, hsuf, -⟩ := longestSuffix_eq_some _ hord
          exact ⟨htne, hsuf⟩
      | none =>
          refine ⟨?_, List.drop_suffix _ _⟩
          show lastN 1 name ≠ []
          rw [lastN_one hne]
          exact List.cons_ne_nil _ _

end Prevailing

/-! ### The authority's rules -/

theorem dot_mem_of_hasFamily {wildcard : List Str} {rule : Str} (h : hasFamily wildcard rule) :
    '.' ∈ rule := by
  rw [hasFamily] at h
  cases hafter : after '.' rule with
  | none => simp [hafter] at h
  | some family =>
      obtain ⟨label, -, rfl⟩ := (after_eq_some_iff '.' rule family).mp hafter
      simp

theorem pslSection_exceptionsDotted {u : Unicode} {lines : List Str} {sets : PslSets}
    (h : pslSection u lines = .ok sets) : ExceptionsDotted sets := by
  unfold pslSection at h
  cases htokens : pslTokens u lines with
  | error reason => simp [htokens, bind, Except.bind] at h
  | ok tokens =>
      simp only [htokens, bind, Except.bind] at h
      split at h
      · next hfamily =>
          injection h with h
          subst h
          exact fun text htext => dot_mem_of_hasFamily (List.all_eq_true.mp hfamily text htext)
      · cases h

/-- An accepted authority consists of its two sections. -/
theorem exists_sections_of_parsePslRules {u : Unicode} {text : Str} {rules : PslRules}
    (h : parsePslRules u text = .ok rules) :
    ∃ icann priv : PslSets, ExceptionsDotted icann ∧ ExceptionsDotted priv ∧
      rules = ⟨icann.exact, icann.wildcard, icann.exception,
        priv.exact, priv.wildcard, priv.exception⟩ := by
  unfold parsePslRules at h
  cases hmarkers : pslMarkers.mapM (markerPosition (splitlines text)) with
  | error reason => simp [hmarkers, bind, Except.bind] at h
  | ok positions =>
      simp only [hmarkers, bind, Except.bind] at h
      split at h
      · next first last privateFirst privateLast =>
          split at h
          · cases hicann : pslSection u (between (splitlines text) first last) with
            | error reason => simp [hicann] at h
            | ok icann =>
                cases hpriv : pslSection u
                    (between (splitlines text) privateFirst privateLast) with
                | error reason => simp [hicann, hpriv] at h
                | ok priv =>
                    simp only [hicann, hpriv] at h
                    injection h with h
                    exact ⟨icann, priv, pslSection_exceptionsDotted hicann,
                      pslSection_exceptionsDotted hpriv, h.symm⟩
          · cases h
      · cases h

theorem exceptionsDotted_of_parsePslRules {u : Unicode} {text : Str} {rules : PslRules}
    (h : parsePslRules u text = .ok rules) :
    ExceptionsDotted rules.icannSets ∧ ExceptionsDotted rules.combinedSets := by
  obtain ⟨icann, priv, hicann, hpriv, rfl⟩ := exists_sections_of_parsePslRules h
  refine ⟨hicann, fun text htext => ?_⟩
  rcases List.mem_append.mp htext with htext | htext
  · exact hicann text htext
  · exact hpriv text htext

/-- The two suffixes of a name are those of the published algorithm, for the ICANN rules alone and
for both sections, and each is a non-empty suffix of the name. -/
theorem prevailing_is_published {u : Unicode} {text : Str} {rules : PslRules}
    (hparse : parsePslRules u text = .ok rules) {name : List Str} (hne : name ≠ [])
    (hdots : ∀ label ∈ name, '.' ∉ label) :
    ∃ icann pub, prevailing rules name = (joinDots icann, joinDots pub) ∧
      (∀ s, Prevails (rulesOf rules.icannSets) name s ↔ s = icann) ∧
      (∀ s, Prevails (rulesOf rules.combinedSets) name s ↔ s = pub) ∧
      (icann ≠ [] ∧ icann <:+ name) ∧ pub ≠ [] ∧ pub <:+ name := by
  obtain ⟨hicann, hcombined⟩ := exceptionsDotted_of_parsePslRules hparse
  refine ⟨_, _, prevailing_eq rules hne, fun s => ?_, fun s => ?_,
    walkedSuffix_suffix hne hdots hicann, walkedSuffix_suffix hne hdots hcombined⟩
  · refine ⟨fun h => h.unique (prevails_walkedSuffix hdots), ?_⟩
    rintro rfl
    exact prevails_walkedSuffix hdots
  · refine ⟨fun h => h.unique (prevails_walkedSuffix hdots), ?_⟩
    rintro rfl
    exact prevails_walkedSuffix hdots

/-- An authority with a wildcard, an exception and a private rule. -/
def islandAuthority : Str :=
  ("// ===BEGIN ICANN DOMAINS===\ncom\n*.ck\n!www.ck\n// ===END ICANN DOMAINS===\n" ++
    "// ===BEGIN PRIVATE DOMAINS===\nblog.ck\n// ===END PRIVATE DOMAINS===\n").toList

def islandRules : PslRules where
  icannExact := ["com".toList]
  icannWildcard := ["ck".toList]
  icannException := ["www.ck".toList]
  privateExact := ["blog.ck".toList]

theorem parsePslRules_islandAuthority :
    parsePslRules asciiOnly islandAuthority = .ok islandRules := by
  decide +kernel

theorem prevailing_is_published_island :
    ∃ icann pub, prevailing islandRules ["a".toList, "www".toList, "ck".toList] =
        (joinDots icann, joinDots pub) ∧
      (∀ s, Prevails (rulesOf islandRules.icannSets) ["a".toList, "www".toList, "ck".toList] s ↔
        s = icann) ∧
      (∀ s, Prevails (rulesOf islandRules.combinedSets) ["a".toList, "www".toList, "ck".toList] s ↔
        s = pub) ∧
      (icann ≠ [] ∧ icann <:+ ["a".toList, "www".toList, "ck".toList]) ∧
      pub ≠ [] ∧ pub <:+ ["a".toList, "www".toList, "ck".toList] :=
  prevailing_is_published parsePslRules_islandAuthority (by decide) (by decide)

end PfBlockerNG.PslAlgorithm
