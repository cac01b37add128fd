import Mathlib.Data.List.Dedup
import PfBlockerNG.OrderedDict
import PfBlockerNG.Precedence

/-!
The literal prefilter of the regex lists: the literal every match of a parse tree holds, and the
index over it that picks the rules to search.
-/

namespace PfBlockerNG.LiteralPrefilter

open PfBlockerNG.Strings
open PfBlockerNG.PyText
open PfBlockerNG.OrderedDict
open PfBlockerNG.Bands
open PfBlockerNG.IdnAnalysis
open PfBlockerNG.RegexRules
open PfBlockerNG.Matcher

/-! ### Parse trees and what they match -/

/-- `str.lower` of a Latin-1 character. -/
def lowerLatin1 (c : Char) : Char :=
  let n := c.toNat
  if (65 ≤ n && n ≤ 90) || (0xC0 ≤ n && n ≤ 0xDE && n != 0xD7) then Char.ofNat (n + 32) else c

def lowered (s : Str) : Str := s.map lowerLatin1

/-- One item of a set: `LITERAL`, `RANGE`, `CATEGORY`. -/
inductive SetItem where
  | literal (c : Char)
  | range (low high : Nat)
  | category (e : ClassEscape)

/-- A node of the tree `sre_parse` builds. A group may add the flag `s`. -/
inductive Node where
  | literal (c : Char)
  | notLiteral (c : Char)
  | any
  | set (negated : Bool) (items : List SetItem)
  | at_ (z : Zero)
  | branch (alternatives : List (List Node))
  | subpattern (dotAll : Bool) (p : List Node)
  | maxRepeat (low : Nat) (high : Option Nat) (p : List Node)
  | minRepeat (low : Nat) (high : Option Nat) (p : List Node)

/-- The comparison of `IGNORECASE` for Latin-1 characters. -/
def sameLetter (c x : Char) : Bool := lowerLatin1 c == lowerLatin1 x

def SetItem.holds (x : Char) : SetItem → Bool
  | .literal c => sameLetter c x
  | .range low high => (List.range (high + 1)).any fun n => low ≤ n && sameLetter (Char.ofNat n) x
  | .category e => (Atom.ofEscape e).matches x

/-- Nodes that take one character. -/
def Node.takes (dotAll : Bool) (x : Char) : Node → Bool
  | .literal c => sameLetter c x
  | .notLiteral c => !sameLetter c x
  | .any => dotAll || x != '\n'
  | .set negated items => negated != items.any (SetItem.holds x)
  | _ => false

/-- A sequence of nodes matches `name` from one position to another. -/
inductive Match (name : Str) : Bool → List Node → Nat → Nat → Prop
  | nil {dotAll : Bool} {i : Nat} : Match name dotAll [] i i
  | single {dotAll : Bool} {node : Node} {rest : List Node} {i j : Nat} {x : Char} :
      name[i]? = some x → node.takes dotAll x = true → Match name dotAll rest (i + 1) j →
      Match name dotAll (node :: rest) i j
  | at_ {dotAll : Bool} {z : Zero} {rest : List Node} {i j : Nat} :
      z.holds name i = true → Match name dotAll rest i j → Match name dotAll (.at_ z :: rest) i j
  | branch {dotAll : Bool} {alternatives : List (List Node)} {p rest : List Node} {i k j : Nat} :
      p ∈ alternatives → Match name dotAll p i k → Match name dotAll rest k j →
      Match name dotAll (.branch alternatives :: rest) i j
  | subpattern {dotAll all : Bool} {p rest : List Node} {i k j : Nat} :
      Match name (dotAll || all) p i k → Match name dotAll rest k j →
      Match name dotAll (.subpattern all p :: rest) i j
  | maxRepeat {dotAll : Bool} {low : Nat} {high : Option Nat} {p rest : List Node} {i k j n : Nat} :
      low ≤ n → (∀ h ∈ high, n ≤ h) → Match name dotAll (List.replicate n p).flatten i k →
      Match name dotAll rest k j → Match name dotAll (.maxRepeat low high p :: rest) i j
  | minRepeat {dotAll : Bool} {low : Nat} {high : Option Nat} {p rest : List Node} {i k j n : Nat} :
      low ≤ n → (∀ h ∈ high, n ≤ h) → Match name dotAll (List.replicate n p).flatten i k →
      Match name dotAll rest k j → Match name dotAll (.minRepeat low high p :: rest) i j

/-- `re.search`: the tree matches somewhere in the name. -/
def Found (name : Str) (tree : List Node) : Prop := ∃ i j, Match name false tree i j

/-! ### The required literal -/

def flush (run : Str) : List Str := if run.isEmpty then [] else [run]

def Node.literal? : Node → Option Char
  | .literal c => some c
  | _ => none

mutual

/-- What `_runs` yields of a node that is no literal. -/
def nodeRuns : Node → List Str
  | .maxRepeat low _ p => if 1 ≤ low then runsFrom [] p else []
  | .minRepeat low _ p => if 1 ≤ low then runsFrom [] p else []
  | .subpattern _ p => runsFrom [] p
  | _ => []

/-- The loop of `_runs`: `run` is what `cur` holds. -/
def runsFrom (run : Str) : List Node → List Str
  | [] => flush run
  | node :: rest =>
      match node.literal? with
      | some c => runsFrom (run ++ [c]) rest
      | none => flush run ++ nodeRuns node ++ runsFrom [] rest

end

/-- `max(runs, key=len, default="")`. -/
def longest (runs : List Str) : Str :=
  runs.foldl (fun best run => if best.length < run.length then run else best) []

/-- The literal of a tree. -/
def treeLiteral (tree : List Node) : Option Str :=
  let best := longest (runsFrom [] tree)
  if 2 ≤ best.length then some (lowered best) else none

/-! ### Every match holds the literal -/

theorem mem_flush {run r : Str} (h : r ∈ flush run) : r = run := by
  unfold flush at h
  split at h
  · cases h
  · exact List.mem_singleton.mp h

theorem self_mem_flush {run : Str} (h : run ≠ []) : run ∈ flush run := by
  simp [flush, h]

theorem runsFrom_literal {node : Node} {c : Char} (h : node.literal? = some c) (run : Str)
    (rest : List Node) : runsFrom run (node :: rest) = runsFrom (run ++ [c]) rest := by
  rw [runsFrom, h]

theorem runsFrom_break {node : Node} (h : node.literal? = none) (run : Str) (rest : List Node) :
    runsFrom run (node :: rest) = flush run ++ nodeRuns node ++ runsFrom [] rest := by
  rw [runsFrom, h]

/-- A run that is open is part of a run that is yielded. -/
theorem exists_run_of_open (tree : List Node) {run : Str} (h : run ≠ []) :
    ∃ r ∈ runsFrom run tree, run <+: r := by
  induction tree generalizing run with
  | nil =>
      rw [runsFrom]
      exact ⟨run, self_mem_flush h, List.prefix_rfl⟩
  | cons node rest ih =>
      cases hnode : node.literal? with
      | some c =>
          obtain ⟨r, hr, hbegins⟩ := ih (List.append_ne_nil_of_left_ne_nil h [c])
          rw [runsFrom_literal hnode]
          exact ⟨r, hr, (List.prefix_append run [c]).trans hbegins⟩
      | none =>
          rw [runsFrom_break hnode, List.append_assoc]
          exact ⟨run, List.mem_append_left _ (self_mem_flush h), List.prefix_rfl⟩

/-- The runs of a sequence go into those of every longer one. -/
theorem exists_run_append (p q : List Node) {run r : Str} (h : r ∈ runsFrom run p) :
    ∃ r' ∈ runsFrom run (p ++ q), r <+: r' := by
  induction p generalizing run with
  | nil =>
      rw [runsFrom] at h
      obtain rfl := mem_flush h
      refine exists_run_of_open q ?_
      rintro rfl
      cases h
  | cons node rest ih =>
      rw [List.cons_append]
      cases hnode : node.literal? with
      | some c =>
          rw [runsFrom_literal hnode] at h ⊢
          exact ih h
      | none =>
          rw [runsFrom_break hnode] at h ⊢
          rcases List.mem_append.mp h with h | h
          · exact ⟨r, List.mem_append_left _ h, List.prefix_rfl⟩
          · obtain ⟨r', hr', hbegins⟩ := ih h
            exact ⟨r', List.mem_append_right _ hr', hbegins⟩

/-- `run` is what the name holds right before position `i`, up to case. -/
def Before (name run : Str) (i : Nat) : Prop := lowered run <:+ lowered (name.take i)

def Holds (name run : Str) : Prop := lowered run <:+: lowered name

theorem before_nil (name : Str) (i : Nat) : Before name [] i := List.nil_suffix

theorem Before.holds {name run : Str} {i : Nat} (h : Before name run i) : Holds name run :=
  h.isInfix.trans ((List.take_prefix i name).map lowerLatin1).isInfix

theorem Before.push {name run : Str} {i : Nat} {c x : Char} (h : Before name run i)
    (hx : name[i]? = some x) (hc : sameLetter c x = true) : Before name (run ++ [c]) (i + 1) := by
  have htake : name.take (i + 1) = name.take i ++ [x] := by
    rw [List.take_add_one, hx]
    rfl
  have hlower : lowerLatin1 c = lowerLatin1 x := by simpa [sameLetter] using hc
  obtain ⟨front, hfront⟩ := h
  refine ⟨front, ?_⟩
  rw [htake, lowered, lowered, List.map_append, List.map_append, List.map_singleton,
    List.map_singleton, hlower, ← List.append_assoc]
  exact congrArg (· ++ [lowerLatin1 x]) hfront

theorem Holds.of_shorter {name r r' : Str} (h : Holds name r') (hbegins : r <+: r') :
    Holds name r :=
  (hbegins.map lowerLatin1).isInfix.trans h

/-- What a repeat yields is what its body yields, and the body is matched when it must be. -/
theorem exists_run_of_repeat {low n : Nat} {p : List Node} (hlow : low ≤ n) {r : Str}
    (h : r ∈ if 1 ≤ low then runsFrom [] p else []) :
    ∃ r' ∈ runsFrom [] (List.replicate n p).flatten, r <+: r' := by
  split at h
  · next hone =>
      obtain ⟨m, rfl⟩ : ∃ m, n = m + 1 := ⟨n - 1, by omega⟩
      rw [List.replicate_succ, List.flatten_cons]
      exact exists_run_append p _ h
  · cases h

theorem holds_of_break {name run r : Str} {i : Nat} {node : Node} {rest : List Node}
    (hnode : node.literal? = none) (hrun : Before name run i)
    (hr : r ∈ runsFrom run (node :: rest)) (hbody : r ∈ nodeRuns node → Holds name r)
    (hrest : r ∈ runsFrom [] rest → Holds name r) : Holds name r := by
  rw [runsFrom_break hnode, List.append_assoc] at hr
  rcases List.mem_append.mp hr with hr | hr
  · obtain rfl := mem_flush hr
    exact hrun.holds
  · exact (List.mem_append.mp hr).elim hbody hrest

/-- The runs of a tree stand in every name it matches. -/
theorem Match.holds_run {name : Str} {dotAll : Bool} {tree : List Node} {i j : Nat}
    (h : Match name dotAll tree i j) {run r : Str} (hrun : Before name run i)
    (hr : r ∈ runsFrom run tree) : Holds name r := by
  induction h generalizing run r with
  | nil =>
      rw [runsFrom] at hr
      obtain rfl := mem_flush hr
      exact hrun.holds
  | @single dotAll node rest i j x hx htakes _ ih =>
      cases hnode : node.literal? with
      | some c =>
          obtain rfl : node = .literal c := by
            cases node <;> simp_all [Node.literal?]
          rw [runsFrom_literal hnode] at hr
          exact ih (hrun.push hx htakes) hr
      | none =>
          have hnone : nodeRuns node = [] := by
            cases node <;> first | rfl | cases htakes
          refine holds_of_break hnode hrun hr (fun hbody => ?_) (ih (before_nil name _))
          rw [hnone] at hbody
          cases hbody
  | at_ _ _ ih =>
      refine holds_of_break rfl hrun hr (fun hbody => ?_) (ih (before_nil name _))
      cases hbody
  | branch _ _ _ _ ih =>
      refine holds_of_break rfl hrun hr (fun hbody => ?_) (ih (before_nil name _))
      cases hbody
  | subpattern _ _ ihp ih =>
      exact holds_of_break rfl hrun hr (ihp (before_nil name _)) (ih (before_nil name _))
  | maxRepeat hlow _ _ _ ihp ih =>
      refine holds_of_break rfl hrun hr (fun hbody => ?_) (ih (before_nil name _))
      obtain ⟨r', hr', hbegins⟩ := exists_run_of_repeat hlow hbody
      exact (ihp (before_nil name _) hr').of_shorter hbegins
  | minRepeat hlow _ _ _ ihp ih =>
      refine holds_of_break rfl hrun hr (fun hbody => ?_) (ih (before_nil name _))
      obtain ⟨r', hr', hbegins⟩ := exists_run_of_repeat hlow hbody
      exact (ihp (before_nil name _) hr').of_shorter hbegins

theorem longest_mem_of_ne_nil {runs : List Str} (h : longest runs ≠ []) : longest runs ∈ runs := by
  have hfold : ∀ (runs : List Str) (best : Str),
      runs.foldl (fun best run => if best.length < run.length then run else best) best = best ∨
        runs.foldl (fun best run => if best.length < run.length then run else best) best ∈
          runs := by
    intro runs
    induction runs with
    | nil => exact fun best => Or.inl rfl
    | cons run runs ih =>
        intro best
        rw [List.foldl_cons]
        split
        · rcases ih run with hrun | hin
          · rw [hrun]
            exact Or.inr List.mem_cons_self
          · exact Or.inr (List.mem_cons_of_mem _ hin)
        · exact (ih best).imp_right (List.mem_cons_of_mem _)
  exact (hfold runs []).resolve_left h

/-- A name a tree matches holds the tree's literal in lower case. -/
theorem infix_treeLiteral {name : Str} {tree : List Node} (h : Found name tree) {literal : Str}
    (hliteral : treeLiteral tree = some literal) : literal <:+: lowered name := by
  obtain ⟨i, j, hmatch⟩ := h
  simp only [treeLiteral, Option.ite_none_right_eq_some, Option.some.injEq] at hliteral
  obtain ⟨hlong, rfl⟩ := hliteral
  have hne : longest (runsFrom [] tree) ≠ [] := by
    intro hnil
    rw [hnil] at hlong
    cases hlong
  exact hmatch.holds_run (before_nil name i) (longest_mem_of_ne_nil hne)

/-! ### The index -/

/-- The index of one dictionary object: rules by the first character of their literal, and the rules
without one. -/
structure Index where
  db : Nat
  buckets : Dict Char (List (Str × Str))
  always : List Str

/-- `lit[0]`; a literal has two characters at least. -/
def firstChar (literal : Str) : Char := literal.headD ' '

section Candidates

variable {β : Type} (program : Str → List Node) (parses : Str → Bool)

/-- `_required_literal`: `program` is the tree `re` compiles a text to, and `parses` says whether
`sre_parse` is there to give it. -/
def requiredLiteral (pattern : Str) : Option Str :=
  if parses pattern then treeLiteral (program pattern) else none

def ruleLiteral (pattern : Str) : Option Str :=
  if pattern.isEmpty then none else requiredLiteral program parses pattern

/-- One round of `_build_regex_index`. -/
def indexRule (index : Dict Char (List (Str × Str)) × List Str) (item : Str × RegexPayload β) :
    Dict Char (List (Str × Str)) × List Str :=
  match ruleLiteral program parses item.2.pattern with
  | none => (index.1, index.2 ++ [item.1])
  | some literal =>
      let ch := firstChar literal
      (index.1.set ch ((index.1.get ch).getD [] ++ [(item.1, literal)]), index.2)

def buildRegexIndex (db : Nat) (rules : RegexDb β) : Index :=
  let built := rules.items.foldl (indexRule program parses) (Dict.empty, [])
  ⟨db, built.1, built.2⟩

/-- `_regex_candidates` on the dictionary object `db`, which holds `rules`. The names are a set. -/
def regexCandidates (index : Option Index) (db : Nat) (rules : RegexDb β) (qName : Str) :
    Index × List Str :=
  let index :=
    match index with
    | some index => if index.db = db then index else buildRegexIndex program parses db rules
    | none => buildRegexIndex program parses db rules
  let qLower := lowered qName
  (index, index.always ++ qLower.dedup.flatMap fun char =>
    ((index.buckets.get char).getD []).filterMap fun entry =>
      if containsStr entry.2 qLower then some entry.1 else none)

/-- The slot after calls on the objects of `heap`, which no query changes. -/
def slotAfter (heap : Nat → RegexDb β) (calls : List (Nat × Str)) : Option Index :=
  calls.foldl (fun index call =>
    some (regexCandidates program parses index call.1 (heap call.1) call.2).1) none

/-- The rules with a literal, each under the literal's first character. -/
def bucketOf (items : List (Str × RegexPayload β)) (ch : Char) : List (Str × Str) :=
  items.filterMap fun item =>
    (ruleLiteral program parses item.2.pattern).bind fun literal =>
      if firstChar literal = ch then some (item.1, literal) else none

def alwaysOf (items : List (Str × RegexPayload β)) : List Str :=
  items.filterMap fun item =>
    if ruleLiteral program parses item.2.pattern = none then some item.1 else none

theorem foldl_indexRule (items : List (Str × RegexPayload β))
    (index : Dict Char (List (Str × Str)) × List Str) :
    (∀ ch, ((items.foldl (indexRule program parses) index).1.get ch).getD [] =
        (index.1.get ch).getD [] ++ bucketOf program parses items ch) ∧
      (items.foldl (indexRule program parses) index).2 =
        index.2 ++ alwaysOf program parses items := by
  induction items generalizing index with
  | nil => simp [bucketOf, alwaysOf]
  | cons item items ih =>
      rw [List.foldl_cons]
      obtain ⟨hbuckets, halways⟩ := ih (indexRule program parses index item)
      refine ⟨fun ch => ?_, ?_⟩
      · rw [hbuckets, indexRule]
        cases hliteral : ruleLiteral program parses item.2.pattern with
        | none => simp [bucketOf, hliteral]
        | some literal =>
            by_cases hch : firstChar literal = ch
            · simp [bucketOf, hliteral, hch]
            · simp [bucketOf, hliteral, Dict.get_set, hch]
      · rw [halways, indexRule]
        cases hliteral : ruleLiteral program parses item.2.pattern with
        | none => simp [alwaysOf, hliteral]
        | some literal => simp [alwaysOf, hliteral]

theorem exists_cons_of_ruleLiteral {pattern literal : Str}
    (h : ruleLiteral program parses pattern = some literal) :
    ∃ rest, literal = firstChar literal :: rest := by
  simp only [ruleLiteral, requiredLiteral, treeLiteral, Option.ite_none_right_eq_some,
    Option.ite_none_left_eq_some, Option.some.injEq] at h
  obtain ⟨-, -, hlong, rfl⟩ := h
  cases hlongest : longest (runsFrom [] (program pattern)) with
  | nil =>
      rw [hlongest] at hlong
      cases hlong
  | cons c rest => exact ⟨lowered rest, rfl⟩

/-- A rule is a candidate when its literal, if it has one, stands in the lower-cased name. -/
theorem mem_candidates_built (db : Nat) (rules : RegexDb β) (qName key : Str) :
    key ∈ (regexCandidates program parses (some (buildRegexIndex program parses db rules)) db rules
        qName).2 ↔
      ∃ rule, rules.get key = some rule ∧
        ∀ literal, ruleLiteral program parses rule.pattern = some literal →
          literal <:+: lowered qName := by
  have hsame : (regexCandidates program parses (some (buildRegexIndex program parses db rules)) db
      rules qName).1 = buildRegexIndex program parses db rules := if_pos rfl
  obtain ⟨hbuckets, halways⟩ := foldl_indexRule program parses rules.items (Dict.empty, [])
  simp only [Dict.get_empty, Option.getD_none, List.nil_append] at hbuckets halways
  simp only [regexCandidates, buildRegexIndex, if_true, hbuckets, halways, List.mem_append,
    List.mem_flatMap, List.mem_dedup, bucketOf, alwaysOf, List.mem_filterMap]
  constructor
  · rintro (⟨item, hitem, hkey⟩ | ⟨ch, -, entry, ⟨item, hitem, hentry⟩, hkey⟩)
    · split at hkey
      · next hnone =>
          cases hkey
          refine ⟨item.2, (rules.get_eq_some_iff _ _).mpr hitem, fun literal hliteral => ?_⟩
          rw [hnone] at hliteral
          cases hliteral
      · cases hkey
    · obtain ⟨literal, hliteral, hentry⟩ := Option.bind_eq_some_iff.mp hentry
      split at hentry
      · cases hentry
        split at hkey
        · next hcontains =>
            cases hkey
            refine ⟨item.2, (rules.get_eq_some_iff _ _).mpr hitem, fun other hother => ?_⟩
            rw [hliteral] at hother
            cases hother
            exact (find_isSome_iff _ _).mp hcontains
        · cases hkey
      · cases hentry
  · rintro ⟨rule, hget, hliterals⟩
    have hitem := (rules.get_eq_some_iff key rule).mp hget
    cases hliteral : ruleLiteral program parses rule.pattern with
    | none => exact Or.inl ⟨(key, rule), hitem, if_pos hliteral⟩
    | some literal =>
        have hinfix := hliterals literal hliteral
        have hhead : firstChar literal ∈ lowered qName := by
          obtain ⟨rest, hrest⟩ := exists_cons_of_ruleLiteral program parses hliteral
          refine hinfix.subset ?_
          rw [hrest]
          exact List.mem_cons_self
        refine Or.inr ⟨firstChar literal, hhead, (key, literal), ⟨(key, rule), hitem, ?_⟩, ?_⟩
        · simp [hliteral]
        · exact if_pos ((find_isSome_iff _ _).mpr hinfix)

/-- What the compiled text matches holds the rule's literal. -/
theorem infix_ruleLiteral {pattern qName literal : Str} (h : Found qName (program pattern))
    (hliteral : ruleLiteral program parses pattern = some literal) :
    literal <:+: lowered qName := by
  simp only [ruleLiteral, requiredLiteral, Option.ite_none_right_eq_some,
    Option.ite_none_left_eq_some] at hliteral
  exact infix_treeLiteral h hliteral.2.2

/-- The slot is empty, or the index of an object that still stands as it was indexed. -/
theorem slotAfter_built (heap : Nat → RegexDb β) (calls : List (Nat × Str)) :
    slotAfter program parses heap calls = none ∨
      ∃ db, slotAfter program parses heap calls =
        some (buildRegexIndex program parses db (heap db)) := by
  induction calls using List.reverseRecOn with
  | nil => exact Or.inl rfl
  | append_singleton calls call ih =>
      right
      rw [slotAfter, List.foldl_append, List.foldl_cons, List.foldl_nil]
      change ∃ db, some (regexCandidates program parses (slotAfter program parses heap calls)
        call.1 (heap call.1) call.2).1 = _
      rcases ih with hnone | ⟨db, hbuilt⟩
      · rw [hnone]
        exact ⟨call.1, rfl⟩
      · rw [hbuilt, regexCandidates]
        by_cases hsame : db = call.1
        · exact ⟨db, congrArg some (if_pos hsame)⟩
        · exact ⟨call.1, congrArg some (if_neg hsame)⟩

/-- Whatever the slot holds, the candidates are those of the object's own index. -/
theorem regexCandidates_slotAfter (heap : Nat → RegexDb β) (calls : List (Nat × Str)) (db : Nat)
    (qName : Str) :
    regexCandidates program parses (slotAfter program parses heap calls) db (heap db) qName =
      regexCandidates program parses (some (buildRegexIndex program parses db (heap db))) db
        (heap db) qName := by
  have hsame : (buildRegexIndex program parses db (heap db)).db = db := rfl
  rcases slotAfter_built program parses heap calls with hnone | ⟨other, hbuilt⟩
  · rw [hnone]
    simp only [regexCandidates, hsame, if_true]
  · rw [hbuilt]
    by_cases hother : other = db
    · rw [hother]
    · have hdb : (buildRegexIndex program parses other (heap other)).db = other := rfl
      simp only [regexCandidates, hsame, hdb, hother, if_true, if_false]

/-- A tree that matches a name finds its literal there in lower case, so the candidates of a query,
whatever queries came before, lose no rule that matches. -/
theorem prefilter_keeps_matches :
    (∀ (tree : List Node) (name : Str), Found name tree →
      ∀ literal, treeLiteral tree = some literal → literal <:+: lowered name) ∧
    ∀ (heap : Nat → RegexDb β) (calls : List (Nat × Str)) (db : Nat) (qName key : Str),
      (key ∈ (regexCandidates program parses (slotAfter program parses heap calls) db (heap db)
          qName).2 ∧
        ∃ rule, (heap db).get key = some rule ∧ Found qName (program rule.pattern)) ↔
      ∃ rule, (heap db).get key = some rule ∧ Found qName (program rule.pattern) := by
  refine ⟨fun tree name h literal hliteral => infix_treeLiteral h hliteral,
    fun heap calls db qName key =>
      ⟨And.right, fun ⟨rule, hget, hfound⟩ => ⟨?_, rule, hget, hfound⟩⟩⟩
  rw [regexCandidates_slotAfter, mem_candidates_built]
  exact ⟨rule, hget, fun literal hliteral => infix_ruleLiteral program parses hfound hliteral⟩

end Candidates

end PfBlockerNG.LiteralPrefilter
