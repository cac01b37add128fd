import PfBlockerNG.RegexRules

/-!
What a pattern text means: the expression `re` reads from it, for the constructs of admitted
patterns and of their compile texts.
-/

namespace PfBlockerNG.RegexReading

open PfBlockerNG.Strings
open PfBlockerNG.Backtracking
open PfBlockerNG.RegexRules

/-- `.` under the flag `s`. -/
def anything : Atom where
  members := ascii ||| nonAscii
  negated := true
  escapes := []
  covers := fun _ => testBit_or_nonAscii _

/-- The elements of a branch, one after another. -/
def inTurn (items : List HostRe) : HostRe := items.foldr .cat .eps

def branchOf (items : List HostRe) : HostRe := if items.isEmpty then .empty else inTurn items

/-- One alternation level of a text: the open branch, the finished ones, and the atoms of its body;
`plain` while it is nothing but atoms. -/
structure Level where
  dotAll : Bool
  items : List HostRe := []
  finished : List HostRe := []
  run : List Atom := []
  plain : Bool := true

namespace Level

def push (level : Level) (item : HostRe) : Level :=
  { level with items := level.items ++ [item], plain := false }

def pushAtom (level : Level) (a : Atom) (q : Option Quantifier) : Level where
  dotAll := level.dotAll
  items := level.items ++ [(Item.ofAtom a q).re]
  finished := level.finished
  run := level.run ++ [a]
  plain := level.plain && q.isNone

def endBranch (level : Level) : Level :=
  { level with items := [], finished := level.finished ++ [branchOf level.items] }

def re (level : Level) : HostRe := alternation level.endBranch.finished

/-- The level as a group with its quantifier. Only a plain run of atoms is repeated more than
optionally. -/
def group? (level : Level) : Option Quantifier → Option HostRe
  | none => some (.group level.re)
  | some q =>
      if q.isOptional then some (.opt level.re q.lazy)
      else if level.plain && !level.run.isEmpty then some (.run level.run q.low q.high q.lazy)
      else none

end Level

structure Reader where
  index : Nat := 0
  level : Level
  outer : List Level := []

/-- The width of an opening parenthesis and whether `.` matches a newline in its group. -/
def opening (rest : Str) (dotAll : Bool) : Option (Nat × Bool) :=
  if startsWith "(?s:".toList rest then some (4, true)
  else if startsWith "(?:".toList rest then some (3, dotAll)
  else if startsWith "(?".toList rest then none
  else some (1, dotAll)

/-- One character's worth of text at `index`: an atom and the index after it. -/
def unit? (text : Str) (char : Char) (index : Nat) (dotAll : Bool) : Option (Nat × Atom) :=
  if startsWith "[^\\n]".toList (text.drop index) then some (index + 5, Atom.anyButNewline)
  else if char = '.' ∧ dotAll then some (index + 1, anything)
  else
    match readAtom text char index with
    | .ok (next, a, _) => some (next, a)
    | .error _ => none

def quantifier? (text : Str) (index : Nat) : Option (Nat × Option Quantifier) :=
  (quantifier text index).toOption

def openLevel (text : Str) (r : Reader) : Option Reader :=
  (opening (text.drop r.index) r.level.dotAll).map fun (width, dotAll) =>
    { index := r.index + width, level := { dotAll := dotAll }, outer := r.level :: r.outer }

def closeLevel (text : Str) (r : Reader) : Option Reader :=
  match r.outer with
  | [] => none
  | enclosing :: outer =>
      (quantifier? text (r.index + 1)).bind fun (next, q) =>
        (r.level.group? q).map fun item =>
          { index := next, level := enclosing.push item, outer := outer }

def readUnit (text : Str) (char : Char) (r : Reader) : Option Reader :=
  (unit? text char r.index r.level.dotAll).bind fun (index, a) =>
    (quantifier? text index).map fun (next, q) =>
      { r with index := next, level := r.level.pushAtom a q }

/-- The next token of a text. -/
def readToken (text : Str) (char : Char) (r : Reader) : Option Reader :=
  if char = '(' then openLevel text r
  else if char = ')' then closeLevel text r
  else if char = '|' then
    some { r with index := r.index + 1, level := { r.level.endBranch with plain := false } }
  else
    match zeroAt text r.index with
    | some (z, next) => some { r with index := next, level := r.level.push (.zero z) }
    | none => if char ∈ quantifierStart then none else readUnit text char r

def readTokens (text : Str) : Nat → Reader → Option Reader
  | 0, r => some r
  | fuel + 1, r =>
      match text[r.index]? with
      | none => some r
      | some char => (readToken text char r).bind (readTokens text fuel)

/-- The expression a text spells. -/
def readRegex (text : Str) : Option HostRe :=
  (readTokens text text.length { level := { dotAll := false } }).bind fun r =>
    if r.outer.isEmpty then some r.level.re else none

/-- What the atoms and the zero-width tests of a text stand for. -/
structure Meaning where
  mem : Atom → Char → Bool
  test : Zero → Str → Nat → Bool
  anything_mem : ∀ c, mem anything c = true
  anyButNewline_mem : ∀ c, mem Atom.anyButNewline c = true ↔ c ≠ '\n'
  caret_test : ∀ name i, test .caret name i = true ↔ i = 0

/-- `re.compile(text, re.IGNORECASE).search(name)` finds a match. -/
def Finds (m : Meaning) (text name : Str) : Prop :=
  ∃ r, readRegex text = some r ∧ search m.mem m.test name r = true

theorem anything_matches (c : Char) : anything.matches c = true := by
  unfold Atom.matches
  split
  · next h =>
      show (ascii ||| nonAscii).testBit c.toNat = true
      have hall : ∀ n < 128, (ascii ||| nonAscii).testBit n = true := by decide
      exact hall _ h
  · rfl

theorem anyButNewline_matches (c : Char) : Atom.anyButNewline.matches c = true ↔ c ≠ '\n' := by
  have hdot : ∀ n < 128, dot.testBit n = true ↔ n ≠ 10 := by decide
  have hnewline : c = '\n' ↔ c.toNat = 10 := by
    rw [← Char.toNat_inj]
    rfl
  rw [ne_eq, hnewline, Atom.matches]
  split
  · next h => exact hdot _ h
  · refine iff_of_true rfl ?_
    omega

/-- The meaning on octets. -/
def octets : Meaning where
  mem := Atom.matches
  test := Zero.holds
  anything_mem := anything_matches
  anyButNewline_mem := anyButNewline_matches
  caret_test _ _ := beq_iff_eq

/-! ### One token after another -/

theorem getElem?_of_drop {text rest : Str} {i : Nat} {c : Char} (h : text.drop i = c :: rest) :
    text[i]? = some c := by
  rw [← List.head?_drop, h, List.head?_cons]

theorem drop_succ_of_drop {text rest : Str} {i : Nat} {c : Char} (h : text.drop i = c :: rest) :
    text.drop (i + 1) = rest := by
  rw [← List.drop_drop, h, List.drop_one, List.tail_cons]

theorem opening_width {rest : Str} {dotAll all : Bool} {width : Nat}
    (h : opening rest dotAll = some (width, all)) : 0 < width := by
  unfold opening at h
  split_ifs at h <;> cases h <;> decide

theorem unit?_index {text : Str} {char : Char} {index next : Nat} {dotAll : Bool} {a : Atom}
    (h : unit? text char index dotAll = some (next, a)) : index < next := by
  unfold unit? at h
  split at h
  · cases h
    omega
  · split at h
    · cases h
      omega
    · split at h
      · next hread =>
          cases h
          exact readAtom_index hread
      · cases h

theorem quantifier?_index {text : Str} {index next : Nat} {q : Option Quantifier}
    (h : quantifier? text index = some (next, q)) : index ≤ next := by
  unfold quantifier? at h
  cases hq : quantifier text index with
  | error reason =>
      rw [hq] at h
      cases h
  | ok out =>
      rw [hq] at h
      cases h
      exact quantifier_index hq

theorem readToken_index {text : Str} {char : Char} {r r' : Reader}
    (h : readToken text char r = some r') : r.index < r'.index := by
  unfold readToken at h
  split at h
  · obtain ⟨⟨width, all⟩, hopen, rfl⟩ := Option.map_eq_some_iff.mp h
    exact Nat.lt_add_of_pos_right (opening_width hopen)
  split at h
  · unfold closeLevel at h
    split at h
    · cases h
    · obtain ⟨⟨next, q⟩, hq, h⟩ := Option.bind_eq_some_iff.mp h
      obtain ⟨item, -, rfl⟩ := Option.map_eq_some_iff.mp h
      exact Nat.lt_of_succ_le (quantifier?_index hq)
  split at h
  · cases h
    exact Nat.lt_succ_self _
  split at h
  · next z next hzero =>
      cases h
      show r.index < next
      unfold zeroAt at hzero
      split at hzero <;> cases hzero <;> omega
  · split at h
    · cases h
    · obtain ⟨⟨index, a⟩, hunit, h⟩ := Option.bind_eq_some_iff.mp h
      obtain ⟨⟨next, q⟩, hq, rfl⟩ := Option.map_eq_some_iff.mp h
      exact Nat.lt_of_lt_of_le (unit?_index hunit) (quantifier?_index hq)

/-- Turns that suffice for the rest of a text all give the same. -/
theorem readTokens_congr {text : Str} {m n : Nat} {r : Reader} (hm : text.length ≤ r.index + m)
    (hn : text.length ≤ r.index + n) : readTokens text m r = readTokens text n r := by
  induction m generalizing n r with
  | zero =>
      have hnone : text[r.index]? = none := List.getElem?_eq_none hm
      cases n with
      | zero => rfl
      | succ n => simp only [readTokens, hnone]
  | succ m ih =>
      cases hchar : text[r.index]? with
      | none => cases n <;> simp only [readTokens, hchar]
      | some char =>
          have hlt : r.index < text.length := (List.getElem?_eq_some_iff.mp hchar).1
          cases n with
          | zero => omega
          | succ n =>
              simp only [readTokens, hchar]
              refine Option.bind_congr fun r' hread => ?_
              have hindex := readToken_index hread
              exact ih (by omega) (by omega)

/-- The reading of what is left of a text. -/
def readFrom (text : Str) (r : Reader) : Option Reader :=
  readTokens text (text.length - r.index) r

theorem readFrom_of_drop {text rest : Str} {r : Reader} {c : Char}
    (h : text.drop r.index = c :: rest) :
    readFrom text r = (readToken text c r).bind (readFrom text) := by
  have hchar := getElem?_of_drop h
  have hlt : r.index < text.length := (List.getElem?_eq_some_iff.mp hchar).1
  obtain ⟨left, hleft⟩ : ∃ left, text.length - r.index = left + 1 :=
    ⟨text.length - r.index - 1, by omega⟩
  rw [readFrom, hleft, readTokens, hchar]
  refine Option.bind_congr fun r' hread => ?_
  have hindex := readToken_index hread
  exact readTokens_congr (by omega) (by omega)

theorem readFrom_end {text : Str} {r : Reader} (h : text.drop r.index = []) :
    readFrom text r = some r := by
  have hle := List.drop_eq_nil_iff.mp h
  rw [readFrom, Nat.sub_eq_zero_of_le hle, readTokens]

theorem readRegex_eq (text : Str) : readRegex text =
    (readFrom text { level := { dotAll := false } }).bind fun r =>
      if r.outer.isEmpty then some r.level.re else none := rfl

/-! ### The tokens -/

section Tokens

variable {text rest : Str} {r : Reader}

theorem zeroAt_eq_none {c : Char} {i : Nat} (h : text.drop i = c :: rest) (hcaret : c ≠ '^')
    (hdollar : c ≠ '$') (hescape : c = '\\' → rest.head? ≠ some 'b' ∧ rest.head? ≠ some 'B') :
    zeroAt text i = none := by
  have hnext : text[i + 1]? = rest.head? := by
    rw [← List.head?_drop, drop_succ_of_drop h]
  unfold zeroAt
  rw [getElem?_of_drop h, hnext]
  split <;> simp_all

theorem repeatBounds_eq_none {i : Nat} (h : ∀ c ∈ text[i]?, c ∉ quantifierStart) :
    repeatBounds text i = .ok none := by
  unfold repeatBounds
  split
  · next hc => exact absurd (by decide) (h _ hc)
  · next hc => exact absurd (by decide) (h _ hc)
  · next hc => exact absurd (by decide) (h _ hc)
  · next hc => exact absurd (by decide) (h _ hc)
  · rfl

theorem quantifier_of_bounds {i low stop : Nat} {high : Option Nat}
    (hbounds : repeatBounds text i = .ok (some (low, high, stop)))
    (hin : inBounds low high = true) :
    ∃ q : Quantifier, quantifier text i =
        .ok (if text[stop]? == some '?' then stop + 1 else stop, some q) ∧
      q.low = low ∧ q.high = high ∧ q.lazy = (text[stop]? == some '?') := by
  simp only [quantifier, hbounds, bind, Except.bind, dif_pos hin]
  exact ⟨_, rfl, rfl, rfl, rfl⟩

theorem quantifier?_none {i : Nat} (h : text.drop i = rest)
    (hrest : ∀ c ∈ rest.head?, c ∉ quantifierStart) : quantifier? text i = some (i, none) := by
  have hbounds : repeatBounds text i = .ok none := by
    refine repeatBounds_eq_none fun c hc => hrest c ?_
    rwa [← h, List.head?_drop]
  rw [quantifier?, quantifier, hbounds]
  rfl

theorem startsWith_class {c : Char} (hc : c ≠ '[') :
    startsWith "[^\\n]".toList (c :: rest) = false := by
  show ('[' == c && _) = false
  rw [beq_eq_false_iff_ne.mpr (Ne.symm hc), Bool.false_and]

theorem unit?_of_readAtom {c : Char} {i next listed : Nat} {all : Bool} {a : Atom}
    (hclass : startsWith "[^\\n]".toList (text.drop i) = false) (hall : c = '.' → all = false)
    (hread : readAtom text c i = .ok (next, a, listed)) :
    unit? text c i all = some (next, a) := by
  have hdot : ¬ (c = '.' ∧ all = true) := fun ⟨e, htrue⟩ =>
    Bool.false_ne_true ((hall e).symm.trans htrue)
  rw [unit?, hclass, if_neg Bool.false_ne_true, if_neg hdot, hread]

theorem readFrom_zeroAt {c : Char} {z : Zero} {next : Nat} (h : text.drop r.index = c :: rest)
    (hz : zeroAt text r.index = some (z, next)) :
    readFrom text r =
      readFrom text { r with index := next, level := r.level.push (.zero z) } := by
  have hchar : ∀ m ∈ ['(', ')', '|'], c ≠ m := by
    rintro m hm rfl
    rw [zeroAt, getElem?_of_drop h] at hz
    simp only [List.mem_cons, List.not_mem_nil, or_false] at hm
    rcases hm with rfl | rfl | rfl <;> cases hz
  rw [readFrom_of_drop h, readToken, if_neg (hchar _ (by decide)), if_neg (hchar _ (by decide)),
    if_neg (hchar _ (by decide)), hz]
  rfl

theorem readFrom_zero {c : Char} {z : Zero} (h : text.drop r.index = c :: rest)
    (hz : (c = '^' ∧ z = .caret) ∨ c = '$' ∧ z = .dollar) :
    readFrom text r =
      readFrom text { r with index := r.index + 1, level := r.level.push (.zero z) } := by
  refine readFrom_zeroAt h ?_
  unfold zeroAt
  rw [getElem?_of_drop h]
  rcases hz with ⟨rfl, rfl⟩ | ⟨rfl, rfl⟩ <;> rfl

theorem readFrom_bar (h : text.drop r.index = '|' :: rest) :
    readFrom text r = readFrom text
      { r with index := r.index + 1, level := { r.level.endBranch with plain := false } } := by
  rw [readFrom_of_drop h]
  rfl

theorem readFrom_open (h : text.drop r.index = '(' :: rest) {width : Nat} {all : Bool}
    (hopen : opening ('(' :: rest) r.level.dotAll = some (width, all)) :
    readFrom text r = readFrom text
      { index := r.index + width, level := { dotAll := all }, outer := r.level :: r.outer } := by
  rw [readFrom_of_drop h, readToken, if_pos rfl, openLevel, h, hopen]
  rfl

theorem readFrom_close {enclosing : Level} {outer : List Level} {next : Nat}
    {q : Option Quantifier} {item : HostRe} (h : text.drop r.index = ')' :: rest)
    (houter : r.outer = enclosing :: outer) (hq : quantifier? text (r.index + 1) = some (next, q))
    (hgroup : r.level.group? q = some item) :
    readFrom text r = readFrom text
      { index := next, level := enclosing.push item, outer := outer } := by
  rw [readFrom_of_drop h, readToken, if_neg (by decide), if_pos rfl, closeLevel, houter]
  simp only [hq, hgroup, Option.bind_some, Option.map_some]

theorem readFrom_unit {c : Char} {index next : Nat} {a : Atom} {q : Option Quantifier}
    (h : text.drop r.index = c :: rest) (hopen : c ≠ '(') (hclose : c ≠ ')') (hbar : c ≠ '|')
    (hzero : zeroAt text r.index = none) (hstart : c ∉ quantifierStart)
    (hunit : unit? text c r.index r.level.dotAll = some (index, a))
    (hq : quantifier? text index = some (next, q)) :
    readFrom text r = readFrom text { r with index := next, level := r.level.pushAtom a q } := by
  rw [readFrom_of_drop h, readToken, if_neg hopen, if_neg hclose, if_neg hbar, hzero]
  simp only [if_neg hstart, readUnit, hunit, hq, Option.bind_some, Option.map_some]

end Tokens

/-! ### What an expression finds in a name -/

section Finding

/-- The ends of an expression from a position of a name. -/
abbrev endsIn (m : Meaning) (name : Str) (r : HostRe) (i : Nat) : List Nat :=
  ends m.mem m.test name r i

/-- The elements match one after another from a position. -/
def Continues (m : Meaning) (name : Str) (items : List HostRe) (i : Nat) : Prop :=
  endsIn m name (inTurn items) i ≠ []

variable {m : Meaning} {name : Str} {i j : Nat}

theorem search_iff (r : HostRe) : search m.mem m.test name r = true ↔
    ∃ i ≤ name.length, endsIn m name r i ≠ [] := by
  have h := not_congr (search_eq_false_iff m.mem m.test name r)
  rw [Bool.not_eq_false] at h
  rw [h]
  push Not
  rfl

theorem finds_iff {text : Str} {r : HostRe} (h : readRegex text = some r) :
    Finds m text name ↔ ∃ i ≤ name.length, endsIn m name r i ≠ [] := by
  rw [← search_iff, Finds, h]
  simp only [Option.some.injEq, exists_eq_left']

theorem continues_nil : Continues m name [] i := List.cons_ne_nil _ _

theorem continues_cons (r : HostRe) (items : List HostRe) :
    Continues m name (r :: items) i ↔ ∃ j ∈ endsIn m name r i, Continues m name items j := by
  show (endsIn m name r i).flatMap (endsIn m name (inTurn items)) ≠ [] ↔ _
  rw [ne_eq, List.flatMap_eq_nil_iff]
  push Not
  rfl

theorem mem_ends_alternation {rs : List HostRe} (hne : rs ≠ []) :
    j ∈ endsIn m name (alternation rs) i ↔ ∃ r ∈ rs, j ∈ endsIn m name r i := by
  induction rs with
  | nil => exact absurd rfl hne
  | cons r rs ih =>
      cases rs with
      | nil => simp only [alternation, List.mem_singleton, exists_eq_left]
      | cons s rs =>
          show j ∈ endsIn m name r i ++ endsIn m name (alternation (s :: rs)) i ↔ _
          rw [List.mem_append, ih (List.cons_ne_nil _ _)]
          simp only [List.mem_cons, or_and_right, exists_or, exists_eq_left]

theorem ends_branchOf (items : List HostRe) (i : Nat) :
    endsIn m name (branchOf items) i = endsIn m name (inTurn items) i := by
  cases items <;> rfl

theorem Level.ends_re_of_single {level : Level} (h : level.finished = []) (i : Nat) :
    endsIn m name level.re i = endsIn m name (inTurn level.items) i := by
  show endsIn m name (alternation (level.finished ++ [branchOf level.items])) i = _
  rw [h]
  exact ends_branchOf _ _

theorem mem_ends_atom {a : Atom} :
    j ∈ endsIn m name (.atom a) i ↔ (∃ c, name[i]? = some c ∧ m.mem a c = true) ∧ j = i + 1 := by
  show j ∈ (if hit m.mem name a i = true then [i + 1] else []) ↔ _
  have hhit : hit m.mem name a i = true ↔ ∃ c, name[i]? = some c ∧ m.mem a c = true :=
    Option.any_eq_true _ _
  rw [← hhit]
  split <;> simp_all

theorem mem_ends_zero {z : Zero} :
    j ∈ endsIn m name (.zero z) i ↔ m.test z name i = true ∧ j = i := by
  show j ∈ (if m.test z name i = true then [i] else []) ↔ _
  split <;> simp_all

theorem mem_ends_opt {r : HostRe} {lazy : Bool} :
    j ∈ endsIn m name (.opt r lazy) i ↔ j = i ∨ j ∈ endsIn m name r i := by
  show j ∈ (if lazy then i :: endsIn m name r i else endsIn m name r i ++ [i]) ↔ _
  split <;> simp [or_comm]

theorem mem_ends_rep {a : Atom} {low : Nat} {high : Option Nat} {lazy : Bool} :
    j ∈ endsIn m name (.rep a low high lazy) i ↔
      ∃ n, low ≤ n ∧ n ≤ capped high (stretch m.mem name a i) ∧ j = i + n := by
  show j ∈ (counts low _ lazy).map (i + ·) ↔ _
  simp only [List.mem_map, mem_counts_iff, and_assoc, eq_comm (a := j)]

theorem continues_append (xs ys : List HostRe) (i : Nat) :
    Continues m name (xs ++ ys) i ↔ ∃ j ∈ endsIn m name (inTurn xs) i, Continues m name ys j := by
  induction xs generalizing i with
  | nil =>
      show _ ↔ ∃ j ∈ [i], _
      simp only [List.nil_append, List.mem_singleton, exists_eq_left]
  | cons r xs ih =>
      rw [List.cons_append, continues_cons]
      show _ ↔ ∃ j ∈ (endsIn m name r i).flatMap (endsIn m name (inTurn xs)), _
      simp only [ih, List.mem_flatMap]
      constructor
      · rintro ⟨k, hk, j, hj, hys⟩
        exact ⟨j, ⟨k, hk, hj⟩, hys⟩
      · rintro ⟨j, ⟨k, hk, hj⟩, hys⟩
        exact ⟨k, hk, j, hj, hys⟩

theorem ends_single (r : HostRe) (i : Nat) :
    endsIn m name (inTurn [r]) i = endsIn m name r i := List.flatMap_singleton' _

theorem continues_caret {items : List HostRe} :
    Continues m name (.zero .caret :: items) i ↔ i = 0 ∧ Continues m name items 0 := by
  simp only [continues_cons, mem_ends_zero, m.caret_test]
  constructor
  · rintro ⟨j, ⟨rfl, rfl⟩, hj⟩
    exact ⟨rfl, hj⟩
  · rintro ⟨rfl, hj⟩
    exact ⟨0, ⟨rfl, rfl⟩, hj⟩

/-- An optional group after `^`, taken or left out. -/
theorem continues_option {level : Level} (h : level.finished = []) {lazy : Bool}
    {items : List HostRe} :
    Continues m name (.zero .caret :: .opt level.re lazy :: items) i ↔
      i = 0 ∧ (Continues m name items 0 ∨ Continues m name (level.items ++ items) 0) := by
  rw [continues_caret, continues_cons, continues_append]
  simp only [mem_ends_opt, Level.ends_re_of_single h, or_and_right, exists_or, exists_eq_left]

end Finding

end PfBlockerNG.RegexReading
