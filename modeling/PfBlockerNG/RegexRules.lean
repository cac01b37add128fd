import PfBlockerNG.Backtracking
import PfBlockerNG.Strings

/-!
The admission gate of `pfb_dnsbl_regex_rules.py`: one left-to-right reading of the
pattern text with an explicit stack. Every element carries, besides the numbers the
cost bound needs, the expression `re` matches for it.
-/

namespace PfBlockerNG.RegexRules

open PfBlockerNG.Strings
open PfBlockerNG.Backtracking

def regexPatternMaxLen : Nat := 256
def regexRepeatMax : Nat := 255
def regexGroupDepthMax : Nat := 8
def regexCostMax : Nat := 1 <<< 18
def regexClassWidthMax : Nat := 256
def regexCostUnbounded : Nat := 256
def costSaturation : Nat := 1 <<< 64

/-- The short fixed reason of a refused pattern. -/
abbrev Refusal := Str

def decimal (n : Nat) : Str := Nat.toDigits 10 n

def refusalAt (reason : Str) (index : Nat) : Refusal := reason ++ " at ".toList ++ decimal index

/-! ### Character sets -/

def bitsOf (p : Nat → Bool) : Nat :=
  (List.range 128).foldl (fun bits code => if p code then bits ||| 1 <<< code else bits) 0

def ascii : Nat := (1 <<< 128) - 1
def nonAscii : Nat := 1 <<< 128
def upper : Nat := ((1 <<< 26) - 1) <<< 65
def lower : Nat := ((1 <<< 26) - 1) <<< 97

def isDigitCode (n : Nat) : Bool := 48 ≤ n && n ≤ 57

def isAlnumCode (n : Nat) : Bool :=
  isDigitCode n || (65 ≤ n && n ≤ 90) || (97 ≤ n && n ≤ 122)

def isSpaceCode (n : Nat) : Bool := (9 ≤ n && n ≤ 13) || (28 ≤ n && n ≤ 32)

def digits : Nat := bitsOf isDigitCode
def word : Nat := bitsOf fun n => isAlnumCode n || n == 95
def space : Nat := bitsOf isSpaceCode

/-- `_ASCII & ~members`. -/
def asciiWithout (members : Nat) : Nat := ascii ^^^ (members &&& ascii)

def dot : Nat := asciiWithout (1 <<< 10) ||| nonAscii

inductive ClassEscape where
  | digit
  | notDigit
  | word
  | notWord
  | space
  | notSpace
  deriving DecidableEq, Repr

def ClassEscape.ofChar : Char → Option ClassEscape
  | 'd' => some .digit
  | 'D' => some .notDigit
  | 'w' => some .word
  | 'W' => some .notWord
  | 's' => some .space
  | 'S' => some .notSpace
  | _ => none

/-- `_CLASS_ESCAPES`. -/
def classEscapes : ClassEscape → Nat
  | .digit => digits ||| nonAscii
  | .notDigit => asciiWithout digits ||| nonAscii
  | .word => RegexRules.word ||| nonAscii
  | .notWord => asciiWithout RegexRules.word ||| nonAscii
  | .space => RegexRules.space ||| nonAscii
  | .notSpace => asciiWithout RegexRules.space ||| nonAscii

/-- `c.isalnum()` on the upper half of Latin-1. -/
def latin1Word (n : Nat) : Bool :=
  n == 0xAA || n == 0xB2 || n == 0xB3 || n == 0xB5 || n == 0xB9 || n == 0xBA ||
    (0xBC ≤ n && n ≤ 0xBE) || (0xC0 ≤ n && n ≤ 0xFF && n != 0xD7 && n != 0xF7)

/-- `c.isspace()` on the upper half of Latin-1. -/
def latin1Space (n : Nat) : Bool := n == 0x85 || n == 0xA0

/-- What a class escape matches above ASCII; no Latin-1 character there is a decimal. -/
def ClassEscape.matchesLatin1 (n : Nat) : ClassEscape → Bool
  | .digit => false
  | .notDigit => true
  | .word => latin1Word n
  | .notWord => !latin1Word n
  | .space => latin1Space n
  | .notSpace => !latin1Space n

theorem testBit_or_nonAscii (members : Nat) : (members ||| nonAscii).testBit 128 = true := by
  rw [Nat.testBit_or, Bool.or_eq_true]
  exact Or.inr (by decide)

/-- A character set: the bit set over ASCII and the non-ASCII pseudo-member, with the
class escapes that say which characters the pseudo-member stands for. -/
structure Members where
  bits : Nat
  escapes : List ClassEscape
  covers : escapes ≠ [] → bits.testBit 128 = true

namespace Members

def none : Members := ⟨0, [], fun h => absurd rfl h⟩

def char (code : Nat) : Members := ⟨1 <<< code, [], fun h => absurd rfl h⟩

/-- The characters from `low` to `high`. -/
def range (low high : Nat) : Members :=
  ⟨((1 <<< (high + 1)) - 1) ^^^ ((1 <<< low) - 1), [], fun h => absurd rfl h⟩

theorem testBit_classEscapes (e : ClassEscape) : (classEscapes e).testBit 128 = true := by
  cases e <;> exact testBit_or_nonAscii _

def escape (e : ClassEscape) : Members := ⟨classEscapes e, [e], fun _ => testBit_classEscapes e⟩

def union (s t : Members) : Members where
  bits := s.bits ||| t.bits
  escapes := s.escapes ++ t.escapes
  covers := by
    intro h
    rw [Nat.testBit_or, Bool.or_eq_true]
    by_cases hs : s.escapes = []
    · exact Or.inr (t.covers fun ht => h (by rw [hs, ht]; rfl))
    · exact Or.inl (s.covers hs)

end Members

/-- `_fold`: the other case of every letter added. -/
def foldBits (members : Nat) : Nat :=
  members ||| ((members &&& upper) <<< 32) ||| ((members &&& lower) >>> 32)

theorem testBit_foldBits {members k : Nat} (h : members.testBit k = true) :
    (foldBits members).testBit k = true := by
  simp [foldBits, Nat.testBit_or, h]

/-- One-character element of a pattern, compiled with `IGNORECASE`. -/
structure Atom where
  members : Nat
  negated : Bool
  escapes : List ClassEscape
  covers : negated = true ∨ escapes ≠ [] → members.testBit 128 = true

/-- Whether `re` matches the character with this atom. -/
def Atom.matches (a : Atom) (c : Char) : Bool :=
  if c.toNat < 128 then a.members.testBit c.toNat
  else a.negated != a.escapes.any (ClassEscape.matchesLatin1 c.toNat)

namespace Atom

def literal (c : Char) : Atom where
  members := foldBits (1 <<< c.toNat)
  negated := false
  escapes := []
  covers := fun h => by simp at h

def anyButNewline : Atom where
  members := dot
  negated := true
  escapes := []
  covers := fun _ => testBit_or_nonAscii _

def ofEscape (e : ClassEscape) : Atom where
  members := classEscapes e
  negated := false
  escapes := [e]
  covers := fun _ => Members.testBit_classEscapes e

/-- The set a bracket class matches, once its items are read. -/
def ofClass (negated : Bool) (s : Members) : Atom where
  members := if negated then asciiWithout (foldBits s.bits) ||| nonAscii else foldBits s.bits
  negated := negated
  escapes := s.escapes
  covers := by
    intro h
    cases negated
    · exact testBit_foldBits (s.covers (by simpa using h))
    · exact testBit_or_nonAscii _

end Atom

/-! ### Zero-width tests -/

inductive Zero where
  | caret
  | dollar
  | boundary
  | notBoundary
  deriving DecidableEq, Repr

def isWordChar (c : Char) : Bool :=
  if c.toNat < 128 then isAlnumCode c.toNat || c == '_' else latin1Word c.toNat

def atBoundary (name : Str) (i : Nat) : Bool :=
  (i != 0 && (name[i - 1]?).any isWordChar) != (name[i]?).any isWordChar

/-- `^` and `$` without `MULTILINE`: `$` also holds before a final newline. `\B` never
holds in an empty text. -/
def Zero.holds (z : Zero) (name : Str) (i : Nat) : Bool :=
  match z with
  | .caret => i == 0
  | .dollar => i == name.length || (i + 1 == name.length && name[i]? == some '\n')
  | .boundary => atBoundary name i
  | .notBoundary => !name.isEmpty && !atBoundary name i

/-- Expressions over one-character atoms and zero-width tests. -/
abbrev HostRe := Re Atom Zero

/-! ### Reading one token -/

inductive Escape where
  | cls (e : ClassEscape)
  | zero (z : Zero)
  | literal (c : Char)

/-- `_escape`: the escape at `index` and the index after it. -/
def escape (pattern : Str) (index : Nat) : Except Refusal (Escape × Nat) :=
  match pattern[index + 1]? with
  | none => .error (refusalAt "trailing backslash".toList index)
  | some escaped =>
      match ClassEscape.ofChar escaped with
      | some e => .ok (.cls e, index + 2)
      | none =>
          if escaped = 'b' then .ok (.zero .boundary, index + 2)
          else if escaped = 'B' then .ok (.zero .notBoundary, index + 2)
          else if isAlnumCode escaped.toNat then
            .error (refusalAt "unsupported escape".toList index)
          else .ok (.literal escaped, index + 2)

def setOperationChars : Str := "-&~|".toList

/-- `_check_set_operation`. -/
def checkSetOperation (pattern : Str) (index : Nat) : Except Refusal Unit :=
  match pattern[index]? with
  | none => .ok ()
  | some c =>
      if c ∈ setOperationChars ∧ pattern[index + 1]? = some c then
        .error (refusalAt "set operation in class".toList index)
      else .ok ()

/-- `_class_item`: code point (none for a class escape), character set, next index. -/
def classItem (pattern : Str) (index : Nat) : Except Refusal (Option Nat × Members × Nat) :=
  match pattern[index]? with
  | none => .error "unclosed class".toList
  | some '\\' => do
      let (kind, stop) ← escape pattern index
      match kind with
      | .zero _ => .error (refusalAt "unsupported escape in class".toList index)
      | .cls e => .ok (none, Members.escape e, stop)
      | .literal c => .ok (some c.toNat, Members.char c.toNat, stop)
  | some '[' => .error (refusalAt "nested class".toList index)
  | some c => .ok (some c.toNat, Members.char c.toNat, index + 1)

def bitCount (members : Nat) : Nat := (List.range 128).countP members.testBit

/-- The loop of `_class_end`: index after the class, its atom, the ASCII characters it
lists. -/
def classLoop (pattern : Str) (negated : Bool) :
    Nat → Nat → Members → Nat → Except Refusal (Nat × Atom × Nat)
  | 0, _, _, _ => .error "unclosed class".toList
  | fuel + 1, index, members, items =>
      match pattern[index]? with
      | none => .error "unclosed class".toList
      | some ']' =>
          if items = 0 then .error (refusalAt "empty class".toList index)
          else .ok (index + 1, Atom.ofClass negated members, bitCount (foldBits members.bits))
      | some _ => do
          checkSetOperation pattern index
          let (low, found, next) ← classItem pattern index
          let members := members.union found
          -- a `-` that ends the class is a literal
          if pattern[next]? = some '-' ∧ pattern[next + 1]? ≠ none ∧
              pattern[next + 1]? ≠ some ']' then do
            checkSetOperation pattern next
            let (high, _, stop) ← classItem pattern (next + 1)
            match low, high with
            | some low, some high =>
                if high < low then .error (refusalAt "reversed range".toList stop)
                else
                  classLoop pattern negated fuel stop
                    (members.union (Members.range low high)) (items + 1)
            | _, _ => .error (refusalAt "class escape in range".toList stop)
          else classLoop pattern negated fuel next members (items + 1)

/-- `_class_end`, for the class whose `[` precedes `index`. -/
def classEnd (pattern : Str) (index : Nat) : Except Refusal (Nat × Atom × Nat) :=
  if pattern[index]? = some '^' then
    classLoop pattern true (pattern.length + 1) (index + 1) Members.none 0
  else classLoop pattern false (pattern.length + 1) index Members.none 0

/-- A repeat count that is in order, and whether it is lazy. -/
structure Quantifier where
  low : Nat
  high : Option Nat
  lazy : Bool
  ordered : ∀ h ∈ high, low ≤ h

def Quantifier.isOptional (q : Quantifier) : Bool := q.low == 0 && q.high == some 1

def isDigits (s : Str) : Bool := !s.isEmpty && s.all fun c => isDigitCode c.toNat

def intOf (s : Str) : Nat := s.foldl (fun n c => n * 10 + (c.toNat - 48)) 0

/-- The bounds of the quantifier at `index` and the index after them. -/
def repeatBounds (pattern : Str) (index : Nat) :
    Except Refusal (Option (Nat × Option Nat × Nat)) :=
  match pattern[index]? with
  | some '?' => .ok (some (0, some 1, index + 1))
  | some '*' => .ok (some (0, none, index + 1))
  | some '+' => .ok (some (1, none, index + 1))
  | some '{' =>
      let (body, closed, _) := partition '}' (pattern.drop (index + 1))
      let (lowText, comma, highText) := partition ',' body
      if !closed || !isDigits lowText || (!highText.isEmpty && !isDigits highText) then
        .error (refusalAt "invalid repeat".toList index)
      else
        let low := intOf lowText
        let high := if comma then (if highText.isEmpty then none else some (intOf highText))
          else some low
        .ok (some (low, high, index + 1 + body.length + 1))
  | _ => .ok none

def inBounds (low : Nat) (high : Option Nat) : Bool :=
  low ≤ regexRepeatMax && high.all fun h => h ≤ regexRepeatMax && low ≤ h

/-- `_quantifier`. -/
def quantifier (pattern : Str) (index : Nat) : Except Refusal (Nat × Option Quantifier) := do
  match ← repeatBounds pattern index with
  | none => .ok (index, none)
  | some (low, high, stop) =>
      if h : inBounds low high = true then
        let lazy := pattern[stop]? == some '?'
        .ok (if lazy then stop + 1 else stop, some {
          low := low
          high := high
          lazy := lazy
          ordered := by
            intro n hn
            rw [Option.mem_def] at hn
            subst hn
            simp only [inBounds, Option.all_some, Bool.and_eq_true, decide_eq_true_eq] at h
            exact h.2.2 })
      else .error (refusalAt "repeat out of bounds".toList index)

/-! ### Branches and frames -/

inductive Kind where
  | zero
  | atom
  | group
  deriving DecidableEq, Repr

/-- `_Item`: one element of a branch, with the expression it stands for. -/
structure Item where
  kind : Kind
  members : Nat := 0
  quantified : Bool := false
  low : Nat := 1
  high : Option Nat := some 1
  dollar : Bool := false
  nodes : Nat := 0
  out : Nat := 1
  length : Nat := 0
  re : HostRe

namespace Item

def zeroWidth (z : Zero) : Item := { kind := .zero, dollar := z == .dollar, re := .zero z }

/-- The token a leading dot run is counted with, as a written `^` would be. -/
def leadingAnchor : Item := { kind := .zero, re := .eps }

def plain (a : Atom) : Item := { kind := .atom, members := a.members, re := .atom a }

def repeated (a : Atom) (q : Quantifier) : Item where
  kind := .atom
  members := a.members
  quantified := true
  low := q.low
  high := q.high
  re := .rep a q.low q.high q.lazy

/-- An atom with its quantifier, when it has one. -/
def ofAtom (a : Atom) : Option Quantifier → Item
  | none => plain a
  | some q => repeated a q

end Item

def attempts (item : Item) : Nat :=
  match item.high with
  | none => regexCostUnbounded
  | some high => high - item.low + 1

/-- `_hands_nothing_on`: `rest` is what follows the quantified atom in its branch. -/
def handsNothingOn (item : Item) (rest : List Item) (top : Bool) : Bool :=
  (top && rest.all (·.dollar)) ||
    match rest with
    | [] => false
    | following :: _ =>
        following.kind == .atom && 1 ≤ following.low && item.members &&& following.members == 0

/-- One turn of the loop of `_branch_cost`, before saturation. -/
def itemCost (top : Bool) (item : Item) (rest : List Item) (nodes paths : Nat) : Nat × Nat :=
  if item.kind = .atom ∧ item.quantified then
    (nodes + paths * (item.low + attempts item),
      if handsNothingOn item rest top then paths else paths * attempts item)
  else if item.kind = .group ∧ item.quantified ∧ item.low = 0 ∧ item.high = some 1 then
    (nodes + paths * (1 + item.nodes), paths * (1 + item.out))
  else if item.kind = .group ∧ item.quantified then
    (nodes + paths * item.length * (item.low + attempts item), paths * attempts item)
  else if item.kind = .group then (nodes + paths * item.nodes, paths * item.out)
  else (nodes + paths, paths)

def branchLoop (top : Bool) : List Item → Nat → Nat → Nat × Nat
  | [], nodes, paths => (nodes, paths)
  | item :: rest, nodes, paths =>
      let (nodes, paths) := itemCost top item rest nodes paths
      branchLoop top rest (min nodes costSaturation) (min paths costSaturation)

/-- `_branch_cost`: search-tree nodes of one branch, and ways it can have been walked. -/
def branchCost (items : List Item) (top : Bool) : Nat × Nat :=
  branchLoop top items (if items.isEmpty then 1 else 0) 1

/-- The expression of one branch. -/
def branchRe (items : List Item) : HostRe :=
  if items.isEmpty then .empty else items.foldr (fun item r => .cat item.re r) .eps

/-- The expression of an alternation. -/
def alternation : List HostRe → HostRe
  | [] => .empty
  | [r] => r
  | r :: s :: rs => .alt r (alternation (s :: rs))

/-- `_Frame`: one alternation level, with the expressions of its finished branches and
the atoms of its body in order. -/
structure Frame where
  top : Bool
  items : List Item := []
  nodes : Nat := 0
  out : Nat := 0
  atoms : Nat := 0
  simple : Bool := true
  unanchored : Nat := 0
  branchAnchored : Bool := false
  dotRuns : List (Nat × Nat) := []
  finished : List HostRe := []
  run : List Atom := []

namespace Frame

def endBranch (frame : Frame) : Frame :=
  let (nodes, out) := branchCost frame.items frame.top
  { frame with
    nodes := min (frame.nodes + nodes) costSaturation
    out := min (frame.out + out) costSaturation
    unanchored := frame.unanchored + if frame.branchAnchored then 0 else 1
    items := []
    branchAnchored := false
    finished := frame.finished ++ [branchRe frame.items] }

/-- The expression of a body whose branches are all finished. -/
def re (frame : Frame) : HostRe := alternation frame.finished

def push (frame : Frame) (item : Item) : Frame := { frame with items := frame.items ++ [item] }

end Frame

/-- The item of a closed group. -/
def Item.ofGroup (body : Frame) (q : Option Quantifier) : Item where
  kind := .group
  quantified := q.isSome
  low := q.elim 1 (·.low)
  high := q.elim (some 1) (·.high)
  nodes := body.nodes
  out := body.out
  length := body.atoms
  re :=
    match q with
    | none => .group body.re
    | some q =>
        if q.isOptional then .opt body.re q.lazy else .run body.run q.low q.high q.lazy

/-! ### Admission -/

/-- State of the reading loop of `_admit`; the stack is `frame` over `outer`. -/
structure Scan where
  index : Nat := 0
  width : Nat := 0
  frame : Frame
  outer : List Frame := []

def openGroup (pattern : Str) (s : Scan) : Except Refusal Scan :=
  let rest := pattern.drop s.index
  let extended := startsWith "(?".toList rest
  if extended && !startsWith "(?:".toList rest then
    .error (refusalAt "unsupported group".toList s.index)
  else
    let index := if extended then s.index + 3 else s.index + 1
    if regexGroupDepthMax < s.outer.length + 1 then
      .error (refusalAt ("groups nested over ".toList ++ decimal regexGroupDepthMax) index)
    else
      .ok { s with
        index := index
        frame := { top := false }
        outer := { s.frame with simple := false } :: s.outer }

/-- Only a plain run of atoms may be repeated more than optionally. -/
def mayRepeat (body : Frame) (q : Option Quantifier) : Bool :=
  q.all (·.isOptional) || (body.simple && body.atoms != 0)

def closeGroup (pattern : Str) (s : Scan) : Except Refusal Scan :=
  match s.outer with
  | [] => .error (refusalAt "unbalanced )".toList s.index)
  | enclosing :: outer => do
      let body := s.frame.endBranch
      let (index, q) ← quantifier pattern (s.index + 1)
      if mayRepeat body q then
        .ok { s with
          index := index
          frame := enclosing.push (Item.ofGroup body q)
          outer := outer }
      else .error "quantified group".toList

def bar (s : Scan) : Scan :=
  { s with index := s.index + 1, frame := { s.frame with simple := false }.endBranch }

/-- The zero-width token at `index`, and the index after it. -/
def zeroAt (pattern : Str) (index : Nat) : Option (Zero × Nat) :=
  match pattern[index]?, pattern[index + 1]? with
  | some '^', _ => some (.caret, index + 1)
  | some '$', _ => some (.dollar, index + 1)
  | some '\\', some 'b' => some (.boundary, index + 2)
  | some '\\', some 'B' => some (.notBoundary, index + 2)
  | _, _ => none

def appendZero (s : Scan) (z : Zero) (next : Nat) : Scan :=
  { s with
    index := next
    frame := { s.frame with
      branchAnchored := s.frame.branchAnchored || (z == .caret && s.frame.items.isEmpty)
      simple := false
      items := s.frame.items ++ [Item.zeroWidth z] } }

/-- The atom at `index`: the index after it, and the ASCII characters its class lists. -/
def readAtom (pattern : Str) (char : Char) (index : Nat) : Except Refusal (Nat × Atom × Nat) :=
  if char = '[' then classEnd pattern (index + 1)
  else if char = '\\' then do
    let (kind, stop) ← escape pattern index
    match kind with
    | .cls e => .ok (stop, Atom.ofEscape e, 0)
    | .literal c => .ok (stop, Atom.literal c, 0)
    | .zero z => .ok (stop, Atom.literal (if z = .boundary then 'b' else 'B'), 0)
  else if char = ']' ∨ char = '}' then
    .error (refusalAt ("unescaped ".toList ++ [char]) index)
  else .ok (index + 1, if char = '.' then Atom.anyButNewline else Atom.literal char, 0)

/-- Whether the dot just read starts a branch of the whole pattern as `.*` or `.+`. -/
def isLeadingDotRun (pattern : Str) (char : Char) (frame : Frame) (index : Nat) : Bool :=
  char == '.' && frame.top && frame.items.isEmpty &&
    (pattern[index]? == some '*' || pattern[index]? == some '+')

def Frame.pushAtom (frame : Frame) (a : Atom) (q : Option Quantifier) : Frame :=
  { frame with
    atoms := frame.atoms + 1
    simple := frame.simple && q.isNone
    items := frame.items ++ [Item.ofAtom a q]
    run := frame.run ++ [a] }

/-- A leading dot run anchors its branch and costs what a written `^` costs. -/
def Frame.anchorDotRun (frame : Frame) (start stop : Nat) : Frame :=
  { frame with
    dotRuns := frame.dotRuns ++ [(start, stop)]
    items := frame.items ++ [Item.leadingAnchor]
    branchAnchored := true }

def appendAtom (pattern : Str) (char : Char) (s : Scan) : Except Refusal Scan := do
  let (index, atom, listed) ← readAtom pattern char s.index
  let (next, q) ← quantifier pattern index
  let frame :=
    if isLeadingDotRun pattern char s.frame index then s.frame.anchorDotRun (index - 1) next
    else s.frame
  .ok { s with index := next, width := s.width + listed, frame := frame.pushAtom atom q }

def quantifierStart : Str := "?*+\x7b".toList

/-- One turn of the loop of `_admit`. -/
def step (pattern : Str) (char : Char) (s : Scan) : Except Refusal Scan :=
  if char = '(' then openGroup pattern s
  else if char = ')' then closeGroup pattern s
  else if char = '|' then .ok (bar s)
  else
    match zeroAt pattern s.index with
    | some (z, next) => .ok (appendZero s z next)
    | none =>
        if char ∈ quantifierStart then
          .error (refusalAt "misplaced quantifier".toList s.index)
        else appendAtom pattern char s

/-- The loop of `_admit`; every turn moves on by at least one character. -/
def scan (pattern : Str) : Nat → Scan → Except Refusal Scan
  | 0, s => .ok s
  | fuel + 1, s =>
      match pattern[s.index]? with
      | none => .ok s
      | some char => do
          let s ← step pattern char s
          scan pattern fuel s

/-- `_DOT_RUNS`. -/
def dotRun (text : Str) : Str :=
  if text = ".*".toList then "(?s:.*)".toList
  else if text = ".*?".toList then "(?s:.*?)".toList
  else if text = ".+".toList then "(?s:.*)[^\\n]".toList
  else if text = ".+?".toList then "(?s:.*?)[^\\n]".toList
  else text

def compileParts (pattern : Str) : List (Nat × Nat) → Nat → Str
  | [], last => pattern.drop last
  | (start, stop) :: dotRuns, last =>
      (pattern.take start).drop last ++ dotRun ((pattern.take stop).drop start) ++
        compileParts pattern dotRuns stop

/-- `_compile_text`. -/
def compileText (pattern : Str) (dotRuns : List (Nat × Nat)) : Str :=
  "^(?:".toList ++ compileParts pattern dotRuns 0 ++ ")".toList

/-- An admitted pattern: its cost and compile text, the expression it is matched as and
whether every branch of it is anchored. -/
structure Admitted where
  cost : Nat
  compileText : Str
  re : HostRe
  anchored : Bool

def costRefusal (pattern : Str) (top : Frame) (width cost : Nat) : Refusal :=
  let bound := " (bound ".toList ++ decimal cost ++ " > ".toList ++ decimal regexCostMax ++
    ")".toList
  if top.nodes + top.unanchored ≤ regexCostMax ∧
      pattern.length + top.unanchored ≤ regexPatternMaxLen ∧ width ≤ regexClassWidthMax then
    "too costly to match unanchored".toList ++ bound ++ "; anchor it with ^".toList
  else "too costly to match".toList ++ bound

def finish (pattern : Str) (s : Scan) : Except Refusal Admitted :=
  if !s.outer.isEmpty then .error "unbalanced (".toList
  else
    let top := s.frame.endBranch
    let anchored := top.unanchored == 0
    let cost := min (top.nodes * if anchored then 1 else regexCostUnbounded) costSaturation
    if regexCostMax < cost then .error (costRefusal pattern top s.width cost)
    else if regexClassWidthMax < s.width then
      .error ("character classes too wide (width ".toList ++ decimal s.width ++ " > ".toList ++
        decimal regexClassWidthMax ++ ")".toList)
    else
      .ok {
        cost := cost
        compileText := if anchored && !top.dotRuns.isEmpty then compileText pattern top.dotRuns
          else pattern
        re := top.re
        anchored := anchored }

def isPrintable (c : Char) : Bool := '!' ≤ c && c ≤ '~'

/-- `_admit`. -/
def admitPattern (pattern : Str) : Except Refusal Admitted :=
  if pattern.length = 0 then .error "empty pattern".toList
  else if regexPatternMaxLen < pattern.length then
    .error ("over ".toList ++ decimal regexPatternMaxLen ++ " characters".toList)
  else if pattern.any fun c => !isPrintable c then
    .error "non-ASCII, space or control character".toList
  else do
    let s ← scan pattern pattern.length { frame := { top := true } }
    finish pattern s

/-- `pfb_regex_admission`: cost, refusal and compile text. -/
def regexAdmission (pattern : Str) : Nat × Option Refusal × Str :=
  match admitPattern pattern with
  | .ok a => (a.cost, none, a.compileText)
  | .error refusal => (0, some refusal, pattern)

/-! ### Progress of the loops -/

theorem escape_index {pattern : Str} {index stop : Nat} {kind : Escape}
    (h : escape pattern index = .ok (kind, stop)) : stop = index + 2 := by
  unfold escape at h
  split at h
  · cases h
  · split at h
    · simp only [Except.ok.injEq, Prod.mk.injEq] at h
      exact h.2.symm
    · split_ifs at h <;> simp only [Except.ok.injEq, Prod.mk.injEq] at h <;> exact h.2.symm

theorem classItem_index {pattern : Str} {index stop : Nat} {code : Option Nat} {found : Members}
    (h : classItem pattern index = .ok (code, found, stop)) : index < stop := by
  unfold classItem at h
  split at h
  · cases h
  · simp only [bind, Except.bind] at h
    split at h
    · cases h
    · rename_i kind hescape
      have hstop := escape_index hescape
      split at h <;> simp only [reduceCtorEq, Except.ok.injEq, Prod.mk.injEq] at h <;> omega
  · cases h
  · simp only [Except.ok.injEq, Prod.mk.injEq] at h
    omega

theorem classLoop_index {pattern : Str} {negated : Bool} {fuel index items stop listed : Nat}
    {members : Members} {a : Atom}
    (h : classLoop pattern negated fuel index members items = .ok (stop, a, listed)) :
    index < stop := by
  induction fuel generalizing index members items with
  | zero => cases h
  | succ fuel ih =>
      rw [classLoop] at h
      split at h
      · cases h
      · split at h
        · cases h
        · simp only [Except.ok.injEq, Prod.mk.injEq] at h
          omega
      · simp only [bind, Except.bind] at h
        split at h
        · cases h
        · split at h
          · cases h
          · rename_i hitem
            have hnext := classItem_index hitem
            split at h
            · split at h
              · cases h
              · split at h
                · cases h
                · rename_i hitem'
                  have hstop := classItem_index hitem'
                  split at h
                  · split at h
                    · cases h
                    · have := ih h
                      omega
                  · cases h
            · have := ih h
              omega

theorem classEnd_index {pattern : Str} {index stop listed : Nat} {a : Atom}
    (h : classEnd pattern index = .ok (stop, a, listed)) : index < stop := by
  unfold classEnd at h
  split at h
  · have := classLoop_index h
    omega
  · exact classLoop_index h

theorem repeatBounds_index {pattern : Str} {index low stop : Nat} {high : Option Nat}
    (h : repeatBounds pattern index = .ok (some (low, high, stop))) : index < stop := by
  unfold repeatBounds at h
  split at h
  · simp only [Except.ok.injEq, Option.some.injEq, Prod.mk.injEq] at h
    omega
  · simp only [Except.ok.injEq, Option.some.injEq, Prod.mk.injEq] at h
    omega
  · simp only [Except.ok.injEq, Option.some.injEq, Prod.mk.injEq] at h
    omega
  · simp only at h
    split at h
    · cases h
    · simp only [Except.ok.injEq, Option.some.injEq, Prod.mk.injEq] at h
      omega
  · cases h

theorem quantifier_index {pattern : Str} {index stop : Nat} {q : Option Quantifier}
    (h : quantifier pattern index = .ok (stop, q)) : index ≤ stop := by
  simp only [quantifier, bind, Except.bind] at h
  split at h
  · cases h
  · rename_i hbounds
    split at h
    · simp only [Except.ok.injEq, Prod.mk.injEq] at h
      omega
    · have hstop := repeatBounds_index hbounds
      split at h
      · simp only [Except.ok.injEq, Prod.mk.injEq] at h
        have hle := h.1
        split at hle <;> omega
      · cases h

theorem readAtom_index {pattern : Str} {char : Char} {index stop listed : Nat} {a : Atom}
    (h : readAtom pattern char index = .ok (stop, a, listed)) : index < stop := by
  unfold readAtom at h
  split at h
  · have := classEnd_index h
    omega
  · split at h
    · simp only [bind, Except.bind] at h
      split at h
      · cases h
      · rename_i hescape
        have hstop := escape_index hescape
        split at h <;> simp only [Except.ok.injEq, Prod.mk.injEq] at h <;> omega
    · split at h
      · cases h
      · simp only [Except.ok.injEq, Prod.mk.injEq] at h
        omega

theorem step_index {pattern : Str} {char : Char} {s s' : Scan}
    (h : step pattern char s = .ok s') : s.index < s'.index := by
  unfold step at h
  split at h
  · simp only [openGroup] at h
    split at h
    · cases h
    · split at h
      · cases h
      · obtain rfl := Except.ok.inj h
        simp only
        split <;> omega
  · split at h
    · unfold closeGroup at h
      split at h
      · cases h
      · simp only [bind, Except.bind] at h
        split at h
        · cases h
        · rename_i hq
          have := quantifier_index hq
          split at h
          · obtain rfl := Except.ok.inj h
            simp only
            omega
          · cases h
    · split at h
      · obtain rfl := Except.ok.inj h
        exact Nat.lt_succ_self _
      · split at h
        · rename_i z next hzero
          obtain rfl := Except.ok.inj h
          change s.index < next
          unfold zeroAt at hzero
          split at hzero <;> simp only [reduceCtorEq, Option.some.injEq, Prod.mk.injEq] at hzero <;>
            omega
        · split at h
          · cases h
          · simp only [appendAtom, bind, Except.bind] at h
            split at h
            · cases h
            · rename_i hatom
              have hread := readAtom_index hatom
              split at h
              · cases h
              · rename_i hq
                have hnext := quantifier_index hq
                obtain rfl := Except.ok.inj h
                simp only
                omega

/-- An admitted pattern was read to its end. -/
theorem scan_index {pattern : Str} {fuel : Nat} {s s' : Scan} (h : scan pattern fuel s = .ok s')
    (hfuel : pattern.length ≤ s.index + fuel) : pattern.length ≤ s'.index := by
  induction fuel generalizing s with
  | zero => exact Except.ok.inj h ▸ hfuel
  | succ fuel ih =>
      rw [scan] at h
      split at h
      · rename_i hnone
        exact Except.ok.inj h ▸ List.getElem?_eq_none_iff.mp hnone
      · simp only [bind, Except.bind] at h
        split at h
        · cases h
        · rename_i hstep
          have := step_index hstep
          exact ih h (by omega)

example : regexAdmission "^ad[sx]?\\d+\\.".toList = (263, none, "^ad[sx]?\\d+\\.".toList) := by
  decide

end PfBlockerNG.RegexRules
