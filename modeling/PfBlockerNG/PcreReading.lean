import PfBlockerNG.GroupRepeats
import PfBlockerNG.PyText

/-!
Reading a pattern text as PCRE does, for literals, `.`, `\d`, classes of characters and ranges,
groups, alternation, the anchors and every repeat. A text outside these is not read.
-/

namespace PfBlockerNG.PcreReading

open PfBlockerNG.GroupRepeats
open PfBlockerNG.PyText
open PfBlockerNG.Strings

inductive Atom where
  | any
  | among (ranges : List (Char × Char))
  deriving DecidableEq, Repr

def Atom.mem : Atom → Char → Bool
  | .any, c => c != '\n'
  | .among ranges, c => ranges.any fun r => r.1 ≤ c && c ≤ r.2

def Atom.char (c : Char) : Atom := .among [(c, c)]

def Atom.digit : Atom := .among [('0', '9')]

abbrev Regex := Re Atom

inductive Token where
  | item (a : Atom)
  | opening
  | closing
  | bar
  | caret
  | dollar
  | repeated (low : Nat) (high : Option Nat) (mode : Mode)
  deriving DecidableEq, Repr

/-- Where a class has got to: a complete item, one character that may begin a range, its dash,
or a backslash. -/
inductive ClassTurn where
  | fresh
  | item
  | char (a : Char)
  | dash (a : Char)
  | escape
  deriving DecidableEq, Repr

/-- What the characters read last may still become. -/
inductive Pending where
  | plain
  | escape
  | quantifier (low : Nat) (high : Option Nat)
  | brace (text : Str)
  | opening
  | openingMark
  | inClass (ranges : List (Char × Char)) (turn : ClassTurn)
  deriving DecidableEq, Repr

/-! ### Tokens -/

/-- A character with nothing pending. -/
def readPlain (c : Char) : List Token × Pending :=
  if c = '\\' then ([], .escape)
  else if c = '[' then ([], .inClass [] .fresh)
  else if c = '(' then ([], .opening)
  else if c = '?' then ([], .quantifier 0 (some 1))
  else if c = '*' then ([], .quantifier 0 none)
  else if c = '+' then ([], .quantifier 1 none)
  else if c = '\x7b' then ([], .brace [])
  else
    ([if c = ')' then .closing else if c = '|' then .bar else if c = '^' then .caret
      else if c = '$' then .dollar else if c = '.' then .item .any else .item (.char c)], .plain)

def decimal (s : Str) : Nat := s.foldl (fun n c => 10 * n + (c.toNat - 48)) 0

/-- The bounds between braces: not a quantifier, an error, or low and high. A missing low bound
is read as 0 from PCRE2 10.43 on (`openLow`). -/
def braceBounds (openLow : Bool) (text : Str) : Option (Option (Nat × Option Nat)) :=
  let bounds (low : Nat) (high : Option Nat) : Option (Nat × Option Nat) :=
    if low ≤ 65535 ∧ ∀ h, high = some h → h ≤ 65535 ∧ low ≤ h then some (low, high) else none
  match partition ',' text with
  | (low, false, _) =>
      if isAsciiDigits low then some (bounds (decimal low) (some (decimal low))) else none
  | (low, true, high) =>
      if isAsciiDigits low && high.isEmpty then some (bounds (decimal low) none)
      else if isAsciiDigits high && (isAsciiDigits low || (openLow && low.isEmpty)) then
        some (bounds (decimal low) (some (decimal high)))
      else none

def literals (s : Str) : List Token := s.map fun c => .item (.char c)

/-- Characters in a class; an unescaped bracket, a negation or a loose dash is not read. -/
def readClass (ranges : List (Char × Char)) (turn : ClassTurn) (c : Char) :
    Option (List Token × Pending) :=
  let single (ranges : List (Char × Char)) : Option (List Token × Pending) :=
    if c = '[' ∨ c = '-' ∨ c = '^' then none
    else if c = '\\' then some ([], .inClass ranges .escape)
    else some ([], .inClass ranges (.char c))
  match turn with
  | .fresh => if c = ']' then none else single ranges
  | .item => if c = ']' then some ([.item (.among ranges)], .plain) else single ranges
  | .char a =>
      if c = ']' then some ([.item (.among (ranges ++ [(a, a)]))], .plain)
      else if c = '-' then some ([], .inClass ranges (.dash a))
      else single (ranges ++ [(a, a)])
  | .dash a =>
      if c = ']' ∨ c = '[' ∨ c = '\\' then none
      else if a ≤ c then some ([], .inClass (ranges ++ [(a, c)]) .item) else none
  | .escape => if c = 'd' then some ([], .inClass (ranges ++ [('0', '9')]) .item) else none

/-- What is pending when nothing continues it. -/
def flush : Pending → Option (List Token)
  | .plain => some []
  | .quantifier low high => some [.repeated low high .greedy]
  | .brace text => some (literals ('\x7b' :: text))
  | .opening => some [.opening]
  | .escape | .openingMark | .inClass _ _ => none

def follow (m : Pending) (c : Char) : Option (List Token × Pending) :=
  (flush m).map fun ts => (ts ++ (readPlain c).1, (readPlain c).2)

def isWordChar (c : Char) : Bool :=
  isAsciiDigit c || ('a' ≤ c && c ≤ 'z') || ('A' ≤ c && c ≤ 'Z')

/-- One character of the pattern. -/
def lexStep (openLow : Bool) (m : Pending) (c : Char) : Option (List Token × Pending) :=
  match m with
  | .plain => some (readPlain c)
  | .escape =>
      if c = 'd' then some ([.item .digit], .plain)
      else if isWordChar c then none
      else some ([.item (.char c)], .plain)
  | .quantifier low high =>
      if c = '?' then some ([.repeated low high .lazy], .plain)
      else if c = '+' then some ([.repeated low high .possessive], .plain)
      else follow m c
  | .brace text =>
      if c = '\x7d' then
        match braceBounds openLow text with
        | none => some (literals ('\x7b' :: text ++ [c]), .plain)
        | some none => none
        | some (some (low, high)) => some ([], .quantifier low high)
      else if isAsciiDigit c || c = ',' then some ([], .brace (text ++ [c]))
      else follow m c
  | .opening => if c = '?' then some ([], .openingMark) else follow m c
  | .openingMark => if c = ':' then some ([.opening], .plain) else none
  | .inClass ranges turn => readClass ranges turn c

def lexRun (openLow : Bool) : Pending → Str → Option (List Token × Pending)
  | m, [] => some ([], m)
  | m, c :: s =>
      (lexStep openLow m c).bind fun r =>
        (lexRun openLow r.2 s).map fun r' => (r.1 ++ r'.1, r'.2)

/-! ### Expressions -/

/-- An open group: the finished branches, the items of the last one, and whether a quantifier
may follow. -/
structure Frame where
  finished : List Regex
  items : List Regex
  quantifiable : Bool

def Frame.fresh : Frame := ⟨[], [], false⟩

def Frame.push (f : Frame) (r : Regex) : Frame := ⟨f.finished, f.items ++ [r], true⟩

def Frame.re (f : Frame) : Regex := alternation (f.finished ++ [seq f.items])

/-- A token inside a group; the parentheses are not. -/
def Frame.read (f : Frame) : Token → Option Frame
  | .item a => some (f.push (.atom a))
  | .caret => some ⟨f.finished, f.items ++ [.start], false⟩
  | .dollar => some ⟨f.finished, f.items ++ [.stop], false⟩
  | .bar => some ⟨f.finished ++ [seq f.items], [], false⟩
  | .repeated low high mode =>
      match f.quantifiable, f.items.getLast? with
      | true, some r => some ⟨f.finished, f.items.dropLast ++ [.rep r low high mode], false⟩
      | _, _ => none
  | .opening => none
  | .closing => none

/-- One token, with the innermost group first. -/
def parseStep : List Frame → Token → Option (List Frame)
  | f :: rest, .opening => some (.fresh :: f :: rest)
  | f :: g :: rest, .closing => some (g.push f.re :: rest)
  | f :: rest, t => (f.read t).map (· :: rest)
  | [], _ => none

def parseTokens (stack : List Frame) (ts : List Token) : Option (List Frame) :=
  ts.foldlM parseStep stack

/-- The expression of a pattern text, if it compiles. -/
def readRegex (openLow : Bool) (text : Str) : Option Regex := do
  let (ts, m) ← lexRun openLow .plain text
  let last ← flush m
  match ← parseTokens [.fresh] (ts ++ last) with
  | [f] => some f.re
  | _ => none

/-- `preg_match()` of a subject. -/
def pregMatch (r : Regex) (subject : Str) : Bool := finds Atom.mem (· == '\n') r subject

/-! ### A piece of a pattern reads the same in its place -/

section Tokens

variable {openLow : Bool}

theorem lexRun_append (m : Pending) (s t : Str) :
    lexRun openLow m (s ++ t) = (lexRun openLow m s).bind fun r =>
      (lexRun openLow r.2 t).map fun r' => (r.1 ++ r'.1, r'.2) := by
  induction s generalizing m with
  | nil =>
      rw [List.nil_append, lexRun, Option.bind_some]
      exact (congrArg (Option.map · _) (funext fun r => by rw [List.nil_append])).trans
        Option.map_id' |>.symm
  | cons c s ih =>
      rw [List.cons_append, lexRun, lexRun, Option.bind_assoc]
      congr 1
      funext r
      rw [ih, Option.map_bind, Option.bind_map]
      congr 1
      funext r'
      simp [Function.comp_def, List.append_assoc]

/-- A character that no pending text goes on with. -/
def Closes (openLow : Bool) (m : Pending) (c : Char) : Prop := lexStep openLow m c = follow m c

theorem closes_plain (c : Char) : Closes openLow .plain c := by
  simp [Closes, lexStep, follow, flush]

theorem closes_of_mem {m : Pending} {c : Char} (hc : c ∈ ['\\', ')', '(', '$'])
    (hm : flush m ≠ none) : Closes openLow m c := by
  have h₁ : c ≠ '?' := by rintro rfl; exact absurd hc (by decide)
  have h₂ : c ≠ '+' := by rintro rfl; exact absurd hc (by decide)
  have h₃ : c ≠ '\x7d' := by rintro rfl; exact absurd hc (by decide)
  have h₄ : ¬ (isAsciiDigit c = true ∨ c = ',') := by
    simp only [List.mem_cons, List.not_mem_nil, or_false] at hc
    rcases hc with rfl | rfl | rfl | rfl <;> decide
  cases m with
  | plain => exact closes_plain c
  | quantifier low high => simp [Closes, lexStep, h₁, h₂]
  | brace text => simp [Closes, lexStep, h₃, h₄]
  | opening => simp [Closes, lexStep, h₁]
  | escape | openingMark | inClass ranges turn => exact absurd rfl hm

theorem closes_quantifier {low : Nat} {high : Option Nat} {c : Char} (h₁ : c ≠ '?') (h₂ : c ≠ '+') :
    Closes openLow (.quantifier low high) c := by
  simp [Closes, lexStep, h₁, h₂]

/-- Behind a closed text a piece is read as at the beginning. -/
theorem lexRun_closed {m : Pending} {c : Char} (h : Closes openLow m c) (s : Str) :
    lexRun openLow m (c :: s) = (flush m).bind fun ts =>
      (lexRun openLow .plain (c :: s)).map fun r => (ts ++ r.1, r.2) := by
  rw [lexRun, lexRun, h, follow]
  cases flush m with
  | none => rfl
  | some ts =>
      simp only [Option.map_some, Option.bind_some, lexStep, Option.map_map]
      congr 1
      funext r
      simp [List.append_assoc]

end Tokens

section Frames

/-- How many groups are open; a bar outside them is only for the body of a group. -/
def tokenDepth (bars : Bool) : Nat → Token → Option Nat
  | d, .opening => some (d + 1)
  | 0, .closing => none
  | d + 1, .closing => some d
  | 0, .bar => if bars then some 0 else none
  | d, _ => some d

theorem parseStep_cons {t : Token} (h₁ : t ≠ .opening) (h₂ : t ≠ .closing) (f : Frame)
    (rest : List Frame) : parseStep (f :: rest) t = (f.read t).map (· :: rest) := by
  cases t with
  | opening => exact absurd rfl h₁
  | closing => exact absurd rfl h₂
  | _ => rfl

/-- Tokens that leave a group open do not touch what is below it. -/
theorem parseStep_under {bars : Bool} {t : Token} {d d' : Nat} (h : tokenDepth bars d t = some d')
    {F : List Frame} (hF : F.length = d + 1) (rest : List Frame) :
    parseStep (F ++ rest) t = (parseStep F t).map (· ++ rest) ∧
      ∀ G, parseStep F t = some G → G.length = d' + 1 := by
  obtain ⟨f, F, rfl⟩ := List.exists_cons_of_length_eq_add_one hF
  have hread : ∀ (u : Token), d' = d →
      ((f.read u).map (· :: (F ++ rest)) = ((f.read u).map (· :: F)).map (· ++ rest) ∧
        ∀ G, (f.read u).map (· :: F) = some G → G.length = d' + 1) := by
    intro u hd
    refine ⟨by rw [Option.map_map]; rfl, fun G hG => ?_⟩
    obtain ⟨g, -, rfl⟩ := Option.map_eq_some_iff.mp hG
    rw [hd, ← hF]
    rfl
  cases t with
  | opening =>
      obtain rfl := Option.some.inj h
      refine ⟨rfl, fun G hG => ?_⟩
      obtain rfl := Option.some.inj hG
      rw [← hF]
      rfl
  | closing =>
      cases F with
      | nil =>
          obtain rfl : d = 0 := by simpa using hF.symm
          cases h
      | cons g F =>
          obtain ⟨e, rfl⟩ : ∃ e, d = e + 1 := ⟨F.length, by simpa using hF.symm⟩
          obtain rfl := Option.some.inj h
          refine ⟨rfl, fun G hG => ?_⟩
          obtain rfl := Option.some.inj hG
          simpa using hF
  | bar =>
      apply hread .bar
      cases d with
      | zero =>
          simp only [tokenDepth] at h
          split at h
          · exact (Option.some.inj h).symm
          · cases h
      | succ d => exact (Option.some.inj h).symm
  | item a => exact hread (.item a) (Option.some.inj h).symm
  | caret => exact hread .caret (Option.some.inj h).symm
  | dollar => exact hread .dollar (Option.some.inj h).symm
  | repeated low high mode => exact hread (.repeated low high mode) (Option.some.inj h).symm

theorem parseTokens_under {bars : Bool} {ts : List Token} {d d' : Nat}
    (h : ts.foldlM (tokenDepth bars) d = some d') {F : List Frame} (hF : F.length = d + 1)
    (rest : List Frame) :
    parseTokens (F ++ rest) ts = (parseTokens F ts).map (· ++ rest) ∧
      ∀ G, parseTokens F ts = some G → G.length = d' + 1 := by
  induction ts generalizing F d with
  | nil =>
      obtain rfl := Option.some.inj h
      refine ⟨rfl, fun G hG => ?_⟩
      obtain rfl := Option.some.inj hG
      exact hF
  | cons t ts ih =>
      rw [List.foldlM_cons, Option.bind_eq_bind, Option.bind_eq_some_iff] at h
      obtain ⟨e, he, hts⟩ := h
      obtain ⟨hstep, hlen⟩ := parseStep_under he hF rest
      simp only [parseTokens, List.foldlM_cons, Option.bind_eq_bind] at ih ⊢
      rw [hstep]
      cases hG : parseStep F t with
      | none => exact ⟨rfl, fun G hG => nomatch hG⟩
      | some G => exact ih hts (hlen G hG)

/-- Only a closed group leaves the stack as deep as it was. -/
theorem depth_of_parseStep {t : Token} {d : Nat} {F G : List Frame} (hF : F.length = d + 1)
    (h : parseStep F t = some G) : ∃ d', tokenDepth true d t = some d' ∧ G.length = d' + 1 := by
  obtain ⟨f, F, rfl⟩ := List.exists_cons_of_length_eq_add_one hF
  have hread : ∀ (u : Token), (f.read u).map (· :: F) = some G → G.length = d + 1 := by
    intro u hu
    obtain ⟨g, -, rfl⟩ := Option.map_eq_some_iff.mp hu
    exact hF
  cases t with
  | opening =>
      obtain rfl := Option.some.inj h
      exact ⟨d + 1, rfl, congrArg (· + 1) hF⟩
  | closing =>
      cases F with
      | nil => cases h
      | cons g F =>
          obtain rfl := Option.some.inj h
          obtain ⟨e, rfl⟩ : ∃ e, d = e + 1 := ⟨F.length, by simpa using hF.symm⟩
          exact ⟨e, rfl, by simpa using hF⟩
  | bar => exact ⟨d, by cases d <;> rfl, hread .bar h⟩
  | item a => exact ⟨d, rfl, hread (.item a) h⟩
  | caret => exact ⟨d, rfl, hread .caret h⟩
  | dollar => exact ⟨d, rfl, hread .dollar h⟩
  | repeated low high mode => exact ⟨d, rfl, hread (.repeated low high mode) h⟩

theorem depth_of_parseTokens {ts : List Token} {d : Nat} {F G : List Frame}
    (hF : F.length = d + 1) (h : parseTokens F ts = some G) :
    ∃ d', ts.foldlM (tokenDepth true) d = some d' ∧ G.length = d' + 1 := by
  induction ts generalizing F d with
  | nil =>
      obtain rfl := Option.some.inj h
      exact ⟨d, rfl, hF⟩
  | cons t ts ih =>
      rw [parseTokens, List.foldlM_cons, Option.bind_eq_bind, Option.bind_eq_some_iff] at h
      obtain ⟨H, hstep, h⟩ := h
      obtain ⟨e, he, hH⟩ := depth_of_parseStep hF hstep
      obtain ⟨d', hd', hG⟩ := ih hH h
      refine ⟨d', ?_, hG⟩
      rw [List.foldlM_cons, he]
      exact hd'

/-- The outermost group with items in front of its own. -/
structure LiftedFrame (A I : List Regex) (f f' : Frame) : Prop where
  finished : f.finished = []
  finished' : f'.finished = A
  items : f'.items = I ++ f.items
  quantifiable : f'.quantifiable = f.quantifiable ∨ f.items = [] ∧ f.quantifiable = false

def Lifted (A I : List Regex) (S S' : List Frame) : Prop :=
  ∃ F f f', S = F ++ [f] ∧ S' = F ++ [f'] ∧ LiftedFrame A I f f'

variable {A I : List Regex}

theorem LiftedFrame.push {f f' : Frame} (h : LiftedFrame A I f f') (r : Regex) :
    LiftedFrame A I (f.push r) (f'.push r) where
  finished := h.finished
  finished' := h.finished'
  items := by simp [Frame.push, h.items]
  quantifiable := Or.inl rfl

theorem LiftedFrame.read {f f' g : Frame} {t : Token} (h : LiftedFrame A I f f')
    (hbar : t ≠ .bar) (hg : f.read t = some g) :
    ∃ g', f'.read t = some g' ∧ LiftedFrame A I g g' := by
  cases t with
  | item a =>
      obtain rfl := Option.some.inj hg
      exact ⟨_, rfl, h.push _⟩
  | caret | dollar =>
      obtain rfl := Option.some.inj hg
      exact ⟨_, rfl, h.finished, h.finished', by simp [h.items], Or.inl rfl⟩
  | bar => exact absurd rfl hbar
  | opening | closing => cases hg
  | repeated low high mode =>
      simp only [Frame.read] at hg
      split at hg
      · rename_i r hquant hlast
        obtain rfl := Option.some.inj hg
        have hquant' : f'.quantifiable = true := by
          rcases h.quantifiable with hq | ⟨_, hq⟩
          · rw [hq, hquant]
          · rw [hquant] at hq
            cases hq
        have hne : f.items ≠ [] := by
          intro hnil
          rw [hnil] at hlast
          cases hlast
        refine ⟨⟨A, I ++ f.items.dropLast ++ [.rep r low high mode], false⟩, ?_, h.finished, rfl,
          List.append_assoc _ _ _, Or.inl rfl⟩
        simp only [Frame.read, hquant', h.items, h.finished', List.getLast?_append_of_ne_nil _ hne,
          hlast, List.dropLast_append_of_ne_nil hne]
      · cases hg

theorem parseStep_lifted {t : Token} {d d' : Nat} (h : tokenDepth false d t = some d')
    {S S' T : List Frame} (hS : S.length = d + 1) (hlift : Lifted A I S S')
    (hT : parseStep S t = some T) : ∃ T', parseStep S' t = some T' ∧ Lifted A I T T' := by
  obtain ⟨F, f, f', rfl, rfl, hf⟩ := hlift
  cases F with
  | nil =>
      obtain rfl : d = 0 := by simpa using hS.symm
      cases t with
      | opening =>
          obtain rfl := Option.some.inj hT
          exact ⟨_, rfl, [.fresh], f, f', rfl, rfl, hf⟩
      | closing => cases h
      | bar => cases h
      | item a | caret | dollar | repeated low high mode =>
          rw [List.nil_append, parseStep_cons (by simp) (by simp), Option.map_eq_some_iff] at hT
          obtain ⟨g, hg, rfl⟩ := hT
          obtain ⟨g', hg', hlift⟩ := hf.read (by simp) hg
          exact ⟨[g'], congrArg (Option.map (· :: [])) hg', [], g, g', rfl, rfl, hlift⟩
  | cons top F =>
      cases t with
      | opening =>
          obtain rfl := Option.some.inj hT
          exact ⟨_, rfl, .fresh :: top :: F, f, f', rfl, rfl, hf⟩
      | closing =>
          cases F with
          | nil =>
              obtain rfl := Option.some.inj hT
              exact ⟨_, rfl, [], _, _, rfl, rfl, hf.push _⟩
          | cons g F =>
              obtain rfl := Option.some.inj hT
              exact ⟨_, rfl, g.push top.re :: F, f, f', rfl, rfl, hf⟩
      | bar | item a | caret | dollar | repeated low high mode =>
          rw [List.cons_append, parseStep_cons (by simp) (by simp), Option.map_eq_some_iff] at hT
          obtain ⟨g, hg, rfl⟩ := hT
          exact ⟨g :: F ++ [f'], congrArg (Option.map (· :: (F ++ [f']))) hg, g :: F, f, f', rfl,
            rfl, hf⟩

theorem parseTokens_lifted {ts : List Token} {d d' : Nat}
    (h : ts.foldlM (tokenDepth false) d = some d') {S S' T : List Frame} (hS : S.length = d + 1)
    (hlift : Lifted A I S S') (hT : parseTokens S ts = some T) :
    ∃ T', parseTokens S' ts = some T' ∧ Lifted A I T T' := by
  induction ts generalizing S S' d with
  | nil =>
      obtain rfl := Option.some.inj hT
      exact ⟨S', rfl, hlift⟩
  | cons t ts ih =>
      rw [List.foldlM_cons, Option.bind_eq_bind, Option.bind_eq_some_iff] at h
      obtain ⟨e, he, hts⟩ := h
      rw [parseTokens, List.foldlM_cons, Option.bind_eq_bind, Option.bind_eq_some_iff] at hT
      obtain ⟨U, hU, hT⟩ := hT
      obtain ⟨U', hU', hlift'⟩ := parseStep_lifted he hS hlift hU
      have hlen := (parseStep_under he hS []).2 U hU
      obtain ⟨T', hT', hlifted⟩ := ih hts hlen hlift' hT
      refine ⟨T', ?_, hlifted⟩
      rw [parseTokens, List.foldlM_cons, hU']
      exact hT'

/-- No anchor, and no item that takes the character. -/
def Token.Refuses (c : Char) : Token → Prop
  | .item a => a.mem c = false
  | .caret | .dollar => False
  | .opening | .closing | .bar | .repeated _ _ _ => True

def Frame.Refuses (c : Char) (f : Frame) : Prop :=
  ∀ r ∈ f.finished ++ f.items, GroupRepeats.Refuses Atom.mem c r

theorem Frame.Refuses.push {c : Char} {f : Frame} {r : Regex} (h : f.Refuses c)
    (hr : GroupRepeats.Refuses Atom.mem c r) : (f.push r).Refuses c := by
  intro q hq
  rw [Frame.push, ← List.append_assoc, List.mem_append, List.mem_singleton] at hq
  rcases hq with hq | rfl
  · exact h q hq
  · exact hr

theorem Frame.Refuses.seq {c : Char} {f : Frame} (h : f.Refuses c) :
    GroupRepeats.Refuses Atom.mem c (seq f.items) :=
  refuses_seq fun r hr => h r (List.mem_append_right _ hr)

theorem Frame.Refuses.re {c : Char} {f : Frame} (h : f.Refuses c) :
    GroupRepeats.Refuses Atom.mem c f.re := by
  apply refuses_alternation
  intro r hr
  rcases List.mem_append.mp hr with hr | hr
  · exact h r (List.mem_append_left _ hr)
  · rw [List.mem_singleton.mp hr]
    exact h.seq

theorem Frame.Refuses.read {c : Char} {f g : Frame} {t : Token} (h : f.Refuses c)
    (ht : t.Refuses c) (hg : f.read t = some g) : g.Refuses c := by
  cases t with
  | item a =>
      obtain rfl := Option.some.inj hg
      exact h.push ht
  | caret | dollar => exact ht.elim
  | bar =>
      obtain rfl := Option.some.inj hg
      intro r hr
      rw [List.append_nil, List.mem_append, List.mem_singleton] at hr
      rcases hr with hr | rfl
      · exact h r (List.mem_append_left _ hr)
      · exact h.seq
  | opening | closing => cases hg
  | repeated low high mode =>
      simp only [Frame.read] at hg
      split at hg
      · rename_i q _ hlast
        obtain rfl := Option.some.inj hg
        have hq := h q (List.mem_append_right _ (List.mem_of_getLast? hlast))
        intro r hr
        rw [← List.append_assoc, List.mem_append, List.mem_singleton] at hr
        rcases hr with hr | rfl
        · apply h r
          rcases List.mem_append.mp hr with hr | hr
          · exact List.mem_append_left _ hr
          · exact List.mem_append_right _ (List.dropLast_subset _ hr)
        · exact hq
      · cases hg

theorem refuses_of_parseTokens {c : Char} {ts : List Token} (hts : ∀ t ∈ ts, t.Refuses c)
    {S T : List Frame} (hS : ∀ f ∈ S, f.Refuses c) (h : parseTokens S ts = some T) :
    ∀ f ∈ T, f.Refuses c := by
  have hstep : ∀ (t : Token) (S T : List Frame), t.Refuses c → (∀ f ∈ S, f.Refuses c) →
      parseStep S t = some T → ∀ f ∈ T, f.Refuses c := by
    intro t S T ht hS hT
    unfold parseStep at hT
    split at hT
    · obtain rfl := Option.some.inj hT
      simpa [Frame.Refuses, Frame.fresh] using hS
    · obtain rfl := Option.some.inj hT
      simp only [List.mem_cons, forall_eq_or_imp] at hS ⊢
      exact ⟨hS.2.1.push hS.1.re, hS.2.2⟩
    · obtain ⟨g, hg, rfl⟩ := Option.map_eq_some_iff.mp hT
      simp only [List.mem_cons, forall_eq_or_imp] at hS ⊢
      exact ⟨hS.1.read ht hg, hS.2⟩
    · cases hT
  induction ts generalizing S with
  | nil =>
      obtain rfl := Option.some.inj h
      exact hS
  | cons t ts ih =>
      rw [parseTokens, List.foldlM_cons, Option.bind_eq_bind, Option.bind_eq_some_iff] at h
      obtain ⟨U, hU, h⟩ := h
      simp only [List.mem_cons, forall_eq_or_imp] at hts
      exact ih hts.2 (hstep t S U hts.1 hS hU) h

/-- Tokens that add items to a branch. -/
def Extends (ts : List Token) (J : List Regex) : Prop :=
  ∀ (A I : List Regex) (b : Bool), ∃ q, parseTokens [⟨A, I, b⟩] ts = some [⟨A, I ++ J, q⟩]

theorem Extends.append {ts us : List Token} {J K : List Regex} (h : Extends ts J)
    (h' : Extends us K) : Extends (ts ++ us) (J ++ K) := by
  intro A I b
  obtain ⟨q, hts⟩ := h A I b
  obtain ⟨q', hus⟩ := h' A (I ++ J) q
  refine ⟨q', ?_⟩
  rw [parseTokens] at hts hus ⊢
  rw [List.foldlM_append, hts]
  simpa using hus

/-- Tokens without a bar of their own that read alone extend any branch. -/
theorem extends_of_alone {ts : List Token} (h : ts.foldlM (tokenDepth false) 0 = some 0)
    {T : List Frame} (hT : parseTokens [.fresh] ts = some T) :
    ∃ J, Extends ts J ∧ ∃ q, T = [⟨[], J, q⟩] := by
  have hbase : ∀ (A I : List Regex) (b : Bool), Lifted A I [.fresh] [⟨A, I, b⟩] := fun A I b =>
    ⟨[], _, _, rfl, rfl, rfl, rfl, by simp [Frame.fresh], Or.inr ⟨rfl, rfl⟩⟩
  have hlen := (parseTokens_under h rfl []).2 T hT
  obtain ⟨f, rfl⟩ := List.length_eq_one_iff.mp hlen
  have hone : ∀ {A I : List Regex} {T' : List Frame}, Lifted A I [f] T' →
      ∃ f', T' = [f'] ∧ LiftedFrame A I f f' := by
    rintro A I T' ⟨F, g, g', hF, rfl, hg⟩
    cases F with
    | nil =>
        obtain rfl := (List.cons.inj hF).1
        exact ⟨g', rfl, hg⟩
    | cons top F => simp at hF
  have hfinished : f.finished = [] := by
    obtain ⟨T', -, hlift⟩ := parseTokens_lifted h rfl (hbase [] [] false) hT
    obtain ⟨f', -, hf⟩ := hone hlift
    exact hf.finished
  refine ⟨f.items, fun A I b => ?_, f.quantifiable, by rw [← hfinished]⟩
  obtain ⟨T', hT', hlift⟩ := parseTokens_lifted h rfl (hbase A I b) hT
  obtain ⟨f', rfl, hf⟩ := hone hlift
  refine ⟨f'.quantifiable, ?_⟩
  rw [hT', ← hf.finished', ← hf.items]

end Frames

section Pieces

variable {openLow : Bool}

theorem readRegex_eq_some_iff {text : Str} {r : Regex} :
    readRegex openLow text = some r ↔ ∃ ts m fs f, lexRun openLow .plain text = some (ts, m) ∧
      flush m = some fs ∧ parseTokens [.fresh] (ts ++ fs) = some [f] ∧ f.re = r := by
  unfold readRegex
  simp only [Option.bind_eq_bind, Option.bind_eq_some_iff]
  constructor
  · rintro ⟨⟨ts, m⟩, hlex, fs, hfs, stack, hstack, hr⟩
    split at hr
    · rename_i f
      exact ⟨ts, m, fs, f, hlex, hfs, hstack, Option.some.inj hr⟩
    · cases hr
  · rintro ⟨ts, m, fs, f, hlex, hfs, hstack, rfl⟩
    exact ⟨(ts, m), hlex, fs, hfs, [f], hstack, rfl⟩

/-- A text that adds items to the branch it stands in; `m` is what it leaves pending. -/
def Adds (openLow : Bool) (p : Str) (m : Pending) (J : List Regex) : Prop :=
  ∃ ts fs, lexRun openLow .plain p = some (ts, m) ∧ flush m = some fs ∧ Extends (ts ++ fs) J

theorem Adds.unique {p : Str} {m m' : Pending} {J J' : List Regex} (h : Adds openLow p m J)
    (h' : Adds openLow p m' J') : m = m' ∧ J = J' := by
  obtain ⟨ts, fs, hlex, hflush, hext⟩ := h
  obtain ⟨ts', fs', hlex', hflush', hext'⟩ := h'
  rw [hlex] at hlex'
  obtain ⟨rfl, rfl⟩ := Prod.mk.inj (Option.some.inj hlex')
  rw [hflush] at hflush'
  obtain rfl := Option.some.inj hflush'
  obtain ⟨q, hparse⟩ := hext [] [] false
  obtain ⟨q', hparse'⟩ := hext' [] [] false
  rw [hparse, Option.some.injEq, List.cons.injEq, Frame.mk.injEq] at hparse'
  exact ⟨rfl, by simpa using hparse'.1.2.1⟩

/-- Items whose tokens refuse a character refuse it. -/
theorem Adds.refuses {p : Str} {ts fs : List Token} {m : Pending} {J : List Regex} {c : Char}
    (h : Adds openLow p m J) (hlex : lexRun openLow .plain p = some (ts, m))
    (hflush : flush m = some fs) (hts : ∀ t ∈ ts ++ fs, t.Refuses c) :
    ∀ r ∈ J, GroupRepeats.Refuses Atom.mem c r := by
  obtain ⟨ts', fs', hlex', hflush', hext⟩ := h
  rw [hlex] at hlex'
  obtain rfl := (Prod.mk.inj (Option.some.inj hlex')).1
  rw [hflush] at hflush'
  obtain rfl := Option.some.inj hflush'
  obtain ⟨q, hparse⟩ := hext [] [] false
  have hframe := refuses_of_parseTokens hts (by simp [Frame.Refuses]) hparse
  simpa [Frame.Refuses] using hframe

theorem Adds.append {p s : Str} {c : Char} {m m' : Pending} {J K : List Regex}
    (h : Adds openLow p m J) (h' : Adds openLow (c :: s) m' K) (hc : Closes openLow m c) :
    Adds openLow (p ++ c :: s) m' (J ++ K) := by
  obtain ⟨ts, fs, hlex, hflush, hext⟩ := h
  obtain ⟨ts', fs', hlex', hflush', hext'⟩ := h'
  refine ⟨ts ++ (fs ++ ts'), fs', ?_, hflush', ?_⟩
  · rw [lexRun_append, hlex, Option.bind_some, lexRun_closed hc, hflush, hlex']
    rfl
  · have happ := hext.append hext'
    simpa only [List.append_assoc] using happ

theorem Adds.readRegex {p : Str} {m : Pending} {J : List Regex} (h : Adds openLow p m J) :
    readRegex openLow p = some (seq J) := by
  obtain ⟨ts, fs, hlex, hflush, hext⟩ := h
  obtain ⟨q, hparse⟩ := hext [] [] false
  exact readRegex_eq_some_iff.mpr ⟨ts, m, fs, _, hlex, hflush, hparse, rfl⟩

theorem adds_caret : Adds openLow ['^'] .plain [.start] :=
  ⟨[.caret], [], rfl, rfl, fun _ _ _ => ⟨false, rfl⟩⟩

theorem adds_dollar : Adds openLow ['$'] .plain [.stop] :=
  ⟨[.dollar], [], rfl, rfl, fun _ _ _ => ⟨false, rfl⟩⟩

theorem adds_dot : Adds openLow ['\\', '.'] .plain [.atom (.char '.')] :=
  ⟨[.item (.char '.')], [], rfl, rfl, fun _ _ _ => ⟨true, rfl⟩⟩

/-- A text that reads as a quantifier first cannot stand at the beginning. -/
theorem Adds.head_ne {c : Char} {s : Str} {m : Pending} {J : List Regex}
    (h : Adds openLow (c :: s) m J) : c ≠ '?' ∧ c ≠ '+' := by
  have hquant : ∀ (low : Nat) (high : Option Nat) (s : Str) (ts fs : List Token) (m : Pending),
      lexRun openLow (.quantifier low high) s = some (ts, m) → flush m = some fs →
      ∃ mode us, ts ++ fs = .repeated low high mode :: us := by
    intro low high s ts fs m hlex hflush
    cases s with
    | nil =>
        obtain ⟨rfl, rfl⟩ := Prod.mk.inj (Option.some.inj hlex)
        obtain rfl := Option.some.inj hflush
        exact ⟨.greedy, [], rfl⟩
    | cons c s =>
        rw [lexRun, Option.bind_eq_some_iff] at hlex
        obtain ⟨r, hr, hlex⟩ := hlex
        obtain ⟨r', -, heq⟩ := Option.map_eq_some_iff.mp hlex
        obtain ⟨rfl, rfl⟩ := Prod.mk.inj heq
        simp only [lexStep] at hr
        split at hr
        · obtain rfl := Option.some.inj hr
          exact ⟨.lazy, _, rfl⟩
        · split at hr
          · obtain rfl := Option.some.inj hr
            exact ⟨.possessive, _, rfl⟩
          · obtain rfl := Option.some.inj hr
            exact ⟨.greedy, _, rfl⟩
  obtain ⟨ts, fs, hlex, hflush, hext⟩ := h
  obtain ⟨q, hparse⟩ := hext [] [] false
  have hrefuse : ∀ (low : Nat) (high : Option Nat),
      lexRun openLow .plain (c :: s) = lexRun openLow (.quantifier low high) s → False := by
    intro low high heq
    obtain ⟨mode, us, hts⟩ := hquant low high s ts fs m (heq ▸ hlex) hflush
    rw [hts] at hparse
    cases hparse
  have hskip : ∀ m', lexStep openLow .plain c = some ([], m') →
      lexRun openLow .plain (c :: s) = lexRun openLow m' s := by
    intro m' hstep
    rw [lexRun, hstep, Option.bind_some]
    exact Option.map_id' (x := lexRun openLow m' s)
  constructor
  · rintro rfl
    exact hrefuse 0 (some 1) (hskip _ rfl)
  · rintro rfl
    exact hrefuse 1 none (hskip _ rfl)

/-- The tokens of a group are those of its body between parentheses. -/
theorem lexRun_group {c : Char} {s : Str} {m : Pending} {ts fs : List Token}
    (hlex : lexRun openLow .plain (c :: s) = some (ts, m)) (hflush : flush m = some fs)
    (hc : c ≠ '?') (rest : Str) :
    lexRun openLow .plain ('(' :: c :: s ++ ')' :: rest) =
      (lexRun openLow .plain rest).map fun r =>
        (.opening :: (ts ++ fs ++ .closing :: r.1), r.2) := by
  have hopen : Closes openLow .opening c := by simp [Closes, lexStep, hc]
  have hclose : Closes openLow m ')' := closes_of_mem (by simp) (by simp [hflush])
  have hstart : lexRun openLow .plain ('(' :: c :: s ++ ')' :: rest) =
      (lexRun openLow .opening (c :: (s ++ ')' :: rest))).map fun r => ([] ++ r.1, r.2) := rfl
  rw [hstart, lexRun_closed hopen, ← List.cons_append, lexRun_append, hlex]
  simp only [flush, Option.bind_some]
  rw [lexRun_closed hclose, hflush]
  have hstep : lexRun openLow .plain (')' :: rest) =
      (lexRun openLow .plain rest).map fun r => ([.closing] ++ r.1, r.2) := rfl
  rw [hstep]
  simp only [Option.bind_some, Option.map_map]
  congr 1
  funext r
  simp

/-- A group adds its expression to the branch it stands in. -/
theorem parseTokens_group {ts : List Token} {f : Frame}
    (hparse : parseTokens [.fresh] ts = some [f]) (g : Frame) (rest : List Frame) :
    parseTokens (g :: rest) (.opening :: (ts ++ [.closing])) = some (g.push f.re :: rest) := by
  have hfresh : [Frame.fresh].length = 0 + 1 := rfl
  obtain ⟨d, hdepth, -⟩ := depth_of_parseTokens hfresh hparse
  have hunder := (parseTokens_under hdepth hfresh (g :: rest)).1
  rw [hparse, Option.map_some] at hunder
  change (ts ++ [Token.closing]).foldlM parseStep ([.fresh] ++ g :: rest) = _
  rw [List.foldlM_append]
  change (parseTokens ([.fresh] ++ g :: rest) ts).bind _ = _
  rw [hunder]
  rfl

theorem adds_group {c : Char} {s : Str} {r : Regex} (h : readRegex openLow (c :: s) = some r)
    (hc : c ≠ '?') : Adds openLow ('(' :: c :: s ++ [')']) .plain [r] := by
  obtain ⟨ts, m, fs, f, hlex, hflush, hparse, rfl⟩ := readRegex_eq_some_iff.mp h
  refine ⟨.opening :: (ts ++ fs ++ [.closing]), [], ?_, rfl, fun A I b => ⟨true, ?_⟩⟩
  · rw [lexRun_group hlex hflush hc]
    rfl
  · rw [List.append_nil]
    exact parseTokens_group hparse ⟨A, I, b⟩ []

theorem adds_optional {c : Char} {s : Str} {r : Regex} (h : readRegex openLow (c :: s) = some r)
    (hc : c ≠ '?') : Adds openLow ('(' :: c :: s ++ [')', '?']) (.quantifier 0 (some 1))
      [.rep r 0 (some 1) .greedy] := by
  obtain ⟨ts, m, fs, f, hlex, hflush, hparse, rfl⟩ := readRegex_eq_some_iff.mp h
  refine ⟨.opening :: (ts ++ fs ++ [.closing]), _, ?_, rfl, fun A I b => ⟨false, ?_⟩⟩
  · rw [lexRun_group hlex hflush hc]
    rfl
  · have hgroup := parseTokens_group hparse ⟨A, I, b⟩ []
    rw [parseTokens] at hgroup ⊢
    rw [List.foldlM_append, hgroup]
    simp [parseStep, Frame.read, Frame.push]

/-- A text that compiles between `^(?:` and `)$` adds items to any branch, if it neither closes
the group nor ends its branch. -/
theorem adds_of_wrapped {p : Str} {ts fs : List Token} {m : Pending} {r : Regex}
    (hlex : lexRun openLow .plain p = some (ts, m)) (hflush : flush m = some fs)
    (hdepth : (ts ++ fs).foldlM (tokenDepth false) 0 = some 0)
    (h : readRegex openLow ("^(?:".toList ++ p ++ ")$".toList) = some r) :
    ∃ J, Adds openLow p m J ∧ r = seq [.start, seq J, .stop] := by
  obtain ⟨us, m', gs, f, hall, hlast, hparse, rfl⟩ := readRegex_eq_some_iff.mp h
  have hclose : Closes openLow m ')' := closes_of_mem (by simp) (by simp [hflush])
  have hend : lexRun openLow m ")$".toList = some (fs ++ [.closing, .dollar], .plain) := by
    change lexRun openLow m [')', '$'] = _
    rw [lexRun_closed hclose, hflush]
    rfl
  have hstart : lexRun openLow .plain "^(?:".toList = some ([.caret, .opening], .plain) := rfl
  rw [lexRun_append, lexRun_append, hstart] at hall
  simp only [Option.bind_some, hlex, Option.map_some, hend, Option.some.injEq,
    Prod.mk.injEq] at hall
  obtain ⟨rfl, rfl⟩ := hall
  obtain rfl := Option.some.inj hlast
  have hsplit : [Token.caret, .opening] ++ ts ++ (fs ++ [.closing, .dollar]) ++ [] =
      [.caret, .opening] ++ (ts ++ fs) ++ [.closing, .dollar] := by simp
  have hfresh : [Frame.fresh].length = 0 + 1 := rfl
  have hunder := (parseTokens_under hdepth hfresh [(⟨[], [.start], false⟩ : Frame)]).1
  rw [hsplit, parseTokens, List.foldlM_append, List.foldlM_append] at hparse
  change ((parseTokens ([.fresh] ++ [(⟨[], [.start], false⟩ : Frame)]) (ts ++ fs)).bind
    fun stack => [Token.closing, .dollar].foldlM parseStep stack) = some [f] at hparse
  rw [hunder] at hparse
  cases halone : parseTokens [.fresh] (ts ++ fs) with
  | none =>
      rw [halone] at hparse
      cases hparse
  | some T =>
      obtain ⟨J, hext, q, rfl⟩ := extends_of_alone hdepth halone
      rw [halone] at hparse
      obtain rfl := (List.cons.inj (Option.some.inj hparse)).1
      exact ⟨J, ⟨ts, fs, hlex, hflush, hext⟩, rfl⟩

end Pieces

end PfBlockerNG.PcreReading
