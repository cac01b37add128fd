import PfBlockerNG.AbpAnchor
import PfBlockerNG.PcreReading
import PfBlockerNG.RangeRuns

/-!
A regex rule of an adblock list with one pattern for each octet, expanded to the CIDRs of the
addresses it matches.
-/

namespace PfBlockerNG.OctetRegex

open PfBlockerNG.AbpAnchor
open PfBlockerNG.IpText
open PfBlockerNG.PcreReading
open PfBlockerNG.PyText
open PfBlockerNG.RangeRuns
open PfBlockerNG.Strings

/-- The calls of the regex engine. -/
inductive Check where
  | scheme
  | path
  | firstOctet
  | part
  | braces
  | numbers
  | octet (part : Str)
  deriving DecidableEq, Repr

/-- What the expansion rests on: how the engine reads an open lower bound, the subjects on which
it runs into its limit, the forced failure of the test seam, and `ip_range_to_subnet_array()`,
with `none` when it throws or warns. -/
structure Env where
  openLow : Bool
  exhausts : Check → Str → Bool
  fault : Bool
  ipRangeToSubnetArray : Str → Str → Option (List Str)

/-! ### The groups around the address -/

def isLetter (c : Char) : Bool := ('a' ≤ c && c ≤ 'z') || ('A' ≤ c && c ≤ 'Z')

/-- Where the words of a scheme group have got to; `marked` is behind a question mark. -/
inductive WordTurn where
  | fresh
  | letters
  | marked
  deriving DecidableEq, Repr

/-- `[A-Za-z]+\??(?:\|[A-Za-z]+\??)*\)`, and what is left behind it. -/
def wordsRest : WordTurn → Str → Option Str
  | _, [] => none
  | t, c :: s =>
      if t ≠ .marked ∧ isLetter c = true then wordsRest .letters s
      else if t = .fresh then none
      else if t = .letters ∧ c = '?' then wordsRest .marked s
      else if c = '|' then wordsRest .fresh s
      else if c = ')' then some s
      else none

def schemeEnd : Str := "://)?".toList

/-- What is left behind `(.*://)?` or `((w|w?)://)?`. -/
def schemeRest (inner : Str) : Option Str :=
  let body := match inner with
    | '(' :: '.' :: '*' :: s => some s
    | '(' :: '(' :: s => wordsRest .fresh s
    | _ => none
  body.bind fun s => if startsWith schemeEnd s then some (s.drop schemeEnd.length) else none

def stripScheme (E : Env) (inner : Str) : Str :=
  if E.exhausts .scheme inner then inner else (schemeRest inner).getD inner

def pathGroups : List Str := ["(/.*)?".toList, "(\\/.*)?".toList, "([:/].*)?".toList]

/-- The text without a path group at its end; NULL is cast to an empty text. -/
def stripPath (E : Env) (inner : Str) : Str :=
  if E.exhausts .path inner then []
  else
    match pathGroups.find? fun g => endsWith g inner with
    | some g => inner.take (inner.length - g.length)
    | none => inner

/-! ### The parts -/

/-- The parts between the `\.` outside parentheses, with `cur` in front of the first one. -/
def splitParts (depth : Nat) (cur : Str) : Str → Option (List Str)
  | [] => if depth = 0 then some [cur] else none
  | c :: s =>
      if c = '\\' then
        match s with
        | [] => splitParts depth (cur ++ [c]) []
        | d :: s =>
            if d = '.' ∧ depth = 0 then (splitParts 0 [] s).map (cur :: ·)
            else splitParts depth (cur ++ [c, d]) s
      else if c = '(' then splitParts (depth + 1) (cur ++ [c]) s
      else if c = ')' then if depth = 0 then none else splitParts (depth - 1) (cur ++ [c]) s
      else if c = '|' ∧ depth = 0 then none
      else splitParts depth (cur ++ [c]) s

/-- `/^(?:1\d\d|2[0-4]\d|25[0-5])$/D`. -/
def isLongOctet : Str → Bool
  | ['1', b, c] => isAsciiDigit b && isAsciiDigit c
  | ['2', b, c] =>
      ('0' ≤ b && b ≤ '4' && isAsciiDigit c) || (b == '5' && '0' ≤ c && c ≤ '5')
  | _ => false

/-- Where a class of digits has got to. -/
inductive DigitTurn where
  | fresh
  | digit
  | dash
  | item
  | escape
  deriving DecidableEq, Repr

inductive PartTurn where
  | outside
  | escape
  | inClass (turn : DigitTurn)
  deriving DecidableEq, Repr

/-- A character in a class of `\d-\d`, `\d` and digits. -/
def classStep (t : DigitTurn) (c : Char) : Option PartTurn :=
  match t with
  | .escape => if c = 'd' then some (.inClass .item) else none
  | .dash => if isAsciiDigit c then some (.inClass .item) else none
  | .fresh | .digit | .item =>
      if isAsciiDigit c then some (.inClass .digit)
      else if c = '\\' then some (.inClass .escape)
      else if c = ']' ∧ t ≠ .fresh then some .outside
      else if c = '-' ∧ t = .digit then some (.inClass .dash)
      else none

def partStep : PartTurn → Char → Option PartTurn
  | .outside, c =>
      if c = '\\' then some .escape
      else if c = '[' then some (.inClass .fresh)
      else if isAsciiDigit c || "?*+\x7b\x7d,()|-".toList.contains c then some .outside
      else none
  | .escape, c => if c = 'd' then some .outside else none
  | .inClass t, c => classStep t c

/-- `/^(?:[\d?*+\x7b\x7d,()|-]|\\d|\[(?:\d-\d|\\d|\d)+\])+$/D`. -/
def isPart (part : Str) : Bool :=
  !part.isEmpty && part.foldlM partStep .outside == some .outside

/-- Every brace with what stands before its end; `t` is the text of an open one. -/
def braces : Option Str → Str → List Str
  | none, [] => []
  | some t, [] => [t]
  | none, c :: s => braces (if c = '\x7b' then some [c] else none) s
  | some t, c :: s => if c = '\x7d' then t :: braces none s else braces (some (t ++ [c])) s

def numbers (brace : Str) : List Str :=
  (brace.splitOnP fun c => !isAsciiDigit c).filter fun n => !n.isEmpty

/-- A brace bound stays within an octet's three digits. -/
def boundsFit (E : Env) (part : Str) : Bool :=
  E.exhausts .braces part || (braces none part).all fun brace =>
    E.exhausts .numbers brace || (numbers brace).all fun n => IpText.decimal n ≤ 3

def partAccepted (E : Env) (part : Str) : Bool :=
  !E.exhausts .part part && isPart part && (find "(?".toList part).isNone &&
    (find "\x7b,\x7d".toList part).isNone && boundsFit E part

/-- The text between the outer slashes. -/
def ruleText (line : Str) : Str := (line.drop 1).dropLast

/-- The four parts, all checks passed. -/
def octetParts (E : Env) (line : Str) : Option (List Str) :=
  if 514 < line.length ∨ ¬ startsWith ['/'] line ∨ ¬ endsWith ['$', '/'] line then none
  else
    let inner := (line.drop 1).take (line.length - 3)
    let anchored := startsWith ['^'] inner
    let inner := if anchored then inner.drop 1 else inner
    (splitParts 0 [] (stripPath E (stripScheme E inner))).filter fun parts =>
      parts.length = 4 &&
        (anchored || parts.head?.any fun part =>
          !E.exhausts .firstOctet part && isLongOctet part) &&
        parts.all (partAccepted E)

/-! ### The addresses -/

/-- `preg_grep()` of a part over the octets. -/
def octetSet (E : Env) (part : Str) : Option (List Nat) :=
  match readRegex E.openLow ("^(?:".toList ++ part ++ ")$".toList) with
  | none => none
  | some r =>
      if (List.range 256).any fun n => E.exhausts (.octet part) (octetText n) then none
      else
        let hits := (List.range 256).filter fun n => pregMatch r (octetText n)
        if hits = [] then none else some hits

/-- `$base` of three octets. -/
def base (a b c : Nat) : Nat := a <<< 24 ||| b <<< 16 ||| c <<< 8

/-- `$merged`. -/
def mergedRuns (as bs cs ds : List Nat) : Option (List Run) :=
  let runs := (ds.map Run.one).foldl appendRun []
  if 65536 < as.length * bs.length * cs.length * runs.length then none
  else
    joinUpTo 256 (as.flatMap fun a => bs.flatMap fun b => cs.flatMap fun c =>
      runs.map (Run.shift (base a b c)))

/-- `(int) substr($cidr, strpos($cidr, '/') + 1)`. -/
def maskOf (cidr : Str) : Nat :=
  IpText.decimal (((after '/' cidr).getD (cidr.drop 1)).takeWhile isAsciiDigit)

def addCidr (cidrs : List Str) (cidr : Str) : Option (List Str) :=
  if 256 ≤ cidrs.length ∨ maskOf cidr < 16 then none else some (cidrs ++ [cidr])

def addRun (E : Env) (cidrs : List Str) (r : Run) : Option (List Str) :=
  (E.ipRangeToSubnetArray (long2ip r.first) (long2ip r.last)).bind fun subnets =>
    subnets.foldlM addCidr cidrs

/-- The list before it is returned; every failure on the way is `none`. -/
def expansion (E : Env) (line : Str) : Option (List Str) := do
  let parts ← octetParts E line
  if E.fault then none
  else
    match ← parts.mapM (octetSet E) with
    | [as, bs, cs, ds] => do (← mergedRuns as bs cs ds).foldlM (addRun E) []
    | _ => none

def pfbDnsblAbpRegexIp4Cidrs (E : Env) (line : Str) : List Str := (expansion E line).getD []

end PfBlockerNG.OctetRegex
