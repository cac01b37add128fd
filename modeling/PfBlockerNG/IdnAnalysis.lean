import Mathlib.Data.List.Sort
import PfBlockerNG.PyText

/-!
The IDN feed: modes, the mixed-script analysis of each label and the action it maps to.
-/

namespace PfBlockerNG.IdnAnalysis

open PfBlockerNG.Strings
open PfBlockerNG.PyText

/-- `IdnMode`. -/
inductive IdnMode where
  | all
  | confusable
  | off
  deriving DecidableEq, Repr

def IdnMode.ofText (s : Str) : Option IdnMode :=
  if s = "on".toList then some .all
  else if s = "confusable".toList then some .confusable
  else if s = "off".toList then some .off
  else none

/-- `idn_mode_from_legacy`. -/
def idnModeFromLegacy (pythonIdn : Bool) : IdnMode := if pythonIdn then .all else .off

/-- `sub in s`. -/
def containsStr (sub s : Str) : Bool := (find sub s).isSome

def isIdnDomain (qName : Str) : Bool :=
  startsWith "xn--".toList qName || containsStr ".xn--".toList qName

def idnModeDecision (qName : Str) (mode : IdnMode) : Bool := mode == .all && isIdnDomain qName

inductive Severity where
  | legit
  | flagged
  | suspicious
  | malicious
  deriving DecidableEq, Repr

/-- `_SEV_ORDER`. -/
def Severity.rank : Severity → Nat
  | .legit => 0
  | .flagged => 1
  | .suspicious => 2
  | .malicious => 3

def confusableSet : List Str := ["Latin".toList, "Cyrillic".toList, "Greek".toList]

def highlyRestrictiveSet : List Str :=
  ["Latin".toList, "Han".toList, "Hiragana".toList, "Katakana".toList, "Hangul".toList,
    "Bopomofo".toList]

def isDigitOrHyphen (c : Char) : Bool := isAsciiDigit c || c == '-'

/-- `_COMMON_LO_MARKS`. -/
def isCommonLoMark (c : Char) : Bool := c.toNat == 0x3006 || c.toNat == 0x303C

/-- `decode_idn_label`. -/
def decodeIdnLabel (u : Unicode) (label : Str) : Except Str Str :=
  if !startsWith "xn--".toList label then .ok label
  else if (label.drop 4).all isAscii then u.punycode (label.drop 4)
  else .error "UnicodeEncodeError".toList

/-- `script_of`: the script of a letter, from the first word of its name. -/
def scriptOf (u : Unicode) (c : Char) : Option Str :=
  let cat := u.category c
  if cat.head? ≠ some 'L' ∨ cat = "Lm".toList ∨ isCommonLoMark c then none
  else
    let name := u.charName c
    if name.isEmpty then none
    else
      let token := name.takeWhile (· ≠ ' ')
      some (if token = "CJK".toList then "Han".toList else asciiCapitalize token)

/-- `resolved_script_set`. -/
def resolvedScriptSet (u : Unicode) (text : Str) : List Str :=
  (text.filterMap (scriptOf u)).eraseDups

def isOneScriptOrHighlyRestrictive (scripts : List Str) : Bool :=
  scripts.length == 1 || (2 ≤ scripts.length && scripts.all highlyRestrictiveSet.contains)

/-- `severity_of`. -/
def severityOf (u : Unicode) (text : Str) : Severity :=
  let scripts := resolvedScriptSet u text
  if 2 ≤ (scripts.filter confusableSet.contains).length then .malicious
  else if scripts.isEmpty then
    if !text.isEmpty && text.all isDigitOrHyphen then .legit else .flagged
  else if isOneScriptOrHighlyRestrictive scripts then .legit
  else .suspicious

structure LabelVerdict where
  aLabel : Str
  decoded : Option Str
  scripts : List Str
  severity : Severity
  offending : List Str
  decodeError : Option Str

structure NameVerdict where
  aName : Str
  labels : List LabelVerdict
  severity : Severity
  offending : List Str

def offendingScripts (scripts : List Str) : Severity → List Str
  | .malicious => scripts.filter confusableSet.contains
  | .suspicious => scripts
  | _ => []

/-- `classify_label`: a label that does not decode is flagged. -/
def classifyLabel (u : Unicode) (aLabel : Str) : LabelVerdict :=
  match decodeIdnLabel u aLabel with
  | .error e => ⟨aLabel, none, [], .flagged, [], some e⟩
  | .ok decoded =>
      let scripts := resolvedScriptSet u decoded
      let severity := severityOf u decoded
      ⟨aLabel, some decoded, scripts, severity, offendingScripts scripts severity, none⟩

/-- The first of the most severe labels. -/
def worstOf (first : LabelVerdict) (rest : List LabelVerdict) : LabelVerdict :=
  rest.foldl (fun worst v => if worst.severity.rank < v.severity.rank then v else worst) first

/-- `classify_idn`. -/
def classifyIdn (u : Unicode) (qName : Str) : NameVerdict :=
  match (splitDots qName).map (classifyLabel u) with
  | [] => ⟨qName, [], .legit, []⟩
  | first :: rest =>
      let worst := worstOf first rest
      ⟨qName, first :: rest, worst.severity, worst.offending⟩

inductive IdnAction where
  | none
  | alert
  | block
  deriving DecidableEq, Repr

/-- `idn_confusable_action`. -/
def idnConfusableAction (u : Unicode) (qName : Str) (blockMalicious escalateSuspicious : Bool) :
    IdnAction × Option NameVerdict :=
  if !isIdnDomain qName then (.none, none)
  else
    let verdict := classifyIdn u qName
    match verdict.severity with
    | .legit => (.none, some verdict)
    | .malicious => (if blockMalicious then .block else .alert, some verdict)
    | _ => (if escalateSuspicious then .block else .alert, some verdict)

def idnFeedMalicious : Str := "Homoglyph".toList
def idnGroupMalicious : Str := "DNSBL_Homoglyph".toList
def idnFeedSuspect : Str := "Homoglyph_Suspect".toList
def idnGroupSuspect : Str := "DNSBL_Homoglyph_Suspect".toList

/-- Feed and group a verdict is reported under. -/
def idnAttribution (verdict : NameVerdict) : Str × Str :=
  if verdict.severity = .malicious then (idnFeedMalicious, idnGroupMalicious)
  else (idnFeedSuspect, idnGroupSuspect)

/-- `_idn_dual_form`. -/
def idnDualForm (verdict : NameVerdict) : Str :=
  match verdict.labels.find? fun label => label.severity = verdict.severity with
  | none => verdict.aName
  | some worst =>
      match worst.decoded with
      | none =>
          worst.aLabel ++ " [decode-error:".toList ++ worst.decodeError.getD "unknown".toList ++
            "]".toList
      | some decoded =>
          let scripts := [' '].intercalate
            (verdict.offending.insertionSort (· ≤ ·))
          worst.aLabel ++ " [".toList ++ decoded ++ "]".toList ++
            if scripts.isEmpty then [] else ' ' :: scripts

end PfBlockerNG.IdnAnalysis
