import PfBlockerNG.PyText

/-!
Public suffix rules: label normalisation, the prevailing suffixes of a name and the
roots selected for TLD-Allow.
-/

namespace PfBlockerNG.PublicSuffix

open PfBlockerNG.Strings
open PfBlockerNG.PyText

/-- `PslRules`: ordered rules split by section and syntax. -/
structure PslRules where
  icannExact : List Str := []
  icannWildcard : List Str := []
  icannException : List Str := []
  privateExact : List Str := []
  privateWildcard : List Str := []
  privateException : List Str := []
  deriving DecidableEq, Repr

/-- One section's rules (or both sections') by syntax. -/
structure PslSets where
  exact : List Str
  wildcard : List Str
  exception : List Str

namespace PslRules

def icannSets (rules : PslRules) : PslSets :=
  ⟨rules.icannExact, rules.icannWildcard, rules.icannException⟩

def combinedSets (rules : PslRules) : PslSets :=
  ⟨rules.icannExact ++ rules.privateExact, rules.icannWildcard ++ rules.privateWildcard,
    rules.icannException ++ rules.privateException⟩

/-- Some rule is held. -/
def any (rules : PslRules) : Bool :=
  !rules.icannExact.isEmpty || !rules.icannWildcard.isEmpty || !rules.icannException.isEmpty ||
    !rules.privateExact.isEmpty || !rules.privateWildcard.isEmpty ||
    !rules.privateException.isEmpty

end PslRules

/-- `PslResolution`. -/
structure PslResolution where
  icannSuffix : Str
  publicSuffix : Str
  registrableDomain : Str
  privateActive : Bool
  deriving DecidableEq, Repr

/-- Text of a `ValueError`. -/
abbrev Invalid := Str

def pslLabelChar (c : Char) : Bool := ('a' ≤ c && c ≤ 'z') || isAsciiDigit c || c == '-'

/-- Characters the IDNA branch refuses before the codec sees them. -/
def refusedInLabel (u : Unicode) (c : Char) : Bool :=
  isSpace c || ["Cc".toList, "Cf".toList, "Cn".toList].contains (u.category c)

/-- The canonical form of a label that is not plain ASCII. -/
def idnaLabel (u : Unicode) (label : Str) : Except Invalid Str :=
  if label.any (refusedInLabel u) then .error "invalid DNS label".toList
  else match u.idnaEncode label with
    | none => .error "invalid IDNA label".toList
    | some bytes =>
        let encoded := u.lower bytes
        if startsWith "xn--".toList encoded then
          match (u.idnaDecode encoded).bind u.idnaEncode with
          | none => .error "invalid IDNA label".toList
          | some canonical =>
              if u.lower canonical = encoded then .ok encoded
              else .error "invalid IDNA label".toList
        else .ok encoded

def normalizeLabel (u : Unicode) (label : Str) : Except Invalid Str := do
  if label.contains '*' || label.contains '!' then
    throw "invalid DNS label".toList
  let encoded ←
    if label.all isAscii && !startsWith "xn--".toList (u.lower label) then
      pure (u.lower label)
    else
      idnaLabel u label
  if encoded.isEmpty || 63 < encoded.length || encoded.head? == some '-' ||
      encoded.getLast? == some '-' || !encoded.all pslLabelChar then
    throw "invalid DNS label".toList
  return encoded

/-- `_psl_normalize_name`, as its labels. -/
def normalizeName (u : Unicode) (name : Str) : Except Invalid (List Str) := do
  let labels := splitDots name
  if name.isEmpty || labels.any List.isEmpty || 253 < utf8Length name then
    throw "invalid DNS name".toList
  let normalized ← labels.mapM (normalizeLabel u)
  if 253 < (joinDots normalized).length then
    throw "invalid DNS name".toList
  return normalized

/-- Every dotted suffix of a list of labels, longest first. -/
def tails : List Str → List Str
  | [] => []
  | label :: labels => joinDots (label :: labels) :: tails labels

/-- Suffix found so far and whether an exception carved it. -/
structure Walk where
  suffix : Option Str := none
  carved : Bool := false

def carve (w : Walk) (hit : Bool) (carved : Str) : Walk :=
  if hit && !w.carved then { suffix := some carved, carved := true } else w

/-- The ordinary match of one tail: a wildcard base yields the tail before it. -/
def ordinary (sets : PslSets) (before : Option Str) (tail : Str) (w : Walk) : Walk :=
  if w.suffix.isSome then w
  else match before with
    | some longer =>
        if sets.wildcard.contains tail then { w with suffix := some longer }
        else if sets.exact.contains tail then { w with suffix := some tail }
        else w
    | none => if sets.exact.contains tail then { w with suffix := some tail } else w

/-- The one walk over the tails that serves both sections. -/
def prevailingLoop (icann combined : PslSets) :
    Option Str → List Str → Walk → Walk → Walk × Walk
  | _, [], i, p => (i, p)
  | before, tail :: rest, i, p =>
      let carved := rest.headD []
      let hit := combined.exception.contains tail
      let p := carve p hit carved
      let i := carve i (hit && icann.exception.contains tail) carved
      prevailingLoop icann combined (some tail) rest (ordinary icann before tail i)
        (ordinary combined before tail p)

/-- `_psl_prevailing`: the ICANN and the combined suffix. -/
def prevailing (rules : PslRules) (labels : List Str) : Str × Str :=
  let (i, p) := prevailingLoop rules.icannSets rules.combinedSets none (tails labels) {} {}
  let last := labels.getLastD []
  (i.suffix.getD last, p.suffix.getD last)

/-- The last `n` elements. -/
def lastN (n : Nat) (labels : List Str) : List Str := labels.drop (labels.length - n)

/-- `".".join(labels[-n-1:])` when there is a label in front of the suffix. -/
def registrable (labels : List Str) (suffix : Str) : Str :=
  let n := (splitDots suffix).length
  if n < labels.length then joinDots (lastN (n + 1) labels) else []

/-- `resolve_public_suffix`. -/
def resolve (u : Unicode) (name : Str) (rules : PslRules) : Except Invalid PslResolution := do
  let labels ← normalizeName u name
  let (icann, pub) := prevailing rules labels
  return {
    icannSuffix := icann
    publicSuffix := pub
    registrableDomain := registrable labels pub
    privateActive := (splitDots icann).length < (splitDots pub).length }

/-- `_psl_normalize_query`: the lenient form for names that are queried. -/
def normalizeQuery (u : Unicode) (name : Str) : Option (List Str) :=
  let labels := splitDots name
  if name.isEmpty || labels.any List.isEmpty then none
  else some (labels.map fun label =>
    if label.all isAscii then u.lower label
    else match u.idnaEncode label with
      | some bytes => u.lower bytes
      | none => u.lower label)

/-- `suffix.rsplit(".", 1)[-1]`. -/
def rootLabel (suffix : Str) : Str := (splitDots suffix).getLastD suffix

/-- `_selected_tld_roots`. -/
def selectedTldRoots (u : Unicode) (values : List Str) : List Str :=
  values.foldl (fun roots value =>
    let root := u.lower (stripDots (strip value))
    if !root.isEmpty && !roots.contains root then roots ++ [root] else roots) []

end PfBlockerNG.PublicSuffix
