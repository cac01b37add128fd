import PfBlockerNG.OrderedDict
import PfBlockerNG.PyText

/-!
The domain-shape gate of the build and the tally of what it rejects.
-/

namespace PfBlockerNG.DomainNames

open PfBlockerNG.Strings
open PfBlockerNG.PyText
open PfBlockerNG.OrderedDict

/-- Why an entry was rejected or weakened. -/
inductive Bucket where
  | shape
  | wireCap
  | suffixDrop
  | suffixDemote
  deriving DecidableEq, Repr

/-- `RejectTally`: counts by feed and group. -/
abbrev RejectTally := Dict (Str × Str) (Dict Bucket Nat)

/-- `_tally_reject`. -/
def tallyReject (tally : RejectTally) (feed group : Str) (bucket : Bucket) : RejectTally :=
  let counts := (tally.get (feed, group)).getD
    ((Dict.empty.set Bucket.shape 0).set Bucket.wireCap 0)
  tally.set (feed, group) (counts.set bucket ((counts.get bucket).getD 0 + 1))

/-- `int(p)` of ASCII digits. -/
def intOfDigits (p : Str) : Nat := p.foldl (fun n c => n * 10 + (c.toNat - 48)) 0

def isOctet (p : Str) : Bool :=
  isAsciiDigits p && p.length ≤ 3 && intOfDigits p ≤ 255 && !(1 < p.length && p.head? == some '0')

/-- `_dnsbl_is_ipv4`. -/
def isIpv4 (token : Str) : Bool :=
  let parts := splitDots token
  parts.length == 4 && parts.all isOctet

/-- The last label, one trailing empty label dropped. -/
def lastLabel (token : Str) : Str :=
  let parts := splitDots token
  if 1 < parts.length && parts.getLast? == some [] then parts.dropLast.getLastD []
  else parts.getLastD []

/-- `_dnsbl_is_numeric_host`. -/
def isNumericHost (token : Str) : Bool :=
  if token.contains ':' then false
  else
    let last := lastLabel token
    isAsciiDigits last ||
      ((last.take 2).map asciiLower == "0x".toList && (last.drop 2).all isHexDigit)

/-- `_dnsbl_within_wire_caps`. -/
def withinWireCaps (host : Str) : Bool :=
  host.length ≤ 253 && (splitDots host).all fun label => label.length ≤ 63

def isLabelChar (c : Char) : Bool :=
  ('a' ≤ c && c ≤ 'z') || isAsciiDigit c || c == '-' || c == '_'

def isLabel (label : Str) : Bool :=
  !label.isEmpty && label.head? != some '-' && label.getLast? != some '-' && label.all isLabelChar

/-- `_normalise_verdict`: the domain, or the bucket of the reject. -/
def normaliseVerdict (u : Unicode) (value : Str) (singleLabelOk : Bool) : Except Bucket Str :=
  let host := u.lower (stripDots (strip value))
  if (!host.contains '.' && !singleLabelOk) || (isNumericHost host && !isIpv4 host) then
    .error .shape
  else if !withinWireCaps host then .error .wireCap
  else if (splitDots host).all isLabel then .ok host
  else .error .shape

/-- `normalise`. -/
def normalise (u : Unicode) (value : Str) : Option Str := (normaliseVerdict u value false).toOption

/-- `_dnsbl_top1m_names`. -/
def top1mNames (u : Unicode) (lines : List Str) : List Str := lines.filterMap (normalise u)

end PfBlockerNG.DomainNames
