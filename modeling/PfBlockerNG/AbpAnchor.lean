import PfBlockerNG.AbpRules
import PfBlockerNG.IpText
import PfBlockerNG.WhatwgIpv4

/-!
The IP side of an adblock line: the host of a `||` anchor cut, trimmed and read as an address of
any spelling, as the firewall pass reads it.
-/

namespace PfBlockerNG.AbpAnchor

open PfBlockerNG.Strings
open PfBlockerNG.PyText
open PfBlockerNG.IpText
open PfBlockerNG.WhatwgIpv4

/-- The platform's `is_ipaddrv6()` and `is_subnet()`. -/
structure IpTests where
  isIpaddrv6 : Str → Bool
  isSubnet : Str → Bool
  colon_of_ipaddrv6 : ∀ {t}, isIpaddrv6 t = true → ':' ∈ t

/-- `is_ipaddrv4()`. -/
def isIpaddrv4 (t : Str) : Bool := (readQuad t).isSome

/-- What stands before and after the last `c`. -/
def cutLast (c : Char) (s : Str) : Option (Str × Str) :=
  match partition c s.reverse with
  | (tail, true, head) => some (head.reverse, tail.reverse)
  | _ => none

/-- The result of an anchor: the empty string, FALSE or an address. -/
inductive AnchorIp where
  | none
  | invalid
  | address (text : Str)
deriving DecidableEq, Repr

/-! Numeric hosts. -/

/-- `long2ip()`. -/
def long2ip (n : Nat) : Str :=
  quadText [n / 256 ^ 3 % 256, n / 256 ^ 2 % 256, n / 256 % 256, n % 256]

def phpIntMax : Nat := 2 ^ 63 - 1

/-- The last label ends the host in a number. -/
def isNumericLabel (last : Str) : Bool :=
  isAsciiDigits last ||
    ((last.take 2).map asciiLower == "0x".toList && (last.drop 2).all isHexDigit)

/-- The digits of a number in their radix; no digits are zero. -/
def radixNumber (radix maxDigits : Nat) (isDigit : Char → Bool) (digits : Str) : Option Nat :=
  if digits = [] then some 0
  else if !digits.all isDigit then none
  else if maxDigits < (digits.dropWhile (· == '0')).length then some phpIntMax
  else some (digitsValue radix digits)

/-- `$number`. -/
def number (part : Str) : Option Nat :=
  if (part.take 2).map asciiLower = "0x".toList then radixNumber 16 8 isHexDigit (part.drop 2)
  else if 1 < part.length ∧ part.head? = some '0' then
    radixNumber 8 11 isOctalDigit (part.drop 1)
  else if part = [] then none
  else radixNumber 10 10 isAsciiDigit part

/-- The address of the numbers of a host. -/
def addressOf (numbers : List Nat) : Option Str :=
  let init := numbers.dropLast
  let last := numbers.getLastD 0
  if 256 ^ (4 - init.length) ≤ last then none
  else if init.any (255 < ·) then none
  else some (long2ip (last + leading 3 init))

/-- `pfb_ipv4_numeric_host()`: NULL, a NULL `ip` or its text. -/
def pfbIpv4NumericHost (host : Str) : Option (Option Str) :=
  if host.contains ':' then none
  else
    let parts := splitDots host
    let trailingDot := 1 < parts.length && parts.getLast? == some []
    let parts := if trailingDot then parts.dropLast else parts
    if !isNumericLabel (parts.getLastD []) then none
    else if 4 < parts.length || (trailingDot && parts.length < 4) then some none
    else some ((parts.mapM number).bind addressOf)

/-! Padded quads. -/

/-- An octet without leading zeros. -/
def unpadOctet (octet : Str) : Str :=
  let digits := octet.dropWhile (· == '0')
  if digits = [] then ['0'] else digits

/-- `pfb_sanitize_ipaddr()` of an address without a mask, for a custom list. -/
def pfbSanitizeIpaddr (address : Str) : Option Str :=
  let octets := (splitDots address).map unpadOctet
  if octets.head? = some ['0'] then none else some (joinDots octets)

/-- `pfb_ipv4_unpad()`. -/
def pfbIpv4Unpad (host : Str) : Option Str :=
  let parts := splitDots host
  if parts.length = 4 ∧ parts.all isAsciiDigits = true then
    (pfbSanitizeIpaddr host).filter isIpaddrv4
  else none

/-! The anchor. -/

section Anchor

variable (T : IpTests)

/-- `pfb_strip_trailing_port()` of a trimmed text. -/
def pfbStripTrailingPort (line : Str) : Str :=
  if !T.isIpaddrv6 line && line.contains ':' then
    match cutLast ':' line with
    | some (host, port) => if isAsciiDigits port && decide (port.length ≤ 5) then host else line
    | none => line
  else line

/-- `pfb_dnsbl_cidr()`; NULL is `none`, FALSE is `invalid`. -/
def pfbDnsblCidr (line : Str) : Option AnchorIp :=
  match cutLast '/' line with
  | none => none
  | some (net, mask) =>
      if net.isEmpty || net.contains '\n' || !isAsciiDigits mask then none
      else
        let net := (pfbIpv4Unpad net).getD net
        let isIpaddr := isIpaddrv4 net || T.isIpaddrv6 net
        if isIpaddr && T.isSubnet (net ++ '/' :: mask) then
          some (.address (net ++ '/' :: octetText (decimal mask)))
        else if isIpaddr || (!net.contains '/' && (pfbIpv4NumericHost net).isSome) then
          some .invalid
        else none

/-- `pfb_dnsbl_unbracket_ip6()`. -/
def pfbDnsblUnbracketIp6 (line : Str) : Str :=
  if startsWith "[".toList line && endsWith "]".toList line then
    let inner := (line.drop 1).dropLast
    if T.isIpaddrv6 inner then inner else line
  else line

/-- `pfb_dnsbl_anchor_ip()`. -/
def pfbDnsblAnchorIp (host : Str) : AnchorIp :=
  let host := pfbStripTrailingPort T host
  match pfbDnsblCidr T host with
  | some cidr => cidr
  | none =>
      let host := pfbDnsblUnbracketIp6 T host
      let host := (pfbIpv4Unpad host).getD host
      if isIpaddrv4 host || T.isIpaddrv6 host then .address host
      else if host.contains '/' then .none
      else
        match pfbIpv4NumericHost host with
        | some (some ip) => .address ip
        | some none => .invalid
        | none => .none

/-- The text of an anchor before its options and its separator. -/
def anchorHost (rest : Str) : Str := (partition '^' (partition '$' rest).1).1

/-- `\s`. -/
def isPcreSpace (c : Char) : Bool := (9 ≤ c.toNat && c.toNat ≤ 13) || c == ' '

/-- The target of a hosts line that is itself an address. -/
def hostsTarget (s : Str) : AnchorIp :=
  let first := s.takeWhile fun c => !isPcreSpace c
  let second := ((s.drop first.length).dropWhile isPcreSpace).takeWhile fun c => !isPcreSpace c
  let target := trim second
  if s.any isPcreSpace && (isIpaddrv4 first || T.isIpaddrv6 first) &&
      (isIpaddrv4 target || T.isIpaddrv6 target) then .address target
  else .none

/-- `pfb_dnsbl_abp_extract_ip()`. -/
def pfbDnsblAbpExtractIp (line : Str) : AnchorIp :=
  let s := trim line
  if s = [] then .none
  else if startsWith "||".toList s then pfbDnsblAnchorIp T (trim (anchorHost (s.drop 2)))
  else hostsTarget T s

end Anchor

end PfBlockerNG.AbpAnchor
