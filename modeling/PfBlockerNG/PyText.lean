import PfBlockerNG.Strings

/-!
The services of the Python library that depend on Unicode tables: case mapping, the
IDNA and punycode codecs, character categories and names.
-/

namespace PfBlockerNG.PyText

open PfBlockerNG.Strings

/-- What the code uses of `str`, the codecs and `unicodedata`. A codec that raises
gives `none`; `punycode` gives the name of the exception. -/
structure Unicode where
  lower : Str → Str
  idnaEncode : Str → Option Str
  idnaDecode : Str → Option Str
  punycode : Str → Except Str Str
  category : Char → Str
  charName : Char → Str

def isAsciiDigit (c : Char) : Bool := '0' ≤ c && c ≤ '9'

/-- `s.isascii() and s.isdigit()`. -/
def isAsciiDigits (s : Str) : Bool := !s.isEmpty && s.all isAsciiDigit

def isHexDigit (c : Char) : Bool :=
  isAsciiDigit c || ('a' ≤ c && c ≤ 'f') || ('A' ≤ c && c ≤ 'F')

def asciiLower (c : Char) : Char :=
  if 'A' ≤ c ∧ c ≤ 'Z' then Char.ofNat (c.toNat + 32) else c

/-- Octets of `s.encode("utf-8")`. -/
def utf8Length (s : Str) : Nat := (s.map Char.utf8Size).sum

/-- `s[0].upper() + s[1:].lower()` on ASCII. -/
def asciiCapitalize : Str → Str
  | [] => []
  | c :: s =>
      (if 'a' ≤ c ∧ c ≤ 'z' then Char.ofNat (c.toNat - 32) else c) :: s.map asciiLower

/-- The services restricted to ASCII text, where every codec leaves a label as it is. -/
def asciiOnly : Unicode where
  lower s := s.map asciiLower
  idnaEncode s := if s.all isAscii then some s else none
  idnaDecode s := if s.all isAscii then some s else none
  punycode s := .ok s
  category c := if isAsciiDigit c then "Nd".toList else "Ll".toList
  charName _ := "LATIN".toList

theorem toNat_ofNat {n : Nat} (h : n < 256) : (Char.ofNat n).toNat = n := by
  have hvalid : n.isValidChar := Or.inl (by omega)
  unfold Char.ofNat
  rw [dif_pos hvalid]
  rfl

theorem isAsciiDigit_bounds {c : Char} (h : isAsciiDigit c = true) :
    48 ≤ c.toNat ∧ c.toNat ≤ 57 := by
  simp only [isAsciiDigit, Bool.and_eq_true, decide_eq_true_eq] at h
  exact h

theorem asciiLower_eq_self {c : Char} (h : ¬ (65 ≤ c.toNat ∧ c.toNat ≤ 90)) : asciiLower c = c :=
  if_neg h

theorem asciiLower_cases (c : Char) :
    asciiLower c = c ∨ (65 ≤ c.toNat ∧ c.toNat ≤ 90) ∧ (asciiLower c).toNat = c.toNat + 32 := by
  by_cases hupper : 65 ≤ c.toNat ∧ c.toNat ≤ 90
  · refine Or.inr ⟨hupper, ?_⟩
    have hletter : 'A' ≤ c ∧ c ≤ 'Z' := hupper
    rw [asciiLower, if_pos hletter, toNat_ofNat (by omega)]
  · exact Or.inl (asciiLower_eq_self hupper)

theorem asciiLower_asciiLower (c : Char) : asciiLower (asciiLower c) = asciiLower c := by
  rcases asciiLower_cases c with hsame | ⟨hupper, hlower⟩
  · rw [hsame, hsame]
  · exact asciiLower_eq_self (by omega)

theorem lower_lower (k : Str) : (k.map asciiLower).map asciiLower = k.map asciiLower := by
  rw [List.map_map]
  exact List.map_congr_left fun c _ => asciiLower_asciiLower c

end PfBlockerNG.PyText
