import Mathlib.Data.List.Forall2
import PfBlockerNG.PyText

/-!
The spellings of an IPv4 address: one to four numbers between dots, each decimal, octal or
hexadecimal, the last of which fills the octets that are left. A final dot is ignored.
-/

namespace PfBlockerNG.WhatwgIpv4

open PfBlockerNG.Strings
open PfBlockerNG.PyText

def digitValue (c : Char) : Nat :=
  if isAsciiDigit c then c.toNat - 48 else (asciiLower c).toNat - 87

def digitsValue (base : Nat) (digits : Str) : Nat :=
  digits.foldl (fun n c => base * n + digitValue c) 0

def isOctalDigit (c : Char) : Bool := '0' ≤ c && c ≤ '7'

/-- How a number is written. -/
inductive Reads : Str → Nat → Prop
  | hex {x : Char} {digits : Str} (hx : x = 'x' ∨ x = 'X') (h : digits.all isHexDigit = true) :
      Reads ('0' :: x :: digits) (digitsValue 16 digits)
  | octal {digits : Str} (hne : digits ≠ []) (h : digits.all isOctalDigit = true) :
      Reads ('0' :: digits) (digitsValue 8 digits)
  | decimal {c : Char} {digits : Str} (h : (c :: digits).all isAsciiDigit = true)
      (hzero : c = '0' → digits = []) : Reads (c :: digits) (digitsValue 10 (c :: digits))

/-- The numbers before the last, each in its octet; the first is worth `256 ^ place`. -/
def leading : Nat → List Nat → Nat
  | _, [] => 0
  | place, n :: ns => n * 256 ^ place + leading (place - 1) ns

/-- `parts` are the labels of `host`, with a final dot or without. -/
inductive Parts (host : Str) : List Str → Bool → Prop
  | bare {parts : List Str} (h : host.splitOn '.' = parts) : Parts host parts false
  | dotted {parts : List Str} (h : host.splitOn '.' = parts ++ [[]]) : Parts host parts true

/-- `host` spells the address `address`; `count` numbers, and a final dot or not. -/
structure Spells (host : Str) (count : Nat) (finalDot : Bool) (address : Nat) : Prop where
  numbers : ∃ parts init last, Parts host parts finalDot ∧
    List.Forall₂ Reads parts (init ++ [last]) ∧ count = init.length + 1 ∧ count ≤ 4 ∧
    (∀ n ∈ init, n ≤ 255) ∧ last < 256 ^ (4 - init.length) ∧ address = last + leading 3 init

/-! The readers of the standard. -/

/-- The parts of a host; an empty last one of several is dropped. -/
def partsOf (input : Str) : List Str :=
  let parts := input.splitOn '.'
  if 1 < parts.length && parts.getLast? == some [] then parts.dropLast else parts

def readDigits (radix : Nat) (isDigit : Char → Bool) (digits : Str) : Option Nat :=
  if digits.all isDigit then some (digitsValue radix digits) else none

/-- The IPv4 number parser. -/
def parseNumber (input : Str) : Option Nat :=
  if input = [] then none
  else if input.take 2 = "0x".toList ∨ input.take 2 = "0X".toList then
    readDigits 16 isHexDigit (input.drop 2)
  else if 2 ≤ input.length ∧ input.head? = some '0' then readDigits 8 isOctalDigit (input.drop 1)
  else readDigits 10 isAsciiDigit input

/-- The ends-in-a-number checker. -/
def endsInNumber (input : Str) : Bool :=
  if input.splitOn '.' = [[]] then false
  else
    let last := (partsOf input).getLastD []
    isAsciiDigits last || (parseNumber last).isSome

/-- The address of the numbers of a host. -/
def addressValue (numbers : List Nat) : Option Nat :=
  if numbers.dropLast.any (255 < ·) then none
  else if 256 ^ (5 - numbers.length) ≤ numbers.getLastD 0 then none
  else some (numbers.getLastD 0 + leading 3 numbers.dropLast)

/-- The IPv4 parser. -/
def parseIpv4 (input : Str) : Option Nat :=
  if 4 < (partsOf input).length then none
  else ((partsOf input).mapM parseNumber).bind addressValue

theorem Reads.ne_nil {part : Str} {n : Nat} (h : Reads part n) : part ≠ [] := by
  cases h <;> simp

theorem digitsValue_concat (base : Nat) (digits : Str) (c : Char) :
    digitsValue base (digits ++ [c]) = base * digitsValue base digits + digitValue c := by
  simp [digitsValue]

theorem digitsValue_append (base : Nat) (as bs : Str) :
    digitsValue base (as ++ bs) = base ^ bs.length * digitsValue base as + digitsValue base bs := by
  induction bs using List.reverseRecOn with
  | nil => simp [digitsValue]
  | append_singleton bs c ih =>
      rw [← List.append_assoc, digitsValue_concat, digitsValue_concat, ih, List.length_append,
        List.length_singleton, Nat.pow_succ, Nat.mul_add, Nat.add_assoc, ← Nat.mul_assoc,
        Nat.mul_comm base]

/-- A number whose first digit is not zero is at least the power of its length. -/
theorem pow_le_digitsValue {base : Nat} {c : Char} {digits : Str} (hc : 0 < digitValue c) :
    base ^ digits.length ≤ digitsValue base (c :: digits) := by
  have hsplit := digitsValue_append base [c] digits
  rw [List.singleton_append] at hsplit
  have hfirst : digitsValue base [c] = digitValue c := by simp [digitsValue]
  rw [hsplit, hfirst]
  exact Nat.le_trans (Nat.le_mul_of_pos_right _ hc) (Nat.le_add_right _ _)

theorem digitsValue_lt {base : Nat} {digits : Str} (h : ∀ c ∈ digits, digitValue c < base) :
    digitsValue base digits < base ^ digits.length := by
  induction digits using List.reverseRecOn with
  | nil => exact Nat.one_pos
  | append_singleton digits c ih =>
      have hc := h c (List.mem_append_right _ (List.mem_singleton_self c))
      have hdigits := ih fun d hd => h d (List.mem_append_left _ hd)
      rw [digitsValue_concat, List.length_append, List.length_singleton, Nat.pow_succ]
      calc base * digitsValue base digits + digitValue c
          < base * digitsValue base digits + base := by omega
        _ = base * (digitsValue base digits + 1) := by rw [Nat.mul_add, Nat.mul_one]
        _ ≤ base * base ^ digits.length := Nat.mul_le_mul_left _ hdigits
        _ = base ^ digits.length * base := Nat.mul_comm _ _

theorem isAsciiDigit_of_octal (c : Char) (h : isOctalDigit c = true) : isAsciiDigit c = true := by
  simp only [isOctalDigit, isAsciiDigit, Bool.and_eq_true, decide_eq_true_eq] at h ⊢
  exact ⟨h.1, Nat.le_trans h.2 (by decide)⟩

theorem digitValue_lt_of_digit (c : Char) (h : isAsciiDigit c = true) : digitValue c < 10 := by
  have hbounds := isAsciiDigit_bounds h
  rw [digitValue, if_pos h]
  omega

theorem digitValue_lt_of_octal (c : Char) (h : isOctalDigit c = true) : digitValue c < 8 := by
  rw [digitValue, if_pos (isAsciiDigit_of_octal c h)]
  rw [isOctalDigit, Bool.and_eq_true, decide_eq_true_eq, decide_eq_true_eq] at h
  have hle : c.toNat ≤ 55 := h.2
  omega

theorem digitValue_lt_of_hex (c : Char) (h : isHexDigit c = true) : digitValue c < 16 := by
  rw [isHexDigit, Bool.or_eq_true, Bool.or_eq_true, Bool.and_eq_true, Bool.and_eq_true] at h
  simp only [decide_eq_true_eq] at h
  rcases h with (hdigit | hlower) | hupper
  · exact Nat.lt_trans (digitValue_lt_of_digit c hdigit) (by decide)
  · have hbounds : 97 ≤ c.toNat ∧ c.toNat ≤ 102 := hlower
    have hsame : asciiLower c = c := asciiLower_eq_self (by omega)
    unfold digitValue
    split
    · next hdigit =>
        have := isAsciiDigit_bounds hdigit
        omega
    · rw [hsame]
      omega
  · have hbounds : 65 ≤ c.toNat ∧ c.toNat ≤ 70 := hupper
    have hlower : (asciiLower c).toNat = c.toNat + 32 := by
      rw [asciiLower, if_pos ⟨hupper.1, Nat.le_trans hupper.2 (by decide)⟩,
        toNat_ofNat (by omega)]
    unfold digitValue
    split
    · next hdigit =>
        have := isAsciiDigit_bounds hdigit
        omega
    · rw [hlower]
      omega

/-- Leading zeros do not count. -/
theorem digitsValue_dropZeros (base : Nat) (digits : Str) :
    digitsValue base (digits.dropWhile (· == '0')) = digitsValue base digits := by
  induction digits with
  | nil => rfl
  | cons c digits ih =>
      by_cases hc : c = '0'
      · subst hc
        rw [List.dropWhile_cons_of_pos (by rfl), ih]
        simp [digitsValue, digitValue, isAsciiDigit]
      · rw [List.dropWhile_cons_of_neg (by simpa using hc)]

end PfBlockerNG.WhatwgIpv4
