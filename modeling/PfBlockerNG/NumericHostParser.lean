import Mathlib.Data.List.Forall2
import Mathlib.Data.Option.Basic
import PfBlockerNG.NumericHosts

/-!
The reader of numeric hosts and the IPv4 parser of the standard: they read the same addresses, and
no integer of the reader overflows.
-/

namespace PfBlockerNG.NumericHostParser

open PfBlockerNG.Strings
open PfBlockerNG.PyText
open PfBlockerNG.DomainNames
open PfBlockerNG.IpText
open PfBlockerNG.WhatwgIpv4
open PfBlockerNG.AbpAnchor
open PfBlockerNG.NumericHosts

/-! ### The reader, every integer checked -/

/-- An integer, if it does not overflow. -/
def phpInt (n : Nat) : Option Nat := if n ≤ phpIntMax then some n else none

/-- `intval()`, digit by digit. -/
def intval (radix : Nat) (digits : Str) : Option Nat :=
  digits.foldlM (fun n c => (phpInt (radix * n)).bind fun m => phpInt (m + digitValue c)) 0

def checkedRadixNumber (radix maxDigits : Nat) (isDigit : Char → Bool) (digits : Str) :
    Option (Option Nat) :=
  if digits = [] then some (some 0)
  else if !digits.all isDigit then some none
  else if maxDigits < (digits.dropWhile (· == '0')).length then some (some phpIntMax)
  else (intval radix digits).map some

def checkedNumber (part : Str) : Option (Option Nat) :=
  if (part.take 2).map asciiLower = "0x".toList then
    checkedRadixNumber 16 8 isHexDigit (part.drop 2)
  else if 1 < part.length ∧ part.head? = some '0' then
    checkedRadixNumber 8 11 isOctalDigit (part.drop 1)
  else if part = [] then some none
  else checkedRadixNumber 10 10 isAsciiDigit part

def checkedNumbers : List Str → Option (Option (List Nat))
  | [] => some (some [])
  | part :: parts => (checkedNumber part).bind fun
      | none => some none
      | some n => (checkedNumbers parts).map (·.map (n :: ·))

/-- The loop that adds the numbers before the last. -/
def checkedSum : Nat → Nat → List Nat → Option (Option Nat)
  | _, ip, [] => some (some ip)
  | place, ip, n :: ns =>
      if 255 < n then some none
      else (phpInt (256 ^ place)).bind fun power => (phpInt (n * power)).bind fun term =>
        (phpInt (ip + term)).bind fun ip => checkedSum (place - 1) ip ns

def checkedAddress (numbers : List Nat) : Option (Option Str) :=
  let init := numbers.dropLast
  let last := numbers.getLastD 0
  (phpInt (256 ^ (4 - init.length))).bind fun bound =>
    if bound ≤ last then some none else (checkedSum 3 last init).map (·.map long2ip)

/-- `pfb_ipv4_numeric_host()`, nothing where an integer overflows. -/
def checkedNumericHost (host : Str) : Option (Option (Option Str)) :=
  if host.contains ':' then some none
  else
    let parts := splitDots host
    let trailingDot := 1 < parts.length && parts.getLast? == some []
    let parts := if trailingDot then parts.dropLast else parts
    if !isNumericLabel (parts.getLastD []) then some none
    else if 4 < parts.length || (trailingDot && parts.length < 4) then some (some none)
    else (checkedNumbers parts).bind fun
      | none => some (some none)
      | some numbers => (checkedAddress numbers).map some

theorem phpInt_eq {n : Nat} (h : n ≤ phpIntMax) : phpInt n = some n := if_pos h

theorem intval_eq {radix : Nat} {digits : Str} (hradix : 0 < radix)
    (h : digitsValue radix digits ≤ phpIntMax) :
    intval radix digits = some (digitsValue radix digits) := by
  induction digits using List.reverseRecOn with
  | nil => rfl
  | append_singleton digits c ih =>
      rw [digitsValue_concat] at h ⊢
      have hle : digitsValue radix digits ≤ radix * digitsValue radix digits :=
        Nat.le_mul_of_pos_left _ hradix
      have hdigits := ih (by omega)
      rw [intval] at hdigits ⊢
      rw [List.foldlM_append, hdigits]
      simp only [Option.bind_eq_bind, Option.bind_some, List.foldlM_cons, List.foldlM_nil]
      rw [phpInt_eq (by omega), Option.bind_some, phpInt_eq h]
      rfl

theorem digitsValue_le {radix maxDigits : Nat} {isDigit : Char → Bool} {digits : Str}
    (hradix : 0 < radix) (hdigit : ∀ c, isDigit c = true → digitValue c < radix)
    (hmax : radix ^ maxDigits ≤ phpIntMax) (hall : digits.all isDigit = true)
    (hshort : (digits.dropWhile (· == '0')).length ≤ maxDigits) :
    digitsValue radix digits ≤ phpIntMax := by
  rw [← digitsValue_dropZeros]
  have hlt : digitsValue radix (digits.dropWhile (· == '0')) <
      radix ^ (digits.dropWhile (· == '0')).length :=
    digitsValue_lt fun c hc =>
      hdigit c (List.all_eq_true.mp hall c ((List.dropWhile_sublist _).subset hc))
  calc digitsValue radix (digits.dropWhile (· == '0'))
      ≤ radix ^ (digits.dropWhile (· == '0')).length := Nat.le_of_lt hlt
    _ ≤ radix ^ maxDigits := Nat.pow_le_pow_right hradix hshort
    _ ≤ phpIntMax := hmax

theorem checkedRadixNumber_eq {radix maxDigits : Nat} {isDigit : Char → Bool} (digits : Str)
    (hradix : 0 < radix) (hdigit : ∀ c, isDigit c = true → digitValue c < radix)
    (hmax : radix ^ maxDigits ≤ phpIntMax) :
    checkedRadixNumber radix maxDigits isDigit digits =
      some (radixNumber radix maxDigits isDigit digits) := by
  unfold checkedRadixNumber radixNumber
  split
  · rfl
  · split
    · rfl
    · next hall =>
        split
        · rfl
        · next hshort =>
            rw [Bool.not_eq_true, Bool.not_eq_false'] at hall
            have hle := digitsValue_le hradix hdigit hmax hall (Nat.not_lt.mp hshort)
            rw [intval_eq hradix hle, Option.map_some]

theorem checkedNumber_eq (part : Str) : checkedNumber part = some (number part) := by
  unfold checkedNumber number
  split
  · exact checkedRadixNumber_eq _ (by decide) digitValue_lt_of_hex (by decide)
  · split
    · exact checkedRadixNumber_eq _ (by decide) digitValue_lt_of_octal (by decide)
    · split
      · rfl
      · exact checkedRadixNumber_eq _ (by decide) digitValue_lt_of_digit (by decide)

theorem checkedNumbers_eq (parts : List Str) :
    checkedNumbers parts = some (parts.mapM number) := by
  induction parts with
  | nil => rfl
  | cons part parts ih =>
      rw [checkedNumbers, checkedNumber_eq, Option.bind_some, List.mapM_cons]
      cases number part with
      | none => rfl
      | some n =>
          rw [ih]
          cases parts.mapM number <;> rfl

/-- Numbers of one octet do not overflow the sum. -/
theorem checkedSum_eq {place ip : Nat} {numbers : List Nat} (hplace : place ≤ 3)
    (hip : ip + numbers.length * 2 ^ 32 ≤ phpIntMax) :
    checkedSum place ip numbers =
      some (if numbers.any (255 < ·) then none else some (ip + leading place numbers)) := by
  induction numbers generalizing place ip with
  | nil => rfl
  | cons n ns ih =>
      rw [List.length_cons, Nat.succ_mul] at hip
      rw [checkedSum, List.any_cons]
      by_cases hn : 255 < n
      · rw [if_pos hn, decide_eq_true hn, Bool.true_or]
        rfl
      · have hpower : 256 ^ place ≤ 256 ^ 3 := Nat.pow_le_pow_right (by decide) hplace
        have hterm : n * 256 ^ place ≤ 255 * 256 ^ 3 := Nat.mul_le_mul (Nat.not_lt.mp hn) hpower
        have hmax : 255 * 256 ^ 3 < 2 ^ 32 := by decide
        have hlimit : 256 ^ 3 ≤ phpIntMax := by decide
        rw [if_neg hn, decide_eq_false hn, Bool.false_or, phpInt_eq (by omega), Option.bind_some,
          phpInt_eq (by omega), Option.bind_some, phpInt_eq (by omega), Option.bind_some,
          ih (by omega) (by omega), leading, Nat.add_assoc]

theorem checkedAddress_eq {numbers : List Nat} (hlength : numbers.length ≤ 4) :
    checkedAddress numbers = some (addressOf numbers) := by
  have hpower : 256 ^ (4 - numbers.dropLast.length) ≤ 256 ^ 4 :=
    Nat.pow_le_pow_right (by decide) (Nat.sub_le _ _)
  have hmax : 256 ^ 4 ≤ phpIntMax := by decide
  unfold checkedAddress addressOf
  dsimp only
  rw [phpInt_eq (Nat.le_trans hpower hmax), Option.bind_some]
  split
  · rfl
  · next hlast =>
      have hinit : numbers.dropLast.length ≤ 3 := by
        rw [List.length_dropLast]
        omega
      have hbound : numbers.getLastD 0 + numbers.dropLast.length * 2 ^ 32 ≤ phpIntMax := by
        have hsum : 256 ^ 4 + 3 * 2 ^ 32 ≤ phpIntMax := by decide
        omega
      rw [checkedSum_eq (Nat.le_refl 3) hbound, Option.map_some]
      split <;> rfl

theorem length_of_mapM {α β : Type} {f : α → Option β} {xs : List α} {ys : List β}
    (h : xs.mapM f = some ys) : ys.length = xs.length := by
  induction xs generalizing ys with
  | nil =>
      obtain rfl := Option.some.inj h
      rfl
  | cons x xs ih =>
      rw [List.mapM_cons] at h
      obtain ⟨y, -, hrest⟩ := Option.bind_eq_some_iff.mp h
      obtain ⟨ys', hys, hcons⟩ := Option.bind_eq_some_iff.mp hrest
      obtain rfl := Option.some.inj hcons
      rw [List.length_cons, List.length_cons, ih hys]

/-- No integer overflows. -/
theorem checkedNumericHost_eq (host : Str) :
    checkedNumericHost host = some (pfbIpv4NumericHost host) := by
  unfold checkedNumericHost pfbIpv4NumericHost
  split
  · rfl
  · dsimp only
    generalize (decide (1 < (splitDots host).length) && (splitDots host).getLast? == some [])
      = trailingDot
    generalize (if trailingDot = true then (splitDots host).dropLast else splitDots host) = parts
    split
    · rfl
    · split
      · rfl
      · next hparts =>
          rw [checkedNumbers_eq, Option.bind_some]
          cases hnumbers : parts.mapM number with
          | none => rfl
          | some numbers =>
              have hlength := length_of_mapM hnumbers
              simp only [Bool.or_eq_true, decide_eq_true_eq, not_or] at hparts
              change (checkedAddress numbers).map some = _
              rw [checkedAddress_eq (by omega)]
              rfl

/-! ### The reader against the parser -/

/-- What the reader holds for a number: the number itself, or the largest integer for one that has
more digits than an address needs. -/
def Holds (n held : Nat) : Prop := held = n ∨ (2 ^ 32 ≤ n ∧ held = phpIntMax)

theorem rel_radixNumber {radix maxDigits : Nat} {isDigit : Char → Bool} (digits : Str)
    (hdigits : ∀ c, isDigit c = true → isHexDigit c = true)
    (hmax : 2 ^ 32 ≤ radix ^ maxDigits) :
    Option.Rel Holds (readDigits radix isDigit digits)
      (radixNumber radix maxDigits isDigit digits) := by
  unfold readDigits radixNumber
  by_cases hnil : digits = []
  · subst hnil
    exact .some (Or.inl rfl)
  · rw [if_neg hnil]
    cases hall : digits.all isDigit with
    | false => exact .none
    | true =>
        rw [if_pos rfl, if_neg (by simp)]
        split
        · next hlong =>
            have hhex : ∀ c ∈ digits, isHexDigit c = true := fun c hc =>
              hdigits c (List.all_eq_true.mp hall c hc)
            exact .some (Or.inr ⟨digitsValue_long hhex hmax hlong, rfl⟩)
        · exact .some (Or.inl rfl)

theorem take_two_iff (part : Str) : (part.take 2).map asciiLower = "0x".toList ↔
    part.take 2 = "0x".toList ∨ part.take 2 = "0X".toList := by
  constructor
  · intro h
    match part, h with
    | [a], h => simp at h
    | a :: b :: rest, h =>
        obtain ⟨rfl, rfl | rfl⟩ := eq_zero_x h
        · exact Or.inl rfl
        · exact Or.inr rfl
  · rintro (h | h) <;> rw [h] <;> rfl

/-- Both read the same numbers, up to those too large. -/
theorem rel_number (part : Str) : Option.Rel Holds (parseNumber part) (number part) := by
  unfold parseNumber number
  simp only [← take_two_iff, Nat.succ_le_iff]
  by_cases hnil : part = []
  · subst hnil
    exact .none
  · rw [if_neg hnil]
    split
    · exact rel_radixNumber _ (fun _ h => h) (by decide)
    · split
      · exact rel_radixNumber _ isHexDigit_of_octal (by decide)
      · exact rel_radixNumber _ isHexDigit_of_digit (by decide)

theorem rel_numbers (parts : List Str) :
    Option.Rel (List.Forall₂ Holds) (parts.mapM parseNumber) (parts.mapM number) := by
  induction parts with
  | nil => exact .some .nil
  | cons part parts ih =>
      have hpart := rel_number part
      rw [List.mapM_cons, List.mapM_cons]
      generalize parseNumber part = n at hpart ⊢
      generalize number part = held at hpart ⊢
      generalize parts.mapM parseNumber = ns at ih ⊢
      generalize parts.mapM number = helds at ih ⊢
      cases hpart with
      | none => exact .none
      | some hn =>
          cases ih with
          | none => exact .none
          | some hns => exact .some (.cons hn hns)

/-- A bound of an address or less tells a number from what is held. -/
theorem Holds.le_iff {n held bound : Nat} (h : Holds n held) (hbound : bound ≤ 2 ^ 32) :
    bound ≤ held ↔ bound ≤ n := by
  rcases h with rfl | ⟨hlarge, rfl⟩
  · rfl
  · have hmax : 2 ^ 32 ≤ phpIntMax := by decide
    exact iff_of_true (Nat.le_trans hbound hmax) (Nat.le_trans hbound hlarge)

theorem Holds.eq {n held : Nat} (h : Holds n held) (hlt : held < 2 ^ 32) : held = n := by
  rcases h with hsame | ⟨-, rfl⟩
  · exact hsame
  · exact absurd hlt (by decide)

theorem holds_last {ns helds : List Nat} (h : List.Forall₂ Holds ns helds) :
    Holds (ns.getLastD 0) (helds.getLastD 0) := by
  have hall (n held : Nat) (hn : Holds n held) : Holds (ns.getLastD n) (helds.getLastD held) := by
    induction h generalizing n held with
    | nil => exact hn
    | cons hfirst _ ih =>
        rw [List.getLastD_cons, List.getLastD_cons]
        exact ih _ _ hfirst
  exact hall 0 0 (Or.inl rfl)

theorem any_of_holds {ns helds : List Nat} (h : List.Forall₂ Holds ns helds) :
    helds.any (255 < ·) = ns.any (255 < ·) := by
  induction h with
  | nil => rfl
  | @cons n held _ _ hn _ ih =>
      have hlarge : 255 < held ↔ 255 < n := hn.le_iff (by decide)
      rw [List.any_cons, List.any_cons, ih, decide_eq_decide.mpr hlarge]

theorem eq_of_holds {ns helds : List Nat} (h : List.Forall₂ Holds ns helds)
    (hlt : ∀ held ∈ helds, held < 2 ^ 32) : helds = ns := by
  induction h with
  | nil => rfl
  | cons hn _ ih =>
      rw [hn.eq (hlt _ List.mem_cons_self),
        ih fun held hheld => hlt held (List.mem_cons_of_mem _ hheld)]

/-- The address of the numbers held is that of the numbers. -/
theorem addressOf_eq {ns helds : List Nat} (h : List.Forall₂ Holds ns helds) (hne : ns ≠ []) :
    addressOf helds = (addressValue ns).map long2ip := by
  have hinit : List.Forall₂ Holds ns.dropLast helds.dropLast := by
    rw [List.dropLast_eq_take, List.dropLast_eq_take, h.length_eq]
    exact List.forall₂_take _ h
  have hlength := List.length_pos_iff.mpr hne
  have hexp : 5 - ns.length = 4 - helds.dropLast.length := by
    rw [List.length_dropLast, ← h.length_eq]
    omega
  have hpower : 256 ^ (4 - helds.dropLast.length) ≤ 2 ^ 32 :=
    Nat.pow_le_pow_right (by decide : 0 < 256) (Nat.sub_le 4 _)
  have hlast := (holds_last h).le_iff hpower
  unfold addressOf addressValue
  dsimp only
  rw [any_of_holds hinit, hexp]
  cases hany : ns.dropLast.any (255 < ·) with
  | true => rw [if_pos rfl, if_pos rfl, ite_self, Option.map_none]
  | false =>
      rw [if_neg Bool.false_ne_true, if_neg Bool.false_ne_true]
      by_cases hbig : 256 ^ (4 - helds.dropLast.length) ≤ ns.getLastD 0
      · rw [if_pos (hlast.mpr hbig), if_pos hbig, Option.map_none]
      · have hsmall := Nat.not_le.mp fun hle => hbig (hlast.mp hle)
        have hvalue := (holds_last h).eq (Nat.lt_of_lt_of_le hsmall hpower)
        have hbytes : ∀ held ∈ helds.dropLast, held < 2 ^ 32 := by
          rw [← any_of_holds hinit, List.any_eq_false] at hany
          intro held hheld
          have := hany held hheld
          rw [decide_eq_true_eq] at this
          omega
        rw [if_neg (Nat.not_le.mpr hsmall), if_neg hbig, hvalue, eq_of_holds hinit hbytes,
          Option.map_some]

/-! ### Hosts -/

/-- A final dot after a label. -/
def finalDot (host : Str) : Bool :=
  1 < (splitDots host).length && (splitDots host).getLast? == some []

theorem isSome_readDigits (radix : Nat) (isDigit : Char → Bool) (digits : Str) :
    (readDigits radix isDigit digits).isSome = digits.all isDigit := by
  unfold readDigits
  cases digits.all isDigit <;> rfl

/-- The checker of the standard asks what the reader asks of the last label. -/
theorem isNumericLabel_eq (last : Str) :
    isNumericLabel last = (isAsciiDigits last || (parseNumber last).isSome) := by
  unfold isNumericLabel parseNumber
  cases last with
  | nil => rfl
  | cons c digits =>
      rw [if_neg (List.cons_ne_nil _ _)]
      simp only [← take_two_iff]
      split
      · next hhex => rw [hhex, isSome_readDigits, beq_self_eq_true, Bool.true_and]
      · next hhex =>
          rw [beq_eq_false_iff_ne.mpr hhex, Bool.false_and, Bool.or_false]
          split
          · next hzero =>
              obtain rfl := Option.some.inj hzero.2
              rw [isSome_readDigits, List.drop_one, List.tail_cons, eq_comm,
                Bool.or_eq_left_iff_imp]
              intro hoctal
              have hdigits : digits.all isAsciiDigit = true :=
                List.all_eq_true.mpr fun d hd =>
                  isAsciiDigit_of_octal d (List.all_eq_true.mp hoctal d hd)
              rw [isAsciiDigits, List.all_cons, hdigits]
              rfl
          · rw [isSome_readDigits, isAsciiDigits, List.isEmpty_cons, Bool.not_false,
              Bool.true_and, Bool.or_self]

theorem endsInNumber_eq (host : Str) :
    endsInNumber host = isNumericLabel ((partsOf host).getLastD []) := by
  rw [isNumericLabel_eq, endsInNumber]
  split
  · next hempty =>
      rw [partsOf, hempty]
      rfl
  · rfl

/-- The address of a host of at most four labels. -/
theorem address_eq {parts : List Str} (hne : parts ≠ []) :
    (parts.mapM number).bind addressOf =
      ((parts.mapM parseNumber).bind addressValue).map long2ip := by
  have hrel := rel_numbers parts
  cases hns : parts.mapM parseNumber with
  | none =>
      rw [hns] at hrel
      generalize parts.mapM number = helds at hrel ⊢
      cases hrel
      rfl
  | some ns =>
      have hlength := length_of_mapM hns
      have hpos := List.length_pos_iff.mpr hne
      rw [hns] at hrel
      generalize parts.mapM number = helds at hrel ⊢
      cases hrel with
      | some hheld => exact addressOf_eq hheld (List.length_pos_iff.mp (by omega))

/-- A host is read as the standard reads it, but one with a final dot needs four labels; the host
tests agree, and no integer overflows. -/
theorem pfbIpv4NumericHost_agrees (host : Str) :
    pfbIpv4NumericHost host =
        (if ':' ∈ host ∨ endsInNumber host = false then none
        else some (if finalDot host = true ∧ (partsOf host).length < 4 then none
          else (parseIpv4 host).map long2ip)) ∧
      (pfbIpv4NumericHost host = none ↔ isNumericHost host = false) ∧
      checkedNumericHost host = some (pfbIpv4NumericHost host) := by
  refine ⟨?_, ?_, checkedNumericHost_eq host⟩
  · rw [endsInNumber_eq]
    have hread : pfbIpv4NumericHost host =
        if host.contains ':' then none
        else if !isNumericLabel ((partsOf host).getLastD []) then none
        else if 4 < (partsOf host).length || (finalDot host && (partsOf host).length < 4) then
          some none
        else some (((partsOf host).mapM number).bind addressOf) := rfl
    rw [hread, parseIpv4]
    by_cases hcolon : ':' ∈ host
    · rw [if_pos (List.contains_iff_mem.mpr hcolon), if_pos (Or.inl hcolon)]
    · rw [if_neg (mt List.contains_iff_mem.mp hcolon)]
      cases hlabel : isNumericLabel ((partsOf host).getLastD []) with
      | false => rw [if_pos (Or.inr rfl)]; rfl
      | true =>
          have hne : partsOf host ≠ [] := by
            intro hnil
            rw [hnil] at hlabel
            exact absurd hlabel (by decide)
          have hdomain : ¬ (':' ∈ host ∨ true = false) := by simp [hcolon]
          rw [if_neg hdomain, Bool.not_true, if_neg Bool.false_ne_true, address_eq hne]
          by_cases hlong : 4 < (partsOf host).length
          · have hshort : ¬ (finalDot host = true ∧ (partsOf host).length < 4) := fun h =>
              Nat.lt_asymm hlong h.2
            rw [if_pos (by simp [hlong]), if_neg hshort, if_pos hlong, Option.map_none]
          · rw [if_neg hlong]
            simp only [hlong, decide_false, Bool.false_or, Bool.and_eq_true, decide_eq_true_eq]
            split <;> rfl
  · rw [← isSome_pfbIpv4NumericHost, Option.isSome_eq_false_iff, Option.isNone_iff_eq_none]

end PfBlockerNG.NumericHostParser
