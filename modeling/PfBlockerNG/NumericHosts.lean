import Mathlib.Tactic.Ring
import PfBlockerNG.AbpAnchor

/-!
Numeric hosts: the firewall pass and the parser of adblock lines call the same hosts numeric, and a
spelling of an address is read as that address.
-/

namespace PfBlockerNG.NumericHosts

open PfBlockerNG.Strings
open PfBlockerNG.PyText
open PfBlockerNG.DomainNames
open PfBlockerNG.IpText
open PfBlockerNG.WhatwgIpv4
open PfBlockerNG.AbpAnchor

/-! The last label of a host. -/

theorem exists_last_dot (s : Str) : '.' ∉ s ∨ ∃ a b, s = a ++ '.' :: b ∧ '.' ∉ b := by
  induction s with
  | nil => exact Or.inl List.not_mem_nil
  | cons c s ih =>
      rcases ih with hnot | ⟨a, b, rfl, hb⟩
      · by_cases hc : c = '.'
        · exact Or.inr ⟨[], s, by rw [hc]; rfl, hnot⟩
        · exact Or.inl (by simp [Ne.symm hc, hnot])
      · exact Or.inr ⟨c :: a, b, rfl, hb⟩

theorem splitDots_of_not_mem {s : Str} (h : '.' ∉ s) : splitDots s = [s] := by
  have hjoin : (['.'].intercalate [s]).splitOn '.' = [s] :=
    List.splitOn_intercalate '.' (by simpa using h) (by simp)
  simpa [splitDots, List.intercalate_singleton] using hjoin

theorem splitDots_append {a b : Str} (h : '.' ∉ b) :
    splitDots (a ++ '.' :: b) = splitDots a ++ [b] := by
  have hb := splitDots_of_not_mem h
  unfold splitDots at hb ⊢
  rw [List.splitOn_append_cons_self, hb]

/-- A label at the end of a host, after nothing or a dot, before nothing or one dot. -/
structure EndsIn (s label : Str) (before dot : Str) : Prop where
  eq : s = before ++ label ++ dot
  dot : dot = [] ∨ dot = ['.']
  before : before = [] ∨ ∃ a, before = a ++ ['.']
  ne_nil : label ≠ []
  label : '.' ∉ label

theorem lastLabel_of_endsIn {s label before dot : Str} (h : EndsIn s label before dot) :
    lastLabel s = label := by
  have hparts : ∃ front, splitDots (before ++ label) = front ++ [label] := by
    rcases h.before with hnil | ⟨a, ha⟩
    · exact ⟨[], by rw [hnil, List.nil_append, splitDots_of_not_mem h.label]; rfl⟩
    · refine ⟨splitDots a, ?_⟩
      rw [ha, List.append_assoc, List.singleton_append, splitDots_append h.label]
  obtain ⟨front, hfront⟩ := hparts
  unfold lastLabel
  rcases h.dot with hdot | hdot
  · rw [h.eq, hdot, List.append_nil, hfront]
    simp [h.ne_nil]
  · have hsplit : splitDots s = front ++ [label] ++ [[]] := by
      rw [h.eq, hdot, splitDots_append List.not_mem_nil, hfront]
    rw [hsplit]
    simp

theorem endsIn_of_lastLabel {s : Str} (h : lastLabel s ≠ []) :
    ∃ before dot, EndsIn s (lastLabel s) before dot := by
  have hbare : ∀ {s}, '.' ∉ s → lastLabel s = s := by
    intro s hs
    simp [lastLabel, splitDots_of_not_mem hs]
  rcases exists_last_dot s with hnot | ⟨a, b, hs, hb⟩
  · have hlast := hbare hnot
    rw [hlast] at h ⊢
    exact ⟨[], [], by simp, Or.inl rfl, Or.inl rfl, h, hnot⟩
  · by_cases hnil : b = []
    · subst hnil
      rcases exists_last_dot a with hnot | ⟨a', b', ha, hb'⟩
      · have hlast : lastLabel s = a := by
          simp [lastLabel, hs, splitDots_append List.not_mem_nil, splitDots_of_not_mem hnot]
        rw [hlast] at h ⊢
        exact ⟨[], ['.'], by simp [hs], Or.inr rfl, Or.inl rfl, h, hnot⟩
      · have hsplit : splitDots s = splitDots a' ++ [b'] ++ [[]] := by
          rw [hs, splitDots_append List.not_mem_nil, ha, splitDots_append hb']
        have hlast : lastLabel s = b' := by simp [lastLabel, hsplit]
        rw [hlast] at h ⊢
        exact ⟨a' ++ ['.'], ['.'], by simp [hs, ha], Or.inr rfl, Or.inr ⟨a', rfl⟩, h, hb'⟩
    · have hlast : lastLabel s = b := by
        simp [lastLabel, hs, splitDots_append hb, hnil]
      rw [hlast]
      exact ⟨a ++ ['.'], [], by simp [hs], Or.inl rfl, Or.inr ⟨a, rfl⟩, hnil, hb⟩

theorem isNumericHost_eq (s : Str) :
    isNumericHost s = (!s.contains ':' && isNumericLabel (lastLabel s)) := by
  unfold isNumericHost isNumericLabel
  cases s.contains ':' <;> simp

theorem isNumericLabel_ne_nil {l : Str} (h : isNumericLabel l = true) : l ≠ [] := by
  rintro rfl
  revert h
  decide

theorem isNumericHost_of_endsIn {s label before dot : Str} (h : EndsIn s label before dot)
    (hcolon : ':' ∉ s) (hlabel : isNumericLabel label = true) : isNumericHost s = true := by
  rw [isNumericHost_eq, lastLabel_of_endsIn h, hlabel]
  simp [hcolon]

theorem isHexDigit_bounds {c : Char} (h : isHexDigit c = true) :
    (48 ≤ c.toNat ∧ c.toNat ≤ 57) ∨ (65 ≤ c.toNat ∧ c.toNat ≤ 90) ∨
      (97 ≤ c.toNat ∧ c.toNat ≤ 122) := by
  simp only [isHexDigit, Bool.or_eq_true, Bool.and_eq_true, decide_eq_true_eq] at h
  rcases h with (hdigit | hlower) | hupper
  · exact Or.inl (isAsciiDigit_bounds hdigit)
  · exact Or.inr (Or.inr ⟨hlower.1, Nat.le_trans hlower.2 (by decide)⟩)
  · exact Or.inr (Or.inl ⟨hupper.1, Nat.le_trans hupper.2 (by decide)⟩)

/-- The two characters that `strncasecmp()` finds to be `0x`. -/
theorem eq_zero_x {a b : Char} (h : [a, b].map asciiLower = "0x".toList) :
    a = '0' ∧ (b = 'x' ∨ b = 'X') := by
  obtain ⟨ha, hb⟩ : asciiLower a = '0' ∧ asciiLower b = 'x' := by simpa using h
  constructor
  · rcases asciiLower_cases a with hsame | ⟨hupper, hlower⟩
    · exact hsame.symm.trans ha
    · rw [ha] at hlower
      have : ('0').toNat = 48 := rfl
      omega
  · rcases asciiLower_cases b with hsame | ⟨-, hlower⟩
    · exact Or.inl (hsame.symm.trans hb)
    · rw [hb] at hlower
      refine Or.inr (Char.toNat_inj.mp ?_)
      have hx : ('x').toNat = 120 := rfl
      have hX : ('X').toNat = 88 := rfl
      omega

/-- The characters of a numeric label are ASCII letters and digits. -/
theorem isNumericLabel_chars {l : Str} (h : isNumericLabel l = true) :
    ∀ c ∈ l, (48 ≤ c.toNat ∧ c.toNat ≤ 57) ∨ (65 ≤ c.toNat ∧ c.toNat ≤ 90) ∨
      (97 ≤ c.toNat ∧ c.toNat ≤ 122) := by
  intro c hc
  unfold isNumericLabel isAsciiDigits at h
  rw [Bool.or_eq_true] at h
  rcases h with hdigits | hhex
  · rw [Bool.and_eq_true, List.all_eq_true] at hdigits
    exact Or.inl (isAsciiDigit_bounds (hdigits.2 c hc))
  · rw [Bool.and_eq_true, beq_iff_eq, List.all_eq_true] at hhex
    match l, hhex, hc with
    | [], _, hc => cases hc
    | [_], hhex, _ => simp at hhex
    | a :: b :: digits, hhex, hc =>
        obtain ⟨rfl, hb⟩ := eq_zero_x hhex.1
        simp only [List.mem_cons] at hc
        rcases hc with rfl | rfl | hc
        · decide
        · rcases hb with rfl | rfl <;> decide
        · exact isHexDigit_bounds (hhex.2 c hc)

/-- The two twins agree on which hosts are numeric. -/
theorem isSome_pfbIpv4NumericHost (host : Str) :
    (pfbIpv4NumericHost host).isSome = isNumericHost host := by
  rw [isNumericHost_eq]
  unfold pfbIpv4NumericHost lastLabel
  cases hcolon : host.contains ':' with
  | true => simp
  | false =>
      simp only [Bool.false_eq_true, if_false, Bool.not_false, Bool.true_and]
      rw [← apply_ite (fun labels : List Str => labels.getLastD [])]
      generalize splitDots host = parts
      generalize (decide (1 < parts.length) && parts.getLast? == some []) = trailing
      generalize (if trailing = true then parts.dropLast else parts) = labels
      cases isNumericLabel (labels.getLastD []) with
      | false => rfl
      | true =>
          rw [if_neg (by simp)]
          split <;> rfl

/-! Spellings. -/

theorem digitValue_pos {c : Char} (h : isHexDigit c = true) (hc : c ≠ '0') :
    0 < digitValue c := by
  unfold digitValue
  split
  case isTrue hdigit =>
    have hbounds := isAsciiDigit_bounds hdigit
    have hne : c.toNat ≠ 48 := fun heq => hc (Char.toNat_inj.mp heq)
    omega
  case isFalse hdigit =>
    have hbounds := isHexDigit_bounds h
    have hletter : ¬ (48 ≤ c.toNat ∧ c.toNat ≤ 57) := by
      intro hle
      simp only [isAsciiDigit, Bool.and_eq_true, decide_eq_true_eq] at hdigit
      exact hdigit hle
    rcases asciiLower_cases c with hsame | ⟨hupper, hlower⟩
    · rw [hsame]
      simp only [isHexDigit, isAsciiDigit, Bool.or_eq_true, Bool.and_eq_true,
        decide_eq_true_eq] at h
      rcases h with (h | h) | h
      · exact absurd h hletter
      · have : 97 ≤ c.toNat := h.1
        omega
      · have hle : 65 ≤ c.toNat ∧ c.toNat ≤ 70 := h
        have hfold : (asciiLower c).toNat = c.toNat + 32 := by
          have hupper : 'A' ≤ c ∧ c ≤ 'Z' := ⟨h.1, Nat.le_trans h.2 (by decide)⟩
          rw [asciiLower, if_pos hupper, toNat_ofNat (by omega)]
        rw [hsame] at hfold
        omega
    · omega

/-- A number with more significant digits than the cutoff does not fit in 32 bits. -/
theorem digitsValue_long {radix maxDigits : Nat} {digits : Str}
    (hall : ∀ c ∈ digits, isHexDigit c = true) (hmax : 2 ^ 32 ≤ radix ^ maxDigits)
    (hlong : maxDigits < (digits.dropWhile (· == '0')).length) :
    2 ^ 32 ≤ digitsValue radix digits := by
  cases hdrop : digits.dropWhile (· == '0') with
  | nil => simp [hdrop] at hlong
  | cons c rest =>
      rw [hdrop, List.length_cons] at hlong
      have hc : c ≠ '0' := by
        have hhead := List.head_dropWhile_not (· == '0') (l := digits) (by simp [hdrop])
        simpa [hdrop] using hhead
      have hmem : c ∈ digits :=
        (List.dropWhile_sublist (· == '0')).subset (by rw [hdrop]; exact List.mem_cons_self)
      have hpos := digitValue_pos (hall c hmem) hc
      have hbase : 0 < radix := by
        by_contra hzero
        have : radix = 0 := by omega
        subst this
        cases maxDigits with
        | zero => simp at hmax
        | succ n => simp at hmax
      rw [← digitsValue_dropZeros, hdrop]
      calc
        2 ^ 32 ≤ radix ^ maxDigits := hmax
        _ ≤ radix ^ rest.length := Nat.pow_le_pow_right hbase (by omega)
        _ ≤ digitsValue radix (c :: rest) := pow_le_digitsValue hpos

/-- A number that fits in 32 bits is read as it is. -/
theorem radixNumber_eq {radix maxDigits : Nat} {isDigit : Char → Bool} {digits : Str}
    (hdigits : ∀ c, isDigit c = true → isHexDigit c = true) (h : digits.all isDigit = true)
    (hmax : 2 ^ 32 ≤ radix ^ maxDigits) (hlt : digitsValue radix digits < 2 ^ 32) :
    radixNumber radix maxDigits isDigit digits = some (digitsValue radix digits) := by
  unfold radixNumber
  by_cases hnil : digits = []
  · simp [hnil, digitsValue]
  · have hhex : ∀ c ∈ digits, isHexDigit c = true := fun c hc =>
      hdigits c (List.all_eq_true.mp h c hc)
    have hshort : ¬ maxDigits < (digits.dropWhile (· == '0')).length := fun hlong =>
      absurd (digitsValue_long hhex hmax hlong) (Nat.not_le.mpr hlt)
    rw [if_neg hnil, h, Bool.not_true, if_neg Bool.false_ne_true, if_neg hshort]

theorem isHexDigit_of_octal (c : Char) (h : isOctalDigit c = true) : isHexDigit c = true := by
  simp only [isOctalDigit, isHexDigit, isAsciiDigit, Bool.or_eq_true, Bool.and_eq_true,
    decide_eq_true_eq] at h ⊢
  exact Or.inl (Or.inl ⟨h.1, Nat.le_trans h.2 (by decide)⟩)

theorem isHexDigit_of_digit (c : Char) (h : isAsciiDigit c = true) : isHexDigit c = true := by
  simp [isHexDigit, h]

theorem not_zero_x_of_digit {a b : Char} {digits : Str} (h : isAsciiDigit b = true) :
    ((a :: b :: digits).take 2).map asciiLower ≠ "0x".toList := by
  intro heq
  rcases (eq_zero_x heq).2 with rfl | rfl <;> exact absurd h (by decide)

theorem number_of_reads {part : Str} {n : Nat} (h : Reads part n) (hlt : n < 2 ^ 32) :
    number part = some n := by
  unfold number
  cases h with
  | @hex x digits hx hdigits =>
      have hstart : (('0' :: x :: digits).take 2).map asciiLower = "0x".toList := by
        rcases hx with rfl | rfl <;> rfl
      rw [if_pos hstart]
      exact radixNumber_eq (fun _ h => h) hdigits (by decide) hlt
  | @octal digits hne hdigits =>
      obtain ⟨d, ds, rfl⟩ := List.exists_cons_of_ne_nil hne
      have hd := isAsciiDigit_of_octal d (List.all_eq_true.mp hdigits d List.mem_cons_self)
      rw [if_neg (not_zero_x_of_digit hd), if_pos (by simp)]
      exact radixNumber_eq isHexDigit_of_octal hdigits (by decide) hlt
  | @decimal c digits hdigits hzero =>
      have hstart : ((c :: digits).take 2).map asciiLower ≠ "0x".toList := by
        cases digits with
        | nil => simp
        | cons d ds =>
            have hall := List.all_eq_true.mp hdigits d (by simp)
            exact not_zero_x_of_digit hall
      have hoctal : ¬ (1 < (c :: digits).length ∧ (c :: digits).head? = some '0') := by
        rintro ⟨hlong, hhead⟩
        have hc : c = '0' := by simpa using hhead
        simp [hzero hc] at hlong
      rw [if_neg hstart, if_neg hoctal, if_neg (by simp)]
      exact radixNumber_eq isHexDigit_of_digit hdigits (by decide) hlt

theorem isNumericLabel_of_reads {part : Str} {n : Nat} (h : Reads part n) :
    isNumericLabel part = true := by
  have hzero : isAsciiDigit '0' = true := by decide
  unfold isNumericLabel
  rw [Bool.or_eq_true]
  cases h with
  | @hex x digits hx hdigits =>
      refine Or.inr ?_
      have hstart : (('0' :: x :: digits).take 2).map asciiLower = "0x".toList := by
        rcases hx with rfl | rfl <;> rfl
      rw [hstart]
      exact hdigits
  | @octal digits hne hdigits =>
      refine Or.inl ?_
      have hall : digits.all isAsciiDigit = true :=
        List.all_eq_true.mpr fun c hc => isAsciiDigit_of_octal c (List.all_eq_true.mp hdigits c hc)
      rw [isAsciiDigits, List.all_cons, hzero, hall]
      rfl
  | @decimal c digits hdigits hzero => exact Or.inl (by simpa [isAsciiDigits] using hdigits)

/-- The characters of a spelling are letters, digits and dots. -/
theorem chars_of_reads {part : Str} {n : Nat} (h : Reads part n) :
    ∀ c ∈ part, (48 ≤ c.toNat ∧ c.toNat ≤ 57) ∨ (65 ≤ c.toNat ∧ c.toNat ≤ 90) ∨
      (97 ≤ c.toNat ∧ c.toNat ≤ 122) := isNumericLabel_chars (isNumericLabel_of_reads h)

theorem reads_of_mem {parts : List Str} {numbers : List Nat}
    (h : List.Forall₂ Reads parts numbers) {part : Str} (hmem : part ∈ parts) :
    ∃ n, Reads part n := by
  obtain ⟨i, hi, rfl⟩ := List.getElem_of_mem hmem
  exact ⟨_, h.get hi (h.length_eq ▸ hi)⟩

section Spelling

variable {host : Str} {count address : Nat} {finalDot : Bool}

theorem chars_of_spells (h : Spells host count finalDot address) :
    ∀ c ∈ host, c = '.' ∨ (48 ≤ c.toNat ∧ c.toNat ≤ 57) ∨ (65 ≤ c.toNat ∧ c.toNat ≤ 90) ∨
      (97 ≤ c.toNat ∧ c.toNat ≤ 122) := by
  obtain ⟨parts, init, last, hparts, hreads, -⟩ := h.numbers
  have hpart : ∀ part ∈ parts, ∀ c ∈ part, (48 ≤ c.toNat ∧ c.toNat ≤ 57) ∨
      (65 ≤ c.toNat ∧ c.toNat ≤ 90) ∨ (97 ≤ c.toNat ∧ c.toNat ≤ 122) := by
    intro part hmem
    obtain ⟨n, hread⟩ := reads_of_mem hreads hmem
    exact chars_of_reads hread
  intro c hc
  have hjoin : host = ['.'].intercalate (host.splitOn '.') := (List.intercalate_splitOn '.').symm
  rw [hjoin] at hc
  rcases mem_intercalate hc with hdot | ⟨part, hmem, hcp⟩
  · exact Or.inl hdot
  · refine Or.inr ?_
    cases hparts with
    | bare hsplit => exact hpart part (hsplit ▸ hmem) c hcp
    | dotted hsplit =>
        rw [hsplit] at hmem
        rcases List.mem_append.mp hmem with hmem | hmem
        · exact hpart part hmem c hcp
        · rw [List.mem_singleton.mp hmem] at hcp
          cases hcp

theorem not_mem_of_spells (h : Spells host count finalDot address) {c : Char}
    (hc : c ∈ [':', '/', '[', '\n']) : c ∉ host := by
  intro hmem
  have hchar := chars_of_spells h c hmem
  simp only [List.mem_cons, List.not_mem_nil, or_false] at hc
  rcases hc with rfl | rfl | rfl | rfl <;> revert hchar <;> decide

theorem mapM_number {parts : List Str} {numbers : List Nat}
    (h : List.Forall₂ Reads parts numbers) (hlt : ∀ n ∈ numbers, n < 2 ^ 32) :
    parts.mapM number = some numbers := by
  induction h with
  | nil => rfl
  | @cons part n parts numbers hread _ ih =>
      rw [List.mapM_cons, number_of_reads hread (hlt n List.mem_cons_self),
        ih fun m hm => hlt m (List.mem_cons_of_mem _ hm)]
      rfl

/-- A spelling is read as its address, but a prefix with a final dot is rejected. -/
theorem pfbIpv4NumericHost_of_spells (h : Spells host count finalDot address) :
    pfbIpv4NumericHost host =
      some (if finalDot ∧ count < 4 then none else some (long2ip address)) := by
  have hcolon : host.contains ':' = false := by
    simpa using not_mem_of_spells h (c := ':') (by simp)
  obtain ⟨parts, init, last, hparts, hreads, rfl, hcount, hinit, hlast, rfl⟩ := h.numbers
  have hlength : parts.length = init.length + 1 := by
    rw [hreads.length_eq, List.length_append, List.length_singleton]
  have hne : parts ≠ [] := List.ne_nil_of_length_pos (by omega)
  obtain ⟨n, hread⟩ := reads_of_mem hreads (List.getLast_mem hne)
  have hnumeric : isNumericLabel (parts.getLastD []) = true := by
    rw [List.getLastD_eq_getLast?, List.getLast?_eq_some_getLast hne]
    exact isNumericLabel_of_reads hread
  have hlabel : parts.getLast? ≠ some [] := by
    rw [List.getLast?_eq_some_getLast hne, Ne, Option.some.injEq]
    exact hread.ne_nil
  have hmap : parts.mapM number = some (init ++ [last]) := by
    refine mapM_number hreads fun n hn => ?_
    have hpow : 256 ^ (4 - init.length) ≤ 2 ^ 32 := by
      calc 256 ^ (4 - init.length) ≤ 256 ^ 4 := Nat.pow_le_pow_right (by decide) (by omega)
        _ = 2 ^ 32 := by norm_num
    rcases List.mem_append.mp hn with hn | hn
    · have := hinit n hn
      omega
    · rw [List.mem_singleton.mp hn]
      omega
  have haddress : addressOf (init ++ [last]) = some (long2ip (last + leading 3 init)) := by
    have hany : init.any (255 < ·) = false := by
      simpa using hinit
    simp [addressOf, hany, Nat.not_le.mpr hlast]
  have hshort : ¬ 4 < parts.length := by omega
  unfold pfbIpv4NumericHost splitDots
  rw [hcolon, if_neg Bool.false_ne_true]
  cases hparts with
  | bare hsplit =>
      have htrailing : (decide (1 < parts.length) && parts.getLast? == some []) = false := by
        simp [hlabel]
      rw [hsplit]
      dsimp only
      rw [htrailing, if_neg Bool.false_ne_true, hnumeric, hmap]
      simp [hshort, haddress]
  | dotted hsplit =>
      have htrailing : (decide (1 < (parts ++ [[]]).length) &&
          (parts ++ [[]]).getLast? == some []) = true := by
        simp [hlength]
      rw [hsplit]
      dsimp only
      rw [htrailing, if_pos rfl, List.dropLast_concat, hnumeric, hmap]
      by_cases hfour : init.length + 1 < 4
      · simp [hlength, hfour]
      · simp [hlength, hfour, haddress]
        omega

theorem digitsValue_eq_decimal {digits : Str} (h : digits.all isAsciiDigit = true) :
    digitsValue 10 digits = decimal digits := by
  induction digits using List.reverseRecOn with
  | nil => rfl
  | append_singleton digits c ih =>
      simp only [List.all_append, List.all_cons, List.all_nil, Bool.and_true,
        Bool.and_eq_true] at h
      rw [digitsValue_concat, ih h.1, digitValue, if_pos h.2]
      simp [decimal]

/-- Digits without a leading zero are the decimal text of their value. -/
theorem octetText_decimal {c : Char} {digits : Str} (h : (c :: digits).all isAsciiDigit = true)
    (hc : c ≠ '0') : octetText (decimal (c :: digits)) = c :: digits := by
  have hsingle : ∀ {d : Char}, isAsciiDigit d = true →
      d.toNat - 48 < 10 ∧ octetText (d.toNat - 48) = [d] := by
    intro d hd
    have hbounds := isAsciiDigit_bounds hd
    have hlt : d.toNat - 48 < 10 := by omega
    refine ⟨hlt, ?_⟩
    rw [octetText, Nat.toDigits_of_lt_base hlt, List.cons.injEq]
    refine ⟨Char.toNat_inj.mp ?_, rfl⟩
    rw [Nat.toNat_digitChar_of_lt_ten hlt]
    omega
  induction digits using List.reverseRecOn with
  | nil =>
      have hvalue : decimal [c] = c.toNat - 48 := by simp [decimal]
      rw [hvalue]
      exact (hsingle (by simpa using h)).2
  | append_singleton digits d ih =>
      rw [← List.cons_append, List.all_append, Bool.and_eq_true] at h
      have hd : isAsciiDigit d = true := by simpa using h.2
      have hvalue : decimal (c :: digits ++ [d]) = 10 * decimal (c :: digits) + (d.toNat - 48) := by
        simp [decimal]
      have hpos : 0 < decimal (c :: digits) := by
        rw [← digitsValue_eq_decimal h.1]
        have hfirst : isHexDigit c = true :=
          isHexDigit_of_digit c (List.all_eq_true.mp h.1 c List.mem_cons_self)
        exact Nat.lt_of_lt_of_le (Nat.pow_pos (by decide))
          (pow_le_digitsValue (digitValue_pos hfirst hc))
      rw [← List.cons_append, hvalue, octetText,
        ← Nat.toDigits_append_toDigits (by decide) hpos (hsingle hd).1, ← octetText, ← octetText,
        ih h.1, (hsingle hd).2]

/-- An unpadded octet is the decimal text of its value. -/
theorem unpadOctet_eq {octet : Str} (h : octet.all isAsciiDigit = true) :
    unpadOctet octet = octetText (decimal octet) := by
  have hvalue : decimal (octet.dropWhile (· == '0')) = decimal octet := by
    have hall : (octet.dropWhile (· == '0')).all isAsciiDigit = true :=
      List.all_eq_true.mpr fun c hc =>
        List.all_eq_true.mp h c ((List.dropWhile_sublist _).subset hc)
    rw [← digitsValue_eq_decimal hall, ← digitsValue_eq_decimal h, digitsValue_dropZeros]
  unfold unpadOctet
  dsimp only
  cases hdrop : octet.dropWhile (· == '0') with
  | nil =>
      rw [hdrop] at hvalue
      rw [if_pos rfl, ← hvalue]
      decide
  | cons c rest =>
      have hc : c ≠ '0' := by
        have hhead := List.head_dropWhile_not (· == '0') (l := octet) (by simp [hdrop])
        simpa [hdrop] using hhead
      have hall : (c :: rest).all isAsciiDigit = true :=
        List.all_eq_true.mpr fun d hd =>
          List.all_eq_true.mp h d ((List.dropWhile_sublist _).subset (hdrop ▸ hd))
      rw [if_neg (by simp), ← hvalue, hdrop, octetText_decimal hall hc]

/-- The decimal text of a number has no leading zero. -/
theorem octetText_zero {n : Nat} {digits : Str} (h : octetText n = '0' :: digits) :
    digits = [] := by
  have hall := (octetText_clean n).1
  have hunpad := unpadOctet_eq hall
  rw [decimal_octetText, h] at hunpad
  unfold unpadOctet at hunpad
  dsimp only at hunpad
  split at hunpad
  · exact (List.cons.inj hunpad).2.symm
  · next hne =>
      have hhead := List.head_dropWhile_not (· == '0') (l := '0' :: digits) hne
      simp [hunpad] at hhead

theorem reads_octetText {o n : Nat} (h : Reads (octetText o) n) : n = o := by
  have hdigits := (octetText_clean o).1
  generalize htext : octetText o = text at h
  cases h with
  | @hex x digits hx hhex =>
      rw [htext] at hdigits
      have hxdigit := List.all_eq_true.mp hdigits x (by simp)
      rcases hx with rfl | rfl <;> exact absurd hxdigit (by decide)
  | @octal digits hne hoctal => exact absurd (octetText_zero htext) hne
  | @decimal c digits hall hzero =>
      rw [digitsValue_eq_decimal hall, ← htext, decimal_octetText]

theorem numbers_of_quad {octets numbers : List Nat}
    (h : List.Forall₂ Reads (octets.map octetText) numbers) : numbers = octets := by
  induction octets generalizing numbers with
  | nil =>
      cases h
      rfl
  | cons o octets ih =>
      cases h with
      | cons hread hrest =>
          rw [reads_octetText hread, ih hrest]

/-- A canonical dotted quad spells itself. -/
theorem long2ip_of_quad (h : Spells host count finalDot address) {octets : List Nat}
    (hquad : readQuad host = some octets) : count = 4 ∧ host = long2ip address := by
  obtain ⟨hlength, hlt, hsplit⟩ := readQuad_eq_some hquad
  obtain ⟨parts, init, last, hparts, hreads, hcount, -, -, -, rfl⟩ := h.numbers
  have hmap : parts = octets.map octetText := by
    cases hparts with
    | bare hbare => exact hbare.symm.trans hsplit
    | dotted hdotted =>
        have hmem : [] ∈ octets.map octetText := by
          rw [← hsplit, splitDots, hdotted]
          simp
        obtain ⟨o, -, hnil⟩ := List.mem_map.mp hmem
        exact absurd hnil (octetText_clean o).2
  have hnumbers := numbers_of_quad (hmap ▸ hreads)
  have hhost : host = quadText octets := by
    rw [quadText, ← hsplit]
    exact (List.intercalate_splitOn '.').symm
  match octets, hlength, hlt, hnumbers with
  | [a, b, c, d], _, hlt, hnumbers =>
      have hinit : init = [a, b, c] ∧ last = d := by
        have hsame : init ++ [last] = [a, b, c] ++ [d] := hnumbers
        obtain ⟨hinit, hlast⟩ := List.append_inj' hsame rfl
        exact ⟨hinit, by simpa using hlast⟩
      obtain ⟨rfl, rfl⟩ := hinit
      have ha := hlt a (by simp)
      have hb := hlt b (by simp)
      have hc := hlt c (by simp)
      have hd := hlt last (by simp)
      refine ⟨hcount, ?_⟩
      rw [hhost, long2ip]
      have hsum : last + leading 3 [a, b, c] = a * 256 ^ 3 + b * 256 ^ 2 + c * 256 + last := by
        simp only [leading]
        ring
      have hoctets : [a, b, c, last] = [(last + leading 3 [a, b, c]) / 256 ^ 3 % 256,
          (last + leading 3 [a, b, c]) / 256 ^ 2 % 256, (last + leading 3 [a, b, c]) / 256 % 256,
          (last + leading 3 [a, b, c]) % 256] := by
        rw [hsum]
        simp only [List.cons.injEq, and_true]
        omega
      rw [← hoctets]

end Spelling

/-- Four runs of digits read as decimal octets, the first not zero. -/
structure DecimalQuad (host : Str) (octets : List Nat) : Prop where
  labels : ∀ label ∈ splitDots host, isAsciiDigits label = true
  eq : octets = (splitDots host).map decimal
  length : octets.length = 4
  lt : ∀ o ∈ octets, o < 256
  head : octets.head? ≠ some 0

theorem DecimalQuad.chars {host : Str} {octets : List Nat} (h : DecimalQuad host octets) :
    ∀ c ∈ host, c = '.' ∨ isAsciiDigit c = true := by
  intro c hc
  have hjoin : host = joinDots (splitDots host) := (List.intercalate_splitOn '.').symm
  rw [hjoin] at hc
  rcases mem_intercalate hc with hdot | ⟨label, hlabel, hcl⟩
  · exact Or.inl hdot
  · have hdigits := h.labels label hlabel
    unfold isAsciiDigits at hdigits
    rw [Bool.and_eq_true, List.all_eq_true] at hdigits
    exact Or.inr (hdigits.2 c hcl)

theorem octetText_injective {m n : Nat} (h : octetText m = octetText n) : m = n := by
  rw [← decimal_octetText m, h, decimal_octetText]

theorem isIpaddrv4_quadText {octets : List Nat} (hne : octets ≠ []) :
    isIpaddrv4 (quadText octets) = true ↔ octets.length = 4 ∧ ∀ o ∈ octets, o < 256 := by
  unfold isIpaddrv4
  rw [Option.isSome_iff_exists]
  constructor
  · rintro ⟨octets', hread⟩
    obtain ⟨hlength, hlt, hsplit⟩ := readQuad_eq_some hread
    have hdots : ∀ s ∈ octets.map octetText, '.' ∉ s := by
      intro s hs hdot
      obtain ⟨o, -, rfl⟩ := List.mem_map.mp hs
      exact absurd (List.all_eq_true.mp (octetText_clean o).1 _ hdot) (by decide)
    have hquad : splitDots (quadText octets) = octets.map octetText :=
      List.splitOn_intercalate _ hdots (by simpa using hne)
    have hsame : octets = octets' :=
      List.map_injective_iff.mpr (fun _ _ => octetText_injective) (hquad.symm.trans hsplit)
    exact hsame ▸ ⟨hlength, hlt⟩
  · rintro ⟨hlength, hlt⟩
    exact ⟨octets, readQuad_quadText hlength hlt⟩

/-- A padded quad is unpadded to the quad of its decimal octets. -/
theorem pfbIpv4Unpad_eq_some_iff {host quad : Str} : pfbIpv4Unpad host = some quad ↔
    ∃ octets, DecimalQuad host octets ∧ quad = quadText octets := by
  by_cases hlabels : ∀ label ∈ splitDots host, isAsciiDigits label = true
  case neg =>
    have hnone : pfbIpv4Unpad host = none := by
      unfold pfbIpv4Unpad
      rw [if_neg fun h => hlabels (List.all_eq_true.mp h.2)]
    rw [hnone]
    constructor
    · exact fun h => by cases h
    · rintro ⟨octets, hquad, -⟩
      exact absurd hquad.labels hlabels
  have hmap : (splitDots host).map unpadOctet = ((splitDots host).map decimal).map octetText := by
    rw [List.map_map]
    refine List.map_congr_left fun label hlabel => unpadOctet_eq ?_
    have hdigits := hlabels label hlabel
    unfold isAsciiDigits at hdigits
    exact (Bool.and_eq_true _ _ ▸ hdigits).2
  have hne : (splitDots host).map decimal ≠ [] := by
    simp [splitDots]
  have hhead : ((splitDots host).map unpadOctet).head? = some ['0'] ↔
      ((splitDots host).map decimal).head? = some 0 := by
    obtain ⟨o, octets, hcons⟩ := List.exists_cons_of_ne_nil hne
    rw [hmap, hcons, List.map_cons, List.head?_cons, List.head?_cons, Option.some.injEq,
      Option.some.injEq]
    exact ⟨fun h => octetText_injective h, fun h => by rw [h]; decide⟩
  unfold pfbIpv4Unpad pfbSanitizeIpaddr
  dsimp only
  rw [List.all_eq_true.mpr hlabels, hmap, ← quadText]
  rw [hmap] at hhead
  constructor
  · intro h
    split at h
    case isFalse => cases h
    case isTrue hlength =>
      rw [Option.filter_eq_some_iff] at h
      obtain ⟨hsome, hquad⟩ := h
      split at hsome
      case isTrue => cases hsome
      case isFalse hzero =>
        obtain rfl := Option.some.inj hsome
        obtain ⟨hfour, hlt⟩ := (isIpaddrv4_quadText hne).mp hquad
        exact ⟨_, ⟨hlabels, rfl, hfour, hlt, fun h => hzero (hhead.mpr h)⟩, rfl⟩
  · rintro ⟨octets, hquad, rfl⟩
    have hlength := hquad.length
    have hlt := hquad.lt
    have hfirst := hquad.head
    rw [hquad.eq] at hlength hlt hfirst
    rw [if_pos ⟨by simpa using hlength, rfl⟩, if_neg fun h => hfirst (hhead.mp h), hquad.eq,
      Option.filter_eq_some_iff]
    exact ⟨rfl, (isIpaddrv4_quadText hne).mpr ⟨hlength, hlt⟩⟩

end PfBlockerNG.NumericHosts
