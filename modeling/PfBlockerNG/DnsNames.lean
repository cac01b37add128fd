import Mathlib.Tactic.Linarith
import PfBlockerNG.ByteStrings
import PfBlockerNG.PyText

/-!
Domain names of the DNS codec: label sequences, their presentation text with its escapes, and the
equality of names up to ASCII case.
-/

namespace PfBlockerNG.DnsNames

open PfBlockerNG.ByteStrings
open PfBlockerNG.Strings
open PfBlockerNG.PyText

/-- `str.isdigit` and the decimal value `int` gives a character, as the Unicode tables of the
running Python have them; both are fixed on ASCII. -/
structure DigitTables where
  isDigit : Char → Bool
  decimal : Char → Option Nat
  isDigit_ascii : ∀ c, isAscii c = true → isDigit c = isAsciiDigit c
  decimal_ascii : ∀ c, isAsciiDigit c = true → decimal c = some (c.toNat - 48)

/-- The tables restricted to ASCII. -/
def asciiDigits : DigitTables where
  isDigit := isAsciiDigit
  decimal c := if isAsciiDigit c then some (c.toNat - 48) else none
  isDigit_ascii _ _ := rfl
  decimal_ascii c h := by rw [if_pos h]

/-- `int(digits)` of a non-empty run of digits; `none` where it raises. -/
def DigitTables.int (t : DigitTables) (digits : Str) : Option Nat :=
  digits.foldlM (fun n c => (t.decimal c).map (n * 10 + ·)) 0

abbrev Label := Bytes

def maxName : Nat := 255
def maxLabel : Nat := 63

/-- What `name_to_labels` raises, with the name its text quotes. -/
inductive NameError where
  | emptyName
  | danglingEscape (name : Str)
  | badEscape (name : Str)
  | invalidInt (digits : Str)
  | emptyLabel (name : Str)
  | longLabel (name : Str)
  | longName
  deriving DecidableEq, Repr

/-- `f"{octet:03d}"`. -/
def decimal3 (n : Nat) : Str :=
  [Char.ofNat (48 + n / 100), Char.ofNat (48 + n / 10 % 10), Char.ofNat (48 + n % 10)]

def octetText (octet : UInt8) : Str :=
  if octet = 0x2E ∨ octet = 0x5C then ['\\', Char.ofNat octet.toNat]
  else if 0x21 ≤ octet ∧ octet ≤ 0x7E then [Char.ofNat octet.toNat]
  else '\\' :: decimal3 octet.toNat

def labelText (label : Label) : Str := label.flatMap octetText

def labelsToText (labels : List Label) : Str :=
  match labels.flatMap (fun label => labelText label ++ ['.']) with
  | [] => ['.']
  | text => text

/-- The loop of `name_to_labels` over the characters of `name`. -/
def scanName (t : DigitTables) (name : Str) :
    Str → Bytes → List Label → Except NameError (List Label)
  | [], current, labels => .ok (if current.isEmpty then labels else labels ++ [current])
  | char :: rest, current, labels =>
      if char = '\\' then
        match rest with
        | [] => .error (.danglingEscape name)
        | c :: rest₁ =>
            if t.isDigit c then
              match rest₁ with
              | c₁ :: c₂ :: rest₃ =>
                  if t.isDigit c₁ && t.isDigit c₂ then
                    match t.int [c, c₁, c₂] with
                    | none => .error (.invalidInt [c, c₁, c₂])
                    | some n =>
                        if 255 < n then .error (.badEscape name)
                        else scanName t name rest₃ (current ++ [UInt8.ofNat n]) labels
                  else .error (.badEscape name)
              | _ => .error (.badEscape name)
            else scanName t name rest₁ (current ++ String.utf8EncodeChar c) labels
      else if char = '.' then
        if current.isEmpty then .error (.emptyLabel name)
        else scanName t name rest [] (labels ++ [current])
      else scanName t name rest (current ++ String.utf8EncodeChar char) labels

/-- Octets of the uncompressed name, the root octet included. -/
def wireLength (labels : List Label) : Nat := (labels.map (·.length + 1)).sum + 1

/-- Presentation name to labels, without the root label. -/
def nameToLabels (t : DigitTables) (name : Str) : Except NameError (List Label) :=
  if name = ['.'] then .ok []
  else if name = [] then .error .emptyName
  else
    match scanName t name name [] [] with
    | .error e => .error e
    | .ok labels =>
        if labels.any (maxLabel < ·.length) then .error (.longLabel name)
        else if maxName < wireLength labels then .error .longName
        else .ok labels

/-- `bytes([len(label)]) + label` for every label, and the root octet. -/
def uncompressed (labels : List Label) : Bytes :=
  labels.flatMap (fun label => UInt8.ofNat label.length :: label) ++ [0]

def encodeName (t : DigitTables) (name : Str) : Except NameError Bytes :=
  (nameToLabels t name).map uncompressed

/-- `bytes.lower()`. -/
def lower (label : Label) : Label :=
  label.map fun b => if 0x41 ≤ b ∧ b ≤ 0x5A then b + 0x20 else b

/-- The labels a name may have on the wire. -/
structure ValidLabels (labels : List Label) : Prop where
  nonempty : ∀ label ∈ labels, 0 < label.length
  short : ∀ label ∈ labels, label.length ≤ maxLabel
  fits : wireLength labels ≤ maxName

@[simp] theorem wireLength_nil : wireLength [] = 1 := rfl

@[simp] theorem wireLength_cons (label : Label) (labels : List Label) :
    wireLength (label :: labels) = label.length + 1 + wireLength labels := by
  simp only [wireLength, List.map_cons, List.sum_cons]
  omega

theorem wireLength_pos (labels : List Label) : 0 < wireLength labels := Nat.succ_pos _

theorem wireLength_append (as bs : List Label) :
    wireLength (as ++ bs) + 1 = wireLength as + wireLength bs := by
  simp only [wireLength, List.map_append, List.sum_append]
  omega

theorem wireLength_push (labels : List Label) (label : Label) :
    wireLength (labels ++ [label]) = wireLength labels + (1 + label.length) := by
  have happend := wireLength_append labels [label]
  rw [wireLength_cons, wireLength_nil] at happend
  omega

/-- One more label keeps a label sequence on the wire. -/
theorem ValidLabels.push {labels : List Label} {label : Label} (h : ValidLabels labels)
    (hpos : 0 < label.length) (hshort : label.length ≤ maxLabel)
    (hfits : wireLength labels + (1 + label.length) ≤ maxName) :
    ValidLabels (labels ++ [label]) where
  nonempty l hl := by
    rcases List.mem_append.mp hl with hl | hl
    · exact h.nonempty l hl
    · rw [List.mem_singleton.mp hl]
      exact hpos
  short l hl := by
    rcases List.mem_append.mp hl with hl | hl
    · exact h.short l hl
    · rw [List.mem_singleton.mp hl]
      exact hshort
  fits := by
    rw [wireLength_push]
    exact hfits

theorem ValidLabels.tail {label : Label} {labels : List Label}
    (h : ValidLabels (label :: labels)) : ValidLabels labels where
  nonempty l hl := h.nonempty l (List.mem_cons_of_mem _ hl)
  short l hl := h.short l (List.mem_cons_of_mem _ hl)
  fits := by
    have hfits := h.fits
    rw [wireLength_cons] at hfits
    omega

theorem validLabels_nil : ValidLabels [] where
  nonempty _ hl := absurd hl (List.not_mem_nil)
  short _ hl := absurd hl (List.not_mem_nil)
  fits := by decide

/-- A name has at most 127 labels. -/
theorem ValidLabels.two_mul_length_lt {labels : List Label} (h : ValidLabels labels) :
    2 * labels.length < wireLength labels := by
  induction labels with
  | nil => decide
  | cons label labels ih =>
      have hpos := h.nonempty label List.mem_cons_self
      have htail := ih h.tail
      rw [wireLength_cons, List.length_cons]
      omega

@[simp] theorem uncompressed_length (labels : List Label) :
    (uncompressed labels).length = wireLength labels := by
  induction labels with
  | nil => rfl
  | cons label labels ih =>
      rw [wireLength_cons, ← ih]
      simp only [uncompressed, List.flatMap_cons, List.length_append, List.length_cons]
      omega

theorem uncompressed_cons (label : Label) (labels : List Label) :
    uncompressed (label :: labels) =
      UInt8.ofNat label.length :: label ++ uncompressed labels := by
  simp [uncompressed]

/-! ### The presentation text -/

theorem flatMap_labelText_ne_nil {labels : List Label} (h : labels ≠ []) :
    labels.flatMap (fun label => labelText label ++ ['.']) ≠ [] := by
  cases labels with
  | nil => exact absurd rfl h
  | cons label labels => simp

theorem labelsToText_of_ne_nil {labels : List Label} (h : labels ≠ []) :
    labelsToText labels = labels.flatMap (fun label => labelText label ++ ['.']) := by
  unfold labelsToText
  split
  · next heq => exact absurd heq (flatMap_labelText_ne_nil h)
  · rfl

theorem digit_ofNat : ∀ d < 10,
    isAsciiDigit (Char.ofNat (48 + d)) = true ∧ (Char.ofNat (48 + d)).toNat = 48 + d := by
  decide

theorem decimal3_isAsciiDigit {n : Nat} (h : n < 256) : (decimal3 n).all isAsciiDigit = true := by
  simp [decimal3, (digit_ofNat (n / 100) (by omega)).1,
    (digit_ofNat (n / 10 % 10) (by omega)).1, (digit_ofNat (n % 10) (by omega)).1]

theorem decimal3_value {n : Nat} (h : n < 256) :
    (decimal3 n).foldl (fun v c => v * 10 + (c.toNat - 48)) 0 = n := by
  simp only [decimal3, List.foldl_cons, List.foldl_nil, (digit_ofNat (n / 100) (by omega)).2,
    (digit_ofNat (n / 10 % 10) (by omega)).2, (digit_ofNat (n % 10) (by omega)).2]
  omega

theorem isAscii_of_isAsciiDigit {c : Char} (h : isAsciiDigit c = true) : isAscii c = true := by
  simp only [isAsciiDigit, Bool.and_eq_true, decide_eq_true_eq, Char.le_def] at h
  have hle : c.toNat ≤ 57 := h.2
  simp only [isAscii, decide_eq_true_eq]
  omega

theorem DigitTables.isDigit_of_isAsciiDigit (t : DigitTables) {c : Char}
    (h : isAsciiDigit c = true) : t.isDigit c = true := by
  rw [t.isDigit_ascii c (isAscii_of_isAsciiDigit h), h]

/-- `int` reads an octet's three digits back. -/
theorem DigitTables.int_decimal3 (t : DigitTables) {n : Nat} (h : n < 256) :
    t.int (decimal3 n) = some n := by
  have hdigits := decimal3_isAsciiDigit h
  have hfold : ∀ (s : Str) (v : Nat), s.all isAsciiDigit = true →
      s.foldlM (fun n c => (t.decimal c).map (n * 10 + ·)) v =
        some (s.foldl (fun v c => v * 10 + (c.toNat - 48)) v) := by
    intro s
    induction s with
    | nil => intro v _; rfl
    | cons c s ih =>
        intro v hs
        rw [List.all_cons, Bool.and_eq_true] at hs
        rw [List.foldlM_cons, t.decimal_ascii c hs.1]
        exact ih _ hs.2
  rw [DigitTables.int, hfold _ _ hdigits, decimal3_value h]

theorem utf8EncodeChar_ascii {n : Nat} (h : n < 128) :
    String.utf8EncodeChar (Char.ofNat n) = [UInt8.ofNat n] := by
  have hval : (Char.ofNat n).val.toNat = n := toNat_ofNat (by omega)
  simp only [String.utf8EncodeChar, hval]
  rw [if_pos (by omega)]

theorem printable_char {n : Nat} (h : n < 127) (hdot : n ≠ 46) (hback : n ≠ 92) :
    Char.ofNat n ≠ '\\' ∧ Char.ofNat n ≠ '.' := by
  have hval := toNat_ofNat (n := n) (by omega)
  refine ⟨fun heq => ?_, fun heq => ?_⟩
  · rw [heq] at hval
    exact hback hval.symm
  · rw [heq] at hval
    exact hdot hval.symm

theorem scanName_nil (t : DigitTables) (name : Str) (current : Bytes) (labels : List Label) :
    scanName t name [] current labels =
      .ok (if current.isEmpty then labels else labels ++ [current]) := rfl

theorem scanName_cons (t : DigitTables) (name rest : Str) {char : Char} (current : Bytes)
    (labels : List Label) (hback : char ≠ '\\') :
    scanName t name (char :: rest) current labels =
      if char = '.' then
        if current.isEmpty then .error (.emptyLabel name)
        else scanName t name rest [] (labels ++ [current])
      else scanName t name rest (current ++ String.utf8EncodeChar char) labels := by
  rw [scanName.eq_def]
  exact if_neg hback

theorem scanName_dot (t : DigitTables) (name rest : Str) {current : Bytes}
    (labels : List Label) (h : 0 < current.length) :
    scanName t name ('.' :: rest) current labels =
      scanName t name rest [] (labels ++ [current]) := by
  have hne : current.isEmpty = false := by
    cases current with
    | nil => exact absurd h (Nat.lt_irrefl 0)
    | cons _ _ => rfl
  rw [scanName_cons t name rest current labels (by decide), if_pos rfl, hne]
  rfl

theorem scanName_char (t : DigitTables) (name rest : Str) {char : Char} (current : Bytes)
    (labels : List Label) (hback : char ≠ '\\') (hdot : char ≠ '.') :
    scanName t name (char :: rest) current labels =
      scanName t name rest (current ++ String.utf8EncodeChar char) labels := by
  rw [scanName_cons t name rest current labels hback, if_neg hdot]

theorem scanName_escape (t : DigitTables) (name rest : Str) {char : Char} (current : Bytes)
    (labels : List Label) (h : t.isDigit char = false) :
    scanName t name ('\\' :: char :: rest) current labels =
      scanName t name rest (current ++ String.utf8EncodeChar char) labels := by
  rw [scanName.eq_def]
  simp [h]

theorem scanName_decimal3 (t : DigitTables) (name rest : Str) {n : Nat} (current : Bytes)
    (labels : List Label) (h : n < 256) :
    scanName t name ('\\' :: (decimal3 n ++ rest)) current labels =
      scanName t name rest (current ++ [UInt8.ofNat n]) labels := by
  have hdigits := decimal3_isAsciiDigit h
  have hint := t.int_decimal3 h
  simp only [decimal3, List.all_cons, List.all_nil, Bool.and_true, Bool.and_eq_true] at hdigits
  obtain ⟨h₀, h₁, h₂⟩ := hdigits
  have hd₀ := t.isDigit_of_isAsciiDigit h₀
  have hd₁ := t.isDigit_of_isAsciiDigit h₁
  have hd₂ := t.isDigit_of_isAsciiDigit h₂
  have hle : ¬ 255 < n := by omega
  unfold decimal3 at hint ⊢
  simp [scanName, hd₀, hd₁, hd₂, hint, hle]

/-- The scan reads the text of one octet back into that octet. -/
theorem scanName_octetText (t : DigitTables) (name : Str) (octet : UInt8) (rest : Str)
    (current : Bytes) (labels : List Label) :
    scanName t name (octetText octet ++ rest) current labels =
      scanName t name rest (current ++ [octet]) labels := by
  have hlt : octet.toNat < 256 := octet.toNat_lt
  unfold octetText
  split
  · next hspecial =>
      have hutf8 : String.utf8EncodeChar (Char.ofNat octet.toNat) = [octet] := by
        rcases hspecial with rfl | rfl <;> decide
      have hdigit : t.isDigit (Char.ofNat octet.toNat) = false := by
        rcases hspecial with rfl | rfl
        · exact t.isDigit_ascii _ (by decide)
        · exact t.isDigit_ascii _ (by decide)
      have hscan := scanName_escape t name rest current labels hdigit
      rwa [hutf8] at hscan
  · next hspecial =>
      split
      · next hprint =>
          have hlow : 33 ≤ octet.toNat := hprint.1
          have hhigh : octet.toNat ≤ 126 := hprint.2
          have hdot : octet.toNat ≠ 46 := fun h => hspecial (Or.inl (UInt8.toNat_inj.mp h))
          have hback : octet.toNat ≠ 92 := fun h => hspecial (Or.inr (UInt8.toNat_inj.mp h))
          obtain ⟨hne, hne'⟩ := printable_char (by omega) hdot hback
          have hutf8 := utf8EncodeChar_ascii (n := octet.toNat) (by omega)
          have hscan := scanName_char t name rest current labels hne hne'
          rwa [hutf8, UInt8.ofNat_toNat] at hscan
      · have hscan := scanName_decimal3 t name rest current labels hlt
        rwa [UInt8.ofNat_toNat] at hscan

theorem scanName_labelText (t : DigitTables) (name : Str) (label : Label) (rest : Str)
    (current : Bytes) (labels : List Label) :
    scanName t name (labelText label ++ rest) current labels =
      scanName t name rest (current ++ label) labels := by
  induction label generalizing current with
  | nil => simp [labelText]
  | cons octet label ih =>
      change scanName t name ((octetText octet ++ labelText label) ++ rest) current labels = _
      rw [List.append_assoc, scanName_octetText, ih, List.append_assoc]
      rfl

theorem scanName_labels (t : DigitTables) (name : Str) {labels : List Label}
    (h : ∀ label ∈ labels, 0 < label.length) (done : List Label) :
    scanName t name (labels.flatMap (fun label => labelText label ++ ['.'])) [] done =
      .ok (done ++ labels) := by
  induction labels generalizing done with
  | nil => simp [scanName_nil]
  | cons label labels ih =>
      have hpos := h label List.mem_cons_self
      rw [List.flatMap_cons, List.append_assoc, scanName_labelText, List.nil_append,
        List.singleton_append, scanName_dot t name _ done hpos,
        ih (fun l hl => h l (List.mem_cons_of_mem _ hl)), List.append_assoc]
      rfl

theorem labelsToText_ne_root {labels : List Label} (hne : labels ≠ [])
    (h : ∀ label ∈ labels, 0 < label.length) : labelsToText labels ≠ ['.'] := by
  intro htext
  rw [labelsToText_of_ne_nil hne] at htext
  have hscan := scanName_labels asciiDigits ['.'] h []
  rw [htext, scanName_cons asciiDigits ['.'] [] [] [] (by decide)] at hscan
  simp at hscan

/-- The text of labels that fit on the wire is read back as these labels. -/
theorem nameToLabels_labelsToText (t : DigitTables) {labels : List Label}
    (h : ValidLabels labels) : nameToLabels t (labelsToText labels) = .ok labels := by
  by_cases hnil : labels = []
  · subst labels
    rfl
  · have hroot := labelsToText_ne_root hnil h.nonempty
    have hempty : labelsToText labels ≠ [] := by
      rw [labelsToText_of_ne_nil hnil]
      exact flatMap_labelText_ne_nil hnil
    have hscan := scanName_labels t (labelsToText labels) h.nonempty []
    rw [← labelsToText_of_ne_nil hnil, List.nil_append] at hscan
    have hshort : labels.any (maxLabel < ·.length) = false := by
      rw [List.any_eq_false]
      intro label hl
      have hle := h.short label hl
      simp only [decide_eq_true_eq]
      omega
    have hfits : ¬ maxName < wireLength labels := Nat.not_lt.mpr h.fits
    unfold nameToLabels
    rw [if_neg hroot, if_neg hempty, hscan]
    simp [hshort, hfits]

/-- The scan never leaves an empty label. -/
theorem scanName_nonempty {t : DigitTables} {name : Str} {rest : Str} {current : Bytes}
    {labels found : List Label} (h : scanName t name rest current labels = .ok found)
    (hlabels : ∀ label ∈ labels, 0 < label.length) : ∀ label ∈ found, 0 < label.length := by
  have hpush : ∀ (current : Bytes) (labels : List Label), current.isEmpty = false →
      (∀ label ∈ labels, 0 < label.length) →
      ∀ label ∈ labels ++ [current], 0 < label.length := by
    intro current labels hcurrent hlabels label hl
    rcases List.mem_append.mp hl with hl | hl
    · exact hlabels label hl
    · rw [List.mem_singleton.mp hl]
      exact List.length_pos_iff.mpr (by simpa using hcurrent)
  fun_induction scanName t name rest current labels with
  | case1 current labels =>
      injection h with h
      subst h
      by_cases hempty : current.isEmpty = true
      · rw [if_pos hempty]
        exact hlabels
      · rw [if_neg hempty]
        exact hpush _ _ (by simpa using hempty) hlabels
  | case2 => cases h
  | case3 => cases h
  | case4 => cases h
  | case5 _ _ _ _ _ _ _ _ _ _ _ ih => exact ih h hlabels
  | case6 => cases h
  | case7 => cases h
  | case8 _ _ _ _ _ ih => exact ih h hlabels
  | case9 => cases h
  | case10 rest current labels hne _ ih =>
      exact ih h (hpush _ _ (by simpa using hne) hlabels)
  | case11 _ _ _ _ _ _ ih => exact ih h hlabels

/-- What `name_to_labels` accepts fits on the wire. -/
theorem nameToLabels_valid {t : DigitTables} {name : Str} {labels : List Label}
    (h : nameToLabels t name = .ok labels) : ValidLabels labels := by
  unfold nameToLabels at h
  split_ifs at h with hroot
  · injection h with h
    subst h
    exact validLabels_nil
  · split at h
    · cases h
    · next found hscan =>
        split_ifs at h with hlong hfits
        injection h with h
        subst h
        refine ⟨scanName_nonempty hscan (fun _ hl => absurd hl List.not_mem_nil), ?_, ?_⟩
        · intro label hl
          by_contra hgt
          exact hlong (List.any_eq_true.mpr ⟨label, hl, by simpa using hgt⟩)
        · exact Nat.not_lt.mp hfits

/-- Labels that fit on the wire are read back from their text, so no two names share a text, and
the text of whatever is accepted is read and written back unchanged. -/
theorem presentation_round_trip (t : DigitTables) :
    (∀ labels, ValidLabels labels → nameToLabels t (labelsToText labels) = .ok labels) ∧
      (∀ as bs, ValidLabels as → ValidLabels bs → labelsToText as = labelsToText bs → as = bs) ∧
      ∀ name labels, nameToLabels t name = .ok labels →
        (nameToLabels t (labelsToText labels)).map labelsToText = .ok (labelsToText labels) := by
  refine ⟨fun labels h => nameToLabels_labelsToText t h, fun as bs has hbs htext => ?_,
    fun name labels hread => ?_⟩
  · have hread := nameToLabels_labelsToText t has
    rw [htext, nameToLabels_labelsToText t hbs] at hread
    injection hread with heq
    exact heq.symm
  · rw [nameToLabels_labelsToText t (nameToLabels_valid hread)]
    rfl

/-! ### Equality up to ASCII case -/

theorem lower_length (label : Label) : (lower label).length = label.length := by
  simp [lower]

theorem length_of_lower_eq {as bs : Label} (h : lower as = lower bs) :
    as.length = bs.length := by
  rw [← lower_length as, h, lower_length]

theorem upper_octetText : ∀ d < 26, (octetText (UInt8.ofNat (65 + d))).map asciiLower =
    octetText (UInt8.ofNat (65 + d) + 0x20) := by
  decide

theorem octetText_map_of_not_upper {octet : UInt8} (h : ¬ (0x41 ≤ octet ∧ octet ≤ 0x5A)) :
    (octetText octet).map asciiLower = octetText octet := by
  have hupper : ¬ (65 ≤ octet.toNat ∧ octet.toNat ≤ 90) := h
  have hlt : octet.toNat < 256 := octet.toNat_lt
  have hchar : asciiLower (Char.ofNat octet.toNat) = Char.ofNat octet.toNat :=
    asciiLower_eq_self (by rwa [toNat_ofNat hlt])
  unfold octetText
  split
  · rw [List.map_cons, List.map_singleton, hchar]
    rfl
  · split
    · rw [List.map_singleton, hchar]
    · rw [List.map_cons]
      congr 1
      refine (List.map_congr_left fun c hc => ?_).trans (List.map_id _)
      have hdigit := List.all_eq_true.mp (decimal3_isAsciiDigit hlt) c hc
      simp only [isAsciiDigit, Bool.and_eq_true, decide_eq_true_eq, Char.le_def] at hdigit
      have hle : c.toNat ≤ 57 := hdigit.2
      exact asciiLower_eq_self (by omega)

/-- Lower-casing the text of an octet is the text of the lower-cased octet. -/
theorem octetText_lower (octet : UInt8) : (octetText octet).map asciiLower =
    octetText (if 0x41 ≤ octet ∧ octet ≤ 0x5A then octet + 0x20 else octet) := by
  split
  · next hupper =>
      have hlow : 65 ≤ octet.toNat := hupper.1
      have hhigh : octet.toNat ≤ 90 := hupper.2
      have htext := upper_octetText (octet.toNat - 65) (by omega)
      rwa [Nat.add_sub_cancel' hlow, UInt8.ofNat_toNat] at htext
  · next hupper => exact octetText_map_of_not_upper hupper
theorem labelText_lower (label : Label) :
    (labelText label).map asciiLower = labelText (lower label) := by
  induction label with
  | nil => rfl
  | cons octet label ih =>
      change (octetText octet ++ labelText label).map asciiLower = _
      rw [List.map_append, octetText_lower octet, ih]
      rfl

/-- Lower-casing the text of a name is the text of its lower-cased labels. -/
theorem labelsToText_lower (labels : List Label) :
    (labelsToText labels).map asciiLower = labelsToText (labels.map lower) := by
  by_cases hnil : labels = []
  · subst labels
    rfl
  · have hmap : labels.map lower ≠ [] := by simpa using hnil
    rw [labelsToText_of_ne_nil hnil, labelsToText_of_ne_nil hmap, List.map_flatMap,
      List.flatMap_map]
    congr 1
    funext label
    rw [List.map_append, labelText_lower]
    rfl

theorem wireLength_of_lower_eq {as bs : List Label} (h : as.map lower = bs.map lower) :
    wireLength as = wireLength bs := by
  have hlength : ∀ labels : List Label,
      labels.map (·.length + 1) = (labels.map lower).map (·.length + 1) := by
    intro labels
    rw [List.map_map]
    refine List.map_congr_left fun label _ => ?_
    simp [lower_length]
  rw [wireLength, wireLength, hlength as, hlength bs, h]

theorem ValidLabels.of_lower_eq {as bs : List Label} (h : ValidLabels as)
    (heq : as.map lower = bs.map lower) : ValidLabels bs := by
  have hlength : ∀ b ∈ bs, ∃ a ∈ as, a.length = b.length := by
    intro b hb
    have hmem : lower b ∈ as.map lower := by
      rw [heq]
      exact List.mem_map_of_mem hb
    obtain ⟨a, ha, hab⟩ := List.mem_map.mp hmem
    exact ⟨a, ha, length_of_lower_eq hab⟩
  refine ⟨?_, ?_, ?_⟩
  · intro b hb
    obtain ⟨a, ha, hab⟩ := hlength b hb
    rw [← hab]
    exact h.nonempty a ha
  · intro b hb
    obtain ⟨a, ha, hab⟩ := hlength b hb
    rw [← hab]
    exact h.short a ha
  · rw [← wireLength_of_lower_eq heq]
    exact h.fits

end PfBlockerNG.DnsNames
