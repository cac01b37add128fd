import PfBlockerNG.NumericHosts

/-!
An anchor goes to one side: a `||` line whose host the firewall pass takes for an address, or
rejects as one, gives no domain rule, and every spelling of an address is taken.
-/

namespace PfBlockerNG.AbpAnchorSides

open PfBlockerNG.Strings
open PfBlockerNG.PyText
open PfBlockerNG.DomainNames
open PfBlockerNG.AbpRules
open PfBlockerNG.IpText
open PfBlockerNG.WhatwgIpv4
open PfBlockerNG.AbpAnchor
open PfBlockerNG.NumericHosts

/-! Blanks at the ends of a text. -/

section Strip

variable {p : Char → Bool} {a b : Str}

theorem lstripWhile_append (h : ∃ c rest, b = c :: rest ∧ p c = false) :
    lstripWhile p (a ++ b) = lstripWhile p a ++ b := by
  obtain ⟨c, rest, rfl, hc⟩ := h
  induction a with
  | nil => simp [lstripWhile, hc]
  | cons d a ih =>
      unfold lstripWhile at ih ⊢
      cases hd : p d with
      | true => rw [List.cons_append, List.dropWhile_cons_of_pos hd, ih,
          List.dropWhile_cons_of_pos hd]
      | false => rw [List.cons_append, List.dropWhile_cons_of_neg (by simp [hd]),
          List.dropWhile_cons_of_neg (by simp [hd]), List.cons_append]

theorem rstripWhile_append (h : ∃ init c, a = init ++ [c] ∧ p c = false) :
    rstripWhile p (a ++ b) = a ++ rstripWhile p b := by
  obtain ⟨init, c, rfl, hc⟩ := h
  have hleft := lstripWhile_append (p := p) (a := b.reverse)
    (b := (init ++ [c]).reverse) ⟨c, init.reverse, by simp, hc⟩
  unfold lstripWhile at hleft
  rw [rstripWhile, List.reverse_append, hleft, List.reverse_append, List.reverse_reverse]
  rfl

theorem rstripWhile_eq_self (h : ∃ init c, a = init ++ [c] ∧ p c = false) :
    rstripWhile p a = a := by
  have happend := rstripWhile_append (b := []) h
  simpa [rstripWhile] using happend

theorem lstripWhile_split (p : Char → Bool) (s : Str) :
    ∃ front, s = front ++ lstripWhile p s ∧ ∀ c ∈ front, p c = true :=
  ⟨s.takeWhile p, (List.takeWhile_append_dropWhile).symm, 
    List.all_eq_true.mp List.all_takeWhile⟩

theorem rstripWhile_split (p : Char → Bool) (s : Str) :
    ∃ back, s = rstripWhile p s ++ back ∧ ∀ c ∈ back, p c = true := by
  obtain ⟨front, hs, hfront⟩ := lstripWhile_split p s.reverse
  refine ⟨front.reverse, ?_, fun c hc => hfront c (List.mem_reverse.mp hc)⟩
  have hrev := congrArg List.reverse hs
  simpa [rstripWhile, lstripWhile] using hrev

/-- What is left ends in a character that is not stripped. -/
theorem rstripWhile_last {p : Char → Bool} {s : Str} (h : rstripWhile p s ≠ []) :
    ∃ init c, rstripWhile p s = init ++ [c] ∧ p c = false := by
  have hne : s.reverse.dropWhile p ≠ [] := by
    intro hnil
    exact h (by rw [rstripWhile, hnil]; rfl)
  obtain ⟨c, rest, hcons⟩ := List.exists_cons_of_ne_nil hne
  have hc : p c = false := by
    have hhead := List.head_dropWhile_not p (l := s.reverse) hne
    simpa [hcons] using hhead
  exact ⟨rest.reverse, c, by rw [rstripWhile, hcons, List.reverse_cons], hc⟩

theorem rstripWhile_rstripWhile (p : Char → Bool) (s : Str) :
    rstripWhile p (rstripWhile p s) = rstripWhile p s := by
  by_cases h : rstripWhile p s = []
  · rw [h]
    rfl
  · exact rstripWhile_eq_self (rstripWhile_last h)

end Strip

/-- `str.lower()` on ASCII: each character by itself, whatever stands around it. -/
structure LowersAscii (u : Unicode) : Prop where
  segment : ∀ before text after : Str, text.all isAscii = true →
    ∃ before' after', u.lower (before ++ text ++ after) =
        before' ++ text.map asciiLower ++ after' ∧
      (before = [] → before' = []) ∧ (after = [] → after' = [])

/-! What the shape gate accepts. -/

/-- An accepted host has a dot and only label characters, and is no number but a quad. -/
theorem of_normaliseVerdict {u : Unicode} {value domain : Str}
    (h : normaliseVerdict u value false = .ok domain) :
    let host := u.lower (stripDots (strip value))
    '.' ∈ host ∧ (isNumericHost host = true → isIpv4 host = true) ∧
      ∀ c ∈ host, c = '.' ∨ isLabelChar c = true := by
  intro host
  unfold normaliseVerdict at h
  dsimp only at h
  split at h
  · cases h
  rename_i hshape
  split at h
  · cases h
  split at h
  case isFalse => cases h
  case isTrue hlabels =>
    rw [Bool.not_eq_true, Bool.or_eq_false_iff] at hshape
    obtain ⟨hdot, hnumber⟩ := hshape
    have hdot' : '.' ∈ host := by simpa using hdot
    have hquad : isNumericHost host = true → isIpv4 host = true := by
      intro hnumeric
      rw [hnumeric] at hnumber
      simpa using hnumber
    refine ⟨hdot', hquad, ?_⟩
    intro c hc
    have hjoin : host = joinDots (splitDots host) := (List.intercalate_splitOn '.').symm
    rw [hjoin] at hc
    rcases mem_intercalate hc with hdot | ⟨label, hlabel, hcl⟩
    · exact Or.inl hdot
    · refine Or.inr ?_
      have hall := List.all_eq_true.mp hlabels label hlabel
      simp only [isLabel, Bool.and_eq_true, List.all_eq_true] at hall
      exact hall.2 c hcl

/-- A letter or a digit is no blank. -/
theorem plain_of_bounds {c : Char} (h : (48 ≤ c.toNat ∧ c.toNat ≤ 57) ∨
    (65 ≤ c.toNat ∧ c.toNat ≤ 90) ∨ (97 ≤ c.toNat ∧ c.toNat ≤ 122)) :
    isSpace c = false ∧ isTrimmed c = false ∧ isAscii c = true := by
  refine ⟨?_, ?_, by simp only [isAscii, decide_eq_true_eq]; omega⟩
  · simp only [isSpace, Bool.or_eq_false_iff, Bool.and_eq_false_iff, decide_eq_false_iff_not,
      beq_eq_false_iff_ne]
    omega
  · by_contra htrimmed
    rw [Bool.not_eq_false] at htrimmed
    simp only [isTrimmed, Bool.or_eq_true, beq_iff_eq] at htrimmed
    rcases htrimmed with ((((rfl | rfl) | rfl) | rfl) | rfl) | rfl <;> revert h <;> decide

theorem trimmed_ascii {c : Char} (h : isTrimmed c = true) :
    isAscii c = true ∧ c ≠ '.' ∧ c ≠ ':' ∧ c ≠ '/' := by
  simp only [isTrimmed, Bool.or_eq_true, beq_iff_eq] at h
  rcases h with ((((rfl | rfl) | rfl) | rfl) | rfl) | rfl <;> decide

/-- The one character `trim()` strips and `str.strip()` keeps. -/
theorem eq_nul {c : Char} (h : isTrimmed c = true) (hspace : isSpace c = false) :
    c = Char.ofNat 0 := by
  simp only [isTrimmed, Bool.or_eq_true, beq_iff_eq] at h
  rcases h with ((((rfl | rfl) | rfl) | rfl) | rfl) | rfl
  · exact absurd hspace (by decide)
  · exact absurd hspace (by decide)
  · exact absurd hspace (by decide)
  · exact absurd hspace (by decide)
  · rfl
  · exact absurd hspace (by decide)

theorem lstripWhile_suffix (p : Char → Bool) (s : Str) : lstripWhile p s <:+ s :=
  List.dropWhile_suffix p

section Verdict

variable {u : Unicode} {value front back label before dot t : Str}

theorem asciiLower_eq_dot {c : Char} (h : asciiLower c = '.') : c = '.' := by
  rcases asciiLower_cases c with hsame | ⟨hupper, hlower⟩
  · exact hsame.symm.trans h
  · rw [h] at hlower
    have hdot : ('.').toNat = 46 := rfl
    omega

theorem isHexDigit_asciiLower {c : Char} (h : isHexDigit c = true) :
    isHexDigit (asciiLower c) = true := by
  rcases asciiLower_cases c with hsame | ⟨hupper, hlower⟩
  · rwa [hsame]
  · simp only [isHexDigit, isAsciiDigit, Bool.or_eq_true, Bool.and_eq_true,
      decide_eq_true_eq] at h ⊢
    refine Or.inl (Or.inr ?_)
    have hbound : c.toNat ≤ 70 := by
      rcases h with (h | h) | h
      · exact Nat.le_trans h.2 (by decide)
      · have hge : 97 ≤ c.toNat := h.1
        omega
      · exact h.2
    have hlow : 97 ≤ (asciiLower c).toNat ∧ (asciiLower c).toNat ≤ 102 := by omega
    exact hlow

theorem isNumericLabel_lower (h : isNumericLabel label = true) :
    isNumericLabel (label.map asciiLower) = true := by
  have hlower : ∀ c, asciiLower (asciiLower c) = asciiLower c := by
    intro c
    rcases asciiLower_cases c with hsame | ⟨hupper, hlow⟩
    · exact congrArg asciiLower hsame
    · exact asciiLower_eq_self (by omega)
  unfold isNumericLabel at h ⊢
  rw [Bool.or_eq_true] at h ⊢
  rcases h with hdigits | hhex
  · refine Or.inl ?_
    have hall : ∀ c ∈ label, isAsciiDigit c = true := by
      unfold isAsciiDigits at hdigits
      rw [Bool.and_eq_true, List.all_eq_true] at hdigits
      exact hdigits.2
    have hmap : label.map asciiLower = label := by
      refine (List.map_congr_left fun c hc => asciiLower_eq_self ?_).trans (List.map_id label)
      have := isAsciiDigit_bounds (hall c hc)
      omega
    rwa [hmap]
  · refine Or.inr ?_
    rw [Bool.and_eq_true, beq_iff_eq] at hhex ⊢
    constructor
    · rw [← hhex.1, ← List.map_take, List.map_map]
      exact List.map_congr_left fun c _ => hlower c
    · rw [← List.map_drop, List.all_map]
      exact List.all_eq_true.mpr fun c hc =>
        isHexDigit_asciiLower (List.all_eq_true.mp hhex.2 c hc)

/-- What stands before the last label once blanks and dots are stripped: it ends in a dot, or is
ASCII without one. -/
theorem front_cases (hfront : ∀ c ∈ front, isTrimmed c = true)
    (hbefore : before = [] ∨ ∃ a, before = a ++ ['.']) :
    let y := lstripWhile (· == '.') (lstripWhile isSpace (front ++ before))
    ((∃ a, before = a ++ ['.']) ∧ ∃ z, y = z ++ ['.']) ∨ ('.' ∉ y ∧ y.all isAscii = true) := by
  intro y
  have hsuffix : y <:+ front ++ before :=
    (lstripWhile_suffix _ _).trans (lstripWhile_suffix _ _)
  rcases hbefore with rfl | ⟨a, rfl⟩
  · refine Or.inr ?_
    have hmem : ∀ c ∈ y, isTrimmed c = true := by
      intro c hc
      have := hsuffix.subset hc
      exact hfront c (by simpa using this)
    refine ⟨fun hdot => (trimmed_ascii (hmem _ hdot)).2.1 rfl, ?_⟩
    exact List.all_eq_true.mpr fun c hc => (trimmed_ascii (hmem c hc)).1
  · rw [← List.append_assoc] at hsuffix
    rcases List.suffix_concat_iff.mp hsuffix with hnil | ⟨z, hz, -⟩
    · exact Or.inr (by simp [hnil])
    · exact Or.inl ⟨⟨a, rfl⟩, z, by simpa using hz⟩

theorem exists_concat_of_ne_nil {l : Str} (h : l ≠ []) : ∃ init c, l = init ++ [c] :=
  ⟨l.dropLast, l.getLast h, (List.dropLast_append_getLast h).symm⟩

/-- What ends in a label, or in a dot after one, does not end in white space. -/
theorem EndsIn.last (hends : EndsIn t label before dot) (hplain : ∀ c ∈ label, isSpace c = false) :
    ∃ init c, label ++ dot = init ++ [c] ∧ isSpace c = false := by
  rcases hends.dot with hdot | hdot
  · obtain ⟨init, d, hinit⟩ := exists_concat_of_ne_nil hends.ne_nil
    exact ⟨init, d, by simp [hdot, hinit], hplain d (by simp [hinit])⟩
  · exact ⟨label, '.', by rw [hdot], by decide⟩

/-- Blanks are stripped up to the last label on the left and up to what follows it on the right. -/
theorem strip_around_label (front back : Str) (hends : EndsIn t label before dot)
    (hplain : ∀ c ∈ label, isSpace c = false) :
    strip (front ++ t ++ back) = lstripWhile isSpace (front ++ before) ++ label ++ dot ++
      rstripWhile isSpace back := by
  obtain ⟨c, rest, hlabel⟩ := List.exists_cons_of_ne_nil hends.ne_nil
  have hhead : ∃ c rest, label ++ dot ++ back = c :: rest ∧ isSpace c = false :=
    ⟨c, rest ++ dot ++ back, by simp [hlabel], hplain c (by simp [hlabel])⟩
  have hlast : ∃ init c, lstripWhile isSpace (front ++ before) ++ label ++ dot = init ++ [c] ∧
      isSpace c = false := by
    obtain ⟨init, d, hinit, hd⟩ := EndsIn.last hends hplain
    exact ⟨lstripWhile isSpace (front ++ before) ++ init, d, by simp [hinit], hd⟩
  have hregroup : front ++ t ++ back = (front ++ before) ++ (label ++ dot ++ back) := by
    simp [hends.eq]
  rw [strip, hregroup, lstripWhile_append hhead, ← List.append_assoc, ← List.append_assoc,
    rstripWhile_append hlast]

/-- Dots are stripped up to the last label, where nothing but one dot follows it. -/
theorem stripDots_to_label (y label dot : Str) (hne : label ≠ []) (hlabel : '.' ∉ label)
    (hdot : dot = [] ∨ dot = ['.']) :
    stripDots (y ++ label ++ dot) = lstripWhile (· == '.') y ++ label := by
  obtain ⟨c, rest, hcons⟩ := List.exists_cons_of_ne_nil hne
  obtain ⟨init, d, hinit⟩ := exists_concat_of_ne_nil hne
  have hnot : ∀ e ∈ label, (e == '.') = false := by
    intro e he
    rw [beq_eq_false_iff_ne]
    rintro rfl
    exact hlabel he
  have hhead : ∃ c rest, label ++ dot = c :: rest ∧ (c == '.') = false :=
    ⟨c, rest ++ dot, by simp [hcons], hnot c (by simp [hcons])⟩
  have hlast : ∃ init c, lstripWhile (· == '.') y ++ label = init ++ [c] ∧ (c == '.') = false :=
    ⟨lstripWhile (· == '.') y ++ init, d, by simp [hinit], hnot d (by simp [hinit])⟩
  have hright : rstripWhile (· == '.') dot = [] := by
    rcases hdot with rfl | rfl <;> decide
  rw [stripDots, rstripDots, List.append_assoc, lstripWhile_append hhead, ← List.append_assoc,
    rstripWhile_append hlast, hright, List.append_nil]

theorem last_of_numeric (h : isNumericHost t = true) :
    ∃ init c, t = init ++ [c] ∧ isSpace c = false := by
  rw [isNumericHost_eq, Bool.and_eq_true] at h
  have hbounds := isNumericLabel_chars h.2
  obtain ⟨before, dot, hends⟩ := endsIn_of_lastLabel (isNumericLabel_ne_nil h.2)
  obtain ⟨init, c, hinit, hc⟩ := EndsIn.last hends fun c hc => (plain_of_bounds (hbounds c hc)).1
  refine ⟨before ++ init, c, ?_, hc⟩
  rw [hends.eq, List.append_assoc, hinit, ← List.append_assoc]

/-- A NUL at the end of a host stays there and is no label character. -/
theorem reject_of_nul (hlower : LowersAscii u) {y : Str} {domain : Str}
    (hstrip : strip value = y ++ [Char.ofNat 0])
    (hok : normaliseVerdict u value false = .ok domain) : False := by
  obtain ⟨-, -, hchars⟩ := of_normaliseVerdict hok
  have hdots : stripDots (strip value) = lstripWhile (· == '.') y ++ [Char.ofNat 0] := by
    have hlabel := stripDots_to_label y [Char.ofNat 0] [] (by simp) (by decide) (Or.inl rfl)
    rwa [List.append_nil, ← hstrip] at hlabel
  obtain ⟨before', after', hlow, -⟩ := hlower.segment (lstripWhile (· == '.') y) [Char.ofNat 0] []
    (by decide)
  rw [List.append_nil, ← hdots] at hlow
  have hmem : Char.ofNat 0 ∈ u.lower (stripDots (strip value)) := by
    rw [hlow]
    have hnul : [Char.ofNat 0].map asciiLower = [Char.ofNat 0] := by decide
    simp [hnul]
  rcases hchars _ hmem with hdot | hlabel
  · exact absurd hdot (by decide)
  · exact absurd hlabel (by decide)

/-- A host the shape gate accepts although it is numeric once trimmed is a canonical quad, and
nothing but white space stands after it. -/
theorem quad_of_accepted (hlower : LowersAscii u) (hfront : ∀ c ∈ front, isTrimmed c = true)
    (hback : ∀ c ∈ back, isTrimmed c = true) (hnumeric : isNumericHost t = true)
    {domain : Str} (hok : normaliseVerdict u (front ++ t ++ back) false = .ok domain) :
    rstripWhile isSpace back = [] ∧ isNumericHost (front ++ t) = true ∧
      isIpv4 (u.lower (stripDots (strip (front ++ t ++ back)))) = true := by
  rw [isNumericHost_eq, Bool.and_eq_true, Bool.not_eq_true'] at hnumeric
  obtain ⟨hcolon, hnumeric⟩ := hnumeric
  have hbounds := isNumericLabel_chars hnumeric
  obtain ⟨before, dot, hends⟩ := endsIn_of_lastLabel (isNumericLabel_ne_nil hnumeric)
  generalize lastLabel t = label at hnumeric hbounds hends
  have hstrip := strip_around_label front back hends
    fun c hc => (plain_of_bounds (hbounds c hc)).1
  have hascii : label.all isAscii = true :=
    List.all_eq_true.mpr fun c hc => (plain_of_bounds (hbounds c hc)).2.2
  by_cases hwhite : rstripWhile isSpace back = []
  case neg =>
    obtain ⟨init, c, hlast, hc⟩ := rstripWhile_last hwhite
    have hmem : c ∈ back := by
      obtain ⟨tail, htail, -⟩ := rstripWhile_split isSpace back
      rw [htail, hlast]
      simp
    obtain rfl := eq_nul (hback c hmem) hc
    rw [hlast, ← List.append_assoc] at hstrip
    exact (reject_of_nul hlower hstrip hok).elim
  refine ⟨hwhite, ?_⟩
  obtain ⟨hdotted, hquad, hchars⟩ := of_normaliseVerdict hok
  rw [hwhite, List.append_nil] at hstrip
  have hdots := stripDots_to_label (lstripWhile isSpace (front ++ before)) label dot
    hends.ne_nil hends.label hends.dot
  rw [← hstrip] at hdots
  rw [hdots] at hdotted hchars hquad ⊢
  rcases front_cases hfront hends.before with ⟨⟨a, ha⟩, z, hz⟩ | ⟨hnot, hfrontAscii⟩
  · have hwhole : EndsIn (front ++ t) label (front ++ before) dot :=
      ⟨by rw [hends.eq]; simp, hends.dot, Or.inr ⟨front ++ a, by rw [ha, List.append_assoc]⟩,
        hends.ne_nil, hends.label⟩
    have hwholeColon : ':' ∉ front ++ t := by
      intro hmem
      rcases List.mem_append.mp hmem with hmem | hmem
      · exact (trimmed_ascii (hfront _ hmem)).2.2.1 rfl
      · simp [hmem] at hcolon
    refine ⟨isNumericHost_of_endsIn hwhole hwholeColon hnumeric, hquad ?_⟩
    rw [hz] at hdotted hchars ⊢
    obtain ⟨z', after', hlow, -, hafter⟩ := hlower.segment z ('.' :: label) []
      (by rw [List.all_cons, hascii]; rfl)
    rw [hafter rfl, List.append_nil, List.append_nil] at hlow
    have hregroup : z ++ ['.'] ++ label = z ++ '.' :: label := by simp
    rw [hregroup, hlow] at hchars ⊢
    have hends' : EndsIn (z' ++ ('.' :: label).map asciiLower) (label.map asciiLower)
        (z' ++ ['.']) [] := by
      refine ⟨?_, Or.inl rfl, Or.inr ⟨z', rfl⟩, by simpa using hends.ne_nil, ?_⟩
      · have hdot : asciiLower '.' = '.' := by decide
        simp [hdot]
      · intro hmem
        obtain ⟨c, hc, hdot⟩ := List.mem_map.mp hmem
        exact hends.label (asciiLower_eq_dot hdot ▸ hc)
    refine isNumericHost_of_endsIn hends' ?_ (isNumericLabel_lower hnumeric)
    intro hmem
    rcases hchars _ hmem with hdot | hlabel
    · exact absurd hdot (by decide)
    · exact absurd hlabel (by decide)
  · generalize lstripWhile (· == '.') (lstripWhile isSpace (front ++ before)) = y
      at hnot hfrontAscii hdotted
    obtain ⟨before', after', hlow, hbefore, hafter⟩ := hlower.segment [] (y ++ label) []
      (by rw [List.all_append, hfrontAscii, hascii]; rfl)
    rw [hbefore rfl, hafter rfl, List.nil_append, List.append_nil, List.nil_append,
      List.append_nil] at hlow
    rw [hlow] at hdotted
    obtain ⟨c, hc, hdot⟩ := List.mem_map.mp hdotted
    rw [asciiLower_eq_dot hdot] at hc
    rcases List.mem_append.mp hc with hc | hc
    · exact absurd hc hnot
    · exact absurd hc hends.label

end Verdict

/-! The firewall's side. -/

section Firewall

variable {T : IpTests} {t : Str}

theorem cutLast_of_not_mem {c : Char} {s : Str} (h : c ∉ s) : cutLast c s = none := by
  have hfound : (partition c s.reverse).2.1 = false :=
    (partition_found_eq_false_iff c s.reverse).mpr (by simpa using h)
  unfold cutLast
  generalize partition c s.reverse = cut at hfound
  obtain ⟨tail, found, head⟩ := cut
  obtain rfl : found = false := hfound
  rfl

theorem cutLast_eq_some {c : Char} {s a b : Str} (h : cutLast c s = some (a, b)) :
    s = a ++ c :: b := by
  unfold cutLast at h
  split at h
  case h_1 tail head hcut =>
    obtain ⟨rfl, rfl⟩ := Prod.mk.inj (Option.some.inj h)
    have hrev := congrArg List.reverse ((partition_eq_found_iff _ _ _ _).mp hcut).1
    simpa using hrev
  case h_2 => cases h

theorem stripTrailingPort_of_not_mem (h : ':' ∉ t) : pfbStripTrailingPort T t = t := by
  unfold pfbStripTrailingPort
  rw [if_neg (by simp [h])]

theorem cidr_of_not_mem (h : '/' ∉ t) : pfbDnsblCidr T t = none := by
  unfold pfbDnsblCidr
  rw [cutLast_of_not_mem h]

theorem unbracket_of_not_mem (h : ':' ∉ t) : pfbDnsblUnbracketIp6 T t = t := by
  unfold pfbDnsblUnbracketIp6
  split
  · refine if_neg fun hv6 => h ?_
    have hcolon := T.colon_of_ipaddrv6 hv6
    exact ((List.dropLast_sublist _).trans (List.drop_sublist _ _)).subset hcolon
  · rfl

theorem not_ipaddrv6 (h : ':' ∉ t) : T.isIpaddrv6 t = false := by
  by_contra hv6
  exact h (T.colon_of_ipaddrv6 (by simpa using hv6))

/-- A host without a colon or a slash is unpadded, or read as the number it is. -/
theorem anchorIp_of_plain {host : Str} (hport : pfbStripTrailingPort T t = host)
    (hcolon : ':' ∉ host) (hslash : '/' ∉ host) :
    pfbDnsblAnchorIp T t = match pfbIpv4Unpad host with
      | some quad => .address quad
      | none => if isIpaddrv4 host then .address host else
          match pfbIpv4NumericHost host with
          | some (some ip) => .address ip
          | some none => .invalid
          | none => .none := by
  unfold pfbDnsblAnchorIp
  dsimp only
  rw [hport, cidr_of_not_mem hslash, unbracket_of_not_mem hcolon]
  dsimp only
  cases hunpad : pfbIpv4Unpad host with
  | some quad =>
      obtain ⟨octets, hquad, rfl⟩ := pfbIpv4Unpad_eq_some_iff.mp hunpad
      have hne : octets ≠ [] := List.ne_nil_of_length_pos (by rw [hquad.length]; decide)
      have hv4 := (isIpaddrv4_quadText hne).mpr ⟨hquad.length, hquad.lt⟩
      simp [hv4]
  | none =>
      rw [Option.getD_none, not_ipaddrv6 hcolon, Bool.or_false]
      refine ite_congr rfl (fun _ => rfl) fun _ => if_neg ?_
      simpa using hslash

/-- A host of digits and dots is numeric. -/
theorem isNumericHost_of_digits (hlabels : ∀ label ∈ splitDots t, isAsciiDigits label = true)
    (hcolon : ':' ∉ t) : isNumericHost t = true := by
  have hne : splitDots t ≠ [] := by simp [splitDots]
  have hlast := hlabels _ (List.getLast_mem hne)
  have hnil : (splitDots t).getLast hne ≠ [] := by
    intro h
    rw [h] at hlast
    exact absurd hlast (by decide)
  have hlabel : lastLabel t = (splitDots t).getLast hne := by
    simp [lastLabel, List.getLast?_eq_some_getLast hne, hnil]
  rw [isNumericHost_eq, isNumericLabel, hlabel, hlast]
  simp [hcolon]

/-- A host that is no IPv6 text, no range and not numeric is left to the parser. -/
theorem isNumericHost_of_anchorIp (hcolon : ':' ∉ t) (hslash : '/' ∉ t)
    (h : pfbDnsblAnchorIp T t ≠ .none) : isNumericHost t = true := by
  rw [anchorIp_of_plain (stripTrailingPort_of_not_mem hcolon) hcolon hslash] at h
  cases hunpad : pfbIpv4Unpad t with
  | some quad =>
      obtain ⟨octets, hquad, -⟩ := pfbIpv4Unpad_eq_some_iff.mp hunpad
      exact isNumericHost_of_digits hquad.labels hcolon
  | none =>
      rw [hunpad] at h
      dsimp only at h
      split at h
      case isTrue hv4 =>
        obtain ⟨octets, hread⟩ := Option.isSome_iff_exists.mp hv4
        obtain ⟨-, -, hsplit⟩ := readQuad_eq_some hread
        refine isNumericHost_of_digits (fun label hlabel => ?_) hcolon
        rw [hsplit] at hlabel
        obtain ⟨o, -, rfl⟩ := List.mem_map.mp hlabel
        simp [isAsciiDigits, octetText_clean o]
      case isFalse =>
        rw [← isSome_pfbIpv4NumericHost]
        cases hnumeric : pfbIpv4NumericHost t with
        | some ip => rfl
        | none =>
            rw [hnumeric] at h
            exact absurd rfl h

/-- A spelling of an address is taken, its port dropped, and a prefix with a final dot rejected. -/
theorem anchorIp_of_spells {host : Str} {count address : Nat} {finalDot : Bool}
    (hport : pfbStripTrailingPort T t = host) (h : Spells host count finalDot address)
    (hquad : ∀ octets, ¬ DecimalQuad host octets) :
    pfbDnsblAnchorIp T t =
      if finalDot = true ∧ count < 4 then .invalid else .address (long2ip address) := by
  have hunpad : pfbIpv4Unpad host = none := by
    rw [Option.eq_none_iff_forall_ne_some]
    intro quad hsome
    obtain ⟨octets, hdecimal, -⟩ := pfbIpv4Unpad_eq_some_iff.mp hsome
    exact hquad octets hdecimal
  rw [anchorIp_of_plain hport (not_mem_of_spells h (by simp)) (not_mem_of_spells h (by simp)),
    hunpad, pfbIpv4NumericHost_of_spells h]
  by_cases hv4 : isIpaddrv4 host = true
  · obtain ⟨octets, hread⟩ := Option.isSome_iff_exists.mp hv4
    obtain ⟨hcount, hself⟩ := long2ip_of_quad h hread
    simp [hv4, hcount, ← hself]
  · by_cases hstart : finalDot = true ∧ count < 4
    · simp [hv4, hstart]
    · simp [hv4, hstart]

/-- A padded quad is taken with its octets read as decimal. -/
theorem anchorIp_of_decimalQuad {host : Str} {octets : List Nat}
    (hport : pfbStripTrailingPort T t = host) (h : DecimalQuad host octets) :
    pfbDnsblAnchorIp T t = .address (quadText octets) := by
  have hnot : ∀ {c}, c ≠ '.' → isAsciiDigit c = false → c ∉ host := by
    intro c hdot hdigit hmem
    rcases h.chars c hmem with heq | hc
    · exact hdot heq
    · rw [hdigit] at hc
      cases hc
  rw [anchorIp_of_plain hport (hnot (by decide) (by decide)) (hnot (by decide) (by decide)),
    pfbIpv4Unpad_eq_some_iff.mpr ⟨octets, h, rfl⟩]

/-- A bracketed IPv6 literal is unwrapped. -/
theorem anchorIp_of_brackets {inner : Str} (hv6 : T.isIpaddrv6 inner = true)
    (hport : pfbStripTrailingPort T t = '[' :: (inner ++ [']'])) :
    pfbDnsblAnchorIp T t = .address inner := by
  have hcidr : pfbDnsblCidr T ('[' :: (inner ++ [']'])) = none := by
    unfold pfbDnsblCidr
    cases hcut : cutLast '/' ('[' :: (inner ++ [']'])) with
    | none => rfl
    | some cut =>
        obtain ⟨net, mask⟩ := cut
        have hmask : isAsciiDigits mask = false := by
          have hlast := congrArg List.getLast? (cutLast_eq_some hcut)
          rw [List.getLast?_append_of_ne_nil net (List.cons_ne_nil _ _), ← List.cons_append,
            List.getLast?_concat] at hlast
          cases mask with
          | nil => rfl
          | cons d mask =>
              have hmem : ']' ∈ d :: mask := List.mem_of_getLast? (by
                rw [List.getLast?_cons_cons] at hlast
                exact hlast.symm)
              by_contra hdigits
              rw [Bool.not_eq_false, isAsciiDigits, Bool.and_eq_true, List.all_eq_true] at hdigits
              exact absurd (hdigits.2 _ hmem) (by decide)
        simp [hmask]
  have hbracket : pfbDnsblUnbracketIp6 T ('[' :: (inner ++ [']'])) = inner := by
    have hends : endsWith "]".toList ('[' :: (inner ++ [']'])) = true := by
      rw [endsWith, List.isSuffixOf_iff_suffix]
      exact ⟨'[' :: inner, by simp⟩
    have hinner : (('[' :: (inner ++ [']'])).drop 1).dropLast = inner := by simp
    unfold pfbDnsblUnbracketIp6
    rw [hends, hinner]
    dsimp only
    rw [hv6]
    rfl
  have hunpad : pfbIpv4Unpad inner = none := by
    rw [Option.eq_none_iff_forall_ne_some]
    intro quad hsome
    obtain ⟨octets, hquad, -⟩ := pfbIpv4Unpad_eq_some_iff.mp hsome
    rcases hquad.chars _ (T.colon_of_ipaddrv6 hv6) with hdot | hdigit
    · exact absurd hdot (by decide)
    · exact absurd hdigit (by decide)
  unfold pfbDnsblAnchorIp
  dsimp only
  rw [hport, hcidr]
  dsimp only
  rw [hbracket, hunpad, Option.getD_none, hv6, Bool.or_true, if_pos rfl]

end Firewall

/-! The parser's side. -/

section Parser

variable {u : Unicode} {row : RowInfo} {rest : Str}

theorem bar_plain : isSpace '|' = false ∧ isTrimmed '|' = false := by decide

/-- A line that starts with an anchor keeps it when blanks are stripped. -/
theorem strip_anchor {p : Char → Bool} (hp : p '|' = false) (rest : Str) :
    rstripWhile p (lstripWhile p ('|' :: '|' :: rest)) = '|' :: '|' :: rstripWhile p rest := by
  have hleft : lstripWhile p ('|' :: '|' :: rest) = ['|', '|'] ++ rest :=
    List.dropWhile_cons_of_neg (by simp [hp])
  rw [hleft, rstripWhile_append (a := ['|', '|']) ⟨['|'], '|', rfl, hp⟩]
  rfl

theorem kept_of_parseAbp {rule : Rule}
    (h : (parseAbp u row ('|' :: '|' :: rest)).kept = some rule) :
    (networkRule u row .block (rstripWhile isSpace rest)).kept = some rule := by
  have hregex : parseAbpRegex ('|' :: '|' :: rstripWhile isSpace rest) = none := by
    simp [parseAbpRegex, startsWith]
  unfold parseAbp at h
  dsimp only at h
  rw [strip, strip_anchor bar_plain.1, hregex] at h
  split at h
  · cases h
  · split at h
    · cases h
    · simpa [startsWith] using h

/-- What a kept anchor says of its host. -/
theorem of_networkRule {rule : Rule} (h : (networkRule u row .block rest).kept = some rule) :
    '/' ∉ anchorHost rest ∧ isNumericHost (anchorHost rest) = false ∧
      ∃ domain, normaliseVerdict u (anchorHost rest) false = .ok domain := by
  unfold networkRule at h
  unfold anchorHost
  generalize partition '$' rest = options at h ⊢
  obtain ⟨anchor, found, optsStr⟩ := options
  dsimp only at h ⊢
  generalize partition '^' anchor = separated at h ⊢
  obtain ⟨host, found', tail⟩ := separated
  dsimp only at h ⊢
  split at h
  · cases h
  rename_i hpath
  split at h
  · cases h
  rename_i hnumeric
  refine ⟨?_, by simpa using hnumeric, ?_⟩
  · simp only [Bool.or_eq_true, not_or] at hpath
    simpa using hpath.1.1.1
  · unfold domainRule at h
    split at h
    · cases h
    · next domain hok => exact ⟨domain, hok⟩

theorem partition_rstrip {p : Char → Bool} {c : Char} (hc : p c = false) (s : Str) :
    (partition c (rstripWhile p s)).1 = (partition c s).1 ∨
      ((partition c s).1 = s ∧ (partition c (rstripWhile p s)).1 = rstripWhile p s) := by
  by_cases hmem : c ∈ s
  · refine Or.inl ?_
    have hfound : (partition c s).2.1 = true := by
      by_contra hnot
      exact (partition_found_eq_false_iff c s).mp (by simpa using hnot) hmem
    generalize hcut : partition c s = cut at hfound ⊢
    obtain ⟨head, found, tail⟩ := cut
    obtain rfl : found = true := hfound
    obtain ⟨hs, hnot⟩ := (partition_eq_found_iff c s head tail).mp hcut
    have hstrip : rstripWhile p s = head ++ c :: rstripWhile p tail := by
      have hregroup : s = (head ++ [c]) ++ tail := by simp [hs]
      rw [hregroup, rstripWhile_append ⟨head, c, rfl, hc⟩]
      simp
    rw [(partition_eq_found_iff c _ head (rstripWhile p tail)).mpr ⟨hstrip, hnot⟩]
  · refine Or.inr ⟨partition_fst_of_not_mem hmem, partition_fst_of_not_mem ?_⟩
    obtain ⟨back, hs, -⟩ := rstripWhile_split p s
    intro hstrip
    exact hmem (by rw [hs]; exact List.mem_append_left _ hstrip)

/-- What is stripped off the line is stripped off the host, where nothing follows it. -/
theorem anchorHost_rstrip {p : Char → Bool} (hseparator : p '^' = false) (hoption : p '$' = false)
    (rest : Str) : anchorHost (rstripWhile p rest) = anchorHost rest ∨
      anchorHost (rstripWhile p rest) = rstripWhile p (anchorHost rest) := by
  unfold anchorHost
  rcases partition_rstrip hoption rest with hsame | ⟨hall, hstrip⟩
  · rw [hsame]
    exact Or.inl rfl
  · rw [hall, hstrip]
    rcases partition_rstrip hseparator rest with hsame | ⟨hall', hstrip'⟩
    · exact Or.inl hsame
    · rw [hall', hstrip']
      exact Or.inr rfl

/-- `trim()` of the host: what is left, between blanks. -/
theorem trim_split (s : Str) : ∃ front back, s = front ++ trim s ++ back ∧
    (∀ c ∈ front, isTrimmed c = true) ∧ ∀ c ∈ back, isTrimmed c = true := by
  obtain ⟨front, hs, hfront⟩ := lstripWhile_split isTrimmed s
  obtain ⟨back, hleft, hback⟩ := rstripWhile_split isTrimmed (lstripWhile isTrimmed s)
  refine ⟨front, back, ?_, hfront, hback⟩
  rw [trim, List.append_assoc, ← hleft, ← hs]

/-- The host the firewall pass reads, within the host of the line. -/
theorem exists_around_host (rest : Str) : ∃ front back,
    anchorHost rest = front ++ trim (anchorHost (rstripWhile isTrimmed rest)) ++ back ∧
      (∀ c ∈ front, isTrimmed c = true) ∧ ∀ c ∈ back, isTrimmed c = true := by
  obtain ⟨front, back, hsplit, hfront, hback⟩ :=
    trim_split (anchorHost (rstripWhile isTrimmed rest))
  rcases anchorHost_rstrip (p := isTrimmed) (by decide) (by decide) rest with hsame | hstrip
  · exact ⟨front, back, hsame.symm.trans hsplit, hfront, hback⟩
  · obtain ⟨tail, htail, hblank⟩ := rstripWhile_split isTrimmed (anchorHost rest)
    refine ⟨front, back ++ tail, ?_, hfront, ?_⟩
    · rw [← List.append_assoc, ← hsplit, hstrip, ← htail]
    · intro c hc
      rcases List.mem_append.mp hc with hc | hc
      · exact hback c hc
      · exact hblank c hc

theorem extractIp_anchor (T : IpTests) (rest : Str) :
    pfbDnsblAbpExtractIp T ('|' :: '|' :: rest) =
      pfbDnsblAnchorIp T (trim (anchorHost (rstripWhile isTrimmed rest))) := by
  unfold pfbDnsblAbpExtractIp
  dsimp only
  rw [trim, strip_anchor bar_plain.2, if_neg (by simp)]
  simp [startsWith]

end Parser

/-- A canonical quad with blanks between it and what follows it in the stripped line. -/
def BlankAfterQuad (u : Unicode) (host : Str) : Prop :=
  (∃ c, host.getLast? = some c ∧ isTrimmed c = true) ∧
    isIpv4 (u.lower (stripDots (strip host))) = true

/-- The parser reads the host of the line, or that without the white space at its end. -/
theorem exists_parsed_host (rest : Str) : ∃ white,
    anchorHost rest = anchorHost (rstripWhile isSpace rest) ++ white ∧
      (∀ c ∈ white, isSpace c = true) ∧
        (white = [] ∨ anchorHost (rstripWhile isSpace rest) =
          rstripWhile isSpace (anchorHost rest)) := by
  rcases anchorHost_rstrip (p := isSpace) (by decide) (by decide) rest with hsame | hstrip
  · exact ⟨[], by rw [hsame, List.append_nil], by simp, Or.inl rfl⟩
  · obtain ⟨white, hwhite, hspace⟩ := rstripWhile_split isSpace (anchorHost rest)
    exact ⟨white, by rw [hstrip]; exact hwhite, hspace, Or.inr hstrip⟩

/-- A character that is neither white space nor a dot stays when the host is normalised. -/
theorem mem_normalised {u : Unicode} (hlower : LowersAscii u) {c : Char} {value : Str}
    (hc : c ∈ value) (hspace : isSpace c = false) (hdot : c ≠ '.') (hascii : isAscii c = true)
    (hsame : asciiLower c = c) : c ∈ u.lower (stripDots (strip value)) := by
  have hkeep : ∀ {p : Char → Bool} {s : Str}, p c = false → c ∈ s →
      c ∈ rstripWhile p (lstripWhile p s) := by
    intro p s hp hs
    obtain ⟨front, hleft, hfront⟩ := lstripWhile_split p s
    obtain ⟨back, hright, hback⟩ := rstripWhile_split p (lstripWhile p s)
    rw [hleft, hright] at hs
    rcases List.mem_append.mp hs with hs | hs
    · simp [hfront c hs] at hp
    · rcases List.mem_append.mp hs with hs | hs
      · exact hs
      · simp [hback c hs] at hp
  have hmem : c ∈ stripDots (strip value) :=
    hkeep (p := (· == '.')) (by simpa using hdot) (hkeep hspace hc)
  obtain ⟨before, after, hsplit⟩ := List.append_of_mem hmem
  obtain ⟨before', after', hlow, -⟩ := hlower.segment before [c] after (by simp [hascii])
  have hregroup : before ++ c :: after = before ++ [c] ++ after := by simp
  rw [hsplit, hregroup, hlow]
  simp [hsame]

/-- The firewall pass and the parser take different lines. -/
theorem one_side (T : IpTests) {u : Unicode} (hlower : LowersAscii u) (row : RowInfo) {rest : Str}
    (hblank : ¬ BlankAfterQuad u (anchorHost (rstripWhile isSpace rest)))
    (hip : pfbDnsblAbpExtractIp T ('|' :: '|' :: rest) ≠ .none) :
    (parseAbp u row ('|' :: '|' :: rest)).kept = none := by
  rw [extractIp_anchor] at hip
  obtain ⟨front, back, hhost, hfront, hback⟩ := exists_around_host rest
  generalize trim (anchorHost (rstripWhile isTrimmed rest)) = t at hip hhost
  rw [Option.eq_none_iff_forall_ne_some]
  intro rule hrule
  obtain ⟨hslash, hnumeric, domain, hok⟩ := of_networkRule (kept_of_parseAbp hrule)
  obtain ⟨white, hwhite, hspace, hparsed⟩ := exists_parsed_host rest
  have hmem : ∀ {c}, isSpace c = false → c ∈ t → c ∈ anchorHost (rstripWhile isSpace rest) := by
    intro c hc hct
    have hraw : c ∈ anchorHost rest := by
      rw [hhost]
      simp [hct]
    rw [hwhite] at hraw
    rcases List.mem_append.mp hraw with hraw | hraw
    · exact hraw
    · rw [hspace c hraw] at hc
      cases hc
  have htslash : '/' ∉ t := fun h => hslash (hmem (by decide) h)
  have htcolon : ':' ∉ t := by
    intro h
    have hkept := mem_normalised hlower (hmem (by decide) h) (by decide) (by decide) (by decide)
      (by decide)
    rcases (of_normaliseVerdict hok).2.2 _ hkept with hdot | hlabel
    · exact absurd hdot (by decide)
    · exact absurd hlabel (by decide)
  have htnumeric := isNumericHost_of_anchorIp htcolon htslash hip
  rcases hparsed with rfl | hstrip
  · rw [List.append_nil] at hwhite
    rw [← hwhite, hhost] at hnumeric hok
    obtain ⟨-, hbare, hquad⟩ := quad_of_accepted hlower hfront hback htnumeric hok
    by_cases hnil : back = []
    · rw [hnil, List.append_nil, hbare] at hnumeric
      cases hnumeric
    · obtain ⟨init, c, hlast⟩ := exists_concat_of_ne_nil hnil
      rw [← hwhite, hhost] at hblank
      refine hblank ⟨⟨c, ?_, hback c (by simp [hlast])⟩, hquad⟩
      rw [hlast, ← List.append_assoc, List.getLast?_concat]
  · obtain ⟨init, c, hlast, hc⟩ := last_of_numeric htnumeric
    have hend : ∃ init c, front ++ t = init ++ [c] ∧ isSpace c = false :=
      ⟨front ++ init, c, by rw [hlast, List.append_assoc], hc⟩
    rw [hstrip, hhost, rstripWhile_append hend] at hnumeric hok
    have hback' : ∀ d ∈ rstripWhile isSpace back, isTrimmed d = true := by
      intro d hd
      obtain ⟨tail, htail, -⟩ := rstripWhile_split isSpace back
      exact hback d (by rw [htail]; exact List.mem_append_left _ hd)
    obtain ⟨hwhite', hbare, -⟩ := quad_of_accepted hlower hfront hback' htnumeric hok
    rw [rstripWhile_rstripWhile] at hwhite'
    rw [hwhite', List.append_nil, hbare] at hnumeric
    cases hnumeric

/-- A line whose host the firewall pass takes or rejects gives no rule, unless a blank follows a
canonical quad. A spelling of an address is taken as that address, but a quad of digits as its
decimal octets and a prefix with a final dot not at all; a bracketed IPv6 literal is unwrapped. -/
theorem anchor_goes_to_one_side (T : IpTests) {u : Unicode} (hlower : LowersAscii u)
    (row : RowInfo) {line : Str} (hline : startsWith "||".toList line = true) :
    let host := pfbStripTrailingPort T (trim (anchorHost ((trim line).drop 2)))
    (¬ BlankAfterQuad u (anchorHost ((strip line).drop 2)) →
      pfbDnsblAbpExtractIp T line ≠ .none → (parseAbp u row line).kept = none) ∧
    (∀ count finalDot address, Spells host count finalDot address →
      (∀ octets, ¬ DecimalQuad host octets) → pfbDnsblAbpExtractIp T line =
        if finalDot = true ∧ count < 4 then .invalid else .address (long2ip address)) ∧
    (∀ octets, DecimalQuad host octets →
      pfbDnsblAbpExtractIp T line = .address (quadText octets)) ∧
    (∀ inner, T.isIpaddrv6 inner = true → host = '[' :: (inner ++ [']']) →
      pfbDnsblAbpExtractIp T line = .address inner) := by
  obtain ⟨rest, rfl⟩ : ∃ rest, line = '|' :: '|' :: rest := by
    obtain ⟨rest, hrest⟩ := List.isPrefixOf_iff_prefix.mp hline
    exact ⟨rest, hrest.symm⟩
  have htrim : trim (anchorHost ((trim ('|' :: '|' :: rest)).drop 2)) =
      trim (anchorHost (rstripWhile isTrimmed rest)) := by
    have hline : trim ('|' :: '|' :: rest) = '|' :: '|' :: rstripWhile isTrimmed rest :=
      strip_anchor bar_plain.2 rest
    rw [hline]
    rfl
  intro host
  have hport : pfbStripTrailingPort T (trim (anchorHost (rstripWhile isTrimmed rest))) = host := by
    rw [← htrim]
  have hstrip : (strip ('|' :: '|' :: rest)).drop 2 = rstripWhile isSpace rest := by
    rw [strip, strip_anchor bar_plain.1 rest]
    rfl
  refine ⟨fun hblank hip => one_side T hlower row (hstrip ▸ hblank) hip, ?_, ?_, ?_⟩
  · intro count finalDot address hspells hquad
    rw [extractIp_anchor]
    exact anchorIp_of_spells hport hspells hquad
  · intro octets hquad
    rw [extractIp_anchor]
    exact anchorIp_of_decimalQuad hport hquad
  · intro inner hv6 hhost
    rw [extractIp_anchor]
    exact anchorIp_of_brackets hv6 (hport.trans hhost)

theorem lowersAscii_asciiOnly : LowersAscii asciiOnly where
  segment before text after _ :=
    ⟨before.map asciiLower, after.map asciiLower, by simp [asciiOnly], by simp, by simp⟩

/-- Addresses of eight groups, and no subnets. -/
def fullFormTests : IpTests where
  isIpaddrv6 t := (fullFormPton t).isSome
  isSubnet _ := false
  colon_of_ipaddrv6 h := by
    obtain ⟨octets, hpton⟩ := Option.isSome_iff_exists.mp h
    exact fullForm.colon_of_pton hpton

theorem anchor_goes_to_one_side_hex :
    let line := "||0xC0A80164:8080^$important".toList
    pfbDnsblAbpExtractIp fullFormTests line = .address "192.168.1.100".toList ∧
      (parseAbp asciiOnly ⟨.feed, [], [], []⟩ line).kept = none := by
  intro line
  have hspells : Spells "0xC0A80164".toList 1 false 3232235876 :=
    ⟨["0xC0A80164".toList], [], 3232235876, .bare (by decide),
      .cons (@Reads.hex 'x' "C0A80164".toList (Or.inl rfl) (by decide)) .nil, rfl,
      by decide, by simp, by decide, by decide⟩
  have hquad : ∀ octets, ¬ DecimalQuad "0xC0A80164".toList octets :=
    fun octets h => absurd (h.labels "0xC0A80164".toList (by decide)) (by decide)
  obtain ⟨hside, hspelling, -⟩ := @anchor_goes_to_one_side fullFormTests asciiOnly
    lowersAscii_asciiOnly ⟨.feed, [], [], []⟩ line (by decide)
  have hip := hspelling 1 false 3232235876 hspells hquad
  have hblank : ¬ BlankAfterQuad asciiOnly (anchorHost ((strip line).drop 2)) :=
    fun h => absurd h.2 (by decide)
  exact ⟨hip, hside hblank (by rw [hip]; decide)⟩

/-- A padded quad is read as decimal, not with octal octets. -/
theorem padded_octets_are_decimal :
    Spells "192.168.010.1".toList 4 false 3232237569 ∧
      long2ip 3232237569 = "192.168.8.1".toList ∧
      pfbDnsblAbpExtractIp fullFormTests "||192.168.010.1^".toList =
        .address "192.168.10.1".toList := by
  refine ⟨⟨["192".toList, "168".toList, "010".toList, "1".toList], [192, 168, 8], 1,
    .bare (by decide), ?_, rfl, by decide, by decide, by decide, by decide⟩, by decide, by decide⟩
  exact .cons (@Reads.decimal '1' "92".toList (by decide) (by decide))
    (.cons (@Reads.decimal '1' "68".toList (by decide) (by decide))
      (.cons (@Reads.octal "10".toList (by decide) (by decide))
        (.cons (@Reads.decimal '1' [] (by decide) (by decide)) .nil)))

end PfBlockerNG.AbpAnchorSides
