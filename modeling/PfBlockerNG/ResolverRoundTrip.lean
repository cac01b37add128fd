import PfBlockerNG.ResolverTakeover

/-!
Any number of moves and one restore: the lines of a moved Resolver's Custom Options are the
administrator's, cleaned, and one block, and every move finds them so.
-/

namespace PfBlockerNG.ResolverRoundTrip

open PfBlockerNG.Strings
open PfBlockerNG.PyText
open PfBlockerNG.IpText
open PfBlockerNG.TextArea
open PfBlockerNG.ResolverTakeover

variable {U : TextClasses}

/-- A line that is neither marker, blanks aside. -/
def Unmarked (l : Str) : Prop := trim l ≠ marker ∧ trim l ≠ markerEnd

instance (l : Str) : Decidable (Unmarked l) := inferInstanceAs (Decidable (_ ∧ _))

theorem trim_marker : trim marker = marker := by decide

theorem trim_markerEnd : trim markerEnd = markerEnd := by decide

theorem Unmarked.ne {l : Str} (h : Unmarked l) : l ≠ marker ∧ l ≠ markerEnd := by
  refine ⟨?_, ?_⟩
  · rintro rfl
    exact h.1 trim_marker
  · rintro rfl
    exact h.2 trim_markerEnd

/-- A line that begins with neither a blank nor `#` is unmarked. -/
theorem unmarked_of_head {c : Char} {l : Str} (htrimmed : isTrimmed c = false) (hc : c ≠ '#') :
    Unmarked (c :: l) := by
  have hleft : lstripWhile isTrimmed (c :: l) = c :: l := by
    unfold lstripWhile
    rw [List.dropWhile_cons_of_neg (by simp [htrimmed])]
  have hstart : trim (c :: l) <+: c :: l := by
    unfold trim
    rw [hleft]
    exact List.rdropWhile_prefix _ _
  have hne : ∀ m : Str, trim (c :: l) ≠ '#' :: m := by
    intro m heq
    rw [heq, List.cons_prefix_cons] at hstart
    exact hc hstart.1.symm
  exact ⟨hne _, hne _⟩

theorem span_of_not_mem {m : Str} {xs ys : List Str} (h : ∀ x ∈ xs, x ≠ m) :
    (xs ++ m :: ys).span (· != m) = (xs, m :: ys) := by
  have hpos : ∀ x ∈ xs, (x != m) = true := fun x hx => by simp [h x hx]
  rw [List.span_eq_takeWhile_dropWhile, List.takeWhile_append_of_pos hpos,
    List.dropWhile_append_of_pos hpos]
  simp

/-- A block: its two marker lines with other clean lines between them. -/
structure IsBlock (U : TextClasses) (block : List Str) : Prop where
  lines : ∃ clause, block = serverLine :: marker :: (clause ++ [markerEnd]) ∧
    ∀ l ∈ clause, CleanLine U l ∧ Unmarked l

section Block

/-- Printable ASCII that begins and ends in no blank, and is no comment. -/
def ClauseLine (l : Str) : Prop :=
  (∀ d ∈ l, 32 ≤ d.toNat ∧ d.toNat < 127) ∧ (∀ d, l.getLast? = some d → d ≠ ' ') ∧
    ∃ c rest, l = c :: rest ∧ isTrimmed c = false ∧ c ≠ '#'

theorem ClauseLine.clean {l : Str} (h : ClauseLine l) : CleanLine U l :=
  cleanLine_of_printable h.1 h.2.1

theorem ClauseLine.unmarked {l : Str} (h : ClauseLine l) : Unmarked l := by
  obtain ⟨c, rest, rfl, htrimmed, hc⟩ := h.2.2
  exact unmarked_of_head htrimmed hc

theorem printable_of_all {l : Str}
    (h : (l.all fun d => 32 ≤ d.toNat && d.toNat < 127) = true) :
    ∀ d ∈ l, 32 ≤ d.toNat ∧ d.toNat < 127 := by
  simpa using h

theorem ne_blank_of_last {l : Str} (h : (l.getLast? != some ' ') = true) :
    ∀ d, l.getLast? = some d → d ≠ ' ' := by
  rintro d hd rfl
  simp [hd] at h

theorem clauseLine_edns (size : Nat) :
    ClauseLine ("edns-buffer-size: ".toList ++ Nat.toDigits 10 size) := by
  have hdigit : ∀ d ∈ Nat.toDigits 10 size, 48 ≤ d.toNat ∧ d.toNat ≤ 57 := by
    intro d hd
    have hisDigit := Nat.isDigit_of_mem_toDigits (by decide) (by decide) hd
    simp only [Char.isDigit, Bool.and_eq_true, decide_eq_true_eq, ge_iff_le,
      UInt32.le_iff_toNat_le] at hisDigit
    exact hisDigit
  refine ⟨?_, ?_, 'e', _, rfl, by decide, by decide⟩
  · intro d hd
    rcases List.mem_append.mp hd with hd | hd
    · exact printable_of_all (by decide) d hd
    · have := hdigit d hd
      omega
  · intro d hd
    rw [List.getLast?_append_of_ne_nil _ Nat.toDigits_ne_nil] at hd
    have hge := (hdigit d (List.mem_of_getLast? hd)).1
    rintro rfl
    exact absurd hge (by decide)

theorem printable_of_network {c : Char}
    (h : (isHexDigit c || c == ':' || c == '.' || c == '/') = true) :
    32 ≤ c.toNat ∧ c.toNat < 127 := by
  simp only [isHexDigit, isAsciiDigit, Bool.or_eq_true, Bool.and_eq_true, decide_eq_true_eq,
    beq_iff_eq] at h
  have hbound : ∀ {a b : Char}, 32 ≤ a.toNat → b.toNat < 127 → a ≤ c → c ≤ b →
      32 ≤ c.toNat ∧ c.toNat < 127 :=
    fun ha hb hle hge => ⟨Nat.le_trans ha hle, Nat.lt_of_le_of_lt hge hb⟩
  rcases h with ((h | rfl) | rfl) | rfl
  · rcases h with (h | h) | h <;> exact hbound (by decide) (by decide) h.1 h.2
  · decide
  · decide
  · decide

theorem clauseLine_access (n : Network) :
    ClauseLine ("access-control: ".toList ++ n.text ++ " allow".toList) := by
  refine ⟨?_, ?_, 'a', _, rfl, by decide, by decide⟩
  · intro d hd
    rcases List.mem_append.mp hd with hd | hd
    · rcases List.mem_append.mp hd with hd | hd
      · exact printable_of_all (by decide) d hd
      · exact printable_of_network (n.chars d hd)
    · exact printable_of_all (by decide) d hd
  · intro d hd
    rw [List.getLast?_append_of_ne_nil _ (by decide)] at hd
    exact ne_blank_of_last (by decide) d hd

theorem clauseLine_clauseLines (c : Circumstances) (adminCode : Str) :
    ∀ l ∈ clauseLines c adminCode, ClauseLine l := by
  have hfixed : ∀ l ∈ ["port: 5354".toList, "interface: 127.0.0.1@5353".toList,
      "interface: ::1@5353".toList, "proxy-protocol-port: 5353".toList], ClauseLine l := by
    intro l hl
    simp only [List.mem_cons, List.not_mem_nil, or_false] at hl
    rcases hl with rfl | rfl | rfl | rfl <;>
      exact ⟨printable_of_all (by decide), ne_blank_of_last (by decide), _, _, rfl, by decide,
        by decide⟩
  intro l hl
  rcases List.mem_cons.mp hl with rfl | hl
  · exact hfixed _ (by simp)
  rcases List.mem_append.mp hl with hl | hl
  · split at hl
    · exact hfixed _ (by simp [List.mem_singleton.mp hl])
    · cases hl
  rcases List.mem_cons.mp hl with rfl | hl
  · exact hfixed _ (by simp)
  rcases List.mem_cons.mp hl with rfl | hl
  · exact hfixed _ (by simp)
  rcases List.mem_append.mp hl with hl | hl
  · unfold ednsLine at hl
    split at hl
    · cases hl
    · rw [List.mem_singleton.mp hl]
      exact clauseLine_edns _
  · obtain ⟨n, -, rfl⟩ := List.mem_map.mp hl
    exact clauseLine_access n

theorem isBlock_blockLines (c : Circumstances) (adminCode : Str) :
    IsBlock U (blockLines c adminCode) :=
  ⟨_, rfl, fun l hl =>
    ⟨(clauseLine_clauseLines c adminCode l hl).clean,
      (clauseLine_clauseLines c adminCode l hl).unmarked⟩⟩

theorem IsBlock.clean {block : List Str} (h : IsBlock U block) : ∀ l ∈ block, CleanLine U l := by
  obtain ⟨clause, rfl, hclause⟩ := h.lines
  have hfixed : ∀ l ∈ [serverLine, marker, markerEnd], CleanLine U l := by
    intro l hl
    simp only [List.mem_cons, List.not_mem_nil, or_false] at hl
    rcases hl with rfl | rfl | rfl <;>
      exact cleanLine_of_printable (printable_of_all (by decide)) (ne_blank_of_last (by decide))
  intro l hl
  simp only [List.mem_cons, List.mem_append, List.not_mem_nil, or_false] at hl
  rcases hl with rfl | rfl | hl | rfl
  · exact hfixed _ (by simp)
  · exact hfixed _ (by simp)
  · exact (hclause l hl).1
  · exact hfixed _ (by simp)

variable {admin block : List Str}

theorem findBlock_block (hadmin : ∀ l ∈ admin, Unmarked l) (hblock : IsBlock U block) :
    findBlock (admin ++ block) = some (admin, []) := by
  obtain ⟨clause, rfl, hclause⟩ := hblock.lines
  have hbefore : ∀ l ∈ admin ++ [serverLine], l ≠ marker := by
    intro l hl
    rcases List.mem_append.mp hl with hl | hl
    · exact (hadmin l hl).ne.1
    · rw [List.mem_singleton.mp hl]
      decide
  have hsplit : admin ++ serverLine :: marker :: (clause ++ [markerEnd]) =
      (admin ++ [serverLine]) ++ marker :: (clause ++ [markerEnd]) := by simp
  unfold findBlock
  rw [hsplit, span_of_not_mem hbefore]
  simp only
  rw [span_of_not_mem fun l hl => (hclause l hl).2.ne.2]
  simp

theorem cutBlock_block (hadmin : ∀ l ∈ admin, Unmarked l) (hblock : IsBlock U block) :
    cutBlock (admin ++ block) = admin ++ [[]] := by
  unfold cutBlock
  rw [findBlock_block hadmin hblock]

/-- The markers of a block stand once each, in order, between lines that are not markers. -/
theorem markers_of_block {before between : List Str}
    (hbefore : ∀ l ∈ before, l ≠ marker ∧ l ≠ markerEnd)
    (hbetween : ∀ l ∈ between, l ≠ marker ∧ l ≠ markerEnd) :
    (before ++ marker :: (between ++ [markerEnd])).count marker = 1 ∧
      (before ++ marker :: (between ++ [markerEnd])).count markerEnd = 1 ∧
      (before ++ marker :: (between ++ [markerEnd])).idxOf marker <
        (before ++ marker :: (between ++ [markerEnd])).idxOf markerEnd := by
  have hne : marker ≠ markerEnd := by decide
  have hnone : ∀ m, m = marker ∨ m = markerEnd → m ∉ before ∧ m ∉ between := by
    rintro m (rfl | rfl)
    · exact ⟨fun h => (hbefore _ h).1 rfl, fun h => (hbetween _ h).1 rfl⟩
    · exact ⟨fun h => (hbefore _ h).2 rfl, fun h => (hbetween _ h).2 rfl⟩
  have hstart := hnone marker (Or.inl rfl)
  have hend := hnone markerEnd (Or.inr rfl)
  refine ⟨?_, ?_, ?_⟩
  · simp [List.count_append, List.count_eq_zero.mpr hstart.1, List.count_eq_zero.mpr hstart.2,
      hne.symm]
  · simp [List.count_append, List.count_eq_zero.mpr hend.1, List.count_eq_zero.mpr hend.2,
      hne]
  · rw [List.idxOf_append_of_notMem hstart.1, List.idxOf_append_of_notMem hend.1,
      List.idxOf_cons_self, List.idxOf_cons_ne _ hne]
    omega

theorem onePair_block (hadmin : ∀ l ∈ admin, Unmarked l) (hblock : IsBlock U block) :
    onePair (admin ++ block) = true := by
  obtain ⟨clause, rfl, hclause⟩ := hblock.lines
  have hsplit : admin ++ serverLine :: marker :: (clause ++ [markerEnd]) =
      (admin ++ [serverLine]) ++ marker :: (clause ++ [markerEnd]) := by simp
  have hserver : Unmarked serverLine := by decide
  have hbefore : ∀ l ∈ admin ++ [serverLine], Unmarked l := by
    intro l hl
    rcases List.mem_append.mp hl with hl | hl
    · exact hadmin l hl
    · rwa [List.mem_singleton.mp hl]
  obtain ⟨hcount, hcountEnd, -⟩ := markers_of_block (fun l hl => (hbefore l hl).ne)
    fun l hl => (hclause l hl).2.ne
  have htrimmed : ((admin ++ [serverLine]) ++ marker :: (clause ++ [markerEnd])).map trim =
      (admin ++ [serverLine]).map trim ++ marker :: (clause.map trim ++ [markerEnd]) := by
    simp only [List.map_append, List.map_cons, List.map_nil, trim_marker, trim_markerEnd]
  obtain ⟨htrim, htrimEnd, horder⟩ :=
    @markers_of_block ((admin ++ [serverLine]).map trim) (clause.map trim)
      (List.forall_mem_map.mpr hbefore) (List.forall_mem_map.mpr fun l hl => (hclause l hl).2)
  unfold onePair
  rw [hsplit, htrimmed]
  simp only [hcount, hcountEnd, htrim, htrimEnd, horder, decide_true, beq_self_eq_true,
    Bool.and_self]

/-- A marker line outside the block breaks it. -/
theorem not_whole_of_marked {l : Str} (hl : l ∈ admin) (hmarked : ¬ Unmarked l)
    (hblock : IsBlock U block) : whole (admin ++ block) = false := by
  obtain ⟨clause, rfl, -⟩ := hblock.lines
  have hcount : ∀ m : Str, trim m = m → m = marker ∨ m = markerEnd → trim l = m →
      2 ≤ ((admin ++ serverLine :: marker :: (clause ++ [markerEnd])).map trim).count m := by
    intro m htrim hm hlm
    have hadmin : 0 < (admin.map trim).count m :=
      List.count_pos_iff.mpr (hlm ▸ List.mem_map_of_mem hl)
    have hin : m ∈ serverLine :: marker :: (clause ++ [markerEnd]) := by
      rcases hm with rfl | rfl <;> simp
    have hblock : 0 < ((serverLine :: marker :: (clause ++ [markerEnd])).map trim).count m :=
      List.count_pos_iff.mpr (htrim ▸ List.mem_map_of_mem hin)
    rw [List.map_append, List.count_append]
    omega
  have hstart : marker ∈ (admin ++ serverLine :: marker :: (clause ++ [markerEnd])).map trim :=
    List.mem_map.mpr ⟨marker, by simp, trim_marker⟩
  have hpair : onePair (admin ++ serverLine :: marker :: (clause ++ [markerEnd])) = false := by
    rw [Unmarked, not_and_or, not_not, not_not] at hmarked
    unfold onePair
    dsimp only
    rcases hmarked with hm | hm
    · have htwo := hcount marker trim_marker (Or.inl rfl) hm
      simp only [show (_ == 1) = false from beq_eq_false_iff_ne.mpr (Nat.ne_of_gt htwo),
        Bool.false_and]
    · have htwo := hcount markerEnd trim_markerEnd (Or.inr rfl) hm
      simp only [show (_ == 1) = false from beq_eq_false_iff_ne.mpr (Nat.ne_of_gt htwo),
        Bool.and_false, Bool.false_and]
  unfold whole
  dsimp only
  rw [hpair, List.contains_iff_mem.mpr hstart]
  rfl

theorem findBlock_none {ls : List Str} (h : marker ∉ ls) : findBlock ls = none := by
  have hall : ∀ l ∈ ls, (l != marker) = true := by
    intro l hl
    rw [bne_iff_ne]
    rintro rfl
    exact h hl
  unfold findBlock
  rw [List.span_eq_takeWhile_dropWhile, List.dropWhile_eq_nil_iff.mpr hall]

theorem not_blockPresent {ls : List Str} (h : blockPresent ls = false) : marker ∉ ls := by
  intro hmem
  have htrimmed : marker ∈ ls.map trim := trim_marker ▸ List.mem_map_of_mem hmem
  simp [blockPresent, htrimmed] at h

/-- Without the start marker, a text is whole when it holds no end marker either. -/
theorem unmarked_of_whole {ls : List Str} (hwhole : whole ls = true)
    (habsent : blockPresent ls = false) : ∀ l ∈ ls, Unmarked l := by
  have hmarker : marker ∉ ls.map trim := by simpa [blockPresent] using habsent
  have hcount : (ls.map trim).count marker = 0 := List.count_eq_zero.mpr hmarker
  have hend : markerEnd ∉ ls.map trim := by
    simpa [whole, onePair, hmarker, hcount] using hwhole
  exact fun l hl => ⟨fun heq => hmarker (heq ▸ List.mem_map_of_mem hl),
    fun heq => hend (heq ▸ List.mem_map_of_mem hl)⟩

/-- A text that contains a block has the start marker on a line of its own. -/
theorem marker_mem_of_block {text : Str} (hblock : IsBlock U block)
    (hwithin : unlines block <:+: text) : marker ∈ linesOf text := by
  obtain ⟨clause, rfl, hclause⟩ := hblock.lines
  obtain ⟨before, after, rfl⟩ := hwithin
  have hclean := hblock.clean
  have hrest : unlines (serverLine :: marker :: (clause ++ [markerEnd])) =
      serverLine ++ '\n' :: (marker ++ '\n' :: unlines (clause ++ [markerEnd])) := by
    cases clause <;> simp [unlines, List.intercalate, List.intersperse]
  have hmarker : linesOf marker = [marker] := by decide
  rw [hrest]
  simp only [List.append_assoc, List.cons_append]
  rw [← List.append_assoc before, linesOf_append_newline, linesOf_append_newline, hmarker]
  simp

end Block

section Text

variable {admin block : List Str}

/-- The lines that come before the block when it is appended. -/
def rawLines (custom : Str) : List Str :=
  if custom = [] ∨ custom.getLast? = some '\n' then (linesOf custom).dropLast else linesOf custom

theorem mem_linesOf_of_rawLines {custom l : Str} (h : l ∈ rawLines custom) :
    l ∈ linesOf custom := by
  unfold rawLines at h
  split at h
  · exact List.mem_of_mem_dropLast h
  · exact h

/-- What follows the lines before the block: nothing, or the last line end. -/
theorem linesOf_eq_rawLines (custom : Str) :
    linesOf custom = rawLines custom ∨ linesOf custom = rawLines custom ++ [[]] := by
  unfold rawLines
  split
  case isFalse => exact Or.inl rfl
  case isTrue h =>
    refine Or.inr ?_
    rcases h with rfl | h
    · rfl
    · obtain ⟨init, rfl⟩ := List.getLast?_eq_some_iff.mp h
      rw [linesOf_append_newline]
      simp [linesOf]

theorem putBlock_append {custom : Str} (hnone : findBlock (linesOf custom) = none)
    (hblock : IsBlock U block) : putBlock custom block = unlines (rawLines custom ++ block) := by
  have hlines : linesOf (unlines block) = block := by
    obtain ⟨clause, rfl, -⟩ := hblock.lines
    exact linesOf_unlines (fun l hl => (hblock.clean l hl).newline) (by simp)
  unfold putBlock rawLines
  rw [hnone]
  dsimp only
  split
  case isTrue h =>
    rcases h with rfl | h
    · rfl
    · obtain ⟨init, rfl⟩ := List.getLast?_eq_some_iff.mp h
      have hinit : linesOf (init ++ ['\n']) = linesOf init ++ [[]] := by
        rw [linesOf_append_newline]
        rfl
      rw [hinit, List.dropLast_concat, ← unlines_linesOf (init ++ ['\n'] ++ unlines block),
        List.append_assoc, List.singleton_append, linesOf_append_newline, hlines]
  case isFalse h =>
    rw [← unlines_linesOf (custom ++ '\n' :: unlines block), linesOf_append_newline, hlines]

theorem not_mem_unlines {c : Char} {ls : List Str} (hc : c ≠ '\n') (h : ∀ l ∈ ls, c ∉ l) :
    c ∉ unlines ls := by
  intro hmem
  rcases mem_intercalate hmem with heq | ⟨l, hl, hcl⟩
  · exact hc heq
  · exact h l hl hcl

/-- The block is stored as it stands after the cleaned lines. -/
theorem pfbSanitizeTextArea_block {ls : List Str} (hraw : ∀ l ∈ ls, '\n' ∉ l ∧ '\r' ∉ l)
    (hblock : IsBlock U block) :
    pfbSanitizeTextArea U (unlines (ls ++ block)) = unlines (ls.map (cleanLine U) ++ block) := by
  have hnewline : ∀ l ∈ ls ++ block, '\n' ∉ l := by
    intro l hl
    rcases List.mem_append.mp hl with hl | hl
    · exact (hraw l hl).1
    · exact (hblock.clean l hl).newline
  have hcr : '\r' ∉ unlines (ls ++ block) := by
    refine not_mem_unlines (by decide) fun l hl => ?_
    rcases List.mem_append.mp hl with hl | hl
    · exact (hraw l hl).2
    · exact (hblock.clean l hl).no_cr
  have hne : ls ++ block ≠ [] := by
    obtain ⟨clause, rfl, -⟩ := hblock.lines
    simp
  have hmap : block.map (cleanLine U) = block :=
    (List.map_congr_left fun l hl => (hblock.clean l hl).eq).trans (List.map_id block)
  rw [pfbSanitizeTextArea_eq (by rwa [crlfToLf_of_not_mem hcr]), crlfToLf_of_not_mem hcr,
    linesOf_unlines hnewline hne, List.map_append, hmap]

theorem unlines_append {xs ys : List Str} (hxs : xs ≠ []) (hys : ys ≠ []) :
    unlines (xs ++ ys) = unlines xs ++ '\n' :: unlines ys := by
  induction xs with
  | nil => exact absurd rfl hxs
  | cons x xs ih =>
      cases xs with
      | nil =>
          cases ys with
          | nil => exact absurd rfl hys
          | cons y ys => simp [unlines, List.intercalate, List.intersperse]
      | cons x' xs =>
          have htail : unlines (x' :: xs ++ ys) = unlines (x' :: xs) ++ '\n' :: unlines ys :=
            ih (by simp)
          have hcons : ∀ zs : List Str, unlines (x :: x' :: zs) =
              x ++ '\n' :: unlines (x' :: zs) := by
            intro zs
            simp [unlines, List.intercalate, List.intersperse]
          rw [List.cons_append, List.cons_append, hcons, hcons, ← List.cons_append, htail]
          simp

theorem infix_unlines_append (xs : List Str) {ys : List Str} (hys : ys ≠ []) :
    unlines ys <:+: unlines (xs ++ ys) := by
  cases xs with
  | nil => exact List.infix_refl _
  | cons x xs =>
      rw [unlines_append (List.cons_ne_nil x xs) hys]
      exact ⟨unlines (x :: xs) ++ ['\n'], [], by simp⟩

end Text

/-! What a run of moves leaves. -/

/-- Custom Options, empty where the key is absent. -/
def customText (r : Resolver) : Str := r.customOptions.getD []

variable (U) in
/-- The lines before the block of a moved Resolver. -/
def adminLines (text : Str) : List Str := (rawLines (crlfToLf text)).map (cleanLine U)

variable (U) in
/-- The text of a moved Resolver with its block cut out. -/
def leftOver (text : Str) : Str := unlines (adminLines U text ++ [[]])

/-- The cleaned text has a listener directive only where the administrator's has one. -/
def UncoversNoListener (U : TextClasses) (text : Str) : Prop :=
  listenerDirective (directiveText (crlfToLf text)).1 = none →
    listenerDirective (directiveText (leftOver U text)).1 = none

instance (U : TextClasses) (text : Str) : Decidable (UncoversNoListener U text) :=
  inferInstanceAs (Decidable (_ → _))

/-- The move reads the cleaned text as it read the administrator's. -/
structure CleaningUncoversNothing (U : TextClasses) (text : Str) : Prop where
  marker : (∀ l ∈ linesOf (crlfToLf text), Unmarked l) → ∀ l ∈ adminLines U text, Unmarked l
  listener : UncoversNoListener U text
  edns : setsEdnsSize (directiveText (leftOver U text)).1 =
    setsEdnsSize (directiveText (crlfToLf text)).1

/-- A Resolver that moves have moved from `orig`. -/
structure Moved (U : TextClasses) (orig : Resolver) (cfg : Config) : Prop where
  unmarked : ∀ l ∈ adminLines U (customText orig), Unmarked l
  listener : listenerDirective (directiveText (leftOver U (customText orig))).1 = none
  saved : cfg.saved = .snapshot orig
  seeded : cfg.seeded = true
  interface : cfg.resolver.activeInterface = some lo0
  enablessl : cfg.resolver.enablessl = none
  custom : ∃ block, IsBlock U block ∧
    cfg.resolver.customOptions = some (unlines (adminLines U (customText orig) ++ block))

/-- A move that reports why it changed nothing. -/
structure Rejected (cfg : Config) (out : Outcome) : Prop where
  config : out.config = cfg
  returned : out.returned = false
  written : out.written = false
  reported : out.refusal.isSome ∨ out.unsafeLine.isSome

theorem rejected_refuse (cfg : Config) (why : Refusal) : Rejected cfg (refuse cfg why) :=
  ⟨rfl, rfl, rfl, Or.inl rfl⟩

section Runs

variable {orig : Resolver} {cfg : Config} {block : List Str}

theorem adminLines_clean (text : Str) : ∀ l ∈ adminLines U text, CleanLine U l := by
  intro l hl
  obtain ⟨raw, hraw, rfl⟩ := List.mem_map.mp hl
  exact cleanLine_clean (not_mem_of_mem_linesOf (mem_linesOf_of_rawLines hraw))

/-- The stored text of a moved Resolver, line by line. -/
theorem linesOf_moved (text : Str) (hblock : IsBlock U block) :
    crlfToLf (unlines (adminLines U text ++ block)) = unlines (adminLines U text ++ block) ∧
      linesOf (unlines (adminLines U text ++ block)) = adminLines U text ++ block := by
  have hclean : ∀ l ∈ adminLines U text ++ block, CleanLine U l := by
    intro l hl
    rcases List.mem_append.mp hl with hl | hl
    · exact adminLines_clean text l hl
    · exact hblock.clean l hl
  have hne : adminLines U text ++ block ≠ [] := by
    obtain ⟨clause, rfl, -⟩ := hblock.lines
    simp
  exact ⟨crlfToLf_of_not_mem (not_mem_unlines (by decide) fun l hl => (hclean l hl).no_cr),
    linesOf_unlines (fun l hl => (hclean l hl).newline) hne⟩

/-- A later move is rejected or sets the block again. -/
theorem move_of_moved (h : Moved U orig cfg) (c : Circumstances) :
    Rejected cfg (move U cfg c) ∨ move U cfg c =
      applyMove U cfg false (customText cfg.resolver)
        (directiveText (leftOver U (customText orig))).1 c := by
  obtain ⟨block, hblock, hcustom⟩ := h.custom
  obtain ⟨hcrlf, hlines⟩ := linesOf_moved (customText orig) hblock
  have hwhole : whole (adminLines U (customText orig) ++ block) = true := by
    simp [whole, onePair_block h.unmarked hblock]
  have hlistener := h.listener
  have htext : customText cfg.resolver = unlines (adminLines U (customText orig) ++ block) := by
    rw [customText, hcustom]
    rfl
  unfold move
  dsimp only
  rw [← customText, htext, hcrlf, hlines, hwhole, cutBlock_block h.unmarked hblock, ← leftOver]
  cases hconflict : listenPortConflict c.listenPort with
  | some port =>
      rw [h.saved]
      exact Or.inl ⟨rfl, rfl, rfl, Or.inr rfl⟩
  | none =>
      generalize directiveText (leftOver U (customText orig)) = scan at hlistener ⊢
      obtain ⟨code, unclosed⟩ := scan
      cases unclosed with
      | true => exact Or.inl (rejected_refuse cfg _)
      | false =>
          dsimp only at hlistener ⊢
          rw [hlistener, h.saved]
          exact Or.inr rfl

/-- The same block again leaves a moved Resolver as it is. -/
theorem applyMove_kept (h : Moved U orig cfg) {adminCode : Str} {c : Circumstances}
    (hkept : unlines (blockLines c adminCode) <:+: customText cfg.resolver) :
    applyMove U cfg false (customText cfg.resolver) adminCode c =
      ⟨cfg, false, false, none, none⟩ := by
  obtain ⟨resolver, saved, seeded⟩ := cfg
  obtain ⟨activeInterface, enablessl, customOptions⟩ := resolver
  obtain rfl : activeInterface = some lo0 := h.interface
  obtain rfl : enablessl = none := h.enablessl
  obtain rfl : seeded = true := h.seeded
  simp [applyMove, hkept]

/-- Another block takes the place of the one there. -/
theorem applyMove_replaced (h : Moved U orig cfg) {adminCode : Str} {c : Circumstances}
    (hkept : ¬ unlines (blockLines c adminCode) <:+: customText cfg.resolver) :
    applyMove U cfg false (customText cfg.resolver) adminCode c =
      ⟨{ cfg with resolver := { cfg.resolver with
          customOptions := some (unlines (adminLines U (customText orig) ++
            blockLines c adminCode)) } }, true, true, none, none⟩ := by
  obtain ⟨block, hblock, hcustom⟩ := h.custom
  have hnew : IsBlock U (blockLines c adminCode) := isBlock_blockLines c adminCode
  have htext : customText cfg.resolver = unlines (adminLines U (customText orig) ++ block) := by
    rw [customText, hcustom]
    rfl
  have hput : pfbSanitizeTextArea U (putBlock (customText cfg.resolver) (blockLines c adminCode)) =
      unlines (adminLines U (customText orig) ++ blockLines c adminCode) := by
    have hclean :
        ∀ l ∈ adminLines U (customText orig) ++ blockLines c adminCode, CleanLine U l := by
      intro l hl
      rcases List.mem_append.mp hl with hl | hl
      · exact adminLines_clean _ l hl
      · exact hnew.clean l hl
    unfold putBlock
    rw [htext, (linesOf_moved (customText orig) hblock).2, findBlock_block h.unmarked hblock]
    dsimp only
    rw [List.append_nil, pfbSanitizeTextArea_unlines hclean (by simp [blockLines])]
  obtain ⟨resolver, saved, seeded⟩ := cfg
  obtain ⟨activeInterface, enablessl, customOptions⟩ := resolver
  obtain rfl : activeInterface = some lo0 := h.interface
  obtain rfl : enablessl = none := h.enablessl
  obtain rfl : seeded = true := h.seeded
  simp [applyMove, hkept, hput]

/-- What a move that was neither rejected nor only reported leaves. -/
structure Applied (U : TextClasses) (orig : Resolver) (c : Circumstances) (out : Outcome) :
    Prop where
  moved : Moved U orig out.config
  reported : out.refusal = none ∧ out.unsafeLine = none
  block : unlines (blockLines c (directiveText (leftOver U (customText orig))).1) <:+:
    customText out.config.resolver

theorem rejected_or_applied_of_moved (h : Moved U orig cfg) (c : Circumstances) :
    Rejected cfg (move U cfg c) ∨ Applied U orig c (move U cfg c) := by
  rcases move_of_moved h c with hrejected | hmove
  · exact Or.inl hrejected
  · refine Or.inr ?_
    rw [hmove]
    by_cases hkept : unlines (blockLines c (directiveText (leftOver U (customText orig))).1) <:+:
        customText cfg.resolver
    · rw [applyMove_kept h hkept]
      exact ⟨h, ⟨rfl, rfl⟩, hkept⟩
    · rw [applyMove_replaced h hkept]
      exact ⟨⟨h.unmarked, h.listener, h.saved, h.seeded, h.interface, h.enablessl, _,
        isBlock_blockLines c _, rfl⟩, ⟨rfl, rfl⟩, infix_unlines_append _ (by simp [blockLines])⟩

theorem blockLines_congr (c : Circumstances) {code code' : Str}
    (h : setsEdnsSize code = setsEdnsSize code') : blockLines c code = blockLines c code' := by
  simp only [blockLines, clauseLines, ednsLine, h]

/-- The first block goes after the administrator's lines. -/
theorem applyMove_first (hends : '\r' ∉ crlfToLf (customText cfg.resolver))
    (hunmarked : ∀ l ∈ linesOf (crlfToLf (customText cfg.resolver)), Unmarked l)
    (c : Circumstances) (code : Str) :
    applyMove U { cfg with saved := .snapshot cfg.resolver } true
      (crlfToLf (customText cfg.resolver)) code c =
      ⟨⟨⟨some lo0, none, some (unlines (adminLines U (customText cfg.resolver) ++
        blockLines c code))⟩, .snapshot cfg.resolver, true⟩, true, true, none, none⟩ := by
  have hblock : IsBlock U (blockLines c code) := isBlock_blockLines c code
  have hnone : marker ∉ linesOf (crlfToLf (customText cfg.resolver)) :=
    fun hmem => (hunmarked _ hmem).1 trim_marker
  have hkept : ¬ unlines (blockLines c code) <:+: crlfToLf (customText cfg.resolver) :=
    fun hwithin => hnone (marker_mem_of_block hblock hwithin)
  have hraw : ∀ l ∈ rawLines (crlfToLf (customText cfg.resolver)), '\n' ∉ l ∧ '\r' ∉ l := by
    intro l hl
    have hmem := mem_linesOf_of_rawLines hl
    exact ⟨not_mem_of_mem_linesOf hmem, fun hcr => hends (mem_of_mem_linesOf hmem hcr)⟩
  have hput : pfbSanitizeTextArea U
      (putBlock (crlfToLf (customText cfg.resolver)) (blockLines c code)) =
        unlines (adminLines U (customText cfg.resolver) ++ blockLines c code) := by
    rw [putBlock_append (findBlock_none hnone) hblock, pfbSanitizeTextArea_block hraw hblock]
    rfl
  rw [applyMove]
  simp only [hkept, decide_false, hput, Bool.true_or, Bool.false_eq_true, if_false]

/-- The first move is rejected, or takes the snapshot of an unmarked text without a listener
directive and appends the block. -/
theorem rejected_or_first (hsaved : cfg.saved = .empty) (c : Circumstances) :
    Rejected cfg (move U cfg c) ∨
      (∀ l ∈ linesOf (crlfToLf (customText cfg.resolver)), Unmarked l) ∧
      listenerDirective (directiveText (crlfToLf (customText cfg.resolver))).1 = none ∧
      move U cfg c = applyMove U { cfg with saved := .snapshot cfg.resolver } true
        (crlfToLf (customText cfg.resolver))
        (directiveText (crlfToLf (customText cfg.resolver))).1 c := by
  unfold move
  dsimp only
  rw [← customText]
  cases hconflict : listenPortConflict c.listenPort with
  | some port =>
      rw [hsaved]
      exact Or.inl (rejected_refuse cfg _)
  | none =>
      cases hwhole : whole (linesOf (crlfToLf (customText cfg.resolver))) with
      | false => exact Or.inl (rejected_refuse cfg _)
      | true =>
          cases hpresent : blockPresent (linesOf (crlfToLf (customText cfg.resolver))) with
          | true =>
              generalize directiveText (unlines (cutBlock _)) = scan
              obtain ⟨code, unclosed⟩ := scan
              cases unclosed with
              | true => exact Or.inl (rejected_refuse cfg _)
              | false =>
                  dsimp only
                  rw [hsaved]
                  cases listenerDirective code with
                  | some found => exact Or.inl (rejected_refuse cfg _)
                  | none => exact Or.inl (rejected_refuse cfg _)
          | false =>
              have hunmarked := unmarked_of_whole hwhole hpresent
              rw [cutBlock, findBlock_none (not_blockPresent hpresent)]
              dsimp only
              rw [unlines_linesOf]
              generalize directiveText (crlfToLf (customText cfg.resolver)) = scan
              obtain ⟨code, unclosed⟩ := scan
              cases unclosed with
              | true => exact Or.inl (rejected_refuse cfg _)
              | false =>
                  dsimp only
                  rw [hsaved]
                  cases hlistener : listenerDirective code with
                  | some found => exact Or.inl (rejected_refuse cfg _)
                  | none => exact Or.inr ⟨hunmarked, rfl, rfl⟩

/-- The first move is rejected or an applied one. -/
theorem rejected_or_applied_of_unmoved (hsaved : cfg.saved = .empty)
    (hends : '\r' ∉ crlfToLf (customText cfg.resolver))
    (hclean : CleaningUncoversNothing U (customText cfg.resolver)) (c : Circumstances) :
    Rejected cfg (move U cfg c) ∨ Applied U cfg.resolver c (move U cfg c) := by
  rcases rejected_or_first hsaved c with hrejected | ⟨hunmarked, hlistener, hmove⟩
  · exact Or.inl hrejected
  · refine Or.inr ?_
    have hsame := blockLines_congr c hclean.edns
    rw [hmove, applyMove_first hends hunmarked]
    refine ⟨⟨hclean.marker hunmarked, hclean.listener hlistener, rfl, rfl, rfl, rfl, _,
      isBlock_blockLines c _, rfl⟩, ⟨rfl, rfl⟩, ?_⟩
    rw [hsame]
    exact infix_unlines_append _ (by simp [blockLines])

/-- A Resolver that no further move changes: its markers are no pair. -/
structure Stuck (orig : Resolver) (cfg : Config) : Prop where
  saved : cfg.saved = .snapshot orig
  broken : whole (linesOf (crlfToLf (customText cfg.resolver))) = false

theorem config_of_stuck (h : Stuck orig cfg) (c : Circumstances) : (move U cfg c).config = cfg := by
  unfold move
  dsimp only
  rw [← customText, h.saved, h.broken]
  cases listenPortConflict c.listenPort with
  | some port => rfl
  | none => rfl

/-- After any number of moves the saved copy is absent or the Resolver as it was. -/
theorem moves_saved (hsaved : cfg.saved = .empty)
    (hends : '\r' ∉ crlfToLf (customText cfg.resolver))
    (hlistener : UncoversNoListener U (customText cfg.resolver)) (cs : List Circumstances) :
    moves U cfg cs = cfg ∨ Moved U cfg.resolver (moves U cfg cs) ∨
      Stuck cfg.resolver (moves U cfg cs) := by
  induction cs using List.reverseRecOn with
  | nil => exact Or.inl rfl
  | append_singleton cs c ih =>
      rw [moves, List.foldl_append]
      change (move U (moves U cfg cs) c).config = cfg ∨
        Moved U cfg.resolver (move U (moves U cfg cs) c).config ∨
          Stuck cfg.resolver (move U (moves U cfg cs) c).config
      rcases ih with heq | hmoved | hstuck
      · rw [heq]
        rcases rejected_or_first hsaved c with hrejected | ⟨hunmarked, hnone, hmove⟩
        · exact Or.inl hrejected.config
        · refine Or.inr ?_
          rw [hmove, applyMove_first hends hunmarked]
          have hblock := @isBlock_blockLines U c
            (directiveText (crlfToLf (customText cfg.resolver))).1
          by_cases hadmin : ∀ l ∈ adminLines U (customText cfg.resolver), Unmarked l
          · exact Or.inl ⟨hadmin, hlistener hnone, rfl, rfl, rfl, rfl, _, hblock, rfl⟩
          · push Not at hadmin
            obtain ⟨l, hl, hmarked⟩ := hadmin
            refine Or.inr ⟨rfl, ?_⟩
            obtain ⟨hcrlf, hlines⟩ := linesOf_moved (customText cfg.resolver) hblock
            rw [customText, Option.getD_some, hcrlf, hlines]
            exact not_whole_of_marked hl hmarked hblock
      · rcases rejected_or_applied_of_moved hmoved c with hrejected | happlied
        · rw [hrejected.config]
          exact Or.inr (Or.inl hmoved)
        · exact Or.inr (Or.inl happlied.moved)
      · rw [config_of_stuck hstuck]
        exact Or.inr (Or.inr hstuck)

theorem moves_reached (hsaved : cfg.saved = .empty)
    (hends : '\r' ∉ crlfToLf (customText cfg.resolver))
    (hclean : CleaningUncoversNothing U (customText cfg.resolver)) (cs : List Circumstances) :
    moves U cfg cs = cfg ∨ Moved U cfg.resolver (moves U cfg cs) := by
  induction cs using List.reverseRecOn with
  | nil => exact Or.inl rfl
  | append_singleton cs c ih =>
      rw [moves, List.foldl_append]
      change (move U (moves U cfg cs) c).config = cfg ∨
        Moved U cfg.resolver (move U (moves U cfg cs) c).config
      rcases ih with heq | hmoved
      · rw [heq]
        rcases rejected_or_applied_of_unmoved hsaved hends hclean c with hrejected | happlied
        · exact Or.inl hrejected.config
        · exact Or.inr happlied.moved
      · rcases rejected_or_applied_of_moved hmoved c with hrejected | happlied
        · rw [hrejected.config]
          exact Or.inr hmoved
        · exact Or.inr happlied.moved

/-- A move with neither a refusal nor a report is an applied one. -/
theorem applied_of_moves (hsaved : cfg.saved = .empty)
    (hends : '\r' ∉ crlfToLf (customText cfg.resolver))
    (hclean : CleaningUncoversNothing U (customText cfg.resolver)) (cs : List Circumstances)
    (c : Circumstances) (hrefusal : (move U (moves U cfg cs) c).refusal = none)
    (hreport : (move U (moves U cfg cs) c).unsafeLine = none) :
    Applied U cfg.resolver c (move U (moves U cfg cs) c) := by
  have hcases : Rejected (moves U cfg cs) (move U (moves U cfg cs) c) ∨
      Applied U cfg.resolver c (move U (moves U cfg cs) c) := by
    rcases moves_reached hsaved hends hclean cs with heq | hmoved
    · rw [heq]
      exact rejected_or_applied_of_unmoved hsaved hends hclean c
    · exact rejected_or_applied_of_moved hmoved c
  rcases hcases with hrejected | happlied
  · have hreported := hrejected.reported
    simp [hrefusal, hreport] at hreported
  · exact happlied

theorem restore_moves (hsaved : cfg.saved = .empty)
    (hends : '\r' ∉ crlfToLf (customText cfg.resolver))
    (hlistener : UncoversNoListener U (customText cfg.resolver)) (cs : List Circumstances) :
    (restore (moves U cfg cs)).resolver = cfg.resolver := by
  rcases moves_saved hsaved hends hlistener cs with heq | hmoved | hstuck
  · rw [heq, restore, hsaved]
  · rw [restore, hmoved.saved]
  · rw [restore, hstuck.saved]

/-- The same move again finds its block in place. -/
theorem Applied.again {out : Outcome} {c : Circumstances} (h : Applied U orig c out) :
    (move U out.config c).config = out.config ∧ (move U out.config c).returned = false ∧
      (move U out.config c).written = false := by
  rcases move_of_moved h.moved c with hrejected | hmove
  · exact ⟨hrejected.config, hrejected.returned, hrejected.written⟩
  · rw [hmove, applyMove_kept h.moved h.block]
    exact ⟨rfl, rfl, rfl⟩

/-- The cleaned text, with a line end before the block where it had none. -/
theorem leftOver_eq {text : Str} (hends : '\r' ∉ crlfToLf text) :
    leftOver U text = pfbSanitizeTextArea U text ∨
      leftOver U text = pfbSanitizeTextArea U text ++ ['\n'] := by
  rw [pfbSanitizeTextArea_eq hends, leftOver, adminLines]
  rcases linesOf_eq_rawLines (crlfToLf text) with hlines | hlines
  · rw [← hlines, unlines_append (by simp [linesOf_ne_nil]) (by simp)]
    exact Or.inr rfl
  · rw [hlines, List.map_append]
    exact Or.inl rfl

theorem Applied.text {out : Outcome} {c : Circumstances} (h : Applied U orig c out) :
    onePair (linesOf (customText out.config.resolver)) = true ∧
      unlines (cutBlock (linesOf (customText out.config.resolver))) =
        leftOver U (customText orig) := by
  obtain ⟨block, hblock, hcustom⟩ := h.moved.custom
  rw [customText, hcustom, Option.getD_some, (linesOf_moved (customText orig) hblock).2,
    onePair_block h.moved.unmarked hblock, cutBlock_block h.moved.unmarked hblock]
  exact ⟨rfl, rfl⟩

/-- A move is rejected, changes the configuration, or sets the block of a snapshot's Resolver. -/
theorem move_cases (cfg : Config) (c : Circumstances) :
    Rejected cfg (move U cfg c) ∨
      ((move U cfg c).returned = true ∧ (move U cfg c).refusal = none) ∨
      ∃ custom adminCode, move U cfg c = applyMove U cfg false custom adminCode c := by
  unfold move
  dsimp only
  cases listenPortConflict c.listenPort with
  | some port =>
      cases cfg.saved with
      | snapshot keys => exact Or.inl ⟨rfl, rfl, rfl, Or.inr rfl⟩
      | empty => exact Or.inl (rejected_refuse cfg _)
      | invalid => exact Or.inl (rejected_refuse cfg _)
  | none =>
      generalize linesOf (crlfToLf (cfg.resolver.customOptions.getD [])) = ls
      generalize directiveText (unlines (cutBlock ls)) = scan
      obtain ⟨code, unclosed⟩ := scan
      cases whole ls with
      | false => exact Or.inl (rejected_refuse cfg _)
      | true =>
          cases unclosed with
          | true => exact Or.inl (rejected_refuse cfg _)
          | false =>
              dsimp only
              cases listenerDirective code with
              | some found =>
                  cases hsaved : cfg.saved with
                  | snapshot keys => exact Or.inr (Or.inl ⟨rfl, rfl⟩)
                  | empty => exact Or.inl (rejected_refuse cfg _)
                  | invalid => exact Or.inl (rejected_refuse cfg _)
              | none =>
                  cases cfg.saved with
                  | snapshot keys => exact Or.inr (Or.inr ⟨_, _, rfl⟩)
                  | empty =>
                      cases blockPresent ls with
                      | true => exact Or.inl (rejected_refuse cfg _)
                      | false => exact Or.inr (Or.inl ⟨rfl, rfl⟩)
                  | invalid => cases blockPresent ls <;> exact Or.inl (rejected_refuse cfg _)

/-- A move that returned FALSE left the Resolver and the snapshot alone. -/
theorem move_unchanged (cfg : Config) (c : Circumstances) (h : (move U cfg c).returned = false) :
    (move U cfg c).config.resolver = cfg.resolver ∧ (move U cfg c).config.saved = cfg.saved := by
  rcases move_cases (U := U) cfg c with hrejected | ⟨hreturned, -⟩ | ⟨custom, adminCode, hmove⟩
  · rw [hrejected.config]
    exact ⟨rfl, rfl⟩
  · rw [hreturned] at h
    cases h
  · rw [hmove] at h ⊢
    obtain ⟨⟨activeInterface, enablessl, customOptions⟩, saved, seeded⟩ := cfg
    simp only [applyMove, Bool.or_eq_false_iff, Bool.not_eq_false', decide_eq_true_eq,
      bne_eq_false_iff_eq, Option.isSome_eq_false_iff, Option.isNone_iff_eq_none, true_and] at h
    obtain ⟨⟨rfl, rfl⟩, hkept⟩ := h
    simp [applyMove, hkept]

theorem rejected_of_refusal (cfg : Config) (c : Circumstances)
    (h : (move U cfg c).refusal.isSome) : Rejected cfg (move U cfg c) := by
  rcases move_cases (U := U) cfg c with hrejected | ⟨-, hnone⟩ | ⟨custom, adminCode, hmove⟩
  · exact hrejected
  · rw [hnone] at h
    cases h
  · rw [hmove] at h
    cases h

/-- A line found after the move is reported, and the restore leaves the text around the block. -/
theorem restore_reported {keys : Resolver} {c : Circumstances} {code : Str}
    (hsaved : cfg.saved = .snapshot keys) (hport : listenPortConflict c.listenPort = none)
    (hwhole : whole (linesOf (crlfToLf (customText cfg.resolver))) = true)
    (hscan : directiveText (unlines (cutBlock (linesOf (crlfToLf (customText cfg.resolver))))) =
      (code, false)) (hfound : (listenerDirective code).isSome) :
    (move U cfg c).unsafeLine.isSome ∧ (move U cfg c).returned = true ∧
      (restore (move U cfg c).config).resolver =
        { keys with customOptions := some (pfbSanitizeTextArea U
          (unlines (cutBlock (linesOf (crlfToLf (customText cfg.resolver)))))) } := by
  obtain ⟨found, hfound⟩ := Option.isSome_iff_exists.mp hfound
  obtain ⟨kind, name⟩ := found
  unfold move
  dsimp only
  rw [← customText, hport, hwhole, hscan]
  dsimp only
  rw [hfound, hsaved]
  exact ⟨rfl, rfl, rfl⟩

/-- `$theirs`, the text around the block. -/
def outsideBlock (text : Str) : Str := unlines (cutBlock (linesOf text))

/-- Any number of moves and a restore give the three keys back as they were, when cleaning the text
uncovers no listener directive. A move that returns FALSE leaves them and the snapshot alone. When
cleaning uncovers no marker and no EDNS size either, a repeated move writes nothing and an applied
one leaves one block after the administrator's cleaned text. A directive added later is reported by
the next move, and the restore keeps the text it stands in. -/
theorem takeover_round_trip (U : TextClasses) (cfg : Config) (hsaved : cfg.saved = .empty)
    (hends : '\r' ∉ crlfToLf (customText cfg.resolver))
    (hlistener : UncoversNoListener U (customText cfg.resolver)) :
    (∀ cs, (restore (moves U cfg cs)).resolver = cfg.resolver) ∧
    (∀ (other : Config) (c : Circumstances),
      ((move U other c).returned = false →
        (move U other c).config.resolver = other.resolver ∧
          (move U other c).config.saved = other.saved) ∧
      ((move U other c).refusal.isSome →
        (move U other c).config = other ∧ (move U other c).written = false)) ∧
    (CleaningUncoversNothing U (customText cfg.resolver) → ∀ cs c,
      let out := move U (moves U cfg cs) c
      out.refusal = none → out.unsafeLine = none →
        ((move U out.config c).config = out.config ∧ (move U out.config c).returned = false ∧
          (move U out.config c).written = false) ∧
        onePair (linesOf (customText out.config.resolver)) = true ∧
        (outsideBlock (customText out.config.resolver) =
            pfbSanitizeTextArea U (customText cfg.resolver) ∨
          outsideBlock (customText out.config.resolver) =
            pfbSanitizeTextArea U (customText cfg.resolver) ++ ['\n']) ∧
        ∀ (edited : Str) (c' : Circumstances) (code : Str),
          let theirs := outsideBlock (crlfToLf edited)
          let later : Config := { out.config with
            resolver := { out.config.resolver with customOptions := some edited } }
          listenPortConflict c'.listenPort = none → whole (linesOf (crlfToLf edited)) = true →
          directiveText theirs = (code, false) → (listenerDirective code).isSome →
            (move U later c').unsafeLine.isSome ∧ (move U later c').returned = true ∧
              (restore (move U later c').config).resolver =
                { cfg.resolver with customOptions := some (pfbSanitizeTextArea U theirs) }) := by
  refine ⟨restore_moves hsaved hends hlistener, fun other c => ⟨move_unchanged other c, ?_⟩, ?_⟩
  · intro hrefused
    have hrejected := rejected_of_refusal other c hrefused
    exact ⟨hrejected.config, hrejected.written⟩
  · intro hclean cs c out hrefusal hreport
    have happlied : Applied U cfg.resolver c out :=
      applied_of_moves hsaved hends hclean cs c hrefusal hreport
    obtain ⟨hpair, htext⟩ := happlied.text
    refine ⟨happlied.again, hpair, ?_, ?_⟩
    · rw [outsideBlock, htext]
      exact leftOver_eq hends
    · intro edited c' code theirs later hport hwhole hscan hfound
      have hkeys : later.saved = .snapshot cfg.resolver := happlied.moved.saved
      exact restore_reported hkeys hport hwhole hscan hfound

end Runs

/-- What the engine says of ASCII; every other character is a letter. -/
def asciiClasses : TextClasses where
  isOther c := c.toNat < 32 || c.toNat == 127
  isBlank c := c.toNat == 32 || (9 ≤ c.toNat && c.toNat ≤ 13)
  other_control c hc := by simp [hc]
  not_other c hc hc' := by
    simp only [Bool.or_eq_false_iff, decide_eq_false_iff_not, Nat.not_lt, beq_eq_false_iff_ne]
    omega
  blank_tab := by decide
  blank_space := by decide
  not_blank c hc hc' := by
    simp only [Bool.or_eq_false_iff, beq_eq_false_iff_ne, Bool.and_eq_false_iff,
      decide_eq_false_iff_not]
    omega

def lanResolver (custom : Str) : Config :=
  ⟨⟨some "lan".toList, some [], some custom⟩, .empty, false⟩

def lanCircumstances (ednsSize : Nat) : Circumstances := ⟨53, true, true, ednsSize, []⟩

theorem takeover_round_trip_lan :
    (restore (moves asciiClasses (lanResolver "do-ip6: no\n".toList)
      [lanCircumstances 1432, lanCircumstances 1232])).resolver =
        (lanResolver "do-ip6: no\n".toList).resolver :=
  (takeover_round_trip asciiClasses (lanResolver "do-ip6: no\n".toList) rfl (by decide)
    (by decide)).1 _

/-- A blank at the end of a line is not kept while the Resolver is moved. -/
theorem trailing_blank_dropped :
    let text := "do-ip6: no ".toList
    let out := move asciiClasses (lanResolver text) (lanCircumstances 1432)
    out.refusal = none ∧ out.unsafeLine = none ∧
      outsideBlock (customText out.config.resolver) ≠ text ∧
      outsideBlock (customText out.config.resolver) ≠ text ++ ['\n'] := by
  decide

end PfBlockerNG.ResolverRoundTrip
