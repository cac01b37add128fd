import Mathlib.Data.List.DropRight
import PfBlockerNG.IpText

/-!
Multi-line texts as `pfb_sanitize_text_area()` stores them: line ends become LF, invisible
characters go, and each line loses the blanks at its end.
-/

namespace PfBlockerNG.TextArea

open PfBlockerNG.Strings
open PfBlockerNG.IpText

/-- What the regex engine says of Unicode characters. -/
structure TextClasses where
  /-- `\p{C}`. -/
  isOther : Char → Bool
  /-- `[\s\p{Z}\x{FEFF}]`. -/
  isBlank : Char → Bool
  other_control : ∀ c, c.toNat < 32 → isOther c = true
  not_other : ∀ c, 32 ≤ c.toNat → c.toNat < 127 → isOther c = false
  blank_tab : isBlank '\t' = true
  blank_space : isBlank ' ' = true
  not_blank : ∀ c, 32 < c.toNat → c.toNat < 127 → isBlank c = false

/-- `str_replace("\r\n", "\n", $text)`. -/
def crlfToLf : Str → Str
  | '\r' :: '\n' :: s => '\n' :: crlfToLf s
  | c :: s => c :: crlfToLf s
  | [] => []

/-- `str_replace("\r", "\n", $text)`. -/
def crToLf (s : Str) : Str := s.map fun c => if c = '\r' then '\n' else c

/-- `explode("\n", $text)`. -/
def linesOf (s : Str) : List Str := s.splitOn '\n'

/-- `implode("\n", $lines)`. -/
def unlines (ls : List Str) : Str := ['\n'].intercalate ls

section Cleaning

variable (U : TextClasses)

/-- `pfb_rstrip()`. -/
def pfbRstrip (value : Str) : Str := rstripWhile U.isBlank (rstripWhile isTrimmed value)

/-- Not matched by `[^\P{C}\t\n]`. -/
def isKept (c : Char) : Bool := !U.isOther c || c == '\t' || c == '\n'

/-- `pfb_sanitize_text_area()`. -/
def pfbSanitizeTextArea (text : Str) : Str :=
  unlines ((linesOf ((crToLf (crlfToLf text)).filter (isKept U))).map (pfbRstrip U))

/-- What the cleaning makes of a line. -/
def cleanLine (l : Str) : Str := pfbRstrip U (l.filter (isKept U))

end Cleaning

theorem linesOf_ne_nil (s : Str) : linesOf s ≠ [] := List.splitOn_ne_nil _ _

theorem unlines_linesOf (s : Str) : unlines (linesOf s) = s := List.intercalate_splitOn '\n'

theorem linesOf_unlines {ls : List Str} (h : ∀ l ∈ ls, '\n' ∉ l) (hne : ls ≠ []) :
    linesOf (unlines ls) = ls := List.splitOn_intercalate '\n' h hne

theorem linesOf_append_newline (s t : Str) :
    linesOf (s ++ '\n' :: t) = linesOf s ++ linesOf t := List.splitOn_append_cons_self s t

theorem not_mem_of_mem_linesOf {s l : Str} (h : l ∈ linesOf s) : '\n' ∉ l :=
  not_mem_of_mem_splitOn h

theorem mem_unlines {c : Char} {l : Str} {ls : List Str} (hl : l ∈ ls) (hc : c ∈ l) :
    c ∈ unlines ls := by
  induction ls with
  | nil => cases hl
  | cons l' ls ih =>
      rcases List.mem_cons.mp hl with rfl | hl
      · cases ls <;> simp [unlines, List.intercalate, List.intersperse, hc]
      · obtain ⟨l'', ls', rfl⟩ := List.exists_cons_of_ne_nil (List.ne_nil_of_mem hl)
        have htail : c ∈ unlines (l'' :: ls') := ih hl
        simp only [unlines, List.intercalate, List.intersperse, List.flatten_cons,
          List.mem_append] at htail ⊢
        exact Or.inr (Or.inr htail)

theorem mem_of_mem_linesOf {c : Char} {s l : Str} (hl : l ∈ linesOf s) (hc : c ∈ l) : c ∈ s := by
  rw [← unlines_linesOf s]
  exact mem_unlines hl hc

theorem crlfToLf_of_not_mem {s : Str} (h : '\r' ∉ s) : crlfToLf s = s := by
  induction s with
  | nil => rfl
  | cons c s ih =>
      rw [List.mem_cons, not_or] at h
      rw [crlfToLf, ih h.2]
      rintro t rfl -
      exact h.1 rfl

theorem crToLf_of_not_mem {s : Str} (h : '\r' ∉ s) : crToLf s = s := by
  refine (List.map_congr_left fun c hc => if_neg ?_).trans (List.map_id s)
  rintro rfl
  exact h hc

section Cleaning

variable {U : TextClasses}

/-- The cleaning goes line by line. -/
theorem pfbSanitizeTextArea_eq {text : Str} (h : '\r' ∉ crlfToLf text) :
    pfbSanitizeTextArea U text = unlines ((linesOf (crlfToLf text)).map (cleanLine U)) := by
  have hkept : isKept U '\n' = true := by simp [isKept]
  unfold pfbSanitizeTextArea linesOf
  rw [crToLf_of_not_mem h, splitOn_filter hkept, List.map_map]
  rfl

/-- A line the cleaning leaves as it is. -/
structure CleanLine (U : TextClasses) (l : Str) : Prop where
  newline : '\n' ∉ l
  kept : ∀ c ∈ l, isKept U c = true
  last : ∀ h : l ≠ [], U.isBlank (l.getLast h) = false ∧ isTrimmed (l.getLast h) = false

theorem CleanLine.eq {l : Str} (h : CleanLine U l) : cleanLine U l = l := by
  have hfilter : l.filter (isKept U) = l := List.filter_eq_self.mpr h.kept
  have htrimmed : rstripWhile isTrimmed l = l :=
    List.rdropWhile_eq_self_iff.mpr fun hne => by simp [(h.last hne).2]
  have hblank : rstripWhile U.isBlank l = l :=
    List.rdropWhile_eq_self_iff.mpr fun hne => by simp [(h.last hne).1]
  rw [cleanLine, pfbRstrip, hfilter, htrimmed, hblank]

/-- A character that is kept and trimmed is a blank or a tab. -/
theorem isBlank_of_isTrimmed {c : Char} (hkept : isKept U c = true) (hline : c ≠ '\n')
    (htrimmed : isTrimmed c = true) : U.isBlank c = true := by
  simp only [isTrimmed, Bool.or_eq_true, beq_iff_eq] at htrimmed
  have hcontrol : c ≠ '\t' → 32 ≤ c.toNat := by
    intro htab
    by_contra hlt
    simp [isKept, U.other_control c (Nat.lt_of_not_le hlt), htab, hline] at hkept
  rcases htrimmed with ((((rfl | rfl) | rfl) | rfl) | rfl) | rfl
  · exact U.blank_space
  · exact U.blank_tab
  · exact absurd rfl hline
  · exact absurd (hcontrol (by decide)) (by decide)
  · exact absurd (hcontrol (by decide)) (by decide)
  · exact absurd (hcontrol (by decide)) (by decide)

theorem cleanLine_clean {l : Str} (h : '\n' ∉ l) : CleanLine U (cleanLine U l) := by
  have hsub : ∀ c ∈ cleanLine U l, c ∈ l ∧ isKept U c = true := by
    intro c hc
    have hmem : c ∈ l.filter (isKept U) :=
      (List.rdropWhile_prefix _ _).subset ((List.rdropWhile_prefix _ _).subset hc)
    exact List.mem_filter.mp hmem
  have hline : '\n' ∉ cleanLine U l := fun hmem => h (hsub _ hmem).1
  refine ⟨hline, fun c hc => (hsub c hc).2, fun hne => ?_⟩
  have hblank : U.isBlank ((cleanLine U l).getLast hne) = false :=
    eq_false_of_ne_true (List.rdropWhile_last_not U.isBlank _ hne)
  refine ⟨hblank, ?_⟩
  have hlast := List.getLast_mem hne
  by_contra htrimmed
  rw [Bool.not_eq_false] at htrimmed
  rw [isBlank_of_isTrimmed (hsub _ hlast).2 (fun heq => hline (heq ▸ hlast)) htrimmed] at hblank
  cases hblank

/-- Printable ASCII that ends in no blank. -/
theorem cleanLine_of_printable {l : Str} (h : ∀ c ∈ l, 32 ≤ c.toNat ∧ c.toNat < 127)
    (hlast : ∀ c, l.getLast? = some c → c ≠ ' ') : CleanLine U l := by
  refine ⟨fun hmem => absurd (h _ hmem).1 (by decide), fun c hc => ?_, fun hne => ?_⟩
  · simp [isKept, U.not_other c (h c hc).1 (h c hc).2]
  · have hmem := List.getLast_mem hne
    have hspace := hlast _ (List.getLast?_eq_some_getLast hne)
    generalize l.getLast hne = c at hmem hspace
    have hprint := h c hmem
    have hgraphic : 32 < c.toNat := by
      refine Nat.lt_of_le_of_ne hprint.1 fun heq => hspace ?_
      exact Char.toNat_inj.mp heq.symm
    refine ⟨U.not_blank c hgraphic hprint.2, ?_⟩
    by_contra htrimmed
    rw [Bool.not_eq_false] at htrimmed
    simp only [isTrimmed, Bool.or_eq_true, beq_iff_eq] at htrimmed
    rcases htrimmed with ((((rfl | rfl) | rfl) | rfl) | rfl) | rfl <;>
      exact absurd hgraphic (by decide)

theorem CleanLine.no_cr {l : Str} (h : CleanLine U l) : '\r' ∉ l := by
  intro hmem
  have hkept := h.kept _ hmem
  simp [isKept, U.other_control '\r' (by decide)] at hkept

/-- Clean lines are stored as they stand. -/
theorem pfbSanitizeTextArea_unlines {ls : List Str} (h : ∀ l ∈ ls, CleanLine U l) (hne : ls ≠ []) :
    pfbSanitizeTextArea U (unlines ls) = unlines ls := by
  have hcr : '\r' ∉ unlines ls := by
    intro hmem
    rcases mem_intercalate hmem with heq | ⟨l, hl, hc⟩
    · exact absurd heq (by decide)
    · exact (h l hl).no_cr hc
  have hmap : ls.map (cleanLine U) = ls :=
    (List.map_congr_left fun l hl => (h l hl).eq).trans (List.map_id ls)
  rw [pfbSanitizeTextArea_eq (by rwa [crlfToLf_of_not_mem hcr]), crlfToLf_of_not_mem hcr,
    linesOf_unlines (fun l hl => (h l hl).newline) hne, hmap]

end Cleaning

end PfBlockerNG.TextArea
