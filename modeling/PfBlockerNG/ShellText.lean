import Mathlib.Data.List.Dedup
import Mathlib.Data.List.Sort
import Mathlib.Data.List.Lex
import Mathlib.Data.List.TakeWhile
import PfBlockerNG.Strings

/-!
Text files as the line tools of the shell see them: the lines of a file with and without their
ends, and the lines `awk` and `sort` keep.
-/

namespace PfBlockerNG.ShellText

open PfBlockerNG.Strings

/-- The lines of a file with their line ends; the last one need not have one. -/
def segments : Str → List Str
  | [] => []
  | c :: s => if c = '\n' then [c] :: segments s else
      match segments s with
      | [] => [[c]]
      | l :: ls => (c :: l) :: ls

/-- A line without its line end. -/
def chomp (l : Str) : Str := l.takeWhile (· != '\n')

/-- The lines `awk`, `sort` and `grep` read. -/
def lines (s : Str) : List Str := (segments s).map chomp

/-- Lines printed one after another. -/
def unlines (ls : List Str) : Str := ls.flatMap (· ++ ['\n'])

/-- `wc -l`. -/
def newlines (s : Str) : Nat := s.count '\n'

/-- `sub(/\r$/, "")`. -/
def stripCr (l : Str) : Str := if l.getLast? = some '\r' then l.dropLast else l

/-- What `awk` splits fields at. -/
def isBlank (c : Char) : Bool := c == ' ' || c == '\t' || c == '\n'

/-- The words of a text, as a shell loop without quotes runs on them. -/
def words (s : Str) : List Str := (s.splitOnP isBlank).filter (· ≠ [])

/-- `NF` is not zero. -/
def hasFields (l : Str) : Bool := l.any (fun c => !isBlank c)

/-- `[[:space:]]` in the C locale. -/
def isSpaceC (c : Char) : Bool := c == ' ' || (9 ≤ c.toNat && c.toNat ≤ 13)

/-- `grep -q '[^[:space:]]'`. -/
def hasText (s : Str) : Bool := s.any (fun c => !isSpaceC c)

/-- `awk 'FNR==NR{a[$0];next}!($0 in a)' first second`; when the first file is empty the second one
is taken for it and nothing is printed. -/
def awkExclude (first second : List Str) : List Str :=
  if first = [] then [] else second.filter (· ∉ first)

/-- `LC_ALL=C sort -u`. -/
def sortU (ls : List Str) : List Str := ls.dedup.insertionSort (· ≤ ·)

@[simp] theorem segments_nil : segments [] = [] := rfl

theorem segments_append {l : Str} (h : '\n' ∉ l) (s : Str) :
    segments (l ++ '\n' :: s) = (l ++ ['\n']) :: segments s := by
  induction l with
  | nil => rfl
  | cons c l ih =>
      rw [List.mem_cons, not_or] at h
      have hrest := ih h.2
      rw [List.cons_append, segments, if_neg (Ne.symm h.1), hrest, List.cons_append]

theorem segments_of_not_mem {l : Str} (h : '\n' ∉ l) (hne : l ≠ []) : segments l = [l] := by
  induction l with
  | nil => exact (hne rfl).elim
  | cons c l ih =>
      rw [List.mem_cons, not_or] at h
      rw [segments, if_neg (Ne.symm h.1)]
      cases l with
      | nil => rfl
      | cons d l => rw [ih h.2 (List.cons_ne_nil d l)]

/-- A text is empty, one line without its end, or a line and the rest. -/
theorem textInduction {motive : Str → Prop} (nil : motive [])
    (last : ∀ l, '\n' ∉ l → l ≠ [] → motive l)
    (line : ∀ l s, '\n' ∉ l → motive s → motive (l ++ '\n' :: s)) (s : Str) : motive s := by
  induction hlen : s.length using Nat.strong_induction_on generalizing s with
  | _ n ih =>
      subst hlen
      by_cases hmem : '\n' ∈ s
      · obtain ⟨l, rest, rfl, hl⟩ := List.eq_append_cons_of_mem hmem
        refine line l rest hl (ih rest.length ?_ rest rfl)
        rw [List.length_append, List.length_cons]
        omega
      · cases s with
        | nil => exact nil
        | cons c s => exact last _ hmem (List.cons_ne_nil c s)

@[simp] theorem chomp_of_not_mem {l : Str} (h : '\n' ∉ l) : chomp l = l := by
  refine List.takeWhile_eq_self_iff.mpr fun c hc => ?_
  rw [bne_iff_ne]
  rintro rfl
  exact h hc

@[simp] theorem chomp_append {l : Str} (h : '\n' ∉ l) (s : Str) : chomp (l ++ '\n' :: s) = l := by
  rw [chomp, List.takeWhile_append_of_pos fun c hc => ?_]
  · simp
  · rw [bne_iff_ne]
    rintro rfl
    exact h hc

@[simp] theorem lines_nil : lines [] = [] := rfl

theorem lines_append {l : Str} (h : '\n' ∉ l) (s : Str) :
    lines (l ++ '\n' :: s) = l :: lines s := by
  rw [lines, segments_append h, List.map_cons, chomp_append h, lines]

theorem not_mem_of_mem_lines {s l : Str} (h : l ∈ lines s) : '\n' ∉ l := by
  obtain ⟨seg, -, rfl⟩ := List.mem_map.mp h
  intro hmem
  exact absurd (List.mem_takeWhile_imp hmem) (by decide)

theorem exists_line_of_mem {s : Str} {c : Char} (h : c ∈ s) (hne : c ≠ '\n') :
    ∃ l ∈ lines s, c ∈ l := by
  induction s using textInduction with
  | nil => cases h
  | last l hl hne' =>
      refine ⟨l, ?_, h⟩
      rw [lines, segments_of_not_mem hl hne', List.map_singleton, chomp_of_not_mem hl]
      exact List.mem_singleton_self l
  | line l s hl ih =>
      rw [lines_append hl]
      rcases List.mem_append.mp h with hc | hc
      · exact ⟨l, List.mem_cons_self, hc⟩
      · obtain ⟨l', hl', hc⟩ := ih ((List.mem_cons.mp hc).resolve_left hne)
        exact ⟨l', List.mem_cons_of_mem _ hl', hc⟩

theorem mem_stripCr {l : Str} {c : Char} (h : c ∈ l) (hne : c ≠ '\r') : c ∈ stripCr l := by
  unfold stripCr
  split
  · next hlast =>
      obtain ⟨front, rfl⟩ := List.getLast?_eq_some_iff.mp hlast
      rw [List.dropLast_concat]
      exact (List.mem_append.mp h).resolve_right fun hc => hne (List.mem_singleton.mp hc)
  · exact h

@[simp] theorem unlines_nil : unlines [] = [] := rfl

@[simp] theorem unlines_cons (l : Str) (ls : List Str) :
    unlines (l :: ls) = l ++ '\n' :: unlines ls := by
  simp [unlines]

theorem unlines_append (as bs : List Str) : unlines (as ++ bs) = unlines as ++ unlines bs :=
  List.flatMap_append

theorem segments_unlines {ls : List Str} (h : ∀ l ∈ ls, '\n' ∉ l) :
    segments (unlines ls) = ls.map (· ++ ['\n']) := by
  induction ls with
  | nil => rfl
  | cons l ls ih =>
      rw [unlines_cons, segments_append (h l List.mem_cons_self),
        ih fun l' hl' => h l' (List.mem_cons_of_mem _ hl'), List.map_cons]

theorem lines_unlines {ls : List Str} (h : ∀ l ∈ ls, '\n' ∉ l) : lines (unlines ls) = ls := by
  rw [lines, segments_unlines h, List.map_map]
  refine (List.map_congr_left fun l hl => ?_).trans (List.map_id ls)
  exact chomp_append (h l hl) []

@[simp] theorem mem_sortU {ls : List Str} {l : Str} : l ∈ sortU ls ↔ l ∈ ls := by
  rw [sortU, List.mem_insertionSort, List.mem_dedup]

theorem nodup_sortU (ls : List Str) : (sortU ls).Nodup :=
  (List.perm_insertionSort _ _).nodup_iff.mpr ls.nodup_dedup

theorem sortU_perm {ls : List Str} (h : ls.Nodup) : (sortU ls).Perm ls := by
  rw [sortU, h.dedup]
  exact List.perm_insertionSort _ _

end PfBlockerNG.ShellText
