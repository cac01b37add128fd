import Mathlib

/-!
Python string operations on character lists, and the dotted suffixes of a name.
-/

namespace PfBlockerNG.Strings

abbrev Str := List Char

instance : LawfulBEq Str := inferInstance

/-- `c.isspace()` for one character. -/
def isSpace (c : Char) : Bool :=
  let n := c.toNat
  (9 ≤ n && n ≤ 13) || (28 ≤ n && n ≤ 32) || n == 0x85 || n == 0xA0 || n == 0x1680 ||
    (0x2000 ≤ n && n ≤ 0x200A) || n == 0x2028 || n == 0x2029 || n == 0x202F ||
    n == 0x205F || n == 0x3000

def isAscii (c : Char) : Bool := c.toNat < 128

def lstripWhile (p : Char → Bool) (s : Str) : Str := s.dropWhile p

def rstripWhile (p : Char → Bool) (s : Str) : Str := (s.reverse.dropWhile p).reverse

/-- `s.strip()`. -/
def strip (s : Str) : Str := rstripWhile isSpace (lstripWhile isSpace s)

/-- `s.rstrip(".")`. -/
def rstripDots (s : Str) : Str := rstripWhile (· == '.') s

/-- `s.strip(".")`. -/
def stripDots (s : Str) : Str := rstripDots (lstripWhile (· == '.') s)

def startsWith (p s : Str) : Bool := p.isPrefixOf s

def endsWith (p s : Str) : Bool := p.isSuffixOf s

/-- `s.split(".")`. -/
def splitDots (s : Str) : List Str := s.splitOn '.'

/-- `".".join(labels)`. -/
def joinDots (labels : List Str) : Str := ['.'].intercalate labels

/-- What stands after the first `c`, when there is one. -/
def after (c : Char) : Str → Option Str
  | [] => none
  | d :: s => if d = c then some s else after c s

/-- `s.partition(c)` as (head, found, tail). -/
def partition (c : Char) : Str → Str × Bool × Str
  | [] => ([], false, [])
  | d :: s => if d = c then ([], true, s) else
      let (head, found, tail) := partition c s
      (d :: head, found, tail)

/-- `name.split(".", 1)[-1]`. -/
def parent (name : Str) : Str := (after '.' name).getD name

/-- Offset of the first occurrence of `p`, `s.find(p)`. -/
def find (p : Str) : Str → Option Nat
  | [] => if p = [] then some 0 else none
  | c :: s => if startsWith p (c :: s) then some 0 else (find p s).map (· + 1)

/-- Offset of the last occurrence of `p`, `s.rfind(p)`. -/
def rfind (p : Str) : Str → Option Nat
  | [] => if p = [] then some 0 else none
  | c :: s => match rfind p s with
    | some i => some (i + 1)
    | none => if startsWith p (c :: s) then some 0 else none

def dots (name : Str) : Nat := name.count '.'

/-- The first `n` of `name`, its parent, the parent's parent and so on. -/
def ancestors : Nat → Str → List Str
  | 0, _ => []
  | n + 1, name => name :: ancestors n (parent name)

/-- A suffix of `name` that starts at a label. -/
def DottedSuffix (k name : Str) : Prop := k = name ∨ ∃ p, name = p ++ '.' :: k

theorem after_eq_some_iff (c : Char) (s t : Str) :
    after c s = some t ↔ ∃ p, c ∉ p ∧ s = p ++ c :: t := by
  induction s with
  | nil => simp [after]
  | cons d s ih =>
      by_cases h : d = c
      · subst h
        simp only [after, if_true, Option.some.injEq]
        constructor
        · rintro rfl
          exact ⟨[], by simp, rfl⟩
        · rintro ⟨p, hp, hs⟩
          cases p with
          | nil => simpa using hs
          | cons e p =>
              simp only [List.cons_append, List.cons.injEq] at hs
              exact absurd (hs.1 ▸ List.mem_cons_self) hp
      · simp only [after, h, if_false, ih]
        constructor
        · rintro ⟨p, hp, rfl⟩
          exact ⟨d :: p, by simp [hp, Ne.symm h], rfl⟩
        · rintro ⟨p, hp, hs⟩
          cases p with
          | nil => simp [h] at hs
          | cons e p =>
              simp only [List.cons_append, List.cons.injEq] at hs
              exact ⟨p, fun hm => hp (List.mem_cons_of_mem _ hm), hs.2⟩

theorem after_eq_none_iff (c : Char) (s : Str) : after c s = none ↔ c ∉ s := by
  induction s with
  | nil => simp [after]
  | cons d s ih =>
      by_cases h : d = c
      · simp [after, h]
      · simp [after, h, ih, Ne.symm h]

theorem partition_eq_found_iff (c : Char) (s h t : Str) :
    partition c s = (h, true, t) ↔ s = h ++ c :: t ∧ c ∉ h := by
  induction s generalizing h with
  | nil => simp [partition]
  | cons d s ih =>
      by_cases hd : d = c
      · subst hd
        simp only [partition, if_true, Prod.mk.injEq, true_and]
        constructor
        · rintro ⟨rfl, rfl⟩
          simp
        · rintro ⟨hs, hnot⟩
          obtain _ | ⟨e, h⟩ := h
          · simpa using hs
          · simp only [List.cons_append, List.cons.injEq] at hs
            exact absurd (hs.1 ▸ List.mem_cons_self) hnot
      · simp only [partition, hd, if_false, Prod.mk.injEq]
        obtain _ | ⟨e, h⟩ := h
        · simp [hd]
        · have hih := ih h
          rw [Prod.ext_iff, Prod.ext_iff] at hih
          simp only at hih
          simp only [List.cons.injEq, List.cons_append, List.mem_cons, not_or]
          constructor
          · rintro ⟨⟨rfl, h₁⟩, h₂, h₃⟩
            obtain ⟨hs, hnot⟩ := hih.mp ⟨h₁, h₂, h₃⟩
            exact ⟨⟨rfl, hs⟩, Ne.symm hd, hnot⟩
          · rintro ⟨⟨rfl, hs⟩, -, hnot⟩
            obtain ⟨h₁, h₂, h₃⟩ := hih.mpr ⟨hs, hnot⟩
            exact ⟨⟨rfl, h₁⟩, h₂, h₃⟩

theorem partition_found_eq_false_iff (c : Char) (s : Str) :
    (partition c s).2.1 = false ↔ c ∉ s := by
  induction s with
  | nil => simp [partition]
  | cons d s ih =>
      by_cases hd : d = c
      · simp [partition, hd]
      · simp [partition, hd, ih, Ne.symm hd]

theorem partition_fst_of_not_mem {c : Char} {s : Str} (h : c ∉ s) : (partition c s).1 = s := by
  induction s with
  | nil => rfl
  | cons d s ih =>
      simp only [List.mem_cons, not_or] at h
      simp [partition, Ne.symm h.1, ih h.2]

theorem lstripWhile_of_all {p : Char → Bool} {s : Str} (h : ∀ c ∈ s, p c = false) :
    lstripWhile p s = s := by
  obtain _ | ⟨c, s⟩ := s
  · rfl
  · simp [lstripWhile, h c List.mem_cons_self]

theorem rstripWhile_of_all {p : Char → Bool} {s : Str} (h : ∀ c ∈ s, p c = false) :
    rstripWhile p s = s := by
  have hrev : lstripWhile p s.reverse = s.reverse :=
    lstripWhile_of_all (fun c hc => h c (List.mem_reverse.mp hc))
  simpa [rstripWhile, lstripWhile] using congrArg List.reverse hrev

theorem mem_intercalate {c d : Char} {parts : List Str} (h : c ∈ [d].intercalate parts) :
    c = d ∨ ∃ s ∈ parts, c ∈ s := by
  induction parts with
  | nil => simp [List.intercalate] at h
  | cons s parts ih =>
      obtain _ | ⟨t, parts⟩ := parts
      · exact Or.inr ⟨s, List.mem_cons_self, by simpa [List.intercalate] using h⟩
      · have hcons : [d].intercalate (s :: t :: parts) =
            s ++ d :: [d].intercalate (t :: parts) := by
          simp [List.intercalate]
        rw [hcons, List.mem_append, List.mem_cons] at h
        rcases h with h | h | h
        · exact Or.inr ⟨s, List.mem_cons_self, h⟩
        · exact Or.inl h
        · rcases ih h with h | ⟨u, hu, hc⟩
          · exact Or.inl h
          · exact Or.inr ⟨u, List.mem_cons_of_mem _ hu, hc⟩

theorem not_mem_of_mem_splitOn {c : Char} {s l : Str} (h : l ∈ s.splitOn c) : c ∉ l := by
  induction s generalizing l with
  | nil =>
      rw [List.splitOn_nil, List.mem_singleton] at h
      simp [h]
  | cons d s ih =>
      rw [List.splitOn_cons_eq_if_modifyHead] at h
      split at h
      · rcases List.mem_cons.mp h with rfl | h
        · exact List.not_mem_nil
        · exact ih h
      · next hne =>
          cases hs : s.splitOn c with
          | nil => exact absurd hs (List.splitOn_ne_nil _ _)
          | cons first rest =>
              rw [hs] at h ih
              rcases List.mem_cons.mp h with rfl | h
              · have hfirst := ih List.mem_cons_self
                simp only [beq_iff_eq] at hne
                simp [hfirst, Ne.symm hne]
              · exact ih (List.mem_cons_of_mem _ h)

/-- A filter that keeps the separator filters the parts. -/
theorem splitOn_filter {p : Char → Bool} {c : Char} (hc : p c = true) (s : Str) :
    (s.filter p).splitOn c = (s.splitOn c).map (List.filter p) := by
  induction s with
  | nil => rfl
  | cons d s ih =>
      rw [List.splitOn_cons_eq_if_modifyHead]
      by_cases hd : d = c
      · subst hd
        rw [List.filter_cons_of_pos hc, List.splitOn_cons_eq_if_modifyHead]
        simp [ih]
      · rw [if_neg (by simpa using hd)]
        cases hparts : s.splitOn c with
        | nil => exact absurd hparts (List.splitOn_ne_nil _ _)
        | cons first rest =>
            rw [hparts] at ih
            cases hp : p d with
            | true =>
                rw [List.filter_cons_of_pos hp, List.splitOn_cons_eq_if_modifyHead,
                  if_neg (by simpa using hd), ih]
                simp [hp]
            | false =>
                rw [List.filter_cons_of_neg (by simp [hp]), ih]
                simp [hp]

theorem find_isSome_iff (p s : Str) : (find p s).isSome = true ↔ p <:+: s := by
  induction s with
  | nil =>
      rw [find, List.infix_nil]
      split <;> simp_all
  | cons c s ih =>
      rw [find, List.infix_cons_iff, ← ih, ← List.isPrefixOf_iff_prefix]
      cases hstarts : startsWith p (c :: s) with
      | true => simp_all [startsWith]
      | false => simp_all [startsWith]

theorem startsWith_of_find {p s : Str} {i : Nat} (h : find p s = some i) :
    p <+: s.drop i := by
  induction s generalizing i with
  | nil =>
      rw [find] at h
      split at h
      · next hp =>
          rw [hp]
          exact List.nil_prefix
      · cases h
  | cons c s ih =>
      rw [find] at h
      split at h
      · next hstart =>
          obtain rfl := Option.some.inj h
          exact List.isPrefixOf_iff_prefix.mp hstart
      · obtain ⟨j, hj, rfl⟩ := Option.map_eq_some_iff.mp h
        exact ih hj

theorem lt_length_of_find {p s : Str} {i : Nat} (hp : p ≠ []) (h : find p s = some i) :
    i < s.length := by
  have hle := (startsWith_of_find h).length_le
  have hpos := List.length_pos_iff.mpr hp
  rw [List.length_drop] at hle
  omega

theorem parent_of_after {name t : Str} (h : after '.' name = some t) : parent name = t := by
  simp [parent, h]

theorem dots_of_after {name t : Str} (h : after '.' name = some t) :
    dots name = dots t + 1 := by
  obtain ⟨p, hp, rfl⟩ := (after_eq_some_iff '.' name t).mp h
  simp [dots, List.count_append, List.count_eq_zero_of_not_mem hp]

theorem dots_eq_zero_iff (name : Str) : dots name = 0 ↔ after '.' name = none := by
  rw [after_eq_none_iff, dots, List.count_eq_zero]

/-- A proper dotted suffix is a dotted suffix of the parent. -/
theorem exists_prefix_iff (k name : Str) :
    (∃ p, name = p ++ '.' :: k) ↔ ∃ t, after '.' name = some t ∧ DottedSuffix k t := by
  constructor
  · rintro ⟨p, rfl⟩
    cases h : after '.' (p ++ '.' :: k) with
    | none =>
        rw [after_eq_none_iff] at h
        exact absurd (by simp) h
    | some t =>
        refine ⟨t, rfl, ?_⟩
        obtain ⟨q, hq, hs⟩ := (after_eq_some_iff _ _ _).mp h
        rcases List.append_eq_append_iff.mp hs with ⟨r, rfl, hr⟩ | ⟨r, rfl, hr⟩
        · cases r with
          | nil => simp only [List.nil_append, List.cons.injEq, true_and] at hr; exact Or.inl hr
          | cons c r =>
              simp only [List.cons_append, List.cons.injEq] at hr
              exact absurd (by simp [← hr.1]) hq
        · cases r with
          | nil =>
              simp only [List.nil_append, List.cons.injEq, true_and] at hr
              exact Or.inl hr.symm
          | cons c r =>
              simp only [List.cons_append, List.cons.injEq] at hr
              exact Or.inr ⟨r, hr.2⟩
  · rintro ⟨t, ht, hk⟩
    obtain ⟨q, -, rfl⟩ := (after_eq_some_iff _ _ _).mp ht
    rcases hk with rfl | ⟨r, rfl⟩
    · exact ⟨q, rfl⟩
    · exact ⟨q ++ '.' :: r, by simp⟩

theorem dottedSuffix_iff (k name : Str) :
    DottedSuffix k name ↔ k = name ∨ ∃ t, after '.' name = some t ∧ DottedSuffix k t := by
  rw [← exists_prefix_iff]
  rfl

theorem mem_ancestors_iff (k name : Str) :
    k ∈ ancestors (dots name + 1) name ↔ DottedSuffix k name := by
  generalize hn : dots name = n
  induction n generalizing name with
  | zero =>
      have hnone := (dots_eq_zero_iff name).mp hn
      simp [ancestors, dottedSuffix_iff k name, hnone]
  | succ n ih =>
      cases ht : after '.' name with
      | none => rw [(dots_eq_zero_iff name).mpr ht] at hn; cases hn
      | some t =>
          have hdots : dots t = n := by rw [dots_of_after ht] at hn; omega
          rw [ancestors, List.mem_cons, parent_of_after ht, ih t hdots, dottedSuffix_iff k name]
          simp [ht]

theorem DottedSuffix.refl (name : Str) : DottedSuffix name name := Or.inl rfl

theorem DottedSuffix.trans {k m n : Str} (h : DottedSuffix k m) (h' : DottedSuffix m n) :
    DottedSuffix k n := by
  rcases h with rfl | ⟨p, rfl⟩
  · exact h'
  · rcases h' with rfl | ⟨q, rfl⟩
    · exact Or.inr ⟨p, rfl⟩
    · exact Or.inr ⟨q ++ '.' :: p, by simp⟩

end PfBlockerNG.Strings
