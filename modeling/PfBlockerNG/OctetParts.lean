import PfBlockerNG.OctetRegex

/-!
How the engine reads a rule the expansion accepts: every part adds its own items wherever it
stands, and the groups around the address can only be passed over.
-/

namespace PfBlockerNG.OctetParts

open PfBlockerNG.GroupRepeats
open PfBlockerNG.OctetRegex
open PfBlockerNG.PcreReading
open PfBlockerNG.PyText
open PfBlockerNG.Strings

/-! ### The scanner of the parts -/

/-- Whether the last character was a backslash, and how many parentheses are open. -/
def scanStep : Bool × Nat → Char → Option (Bool × Nat)
  | (true, d), _ => some (false, d)
  | (false, d), c =>
      if c = '\\' then some (true, d)
      else if c = '(' then some (false, d + 1)
      else if c = ')' then if d = 0 then none else some (false, d - 1)
      else if c = '|' ∧ d = 0 then none
      else some (false, d)

/-- A text that closes what is open and has no bar outside parentheses. -/
def Closed (d : Nat) (p : Str) : Prop := ∃ b, p.foldlM scanStep (false, d) = some (b, 0)

/-- The parts of a text: the first one is closed, the others are those of what stands behind
it. -/
def Cut (d : Nat) (cur s : Str) (parts : List Str) : Prop :=
  ∃ p rest, parts = (cur ++ p) :: rest ∧ Closed d p ∧
    (s = p ∧ rest = [] ∨ ∃ s', s = p ++ '\\' :: '.' :: s' ∧ splitParts 0 [] s' = some rest)

theorem Cut.grow {d d' : Nat} {cur s q : Str} {parts : List Str}
    (h : Cut d' (cur ++ q) s parts)
    (hstep : q.foldlM scanStep (false, d) = some (false, d')) : Cut d cur (q ++ s) parts := by
  obtain ⟨p, rest, rfl, ⟨b, hp⟩, hs⟩ := h
  refine ⟨q ++ p, rest, by rw [List.append_assoc], ⟨b, ?_⟩, ?_⟩
  · rw [List.foldlM_append, hstep]
    exact hp
  · rcases hs with ⟨rfl, hrest⟩ | ⟨s', rfl, hrest⟩
    · exact Or.inl ⟨rfl, hrest⟩
    · exact Or.inr ⟨s', (List.append_assoc _ _ _).symm, hrest⟩

theorem cut_of_splitParts {d : Nat} {cur s : Str} {parts : List Str}
    (h : splitParts d cur s = some parts) : Cut d cur s parts := by
  fun_induction splitParts d cur s generalizing parts with
  | case1 cur =>
      obtain rfl := Option.some.inj h
      exact ⟨[], [], by rw [List.append_nil], ⟨false, rfl⟩, Or.inl ⟨rfl, rfl⟩⟩
  | case2 | case7 | case9 => cases h
  | case3 d cur =>
      rw [splitParts] at h
      split at h
      · rename_i hd
        obtain rfl := Option.some.inj h
        exact ⟨['\\'], [], rfl, ⟨true, by rw [hd]; rfl⟩, Or.inl ⟨rfl, rfl⟩⟩
      · cases h
  | case4 d cur c s hc =>
      obtain ⟨rfl, rfl⟩ := hc
      obtain ⟨rest, hrest, rfl⟩ := Option.map_eq_some_iff.mp h
      exact ⟨[], rest, by rw [List.append_nil], ⟨false, rfl⟩, Or.inr ⟨s, rfl, hrest⟩⟩
  | case5 d cur c s _ ih => exact (ih h).grow rfl
  | case6 d cur s _ ih => exact (ih h).grow rfl
  | case8 d cur s hd _ _ ih =>
      apply (ih h).grow
      simp [scanStep, hd]
  | case10 d cur c s h₁ h₂ h₃ h₄ ih =>
      apply (ih h).grow
      simp [scanStep, h₁, h₂, h₃, h₄]

/-! ### A part is read as the scanner cuts it -/

def inEscape : PartTurn → Bool
  | .escape => true
  | .inClass t => t == .escape
  | .outside => false

/-- How many groups the pending text opens. -/
def pendingDepth : Pending → Nat
  | .opening | .openingMark => 1
  | _ => 0

inductive ClassAgrees : DigitTurn → ClassTurn → Prop
  | fresh : ClassAgrees .fresh .fresh
  | digit {a : Char} (h : isAsciiDigit a = true) : ClassAgrees .digit (.char a)
  | dash {a : Char} (h : isAsciiDigit a = true) : ClassAgrees .dash (.dash a)
  | item : ClassAgrees .item .item
  | escape : ClassAgrees .escape .escape

/-- What the engine has pending where the check of a part has got to. -/
inductive Agrees : PartTurn → Pending → Prop
  | plain : Agrees .outside .plain
  | quantifier {low : Nat} {high : Option Nat} : Agrees .outside (.quantifier low high)
  | brace {text : Str} (h : ∀ c ∈ text, c ≠ '.') : Agrees .outside (.brace text)
  | opening : Agrees .outside .opening
  | openingMark : Agrees .outside .openingMark
  | escape : Agrees .escape .escape
  | inClass {ranges : List (Char × Char)} {t : DigitTurn} {turn : ClassTurn}
      (hranges : ∀ r ∈ ranges, isAsciiDigit r.1 = true) (h : ClassAgrees t turn) :
      Agrees (.inClass t) (.inClass ranges turn)

/-- Tokens that keep the depth as it is from `k` on, and take no dot. -/
def Keeps (k k' : Nat) (ts : List Token) : Prop :=
  ts.foldlM (tokenDepth false) k = some k' ∧ ∀ t ∈ ts, t.Refuses '.'

theorem Keeps.append {k k' l : Nat} {ts us : List Token} (h : Keeps k k' ts)
    (h' : Keeps k' l us) : Keeps k l (ts ++ us) := by
  refine ⟨?_, fun t ht => ?_⟩
  · rw [List.foldlM_append, h.1]
    exact h'.1
  · rcases List.mem_append.mp ht with ht | ht
    · exact h.2 t ht
    · exact h'.2 t ht

theorem keeps_nil (k : Nat) : Keeps k k [] := ⟨rfl, by simp⟩

theorem keeps_item {a : Atom} (h : a.mem '.' = false) (k : Nat) : Keeps k k [.item a] :=
  ⟨by cases k <;> rfl, by simpa [Token.Refuses] using h⟩

theorem keeps_repeated (low : Nat) (high : Option Nat) (mode : Mode) (k : Nat) :
    Keeps k k [.repeated low high mode] := ⟨by cases k <;> rfl, by simp [Token.Refuses]⟩

theorem char_refuses {c : Char} (h : c ≠ '.') : (Atom.char c).mem '.' = false := by
  simp only [Atom.mem, Atom.char, List.any_cons, List.any_nil, Bool.or_false, Bool.and_eq_false_iff,
    decide_eq_false_iff_not]
  by_contra hle
  push Not at hle
  exact h (Char.le_antisymm hle.1 hle.2)

theorem among_refuses {ranges : List (Char × Char)}
    (h : ∀ r ∈ ranges, isAsciiDigit r.1 = true) : (Atom.among ranges).mem '.' = false := by
  simp only [Atom.mem, List.any_eq_false, Bool.and_eq_true, decide_eq_true_eq, not_and]
  intro r hr hle
  have hdigit := (isAsciiDigit_bounds (h r hr)).1
  have hnat : r.1.toNat ≤ 46 := hle
  omega

theorem keeps_literals {s : Str} (h : ∀ c ∈ s, c ≠ '.') (k : Nat) : Keeps k k (literals s) := by
  induction s with
  | nil => exact keeps_nil k
  | cons c s ih =>
      have hhead := keeps_item (char_refuses (h c List.mem_cons_self)) k
      exact hhead.append (ih fun d hd => h d (List.mem_cons_of_mem c hd))

variable {openLow : Bool}

/-- After a step the check, the engine and the scanner have got to the same place. -/
def Step (q' : PartTurn) (k : Nat) (read : List Token × Pending) (scan : Bool × Nat) : Prop :=
  Agrees q' read.2 ∧ scan.1 = inEscape q' ∧
    ∃ k', Keeps k k' read.1 ∧ scan.2 = k' + pendingDepth read.2

theorem ne_of_digit {c : Char} (h : isAsciiDigit c = true) (d : Char)
    (hd : isAsciiDigit d = false) : c ≠ d := by
  rintro rfl
  rw [h] at hd
  cases hd

theorem scanStep_digit {c : Char} (h : isAsciiDigit c = true) (k : Nat) :
    scanStep (false, k) c = some (false, k) := by
  have hne := ne_of_digit h
  simp (disch := decide) [scanStep, hne]

theorem readPlain_step {q' : PartTurn} {c : Char} {k : Nat} {scan : Bool × Nat}
    (hpart : partStep .outside c = some q') (hscan : scanStep (false, k) c = some scan) :
    Step q' k (readPlain c) scan := by
  have hliteral : readPlain c = ([.item (.char c)], .plain) → c ≠ '.' →
      scanStep (false, k) c = some (false, k) → Step .outside k (readPlain c) scan := by
    intro hread hdot hstep
    rw [hstep] at hscan
    obtain rfl := Option.some.inj hscan
    rw [hread]
    exact ⟨.plain, rfl, k, keeps_item (char_refuses hdot) k, rfl⟩
  simp only [partStep] at hpart
  split at hpart
  · rename_i hc
    obtain rfl := hc
    obtain rfl := Option.some.inj hpart
    obtain rfl := Option.some.inj hscan
    exact ⟨.escape, rfl, k, keeps_nil k, rfl⟩
  · split at hpart
    · rename_i hc
      obtain rfl := hc
      obtain rfl := Option.some.inj hpart
      obtain rfl := Option.some.inj hscan
      exact ⟨.inClass (by simp) .fresh, rfl, k, keeps_nil k, rfl⟩
    · split at hpart
      · rename_i hc
        obtain rfl := Option.some.inj hpart
        rcases Bool.or_eq_true _ _ ▸ hc with hdigit | hmem
        · have hne := ne_of_digit hdigit
          apply hliteral
          · simp (disch := decide) [readPlain, hne]
          · exact hne '.' rfl
          · exact scanStep_digit hdigit k
        · have hcases : c = '?' ∨ c = '*' ∨ c = '+' ∨ c = '\x7b' ∨ c = '\x7d' ∨ c = ',' ∨
              c = '(' ∨ c = ')' ∨ c = '|' ∨ c = '-' := by simpa using hmem
          rcases hcases with rfl | rfl | rfl | rfl | rfl | rfl | rfl | rfl | rfl | rfl
          · obtain rfl := Option.some.inj hscan
            exact ⟨.quantifier, rfl, k, keeps_nil k, rfl⟩
          · obtain rfl := Option.some.inj hscan
            exact ⟨.quantifier, rfl, k, keeps_nil k, rfl⟩
          · obtain rfl := Option.some.inj hscan
            exact ⟨.quantifier, rfl, k, keeps_nil k, rfl⟩
          · obtain rfl := Option.some.inj hscan
            exact ⟨.brace (by simp), rfl, k, keeps_nil k, rfl⟩
          · exact hliteral rfl (by decide) rfl
          · exact hliteral rfl (by decide) rfl
          · obtain rfl := Option.some.inj hscan
            exact ⟨.opening, rfl, k, keeps_nil k, rfl⟩
          · cases k with
            | zero => cases hscan
            | succ k =>
                obtain rfl := Option.some.inj hscan
                exact ⟨.plain, rfl, k, ⟨rfl, by simp [Token.Refuses, readPlain]⟩, rfl⟩
          · cases k with
            | zero => cases hscan
            | succ k =>
                obtain rfl := Option.some.inj hscan
                exact ⟨.plain, rfl, k + 1, ⟨rfl, by simp [Token.Refuses, readPlain]⟩, rfl⟩
          · exact hliteral rfl (by decide) rfl
      · cases hpart

theorem flush_keeps {m : Pending} {fs : List Token} (h : Agrees .outside m)
    (hflush : flush m = some fs) (k : Nat) : Keeps k (k + pendingDepth m) fs := by
  cases h with
  | plain =>
      obtain rfl := Option.some.inj hflush
      exact keeps_nil k
  | quantifier =>
      obtain rfl := Option.some.inj hflush
      exact keeps_repeated _ _ _ k
  | brace htext =>
      obtain rfl := Option.some.inj hflush
      exact keeps_literals (by simpa using htext) k
  | opening =>
      obtain rfl := Option.some.inj hflush
      exact ⟨rfl, by simp [Token.Refuses]⟩
  | openingMark => cases hflush

theorem follow_step {m : Pending} {q' : PartTurn} {c : Char} {k : Nat} {scan : Bool × Nat}
    {read : List Token × Pending} (h : Agrees .outside m)
    (hpart : partStep .outside c = some q') (hread : follow m c = some read)
    (hscan : scanStep (false, k + pendingDepth m) c = some scan) : Step q' k read scan := by
  obtain ⟨fs, hflush, rfl⟩ := Option.map_eq_some_iff.mp hread
  obtain ⟨hagrees, hesc, k', hkeeps, hdepth⟩ := readPlain_step hpart hscan
  exact ⟨hagrees, hesc, k', (flush_keeps h hflush k).append hkeeps, hdepth⟩

theorem ranges_concat {ranges : List (Char × Char)} {a b : Char}
    (h : ∀ r ∈ ranges, isAsciiDigit r.1 = true) (ha : isAsciiDigit a = true) :
    ∀ r ∈ ranges ++ [(a, b)], isAsciiDigit r.1 = true := by
  intro r hr
  rcases List.mem_append.mp hr with hr | hr
  · exact h r hr
  · rw [List.mem_singleton.mp hr]
    exact ha

/-- A digit, an escape or the end of a class where an item may begin. -/
theorem single_step {t : DigitTurn} {turn : ClassTurn} {ranges ranges' : List (Char × Char)}
    {q' : PartTurn} {c : Char} {k : Nat} {scan : Bool × Nat} {read : List Token × Pending}
    (hranges : ∀ r ∈ ranges', isAsciiDigit r.1 = true)
    (hpart : (if isAsciiDigit c then some (PartTurn.inClass .digit)
      else if c = '\\' then some (.inClass .escape)
      else if c = ']' ∧ t ≠ .fresh then some .outside
      else if c = '-' ∧ t = .digit then some (.inClass .dash)
      else none) = some q')
    (hdigit : isAsciiDigit c = true →
      readClass ranges turn c = some ([], .inClass ranges' (.char c)))
    (hescape : readClass ranges turn '\\' = some ([], .inClass ranges' .escape))
    (hend : t ≠ .fresh → readClass ranges turn ']' = some ([.item (.among ranges')], .plain))
    (hdash : t = .digit → ∃ a, isAsciiDigit a = true ∧ (∀ r ∈ ranges, isAsciiDigit r.1 = true) ∧
      readClass ranges turn '-' = some ([], .inClass ranges (.dash a)))
    (hread : readClass ranges turn c = some read) (hscan : scanStep (false, k) c = some scan) :
    Step q' k read scan := by
  split at hpart
  · rename_i hc
    obtain rfl := Option.some.inj hpart
    rw [hdigit hc] at hread
    obtain rfl := Option.some.inj hread
    obtain rfl := Option.some.inj ((scanStep_digit hc k).symm.trans hscan)
    exact ⟨.inClass hranges (.digit hc), rfl, k, keeps_nil k, rfl⟩
  · split at hpart
    · rename_i hc
      obtain rfl := hc
      obtain rfl := Option.some.inj hpart
      rw [hescape] at hread
      obtain rfl := Option.some.inj hread
      obtain rfl := Option.some.inj hscan
      exact ⟨.inClass hranges .escape, rfl, k, keeps_nil k, rfl⟩
    · split at hpart
      · rename_i hc
        obtain ⟨rfl, ht⟩ := hc
        obtain rfl := Option.some.inj hpart
        rw [hend ht] at hread
        obtain rfl := Option.some.inj hread
        obtain rfl := Option.some.inj hscan
        exact ⟨.plain, rfl, k, keeps_item (among_refuses hranges) k, rfl⟩
      · split at hpart
        · rename_i hc
          obtain ⟨rfl, ht⟩ := hc
          obtain ⟨a, ha, hbefore, hread'⟩ := hdash ht
          obtain rfl := Option.some.inj hpart
          rw [hread'] at hread
          obtain rfl := Option.some.inj hread
          obtain rfl := Option.some.inj hscan
          exact ⟨.inClass hbefore (.dash ha), rfl, k, keeps_nil k, rfl⟩
        · cases hpart

theorem readClass_step {t : DigitTurn} {turn : ClassTurn} {ranges : List (Char × Char)}
    {q' : PartTurn} {c : Char} {k : Nat} {scan : Bool × Nat} {read : List Token × Pending}
    (hranges : ∀ r ∈ ranges, isAsciiDigit r.1 = true) (h : ClassAgrees t turn)
    (hpart : classStep t c = some q') (hread : readClass ranges turn c = some read)
    (hscan : scanStep (t == .escape, k) c = some scan) : Step q' k read scan := by
  cases h with
  | fresh =>
      refine single_step hranges hpart ?_ rfl (fun h => absurd rfl h) (fun h => nomatch h) hread
        hscan
      intro hc
      have hne := ne_of_digit hc
      simp (disch := decide) [readClass, hne]
  | digit ha =>
      refine single_step (ranges_concat hranges ha) hpart ?_ rfl (fun _ => rfl)
        (fun _ => ⟨_, ha, hranges, rfl⟩) hread hscan
      intro hc
      have hne := ne_of_digit hc
      simp (disch := decide) [readClass, hne]
  | item =>
      refine single_step hranges hpart ?_ rfl (fun _ => rfl) (fun h => nomatch h) hread hscan
      intro hc
      have hne := ne_of_digit hc
      simp (disch := decide) [readClass, hne]
  | dash ha =>
      simp only [classStep] at hpart
      split at hpart
      · rename_i hc
        obtain rfl := Option.some.inj hpart
        obtain rfl := Option.some.inj ((scanStep_digit hc k).symm.trans hscan)
        simp only [readClass] at hread
        split at hread
        · cases hread
        · split at hread
          · obtain rfl := Option.some.inj hread
            exact ⟨.inClass (ranges_concat hranges ha) .item, rfl, k, keeps_nil k, rfl⟩
          · cases hread
      · cases hpart
  | escape =>
      simp only [classStep] at hpart
      split at hpart
      · rename_i hc
        obtain rfl := hc
        obtain rfl := Option.some.inj hpart
        obtain rfl := Option.some.inj hread
        obtain rfl := Option.some.inj hscan
        exact ⟨.inClass (ranges_concat hranges rfl) .item, rfl, k, keeps_nil k, rfl⟩
      · cases hpart

/-- One character of a part. -/
theorem lexStep_step {m : Pending} {q q' : PartTurn} {c : Char} {k : Nat} {scan : Bool × Nat}
    {read : List Token × Pending} (h : Agrees q m) (hpart : partStep q c = some q')
    (hread : lexStep openLow m c = some read)
    (hscan : scanStep (inEscape q, k + pendingDepth m) c = some scan) : Step q' k read scan := by
  have hfollow : q = .outside → follow m c = some read → Step q' k read scan := by
    rintro rfl hread
    exact follow_step h hpart hread hscan
  cases h with
  | plain =>
      have hcloses : Closes openLow .plain c := closes_plain c
      exact hfollow rfl (hcloses ▸ hread)
  | quantifier =>
      simp only [lexStep] at hread
      split at hread
      · rename_i hc
        obtain rfl := hc
        obtain rfl := Option.some.inj hpart
        obtain rfl := Option.some.inj hread
        obtain rfl := Option.some.inj hscan
        exact ⟨.plain, rfl, k, keeps_repeated _ _ _ k, rfl⟩
      · split at hread
        · rename_i hc
          obtain rfl := hc
          obtain rfl := Option.some.inj hpart
          obtain rfl := Option.some.inj hread
          obtain rfl := Option.some.inj hscan
          exact ⟨.plain, rfl, k, keeps_repeated _ _ _ k, rfl⟩
        · exact hfollow rfl hread
  | brace htext =>
      simp only [lexStep] at hread
      split at hread
      · rename_i hc
        obtain rfl := hc
        obtain rfl := Option.some.inj hpart
        obtain rfl := Option.some.inj hscan
        split at hread
        · obtain rfl := Option.some.inj hread
          refine ⟨.plain, rfl, k, keeps_literals ?_ k, rfl⟩
          intro d hd
          rw [List.mem_append, List.mem_cons, List.mem_singleton] at hd
          rcases hd with (rfl | hd) | rfl
          · decide
          · exact htext d hd
          · decide
        · cases hread
        · obtain rfl := Option.some.inj hread
          exact ⟨.quantifier, rfl, k, keeps_nil k, rfl⟩
      · split at hread
        · rename_i hc
          obtain rfl := Option.some.inj hread
          have hq : q' = .outside ∧ scan = (false, k) ∧ c ≠ '.' := by
            rw [Bool.or_eq_true, decide_eq_true_eq] at hc
            rcases hc with hdigit | rfl
            · have hne := ne_of_digit hdigit
              refine ⟨?_, ?_, hne '.' rfl⟩
              · simpa (disch := decide) [partStep, hne, hdigit] using hpart.symm
              · exact Option.some.inj (hscan.symm.trans (scanStep_digit hdigit k))
            · exact ⟨(Option.some.inj hpart).symm, (Option.some.inj hscan).symm, by decide⟩
          obtain ⟨rfl, rfl, hdot⟩ := hq
          refine ⟨.brace ?_, rfl, k, keeps_nil k, rfl⟩
          intro d hd
          rcases List.mem_append.mp hd with hd | hd
          · exact htext d hd
          · rw [List.mem_singleton.mp hd]
            exact hdot
        · exact hfollow rfl hread
  | opening =>
      simp only [lexStep] at hread
      split at hread
      · rename_i hc
        obtain rfl := hc
        obtain rfl := Option.some.inj hpart
        obtain rfl := Option.some.inj hread
        obtain rfl := Option.some.inj hscan
        exact ⟨.openingMark, rfl, k, keeps_nil k, rfl⟩
      · exact hfollow rfl hread
  | openingMark =>
      simp only [lexStep] at hread
      split at hread
      · rename_i hc
        obtain rfl := hc
        cases hpart
      · cases hread
  | escape =>
      simp only [partStep] at hpart
      split at hpart
      · rename_i hc
        obtain rfl := hc
        obtain rfl := Option.some.inj hpart
        obtain rfl := Option.some.inj hread
        obtain rfl := Option.some.inj hscan
        exact ⟨.plain, rfl, k, keeps_item rfl k, rfl⟩
      · cases hpart
  | inClass hranges hclass => exact readClass_step hranges hclass hpart hread hscan

theorem lexRun_step {p : Str} {m : Pending} {q q' : PartTurn} {k : Nat} {scan : Bool × Nat}
    {read : List Token × Pending} (h : Agrees q m) (hpart : p.foldlM partStep q = some q')
    (hread : lexRun openLow m p = some read)
    (hscan : p.foldlM scanStep (inEscape q, k + pendingDepth m) = some scan) :
    Step q' k read scan := by
  induction p generalizing m q k read with
  | nil =>
      obtain rfl := Option.some.inj hpart
      obtain rfl := Option.some.inj hread
      obtain rfl := Option.some.inj hscan
      exact ⟨h, rfl, k, keeps_nil k, rfl⟩
  | cons c p ih =>
      rw [List.foldlM_cons, Option.bind_eq_bind, Option.bind_eq_some_iff] at hpart hscan
      rw [lexRun, Option.bind_eq_some_iff] at hread
      obtain ⟨q₁, hq₁, hpart⟩ := hpart
      obtain ⟨⟨esc, d⟩, hstep, hscan⟩ := hscan
      obtain ⟨r, hr, hread⟩ := hread
      obtain ⟨r', hr', rfl⟩ := Option.map_eq_some_iff.mp hread
      obtain ⟨hagrees, rfl, k₁, hkeeps, rfl⟩ := lexStep_step h hq₁ hr hstep
      obtain ⟨hagrees', hesc, k', hkeeps', hdepth⟩ := ih hagrees hpart hr' hscan
      exact ⟨hagrees', hesc, k', hkeeps.append hkeeps', hdepth⟩

/-- A part that compiles on its own adds items that take no dot wherever it stands. -/
theorem adds_of_part {p : Str} {r : Regex} (hpart : isPart p = true) (hclosed : Closed 0 p)
    (hr : readRegex openLow ("^(?:".toList ++ p ++ ")$".toList) = some r) :
    ∃ m J, Adds openLow p m J ∧ (∀ j ∈ J, Refuses Atom.mem '.' j) ∧
      r = seq [.start, seq J, .stop] := by
  obtain ⟨us, m', gs, f, hall, -⟩ := readRegex_eq_some_iff.mp hr
  have hstart : lexRun openLow .plain "^(?:".toList = some ([.caret, .opening], .plain) := rfl
  rw [lexRun_append, lexRun_append, hstart, Option.bind_some, Option.bind_map,
    Option.bind_eq_some_iff] at hall
  obtain ⟨⟨ts, m⟩, hlex, hall⟩ := hall
  obtain ⟨b, hscan⟩ := hclosed
  have hout : p.foldlM partStep .outside = some .outside := by
    rw [isPart, Bool.and_eq_true] at hpart
    exact beq_iff_eq.mp hpart.2
  obtain ⟨hagrees, -, k, hkeeps, hdepth⟩ := lexRun_step .plain hout hlex hscan
  have hflush : ∃ fs, flush m = some fs := by
    cases hagrees with
    | openingMark => cases hall
    | _ => exact ⟨_, rfl⟩
  obtain ⟨fs, hflush⟩ := hflush
  have hclose := flush_keeps hagrees hflush k
  rw [← hdepth] at hclose
  have hkeep := hkeeps.append hclose
  obtain ⟨J, hadds, rfl⟩ := adds_of_wrapped hlex hflush hkeep.1 hr
  exact ⟨m, J, hadds, hadds.refuses hlex hflush hkeep.2, rfl⟩

/-! ### The parts in their places -/

theorem splitParts_spec {s : Str} {parts : List Str} (h : splitParts 0 [] s = some parts) :
    parts ≠ [] ∧ s = ['\\', '.'].intercalate parts ∧ ∀ p ∈ parts, Closed 0 p := by
  induction parts generalizing s with
  | nil =>
      obtain ⟨p, rest, heq, -⟩ := cut_of_splitParts h
      cases heq
  | cons part parts ih =>
      obtain ⟨p, rest, heq, hclosed, hs⟩ := cut_of_splitParts h
      rw [List.nil_append, List.cons.injEq] at heq
      obtain ⟨rfl, rfl⟩ := heq
      refine ⟨List.cons_ne_nil _ _, ?_⟩
      rcases hs with ⟨rfl, rfl⟩ | ⟨s', rfl, hrest⟩
      · exact ⟨by simp, by simpa using hclosed⟩
      · obtain ⟨hne, rfl, hparts⟩ := ih hrest
        obtain ⟨p', rest, rfl⟩ := List.exists_cons_of_ne_nil hne
        exact ⟨by simp, List.forall_mem_cons.mpr ⟨hclosed, hparts⟩⟩

/-- The items of the parts with a dot between them. -/
def chain : List (List Regex) → List Regex → List Regex
  | [], K => K
  | [J], K => J ++ K
  | J :: Js, K => J ++ .atom (.char '.') :: chain Js K

theorem Adds.flush_ne_none {p : Str} {m : Pending} {J : List Regex} (h : Adds openLow p m J) :
    flush m ≠ none := by
  obtain ⟨ts, fs, -, hflush, -⟩ := h
  simp [hflush]

theorem adds_chain {parts : List Str} {Js : List (List Regex)}
    (h : List.Forall₂ (fun p J => p ≠ [] ∧ ∃ m, Adds openLow p m J) parts Js) (hne : parts ≠ [])
    {c : Char} {t : Str} {m : Pending} {K : List Regex} (htail : Adds openLow (c :: t) m K)
    (hc : c ∈ ['\\', ')', '(', '$']) :
    Adds openLow (['\\', '.'].intercalate parts ++ c :: t) m (chain Js K) := by
  induction h with
  | nil => exact absurd rfl hne
  | @cons p J parts Js hp hrest ih =>
      obtain ⟨-, m', hadds⟩ := hp
      cases hrest with
      | nil =>
          rw [List.intercalate_singleton]
          exact hadds.append htail (closes_of_mem hc (Adds.flush_ne_none hadds))
      | @cons p' J' parts Js hp' hrest =>
          have hchain := ih (List.cons_ne_nil _ _)
          obtain ⟨a, q, rfl⟩ := List.exists_cons_of_ne_nil hp'.1
          rw [List.intercalate_cons_cons_left, List.cons_append] at hchain
          have hdot := adds_dot.append hchain (closes_plain a)
          have hpart := hadds.append hdot
            (closes_of_mem (by simp) (Adds.flush_ne_none hadds))
          rw [List.intercalate_cons_cons, List.intercalate_cons_cons_left, List.append_assoc,
            List.append_assoc]
          exact hpart

/-! ### The groups around the address -/

/-- Items that match the empty text only where no colon and no slash is left. -/
def Skipped (I : List Regex) : Prop := ∀ total (s : Str), ':' ∉ s → '/' ∉ s →
  ends Atom.mem (· == '\n') total (seq I) s = [s]

theorem skipped_nil : Skipped [] := fun _ _ _ _ => rfl

theorem skipped_optional {a : Atom} (ha : ∀ c, a.mem c = true → c = ':' ∨ c = '/')
    (rs qs : List Regex) :
    Skipped [.rep (seq (rs ++ .atom a :: qs)) 0 (some 1) .greedy] := by
  intro total s hcolon hslash
  rw [ends_seq_singleton]
  apply ends_optional
  apply ends_seq_atom_eq_nil
  intro c hc
  by_contra hmem
  rw [Bool.not_eq_false] at hmem
  rcases ha c hmem with rfl | rfl
  · exact hcolon hc
  · exact hslash hc

theorem char_mem {a c : Char} (h : (Atom.char a).mem c = true) : c = a := by
  simp only [Atom.mem, Atom.char, List.any_cons, List.any_nil, Bool.or_false, Bool.and_eq_true,
    decide_eq_true_eq] at h
  exact Char.le_antisymm h.2 h.1

/-- What the engine holds where the words of a scheme have got to. -/
def WordState : WordTurn → Pending → Frame → Prop
  | .fresh, m, _ => m = .plain
  | .letters, m, f => m = .plain ∧ f.quantifiable = true ∧ f.items ≠ []
  | .marked, m, f => m = .quantifier 0 (some 1) ∧ f.quantifiable = true ∧ f.items ≠ []

theorem read_repeated {f : Frame} (hquant : f.quantifiable = true) (hne : f.items ≠ [])
    (low : Nat) (high : Option Nat) (mode : Mode) :
    ∃ g, f.read (.repeated low high mode) = some g := by
  obtain ⟨r, hr⟩ := List.getLast?_isSome.mpr hne |> Option.isSome_iff_exists.mp
  refine ⟨⟨f.finished, f.items.dropLast ++ [.rep r low high mode], false⟩, ?_⟩
  simp only [Frame.read, hquant, hr]

/-- Words up to the parenthesis that ends them, read into an open group. -/
def WordsRead (openLow : Bool) (rest : Str) (m : Pending) (f : Frame) (s : Str) : Prop :=
  ∃ w ts fs m' f', s = w ++ ')' :: rest ∧ lexRun openLow m w = some (ts, m') ∧
    flush m' = some fs ∧ parseTokens [f] (ts ++ fs) = some [f']

theorem WordsRead.cons {rest s : Str} {c : Char} {m m₁ : Pending} {f f₁ : Frame}
    {ts : List Token} (h : WordsRead openLow rest m₁ f₁ s)
    (hstep : lexStep openLow m c = some (ts, m₁)) (hparse : parseTokens [f] ts = some [f₁]) :
    WordsRead openLow rest m f (c :: s) := by
  obtain ⟨w, us, fs, m', f', rfl, hlex, hflush, hrest⟩ := h
  refine ⟨c :: w, ts ++ us, fs, m', f', rfl, ?_, hflush, ?_⟩
  · rw [lexRun, hstep, Option.bind_some, hlex]
    rfl
  · rw [parseTokens] at hparse hrest ⊢
    rw [List.append_assoc, List.foldlM_append, hparse]
    exact hrest

theorem wordsRead_end {rest : Str} {m : Pending} {f f' : Frame} {fs : List Token}
    (hflush : flush m = some fs) (hparse : parseTokens [f] fs = some [f']) :
    WordsRead openLow rest m f (')' :: rest) :=
  ⟨[], [], fs, m, f', rfl, rfl, hflush, hparse⟩

theorem readPlain_letter {c : Char} (h : isLetter c = true) :
    readPlain c = ([.item (.char c)], .plain) := by
  have hne : ∀ d : Char, isLetter d = false → c ≠ d := by
    rintro d hd rfl
    rw [h] at hd
    cases hd
  simp (disch := decide) [readPlain, hne]

theorem wordsRead_of_rest {t : WordTurn} {s rest : Str} (h : wordsRest t s = some rest)
    {m : Pending} {f : Frame} (hstate : WordState t m f) : WordsRead openLow rest m f s := by
  fun_induction wordsRest t s generalizing m f with
  | case1 | case3 | case7 => cases h
  | case2 t c s hc ih =>
      have hm : m = .plain := by
        cases t with
        | fresh => exact hstate
        | letters => exact hstate.1
        | marked => exact absurd rfl hc.1
      obtain rfl := hm
      have hread : lexStep openLow .plain c = some ([.item (.char c)], .plain) :=
        congrArg some (readPlain_letter hc.2)
      refine (ih h (f := f.push (.atom (.char c))) ⟨rfl, rfl, ?_⟩).cons hread rfl
      simp [Frame.push]
  | case4 t c s _ _ hc ih =>
      obtain ⟨rfl, rfl⟩ := hc
      obtain ⟨rfl, hquant, hne⟩ := hstate
      exact (ih h (f := f) ⟨rfl, hquant, hne⟩).cons rfl rfl
  | case5 t s hfresh _ _ ih =>
      cases t with
      | fresh => exact absurd rfl hfresh
      | letters =>
          obtain ⟨rfl, -, -⟩ := hstate
          exact (ih h rfl).cons rfl rfl
      | marked =>
          obtain ⟨rfl, hquant, hne⟩ := hstate
          obtain ⟨g, hg⟩ := read_repeated hquant hne 0 (some 1) .greedy
          have hparse : parseTokens [f] [.repeated 0 (some 1) .greedy, .bar] =
              some [⟨g.finished ++ [seq g.items], [], false⟩] := by
            change ((f.read _).map (· :: [])).bind _ = _
            rw [hg]
            rfl
          exact (ih h rfl).cons rfl hparse
  | case6 t s hfresh _ _ _ =>
      obtain rfl := Option.some.inj h
      cases t with
      | fresh => exact absurd rfl hfresh
      | letters =>
          obtain ⟨rfl, -, -⟩ := hstate
          exact wordsRead_end rfl rfl
      | marked =>
          obtain ⟨rfl, hquant, hne⟩ := hstate
          obtain ⟨g, hg⟩ := read_repeated hquant hne 0 (some 1) .greedy
          have hparse : parseTokens [f] [.repeated 0 (some 1) .greedy] = some [g] := by
            change ((f.read _).map (· :: [])).bind _ = _
            rw [hg]
            rfl
          exact wordsRead_end rfl hparse

theorem adds_schemeEnd : Adds openLow [':', '/', '/'] .plain
    [.atom (.char ':'), .atom (.char '/'), .atom (.char '/')] :=
  ⟨[.item (.char ':'), .item (.char '/'), .item (.char '/')], [], rfl, rfl,
    fun _ _ _ => ⟨true, by simp [parseTokens, parseStep, Frame.read, Frame.push]⟩⟩

theorem schemeRest_spec {inner rest : Str} (h : schemeRest inner = some rest) :
    ∃ group I, inner = group ++ rest ∧ Adds openLow group (.quantifier 0 (some 1)) I ∧
      Skipped I := by
  have hcolon : ∀ c, (Atom.char ':').mem c = true → c = ':' ∨ c = '/' := fun c hc =>
    Or.inl (char_mem hc)
  obtain ⟨s, hs, hend⟩ := Option.bind_eq_some_iff.mp h
  split at hend
  · rename_i hstarts
    obtain rfl := Option.some.inj hend
    obtain ⟨rest, rfl⟩ := List.isPrefixOf_iff_prefix.mp hstarts
    rw [List.drop_left]
    split at hs
    · obtain rfl := Option.some.inj hs
      have hbody : readRegex openLow ".*://".toList = some
          (seq ([.rep (.atom .any) 0 none .greedy] ++ .atom (.char ':') ::
            [.atom (.char '/'), .atom (.char '/')])) := rfl
      exact ⟨"(.*://)?".toList, _, rfl, adds_optional hbody (by decide),
        skipped_optional hcolon _ _⟩
    · obtain ⟨w, ts, fs, m, f, rfl, hlex, hflush, hparse⟩ :=
        wordsRead_of_rest hs (f := .fresh) rfl
      have hhead : ∃ c v, w = c :: v ∧ c ≠ '?' := by
        cases w with
        | nil => exact nomatch hs
        | cons c v =>
            refine ⟨c, v, rfl, ?_⟩
            rintro rfl
            cases hs
      obtain ⟨c, v, rfl, hc⟩ := hhead
      have hread := readRegex_eq_some_iff.mpr ⟨_, _, _, _, hlex, hflush, hparse, rfl⟩
      have hwords := adds_group hread hc
      have hbody := (hwords.append adds_schemeEnd (closes_plain ':')).readRegex
      refine ⟨_, _, ?_, adds_optional hbody (by decide), skipped_optional hcolon _ _⟩
      simp [schemeEnd]
    · cases hs
  · cases hend

theorem stripScheme_spec (openLow : Bool) (E : Env) (inner : Str) : ∃ group I,
    inner = group ++ stripScheme E inner ∧ Skipped I ∧
      (group = [] ∧ I = [] ∨ Adds openLow group (.quantifier 0 (some 1)) I) := by
  have hsame : ∃ group I, inner = group ++ inner ∧ Skipped I ∧
      (group = [] ∧ I = [] ∨ Adds openLow group (.quantifier 0 (some 1)) I) :=
    ⟨[], [], rfl, skipped_nil, Or.inl ⟨rfl, rfl⟩⟩
  unfold stripScheme
  split
  · exact hsame
  · cases hrest : schemeRest inner with
    | none => exact hsame
    | some rest =>
        obtain ⟨group, I, hinner, hadds, hskip⟩ := schemeRest_spec hrest
        exact ⟨group, I, hinner, hskip, Or.inr hadds⟩

theorem stripPath_spec (E : Env) (inner : Str) : stripPath E inner = [] ∨
    ∃ group, inner = stripPath E inner ++ group ∧ (group = [] ∨ group ∈ pathGroups) := by
  unfold stripPath
  split
  · exact Or.inl rfl
  · refine Or.inr ?_
    split
    · rename_i group hgroup
      have hends := List.find?_some hgroup
      obtain ⟨rest, rfl⟩ := List.isSuffixOf_iff_suffix.mp hends
      refine ⟨group, ?_, Or.inr (List.mem_of_find?_eq_some hgroup)⟩
      simp
    · exact ⟨[], (List.append_nil inner).symm, Or.inl rfl⟩

/-- The path group and the end of the rule. -/
theorem adds_ending (openLow : Bool) {group : Str} (h : group = [] ∨ group ∈ pathGroups) : ∃ c t I,
    group ++ ['$'] = c :: t ∧ c ∈ ['\\', ')', '(', '$'] ∧ Skipped I ∧
      Adds openLow (c :: t) .plain (I ++ [.stop]) := by
  have hgroup : ∀ {c : Char} {s : Str} {a : Atom} {qs : List Regex},
      readRegex openLow (c :: s) = some (seq ([] ++ .atom a :: qs)) → c ≠ '?' →
      (∀ c, a.mem c = true → c = ':' ∨ c = '/') → ∃ d t I,
        ('(' :: c :: s ++ [')', '?']) ++ ['$'] = d :: t ∧ d ∈ ['\\', ')', '(', '$'] ∧ Skipped I ∧
          Adds openLow (d :: t) .plain (I ++ [.stop]) := by
    intro c s a qs hbody hc ha
    refine ⟨'(', _, _, rfl, by simp, skipped_optional ha [] qs, ?_⟩
    exact (adds_optional hbody hc).append adds_dollar (closes_of_mem (by simp) (by simp [flush]))
  have hslash : ∀ c, (Atom.char '/').mem c = true → c = ':' ∨ c = '/' := fun c hc =>
    Or.inr (char_mem hc)
  rcases h with rfl | h
  · exact ⟨'$', [], [], rfl, by simp, skipped_nil, adds_dollar⟩
  · simp only [pathGroups, List.mem_cons, List.not_mem_nil, or_false] at h
    rcases h with rfl | rfl | rfl
    · exact hgroup (c := '/') (s := ".*".toList) rfl (by decide) hslash
    · exact hgroup (c := '\\') (s := "/.*".toList) rfl (by decide) hslash
    · refine hgroup (c := '[') (s := ":/].*".toList) (a := .among [(':', ':'), ('/', '/')]) rfl
        (by decide) fun c hc => ?_
      rw [Atom.mem, List.any_cons, List.any_cons, List.any_nil, Bool.or_false,
        Bool.or_eq_true] at hc
      rcases hc with hc | hc
      · exact Or.inl (char_mem (by simpa [Atom.mem, Atom.char] using hc))
      · exact Or.inr (char_mem (by simpa [Atom.mem, Atom.char] using hc))

/-! ### The whole rule -/

/-- The items of a part are those it has between `^(?:` and `)$`, and take no dot. -/
structure PartReads (openLow : Bool) (p : Str) (J : List Regex) : Prop where
  alone : readRegex openLow ("^(?:".toList ++ p ++ ")$".toList) =
    some (seq [.start, seq J, .stop])
  adds : p ≠ [] ∧ ∃ m, Adds openLow p m J
  refuses : ∀ j ∈ J, Refuses Atom.mem '.' j

theorem inner_of_line {line : Str} (hstart : startsWith ['/'] line = true)
    (hend : endsWith ['$', '/'] line = true) :
    ruleText line = (line.drop 1).take (line.length - 3) ++ ['$'] := by
  obtain ⟨x, rfl⟩ := List.isSuffixOf_iff_suffix.mp hend
  cases x with
  | nil => cases hstart
  | cons c x => simp [ruleText]

/-- The rule without its anchor. -/
theorem adds_address {E : Env} {rest : Str} {parts : List Str}
    (h : splitParts 0 [] (stripPath E (stripScheme E rest)) = some parts)
    (hlen : parts.length = 4) {Js : List (List Regex)}
    (hparts : List.Forall₂ (PartReads openLow) parts Js) : ∃ I K, Skipped I ∧ Skipped K ∧
      Adds openLow (rest ++ ['$']) .plain (I ++ chain Js (K ++ [.stop])) := by
  obtain ⟨group, I, hrest, hskip, hgroup⟩ := stripScheme_spec openLow E rest
  obtain ⟨hne, hsplit, -⟩ := splitParts_spec h
  rcases stripPath_spec E (stripScheme E rest) with hnil | ⟨path, hpath, hmem⟩
  · rw [hnil] at h
    obtain rfl := Option.some.inj h
    cases hlen
  · obtain ⟨c, t, K, hend, hc, hskip', hadds⟩ := adds_ending openLow hmem
    refine ⟨I, K, hskip, hskip', ?_⟩
    have hchain := adds_chain (hparts.imp fun p J hp => hp.adds) hne hadds hc
    rw [← hsplit, ← hend, ← List.append_assoc, ← hpath] at hchain
    rcases hgroup with ⟨rfl, rfl⟩ | hgroup
    · rw [hrest]
      exact hchain
    · obtain ⟨a, u, hu⟩ := List.exists_cons_of_ne_nil
        (List.append_ne_nil_of_right_ne_nil (stripScheme E rest) (List.cons_ne_nil '$' []))
      rw [hrest, List.append_assoc, hu]
      rw [hu] at hchain
      obtain ⟨hmark, hplus⟩ := hchain.head_ne
      exact hgroup.append hchain (closes_quantifier hmark hplus)

theorem adds_rule {line : Str} {E : Env} {parts : List Str} (h : octetParts E line = some parts)
    {Js : List (List Regex)} (hparts : List.Forall₂ (PartReads E.openLow) parts Js) :
    ∃ lead I K, readRegex E.openLow (ruleText line) =
        some (seq (lead ++ (I ++ chain Js (K ++ [.stop])))) ∧ Skipped I ∧ Skipped K ∧
      (lead = [.start] ∨ lead = [] ∧ ∃ p ps, parts = p :: ps ∧ isLongOctet p = true) := by
  unfold octetParts at h
  split at h
  · cases h
  · rename_i hline
    push Not at hline
    obtain ⟨hparse, hcheck⟩ := Option.filter_eq_some_iff.mp h
    rw [inner_of_line hline.2.1 hline.2.2]
    generalize (line.drop 1).take (line.length - 3) = inner at hparse hcheck ⊢
    simp only [Bool.and_eq_true, Bool.or_eq_true, decide_eq_true_eq] at hcheck
    obtain ⟨⟨hlen, hfirst⟩, -⟩ := hcheck
    cases hanchored : startsWith ['^'] inner with
    | true =>
        rw [hanchored, if_pos rfl] at hparse
        obtain ⟨rest, rfl⟩ := List.isPrefixOf_iff_prefix.mp hanchored
        obtain ⟨I, K, hskip, hskip', hadds⟩ := adds_address hparse hlen hparts
        obtain ⟨a, u, hu⟩ := List.exists_cons_of_ne_nil
          (List.append_ne_nil_of_right_ne_nil rest (List.cons_ne_nil '$' []))
        refine ⟨[.start], I, K, ?_, hskip, hskip', Or.inl rfl⟩
        rw [List.append_assoc]
        change Adds E.openLow (rest ++ ['$']) _ _ at hadds
        rw [hu] at hadds ⊢
        exact (adds_caret.append hadds (closes_plain a)).readRegex
    | false =>
        rw [hanchored, if_neg Bool.false_ne_true] at hparse
        obtain ⟨I, K, hskip, hskip', hadds⟩ := adds_address hparse hlen hparts
        refine ⟨[], I, K, hadds.readRegex, hskip, hskip', Or.inr ⟨rfl, ?_⟩⟩
        rw [hanchored] at hfirst
        obtain ⟨p, ps, rfl⟩ := List.exists_cons_of_length_eq_add_one hlen
        have hlong := hfirst.resolve_left Bool.false_ne_true
        rw [List.head?_cons, Option.any_some, Bool.and_eq_true] at hlong
        exact ⟨p, ps, rfl, hlong.2⟩

/-- Accepted parts that compile have items of their own. -/
theorem partReads_of_accepted {line : Str} {E : Env} {parts : List Str}
    (h : octetParts E line = some parts)
    (hread : ∀ p ∈ parts, ∃ r, readRegex E.openLow ("^(?:".toList ++ p ++ ")$".toList) = some r) :
    parts.length = 4 ∧ ∃ Js, List.Forall₂ (PartReads E.openLow) parts Js := by
  unfold octetParts at h
  split at h
  · cases h
  · obtain ⟨hparse, hcheck⟩ := Option.filter_eq_some_iff.mp h
    obtain ⟨-, -, hclosed⟩ := splitParts_spec hparse
    simp only [Bool.and_eq_true, decide_eq_true_eq, List.all_eq_true] at hcheck
    obtain ⟨⟨hlen, -⟩, haccepted⟩ := hcheck
    have hitems : ∀ p ∈ parts, ∃ J, PartReads E.openLow p J := by
      intro p hp
      obtain ⟨r, hr⟩ := hread p hp
      have hpart : isPart p = true := by
        have hall := haccepted p hp
        simp only [partAccepted, Bool.and_eq_true] at hall
        exact hall.1.1.1.2
      obtain ⟨m, J, hadds, hrefuses, rfl⟩ := adds_of_part hpart (hclosed p hp) hr
      refine ⟨J, hr, ⟨?_, m, hadds⟩, hrefuses⟩
      rintro rfl
      cases hpart
    choose! J hJ using hitems
    exact ⟨hlen, parts.map J, List.forall₂_map_right_iff.mpr (List.forall₂_same.mpr hJ)⟩

end PfBlockerNG.OctetParts
