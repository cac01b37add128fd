import PfBlockerNG.RegexReading

/-!
A token reads the same wherever its characters stand: what the tokens of a pattern look at, and
no more.
-/

namespace PfBlockerNG.RegexTokens

open PfBlockerNG.Strings
open PfBlockerNG.RegexRules
open PfBlockerNG.RegexReading

/-! ### A token ends inside its text -/

section Bounds

variable {p : Str} {i stop : Nat}

theorem lt_of_getElem? {c : Char} (h : p[i]? = some c) : i < p.length :=
  (List.getElem?_eq_some_iff.mp h).1

theorem escape_le {kind : Escape} (h : escape p i = .ok (kind, stop)) : stop ≤ p.length := by
  have hstop := escape_index h
  unfold escape at h
  split at h
  · cases h
  · next hchar =>
      have hlt := lt_of_getElem? hchar
      omega

theorem classLoop_le {negated : Bool} {fuel items listed : Nat} {members : Members} {a : Atom}
    (h : classLoop p negated fuel i members items = .ok (stop, a, listed)) :
    stop ≤ p.length := by
  induction fuel generalizing i members items with
  | zero => cases h
  | succ fuel ih =>
      rw [classLoop] at h
      split at h
      · cases h
      · next hchar =>
          have hlt := lt_of_getElem? hchar
          split at h
          · cases h
          · cases h
            exact hlt
      · simp only [bind, Except.bind] at h
        split at h
        · cases h
        split at h
        · cases h
        split at h
        · split at h
          · cases h
          split at h
          · cases h
          split at h
          · split at h
            · cases h
            · exact ih h
          · cases h
        · exact ih h

theorem readAtom_le {c : Char} {listed : Nat} {a : Atom}
    (h : readAtom p c i = .ok (stop, a, listed)) (hi : i < p.length) : stop ≤ p.length := by
  unfold readAtom at h
  split at h
  · unfold classEnd at h
    split at h <;> exact classLoop_le h
  · split at h
    · simp only [bind, Except.bind] at h
      split at h
      · cases h
      · next out hescape =>
          have hle := escape_le hescape
          split at h <;> cases h <;> exact hle
    · split at h
      · cases h
      · cases h
        exact hi

theorem repeatBounds_le {low : Nat} {high : Option Nat}
    (h : repeatBounds p i = .ok (some (low, high, stop))) : stop ≤ p.length := by
  unfold repeatBounds at h
  split at h
  · next hchar =>
      cases h
      exact lt_of_getElem? hchar
  · next hchar =>
      cases h
      exact lt_of_getElem? hchar
  · next hchar =>
      cases h
      exact lt_of_getElem? hchar
  · cases hparts : partition '}' (p.drop (i + 1)) with
    | mk body rest =>
        obtain ⟨closed, after⟩ := rest
        rw [hparts] at h
        cases closed with
        | false => cases h
        | true =>
            have hlength := congrArg List.length ((partition_eq_found_iff _ _ _ _).mp hparts).1
            rw [List.length_drop, List.length_append, List.length_cons] at hlength
            dsimp only at h
            split at h
            · cases h
            · cases h
              omega
  · cases h

theorem quantifier_le {q : Option Quantifier} (h : quantifier p i = .ok (stop, q))
    (hi : i ≤ p.length) : stop ≤ p.length := by
  simp only [quantifier, bind, Except.bind] at h
  split at h
  · cases h
  next bounds hbounds =>
  cases bounds with
  | none =>
      cases h
      exact hi
  | some bounds =>
      obtain ⟨low, high, stop'⟩ := bounds
      have hle := repeatBounds_le hbounds
      dsimp only at h
      split at h
      · have hstop := (Prod.mk.inj (Except.ok.inj h)).1
        split at hstop
        · next hlazy =>
            have hlt := lt_of_getElem? (beq_iff_eq.mp hlazy)
            omega
        · omega
      · cases h

theorem zeroAt_le {z : Zero} (h : zeroAt p i = some (z, stop)) : i < stop ∧ stop ≤ p.length := by
  unfold zeroAt at h
  split at h
  · next hchar =>
      cases h
      exact ⟨Nat.lt_succ_self _, lt_of_getElem? hchar⟩
  · next hchar =>
      cases h
      exact ⟨Nat.lt_succ_self _, lt_of_getElem? hchar⟩
  · next hsecond =>
      cases h
      exact ⟨by omega, lt_of_getElem? hsecond⟩
  · next hsecond =>
      cases h
      exact ⟨by omega, lt_of_getElem? hsecond⟩
  · cases h

end Bounds

/-! ### A token is read from its own characters -/

/-- The characters of `p` from `i` to `stop` stand in `t` from `j`. -/
def Copied (p : Str) (i stop : Nat) (t : Str) (j : Nat) : Prop :=
  ∀ k, i + k < stop → t[j + k]? = p[i + k]?

namespace Copied

variable {p t : Str} {i j stop : Nat}

theorem get (h : Copied p i stop t j) {k : Nat} (hi : i ≤ k) (hk : k < stop) :
    t[j + (k - i)]? = p[k]? := by
  have hget := h (k - i) (by omega)
  rwa [Nat.add_sub_cancel' hi] at hget

theorem first (h : Copied p i stop t j) (hi : i < stop) : t[j]? = p[i]? := h 0 hi

theorem second (h : Copied p i stop t j) (hi : i + 1 < stop) : t[j + 1]? = p[i + 1]? := h 1 hi

theorem later (h : Copied p i stop t j) {k : Nat} (hi : i ≤ k) :
    Copied p k stop t (j + (k - i)) := by
  intro n hn
  have hget := h (k - i + n) (by omega)
  rwa [← Nat.add_assoc, ← Nat.add_assoc, Nat.add_sub_cancel' hi] at hget

theorem upto (h : Copied p i stop t j) {stop' : Nat} (hle : stop' ≤ stop) : Copied p i stop' t j :=
  fun k hk => h k (Nat.lt_of_lt_of_le hk hle)

theorem take_eq (h : Copied p i stop t j) :
    (t.drop j).take (stop - i) = (p.drop i).take (stop - i) := by
  refine List.ext_getElem? fun k => ?_
  rw [List.getElem?_take, List.getElem?_take]
  split
  · rw [List.getElem?_drop, List.getElem?_drop]
    exact h k (by omega)
  · rfl

/-- The characters as a list that the text goes on with. -/
theorem drop_eq (h : Copied p i stop t j) {front rest : Str} (hp : p.drop i = front ++ rest)
    (hlength : front.length ≤ stop - i) : t.drop j = front ++ t.drop (j + front.length) := by
  have htake := congrArg (List.take front.length) h.take_eq
  rw [List.take_take, List.take_take, Nat.min_eq_left hlength, hp, List.take_left] at htake
  rw [← List.drop_drop]
  conv => lhs; rw [← List.take_append_drop front.length (t.drop j), htake]

theorem of_eq (p : Str) (i stop : Nat) : Copied p i stop p i := fun _ _ => rfl

end Copied

section Locality

variable {p t : Str} {i j stop : Nat}

theorem escape_copied {kind : Escape} (h : escape p i = .ok (kind, stop))
    (hcopy : Copied p i stop t j) : escape t j = .ok (kind, j + 2) := by
  have hstop := escape_index h
  subst hstop
  have hsecond : t[j + 1]? = p[i + 1]? := hcopy.second (Nat.lt_succ_self _)
  unfold escape at h ⊢
  rw [hsecond]
  cases hchar : p[i + 1]? with
  | none =>
      rw [hchar] at h
      cases h
  | some escaped =>
      rw [hchar] at h
      dsimp only at h ⊢
      cases hclass : ClassEscape.ofChar escaped with
      | some e =>
          rw [hclass] at h
          cases h
          rfl
      | none =>
          rw [hclass] at h
          dsimp only at h ⊢
          split_ifs at h ⊢ <;> cases h <;> rfl

theorem checkSetOperation_copied (h : checkSetOperation p i = .ok ())
    (hcopy : Copied p i (i + 2) t j) : checkSetOperation t j = .ok () := by
  have hfirst := hcopy.first (by omega)
  have hsecond := hcopy.second (by omega)
  unfold checkSetOperation at h ⊢
  rw [hfirst, hsecond]
  cases hchar : p[i]? with
  | none => rfl
  | some c =>
      rw [hchar] at h
      dsimp only at h ⊢
      split_ifs at h ⊢
      rfl

theorem classItem_copied {code : Option Nat} {found : Members}
    (h : classItem p i = .ok (code, found, stop)) (hcopy : Copied p i stop t j) :
    classItem t j = .ok (code, found, j + (stop - i)) := by
  have hlt := classItem_index h
  have hfirst := hcopy.first hlt
  unfold classItem at h ⊢
  rw [hfirst]
  split at h
  · cases h
  · next hchar =>
      simp only [bind, Except.bind] at h
      split at h
      · cases h
      · next kind hescape =>
          obtain ⟨kind, stop'⟩ := kind
          have hstop := escape_index hescape
          have hwidth : j + (stop' - i) = j + 2 := by omega
          cases kind with
          | zero z => cases h
          | cls e =>
              cases h
              simp only [bind, Except.bind, escape_copied hescape hcopy, hwidth]
          | literal c =>
              cases h
              simp only [bind, Except.bind, escape_copied hescape hcopy, hwidth]
  · cases h
  · next c hbackslash hbracket hchar =>
      cases h
      rw [Nat.add_sub_cancel_left]

/-- The `-` after an item makes it the low end of a range. -/
def RangeAt (p : Str) (next : Nat) : Prop :=
  p[next]? = some '-' ∧ p[next + 1]? ≠ none ∧ p[next + 1]? ≠ some ']'

/-- One turn of the loop of a class that is read to its end. -/
inductive ClassTurn (p : Str) (negated : Bool) (fuel i : Nat) (members : Members) (items : Nat)
    (out : Nat × Atom × Nat) : Prop
  | close : p[i]? = some ']' → items ≠ 0 →
      out = (i + 1, Atom.ofClass negated members, bitCount (foldBits members.bits)) →
      ClassTurn p negated fuel i members items out
  | range {c : Char} {low high next stop : Nat} {found found' : Members} :
      p[i]? = some c → c ≠ ']' → checkSetOperation p i = .ok () →
      classItem p i = .ok (some low, found, next) → RangeAt p next →
      checkSetOperation p next = .ok () → classItem p (next + 1) = .ok (some high, found', stop) →
      ¬ high < low →
      classLoop p negated fuel stop ((members.union found).union (Members.range low high))
        (items + 1) = .ok out → ClassTurn p negated fuel i members items out
  | item {c : Char} {low : Option Nat} {next : Nat} {found : Members} :
      p[i]? = some c → c ≠ ']' → checkSetOperation p i = .ok () →
      classItem p i = .ok (low, found, next) → ¬ RangeAt p next →
      classLoop p negated fuel next (members.union found) (items + 1) = .ok out →
      ClassTurn p negated fuel i members items out

theorem classLoop_turn {negated : Bool} {fuel items : Nat} {members : Members}
    {out : Nat × Atom × Nat} (h : classLoop p negated (fuel + 1) i members items = .ok out) :
    ClassTurn p negated fuel i members items out := by
  rw [classLoop] at h
  split at h
  · cases h
  · next hchar =>
      split at h
      · cases h
      · next hitems => exact .close hchar hitems (Except.ok.inj h).symm
  · next c hclose hchar =>
      simp only [bind, Except.bind] at h
      split at h
      · cases h
      next hset =>
      split at h
      · cases h
      next out₁ hitem =>
      obtain ⟨low, found, next⟩ := out₁
      split at h
      · next hrange =>
          split at h
          · cases h
          next hset' =>
          split at h
          · cases h
          next out₂ hitem' =>
          obtain ⟨high, found', stop⟩ := out₂
          dsimp only at h hitem' hrange
          split at h
          · next low high =>
              split at h
              · cases h
              next horder =>
              exact .range hchar hclose hset hitem hrange hset' hitem' horder h
          · cases h
      · next hrange => exact .item hchar hclose hset hitem hrange h

theorem classLoop_of_turn {negated : Bool} {fuel items : Nat} {members : Members}
    {out : Nat × Atom × Nat} (h : ClassTurn p negated fuel i members items out) :
    classLoop p negated (fuel + 1) i members items = .ok out := by
  rw [classLoop]
  cases h with
  | close hchar hitems hout =>
      rw [hchar]
      simp only [if_neg hitems, hout]
  | range hchar hclose hset hitem hrange hset' hitem' horder hrest =>
      rw [hchar]
      have hrange' : _ ∧ _ ∧ _ := hrange
      simp only [hset, hitem, bind, Except.bind, if_pos hrange', hset', hitem', if_neg horder]
      exact hrest
  | item hchar hclose hset hitem hrange hrest =>
      rw [hchar]
      have hrange' : ¬ (_ ∧ _ ∧ _) := hrange
      simp only [hset, hitem, bind, Except.bind, if_neg hrange']
      exact hrest

theorem classLoop_longer {negated : Bool} {fuel items listed : Nat} {members : Members} {a : Atom}
    (h : classLoop p negated fuel i members items = .ok (stop, a, listed))
    (hchar : p[i]? ≠ some ']') : i + 1 < stop := by
  cases fuel with
  | zero => cases h
  | succ fuel =>
      cases classLoop_turn h with
      | close hclose => exact absurd hclose hchar
      | range _ _ _ hitem _ _ hitem' _ hrest =>
          have hnext := classItem_index hitem
          have hnext' := classItem_index hitem'
          have hstop := classLoop_index hrest
          omega
      | item _ _ _ hitem _ hrest =>
          have hnext := classItem_index hitem
          have hstop := classLoop_index hrest
          omega

theorem rangeAt_copied {next : Nat} (hcopy : Copied p i stop t j) (hi : i ≤ next)
    (hstop : next + 1 < stop) : RangeAt t (j + (next - i)) ↔ RangeAt p next := by
  have hfrom := hcopy.later hi
  rw [RangeAt, RangeAt, hfrom.first (by omega), hfrom.second hstop]

/-- The atom of a class is read from its own characters. -/
theorem classLoop_copied {negated : Bool} {fuel fuel' items listed : Nat} {members : Members}
    {a : Atom} (h : classLoop p negated fuel i members items = .ok (stop, a, listed))
    (hcopy : Copied p i stop t j) (hfuel : t.length < j + fuel') :
    classLoop t negated fuel' j members items = .ok (j + (stop - i), a, listed) := by
  induction fuel generalizing i j fuel' items members with
  | zero => cases h
  | succ fuel ih =>
      have hfirst := hcopy.first (classLoop_index h)
      have hturn := classLoop_turn h
      obtain ⟨fuel', rfl⟩ : ∃ n, fuel' = n + 1 := by
        cases fuel' with
        | succ n => exact ⟨n, rfl⟩
        | zero =>
            have hnone : t[j]? = none := List.getElem?_eq_none (by omega)
            rw [hnone] at hfirst
            cases hturn <;> simp_all
      refine classLoop_of_turn ?_
      cases hturn with
      | close hchar hitems hout =>
          obtain ⟨rfl, rfl, rfl⟩ : stop = i + 1 ∧ _ := by simpa using hout
          rw [Nat.add_sub_cancel_left]
          exact .close (hfirst.trans hchar) hitems rfl
      | @range c low high next stop' found found' hchar hclose hset hitem hrange hset' hitem' horder
          hrest =>
          have hnext := classItem_index hitem
          have hstop' := classItem_index hitem'
          have hstop := classLoop_index hrest
          have hrangeCopy := rangeAt_copied hcopy (Nat.le_of_lt hnext) (by omega)
          have hfrom := hcopy.later (Nat.le_of_lt hnext)
          have hfrom' := hcopy.later (show i ≤ next + 1 by omega)
          have hrest' := ih hrest (hcopy.later (show i ≤ stop' by omega))
            (show t.length < j + (stop' - i) + fuel' by omega)
          have hhigh := classItem_copied hitem' (hfrom'.upto (by omega))
          rw [show j + (next + 1 - i) = j + (next - i) + 1 by omega,
            show j + (next - i) + 1 + (stop' - (next + 1)) = j + (stop' - i) by omega] at hhigh
          rw [show j + (stop' - i) + (stop - stop') = j + (stop - i) by omega] at hrest'
          exact .range (hfirst.trans hchar) hclose
            (checkSetOperation_copied hset (hcopy.upto (by omega)))
            (classItem_copied hitem (hcopy.upto (by omega))) (hrangeCopy.mpr hrange)
            (checkSetOperation_copied hset' (hfrom.upto (by omega))) hhigh horder hrest'
      | @item c low next found hchar hclose hset hitem hrange hrest =>
          have hnext := classItem_index hitem
          have hstop := classLoop_index hrest
          have hrest' := ih hrest (hcopy.later (Nat.le_of_lt hnext))
            (show t.length < j + (next - i) + fuel' by omega)
          rw [show j + (next - i) + (stop - next) = j + (stop - i) by omega] at hrest'
          refine .item (hfirst.trans hchar) hclose
            (checkSetOperation_copied hset (hcopy.upto (by omega)))
            (classItem_copied hitem (hcopy.upto (by omega))) (fun hrangeCopy => hrange ?_) hrest'
          have hdash : p[next]? = some '-' := by
            rw [← hcopy.get (Nat.le_of_lt hnext) hstop]
            exact hrangeCopy.1
          have hlonger := classLoop_longer hrest (by rw [hdash]; decide)
          exact (rangeAt_copied hcopy (Nat.le_of_lt hnext) hlonger).mp hrangeCopy

theorem classEnd_copied {listed : Nat} {a : Atom} (h : classEnd p i = .ok (stop, a, listed))
    (hcopy : Copied p i stop t j) : classEnd t j = .ok (j + (stop - i), a, listed) := by
  have hfirst := hcopy.first (classEnd_index h)
  unfold classEnd at h ⊢
  rw [hfirst]
  split at h
  · next hcaret =>
      have hlt := classLoop_index h
      have hloop := classLoop_copied h (hcopy.later (Nat.le_succ i))
        (show t.length < j + (i + 1 - i) + (t.length + 1) by omega)
      rw [show j + (i + 1 - i) = j + 1 by omega,
        show j + 1 + (stop - (i + 1)) = j + (stop - i) by omega] at hloop
      rw [if_pos hcaret, hloop]
  · next hcaret =>
      rw [if_neg hcaret, classLoop_copied h hcopy (by omega)]

theorem readAtom_copied {c : Char} {listed : Nat} {a : Atom}
    (h : readAtom p c i = .ok (stop, a, listed)) (hcopy : Copied p i stop t j) :
    readAtom t c j = .ok (j + (stop - i), a, listed) := by
  have hlt := readAtom_index h
  unfold readAtom at h ⊢
  split at h
  · next hclass =>
      have hend := classEnd_index h
      have hcopied := classEnd_copied h (hcopy.later (Nat.le_succ i))
      rw [show j + (i + 1 - i) = j + 1 by omega,
        show j + 1 + (stop - (i + 1)) = j + (stop - i) by omega] at hcopied
      rw [if_pos hclass, hcopied]
  · next hclass =>
      rw [if_neg hclass]
      split at h
      · next hbackslash =>
          rw [if_pos hbackslash]
          simp only [bind, Except.bind] at h ⊢
          split at h
          · cases h
          next out hescape =>
          obtain ⟨kind, stop'⟩ := out
          have hstop := escape_index hescape
          have hwidth : j + 2 = j + (stop' - i) := by omega
          cases kind with
          | cls e =>
              cases h
              rw [escape_copied hescape hcopy]
              simp only [hwidth]
          | literal c =>
              cases h
              rw [escape_copied hescape hcopy]
              simp only [hwidth]
          | zero z =>
              cases h
              rw [escape_copied hescape hcopy]
              simp only [hwidth]
      · next hbackslash =>
          rw [if_neg hbackslash]
          split at h
          · cases h
          · next hclose =>
              cases h
              rw [if_neg hclose, Nat.add_sub_cancel_left]

end Locality

/-- The characters from `i` to `stop` again, and no quantifier after them that was not there. -/
structure Alike (p : Str) (i stop : Nat) (t : Str) (j : Nat) : Prop where
  copied : Copied p i stop t j
  next : ∀ c ∈ quantifierStart, t[j + (stop - i)]? = some c ↔ p[stop]? = some c

section Quantifiers

variable {p t : Str} {i j stop : Nat}

theorem mem_quantifierStart {c : Char} :
    c ∈ quantifierStart ↔ c = '?' ∨ c = '*' ∨ c = '+' ∨ c = '{' := by
  show c ∈ ['?', '*', '+', '{'] ↔ _
  simp only [List.mem_cons, List.not_mem_nil, or_false]

theorem repeatBounds_none (h : repeatBounds p i = .ok none) :
    ∀ c ∈ quantifierStart, p[i]? ≠ some c := by
  intro c hc hchar
  unfold repeatBounds at h
  rw [hchar] at h
  rcases mem_quantifierStart.mp hc with rfl | rfl | rfl | rfl
  · cases h
  · cases h
  · cases h
  · simp only at h
    split_ifs at h <;> cases h

theorem repeatBounds_copied {low : Nat} {high : Option Nat}
    (h : repeatBounds p i = .ok (some (low, high, stop))) (hcopy : Copied p i stop t j) :
    repeatBounds t j = .ok (some (low, high, j + (stop - i))) := by
  have hlt := repeatBounds_index h
  have hfirst := hcopy.first hlt
  unfold repeatBounds at h ⊢
  rw [hfirst]
  split at h
  · next hchar =>
      cases h
      rw [Nat.add_sub_cancel_left]
  · next hchar =>
      cases h
      rw [Nat.add_sub_cancel_left]
  · next hchar =>
      cases h
      rw [Nat.add_sub_cancel_left]
  · next hchar =>
      cases hparts : partition '}' (p.drop (i + 1)) with
      | mk body rest =>
      obtain ⟨closed, after⟩ := rest
      rw [hparts] at h
      dsimp only at h ⊢
      cases closed with
      | false => cases h
      | true =>
          obtain ⟨hp, hbody⟩ := (partition_eq_found_iff _ _ _ _).mp hparts
          split at h
          · cases h
          next hdigits =>
          cases h
          have hfrom := hcopy.later (Nat.le_succ i)
          have ht := hfrom.drop_eq 
            (show p.drop (i + 1) = (body ++ ['}']) ++ after by rw [hp, List.append_assoc]; rfl)
            (by rw [List.length_append, List.length_singleton]; omega)
          rw [show j + (i + 1 - i) = j + 1 by omega, List.append_assoc] at ht
          rw [(partition_eq_found_iff _ _ _ _).mpr ⟨ht, hbody⟩]
          dsimp only
          rw [if_neg hdigits, show j + 1 + body.length + 1 = j + (i + 1 + body.length + 1 - i) by
            omega]
  · cases h

/-- A quantifier is read from its own characters and the one after them. -/
theorem quantifier_alike {q : Option Quantifier} (h : quantifier p i = .ok (stop, q))
    (halike : Alike p i stop t j) : quantifier t j = .ok (j + (stop - i), q) := by
  have hle := quantifier_index h
  simp only [quantifier, bind, Except.bind] at h
  split at h
  · cases h
  next bounds hbounds =>
  cases bounds with
  | none =>
      cases h
      have hnone : repeatBounds t j = .ok none := by
        refine repeatBounds_eq_none fun c hc hmem => repeatBounds_none hbounds c hmem ?_
        rw [← halike.next c hmem, Nat.sub_self]
        exact hc
      rw [Nat.sub_self]
      simp only [quantifier, hnone, bind, Except.bind]
      rfl
  | some bounds =>
      obtain ⟨low, high, stop'⟩ := bounds
      dsimp only at h
      split at h
      · next hin =>
          obtain ⟨hstop, rfl⟩ := Prod.mk.inj (Except.ok.inj h)
          have hlt := repeatBounds_index hbounds
          have hcopied := repeatBounds_copied hbounds
            (halike.copied.upto (by split at hstop <;> omega))
          have hmark : t[j + (stop' - i)]? = some '?' ↔ p[stop']? = some '?' := by
            by_cases hlazy : p[stop']? = some '?'
            · rw [beq_iff_eq.mpr hlazy, if_pos rfl] at hstop
              rw [halike.copied.get hlt.le (by omega)]
            · rw [beq_eq_false_iff_ne.mpr hlazy, if_neg Bool.false_ne_true] at hstop
              subst hstop
              exact halike.next '?' (by decide)
          have hlazy : (t[j + (stop' - i)]? == some '?') = (p[stop']? == some '?') := by
            rw [Bool.eq_iff_iff, beq_iff_eq, beq_iff_eq]
            exact hmark
          have hwidth : (if (p[stop']? == some '?') = true then j + (stop' - i) + 1
              else j + (stop' - i)) = j + (stop - i) := by
            split at hstop
            · next hl =>
                rw [if_pos hl]
                omega
            · next hl =>
                rw [if_neg hl]
                omega
          simp only [quantifier, hcopied, bind, Except.bind, dif_pos hin, hlazy, hwidth]
      · cases h

end Quantifiers

namespace Alike

variable {p t : Str} {i j stop : Nat}

theorem later (h : Alike p i stop t j) {k : Nat} (hi : i ≤ k) (hk : k ≤ stop) :
    Alike p k stop t (j + (k - i)) where
  copied := h.copied.later hi
  next := by
    rw [show j + (k - i) + (stop - k) = j + (stop - i) by omega]
    exact h.next

theorem of_eq (p : Str) (hi : i ≤ stop) : Alike p i stop p i where
  copied := Copied.of_eq p i stop
  next := by
    rw [Nat.add_sub_cancel' hi]
    exact fun _ _ => Iff.rfl

end Alike

section Tokens

variable {p t : Str} {i j stop : Nat} {r : Reader}

theorem drop_of_getElem? {c : Char} (h : t[j]? = some c) : t.drop j = c :: t.drop (j + 1) := by
  rw [List.drop_eq_getElem?_toList_append, h]
  rfl

theorem zeroAt_copied {z : Zero} (h : zeroAt p i = some (z, stop)) (hcopy : Copied p i stop t j) :
    zeroAt t j = some (z, j + (stop - i)) := by
  unfold zeroAt at h ⊢
  split at h
  · next hchar =>
      cases h
      rw [hcopy.first (by omega), hchar, Nat.add_sub_cancel_left]
      rfl
  · next hchar =>
      cases h
      rw [hcopy.first (by omega), hchar, Nat.add_sub_cancel_left]
      rfl
  · next hchar hsecond =>
      cases h
      rw [hcopy.first (by omega), hcopy.second (by omega), hchar, hsecond,
        Nat.add_sub_cancel_left]
      rfl
  · next hchar hsecond =>
      cases h
      rw [hcopy.first (by omega), hcopy.second (by omega), hchar, hsecond,
        Nat.add_sub_cancel_left]
      rfl
  · cases h

theorem zeroAt_none_copied {c : Char} (h : zeroAt p i = none) (hchar : p[i]? = some c)
    (hcopy : Copied p i stop t j) (hlt : i < stop) (hescape : c = '\\' → i + 1 < stop) :
    zeroAt t j = none := by
  have hfirst : t[j]? = some c := (hcopy.first hlt).trans hchar
  refine zeroAt_eq_none (drop_of_getElem? hfirst) ?_ ?_ fun hc => ?_
  · rintro rfl
    simp [zeroAt, hchar] at h
  · rintro rfl
    simp [zeroAt, hchar] at h
  · subst hc
    rw [List.head?_drop, hcopy.second (hescape rfl)]
    constructor
    · intro hsecond
      simp [zeroAt, hchar, hsecond] at h
    · intro hsecond
      simp [zeroAt, hchar, hsecond] at h

theorem readAtom_escape_index {listed next : Nat} {a : Atom}
    (h : readAtom p '\\' i = .ok (next, a, listed)) : i + 1 < next := by
  rw [readAtom, if_neg (by decide), if_pos rfl] at h
  simp only [bind, Except.bind] at h
  split at h
  · cases h
  · next out hescape =>
      have hstop := escape_index hescape
      split at h <;> cases h <;> omega

/-- No class of a pattern is spelled `[^\n]`: that escape is refused. -/
theorem not_startsWith_class {c : Char} {listed next : Nat} {a : Atom}
    (h : readAtom t c j = .ok (next, a, listed)) (hchar : t[j]? = some c) :
    startsWith "[^\\n]".toList (t.drop j) = false := by
  by_contra hstart
  rw [Bool.not_eq_false] at hstart
  obtain ⟨rest, hrest⟩ := List.isPrefixOf_iff_prefix.mp hstart
  have hdrop : t.drop j = '[' :: '^' :: '\\' :: 'n' :: ']' :: rest := hrest.symm
  have hdrop₁ := drop_succ_of_drop hdrop
  have hdrop₂ := drop_succ_of_drop hdrop₁
  have hdrop₃ := drop_succ_of_drop hdrop₂
  have hc : c = '[' := Option.some.inj (hchar.symm.trans (getElem?_of_drop hdrop))
  have hescape : escape t (j + 1 + 1) =
      .error (refusalAt "unsupported escape".toList (j + 1 + 1)) := by
    rw [escape, getElem?_of_drop hdrop₃]
    rfl
  have hitem : ∃ refusal, classItem t (j + 1 + 1) = .error refusal := by
    refine ⟨refusalAt "unsupported escape".toList (j + 1 + 1), ?_⟩
    rw [classItem, getElem?_of_drop hdrop₂]
    simp only [hescape, bind, Except.bind]
  obtain ⟨refusal, hitem⟩ := hitem
  have hset : checkSetOperation t (j + 1 + 1) = .ok () := by
    rw [checkSetOperation, getElem?_of_drop hdrop₂]
    exact if_neg fun hset => absurd hset.1 (by decide)
  rw [readAtom, if_pos hc, classEnd, if_pos (getElem?_of_drop hdrop₁), classLoop,
    getElem?_of_drop hdrop₂] at h
  simp only [hset, hitem, bind, Except.bind] at h
  cases h

/-- An atom of the pattern is read in the text where it stands. -/
theorem readFrom_atom {c : Char} {next listed : Nat} {a : Atom} {q : Option Quantifier}
    (hchar : p[i]? = some c) (hplain : c ∉ ['(', ')', '|']) (hstart : c ∉ quantifierStart)
    (hzero : zeroAt p i = none) (hread : readAtom p c i = .ok (next, a, listed))
    (hq : quantifier p next = .ok (stop, q)) (halike : Alike p i stop t r.index)
    (hall : r.level.dotAll = false) :
    readFrom t r = readFrom t
      { r with index := r.index + (stop - i), level := r.level.pushAtom a q } := by
  have hnext := readAtom_index hread
  have hstop := quantifier_index hq
  have hfirst : t[r.index]? = some c := (halike.copied.first (by omega)).trans hchar
  have hescape : c = '\\' → i + 1 < stop := by
    rintro rfl
    exact Nat.lt_of_lt_of_le (readAtom_escape_index hread) hstop
  have hcopied := readAtom_copied hread (halike.copied.upto hstop)
  have hquantifier := quantifier_alike hq (halike.later hnext.le hstop)
  rw [show r.index + (next - i) + (stop - next) = r.index + (stop - i) by omega] at hquantifier
  simp only [List.mem_cons, List.not_mem_nil, or_false, not_or] at hplain
  refine readFrom_unit (drop_of_getElem? hfirst) hplain.1 hplain.2.1 hplain.2.2
    (zeroAt_none_copied hzero hchar halike.copied (by omega) hescape) hstart
    (unit?_of_readAtom (not_startsWith_class hcopied hfirst) (fun _ => hall) hcopied) ?_
  rw [quantifier?, hquantifier]
  rfl

theorem readFrom_zeroToken {z : Zero} (hzero : zeroAt p i = some (z, stop))
    (hcopy : Copied p i stop t r.index) :
    readFrom t r = readFrom t
      { r with index := r.index + (stop - i), level := r.level.push (.zero z) } := by
  have hcopied := zeroAt_copied hzero hcopy
  have hlt := (zeroAt_le hcopied).1
  have hin : r.index < t.length := Nat.lt_of_lt_of_le hlt (zeroAt_le hcopied).2
  exact readFrom_zeroAt (drop_of_getElem? (List.getElem?_eq_getElem hin)) hcopied

theorem readFrom_closing {q : Option Quantifier} {enclosing : Level} {outer : List Level}
    {item : HostRe} (hchar : p[i]? = some ')') (hq : quantifier p (i + 1) = .ok (stop, q))
    (halike : Alike p i stop t r.index) (houter : r.outer = enclosing :: outer)
    (hgroup : r.level.group? q = some item) :
    readFrom t r = readFrom t
      { index := r.index + (stop - i), level := enclosing.push item, outer := outer } := by
  have hstop := quantifier_index hq
  have hfirst : t[r.index]? = some ')' := (halike.copied.first (by omega)).trans hchar
  have hquantifier := quantifier_alike hq (halike.later (Nat.le_succ i) hstop)
  rw [show r.index + (i + 1 - i) = r.index + 1 by omega,
    show r.index + 1 + (stop - (i + 1)) = r.index + (stop - i) by omega] at hquantifier
  refine readFrom_close (drop_of_getElem? hfirst) houter ?_ hgroup
  rw [quantifier?, hquantifier]
  rfl

/-- The two openings of a group that a pattern may have. -/
def Opens (p : Str) (i stop : Nat) : Prop :=
  (startsWith "(?:".toList (p.drop i) = true ∧ stop = i + 3) ∨
    startsWith "(?".toList (p.drop i) = false ∧ p[i]? = some '(' ∧ stop = i + 1

theorem opening_plain {rest : Str} {all : Bool} (h : rest.head? ≠ some '?') :
    opening ('(' :: rest) all = some (1, all) := by
  cases rest with
  | nil => rfl
  | cons c rest =>
      have hc : c ≠ '?' := fun e => h (congrArg some e)
      have hfalse : ('?' == c) = false := beq_eq_false_iff_ne.mpr (Ne.symm hc)
      have hstarts : ∀ s : Str, startsWith ('(' :: '?' :: s) ('(' :: c :: rest) = false := by
        intro s
        show ('(' == '(' && ('?' == c && _)) = false
        rw [hfalse, Bool.false_and, Bool.and_false]
      have hflags : startsWith "(?s:".toList ('(' :: c :: rest) = false := hstarts _
      have hgroup : startsWith "(?:".toList ('(' :: c :: rest) = false := hstarts _
      have hmark : startsWith "(?".toList ('(' :: c :: rest) = false := hstarts _
      simp only [opening, hflags, hgroup, hmark, Bool.false_eq_true, if_false]

theorem readFrom_opening (hopens : Opens p i stop) (halike : Alike p i stop t r.index) :
    readFrom t r = readFrom t
      ⟨r.index + (stop - i), { dotAll := r.level.dotAll }, r.level :: r.outer⟩ := by
  rcases hopens with ⟨hgroup, rfl⟩ | ⟨hplain, hchar, rfl⟩
  · obtain ⟨rest, hrest⟩ := List.isPrefixOf_iff_prefix.mp hgroup
    have hdrop : t.drop r.index = '(' :: '?' :: ':' :: t.drop (r.index + 3) :=
      halike.copied.drop_eq hrest.symm (by rw [Nat.add_sub_cancel_left]; decide)
    rw [Nat.add_sub_cancel_left]
    exact readFrom_open hdrop rfl
  · have hfirst : t[r.index]? = some '(' := (halike.copied.first (by omega)).trans hchar
    have hnext := halike.next '?' (by decide)
    rw [Nat.add_sub_cancel_left] at hnext ⊢
    refine readFrom_open (drop_of_getElem? hfirst) (opening_plain ?_)
    rw [List.head?_drop, ne_eq, hnext]
    intro hmark
    have hdrop := drop_of_getElem? hchar
    rw [hdrop, drop_of_getElem? hmark] at hplain
    cases hplain

end Tokens

end PfBlockerNG.RegexTokens
