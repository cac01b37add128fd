import PfBlockerNG.AbpRules
import PfBlockerNG.Precedence
import PfBlockerNG.RegexReading
import PfBlockerNG.Whitelist
import Mathlib.Data.List.TakeWhile

/-!
Folding a regex rule into a dictionary entry: what the five foldable shapes match, and where the
entry decides otherwise.
-/

namespace PfBlockerNG.RegexFolding

open PfBlockerNG.Strings
open PfBlockerNG.PyText
open PfBlockerNG.OrderedDict
open PfBlockerNG.Bands
open PfBlockerNG.Matcher
open PfBlockerNG.Precedence
open PfBlockerNG.Backtracking
open PfBlockerNG.RegexRules
open PfBlockerNG.RegexReading
open PfBlockerNG.AbpRules
open PfBlockerNG.Whitelist

/-- `str.lower()` on ASCII, and where `(www\.)?` comes from. -/
structure LowersLetters (u : Unicode) : Prop where
  ascii : ∀ s : Str, s.all isAscii = true → u.lower s = s.map asciiLower
  www : ∀ s : Str, u.lower s = wwwOpt → s.map asciiLower = wwwOpt

/-- A lower-case query name: octets, none of them a newline. -/
structure QueryName where
  text : Str
  octets : (text.all fun c => c.toNat < 256) = true
  lower : text.map asciiLower = text
  oneLine : '\n' ∉ text

/-- The domain a literal spells. -/
def spelled (lit : Str) : Str := (unescapeDots lit).map asciiLower

/-- What the block entry of a fold covers. -/
def BlockForm (wildcard : Bool) (domain name : Str) : Prop :=
  name = domain ∨ (wildcard = true ∧ '.' :: domain <:+ name)

/-- The elements of a text of plain characters. -/
def letters (s : Str) : List HostRe := s.map fun c => .atom (Atom.literal c)

/-! ### The tokens of a foldable pattern -/

section Tokens

variable {text rest : Str} {r : Reader}

/-- The characters with a meaning of their own. -/
def metacharacters : Str := "()|^$\\[]\x7b\x7d.?*+".toList

theorem readAtom_plain {c : Char} {i : Nat} (hplain : c ∉ metacharacters) :
    readAtom text c i = .ok (i + 1, Atom.literal c, 0) := by
  have hne : ∀ m ∈ metacharacters, c ≠ m := fun m hm e => hplain (e ▸ hm)
  rw [readAtom, if_neg (hne _ (by decide)), if_neg (hne _ (by decide)), if_neg, if_neg]
  · exact hne _ (by decide)
  · rintro (e | e) <;> exact hne _ (by decide) e

theorem readFrom_plain {c : Char} (h : text.drop r.index = c :: rest) (hplain : c ∉ metacharacters)
    (hrest : ∀ c ∈ rest.head?, c ∉ quantifierStart) :
    readFrom text r = readFrom text
      { r with index := r.index + 1, level := r.level.pushAtom (Atom.literal c) none } := by
  have hne : ∀ m ∈ metacharacters, c ≠ m := fun m hm e => hplain (e ▸ hm)
  refine readFrom_unit h (hne _ (by decide)) (hne _ (by decide)) (hne _ (by decide))
    (zeroAt_eq_none h (hne _ (by decide)) (hne _ (by decide)) fun e => ?_) (fun hc => ?_)
    (unit?_of_readAtom (h ▸ startsWith_class (hne _ (by decide)))
      (fun e => absurd e (hne _ (by decide))) (readAtom_plain hplain))
    (quantifier?_none (drop_succ_of_drop h) hrest)
  · exact absurd e (hne _ (by decide))
  · exact hplain ((by decide : quantifierStart ⊆ metacharacters) hc)

theorem readFrom_escapedDot (h : text.drop r.index = '\\' :: '.' :: rest)
    (hrest : ∀ c ∈ rest.head?, c ∉ quantifierStart) :
    readFrom text r = readFrom text
      { r with index := r.index + 2, level := r.level.pushAtom (Atom.literal '.') none } := by
  have hdot : text[r.index + 1]? = some '.' := getElem?_of_drop (drop_succ_of_drop h)
  have hread : readAtom text '\\' r.index = .ok (r.index + 2, Atom.literal '.', 0) := by
    rw [readAtom, if_neg (by decide), if_pos rfl, escape, hdot]
    rfl
  have hzero : zeroAt text r.index = none := by
    refine zeroAt_eq_none h (by decide) (by decide) fun _ => ?_
    rw [List.head?_cons]
    exact ⟨by decide, by decide⟩
  refine readFrom_unit h (by decide) (by decide) (by decide) hzero (by decide)
    (unit?_of_readAtom (h ▸ startsWith_class (by decide)) (fun e => absurd e (by decide)) hread)
    (quantifier?_none ?_ hrest)
  exact drop_succ_of_drop (drop_succ_of_drop h)

theorem quantifier?_of_bounds {i low stop : Nat} {high : Option Nat}
    (hbounds : repeatBounds text i = .ok (some (low, high, stop)))
    (hin : inBounds low high = true) (hlazy : text[stop]? ≠ some '?') :
    ∃ q : Quantifier, quantifier? text i = some (stop, some q) ∧ q.low = low ∧ q.high = high ∧
      q.lazy = false := by
  have heager : (text[stop]? == some '?') = false := by simpa using hlazy
  obtain ⟨q, hq, hlow, hhigh, hmark⟩ := quantifier_of_bounds hbounds hin
  rw [heager] at hq hmark
  refine ⟨q, ?_, hlow, hhigh, hmark⟩
  rw [quantifier?, hq]
  rfl

theorem readFrom_dotPlus (h : text.drop r.index = '.' :: '+' :: rest)
    (hall : r.level.dotAll = false) (hrest : rest.head? ≠ some '?') :
    ∃ q : Quantifier, q.low = 1 ∧ q.high = none ∧
      readFrom text r = readFrom text
        { r with index := r.index + 2, level := r.level.pushAtom Atom.anyButNewline (some q) } := by
  have hplus := drop_succ_of_drop h
  have hread : readAtom text '.' r.index = .ok (r.index + 1, Atom.anyButNewline, 0) := rfl
  have hbounds : repeatBounds text (r.index + 1) = .ok (some (1, none, r.index + 2)) := by
    rw [repeatBounds, getElem?_of_drop hplus]
    rfl
  have hlazy : text[r.index + 2]? ≠ some '?' := by
    rwa [← List.head?_drop, drop_succ_of_drop hplus]
  obtain ⟨q, hq, hlow, hhigh, -⟩ := quantifier?_of_bounds hbounds (by decide) hlazy
  exact ⟨q, hlow, hhigh, readFrom_unit h (by decide) (by decide) (by decide)
    (zeroAt_eq_none h (by decide) (by decide) fun e => absurd e (by decide)) (by decide)
    (unit?_of_readAtom (h ▸ startsWith_class (by decide)) (fun _ => hall) hread) hq⟩

theorem readFrom_closeOptional {enclosing : Level} {outer : List Level}
    (h : text.drop r.index = ')' :: '?' :: rest) (houter : r.outer = enclosing :: outer)
    (hrest : rest.head? ≠ some '?') :
    readFrom text r = readFrom text
      ⟨r.index + 2, enclosing.push (.opt r.level.re false), outer⟩ := by
  have hmark := drop_succ_of_drop h
  have hbounds : repeatBounds text (r.index + 1) = .ok (some (0, some 1, r.index + 2)) := by
    rw [repeatBounds, getElem?_of_drop hmark]
    rfl
  have hlazy : text[r.index + 2]? ≠ some '?' := by
    rwa [← List.head?_drop, drop_succ_of_drop hmark]
  obtain ⟨q, hq, hlow, hhigh, heager⟩ := quantifier?_of_bounds hbounds (by decide) hlazy
  refine readFrom_close h houter hq ?_
  simp [Level.group?, Quantifier.isOptional, hlow, hhigh, heager]

theorem not_quantifier_head {c : Char} {rest : Str} (h : c ∉ quantifierStart) :
    ∀ d ∈ (c :: rest).head?, d ∉ quantifierStart := by
  rintro d ⟨⟩
  exact h

theorem not_mem_metacharacters {c : Char} (h : isLiteralChar c = true) : c ∉ metacharacters := by
  have hmeta : (metacharacters.all fun m => !isLiteralChar m) = true := by decide
  intro hc
  have hfalse := List.all_eq_true.mp hmeta c hc
  rw [h] at hfalse
  cases hfalse

theorem head?_literal {inLabel dotted : Bool} {lit : Str}
    (h : isDomainLiteral inLabel dotted lit = true) :
    ∀ c ∈ (lit ++ ['$']).head?, c ∉ quantifierStart := by
  intro c hc
  have hstart : quantifierStart ⊆ metacharacters := by decide
  fun_cases isDomainLiteral inLabel dotted lit with
  | case1 =>
      cases hc
      decide
  | case2 =>
      cases hc
      decide
  | case3 =>
      cases hc
      decide
  | case4 c' lit =>
      cases hc
      rw [isDomainLiteral, Bool.and_eq_true] at h
      · exact fun hmem => not_mem_metacharacters h.1 (hstart hmem)
      · assumption
      · assumption

theorem readFrom_dollar {text : Str} {r : Reader} (h : text.drop r.index = ['$']) :
    readFrom text r =
      some { r with index := r.index + 1, level := r.level.push (.zero .dollar) } := by
  rw [readFrom_zero h (Or.inr ⟨rfl, rfl⟩)]
  exact readFrom_end (drop_succ_of_drop h)

/-- A domain literal adds its characters to the branch, and the end its `$`. -/
theorem readFrom_literal {inLabel dotted : Bool} {lit : Str}
    (h : isDomainLiteral inLabel dotted lit = true) (hdrop : text.drop r.index = lit ++ ['$']) :
    ∃ r', readFrom text r = some r' ∧ r'.outer = r.outer ∧
      r'.level.finished = r.level.finished ∧
      r'.level.items = r.level.items ++ (letters (unescapeDots lit) ++ [.zero .dollar]) := by
  fun_induction isDomainLiteral inLabel dotted lit generalizing r with
  | case1 => exact ⟨_, readFrom_dollar hdrop, rfl, rfl, rfl⟩
  | case2 =>
      have hread := readFrom_plain hdrop (by decide) (not_quantifier_head (by decide))
      refine ⟨_, hread.trans (readFrom_dollar (drop_succ_of_drop hdrop)), rfl, rfl, ?_⟩
      exact List.append_assoc _ _ _
  | case3 inLabel dotted lit ih =>
      rw [Bool.and_eq_true] at h
      have hread := readFrom_escapedDot hdrop (head?_literal h.2)
      obtain ⟨r', hr', houter, hfinished, hitems⟩ := ih h.2
        (r := { r with index := r.index + 2, level := r.level.pushAtom (Atom.literal '.') none })
        (drop_succ_of_drop (drop_succ_of_drop hdrop))
      refine ⟨r', hread.trans hr', houter, hfinished, hitems.trans ?_⟩
      exact List.append_assoc _ _ _
  | case4 inLabel dotted c lit hnewline hdot ih =>
      rw [Bool.and_eq_true] at h
      have hplain := not_mem_metacharacters h.1
      have hread := readFrom_plain hdrop hplain (head?_literal h.2)
      obtain ⟨r', hr', houter, hfinished, hitems⟩ := ih h.2
        (r := { r with index := r.index + 1, level := r.level.pushAtom (Atom.literal c) none })
        (drop_succ_of_drop hdrop)
      have hunescape : unescapeDots (c :: lit) = c :: unescapeDots lit := by
        rw [unescapeDots]
        exact hdot
      refine ⟨r', hread.trans hr', houter, hfinished, hitems.trans ?_⟩
      rw [hunescape]
      exact List.append_assoc _ _ _

end Tokens

/-! ### What a branch of letters finds -/

/-- The code of the other case of a letter. -/
def otherCase (code : Nat) : Nat :=
  if 65 ≤ code ∧ code ≤ 90 then code + 32 else if 97 ≤ code ∧ code ≤ 122 then code - 32 else code

theorem foldBits_shift : ∀ m < 128, foldBits (1 <<< m) = 1 <<< m ||| 1 <<< otherCase m := by
  decide

theorem toNat_asciiLower (c : Char) : (asciiLower c).toNat =
    if 65 ≤ c.toNat ∧ c.toNat ≤ 90 then c.toNat + 32 else c.toNat := by
  rcases asciiLower_cases c with hsame | ⟨hupper, hlower⟩
  · split
    · next hupper =>
        have hletter : 'A' ≤ c ∧ c ≤ 'Z' := hupper
        rw [asciiLower, if_pos hletter, toNat_ofNat (by omega)]
    · rw [hsame]
  · rw [if_pos hupper, hlower]

theorem literal_matches {c x : Char} (hc : c.toNat < 128) :
    octets.mem (Atom.literal c) x = true ↔ asciiLower x = asciiLower c := by
  show (Atom.literal c).matches x = true ↔ _
  rw [← Char.toNat_inj, toNat_asciiLower, toNat_asciiLower, Atom.matches]
  split
  · show (foldBits (1 <<< c.toNat)).testBit x.toNat = true ↔ _
    rw [foldBits_shift _ hc, Nat.testBit_or, Nat.one_shiftLeft, Nat.one_shiftLeft,
      Nat.testBit_two_pow, Nat.testBit_two_pow, Bool.or_eq_true, decide_eq_true_iff,
      decide_eq_true_iff]
    unfold otherCase
    split_ifs <;> omega
  · refine iff_of_false Bool.false_ne_true ?_
    split_ifs <;> omega

section Names

variable (name : QueryName) {items : List HostRe} {s : Str} {i : Nat}

theorem dollar_holds :
    octets.test .dollar name.text i = true ↔ i = name.text.length := by
  have hlast : name.text[i]? ≠ some '\n' := fun h =>
    name.oneLine (List.mem_of_getElem? h)
  simp [octets, Zero.holds, hlast]

theorem lower_getElem? {x : Char} (h : name.text[i]? = some x) : asciiLower x = x := by
  have hget := congrArg (·[i]?) name.lower
  simpa [h] using hget

theorem continues_letters (hs : ∀ c ∈ s, c.toNat < 128) :
    Continues octets name.text (letters s ++ items) i ↔
      s.map asciiLower <+: name.text.drop i ∧ Continues octets name.text items (i + s.length) := by
  induction s generalizing i with
  | nil => simp [letters]
  | cons c s ih =>
      have hc := hs c List.mem_cons_self
      show Continues octets name.text (.atom (Atom.literal c) :: (letters s ++ items)) i ↔ _
      simp only [continues_cons, mem_ends_atom, literal_matches hc,
        ih fun d hd => hs d (List.mem_cons_of_mem _ hd)]
      rw [List.map_cons, List.length_cons, Nat.add_comm s.length, ← Nat.add_assoc]
      constructor
      · rintro ⟨j, ⟨⟨x, hx, hlower⟩, rfl⟩, hbegins, hitems⟩
        refine ⟨?_, hitems⟩
        rw [lower_getElem? name hx] at hlower
        rw [← hlower, List.drop_eq_getElem?_toList_append, hx]
        exact List.cons_prefix_cons.mpr ⟨rfl, hbegins⟩
      · rintro ⟨hbegins, hitems⟩
        obtain ⟨t, ht⟩ := hbegins
        have hx := getElem?_of_drop ht.symm
        have hrest := drop_succ_of_drop ht.symm
        exact ⟨i + 1, ⟨⟨_, hx, lower_getElem? name hx⟩, rfl⟩, ⟨t, hrest.symm⟩, hitems⟩

/-- Letters and `$` find what is left of a name, without regard to case. -/
theorem continues_literal (hs : ∀ c ∈ s, c.toNat < 128) (hi : i ≤ name.text.length) :
    Continues octets name.text (letters s ++ [.zero .dollar]) i ↔
      name.text.drop i = s.map asciiLower := by
  rw [continues_letters name hs]
  simp only [continues_cons, mem_ends_zero]
  constructor
  · rintro ⟨hbegins, j, ⟨hdollar, -⟩, -⟩
    have hle := hbegins.length_le
    rw [List.length_map, List.length_drop] at hle
    have hend := (dollar_holds name).mp hdollar
    refine (hbegins.eq_of_length ?_).symm
    rw [List.length_map, List.length_drop]
    omega
  · intro hdrop
    have hlength := congrArg List.length hdrop
    rw [List.length_drop, List.length_map] at hlength
    have hend : i + s.length = name.text.length := by omega
    exact ⟨hdrop ▸ List.prefix_rfl, _, ⟨(dollar_holds name).mpr hend, rfl⟩, continues_nil⟩

end Names

/-! ### The five prefixes -/

theorem ascii_unescapeDots {inLabel dotted : Bool} {lit : Str}
    (h : isDomainLiteral inLabel dotted lit = true) : ∀ c ∈ unescapeDots lit, c.toNat < 128 := by
  fun_induction isDomainLiteral inLabel dotted lit with
  | case1 => exact fun c hc => absurd hc List.not_mem_nil
  | case2 => exact List.forall_mem_singleton.mpr (by decide)
  | case3 inLabel dotted lit ih =>
      rw [Bool.and_eq_true] at h
      exact List.forall_mem_cons.mpr ⟨by decide, ih h.2⟩
  | case4 inLabel dotted c lit hnewline hdot ih =>
      rw [Bool.and_eq_true] at h
      have hunescape : unescapeDots (c :: lit) = c :: unescapeDots lit := by
        rw [unescapeDots]
        exact hdot
      rw [hunescape]
      refine List.forall_mem_cons.mpr ⟨?_, ih h.2⟩
      have hchar := h.1
      simp only [isLiteralChar, isAsciiDigit, Bool.or_eq_true, Bool.and_eq_true,
        decide_eq_true_eq, beq_iff_eq] at hchar
      rcases hchar with (((⟨-, hz⟩ | ⟨-, hz⟩) | ⟨-, hz⟩) | rfl) | rfl
      · exact Nat.lt_of_le_of_lt (show c.toNat ≤ 90 from hz) (by decide)
      · exact Nat.lt_of_le_of_lt (show c.toNat ≤ 122 from hz) (by decide)
      · exact Nat.lt_of_le_of_lt (show c.toNat ≤ 57 from hz) (by decide)
      · decide
      · decide

/-- A prefix read to its end, before a literal and `$`. -/
theorem finds_of_begun (name : QueryName) {text lit : Str} {r : Reader}
    (hread : readFrom text { level := { dotAll := false } } = readFrom text r)
    (hdrop : text.drop r.index = lit ++ ['$']) (houter : r.outer = [])
    (hfinished : r.level.finished = []) (hlit : isDomainLiteral false false lit = true) :
    Finds octets text name.text ↔ ∃ i ≤ name.text.length, Continues octets name.text
      (r.level.items ++ (letters (unescapeDots lit) ++ [.zero .dollar])) i := by
  obtain ⟨r', hr', houter', hfinished', hitems⟩ := readFrom_literal hlit hdrop
  have hregex : readRegex text = some r'.level.re := by
    rw [readRegex_eq, hread, hr', Option.bind_some, houter', houter]
    rfl
  rw [finds_iff hregex, ← hitems]
  simp only [Level.ends_re_of_single (hfinished'.trans hfinished)]
  rfl

theorem mem_ends_dot {name : Str} {i j : Nat} :
    j ∈ endsIn octets name (.atom (Atom.literal '.')) i ↔ name[i]? = some '.' ∧ j = i + 1 := by
  have hdot : ∀ c : Char, asciiLower c = '.' ↔ c = '.' := by
    intro c
    rw [← Char.toNat_inj, ← Char.toNat_inj, toNat_asciiLower]
    show _ = 46 ↔ _ = 46
    split_ifs <;> omega
  rw [mem_ends_atom]
  simp only [literal_matches (show ('.').toNat < 128 by decide), show asciiLower '.' = '.' from rfl,
    hdot, exists_eq_right]

theorem getElem?_dot_iff {name : Str} {i : Nat} {rest : Str} :
    (name[i]? = some '.' ∧ name.drop (i + 1) = rest) ↔ name.drop i = '.' :: rest := by
  constructor
  · rintro ⟨hdot, rfl⟩
    rw [List.drop_eq_getElem?_toList_append, hdot]
    rfl
  · exact fun h => ⟨getElem?_of_drop h, drop_succ_of_drop h⟩

theorem eq_w_of_asciiLower {c : Char} (h : asciiLower c = 'w') : c = 'W' ∨ c = 'w' := by
  rw [← Char.toNat_inj, toNat_asciiLower] at h
  have hw : ('w').toNat = 119 := rfl
  rw [← Char.toNat_inj, ← Char.toNat_inj]
  have hupper : ('W').toNat = 87 := rfl
  split_ifs at h <;> omega

theorem not_mem_metacharacters_w {c : Char} (h : asciiLower c = 'w') : c ∉ metacharacters := by
  rcases eq_w_of_asciiLower h with rfl | rfl <;> decide

theorem stretch_oneLine (name : QueryName) :
    stretch octets.mem name.text Atom.anyButNewline 0 = name.text.length := by
  have hall : name.text.takeWhile (octets.mem Atom.anyButNewline) = name.text :=
    List.takeWhile_eq_self_iff.mpr fun c hc =>
      (anyButNewline_matches c).mpr fun e => name.oneLine (e ▸ hc)
  rw [stretch, List.drop_zero, hall]

section Shapes

variable (name : QueryName) {lit : Str} (hlit : isDomainLiteral false false lit = true)

include hlit

theorem continues_spelled {i : Nat} (hi : i ≤ name.text.length) :
    Continues octets name.text (letters (unescapeDots lit) ++ [.zero .dollar]) i ↔
      name.text.drop i = spelled lit :=
  continues_literal name (ascii_unescapeDots hlit) hi

theorem head?_ne_mark : (lit ++ ['$']).head? ≠ some '?' :=
  fun h => head?_literal hlit _ h (by decide)

/-- `^D$`. -/
theorem finds_exact :
    Finds octets ('^' :: (lit ++ ['$'])) name.text ↔ name.text = spelled lit := by
  have hread : readFrom ('^' :: (lit ++ ['$'])) { level := { dotAll := false } } = _ :=
    readFrom_zero rfl (Or.inl ⟨rfl, rfl⟩)
  rw [finds_of_begun name hread rfl rfl rfl hlit]
  show (∃ i ≤ name.text.length, Continues octets name.text
    (.zero .caret :: (letters (unescapeDots lit) ++ [.zero .dollar])) i) ↔ _
  simp only [continues_caret, continues_spelled name hlit (Nat.zero_le _), List.drop_zero]
  constructor
  · rintro ⟨i, -, -, hname⟩
    exact hname
  · exact fun hname => ⟨0, Nat.zero_le _, rfl, hname⟩

/-- `(^|\.)D$`. -/
theorem finds_anchored :
    Finds octets ('(' :: '^' :: '|' :: '\\' :: '.' :: ')' :: (lit ++ ['$'])) name.text ↔
      name.text = spelled lit ∨ '.' :: spelled lit <:+ name.text := by
  have hopen : readFrom ('(' :: '^' :: '|' :: '\\' :: '.' :: ')' :: (lit ++ ['$']))
      { level := { dotAll := false } } = _ := readFrom_open rfl rfl
  have hcaret := hopen.trans (readFrom_zero rfl (Or.inl ⟨rfl, rfl⟩))
  have hbar := hcaret.trans (readFrom_bar rfl)
  have hdot := hbar.trans (readFrom_escapedDot rfl (not_quantifier_head (by decide)))
  have hclose := hdot.trans
    (readFrom_close rfl rfl (quantifier?_none rfl (head?_literal hlit)) rfl)
  rw [finds_of_begun name hclose rfl rfl rfl hlit]
  show (∃ i ≤ name.text.length, Continues octets name.text
    (.group (.alt (inTurn [.zero .caret]) (inTurn [.atom (Atom.literal '.')])) ::
      (letters (unescapeDots lit) ++ [.zero .dollar])) i) ↔ _
  have hends : ∀ i j, j ∈ endsIn octets name.text (.group (.alt (inTurn [.zero .caret])
      (inTurn [.atom (Atom.literal '.')]))) i ↔
        (i = 0 ∧ j = 0) ∨ name.text[i]? = some '.' ∧ j = i + 1 := by
    intro i j
    show j ∈ endsIn octets _ _ i ++ endsIn octets _ _ i ↔ _
    rw [List.mem_append, ends_single, ends_single, mem_ends_zero, mem_ends_dot,
      octets.caret_test]
    constructor
    · rintro (⟨rfl, rfl⟩ | hdot)
      · exact Or.inl ⟨rfl, rfl⟩
      · exact Or.inr hdot
    · rintro (⟨rfl, rfl⟩ | hdot)
      · exact Or.inl ⟨rfl, rfl⟩
      · exact Or.inr hdot
  simp only [continues_cons, hends]
  constructor
  · rintro ⟨i, hi, j, ⟨rfl, rfl⟩ | ⟨hdot, rfl⟩, hrest⟩
    · exact Or.inl ((continues_spelled name hlit hi).mp hrest)
    · have hlt : i < name.text.length := (List.getElem?_eq_some_iff.mp hdot).1
      have hdrop := (continues_spelled name hlit hlt).mp hrest
      exact Or.inr (getElem?_dot_iff.mp ⟨hdot, hdrop⟩ ▸ List.drop_suffix _ _)
  · rintro (hname | ⟨front, hname⟩)
    · exact ⟨0, Nat.zero_le _, 0, Or.inl ⟨rfl, rfl⟩,
        (continues_spelled name hlit (Nat.zero_le _)).mpr hname⟩
    · have hdrop : name.text.drop front.length = '.' :: spelled lit := by
        rw [← hname, List.drop_left]
      obtain ⟨hdot, hrest⟩ := getElem?_dot_iff.mpr hdrop
      have hlt : front.length < name.text.length := (List.getElem?_eq_some_iff.mp hdot).1
      exact ⟨front.length, hlt.le, _, Or.inr ⟨hdot, rfl⟩,
        (continues_spelled name hlit hlt).mpr hrest⟩

/-- A branch of `^`, an optional group and a literal. -/
theorem finds_of_option {text : Str} {r : Reader} {body : Level} {lazy : Bool}
    (hread : readFrom text { level := { dotAll := false } } = readFrom text r)
    (hdrop : text.drop r.index = lit ++ ['$']) (houter : r.outer = [])
    (hfinished : r.level.finished = []) (hbody : body.finished = [])
    (hitems : r.level.items = [.zero .caret, .opt body.re lazy]) :
    Finds octets text name.text ↔ name.text = spelled lit ∨ Continues octets name.text
      (body.items ++ (letters (unescapeDots lit) ++ [.zero .dollar])) 0 := by
  rw [finds_of_begun name hread hdrop houter hfinished hlit, hitems]
  show (∃ i ≤ name.text.length, Continues octets name.text (.zero .caret :: .opt body.re lazy ::
    (letters (unescapeDots lit) ++ [.zero .dollar])) i) ↔ _
  simp only [continues_option hbody, continues_spelled name hlit (Nat.zero_le _), List.drop_zero]
  constructor
  · rintro ⟨i, -, -, hname⟩
    exact hname
  · exact fun hname => ⟨0, Nat.zero_le _, rfl, hname⟩

/-- `^(www\.)?D$`, in any case. -/
theorem finds_www {a b c : Char} (ha : asciiLower a = 'w') (hb : asciiLower b = 'w')
    (hc : asciiLower c = 'w') :
    Finds octets ('^' :: '(' :: a :: b :: c :: '\\' :: '.' :: ')' :: '?' :: (lit ++ ['$']))
        name.text ↔ name.text = spelled lit ∨ name.text = Whitelist.www ++ spelled lit := by
  have hcaret : readFrom ('^' :: '(' :: a :: b :: c :: '\\' :: '.' :: ')' :: '?' ::
      (lit ++ ['$'])) { level := { dotAll := false } } = _ :=
    readFrom_zero rfl (Or.inl ⟨rfl, rfl⟩)
  have hcapture : ∀ rest : Str, opening ('(' :: a :: rest) false = some (1, false) := by
    intro rest
    rcases eq_w_of_asciiLower ha with rfl | rfl <;> rfl
  have hplain : ∀ {x : Char} {rest : Str}, asciiLower x = 'w' →
      ∀ d ∈ (x :: rest).head?, d ∉ quantifierStart := by
    intro x rest hx
    refine not_quantifier_head fun hmem => not_mem_metacharacters_w hx ?_
    exact (by decide : quantifierStart ⊆ metacharacters) hmem
  have hopen := hcaret.trans (readFrom_open rfl (hcapture _))
  have hfirst := hopen.trans (readFrom_plain rfl (not_mem_metacharacters_w ha) (hplain hb))
  have hsecond := hfirst.trans (readFrom_plain rfl (not_mem_metacharacters_w hb) (hplain hc))
  have hthird := hsecond.trans (readFrom_plain rfl (not_mem_metacharacters_w hc)
    (not_quantifier_head (by decide)))
  have hdot := hthird.trans (readFrom_escapedDot rfl (not_quantifier_head (by decide)))
  have hclose := hdot.trans (readFrom_closeOptional rfl rfl (head?_ne_mark hlit))
  have hascii : ∀ x ∈ [a, b, c, '.'] ++ unescapeDots lit, x.toNat < 128 := by
    have hw : ∀ {x : Char}, asciiLower x = 'w' → x.toNat < 128 := by
      intro x hx
      rcases eq_w_of_asciiLower hx with rfl | rfl <;> decide
    simp only [List.forall_mem_append, List.forall_mem_cons]
    exact ⟨⟨hw ha, hw hb, hw hc, by decide, by simp⟩, ascii_unescapeDots hlit⟩
  have happend : letters [a, b, c, '.'] ++ (letters (unescapeDots lit) ++ [.zero .dollar]) =
      letters ([a, b, c, '.'] ++ unescapeDots lit) ++ [.zero .dollar] := by
    simp only [letters, List.map_append, List.append_assoc]
  rw [finds_of_option name hlit hclose rfl rfl rfl rfl rfl]
  show _ ∨ Continues octets name.text (letters [a, b, c, '.'] ++ _) 0 ↔ _
  rw [happend, continues_literal name hascii (Nat.zero_le _), List.drop_zero, List.map_append]
  show _ ∨ _ = [asciiLower a, asciiLower b, asciiLower c, '.'] ++ _ ↔ _
  rw [ha, hb, hc]
  rfl

/-- The rest of `^(.+\.)?D$` once its group is open. -/
theorem finds_of_subdomains {text : Str} {r : Reader}
    (hread : readFrom text { level := { dotAll := false } } = readFrom text r)
    (hdrop : text.drop r.index = '.' :: '+' :: '\\' :: '.' :: ')' :: '?' :: (lit ++ ['$']))
    (hlevel : r.level = { dotAll := false })
    (houter : r.outer = [({ dotAll := false } : Level).push (.zero .caret)]) :
    Finds octets text name.text ↔
      name.text = spelled lit ∨ ∃ front ≠ [], name.text = front ++ '.' :: spelled lit := by
  obtain ⟨index, level, outer⟩ := r
  subst hlevel houter
  have hdrop₂ := drop_succ_of_drop (drop_succ_of_drop hdrop)
  have hdrop₄ := drop_succ_of_drop (drop_succ_of_drop hdrop₂)
  obtain ⟨q, hlow, hhigh, hrun⟩ := readFrom_dotPlus hdrop rfl (by simp)
  have hdot := hread.trans (hrun.trans
    (readFrom_escapedDot hdrop₂ (not_quantifier_head (by decide))))
  have hclose := hdot.trans (readFrom_closeOptional hdrop₄ rfl (head?_ne_mark hlit))
  rw [finds_of_option name hlit hclose (drop_succ_of_drop (drop_succ_of_drop hdrop₄)) rfl rfl rfl
    rfl]
  show _ ∨ Continues octets name.text (.rep Atom.anyButNewline q.low q.high q.lazy ::
    .atom (Atom.literal '.') :: (letters (unescapeDots lit) ++ [.zero .dollar])) 0 ↔ _
  refine or_congr_right ?_
  simp only [continues_cons, mem_ends_rep, mem_ends_dot, hlow, hhigh, stretch_oneLine]
  constructor
  · rintro ⟨_, ⟨n, hone, -, rfl⟩, _, ⟨hat, rfl⟩, hrest⟩
    rw [Nat.zero_add] at hat hrest
    have hlt : n < name.text.length := (List.getElem?_eq_some_iff.mp hat).1
    have hname := getElem?_dot_iff.mp ⟨hat, (continues_spelled name hlit hlt).mp hrest⟩
    refine ⟨name.text.take n, ?_, ?_⟩
    · exact List.ne_nil_of_length_pos (by rw [List.length_take]; omega)
    · rw [← hname, List.take_append_drop]
  · rintro ⟨front, hne, hname⟩
    have hat : name.text.drop front.length = '.' :: spelled lit := by
      rw [hname, List.drop_left]
    obtain ⟨hdot, hrest⟩ := getElem?_dot_iff.mpr hat
    have hlt : front.length < name.text.length := (List.getElem?_eq_some_iff.mp hdot).1
    exact ⟨front.length, ⟨front.length, List.length_pos_of_ne_nil hne, hlt.le,
      (Nat.zero_add _).symm⟩, _, ⟨hdot, rfl⟩, (continues_spelled name hlit hlt).mpr hrest⟩

/-- `^(.+\.)?D$`. -/
theorem finds_captured : Finds octets
    ('^' :: '(' :: '.' :: '+' :: '\\' :: '.' :: ')' :: '?' :: (lit ++ ['$'])) name.text ↔
      name.text = spelled lit ∨ ∃ front ≠ [], name.text = front ++ '.' :: spelled lit := by
  have hcaret : readFrom ('^' :: '(' :: '.' :: '+' :: '\\' :: '.' :: ')' :: '?' ::
      (lit ++ ['$'])) { level := { dotAll := false } } = _ :=
    readFrom_zero rfl (Or.inl ⟨rfl, rfl⟩)
  exact finds_of_subdomains name hlit (hcaret.trans (readFrom_open rfl rfl)) rfl rfl rfl

/-- `^(?:.+\.)?D$`. -/
theorem finds_grouped : Finds octets ('^' :: '(' :: '?' :: ':' :: '.' :: '+' :: '\\' :: '.' ::
    ')' :: '?' :: (lit ++ ['$'])) name.text ↔
      name.text = spelled lit ∨ ∃ front ≠ [], name.text = front ++ '.' :: spelled lit := by
  have hcaret : readFrom ('^' :: '(' :: '?' :: ':' :: '.' :: '+' :: '\\' :: '.' :: ')' :: '?' ::
      (lit ++ ['$'])) { level := { dotAll := false } } = _ :=
    readFrom_zero rfl (Or.inl ⟨rfl, rfl⟩)
  exact finds_of_subdomains name hlit (hcaret.trans (readFrom_open rfl rfl)) rfl rfl rfl

end Shapes

/-! ### Where a fold and its pattern part -/

/-- The prefixes that fold, by whether they cover subdomains. -/
inductive Folds : Bool → Str → Prop
  | wildcard {pre : Str} : pre ∈ wildcardPrefixes → Folds true pre
  | exact : Folds false ['^']
  | www {option : Str} : option.map asciiLower = wwwOpt → Folds false ('^' :: option)

/-- The pattern of an exact domain, with or without an optional `www.`, and the name one `www.`
below it. -/
def WwwBelow (optional : Bool) (p name : Str) : Prop :=
  ∃ pre lit, Folds false pre ∧ (pre = ['^'] ↔ optional = false) ∧
    isDomainLiteral false false lit = true ∧ p = pre ++ (lit ++ ['$']) ∧
    name = Whitelist.www ++ spelled lit

/-- The prefixes with something before the dot. -/
def subdomainPrefixes : List Str := ["^(.+\\.)?".toList, "^(?:.+\\.)?".toList]

/-- A fold of `.+\.`, and the name with nothing before the dot of its domain. -/
def EmptyLabel (p name : Str) : Prop :=
  ∃ pre lit, pre ∈ subdomainPrefixes ∧ isDomainLiteral false false lit = true ∧
    p = pre ++ (lit ++ ['$']) ∧ name = '.' :: spelled lit

theorem eq_of_asciiLower {c d : Char} (h : asciiLower c = d)
    (hd : ¬ (97 ≤ d.toNat ∧ d.toNat ≤ 122)) : c = d := by
  subst h
  rw [toNat_asciiLower] at hd
  refine (asciiLower_eq_self fun hupper => hd ?_).symm
  rw [if_pos hupper]
  omega

/-- The texts that lower to `(www\.)?`. -/
theorem wwwOpt_letters {option : Str} (h : option.map asciiLower = wwwOpt) :
    ∃ a b c, asciiLower a = 'w' ∧ asciiLower b = 'w' ∧ asciiLower c = 'w' ∧
      option = ['(', a, b, c, '\\', '.', ')', '?'] := by
  have hchars : wwwOpt = ['(', 'w', 'w', 'w', '\\', '.', ')', '?'] := rfl
  simp only [hchars, List.map_eq_cons_iff, List.map_eq_nil_iff] at h
  obtain ⟨c₀, _, rfl, h₀, c₁, _, rfl, h₁, c₂, _, rfl, h₂, c₃, _, rfl, h₃, c₄, _, rfl, h₄,
    c₅, _, rfl, h₅, c₆, _, rfl, h₆, c₇, _, rfl, h₇, rfl⟩ := h
  refine ⟨c₁, c₂, c₃, h₁, h₂, h₃, ?_⟩
  rw [eq_of_asciiLower h₀ (by decide), eq_of_asciiLower h₄ (by decide),
    eq_of_asciiLower h₅ (by decide), eq_of_asciiLower h₆ (by decide),
    eq_of_asciiLower h₇ (by decide)]

theorem mem_literal {inLabel dotted : Bool} {lit : Str}
    (h : isDomainLiteral inLabel dotted lit = true) :
    ∀ c ∈ lit, isLiteralChar c = true ∨ c ∈ ['\n', '\\', '.'] := by
  fun_induction isDomainLiteral inLabel dotted lit with
  | case1 => exact fun c hc => absurd hc List.not_mem_nil
  | case2 => exact fun c hc => Or.inr (by simp_all)
  | case3 inLabel dotted lit ih =>
      rw [Bool.and_eq_true] at h
      exact List.forall_mem_cons.mpr ⟨Or.inr (by decide),
        List.forall_mem_cons.mpr ⟨Or.inr (by decide), ih h.2⟩⟩
  | case4 inLabel dotted c lit hnewline hdot ih =>
      rw [Bool.and_eq_true] at h
      exact List.forall_mem_cons.mpr ⟨Or.inl h.1, ih h.2⟩

/-- A prefix ends in a character no literal has. -/
theorem Folds.last {w : Bool} {pre : Str} (h : Folds w pre) :
    ∃ front m, pre = front ++ [m] ∧ m ∈ ['^', ')', '?'] := by
  cases h with
  | wildcard hmem =>
      simp only [wildcardPrefixes, List.mem_cons, List.not_mem_nil, or_false] at hmem
      rcases hmem with rfl | rfl | rfl
      · exact ⟨"^(.+\\.)".toList, '?', rfl, by decide⟩
      · exact ⟨"(^|\\.".toList, ')', rfl, by decide⟩
      · exact ⟨"^(?:.+\\.)".toList, '?', rfl, by decide⟩
  | exact => exact ⟨[], '^', rfl, by decide⟩
  | www hwww =>
      obtain ⟨a, b, c, -, -, -, rfl⟩ := wwwOpt_letters hwww
      exact ⟨['^', '(', a, b, c, '\\', '.', ')'], '?', rfl, by decide⟩

/-- A pattern has one prefix and one literal. -/
theorem Folds.split_unique {w w' : Bool} {pre pre' lit lit' : Str} (h : Folds w pre)
    (h' : Folds w' pre') (hlit : isDomainLiteral false false lit = true)
    (hlit' : isDomainLiteral false false lit' = true)
    (heq : pre ++ (lit ++ ['$']) = pre' ++ (lit' ++ ['$'])) : pre = pre' ∧ lit = lit' := by
  have hmarks : ∀ {lit : Str}, isDomainLiteral false false lit = true →
      ∀ m ∈ ['^', ')', '?'], m ∉ lit ++ ['$'] := by
    intro lit hlit m hm hmem
    have hchars : (['^', ')', '?'].all fun m =>
        !isLiteralChar m && !(['\n', '\\', '.', '$'].contains m)) = true := by decide
    have hm := List.all_eq_true.mp hchars m hm
    rw [Bool.and_eq_true, Bool.not_eq_true', Bool.not_eq_true'] at hm
    have hrest : m ∉ ['\n', '\\', '.', '$'] := by simpa using hm.2
    rcases List.mem_append.mp hmem with hmem | hmem
    · rcases mem_literal hlit m hmem with hchar | hchar
      · exact Bool.false_ne_true (hm.1.symm.trans hchar)
      · exact hrest (List.mem_append_left ['$'] hchar)
    · exact hrest (List.mem_append_right ['\n', '\\', '.'] hmem)
  -- a longer prefix would end inside the other's literal
  have hshort : ∀ {w : Bool} {pre middle rest lit : Str}, Folds w (pre ++ middle) →
      isDomainLiteral false false lit = true → lit ++ ['$'] = middle ++ rest → middle = [] := by
    intro w pre middle rest lit h hlit heq
    obtain ⟨front, m, hpre, hm⟩ := h.last
    rcases List.eq_nil_or_concat middle with hnil | ⟨middle', m', rfl⟩
    · exact hnil
    · rw [List.concat_eq_append, ← List.append_assoc] at hpre
      obtain ⟨-, hsame⟩ := List.append_inj' hpre rfl
      refine absurd ?_ (hmarks hlit m hm)
      rw [heq, ← List.singleton_inj.mp hsame]
      simp
  rcases List.append_eq_append_iff.mp heq with ⟨middle, rfl, hrest⟩ | ⟨middle, rfl, hrest⟩
  · obtain rfl := hshort h' hlit hrest
    exact ⟨(List.append_nil _).symm, List.append_cancel_right hrest⟩
  · obtain rfl := hshort h hlit' hrest
    exact ⟨List.append_nil _, (List.append_cancel_right hrest).symm⟩

theorem of_literalDomain {u : Unicode} (hlower : LowersLetters u) {lit d : Str}
    (h : literalDomain u lit = some d) :
    isDomainLiteral false false lit = true ∧ d = spelled lit := by
  obtain ⟨hlit, hd⟩ := Option.ite_none_right_eq_some.mp h
  refine ⟨hlit, (Option.some.inj hd).symm.trans (hlower.ascii _ ?_)⟩
  exact List.all_eq_true.mpr fun c hc => decide_eq_true (ascii_unescapeDots hlit c hc)

theorem of_startsWith {pre s : Str} (h : startsWith pre s = true) :
    s = pre ++ s.drop pre.length := by
  obtain ⟨t, rfl⟩ := List.isPrefixOf_iff_prefix.mp h
  rw [List.drop_left]

/-- What folds is a prefix, a literal and `$`. -/
theorem of_reduceRegex {u : Unicode} (hlower : LowersLetters u) {p d : Str} {w : Bool}
    (h : reduceRegex u p = some (w, d)) :
    ∃ pre lit, Folds w pre ∧ isDomainLiteral false false lit = true ∧ p = pre ++ (lit ++ ['$']) ∧
      d = spelled lit := by
  unfold reduceRegex at h
  split at h
  · cases h
  next hend =>
  rw [Bool.not_eq_true, Bool.not_eq_false'] at hend
  obtain ⟨body, rfl⟩ := List.isSuffixOf_iff_suffix.mp hend
  rw [show "$".toList = ['$'] from rfl, List.dropLast_concat] at h
  dsimp only at h
  split at h
  · next pre hfind =>
      obtain ⟨d', hdomain, hpair⟩ := Option.map_eq_some_iff.mp h
      obtain ⟨rfl, rfl⟩ := Prod.mk.inj hpair
      obtain ⟨hlit, hd⟩ := of_literalDomain hlower hdomain
      have hbody := of_startsWith (List.find?_some (p := (startsWith · body)) hfind)
      refine ⟨pre, _, .wildcard (List.mem_of_find?_eq_some hfind), hlit, ?_, hd⟩
      rw [← List.append_assoc, ← hbody]
      rfl
  · obtain ⟨hcaret, h⟩ := Option.ite_none_right_eq_some.mp h
    have hbody := of_startsWith hcaret
    obtain ⟨d', hdomain, hpair⟩ := Option.map_eq_some_iff.mp h
    obtain ⟨rfl, rfl⟩ := Prod.mk.inj hpair
    obtain ⟨hlit, hd⟩ := of_literalDomain hlower hdomain
    split at hlit
    · next hwww =>
        rw [if_pos hwww] at hd
        refine ⟨_, _, .www (hlower.www _ hwww), hlit, ?_, hd⟩
        rw [← List.append_assoc, List.cons_append, List.take_append_drop]
        exact congrArg (· ++ ['$']) hbody
    · next hwww =>
        rw [if_neg hwww] at hd
        refine ⟨_, _, .exact, hlit, ?_, hd⟩
        exact congrArg (· ++ ['$']) hbody

/-- The entry of a fold in whiteDB. -/
theorem whitelistCheckDomain_single (d name : Str) (e : WhiteEntry) :
    whitelistCheckDomain name (Dict.empty.set d e) 0 = true ↔
      name = d ∨ name = Whitelist.www ++ d ∨ (∃ front, name = front ++ '.' :: d) ∧
        e.wildcard = true := by
  have hget : ∀ k e', (Dict.empty.set d e : WhiteDb).get k = some e' ↔ d = k ∧ e = e' := by
    intro k e'
    rw [Dict.get_set, Dict.get_empty]
    split <;> simp_all
  rw [whitelistCheckDomain_iff]
  simp only [matches_iff_reaches, hget]
  constructor
  · rintro ⟨_, _, ⟨rfl, rfl⟩, hname | hname | ⟨hfront, -, hwild⟩⟩
    · exact Or.inl hname
    · exact Or.inr (Or.inl hname)
    · exact Or.inr (Or.inr ⟨hfront, hwild⟩)
  · rintro (hname | hname | ⟨hfront, hwild⟩)
    · exact ⟨e, d, ⟨rfl, rfl⟩, Or.inl hname⟩
    · exact ⟨e, d, ⟨rfl, rfl⟩, Or.inr (Or.inl hname)⟩
    · exact ⟨e, d, ⟨rfl, rfl⟩, Or.inr (Or.inr ⟨hfront, by omega, hwild⟩)⟩

/-- The entry of a wildcard fold in zoneDB. -/
theorem findZoneMatch_single (d name : Str) (payload : BlockPayload) :
    (findZoneMatch name (Dict.empty.set d { payload := payload })).isSome = true ↔
      BlockForm true d name := by
  have hentry : ∀ q, zonePayload (Dict.empty.set d { payload := payload }) name q =
      if d = q then some payload else none := by
    intro q
    rw [zonePayload, Dict.get_set, Dict.get_empty]
    split <;> rfl
  have hsuffix : BlockForm true d name ↔ DottedSuffix d name := by
    simp only [BlockForm, DottedSuffix, true_and, List.IsSuffix, eq_comm]
  rw [hsuffix]
  constructor
  · intro h
    obtain ⟨⟨q, entry⟩, hfound⟩ := Option.isSome_iff_exists.mp h
    obtain ⟨hq, hpayload⟩ := findZoneMatch_eq_some hfound
    rw [hentry] at hpayload
    exact (Option.ite_none_right_eq_some.mp hpayload).1 ▸ hq
  · intro h
    by_contra hnone
    rw [Bool.not_eq_true, Option.isSome_eq_false_iff, Option.isNone_iff_eq_none] at hnone
    have := findZoneMatch_eq_none hnone h
    rw [hentry, if_pos rfl] at this
    cases this

/-- The entry of an exact fold in dataDB. -/
theorem get_single (d name : Str) (payload : BlockPayload) :
    ((Dict.empty.set d payload).get name).isSome = true ↔ BlockForm false d name := by
  rw [Dict.get_set, Dict.get_empty]
  split <;> simp_all [BlockForm, eq_comm]

/-- Whether the entry of a fold blocks a name: a zone, or an exact entry. -/
def entryBlocks (w : Bool) (d : Str) (payload : BlockPayload) (name : Str) : Bool :=
  if w then (findZoneMatch name (Dict.empty.set d { payload := payload })).isSome
  else ((Dict.empty.set d payload).get name).isSome

theorem entryBlocks_iff (w : Bool) (d : Str) (payload : BlockPayload) (name : Str) :
    entryBlocks w d payload name = true ↔ BlockForm w d name := by
  cases w with
  | true => exact findZoneMatch_single d name payload
  | false => exact get_single d name payload

theorem Folds.of_subdomain {pre : Str} (h : pre ∈ subdomainPrefixes) : Folds true pre :=
  .wildcard ((by decide : subdomainPrefixes ⊆ wildcardPrefixes) h)

theorem Folds.agree {w w' : Bool} {pre : Str} (h : Folds w pre) (h' : Folds w' pre) : w = w' := by
  have hnot : ∀ {pre : Str}, pre ∈ wildcardPrefixes → ¬ Folds false pre := by
    intro pre hmem hfalse
    cases hfalse with
    | exact => exact absurd hmem (by decide)
    | www hwww =>
        obtain ⟨a, b, c, ha, -, -, rfl⟩ := wwwOpt_letters hwww
        have hthird : ∀ pre ∈ wildcardPrefixes, pre[2]? ≠ some 'W' ∧ pre[2]? ≠ some 'w' := by
          decide
        obtain ⟨hupper, hlower⟩ := hthird _ hmem
        rcases eq_w_of_asciiLower ha with rfl | rfl
        · exact hupper rfl
        · exact hlower rfl
  cases w with
  | true =>
      cases w' with
      | true => rfl
      | false =>
          cases h with
          | wildcard hmem => exact absurd h' (hnot hmem)
  | false =>
      cases w' with
      | false => rfl
      | true =>
          cases h' with
          | wildcard hmem => exact absurd h (hnot hmem)

section Decisions

variable {w : Bool} {pre lit name : Str} (h : Folds w pre)
  (hlit : isDomainLiteral false false lit = true)

include h hlit

theorem wwwBelow_iff (optional : Bool) : WwwBelow optional (pre ++ (lit ++ ['$'])) name ↔
    w = false ∧ (pre = ['^'] ↔ optional = false) ∧ name = Whitelist.www ++ spelled lit := by
  constructor
  · rintro ⟨pre', lit', h', hpre, hlit', heq, hname⟩
    obtain ⟨rfl, rfl⟩ := h.split_unique h' hlit hlit' heq
    exact ⟨h.agree h', hpre, hname⟩
  · rintro ⟨rfl, hpre, hname⟩
    exact ⟨pre, lit, h, hpre, hlit, rfl, hname⟩

theorem emptyLabel_iff : EmptyLabel (pre ++ (lit ++ ['$'])) name ↔
    pre ∈ subdomainPrefixes ∧ name = '.' :: spelled lit := by
  constructor
  · rintro ⟨pre', lit', hmem, hlit', heq, hname⟩
    obtain ⟨rfl, rfl⟩ := h.split_unique (Folds.of_subdomain hmem) hlit hlit' heq
    exact ⟨hmem, hname⟩
  · rintro ⟨hmem, hname⟩
    exact ⟨pre, lit, hmem, hlit, rfl, hname⟩

end Decisions

theorem www_ne (d : Str) : Whitelist.www ++ d ≠ d := by
  intro h
  have := congrArg List.length h
  rw [List.length_append] at this
  simp [Whitelist.www] at this

/-- What a fold's pattern finds, by its prefix. -/
theorem Folds.finds_iff {w : Bool} {pre lit : Str} (h : Folds w pre)
    (hlit : isDomainLiteral false false lit = true) (name : QueryName) :
    Finds octets (pre ++ (lit ++ ['$'])) name.text ↔ name.text = spelled lit ∨
      (w = true ∧ '.' :: spelled lit <:+ name.text ∧
        ¬ (pre ∈ subdomainPrefixes ∧ name.text = '.' :: spelled lit)) ∨
      pre ≠ ['^'] ∧ w = false ∧ name.text = Whitelist.www ++ spelled lit := by
  have hfront : (∃ front ≠ [], name.text = front ++ '.' :: spelled lit) ↔
      '.' :: spelled lit <:+ name.text ∧ name.text ≠ '.' :: spelled lit := by
    constructor
    · rintro ⟨front, hne, hname⟩
      refine ⟨⟨front, hname.symm⟩, fun heq => hne ?_⟩
      exact List.append_left_eq_self.mp (hname.symm.trans heq)
    · rintro ⟨⟨front, hname⟩, hne⟩
      refine ⟨front, ?_, hname.symm⟩
      rintro rfl
      exact hne hname.symm
  cases h with
  | wildcard hmem =>
      simp only [wildcardPrefixes, List.mem_cons, List.not_mem_nil, or_false] at hmem
      rcases hmem with rfl | rfl | rfl
      · have hsub : "^(.+\\.)?".toList ∈ subdomainPrefixes := by decide
        refine (finds_captured name hlit).trans ?_
        simp only [hfront, hsub, ne_eq, true_and, Bool.true_eq_false, false_and, and_false,
          or_false]
      · have hsub : "(^|\\.)".toList ∉ subdomainPrefixes := by decide
        refine (finds_anchored name hlit).trans ?_
        simp only [hsub, true_and, false_and, not_false_eq_true, Bool.true_eq_false, and_true,
          and_false, or_false]
      · have hsub : "^(?:.+\\.)?".toList ∈ subdomainPrefixes := by decide
        refine (finds_grouped name hlit).trans ?_
        simp only [hfront, hsub, ne_eq, true_and, Bool.true_eq_false, false_and, and_false,
          or_false]
  | exact => exact (finds_exact name hlit).trans (by simp)
  | www hwww =>
      obtain ⟨a, b, c, ha, hb, hc, rfl⟩ := wwwOpt_letters hwww
      exact (finds_www name hlit ha hb hc).trans (by simp)

/-- What a fold decides of a name, against its pattern. -/
structure FoldDecides (p d : Str) (w : Bool) (name : Str) (payload : BlockPayload)
    (e : WhiteEntry) : Prop where
  /-- The block entry covers the domain, and as a wildcard what is below it. -/
  covers : entryBlocks w d payload name = true ↔ BlockForm w d name
  /-- A block decides alike except for the optional `www.` of an exact domain, and for the
  empty label that `.+` does not match. -/
  block : (Finds octets p name ↔ entryBlocks w d payload name = true) ↔
    ¬ WwwBelow true p name ∧ ¬ EmptyLabel p name
  /-- An allow decides alike except for the `www.` that the lookup strips, and for the empty
  label. -/
  allow : (Finds octets p name ↔ whitelistCheckDomain name (Dict.empty.set d e) 0 = true) ↔
    ¬ WwwBelow false p name ∧ ¬ EmptyLabel p name

theorem fold_decides {u : Unicode} (hlower : LowersLetters u) {p d : Str} {w : Bool}
    (h : reduceRegex u p = some (w, d)) (name : QueryName) (payload : BlockPayload)
    {e : WhiteEntry} (he : e.wildcard = w) : FoldDecides p d w name.text payload e := by
  obtain ⟨pre, lit, hfolds, hlit, rfl, rfl⟩ := of_reduceRegex hlower h
  have hwww := www_ne (spelled lit)
  have hdot : '.' :: spelled lit ≠ spelled lit := List.cons_ne_self _ _
  have hsuffix : '.' :: spelled lit <:+ Whitelist.www ++ spelled lit := ⟨"www".toList, rfl⟩
  have hfront : (∃ front, name.text = front ++ '.' :: spelled lit) ↔
      '.' :: spelled lit <:+ name.text := by
    simp only [List.IsSuffix, eq_comm]
  have hexact : w = false → pre ∉ subdomainPrefixes := fun hw hmem =>
    Bool.false_ne_true (hw.symm.trans (hfolds.agree (Folds.of_subdomain hmem)))
  refine ⟨entryBlocks_iff w _ payload _, ?_, ?_⟩
  · rw [entryBlocks_iff, hfolds.finds_iff hlit, wwwBelow_iff hfolds hlit,
      emptyLabel_iff hfolds hlit, BlockForm]
    cases w with
    | false =>
        have hpre := hexact rfl
        by_cases hbelow : name.text = Whitelist.www ++ spelled lit
        · simp [hbelow, hwww, hpre]
        · simp [hbelow, hpre]
    | true =>
        by_cases hempty : pre ∈ subdomainPrefixes ∧ name.text = '.' :: spelled lit
        · simp [hempty, hdot]
        · simp [hempty]
  · rw [hfolds.finds_iff hlit, whitelistCheckDomain_single, wwwBelow_iff hfolds hlit,
      emptyLabel_iff hfolds hlit, he, hfront]
    cases w with
    | false =>
        have hpre := hexact rfl
        by_cases hbelow : name.text = Whitelist.www ++ spelled lit
        · simp [hbelow, hwww, hpre]
        · simp [hbelow, hpre]
    | true =>
        by_cases hempty : pre ∈ subdomainPrefixes ∧ name.text = '.' :: spelled lit
        · simp [hempty, hdot]
        · by_cases hbelow : name.text = Whitelist.www ++ spelled lit
          · simp_all
          · simp_all

theorem lowersLetters_asciiOnly : LowersLetters asciiOnly where
  ascii _ _ := rfl
  www _ h := h

/-- Of `^(www\.)?foo\.com$` the allow still covers `www.foo.com`, the block does not. -/
theorem fold_decides_www :
    ¬ (Finds octets "^(www\\.)?foo\\.com$".toList "www.foo.com".toList ↔
        entryBlocks false "foo.com".toList ⟨"1".toList, 0, false, .feed⟩ "www.foo.com".toList =
          true) ∧
      (Finds octets "^(www\\.)?foo\\.com$".toList "www.foo.com".toList ↔
        whitelistCheckDomain "www.foo.com".toList
          (Dict.empty.set "foo.com".toList (.flag false)) 0 = true) := by
  let name : QueryName := ⟨"www.foo.com".toList, by decide, by decide, by decide⟩
  have hfold : reduceRegex asciiOnly "^(www\\.)?foo\\.com$".toList =
      some (false, "foo.com".toList) := by decide
  have hfolds : Folds false "^(www\\.)?".toList := .www (by decide)
  have hlit : isDomainLiteral false false "foo\\.com".toList = true := by decide
  have hdecides := fold_decides lowersLetters_asciiOnly hfold name ⟨"1".toList, 0, false, .feed⟩
    (e := .flag false) rfl
  have hbelow : WwwBelow true "^(www\\.)?foo\\.com$".toList name.text :=
    (wwwBelow_iff hfolds hlit true).mpr ⟨rfl, by decide, by decide⟩
  have hexact : ¬ WwwBelow false "^(www\\.)?foo\\.com$".toList name.text := fun h =>
    absurd ((wwwBelow_iff hfolds hlit false).mp h).2.1 (by decide)
  have hempty : ¬ EmptyLabel "^(www\\.)?foo\\.com$".toList name.text := fun h =>
    absurd ((emptyLabel_iff hfolds hlit).mp h).1 (by decide)
  exact ⟨fun halike => (hdecides.block.mp halike).1 hbelow, hdecides.allow.mpr ⟨hexact, hempty⟩⟩

/-- `^(www\.)?foo\.com$` blocks `www.foo.com`, its entry `foo.com` does not. -/
theorem www_fold_loses_www : ¬ ∀ (u : Unicode), LowersLetters u → ∀ (p d : Str) (w : Bool),
    reduceRegex u p = some (w, d) → ∀ (name : QueryName) (e : WhiteEntry), e.wildcard = w →
      (Finds octets p name.text ↔ BlockForm w d name.text) ∧
        (Finds octets p name.text ↔
          whitelistCheckDomain name.text (Dict.empty.set d e) 0 = true) := by
  intro hall
  let name : QueryName := ⟨"www.foo.com".toList, by decide, by decide, by decide⟩
  have hfold : reduceRegex asciiOnly "^(www\\.)?foo\\.com$".toList =
      some (false, "foo.com".toList) := by decide
  have hlit : isDomainLiteral false false "foo\\.com".toList = true := by decide
  have halike := (hall asciiOnly lowersLetters_asciiOnly _ _ _ hfold name (.flag false) rfl).1
  have hfinds : Finds octets "^(www\\.)?foo\\.com$".toList name.text :=
    (finds_www name hlit rfl rfl rfl).mpr (Or.inr rfl)
  rcases halike.mp hfinds with hname | ⟨hwild, -⟩
  · exact absurd hname (by decide)
  · cases hwild

end PfBlockerNG.RegexFolding
