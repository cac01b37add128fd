import PfBlockerNG.OctetParts

/-!
The whole rule matches a dotted quad exactly when each part, on its own, matches its octet.
-/

namespace PfBlockerNG.OctetMatches

open PfBlockerNG.GroupRepeats
open PfBlockerNG.IpText
open PfBlockerNG.OctetParts
open PfBlockerNG.OctetRegex
open PfBlockerNG.PcreReading
open PfBlockerNG.PyText
open PfBlockerNG.Strings

/-- What items leave of a text. -/
def left (total : Nat) (I : List Regex) (s : Str) : List Str :=
  ends Atom.mem (· == '\n') total (seq I) s

theorem left_append (total : Nat) (I J : List Regex) (s : Str) :
    left total (I ++ J) s = (left total I s).flatMap (left total J) :=
  ends_seq_append total s I J

theorem left_cons (total : Nat) (r : Regex) (J : List Regex) (s : Str) :
    left total (r :: J) s = (left total [r] s).flatMap (left total J) :=
  left_append total [r] J s

/-- Items that match a word as a whole. -/
def Full (J : List Regex) (w : Str) : Prop := [] ∈ left w.length J w

variable {total : Nat}

theorem full_iff (total : Nat) {J : List Regex} (hJ : ∀ j ∈ J, Refuses Atom.mem '.' j) (w : Str) :
    Full J w ↔ [] ∈ left total J w := by
  rw [Full, left, ends_total (refuses_seq hJ) total w.length]
  rfl

/-- Digits and dots. -/
def Quadlike (s : Str) : Prop := ∀ c ∈ s, isAsciiDigit c = true ∨ c = '.'

theorem Quadlike.of_suffix {s t : Str} (h : Quadlike s) (hsuffix : t <:+ s) : Quadlike t :=
  fun c hc => h c (hsuffix.mem hc)

theorem Quadlike.not_mem {s : Str} (h : Quadlike s) {c : Char} (hc : isAsciiDigit c = false)
    (hdot : c ≠ '.') : c ∉ s := by
  intro hmem
  rcases h c hmem with hdigit | rfl
  · rw [hc] at hdigit
    cases hdigit
  · exact hdot rfl

theorem left_skipped {I : List Regex} (hI : Skipped I) {s : Str} (hs : Quadlike s)
    (J : List Regex) : left total (I ++ J) s = left total J s := by
  rw [left_append, left, hI total s (hs.not_mem rfl (by decide)) (hs.not_mem rfl (by decide)),
    List.flatMap_singleton]

/-- The end of a rule is the end of the address. -/
theorem left_ending {K : List Regex} (hK : Skipped K) {s : Str} (hs : Quadlike s) :
    left total (K ++ [.stop]) s ≠ [] ↔ s = [] := by
  rw [left_skipped hK hs, left, ends_seq_singleton, ends]
  have hstop : (s.isEmpty || (s.length == 1 && s.all (· == '\n'))) = s.isEmpty := by
    cases s with
    | nil => rfl
    | cons c s =>
        have hc : (c == '\n') = false := by
          rw [beq_eq_false_iff_ne]
          rintro rfl
          exact hs.not_mem rfl (by decide) List.mem_cons_self
        simp [hc]
  simp only [hstop, List.isEmpty_iff]
  split <;> simp_all

theorem left_dot (u : Str) : left total [.atom (.char '.')] ('.' :: u) = [u] := rfl

theorem left_dot_of_ne {c : Char} (h : c ≠ '.') (s : Str) :
    left total [.atom (.char '.')] (c :: s) = [] := by
  have hmem : (Atom.char '.').mem c = false := by
    rw [Bool.eq_false_iff]
    exact fun hmem => h (char_mem hmem)
  rw [left, ends_seq_singleton, ends]
  simp [hmem]

/-- A word and its dot: the items match it as a whole, or the rest is not reached. -/
theorem left_word {J : List Regex} (hJ : ∀ j ∈ J, Refuses Atom.mem '.' j) {w : Str}
    (hw : '.' ∉ w) (u : Str) (C : List Regex) :
    left total (J ++ .atom (.char '.') :: C) (w ++ '.' :: u) ≠ [] ↔
      Full J w ∧ left total C u ≠ [] := by
  have hends : left total J (w ++ '.' :: u) = (left total J w).map (· ++ '.' :: u) :=
    ends_append (refuses_seq hJ) total total w u
  rw [left_append, hends, full_iff total hJ]
  simp only [ne_eq, List.flatMap_eq_nil_iff, List.forall_mem_map, not_forall]
  constructor
  · rintro ⟨t, ht, hne⟩
    cases t with
    | nil =>
        rw [List.nil_append, left_cons, left_dot, List.flatMap_singleton] at hne
        exact ⟨ht, hne⟩
    | cons c t =>
        have hc : c ≠ '.' := by
          rintro rfl
          exact hw ((suffix_of_ends _ ht).mem List.mem_cons_self)
        rw [List.cons_append, left_cons, left_dot_of_ne hc] at hne
        exact absurd rfl hne
  · rintro ⟨ht, hne⟩
    refine ⟨[], ht, ?_⟩
    rwa [List.nil_append, left_cons, left_dot, List.flatMap_singleton]

theorem joinDots_cons_cons (w v : Str) (ws : List Str) :
    joinDots (w :: v :: ws) = w ++ '.' :: joinDots (v :: ws) := by
  rw [joinDots, List.intercalate_cons_cons, List.append_assoc]
  rfl

/-- The words of an address. -/
def Words (ws : List Str) : Prop := ∀ w ∈ ws, ∀ c ∈ w, isAsciiDigit c = true

theorem Words.head {w : Str} {ws : List Str} (h : Words (w :: ws)) :
    '.' ∉ w ∧ Quadlike w := by
  have hw := h w List.mem_cons_self
  exact ⟨fun hdot => absurd (hw '.' hdot) (by decide), fun c hc => Or.inl (hw c hc)⟩

theorem Words.tail {w : Str} {ws : List Str} (h : Words (w :: ws)) : Words ws :=
  fun v hv => h v (List.mem_cons_of_mem w hv)

theorem Words.quadlike {ws : List Str} (h : Words ws) : Quadlike (joinDots ws) := by
  intro c hc
  rcases mem_intercalate hc with rfl | ⟨w, hw, hcw⟩
  · exact Or.inr rfl
  · exact Or.inl (h w hw c hcw)

/-- A chain of parts matches an address word by word. -/
theorem chain_iff {K : List Regex} (hK : Skipped K) {Js : List (List Regex)}
    (hJs : ∀ J ∈ Js, ∀ j ∈ J, Refuses Atom.mem '.' j) (hne : Js ≠ []) {ws : List Str}
    (hws : Words ws) (hne' : ws ≠ []) :
    left total (chain Js (K ++ [.stop])) (joinDots ws) ≠ [] ↔ List.Forall₂ Full Js ws := by
  induction Js generalizing ws with
  | nil => exact absurd rfl hne
  | cons J Js ih =>
      have hJ := hJs J List.mem_cons_self
      obtain ⟨w, ws, rfl⟩ := List.exists_cons_of_ne_nil hne'
      obtain ⟨hdot, hw⟩ := hws.head
      cases Js with
      | nil =>
          rw [chain, left_append]
          cases ws with
          | nil =>
              have hleft : ∀ t ∈ left total J w,
                  left total (K ++ [.stop]) t ≠ [] ↔ t = [] := fun t ht =>
                left_ending hK (hw.of_suffix (suffix_of_ends _ ht))
              have hjoin : joinDots [w] = w := List.intercalate_singleton
              rw [hjoin]
              simp only [List.forall₂_cons, List.forall₂_nil_left_iff, and_true]
              rw [full_iff total hJ]
              simp only [ne_eq, List.flatMap_eq_nil_iff, not_forall]
              constructor
              · rintro ⟨t, ht, hends⟩
                rwa [(hleft t ht).mp hends] at ht
              · exact fun hnil => ⟨[], hnil, (hleft [] hnil).mpr rfl⟩
          | cons v ws =>
              have hends : left total J (joinDots (w :: v :: ws)) =
                  (left total J w).map (· ++ '.' :: joinDots (v :: ws)) := by
                rw [joinDots_cons_cons]
                exact ends_append (refuses_seq hJ) total total w _
              have hnone : (left total J (joinDots (w :: v :: ws))).flatMap
                  (left total (K ++ [.stop])) = [] := by
                rw [List.flatMap_eq_nil_iff]
                intro t ht
                have hquad := hws.quadlike.of_suffix (suffix_of_ends _ ht)
                by_contra hstop
                obtain rfl := (left_ending hK hquad).mp hstop
                rw [hends, List.mem_map] at ht
                obtain ⟨t, -, hnil⟩ := ht
                simp at hnil
              rw [hnone]
              simp
      | cons J' Js =>
          rw [chain]
          · cases ws with
            | nil =>
                have hjoin : joinDots [w] = w := List.intercalate_singleton
                have hnone : left total (J ++ .atom (.char '.') ::
                    chain (J' :: Js) (K ++ [.stop])) w = [] := by
                  apply ends_seq_atom_eq_nil
                  intro c hc
                  rw [Bool.eq_false_iff]
                  intro hmem
                  rw [char_mem hmem] at hc
                  exact hdot hc
                rw [hjoin, hnone]
                simp
            | cons v ws =>
                have hrest := ih (fun I hI => hJs I (List.mem_cons_of_mem J hI))
                  (List.cons_ne_nil _ _) hws.tail (List.cons_ne_nil _ _)
                rw [joinDots_cons_cons, left_word hJ hdot, hrest]
                exact List.forall₂_cons.symm
          · exact List.cons_ne_nil _ _

/-- A part between `^(?:` and `)$`. -/
theorem pregMatch_part {J : List Regex} (hJ : ∀ j ∈ J, Refuses Atom.mem '.' j) {w : Str}
    (hw : Words [w]) : pregMatch (seq [.start, seq J, .stop]) w = true ↔ Full J w := by
  have hchain : left w.length (chain [J] ([] ++ [.stop])) (joinDots [w]) ≠ [] ↔
      List.Forall₂ Full [J] [w] :=
    chain_iff skipped_nil (by simpa using hJ) (List.cons_ne_nil _ _) hw (List.cons_ne_nil _ _)
  have hjoin : joinDots [w] = w := List.intercalate_singleton
  have hseq : left w.length [seq J, .stop] w = left w.length (J ++ [.stop]) w := by
    rw [left_append, left_cons, left, left, ends_seq_singleton]
  rw [hjoin, chain, List.nil_append, ← hseq, List.forall₂_cons] at hchain
  rw [pregMatch, finds_start]
  change left w.length [seq J, .stop] w ≠ [] ↔ Full J w
  simpa using hchain

/-- A tail of an address begins in one of its words. -/
theorem suffix_joinDots {s w : Str} {ws : List Str} (hs : s <:+ joinDots (w :: ws)) :
    ∃ e vs, s = joinDots (e :: vs) ∧ (∀ v ∈ e :: vs, ∃ u ∈ w :: ws, v <:+ u) ∧
      (e <:+ w ∧ vs = ws ∨ vs.length < ws.length) := by
  induction ws generalizing w with
  | nil =>
      have hjoin : ∀ v, joinDots [v] = v := fun v => List.intercalate_singleton
      rw [hjoin] at hs
      exact ⟨s, [], (hjoin s).symm, by simpa using hs, Or.inl ⟨hs, rfl⟩⟩
  | cons v ws ih =>
      have hword : ∀ e, e <:+ w → s = e ++ '.' :: joinDots (v :: ws) →
          ∃ e vs, s = joinDots (e :: vs) ∧ (∀ x ∈ e :: vs, ∃ u ∈ w :: v :: ws, x <:+ u) ∧
            (e <:+ w ∧ vs = v :: ws ∨ vs.length < (v :: ws).length) := by
        intro e he hse
        refine ⟨e, v :: ws, by rw [hse, joinDots_cons_cons], ?_, Or.inl ⟨he, rfl⟩⟩
        intro x hx
        rcases List.mem_cons.mp hx with rfl | hx
        · exact ⟨w, List.mem_cons_self, he⟩
        · exact ⟨x, List.mem_cons_of_mem w hx, List.suffix_refl x⟩
      rw [joinDots_cons_cons] at hs
      rcases List.suffix_or_suffix_of_suffix hs (List.suffix_append w _) with hshort | hlong
      · rcases List.suffix_cons_iff.mp hshort with heq | hrest
        · exact hword [] List.nil_suffix heq
        · obtain ⟨e, vs, rfl, hwords, hend⟩ := ih hrest
          refine ⟨e, vs, rfl, fun x hx => ?_, Or.inr ?_⟩
          · obtain ⟨u, hu, hxu⟩ := hwords x hx
            exact ⟨u, List.mem_cons_of_mem w hu, hxu⟩
          · rcases hend with ⟨-, rfl⟩ | hlt
            · exact Nat.lt_succ_self _
            · exact Nat.lt_succ_of_lt hlt
      · obtain ⟨e, rfl⟩ := hlong
        obtain ⟨x, hx⟩ := hs
        rw [← List.append_assoc] at hx
        exact hword e ⟨x, List.append_cancel_right hx⟩ rfl

/-! ### A literal first octet -/

variable {openLow : Bool}

def literalItems (s : Str) : List Regex := s.map fun c => .atom (.char c)

theorem readPlain_digit {c : Char} (h : isAsciiDigit c = true) :
    readPlain c = ([.item (.char c)], .plain) := by
  have hne := ne_of_digit h
  simp (disch := decide) [readPlain, hne]

theorem adds_digits {s : Str} (hs : ∀ c ∈ s, isAsciiDigit c = true) :
    Adds openLow s .plain (literalItems s) := by
  refine ⟨literals s, [], ?_, rfl, ?_⟩
  · induction s with
    | nil => rfl
    | cons c s ih =>
        have hrest := ih fun d hd => hs d (List.mem_cons_of_mem c hd)
        rw [lexRun, lexStep, readPlain_digit (hs c List.mem_cons_self), Option.bind_some, hrest]
        rfl
  · rw [List.append_nil]
    clear hs
    induction s with
    | nil => exact fun A I b => ⟨b, by rw [literalItems, List.map_nil, List.append_nil]; rfl⟩
    | cons c s ih =>
        have hhead : Extends [.item (.char c)] [.atom (.char c)] := fun A I b => ⟨true, rfl⟩
        exact hhead.append ih

theorem length_of_literal {s w : Str} (h : [] ∈ left total (literalItems s) w) :
    w.length = s.length := by
  induction s generalizing w with
  | nil => rw [← List.mem_singleton.mp h]
  | cons c s ih =>
      rw [literalItems, List.map_cons, left_cons, List.mem_flatMap] at h
      obtain ⟨t, ht, hnil⟩ := h
      rw [left, ends_seq_singleton] at ht
      cases w with
      | nil => cases ht
      | cons d w =>
          simp only [ends] at ht
          split at ht
          · rw [List.mem_singleton.mp ht] at hnil
            rw [List.length_cons, List.length_cons, ih hnil]
          · cases ht

theorem isLongOctet_spec {p : Str} (h : isLongOctet p = true) :
    p.length = 3 ∧ ∀ c ∈ p, isAsciiDigit c = true := by
  have hbetween : ∀ {lo hi c : Char}, '0' ≤ lo → hi ≤ '9' → lo ≤ c → c ≤ hi →
      isAsciiDigit c = true := by
    intro lo hi c hlo hhi hle hge
    simp [isAsciiDigit, Char.le_trans hlo hle, Char.le_trans hge hhi]
  unfold isLongOctet at h
  split at h
  · rw [Bool.and_eq_true] at h
    refine ⟨rfl, List.forall_mem_cons.mpr ⟨rfl, ?_⟩⟩
    simpa using h
  · rename_i b c
    refine ⟨rfl, List.forall_mem_cons.mpr ⟨rfl, ?_⟩⟩
    simp only [Bool.or_eq_true, Bool.and_eq_true, decide_eq_true_eq, beq_iff_eq] at h
    have hdigits : isAsciiDigit b = true ∧ isAsciiDigit c = true := by
      rcases h with ⟨⟨hlo, hhi⟩, hc⟩ | ⟨⟨rfl, hlo⟩, hhi⟩
      · exact ⟨hbetween (by decide) (by decide) hlo hhi, hc⟩
      · exact ⟨rfl, hbetween (by decide) (by decide) hlo hhi⟩
    simpa using hdigits
  · cases h

/-- A literal octet of three digits matches no longer octet in part. -/
theorem length_of_longOctet {p : Str} {J : List Regex} (hp : PartReads openLow p J)
    (hlong : isLongOctet p = true) {w : Str} (hw : Full J w) : w.length = 3 := by
  obtain ⟨hlen, hdigits⟩ := isLongOctet_spec hlong
  obtain ⟨-, m, hadds⟩ := hp.adds
  obtain ⟨-, rfl⟩ := hadds.unique (adds_digits hdigits)
  rw [length_of_literal hw, hlen]

/-! ### The whole rule -/

theorem refuses_of_parts {parts : List Str} {Js : List (List Regex)}
    (h : List.Forall₂ (PartReads openLow) parts Js) :
    ∀ J ∈ Js, ∀ j ∈ J, Refuses Atom.mem '.' j := by
  induction h with
  | nil => exact fun J hJ => absurd hJ List.not_mem_nil
  | cons hp _ ih =>
      intro J hJ
      rcases List.mem_cons.mp hJ with rfl | hJ
      · exact hp.refuses
      · exact ih J hJ

theorem rule_iff {parts : List Str} {Js : List (List Regex)} {lead I K : List Regex}
    (hparts : List.Forall₂ (PartReads openLow) parts Js) (hI : Skipped I) (hK : Skipped K)
    (hlead : lead = [.start] ∨ lead = [] ∧ ∃ p ps, parts = p :: ps ∧ isLongOctet p = true)
    {w : Str} {ws : List Str} (hws : Words (w :: ws)) (hlen : parts.length = (w :: ws).length)
    (hshort : w.length ≤ 3) :
    pregMatch (seq (lead ++ (I ++ chain Js (K ++ [.stop])))) (joinDots (w :: ws)) = true ↔
      List.Forall₂ Full Js (w :: ws) := by
  have hJs := refuses_of_parts hparts
  have hne : Js ≠ [] := by
    rintro rfl
    rw [hparts.length_eq] at hlen
    cases hlen
  have hmatch : ∀ (total : Nat) {v : Str} {vs : List Str}, Words (v :: vs) →
      (left total (I ++ chain Js (K ++ [.stop])) (joinDots (v :: vs)) ≠ [] ↔
        List.Forall₂ Full Js (v :: vs)) := by
    intro total v vs hvs
    rw [left_skipped hI hvs.quadlike, chain_iff hK hJs hne hvs (List.cons_ne_nil _ _)]
  rcases hlead with rfl | ⟨rfl, p, ps, rfl, hlong⟩
  · rw [pregMatch, List.singleton_append, finds_start]
    exact hmatch _ hws
  · rw [List.nil_append, pregMatch, finds, List.any_eq_true]
    simp only [List.mem_tails, Bool.not_eq_true', List.isEmpty_eq_false_iff]
    constructor
    · rintro ⟨s, hs, hends⟩
      obtain ⟨e, vs, rfl, hwords, hend⟩ := suffix_joinDots hs
      have hvs : Words (e :: vs) := by
        intro v hv c hc
        obtain ⟨u, hu, hsuffix⟩ := hwords v hv
        exact hws u hu c (hsuffix.mem hc)
      have hfull := (hmatch _ hvs).mp hends
      have hlength : (e :: vs).length = (w :: ws).length := by
        rw [← hfull.length_eq, ← hparts.length_eq, hlen]
      rcases hend with ⟨he, rfl⟩ | hlt
      · cases hparts with
        | cons hp hrest =>
            obtain ⟨hhead, htail⟩ := List.forall₂_cons.mp hfull
            have hthree := length_of_longOctet hp hlong hhead
            have heq : e = w := he.eq_of_length (by have := he.length_le; omega)
            rw [← heq]
            exact .cons hhead htail
      · rw [List.length_cons, List.length_cons] at hlength
        omega
    · exact fun hfull => ⟨_, List.suffix_refl _, (hmatch _ hws).mpr hfull⟩

end PfBlockerNG.OctetMatches
