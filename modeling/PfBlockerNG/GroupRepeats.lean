import Mathlib.Data.List.Infix

/-!
Backtracking matching with repeats of whole groups, greedy, lazy or possessive: what is left of the
text after a match, in the order a backtracking matcher finds it.
-/

namespace PfBlockerNG.GroupRepeats

universe u v

inductive Mode where
  | greedy
  | lazy
  | possessive
  deriving DecidableEq, Repr

/-- Expressions over atoms of one symbol each; `start` and `stop` are the anchors. -/
inductive Re (α : Type u) where
  | eps
  | atom (a : α)
  | start
  | stop
  | cat (r s : Re α)
  | alt (r s : Re α)
  | rep (r : Re α) (low : Nat) (high : Option Nat) (mode : Mode)
  deriving DecidableEq, Repr

variable {α : Type u} {σ : Type v}

section Repeats

variable (f : List σ → List (List σ)) (lazy : Bool)

/-- Leaving the repeat comes first or last. -/
def leave (s : List σ) (more : List (List σ)) : List (List σ) :=
  if lazy then s :: more else more ++ [s]

/-- Exactly `n` passes. -/
def times : Nat → List σ → List (List σ)
  | 0, s => [s]
  | n + 1, s => (f s).flatMap (times n)

/-- At most `n` passes. -/
def upTo : Nat → List σ → List (List σ)
  | 0, s => [s]
  | n + 1, s => leave lazy s ((f s).flatMap (upTo n))

/-- Any number of passes; one that takes nothing is the last. -/
def star : Nat → List σ → List (List σ)
  | 0, s => [s]
  | fuel + 1, s =>
      leave lazy s ((f s).flatMap fun t => if t.length < s.length then star fuel t else [t])

/-- The passes beyond the `low` that must be. -/
def further (low : Nat) (high : Option Nat) (s : List σ) : List (List σ) :=
  match high with
  | none => star f lazy (s.length + 1) s
  | some high => upTo f lazy (high - low) s

end Repeats

/-- The ends of a repeat of `f`; a possessive one keeps the first. -/
def repEnds (f : List σ → List (List σ)) (low : Nat) (high : Option Nat) (mode : Mode)
    (s : List σ) : List (List σ) :=
  let all := (times f low s).flatMap (further f (mode == .lazy) low high)
  if mode = .possessive then all.take 1 else all

section Matching

variable (mem : α → σ → Bool) (newline : σ → Bool)

/-- Ends of an expression in a text of `total` symbols of which `s` is left. -/
def ends (total : Nat) : Re α → List σ → List (List σ)
  | .eps => fun s => [s]
  | .atom a => fun s =>
      match s with
      | [] => []
      | c :: s => if mem a c then [s] else []
  | .start => fun s => if s.length = total then [s] else []
  | .stop => fun s => if s.isEmpty || (s.length == 1 && s.all newline) then [s] else []
  | .cat r q => fun s => (ends total r s).flatMap (ends total q)
  | .alt r q => fun s => ends total r s ++ ends total q s
  | .rep r low high mode => repEnds (ends total r) low high mode

/-- The expression matches somewhere in the text. -/
def finds (r : Re α) (text : List σ) : Bool :=
  text.tails.any fun s => !(ends mem newline text.length r s).isEmpty

theorem ends_atom_cons (total : Nat) (a : α) (c : σ) (s : List σ) :
    ends mem newline total (.atom a) (c :: s) = if mem a c then [s] else [] := rfl

theorem ends_alt (total : Nat) (r q : Re α) (s : List σ) :
    ends mem newline total (.alt r q) s =
      ends mem newline total r s ++ ends mem newline total q s := rfl

end Matching

/-- A branch. -/
def seq (items : List (Re α)) : Re α := items.foldr .cat .eps

/-- Branches, tried in turn. -/
def alternation : List (Re α) → Re α
  | [] => .eps
  | [r] => r
  | r :: rs => .alt r (alternation rs)

/-! ### A match leaves an end of the text -/

section Suffixes

variable {f : List σ → List (List σ)} (hf : ∀ s, ∀ t ∈ f s, t <:+ s)

include hf

theorem suffix_of_times {n : Nat} {s t : List σ} (h : t ∈ times f n s) : t <:+ s := by
  induction n generalizing s with
  | zero => rw [List.mem_singleton.mp h]
  | succ n ih =>
      obtain ⟨m, hm, ht⟩ := List.mem_flatMap.mp h
      exact (ih ht).trans (hf s m hm)

omit hf in
theorem mem_leave {lazy : Bool} {s t : List σ} {more : List (List σ)} :
    t ∈ leave lazy s more ↔ t = s ∨ t ∈ more := by
  cases lazy
  · simp [leave, or_comm]
  · simp [leave]

theorem suffix_of_upTo {lazy : Bool} {n : Nat} {s t : List σ} (h : t ∈ upTo f lazy n s) :
    t <:+ s := by
  induction n generalizing s with
  | zero => rw [List.mem_singleton.mp h]
  | succ n ih =>
      rcases mem_leave.mp h with rfl | h
      · exact List.suffix_refl _
      · obtain ⟨m, hm, ht⟩ := List.mem_flatMap.mp h
        exact (ih ht).trans (hf s m hm)

theorem suffix_of_star {lazy : Bool} {fuel : Nat} {s t : List σ} (h : t ∈ star f lazy fuel s) :
    t <:+ s := by
  induction fuel generalizing s with
  | zero => rw [List.mem_singleton.mp h]
  | succ fuel ih =>
      rcases mem_leave.mp h with rfl | h
      · exact List.suffix_refl _
      · obtain ⟨m, hm, ht⟩ := List.mem_flatMap.mp h
        split at ht
        · exact (ih ht).trans (hf s m hm)
        · rw [List.mem_singleton.mp ht]
          exact hf s m hm

theorem suffix_of_repEnds {low : Nat} {high : Option Nat} {mode : Mode} {s t : List σ}
    (h : t ∈ repEnds f low high mode s) : t <:+ s := by
  have hall : ∀ t ∈ (times f low s).flatMap (further f (mode == .lazy) low high), t <:+ s := by
    intro t ht
    obtain ⟨m, hm, ht⟩ := List.mem_flatMap.mp ht
    refine List.IsSuffix.trans ?_ (suffix_of_times hf hm)
    cases high with
    | none => exact suffix_of_star hf ht
    | some high => exact suffix_of_upTo hf ht
  unfold repEnds at h
  dsimp only at h
  split at h
  · exact hall t (List.mem_of_mem_take h)
  · exact hall t h

end Suffixes

variable {mem : α → σ → Bool} {newline : σ → Bool}

theorem eq_of_mem_ite {p : Prop} [Decidable p] {s t : List σ}
    (h : t ∈ if p then [s] else []) : t = s := by
  split at h
  · exact List.mem_singleton.mp h
  · exact absurd h List.not_mem_nil

theorem suffix_of_ends {total : Nat} (r : Re α) {s t : List σ}
    (h : t ∈ ends mem newline total r s) : t <:+ s := by
  induction r generalizing s t with
  | eps => rw [List.mem_singleton.mp h]
  | atom a =>
      cases s with
      | nil => exact absurd h List.not_mem_nil
      | cons c s =>
          rw [eq_of_mem_ite h]
          exact List.suffix_cons c s
  | start | stop => rw [eq_of_mem_ite h]
  | cat r q ihr ihq =>
      obtain ⟨m, hm, ht⟩ := List.mem_flatMap.mp h
      exact (ihq ht).trans (ihr hm)
  | alt r q ihr ihq =>
      rcases List.mem_append.mp h with h | h
      · exact ihr h
      · exact ihq h
  | rep r low high mode ih => exact suffix_of_repEnds (fun s t ht => ih ht) h

/-! ### An expression that refuses a symbol does not look past it -/

section Locality

variable {f g : List σ → List (List σ)} {u : List σ}
  (hfg : ∀ s, g (s ++ u) = (f s).map (· ++ u))

include hfg

theorem flatMap_append {k l : List σ → List (List σ)} {s : List σ}
    (hkl : ∀ t ∈ f s, l (t ++ u) = (k t).map (· ++ u)) :
    (g (s ++ u)).flatMap l = ((f s).flatMap k).map (· ++ u) := by
  rw [hfg, List.map_flatMap, List.flatMap_map]
  exact List.flatMap_congr fun t ht => hkl t ht

omit hfg in
theorem leave_append (lazy : Bool) (s : List σ) (more : List (List σ)) :
    leave lazy (s ++ u) (more.map (· ++ u)) = (leave lazy s more).map (· ++ u) := by
  cases lazy <;> simp [leave]

theorem times_append (n : Nat) (s : List σ) :
    times g n (s ++ u) = (times f n s).map (· ++ u) := by
  induction n generalizing s with
  | zero => rfl
  | succ n ih => exact flatMap_append hfg fun t _ => ih t

theorem upTo_append (lazy : Bool) (n : Nat) (s : List σ) :
    upTo g lazy n (s ++ u) = (upTo f lazy n s).map (· ++ u) := by
  induction n generalizing s with
  | zero => rfl
  | succ n ih =>
      rw [upTo, upTo, flatMap_append hfg fun t _ => ih t, leave_append]

/-- Fuel beyond the text does not matter. -/
theorem star_append (lazy : Bool) {fuel fuel' : Nat} {s : List σ} (h : s.length < fuel)
    (h' : s.length < fuel') : star g lazy fuel' (s ++ u) = (star f lazy fuel s).map (· ++ u) := by
  induction fuel generalizing fuel' s with
  | zero => exact absurd h (Nat.not_lt_zero _)
  | succ fuel ih =>
      obtain ⟨fuel', rfl⟩ := Nat.exists_eq_succ_of_ne_zero (Nat.ne_of_gt (Nat.zero_lt_of_lt h'))
      rw [star, star, ← leave_append]
      congr 1
      apply flatMap_append hfg
      intro t _
      simp only [List.length_append, Nat.add_lt_add_iff_right]
      split
      · exact ih (by omega) (by omega)
      · rfl

theorem repEnds_append (low : Nat) (high : Option Nat) (mode : Mode) (s : List σ) :
    repEnds g low high mode (s ++ u) = (repEnds f low high mode s).map (· ++ u) := by
  have hall : (times g low (s ++ u)).flatMap (further g (mode == .lazy) low high) =
      ((times f low s).flatMap (further f (mode == .lazy) low high)).map (· ++ u) := by
    apply flatMap_append (times_append hfg low)
    intro t _
    cases high with
    | none =>
        apply star_append hfg
        · exact Nat.lt_succ_self _
        · rw [List.length_append]
          omega
    | some high => exact upTo_append hfg _ _ t
  unfold repEnds
  dsimp only
  rw [hall]
  split
  · rw [List.map_take]
  · rfl

end Locality

/-- No anchors, and no atom that takes the symbol. -/
def Refuses (mem : α → σ → Bool) (c : σ) : Re α → Prop
  | .eps => True
  | .atom a => mem a c = false
  | .start => False
  | .stop => False
  | .cat r q => Refuses mem c r ∧ Refuses mem c q
  | .alt r q => Refuses mem c r ∧ Refuses mem c q
  | .rep r _ _ _ => Refuses mem c r

theorem refuses_seq {c : σ} {rs : List (Re α)} (h : ∀ r ∈ rs, Refuses mem c r) :
    Refuses mem c (seq rs) := by
  induction rs with
  | nil => trivial
  | cons r rs ih =>
      exact ⟨h r List.mem_cons_self, ih fun q hq => h q (List.mem_cons_of_mem r hq)⟩

theorem refuses_alternation {c : σ} {rs : List (Re α)} (h : ∀ r ∈ rs, Refuses mem c r) :
    Refuses mem c (alternation rs) := by
  induction rs with
  | nil => trivial
  | cons r rs ih =>
      have hr := h r List.mem_cons_self
      have hrs := ih fun q hq => h q (List.mem_cons_of_mem r hq)
      cases rs with
      | nil => exact hr
      | cons q rs => exact ⟨hr, hrs⟩

theorem ends_append {c : σ} {r : Re α} (h : Refuses mem c r) (total total' : Nat)
    (s u : List σ) : ends mem newline total' r (s ++ c :: u) =
      (ends mem newline total r s).map (· ++ c :: u) := by
  induction r generalizing s with
  | eps => rfl
  | atom a =>
      have hc : mem a c = false := h
      cases s with
      | nil =>
          rw [List.nil_append, ends_atom_cons, hc]
          rfl
      | cons d s =>
          rw [List.cons_append, ends_atom_cons, ends_atom_cons]
          split <;> rfl
  | start | stop => exact h.elim
  | cat r q ihr ihq => exact flatMap_append (ihr h.1) fun t _ => ihq h.2 t
  | alt r q ihr ihq => rw [ends_alt, ends_alt, ihr h.1, ihq h.2, List.map_append]
  | rep r low high mode ih => exact repEnds_append (ih h) low high mode s

/-- The size of the whole text does not matter either. -/
theorem ends_total {c : σ} {r : Re α} (h : Refuses mem c r) (total total' : Nat) (s : List σ) :
    ends mem newline total' r s = ends mem newline total r s := by
  have hany : ∀ k, ends mem newline total' r (s ++ [c]) =
      (ends mem newline k r s).map (· ++ [c]) := fun k => ends_append h k total' s []
  have happ := (hany total').symm.trans (hany total)
  exact List.map_injective_iff.mpr (List.append_left_injective [c]) happ

/-! ### Branches -/

section Branches

variable (total : Nat) (s : List σ)

theorem ends_seq_cons (r : Re α) (rs : List (Re α)) :
    ends mem newline total (seq (r :: rs)) s =
      (ends mem newline total r s).flatMap (ends mem newline total (seq rs)) := rfl

theorem ends_seq_append (rs qs : List (Re α)) :
    ends mem newline total (seq (rs ++ qs)) s =
      (ends mem newline total (seq rs) s).flatMap (ends mem newline total (seq qs)) := by
  induction rs generalizing s with
  | nil =>
      change _ = [s].flatMap _
      rw [List.flatMap_singleton]
      rfl
  | cons r rs ih =>
      rw [List.cons_append, ends_seq_cons, ends_seq_cons, List.flatMap_assoc]
      exact List.flatMap_congr fun t _ => ih t

theorem ends_seq_singleton (r : Re α) :
    ends mem newline total (seq [r]) s = ends mem newline total r s := by
  rw [ends_seq_cons]
  exact List.flatMap_singleton' _

/-- A branch that needs a symbol the text does not have. -/
theorem ends_seq_atom_eq_nil {a : α} (h : ∀ c ∈ s, mem a c = false) (rs qs : List (Re α)) :
    ends mem newline total (seq (rs ++ .atom a :: qs)) s = [] := by
  rw [ends_seq_append, List.flatMap_eq_nil_iff]
  intro t ht
  rw [ends_seq_cons, List.flatMap_eq_nil_iff]
  intro m hm
  have hsuffix := suffix_of_ends _ ht
  cases t with
  | nil => exact absurd hm List.not_mem_nil
  | cons c t =>
      have hc := h c (hsuffix.mem List.mem_cons_self)
      rw [ends_atom_cons, hc] at hm
      exact absurd hm List.not_mem_nil

/-- An optional expression that cannot match is passed over. -/
theorem ends_optional {r : Re α} (h : ends mem newline total r s = []) (mode : Mode) :
    ends mem newline total (.rep r 0 (some 1) mode) s = [s] := by
  have hall : (times (ends mem newline total r) 0 s).flatMap
      (further (ends mem newline total r) (mode == .lazy) 0 (some 1)) = [s] := by
    change [s].flatMap _ = _
    rw [List.flatMap_singleton, further, Nat.sub_zero, upTo, h, List.flatMap_nil]
    cases mode <;> rfl
  change repEnds _ 0 (some 1) mode s = [s]
  unfold repEnds
  dsimp only
  rw [hall]
  split <;> rfl

/-- A branch that begins with the anchor is tried at the start only. -/
theorem finds_start (rs : List (Re α)) : finds mem newline (seq (.start :: rs)) s = true ↔
    ends mem newline s.length (seq rs) s ≠ [] := by
  have hstart : ∀ t : List σ, ends mem newline s.length (seq (.start :: rs)) t =
      if t.length = s.length then ends mem newline s.length (seq rs) t else [] := by
    intro t
    change (if t.length = s.length then [t] else []).flatMap _ = _
    split
    · exact List.flatMap_singleton _ _
    · rfl
  simp only [finds, List.any_eq_true, List.mem_tails, hstart, Bool.not_eq_true',
    List.isEmpty_eq_false_iff]
  constructor
  · rintro ⟨t, ht, hends⟩
    split at hends
    · rename_i hlen
      rwa [ht.eq_of_length hlen] at hends
    · exact absurd rfl hends
  · intro hends
    exact ⟨s, List.suffix_refl s, by rwa [if_pos rfl]⟩

end Branches

end PfBlockerNG.GroupRepeats
