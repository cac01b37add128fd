import Mathlib.Data.List.Forall2
import Mathlib.Tactic.Common

/-!
Formats of text that read back: codes of which no word begins another, replacement of a word, and
records of fields between separators.
-/

namespace PfBlockerNG.TextFormats

variable {α β : Type}

/-! ### Codes -/

/-- No word of the code is empty or begins the word of another symbol. -/
structure PrefixCode (code : α → List β) : Prop where
  ne_nil : ∀ a, code a ≠ []
  eq_of_prefix : ∀ a b, code a <+: code b → a = b

theorem PrefixCode.prefix_of_flatMap {code : α → List β} (h : PrefixCode code) {xs ys : List α}
    (hxs : xs.flatMap code <+: ys.flatMap code) : xs <+: ys := by
  induction xs generalizing ys with
  | nil => exact List.nil_prefix
  | cons a xs ih =>
      rw [List.flatMap_cons] at hxs
      have ha : code a <+: ys.flatMap code := (List.prefix_append _ _).trans hxs
      cases ys with
      | nil => exact absurd (List.prefix_nil.mp ha) (h.ne_nil a)
      | cons b ys =>
          rw [List.flatMap_cons] at hxs ha
          have hab : a = b := by
            rcases List.prefix_or_prefix_of_prefix ha (List.prefix_append _ _) with hab | hba
            · exact h.eq_of_prefix a b hab
            · exact (h.eq_of_prefix b a hba).symm
          rw [← hab] at hxs ⊢
          exact List.cons_prefix_cons.mpr ⟨rfl, ih ((List.prefix_append_right_inj _).mp hxs)⟩

theorem PrefixCode.flatMap_injective {code : α → List β} (h : PrefixCode code) :
    Function.Injective (List.flatMap code) := by
  intro xs ys hxs
  have hprefix : xs <+: ys := h.prefix_of_flatMap (hxs ▸ List.prefix_refl _)
  have hprefix' : ys <+: xs := h.prefix_of_flatMap (hxs ▸ List.prefix_refl _)
  exact hprefix.eq_of_length_le hprefix'.length_le

/-! ### Replacement -/

section Replace

variable [DecidableEq α]

/-- Replaces a word, from the left and without overlap, after so many symbols that are skipped. -/
def replaceFrom (old new : List α) : Nat → List α → List α
  | _, [] => []
  | 0, c :: s =>
      if old.isPrefixOf (c :: s) then new ++ replaceFrom old new (old.length - 1) s
      else c :: replaceFrom old new 0 s
  | n + 1, _ :: s => replaceFrom old new n s

/-- Replaces a word that is not empty. -/
def replace (old new s : List α) : List α := replaceFrom old new 0 s

theorem replace_symbol (a b : α) (s : List α) :
    replace [a] [b] s = s.map fun c => if c = a then b else c := by
  unfold replace
  induction s with
  | nil => rfl
  | cons c s ih =>
      by_cases hc : c = a
      · simp [replaceFrom, hc, ih]
      · simp [replaceFrom, hc, Ne.symm hc, ih]

theorem replace_pair_cons_cons (a b : α) (new s : List α) :
    replace [a, b] new (a :: b :: s) = new ++ replace [a, b] new s := by
  simp [replace, replaceFrom]

theorem replace_pair_cons {a b c : α} {s : List α} (h : ∀ s', c :: s ≠ a :: b :: s')
    (new : List α) : replace [a, b] new (c :: s) = c :: replace [a, b] new s := by
  have hprefix : [a, b].isPrefixOf (c :: s) = false := by
    rw [Bool.eq_false_iff]
    intro htrue
    obtain ⟨s', hs'⟩ := List.isPrefixOf_iff_prefix.mp htrue
    exact h s' hs'.symm
  simp [replace, replaceFrom, hprefix]

end Replace

/-! ### Records -/

/-- The symbols of a record: what separates fields, what encloses one, and what ends a line. -/
structure Dialect (α : Type) where
  separator : α
  quote : α
  endsLine : α → Bool
  separator_ne_quote : separator ≠ quote
  separator_not_end : endsLine separator = false
  quote_not_end : endsLine quote = false

/-- Where the reader of a record stands: before a field, in one without quotes, in one between
quotes, or after a quote there. -/
inductive Stage where
  | start
  | bare
  | quoted
  | closed
  deriving DecidableEq, Repr

/-- Puts symbols in front of the first of some fields. -/
def prepend (f : List α) : List (List α) → List (List α)
  | [] => [f]
  | g :: gs => (f ++ g) :: gs

theorem map_prepend (c : α) (f : List α) (gs : Option (List (List α))) :
    (gs.map (f :: ·)).map (prepend [c]) = gs.map ((c :: f) :: ·) := by
  cases gs <;> rfl

namespace Dialect

variable [DecidableEq α] (D : Dialect α)

/-- The fields of a record, the first from where the reader stands; nothing where the text is no
record. A field without quotes holds neither a quote nor a line end, and nothing but a separator
follows the quote that closes a field. -/
def read : Stage → List α → Option (List (List α))
  | .quoted, [] => none
  | .start, [] => some [[]]
  | .bare, [] => some [[]]
  | .closed, [] => some [[]]
  | .quoted, c :: s =>
      if c = D.quote then read .closed s else (read .quoted s).map (prepend [c])
  | .closed, c :: s =>
      if c = D.quote then (read .quoted s).map (prepend [c])
      else if c = D.separator then (read .start s).map ([] :: ·)
      else none
  | .start, c :: s =>
      if c = D.quote then read .quoted s
      else if c = D.separator then (read .start s).map ([] :: ·)
      else if D.endsLine c then none
      else (read .bare s).map (prepend [c])
  | .bare, c :: s =>
      if c = D.separator then (read .start s).map ([] :: ·)
      else if c = D.quote || D.endsLine c then none
      else (read .bare s).map (prepend [c])

/-- A field between quotes, the quotes in it doubled. -/
def enclose (f : List α) : List α :=
  D.quote :: f.flatMap (fun c => if c = D.quote then [c, c] else [c]) ++ [D.quote]

def join : List (List α) → List α
  | [] => []
  | [w] => w
  | w :: ws => w ++ D.separator :: join ws

/-- A text stands for a field, at the end of a record and before a separator. -/
structure Renders (w f : List α) : Prop where
  last : D.read .start w = some [f]
  more : ∀ s, D.read .start (w ++ D.separator :: s) = (D.read .start s).map (f :: ·)

/-- Nothing in the field has a meaning. -/
def Plain (f : List α) : Prop :=
  ∀ c ∈ f, c ≠ D.separator ∧ c ≠ D.quote ∧ D.endsLine c = false

variable {D}

/-- A text at which a field ends, wherever the reader stands in it. -/
structure Boundary (D : Dialect α) (s : List α) (gs : Option (List (List α))) : Prop where
  start : D.read .start s = gs.map ([] :: ·)
  bare : D.read .bare s = gs.map ([] :: ·)
  closed : D.read .closed s = gs.map ([] :: ·)

theorem boundary_nil : Boundary D [] (some []) := ⟨rfl, rfl, rfl⟩

theorem boundary_separator (s : List α) :
    Boundary D (D.separator :: s) (D.read .start s) := by
  have hne := D.separator_ne_quote
  constructor <;> simp [read, hne]

theorem read_bare {f s : List α} {gs : Option (List (List α))} (hf : D.Plain f)
    (hs : D.read .bare s = gs.map ([] :: ·)) :
    D.read .bare (f ++ s) = gs.map (f :: ·) := by
  induction f with
  | nil => exact hs
  | cons c f ih =>
      obtain ⟨hseparator, hquote, hend⟩ := hf c List.mem_cons_self
      have ih := ih fun d hd => hf d (List.mem_cons_of_mem c hd)
      rw [List.cons_append, read, if_neg hseparator, if_neg (by simp [hquote, hend]), ih,
        map_prepend]

theorem read_start {f s : List α} {gs : Option (List (List α))} (hf : D.Plain f)
    (hs : Boundary D s gs) : D.read .start (f ++ s) = gs.map (f :: ·) := by
  cases f with
  | nil => exact hs.start
  | cons c f =>
      obtain ⟨hseparator, hquote, hend⟩ := hf c List.mem_cons_self
      have hrest := read_bare (fun d hd => hf d (List.mem_cons_of_mem c hd)) hs.bare
      rw [List.cons_append, read, if_neg hquote, if_neg hseparator, if_neg (by simp [hend]), hrest,
        map_prepend]

theorem read_quoted {f s : List α} {gs : Option (List (List α))}
    (hs : D.read .closed s = gs.map ([] :: ·)) :
    D.read .quoted (f.flatMap (fun c => if c = D.quote then [c, c] else [c]) ++ D.quote :: s) =
      gs.map (f :: ·) := by
  induction f with
  | nil => rw [List.flatMap_nil, List.nil_append, read, if_pos rfl, hs]
  | cons c f ih =>
      rw [List.flatMap_cons, List.append_assoc]
      by_cases hc : c = D.quote
      · rw [if_pos hc, List.cons_append, List.singleton_append, read, if_pos hc, read, if_pos hc,
          ih, map_prepend]
      · rw [if_neg hc, List.singleton_append, read, if_neg hc, ih, map_prepend]

theorem renders_of_boundary {w f : List α}
    (h : ∀ s gs, Boundary D s gs → D.read .start (w ++ s) = gs.map (f :: ·)) : D.Renders w f := by
  refine ⟨?_, fun s => h _ _ (boundary_separator s)⟩
  rw [← List.append_nil w]
  exact h [] (some []) boundary_nil

theorem renders_plain {f : List α} (hf : D.Plain f) : D.Renders f f :=
  renders_of_boundary fun _ _ hs => read_start hf hs

theorem renders_enclose (f : List α) : D.Renders (D.enclose f) f := by
  refine renders_of_boundary fun s gs hs => ?_
  rw [enclose, List.cons_append, List.cons_append, List.append_assoc, List.singleton_append, read,
    if_pos rfl]
  exact read_quoted hs.closed

/-- A record is read as the fields its texts stand for. -/
theorem read_join {ws fs : List (List α)} (h : List.Forall₂ D.Renders ws fs) (hne : fs ≠ []) :
    D.read .start (D.join ws) = some fs := by
  induction h with
  | nil => exact absurd rfl hne
  | cons hw hrest ih =>
      cases hrest with
      | nil => exact hw.last
      | cons hw' hrest' =>
          rw [join, hw.more, ih (List.cons_ne_nil _ _)]
          · rfl
          · exact List.cons_ne_nil _ _

omit [DecidableEq α] in
/-- What a record is made of. -/
theorem mem_join {c : α} {ws : List (List α)} (h : c ∈ D.join ws) :
    c = D.separator ∨ ∃ w ∈ ws, c ∈ w := by
  induction ws with
  | nil => exact absurd h List.not_mem_nil
  | cons w ws ih =>
      cases ws with
      | nil => exact .inr ⟨w, List.mem_cons_self, h⟩
      | cons w' ws =>
          rw [join] at h
          · rcases List.mem_append.mp h with hw | hrest
            · exact .inr ⟨w, List.mem_cons_self, hw⟩
            · rcases List.mem_cons.mp hrest with rfl | hrest
              · exact .inl rfl
              · exact (ih hrest).imp_right fun ⟨v, hv, hc⟩ => ⟨v, List.mem_cons_of_mem w hv, hc⟩
          · exact List.cons_ne_nil _ _

theorem mem_enclose {c : α} {f : List α} (h : c ∈ D.enclose f) : c = D.quote ∨ c ∈ f := by
  rcases List.mem_append.mp h with h | h
  · rcases List.mem_cons.mp h with rfl | h
    · exact .inl rfl
    · obtain ⟨d, hd, hc⟩ := List.mem_flatMap.mp h
      split at hc
      · rcases List.mem_cons.mp hc with rfl | hc
        · exact .inr hd
        · rw [List.mem_singleton.mp hc]
          exact .inr hd
      · rw [List.mem_singleton.mp hc]
        exact .inr hd
  · exact .inl (List.mem_singleton.mp h)

end Dialect

end PfBlockerNG.TextFormats
