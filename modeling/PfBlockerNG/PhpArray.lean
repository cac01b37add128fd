import Mathlib.Data.Char
import Mathlib.Data.List.Lex
import Mathlib.Data.List.Sort
import PfBlockerNG.IpText
import PfBlockerNG.KeyedTree

/-!
PHP values as the configuration and the model documents hold them, and the readings of a key that
the package uses.
-/

namespace PfBlockerNG.PhpArray

open PfBlockerNG.Strings
open PfBlockerNG.PyText
open PfBlockerNG.IpText
open PfBlockerNG.OrderedDict
open PfBlockerNG.KeyedTree

/-- A value that is no array. A float carries the text it prints as. -/
inductive Leaf where
  | null
  | bool (b : Bool)
  | int (n : Int)
  | float (text : Str)
  | str (s : Str)
  deriving DecidableEq, Repr

/-- A value. An integer key of an array is its decimal text. -/
abbrev Value := KeyTree Str Leaf

abbrev Pairs := List (Str × Value)

def null : Value := .leaf .null

def text (s : Str) : Value := .leaf (.str s)

def flag (b : Bool) : Value := .leaf (.bool b)

def number (n : Int) : Value := .leaf (.int n)

def string : Value → Option Str
  | .leaf (.str s) => some s
  | _ => none

def array : Value → Option Pairs
  | .node items => some items
  | .leaf _ => none

/-- `is_string`. -/
def isString (v : Value) : Bool := (string v).isSome

/-- `$items[$k] ?? $default`. -/
def valueOr (default : Value) (k : Str) (items : Pairs) : Value :=
  match lookup k items with
  | none => default
  | some (.leaf .null) => default
  | some v => v

/-- `$items[$k] ?? NULL`. -/
def valueOf (k : Str) (items : Pairs) : Value := (lookup k items).getD null

/-- `array_key_exists`. -/
def hasKey (k : Str) (items : Pairs) : Bool := (lookup k items).isSome

/-- `unset`. -/
def unset (k : Str) (items : Pairs) : Pairs := items.filter fun p => p.1 != k

/-- `empty`. -/
def isEmpty : Value → Bool
  | .leaf .null | .leaf (.bool false) | .leaf (.int 0) => true
  | .leaf (.str s) => s = [] || s = ['0']
  | .leaf (.float text) => text = ['0'] || text = ['-', '0']
  | .node items => items.isEmpty
  | _ => false

/-- `/^(?:0|[1-9][0-9]*)$/D`. -/
def canonical : Str → Bool
  | [] => false
  | c :: cs => if c = '0' then cs.isEmpty else (c :: cs).all isAsciiDigit

/-- The value that is there, or the fault. -/
def need {ε α : Type} (fault : ε) : Option α → Except ε α
  | some a => .ok a
  | none => .error fault

def check {ε : Type} (fault : ε) (passed : Bool) : Except ε Unit :=
  if passed then .ok () else .error fault

/-- `ksort($items, SORT_STRING)`. -/
def ksort (items : Pairs) : Pairs := items.insertionSort fun a b => a.1 ≤ b.1

theorem valueOf_of_lookup {k : Str} {items : Pairs} {v : Value} (h : lookup k items = some v) :
    valueOf k items = v := by
  rw [valueOf, h]
  rfl

theorem need_bind_eq_ok {ε α β : Type} {fault : ε} {a : Option α} {f : α → Except ε β} {b : β} :
    (need fault a >>= f) = .ok b ↔ ∃ x, a = some x ∧ f x = .ok b := by
  cases a with
  | none => exact iff_of_false nofun fun ⟨_, hx, _⟩ => nomatch hx
  | some x => exact ⟨fun h => ⟨x, rfl, h⟩, fun ⟨_, hy, h⟩ => Option.some.inj hy ▸ h⟩

theorem check_bind_eq_ok {ε β : Type} {fault : ε} {passed : Bool} {f : Unit → Except ε β} {b : β} :
    (check fault passed >>= f) = .ok b ↔ passed = true ∧ f () = .ok b := by
  cases passed with
  | false => exact iff_of_false nofun fun h => nomatch h.1
  | true => exact ⟨fun h => ⟨rfl, h⟩, fun h => h.2⟩

theorem lookup_unset (k k' : Str) (items : Pairs) :
    lookup k' (unset k items) = if k = k' then none else lookup k' items := by
  induction items with
  | nil => simp [unset, lookup]
  | cons item items ih =>
      rw [unset] at ih ⊢
      by_cases hk : item.1 = k
      · rw [List.filter_cons_of_neg (by simpa using hk), ih]
        by_cases hk' : k = k'
        · rw [if_pos hk', if_pos hk']
        · rw [if_neg hk', if_neg hk', lookup, if_neg (hk ▸ hk')]
      · rw [List.filter_cons_of_pos (by simpa using hk), lookup, lookup, ih]
        by_cases hk' : item.1 = k'
        · rw [if_pos hk', if_pos hk', if_neg (hk' ▸ Ne.symm hk)]
        · rw [if_neg hk', if_neg hk']

theorem valueOf_store (k k' : Str) (v : Value) (items : Pairs) :
    valueOf k' (store k v items) = if k = k' then v else valueOf k' items := by
  rw [valueOf, lookup_store]
  split <;> rfl

theorem hasKey_store (k k' : Str) (v : Value) (items : Pairs) :
    hasKey k' (store k v items) = (decide (k = k') || hasKey k' items) := by
  rw [hasKey, lookup_store]
  by_cases h : k = k'
  · rw [if_pos h, decide_eq_true h]
    rfl
  · rw [if_neg h, decide_eq_false h]
    rfl

theorem ksort_perm (items : Pairs) : (ksort items).Perm items := List.perm_insertionSort _ items

/-- Sorting forgets the order of distinct keys. -/
theorem ksort_eq_of_perm {items items' : Pairs} (h : items.Perm items')
    (hnodup : (items.map Prod.fst).Nodup) : ksort items = ksort items' := by
  have hperm : (ksort items).Perm (ksort items') :=
    ((ksort_perm items).trans h).trans (ksort_perm items').symm
  have hkeys : ((ksort items).map Prod.fst).Nodup :=
    ((ksort_perm items).map Prod.fst).nodup_iff.mpr hnodup
  refine hperm.eq_of_pairwise ?_ (List.pairwise_insertionSort _ items)
    (List.pairwise_insertionSort _ items')
  intro a b ha hb hab hba
  have hkey : a.1 = b.1 := le_antisymm hab hba
  have hbmem : b ∈ ksort items := hperm.mem_iff.mpr hb
  exact List.inj_on_of_nodup_map hkeys ha hbmem hkey

end PfBlockerNG.PhpArray
