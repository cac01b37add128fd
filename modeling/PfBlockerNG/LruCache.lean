import PfBlockerNG.OrderedDict

/-!
A bounded mapping that evicts the entry used least recently. A bound of zero or
below leaves it unbounded.
-/

namespace PfBlockerNG.LruCache

open PfBlockerNG.OrderedDict

universe u v

variable {κ : Type u} {α : Type v} [DecidableEq κ]

def moveToEnd (d : Dict κ α) (k : κ) : Dict κ α :=
  match d.get k with
  | none => d
  | some a => (d.pop k).set k a

omit [DecidableEq κ] in
theorem nodup_tail {items : List (κ × α)} (h : (items.map Prod.fst).Nodup) :
    (items.tail.map Prod.fst).Nodup :=
  h.sublist ((List.tail_sublist items).map Prod.fst)

/-- `popitem(last=False)`. -/
def popFirst (d : Dict κ α) : Dict κ α := ⟨d.items.tail, nodup_tail d.nodup⟩

structure Lru (κ : Type u) (α : Type v) where
  maxsize : Int
  entries : Dict κ α

namespace Lru

def empty (maxsize : Int) : Lru κ α := ⟨maxsize, Dict.empty⟩

/-- Value of a key, whatever its recency. -/
def peek (c : Lru κ α) (k : κ) : Option α := c.entries.get k

def get (c : Lru κ α) (k : κ) : Option α × Lru κ α :=
  (c.peek k, { c with entries := moveToEnd c.entries k })

def set (c : Lru κ α) (k : κ) (a : α) : Lru κ α :=
  let entries := moveToEnd (c.entries.set k a) k
  { c with entries :=
      if 0 < c.maxsize ∧ c.maxsize < entries.length then popFirst entries else entries }

/-- A change to the value a key maps to, which leaves its recency as it is. -/
def update (c : Lru κ α) (k : κ) (f : α → α) : Lru κ α :=
  match c.peek k with
  | none => c
  | some a => { c with entries := c.entries.set k (f a) }

def clear (c : Lru κ α) : Lru κ α := { c with entries := Dict.empty }

theorem get_moveToEnd (d : Dict κ α) (k k' : κ) : (moveToEnd d k).get k' = d.get k' := by
  unfold moveToEnd
  split
  · rfl
  · rename_i a ha
    rw [Dict.get_set, Dict.get_pop]
    split
    · rename_i hk
      rw [← hk, ha]
    · rfl

@[simp] theorem peek_empty (maxsize : Int) (k : κ) : (empty maxsize : Lru κ α).peek k = none := rfl

@[simp] theorem peek_clear (c : Lru κ α) (k : κ) : c.clear.peek k = none := rfl

@[simp] theorem peek_get (c : Lru κ α) (k k' : κ) : (c.get k).2.peek k' = c.peek k' :=
  get_moveToEnd c.entries k k'

end Lru

end PfBlockerNG.LruCache
