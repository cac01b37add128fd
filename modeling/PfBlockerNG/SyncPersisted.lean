import PfBlockerNG.PyText
import PfBlockerNG.SyncProjection

/-!
The shape pfSense gives a value once it is written and read back: keys in lower case, a repeated
element only with its non-empty entries, and no empty container.
-/

namespace PfBlockerNG.SyncPersisted

open Strings OrderedDict KeyedTree PyText SyncSchema SyncMerge SyncProjection

/-- `(string) $value`, without FALSE, which is not written. -/
def persistedScalar (a : Scalar) : Option Value :=
  match a with
  | .bool false => none
  | .bool true => some (text [])
  | a => some (text (Scalar.toStr a))

/-- A non-empty entry of a repeated element. -/
def keptEntry (v : Option Value) : List Value := (v.filter fun v => v ≠ text []).toList

/-- `$shape[$key][] = $entry` for each entry. -/
def appendEntries (key : Str) (entries : List Value) (shape : Items) : Items :=
  if entries = [] then shape
  else
    let held := KeyTree.childItems key shape
    store key (.node (held ++ entries.mapIdx fun i v => (Nat.toDigits 10 (held.length + i), v)))
      shape

def shapeOrEmpty (shape : Items) : Value := if shape = [] then text [] else .node shape

section
variable (listtags : Str → Bool)

mutual

/-- `pfb_sync_persisted_shape()`, none when nothing is written. -/
def pfbSyncPersistedShape : Value → Option Value
  | .leaf a => persistedScalar a
  | .node items => some (shapeOrEmpty (shapeItems [] items))

/-- The keys of an array, one after the other. -/
def shapeItems (shape : Items) : Items → Items
  | [] => shape
  | (k, child) :: items =>
      let key := k.map asciiLower
      if listtags key then shapeItems (appendEntries key (entriesOf child) shape) items
      else
        match pfbSyncPersistedShape child with
        | none => shapeItems shape items
        | some child => shapeItems (store key child shape) items

/-- The entries a repeated element is written with. -/
def entriesOf : Value → List Value
  | .leaf a => keptEntry (persistedScalar a)
  | .node items => shapeEntries items

def shapeEntries : Items → List Value
  | [] => []
  | (_, entry) :: items => keptEntry (pfbSyncPersistedShape entry) ++ shapeEntries items

end

/-! ### Values that are read back as they are -/

/-- The entries of a repeated element, numbered from zero. -/
def numbered (entries : List Value) : Items :=
  entries.mapIdx fun i v => (Nat.toDigits 10 i, v)

def IsList (v : Value) : Prop :=
  ∃ entries, entries ≠ [] ∧ v = .node (numbered entries) ∧ ∀ e ∈ entries, e ≠ text []

inductive Shaped : Value → Prop
  | text (s : Str) : Shaped (text s)
  | node {items : Items} (hne : items ≠ []) (hkeys : (items.map Prod.fst).Nodup)
      (hlower : ∀ item ∈ items, item.1.map asciiLower = item.1)
      (hlist : ∀ item ∈ items, listtags item.1 = true → IsList item.2)
      (hentries : ∀ item ∈ items, listtags item.1 = true → ∀ e ∈ item.2.items, Shaped e.2)
      (hplain : ∀ item ∈ items, listtags item.1 = false → Shaped item.2) :
      Shaped (.node items)

/-- The keys collected so far. -/
structure ShapedItems (items : Items) : Prop where
  keys : (items.map Prod.fst).Nodup
  lower : ∀ item ∈ items, item.1.map asciiLower = item.1
  list : ∀ item ∈ items, listtags item.1 = true → IsList item.2
  entries : ∀ item ∈ items, listtags item.1 = true → ∀ e ∈ item.2.items, Shaped listtags e.2
  plain : ∀ item ∈ items, listtags item.1 = false → Shaped listtags item.2

end

theorem mem_of_mem_store {k : Str} {v : Value} {items : Items} {item : Str × Value}
    (h : item ∈ store k v items) : item = (k, v) ∨ item ∈ items := by
  induction items with
  | nil => exact Or.inl (List.mem_singleton.mp h)
  | cons x items ih =>
      rw [store] at h
      split at h
      · exact (List.mem_cons.mp h).imp_right (List.mem_cons_of_mem _)
      · rcases List.mem_cons.mp h with rfl | h
        · exact Or.inr List.mem_cons_self
        · exact (ih h).imp_right (List.mem_cons_of_mem _)

variable {listtags : Str → Bool}

theorem ShapedItems.store_plain {items : Items} (h : ShapedItems listtags items) {k : Str}
    {v : Value} (hk : listtags (k.map asciiLower) = false) (hv : Shaped listtags v) :
    ShapedItems listtags (store (k.map asciiLower) v items) where
  keys := nodup_store h.keys
  lower item hitem := by
    rcases mem_of_mem_store hitem with rfl | hitem
    · exact lower_lower k
    · exact h.lower item hitem
  list item hitem hl := by
    rcases mem_of_mem_store hitem with rfl | hitem
    · rw [hk] at hl; cases hl
    · exact h.list item hitem hl
  entries item hitem hl := by
    rcases mem_of_mem_store hitem with rfl | hitem
    · rw [hk] at hl; cases hl
    · exact h.entries item hitem hl
  plain item hitem hl := by
    rcases mem_of_mem_store hitem with rfl | hitem
    · exact hv
    · exact h.plain item hitem hl

theorem numbered_append (es fs : List Value) :
    numbered es ++ fs.mapIdx (fun i v => (Nat.toDigits 10 ((numbered es).length + i), v)) =
      numbered (es ++ fs) := by
  simp [numbered, List.mapIdx_append, Nat.add_comm]

theorem numbered_snd (es : List Value) : (numbered es).map Prod.snd = es := by
  exact List.ext_getElem (by simp [numbered]) fun i hi hi' => by simp [numbered]

/-- What a repeated element holds is a numbered list, also before its first entry. -/
theorem ShapedItems.childItems_eq {items : Items} (h : ShapedItems listtags items) {key : Str}
    (hkey : listtags key = true) :
    ∃ es, KeyTree.childItems key items = numbered es ∧ (∀ e ∈ es, e ≠ text []) ∧
      ∀ e ∈ es, Shaped listtags e := by
  cases hl : lookup key items with
  | none => exact ⟨[], by simp [KeyTree.childItems, hl, numbered], nofun, nofun⟩
  | some v =>
      have hmem := (lookup_eq_some_iff h.keys key v).mp hl
      obtain ⟨es, _, rfl, hes⟩ := h.list _ hmem hkey
      refine ⟨es, by simp [KeyTree.childItems, hl], hes, fun e he => ?_⟩
      rw [← numbered_snd es] at he
      obtain ⟨item, hitem, rfl⟩ := List.mem_map.mp he
      exact h.entries _ hmem hkey item hitem

theorem ShapedItems.append_entries {items : Items} (h : ShapedItems listtags items) {k : Str}
    {entries : List Value} (hk : listtags (k.map asciiLower) = true)
    (hentries : ∀ e ∈ entries, e ≠ text [] ∧ Shaped listtags e) :
    ShapedItems listtags (appendEntries (k.map asciiLower) entries items) := by
  by_cases hnil : entries = []
  · rw [appendEntries, if_pos hnil]
    exact h
  · obtain ⟨es, hes, hfull, hshaped⟩ := h.childItems_eq hk
    rw [appendEntries, if_neg hnil]
    simp only [hes, numbered_append]
    have hall : ∀ e ∈ es ++ entries, e ≠ text [] ∧ Shaped listtags e := fun e he =>
      (List.mem_append.mp he).elim (fun he => ⟨hfull e he, hshaped e he⟩) (hentries e)
    exact
      { keys := nodup_store h.keys
        lower := fun item hitem => by
          rcases mem_of_mem_store hitem with rfl | hitem
          · exact lower_lower k
          · exact h.lower item hitem
        list := fun item hitem hl => by
          rcases mem_of_mem_store hitem with rfl | hitem
          · exact ⟨es ++ entries, fun e => hnil (List.append_eq_nil_iff.mp e).2, rfl,
              fun e he => (hall e he).1⟩
          · exact h.list item hitem hl
        entries := fun item hitem hl => by
          rcases mem_of_mem_store hitem with rfl | hitem
          · intro e he
            have hin : e.2 ∈ (numbered (es ++ entries)).map Prod.snd := List.mem_map_of_mem he
            rw [numbered_snd] at hin
            exact (hall e.2 hin).2
          · exact h.entries item hitem hl
        plain := fun item hitem hl => by
          rcases mem_of_mem_store hitem with rfl | hitem
          · rw [hk] at hl; cases hl
          · exact h.plain item hitem hl }

theorem ShapedItems.nil : ShapedItems listtags [] :=
  ⟨List.nodup_nil, nofun, nofun, nofun, nofun⟩

theorem shaped_shapeOrEmpty {items : Items} (h : ShapedItems listtags items) :
    Shaped listtags (shapeOrEmpty items) := by
  rw [shapeOrEmpty]
  split
  · exact .text []
  · rename_i hne
    exact .node hne h.keys h.lower h.list h.entries h.plain

theorem mem_keptEntry {v : Option Value} {e : Value} (h : e ∈ keptEntry v) :
    v = some e ∧ e ≠ text [] := by
  simpa [keptEntry, Option.filter_eq_some_iff] using h

theorem shaped_persistedScalar {a : Scalar} {r : Value} (h : persistedScalar a = some r) :
    Shaped listtags r := by
  cases a with
  | bool b => cases b <;> cases h; exact .text []
  | _ => cases h; exact .text _

theorem shapedItems_shapeItems {items : Items}
    (hchild : ∀ item ∈ items,
      (∀ r, pfbSyncPersistedShape listtags item.2 = some r → Shaped listtags r) ∧
      ∀ e ∈ entriesOf listtags item.2, e ≠ text [] ∧ Shaped listtags e) :
    ∀ shape : Items, ShapedItems listtags shape →
      ShapedItems listtags (shapeItems listtags shape items) := by
  induction items with
  | nil => exact fun shape h => h
  | cons item items ih =>
      intro shape h
      obtain ⟨k, child⟩ := item
      have hhead := hchild (k, child) List.mem_cons_self
      have htail := ih fun item hitem => hchild item (List.mem_cons_of_mem _ hitem)
      rw [shapeItems]
      cases hk : listtags (k.map asciiLower) with
      | true =>
          simp only [if_true]
          exact htail _ (h.append_entries hk hhead.2)
      | false =>
          simp only [Bool.false_eq_true, if_false]
          cases hv : pfbSyncPersistedShape listtags child with
          | none => exact htail _ h
          | some r => exact htail _ (h.store_plain hk (hhead.1 r hv))

/-- What is read back has the shape of what is read back. -/
theorem shaped_persistedShape (v : Value) :
    (∀ r, pfbSyncPersistedShape listtags v = some r → Shaped listtags r) ∧
      ∀ e ∈ entriesOf listtags v, e ≠ text [] ∧ Shaped listtags e := by
  induction v using KeyTree.inductionTree with
  | hleaf a =>
      refine ⟨fun r h => ?_, fun e he => ?_⟩
      · rw [pfbSyncPersistedShape] at h
        exact shaped_persistedScalar h
      · rw [entriesOf] at he
        obtain ⟨hsome, hne⟩ := mem_keptEntry he
        exact ⟨hne, shaped_persistedScalar hsome⟩
  | hnode items ih =>
      refine ⟨fun r h => ?_, ?_⟩
      · rw [pfbSyncPersistedShape] at h
        cases Option.some.inj h
        exact shaped_shapeOrEmpty (shapedItems_shapeItems ih [] .nil)
      · rw [entriesOf]
        induction items with
        | nil => exact fun e he => absurd he (by rw [shapeEntries]; exact List.not_mem_nil)
        | cons item items ihItems =>
            intro e he
            rw [shapeEntries] at he
            rcases List.mem_append.mp he with he | he
            · obtain ⟨hsome, hne⟩ := mem_keptEntry he
              exact ⟨hne, (ih item List.mem_cons_self).1 e hsome⟩
            · exact ihItems (fun item hitem => ih item (List.mem_cons_of_mem _ hitem)) e he

/-! ### Reading back twice -/

theorem entriesOf_numbered {es : List Value}
    (hes : ∀ e ∈ es, e ≠ text [] ∧ pfbSyncPersistedShape listtags e = some e) :
    entriesOf listtags (.node (numbered es)) = es := by
  have hentries : ∀ items : Items,
      (∀ e ∈ items.map Prod.snd, e ≠ text [] ∧ pfbSyncPersistedShape listtags e = some e) →
      shapeEntries listtags items = items.map Prod.snd := by
    intro items
    induction items with
    | nil => exact fun _ => by rw [shapeEntries]; rfl
    | cons item items ih =>
        intro h
        obtain ⟨hne, hsame⟩ := h item.2 List.mem_cons_self
        rw [shapeEntries, hsame, ih fun e he => h e (List.mem_cons_of_mem _ he)]
        simp [keptEntry, Option.filter, hne]
  rw [entriesOf, hentries _ (by rwa [numbered_snd]), numbered_snd]

/-- Keys in lower case that hold what is read back are collected as they are. -/
theorem shapeItems_eq {items : Items}
    (hlower : ∀ item ∈ items, item.1.map asciiLower = item.1)
    (hlist : ∀ item ∈ items, listtags item.1 = true → ∃ es, es ≠ [] ∧
      item.2 = .node (numbered es) ∧
      ∀ e ∈ es, e ≠ text [] ∧ pfbSyncPersistedShape listtags e = some e)
    (hplain : ∀ item ∈ items, listtags item.1 = false →
      pfbSyncPersistedShape listtags item.2 = some item.2) (shape : Items)
    (hkeys : (shape.map Prod.fst ++ items.map Prod.fst).Nodup) :
    shapeItems listtags shape items = shape ++ items := by
  induction items generalizing shape with
  | nil => rw [shapeItems, List.append_nil]
  | cons item items ih =>
      obtain ⟨k, child⟩ := item
      have hk : k.map asciiLower = k := hlower (k, child) List.mem_cons_self
      have hout : k ∉ shape.map Prod.fst := fun hin =>
        (List.nodup_append.mp hkeys).2.2 _ hin _ List.mem_cons_self rfl
      have hrest : shapeItems listtags (shape ++ [(k, child)]) items =
          shape ++ (k, child) :: items := by
        rw [ih (fun item hitem => hlower item (List.mem_cons_of_mem _ hitem))
          (fun item hitem => hlist item (List.mem_cons_of_mem _ hitem))
          (fun item hitem => hplain item (List.mem_cons_of_mem _ hitem)) _
          (by simpa using hkeys), List.append_assoc]
        rfl
      rw [shapeItems]
      simp only [hk]
      cases hl : listtags k with
      | true =>
          obtain ⟨es, hne, hchild, hes⟩ := hlist (k, child) List.mem_cons_self hl
          dsimp only at hchild
          subst hchild
          have hheld : KeyTree.childItems k shape = [] := by
            rw [KeyTree.childItems, (lookup_eq_none_iff k shape).mpr hout]
            rfl
          rw [if_pos rfl, entriesOf_numbered hes, appendEntries, if_neg hne]
          simp only [hheld, List.nil_append, List.length_nil, Nat.zero_add]
          rw [store_of_not_mem hout]
          exact hrest
      | false =>
          rw [if_neg Bool.false_ne_true, hplain (k, child) List.mem_cons_self hl]
          simp only
          rw [store_of_not_mem hout]
          exact hrest

theorem persistedShape_of_shaped {v : Value} (h : Shaped listtags v) :
    pfbSyncPersistedShape listtags v = some v := by
  induction h with
  | text s => rfl
  | @node items hne hkeys hlower hlist _ _ hentries hplain =>
      rw [pfbSyncPersistedShape, shapeItems_eq hlower (fun item hitem hl => ?_) hplain []
        (by simpa using hkeys), List.nil_append, shapeOrEmpty, if_neg hne]
      obtain ⟨es, hes, heq, hfull⟩ := hlist item hitem hl
      refine ⟨es, hes, heq, fun e he => ⟨hfull e he, ?_⟩⟩
      rw [← numbered_snd es] at he
      obtain ⟨x, hx, rfl⟩ := List.mem_map.mp he
      exact hentries item hitem hl x (by rw [heq]; exact hx)

/-- Reading back what is read back changes nothing. -/
theorem persistedShape_again {v r : Value} (h : pfbSyncPersistedShape listtags v = some r) :
    pfbSyncPersistedShape listtags r = some r :=
  persistedShape_of_shaped ((shaped_persistedShape v).1 r h)

end PfBlockerNG.SyncPersisted
