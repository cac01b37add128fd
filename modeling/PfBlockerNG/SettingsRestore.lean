import PfBlockerNG.SettingsFamily

/-!
A settings snapshot restores exactly: the saved sections come back whole and in order, the other
sections stay, and a call that fails leaves the configuration alone.
-/

namespace PfBlockerNG.SettingsRestore

open PfBlockerNG.Strings
open PfBlockerNG.OrderedDict
open PfBlockerNG.KeyedTree
open PfBlockerNG.CrashRuns
open PfBlockerNG.CrashRuns.Process
open PfBlockerNG.DirectoryFiles (EntryPath)
open PfBlockerNG.SettingsFamily

/-! ### The rebuilt sections -/

theorem items_set_of_not_mem {d : Sections} {k : Str} {v : Value} (h : k ∉ d.keys) :
    (d.set k v).items = d.items ++ [(k, v)] := store_of_not_mem h

theorem items_update {d : Sections} {pairs : List (Str × Value)}
    (h : (d.keys ++ pairs.map Prod.fst).Nodup) : (d.update pairs).items = d.items ++ pairs := by
  rw [← foldl_store h]
  clear h
  induction pairs generalizing d with
  | nil => rfl
  | cons p pairs ih => exact ih

theorem items_ownedSections (config : Config) :
    (ownedSections config).items = (installedPackages config).items.filter isOwned := by
  have hnodup : (((installedPackages config).items.filter isOwned).map Prod.fst).Nodup :=
    (List.filter_sublist.map Prod.fst).nodup (installedPackages config).nodup
  rw [ownedSections, ← List.foldl_filter]
  exact items_update (d := .empty) hnodup

/-- The loop over the live sections: what is put in their places and what is still to come are
the saved sections, and the others pass. -/
structure Rebuilding (saved : Sections) (seen : List (Str × Value)) (r : Rebuild) : Prop where
  owned : r.rebuilt.items.filter isOwned ++ r.owned.items = saved.items
  others : r.rebuilt.items.filter isForeign = seen.filter isForeign
  index : r.owned.items = saved.items.drop r.index

theorem mem_keys_of_filter {d : Sections} {k : Str} (test : Str × Value → Bool)
    (hk : ∀ v, test (k, v) = true) : k ∈ d.keys ↔ k ∈ (d.items.filter test).map Prod.fst := by
  simp only [Dict.keys, List.mem_map, List.mem_filter]
  constructor
  · rintro ⟨⟨k', v⟩, hmem, rfl⟩
    exact ⟨(k', v), ⟨hmem, hk v⟩, rfl⟩
  · rintro ⟨p, ⟨hmem, _⟩, hkey⟩
    exact ⟨p, hmem, hkey⟩

section Rebuild

variable {saved : Sections} {seen : List (Str × Value)} {r : Rebuild}

theorem Rebuilding.entry_foreign (h : Rebuilding saved seen r) {p : Str × Value}
    (hp : isOwned p = false) (hfresh : p.1 ∉ seen.map Prod.fst) :
    Rebuilding saved (seen ++ [p]) (Rebuild.entry saved.keys r p) := by
  have hforeign : isForeign p = true := by
    rw [isForeign, hp]
    rfl
  have hnew : p.1 ∉ r.rebuilt.keys := by
    intro hmem
    rw [mem_keys_of_filter isForeign fun _ => hforeign, h.others] at hmem
    exact hfresh ((List.filter_sublist.map Prod.fst).subset hmem)
  have hitems := items_set_of_not_mem (v := p.2) hnew
  have hentry : Rebuild.entry saved.keys r p = { r with rebuilt := r.rebuilt.set p.1 p.2 } := by
    rw [Rebuild.entry, hp]
    rfl
  rw [hentry]
  refine ⟨?_, ?_, h.index⟩
  · rw [hitems, List.filter_append, List.filter_singleton]
    simpa [hp] using h.owned
  · rw [hitems, List.filter_append, List.filter_append, h.others, List.filter_singleton]

theorem Rebuilding.entry_owned (h : Rebuilding saved seen r)
    (hsaved : ∀ p ∈ saved.items, isOwned p = true) {p : Str × Value} (hp : isOwned p = true) :
    Rebuilding saved (seen ++ [p]) (Rebuild.entry saved.keys r p) := by
  have hseen : (seen ++ [p]).filter isForeign = seen.filter isForeign := by
    rw [List.filter_append, List.filter_singleton]
    simp [isForeign, hp]
  have hkeys : saved.keys[r.index]? = saved.items[r.index]?.map Prod.fst := List.getElem?_map
  rw [Rebuild.entry, if_pos hp, hkeys]
  cases hnext : saved.items[r.index]? with
  | none => exact ⟨h.owned, h.others.trans hseen.symm, h.index⟩
  | some q =>
      obtain ⟨k, v⟩ := q
      obtain ⟨hlt, hq⟩ := List.getElem?_eq_some_iff.mp hnext
      have hown : isOwned (k, v) = true := hsaved _ (List.mem_of_getElem? hnext)
      have hrest : r.owned.items = (k, v) :: saved.items.drop (r.index + 1) := by
        rw [h.index, List.drop_eq_getElem_cons hlt, hq]
      have hnodup := saved.nodup
      rw [← h.owned, hrest, List.map_append, List.map_cons, List.nodup_append] at hnodup
      obtain ⟨_, hcons, hdisjoint⟩ := hnodup
      have hget : r.owned.get k = some v := by
        rw [Dict.get, hrest]
        simp [lookup]
      have hnew : k ∉ r.rebuilt.keys := by
        rw [mem_keys_of_filter isOwned fun _ => hown]
        exact fun hmem => hdisjoint k hmem k List.mem_cons_self rfl
      have hpop : (r.owned.pop k).items = saved.items.drop (r.index + 1) := by
        show r.owned.items.filter (fun p => p.1 ≠ k) = _
        rw [hrest, List.filter_cons_of_neg (by simp), List.filter_eq_self]
        intro p hmem
        have hne := (List.nodup_cons.mp hcons).1
        exact decide_eq_true fun heq => hne (List.mem_map.mpr ⟨p, hmem, heq⟩)
      have hitems := items_set_of_not_mem (v := v) hnew
      simp only [Option.map_some, hget, Option.getD_some]
      refine ⟨?_, ?_, hpop⟩
      · rw [hitems, hpop, List.filter_append, List.filter_singleton, hown, cond_true,
          List.append_assoc, List.singleton_append, ← hrest]
        exact h.owned
      · rw [hitems, hseen, List.filter_append, List.filter_singleton, h.others]
        simp [isForeign, hown]

theorem Rebuilding.foldl (hsaved : ∀ p ∈ saved.items, isOwned p = true)
    (rest : List (Str × Value)) (h : Rebuilding saved seen r)
    (hnodup : ((seen ++ rest).map Prod.fst).Nodup) :
    Rebuilding saved (seen ++ rest) (rest.foldl (Rebuild.entry saved.keys) r) := by
  induction rest generalizing seen r with
  | nil => rwa [List.append_nil]
  | cons p rest ih =>
      have hfresh : p.1 ∉ seen.map Prod.fst := by
        rw [List.map_append, List.nodup_append] at hnodup
        exact fun hmem => hnodup.2.2 _ hmem _ List.mem_cons_self rfl
      rw [List.append_cons] at hnodup ⊢
      refine ih ?_ hnodup
      cases hp : isOwned p with
      | false => exact h.entry_foreign hp hfresh
      | true => exact h.entry_owned hsaved hp

/-- The rebuilt sections hold the saved ones in their order and the others in theirs. -/
theorem filter_rebuild (installed : Sections) (hsaved : ∀ p ∈ saved.items, isOwned p = true) :
    (rebuild installed saved).items.filter isOwned = saved.items ∧
      (rebuild installed saved).items.filter isForeign = installed.items.filter isForeign := by
  have hstart : Rebuilding saved [] ⟨.empty, 0, saved⟩ := ⟨rfl, rfl, rfl⟩
  have hend := Rebuilding.foldl hsaved installed.items hstart installed.nodup
  have hlater : ∀ p ∈ (installed.items.foldl (Rebuild.entry saved.keys)
      ⟨.empty, 0, saved⟩).owned.items, isOwned p = true := by
    intro p hp
    rw [hend.index] at hp
    exact hsaved p (List.mem_of_mem_drop hp)
  unfold rebuild
  generalize installed.items.foldl (Rebuild.entry saved.keys) ⟨.empty, 0, saved⟩ = r at hend hlater
  have hkeys : (r.rebuilt.keys ++ r.owned.items.map Prod.fst).Nodup := by
    refine List.nodup_append.mpr ⟨r.rebuilt.nodup, r.owned.nodup, ?_⟩
    rintro k hk _ hk' rfl
    obtain ⟨q, hq, rfl⟩ := List.mem_map.mp hk'
    have hnodup := saved.nodup
    rw [← hend.owned, List.map_append, List.nodup_append] at hnodup
    rw [mem_keys_of_filter isOwned fun _ => hlater q hq] at hk
    exact hnodup.2.2 _ hk _ hk' rfl
  rw [items_update hkeys, List.filter_append, List.filter_append]
  constructor
  · rw [List.filter_eq_self.mpr hlater]
    exact hend.owned
  · have hnone : r.owned.items.filter isForeign = [] :=
      List.filter_eq_nil_iff.mpr fun p hp => by simp [isForeign, hlater p hp]
    rw [hend.others, hnone, List.append_nil, List.nil_append]

end Rebuild

/-! ### What a call leaves -/

/-- The configuration and the slot are as they were. -/
structure Intact (slot : EntryPath) (w w' : System) : Prop where
  config : w'.config = w.config
  slot : w'.files.get slot = w.files.get slot

/-- The slot holds the new document whole, as a private file. -/
structure Saved (F : Formats) (site : Site) (family : Str) (w w' : System) : Prop where
  config : w'.config = w.config
  slot : ∃ xml stat, document F family (ownedSections w.config) = some xml ∧
    w'.files.get (site.slot family) = some ⟨stat, xml⟩ ∧ isPrivateFile site (some stat) = true

/-- The live configuration with these sections put back. -/
def restored (config : Config) (owned : Sections) : Config :=
  config.set packagesKey (.array (rebuild (installedPackages config) owned))

/-- The sections of the slot are put back, and the configuration may have been written. -/
def Restored (F : Formats) (site : Site) (family : Str) (w w' : System) : Prop :=
  ∃ file parsed owned, w.files.get (site.slot family) = some file ∧
    F.parse file.content = some parsed ∧ snapshot F family parsed = some owned ∧
      (w'.config = restored w.config owned ∨ w'.config = F.written (restored w.config owned))

theorem temporary_ne_slot (e : Saving) (site : Site) (family : Str) :
    e.temporary ≠ site.slot family := by
  intro h
  have hname : ".settings-".toList ++ e.unique = "settings-".toList ++ family ++ ".xml".toList :=
    (EntryPath.mk.inj h).2
  have hhead := congrArg List.head? hname
  simp at hhead

section Calls

variable {sure : Bool} {F : Formats} {site : Site} {family : Str} {e : Saving} {w w' : System}
  {slot p : EntryPath}

theorem keeps_rootIsSafe {I : System → Prop} (s : Stat) : Keeps sure (rootIsSafe site s) I := by
  unfold rootIsSafe
  split
  · exact (keeps_test _).bind fun _ => (keeps_pure _).ite (keeps_pure _)
  · exact keeps_pure _

theorem keeps_slotIsSafe {I : System → Prop} : Keeps sure (slotIsSafe site slot) I := by
  refine (keeps_observe _).bind fun found => ?_
  cases found with
  | none => exact keeps_pure _
  | some s =>
      dsimp only
      split
      · exact (keeps_test _).bind fun _ => (keeps_pure _).ite (keeps_pure _)
      · exact keeps_pure _

theorem keeps_isRestorable {I : System → Prop} (rootStat slotStat : Stat) :
    Keeps sure (isRestorable site slot rootStat slotStat) I := by
  refine (keeps_test _).bind fun _ => (keeps_pure _).ite (Keeps.ite ?_ (keeps_pure _))
  exact (keeps_test _).bind fun _ => (keeps_pure _).ite (keeps_pure _)

theorem keeps_fileGetContents {I : System → Prop} : Keeps sure (fileGetContents p) I :=
  keeps_operation fun _ h => h

theorem keeps_readsBack {I : System → Prop} (xml : Str) :
    Keeps sure (readsBack site slot xml) I :=
  (keeps_observe _).bind fun _ =>
    (keeps_fileGetContents.bind fun _ => keeps_pure _).ite (keeps_pure _)

theorem keeps_recheckRoot {I : System → Prop} : Keeps sure (recheckRoot site) I := by
  refine (keeps_observe _).bind fun found => ?_
  cases found with
  | none => exact keeps_pure _
  | some s => exact keeps_rootIsSafe s

theorem prepareRoot_keeps : Keeps sure (prepareRoot site) (Intact slot w) := by
  have hmkdir : Keeps sure (mkdirRoot site) (Intact slot w) :=
    keeps_operation fun w' h => by
      split
      · exact ⟨h.config, h.slot⟩
      · exact h
  refine (keeps_observe _).bind fun found => ?_
  cases found with
  | none => exact hmkdir.bind fun _ => keeps_recheckRoot.ite (keeps_pure _)
  | some s => exact (keeps_rootIsSafe s).bind fun _ => keeps_recheckRoot.ite (keeps_pure _)

/-- A call of `pfb_settings_family_replace`: one that fails changes nothing, and one that succeeds
puts the sections of the slot back, where there is a slot and the test for it finds it. -/
theorem replace_ensures :
    Ensures sure (replace F site family) (fun _ => True) (fun ok w' =>
      (ok = false → w' = w) ∧ (ok = true → sure = false ∨ w.files.get (site.slot family) = none ∨
        Restored F site family w w')) w := by
  have hfailed : (false = false → w = w) ∧ (false = true → sure = false ∨
      w.files.get (site.slot family) = none ∨ Restored F site family w w) := ⟨fun _ => rfl, nofun⟩
  refine ensures_ite (fun _ => ?_) fun _ => ensures_pure hfailed
  refine ensures_bind (ensures_observe ?_ fun hsure => ensures_pure ⟨nofun, fun _ => .inl hsure⟩)
  cases hslot : w.files.get (site.slot family) with
  | none => exact ensures_pure ⟨nofun, fun _ => .inr (.inl rfl)⟩
  | some file =>
      rw [hslot] at hfailed
      refine ensures_bind_read (keeps_observe _) trivial fun rootFound => ?_
      cases rootFound with
      | none => exact ensures_pure hfailed
      | some rootStat =>
          refine ensures_bind_read (keeps_isRestorable _ _) trivial fun _ => ?_
          refine ensures_ite (fun _ => ?_) fun _ => ensures_pure hfailed
          refine ensures_bind (ensures_operation trivial (ensures_pure hfailed) ?_)
          cases hparsed : F.parse file.content with
          | none =>
              simp only [hslot, hparsed, Option.bind_some, Option.bind_none]
              exact ensures_pure hfailed
          | some parsed =>
              simp only [hslot, hparsed, Option.bind_some]
              cases hsnapshot : snapshot F family parsed with
              | none => exact ensures_pure hfailed
              | some owned =>
                  have hrestored : ∀ w', w'.config = restored w.config owned ∨
                      w'.config = F.written (restored w.config owned) →
                        Restored F site family w w' := fun w' h =>
                    ⟨file, parsed, owned, hslot, hparsed, hsnapshot, h⟩
                  refine ensures_bind (ensures_bind (ensures_modify ?_))
                  refine ensures_operation trivial (ensures_pure ?_) (ensures_pure ?_)
                  · exact ⟨nofun, fun _ => .inr (.inr (hrestored _ (.inl rfl)))⟩
                  · exact ⟨nofun, fun _ => .inr (.inr (hrestored _ (.inr rfl)))⟩

/-- What is done to the temporary file is of no matter to the slot. -/
theorem Intact.temporary {files : Dict EntryPath File} (h : Intact (site.slot family) w w')
    (hfiles : files.get (site.slot family) = w'.files.get (site.slot family)) :
    Intact (site.slot family) w { w' with files := files } := ⟨h.config, hfiles.trans h.slot⟩

theorem tempnam_keeps : Keeps sure (tempnam site e.temporary) (Intact (site.slot family) w) :=
  keeps_operation fun w' h => by
    split
    · exact h.temporary (w'.files.get_set_of_ne _ (temporary_ne_slot e site family))
    · exact h

theorem filePutContents_keeps (xml : Str) (reach : Nat) :
    Keeps sure (filePutContents e.temporary xml reach) (Intact (site.slot family) w) :=
  keeps_operation fun w' h => by
    split
    · exact h.temporary (w'.files.get_set_of_ne _ (temporary_ne_slot e site family))
    · exact h

/-- The temporary file is exact after the write. -/
theorem writeExactly_ensures {xml : Str} (h : Intact (site.slot family) w w') :
    Ensures sure (writeExactly e xml) (Intact (site.slot family) w)
      (fun ok w' => Intact (site.slot family) w w' ∧
        (ok = true → (w'.files.get e.temporary).map File.content = some xml)) w' := by
  refine ensures_bind ((filePutContents_keeps xml e.reach w' h).mono (fun _ h => h) ?_)
  intro written w₁ h₁
  split
  · refine ensures_bind (ensures_operation h₁ ?_ ?_)
    · exact ensures_pure ⟨h₁, by simp⟩
    · exact ensures_pure ⟨h₁, fun hok => of_decide_eq_true hok⟩
  · exact ensures_pure ⟨h₁, by simp⟩

theorem chmodPrivate_ensures {xml : Str} (h : Intact (site.slot family) w w')
    (hxml : (w'.files.get e.temporary).map File.content = some xml) :
    Ensures sure (chmodPrivate e.temporary) (Intact (site.slot family) w)
      (fun _ w' => Intact (site.slot family) w w' ∧
        (w'.files.get e.temporary).map File.content = some xml) w' := by
  refine ensures_operation h ⟨h, hxml⟩ ?_
  split
  next f hf =>
    refine ⟨h.temporary (w'.files.get_set_of_ne _ (temporary_ne_slot e site family)), ?_⟩
    rw [hf] at hxml
    simpa using hxml
  next => exact ⟨h, hxml⟩

/-- A save of a document: one that fails leaves the slot alone, or the slot holds the document
though it did not read back. -/
theorem writeSlot_ensures {xml : Str} (h : Intact (site.slot family) w w')
    (hdocument : document F family (ownedSections w.config) = some xml) :
    Ensures sure (writeSlot site e (site.slot family) xml) (fun _ => True)
      (fun ok w' => (ok = true → Saved F site family w w') ∧
        (ok = false → Intact (site.slot family) w w' ∨ Saved F site family w w')) w' := by
  have hfailed : ∀ {w'}, Intact (site.slot family) w w' →
      Ensures sure (abandon e.temporary) (fun _ => True)
        (fun ok w' => (ok = true → Saved F site family w w') ∧
          (ok = false → Intact (site.slot family) w w' ∨ Saved F site family w w')) w' := by
    intro w' h
    refine ensures_bind (ensures_operation trivial ?_ ?_)
    · exact ensures_pure ⟨by simp, fun _ => .inl h⟩
    · refine ensures_pure ⟨by simp, fun _ => .inl (h.temporary ?_)⟩
      rw [Dict.get_pop, if_neg (temporary_ne_slot e site family)]
  refine ensures_bind ((tempnam_keeps w' h).mono (fun _ _ => trivial) fun made w₁ h₁ => ?_)
  refine ensures_ite (fun _ => ?_) fun _ => ensures_pure ⟨by simp, fun _ => .inl h₁⟩
  refine ensures_bind ((writeExactly_ensures h₁).mono (fun _ _ => trivial) fun exact' w₂ h₂ => ?_)
  refine ensures_ite (fun hexact => ?_) fun _ => hfailed h₂.1
  refine ensures_bind ((chmodPrivate_ensures h₂.1 (h₂.2 hexact)).mono (fun _ _ => trivial) ?_)
  rintro chmoded w₃ ⟨h₃, hxml⟩
  refine ensures_ite (fun _ => ?_) fun _ => hfailed h₃
  obtain ⟨f, hf, rfl⟩ := Option.map_eq_some_iff.mp hxml
  refine ensures_bind (ensures_observe ?_ fun _ =>
    ensures_ite (fun h => absurd h Bool.false_ne_true) fun _ => hfailed h₃)
  rw [hf]
  refine ensures_ite (fun hprivate => ?_) fun _ => hfailed h₃
  refine ensures_bind (ensures_operation trivial (hfailed h₃) ?_)
  rw [hf]
  dsimp only
  split
  · exact hfailed h₃
  · have hsaved : Saved F site family w
        { w₃ with files := (w₃.files.pop e.temporary).set (site.slot family) f } :=
      ⟨h₃.config, f.content, f.stat, hdocument, Dict.get_set_self _ _ _, hprivate⟩
    refine ensures_ite (fun _ => ?_) (by simp)
    refine (keeps_readsBack _ _ hsaved).mono (fun _ _ => trivial) fun _ w₄ h₄ => ?_
    exact ⟨fun _ => h₄, fun _ => .inr h₄⟩

/-- A call of `pfb_settings_family_save`. -/
theorem save_ensures :
    Ensures sure (save F site e family) (fun _ => True)
      (fun ok w' => (ok = true → (ownedSections w.config).nonempty = true →
          Saved F site family w w') ∧
        (ok = false → Intact (site.slot family) w w' ∨ Saved F site family w w')) w := by
  have hintact : Intact (site.slot family) w w := ⟨rfl, rfl⟩
  have hfailed : ∀ {w'}, Intact (site.slot family) w w' →
      (false = true → (ownedSections w.config).nonempty = true → Saved F site family w w') ∧
        (false = false → Intact (site.slot family) w w' ∨ Saved F site family w w') :=
    fun h => ⟨nofun, fun _ => .inl h⟩
  refine ensures_ite (fun _ => ?_) fun _ => ensures_pure (hfailed hintact)
  refine ensures_bind (ensures_inspect (ensures_ite (fun _ => ?_) fun hnone => ?_))
  · refine ensures_bind ((prepareRoot_keeps w hintact).mono (fun _ _ => trivial) ?_)
    intro ready w₁ h₁
    refine ensures_ite (fun _ => ?_) fun _ => ensures_pure (hfailed h₁)
    refine ensures_bind_read keeps_slotIsSafe trivial fun safe => ?_
    refine ensures_ite (fun _ => ?_) fun _ => ensures_pure (hfailed h₁)
    split
    next => exact ensures_pure (hfailed h₁)
    next => exact ensures_pure (hfailed h₁)
    next xml hdocument =>
      exact (writeSlot_ensures h₁ hdocument).mono (fun _ h => h)
        fun _ _ h => ⟨fun hok _ => h.1 hok, h.2⟩
  · refine ensures_pure ⟨fun _ hown => ?_, nofun⟩
    rw [hnone] at hown
    exact absurd hown nofun

end Calls

/-! ### Saving and restoring -/

/-- The formats around a snapshot read back what was written. -/
structure RoundTrips (F : Formats) (family : Str) (owned : Sections) : Prop where
  serialize : F.unserialize (F.serialize owned) = some (.array owned)
  base64 : F.base64Decode (F.base64Encode (F.serialize owned)) = some (F.serialize owned)
  document : ∀ xml, document F family owned = some xml → ∃ parsed, F.parse xml = some parsed ∧
    stringAt "family".toList parsed = some family ∧
      stringAt "payload".toList parsed = some (F.base64Encode (F.serialize owned))

theorem snapshot_of_roundTrips {F : Formats} {family : Str} {owned owned' parsed : Sections}
    {xml : Str} (h : RoundTrips F family owned) (hxml : document F family owned = some xml)
    (hparsed : F.parse xml = some parsed) (hsnapshot : snapshot F family parsed = some owned') :
    owned' = owned := by
  obtain ⟨parsed', hparsed', hfamily, hpayload⟩ := h.document xml hxml
  obtain rfl : parsed = parsed' := Option.some.inj (hparsed.symm.trans hparsed')
  simp only [snapshot, hfamily, hpayload, if_true, h.base64, Option.bind_some, h.serialize]
    at hsnapshot
  split at hsnapshot
  · exact (Option.some.inj hsnapshot).symm
  · exact absurd hsnapshot nofun

/-- The configuration has changed, and nothing else. -/
def changed (w : System) (live : Config) : System := { w with config := live }

theorem installedPackages_restored (config : Config) (owned : Sections) :
    installedPackages (restored config owned) = rebuild (installedPackages config) owned := by
  rw [installedPackages, restored, Dict.get_set_self]

/-- After a save that succeeds, whatever becomes of the configuration, a restoration that succeeds
leaves the saved sections and, of the others, those it found. A call that fails leaves the
configuration alone; it leaves the slot alone too, unless it is a save whose last reading of the
slot failed, which leaves the new document there. -/
theorem settings_snapshot_restores (F : Formats) (site : Site) (family : Str) (e : Saving)
    (w : System) :
    ((ownedSections w.config).nonempty = true →
      RoundTrips F family (ownedSections w.config) →
      (∀ config, installedPackages (F.written config) = installedPackages config) →
      ∀ (s s' : Script) (live : Config), s'.Truthful →
      (save F site e family s w).answer = some true →
      (replace F site family s'
        (changed (save F site e family s w).state live)).answer = some true →
      (installedPackages (replace F site family s'
          (changed (save F site e family s w).state live)).state.config).items.filter
            isOwned = (installedPackages w.config).items.filter isOwned ∧
        (installedPackages (replace F site family s'
          (changed (save F site e family s w).state live)).state.config).items.filter
            isForeign = (installedPackages live).items.filter isForeign) ∧
      (∀ s : Script, (save F site e family s w).answer = some false →
        (save F site e family s w).state.config = w.config ∧
          (Intact (site.slot family) w (save F site e family s w).state ∨
            Saved F site family w (save F site e family s w).state)) ∧
      ∀ s : Script, (replace F site family s w).answer = some false →
        (replace F site family s w).state = w := by
  have hsave : ∀ s : Script, s.Admitted false := fun _ => nofun
  refine ⟨fun hown hround hwritten s s' live hs' hsaved hreplaced => ?_, fun s hfailed => ?_,
    fun s hfailed => ?_⟩
  · have hslot := (save_ensures.of_answer (hsave s) hsaved).1 rfl hown
    generalize (save F site e family s w).state = w₁ at hslot hreplaced ⊢
    obtain ⟨xml, stat, hxml, hget, _⟩ := hslot.slot
    have hsure : s'.Admitted true := fun _ => hs'
    have hanswer := (replace_ensures.of_answer hsure hreplaced).2 rfl
    generalize (replace F site family s' (changed w₁ live)).state = w₂ at hanswer ⊢
    rcases hanswer with hfalse | hnone | ⟨file, parsed, owned, hfile, hparsed, hsnapshot, hconfig⟩
    · exact absurd hfalse nofun
    · exact absurd (hget.symm.trans hnone) nofun
    · obtain rfl : (⟨stat, xml⟩ : File) = file := Option.some.inj (hget.symm.trans hfile)
      rw [snapshot_of_roundTrips hround hxml hparsed hsnapshot] at hconfig
      have hinstalled : installedPackages w₂.config =
          rebuild (installedPackages live) (ownedSections w.config) := by
        rcases hconfig with hconfig | hconfig
        · rw [hconfig, installedPackages_restored]
          rfl
        · rw [hconfig, hwritten, installedPackages_restored]
          rfl
      have hsections : ∀ p ∈ (ownedSections w.config).items, isOwned p = true := by
        intro p hp
        rw [items_ownedSections] at hp
        exact (List.mem_filter.mp hp).2
      have hfilter := filter_rebuild (installedPackages live) hsections
      rw [hinstalled, hfilter.1, hfilter.2, items_ownedSections]
      exact ⟨rfl, rfl⟩
  · have hkept := (save_ensures.of_answer (hsave s) hfailed).2 rfl
    exact ⟨hkept.elim Intact.config Saved.config, hkept⟩
  · exact (replace_ensures.of_answer (hsave s) hfailed).1 rfl

/-- Two sections of the package around one of another package. -/
def sections (ours lists theirs : Str) : Config :=
  ⟨[(packagesKey, .array ⟨[("pfblockerng".toList, .leaf (.plain (.str ours))),
    ("squid".toList, .leaf (.plain (.str theirs))),
    ("pfblockernglistsv4".toList, .leaf (.plain (.str lists)))], by
      show ["pfblockerng".toList, "squid".toList, "pfblockernglistsv4".toList].Nodup
      decide⟩)], List.nodup_singleton _⟩

/-- The two sections of the package as they are saved. -/
def savedSections : Sections :=
  ⟨[("pfblockerng".toList, .leaf (.plain (.str "saved".toList))),
    ("pfblockernglistsv4".toList, .leaf (.plain (.str "lists".toList)))], by
      show ["pfblockerng".toList, "pfblockernglistsv4".toList].Nodup
      decide⟩

def serialized : Str :=
  "a:2:\x7bs:11:\"pfblockerng\";s:5:\"saved\";s:18:\"pfblockernglistsv4\";s:5:\"lists\";\x7d".toList

def payload : Str :=
  "27572".toList

def xmlOf (family payload : Str) : Str :=
  "<pfblockerng-settings><family>".toList ++ family ++ "</family><payload>".toList ++ payload ++
    "</payload></pfblockerng-settings>".toList

/-- What the document of the two sections is parsed as. -/
def parsedDocument : Sections :=
  ⟨[("family".toList, .leaf (.plain (.str "3.3".toList))),
    ("payload".toList, .leaf (.plain (.str payload)))], by decide⟩

/-- The formats on those sections. -/
def twoSections : Formats where
  serialize _ := serialized
  unserialize text := if text = serialized then some (.array savedSections) else none
  base64Encode text := if text = serialized then payload else []
  base64Decode text := if text = payload then some serialized else none
  dump family payload := some (xmlOf family payload)
  parse text := if text = xmlOf "3.3".toList payload then some parsedDocument else none
  written config := config

def appliance : Site := ⟨"/var/db/pfblockerng".toList, 0, ⟨0o040755, 0⟩⟩

def family : Str := "3.3".toList

def saving : Saving := ⟨appliance.root, "x".toList, 1000⟩

/-- An older snapshot stands in the slot. -/
def snapshotted : System :=
  ⟨sections "saved".toList "lists".toList "kept".toList, some ⟨0o040755, 0⟩,
    ⟨[(appliance.slot family, ⟨⟨0o100600, 0⟩, "old".toList⟩)], by simp⟩⟩

def later : Config := sections "live".toList "emptied".toList "changed".toList

theorem twoSections_roundTrips :
    RoundTrips twoSections family (ownedSections snapshotted.config) := by
  have hwritten : document twoSections family (ownedSections snapshotted.config) =
      some (xmlOf family payload) := by decide +kernel
  have hparsed : twoSections.parse (xmlOf family payload) = some parsedDocument := by
    show (if xmlOf family payload = xmlOf "3.3".toList payload then some parsedDocument
      else none) = _
    exact if_pos rfl
  refine ⟨by rfl, by decide +kernel, fun xml hxml => ⟨parsedDocument, ?_, by decide +kernel, ?_⟩⟩
  · rw [← Option.some.inj (hwritten.symm.trans hxml)]
    exact hparsed
  · decide +kernel

/-- The package's sections are as they were saved, the other package's as the restoration found
it. -/
theorem settings_snapshot_restores_sections :
    let restored := (replace twoSections appliance family Script.quiet
      (changed (save twoSections appliance saving family Script.quiet snapshotted).state
        later)).state.config
    (installedPackages restored).items.filter isOwned = savedSections.items ∧
      (installedPackages restored).items.filter isForeign =
        [("squid".toList, .leaf (.plain (.str "changed".toList)))] := by
  have hrestored := (settings_snapshot_restores twoSections appliance family saving
    snapshotted).1 (by decide) twoSections_roundTrips (fun _ => rfl) Script.quiet Script.quiet
      later (by decide) (by decide +kernel) (by decide +kernel)
  exact ⟨hrestored.1.trans (by decide +kernel), hrestored.2.trans (by decide +kernel)⟩

/-- A save may fail with the new document in the slot, and a restoration whose test for the slot
fails answers success and puts nothing back. -/
theorem settings_snapshot_missed :
    (save twoSections appliance saving family ⟨List.replicate 5 .done ++ [.fails], []⟩
        snapshotted).answer = some false ∧
      (save twoSections appliance saving family ⟨List.replicate 5 .done ++ [.fails], []⟩
        snapshotted).state.files.get (appliance.slot family) ≠
          snapshotted.files.get (appliance.slot family) ∧
      (save twoSections appliance saving family Script.quiet snapshotted).answer = some true ∧
      (replace twoSections appliance family ⟨[], [true]⟩
        (changed (save twoSections appliance saving family Script.quiet snapshotted).state
          later)).answer = some true ∧
      (installedPackages (replace twoSections appliance family ⟨[], [true]⟩
        (changed (save twoSections appliance saving family Script.quiet snapshotted).state
          later)).state.config).items.filter isOwned ≠
            (installedPackages snapshotted.config).items.filter isOwned := by
  decide +kernel

end PfBlockerNG.SettingsRestore
