import PfBlockerNG.StagePublish

/-!
Publications survive failures and stops: between calls a target holds what was last swapped in or
its backup does, and a successful recovery leaves it in the target.
-/

namespace PfBlockerNG.StageRecovery

open PfBlockerNG.Strings
open PfBlockerNG.OrderedDict
open PfBlockerNG.KeyedTree
open PfBlockerNG.CrashRuns
open PfBlockerNG.CrashRuns.Process
open PfBlockerNG.DirectoryFiles
open PfBlockerNG.StagePublish

/-- The name of a target: neither that of a backup nor that of a staging path. -/
structure IsTargetName (n : Str) : Prop where
  ne_nil : n ≠ []
  not_backup : startsWith backupStem n = false
  not_staging : startsWith stagingStem n = false

/-- What was swapped in at a path, the latest first: what was moved there, but from its backup. -/
def swappedIn (w : World) (t : EntryPath) : List Entry :=
  (w.renames.filter fun m => m.target = t && m.source ≠ backupPath t).map Rename.moved

/-- What a path ought to hold: what was swapped in last, or what it was due at the start. -/
def held (start : EntryPath → Option Entry) (w : World) (t : EntryPath) : Option Entry :=
  (swappedIn w t).head?.or (start t)

def NoDirectory (o : Option Entry) : Prop := ∀ items, o ≠ some (.node items)

/-- The target holds what it ought to, or it is moved aside whole. -/
def Kept (atTarget atBackup due : Option Entry) : Prop :=
  (atTarget = due ∧ (due = none → NoDirectory atBackup)) ∨
    (atTarget = none ∧ atBackup = due ∧ ∃ items, due = some (.node items))

/-- The state of a directory between the operations of a publication. -/
structure Sound (start : EntryPath → Option Entry) (d : Str) (w : World) : Prop where
  kept : ∀ n, IsTargetName n → Kept (w.get ⟨d, n⟩) (w.get (backupPath ⟨d, n⟩)) (held start w ⟨d, n⟩)
  others : ∀ n, n ≠ [] → ¬ IsTargetName n → NoDirectory (w.get (backupPath ⟨d, n⟩))

/-- What a recovery may do to the targets of a directory: put back what was moved aside. -/
structure Mends (start : EntryPath → Option Entry) (d : Str) (w w' : World) : Prop where
  swappedIn : ∀ n, IsTargetName n → swappedIn w' ⟨d, n⟩ = swappedIn w ⟨d, n⟩
  get : ∀ n, IsTargetName n → w'.get ⟨d, n⟩ = w.get ⟨d, n⟩ ∨
    (w.get ⟨d, n⟩ = none ∧ w'.get ⟨d, n⟩ = held start w ⟨d, n⟩)

/-! ### Names -/

theorem startsWith_append (p s : Str) : startsWith p (p ++ s) = true :=
  List.isPrefixOf_iff_prefix.mpr (List.prefix_append p s)

theorem backupPath_injective {p q : EntryPath} (h : backupPath p = backupPath q) : p = q := by
  obtain ⟨d, n⟩ := p
  obtain ⟨d', n'⟩ := q
  have hdirectory : d = d' := (EntryPath.mk.inj h).1
  have hname : n = n' := List.append_cancel_left (EntryPath.mk.inj h).2
  rw [hdirectory, hname]

theorem backupPath_ne {n : Str} (hn : IsTargetName n) (p : EntryPath) (d : Str) :
    backupPath p ≠ ⟨d, n⟩ := by
  intro h
  have hname : backupStem ++ p.name = n := (EntryPath.mk.inj h).2
  exact Bool.noConfusion
    ((startsWith_append backupStem p.name).symm.trans (hname ▸ hn.not_backup))

theorem staging_ne {n : Str} (hn : IsTargetName n) (d u d' : Str) :
    (⟨d, stagingStem ++ u⟩ : EntryPath) ≠ ⟨d', n⟩ := by
  intro h
  have hname : stagingStem ++ u = n := (EntryPath.mk.inj h).2
  exact Bool.noConfusion ((startsWith_append stagingStem u).symm.trans (hname ▸ hn.not_staging))

theorem staging_ne_backupPath (d u : Str) (p : EntryPath) :
    (⟨d, stagingStem ++ u⟩ : EntryPath) ≠ backupPath p := by
  intro h
  have hname : stagingStem ++ u = backupStem ++ p.name := congrArg EntryPath.name h
  have htake : stagingStem.take 10 = backupStem.take 10 := by
    have hstaging : (stagingStem ++ u).take 10 = stagingStem.take 10 :=
      List.take_append_of_le_length (by decide)
    have hbackup : (backupStem ++ p.name).take 10 = backupStem.take 10 :=
      List.take_append_of_le_length (by decide)
    rw [← hstaging, hname, hbackup]
  exact absurd htake (by decide)

section Steps

variable {start : EntryPath → Option Entry} {d : Str} {w w' : World}

/-! ### What was swapped in -/

theorem swappedIn_of_renames (h : w'.renames = w.renames) (t : EntryPath) :
    swappedIn w' t = swappedIn w t := by
  rw [swappedIn, swappedIn, h]

theorem held_of_swappedIn {t : EntryPath} (h : swappedIn w' t = swappedIn w t) :
    held start w' t = held start w t := by
  rw [held, held, h]

theorem swappedIn_moved_of_ne {source target t : EntryPath} (h : target = t → source = backupPath t)
    (e : Entry) : swappedIn (w.moved source target e) t = swappedIn w t := by
  have hmove : (decide (target = t) && decide (source ≠ backupPath t)) = false := by
    by_cases ht : target = t <;> simp [ht, h]
  rw [swappedIn, World.moved, List.filter_cons_of_neg (by simpa using h)]
  rfl

theorem swappedIn_moved_self {source target : EntryPath} (h : source ≠ backupPath target)
    (e : Entry) :
    swappedIn (w.moved source target e) target = e :: swappedIn w target := by
  rw [swappedIn, World.moved, List.filter_cons_of_pos (by simpa using h)]
  rfl

/-! ### One operation -/

theorem Mends.refl (w : World) : Mends start d w w := ⟨fun _ _ => rfl, fun _ _ => .inl rfl⟩

theorem Mends.trans {w'' : World} (h : Mends start d w w') (h' : Mends start d w' w'') :
    Mends start d w w'' := by
  refine ⟨fun n hn => (h'.swappedIn n hn).trans (h.swappedIn n hn), fun n hn => ?_⟩
  have hheld : held start w' ⟨d, n⟩ = held start w ⟨d, n⟩ := held_of_swappedIn (h.swappedIn n hn)
  rcases h.get n hn with hsame | ⟨hnone, hheld'⟩
  · rw [← hsame, ← hheld]
    exact h'.get n hn
  · refine .inr ⟨hnone, ?_⟩
    rcases h'.get n hn with hsame | ⟨_, hget⟩
    · exact hsame.trans hheld'
    · exact hget.trans hheld

/-- What the staging path holds is of no matter. -/
theorem Mends.of_staging {d' u : Str} (h : World.OnlyAt ⟨d', stagingStem ++ u⟩ w w') :
    Mends start d w w' :=
  ⟨fun _ _ => swappedIn_of_renames h.renames _,
    fun _ hn => .inl (h.get _ (staging_ne hn d' u d).symm)⟩

theorem Sound.of_staging {d' u : Str} (hw : Sound start d w)
    (h : World.OnlyAt ⟨d', stagingStem ++ u⟩ w w') : Sound start d w' := by
  refine ⟨fun n hn => ?_, fun n hne hn => ?_⟩
  · rw [h.get _ (staging_ne hn d' u d).symm, h.get _ (staging_ne_backupPath d' u _).symm,
      held_of_swappedIn (swappedIn_of_renames h.renames _)]
    exact hw.kept n hn
  · rw [h.get _ (staging_ne_backupPath d' u _).symm]
    exact hw.others n hne hn

/-- What the backup of a target in service holds is of no matter. -/
theorem Mends.of_backup {p : EntryPath} (h : World.OnlyAt (backupPath p) w w') :
    Mends start d w w' :=
  ⟨fun _ _ => swappedIn_of_renames h.renames _,
    fun _ hm => .inl (h.get _ (backupPath_ne hm p d).symm)⟩

theorem Sound.of_backup {n : Str} (hw : Sound start d w) (hn : IsTargetName n)
    (hservice : w.get ⟨d, n⟩ ≠ none) (h : World.OnlyAt (backupPath ⟨d, n⟩) w w') :
    Sound start d w' := by
  refine ⟨fun m hm => ?_, fun m hne hm => ?_⟩
  · rw [h.get _ (backupPath_ne hm _ d).symm,
      held_of_swappedIn (swappedIn_of_renames h.renames _)]
    by_cases hmn : m = n
    · subst hmn
      rcases hw.kept m hm with ⟨hget, _⟩ | ⟨hget, _⟩
      · exact .inl ⟨hget, fun hnone => absurd (hget.trans hnone) hservice⟩
      · exact absurd hget hservice
    · rw [h.get]
      · exact hw.kept m hm
      · exact fun heq => hmn (EntryPath.mk.inj (backupPath_injective heq)).2
  · rw [h.get]
    · exact hw.others m hne hm
    · intro heq
      rw [(EntryPath.mk.inj (backupPath_injective heq)).2] at hm
      exact hm hn

/-- A path that serves the publication of one target. -/
def Serves (d n : Str) (p : EntryPath) : Prop :=
  p = ⟨d, n⟩ ∨ p = backupPath ⟨d, n⟩ ∨ ∃ d' u, p = ⟨d', stagingStem ++ u⟩

theorem Serves.ne_target {n m : Str} {p : EntryPath} (h : Serves d n p) (hm : IsTargetName m)
    (hne : m ≠ n) : p ≠ ⟨d, m⟩ := by
  rcases h with rfl | rfl | ⟨d', u, rfl⟩
  · exact fun heq => hne (EntryPath.mk.inj heq).2.symm
  · exact backupPath_ne hm _ d
  · exact staging_ne hm d' u d

theorem Serves.ne_backupPath {n m : Str} {p : EntryPath} (h : Serves d n p) (hn : IsTargetName n)
    (hne : m ≠ n) : p ≠ backupPath ⟨d, m⟩ := by
  rcases h with rfl | rfl | ⟨d', u, rfl⟩
  · exact (backupPath_ne hn _ d).symm
  · exact fun heq => hne (EntryPath.mk.inj (backupPath_injective heq)).2.symm
  · exact staging_ne_backupPath d' u _

theorem get_moved_of_ne {source target q : EntryPath} (hs : source ≠ q) (ht : target ≠ q)
    (e : Entry) : (w.moved source target e).get q = w.get q := by
  rw [World.get_moved, if_neg ht, if_neg hs]

/-- A rename between paths that serve one target concerns that target only. -/
theorem Sound.moved {n : Str} {source target : EntryPath} {e : Entry} (hw : Sound start d w)
    (hn : IsTargetName n) (hs : Serves d n source) (ht : Serves d n target)
    (hkept : Kept ((w.moved source target e).get ⟨d, n⟩)
      ((w.moved source target e).get (backupPath ⟨d, n⟩))
      (held start (w.moved source target e) ⟨d, n⟩)) :
    Sound start d (w.moved source target e) := by
  refine ⟨fun m hm => ?_, fun m hne hm => ?_⟩
  · by_cases hmn : m = n
    · rw [hmn]
      exact hkept
    · have hheld : held start (w.moved source target e) ⟨d, m⟩ = held start w ⟨d, m⟩ :=
        held_of_swappedIn (swappedIn_moved_of_ne (fun heq => absurd heq (ht.ne_target hm hmn)) e)
      rw [get_moved_of_ne (hs.ne_target hm hmn) (ht.ne_target hm hmn),
        get_moved_of_ne (hs.ne_backupPath hn hmn) (ht.ne_backupPath hn hmn), hheld]
      exact hw.kept m hm
  · have hmn : m ≠ n := by
      rintro rfl
      exact hm hn
    rw [get_moved_of_ne (hs.ne_backupPath hn hmn) (ht.ne_backupPath hn hmn)]
    exact hw.others m hne hm

/-- A target that is missing while its backup is there: the backup is what it ought to hold. -/
theorem Sound.held_of_backup {n : Str} {items : List (Str × Entry)} (hw : Sound start d w)
    (hn : IsTargetName n) (hnone : w.get ⟨d, n⟩ = none)
    (hbackup : w.get (backupPath ⟨d, n⟩) = some (.node items)) :
    held start w ⟨d, n⟩ = some (.node items) := by
  rcases hw.kept n hn with ⟨hget, habsent⟩ | ⟨_, hget, _⟩
  · exact absurd hbackup (habsent (hget.symm.trans hnone) items)
  · rw [← hget, hbackup]

/-- A target in service holds what it ought to. -/
theorem Sound.get_of_some {n : Str} {e : Entry} (hw : Sound start d w) (hn : IsTargetName n)
    (hget : w.get ⟨d, n⟩ = some e) : held start w ⟨d, n⟩ = some e := by
  rcases hw.kept n hn with ⟨hheld, _⟩ | ⟨hnone, _⟩
  · rw [← hheld, hget]
  · rw [hnone] at hget
    exact absurd hget nofun

/-- So does a target without a backup. -/
theorem Sound.get_of_no_backup {n : Str} (hw : Sound start d w) (hn : IsTargetName n)
    (hbackup : NoDirectory (w.get (backupPath ⟨d, n⟩))) :
    w.get ⟨d, n⟩ = held start w ⟨d, n⟩ := by
  rcases hw.kept n hn with ⟨hheld, _⟩ | ⟨_, hget, items, hitems⟩
  · exact hheld
  · exact absurd (hget.trans hitems) (hbackup items)

/-- The backup is put back. -/
theorem Sound.restored {n : Str} {items : List (Str × Entry)} (hw : Sound start d w)
    (hn : IsTargetName n) (hnone : w.get ⟨d, n⟩ = none)
    (hbackup : w.get (backupPath ⟨d, n⟩) = some (.node items)) :
    Sound start d (w.moved (backupPath ⟨d, n⟩) ⟨d, n⟩ (.node items)) ∧
      Mends start d w (w.moved (backupPath ⟨d, n⟩) ⟨d, n⟩ (.node items)) := by
  have hheld := hw.held_of_backup hn hnone hbackup
  have hsame : ∀ m, swappedIn (w.moved (backupPath ⟨d, n⟩) ⟨d, n⟩ (.node items)) ⟨d, m⟩ =
      swappedIn w ⟨d, m⟩ := by
    intro m
    apply swappedIn_moved_of_ne
    rintro ⟨_, rfl⟩
    rfl
  have hget : (w.moved (backupPath ⟨d, n⟩) ⟨d, n⟩ (.node items)).get ⟨d, n⟩ =
      some (.node items) := by
    rw [World.get_moved, if_pos rfl]
  constructor
  · apply hw.moved hn (.inr (.inl rfl)) (.inl rfl)
    rw [hget, held_of_swappedIn (hsame n), hheld]
    exact .inl ⟨rfl, nofun⟩
  · refine ⟨fun m _ => hsame m, fun m hm => ?_⟩
    by_cases hmn : m = n
    · subst hmn
      exact .inr ⟨hnone, hget.trans hheld.symm⟩
    · exact .inl (get_moved_of_ne (backupPath_ne hm _ d)
        (fun heq => hmn (EntryPath.mk.inj heq).2.symm) _)

/-- The target is moved aside whole. -/
theorem Sound.moved_aside {n : Str} {items : List (Str × Entry)} (hw : Sound start d w)
    (hn : IsTargetName n) (hget : w.get ⟨d, n⟩ = some (.node items)) :
    Sound start d (w.moved ⟨d, n⟩ (backupPath ⟨d, n⟩) (.node items)) := by
  apply hw.moved hn (.inl rfl) (.inr (.inl rfl))
  have hne := backupPath_ne hn ⟨d, n⟩ d
  rw [held_of_swappedIn (swappedIn_moved_of_ne (fun heq => absurd heq hne) _),
    hw.get_of_some hn hget, World.get_moved, if_neg hne, if_pos rfl, World.get_moved, if_pos rfl]
  exact .inr ⟨rfl, rfl, items, rfl⟩

/-- What is swapped in is what the target ought to hold. -/
theorem Sound.swapped_in {n d' u : Str} {e : Entry} (hw : Sound start d w)
    (hn : IsTargetName n) : Sound start d (w.moved ⟨d', stagingStem ++ u⟩ ⟨d, n⟩ e) := by
  apply hw.moved hn (.inr (.inr ⟨d', u, rfl⟩)) (.inl rfl)
  rw [World.get_moved, if_pos rfl, held, swappedIn_moved_self (staging_ne_backupPath d' u _)]
  exact .inl ⟨rfl, nofun⟩

/-! ### The tests and the removal -/

theorem find_place (w : World) (p : EntryPath) : w.find p.place = w.get p := by
  show (w.get p).bind (Entry.descend []) = w.get p
  cases w.get p <;> rfl

section Ensures

variable {I : World → Prop} {Q : Bool → World → Prop}

theorem ensures_isOwnDir {p : EntryPath} (hdir : ∀ items, w.get p = some (.node items) → Q true w)
    (hother : (∀ items, w.get p ≠ some (.node items)) → Q false w) :
    Ensures true (isOwnDir p.place) I Q w := by
  refine ensures_bind (ensures_test ?_ nofun)
  rw [find_place]
  cases hget : w.get p with
  | none => exact ensures_pure (hother fun items => by simp [hget])
  | some e =>
      cases e with
      | node items =>
          refine ensures_bind (ensures_test (ensures_pure ?_) nofun)
          rw [find_place, hget]
          exact hdir items hget
      | leaf a =>
          have hfalse : Q false w := hother fun items => by simp [hget]
          match a with
          | .file _ => exact ensures_pure hfalse
          | .link .nothing => exact ensures_pure hfalse
          | .link .file => exact ensures_pure hfalse
          | .link .directory =>
              refine ensures_bind (ensures_test (ensures_pure ?_) nofun)
              rw [find_place, hget]
              exact hfalse

theorem ensures_isTaken {p : EntryPath} (htaken : ∀ e, w.get p = some e → Q true w)
    (hfree : w.get p = none → Q false w) : Ensures true (isTaken p.place) I Q w := by
  refine ensures_bind (ensures_test ?_ nofun)
  rw [find_place]
  cases hget : w.get p with
  | none =>
      refine ensures_test ?_ nofun
      rw [find_place, hget]
      exact hfree hget
  | some e =>
      have htrue : Q true w := htaken e hget
      match e with
      | .node _ => exact ensures_pure htrue
      | .leaf (.file _) => exact ensures_pure htrue
      | .leaf (.link .file) => exact ensures_pure htrue
      | .leaf (.link .directory) => exact ensures_pure htrue
      | .leaf (.link .nothing) =>
          refine ensures_test ?_ nofun
          rw [find_place, hget]
          exact htrue

end Ensures

theorem keeps_isOwnDir {I : World → Prop} (x : Place) : Keeps true (isOwnDir x) I :=
  (keeps_isDir x).bind fun _ => ((keeps_isLink x).bind fun _ => keeps_pure _).ite (keeps_pure _)

theorem keeps_isTaken {I : World → Prop} (x : Place) : Keeps true (isTaken x) I :=
  (keeps_fileExists x).bind fun _ => (keeps_pure _).ite (keeps_isLink x)

theorem removeEntry_keeps (x : Place) : Keeps true (removeEntry x) (World.OnlyAt x.path w) := by
  have hdelete : Keeps true (delete x) (World.OnlyAt x.path w) :=
    (keeps_isOwnDir x).bind fun _ => rmdir_keeps.ite unlink_keeps
  refine hdelete.bind fun _ => ?_
  exact (keeps_pure _).ite ((keeps_isTaken x).bind fun _ => keeps_pure _)

theorem remove_keeps (p : EntryPath) : Keeps true (remove p) (World.OnlyAt p w) := by
  refine (keeps_isOwnDir _).bind fun _ => Keeps.ite ((keeps_opendir p).bind fun places => ?_)
    (keeps_pure _)
  cases places with
  | none => exact keeps_pure _
  | some places =>
      refine Keeps.bind (Keeps.allM (fun inner => removeEntry_keeps ⟨p, inner⟩) places) fun _ => ?_
      refine Keeps.ite ((rmdir_keeps (x := p.place)).bind fun _ => ?_) (keeps_pure _)
      exact (keeps_pure _).ite ((keeps_isDir _).bind fun _ => keeps_pure _)

/-! ### Recovery -/

/-- A target holds what it ought to. -/
def Settled (start : EntryPath → Option Entry) (d n : Str) (w : World) : Prop :=
  w.get ⟨d, n⟩ = held start w ⟨d, n⟩

theorem Mends.settled {n : Str} (h : Mends start d w w') (hn : IsTargetName n)
    (hw : Settled start d n w) : Settled start d n w' := by
  have hheld : held start w' ⟨d, n⟩ = held start w ⟨d, n⟩ := held_of_swappedIn (h.swappedIn n hn)
  rcases h.get n hn with hsame | ⟨_, hget⟩
  · exact hsame.trans (hw.trans hheld.symm)
  · exact hget.trans hheld.symm

/-- What a recovery leaves, wherever it ends. -/
def Recovering (start : EntryPath → Option Entry) (d : Str) (w w' : World) : Prop :=
  Sound start d w' ∧ Mends start d w w'

theorem rename_ensures {I : World → Prop} {Q : Bool → World → Prop} {source target : EntryPath}
    (hstop : I w) (hfail : Q false w)
    (hdone : ∀ e, w.get source = some e → Q true (w.moved source target e)) :
    Ensures true (rename source target) I Q w := by
  refine ensures_operation hstop hfail ?_
  rcases World.rename_cases w source target with hfalse | ⟨e, hget, _, htrue⟩
  · rw [hfalse]
    exact hfail
  · rw [htrue]
    exact hdone e hget

theorem recoverBackup_ensures (hw : Sound start d w) {n : Str} (hne : n ≠ []) :
    Ensures true (recoverBackup (backupPath ⟨d, n⟩) ⟨d, n⟩) (Recovering start d w)
      (fun ok w' => Recovering start d w w' ∧
        (ok = true → IsTargetName n → Settled start d n w')) w := by
  have hkeep : Recovering start d w w := ⟨hw, Mends.refl w⟩
  refine ensures_bind (ensures_isOwnDir (fun items hbackup => ?_) fun hnodir => ?_)
  · have hn : IsTargetName n := by
      by_contra hn
      exact absurd hbackup (hw.others n hne hn items)
    refine ensures_bind (ensures_isTaken (fun e hget => ?_) fun hnone => ?_)
    · have hservice : w.get ⟨d, n⟩ ≠ none := by
        rw [hget]
        exact nofun
      have hremoved : ∀ w', World.OnlyAt (backupPath ⟨d, n⟩) w w' → Recovering start d w w' :=
        fun w' h => ⟨hw.of_backup hn hservice h, Mends.of_backup h⟩
      refine ensures_bind (ensures_isOwnDir (fun _ _ => ?_) fun _ => ensures_pure ⟨hkeep, nofun⟩)
      refine (remove_keeps _ w (World.OnlyAt.refl _ w)).mono hremoved fun ok w' h => ?_
      exact ⟨hremoved w' h, fun _ hn => (Mends.of_backup h).settled hn
        (hget.trans (hw.get_of_some hn hget).symm)⟩
    · refine rename_ensures hkeep ⟨hkeep, nofun⟩ fun e he => ?_
      obtain rfl : KeyTree.node items = e := Option.some.inj (hbackup.symm.trans he)
      obtain ⟨hsound, hmends⟩ := hw.restored hn hnone hbackup
      refine ⟨⟨hsound, hmends⟩, fun _ _ => ?_⟩
      refine ((World.get_moved _ _ _ _ _).trans (if_pos rfl)).trans ?_
      rw [held_of_swappedIn (hmends.swappedIn n hn)]
      exact (hw.held_of_backup hn hnone hbackup).symm
  · refine ensures_pure ⟨hkeep, fun _ hn => ?_⟩
    exact hw.get_of_no_backup hn hnodir

theorem recoverEntry_ensures (hw : Sound start d w) (entry : Str) :
    Ensures true (recoverEntry d entry) (Recovering start d w)
      (fun ok w' => Recovering start d w w' ∧
        (ok = true → ∀ n, IsTargetName n → backupStem ++ n = entry → Settled start d n w')) w := by
  have hkeep : Recovering start d w w := ⟨hw, Mends.refl w⟩
  unfold recoverEntry
  split
  next hskip =>
    refine ensures_pure ⟨hkeep, fun _ n _ heq => ?_⟩
    have hstem : startsWith backupStem entry = true := heq ▸ startsWith_append backupStem n
    rcases hskip with rfl | rfl | hfalse
    · exact absurd hstem (by decide)
    · exact absurd hstem (by decide)
    · rw [hstem] at hfalse
      exact absurd hfalse nofun
  next hstem =>
    have hstarts : startsWith backupStem entry = true := by
      simpa using fun h => hstem (.inr (.inr h))
    obtain ⟨n, rfl⟩ := List.isPrefixOf_iff_prefix.mp hstarts
    rw [List.drop_left]
    split
    next hnil =>
      refine ensures_pure ⟨hkeep, fun _ m hm heq => absurd ?_ hm.ne_nil⟩
      exact (List.append_cancel_left heq).trans hnil
    next hne =>
      refine (recoverBackup_ensures hw hne).mono (fun _ h => h) fun ok w' h => ⟨h.1, ?_⟩
      intro hok m hm heq
      rw [List.append_cancel_left heq] at hm ⊢
      exact h.2 hok hm

/-- A recovery keeps the state sound wherever it ends, and one that succeeds settles every
target. -/
theorem recover_ensures (hw : Sound start d w) :
    Ensures true (recover d) (Recovering start d w)
      (fun ok w' => Recovering start d w w' ∧
        (ok = true → ∀ n, IsTargetName n → Settled start d n w')) w := by
  have hkeep : Recovering start d w w := ⟨hw, Mends.refl w⟩
  refine ensures_bind (ensures_operation hkeep ?_ ?_)
  · exact ensures_pure ⟨hkeep, nofun⟩
  · refine (ensures_foldlM (L := fun success rest w' => Recovering start d w w' ∧
      (success = true → ∀ n, IsTargetName n → backupStem ++ n ∈ rest ∨ Settled start d n w'))
      ?_ ⟨hkeep, ?_⟩).mono (fun _ h => h) fun ok w' h => ⟨h.1, fun hok n hn => ?_⟩
    · rintro success entry rest w₁ ⟨⟨hsound, hmends⟩, hrest⟩
      refine ensures_bind ((recoverEntry_ensures hsound entry).mono (fun w₂ h => ?_) ?_)
      · exact ⟨h.1, hmends.trans h.2⟩
      · rintro ok w₂ ⟨⟨hsound', hmends'⟩, hsettled⟩
        refine ensures_pure ⟨⟨hsound', hmends.trans hmends'⟩, fun hboth n hn => ?_⟩
        obtain ⟨hsuccess, hok⟩ := Bool.and_eq_true_iff.mp hboth
        rcases hrest hsuccess n hn with hmem | hdone
        · rcases List.mem_cons.mp hmem with heq | hmem
          · exact .inr (hsettled hok n hn heq)
          · exact .inl hmem
        · exact .inr (hmends'.settled hn hdone)
    · intro _ n hn
      by_cases hbackup : w.get (backupPath ⟨d, n⟩) = none
      · exact .inr (hw.get_of_no_backup hn fun _ => by simp [hbackup])
      · exact .inl (List.mem_cons_of_mem _ (List.mem_cons_of_mem _ (World.mem_names.mpr hbackup)))
    · exact (h.2 hok n hn).resolve_left List.not_mem_nil

/-! ### Publication -/

/-- What a call leaves, wherever it ends: a sound state, at most one swap, of the whole of what a
successful extraction left, and without one nothing but what a recovery does. -/
structure Called (start : EntryPath → Option Entry) (d : Str) (c : Publication) (w w' : World) :
    Prop where
  sound : Sound start d w'
  swappedIn : ∀ m, IsTargetName m → swappedIn w' ⟨d, m⟩ = swappedIn w ⟨d, m⟩ ∨
    (⟨d, m⟩ = c.target ∧ Publication.succeeded c.code = true ∧
      ∃ e, c.extracted = some e ∧ swappedIn w' ⟨d, m⟩ = e :: swappedIn w ⟨d, m⟩)
  failed : Publication.succeeded c.code = false → Mends start d w w'

variable {c : Publication} {n : Str}

theorem Called.of_recovering (h : Recovering start d w w') : Called start d c w w' :=
  ⟨h.1, fun m hm => .inl (h.2.swappedIn m hm), fun _ => h.2⟩

theorem Called.of_staging {w'' : World} (h : Called start d c w w')
    (hstaging : World.OnlyAt c.staged w' w'') : Called start d c w w'' := by
  have hsame : ∀ t, StageRecovery.swappedIn w'' t = StageRecovery.swappedIn w' t :=
    swappedIn_of_renames hstaging.renames
  refine ⟨h.sound.of_staging hstaging, fun m hm => ?_, fun hfailed => ?_⟩
  · rw [hsame]
    exact h.swappedIn m hm
  · exact (h.failed hfailed).trans (Mends.of_staging hstaging)

theorem discard_keeps : Keeps true c.discard (Called start d c w) :=
  Keeps.bind (keeps_operation fun w' h => h.of_staging ((World.OnlyAt.refl _ w').put _))
    fun _ => keeps_pure false

theorem discardUnprepared_keeps : Keeps true c.discardUnprepared (Called start d c w) :=
  (keeps_isDir _).bind fun _ => discard_keeps.ite
    (Keeps.bind (keeps_operation fun w' h => h.of_staging ((World.OnlyAt.refl _ w').put _))
      fun _ => keeps_pure false)

theorem prepare_keeps : Keeps true c.prepare (World.OnlyAt c.staged w) :=
  Keeps.bind (unlink_keeps (x := c.staged.place)) fun _ =>
    Keeps.ite (mkdir_keeps.bind fun _ => (keeps_chmod _).ite (keeps_pure _)) (keeps_pure _)

/-- The state from a successful extraction to the swap. -/
structure Ready (start : EntryPath → Option Entry) (d : Str) (c : Publication) (w w' : World) :
    Prop where
  sound : Sound start d w'
  swappedIn : ∀ m, IsTargetName m → swappedIn w' ⟨d, m⟩ = swappedIn w ⟨d, m⟩
  staged : w'.get c.staged = c.extracted

theorem Ready.called (h : Ready start d c w w') (hcode : Publication.succeeded c.code = true) :
    Called start d c w w' :=
  ⟨h.sound, fun m hm => .inl (h.swappedIn m hm), fun hfailed => by
    rw [hcode] at hfailed
    exact absurd hfailed nofun⟩

theorem ensures_isForeign {I : World → Prop} {Q : Bool → World → Prop} {p : EntryPath}
    (hforeign : Q true w) (hown : (∀ a, w.get p ≠ some (.leaf a)) → Q false w) :
    Ensures true (Publication.isForeign p.place) I Q w := by
  refine ensures_bind (ensures_test ?_ nofun)
  rw [find_place]
  cases hget : w.get p with
  | none =>
      refine ensures_bind (ensures_test ?_ nofun)
      rw [find_place, hget]
      exact ensures_pure (hown fun a => by simp [hget])
  | some e =>
      cases e with
      | node items =>
          refine ensures_bind (ensures_test ?_ nofun)
          rw [find_place, hget]
          refine ensures_bind (ensures_test (ensures_pure ?_) nofun)
          rw [find_place, hget]
          exact hown fun a => by simp [hget]
      | leaf a =>
          cases a with
          | link leadsTo => exact ensures_pure hforeign
          | file content =>
              refine ensures_bind (ensures_test ?_ nofun)
              rw [find_place, hget]
              refine ensures_bind (ensures_test (ensures_pure ?_) nofun)
              rw [find_place, hget]
              exact hforeign

theorem moveAside_ensures (hready : Ready start d c w w') (hn : IsTargetName n)
    (hcode : Publication.succeeded c.code = true) (hown : ∀ a, w'.get ⟨d, n⟩ ≠ some (.leaf a)) :
    Ensures true (Publication.moveAside ⟨d, n⟩) (Called start d c w)
      (fun aside w'' => Called start d c w w'' ∧ (aside.1 = true → Ready start d c w w'')) w' := by
  have hcalled : Called start d c w w' := hready.called hcode
  refine ensures_bind (ensures_test ?_ nofun)
  rw [find_place]
  cases hget : w'.get ⟨d, n⟩ with
  | none => exact ensures_pure ⟨hcalled, fun _ => hready⟩
  | some e =>
      cases e with
      | leaf a => exact absurd hget (hown a)
      | node items =>
          refine ensures_bind (ensures_isTaken (fun _ _ => ?_) fun _ => ?_)
          · exact ensures_pure ⟨hcalled, nofun⟩
          · refine ensures_bind (rename_ensures hcalled ?_ fun e he => ensures_pure ?_)
            · exact ensures_pure ⟨hcalled, nofun⟩
            · obtain rfl : KeyTree.node items = e := Option.some.inj (hget.symm.trans he)
              have haside : Ready start d c w
                  (w'.moved ⟨d, n⟩ (backupPath ⟨d, n⟩) (.node items)) := by
                refine ⟨hready.sound.moved_aside hn hget, fun m hm => ?_, ?_⟩
                · rw [swappedIn_moved_of_ne (fun heq => absurd heq (backupPath_ne hm _ d))]
                  exact hready.swappedIn m hm
                · exact (get_moved_of_ne (staging_ne hn _ _ _).symm
                    (staging_ne_backupPath _ _ _).symm _).trans hready.staged
              exact ⟨haside.called hcode, fun _ => haside⟩

theorem swap_ensures (hready : Ready start d c w w') (hn : IsTargetName n)
    (hc : c.target = ⟨d, n⟩) (hcode : Publication.succeeded c.code = true) (hadTarget : Bool) :
    Ensures true (c.swap hadTarget) (Called start d c w) (fun _ => Called start d c w) w' := by
  have hcalled : Called start d c w w' := hready.called hcode
  unfold Publication.swap
  rw [hc]
  refine ensures_bind (rename_ensures hcalled ?_ fun e he => ?_)
  · refine ensures_ite nofun fun _ => ensures_ite (fun _ => ?_) fun _ => discard_keeps w' hcalled
    have hkept : ∀ w'', Recovering start d w' w'' → Called start d c w w'' := by
      rintro w'' ⟨hsound, hmends⟩
      refine ⟨hsound, fun m hm => .inl ?_, fun hfailed => ?_⟩
      · exact (hmends.swappedIn m hm).trans (hready.swappedIn m hm)
      · rw [hcode] at hfailed
        exact absurd hfailed nofun
    refine ensures_bind ((recover_ensures hready.sound).mono hkept fun _ w'' h => ?_)
    exact discard_keeps w'' (hkept w'' h.1)
  · have hextracted : c.extracted = some e := hready.staged.symm.trans he
    have hsound : Sound start d (w'.moved c.staged ⟨d, n⟩ e) := hready.sound.swapped_in hn
    have hswapped : Called start d c w (w'.moved c.staged ⟨d, n⟩ e) := by
      refine ⟨hsound, fun m hm => ?_, fun hfailed => ?_⟩
      · by_cases hmn : m = n
        · subst hmn
          refine .inr ⟨hc.symm, hcode, e, hextracted, ?_⟩
          rw [← hready.swappedIn m hm]
          exact swappedIn_moved_self (staging_ne_backupPath _ _ _) e
        · rw [swappedIn_moved_of_ne fun heq => absurd (EntryPath.mk.inj heq).2.symm hmn]
          exact .inl (hready.swappedIn m hm)
      · rw [hcode] at hfailed
        exact absurd hfailed nofun
    have hservice : (w'.moved c.staged ⟨d, n⟩ e).get ⟨d, n⟩ ≠ none := by
      rw [World.get_moved, if_pos rfl]
      exact nofun
    have hremoved : ∀ w'', World.OnlyAt (backupPath ⟨d, n⟩) (w'.moved c.staged ⟨d, n⟩ e) w'' →
        Called start d c w w'' := by
      intro w'' h
      refine ⟨hsound.of_backup hn hservice h, fun m hm => ?_, fun hfailed => ?_⟩
      · rw [swappedIn_of_renames h.renames]
        exact hswapped.swappedIn m hm
      · rw [hcode] at hfailed
        exact absurd hfailed nofun
    refine ensures_ite (fun _ => ensures_ite (fun _ => ?_) fun _ => ensures_pure hswapped) nofun
    exact (remove_keeps _ _ (World.OnlyAt.refl _ _)).mono hremoved fun _ => hremoved

theorem publishStaged_ensures (h : Recovering start d w w') (hn : IsTargetName n)
    (hc : c.target = ⟨d, n⟩) :
    Ensures true c.publishStaged (Called start d c w) (fun _ => Called start d c w) w' := by
  have hcalled : Called start d c w w' := .of_recovering h
  have hextracted : Called start d c w (w'.put c.staged c.extracted) :=
    hcalled.of_staging ((World.OnlyAt.refl _ w').put _)
  refine ensures_bind (ensures_operation hcalled (discard_keeps w' hcalled) ?_)
  refine ensures_ite (fun hcode => ?_) fun _ => discard_keeps _ hextracted
  have hready : Ready start d c w (w'.put c.staged c.extracted) := by
    refine ⟨hextracted.sound, fun m hm => ?_, ?_⟩
    · rw [swappedIn_of_renames (World.renames_put _ _ _)]
      exact h.2.swappedIn m hm
    · rw [World.get_put, if_pos rfl]
  rw [hc]
  refine ensures_bind (ensures_isForeign ?_ fun hown => ?_)
  · exact discard_keeps _ hextracted
  · refine ensures_bind ((moveAside_ensures hready hn hcode hown).mono (fun _ hw => hw) ?_)
    intro aside w'' hw''
    exact ensures_ite (fun hgo => swap_ensures (hw''.2 hgo) hn hc hcode _)
      fun _ => discard_keeps w'' hw''.1

/-- A call, wherever its process ends. -/
theorem publish_ensures (hw : Sound start d w) (hn : IsTargetName n) (hc : c.target = ⟨d, n⟩) :
    Ensures true c.publish (Called start d c w) (fun _ => Called start d c w) w := by
  unfold Publication.publish
  rw [hc]
  refine ensures_bind ((recover_ensures hw).mono (fun _ => .of_recovering) ?_)
  rintro ok w₁ ⟨hrecovering, _⟩
  have hcalled : Called start d c w w₁ := .of_recovering hrecovering
  have hstaging : ∀ w₂, World.OnlyAt c.staged w₁ w₂ → Recovering start d w w₂ := fun w₂ h =>
    ⟨hrecovering.1.of_staging h, hrecovering.2.trans (Mends.of_staging h)⟩
  refine ensures_ite (fun _ => ?_) fun _ => ensures_pure hcalled
  refine ensures_bind ((tempnam_keeps w₁ (World.OnlyAt.refl _ _)).mono
    (fun w₂ h => .of_recovering (hstaging w₂ h)) fun made w₂ hmade => ?_)
  cases made with
  | none => exact ensures_pure (.of_recovering (hstaging w₂ hmade))
  | some _ =>
      refine ensures_bind ((prepare_keeps w₂ hmade).mono
        (fun w₃ h => .of_recovering (hstaging w₃ h)) fun prepared w₃ hprepared => ?_)
      exact ensures_ite (fun _ => publishStaged_ensures (hstaging w₃ hprepared) hn hc)
        fun _ => discardUnprepared_keeps w₃ (.of_recovering (hstaging w₃ hprepared))

end Steps

/-! ### Sequences of calls -/

/-- A call on a target of the directory, in a process whose tests are true to the state. -/
def CalledOn (d : Str) : Call → Prop
  | .publish c s => c.target.directory = d ∧ IsTargetName c.target.name ∧ s.Truthful
  | .recover directory s => directory = d ∧ s.Truthful

/-- What a successful extraction of one of the calls left for a target. -/
def Extracted (calls : List Call) (t : EntryPath) (e : Entry) : Prop :=
  ∃ c s, Call.publish c s ∈ calls ∧ c.target = t ∧ Publication.succeeded c.code = true ∧
    c.extracted = some e

/-- The state of a directory in which calls were made: sound, and with nothing swapped in but
whole extractions. -/
structure Served (start : EntryPath → Option Entry) (d : Str) (calls : List Call) (w : World) :
    Prop where
  sound : Sound start d w
  swappedIn : ∀ n, IsTargetName n → ∀ e ∈ swappedIn w ⟨d, n⟩, Extracted calls ⟨d, n⟩ e

variable {start : EntryPath → Option Entry} {d : Str} {w : World} {calls : List Call}

theorem publish_after {c : Publication} {s : Script} (hw : Sound start d w)
    (hcall : CalledOn d (.publish c s)) :
    Called start d c w ((Call.publish c s).after w) := by
  obtain ⟨hdirectory, hname, hs⟩ := hcall
  have hc : c.target = ⟨d, c.target.name⟩ := by
    rw [← hdirectory]
  exact (publish_ensures hw hname hc).state fun _ => hs

theorem recover_after {s : Script} (hw : Sound start d w) (hs : s.Truthful) :
    Recovering start d w (recover d s w).state :=
  ((recover_ensures hw).mono (fun _ h => h) fun _ _ h => h.1).state fun _ => hs

theorem Served.after {call : Call} (h : Served start d calls w) (hcall : CalledOn d call) :
    Served start d (calls ++ [call]) (call.after w) := by
  have hextracted : ∀ t e, Extracted calls t e → Extracted (calls ++ [call]) t e := by
    rintro t e ⟨c, s, hmem, hrest⟩
    exact ⟨c, s, List.mem_append_left _ hmem, hrest⟩
  cases call with
  | recover directory s =>
      obtain ⟨rfl, hs⟩ := hcall
      obtain ⟨hsound, hmends⟩ := recover_after h.sound hs
      refine ⟨hsound, fun n hn e he => hextracted _ _ (h.swappedIn n hn e ?_)⟩
      rwa [← hmends.swappedIn n hn]
  | publish c s =>
      have hcalled := publish_after h.sound hcall
      refine ⟨hcalled.sound, fun n hn e he => ?_⟩
      rcases hcalled.swappedIn n hn with hsame | ⟨htarget, hcode, e', he', hswapped⟩
      · exact hextracted _ _ (h.swappedIn n hn e (hsame ▸ he))
      · rw [hswapped] at he
        rcases List.mem_cons.mp he with rfl | hbefore
        · exact ⟨c, s, List.mem_append_right _ (List.mem_singleton_self _), htarget.symm, hcode,
            he'⟩
        · exact hextracted _ _ (h.swappedIn n hn e hbefore)

theorem Served.afterAll {later : List Call} (h : Served start d calls w)
    (hlater : ∀ call ∈ later, CalledOn d call) :
    Served start d (calls ++ later) (StagePublish.afterAll w later) := by
  induction later generalizing calls w with
  | nil => rwa [List.append_nil]
  | cons call later ih =>
      rw [List.append_cons]
      exact ih (h.after (hlater call List.mem_cons_self))
        fun call' hmem => hlater call' (List.mem_cons_of_mem _ hmem)

/-- No directory stands where the backup of what is no target would stand. -/
def Clean (d : Str) (w : World) : Prop :=
  w.renames = [] ∧ ∀ n, n ≠ [] → ¬ IsTargetName n → NoDirectory (w.get (backupPath ⟨d, n⟩))

/-- What a target is due at the start: what it holds, or a directory that is moved aside. -/
def due (w : World) (t : EntryPath) : Option Entry :=
  match w.get t, w.get (backupPath t) with
  | some e, _ => some e
  | none, some (.node items) => some (.node items)
  | none, _ => none

theorem kept_due (w : World) (t : EntryPath) :
    Kept (w.get t) (w.get (backupPath t)) (due w t) := by
  unfold due
  cases w.get t with
  | some e => exact .inl ⟨rfl, nofun⟩
  | none =>
      cases w.get (backupPath t) with
      | none => exact .inl ⟨rfl, fun _ => nofun⟩
      | some e =>
          cases e with
          | leaf a => exact .inl ⟨rfl, fun _ _ => by simp⟩
          | node items => exact .inr ⟨rfl, rfl, items, rfl⟩

theorem Clean.served (h : Clean d w) : Served (due w) d [] w := by
  have hnone : ∀ t, StageRecovery.swappedIn w t = [] := by
    intro t
    rw [StageRecovery.swappedIn, h.1]
    rfl
  refine ⟨⟨fun n _ => ?_, h.2⟩, fun n _ e he => ?_⟩
  · rw [held, hnone]
    exact kept_due w ⟨d, n⟩
  · rw [hnone] at he
    exact absurd he List.not_mem_nil

/-- After any calls, wherever each failed or was stopped, a recovery that succeeds leaves in every
target the whole of what was swapped in there last, and a call whose extraction fails changes its
target only to put back what was moved aside. -/
theorem publication_survives (d : Str) (w : World) (calls : List Call) (hclean : Clean d w)
    (hcalls : ∀ call ∈ calls, CalledOn d call) :
    (∀ s : Script, s.Truthful → (recover d s (afterAll w calls)).answer = some true →
      ∀ n, IsTargetName n →
        (recover d s (afterAll w calls)).state.get ⟨d, n⟩ =
            held (due w) (recover d s (afterAll w calls)).state ⟨d, n⟩ ∧
          ∀ e ∈ swappedIn (recover d s (afterAll w calls)).state ⟨d, n⟩,
            Extracted calls ⟨d, n⟩ e) ∧
      ∀ c s, CalledOn d (.publish c s) → Publication.succeeded c.code = false →
        ((Call.publish c s).after (afterAll w calls)).get c.target =
            (afterAll w calls).get c.target ∨
          ((afterAll w calls).get c.target = none ∧
            ((Call.publish c s).after (afterAll w calls)).get c.target =
              held (due w) (afterAll w calls) c.target) := by
  have hserved : Served (due w) d calls (afterAll w calls) := hclean.served.afterAll hcalls
  constructor
  · intro s hs hanswer n hn
    obtain ⟨⟨_, hmends⟩, hsettled⟩ := (recover_ensures hserved.sound).of_answer (fun _ => hs)
      hanswer
    refine ⟨hsettled rfl n hn, fun e he => hserved.swappedIn n hn e ?_⟩
    rwa [← hmends.swappedIn n hn]
  · rintro c s ⟨hdirectory, hname, hs⟩ hcode
    have hc : c.target = ⟨d, c.target.name⟩ := by
      rw [← hdirectory]
    have hmends := (publish_after hserved.sound ⟨hdirectory, hname, hs⟩).failed hcode
    rw [hc]
    exact hmends.get c.target.name hname

/-- The categories of a list before and after an update. -/
def lastGood : Entry := .node [("cat_ads".toList, .leaf (.file "last-good".toList))]

def fresh : Entry := .node [("cat_news".toList, .leaf (.file "fresh".toList))]

def feeds : Str := "feeds".toList

def category : EntryPath := ⟨feeds, "category".toList⟩

/-- A directory in which one category is published. -/
def published : World := ⟨⟨[(category, lastGood)], by decide⟩, []⟩

def update (target : EntryPath) (code : Int) : Publication :=
  ⟨target, feeds, "x".toList, some fresh, code, none⟩

/-- A process that stops before its operation of this number. -/
def stoppedAt (n : Nat) : Script := ⟨List.replicate n .done ++ [.stops], []⟩

theorem clean_published : Clean feeds published := by
  refine ⟨rfl, fun n _ _ items hget => ?_⟩
  have hmem := ((published.entries).get_eq_some_iff _ _).mp hget
  exact backupPath_ne ⟨by decide, by decide, by decide⟩ _ _
    (Prod.mk.inj (List.mem_singleton.mp hmem)).1

/-- The process stops between the two renames; the recovery that follows puts the backup back. -/
theorem publication_survives_stop :
    (recover feeds Script.quiet
      (afterAll published [.publish (update category 0) (stoppedAt 7)])).state.get category =
        some lastGood := by
  have hname : IsTargetName category.name := ⟨by decide, by decide, by decide⟩
  have hcalls : ∀ call ∈ [Call.publish (update category 0) (stoppedAt 7)], CalledOn feeds call := by
    rintro call hcall
    obtain rfl := List.mem_singleton.mp hcall
    exact ⟨rfl, hname, by decide⟩
  exact ((publication_survives feeds published _ clean_published hcalls).1 Script.quiet
    (by decide) (by decide) category.name hname).1.trans (by decide)

/-- A target that is named as a staging directory. -/
def stagingNamed : EntryPath := ⟨feeds, stagingStem ++ "x".toList⟩

/-- A failed call for that target, and one for the category that stops with its staging directory
filled. -/
def stagedOnTarget : List Call :=
  [.publish ⟨stagingNamed, feeds, "y".toList, some fresh, 1, none⟩ Script.quiet,
    .publish (update category 0) (stoppedAt 6)]

/-- A target may be named as another's backup, and is then removed, or as a staging directory, and
then holds what was never published there; a recovery whose test for a directory fails answers
success and leaves the target missing; a failed extraction may follow a recovery that changed its
target. -/
theorem publication_lost :
    (recover feeds Script.quiet
        (afterAll published [.publish (update (backupPath category) 0) Script.quiet])).answer =
          some true ∧
      swappedIn (afterAll published [.publish (update (backupPath category) 0) Script.quiet])
        (backupPath category) = [fresh] ∧
      (recover feeds Script.quiet
        (afterAll published [.publish (update (backupPath category) 0) Script.quiet])).state.get
          (backupPath category) = none ∧
      (recover feeds Script.quiet (afterAll published stagedOnTarget)).answer = some true ∧
      swappedIn (afterAll published stagedOnTarget) stagingNamed = [] ∧
      published.get stagingNamed = none ∧
      (recover feeds Script.quiet (afterAll published stagedOnTarget)).state.get stagingNamed =
        some fresh ∧
      (recover feeds ⟨[], [true]⟩
        (afterAll published [.publish (update category 0) (stoppedAt 7)])).answer = some true ∧
      (recover feeds ⟨[], [true]⟩
        (afterAll published [.publish (update category 0) (stoppedAt 7)])).state.get category =
          none ∧
      (afterAll published [.publish (update category 0) (stoppedAt 7)]).get category = none ∧
      (afterAll published [.publish (update category 0) (stoppedAt 7),
        .publish (update category 1) Script.quiet]).get category = some lastGood := by
  decide

end PfBlockerNG.StageRecovery
