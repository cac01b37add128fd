import Mathlib.Data.List.Perm.Basic
import PfBlockerNG.ScheduleModel

/-!
The schedule model is exact: one entry for each active row, accepted by the validator, with a hash
that sees what the planner uses and nothing else.
-/

namespace PfBlockerNG.ScheduleModelExact

open PfBlockerNG.Strings
open PfBlockerNG.OrderedDict
open PfBlockerNG.KeyedTree
open PfBlockerNG.PhpArray
open PfBlockerNG.Schedule
open PfBlockerNG.ScheduleState
open PfBlockerNG.ScheduleTick
open PfBlockerNG.ScheduleModel

/-! ### Feeds and rows -/

theorem readCadence_eq_some_iff (s : Str) (c : Cadence) :
    readCadence s = some c ↔ s = cadenceName c := by
  have hnodup : (cadences.map Prod.fst).Nodup := by decide
  have hnames : ∀ p ∈ cadences, p.1 = cadenceName p.2 := by decide
  have hall : (cadenceName c, c) ∈ cadences := by cases c <;> decide
  rw [readCadence, lookup_eq_some_iff hnodup]
  exact ⟨fun h => hnames _ h, fun h => h ▸ hall⟩

/-- A row with its family and its group. -/
structure FeedRow where
  family : Family
  group : Pairs
  row : Pairs

/-- The rows of a group that name a source and are not disabled. -/
def activeRowsOf (family : Family) (group : Str × Value) : List FeedRow :=
  let items := (array group.2).getD []
  ((array (valueOf kRow items)).getD []).filterMap fun row =>
    ((array row.2).filter activeRow).map fun row => ⟨family, items, row⟩

/-- The rows that name a source and are not disabled, of all groups. -/
def activeRows (sections : Pairs) : List FeedRow :=
  families.flatMap fun family =>
    ((array (valueOf family.name sections)).getD []).flatMap (activeRowsOf family)

/-- The entry of a row. -/
structure FeedOf (scheduled : Bool) (r : FeedRow) (p : Str × Entry) : Prop where
  id : ∃ header, valueOf kHeader r.row = text header ∧ p.1 = feedId r.family header
  cadence : valueOf kCron r.group = text (cadenceName p.2.cadence)
  enabled : p.2.enabled = (scheduled && groupActionValid (valueOf kAction r.group) r.family &&
    string (valueOf kAction r.group) != some disabled && p.2.cadence != .never)
  override : readOverride r.group = .ok p.2.override

theorem forall₂_flatMap {α β γ : Type} {R : β → γ → Prop} {f : α → List β} {g : α → List γ}
    {xs : List α} (h : ∀ x ∈ xs, List.Forall₂ R (f x) (g x)) :
    List.Forall₂ R (xs.flatMap f) (xs.flatMap g) := by
  induction xs with
  | nil => exact List.Forall₂.nil
  | cons x xs ih =>
      obtain ⟨hx, hxs⟩ := List.forall_mem_cons.mp h
      rw [List.flatMap_cons, List.flatMap_cons]
      exact List.rel_append hx (ih hxs)

theorem eq_text_of_string {v : Value} {s : Str} (h : string v = some s) : v = text s := by
  cases v with
  | node items => cases h
  | leaf a =>
      cases a with
      | str s' => exact congrArg text (Option.some.inj h)
      | null | bool _ | int _ | float _ => cases h

/-- What the checks of a group read. -/
theorem readGroup_ok {scheduled : Bool} {family : Family} {group : Value} {head : Head}
    (h : readGroup scheduled family group = .ok head) :
    ∃ items, group = .node items ∧ (array (valueOf kRow items)).getD [] = head.rows ∧
      ∀ row header id, valueOf kHeader row = text header → id = feedId family header →
        FeedOf scheduled ⟨family, items, row⟩ (id, head.entry) := by
  simp only [readGroup, need_bind_eq_ok, check_bind_eq_ok] at h
  obtain ⟨items, hitems, action, haction, cadence, hcadence, rows, hrows, -, h⟩ := h
  have hgroup : group = .node items := by
    cases group with
    | leaf a => cases hitems
    | node items' => rw [Option.some.inj hitems]
  have hrowsOf : (array (valueOf kRow items)).getD [] = rows := by
    unfold valueOf
    cases hrow : lookup kRow items with
    | none =>
        rw [hrow] at hrows
        exact Option.some.inj hrows
    | some v =>
        rw [hrow] at hrows
        rw [Option.getD_some] at hrows ⊢
        rw [hrows]
        rfl
  obtain ⟨word, hword, hread⟩ := Option.bind_eq_some_iff.mp hcadence
  cases hoverride : readOverride items with
  | error fault =>
      rw [hoverride] at h
      cases h
  | ok override =>
      rw [hoverride] at h
      obtain rfl := Except.ok.inj h
      refine ⟨items, hgroup, hrowsOf, fun row header id hheader hid => ?_⟩
      refine ⟨⟨header, hheader, hid⟩, ?_, ?_, hoverride⟩
      · rw [eq_text_of_string hword, (readCadence_eq_some_iff word cadence).mp hread]
      · dsimp only
        rw [haction]
        rfl

theorem activeRowsOf_node (family : Family) (key : Str) (items : Pairs) :
    activeRowsOf family (key, .node items) =
      ((array (valueOf kRow items)).getD []).flatMap fun row =>
        (((array row.2).filter activeRow).map fun row => ⟨family, items, row⟩).toList :=
  List.filterMap_eq_flatMap_toList _ _

theorem activeRowsOf_forall₂ {scheduled : Bool} {family : Family} {group : Str × Value}
    (h : GroupOk scheduled family group) :
    List.Forall₂ (FeedOf scheduled) (activeRowsOf family group)
      (groupFeeds scheduled family group) := by
  obtain ⟨head, hread, hrows⟩ := h
  obtain ⟨items, hgroup, hrowsOf, hfeed⟩ := readGroup_ok hread
  unfold groupFeeds
  rw [hread]
  obtain ⟨key, value⟩ := group
  dsimp only at hgroup
  rw [hgroup, activeRowsOf_node, hrowsOf]
  refine forall₂_flatMap fun row hrow => ?_
  obtain ⟨header, hheader⟩ := hrows row hrow
  obtain ⟨rowItems, hnode, hactive, hnone⟩ := readRow_ok hheader
  unfold rowFeed
  rw [hheader, hnode]
  cases hact : activeRow rowItems with
  | false =>
      rw [hnone hact]
      simp [array, Option.filter, hact]
  | true =>
      obtain ⟨s, rfl, hs, -, -⟩ := hactive hact
      simp only [array, Option.filter, hact, if_true, Option.map_some, Option.toList_some]
      exact List.Forall₂.cons (hfeed _ s _ hs rfl) List.Forall₂.nil

/-- The entries of the feeds are those of the active rows, one for each. -/
theorem activeRows_forall₂ {scheduled : Bool} {sections : Pairs}
    (h : ∀ family ∈ families, FamilyOk scheduled sections family) :
    List.Forall₂ (FeedOf scheduled) (activeRows sections) (allFeeds scheduled sections) := by
  refine forall₂_flatMap fun family hfamily => ?_
  obtain ⟨groups, hgroups, hok⟩ := h family hfamily
  unfold familyFeeds
  rw [hgroups]
  exact forall₂_flatMap fun group hgroup => activeRowsOf_forall₂ (hok group hgroup)

theorem feeds_of_isModel {hash : Value → Str} {switch : Str} {default : Slot} {scheduled : Bool}
    {sections : Pairs} {extra : List (Str × Entry)} (hextra : ExtraEntries extra)
    {model : RuntimeModel}
    (h : IsModel hash switch default (allFeeds scheduled sections ++ extra) model) :
    model.feeds = allFeeds scheduled sections := by
  rw [RuntimeModel.feeds, h.entries, List.filter_append,
    List.filter_eq_self.mpr fun p hp => by rw [(mem_allFeeds hp).2.1]; rfl,
    List.filter_eq_nil_iff.mpr fun p hp => by
      rw [(hextra.keys.2 p hp).2.1]
      exact Bool.false_ne_true,
    List.append_nil]

/-! ### The validator -/

/-- The digest of a model's projection. -/
def digestOf (hash : Value → Str) : Digest := fun scheduled default entries =>
  some (hash (projection scheduled default
    (entries.items.map fun p => (p.1, projectedImage p.2))))

theorem slotValid_slotImage (slot : Slot) : slotValid (slotImage slot) = true := by
  have hweekday : intWithin 1 7 (number slot.weekday) = true := by
    simpa [intWithin, number] using slot.weekday_range
  have hhour : intWithin 0 23 (number slot.hour) = true := by
    simpa [intWithin, number] using slot.hour_range
  have hminute : quarter (number slot.minute) = true :=
    List.contains_iff_mem.mpr slot.minute_quarter
  have hread : slotValid (slotImage slot) =
      (intWithin 1 7 (number slot.weekday) && intWithin 0 23 (number slot.hour) &&
        quarter (number slot.minute)) := rfl
  rw [hread, hweekday, hhour, hminute]
  rfl

theorem entryValid_entryImage (id : Str) (entry : Entry) :
    entryValid id (entryImage entry) = (validId id && entry.hasActiveRows) := by
  have hcadence : (readCadence (cadenceName entry.cadence)).isSome = true := by
    rw [(readCadence_eq_some_iff _ entry.cadence).mpr rfl]
    rfl
  have hread : ∃ override, override = true ∧ entryValid id (entryImage entry) =
      (validId id && true && true && (readCadence (cadenceName entry.cadence)).isSome && true &&
        some entry.hasActiveRows == some true && override) := by
    obtain ⟨cadence, hasActiveRows, bootstrap, override⟩ := entry
    cases override with
    | none => exact ⟨true, rfl, rfl⟩
    | some slot => exact ⟨_, slotValid_slotImage slot, rfl⟩
  obtain ⟨override, hoverride, hread⟩ := hread
  rw [hread, hcadence, hoverride]
  cases validId id <;> cases entry.hasActiveRows <;> rfl

/-- What the hash of a model is taken of. -/
def modelProjection (model : RuntimeModel) : Value :=
  projection model.scheduled model.default
    (model.entries.items.map fun p => (p.1, projectedImage p.2))

theorem hashProjection_modelPairs (model : RuntimeModel) :
    hashProjection (modelPairs model) = modelProjection model := by
  have hentries : (array (valueOf kEntries (modelPairs model))).getD [] =
      model.entries.items.map fun p => (p.1, entryImage p.2) := rfl
  unfold hashProjection
  rw [hentries, List.map_map]
  rfl

/-- On the array of a model the validator checks what the planner assumes. -/
theorem runtimeModelValid_modelImage (hash : Value → Str) (model : RuntimeModel) :
    runtimeModelValid hash (modelImage model) = modelValid (digestOf hash) model := by
  have hread : runtimeModelValid hash (modelImage model) =
      (true && true && isDigest model.configHash && true && slotValid (slotImage model.default) &&
        ((model.entries.items.map fun p => (p.1, entryImage p.2)).all fun p =>
          entryValid p.1 p.2) &&
        some model.configHash == some (hash (hashProjection (modelPairs model)))) := rfl
  have hentries : ((model.entries.items.map fun p => (p.1, entryImage p.2)).all fun p =>
      entryValid p.1 p.2) =
      model.entries.items.all fun p => validId p.1 && p.2.hasActiveRows := by
    rw [List.all_map]
    exact congrArg model.entries.items.all (funext fun p => entryValid_entryImage p.1 p.2)
  rw [hread, hentries, hashProjection_modelPairs, slotValid_slotImage]
  have hdigest : digestOf hash model.scheduled model.default model.entries =
      some (hash (modelProjection model)) := rfl
  unfold modelValid
  rw [hdigest, Bool.and_true, Bool.true_and, Bool.true_and, Bool.and_true]
  exact congrArg _ BEq.comm

theorem modelValid_of_isModel {hash : Value → Str} (hhash : ∀ v, isDigest (hash v) = true)
    {switch : Str} {default : Slot} {scheduled : Bool} {sections : Pairs}
    {extra : List (Str × Entry)} (hextra : ExtraEntries extra) {model : RuntimeModel}
    (h : IsModel hash switch default (allFeeds scheduled sections ++ extra) model) :
    modelValid (digestOf hash) model = true := by
  have hentries : model.entries.items.all (fun p => validId p.1 && p.2.hasActiveRows) = true := by
    refine List.all_eq_true.mpr fun p hp => Bool.and_eq_true_iff.mpr ?_
    rw [h.entries] at hp
    rcases List.mem_append.mp hp with hp | hp
    · obtain ⟨hid, -, hrows⟩ := mem_allFeeds hp
      exact ⟨hid, hrows⟩
    · obtain ⟨hid, -, hrows⟩ := hextra.keys.2 p hp
      exact ⟨hid, hrows⟩
  have hdigest : digestOf hash model.scheduled model.default model.entries =
      some model.configHash := by
    rw [h.configHash, digestOf, h.scheduled, h.default, h.entries]
  unfold modelValid
  rw [hentries, hdigest, h.configHash, hhash]
  exact beq_self_eq_true _

/-! ### The hash -/

theorem cadenceName_injective {c d : Cadence} (h : cadenceName c = cadenceName d) : c = d := by
  have hc := (readCadence_eq_some_iff (cadenceName c) c).mpr rfl
  rw [h, (readCadence_eq_some_iff (cadenceName d) d).mpr rfl] at hc
  exact (Option.some.inj hc).symm

theorem slotImage_injective {s t : Slot} (h : slotImage s = slotImage t) : s = t := by
  cases s
  cases t
  simp only [slotImage, number, KeyTree.node.injEq, List.cons.injEq, Prod.mk.injEq,
    KeyTree.leaf.injEq, Leaf.int.injEq, true_and, and_true] at h
  obtain ⟨rfl, rfl, rfl⟩ := h
  rfl

theorem overrideImage_injective {s t : Option Slot} (h : overrideImage s = overrideImage t) :
    s = t := by
  cases s with
  | none =>
      cases t with
      | none => rfl
      | some t => cases h
  | some s =>
      cases t with
      | none => cases h
      | some t => exact congrArg some (slotImage_injective h)

theorem projectedImage_eq_iff (e f : Entry) :
    projectedImage e = projectedImage f ↔ Entry.projected e = Entry.projected f := by
  simp only [projectedImage, Entry.projected, KeyTree.node.injEq, List.cons.injEq, Prod.mk.injEq,
    true_and, and_true, text, flag, KeyTree.leaf.injEq, Leaf.str.injEq, Leaf.bool.injEq]
  constructor
  · rintro ⟨hcadence, henabled, hoverride⟩
    exact ⟨cadenceName_injective hcadence, henabled, overrideImage_injective hoverride⟩
  · rintro ⟨hcadence, henabled, hoverride⟩
    rw [hcadence, henabled, hoverride]
    exact ⟨rfl, rfl, rfl⟩

/-- The two models schedule the same ids in the same way. -/
structure Agrees (model model' : RuntimeModel) : Prop where
  scheduled : model.scheduled = model'.scheduled
  default : model.default = model'.default
  entries : ∀ id, (model.entries.get id).map Entry.projected =
    (model'.entries.get id).map Entry.projected

theorem nodup_projected (model : RuntimeModel) :
    ((model.entries.items.map fun p => (p.1, projectedImage p.2)).map Prod.fst).Nodup := by
  rw [List.map_map]
  exact model.entries.nodup

theorem lookup_projected (model : RuntimeModel) (id : Str) :
    lookup id (model.entries.items.map fun p => (p.1, projectedImage p.2)) =
      (model.entries.get id).map projectedImage :=
  Dict.get_mapValues (fun _ => projectedImage) model.entries id

/-- The projection is the same exactly for models that agree. -/
theorem modelProjection_eq_iff (model model' : RuntimeModel) :
    modelProjection model = modelProjection model' ↔ Agrees model model' := by
  have hentries : ksort (model.entries.items.map fun p => (p.1, projectedImage p.2)) =
      ksort (model'.entries.items.map fun p => (p.1, projectedImage p.2)) ↔
      ∀ id, (model.entries.get id).map Entry.projected =
        (model'.entries.get id).map Entry.projected := by
    have hpoint : ∀ id, (model.entries.get id).map projectedImage =
        (model'.entries.get id).map projectedImage ↔
        (model.entries.get id).map Entry.projected =
          (model'.entries.get id).map Entry.projected := fun id => by
      cases model.entries.get id <;> cases model'.entries.get id <;>
        simp [projectedImage_eq_iff]
    constructor
    · intro h id
      refine (hpoint id).mp ?_
      have hperm := (ksort_perm (model.entries.items.map fun p => (p.1, projectedImage p.2))).symm
      rw [h] at hperm
      have hsame := hperm.trans (ksort_perm _)
      rw [← lookup_projected, ← lookup_projected]
      refine Option.ext fun v => ?_
      rw [lookup_eq_some_iff (nodup_projected model), lookup_eq_some_iff (nodup_projected model')]
      exact hsame.mem_iff
    · intro h
      refine ksort_eq_of_perm ?_ (nodup_projected model)
      refine (List.perm_ext_iff_of_nodup (List.Nodup.of_map _ (nodup_projected model))
        (List.Nodup.of_map _ (nodup_projected model'))).mpr fun p => ?_
      rw [← lookup_eq_some_iff (nodup_projected model),
        ← lookup_eq_some_iff (nodup_projected model'), lookup_projected, lookup_projected,
        (hpoint p.1).mpr (h p.1)]
  simp only [modelProjection, projection, KeyTree.node.injEq, List.cons.injEq, Prod.mk.injEq,
    true_and, and_true, flag, KeyTree.leaf.injEq, Leaf.bool.injEq, hentries]
  constructor
  · rintro ⟨hscheduled, hdefault, h⟩
    exact ⟨hscheduled, slotImage_injective hdefault, h⟩
  · rintro ⟨hscheduled, hdefault, h⟩
    exact ⟨hscheduled, congrArg slotImage hdefault, h⟩

theorem configHash_of_isModel {hash : Value → Str} {switch : Str} {default : Slot}
    {entries : List (Str × Entry)} {model : RuntimeModel}
    (h : IsModel hash switch default entries model) :
    model.configHash = hash (modelProjection model) := by
  rw [h.configHash, modelProjection, h.scheduled, h.default, h.entries]

/-! ### Reordered groups and rows -/

/-- The same group with its rows in another order. -/
def RowsReordered (group group' : Value) : Prop :=
  group = group' ∨ ∃ items items' rows rows', group = .node items ∧ group' = .node items' ∧
    lookup kRow items = some (.node rows) ∧ lookup kRow items' = some (.node rows') ∧
    (rows.map Prod.snd).Perm (rows'.map Prod.snd) ∧
    ∀ k, k ≠ kRow → lookup k items = lookup k items'

/-- The same groups, up to the order of their rows, in another order. -/
def GroupsReordered (groups groups' : Value) : Prop :=
  groups = groups' ∨ ∃ items items' mid, groups = .node items ∧ groups' = .node items' ∧
    List.Forall₂ RowsReordered (items.map Prod.snd) mid ∧ mid.Perm (items'.map Prod.snd)

/-- The same sections, up to the order of their groups and rows. -/
def Reordered (sections sections' : Pairs) : Prop :=
  List.Forall₂ (fun p p' => p.1 = p'.1 ∧ GroupsReordered p.2 p'.2) sections sections'

theorem readOverride_congr {items items' : Pairs}
    (h : ∀ k, k ≠ kRow → lookup k items = lookup k items') :
    readOverride items = readOverride items' := by
  have hkey : ∀ k, k ≠ kRow → valueOf k items = valueOf k items' := fun k hk => by
    rw [valueOf, valueOf, h k hk]
  unfold readOverride valueOr readSchedule
  rw [h _ (by decide), hkey kScheduleWeekday (by decide), hkey kScheduleHour (by decide),
    hkey kScheduleMinute (by decide)]

theorem flatMap_values {β : Type} {f : Str × Value → List β}
    (hf : ∀ k v, f (k, v) = f ([], v)) (items : Pairs) :
    items.flatMap f = (items.map Prod.snd).flatMap fun v => f ([], v) := by
  rw [List.flatMap_map]
  exact congrArg (items.flatMap ·) (funext fun p => hf p.1 p.2)

theorem groupOk_congr_rows {scheduled : Bool} {family : Family} {key key' : Str}
    {group group' : Value} (h : RowsReordered group group') :
    (GroupOk scheduled family (key, group) → GroupOk scheduled family (key', group')) ∧
      (groupFeeds scheduled family (key, group)).Perm
        (groupFeeds scheduled family (key', group')) := by
  rcases h with rfl | ⟨items, items', rows, rows', rfl, rfl, hrows, hrows', hperm, hkeys⟩
  · exact ⟨id, List.Perm.refl _⟩
  have hread : readGroup scheduled family (.node items') =
      (readGroup scheduled family (.node items)).map fun head => ⟨head.entry, rows'⟩ := by
    have hkey : ∀ k, k ≠ kRow → valueOf k items = valueOf k items' := fun k hk => by
      rw [valueOf, valueOf, hkeys k hk]
    unfold readGroup
    simp only [array, need, bind, Except.bind, hrows, hrows', Option.getD_some,
      hkey kAction (by decide), hkey kCron (by decide), hkeys kSrcint (by decide),
      readOverride_congr hkeys]
    cases string (valueOf kAction items') with
    | none => rfl
    | some action =>
        cases (string (valueOf kCron items')).bind readCadence with
        | none => rfl
        | some cadence =>
            dsimp only
            cases check GroupFault.srcint ((lookup kSrcint items').all isString) with
            | error fault => rfl
            | ok _ => cases readOverride items' <;> rfl
  have hsame : ∀ head, readGroup scheduled family (.node items) = .ok head →
      head.rows = rows := fun head hhead => by
    obtain ⟨items₀, hnode, hrowsOf, -⟩ := readGroup_ok hhead
    obtain rfl := KeyTree.node.inj hnode
    rw [← hrowsOf, valueOf_of_lookup hrows]
    rfl
  have hmem : ∀ value, value ∈ rows'.map Prod.snd → value ∈ rows.map Prod.snd := fun value =>
    hperm.mem_iff.mpr
  unfold GroupOk groupFeeds
  dsimp only
  rw [hread]
  cases hhead : readGroup scheduled family (.node items) with
  | error fault =>
      refine ⟨fun h => ?_, List.Perm.refl _⟩
      obtain ⟨head, h, -⟩ := h
      cases h
  | ok head =>
      have hheadRows := hsame head hhead
      refine ⟨fun h => ?_, ?_⟩
      · obtain ⟨head', h, hok⟩ := h
        obtain rfl := Except.ok.inj h
        refine ⟨_, rfl, fun row hrow => ?_⟩
        obtain ⟨row', hrow', heq⟩ := List.mem_map.mp (hmem _ (List.mem_map_of_mem hrow))
        obtain ⟨header, hheader⟩ := hok row' (hheadRows ▸ hrow')
        exact ⟨header, heq ▸ hheader⟩
      · change (head.rows.flatMap (rowFeed family head.entry)).Perm
          (rows'.flatMap (rowFeed family head.entry))
        rw [hheadRows, flatMap_values (fun _ _ => rfl) rows, flatMap_values (fun _ _ => rfl) rows']
        exact hperm.flatMap_right _

theorem groups_congr_rows (scheduled : Bool) (family : Family) {values mid : List Value}
    (h : List.Forall₂ RowsReordered values mid) :
    ((∀ v ∈ values, GroupOk scheduled family ([], v)) →
        ∀ v ∈ mid, GroupOk scheduled family ([], v)) ∧
      (values.flatMap fun v => groupFeeds scheduled family ([], v)).Perm
        (mid.flatMap fun v => groupFeeds scheduled family ([], v)) := by
  induction h with
  | nil => exact ⟨id, List.Perm.refl _⟩
  | cons hgroup _ ih =>
      obtain ⟨hok, hperm⟩ := groupOk_congr_rows hgroup
      constructor
      · intro hall
        obtain ⟨hfirst, hrest⟩ := List.forall_mem_cons.mp hall
        exact List.forall_mem_cons.mpr ⟨hok hfirst, ih.1 hrest⟩
      · rw [List.flatMap_cons, List.flatMap_cons]
        exact hperm.append ih.2

theorem lookup_reordered {sections sections' : Pairs} (h : Reordered sections sections')
    (k : Str) : GroupsReordered (valueOf k sections) (valueOf k sections') := by
  induction h with
  | nil => exact Or.inl rfl
  | @cons p p' _ _ hp _ ih =>
      obtain ⟨hkey, hgroups⟩ := hp
      unfold valueOf at ih ⊢
      by_cases hk : p.1 = k
      · rw [lookup, lookup, if_pos hk, if_pos (hkey ▸ hk)]
        exact hgroups
      · rw [lookup, lookup, if_neg hk, if_neg (hkey ▸ hk)]
        exact ih

theorem familyOk_reordered {scheduled : Bool} {sections sections' : Pairs}
    (h : Reordered sections sections') (family : Family) :
    (FamilyOk scheduled sections family → FamilyOk scheduled sections' family) ∧
      (familyFeeds scheduled sections family).Perm (familyFeeds scheduled sections' family) := by
  unfold FamilyOk familyFeeds
  rcases lookup_reordered h family.name with heq | ⟨items, items', mid, hv, hv', hrows, hperm⟩
  · rw [heq]
    exact ⟨id, List.Perm.refl _⟩
  · obtain ⟨hok, hfeeds⟩ := groups_congr_rows scheduled family hrows
    rw [hv, hv']
    constructor
    · rintro ⟨groups, hgroups, hall⟩
      obtain rfl := Option.some.inj hgroups
      refine ⟨items', rfl, fun group hgroup => ?_⟩
      refine hok (fun v hvmem => ?_) group.2 (hperm.mem_iff.mpr (List.mem_map_of_mem hgroup))
      obtain ⟨group', hgroup', rfl⟩ := List.mem_map.mp hvmem
      exact hall group' hgroup'
    · change (items.flatMap (groupFeeds scheduled family)).Perm
        (items'.flatMap (groupFeeds scheduled family))
      rw [flatMap_values (fun _ _ => rfl) items, flatMap_values (fun _ _ => rfl) items']
      exact hfeeds.trans (hperm.flatMap_right _)

theorem allFeeds_reordered {scheduled : Bool} {sections sections' : Pairs}
    (h : Reordered sections sections') :
    (allFeeds scheduled sections).Perm (allFeeds scheduled sections') :=
  List.Perm.flatMap_left _ fun family _ => (familyOk_reordered h family).2

theorem sectionsFit_reordered {sections sections' : Pairs} (h : Reordered sections sections') :
    sectionsFit sections' = sectionsFit sections := by
  have hkeys : sections.map Prod.fst = sections'.map Prod.fst := by
    induction h with
    | nil => rfl
    | cons hp _ ih => rw [List.map_cons, List.map_cons, hp.1, ih]
  have hfit : ∀ sections : Pairs, sectionsFit sections =
      ((sections.map Prod.fst).all (families.map Family.name).contains &&
        (sections.map Prod.fst).length == 3) := fun sections => by
    rw [List.all_map, List.length_map]
    rfl
  rw [hfit, hfit, hkeys]

/-- Reordered groups and rows give a model with the same hash. -/
theorem runtimeModel_reordered {hash : Value → Str} {general sections sections' extras : Pairs}
    {model : RuntimeModel} (hmodel : runtimeModel hash general sections extras = .ok model)
    (h : Reordered sections sections') :
    ∃ model', runtimeModel hash general sections' extras = .ok model' ∧
      model'.configHash = model.configHash := by
  obtain ⟨switch, default, extra, hacc, his⟩ := (runtimeModel_ok_iff _ _ _ _ _).mp hmodel
  have hperm : (allFeeds (decide (switch = on)) sections).Perm
      (allFeeds (decide (switch = on)) sections') := allFeeds_reordered h
  have hdistinct : ((allFeeds (decide (switch = on)) sections').map Prod.fst).Nodup :=
    (hperm.map Prod.fst).nodup_iff.mp hacc.distinct
  have hacc' : Accepted general sections' extras switch default extra :=
    ⟨sectionsFit_reordered h ▸ hacc.sectionNames, hacc.switchRead, hacc.defaultRead,
      fun family hfamily => (familyOk_reordered h family).1 (hacc.groups family hfamily),
      hdistinct, hacc.extrasRead⟩
  have hnodup := nodup_feeds_extra hdistinct (givenExtras_ok hacc.extrasRead)
  refine ⟨⟨_, decide (switch = on), default, ⟨_, hnodup⟩⟩,
    (runtimeModel_ok_iff _ _ _ _ _).mpr ⟨switch, default, extra, hacc', rfl, rfl, rfl, rfl⟩, ?_⟩
  dsimp only
  rw [his.configHash, projection, projection]
  have hsorted := ksort_eq_of_perm
    (((hperm.append_right extra).map fun p => (p.1, projectedImage p.2)).symm) (by
      rw [List.map_map]
      exact hnodup)
  rw [hsorted]

/-! ### The model is exact -/

/-- One entry for each active row under its own id, accepted by the validator, with a hash that no
reordering changes and that tells models apart exactly when they schedule differently. -/
theorem runtimeModel_exact {hash : Value → Str} (hhash : ∀ v, isDigest (hash v) = true)
    {general sections extras : Pairs} {model : RuntimeModel}
    (h : runtimeModel hash general sections extras = .ok model) :
    List.Forall₂ (FeedOf model.scheduled) (activeRows sections) model.feeds ∧
    (model.feeds.map Prod.fst).Nodup ∧
    runtimeModelValid hash (modelImage model) = true ∧
    (∀ sections', Reordered sections sections' →
      ∃ model', runtimeModel hash general sections' extras = .ok model' ∧
        model'.configHash = model.configHash) ∧
    ∀ general' sections' extras' model',
      runtimeModel hash general' sections' extras' = .ok model' →
        (Agrees model model' → model.configHash = model'.configHash) ∧
        (¬ Agrees model model' →
          (hash (modelProjection model) = hash (modelProjection model') →
            modelProjection model = modelProjection model') →
          model.configHash ≠ model'.configHash) := by
  obtain ⟨switch, default, extra, hacc, his⟩ := (runtimeModel_ok_iff _ _ _ _ _).mp h
  have hextra := givenExtras_ok hacc.extrasRead
  have hfeeds := feeds_of_isModel hextra his
  refine ⟨?_, ?_, ?_, fun sections' => runtimeModel_reordered h, ?_⟩
  · rw [hfeeds, his.scheduled]
    exact activeRows_forall₂ hacc.groups
  · rw [hfeeds]
    exact hacc.distinct
  · rw [runtimeModelValid_modelImage]
    exact modelValid_of_isModel hhash hextra his
  · intro general' sections' extras' model' h'
    obtain ⟨switch', default', extra', -, his'⟩ := (runtimeModel_ok_iff _ _ _ _ _).mp h'
    rw [configHash_of_isModel his, configHash_of_isModel his']
    refine ⟨fun hagrees => ?_, fun hnot hcollision hsame => ?_⟩
    · exact congrArg hash ((modelProjection_eq_iff model model').mpr hagrees)
    · exact hnot ((modelProjection_eq_iff model model').mp (hcollision hsame))

section
variable (switch : Str)

/-- A hash of the switch alone. -/
def switchHash : Value → Str
  | .node ((_, .leaf (.bool true)) :: _) => List.replicate 64 '1'
  | _ => List.replicate 64 '0'

/-- A General section with the default schedule at midnight of Sunday. -/
def sundays : Pairs :=
  [(kScheduled, text switch), (kDefaultWeekday, text ['7']), (kDefaultHour, text ['0']),
    (kDefaultMinute, text ['0'])]

def noGroups : Pairs := families.map fun family => (family.name, .node [])

/-- One active and one disabled row. -/
def oneGroup : Pairs :=
  [(Family.ipv4.name, .node [(['0'], .node [(kAction, text "Deny_Both".toList),
      (kCron, text "EveryDay".toList), (kRow, .node [
        (['0'], .node [(kUrl, text ['u']), (kHeader, text ['h'])]),
        (['1'], .node [(kUrl, text ['u']), (kState, text disabled)])])])]),
    (Family.ipv6.name, .node []), (Family.dnsbl.name, .node [])]

end

theorem switchHash_isDigest (v : Value) : isDigest (switchHash v) = true := by
  unfold switchHash
  split <;> decide

/-- One active row, and the switch turned off for it. -/
theorem runtimeModel_exact_oneGroup :
    ∃ model model', runtimeModel switchHash (sundays on) oneGroup [] = .ok model ∧
      runtimeModel switchHash (sundays []) oneGroup [] = .ok model' ∧
      model.feeds.map Prod.fst = ["ipv4:h_v4".toList] ∧
      runtimeModelValid switchHash (modelImage model) = true ∧
      model.configHash ≠ model'.configHash := by
  have hon : runtimeModel switchHash (sundays on) oneGroup [] = .ok _ := rfl
  have hoff : runtimeModel switchHash (sundays []) oneGroup [] = .ok _ := rfl
  obtain ⟨-, -, hvalid, -, hhash⟩ := runtimeModel_exact switchHash_isDigest hon
  refine ⟨_, _, hon, hoff, by decide, hvalid, ?_⟩
  refine (hhash _ _ _ _ hoff).2 (fun hagrees => ?_) fun hsame => ?_
  · exact absurd hagrees.scheduled (by decide)
  · exact absurd hsame (by decide)

/-- Without feeds the switch changes the hash all the same. -/
theorem configHash_switch :
    ∃ model model', runtimeModel switchHash (sundays on) noGroups [] = .ok model ∧
      runtimeModel switchHash (sundays []) noGroups [] = .ok model' ∧
      model.default = model'.default ∧
      (∀ id, (model.entries.get id).map Entry.projected =
        (model'.entries.get id).map Entry.projected) ∧
      model.configHash ≠ model'.configHash :=
  ⟨_, _, rfl, rfl, rfl, fun _ => rfl, by decide⟩

end PfBlockerNG.ScheduleModelExact
