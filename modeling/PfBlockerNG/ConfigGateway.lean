import PfBlockerNG.ConfigRegistry
import PfBlockerNG.OrderedDict

/-!
Section writes of the configuration gateway: every carried field whose canonical value changes
is checked against the caller's page privileges before the section is replaced.
-/

namespace PfBlockerNG.ConfigGateway

open Strings OrderedDict ConfigRegistry

abbrev Items := List (String × Value)

/-! ### Configuration paths -/

/-- `config_get_path` with a NULL default. -/
def configGetPath : List String → Value → Value
  | [], node => node
  | key :: path, .arr items =>
      match lookup key items with
      | some node => configGetPath path node
      | none => .null
  | _ :: _, _ => .null

/-- Replace the leaf under a nonempty path. An absent or empty node on the way becomes an
array; any other node that is no array stops the write. -/
def setPath (value : Value) : String → List String → Items → Option Items
  | key, [], el => some (store key value el)
  | key, next :: path, el =>
      match (lookup key el).filter (fun node => !node.isEmpty) with
      | some (.arr items) =>
          (setPath value next path items).map fun items' => store key (.arr items') el
      | some _ => none
      | none => (setPath value next path []).map fun items' => store key (.arr items') el

def configSetPath (path : List String) (value config : Value) : Value :=
  match path, config with
  | [], _ => value
  | key :: path, .arr el =>
      match setPath value key path el with
      | some el' => .arr el'
      | none => config
  | _, _ => config

/-- PHP's `unset` of an array key. -/
def unset (key : String) (items : Items) : Items := items.filter fun item => item.1 ≠ key

/-! ### Canonical values -/

/-- Substitute the registered default in the field's not-configured state. -/
def notConfigured (f : ConfigField) (value : Value) : Value :=
  let zero := match value with
    | .str s => f.zeroReadsDefault && s = ['0']
    | _ => false
  if zero then .str f.default
  else match f.adapter, value with
    | _, .null => .str f.default
    | none, .str [] => .str f.default
    | _, value => value

def deleteSentinel : Str := Char.ofNat 0 :: "PfbConfig::delete".toList

section Writes

variable (fingerprint : Value → Str) (reg : Registry) (isAllowedPage : Option (String → Bool))

/-- The string a field's value is compared by: what an adapter would store, the text of a plain
scalar, or a fingerprint of the shape of anything else. -/
def canonicalize (f : ConfigField) (value : Value) : Str :=
  match f.adapter, value with
  | some _, .null => deleteSentinel
  | some adapter, value => adapter.store (notConfigured f value)
  | none, value =>
      let value := notConfigured f value
      if value.isScalar then value.toStr else "nonscalar:".toList ++ fingerprint value

def writePrivDefault : String := "pfblockerng/pfblockerng_general.php"

def ConfigField.priv (f : ConfigField) : String := f.writePriv.getD writePrivDefault

/-- The caller holds the field's page privilege. Without a web session there is no check to
ask, and that counts as a refusal. -/
def Allowed (f : ConfigField) : Prop :=
  isAllowedPage.any (fun allowed => allowed (ConfigField.priv f)) = true

instance (f : ConfigField) : Decidable (Allowed isAllowedPage f) := by
  unfold Allowed
  infer_instance

def denial (f : ConfigField) : String :=
  "PfbConfig: write of key '" ++ f.bare ++ "' requires page privilege '" ++ ConfigField.priv f ++
    "' (isAllowedPage() denied or undefined). System-context callers with no " ++
    "web session (cron/install/migrations/CLI/core hooks) must use " ++
    "PfbConfig::writeSystem()/writeSectionSystem() instead."

def assertWriteAllowed (f : ConfigField) : Except String Unit :=
  if Allowed isAllowedPage f then .ok () else .error (denial f)

def assertWriteAllowedOnChange (f : ConfigField) (path : List String) (incoming config : Value) :
    Except String Unit :=
  if canonicalize fingerprint f (configGetPath (path ++ [f.bare]) config) =
      canonicalize fingerprint f incoming then .ok ()
  else assertWriteAllowed isAllowedPage f

/-- The registered fields of a section, in registry order. -/
def sectionFields (path : List String) : List ConfigField :=
  reg.fields.filter fun f => pfbSections f.sectionAlias = path

/-! ### Section writes -/

def normaliseField (data : Items) (f : ConfigField) : Items :=
  match f.adapter with
  | none => data
  | some adapter =>
      match lookup f.bare data with
      | none => data
      | some .null => unset f.bare data
      | some value => store f.bare (.str (adapter.store (notConfigured f value))) data

def writeSectionRaw (path : List String) (data : Items) (config : Value) : Value :=
  configSetPath path (.arr ((sectionFields reg path).foldl normaliseField data)) config

/-- The privilege checks of the fields a section blob carries. -/
def assertFields (path : List String) (data : Items) (config : Value) :
    List ConfigField → Except String Unit
  | [] => .ok ()
  | f :: fields =>
      match lookup f.bare data with
      | none => assertFields path data config fields
      | some incoming =>
          match assertWriteAllowedOnChange fingerprint isAllowedPage f path incoming config with
          | .error message => .error message
          | .ok () => assertFields path data config fields

/-- Returns what the call returns or throws, and the configuration after it. -/
def writeSection (path : List String) (data : Items) (config : Value) :
    Except String Unit × Value :=
  match assertFields fingerprint isAllowedPage path data config (sectionFields reg path) with
  | .error message => (.error message, config)
  | .ok () => (.ok (), writeSectionRaw reg path data config)

/-- The canonical form of what the configuration stores for a field. -/
def canonicalStored (f : ConfigField) (config : Value) : Str :=
  canonicalize fingerprint f (configGetPath (pfbSections f.sectionAlias ++ [f.bare]) config)

end Writes

/-! ### Reading back a written section -/

theorem configGetPath_append (path : List String) (key : String) (config : Value) :
    configGetPath (path ++ [key]) config =
      configGetPath [key] (configGetPath path config) := by
  induction path generalizing config with
  | nil => rfl
  | cons next path ih =>
      cases config with
      | arr items =>
          simp only [List.cons_append, configGetPath]
          cases lookup next items with
          | none => rfl
          | some node => exact ih node
      | _ => rfl

theorem configGetPath_setPath {value : Value} {key : String} {path : List String} {el el' : Items}
    (h : setPath value key path el = some el') :
    configGetPath (key :: path) (.arr el') = value := by
  induction path generalizing key el el' with
  | nil =>
      obtain rfl := Option.some.inj h
      simp [configGetPath, lookup_store]
  | cons next path ih =>
      have hstored : ∃ items items', setPath value next path items = some items' ∧
          store key (.arr items') el = el' := by
        unfold setPath at h
        split at h
        · rename_i items _
          obtain ⟨items', hset, rfl⟩ := Option.map_eq_some_iff.mp h
          exact ⟨items, items', hset, rfl⟩
        · cases h
        · obtain ⟨items', hset, rfl⟩ := Option.map_eq_some_iff.mp h
          exact ⟨[], items', hset, rfl⟩
      obtain ⟨items, items', hset, rfl⟩ := hstored
      have hread := ih hset
      rw [configGetPath, lookup_store, if_pos rfl]
      exact hread

/-- A section write either lands whole or is stopped on the way and changes nothing. -/
theorem configSetPath_cases (path : List String) (value config : Value) :
    configGetPath path (configSetPath path value config) = value ∨
      configSetPath path value config = config := by
  cases path with
  | nil => exact Or.inl rfl
  | cons key path =>
      cases config with
      | arr el =>
          simp only [configSetPath]
          cases h : setPath value key path el with
          | none => exact Or.inr rfl
          | some el' => exact Or.inl (configGetPath_setPath h)
      | _ => exact Or.inr rfl

/-! ### Normalisation keeps canonical values -/

/-- What the normalisation makes of a carried value. -/
def normalised (f : ConfigField) (value : Value) : Option Value :=
  match f.adapter, value with
  | none, value => some value
  | some _, .null => none
  | some adapter, value => some (.str (adapter.store (notConfigured f value)))

theorem lookup_unset (key key' : String) (items : Items) :
    lookup key' (unset key items) = if key' = key then none else lookup key' items := by
  induction items with
  | nil => simp [unset, lookup]
  | cons item items ih =>
      obtain ⟨k, v⟩ := item
      unfold unset at ih ⊢
      by_cases hk : k = key
      · subst hk
        simp only [List.filter_cons, ne_eq, not_true_eq_false, decide_false, Bool.false_eq_true,
          if_false, ih]
        split
        · rfl
        · rename_i hne
          rw [lookup, if_neg (Ne.symm hne)]
      · simp only [List.filter_cons, ne_eq, hk, not_false_eq_true, decide_true, if_true, lookup,
          ih]
        split
        · rename_i heq
          subst heq
          rw [if_neg hk]
        · rfl

theorem lookup_normaliseField (data : Items) (f : ConfigField) :
    lookup f.bare (normaliseField data f) = (lookup f.bare data).bind (normalised f) := by
  unfold normaliseField normalised
  cases f.adapter with
  | none => simp
  | some adapter =>
      cases h : lookup f.bare data with
      | none => simp [h]
      | some value =>
          cases value <;> simp [lookup_unset, lookup_store]

theorem lookup_normaliseField_of_ne {data : Items} {f : ConfigField} {key : String}
    (h : key ≠ f.bare) : lookup key (normaliseField data f) = lookup key data := by
  unfold normaliseField
  split
  · rfl
  · split
    · rfl
    · rw [lookup_unset, if_neg h]
    · rw [lookup_store, if_neg (Ne.symm h)]

theorem lookup_normalise_of_not_mem {fields : List ConfigField} {key : String}
    (h : ∀ g ∈ fields, key ≠ g.bare) (data : Items) :
    lookup key (fields.foldl normaliseField data) = lookup key data := by
  induction fields generalizing data with
  | nil => rfl
  | cons g fields ih =>
      rw [List.foldl_cons, ih fun g' hg' => h g' (List.mem_cons_of_mem _ hg'),
        lookup_normaliseField_of_ne (h g List.mem_cons_self)]

theorem lookup_normalise {fields : List ConfigField} (hnodup : (fields.map (·.bare)).Nodup)
    {f : ConfigField} (hf : f ∈ fields) (data : Items) :
    lookup f.bare (fields.foldl normaliseField data) =
      (lookup f.bare data).bind (normalised f) := by
  induction fields generalizing data with
  | nil => cases hf
  | cons g fields ih =>
      obtain ⟨hg, hrest⟩ := List.nodup_cons.mp hnodup
      rw [List.foldl_cons]
      rcases List.mem_cons.mp hf with rfl | hf
      · rw [lookup_normalise_of_not_mem, lookup_normaliseField]
        intro g' hg' heq
        exact hg (List.mem_map.mpr ⟨g', hg', heq.symm⟩)
      · have hne : f.bare ≠ g.bare := fun heq => hg (List.mem_map.mpr ⟨f, hf, heq⟩)
        rw [ih hrest hf, lookup_normaliseField_of_ne hne]

theorem nodup_sectionFields (reg : Registry) (path : List String) :
    ((sectionFields reg path).map (·.bare)).Nodup := by
  have hnodup := (List.filter_sublist (p := fun f => pfbSections f.sectionAlias = path)).map
    (fun f : ConfigField => (f.sectionAlias, f.bare)) |>.nodup reg.nodup
  refine List.Nodup.map_on ?_ hnodup.of_map
  intro f hf g hg hbare
  obtain ⟨hf, hfsection⟩ := List.mem_filter.mp hf
  obtain ⟨hg, hgsection⟩ := List.mem_filter.mp hg
  exact reg.eq_of_section hf hg
    ((of_decide_eq_true hfsection).trans (of_decide_eq_true hgsection).symm) hbare

/-! ### Authorisation of section writes -/

section Authorisation

variable {fingerprint : Value → Str} {reg : Registry} {isAllowedPage : Option (String → Bool)}
  {path : List String} {data : Items} {config : Value}

theorem notConfigured_of_ne {f : ConfigField} {adapter : Adapter} (h : f.adapter = some adapter)
    {s : Str} (hs : s ≠ ['0']) : notConfigured f (.str s) = .str s := by
  simp [notConfigured, hs, h]

/-- The stored value of a carried field has the canonical form of the value carried. -/
theorem canonicalize_normalised (f : ConfigField) (value : Value) :
    canonicalize fingerprint f ((normalised f value).getD .null) =
      canonicalize fingerprint f value := by
  unfold normalised
  cases h : f.adapter with
  | none => rfl
  | some adapter =>
      have hstored : ∀ v : Value, canonicalize fingerprint f
          (.str (adapter.store (notConfigured f v))) = adapter.store (notConfigured f v) := by
        intro v
        simp only [canonicalize, h]
        rw [notConfigured_of_ne h (adapter.store_ne_zero _), adapter.store_self]
      cases value with
      | null => simp [canonicalize, h]
      | _ =>
          simp only [Option.getD_some, hstored]
          simp only [canonicalize, h]

theorem allowed_of_assertFields {fields : List ConfigField}
    (h : assertFields fingerprint isAllowedPage path data config fields = .ok ()) {f : ConfigField}
    (hf : f ∈ fields) {incoming : Value} (hcarried : lookup f.bare data = some incoming)
    (hchanged : canonicalize fingerprint f (configGetPath (path ++ [f.bare]) config) ≠
      canonicalize fingerprint f incoming) : Allowed isAllowedPage f := by
  induction fields with
  | nil => cases hf
  | cons g fields ih =>
      unfold assertFields at h
      rcases List.mem_cons.mp hf with rfl | hf
      · rw [hcarried] at h
        simp only [assertWriteAllowedOnChange, if_neg hchanged, assertWriteAllowed] at h
        by_contra hdenied
        simp [hdenied] at h
      · split at h
        · exact ih h hf
        · split at h
          · cases h
          · exact ih h hf

/-- A returned section write checked every field of the section. -/
theorem writeSection_ok
    (h : (writeSection fingerprint reg isAllowedPage path data config).1 = .ok ()) :
    assertFields fingerprint isAllowedPage path data config (sectionFields reg path) = .ok () ∧
      (writeSection fingerprint reg isAllowedPage path data config).2 =
        writeSectionRaw reg path data config := by
  unfold writeSection at h ⊢
  split at h
  · cases h
  · rename_i hchecked
    rw [hchecked]
    exact ⟨rfl, rfl⟩

theorem writeSection_error {message : String}
    (h : (writeSection fingerprint reg isAllowedPage path data config).1 = .error message) :
    (writeSection fingerprint reg isAllowedPage path data config).2 = config := by
  unfold writeSection at h ⊢
  split at h
  · rfl
  · cases h

/-- What the section holds for a field after the write: the normalised value carried, nothing
when none is carried, or what it held where the write was stopped on the way. -/
theorem configGetPath_writeSectionRaw {f : ConfigField} (hf : f ∈ sectionFields reg path) :
    configGetPath (path ++ [f.bare]) (writeSectionRaw reg path data config) =
        ((lookup f.bare data).bind (normalised f)).getD .null ∨
      writeSectionRaw reg path data config = config := by
  unfold writeSectionRaw
  refine (configSetPath_cases path _ config).imp (fun hread => ?_) id
  rw [configGetPath_append, hread, configGetPath,
    lookup_normalise (nodup_sectionFields reg path) hf]
  cases (lookup f.bare data).bind (normalised f) <;> rfl

/-- Whatever a section write leaves of a carried field is authorised or unchanged. -/
theorem canonicalStored_writeSectionRaw {f : ConfigField} (hf : f ∈ sectionFields reg path)
    {incoming : Value} (hcarried : lookup f.bare data = some incoming) :
    canonicalStored fingerprint f (writeSectionRaw reg path data config) =
        canonicalize fingerprint f incoming ∨
      canonicalStored fingerprint f (writeSectionRaw reg path data config) =
        canonicalStored fingerprint f config := by
  have hsection : pfbSections f.sectionAlias = path := of_decide_eq_true (List.mem_filter.mp hf).2
  have hread : configGetPath (path ++ [f.bare]) (writeSectionRaw reg path data config) =
        ((lookup f.bare data).bind (normalised f)).getD .null ∨
      writeSectionRaw reg path data config = config := configGetPath_writeSectionRaw hf
  rcases hread with h | h
  · left
    rw [canonicalStored, hsection, h, hcarried, Option.bind_some, canonicalize_normalised]
  · right
    rw [h]

end Authorisation

/-- A returned call changed no registered field of the section without the field's privilege,
and a call that throws left the configuration as it was. -/
def Authorises (fingerprint : Value → Str) (reg : Registry)
    (isAllowedPage : Option (String → Bool)) (path : List String) (data : Items) (config : Value)
    (Covered : ConfigField → Prop) : Prop :=
  let result := writeSection fingerprint reg isAllowedPage path data config
  (result.1 = .ok () → ∀ f ∈ sectionFields reg path, Covered f →
    canonicalStored fingerprint f result.2 ≠ canonicalStored fingerprint f config →
      Allowed isAllowedPage f) ∧
  ∀ message, result.1 = .error message → result.2 = config

/-- Every change of a field that the data carries is authorised. -/
theorem carried_changes_authorised (fingerprint : Value → Str) (reg : Registry)
    (isAllowedPage : Option (String → Bool)) (path : List String) (data : Items)
    (config : Value) : Authorises fingerprint reg isAllowedPage path data config
      fun f => (lookup f.bare data).isSome := by
  refine ⟨?_, fun message h => writeSection_error h⟩
  intro hok f hf hcarried hchanged
  obtain ⟨hchecked, hwritten⟩ := writeSection_ok hok
  rw [hwritten] at hchanged
  obtain ⟨incoming, hincoming⟩ := Option.isSome_iff_exists.mp hcarried
  have hsection : pfbSections f.sectionAlias = path := of_decide_eq_true (List.mem_filter.mp hf).2
  refine allowed_of_assertFields hchecked hf hincoming fun heq => hchanged ?_
  rcases canonicalStored_writeSectionRaw hf hincoming with h | h
  · rw [h, ← heq, canonicalStored, hsection]
  · exact h

/-- A scoped operator: the general page is allowed, the package manager's page is not. -/
def generalPageOnly : Option (String → Bool) := some (· == writePrivDefault)

/-- The general section with the software check turned off and nothing else. -/
def softwareCheckOff : Value :=
  .arr [("installedpackages", .arr [("pfblockerng", .arr [("config", .arr [("0", .arr
    [("pfb_software_check", .str [])])])])])]

theorem assertFields_nil (fingerprint : Value → Str) (isAllowedPage : Option (String → Bool))
    (path : List String) (config : Value) (fields : List ConfigField) :
    assertFields fingerprint isAllowedPage path [] config fields = .ok () := by
  induction fields with
  | nil => rfl
  | cons f fields ih => exact ih

theorem normalise_nil (fields : List ConfigField) : fields.foldl normaliseField [] = [] := by
  induction fields with
  | nil => rfl
  | cons f fields ih =>
      have hempty : normaliseField [] f = [] := by
        cases h : f.adapter <;> simp [normaliseField, h, lookup]
      rw [List.foldl_cons, hempty, ih]

/-- Data that carries no field removes the software check without its privilege. -/
theorem absent_field_removed_unchecked :
    ¬ Authorises (fun _ => []) pfbCfgRegistry generalPageOnly (pfbSections .gen) []
        softwareCheckOff fun _ => True := by
  have hwritten : writeSection (fun _ => []) pfbCfgRegistry generalPageOnly (pfbSections .gen) []
      softwareCheckOff = (.ok (), configSetPath (pfbSections .gen) (.arr []) softwareCheckOff) := by
    rw [writeSection, assertFields_nil, writeSectionRaw, normalise_nil]
  have hregistered : pfbSoftwareCheck ∈ sectionFields pfbCfgRegistry (pfbSections .gen) := by
    refine List.mem_filter.mpr ⟨?_, by decide⟩
    exact List.mem_append_left _ (List.mem_append_right _ (List.mem_of_getElem? (i := 2) rfl))
  unfold Authorises
  rw [hwritten]
  rintro ⟨h, -⟩
  exact absurd (h rfl _ hregistered trivial (by decide)) (by decide)

end PfBlockerNG.ConfigGateway
