import PfBlockerNG.Transitions
import Mathlib.Data.Nat.Basic
import Mathlib.Order.Basic
import Mathlib.Logic.Function.Basic

/-!
The zero-downtime reload handshake: PHP replaces the manifest and advances the
generation in the sentinel file, `init_standard` loads the manifest once, and
`pfb_reload_watcher` rebuilds on every advance and publishes what it applied.
A manifest is named by the number of replacements before it.
-/

namespace PfBlockerNG.ReloadHandshake

open PfBlockerNG.Transitions

/-- Where the watcher thread is; `cur` is the generation it builds for. -/
inductive Watcher where
  | notStarted
  | baseline (gen : Nat)
  | draining
  | ramGate (cur : Nat)
  | building (cur : Nat)
  | built (cur version : Nat)
  | swapped (cur : Nat)

/-- What a build read: a manifest, or none when it failed or was switched off. -/
abbrev Source := Option Nat

structure Reload where
  manifest : Nat
  publishing : Bool
  sentinel : Option Nat
  /-- The manifest a generation was published with. -/
  publishedWith : Nat → Nat
  applied : Option Nat
  loaded : Option Source
  live : Option Source
  watcher : Watcher
  lastGen : Option Nat

inductive Event where
  | replaceManifest
  | flipSentinel (written : Bool)
  | initLoad (ok : Bool)
  | initInstall
  | startWatcher (readable : Bool)
  | writeBaseline (written : Bool)
  | poll (readable : Bool)
  | checkRam (fits : Bool)
  | build (ok : Bool)
  | swap
  | writeApplied (written : Bool)

/-- `pfb_unbound_py_flip_sentinel`: the next generation. -/
def nextGeneration (sentinel : Option Nat) : Nat := sentinel.getD 0 + 1

/-- `_reload_read_generation`. -/
def readGeneration (s : Reload) (readable : Bool) : Option Nat :=
  if readable then s.sentinel else none

/-- `_reload_write_applied`. -/
def writeMarker (s : Reload) (gen : Nat) (written : Bool) : Option Nat :=
  if written then some gen else s.applied

def step (s : Reload) : Event → Option Reload
  | .replaceManifest =>
      if s.publishing then none
      else some { s with manifest := s.manifest + 1, publishing := true }
  | .flipSentinel written =>
      if !s.publishing then none
      else if written then
        some { s with
          publishing := false
          sentinel := some (nextGeneration s.sentinel)
          publishedWith :=
            Function.update s.publishedWith (nextGeneration s.sentinel) s.manifest }
      else some { s with publishing := false }
  | .initLoad ok =>
      match s.loaded with
      | some _ => none
      | none => some { s with loaded := some (if ok then some s.manifest else none) }
  | .initInstall =>
      match s.loaded, s.live with
      | some source, none => some { s with live := some source }
      | _, _ => none
  | .startWatcher readable =>
      match s.watcher, s.live with
      | .notStarted, some _ =>
          match readGeneration s readable with
          | none => some { s with watcher := .draining, lastGen := none }
          | some gen => some { s with watcher := .baseline gen, lastGen := some gen }
      | _, _ => none
  | .writeBaseline written =>
      match s.watcher with
      | .baseline gen =>
          some { s with watcher := .draining, applied := writeMarker s gen written }
      | _ => none
  | .poll readable =>
      match s.watcher with
      | .draining =>
          match readGeneration s readable with
          | none => some s
          | some cur =>
              if s.lastGen.any (cur ≤ ·) then some s
              else some { s with watcher := .ramGate cur, lastGen := some cur }
      | _ => none
  | .checkRam fits =>
      match s.watcher with
      | .ramGate cur => some { s with watcher := if fits then .building cur else .draining }
      | _ => none
  | .build ok =>
      match s.watcher with
      | .building cur =>
          some { s with watcher := if ok then .built cur s.manifest else .draining }
      | _ => none
  | .swap =>
      match s.watcher with
      | .built cur version =>
          some { s with watcher := .swapped cur, live := some (some version) }
      | _ => none
  | .writeApplied written =>
      match s.watcher with
      | .swapped cur =>
          some { s with watcher := .draining, applied := writeMarker s cur written }
      | _ => none

/-- The manifest a snapshot was built from is at least as new as `version`. -/
def AtLeast (version : Nat) (source : Source) : Prop := ∃ v, source = some v ∧ version ≤ v

/-- The applied marker tells the truth about the live snapshot. -/
def MarkerHonest (s : Reload) : Prop :=
  ∀ gen, s.applied = some gen → ∀ source, s.live = some source →
    AtLeast (s.publishedWith gen) source

/-- A restart finds the manifest, the sentinel and the marker its predecessor left. -/
structure Restarted (s : Reload) : Prop where
  bounded : ∀ gen, s.publishedWith gen ≤ s.manifest
  ordered : ∀ n, s.sentinel = some n → ∀ gen gen', gen ≤ gen' → gen' ≤ n →
    s.publishedWith gen ≤ s.publishedWith gen'
  marker : ∀ gen, s.applied = some gen → ∃ n, s.sentinel = some n ∧ gen ≤ n
  loaded : s.loaded = none
  live : s.live = none
  watcher : s.watcher = .notStarted
  lastGen : s.lastGen = none

/-- The generation the watcher is at work on. -/
def Watcher.generation : Watcher → Option Nat
  | .notStarted => none
  | .draining => none
  | .baseline gen => some gen
  | .ramGate cur => some cur
  | .building cur => some cur
  | .built cur _ => some cur
  | .swapped cur => some cur

/-- Generations and versions only grow: what is published bounds what is in flight,
and that bounds the marker. -/
structure Ordered (s : Reload) : Prop where
  bounded : ∀ gen, s.publishedWith gen ≤ s.manifest
  ordered : ∀ n, s.sentinel = some n → ∀ gen gen', gen ≤ gen' → gen' ≤ n →
    s.publishedWith gen ≤ s.publishedWith gen'
  marker : ∀ gen, s.applied = some gen → ∃ n, s.sentinel = some n ∧ gen ≤ n
  flight : ∀ cur, s.watcher.generation = some cur →
    (∃ n, s.sentinel = some n ∧ cur ≤ n) ∧ ∀ gen, s.applied = some gen → gen ≤ cur

theorem Restarted.orderedInv {s : Reload} (h : Restarted s) : Ordered s where
  bounded := h.bounded
  ordered := h.ordered
  marker := h.marker
  flight := by
    rw [h.watcher]
    intro cur hcur
    cases hcur

theorem lt_nextGeneration {sentinel : Option Nat} {n gen : Nat} (h : sentinel = some n)
    (hgen : gen ≤ n) : gen < nextGeneration sentinel := by
  rw [h]
  exact Nat.lt_succ_of_le hgen

/-- A flip leaves what older generations were published with. -/
theorem publishedWith_flip {s : Reload} {n gen : Nat} (h : s.sentinel = some n) (hgen : gen ≤ n)
    (version : Nat) :
    Function.update s.publishedWith (nextGeneration s.sentinel) version gen =
      s.publishedWith gen :=
  Function.update_of_ne (Nat.ne_of_lt (lt_nextGeneration h hgen)) _ _

theorem readGeneration_eq_some {s : Reload} {readable : Bool} {gen : Nat}
    (h : readGeneration s readable = some gen) : s.sentinel = some gen := by
  cases readable
  · cases h
  · exact h

theorem writeMarker_cases {s : Reload} {gen gen' : Nat} {written : Bool}
    (h : writeMarker s gen written = some gen') : gen' = gen ∨ s.applied = some gen' := by
  cases written
  · exact Or.inr h
  · exact Or.inl (Option.some.inj h).symm

/-- A step that touches neither the files nor what is in flight keeps the order. -/
theorem Ordered.congr {s s' : Reload} (h : Ordered s) (hmanifest : s'.manifest = s.manifest)
    (hwith : s'.publishedWith = s.publishedWith) (hsentinel : s'.sentinel = s.sentinel)
    (hmarker : s'.applied = s.applied)
    (hflight : ∀ cur, s'.watcher.generation = some cur →
      (∃ n, s.sentinel = some n ∧ cur ≤ n) ∧ ∀ gen, s.applied = some gen → gen ≤ cur) :
    Ordered s' where
  bounded := by rw [hwith, hmanifest]; exact h.bounded
  ordered := by rw [hwith, hsentinel]; exact h.ordered
  marker := by rw [hmarker, hsentinel]; exact h.marker
  flight := by rw [hmarker, hsentinel]; exact hflight

theorem Ordered.mark {s : Reload} (h : Ordered s) {gen : Nat} (written : Bool)
    (hgen : s.watcher.generation = some gen) :
    Ordered { s with watcher := .draining, applied := writeMarker s gen written } where
  bounded := h.bounded
  ordered := h.ordered
  marker := by
    intro gen' hgen'
    rcases writeMarker_cases hgen' with rfl | hold
    · exact (h.flight _ hgen).1
    · exact h.marker gen' hold
  flight := by
    intro cur hcur
    cases hcur

theorem Ordered.flip {s : Reload} (h : Ordered s) :
    Ordered { s with
      publishing := false
      sentinel := some (nextGeneration s.sentinel)
      publishedWith :=
        Function.update s.publishedWith (nextGeneration s.sentinel) s.manifest } where
  bounded := by
    intro gen
    by_cases hgen : gen = nextGeneration s.sentinel
    · simp [hgen]
    · simpa [Function.update_of_ne hgen] using h.bounded gen
  ordered := by
    intro n hn gen gen' hle hle'
    obtain rfl := Option.some.inj hn
    by_cases hgen' : gen' = nextGeneration s.sentinel
    · simp only [hgen', Function.update_self]
      by_cases hgen : gen = nextGeneration s.sentinel
      · simp [hgen]
      · simpa [Function.update_of_ne hgen] using h.bounded gen
    · have hgen : gen ≠ nextGeneration s.sentinel := by omega
      simp only [Function.update_of_ne hgen, Function.update_of_ne hgen']
      cases hs : s.sentinel with
      | none =>
          rw [hs] at hle' hgen'
          simp only [nextGeneration, Option.getD_none] at hle' hgen'
          have hzero : gen = gen' := by omega
          exact hzero ▸ le_refl _
      | some n =>
          rw [hs] at hle' hgen'
          simp only [nextGeneration, Option.getD_some] at hle' hgen'
          exact h.ordered n hs gen gen' hle (by omega)
  marker := by
    intro gen hgen
    obtain ⟨n, hn, hle⟩ := h.marker gen hgen
    exact ⟨_, rfl, (lt_nextGeneration hn hle).le⟩
  flight := by
    intro cur hcur
    obtain ⟨⟨n, hn, hle⟩, hmarker⟩ := h.flight cur hcur
    exact ⟨⟨_, rfl, (lt_nextGeneration hn hle).le⟩, hmarker⟩

/-- Adopting or building for the generation just read. -/
theorem Ordered.read {s : Reload} (h : Ordered s) {readable : Bool} {gen : Nat}
    (hread : readGeneration s readable = some gen) :
    (∃ n, s.sentinel = some n ∧ gen ≤ n) ∧ ∀ gen', s.applied = some gen' → gen' ≤ gen := by
  have hs := readGeneration_eq_some hread
  refine ⟨⟨gen, hs, le_refl _⟩, fun gen' hgen' => ?_⟩
  obtain ⟨n, hn, hle⟩ := h.marker gen' hgen'
  rw [hs] at hn
  exact Option.some.inj hn ▸ hle

/-- What each enabled event does. -/
inductive Moved (s : Reload) : Event → Reload → Prop
  | replaceManifest (h : s.publishing = false) :
      Moved s .replaceManifest { s with manifest := s.manifest + 1, publishing := true }
  | flipSentinel :
      Moved s (.flipSentinel true) { s with
        publishing := false
        sentinel := some (nextGeneration s.sentinel)
        publishedWith :=
          Function.update s.publishedWith (nextGeneration s.sentinel) s.manifest }
  | flipFailed : Moved s (.flipSentinel false) { s with publishing := false }
  | initLoad (ok : Bool) (h : s.loaded = none) :
      Moved s (.initLoad ok) { s with loaded := some (if ok then some s.manifest else none) }
  | initInstall (source : Source) (h : s.loaded = some source) (hlive : s.live = none) :
      Moved s .initInstall { s with live := some source }
  | noBaseline (readable : Bool) (source : Source) (hlive : s.live = some source) :
      Moved s (.startWatcher readable) { s with watcher := .draining, lastGen := none }
  | baseline (readable : Bool) (gen : Nat) (source : Source) (hlive : s.live = some source)
      (hread : readGeneration s readable = some gen) :
      Moved s (.startWatcher readable) { s with watcher := .baseline gen, lastGen := some gen }
  | writeBaseline (written : Bool) (gen : Nat) (h : s.watcher = .baseline gen) :
      Moved s (.writeBaseline written)
        { s with watcher := .draining, applied := writeMarker s gen written }
  | noAdvance (readable : Bool) : Moved s (.poll readable) s
  | advance (readable : Bool) (cur : Nat) (h : s.watcher = .draining)
      (hread : readGeneration s readable = some cur) :
      Moved s (.poll readable) { s with watcher := .ramGate cur, lastGen := some cur }
  | checkRam (fits : Bool) (cur : Nat) (h : s.watcher = .ramGate cur) :
      Moved s (.checkRam fits)
        { s with watcher := if fits then .building cur else .draining }
  | build (ok : Bool) (cur : Nat) (h : s.watcher = .building cur) :
      Moved s (.build ok)
        { s with watcher := if ok then .built cur s.manifest else .draining }
  | swap (cur version : Nat) (h : s.watcher = .built cur version) :
      Moved s .swap { s with watcher := .swapped cur, live := some (some version) }
  | writeApplied (written : Bool) (cur : Nat) (h : s.watcher = .swapped cur) :
      Moved s (.writeApplied written)
        { s with watcher := .draining, applied := writeMarker s cur written }

theorem moved_of_step {s s' : Reload} {e : Event} (h : step s e = some s') : Moved s e s' := by
  cases e with
  | replaceManifest =>
      simp only [step] at h
      split at h
      · cases h
      · rename_i hpublishing
        exact Option.some.inj h ▸ .replaceManifest (by simpa using hpublishing)
  | flipSentinel written =>
      simp only [step] at h
      split at h
      · cases h
      · cases written
        · exact Option.some.inj h ▸ .flipFailed
        · exact Option.some.inj h ▸ .flipSentinel
  | initLoad ok =>
      simp only [step] at h
      split at h
      · cases h
      · rename_i hloaded
        exact Option.some.inj h ▸ .initLoad ok hloaded
  | initInstall =>
      simp only [step] at h
      split at h
      · rename_i source hloaded hlive
        exact Option.some.inj h ▸ .initInstall source hloaded hlive
      · cases h
  | startWatcher readable =>
      simp only [step] at h
      split at h
      · rename_i source hwatcher hlive
        split at h
        · exact Option.some.inj h ▸ .noBaseline readable source hlive
        · rename_i gen hread
          exact Option.some.inj h ▸ .baseline readable gen source hlive hread
      · cases h
  | writeBaseline written =>
      simp only [step] at h
      split at h
      · rename_i gen hwatcher
        exact Option.some.inj h ▸ .writeBaseline written gen hwatcher
      · cases h
  | poll readable =>
      simp only [step] at h
      split at h
      · rename_i hwatcher
        split at h
        · exact Option.some.inj h ▸ .noAdvance readable
        · rename_i cur hread
          split at h
          · exact Option.some.inj h ▸ .noAdvance readable
          · exact Option.some.inj h ▸ .advance readable cur hwatcher hread
      · cases h
  | checkRam fits =>
      simp only [step] at h
      split at h
      · rename_i cur hwatcher
        exact Option.some.inj h ▸ .checkRam fits cur hwatcher
      · cases h
  | build ok =>
      simp only [step] at h
      split at h
      · rename_i cur hwatcher
        exact Option.some.inj h ▸ .build ok cur hwatcher
      · cases h
  | swap =>
      simp only [step] at h
      split at h
      · rename_i cur version hwatcher
        exact Option.some.inj h ▸ .swap cur version hwatcher
      · cases h
  | writeApplied written =>
      simp only [step] at h
      split at h
      · rename_i cur hwatcher
        exact Option.some.inj h ▸ .writeApplied written cur hwatcher
      · cases h

theorem ordered_step (s : Reload) (e : Event) (s' : Reload) (h : Ordered s)
    (hstep : step s e = some s') : Ordered s' := by
  cases moved_of_step hstep with
  | replaceManifest =>
      exact ⟨fun gen => (h.bounded gen).trans (Nat.le_succ _), h.ordered, h.marker, h.flight⟩
  | flipSentinel => exact h.flip
  | flipFailed => exact h.congr rfl rfl rfl rfl h.flight
  | initLoad ok => exact h.congr rfl rfl rfl rfl h.flight
  | initInstall source hloaded hlive => exact h.congr rfl rfl rfl rfl h.flight
  | noBaseline readable source hlive =>
      exact h.congr rfl rfl rfl rfl fun cur hcur => by cases hcur
  | baseline readable gen source hlive hread =>
      refine h.congr rfl rfl rfl rfl fun cur hcur => ?_
      obtain rfl := Option.some.inj hcur
      exact h.read hread
  | writeBaseline written gen hwatcher => exact h.mark written (by rw [hwatcher]; rfl)
  | noAdvance readable => exact h
  | advance readable gen hwatcher hread =>
      refine h.congr rfl rfl rfl rfl fun cur hcur => ?_
      obtain rfl := Option.some.inj hcur
      exact h.read hread
  | checkRam fits cur hwatcher =>
      refine h.congr rfl rfl rfl rfl fun cur' hcur' => ?_
      cases fits
      · cases hcur'
      · obtain rfl := Option.some.inj hcur'
        exact h.flight cur (by rw [hwatcher]; rfl)
  | build ok cur hwatcher =>
      refine h.congr rfl rfl rfl rfl fun cur' hcur' => ?_
      cases ok
      · cases hcur'
      · obtain rfl := Option.some.inj hcur'
        exact h.flight cur (by rw [hwatcher]; rfl)
  | swap cur version hwatcher =>
      refine h.congr rfl rfl rfl rfl fun cur' hcur' => ?_
      obtain rfl := Option.some.inj hcur'
      exact h.flight cur (by rw [hwatcher]; rfl)
  | writeApplied written cur hwatcher => exact h.mark written (by rw [hwatcher]; rfl)

/-- The marker never decreases. -/
theorem applied_mono {s s' : Reload} {e : Event} (h : Ordered s) (hstep : step s e = some s')
    {gen : Nat} (hgen : s.applied = some gen) : ∃ gen', s'.applied = some gen' ∧ gen ≤ gen' := by
  have hmark : ∀ cur written, s.watcher.generation = some cur →
      ∃ gen', writeMarker s cur written = some gen' ∧ gen ≤ gen' := by
    intro cur written hcur
    cases written
    · exact ⟨gen, hgen, Nat.le_refl _⟩
    · exact ⟨cur, rfl, (h.flight cur hcur).2 gen hgen⟩
  cases moved_of_step hstep with
  | writeBaseline written cur hwatcher => exact hmark cur written (by rw [hwatcher]; rfl)
  | writeApplied written cur hwatcher => exact hmark cur written (by rw [hwatcher]; rfl)
  | _ => exact ⟨gen, hgen, Nat.le_refl _⟩

/-- What the watcher holds in flight is covered by the live snapshot or by the one it
is about to install. -/
def Watcher.Covered (s : Reload) : Watcher → Prop
  | .baseline gen => ∀ source, s.live = some source → AtLeast (s.publishedWith gen) source
  | .built cur version => s.publishedWith cur ≤ version
  | .swapped cur => ∀ source, s.live = some source → AtLeast (s.publishedWith cur) source
  | _ => True

theorem Watcher.Covered.congr {s s' : Reload} {w : Watcher} (h : w.Covered s)
    (hlive : s'.live = s.live)
    (hwith : ∀ cur, w.generation = some cur → s'.publishedWith cur = s.publishedWith cur) :
    w.Covered s' := by
  cases w <;> simp only [Watcher.Covered, hlive] at h ⊢ <;> rw [hwith _ rfl] <;> exact h

structure Honest (s : Reload) : Prop where
  order : Ordered s
  marker : MarkerHonest s
  loaded : s.live = none → ∀ version, s.loaded = some (some version) →
    ∀ gen, s.applied = some gen → s.publishedWith gen ≤ version
  idle : s.live = none → s.watcher = .notStarted
  covered : s.watcher.Covered s

theorem Restarted.honest {s : Reload} (h : Restarted s) : Honest s where
  order := h.orderedInv
  marker := by
    intro gen _ source hlive
    rw [h.live] at hlive
    cases hlive
  loaded := by
    intro _ version hloaded
    rw [h.loaded] at hloaded
    cases hloaded
  idle := fun _ => h.watcher
  covered := by
    rw [h.watcher]
    exact trivial

/-- The condition on a step: init installs what it loaded from the manifest, unless no
marker is there to mislead; and the watcher adopts a generation only when the manifest it
was published with is not newer than the one init loaded. -/
def Meets (s : Reload) : Event → Prop
  | .initInstall => s.applied = none ∨ ∃ version, s.loaded = some (some version)
  | .startWatcher readable => ∀ gen, readGeneration s readable = some gen →
      ∀ source, s.live = some source → AtLeast (s.publishedWith gen) source
  | _ => True

/-- A step that leaves the files, the marker and the live snapshot alone. -/
theorem Honest.congr {s s' : Reload} (h : Honest s) (horder : Ordered s')
    (hwith : s'.publishedWith = s.publishedWith) (hmarker : s'.applied = s.applied)
    (hloaded : s'.loaded = s.loaded) (hlive : s'.live = s.live)
    (hidle : s'.live = none → s'.watcher = .notStarted) (hcovered : s'.watcher.Covered s') :
    Honest s' where
  order := horder
  marker := by
    unfold MarkerHonest
    rw [hmarker, hlive, hwith]
    exact h.marker
  loaded := by
    rw [hmarker, hlive, hwith, hloaded]
    exact h.loaded
  idle := hidle
  covered := hcovered

theorem honest_step (s : Reload) (e : Event) (s' : Reload) (h : Honest s) (hmeets : Meets s e)
    (hstep : step s e = some s') : Honest s' := by
  have horder := ordered_step s e s' h.order hstep
  cases moved_of_step hstep with
  | replaceManifest hpublishing =>
      exact h.congr horder rfl rfl rfl rfl h.idle (h.covered.congr rfl fun _ _ => rfl)
  | flipFailed =>
      exact h.congr horder rfl rfl rfl rfl h.idle (h.covered.congr rfl fun _ _ => rfl)
  | flipSentinel =>
      have hflight : ∀ cur, s.watcher.generation = some cur →
          Function.update s.publishedWith (nextGeneration s.sentinel) s.manifest cur =
            s.publishedWith cur := by
        intro cur hcur
        obtain ⟨⟨n, hn, hle⟩, -⟩ := h.order.flight cur hcur
        exact publishedWith_flip hn hle _
      have hgen : ∀ gen, s.applied = some gen →
          Function.update s.publishedWith (nextGeneration s.sentinel) s.manifest gen =
            s.publishedWith gen := by
        intro gen hgen
        obtain ⟨n, hn, hle⟩ := h.order.marker gen hgen
        exact publishedWith_flip hn hle _
      refine ⟨horder, ?_, ?_, h.idle, ?_⟩
      · intro gen happlied source hlive
        simp only [hgen gen happlied]
        exact h.marker gen happlied source hlive
      · intro hlive version hloaded gen happlied
        simp only [hgen gen happlied]
        exact h.loaded hlive version hloaded gen happlied
      · exact h.covered.congr rfl hflight
  | initLoad ok hloaded =>
      refine ⟨horder, h.marker, ?_, h.idle, ?_⟩
      · intro _ version hversion gen _
        cases ok
        · cases hversion
        · obtain rfl := Option.some.inj (Option.some.inj hversion)
          exact h.order.bounded gen
      · exact h.covered.congr rfl fun _ _ => rfl
  | initInstall source hloaded hlive =>
      refine ⟨horder, ?_, (fun hnone => by cases hnone), (fun hnone => by cases hnone), ?_⟩
      · intro gen happlied source' hsource
        obtain rfl := Option.some.inj hsource
        rcases hmeets with hnone | ⟨version, hversion⟩
        · rw [hnone] at happlied
          cases happlied
        · rw [hloaded] at hversion
          obtain rfl := Option.some.inj hversion
          exact ⟨version, rfl, h.loaded hlive version hloaded gen happlied⟩
      · rw [h.idle hlive]
        exact trivial
  | noBaseline readable source hlive =>
      refine h.congr horder rfl rfl rfl rfl (fun hnone => ?_) trivial
      rw [hlive] at hnone
      cases hnone
  | baseline readable gen source hlive hread =>
      refine h.congr horder rfl rfl rfl rfl (fun hnone => ?_) (hmeets gen hread)
      rw [hlive] at hnone
      cases hnone
  | writeBaseline written gen hwatcher =>
      have hcovered := h.covered
      have hidle := h.idle
      rw [hwatcher] at hcovered hidle
      refine ⟨horder, ?_, fun hnone => ?_, fun hnone => ?_, trivial⟩
      · intro gen' hgen' source hlive
        rcases writeMarker_cases hgen' with rfl | hold
        · exact hcovered source hlive
        · exact h.marker gen' hold source hlive
      · cases hidle hnone
      · cases hidle hnone
  | noAdvance readable => exact h
  | advance readable cur hwatcher hread =>
      have hidle := h.idle
      rw [hwatcher] at hidle
      exact h.congr horder rfl rfl rfl rfl (fun hnone => by cases hidle hnone) trivial
  | checkRam fits cur hwatcher =>
      have hidle := h.idle
      rw [hwatcher] at hidle
      refine h.congr horder rfl rfl rfl rfl (fun hnone => by cases hidle hnone) ?_
      cases fits <;> exact trivial
  | build ok cur hwatcher =>
      have hidle := h.idle
      rw [hwatcher] at hidle
      refine h.congr horder rfl rfl rfl rfl (fun hnone => by cases hidle hnone) ?_
      cases ok
      · exact trivial
      · exact h.order.bounded cur
  | swap cur version hwatcher =>
      have hcovered := h.covered
      rw [hwatcher] at hcovered
      refine ⟨horder, ?_, (fun hnone => by cases hnone), (fun hnone => by cases hnone), ?_⟩
      · intro gen happlied source hsource
        obtain rfl := Option.some.inj hsource
        obtain ⟨⟨n, hn, hle⟩, hmarker⟩ := h.order.flight cur (by rw [hwatcher]; rfl)
        exact ⟨version, rfl,
          (h.order.ordered n hn gen cur (hmarker gen happlied) hle).trans hcovered⟩
      · intro source hsource
        obtain rfl := Option.some.inj hsource
        exact ⟨version, rfl, hcovered⟩
  | writeApplied written cur hwatcher =>
      have hcovered := h.covered
      have hidle := h.idle
      rw [hwatcher] at hcovered hidle
      refine ⟨horder, ?_, fun hnone => ?_, fun hnone => ?_, trivial⟩
      · intro gen' hgen' source hlive
        rcases writeMarker_cases hgen' with rfl | hold
        · exact hcovered source hlive
        · exact h.marker gen' hold source hlive
      · cases hidle hnone
      · cases hidle hnone

/-- The marker of the next state is not below the marker of this one. -/
def MarkerGrows (s s' : Reload) : Prop :=
  ∀ gen, s.applied = some gen → ∃ gen', s'.applied = some gen' ∧ gen ≤ gen'

/-- In a run that meets the condition the marker is honest in every state, and it never
decreases. -/
theorem marker_honest_of_meets {s₀ s : Reload} {es : List Event} (hs₀ : Restarted s₀)
    (hmeets : Along step Meets s₀ es) (hrun : run step s₀ es = some s) :
    MarkerHonest s ∧ ∀ e s', step s e = some s' → MarkerGrows s s' := by
  refine ⟨(run_invariant_along honest_step hs₀.honest hmeets hrun).marker, ?_⟩
  intro e s' hstep gen hgen
  exact applied_mono (run_invariant ordered_step hs₀.orderedInv hrun) hstep hgen

/-- A first start: no generation was ever published. -/
def firstStart : Reload where
  manifest := 0
  publishing := false
  sentinel := none
  publishedWith := fun _ => 0
  applied := none
  loaded := none
  live := none
  watcher := .notStarted
  lastGen := none

theorem restarted_firstStart : Restarted firstStart where
  bounded := fun _ => Nat.le_refl 0
  ordered := fun n hn => by cases hn
  marker := fun gen hgen => by cases hgen
  loaded := rfl
  live := rfl
  watcher := rfl
  lastGen := rfl

/-- A publish after the baseline, applied by one turn of the drain loop. -/
def laterPublish : List Event :=
  [.initLoad true, .initInstall, .startWatcher true, .replaceManifest, .flipSentinel true,
    .poll true, .checkRam true, .build true, .swap, .writeApplied true]

theorem marker_honest_of_meets_laterPublish :
    ∃ s, run step firstStart laterPublish = some s ∧ s.applied = some 1 ∧ MarkerHonest s := by
  have hmeets : Along step Meets firstStart laterPublish :=
    ⟨trivial, ⟨Or.inl rfl, ⟨(fun gen hgen => by cases hgen), ⟨trivial, ⟨trivial, ⟨trivial,
      ⟨trivial, ⟨trivial, ⟨trivial, ⟨trivial, trivial⟩⟩⟩⟩⟩⟩⟩⟩⟩⟩
  exact ⟨_, rfl, rfl, (marker_honest_of_meets restarted_firstStart hmeets rfl).1⟩

/-- A publish between init's load and the baseline read: the watcher adopts its
generation without a build. -/
def publishBeforeBaseline : List Event :=
  [.initLoad true, .replaceManifest, .flipSentinel true, .initInstall, .startWatcher true,
    .writeBaseline true]

/-- The marker claims a generation whose manifest the live snapshot has not seen. -/
theorem marker_dishonest_after_baseline :
    ¬ ∀ s₀ es s, Restarted s₀ → run step s₀ es = some s →
      MarkerHonest s ∧ ∀ e s', step s e = some s' → MarkerGrows s s' := by
  intro h
  obtain ⟨version, hversion, hle⟩ :=
    (h firstStart publishBeforeBaseline _ restarted_firstStart rfl).1 1 rfl (some 0) rfl
  obtain rfl := Option.some.inj hversion
  exact absurd hle (by decide)

end PfBlockerNG.ReloadHandshake
