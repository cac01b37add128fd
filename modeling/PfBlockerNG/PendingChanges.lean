import PfBlockerNG.Transitions
import Mathlib.Data.Nat.Basic
import Mathlib.Logic.Function.Basic

/-!
The pending-changes marker: settings saves write `config.xml` and put a fresh version into the
marker, update passes apply the configuration they loaded and record the version they saw. The
saves are numbered in the order of their writes, so a configuration is the number of saves it holds.
-/

namespace PfBlockerNG.PendingChanges

open PfBlockerNG.Transitions

/-- Content of the marker or of its `.applied` record: a version, or the empty text. -/
abbrev Content := Option Nat

/-- Where an update pass is; `seen` is its token, `loaded` the configuration it read. -/
inductive Pass where
  | idle
  | reading
  | versioning
  | rereading
  | loading (seen : Option Content)
  | locking (seen : Option Content) (loaded : Nat)
  | holding (seen : Option Content) (loaded : Nat)
  | applying (seen : Option Content) (loaded : Nat)
  | applied (seen : Option Content) (loaded : Nat)
  | recording (seen : Option Content) (loaded : Nat)
  | givingUp
  | leaving
deriving DecidableEq

structure System where
  stored : Nat
  /-- The configuration last applied. -/
  applied : Nat
  marker : Option Content
  record : Option Content
  /-- Saves between their write and their mark. -/
  unmarked : List Nat
  marked : List Nat
  /-- The versions written so far. -/
  used : List Nat
  dispatcher : Option Nat
  feedPass : Option Nat
  pass : Nat → Pass

inductive Event where
  | save
  | mark (id version : Nat)
  | start (i : Nat)
  | readMarker (i : Nat)
  | version (i version : Nat)
  | reread (i : Nat)
  | load (i : Nat)
  | takeDispatcher (i : Nat)
  | takeFeedPass (i : Nat)
  | refuse (i : Nat)
  | giveUp (i version : Nat)
  | markHeld (i version : Nat)
  | reload (i : Nat)
  | apply (i : Nat)
  | filterFailed (i version : Nat)
  | ledgerFailed (i : Nat)
  | settle (i : Nat)
  | writeRecord (i : Nat)
  | leave (i : Nat)

namespace System

def move (s : System) (i : Nat) (p : Pass) : System :=
  { s with pass := Function.update s.pass i p }

theorem move_pass (s : System) (i : Nat) (p : Pass) : (s.move i p).pass i = p := by
  simp [move]

theorem move_pass_of_ne {s : System} {i j : Nat} {p : Pass} (h : j ≠ i) :
    (s.move i p).pass j = s.pass j := by
  simp [move, h]

/-- `pfb_mark_pending_changes()`. -/
def markPendingChanges (s : System) (version : Nat) : System :=
  { s with marker := some (some version), used := version :: s.used }

/-- `pfb_pending_changes()`. -/
def pendingChanges (s : System) : Bool :=
  match s.marker with
  | none => false
  | some none => true
  | some (some version) => s.record ≠ some (some version)

end System

/-- `$lock` after its holder `i` let go of it. -/
def released (lock : Option Nat) (i : Nat) : Option Nat := if lock = some i then none else lock

def step (s : System) : Event → Option System
  | .save => some { s with stored := s.stored + 1, unmarked := s.stored :: s.unmarked }
  | .mark id version =>
      if id ∈ s.unmarked ∧ version ∉ s.used then
        some { s.markPendingChanges version with
          unmarked := s.unmarked.erase id
          marked := id :: s.marked }
      else none
  | .start i =>
      match s.pass i with
      | .idle => some (s.move i .reading)
      | _ => none
  | .readMarker i =>
      match s.pass i with
      | .reading =>
          match s.marker with
          | some none => some (s.move i .versioning)
          | seen => some (s.move i (.loading seen))
      | _ => none
  | .version i version =>
      match s.pass i with
      | .versioning =>
          if version ∈ s.used then none
          else some ((s.markPendingChanges version).move i .rereading)
      | _ => none
  | .reread i =>
      match s.pass i with
      | .rereading => some (s.move i (.loading s.marker))
      | _ => none
  | .load i =>
      match s.pass i with
      | .loading seen => some (s.move i (.locking seen s.stored))
      | _ => none
  | .takeDispatcher i =>
      match s.pass i, s.dispatcher with
      | .locking seen loaded, none =>
          some { s.move i (.holding seen loaded) with dispatcher := some i }
      | _, _ => none
  | .takeFeedPass i =>
      match s.pass i, s.feedPass with
      | .holding seen loaded, none =>
          some { s.move i (.applying seen loaded) with feedPass := some i }
      | _, _ => none
  | .refuse i =>
      match s.pass i with
      | .locking _ _ | .holding _ _ | .applying _ _ => some (s.move i .givingUp)
      | _ => none
  | .giveUp i version =>
      match s.pass i with
      | .givingUp =>
          if version ∈ s.used then none
          else some ((s.markPendingChanges version).move i .leaving)
      | _ => none
  | .markHeld i version =>
      match s.pass i with
      | .applying _ _ =>
          if version ∈ s.used then none else some (s.markPendingChanges version)
      | _ => none
  | .reload i =>
      match s.pass i with
      | .applying seen _ => some (s.move i (.applying seen s.stored))
      | _ => none
  | .apply i =>
      match s.pass i with
      | .applying seen loaded =>
          some { s.move i (.applied seen loaded) with applied := loaded }
      | _ => none
  | .filterFailed i version =>
      match s.pass i with
      | .applied _ _ =>
          if version ∈ s.used then none
          else some ((s.markPendingChanges version).move i .leaving)
      | _ => none
  | .ledgerFailed i =>
      match s.pass i with
      | .applied _ _ => some (s.move i .leaving)
      | _ => none
  | .settle i =>
      match s.pass i with
      | .applied seen loaded =>
          if seen ≠ none ∧ s.record ≠ seen then some (s.move i (.recording seen loaded))
          else some (s.move i .leaving)
      | _ => none
  | .writeRecord i =>
      match s.pass i with
      | .recording seen _ => some { s.move i .leaving with record := seen }
      | _ => none
  | .leave i =>
      match s.pass i with
      | .leaving =>
          some { s.move i .idle with
            dispatcher := released s.dispatcher i
            feedPass := released s.feedPass i }
      | _ => none

/-- No pass has begun and nothing was marked yet; the files hold anything. -/
structure Start (s : System) : Prop where
  unmarked : s.unmarked = []
  marked : s.marked = []
  marker : ∀ version, s.marker = some (some version) → version ∈ s.used
  record : ∀ version, s.record = some (some version) → version ∈ s.used
  pass : ∀ i, s.pass i = .idle
  feedPass : s.feedPass = none

/-- The configuration holds every save that was marked. -/
def HoldsMarked (s : System) (config : Nat) : Prop := ∀ id ∈ s.marked, id < config

/-- No pass is running and no save stands between its write and its mark. -/
def Quiet (s : System) : Prop := (∀ i, s.pass i = .idle) ∧ s.unmarked = []

/-- A change that is not pending is in the configuration last applied. -/
def NotForgotten (s : System) : Prop := s.pendingChanges = false → HoldsMarked s s.applied

/-- When a pass ends without recording a version, what it had not loaded is still pending. -/
def Meets (s : System) (e : Event) : Prop :=
  match e with
  | .ledgerFailed i => ∀ seen loaded, s.pass i = .applied seen loaded →
      s.pendingChanges = true ∨ HoldsMarked s loaded
  | .settle i => ∀ loaded, s.pass i = .applied none loaded →
      s.pendingChanges = true ∨ HoldsMarked s loaded
  | _ => True

namespace Pass

/-- The token a pass has read. -/
def token : Pass → Option (Option Content)
  | loading seen => some seen
  | locking seen _ | holding seen _ | applying seen _ | applied seen _ | recording seen _ =>
      some seen
  | _ => none

/-- The token and the configuration of a pass that has loaded one. -/
def took : Pass → Option (Option Content × Nat)
  | locking seen loaded | holding seen loaded | applying seen loaded | applied seen loaded
  | recording seen loaded => some (seen, loaded)
  | _ => none

def holds : Pass → Bool
  | applying _ _ | applied _ _ | recording _ _ => true
  | _ => false

/-- The configuration a pass has applied and not settled yet. -/
def unsettled : Pass → Option Nat
  | applied _ loaded | recording _ loaded => some loaded
  | _ => none

theorem token_of_took {p : Pass} {seen : Option Content} {loaded : Nat}
    (h : p.took = some (seen, loaded)) : p.token = some seen := by
  cases p <;> first | exact congrArg (Option.map Prod.fst) h | cases h

theorem holds_of_unsettled {p : Pass} {loaded : Nat} (h : p.unsettled = some loaded) :
    p.holds = true := by
  cases p <;> first | rfl | cases h

end Pass

/-- A token that still is the marker was read after every mark, so its pass holds what was marked;
and while no pass has applied without settling, nothing is forgotten. -/
structure Inv (s : System) : Prop where
  stored : HoldsMarked s s.stored
  unmarked : ∀ id ∈ s.unmarked, id < s.stored
  versioned : (∀ version, s.marker ≠ some (some version)) → s.marked = []
  marker : ∀ version, s.marker = some (some version) → version ∈ s.used
  record : ∀ version, s.record = some (some version) → version ∈ s.used
  token : ∀ i version, (s.pass i).token = some (some (some version)) → version ∈ s.used
  held : ∀ i, (s.pass i).holds = true → s.feedPass = some i
  fresh : ∀ i seen loaded, (s.pass i).took = some (seen, loaded) → s.marker = seen →
    HoldsMarked s loaded
  applied : ∀ i loaded, (s.pass i).unsettled = some loaded → s.applied = loaded
  settled : (∀ i, (s.pass i).unsettled = none) → NotForgotten s

theorem Start.inv {s : System} (h : Start s) : Inv s where
  stored id hid := by
    rw [h.marked] at hid
    cases hid
  unmarked id hid := by
    rw [h.unmarked] at hid
    cases hid
  versioned _ := h.marked
  marker := h.marker
  record := h.record
  token i version ht := by
    rw [h.pass] at ht
    cases ht
  held i hi := by
    rw [h.pass] at hi
    cases hi
  fresh i seen loaded ht := by
    rw [h.pass] at ht
    cases ht
  applied i loaded hi := by
    rw [h.pass] at hi
    cases hi
  settled _ _ id hid := by
    rw [h.marked] at hid
    cases hid

/-- Pending is false only for an absent marker or for a version that is recorded. -/
theorem pendingChanges_eq_false {s : System} (h : s.pendingChanges = false) :
    s.marker = none ∨ ∃ version, s.marker = some (some version) ∧ s.record = s.marker := by
  unfold System.pendingChanges at h
  split at h
  · next hmarker => exact Or.inl hmarker
  · cases h
  · next version hmarker =>
      exact Or.inr ⟨version, hmarker, by simpa [hmarker] using h⟩

theorem pendingChanges_mark {s : System} {version : Nat} (h : Inv s) (hv : version ∉ s.used) :
    (s.markPendingChanges version).pendingChanges = true := by
  have hne : s.record ≠ some (some version) := fun heq => hv (h.record version heq)
  exact decide_eq_true hne

/-- A fresh version is no pass's token. -/
theorem Inv.took_ne {s : System} (h : Inv s) {version : Nat} (hv : version ∉ s.used) {i : Nat}
    {seen : Option Content} {loaded : Nat} (ht : (s.pass i).took = some (seen, loaded)) :
    some (some version) ≠ seen := by
  rintro rfl
  exact hv (h.token i version (Pass.token_of_took ht))

theorem Inv.mark {s : System} (h : Inv s) {version : Nat} (hv : version ∉ s.used)
    {unmarked marked : List Nat} (hunmarked : ∀ id ∈ unmarked, id < s.stored)
    (hmarked : ∀ id ∈ marked, id < s.stored) :
    Inv { s.markPendingChanges version with unmarked := unmarked, marked := marked } where
  stored := hmarked
  unmarked := hunmarked
  versioned hnone := absurd rfl (hnone version)
  marker version' hmarker := by
    obtain rfl := Option.some.inj (Option.some.inj hmarker)
    exact List.mem_cons_self
  record version' hrecord := List.mem_cons_of_mem _ (h.record version' hrecord)
  token i version' ht := List.mem_cons_of_mem _ (h.token i version' ht)
  held := h.held
  fresh i seen loaded ht hmarker := absurd hmarker (h.took_ne hv ht)
  applied := h.applied
  settled _ hpending := by
    have hmark := pendingChanges_mark h hv
    change (s.markPendingChanges version).pendingChanges = false at hpending
    rw [hmark] at hpending
    cases hpending

theorem Inv.markPendingChanges {s : System} (h : Inv s) {version : Nat} (hv : version ∉ s.used) :
    Inv (s.markPendingChanges version) := h.mark hv h.unmarked h.stored

theorem Inv.move {s : System} (h : Inv s) {i : Nat} {p : Pass}
    (htoken : ∀ version, p.token = some (some (some version)) → version ∈ s.used)
    (hheld : p.holds = true → s.feedPass = some i)
    (hfresh : ∀ seen loaded, p.took = some (seen, loaded) → s.marker = seen →
      HoldsMarked s loaded)
    (happlied : ∀ loaded, p.unsettled = some loaded → s.applied = loaded)
    (hsettled : ∀ loaded, (s.pass i).unsettled = some loaded → p.unsettled = none →
      NotForgotten s) : Inv (s.move i p) where
  stored := h.stored
  unmarked := h.unmarked
  versioned := h.versioned
  marker := h.marker
  record := h.record
  token j := by
    rcases eq_or_ne j i with rfl | hj
    · rwa [System.move_pass]
    · rw [System.move_pass_of_ne hj]
      exact h.token j
  held j := by
    rcases eq_or_ne j i with rfl | hj
    · rwa [System.move_pass]
    · rw [System.move_pass_of_ne hj]
      exact h.held j
  fresh j := by
    rcases eq_or_ne j i with rfl | hj
    · rwa [System.move_pass]
    · rw [System.move_pass_of_ne hj]
      exact h.fresh j
  applied j := by
    rcases eq_or_ne j i with rfl | hj
    · rwa [System.move_pass]
    · rw [System.move_pass_of_ne hj]
      exact h.applied j
  settled hnone := by
    have hp := hnone i
    rw [System.move_pass] at hp
    cases hi : (s.pass i).unsettled with
    | some loaded => exact hsettled loaded hi hp
    | none =>
        refine h.settled fun j => ?_
        rcases eq_or_ne j i with rfl | hj
        · exact hi
        · have hother := hnone j
          rwa [System.move_pass_of_ne hj] at hother

/-- A pass that keeps no token has nothing to account for, unless it ends unsettled. -/
theorem Inv.drop {s : System} (h : Inv s) {i : Nat} {p : Pass} (htoken : p.token = none)
    (hsettled : ∀ loaded, (s.pass i).unsettled = some loaded → NotForgotten s) :
    Inv (s.move i p) := by
  have hnone : p.took = none ∧ p.holds = false ∧ p.unsettled = none := by
    revert htoken
    cases p <;> simp [Pass.token, Pass.took, Pass.holds, Pass.unsettled]
  obtain ⟨htook, hholds, hunsettled⟩ := hnone
  refine h.move ?_ ?_ ?_ ?_ fun loaded hloaded _ => hsettled loaded hloaded
  · simp [htoken]
  · simp [hholds]
  · simp [htook]
  · simp [hunsettled]

/-- A pass goes on with what it has, without touching a lock or the files. -/
theorem Inv.advance {s : System} (h : Inv s) {i : Nat} {p : Pass} {seen : Option Content}
    {loaded : Nat} (hi : (s.pass i).took = some (seen, loaded)) (hp : p.took = some (seen, loaded))
    (hheld : p.holds = true → s.feedPass = some i)
    (happlied : ∀ config, p.unsettled = some config → s.applied = config)
    (hsettled : ∀ config, (s.pass i).unsettled = some config → p.unsettled = none →
      NotForgotten s) : Inv (s.move i p) := by
  refine h.move ?_ hheld ?_ happlied hsettled
  · intro version ht
    rw [Pass.token_of_took hp] at ht
    exact h.token i version (by rw [Pass.token_of_took hi, ht])
  · intro seen' loaded' ht hmarker
    rw [hp] at ht
    obtain ⟨rfl, rfl⟩ := Prod.mk.inj (Option.some.inj ht)
    exact h.fresh i seen loaded hi hmarker

/-- A read of the marker is a token that names a version only once it was written. -/
theorem Inv.readToken {s : System} (h : Inv s) {i : Nat} (hi : (s.pass i).unsettled = none) :
    Inv (s.move i (.loading s.marker)) := by
  refine h.move ?_ ?_ ?_ ?_ ?_
  · intro version ht
    exact h.marker version (Option.some.inj ht)
  · intro hholds
    cases hholds
  · intro seen loaded ht
    cases ht
  · intro loaded hloaded
    cases hloaded
  · intro loaded hloaded
    rw [hi] at hloaded
    cases hloaded

theorem Inv.loadStored {s : System} (h : Inv s) {i : Nat} {p : Pass} {seen : Option Content}
    (hi : (s.pass i).token = some seen) (hp : p.took = some (seen, s.stored))
    (hnone : p.unsettled = none) (hheld : p.holds = true → s.feedPass = some i)
    (hbefore : (s.pass i).unsettled = none) : Inv (s.move i p) := by
  refine h.move ?_ hheld ?_ ?_ ?_
  · intro version ht
    rw [Pass.token_of_took hp] at ht
    exact h.token i version (by rw [hi, ht])
  · intro seen' loaded ht _
    rw [hp] at ht
    obtain ⟨-, rfl⟩ := Prod.mk.inj (Option.some.inj ht)
    exact h.stored
  · intro loaded hloaded
    rw [hnone] at hloaded
    cases hloaded
  · intro loaded hloaded
    rw [hbefore] at hloaded
    cases hloaded

theorem Inv.dispatcher {s : System} (h : Inv s) (lock : Option Nat) :
    Inv { s with dispatcher := lock } :=
  ⟨h.stored, h.unmarked, h.versioned, h.marker, h.record, h.token, h.held, h.fresh, h.applied,
    h.settled⟩

theorem Inv.feedPass {s : System} (h : Inv s) {lock : Option Nat}
    (hlock : ∀ i, (s.pass i).holds = true → lock = some i) : Inv { s with feedPass := lock } :=
  ⟨h.stored, h.unmarked, h.versioned, h.marker, h.record, h.token, hlock, h.fresh, h.applied,
    h.settled⟩

/-- Applying is exclusive, so the configuration of the pass is the one last applied. -/
theorem Inv.apply {s : System} (h : Inv s) {i : Nat} {seen : Option Content} {loaded : Nat}
    (hi : s.pass i = .applying seen loaded) :
    Inv { s.move i (.applied seen loaded) with applied := loaded } := by
  have hlock : s.feedPass = some i := h.held i (by rw [hi]; rfl)
  have hpass : (s.move i (.applied seen loaded)).pass i = .applied seen loaded := s.move_pass i _
  have hother : ∀ j, j ≠ i → (s.pass j).unsettled = none := fun j hj => by
    cases hunsettled : (s.pass j).unsettled with
    | none => rfl
    | some config =>
        have hj' := h.held j (Pass.holds_of_unsettled hunsettled)
        rw [hlock] at hj'
        exact absurd (Option.some.inj hj').symm hj
  refine ⟨h.stored, h.unmarked, h.versioned, h.marker, h.record, ?_, ?_, ?_, ?_, ?_⟩
  · intro j version ht
    change ((s.move i (.applied seen loaded)).pass j).token = _ at ht
    rcases eq_or_ne j i with rfl | hj
    · rw [hpass] at ht
      exact h.token j version (by rw [hi]; exact ht)
    · rw [System.move_pass_of_ne hj] at ht
      exact h.token j version ht
  · intro j hholds
    change ((s.move i (.applied seen loaded)).pass j).holds = true at hholds
    rcases eq_or_ne j i with rfl | hj
    · exact hlock
    · rw [System.move_pass_of_ne hj] at hholds
      exact h.held j hholds
  · intro j seen' loaded' ht hmarker
    change ((s.move i (.applied seen loaded)).pass j).took = _ at ht
    rcases eq_or_ne j i with rfl | hj
    · rw [hpass] at ht
      exact h.fresh j seen' loaded' (by rw [hi]; exact ht) hmarker
    · rw [System.move_pass_of_ne hj] at ht
      exact h.fresh j seen' loaded' ht hmarker
  · intro j loaded' hunsettled
    change ((s.move i (.applied seen loaded)).pass j).unsettled = _ at hunsettled
    rcases eq_or_ne j i with rfl | hj
    · rw [hpass] at hunsettled
      exact Option.some.inj hunsettled
    · rw [System.move_pass_of_ne hj, hother j hj] at hunsettled
      cases hunsettled
  · intro hnone
    have hpass' := hnone i
    change ((s.move i (.applied seen loaded)).pass i).unsettled = none at hpass'
    rw [hpass] at hpass'
    cases hpass'

/-- What a pass applied holds every mark when the marker still is its token. -/
theorem Inv.notForgotten_of_token {s : System} (h : Inv s) {i : Nat} {seen : Option Content}
    {loaded : Nat} (hi : (s.pass i).took = some (seen, loaded))
    (hunsettled : (s.pass i).unsettled = some loaded) (hmarker : s.marker = seen) :
    HoldsMarked s s.applied := by
  rw [h.applied i loaded hunsettled]
  exact h.fresh i seen loaded hi hmarker

theorem holdsMarked_of_unmarked {s : System} (h : Inv s) (hmarker : s.marker = none)
    (config : Nat) : HoldsMarked s config := by
  have hmarked := h.versioned fun version => by rw [hmarker]; simp
  intro id hid
  rw [hmarked] at hid
  cases hid

theorem Inv.writeRecord {s : System} (h : Inv s) {i : Nat} {seen : Option Content} {loaded : Nat}
    (hi : s.pass i = .recording seen loaded) :
    Inv { s.move i .leaving with record := seen } := by
  have htook : (s.pass i).took = some (seen, loaded) := by rw [hi]; rfl
  have hunsettled : (s.pass i).unsettled = some loaded := by rw [hi]; rfl
  have hseen : ∀ version, seen = some (some version) → version ∈ s.used := fun version hv =>
    h.token i version (by rw [Pass.token_of_took htook, hv])
  have hrecord : Inv { s with record := seen } := by
    refine ⟨h.stored, h.unmarked, h.versioned, h.marker, hseen, h.token, h.held, h.fresh,
      h.applied, fun hnone => ?_⟩
    have hpass := hnone i
    rw [hunsettled] at hpass
    cases hpass
  refine hrecord.drop rfl fun _ _ hpending => ?_
  rcases pendingChanges_eq_false hpending with hmarker | ⟨version, hmarker, hsame⟩
  · exact holdsMarked_of_unmarked h hmarker _
  · exact h.notForgotten_of_token htook hunsettled hsame.symm

/-- A pass that ends with its record as it was. -/
theorem Inv.end {s : System} (h : Inv s) {i : Nat} {seen : Option Content} {loaded : Nat}
    (hi : s.pass i = .applied seen loaded)
    (hmeets : s.pendingChanges = true ∨ HoldsMarked s loaded ∨ s.record = seen) :
    Inv (s.move i .leaving) := by
  have htook : (s.pass i).took = some (seen, loaded) := by rw [hi]; rfl
  have hunsettled : (s.pass i).unsettled = some loaded := by rw [hi]; rfl
  refine h.drop rfl fun _ _ hpending => ?_
  rcases hmeets with hpending' | hloaded | hrecord
  · rw [hpending] at hpending'
    cases hpending'
  · rw [h.applied i loaded hunsettled]
    exact hloaded
  · rcases pendingChanges_eq_false hpending with hmarker | ⟨version, hmarker, hsame⟩
    · exact holdsMarked_of_unmarked h hmarker _
    · exact h.notForgotten_of_token htook hunsettled (hsame.symm.trans hrecord)

theorem Inv.leave {s : System} (h : Inv s) {i : Nat} (hi : s.pass i = .leaving) :
    Inv { s.move i .idle with
      dispatcher := released s.dispatcher i
      feedPass := released s.feedPass i } := by
  have hmove : Inv (s.move i .idle) := h.drop rfl fun loaded hloaded => by
    rw [hi] at hloaded
    cases hloaded
  have hlock : Inv { s.move i .idle with feedPass := released s.feedPass i } := by
    refine hmove.feedPass fun j hholds => ?_
    rcases eq_or_ne j i with rfl | hj
    · rw [System.move_pass] at hholds
      cases hholds
    · have hother := hmove.held j hholds
      change s.feedPass = some j at hother
      rw [released, hother, if_neg fun heq => hj (Option.some.inj heq)]
  exact hlock.dispatcher _

theorem inv_step (s : System) (e : Event) (s' : System) (h : Inv s) (hmeets : Meets s e)
    (hstep : step s e = some s') : Inv s' := by
  cases e with
  | save =>
      obtain rfl := Option.some.inj hstep
      refine ⟨fun id hid => Nat.lt_succ_of_lt (h.stored id hid), ?_, h.versioned, h.marker,
        h.record, h.token, h.held, h.fresh, h.applied, h.settled⟩
      intro id hid
      rcases List.mem_cons.mp hid with rfl | hid
      · exact Nat.lt_succ_self _
      · exact Nat.lt_succ_of_lt (h.unmarked id hid)
  | mark id version =>
      simp only [step] at hstep
      split at hstep
      · next hguard =>
          obtain rfl := Option.some.inj hstep
          refine h.mark hguard.2 (fun id' hid' => h.unmarked id' (List.mem_of_mem_erase hid')) ?_
          intro id' hid'
          rcases List.mem_cons.mp hid' with rfl | hid'
          · exact h.unmarked _ hguard.1
          · exact h.stored id' hid'
      · cases hstep
  | start i =>
      simp only [step] at hstep
      split at hstep
      · next hi =>
          obtain rfl := Option.some.inj hstep
          exact h.drop rfl fun loaded hloaded => by rw [hi] at hloaded; cases hloaded
      · cases hstep
  | readMarker i =>
      simp only [step] at hstep
      split at hstep
      · next hi =>
          split at hstep
          · obtain rfl := Option.some.inj hstep
            exact h.drop rfl fun loaded hloaded => by rw [hi] at hloaded; cases hloaded
          · obtain rfl := Option.some.inj hstep
            exact h.readToken (by rw [hi]; rfl)
      · cases hstep
  | version i version =>
      simp only [step] at hstep
      split at hstep
      · next hi =>
          split at hstep
          · cases hstep
          · next hv =>
              obtain rfl := Option.some.inj hstep
              refine (h.markPendingChanges hv).drop rfl fun loaded hloaded => ?_
              change (s.pass i).unsettled = some loaded at hloaded
              rw [hi] at hloaded
              cases hloaded
      · cases hstep
  | reread i =>
      simp only [step] at hstep
      split at hstep
      · next hi =>
          obtain rfl := Option.some.inj hstep
          exact h.readToken (by rw [hi]; rfl)
      · cases hstep
  | load i =>
      simp only [step] at hstep
      split at hstep
      · next hi =>
          obtain rfl := Option.some.inj hstep
          exact h.loadStored (by rw [hi]; rfl) rfl rfl (fun hholds => by cases hholds)
            (by rw [hi]; rfl)
      · cases hstep
  | takeDispatcher i =>
      simp only [step] at hstep
      split at hstep
      · next hi hfree =>
          obtain rfl := Option.some.inj hstep
          refine (h.advance (by rw [hi]; rfl) rfl ?_ ?_ ?_).dispatcher _
          · exact fun hholds => by cases hholds
          · exact fun config hconfig => by cases hconfig
          · exact fun config hconfig => by rw [hi] at hconfig; cases hconfig
      · cases hstep
  | takeFeedPass i =>
      simp only [step] at hstep
      split at hstep
      · next seen loaded hi hfree =>
          obtain rfl := Option.some.inj hstep
          have hlock : Inv { s with feedPass := some i } := h.feedPass fun j hholds => by
            have hj := h.held j hholds
            rw [hfree] at hj
            cases hj
          refine hlock.advance (p := .applying seen loaded) (by rw [hi]; rfl) rfl ?_ ?_ ?_
          · exact fun _ => rfl
          · exact fun config hconfig => by cases hconfig
          · exact fun config hconfig => by rw [hi] at hconfig; cases hconfig
      · cases hstep
  | refuse i =>
      simp only [step] at hstep
      split at hstep
      · next hi =>
          obtain rfl := Option.some.inj hstep
          exact h.drop rfl fun loaded hloaded => by rw [hi] at hloaded; cases hloaded
      · next hi =>
          obtain rfl := Option.some.inj hstep
          exact h.drop rfl fun loaded hloaded => by rw [hi] at hloaded; cases hloaded
      · next hi =>
          obtain rfl := Option.some.inj hstep
          exact h.drop rfl fun loaded hloaded => by rw [hi] at hloaded; cases hloaded
      · cases hstep
  | giveUp i version =>
      simp only [step] at hstep
      split at hstep
      · next hi =>
          split at hstep
          · cases hstep
          · next hv =>
              obtain rfl := Option.some.inj hstep
              refine (h.markPendingChanges hv).drop rfl fun loaded hloaded => ?_
              change (s.pass i).unsettled = some loaded at hloaded
              rw [hi] at hloaded
              cases hloaded
      · cases hstep
  | markHeld i version =>
      simp only [step] at hstep
      split at hstep
      · split at hstep
        · cases hstep
        · next hv => exact Option.some.inj hstep ▸ h.markPendingChanges hv
      · cases hstep
  | reload i =>
      simp only [step] at hstep
      split at hstep
      · next hi =>
          obtain rfl := Option.some.inj hstep
          exact h.loadStored (by rw [hi]; rfl) rfl rfl (fun _ => h.held i (by rw [hi]; rfl))
            (by rw [hi]; rfl)
      · cases hstep
  | apply i =>
      simp only [step] at hstep
      split at hstep
      · next hi => exact Option.some.inj hstep ▸ h.apply hi
      · cases hstep
  | filterFailed i version =>
      simp only [step] at hstep
      split at hstep
      · split at hstep
        · cases hstep
        · next hv =>
            obtain rfl := Option.some.inj hstep
            refine (h.markPendingChanges hv).drop rfl fun _ _ hpending => ?_
            rw [pendingChanges_mark h hv] at hpending
            cases hpending
      · cases hstep
  | ledgerFailed i =>
      simp only [step] at hstep
      split at hstep
      · next seen loaded hi =>
          obtain rfl := Option.some.inj hstep
          exact h.end hi ((hmeets seen loaded hi).imp_right Or.inl)
      · cases hstep
  | settle i =>
      simp only [step] at hstep
      split at hstep
      · next seen loaded hi =>
          split at hstep
          · obtain rfl := Option.some.inj hstep
            refine h.advance (by rw [hi]; rfl) rfl (fun _ => h.held i (by rw [hi]; rfl)) ?_ ?_
            · exact fun config hconfig => h.applied i config (by rw [hi]; exact hconfig)
            · exact fun _ _ hnone => by cases hnone
          · next hsame =>
              obtain rfl := Option.some.inj hstep
              cases seen with
              | none => exact h.end hi ((hmeets loaded hi).imp_right Or.inl)
              | some content =>
                  refine h.end hi (Or.inr (Or.inr ?_))
                  by_contra hne
                  exact hsame ⟨by simp, hne⟩
      · cases hstep
  | writeRecord i =>
      simp only [step] at hstep
      split at hstep
      · next hi => exact Option.some.inj hstep ▸ h.writeRecord hi
      · cases hstep
  | leave i =>
      simp only [step] at hstep
      split at hstep
      · next hi => exact Option.some.inj hstep ▸ h.leave hi
      · cases hstep

/-- A pass that was overtaken and ends without recording a version forgets a save. -/
theorem forgotten_of_not_meets {s s' : System} {e : Event} (h : Inv s) (hmeets : ¬ Meets s e)
    (hstep : step s e = some s') : ¬ NotForgotten s' := by
  have hend : ∀ i seen loaded, s.pass i = .applied seen loaded →
      ¬ (s.pendingChanges = true ∨ HoldsMarked s loaded) →
      ¬ NotForgotten (s.move i .leaving) := by
    intro i seen loaded hi hnot hkept
    rw [not_or, Bool.not_eq_true] at hnot
    have hheld := hkept hnot.1
    change HoldsMarked s s.applied at hheld
    rw [h.applied i loaded (by rw [hi]; rfl)] at hheld
    exact hnot.2 hheld
  cases e with
  | ledgerFailed i =>
      simp only [step] at hstep
      split at hstep
      · next seen loaded hi =>
          obtain rfl := Option.some.inj hstep
          refine hend i seen loaded hi fun hor => hmeets fun seen' loaded' hi' => ?_
          rw [hi] at hi'
          cases hi'
          exact hor
      · cases hstep
  | settle i =>
      simp only [step] at hstep
      split at hstep
      · next seen loaded hi =>
          cases seen with
          | none =>
              rw [if_neg (by simp)] at hstep
              obtain rfl := Option.some.inj hstep
              refine hend i none loaded hi fun hor => hmeets fun loaded' hi' => ?_
              rw [hi] at hi'
              cases hi'
              exact hor
          | some content =>
              refine absurd (fun loaded' hi' => ?_) hmeets
              rw [hi] at hi'
              cases hi'
      · cases hstep
  | _ => exact absurd trivial hmeets

/-! ### Overtaken passes -/

/-- The pass reads the stored configuration. -/
def Loads (i : Nat) : Event → Prop
  | .load j | .reload j => j = i
  | _ => False

/-- The marker or its record is written. -/
def Writes : Event → Prop
  | .mark _ _ | .version _ _ | .giveUp _ _ | .markHeld _ _ | .filterFailed _ _ | .writeRecord _ =>
      True
  | _ => False

/-- A save was marked that the pass had not loaded, and it has not loaded since. -/
inductive Missed (s₀ : System) (i : Nat) : List Event → Prop
  | mark {es : List Event} {s : System} {id version loaded : Nat} {seen : Option Content}
      (hrun : run step s₀ es = some s) (htook : (s.pass i).took = some (seen, loaded))
      (hid : loaded ≤ id) : Missed s₀ i (es ++ [.mark id version])
  | next {es : List Event} {e : Event} (h : Missed s₀ i es) (he : ¬ Loads i e) :
      Missed s₀ i (es ++ [e])

/-- Another pass recorded the version in the marker while a save was missed, and neither the load
nor the two files were renewed since. -/
inductive Overtaken (s₀ : System) (i : Nat) : List Event → Prop
  | record {es : List Event} {s : System} {j : Nat} (h : Missed s₀ i es)
      (hrun : run step s₀ es = some s) (hother : j ≠ i)
      (htoken : (s.pass j).token = some s.marker) : Overtaken s₀ i (es ++ [.writeRecord j])
  | next {es : List Event} {e : Event} (h : Overtaken s₀ i es) (hload : ¬ Loads i e)
      (hwrite : ¬ Writes e) : Overtaken s₀ i (es ++ [e])

/-- The pass ends without recording a version: it read no marker, or the ledger could not be
written. -/
def EndsUnrecorded (s : System) (i : Nat) : Event → Prop
  | .ledgerFailed j => j = i
  | .settle j => j = i ∧ (s.pass i).token = some none
  | _ => False

/-- No pass that ends without recording a version was overtaken. -/
def Unovertaken (s₀ : System) (done : List Event) (s : System) (e : Event) : Prop :=
  ∀ i, EndsUnrecorded s i e → ¬ Overtaken s₀ i done

/-- What a step leaves alone: the configuration of a pass that does not load, the files it does not
write, and the marked saves. -/
structure Frame (s : System) (e : Event) (s' : System) : Prop where
  took : ∀ i, ¬ Loads i e → (s'.pass i).took = none ∨ (s'.pass i).took = (s.pass i).took
  files : ¬ Writes e → s'.marker = s.marker ∧ s'.record = s.record
  marked : (∀ id version, e ≠ .mark id version) → s'.marked = s.marked

theorem frame_move {s s' : System} {e : Event} {j : Nat} {p : Pass}
    (hpass : s'.pass = Function.update s.pass j p)
    (hp : ¬ Loads j e → p.took = none ∨ p.took = (s.pass j).took)
    (hfiles : ¬ Writes e → s'.marker = s.marker ∧ s'.record = s.record)
    (hmarked : s'.marked = s.marked) : Frame s e s' := by
  refine ⟨fun i hload => ?_, hfiles, fun _ => hmarked⟩
  rw [hpass]
  rcases eq_or_ne i j with rfl | hi
  · rw [Function.update_self]
    exact hp hload
  · rw [Function.update_of_ne hi]
    exact Or.inr rfl

theorem frame_of_step {s s' : System} {e : Event} (h : step s e = some s') : Frame s e s' := by
  cases e with
  | save =>
      obtain rfl := Option.some.inj h
      exact ⟨fun _ _ => Or.inr rfl, fun _ => ⟨rfl, rfl⟩, fun _ => rfl⟩
  | mark id version =>
      simp only [step] at h
      split at h
      · obtain rfl := Option.some.inj h
        exact ⟨fun _ _ => Or.inr rfl, fun hw => absurd trivial hw,
          fun hne => absurd rfl (hne id version)⟩
      · cases h
  | start i =>
      simp only [step] at h
      split at h
      · obtain rfl := Option.some.inj h
        exact frame_move rfl (fun _ => Or.inl rfl) (fun _ => ⟨rfl, rfl⟩) rfl
      · cases h
  | readMarker i =>
      simp only [step] at h
      split at h
      · split at h
        · obtain rfl := Option.some.inj h
          exact frame_move rfl (fun _ => Or.inl rfl) (fun _ => ⟨rfl, rfl⟩) rfl
        · obtain rfl := Option.some.inj h
          exact frame_move rfl (fun _ => Or.inl rfl) (fun _ => ⟨rfl, rfl⟩) rfl
      · cases h
  | version i version =>
      simp only [step] at h
      split at h
      · split at h
        · cases h
        · obtain rfl := Option.some.inj h
          exact frame_move rfl (fun _ => Or.inl rfl) (fun hw => absurd trivial hw) rfl
      · cases h
  | reread i =>
      simp only [step] at h
      split at h
      · obtain rfl := Option.some.inj h
        exact frame_move rfl (fun _ => Or.inl rfl) (fun _ => ⟨rfl, rfl⟩) rfl
      · cases h
  | load i =>
      simp only [step] at h
      split at h
      · obtain rfl := Option.some.inj h
        exact frame_move rfl (fun hl => absurd rfl hl) (fun _ => ⟨rfl, rfl⟩) rfl
      · cases h
  | takeDispatcher i =>
      simp only [step] at h
      split at h
      · next hi _ =>
          obtain rfl := Option.some.inj h
          exact frame_move rfl (fun _ => Or.inr (by rw [hi]; rfl)) (fun _ => ⟨rfl, rfl⟩) rfl
      · cases h
  | takeFeedPass i =>
      simp only [step] at h
      split at h
      · next hi _ =>
          obtain rfl := Option.some.inj h
          exact frame_move rfl (fun _ => Or.inr (by rw [hi]; rfl)) (fun _ => ⟨rfl, rfl⟩) rfl
      · cases h
  | refuse i =>
      simp only [step] at h
      split at h
      · obtain rfl := Option.some.inj h
        exact frame_move rfl (fun _ => Or.inl rfl) (fun _ => ⟨rfl, rfl⟩) rfl
      · obtain rfl := Option.some.inj h
        exact frame_move rfl (fun _ => Or.inl rfl) (fun _ => ⟨rfl, rfl⟩) rfl
      · obtain rfl := Option.some.inj h
        exact frame_move rfl (fun _ => Or.inl rfl) (fun _ => ⟨rfl, rfl⟩) rfl
      · cases h
  | giveUp i version =>
      simp only [step] at h
      split at h
      · split at h
        · cases h
        · obtain rfl := Option.some.inj h
          exact frame_move rfl (fun _ => Or.inl rfl) (fun hw => absurd trivial hw) rfl
      · cases h
  | markHeld i version =>
      simp only [step] at h
      split at h
      · split at h
        · cases h
        · obtain rfl := Option.some.inj h
          exact ⟨fun _ _ => Or.inr rfl, fun hw => absurd trivial hw, fun _ => rfl⟩
      · cases h
  | reload i =>
      simp only [step] at h
      split at h
      · obtain rfl := Option.some.inj h
        exact frame_move rfl (fun hl => absurd rfl hl) (fun _ => ⟨rfl, rfl⟩) rfl
      · cases h
  | apply i =>
      simp only [step] at h
      split at h
      · next hi =>
          obtain rfl := Option.some.inj h
          exact frame_move rfl (fun _ => Or.inr (by rw [hi]; rfl)) (fun _ => ⟨rfl, rfl⟩) rfl
      · cases h
  | filterFailed i version =>
      simp only [step] at h
      split at h
      · split at h
        · cases h
        · obtain rfl := Option.some.inj h
          exact frame_move rfl (fun _ => Or.inl rfl) (fun hw => absurd trivial hw) rfl
      · cases h
  | ledgerFailed i =>
      simp only [step] at h
      split at h
      · obtain rfl := Option.some.inj h
        exact frame_move rfl (fun _ => Or.inl rfl) (fun _ => ⟨rfl, rfl⟩) rfl
      · cases h
  | settle i =>
      simp only [step] at h
      split at h
      · next hi =>
          split at h
          · obtain rfl := Option.some.inj h
            exact frame_move rfl (fun _ => Or.inr (by rw [hi]; rfl)) (fun _ => ⟨rfl, rfl⟩) rfl
          · obtain rfl := Option.some.inj h
            exact frame_move rfl (fun _ => Or.inl rfl) (fun _ => ⟨rfl, rfl⟩) rfl
      · cases h
  | writeRecord i =>
      simp only [step] at h
      split at h
      · obtain rfl := Option.some.inj h
        exact frame_move rfl (fun _ => Or.inl rfl) (fun hw => absurd trivial hw) rfl
      · cases h
  | leave i =>
      simp only [step] at h
      split at h
      · obtain rfl := Option.some.inj h
        exact frame_move rfl (fun _ => Or.inl rfl) (fun _ => ⟨rfl, rfl⟩) rfl
      · cases h

/-- A load takes the stored configuration, and leaves the marked saves as they are. -/
theorem took_of_loads {s s' : System} {e : Event} {i : Nat} (h : step s e = some s')
    (hload : Loads i e) :
    (∃ seen, (s'.pass i).took = some (seen, s.stored)) ∧ s'.marked = s.marked := by
  cases e with
  | load j =>
      obtain rfl := hload
      simp only [step] at h
      split at h
      · obtain rfl := Option.some.inj h
        exact ⟨⟨_, by rw [System.move_pass]; rfl⟩, rfl⟩
      · cases h
  | reload j =>
      obtain rfl := hload
      simp only [step] at h
      split at h
      · obtain rfl := Option.some.inj h
        exact ⟨⟨_, by rw [System.move_pass]; rfl⟩, rfl⟩
      · cases h
  | _ => cases hload

theorem missed_concat {s₀ : System} {i : Nat} {es : List Event} {e : Event} :
    Missed s₀ i (es ++ [e]) ↔
      (∃ s id version seen loaded, e = .mark id version ∧ run step s₀ es = some s ∧
        (s.pass i).took = some (seen, loaded) ∧ loaded ≤ id) ∨ (Missed s₀ i es ∧ ¬ Loads i e) := by
  constructor
  · generalize hconcat : es ++ [e] = all
    rintro (⟨hrun, htook, hid⟩ | ⟨h, he⟩)
    · obtain ⟨rfl, heq⟩ := List.append_inj' hconcat rfl
      obtain rfl := List.singleton_inj.mp heq
      exact Or.inl ⟨_, _, _, _, _, rfl, hrun, htook, hid⟩
    · obtain ⟨rfl, heq⟩ := List.append_inj' hconcat rfl
      obtain rfl := List.singleton_inj.mp heq
      exact Or.inr ⟨h, he⟩
  · rintro (⟨s, id, version, seen, loaded, rfl, hrun, htook, hid⟩ | ⟨h, he⟩)
    · exact .mark hrun htook hid
    · exact .next h he

theorem overtaken_concat {s₀ : System} {i : Nat} {es : List Event} {e : Event} :
    Overtaken s₀ i (es ++ [e]) ↔
      (∃ s j, e = .writeRecord j ∧ Missed s₀ i es ∧ run step s₀ es = some s ∧ j ≠ i ∧
        (s.pass j).token = some s.marker) ∨ (Overtaken s₀ i es ∧ ¬ Loads i e ∧ ¬ Writes e) := by
  constructor
  · generalize hconcat : es ++ [e] = all
    rintro (⟨h, hrun, hother, htoken⟩ | ⟨h, hload, hwrite⟩)
    · obtain ⟨rfl, heq⟩ := List.append_inj' hconcat rfl
      obtain rfl := List.singleton_inj.mp heq
      exact Or.inl ⟨_, _, rfl, h, hrun, hother, htoken⟩
    · obtain ⟨rfl, heq⟩ := List.append_inj' hconcat rfl
      obtain rfl := List.singleton_inj.mp heq
      exact Or.inr ⟨h, hload, hwrite⟩
  · rintro (⟨s, j, rfl, h, hrun, hother, htoken⟩ | ⟨h, hload, hwrite⟩)
    · exact .record h hrun hother htoken
    · exact .next h hload hwrite

theorem marked_of_mark {s s' : System} {id version : Nat}
    (h : step s (.mark id version) = some s') : s'.marked = id :: s.marked := by
  simp only [step] at h
  split at h
  · obtain rfl := Option.some.inj h
    rfl
  · cases h

theorem not_holdsMarked_cons {s s' : System} {id loaded : Nat} (h : s'.marked = id :: s.marked) :
    ¬ HoldsMarked s' loaded ↔ loaded ≤ id ∨ ¬ HoldsMarked s loaded := by
  unfold HoldsMarked
  rw [h, List.forall_mem_cons, not_and_or, Nat.not_lt]

/-- What the events so far say of a pass that has loaded a configuration: it missed a save when some
marked save is not in it, and it was overtaken when moreover nothing is pending. -/
structure History (s₀ : System) (es : List Event) (s : System) : Prop where
  inv : Inv s
  missed : ∀ i seen loaded, (s.pass i).took = some (seen, loaded) →
    (Missed s₀ i es ↔ ¬ HoldsMarked s loaded)
  overtaken : ∀ i seen loaded, (s.pass i).took = some (seen, loaded) →
    (Overtaken s₀ i es ↔ s.pendingChanges = false ∧ ¬ HoldsMarked s loaded)

section Step

variable {s₀ s s' : System} {es : List Event} {e : Event} {i : Nat} {seen : Option Content}
  {loaded : Nat}

theorem took_before (hstep : step s e = some s') (hload : ¬ Loads i e)
    (htook : (s'.pass i).took = some (seen, loaded)) : (s.pass i).took = some (seen, loaded) := by
  rcases (frame_of_step hstep).took i hload with hnone | hsame
  · rw [hnone] at htook
    cases htook
  · rw [← hsame, htook]

theorem holdsMarked_of_loads (h : Inv s) (hstep : step s e = some s') (hload : Loads i e)
    (htook : (s'.pass i).took = some (seen, loaded)) : HoldsMarked s' loaded := by
  obtain ⟨⟨seen', hnew⟩, hmarked⟩ := took_of_loads hstep hload
  rw [htook] at hnew
  obtain ⟨-, rfl⟩ := Prod.mk.inj (Option.some.inj hnew)
  intro id hid
  rw [hmarked] at hid
  exact h.stored id hid

theorem History.missed_step (h : History s₀ es s) (hrun : run step s₀ es = some s)
    (hstep : step s e = some s') (htook : (s'.pass i).took = some (seen, loaded)) :
    Missed s₀ i (es ++ [e]) ↔ ¬ HoldsMarked s' loaded := by
  rw [missed_concat]
  by_cases hload : Loads i e
  · refine iff_of_false ?_ (not_not.mpr (holdsMarked_of_loads h.inv hstep hload htook))
    rintro (⟨_, _, _, _, _, rfl, -⟩ | ⟨-, hnot⟩)
    · exact hload
    · exact hnot hload
  · have hbefore := took_before hstep hload htook
    have hih := h.missed i seen loaded hbefore
    by_cases hmark : ∃ id version, e = .mark id version
    · obtain ⟨id, version, rfl⟩ := hmark
      rw [not_holdsMarked_cons (marked_of_mark hstep), ← hih]
      constructor
      · rintro (⟨t, id', version', seen', loaded', heq, ht, htook', hid⟩ | ⟨hmissed, -⟩)
        · obtain ⟨rfl, -⟩ := Event.mark.inj heq
          obtain rfl := Option.some.inj (hrun.symm.trans ht)
          rw [hbefore] at htook'
          obtain ⟨-, rfl⟩ := Prod.mk.inj (Option.some.inj htook')
          exact Or.inl hid
        · exact Or.inr hmissed
      · rintro (hid | hmissed)
        · exact Or.inl ⟨s, id, version, seen, loaded, rfl, hrun, hbefore, hid⟩
        · exact Or.inr ⟨hmissed, hload⟩
    · have hmarked := (frame_of_step hstep).marked fun id version heq => hmark ⟨id, version, heq⟩
      rw [HoldsMarked, hmarked, ← HoldsMarked, ← hih]
      constructor
      · rintro (⟨_, id, version, _, _, heq, -⟩ | ⟨hmissed, -⟩)
        · exact absurd ⟨id, version, heq⟩ hmark
        · exact hmissed
      · exact fun hmissed => Or.inr ⟨hmissed, hload⟩

/-- After a version was written to the marker, changes are pending. -/
theorem pendingChanges_of_writes (h : Inv s) (hstep : step s e = some s') (hwrite : Writes e)
    (hrecord : ∀ j, e ≠ .writeRecord j) : s'.pendingChanges = true := by
  cases e with
  | mark id version =>
      simp only [step] at hstep
      split at hstep
      · next hguard =>
          obtain rfl := Option.some.inj hstep
          exact pendingChanges_mark (s := s) h hguard.2
      · cases hstep
  | version j version | giveUp j version | markHeld j version | filterFailed j version =>
      simp only [step] at hstep
      split at hstep
      · split at hstep
        · cases hstep
        · next hv =>
            obtain rfl := Option.some.inj hstep
            exact pendingChanges_mark (s := s) h hv
      · cases hstep
  | writeRecord j => exact absurd rfl (hrecord j)
  | _ => cases hwrite

theorem pendingChanges_congr (hmarker : s'.marker = s.marker) (hrecord : s'.record = s.record) :
    s'.pendingChanges = s.pendingChanges := by
  unfold System.pendingChanges
  rw [hmarker, hrecord]

/-- Once a save was marked, what a pass records is nothing but the version in the marker, or
changes stay pending. -/
theorem pendingChanges_writeRecord (h : Inv s) {j : Nat}
    (hstep : step s (.writeRecord j) = some s') (hmarked : ¬ HoldsMarked s loaded) :
    s'.pendingChanges = false ↔ (s.pass j).token = some s.marker := by
  simp only [step] at hstep
  split at hstep
  · next seen' loaded' hj =>
      obtain rfl := Option.some.inj hstep
      rw [hj]
      change _ ↔ some seen' = some s.marker
      have hversion : ∃ version, s.marker = some (some version) := by
        by_contra hnone
        refine hmarked fun id hid => ?_
        rw [h.versioned fun version heq => hnone ⟨version, heq⟩] at hid
        cases hid
      obtain ⟨version, hversion⟩ := hversion
      simp [System.pendingChanges, System.move, hversion]
  · cases hstep

theorem History.overtaken_step (h : History s₀ es s) (hrun : run step s₀ es = some s)
    (hstep : step s e = some s') (htook : (s'.pass i).took = some (seen, loaded)) :
    Overtaken s₀ i (es ++ [e]) ↔ s'.pendingChanges = false ∧ ¬ HoldsMarked s' loaded := by
  rw [overtaken_concat]
  by_cases hload : Loads i e
  · refine iff_of_false ?_ fun hright =>
      hright.2 (holdsMarked_of_loads h.inv hstep hload htook)
    rintro (⟨_, _, rfl, -⟩ | ⟨-, hnot, -⟩)
    · exact hload
    · exact hnot hload
  · have hbefore := took_before hstep hload htook
    by_cases hrecord : ∃ j, e = .writeRecord j
    · obtain ⟨j, rfl⟩ := hrecord
      have hother : j ≠ i := by
        rintro rfl
        simp only [step] at hstep
        split at hstep
        · obtain rfl := Option.some.inj hstep
          rw [System.move_pass] at htook
          cases htook
        · cases hstep
      have hmarked := (frame_of_step hstep).marked fun id version heq => by cases heq
      rw [HoldsMarked, hmarked, ← HoldsMarked]
      constructor
      · rintro (⟨t, j', heq, hmissed, ht, -, htoken⟩ | ⟨-, -, hnot⟩)
        · obtain rfl := Event.writeRecord.inj heq
          obtain rfl := Option.some.inj (hrun.symm.trans ht)
          have hnot := (h.missed i seen loaded hbefore).mp hmissed
          exact ⟨(pendingChanges_writeRecord h.inv hstep hnot).mpr htoken, hnot⟩
        · exact absurd trivial hnot
      · rintro ⟨hpending, hnot⟩
        exact Or.inl ⟨s, j, rfl, (h.missed i seen loaded hbefore).mpr hnot, hrun, hother,
          (pendingChanges_writeRecord h.inv hstep hnot).mp hpending⟩
    · by_cases hwrite : Writes e
      · have hpending := pendingChanges_of_writes h.inv hstep hwrite
          fun j heq => hrecord ⟨j, heq⟩
        refine iff_of_false ?_ fun hright => ?_
        · rintro (⟨_, j, heq, -⟩ | ⟨-, -, hnot⟩)
          · exact hrecord ⟨j, heq⟩
          · exact hnot hwrite
        · rw [hpending] at hright
          cases hright.1
      · obtain ⟨hmarker, hsame⟩ := (frame_of_step hstep).files hwrite
        have hmarked := (frame_of_step hstep).marked fun id version heq =>
          hwrite (heq ▸ trivial)
        rw [HoldsMarked, hmarked, ← HoldsMarked, pendingChanges_congr hmarker hsame,
          ← h.overtaken i seen loaded hbefore]
        constructor
        · rintro (⟨_, j, heq, -⟩ | ⟨hover, -⟩)
          · exact absurd ⟨j, heq⟩ hrecord
          · exact hover
        · exact fun hover => Or.inr ⟨hover, hload, hwrite⟩

/-- What a pass that ends without recording a version had loaded is accounted for, unless it was
overtaken. -/
theorem History.meets_iff (h : History s₀ es s) (hstep : step s e = some s') :
    Meets s e ↔ Unovertaken s₀ es s e := by
  have hends : ∀ j seen loaded, s.pass j = .applied seen loaded →
      ((s.pendingChanges = true ∨ HoldsMarked s loaded) ↔ ¬ Overtaken s₀ j es) := by
    intro j seen loaded hj
    rw [h.overtaken j seen loaded (by rw [hj]; rfl), not_and_or, not_not, Bool.not_eq_false]
  cases e with
  | ledgerFailed j =>
      simp only [step] at hstep
      split at hstep
      · next seen loaded hj =>
          constructor
          · rintro hmeets i rfl
            exact (hends _ seen loaded hj).mp (hmeets seen loaded hj)
          · intro hun seen' loaded' hj'
            exact (hends j seen' loaded' hj').mpr (hun j rfl)
      · cases hstep
  | settle j =>
      simp only [step] at hstep
      split at hstep
      · next seen loaded hj =>
          constructor
          · rintro hmeets i ⟨rfl, htoken⟩
            rw [hj] at htoken
            obtain rfl := Option.some.inj htoken
            exact (hends _ none loaded hj).mp (hmeets loaded hj)
          · intro hun loaded' hj'
            exact (hends j none loaded' hj').mpr (hun j ⟨rfl, by rw [hj']; rfl⟩)
      · cases hstep
  | _ => exact iff_of_true trivial fun i hends => hends.elim

end Step

theorem history_of_start {s₀ : System} (h : Start s₀) : History s₀ [] s₀ where
  inv := h.inv
  missed i seen loaded htook := by
    rw [h.pass] at htook
    cases htook
  overtaken i seen loaded htook := by
    rw [h.pass] at htook
    cases htook

theorem history_of_run {s₀ s : System} {es : List Event} (hstart : Start s₀)
    (hrun : run step s₀ es = some s) (hun : AlongHistory step (Unovertaken s₀) s₀ es) :
    History s₀ es s :=
  run_history_along (history_of_start hstart)
    (fun _ _ _ _ hrun h hmeets hstep =>
      ⟨inv_step _ _ _ h.inv ((h.meets_iff hstep).mpr hmeets) hstep,
        fun _ _ _ => h.missed_step hrun hstep, fun _ _ _ => h.overtaken_step hrun hstep⟩)
    hun hrun

/-- From every start, in a run in which no pass that ends without recording a version was
overtaken, a change that is not pending was applied; and the first such end forgets one. -/
theorem pending_until_applied {s₀ s : System} {es : List Event} (hstart : Start s₀)
    (hrun : run step s₀ es = some s) (hun : AlongHistory step (Unovertaken s₀) s₀ es) :
    (Quiet s → NotForgotten s) ∧
      ∀ e s', step s e = some s' → ¬ Unovertaken s₀ es s e → ¬ NotForgotten s' := by
  have hhistory := history_of_run hstart hrun hun
  refine ⟨fun hquiet => hhistory.inv.settled fun i => ?_, fun e s' hstep hnot => ?_⟩
  · rw [hquiet.1 i]
    rfl
  · exact forgotten_of_not_meets hhistory.inv
      (fun hmeets => hnot ((hhistory.meets_iff hstep).mp hmeets)) hstep

/-- A node without a marker. -/
def unmarkedNode : System where
  stored := 0
  applied := 0
  marker := none
  record := none
  unmarked := []
  marked := []
  used := []
  dispatcher := none
  feedPass := none
  pass := fun _ => .idle

theorem unmarkedNode_start : Start unmarkedNode where
  unmarked := rfl
  marked := rfl
  marker _ h := by cases h
  record _ h := by cases h
  pass _ := rfl
  feedPass := rfl

/-- A pass that finds no marker and records nothing; then a save, and a pass that applies it. -/
def passSavePass : List Event :=
  [.start 0, .readMarker 0, .load 0, .takeDispatcher 0, .takeFeedPass 0, .apply 0, .settle 0,
    .leave 0, .save, .mark 0 7, .start 0, .readMarker 0, .load 0, .takeDispatcher 0,
    .takeFeedPass 0, .apply 0, .settle 0, .writeRecord 0, .leave 0]

theorem exists_writeRecord_of_overtaken {s₀ : System} {i : Nat} {es : List Event}
    (h : Overtaken s₀ i es) : ∃ j, j ≠ i ∧ .writeRecord j ∈ es := by
  induction h with
  | @record es s j _ _ hother _ => exact ⟨j, hother, by simp⟩
  | next _ _ _ ih =>
      obtain ⟨j, hother, hmem⟩ := ih
      exact ⟨j, hother, List.mem_append_left _ hmem⟩

theorem pending_until_applied_twice :
    ∃ s, run step unmarkedNode passSavePass = some s ∧ (Quiet s → NotForgotten s) := by
  have hun : AlongHistory step (Unovertaken unmarkedNode) unmarkedNode passSavePass := by
    intro done e rest s hsplit hrun i hends hover
    obtain ⟨j, hother, hmem⟩ := exists_writeRecord_of_overtaken hover
    have hj : .writeRecord j ∈ passSavePass := hsplit ▸ List.mem_append_left _ hmem
    have he : e ∈ passSavePass := hsplit ▸ List.mem_append_right _ List.mem_cons_self
    have hzero : i = 0 := by
      cases e with
      | ledgerFailed k => simp [passSavePass] at he
      | settle k =>
          obtain rfl : k = 0 := by simpa [passSavePass] using he
          exact hends.1.symm
      | _ => exact hends.elim
    exact hother (by simpa [passSavePass, hzero] using hj)
  exact ⟨_, rfl, (pending_until_applied unmarkedNode_start rfl hun).1⟩

/-- A pass reads no marker and loads the configuration; a save is marked, applied and settled by
another pass; then the first pass takes the locks and applies what it loaded. -/
theorem overtaken_forgets : ∃ s, run step unmarkedNode
      [.start 0, .readMarker 0, .load 0, .save, .mark 0 7, .start 1, .readMarker 1, .load 1,
        .takeDispatcher 1, .takeFeedPass 1, .apply 1, .settle 1, .writeRecord 1, .leave 1,
        .takeDispatcher 0, .takeFeedPass 0, .apply 0, .settle 0, .leave 0] = some s ∧
    Start unmarkedNode ∧ Quiet s ∧ s.pendingChanges = false ∧ ¬ HoldsMarked s s.applied := by
  refine ⟨_, rfl, unmarkedNode_start, ⟨fun i => ?_, rfl⟩, rfl, fun h => ?_⟩
  · rcases i with _ | _ | i
    · rfl
    · rfl
    · rfl
  · exact absurd (h 0 List.mem_cons_self) (by decide)

end PfBlockerNG.PendingChanges
