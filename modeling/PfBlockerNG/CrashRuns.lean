import Mathlib.Tactic.Common

/-!
Processes whose operations may fail and which may be stopped before any operation, with the rules
for what holds of the state wherever such a process ends.
-/

namespace PfBlockerNG.CrashRuns

/-- What the environment does with an operation. -/
inductive Fate where
  | done
  | fails
  | stops
  deriving DecidableEq, Repr

/-- The fates of the operations to come, and of the tests to come whether they miss what is there.
Past its end every operation is done and every test is true to the state. -/
structure Script where
  fates : List Fate
  misses : List Bool
  deriving DecidableEq, Repr

namespace Script

def fate (s : Script) : Fate := s.fates.headD .done

def missed (s : Script) : Bool := s.misses.headD false

def afterOperation (s : Script) : Script := { s with fates := s.fates.tail }

def afterTest (s : Script) : Script := { s with misses := s.misses.tail }

/-- Nothing fails and nothing stops the process. -/
def quiet : Script := ⟨[], []⟩

/-- No test misses what is there. -/
def Truthful (s : Script) : Prop := ∀ m ∈ s.misses, m = false

instance (s : Script) : Decidable s.Truthful :=
  inferInstanceAs (Decidable (∀ m ∈ s.misses, m = false))

theorem Truthful.missed {s : Script} (h : s.Truthful) : s.missed = false := by
  obtain ⟨fates, misses⟩ := s
  cases misses with
  | nil => rfl
  | cons m misses => exact h m List.mem_cons_self

/-- A script in which anything may happen, or only what leaves tests sure. -/
def Admitted (sure : Bool) (s : Script) : Prop := sure = true → s.Truthful

variable {sure : Bool} {s : Script}

theorem Admitted.afterOperation (h : s.Admitted sure) : s.afterOperation.Admitted sure := h

theorem Admitted.afterTest (h : s.Admitted sure) : s.afterTest.Admitted sure :=
  fun hsure m hm => h hsure m (List.mem_of_mem_tail hm)

end Script

/-- How a process ends: its answer, unless it was stopped, and what it leaves. -/
structure Outcome (σ α : Type) where
  answer : Option α
  script : Script
  state : σ
  deriving DecidableEq, Repr

def Process (σ α : Type) := Script → σ → Outcome σ α

namespace Process

variable {σ α β : Type}

protected def pure (a : α) : Process σ α := fun s w => ⟨some a, s, w⟩

protected def bind (p : Process σ α) (f : α → Process σ β) : Process σ β := fun s w =>
  match p s w with
  | ⟨none, s', w'⟩ => ⟨none, s', w'⟩
  | ⟨some a, s', w'⟩ => f a s' w'

instance : Monad (Process σ) where
  pure := Process.pure
  bind := Process.bind

/-- An operation: what it answers and does when it is done, and its answer when it fails, in which
case it leaves the state alone. -/
def operation (effect : σ → α × σ) (failure : α) : Process σ α := fun s w =>
  match s.fate with
  | .done => ⟨some (effect w).1, s.afterOperation, (effect w).2⟩
  | .fails => ⟨some failure, s.afterOperation, w⟩
  | .stops => ⟨none, s.afterOperation, w⟩

/-- A test of the state. -/
def test (holds : σ → Bool) : Process σ Bool := fun s w =>
  ⟨some (!s.missed && holds w), s.afterTest, w⟩

/-- A test that answers what it finds. -/
def observe (found : σ → Option α) : Process σ (Option α) := fun s w =>
  ⟨some (if s.missed then none else found w), s.afterTest, w⟩

/-- What is in memory is read and changed without fail. -/
def inspect (f : σ → α) : Process σ α := fun s w => ⟨some (f w), s, w⟩

def modify (f : σ → σ) : Process σ Unit := fun s w => ⟨some (), s, f w⟩

/-- From `w`, under any script, or any in which tests are true to the state, the process is only
stopped in a state of `stopped` and only answers as `answered` says. -/
def Ensures (sure : Bool) (p : Process σ α) (stopped : σ → Prop) (answered : α → σ → Prop)
    (w : σ) : Prop :=
  ∀ s : Script, s.Admitted sure → (p s w).script.Admitted sure ∧
    match (p s w).answer with
    | none => stopped (p s w).state
    | some a => answered a (p s w).state

section Rules

variable {sure : Bool} {p : Process σ α} {f : α → Process σ β} {I J : σ → Prop}
  {Q R : α → σ → Prop} {w : σ}

theorem Ensures.of_stopped (h : Ensures sure p I Q w) {s : Script} (hs : s.Admitted sure)
    (hstop : (p s w).answer = none) : I (p s w).state := by
  have hend := (h s hs).2
  rwa [hstop] at hend

theorem Ensures.of_answer (h : Ensures sure p I Q w) {s : Script} (hs : s.Admitted sure) {a : α}
    (ha : (p s w).answer = some a) : Q a (p s w).state := by
  have hend := (h s hs).2
  rwa [ha] at hend

/-- What holds in either case holds of the state the process leaves. -/
theorem Ensures.state (h : Ensures sure p I (fun _ => I) w) {s : Script} (hs : s.Admitted sure) :
    I (p s w).state := by
  cases ha : (p s w).answer with
  | none => exact h.of_stopped hs ha
  | some a => exact h.of_answer hs ha

theorem Ensures.mono (h : Ensures sure p I Q w) (hI : ∀ w', I w' → J w')
    (hQ : ∀ a w', Q a w' → R a w') : Ensures sure p J R w := by
  intro s hs
  obtain ⟨hscript, hend⟩ := h s hs
  refine ⟨hscript, ?_⟩
  cases ha : (p s w).answer with
  | none =>
      rw [ha] at hend
      exact hI _ hend
  | some a =>
      rw [ha] at hend
      exact hQ a _ hend

theorem ensures_pure {a : α} (h : Q a w) : Ensures sure (pure a) I Q w := fun _ hs => ⟨hs, h⟩

theorem ensures_bind {S : β → σ → Prop} (h : Ensures sure p I (fun a => Ensures sure (f a) I S) w) :
    Ensures sure (p >>= f) I S w := by
  intro s hs
  obtain ⟨hscript, hend⟩ := h s hs
  show ((Process.bind p f) s w).script.Admitted sure ∧ _
  revert hscript hend
  cases hp : p s w with
  | mk answer s' w' =>
      intro hscript hend
      cases answer with
      | none => simpa [Process.bind, bind, hp] using And.intro hscript hend
      | some a => simpa [Process.bind, bind, hp] using hend s' hscript

theorem ensures_operation {effect : σ → α × σ} {failure : α} (hstop : I w) (hfail : Q failure w)
    (hdone : Q (effect w).1 (effect w).2) : Ensures sure (operation effect failure) I Q w := by
  intro s hs
  unfold operation
  cases s.fate with
  | done => exact ⟨hs.afterOperation, hdone⟩
  | fails => exact ⟨hs.afterOperation, hfail⟩
  | stops => exact ⟨hs.afterOperation, hstop⟩

theorem ensures_test {holds : σ → Bool} {Q : Bool → σ → Prop} (h : Q (holds w) w)
    (hmiss : sure = false → Q false w) : Ensures sure (test holds) I Q w := by
  intro s hs
  refine ⟨hs.afterTest, ?_⟩
  cases hmissed : s.missed with
  | false => simpa [test, hmissed] using h
  | true =>
      cases sure with
      | false => simpa [test, hmissed] using hmiss rfl
      | true => exact absurd hmissed (by simp [(hs rfl).missed])

theorem ensures_observe {found : σ → Option α} {Q : Option α → σ → Prop} (h : Q (found w) w)
    (hmiss : sure = false → Q none w) : Ensures sure (observe found) I Q w := by
  intro s hs
  refine ⟨hs.afterTest, ?_⟩
  cases hmissed : s.missed with
  | false => simpa [observe, hmissed] using h
  | true =>
      cases sure with
      | false => simpa [observe, hmissed] using hmiss rfl
      | true => exact absurd hmissed (by simp [(hs rfl).missed])

theorem ensures_inspect {f : σ → α} (h : Q (f w) w) : Ensures sure (inspect f) I Q w :=
  fun _ hs => ⟨hs, h⟩

theorem ensures_modify {f : σ → σ} {Q : Unit → σ → Prop} (h : Q () (f w)) :
    Ensures sure (modify f) I Q w := fun _ hs => ⟨hs, h⟩

theorem ensures_ite {b : Bool} {q : Process σ α} (htrue : b = true → Ensures sure p I Q w)
    (hfalse : b = false → Ensures sure q I Q w) : Ensures sure (if b then p else q) I Q w := by
  cases b with
  | true => exact htrue rfl
  | false => exact hfalse rfl

/-- A loop: what one turn keeps, with what is left of the list. -/
theorem ensures_foldlM {ι : Type} {step : β → ι → Process σ β} {L : β → List ι → σ → Prop}
    (hstep : ∀ b i is w, L b (i :: is) w → Ensures sure (step b i) I (fun b' => L b' is) w)
    {items : List ι} {b : β} (h : L b items w) :
    Ensures sure (items.foldlM step b) I (fun b' => L b' []) w := by
  induction items generalizing b w with
  | nil => exact ensures_pure h
  | cons i is ih =>
      refine ensures_bind ((hstep b i is w h).mono (fun _ hw => hw) ?_)
      intro b' w' hw'
      exact ih hw'

/-- Whatever happens to the process, what `I` says of the state stays true. -/
def Keeps (sure : Bool) (p : Process σ α) (I : σ → Prop) : Prop :=
  ∀ w, I w → Ensures sure p I (fun _ => I) w

theorem keeps_pure (a : α) : Keeps sure (pure a : Process σ α) I := fun _ h => ensures_pure h

theorem Keeps.bind (hp : Keeps sure p I) (hf : ∀ a, Keeps sure (f a) I) : Keeps sure (p >>= f) I :=
  fun w h => ensures_bind ((hp w h).mono (fun _ hw => hw) fun a w' hw => hf a w' hw)

theorem Keeps.ite {b : Bool} {q : Process σ α} (hp : Keeps sure p I) (hq : Keeps sure q I) :
    Keeps sure (if b then p else q) I := fun w h => ensures_ite (fun _ => hp w h) fun _ => hq w h

theorem keeps_test (holds : σ → Bool) : Keeps sure (test holds) I :=
  fun _ h => ensures_test h fun _ => h

theorem keeps_operation {effect : σ → α × σ} {failure : α} (h : ∀ w, I w → I (effect w).2) :
    Keeps sure (operation effect failure) I := fun w hw => ensures_operation hw hw (h w hw)

/-- A process that leaves the state alone, whatever it answers. -/
theorem ensures_bind_read {S : β → σ → Prop} (hp : Keeps sure p (· = w)) (hstop : I w)
    (hf : ∀ a, Ensures sure (f a) I S w) : Ensures sure (p >>= f) I S w := by
  apply ensures_bind
  apply (hp w rfl).mono
  · rintro w' rfl
    exact hstop
  · rintro a w' rfl
    exact hf a

theorem keeps_observe (found : σ → Option α) : Keeps sure (observe found) I :=
  fun _ h => ensures_observe h fun _ => h

/-- A loop that ends at the first turn that answers `false`. -/
theorem Keeps.allM {ι : Type} {step : ι → Process σ Bool} (hstep : ∀ i, Keeps sure (step i) I)
    (items : List ι) : Keeps sure (items.allM step) I := by
  induction items with
  | nil => exact keeps_pure true
  | cons i is ih =>
      refine (hstep i).bind fun b => ?_
      cases b with
      | true => exact ih
      | false => exact keeps_pure false

end Rules

end Process

end PfBlockerNG.CrashRuns
