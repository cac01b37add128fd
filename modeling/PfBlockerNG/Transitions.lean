import Mathlib.Data.List.Induction

/-!
Runs of a partial step function, and the rules that carry an invariant along them.
-/

namespace PfBlockerNG.Transitions

universe u v

variable {σ : Type u} {ε : Type v} {step : σ → ε → Option σ}

/-- State after a list of events, when each is enabled in turn. -/
def run (step : σ → ε → Option σ) (s : σ) : List ε → Option σ
  | [] => some s
  | e :: es => (step s e).bind fun s' => run step s' es

theorem run_append (s : σ) (es es' : List ε) :
    run step s (es ++ es') = (run step s es).bind fun s' => run step s' es' := by
  induction es generalizing s with
  | nil => rfl
  | cons e es ih =>
      rw [List.cons_append, run, run, Option.bind_assoc]
      exact congrArg _ (funext ih)

theorem run_concat_eq_some {s s'' : σ} {es : List ε} {e : ε}
    (h : run step s (es ++ [e]) = some s'') :
    ∃ s', run step s es = some s' ∧ step s' e = some s'' := by
  rw [run_append, Option.bind_eq_some_iff] at h
  obtain ⟨s', hrun, hstep⟩ := h
  simp only [run] at hstep
  exact ⟨s', hrun, by simpa using hstep⟩

/-- What every step preserves, every run preserves. -/
theorem run_invariant {P : σ → Prop} (hstep : ∀ s e s', P s → step s e = some s' → P s')
    {s s' : σ} {es : List ε} (hs : P s) (h : run step s es = some s') : P s' := by
  induction es generalizing s with
  | nil => exact Option.some.inj h ▸ hs
  | cons e es ih =>
      rw [run, Option.bind_eq_some_iff] at h
      obtain ⟨t, ht, hrun⟩ := h
      exact ih (hstep s e t hs ht) hrun

/-- Every event of a run meets a condition on the events before it and the state it acts on. -/
def AlongHistory (step : σ → ε → Option σ) (meets : List ε → σ → ε → Prop) (s : σ)
    (es : List ε) : Prop :=
  ∀ done e rest s', es = done ++ e :: rest → run step s done = some s' → meets done s' e

/-- The rule for an invariant that speaks about the events so far, over runs whose events meet a
condition. -/
theorem run_history_along {meets : List ε → σ → ε → Prop} {P : List ε → σ → Prop} {s : σ}
    (hinit : P [] s)
    (hstep : ∀ es s' e s'', run step s es = some s' → P es s' → meets es s' e →
      step s' e = some s'' → P (es ++ [e]) s'')
    {s' : σ} {es : List ε} (hmeets : AlongHistory step meets s es)
    (h : run step s es = some s') : P es s' := by
  induction es using List.reverseRecOn generalizing s' with
  | nil => exact Option.some.inj h ▸ hinit
  | append_singleton es e ih =>
      obtain ⟨t, hrun, ht⟩ := run_concat_eq_some h
      refine hstep es t e s' hrun (ih (fun done e' rest t' heq => ?_) hrun)
        (hmeets es e [] t rfl hrun) ht
      exact hmeets done e' (rest ++ [e]) t' (by rw [heq, List.append_assoc, List.cons_append])

/-- Every event of a run meets a condition in the state it acts on. -/
def Along (step : σ → ε → Option σ) (meets : σ → ε → Prop) (s : σ) : List ε → Prop
  | [] => True
  | e :: es => meets s e ∧
      match step s e with
      | none => True
      | some s' => Along step meets s' es

theorem along_of_forall {meets : σ → ε → Prop} {es : List ε}
    (h : ∀ e ∈ es, ∀ s, meets s e) (s : σ) : Along step meets s es := by
  induction es generalizing s with
  | nil => trivial
  | cons e es ih =>
      refine ⟨h e List.mem_cons_self s, ?_⟩
      split
      · trivial
      · exact ih (fun e he => h e (List.mem_cons_of_mem _ he)) _

/-- What every step that meets the condition preserves, every run of such steps
preserves. -/
theorem run_invariant_along {meets : σ → ε → Prop} {P : σ → Prop}
    (hstep : ∀ s e s', P s → meets s e → step s e = some s' → P s')
    {s s' : σ} {es : List ε} (hs : P s) (hmeets : Along step meets s es)
    (h : run step s es = some s') : P s' := by
  induction es generalizing s with
  | nil => exact Option.some.inj h ▸ hs
  | cons e es ih =>
      rw [run, Option.bind_eq_some_iff] at h
      obtain ⟨t, ht, hrun⟩ := h
      have hrest := hmeets.2
      rw [ht] at hrest
      exact ih (hstep s e t hs hmeets.1 ht) hrest hrun

end PfBlockerNG.Transitions
