import Mathlib.Data.Nat.Notation
import Mathlib.Logic.Relation

/-!
# Labelled runs

A run is a finite list of labelled steps. The two rules used throughout the
development are `Run.invariant`, which carries a property over a whole run, and
`Run.append`, which cuts a run at an intermediate state.
-/

namespace K210Os.Transition

variable {σ α : Type*} {step step' : σ → α → σ → Prop}

inductive Run (step : σ → α → σ → Prop) : σ → List α → σ → Prop
  | done (s : σ) : Run step s [] s
  | step {s t u : σ} {a : α} {as : List α} :
      step s a t → Run step t as u → Run step s (a :: as) u

theorem Run.single {s t : σ} {a : α} (h : step s a t) : Run step s [a] t :=
  .step h (.done t)

theorem Run.append {s t u : σ} {as bs : List α} (h : Run step s as t)
    (k : Run step t bs u) : Run step s (as ++ bs) u := by
  induction h with
  | done s => exact k
  | step hs _ ih => exact .step hs (ih k)

theorem Run.invariant {I : σ → Prop} (hI : ∀ s a t, I s → step s a t → I t)
    {s t : σ} {as : List α} (h : Run step s as t) (hs : I s) : I t := by
  induction h with
  | done s => exact hs
  | step hstep _ ih => exact ih (hI _ _ _ hs hstep)

theorem Run.mono (hsub : ∀ s a t, step s a t → step' s a t)
    {s t : σ} {as : List α} (h : Run step s as t) : Run step' s as t := by
  induction h with
  | done s => exact .done s
  | step hs _ ih => exact .step (hsub _ _ _ hs) ih

/-- Where each step follows one of another system once it has enough fuel, runs do so
too. -/
theorem Run.follow {τ : Type*} {steps : ℕ → σ → α → σ → Prop} {spec : τ → α → τ → Prop}
    {R : σ → τ → Prop}
    (hstep : ∀ s t a t', R s t → spec t a t' → ∃ n s', (∀ k, n ≤ k → steps k s a s') ∧ R s' t')
    {s : σ} {t t' : τ} {as : List α} (h : Run spec t as t') (hR : R s t) :
    ∃ n s', (∀ k, n ≤ k → Run (steps k) s as s') ∧ R s' t' := by
  induction h generalizing s with
  | done t => exact ⟨0, s, fun _ _ => .done s, hR⟩
  | step hs _ ih =>
      obtain ⟨n, u, hu, hRu⟩ := hstep _ _ _ _ hR hs
      obtain ⟨m, s', hs', hR'⟩ := ih hRu
      exact ⟨max n m, s', fun k hk => .step (hu k (by omega)) (hs' k (by omega)), hR'⟩

/-- The state a run is in after a prefix of its labels. -/
theorem Run.append_inv {s u : σ} {as bs : List α} (h : Run step s (as ++ bs) u) :
    ∃ t, Run step s as t ∧ Run step t bs u := by
  induction as generalizing s with
  | nil => exact ⟨s, .done s, h⟩
  | cons a as ih =>
      cases h with
      | step hs ht =>
          obtain ⟨t, hrun, hrest⟩ := ih ht
          exact ⟨t, .step hs hrun, hrest⟩

/-- The last step of a nonempty run, with the run that leads to it. -/
theorem Run.snoc_inv {s u : σ} {as : List α} {a : α} (h : Run step s (as ++ [a]) u) :
    ∃ t, Run step s as t ∧ step t a u := by
  obtain ⟨t, hrun, hlast⟩ := h.append_inv
  cases hlast with
  | step hs hdone =>
      cases hdone
      exact ⟨t, hrun, hs⟩

theorem Run.unique (hstep : ∀ s a t u, step s a t → step s a u → t = u) {s t u : σ}
    {as : List α} (h : Run step s as t) (k : Run step s as u) : t = u := by
  induction h with
  | done s =>
      cases k
      rfl
  | step hs _ ih =>
      cases k with
      | step ks kt =>
          obtain rfl := hstep _ _ _ _ hs ks
          exact ih kt

/-- Runs of a step that can be computed. -/
def execute (f : σ → α → Option σ) : σ → List α → Option σ
  | s, [] => some s
  | s, a :: as => (f s a).bind fun t => execute f t as

theorem run_of_execute {f : σ → α → Option σ} {s t : σ} {as : List α}
    (h : execute f s as = some t) : Run (fun s a t => f s a = some t) s as t := by
  induction as generalizing s with
  | nil =>
      simp only [execute, Option.some.injEq] at h
      subst h
      exact .done s
  | cons a as ih =>
      simp only [execute, Option.bind_eq_some_iff] at h
      obtain ⟨u, hu, h⟩ := h
      exact .step hu (ih h)

/-- A run that was computed, with what is observed at its end. -/
theorem exists_run_of_execute {β : Type*} (f : σ → α → Option σ) (init : Option σ)
    (as : List α) (g : σ → β) (b : β)
    (h : (init.bind fun s => execute f s as).map g = some b) :
    ∃ s t, init = some s ∧ Run (fun s a t => f s a = some t) s as t ∧ g t = b := by
  simp only [Option.map_eq_some_iff, Option.bind_eq_some_iff] at h
  obtain ⟨t, ⟨s, hs, ht⟩, hb⟩ := h
  exact ⟨s, t, hs, run_of_execute ht, hb⟩

end K210Os.Transition
