import Morphflow.Foundation.Transition

/-!
# Simulations between transition systems

A *simulation* of `T` by `U` relates the reachable states of `T` to states of `U` such that every
initial state is related to an initial one and every step of `T` is answered by a run of `U`, which
may be empty. What holds of the reachable states of `U`, or along its runs, then holds of `T` as far
as the relation carries it.

## Main definitions

* `TransitionSystem.Simulation`.

## Main results

* `TransitionSystem.Simulation.reachable`, `TransitionSystem.Simulation.run`.
-/

namespace TransitionSystem

variable {σ α τ β : Type*} {T : TransitionSystem σ α} {U : TransitionSystem τ β}

/-- Every run of `T` is answered by a run of `U` through related states. -/
structure Simulation (T : TransitionSystem σ α) (U : TransitionSystem τ β) (R : σ → τ → Prop) :
    Prop where
  init : ∀ s, T.init s → ∃ t, U.init t ∧ R s t
  step : ∀ s a s' t, T.Reachable s → R s t → T.step s a = some s' →
    ∃ bs t', U.run t bs = some t' ∧ R s' t'

namespace Simulation

variable {R : σ → τ → Prop}

/-- A run from a reachable state is answered by a run from any related state. -/
theorem run (h : T.Simulation U R) {s s' : σ} {t : τ} {as : List α} (hs : T.Reachable s)
    (hR : R s t) (hr : T.run s as = some s') : ∃ bs t', U.run t bs = some t' ∧ R s' t' := by
  induction as generalizing s t with
  | nil => exact ⟨[], t, rfl, Option.some.inj hr ▸ hR⟩
  | cons a as ih =>
    obtain ⟨s₁, h₁, hr⟩ := T.run_cons_eq_some.mp hr
    obtain ⟨bs, t₁, hb, hR₁⟩ := h.step s a s₁ t hs hR h₁
    obtain ⟨cs, t', hc, hR'⟩ := ih (hs.step h₁) hR₁ hr
    exact ⟨bs ++ cs, t', by rw [run_append, hb]; exact hc, hR'⟩

/-- A reachable state is related to a reachable one. -/
theorem reachable (h : T.Simulation U R) {s : σ} (hs : T.Reachable s) :
    ∃ t, U.Reachable t ∧ R s t := by
  obtain ⟨s₀, as, h₀, hr⟩ := hs
  obtain ⟨t₀, ht₀, hR₀⟩ := h.init s₀ h₀
  obtain ⟨bs, t, hb, hR⟩ := h.run (.of_init h₀) hR₀ hr
  exact ⟨t, ⟨t₀, bs, ht₀, hb⟩, hR⟩

end Simulation

end TransitionSystem
