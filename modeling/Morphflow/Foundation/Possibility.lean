import Morphflow.Foundation.Transition

/-!
# What remains possible

A state *leads* to another one when some run of the system goes from the first to the second. That
every reachable state leads to a good one says that the system has no dead end: whatever happened,
the steps that are still enabled can be chosen well. It is not a statement about what will happen.

The parts of a system are systems of their own; `TransitionSystem.Leads.lift` carries what a part
leads to over to the whole.

## Main definitions

* `TransitionSystem.Leads`.

## Main results

* `TransitionSystem.Leads.trans`, `TransitionSystem.Leads.lift`.
* `TransitionSystem.Leads.preserves`: what every step preserves.
-/

namespace TransitionSystem

variable {σ α τ β : Type*} {T : TransitionSystem σ α} {U : TransitionSystem τ β} {s t u : σ}

variable (T) in
/-- Some run leads from one state to the other. -/
def Leads (s t : σ) : Prop := ∃ as, T.run s as = some t

namespace Leads

theorem refl (s : σ) : T.Leads s s := ⟨[], rfl⟩

theorem trans (h : T.Leads s t) (h' : T.Leads t u) : T.Leads s u := by
  obtain ⟨as, ha⟩ := h
  obtain ⟨bs, hb⟩ := h'
  exact ⟨as ++ bs, by rw [run_append, ha]; exact hb⟩

theorem of_step {a : α} (h : T.step s a = some t) : T.Leads s t :=
  ⟨[a], T.run_cons_eq_some.mpr ⟨t, h, rfl⟩⟩

theorem reachable (h : T.Leads s t) (hs : T.Reachable s) : T.Reachable t := by
  obtain ⟨as, ha⟩ := h
  exact hs.trans_run ha

/-- What every enabled step preserves still holds at the end. -/
theorem preserves {P : σ → Prop} (hstep : ∀ s a t, P s → T.step s a = some t → P t)
    (h : T.Leads s t) (hs : P s) : P t := by
  obtain ⟨as, ha⟩ := h
  exact run_preserves hstep ha hs

/-- What a part of a system leads to, the system leads to, when it can take the steps of the
part. -/
theorem lift {f : σ → τ} (hstep : ∀ s a t, T.step s a = some t → U.Leads (f s) (f t))
    (h : T.Leads s t) : U.Leads (f s) (f t) := by
  obtain ⟨as, ha⟩ := h
  induction as generalizing s with
  | nil => exact Option.some.inj ha ▸ refl (f s)
  | cons a as ih =>
    obtain ⟨s', hs, ha⟩ := T.run_cons_eq_some.mp ha
    exact (hstep s a s' hs).trans (ih ha)

end Leads

end TransitionSystem
