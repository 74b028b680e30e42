import Mathlib

/-!
# Transition systems with a partial step function

A *transition system* has a set of initial states and a partial step function: `step s a` is
`none` when the action `a` is not enabled in `s`. A run is a list of actions; a state is reachable
when some run from an initial state ends in it. As the step function computes, a run on concrete
data can be evaluated.

`TransitionSystem.observe` collects what is observed along a run, step by step; it stands for a
history that the states themselves do not keep.

`TransitionSystem.restrict` keeps the steps that meet a condition on the state before the step and
on the action. Its reachable states are the states of the runs all of whose steps meet the
condition, which is how a property of such runs is stated.

## Main definitions

* `TransitionSystem`, `TransitionSystem.run`, `TransitionSystem.Reachable`.
* `TransitionSystem.observe`.
* `TransitionSystem.restrict`.

## Main results

* `TransitionSystem.Reachable.rec_on_step`: the induction over reachable states.
* `TransitionSystem.run_preserves`: what a step preserves, a run preserves.
* `TransitionSystem.run_relates`: a reflexive and transitive relation kept by every step relates
  the two ends of a run.
* `TransitionSystem.run_observes`: the induction over a run and what was observed along it.
* `TransitionSystem.Reachable.of_restrict`: a run under a condition is a run.
-/

/-- A transition system: initial states and a partial step function. -/
structure TransitionSystem (σ α : Type*) where
  /-- The initial states. -/
  init : σ → Prop
  /-- The step under an action, `none` when the action is not enabled. -/
  step : σ → α → Option σ

namespace TransitionSystem

variable {σ α : Type*} (T : TransitionSystem σ α)

/-- The state after a list of actions, `none` when one of them is not enabled. -/
def run : σ → List α → Option σ
  | s, [] => some s
  | s, a :: as => (T.step s a).bind fun s' => run s' as

@[simp] theorem run_nil (s : σ) : T.run s [] = some s := rfl

theorem run_cons (s : σ) (a : α) (as : List α) :
    T.run s (a :: as) = (T.step s a).bind fun s' => T.run s' as := rfl

theorem run_cons_eq_some {s t : σ} {a : α} {as : List α} :
    T.run s (a :: as) = some t ↔ ∃ s', T.step s a = some s' ∧ T.run s' as = some t := by
  rw [run_cons, Option.bind_eq_some_iff]

theorem run_append (s : σ) (as bs : List α) :
    T.run s (as ++ bs) = (T.run s as).bind fun t => T.run t bs := by
  induction as generalizing s with
  | nil => rfl
  | cons a as ih =>
    rw [List.cons_append, run_cons, run_cons]
    cases T.step s a with
    | none => rfl
    | some s' => exact ih s'

/-- A state is reachable when a run from an initial state ends in it. -/
def Reachable (t : σ) : Prop :=
  ∃ s as, T.init s ∧ T.run s as = some t

variable {T}

theorem Reachable.of_init {s : σ} (h : T.init s) : T.Reachable s :=
  ⟨s, [], h, rfl⟩

theorem Reachable.of_run {s t : σ} {as : List α} (h : T.init s) (hr : T.run s as = some t) :
    T.Reachable t :=
  ⟨s, as, h, hr⟩

theorem Reachable.get {s : σ} (as : List α) (h : T.init s) (hr : (T.run s as).isSome) :
    T.Reachable ((T.run s as).get hr) :=
  ⟨s, as, h, (Option.some_get hr).symm⟩

theorem Reachable.trans_run {s t : σ} {as : List α} (h : T.Reachable s)
    (hr : T.run s as = some t) : T.Reachable t := by
  obtain ⟨s₀, bs, h₀, hb⟩ := h
  refine ⟨s₀, bs ++ as, h₀, ?_⟩
  rw [run_append, hb]
  exact hr

theorem Reachable.step {s t : σ} {a : α} (h : T.Reachable s) (hs : T.step s a = some t) :
    T.Reachable t :=
  h.trans_run (T.run_cons_eq_some.mpr ⟨t, hs, T.run_nil t⟩)

/-- What every enabled step preserves, a run preserves. -/
theorem run_preserves {P : σ → Prop} (hstep : ∀ s a t, P s → T.step s a = some t → P t)
    {s t : σ} {as : List α} (hr : T.run s as = some t) (hs : P s) : P t := by
  induction as generalizing s with
  | nil => exact Option.some.inj hr ▸ hs
  | cons a as ih =>
    obtain ⟨s', h₁, h₂⟩ := T.run_cons_eq_some.mp hr
    exact ih h₂ (hstep s a s' hs h₁)

/-- Induction over the reachable states, the state before a step being reachable. -/
theorem Reachable.rec_on_step {P : σ → Prop} (hinit : ∀ s, T.init s → P s)
    (hstep : ∀ s a t, T.Reachable s → P s → T.step s a = some t → P t) {t : σ}
    (h : T.Reachable t) : P t := by
  obtain ⟨s, as, h₀, hr⟩ := h
  have hkeep : ∀ s a t, T.Reachable s ∧ P s → T.step s a = some t → T.Reachable t ∧ P t :=
    fun s a t hs ht => ⟨hs.1.step ht, hstep s a t hs.1 hs.2 ht⟩
  exact (run_preserves hkeep hr ⟨.of_init h₀, hinit s h₀⟩).2

/-- A reflexive and transitive relation kept by every step from a reachable state relates the two
ends of a run from a reachable state. -/
theorem run_relates {R : σ → σ → Prop} (hrefl : ∀ s, R s s)
    (htrans : ∀ s t u, R s t → R t u → R s u)
    (hstep : ∀ s a t, T.Reachable s → T.step s a = some t → R s t)
    {s t : σ} {as : List α} (hs : T.Reachable s) (hr : T.run s as = some t) : R s t := by
  have hkeep : ∀ u a v, T.Reachable u ∧ R s u → T.step u a = some v → T.Reachable v ∧ R s v :=
    fun u a v hu hv => ⟨hu.1.step hv, htrans s u v hu.2 (hstep u a v hu.1 hv)⟩
  exact (run_preserves hkeep hr ⟨hs, hrefl s⟩).2

/-- What does not hold at first and holds at the end of a run came to hold with one of its steps. -/
theorem run_becomes {Q : σ → Prop} {s t : σ} {as : List α} (hr : T.run s as = some t)
    (hs : ¬ Q s) (ht : Q t) : ∃ before a after u v, as = before ++ a :: after ∧
      T.run s before = some u ∧ T.step u a = some v ∧ T.run v after = some t ∧ ¬ Q u ∧ Q v := by
  induction as generalizing s with
  | nil => exact absurd (Option.some.inj hr ▸ ht) hs
  | cons a as ih =>
    obtain ⟨s', hstep, hr⟩ := T.run_cons_eq_some.mp hr
    by_cases hs' : Q s'
    · exact ⟨[], a, as, s, s', rfl, rfl, hstep, hr, hs, hs'⟩
    · obtain ⟨before, b, after, u, v, rfl, hu, hv, hend⟩ := ih hr hs'
      exact ⟨a :: before, b, after, u, v, rfl, T.run_cons_eq_some.mpr ⟨s', hstep, hu⟩, hv, hend⟩

/-! ### What is observed along a run -/

section Observe

variable {β : Type*} (f : σ → α → Option β)

variable (T) in
/-- The observations along a list of actions, oldest first; `f s a` is what is observed when the
action `a` is taken in `s`. -/
def observe : σ → List α → List β
  | _, [] => []
  | s, a :: as => (f s a).toList ++ ((T.step s a).elim [] fun t => observe t as)

theorem observe_snoc {s t : σ} {as : List α} (hr : T.run s as = some t) (a : α) :
    T.observe f s (as ++ [a]) = T.observe f s as ++ (f t a).toList := by
  induction as generalizing s with
  | nil =>
    obtain rfl := Option.some.inj hr
    cases h : T.step s a <;> simp [observe, h]
  | cons b as ih =>
    obtain ⟨s', hs, hr⟩ := T.run_cons_eq_some.mp hr
    simp only [List.cons_append, observe, hs, Option.elim_some, ih hr, List.append_assoc]

/-- Induction over a run from an initial state together with its observations, the state before a
step being reachable. -/
theorem run_observes {P : σ → List β → Prop} (hinit : ∀ s, T.init s → P s [])
    (hstep : ∀ s a t obs, T.Reachable s → P s obs → T.step s a = some t →
      P t (obs ++ (f s a).toList))
    {s t : σ} {as : List α} (h : T.init s) (hr : T.run s as = some t) :
    P t (T.observe f s as) := by
  induction as using List.reverseRecOn generalizing t with
  | nil => exact Option.some.inj hr ▸ hinit s h
  | append_singleton as a ih =>
    rw [run_append, Option.bind_eq_some_iff] at hr
    obtain ⟨u, hu, hr⟩ := hr
    obtain ⟨t', ht, ht'⟩ := T.run_cons_eq_some.mp hr
    obtain rfl := Option.some.inj ht'
    rw [observe_snoc f hu]
    exact hstep u a t' _ (.of_run h hu) (ih hu) ht

end Observe

/-! ### Runs all of whose steps meet a condition -/

/-- The steps of `T` that meet the condition `p`. -/
def restrict (T : TransitionSystem σ α) (p : σ → α → Prop) [∀ s a, Decidable (p s a)] :
    TransitionSystem σ α where
  init := T.init
  step s a := if p s a then T.step s a else none

section Restrict

variable {p q : σ → α → Prop} [∀ s a, Decidable (p s a)] [∀ s a, Decidable (q s a)]

theorem restrict_step_eq_some {s t : σ} {a : α} :
    (T.restrict p).step s a = some t ↔ p s a ∧ T.step s a = some t := by
  by_cases h : p s a <;> simp [restrict, h]

/-- A run all of whose steps meet the condition is a run. -/
theorem Reachable.of_restrict {t : σ} (h : (T.restrict p).Reachable t) : T.Reachable t :=
  h.rec_on_step (fun _ h₀ => .of_init h₀) fun _ _ _ _ hs ht =>
    hs.step (restrict_step_eq_some.mp ht).2

theorem Reachable.restrict_mono {t : σ} (h : (T.restrict p).Reachable t)
    (hpq : ∀ s a, p s a → q s a) : (T.restrict q).Reachable t :=
  h.rec_on_step (fun _ h₀ => .of_init h₀) fun s a _ _ hs ht => by
    obtain ⟨hp, ht⟩ := restrict_step_eq_some.mp ht
    exact hs.step (restrict_step_eq_some.mpr ⟨hpq s a hp, ht⟩)

/-- The runs all of whose steps meet the condition are those in which nothing else is observed. -/
theorem run_restrict_eq_some_iff {s t : σ} {as : List α} : (T.restrict p).run s as = some t ↔
    T.run s as = some t ∧ T.observe (fun s a => if p s a then none else some ()) s as = [] := by
  induction as generalizing s with
  | nil => simp [observe]
  | cons a as ih =>
    rw [run_cons_eq_some, run_cons_eq_some]
    constructor
    · rintro ⟨s', hs, hr⟩
      obtain ⟨hp, hs⟩ := restrict_step_eq_some.mp hs
      obtain ⟨hr, hnil⟩ := ih.mp hr
      exact ⟨⟨s', hs, hr⟩, by simp [observe, hp, hs, hnil]⟩
    · rintro ⟨⟨s', hs, hr⟩, hnil⟩
      simp only [observe, hs, Option.elim_some, List.append_eq_nil_iff] at hnil
      have hp : p s a := by
        by_contra hp
        simp [hp] at hnil
      exact ⟨s', restrict_step_eq_some.mpr ⟨hp, hs⟩, ih.mpr ⟨hr, hnil.2⟩⟩

theorem run_restrict {s t : σ} {as : List α} (hp : ∀ a ∈ as, ∀ s, p s a)
    (hr : T.run s as = some t) : (T.restrict p).run s as = some t := by
  induction as generalizing s with
  | nil => exact hr
  | cons a as ih =>
    obtain ⟨s', h₁, h₂⟩ := T.run_cons_eq_some.mp hr
    refine (T.restrict p).run_cons_eq_some.mpr ⟨s', ?_, ?_⟩
    · exact restrict_step_eq_some.mpr ⟨hp a List.mem_cons_self s, h₁⟩
    · exact ih (fun b hb => hp b (List.mem_cons_of_mem a hb)) h₂

end Restrict

end TransitionSystem
