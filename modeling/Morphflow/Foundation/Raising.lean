import Mathlib

/-!
# Computations that may raise

`Except ε` as a monad of computations that may raise: when a sequence of two, or a loop over a list,
returns.

## Main results

* `Except.bind_eq_ok_iff`.
* `List.mapM_eq_ok_iff`: a loop returns when every round does.
-/

universe u v

variable {ε : Type u} {α β : Type v}

/-- Two computations in sequence return when both do. -/
theorem Except.bind_eq_ok_iff {x : Except ε α} {f : α → Except ε β} {b : β} :
    (x >>= f) = .ok b ↔ ∃ a, x = .ok a ∧ f a = .ok b := by
  cases x with
  | error e => simp [bind, Except.bind]
  | ok a => simp [bind, Except.bind]

/-- A loop returns when every round does. -/
theorem List.mapM_eq_ok_iff {f : α → Except ε β} {xs : List α} {ys : List β} :
    xs.mapM f = .ok ys ↔ List.Forall₂ (fun x y => f x = .ok y) xs ys := by
  induction xs generalizing ys with
  | nil => cases ys <;> simp [pure, Except.pure]
  | cons x xs ih =>
    simp only [List.mapM_cons, Except.bind_eq_ok_iff, List.forall₂_cons_left_iff, ih]
    constructor
    · rintro ⟨y, hy, zs, hzs, heq⟩
      exact ⟨y, zs, hy, hzs, (Except.ok.inj heq).symm⟩
    · rintro ⟨y, zs, hy, hzs, rfl⟩
      exact ⟨y, hy, zs, hzs, rfl⟩

theorem List.exists_mapM_eq_ok {f : α → Except ε β} {xs : List α}
    (h : ∀ x ∈ xs, ∃ y, f x = .ok y) : ∃ ys, xs.mapM f = .ok ys := by
  induction xs with
  | nil => exact ⟨[], rfl⟩
  | cons x xs ih =>
    obtain ⟨y, hy⟩ := h x List.mem_cons_self
    obtain ⟨ys, hys⟩ := ih fun z hz => h z (List.mem_cons_of_mem x hz)
    exact ⟨y :: ys, List.mapM_eq_ok_iff.mpr (.cons hy (List.mapM_eq_ok_iff.mp hys))⟩

/-- The results of a loop are those of its rounds. -/
theorem List.mem_iff_of_mapM_eq_ok {f : α → Except ε β} {xs : List α} {ys : List β}
    (h : xs.mapM f = .ok ys) {y : β} : y ∈ ys ↔ ∃ x ∈ xs, f x = .ok y := by
  induction List.mapM_eq_ok_iff.mp h with
  | nil => simp
  | @cons x z xs ys hx hxs ih =>
    rw [List.mem_cons, ih (List.mapM_eq_ok_iff.mpr hxs), List.exists_mem_cons_iff, hx,
      Except.ok.injEq, eq_comm]

/-- A loop that returned had every round return. -/
theorem List.exists_of_mapM_eq_ok {f : α → Except ε β} {xs : List α} {ys : List β}
    (h : xs.mapM f = .ok ys) : ∀ x ∈ xs, ∃ y, f x = .ok y := by
  induction List.mapM_eq_ok_iff.mp h with
  | nil => simp
  | @cons x y xs ys hx hxs ih =>
    exact List.forall_mem_cons.mpr ⟨⟨y, hx⟩, ih (List.mapM_eq_ok_iff.mpr hxs)⟩
