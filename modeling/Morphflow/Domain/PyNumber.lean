import Mathlib

/-!
# Numbers of the interpreter

A real number that is too large rounds to no finite float: a conversion or a power then raises an
`OverflowError`.

## Main definitions

* `truncate`.
* `floatLimit`, `overflowsFloat`.
-/

namespace Morphflow

/-- `int` of a number: the fraction is cut off. -/
def truncate (q : ℚ) : ℤ := q.num.tdiv q.den

/-- The bound of the numbers that round to a finite float: half a unit beyond the largest one. -/
def floatLimit : ℚ := 2 ^ 1024 - 2 ^ 970

/-- The number rounds to no finite float. -/
def overflowsFloat (q : ℚ) : Bool := floatLimit ≤ |q|

theorem one_lt_floatLimit : 1 < floatLimit := by
  have hsplit : floatLimit = 2 ^ 970 * (2 ^ 54 - 1) := by
    rw [floatLimit, mul_sub, ← pow_add, mul_one]
  rw [hsplit]
  exact one_lt_mul_of_le_of_lt (one_le_pow₀ one_le_two) (by norm_num)

theorem overflowsFloat_eq_false_iff {q : ℚ} : overflowsFloat q = false ↔ |q| < floatLimit := by
  simp [overflowsFloat]

/-- A number with a float has at most 4300 digits, and its successor too. -/
theorem exists_lt_of_overflowsFloat_eq_false {n : ℕ} (h : overflowsFloat n = false) :
    ∃ k, 0 < k ∧ k ≤ 4300 ∧ n + 1 < 10 ^ k := by
  have hpow : ∀ k : ℕ, (2 : ℚ) ^ k - 2 ^ 970 < 10 ^ k := fun k =>
    calc (2 : ℚ) ^ k - 2 ^ 970 < 2 ^ k := sub_lt_self _ (by positivity)
      _ ≤ 10 ^ k := pow_le_pow_left₀ (by norm_num) (by norm_num) k
  have hlt : (n : ℚ) < 10 ^ 1024 :=
    calc (n : ℚ) = |(n : ℚ)| := (abs_of_nonneg n.cast_nonneg).symm
      _ < floatLimit := overflowsFloat_eq_false_iff.mp h
      _ < 10 ^ 1024 := hpow 1024
  have hn : n < 10 ^ 1024 := by exact_mod_cast hlt
  have hsucc : ∀ k : ℕ, n < 10 ^ k → n + 1 < 10 ^ (k + 1) := by
    intro k hk
    rw [pow_succ]
    omega
  exact ⟨1024 + 1, by decide, by decide, hsucc 1024 hn⟩

end Morphflow
