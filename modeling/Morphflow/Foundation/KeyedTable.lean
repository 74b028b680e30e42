import Mathlib

/-!
# Tables with conditional updates of one row

A table maps keys to rows. `KeyedTable.updateWhere t k cond f` is the statement
`UPDATE … SET … WHERE key = k AND cond RETURNING *`: it decides on the row under the key and either
replaces it and returns the new row, or changes nothing and returns none.

## Main results

* `KeyedTable.updateWhere_eq_some_iff`: what a statement that changed a row has done.
* `KeyedTable.exists_set`: what stays true of a row when some row is written.
* `KeyedTable.exists_of_mem_ofList`: the row under a key that is listed.
* `KeyedTable.Evolves`: every row is still there and related to what it was.
-/

/-- A table: a partial map from keys to rows. -/
abbrev KeyedTable (K R : Type*) := K → Option R

namespace KeyedTable

variable {K R : Type*} [DecidableEq K]

/-- The table with the row `r` under the key `k`. -/
def set (t : KeyedTable K R) (k : K) (r : R) : KeyedTable K R :=
  fun k' => if k' = k then some r else t k'

/-- The table without the row under the key `k`. -/
def erase (t : KeyedTable K R) (k : K) : KeyedTable K R :=
  fun k' => if k' = k then none else t k'

/-- The conditional update of the row under the key `k`: the new row and the new table when the
condition holds of the row, nothing otherwise. -/
def updateWhere (t : KeyedTable K R) (k : K) (cond : R → Bool) (f : R → R) :
    Option (R × KeyedTable K R) :=
  match t k with
  | some r => if cond r then some (f r, t.set k (f r)) else none
  | none => none

@[simp] theorem set_self (t : KeyedTable K R) (k : K) (r : R) : t.set k r k = some r := by
  simp [set]

theorem set_of_ne (t : KeyedTable K R) {k k' : K} (r : R) (h : k' ≠ k) :
    t.set k r k' = t k' := by
  simp [set, h]

theorem erase_of_ne (t : KeyedTable K R) {k k' : K} (h : k' ≠ k) : t.erase k k' = t k' := by
  simp [erase, h]

theorem set_eq_some_iff {t : KeyedTable K R} {k k' : K} {r r' : R} :
    t.set k r k' = some r' ↔ (k' = k ∧ r = r') ∨ (k' ≠ k ∧ t k' = some r') := by
  by_cases h : k' = k <;> simp [set, h]

/-- A row is there with a property after a write: when another row was written it had it before,
and the written row has it. -/
theorem exists_set {t : KeyedTable K R} {k k' : K} {r r' : R} {P : R → Prop} (h : t k' = some r)
    (hp : k' ≠ k → P r) (hnew : k' = k → P r') : ∃ s, t.set k r' k' = some s ∧ P s := by
  by_cases hk : k' = k
  · exact ⟨r', by rw [hk, set_self], hnew hk⟩
  · exact ⟨r, by rw [set_of_ne _ _ hk, h], hp hk⟩

theorem erase_eq_some_iff {t : KeyedTable K R} {k k' : K} {r' : R} :
    t.erase k k' = some r' ↔ k' ≠ k ∧ t k' = some r' := by
  by_cases h : k' = k <;> simp [erase, h]

/-- A conditional update that changed a row found one that meets the condition, under the key. -/
theorem updateWhere_eq_some_iff {t t' : KeyedTable K R} {k : K} {cond : R → Bool} {f : R → R}
    {r' : R} :
    t.updateWhere k cond f = some (r', t') ↔
      ∃ r, t k = some r ∧ cond r = true ∧ r' = f r ∧ t' = t.set k (f r) := by
  unfold updateWhere
  cases t k with
  | none => simp
  | some r =>
    by_cases h : cond r = true
    · simp only [h, if_true, Option.some.injEq, Prod.mk.injEq, exists_eq_left', true_and]
      exact ⟨fun ⟨h₁, h₂⟩ => ⟨h₁.symm, h₂.symm⟩, fun ⟨h₁, h₂⟩ => ⟨h₁.symm, h₂.symm⟩⟩
    · simp [h]

/-- A conditional update changed nothing exactly when no row under the key meets the condition. -/
theorem updateWhere_eq_none_iff {t : KeyedTable K R} {k : K} {cond : R → Bool} {f : R → R} :
    t.updateWhere k cond f = none ↔ ∀ r, t k = some r → cond r = false := by
  unfold updateWhere
  cases t k with
  | none => simp
  | some r => by_cases h : cond r = true <;> simp [h]

/-! ### Tables of lists of rows -/

/-- The table with the given rows; the last row under a key counts. -/
def ofList (rows : List (K × R)) : KeyedTable K R :=
  rows.foldl (fun t row => t.set row.1 row.2) fun _ => none

theorem ofList_append_singleton (rows : List (K × R)) (row : K × R) :
    ofList (rows ++ [row]) = (ofList rows).set row.1 row.2 :=
  List.foldl_concat ..

/-- A listed key has a row, and what holds of all listed rows holds of it. -/
theorem exists_of_mem_ofList {P : R → Prop} {rows : List (K × R)} {k : K}
    (hk : k ∈ rows.map Prod.fst) (hP : ∀ row ∈ rows, P row.2) :
    ∃ r, ofList rows k = some r ∧ P r := by
  induction rows using List.reverseRecOn with
  | nil => cases hk
  | append_singleton rows row ih =>
    rw [ofList_append_singleton]
    by_cases hlast : k = row.1
    · exact ⟨row.2, hlast ▸ set_self .., hP row (by simp)⟩
    · have hbefore : k ∈ rows.map Prod.fst := by simpa [hlast] using hk
      rw [set_of_ne _ _ hlast]
      exact ih hbefore fun row hrow => hP row (List.mem_append_left _ hrow)

/-! ### Rows that stay and evolve -/

/-- Every row of `t` is in `t'` under the same key, related by `P` to what it was. -/
def Evolves (P : R → R → Prop) (t t' : KeyedTable K R) : Prop :=
  ∀ k r, t k = some r → ∃ r', t' k = some r' ∧ P r r'

namespace Evolves

variable {P : R → R → Prop} {t t' t'' : KeyedTable K R}

omit [DecidableEq K] in
theorem refl (hP : ∀ r, P r r) (t : KeyedTable K R) : Evolves P t t :=
  fun _ r h => ⟨r, h, hP r⟩

omit [DecidableEq K] in
theorem trans (hP : ∀ a b c, P a b → P b c → P a c) (h : Evolves P t t')
    (h' : Evolves P t' t'') : Evolves P t t'' := by
  intro k r hr
  obtain ⟨r', hr', hp⟩ := h k r hr
  obtain ⟨r'', hr'', hp'⟩ := h' k r' hr'
  exact ⟨r'', hr'', hP _ _ _ hp hp'⟩

end Evolves

end KeyedTable
