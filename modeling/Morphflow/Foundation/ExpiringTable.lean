import Morphflow.Foundation.KeyedTable

/-!
# Tables whose entries expire

An entry carries the last point in time at which it can be read; afterwards the table behaves as
if it were not there. `ExpiringTable.setIfAbsent` writes only where nothing can be read, so two
writers of one key that both succeed are separated by the expiry or the loss of an entry.

## Main definitions

* `ExpiringTable`, `ExpiringTable.read`, `ExpiringTable.put`, `ExpiringTable.setIfAbsent`.

## Main results

* `ExpiringTable.setIfAbsent_eq_some_iff`, `ExpiringTable.setIfAbsent_eq_none_iff`.
* `ExpiringTable.read_of_le`: an entry is read until it expires.
-/

/-- A value with the last point in time at which it can be read. -/
structure Expiring (V T : Type*) where
  value : V
  expiresAt : T

/-- A table whose entries expire. -/
abbrev ExpiringTable (K V T : Type*) := KeyedTable K (Expiring V T)

namespace ExpiringTable

variable {K V T : Type*} [LinearOrder T]

/-- The value under the key `k` at the time `now`. -/
def read (t : ExpiringTable K V T) (now : T) (k : K) : Option V :=
  (t k).bind fun e => if now ≤ e.expiresAt then some e.value else none

theorem read_eq_some_iff {t : ExpiringTable K V T} {now : T} {k : K} {v : V} :
    t.read now k = some v ↔ ∃ e, t k = some e ∧ now ≤ e.expiresAt ∧ e.value = v := by
  simp [read, Option.bind_eq_some_iff]

/-- An entry that can be read later can be read now. -/
theorem read_of_le {t : ExpiringTable K V T} {now now' : T} {k : K} {v : V} (hle : now ≤ now')
    (h : t.read now' k = some v) : t.read now k = some v := by
  obtain ⟨e, he, hexp, hv⟩ := read_eq_some_iff.mp h
  exact read_eq_some_iff.mpr ⟨e, he, hle.trans hexp, hv⟩

theorem read_congr {t t' : ExpiringTable K V T} {k : K} (h : t' k = t k) (now : T) :
    t'.read now k = t.read now k := by
  rw [read, h, read]

variable [DecidableEq K]

/-- The table with the value `v` under the key `k` until `expiresAt`. -/
def put (t : ExpiringTable K V T) (k : K) (v : V) (expiresAt : T) : ExpiringTable K V T :=
  t.set k ⟨v, expiresAt⟩

/-- The table with a new value under the key `k`, `none` when there is one at the time `now`. -/
def setIfAbsent (t : ExpiringTable K V T) (now : T) (k : K) (v : V) (expiresAt : T) :
    Option (ExpiringTable K V T) :=
  if (t.read now k).isNone then some (t.put k v expiresAt) else none

theorem read_put_self {t : ExpiringTable K V T} {now expiresAt : T} {k : K} {v : V}
    (h : now ≤ expiresAt) : (t.put k v expiresAt).read now k = some v :=
  read_eq_some_iff.mpr ⟨_, KeyedTable.set_self .., h, rfl⟩

theorem read_put_of_ne {t : ExpiringTable K V T} {now expiresAt : T} {k k' : K} {v : V}
    (h : k' ≠ k) : (t.put k v expiresAt).read now k' = t.read now k' :=
  read_congr (KeyedTable.set_of_ne _ _ h) now

theorem setIfAbsent_eq_some_iff {t t' : ExpiringTable K V T} {now expiresAt : T} {k : K} {v : V} :
    t.setIfAbsent now k v expiresAt = some t' ↔
      t.read now k = none ∧ t' = t.put k v expiresAt := by
  by_cases h : t.read now k = none
  · simp only [setIfAbsent, h, Option.isNone_none, if_true, Option.some.injEq, true_and]
    exact ⟨Eq.symm, Eq.symm⟩
  · simp [setIfAbsent, h]

theorem setIfAbsent_eq_none_iff {t : ExpiringTable K V T} {now expiresAt : T} {k : K} {v : V} :
    t.setIfAbsent now k v expiresAt = none ↔ (t.read now k).isSome := by
  cases h : t.read now k <;> simp [setIfAbsent, h]

end ExpiringTable
