import Morphflow.Foundation.KeyedTable

/-!
# Concurrent holders of fencing tokens

The rows of a table carry an epoch that only grows; an agent that claims a row raises its epoch and
keeps the new value as its token. Agents may be overtaken at any time: an agent whose token is
smaller than the epoch of the row is *stale*, and the one whose token is the epoch is *current*.
The current holder is unique, and what it knows about the row (`FencingScheme.valid`) stays true
until somebody writes the row.

`FencingScheme.Disciplined` is this discipline for the agents of any index type; the theorems
of the namespace are the rules by which claims, writes by the current holder, writes by a third
party, insertions and dropped agents keep it.

## Main definitions

* `FencingScheme`, `FencingScheme.Disciplined`.

## Main results

* `FencingScheme.Disciplined.grant`, `FencingScheme.Disciplined.settle`,
  `FencingScheme.Disciplined.touch`, `FencingScheme.Disciplined.insert`,
  `FencingScheme.Disciplined.release`.
-/

/-- How leases name rows and how their tokens compare with the epochs of the rows. -/
structure FencingScheme (K R L : Type*) where
  /-- The epoch of a row. -/
  epoch : R → ℕ
  /-- The row a lease is for. -/
  key : L → K
  /-- The token of a lease. -/
  token : L → ℕ
  /-- What the current holder of a lease knows about the row. -/
  valid : L → R → Prop

namespace FencingScheme

variable {K R L ι : Type*} [DecidableEq K] (F : FencingScheme K R L)

/-- Every lease held is for a row whose epoch is not smaller than its token, a current lease is
valid, and no two agents hold the same token for the same row. -/
structure Disciplined (rows : KeyedTable K R) (holds : ι → Option L) : Prop where
  fenced : ∀ i l, holds i = some l → ∃ r, rows (F.key l) = some r ∧ F.token l ≤ F.epoch r ∧
    (F.token l = F.epoch r → F.valid l r)
  unique : ∀ i j l m, holds i = some l → holds j = some m → F.key l = F.key m →
    F.token l = F.token m → i = j

variable {F} {rows : KeyedTable K R} {holds holds' : ι → Option L}

namespace Disciplined

omit [DecidableEq K] in
theorem of_none (h : ∀ i, holds i = none) : F.Disciplined rows holds where
  fenced i l hl := by cases (h i).symm.trans hl
  unique i j l m hl _ := by cases (h i).symm.trans hl

omit [DecidableEq K] in
/-- Agents may drop their leases. -/
theorem release (h : F.Disciplined rows holds)
    (hsub : ∀ i l, holds' i = some l → holds i = some l) : F.Disciplined rows holds' where
  fenced i l hl := h.fenced i l (hsub i l hl)
  unique i j l m hl hm := h.unique i j l m (hsub i l hl) (hsub j m hm)

omit [DecidableEq K] in
/-- A lease with the epoch of its row is current, hence valid. -/
theorem valid_of_current (h : F.Disciplined rows holds) {i : ι} {l : L} {r : R}
    (hl : holds i = some l) (hr : rows (F.key l) = some r) (he : F.token l = F.epoch r) :
    F.valid l r := by
  obtain ⟨r', hr', -, hv⟩ := h.fenced i l hl
  obtain rfl : r' = r := Option.some.inj (hr'.symm.trans hr)
  exact hv he

omit [DecidableEq K] in
/-- The token of a lease never exceeds the epoch of its row. -/
theorem token_le (h : F.Disciplined rows holds) {i : ι} {l : L} {r : R}
    (hl : holds i = some l) (hr : rows (F.key l) = some r) : F.token l ≤ F.epoch r := by
  obtain ⟨r', hr', hle, -⟩ := h.fenced i l hl
  obtain rfl : r' = r := Option.some.inj (hr'.symm.trans hr)
  exact hle

/-- Replacing the row under `k` by one with an epoch that is not smaller keeps the discipline of
the agents that keep their leases, when the ones current afterwards are valid. -/
theorem rewrite (h : F.Disciplined rows holds) {k : K} {r r' : R} (hk : rows k = some r)
    (he : F.epoch r ≤ F.epoch r') (hsub : ∀ i l, holds' i = some l → holds i = some l)
    (hvalid : ∀ i l, holds' i = some l → F.key l = k → F.token l = F.epoch r' → F.valid l r') :
    F.Disciplined (rows.set k r') holds' where
  fenced i l hl := by
    obtain ⟨r₀, hr₀, hrest⟩ := h.fenced i l (hsub i l hl)
    refine KeyedTable.exists_set hr₀ (fun _ => hrest) fun hkey => ⟨?_, hvalid i l hl hkey⟩
    exact (h.token_le (hsub i l hl) (hkey ▸ hk)).trans he
  unique := (h.release hsub).unique

/-- An agent that raised the epoch of a row may hold the new token. -/
theorem grant (h : F.Disciplined rows holds) {i : ι} {l : L} {r r' : R}
    (hk : rows (F.key l) = some r) (he : F.epoch r' = F.epoch r + 1)
    (ht : F.token l = F.epoch r') (hv : F.valid l r')
    (hi : ∀ m, holds' i = some m → m = l)
    (hother : ∀ j m, j ≠ i → holds' j = some m → holds j = some m) :
    F.Disciplined (rows.set (F.key l) r') holds' := by
  -- every other token for the row is below the new epoch
  have hlt : ∀ j m, j ≠ i → holds' j = some m → F.key m = F.key l → F.token m < F.epoch r' := by
    intro j m hj hm hkey
    have := h.token_le (hother j m hj hm) (hkey ▸ hk)
    omega
  constructor
  · intro j m hm
    by_cases hj : j = i
    · subst hj
      obtain rfl := hi m hm
      exact ⟨r', by rw [KeyedTable.set_self], ht.le, fun _ => hv⟩
    · obtain ⟨r₀, hr₀, hrest⟩ := h.fenced j m (hother j m hj hm)
      refine KeyedTable.exists_set hr₀ (fun _ => hrest) fun hkey => ?_
      have hm := hlt j m hj hm hkey
      exact ⟨hm.le, fun heq => absurd heq hm.ne⟩
  · intro j j' m m' hm hm' hkey htok
    by_cases hj : j = i
    · by_cases hj' : j' = i
      · rw [hj, hj']
      · subst hj
        obtain rfl := hi m hm
        exact absurd (htok.symm.trans ht) (hlt j' m' hj' hm' hkey.symm).ne
    · by_cases hj' : j' = i
      · subst hj'
        obtain rfl := hi m' hm'
        exact absurd (htok.trans ht) (hlt j m hj hm hkey).ne
      · exact h.unique j j' m m' (hother j m hj hm) (hother j' m' hj' hm') hkey htok

/-- The current holder may write its row, keeping the epoch, when it drops its lease. -/
theorem settle (h : F.Disciplined rows holds) {i : ι} {l : L} {r r' : R}
    (hl : holds i = some l) (hk : rows (F.key l) = some r) (ht : F.token l = F.epoch r)
    (he : F.epoch r' = F.epoch r) (hi : holds' i = none)
    (hother : ∀ j m, j ≠ i → holds' j = some m → holds j = some m) :
    F.Disciplined (rows.set (F.key l) r') holds' := by
  have hne : ∀ j m, holds' j = some m → j ≠ i := by
    rintro j m hm rfl
    cases hi.symm.trans hm
  refine h.rewrite hk he.ge (fun j m hm => hother j m (hne j m hm) hm) ?_
  intro j m hm hkey htok
  have hsame : F.token m = F.token l := htok.trans (he.trans ht.symm)
  exact absurd (h.unique j i m l (hother j m (hne j m hm) hm) hl hkey hsame) (hne j m hm)

/-- A third party may write a row, keeping the epoch, when this keeps what a current holder knows
about it. -/
theorem touch (h : F.Disciplined rows holds) {k : K} {r r' : R} (hk : rows k = some r)
    (he : F.epoch r' = F.epoch r)
    (hvalid : ∀ i l, holds i = some l → F.key l = k → F.token l = F.epoch r → F.valid l r →
      F.valid l r')
    (hsub : ∀ i l, holds' i = some l → holds i = some l) :
    F.Disciplined (rows.set k r') holds' := by
  refine h.rewrite hk he.ge hsub fun i l hl hkey htok => ?_
  have hcur : F.token l = F.epoch r := htok.trans he
  exact hvalid i l (hsub i l hl) hkey hcur
    (h.valid_of_current (hsub i l hl) (hkey ▸ hk) hcur)

/-- A row may be inserted under a fresh key. -/
theorem insert (h : F.Disciplined rows holds) {k : K} {r : R} (hk : rows k = none)
    (hsub : ∀ i l, holds' i = some l → holds i = some l) :
    F.Disciplined (rows.set k r) holds' where
  fenced i l hl := by
    obtain ⟨r₀, hr₀, hrest⟩ := h.fenced i l (hsub i l hl)
    refine KeyedTable.exists_set hr₀ (fun _ => hrest) ?_
    rintro rfl
    cases hk.symm.trans hr₀
  unique := (h.release hsub).unique

end Disciplined

end FencingScheme
