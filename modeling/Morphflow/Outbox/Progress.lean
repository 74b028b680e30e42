import Morphflow.Foundation.Possibility
import Morphflow.Outbox.Order

/-!
# What a relay can still do

Whichever drains are open, a waiting row can be fetched: the drain that holds its lock can be
aborted, and a batch that is large enough reaches it.

## Main definitions

* `Relays.Tight`: every lock belongs to an open drain.
* `quietRelays`: the steps of the relays that publish nothing.

## Main results

* `Relays.Tight.of_effect`, `Relays.leads_fetched`.
-/

namespace Morphflow

/-- The relays without their publish calls. -/
def quietRelays : TransitionSystem (List OutboxRow × Relays) RelayAct where
  init s := s.2.locks = ∅ ∧ ∀ i, s.2.drains i = none
  step s a := if (s.2.publishCall? a).isNone then s.2.step s.1 a else none

namespace Relays

variable {rows rows' : List OutboxRow} {r r' : Relays}

/-- Every lock belongs to an open drain. -/
def Tight (r : Relays) : Prop :=
  ∀ id ∈ r.locks, ∃ i d, r.drains i = some d ∧ id ∈ d.ids

theorem Tight.close (h : r.Tight) {i : ℕ} {d : Drain} (hi : r.drains i = some d) :
    (r.close i d).Tight := by
  intro id hid
  obtain ⟨hlock, hnot⟩ := Finset.mem_sdiff.mp hid
  obtain ⟨j, e, hj, he⟩ := h id hlock
  refine ⟨j, e, KeyedTable.erase_eq_some_iff.mpr ⟨?_, hj⟩, he⟩
  rintro rfl
  obtain rfl := Option.some.inj (hi.symm.trans hj)
  exact hnot (List.mem_toFinset.mpr he)

/-- A step keeps every lock with an open drain. -/
theorem Tight.of_effect (h : r.Tight) {a : RelayAct} (heff : Effect rows r a rows' r') :
    r'.Tight := by
  cases heff with
  | idle => exact h
  | @fetched i batchSize hi =>
    intro id hid
    rcases Finset.mem_union.mp hid with hlock | hbatch
    · obtain ⟨j, e, hj, he⟩ := h id hlock
      refine ⟨j, e, KeyedTable.set_eq_some_iff.mpr (.inr ⟨?_, hj⟩), he⟩
      rintro rfl
      cases hi.symm.trans hj
    · exact ⟨i, _, KeyedTable.set_self .., List.mem_toFinset.mp hbatch⟩
  | @published i outcome d message rest hi hf hm =>
    intro id hid
    obtain ⟨j, e, hj, he⟩ := h id hid
    by_cases hji : j = i
    · subst hji
      obtain rfl := Option.some.inj (hi.symm.trans hj)
      refine ⟨j, _, KeyedTable.set_self .., ?_⟩
      cases outcome <;> exact he
    · exact ⟨j, e, KeyedTable.set_eq_some_iff.mpr (.inr ⟨hji, hj⟩), he⟩
  | committed hi => exact h.close hi
  | aborted hi => exact h.close hi

/-- The drain that holds a row can be aborted, and a free slot found. -/
theorem leads_unlocked (h : r.Tight) (rows : List OutboxRow) (id : ℕ) :
    ∃ i r', quietRelays.Leads (rows, r) (rows, r') ∧ r'.drains i = none ∧ id ∉ r'.locks := by
  have habort : ∀ i d, r.drains i = some d → quietRelays.Leads (rows, r) (rows, r.close i d) := by
    intro i d hi
    refine .of_step (a := .abort i) ?_
    simp [quietRelays, publishCall?, step, hi]
  by_cases hlock : id ∈ r.locks
  · obtain ⟨i, d, hi, hid⟩ := h id hlock
    refine ⟨i, _, habort i d hi, ?_, ?_⟩
    · simp [Relays.close, KeyedTable.erase]
    · simp [Relays.close, hid]
  · cases hi : r.drains 0 with
    | none => exact ⟨0, r, .refl _, hi, hlock⟩
    | some d =>
      refine ⟨0, _, habort 0 d hi, ?_, ?_⟩
      · simp [Relays.close, KeyedTable.erase]
      · simp [Relays.close, hlock]

/-- A waiting row can be fetched. -/
theorem leads_fetched (h : r.Tight) (hdistinct : (rows.map (·.id)).Nodup) {row : OutboxRow}
    (hrow : row ∈ rows) (hpending : row.status = .pending) :
    ∃ i r' d, quietRelays.Leads (rows, r) (rows, r') ∧ r'.drains i = some d ∧ d.failed = none ∧
      row ∈ d.remaining := by
  obtain ⟨i, r₁, hunlocked, hi, hlock⟩ := leads_unlocked h rows row.id
  let limit : ℕ := rows.length + 1
  let batch := fetchPending rows r₁.locks limit
  have hmem : row ∈ batch := by
    refine (mem_fetchPending_iff hdistinct).mpr ⟨hrow, ?_, ?_⟩
    · simp [OutboxRow.available, hpending, hlock]
    · exact Nat.lt_succ_of_le List.countP_le_length
  have hfetch : quietRelays.step (rows, r₁) (.fetch i limit) =
      some (rows, r₁.openDrain i batch) := by
    have hlimit : (max 1 (limit : ℤ)).toNat = limit := by omega
    have hne : fetchPending rows r₁.locks limit ≠ [] := List.ne_nil_of_mem hmem
    simp [quietRelays, publishCall?, step, hi, hlimit, hne, batch]
  exact ⟨i, _, .ofBatch batch, hunlocked.trans (.of_step hfetch), KeyedTable.set_self .., rfl, hmem⟩

end Relays

end Morphflow
