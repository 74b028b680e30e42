import Morphflow.Processing.MicroBatch

/-!
# What a batch resolves

`_run_batch` resolves the futures of its items one after the other until something raises. What it
resolved by then agrees with the single runs, whatever happens to the rest of the batch.

## Main definitions

* `GpuInferenceSimulator.sleeps`: nothing raises before the sleep.
* `GpuInferenceSimulator.Steady`: a payload that raises nothing but simulated failures.

## Main results

* `runBatch_positions`, `outcome_of_mem_runBatch`.
* `runBatch_congr_of_not_sleeps`: what raises before the sleep does not depend on the draws.
-/

namespace Morphflow

namespace GpuInferenceSimulator

/-- `_run_batch` comes to its sleep. -/
def sleeps (s : GpuInferenceSimulator) : List Dict → Bool
  | [payload] => (do let ms ← s.resolveLatencyMs payload; sleepMs (max 1 ms)).isOk
  | payloads => (s.batchLatencies (payloads.map fun payload => ⟨payload, 0⟩)).isOk

variable {s : GpuInferenceSimulator} {items : List BatchItem}

theorem runBatch_of_ne_singleton (h : ∀ item, items ≠ [item]) : s.runBatch items =
    match s.batchLatencies items with
    | .error e => ⟨[], some e⟩
    | .ok latencies => s.finalize items.length 0 (items.zip latencies) := by
  match items, h with
  | [], _ => rfl
  | [item], h => exact absurd rfl (h item)
  | _ :: _ :: _, _ => rfl

variable (s) in
/-- The loop resolves the futures one after the other, and all of them unless it is left. -/
theorem finalize_positions (batchSize i : ℕ) (pairs : List (BatchItem × ℤ)) :
    ∃ k ≤ pairs.length, (s.finalize batchSize i pairs).resolved.map Prod.fst = List.range' i k ∧
      ((s.finalize batchSize i pairs).raised = none → k = pairs.length) := by
  induction pairs generalizing i with
  | nil => exact ⟨0, le_rfl, rfl, fun _ => rfl⟩
  | cons p pairs ih =>
    obtain ⟨item, latencyMs⟩ := p
    obtain ⟨k, hle, hpositions, hall⟩ := ih (i + 1)
    unfold finalize
    split
    · exact ⟨0, Nat.zero_le _, rfl, fun h => by cases h⟩
    · refine ⟨k + 1, Nat.succ_le_succ hle, ?_, fun h => congrArg (· + 1) (hall h)⟩
      simp only [List.map_cons, hpositions, List.range'_succ]

theorem length_zip_batchLatencies {latencies : List ℤ}
    (h : s.batchLatencies items = .ok latencies) :
    (items.zip latencies).length = items.length := by
  rw [List.length_zip, ← (s.batchLatencies_eq_ok_iff.mp h).1.length_eq, min_self]

variable (s items) in
/-- A batch resolves the futures of its first items, and of all when nothing leaves it. -/
theorem runBatch_positions : ∃ k ≤ items.length,
    (s.runBatch items).resolved.map Prod.fst = List.range k ∧
      ((s.runBatch items).raised = none → k = items.length) := by
  by_cases hsingle : ∃ item, items = [item]
  · obtain ⟨item, rfl⟩ := hsingle
    exact ⟨1, le_rfl, rfl, fun _ => rfl⟩
  rw [runBatch_of_ne_singleton (not_exists.mp hsingle)]
  cases hlatencies : s.batchLatencies items with
  | error e => exact ⟨0, Nat.zero_le _, rfl, fun h => by cases h⟩
  | ok latencies =>
    obtain ⟨k, hle, hpositions, hall⟩ :=
      s.finalize_positions items.length 0 (items.zip latencies)
    have hlength := length_zip_batchLatencies hlatencies
    rw [← List.range_eq_range'] at hpositions
    exact ⟨k, hlength ▸ hle, hpositions, fun h => (hall h).trans hlength⟩

theorem finalizeItem_of_mem_finalize {batchSize i : ℕ} {pairs : List (BatchItem × ℤ)}
    {r : ℕ × Outcome} (h : r ∈ (s.finalize batchSize i pairs).resolved) :
    ∃ j p, r.1 = i + j ∧ pairs[j]? = some p ∧ s.finalizeItem batchSize p.1 p.2 = .ok r.2 := by
  induction pairs generalizing i with
  | nil => cases h
  | cons p pairs ih =>
    obtain ⟨item, latencyMs⟩ := p
    unfold finalize at h
    split at h
    · cases h
    · next outcome houtcome =>
      rcases List.mem_cons.mp h with rfl | h
      · exact ⟨0, (item, latencyMs), rfl, rfl, houtcome⟩
      · obtain ⟨j, p, hj, hp, ho⟩ := ih h
        exact ⟨j + 1, p, by omega, hp, ho⟩

/-- An item of a batch could have slept for its own latency. -/
theorem sleepMs_of_batchLatencies {latencies : List ℤ} {item : BatchItem} {ms : ℤ}
    (h : s.batchLatencies items = .ok latencies) (hitem : item ∈ items)
    (hms : s.resolveLatencyMs item.payload = .ok ms) : sleepMs (max 1 ms) = .ok () := by
  obtain ⟨hall, longest, hmax, hdelay⟩ := s.batchLatencies_eq_ok_iff.mp h
  refine sleepMs_single ?_ hdelay
  have hmem := (List.mem_iff_of_mapM_eq_ok (List.mapM_eq_ok_iff.mpr hall) (y := ms)).mpr
    ⟨item, hitem, hms⟩
  exact (List.max?_eq_some_iff.mp hmax).2 ms hmem

/-- Every future that a batch resolves gets what `_run_single` gives, whatever happens to the
others. -/
theorem outcome_of_mem_runBatch {r : ℕ × Outcome} (h : r ∈ (s.runBatch items).resolved) :
    ∃ item, items[r.1]? = some item ∧
      r.2.map withoutBatchSize = (s.runSingle item.payload item.draw).map withoutBatchSize := by
  by_cases hsingle : ∃ item, items = [item]
  · obtain ⟨item, rfl⟩ := hsingle
    obtain rfl := List.mem_singleton.mp h
    exact ⟨item, rfl, rfl⟩
  rw [runBatch_of_ne_singleton (not_exists.mp hsingle)] at h
  cases hlatencies : s.batchLatencies items with
  | error e =>
    rw [hlatencies] at h
    cases h
  | ok latencies =>
    rw [hlatencies] at h
    obtain ⟨j, ⟨item, ms⟩, hj, hpair, houtcome⟩ := finalizeItem_of_mem_finalize h
    rw [Nat.zero_add] at hj
    have hitem := (List.getElem?_zip_eq_some.mp hpair).1
    obtain ⟨ms', hpair', hms⟩ := exists_getElem?_zip hlatencies hitem
    obtain ⟨-, rfl⟩ := Prod.mk.inj (Option.some.inj (hpair.symm.trans hpair'))
    have hsleep := sleepMs_of_batchLatencies hlatencies (List.mem_of_getElem? hitem) hms
    exact ⟨item, hj ▸ hitem, finalizeItem_agrees hms hsleep houtcome⟩

theorem batchLatencies_congr {items' : List BatchItem}
    (hpayloads : items'.map BatchItem.payload = items.map BatchItem.payload) :
    s.batchLatencies items' = s.batchLatencies items := by
  have hmapM : ∀ l : List BatchItem, (l.mapM fun item => s.resolveLatencyMs item.payload) =
      (l.map BatchItem.payload).mapM s.resolveLatencyMs := fun l => by
    rw [List.mapM_map]
    rfl
  rw [batchLatencies, batchLatencies, hmapM, hmapM, hpayloads]

theorem sleeps_of_ne_singleton (h : ∀ item, items ≠ [item]) :
    s.sleeps (items.map BatchItem.payload) = (s.batchLatencies items).isOk := by
  have hcongr : s.batchLatencies ((items.map BatchItem.payload).map fun payload => ⟨payload, 0⟩) =
      s.batchLatencies items := batchLatencies_congr (by simp)
  rw [← hcongr]
  match items, h with
  | [], _ => rfl
  | [item], h => exact absurd rfl (h item)
  | _ :: _ :: _, _ => rfl

/-- What raises before the sleep raises whatever `random.random()` would return. -/
theorem runBatch_congr_of_not_sleeps {items' : List BatchItem}
    (hpayloads : items'.map BatchItem.payload = items.map BatchItem.payload)
    (h : s.sleeps (items.map BatchItem.payload) = false) :
    s.runBatch items' = s.runBatch items := by
  by_cases hsingle : ∃ item, items = [item]
  · obtain ⟨item, rfl⟩ := hsingle
    obtain ⟨item', rfl, hpayload⟩ := List.map_eq_singleton_iff.mp hpayloads
    have hrun : s.runSingle item'.payload item'.draw = s.runSingle item.payload item.draw := by
      rw [hpayload]
      unfold runSingle
      simp only [sleeps, List.map_cons, List.map_nil] at h
      cases hms : s.resolveLatencyMs item.payload with
      | error e => rfl
      | ok ms =>
        rw [hms] at h
        cases hsleep : sleepMs (max 1 ms) with
        | error e => simp [bind, Except.bind, hsleep]
        | ok u => simp [bind, Except.bind, hsleep, Except.isOk, Except.toBool] at h
    rw [runBatch, runBatch, hrun]
  have hsingle' : ¬∃ item, items' = [item] := by
    rintro ⟨item', rfl⟩
    obtain ⟨item, rfl, -⟩ := List.map_eq_singleton_iff.mp hpayloads.symm
    exact hsingle ⟨item, rfl⟩
  rw [runBatch_of_ne_singleton (not_exists.mp hsingle),
    runBatch_of_ne_singleton (not_exists.mp hsingle'), batchLatencies_congr hpayloads]
  rw [sleeps_of_ne_singleton (not_exists.mp hsingle)] at h
  cases hlatencies : s.batchLatencies items with
  | error e => rfl
  | ok latencies =>
    rw [hlatencies] at h
    cases h

/-! ### Payloads that raise nothing -/

theorem raised_finalize {batchSize i : ℕ} {pairs : List (BatchItem × ℤ)}
    (h : ∀ p ∈ pairs, ∃ o, s.finalizeItem batchSize p.1 p.2 = .ok o) :
    (s.finalize batchSize i pairs).raised = none := by
  induction pairs generalizing i with
  | nil => rfl
  | cons p pairs ih =>
    obtain ⟨item, latencyMs⟩ := p
    obtain ⟨o, ho⟩ := h _ List.mem_cons_self
    rw [finalize, ho]
    exact ih fun p hp => h p (List.mem_cons_of_mem _ hp)

theorem Batchable.raised_eq_none (h : s.Batchable items) (hne : items ≠ []) :
    (s.runBatch items).raised = none := by
  by_cases hsingle : ∃ item, items = [item]
  · obtain ⟨item, rfl⟩ := hsingle
    rfl
  obtain ⟨latencies, hlatencies⟩ := (exists_batchLatencies_iff hne).mpr
    ⟨fun item hitem => (h.processable item hitem).exists_resolveLatencyMs, h.delay⟩
  rw [runBatch_of_ne_singleton (not_exists.mp hsingle), hlatencies]
  refine raised_finalize fun ⟨item, ms⟩ hp => ?_
  obtain ⟨j, hj⟩ := List.mem_iff_getElem?.mp hp
  obtain ⟨ms', hpair, hms⟩ := exists_getElem?_zip hlatencies (List.getElem?_zip_eq_some.mp hj).1
  obtain ⟨-, rfl⟩ := Prod.mk.inj (Option.some.inj (hpair.symm.trans hj))
  exact (exists_finalizeItem_iff_processable hms).mpr (h.processable _ (List.of_mem_zip hp).1)

variable (s) in
/-- The payload raises nothing but a simulated failure, whatever `random.random()` returns, and its
latency and the overhead make a delay within the floats. -/
structure Steady (payload : Dict) : Prop where
  processable : ∀ draw, s.Processable ⟨payload, draw⟩
  delay : ∀ ms, s.resolveLatencyMs payload = .ok ms →
    overflowsFloat ((ms + s.batchOverheadMs : ℤ) / 1000) = false

/-- Steady payloads make a batch that agrees with the single runs. -/
theorem batchable_of_steady (h : ∀ item ∈ items, s.Steady item.payload) : s.Batchable items where
  processable item hitem := (h item hitem).processable item.draw
  delay longest hlongest := by
    obtain ⟨⟨item, hitem, hms⟩, -⟩ := hlongest
    exact (h item hitem).delay longest hms

end GpuInferenceSimulator

end Morphflow
