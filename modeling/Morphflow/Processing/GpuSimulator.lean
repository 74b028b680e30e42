import Morphflow.Domain.PyValue
import Morphflow.Foundation.Raising

/-!
# The inference simulator

`GpuInferenceSimulator` sleeps for a latency, fails with a given probability and otherwise echoes
the content of the request. Latency and failure rate may be overridden in the options of a request.
`_run_single` processes one payload; `_run_batch` computes the latencies of all items of a batch,
sleeps once for the longest of them, and finalises one item after the other.

The payload is any dictionary, its values any that `json.loads` builds. The draws of
`random.random()` are arguments. Metrics, spans, the semaphore and the time that a sleep takes are
left out; a delay that no float can hold raises.

## Main definitions

* `GpuInferenceSimulator`, `GpuInferenceSimulator.init`.
* `resolveLatencyMs`, `shouldFail`, `buildResult`.
* `runSingle`, `runBatch`, `BatchRun`.

## Main results

* `exists_resolveLatencyMs_iff`, `exists_buildResult_iff`: which payloads do not raise.
* `resolutions_finalize`, `resolutions_finalize_of_error`: what the loop over a batch resolves.
-/

namespace Morphflow

/-- What `process` gives: a result, or the exception it raises. -/
abbrev Outcome := Except PyException Dict

/-- The settings of the simulator, within their bounds. -/
structure GpuInferenceSimulator where
  baseLatencyMs : ℤ
  simulatedGpuUtilization : PyFloat
  failureRate : PyFloat
  batchOverheadMs : ℤ
  one_le_baseLatencyMs : 1 ≤ baseLatencyMs
  zero_le_batchOverheadMs : 0 ≤ batchOverheadMs

/-- An item of a batch: its payload, and what `random.random()` returns for it. Its future goes by
its position in the batch. -/
structure BatchItem where
  payload : Dict
  draw : ℚ

/-- A run of `_run_batch`: the futures it resolved, by position and in order, and the exception
that left it. -/
structure BatchRun where
  resolved : List (ℕ × Outcome)
  raised : Option PyException

/-- How often and how the future of an item was resolved. -/
def BatchRun.resolutions (run : BatchRun) (i : ℕ) : List Outcome :=
  (run.resolved.filter fun r => r.1 == i).map (·.2)

/-- `asyncio.sleep(ms / 1000)`. -/
def sleepMs (ms : ℤ) : Except PyException Unit :=
  if overflowsFloat (ms / 1000) then
    .error ⟨.overflowError, "integer division result too large for a float"⟩
  else .ok ()

/-- The exception of a simulated failure. -/
def simulatedFailure : PyException := ⟨.runtimeError, "simulated inference failure"⟩

namespace GpuInferenceSimulator

/-- `GpuInferenceSimulator.__init__`, what it keeps for the processing of a batch. -/
def init (baseLatencyMs : ℤ) (simulatedGpuUtilization failureRate : PyFloat)
    (batchOverheadMs : ℤ) : GpuInferenceSimulator where
  baseLatencyMs := max 1 baseLatencyMs
  simulatedGpuUtilization := simulatedGpuUtilization.clamp
  failureRate := failureRate.clamp
  batchOverheadMs := max 0 batchOverheadMs
  one_le_baseLatencyMs := le_max_left ..
  zero_le_batchOverheadMs := le_max_left ..

variable (s : GpuInferenceSimulator)

/-- `_resolve_latency_ms`. -/
def resolveLatencyMs (payload : Dict) : Except PyException ℤ := do
  let options ← payload.getDict "options"
  (options.getOrNull "simulate_inference_ms").toPyInt?.getD (.ok s.baseLatencyMs)

/-- `_should_fail` under the draw. -/
def shouldFail (payload : Dict) (draw : ℚ) : Except PyException Bool := do
  let options ← payload.getDict "options"
  let override := options.getOrNull "simulate_inference_failure_rate"
  let failureRate ← override.toPyFloat?.getD (.ok s.failureRate)
  return failureRate.clamp.above draw

/-- `_build_result`. -/
def buildResult (payload : Dict) (latencyMs : ℤ) (batchSize : ℕ) : Except PyException Dict := do
  let input ← payload.getDict "input"
  let content := (input.get? "content").getD (.str "")
  let length ← content.len
  return [("message", .str "gpu inference simulator completed"), ("mode", .str "simulated-gpu"),
    ("echo", content), ("length", .int length), ("simulated_latency_ms", .int latencyMs),
    ("simulated_gpu_utilization", .float s.simulatedGpuUtilization),
    ("simulated_batch_size", .int batchSize)]

/-- `_run_single`. -/
def runSingle (payload : Dict) (draw : ℚ) : Outcome := do
  let latencyMs ← s.resolveLatencyMs payload
  sleepMs (max 1 latencyMs)
  if ← s.shouldFail payload draw then
    throw simulatedFailure
  s.buildResult payload latencyMs 1

/-- What the loop of `_run_batch` resolves the future of an item with, unless it raises. -/
def finalizeItem (batchSize : ℕ) (item : BatchItem) (latencyMs : ℤ) :
    Except PyException Outcome := do
  if ← s.shouldFail item.payload item.draw then
    return .error simulatedFailure
  return .ok (← s.buildResult item.payload latencyMs batchSize)

/-- The loop of `_run_batch` over the items and their latencies, from the position `i`; an exception
leaves it. -/
def finalize (batchSize : ℕ) : ℕ → List (BatchItem × ℤ) → BatchRun
  | _, [] => ⟨[], none⟩
  | i, (item, latencyMs) :: rest =>
    match s.finalizeItem batchSize item latencyMs with
    | .error e => ⟨[], some e⟩
    | .ok outcome =>
      let run := finalize batchSize (i + 1) rest
      ⟨(i, outcome) :: run.resolved, run.raised⟩

/-- The first part of `_run_batch`: the latencies of all items, and one sleep. -/
def batchLatencies (items : List BatchItem) : Except PyException (List ℤ) := do
  let latencies ← items.mapM fun item => s.resolveLatencyMs item.payload
  let longest ← pyMax latencies
  sleepMs (longest + s.batchOverheadMs)
  return latencies

/-- `_run_batch`. A single item is processed by `_run_single`, whose exception its future gets. -/
def runBatch : List BatchItem → BatchRun
  | [item] => ⟨[(0, s.runSingle item.payload item.draw)], none⟩
  | items =>
    match s.batchLatencies items with
    | .error e => ⟨[], some e⟩
    | .ok latencies => s.finalize items.length 0 (items.zip latencies)

/-! ### What raises -/

theorem sleepMs_eq_ok_iff {ms : ℤ} : sleepMs ms = .ok () ↔ overflowsFloat (ms / 1000) = false := by
  cases h : overflowsFloat (ms / 1000) <;> simp [sleepMs, h]

section Raises

variable {payload : Dict} {draw : ℚ} {latencyMs : ℤ} {batchSize : ℕ} {item : BatchItem}

/-- The latency raises for an override that is a float and not finite. -/
theorem exists_resolveLatencyMs_iff : (∃ ms, s.resolveLatencyMs payload = .ok ms) ↔
    ∃ options, payload.getDict "options" = .ok options ∧
      ∀ x, options.getOrNull "simulate_inference_ms" = .float x → ∃ q, x = .finite q := by
  simp only [resolveLatencyMs, Except.bind_eq_ok_iff]
  rw [exists_comm]
  refine exists_congr fun options => ?_
  rw [exists_and_left, Json.toPyInt?_getD_eq_ok_iff]

/-- The failure rate raises for an override that is an integer beyond the floats. -/
theorem exists_shouldFail_iff : (∃ b, s.shouldFail payload draw = .ok b) ↔
    ∃ options, payload.getDict "options" = .ok options ∧
      ∀ n, options.getOrNull "simulate_inference_failure_rate" = .int n →
        overflowsFloat n = false := by
  simp only [shouldFail, Except.bind_eq_ok_iff]
  rw [exists_comm]
  refine exists_congr fun options => ?_
  rw [exists_and_left, ← Json.toPyFloat?_getD_eq_ok_iff s.failureRate, exists_comm]
  simp [pure, Except.pure]

/-- The result raises for a content without a length. -/
theorem exists_buildResult_iff : (∃ r, s.buildResult payload latencyMs batchSize = .ok r) ↔
    ∃ input, payload.getDict "input" = .ok input ∧
      ((input.get? "content").getD (.str "")).HasLen := by
  simp only [buildResult, Except.bind_eq_ok_iff]
  rw [exists_comm]
  refine exists_congr fun input => ?_
  rw [exists_and_left, ← Json.len_eq_ok_iff, exists_comm]
  simp [pure, Except.pure]

/-- An item is finalised when it fails by its draw, or its result is built. -/
theorem exists_finalizeItem_iff : (∃ o, s.finalizeItem batchSize item latencyMs = .ok o) ↔
    (∃ b, s.shouldFail item.payload item.draw = .ok b) ∧
      (s.shouldFail item.payload item.draw = .ok true ∨
        ∃ r, s.buildResult item.payload latencyMs batchSize = .ok r) := by
  unfold finalizeItem
  cases s.shouldFail item.payload item.draw with
  | error e => simp [bind, Except.bind]
  | ok b =>
    cases b with
    | true => simp [bind, Except.bind, pure, Except.pure]
    | false => cases s.buildResult item.payload latencyMs batchSize <;>
        simp [bind, Except.bind, pure, Except.pure]

end Raises

/-- The latencies of a batch are computed when that of every item is, and the sleep raises for no
delay within the floats. -/
theorem batchLatencies_eq_ok_iff {items : List BatchItem} {latencies : List ℤ} :
    s.batchLatencies items = .ok latencies ↔
      items.Forall₂ (fun item ms => s.resolveLatencyMs item.payload = .ok ms) latencies ∧
        ∃ longest, latencies.max? = some longest ∧
          overflowsFloat ((longest + s.batchOverheadMs : ℤ) / 1000) = false := by
  unfold batchLatencies
  simp only [Except.bind_eq_ok_iff, List.mapM_eq_ok_iff, pyMax_eq_ok_iff]
  constructor
  · rintro ⟨latencies', hall, longest, hmax, ⟨⟩, hsleep, heq⟩
    obtain rfl := Except.ok.inj heq
    exact ⟨hall, longest, hmax, sleepMs_eq_ok_iff.mp hsleep⟩
  · rintro ⟨hall, longest, hmax, hsleep⟩
    exact ⟨latencies, hall, longest, hmax, (), sleepMs_eq_ok_iff.mpr hsleep, rfl⟩

/-! ### The loop over a batch -/

section Loop

variable {batchSize i j : ℕ} {pairs : List (BatchItem × ℤ)} {p : BatchItem × ℤ}

/-- The loop resolves futures from its position on. -/
theorem le_of_mem_finalize {r : ℕ × Outcome} (h : r ∈ (s.finalize batchSize i pairs).resolved) :
    i ≤ r.1 := by
  induction pairs generalizing i with
  | nil => cases h
  | cons p pairs ih =>
    obtain ⟨item, latencyMs⟩ := p
    unfold finalize at h
    split at h
    · cases h
    · rcases List.mem_cons.mp h with rfl | h
      · exact le_rfl
      · exact (Nat.le_succ i).trans (ih h)

theorem resolutions_eq_nil_of_lt {k : ℕ} (h : k < i) :
    (s.finalize batchSize i pairs).resolutions k = [] := by
  rw [BatchRun.resolutions, List.map_eq_nil_iff, List.filter_eq_nil_iff]
  intro r hr heq
  have := s.le_of_mem_finalize hr
  simp only [beq_iff_eq] at heq
  omega

/-- A loop that nothing leaves resolves every future once. -/
theorem resolutions_finalize
    (h : ∀ p ∈ pairs, ∃ o, s.finalizeItem batchSize p.1 p.2 = .ok o) (hj : pairs[j]? = some p)
    {o : Outcome} (ho : s.finalizeItem batchSize p.1 p.2 = .ok o) :
    (s.finalize batchSize i pairs).resolutions (i + j) = [o] := by
  induction pairs generalizing i j with
  | nil => cases hj
  | cons q pairs ih =>
    obtain ⟨item, latencyMs⟩ := q
    obtain ⟨o', ho'⟩ := h _ List.mem_cons_self
    rw [finalize, ho']
    cases j with
    | zero =>
      obtain rfl := Option.some.inj hj
      obtain rfl := Except.ok.inj (ho'.symm.trans ho)
      have hrest : (s.finalize batchSize (i + 1) pairs).resolutions i = [] :=
        s.resolutions_eq_nil_of_lt i.lt_succ_self
      simpa [BatchRun.resolutions] using hrest
    | succ j =>
      have hrest := ih (i := i + 1) (fun p hp => h p (List.mem_cons_of_mem _ hp)) hj
      rw [← Nat.add_assoc, Nat.add_right_comm]
      have hne : i ≠ i + 1 + j := by omega
      simpa [BatchRun.resolutions, hne] using hrest

/-- The future of an item that raises stays as it is. -/
theorem resolutions_finalize_of_error (hj : pairs[j]? = some p) {e : PyException}
    (he : s.finalizeItem batchSize p.1 p.2 = .error e) :
    (s.finalize batchSize i pairs).resolutions (i + j) = [] := by
  induction pairs generalizing i j with
  | nil => cases hj
  | cons q pairs ih =>
    obtain ⟨item, latencyMs⟩ := q
    unfold finalize
    split
    · rfl
    · next o ho =>
      cases j with
      | zero =>
        obtain rfl := Option.some.inj hj
        cases ho.symm.trans he
      | succ j =>
        have hrest := ih (i := i + 1) hj
        rw [← Nat.add_assoc, Nat.add_right_comm]
        have hne : i ≠ i + 1 + j := by omega
        simpa [BatchRun.resolutions, hne] using hrest

end Loop

end GpuInferenceSimulator

end Morphflow
