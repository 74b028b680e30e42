import Morphflow.Foundation.FairSemaphore
import Morphflow.Processing.BatchOutcomes
import Morphflow.Processing.BatchQueue

/-!
# The inference simulator at work

`process` runs `_run_single` for its payload, or, with batching, hands it to the micro-batch queue,
whose flush task runs `_run_batch` for a batch. Both hold a permit of the semaphore while they
execute: they count what they execute in a gauge, sleep, settle the futures of their calls, and give
the permit back whether or not an exception left them. An exception that leaves `_run_batch` ends
the flush task; `_batch_flush_task` still names it then, as a task that is done.

A step is what runs between two awaits. What raises before the sleep raises in the step that took
the permit. A call goes by its position among all calls. Calls are not cancelled.

## Main definitions

* `InferenceConfig`, `Execution`, `InferenceService`.
* `InferenceConfig.step`, `inferenceSystem`.
-/

namespace Morphflow

/-- The settings of a simulator: what it processes a payload with, the permits, and the batches. -/
structure InferenceConfig where
  simulator : GpuInferenceSimulator
  maxConcurrency : ℤ
  batchEnabled : Bool
  batchSize : ℤ

/-- The permits of `_semaphore`. -/
def InferenceConfig.permits (cfg : InferenceConfig) : ℕ := (max 1 cfg.maxConcurrency).toNat

/-- Who holds a permit: a call of `process` in `_run_single`, or a flush task in `_run_batch` with
its batch of calls. -/
inductive Execution where
  | single (call : ℕ)
  | batch (task : ℕ) (calls : List ℕ)
  deriving DecidableEq, Repr

/-- The calls whose payloads are processed. -/
def Execution.calls : Execution → List ℕ
  | .single call => [call]
  | .batch _ calls => calls

/-- The simulator with all its calls. -/
structure InferenceService (permits : ℕ) where
  /-- The payloads of the calls of `process`. -/
  payloads : List Dict
  /-- The micro-batch queue. -/
  queue : BatchQueue ℕ
  /-- `_semaphore`. -/
  semaphore : FairSemaphore Execution permits
  /-- The executions that were begun, oldest first. -/
  started : List Execution
  /-- What the calls were answered with. -/
  answers : List (ℕ × Outcome)
  /-- The calls whose future was left behind by an exception. -/
  lost : List ℕ
  /-- `INFERENCE_ACTIVE_JOBS`. -/
  activeJobs : ℤ

/-- What happens next: `process` is called, the lock of the queue goes to the first who waits for
it, a flush task starts, is woken by the event or by its timeout, the first of those whom the
semaphore has woken goes on, or a sleep is over. -/
inductive InferenceAction where
  | process (payload : Dict)
  | lock
  | start (task : ℕ)
  | wake (task : ℕ)
  | timeOut (task : ℕ)
  | resume
  | slept (execution : Execution) (draws : ℕ → ℚ)

/-- The payload of a new call. -/
def InferenceAction.payload? : InferenceAction → Option Dict
  | .process payload => some payload
  | _ => none

/-- The action is a new call. -/
def InferenceAction.isCall (a : InferenceAction) : Bool := a.payload?.isSome

namespace InferenceService

/-- The simulator before the first call. -/
def empty (permits : ℕ) : InferenceService permits :=
  ⟨[], .empty, .new Execution permits, [], [], [], 0⟩

variable {permits : ℕ} (s : InferenceService permits)

/-- The payload of a call. -/
def payload (call : ℕ) : Dict := s.payloads.getD call []

/-- The items of an execution, `random.random()` returning `draws i` for the call `i`. -/
def items (e : Execution) (draws : ℕ → ℚ) : List BatchItem :=
  e.calls.map fun call => ⟨s.payload call, draws call⟩

/-- The flush task of an execution is left, or goes on with its loop. -/
def leaveBatch (q : BatchQueue ℕ) (raised : Bool) : Execution → BatchQueue ℕ
  | .single _ => q
  | .batch task _ => q.setPhase task (if raised then .done else .waiting)

/-- The execution has its permit: the gauge counts its calls. -/
def letIn (semaphore : FairSemaphore Execution permits) (e : Execution) :
    InferenceService permits :=
  { s with
    semaphore := semaphore
    started := s.started ++ [e]
    activeJobs := s.activeJobs + e.calls.length }

end InferenceService

namespace InferenceConfig

variable (cfg : InferenceConfig) (s : InferenceService cfg.permits)

/-- An execution ends: the futures of its calls are resolved up to an exception, and the `finally`
blocks run. -/
def finish (e : Execution) (he : e ∈ s.semaphore.holders) (draws : ℕ → ℚ) :
    InferenceService cfg.permits :=
  let run := cfg.simulator.runBatch (s.items e draws)
  { s with
    queue := InferenceService.leaveBatch s.queue run.raised.isSome e
    semaphore := s.semaphore.release e he
    answers := s.answers ++ run.resolved.filterMap fun r => e.calls[r.1]?.map (·, r.2)
    lost := s.lost ++ e.calls.drop run.resolved.length
    activeJobs := s.activeJobs - e.calls.length }

/-- An execution goes to its sleep, or ends at once when something raises before it. -/
def begin (semaphore : FairSemaphore Execution cfg.permits) (e : Execution)
    (he : e ∈ semaphore.holders) : InferenceService cfg.permits :=
  if cfg.simulator.sleeps (e.calls.map s.payload) then s.letIn semaphore e
  else cfg.finish (s.letIn semaphore e) e he fun _ => 0

/-- `async with self._semaphore`. -/
def enter (e : Execution) : InferenceService cfg.permits :=
  if h : s.semaphore.Free then cfg.begin s (s.semaphore.take h e) e (by simp)
  else { s with semaphore := s.semaphore.wait h e }

/-- The first of those whom the semaphore has woken. -/
def resume : Option (InferenceService cfg.permits) :=
  match h : s.semaphore.woken with
  | [] => none
  | e :: rest => some (cfg.begin s (s.semaphore.resume e rest h) e (by simp))

/-- `process`. -/
def process (payload : Dict) : Option (InferenceService cfg.permits) :=
  let call := s.payloads.length
  let s := { s with payloads := s.payloads ++ [payload] }
  if cfg.batchEnabled then
    (s.queue.step (keptBatchSize cfg.batchSize) (.call call)).map fun q => { s with queue := q }
  else some (cfg.enter s (.single call))

/-- The lock goes to the first who waits for it; a flush task that takes a batch off the queue goes
on to `_run_batch`. -/
def lock : Option (InferenceService cfg.permits) :=
  (s.queue.step (keptBatchSize cfg.batchSize) .lock).map fun q =>
    match s.queue.lockWaiters, s.queue.queue with
    | .flushLoop task :: _, call :: calls =>
      cfg.enter { s with queue := q }
        (.batch task ((call :: calls).take (keptBatchSize cfg.batchSize)))
    | _, _ => { s with queue := q }

/-- A step of the event loop. -/
def step : InferenceAction → Option (InferenceService cfg.permits)
  | .process payload => cfg.process s payload
  | .lock => cfg.lock s
  | .start t =>
    (s.queue.step (keptBatchSize cfg.batchSize) (.start t)).map fun q => { s with queue := q }
  | .wake t =>
    (s.queue.step (keptBatchSize cfg.batchSize) (.wake t)).map fun q => { s with queue := q }
  | .timeOut t =>
    (s.queue.step (keptBatchSize cfg.batchSize) (.timeOut t)).map fun q => { s with queue := q }
  | .resume => cfg.resume s
  | .slept e draws =>
    if he : e ∈ s.semaphore.holders then some (cfg.finish s e he draws) else none

/-- Who gets the lock: a call, a flush task that finds no item, or a flush task that finds items. -/
theorem lock_cases {cfg : InferenceConfig} {s s' : InferenceService cfg.permits}
    (h : cfg.lock s = some s') :
    (∃ item rest, s.queue.lockWaiters = .caller item :: rest ∧ s' = { s with
      queue := { s.queue with lockWaiters := rest }.enqueue (keptBatchSize cfg.batchSize) item }) ∨
    ∃ t rest, s.queue.lockWaiters = .flushLoop t :: rest ∧
      (s.queue.queue = [] ∧ s' = { s with
        queue := { s.queue with lockWaiters := rest }.flush (keptBatchSize cfg.batchSize) t } ∨
      s.queue.queue ≠ [] ∧ s' = cfg.enter { s with
          queue := { s.queue with lockWaiters := rest }.flush (keptBatchSize cfg.batchSize) t }
        (.batch t (s.queue.queue.take (keptBatchSize cfg.batchSize)))) := by
  cases hlock : s.queue.lockWaiters with
  | nil => simp [lock, BatchQueue.step, hlock] at h
  | cons waiter rest =>
    simp only [lock, BatchQueue.step, hlock] at h
    cases waiter with
    | caller item => exact .inl ⟨item, rest, rfl, (Option.some.inj h).symm⟩
    | flushLoop t =>
      refine .inr ⟨t, rest, rfl, ?_⟩
      obtain rfl := Option.some.inj h
      by_cases hnil : s.queue.queue = []
      · refine .inl ⟨hnil, ?_⟩
        split
        · next hcons => cases hnil.symm.trans hcons
        · rfl
      · refine .inr ⟨hnil, ?_⟩
        split
        · next hwaiters hcons =>
          obtain ⟨⟨rfl⟩, -⟩ := List.cons.inj hwaiters
          rw [← hcons]
        · next hnot =>
          obtain ⟨call, calls, hcons⟩ := List.exists_cons_of_ne_nil hnil
          exact (hnot _ _ _ _ rfl hcons).elim

end InferenceConfig

/-- The runs of a new simulator. -/
def inferenceSystem (cfg : InferenceConfig) :
    TransitionSystem (InferenceService cfg.permits) InferenceAction where
  init s := s = .empty cfg.permits
  step := cfg.step

end Morphflow
