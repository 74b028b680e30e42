import Morphflow.Processing.InferenceService

/-!
# Executions in order

Whatever the simulator does, what was begun is answered, left behind by an exception, or being
executed. Without batching the calls are begun in the order in which they came, and none is left
behind. With batching the queue hands the calls over in order, one batch at a time; after a batch
that raised, the queue stands still until the next call.

## Main definitions

* `BatchQueue.Stalled`: the flush task was left by an exception.
* `InferenceConfig.Accounted`, `InferenceConfig.Unbatched`, `InferenceConfig.Batching`.

## Main results

* `Unbatched.of_step`, `Batching.of_step`.
-/

namespace Morphflow

/-! ### A queue whose flush task was left by an exception -/

namespace BatchQueue

variable {ι : Type*} {size t : ℕ} {s s' : BatchQueue ι}

/-- The flush task was left by an exception. What is queued stays there until the next call. -/
structure Stalled (size : ℕ) (s : BatchQueue ι) : Prop where
  arrived : s.runs.flatten ++ s.queue ++ s.callers = s.arrived
  ended : ∀ t, ¬s.Flushing t
  flushTask : ∃ t, s.flushTask = some t ∧ s.tasks[t]? = some .done
  flushers : s.flushers = []
  batches : ∀ batch ∈ s.runs, 1 ≤ batch.length ∧ batch.length ≤ size

/-- The batch of the flush task raises. -/
theorem Sound.stalled (h : s.Sound size) (ht : s.tasks[t]? = some .running) :
    (s.setPhase t .done).Stalled size := by
  have hflushTask := (h.flushing t).mp ⟨_, ht, by decide⟩
  have hended : ∀ u, ¬(s.setPhase t .done).Flushing u := fun u hu => by
    obtain ⟨hu, hne⟩ := (flushing_setPhase_done ht).mp hu
    exact hne (Option.some.inj (((h.flushing u).mp hu).symm.trans hflushTask))
  refine ⟨h.arrived, hended, ⟨t, hflushTask, setPhase_self ht⟩, ?_, h.batches⟩
  rw [List.eq_nil_iff_forall_not_mem]
  intro u hu
  have hphase := (h.acquiring u).mp hu
  obtain rfl : u = t := Option.some.inj
    (((h.flushing u).mp ⟨_, hphase, by decide⟩).symm.trans hflushTask)
  cases ht.symm.trans hphase

/-- The task is in `_run_batch`. -/
def Running (s : BatchQueue ι) (t : ℕ) : Prop := s.tasks[t]? = some .running

theorem running_setPhase {p q : FlushPhase} {u : ℕ} (ht : s.tasks[t]? = some q) (hq : q ≠ .running)
    (hp : p ≠ .running) : (s.setPhase t p).Running u ↔ s.Running u := by
  unfold Running
  by_cases hu : u = t
  · subst hu
    rw [setPhase_self ht, ht]
    simp [hp, hq]
  · rw [setPhase_ne hu]

theorem Sound.not_running (h : s.Sound size) {p : FlushPhase} {u : ℕ} (ht : s.Running t)
    (hp : p ≠ .running) : ¬(s.setPhase t p).Running u := by
  intro hu
  unfold Running at hu
  by_cases hut : u = t
  · subst hut
    rw [setPhase_self ht] at hu
    exact hp (Option.some.inj hu)
  · rw [setPhase_ne hut] at hu
    have hu := (h.flushing u).mp ⟨_, hu, by decide⟩
    exact hut (Option.some.inj (hu.symm.trans ((h.flushing t).mp ⟨_, ht, by decide⟩)))

theorem running_ensureFlushTask {u : ℕ} : s.ensureFlushTask.Running u ↔ s.Running u := by
  unfold ensureFlushTask Running
  split
  · unfold createFlushTask
    rw [List.getElem?_append]
    split
    · rfl
    · next hle =>
      rw [List.getElem?_eq_none (not_lt.mp hle)]
      cases hu : u - s.tasks.length <;> simp
  · rfl

theorem flush_of_nil (h : s.queue = []) :
    s.flush size t = { s.setPhase t .done with flushTask := none } :=
  if_pos (by simp [h])

/-- A flush task that finds items takes the first of them off the queue. -/
theorem flush_of_ne_nil (h : s.queue ≠ []) : s.flush size t =
    { ({ s with queue := s.queue.drop size }.signal size).setPhase t .running with
      runs := s.runs ++ [s.queue.take size] } :=
  if_neg (by simp [h])

theorem flush_arrived : (s.flush size t).arrived = s.arrived := by
  by_cases h : s.queue = []
  · rw [flush_of_nil h]
    rfl
  · rw [flush_of_ne_nil h]
    rfl

theorem runs_flush_of_nil (h : s.queue = []) : (s.flush size t).runs = s.runs := by
  rw [flush_of_nil h]
  rfl

theorem runs_flush_of_ne_nil (h : s.queue ≠ []) :
    (s.flush size t).runs = s.runs ++ [s.queue.take size] := by
  rw [flush_of_ne_nil h]

theorem running_flush_of_nil {u : ℕ} (h : s.queue = []) (ht : s.tasks[t]? = some .acquiring) :
    (s.flush size t).Running u ↔ s.Running u := by
  rw [flush_of_nil h]
  exact running_setPhase ht (by decide) (by decide)

theorem running_flush_of_ne_nil (h : s.queue ≠ []) (ht : s.tasks[t]? = some .acquiring) :
    (s.flush size t).Running t := by
  rw [flush_of_ne_nil h]
  exact setPhase_self ht

@[simp] theorem ensureFlushTask_arrived : s.ensureFlushTask.arrived = s.arrived := by
  unfold ensureFlushTask
  split <;> rfl

@[simp] theorem ensureFlushTask_runs : s.ensureFlushTask.runs = s.runs := by
  unfold ensureFlushTask
  split <;> rfl

namespace Stalled

variable (h : s.Stalled size)

include h

/-- No task is in any other phase. -/
theorem phase_eq {p : FlushPhase} (ht : s.tasks[t]? = some p) : p = .done := by
  by_contra hne
  exact h.ended t ⟨p, ht, hne⟩

theorem call (item : ι) : Stalled size
    { s with arrived := s.arrived ++ [item], lockWaiters := s.lockWaiters ++ [.caller item] } where
  arrived := by simp [callers, ← h.arrived]
  ended := h.ended
  flushTask := h.flushTask
  flushers := by simpa [BatchQueue.flushers] using h.flushers
  batches := h.batches

theorem enqueue {item : ι} {rest : List (LockWaiter ι)}
    (hrest : s.lockWaiters = .caller item :: rest) :
    ({ s with lockWaiters := rest }.enqueue size item).Sound size := by
  obtain ⟨t, hflushTask, hdone⟩ := h.flushTask
  have hneeds :
      needsFlushTask { s with lockWaiters := rest, queue := s.queue ++ [item] } = true := by
    simp [needsFlushTask, hflushTask, hdone]
  have hflushers : rest.filterMap LockWaiter.task? = [] := by
    have := h.flushers
    rwa [BatchQueue.flushers, hrest, List.filterMap_cons_none rfl] at this
  have harrived := h.arrived
  rw [callers, hrest, List.filterMap_cons_some (LockWaiter.item?_caller item)] at harrived
  unfold BatchQueue.enqueue ensureFlushTask signal
  rw [if_pos hneeds]
  refine ⟨?_, fun u => ?_, fun _ => rfl, fun u => ?_, ?_, h.batches⟩
  · rw [← harrived]
    simp [callers, createFlushTask]
  · refine flushing_createFlushTask.trans ?_
    simp only [createFlushTask, Option.some.injEq]
    exact ⟨fun hu => (hu.resolve_left (h.ended u)).symm, fun hu => .inr hu.symm⟩
  · refine iff_of_false ?_ fun hu => ?_
    · show u ∉ rest.filterMap LockWaiter.task?
      simp [hflushers]
    · cases h.phase_eq (createFlushTask_acquiring.mp hu)
  · show (rest.filterMap LockWaiter.task?).Nodup
    simp [hflushers]

end Stalled

end BatchQueue

/-! ### What every execution keeps -/

theorem InferenceConfig.permits_pos (cfg : InferenceConfig) : 0 < cfg.permits := by
  unfold InferenceConfig.permits
  omega

namespace InferenceService

variable {permits : ℕ} {s : InferenceService permits}

/-- The answers and the calls left behind are the calls of the executions that are over. -/
theorem map_fst_filterMap {calls : List ℕ} {resolved : List (ℕ × Outcome)} {k : ℕ}
    (h : resolved.map Prod.fst = List.range k) :
    (resolved.filterMap fun r => calls[r.1]?.map (·, r.2)).map Prod.fst = calls.take k := by
  have hfst : (resolved.filterMap fun r => calls[r.1]?.map (·, r.2)).map Prod.fst =
      (resolved.map Prod.fst).filterMap fun i => calls[i]? := by
    rw [List.map_filterMap, List.filterMap_map]
    refine List.filterMap_congr fun r _ => ?_
    rw [Function.comp_apply, Option.map_map]
    exact Option.map_id'
  rw [hfst, h]
  clear hfst h
  induction k with
  | zero => rfl
  | succ k ih => rw [List.range_succ, List.filterMap_append, ih, List.take_add_one]; rfl

end InferenceService

namespace InferenceConfig

variable (cfg : InferenceConfig)

/-- An exception can have left the batch. -/
def Raised (s : InferenceService cfg.permits) (e : Execution) : Prop :=
  ∃ draws, (cfg.simulator.runBatch (s.items e draws)).raised.isSome = true

/-- What was begun is answered, left behind by an exception or being executed; the answers are those
of `_run_single`; the gauge counts what is being executed. -/
structure Accounted (s : InferenceService cfg.permits) : Prop where
  known : ∀ e ∈ s.started ++ s.semaphore.line, ∀ i ∈ e.calls, i < s.payloads.length
  holding : ∀ e ∈ s.semaphore.holders, e ∈ s.started
  settled : (s.answers.map Prod.fst ++ s.lost ++ s.semaphore.holders.flatMap Execution.calls).Perm
    (s.started.flatMap Execution.calls)
  own : ∀ r ∈ s.answers, ∃ payload draw, s.payloads[r.1]? = some payload ∧
    r.2.map withoutBatchSize = (cfg.simulator.runSingle payload draw).map withoutBatchSize
  lost : ∀ i ∈ s.lost, ∃ e ∈ s.started, i ∈ e.calls ∧ cfg.Raised s e
  gauge : s.activeJobs = (s.semaphore.holders.flatMap Execution.calls).length

variable {cfg} {s : InferenceService cfg.permits} {e : Execution}

theorem accounted_empty : cfg.Accounted (.empty cfg.permits) where
  known _ h := absurd h List.not_mem_nil
  holding _ h := absurd h List.not_mem_nil
  settled := .refl _
  own _ h := absurd h List.not_mem_nil
  lost _ h := absurd h List.not_mem_nil
  gauge := rfl

theorem outcome_of_mem_finish {draws : ℕ → ℚ} {r : ℕ × Outcome}
    (hknown : ∀ i ∈ e.calls, i < s.payloads.length)
    (h : r ∈ (cfg.simulator.runBatch (s.items e draws)).resolved.filterMap
      fun r => e.calls[r.1]?.map (·, r.2)) :
    ∃ payload draw, s.payloads[r.1]? = some payload ∧
      r.2.map withoutBatchSize = (cfg.simulator.runSingle payload draw).map withoutBatchSize := by
  obtain ⟨r', hr', hcall⟩ := List.mem_filterMap.mp h
  obtain ⟨call, hget, rfl⟩ := Option.map_eq_some_iff.mp hcall
  obtain ⟨item, hitem, houtcome⟩ := GpuInferenceSimulator.outcome_of_mem_runBatch hr'
  rw [InferenceService.items, List.getElem?_map, hget] at hitem
  obtain rfl := Option.some.inj hitem
  have hlt := hknown call (List.mem_of_getElem? hget)
  refine ⟨s.payload call, draws call, ?_, houtcome⟩
  rw [InferenceService.payload, List.getD_eq_getElem?_getD, List.getElem?_eq_getElem hlt]
  rfl

/-- A future is left unresolved by a batch that raised only. -/
theorem raised_of_mem_drop {draws : ℕ → ℚ} {i : ℕ}
    (h : i ∈ e.calls.drop (cfg.simulator.runBatch (s.items e draws)).resolved.length) :
    (cfg.simulator.runBatch (s.items e draws)).raised.isSome = true := by
  obtain ⟨k, -, hpositions, hall⟩ := cfg.simulator.runBatch_positions (s.items e draws)
  have hlength := congrArg List.length hpositions
  rw [List.length_map, List.length_range] at hlength
  rw [Option.isSome_iff_ne_none]
  intro hnone
  rw [hlength, hall hnone, InferenceService.items, List.length_map, List.drop_length] at h
  exact List.not_mem_nil h

/-- Later calls change nothing about a batch. -/
theorem Raised.arrive (h : cfg.Raised s e) (hknown : ∀ i ∈ e.calls, i < s.payloads.length)
    (payload : Dict) : cfg.Raised { s with payloads := s.payloads ++ [payload] } e := by
  obtain ⟨draws, hraised⟩ := h
  refine ⟨draws, ?_⟩
  have hitems : InferenceService.items { s with payloads := s.payloads ++ [payload] } e draws =
      s.items e draws := by
    refine List.map_congr_left fun i hi => ?_
    simp only [InferenceService.payload, List.getD_eq_getElem?_getD,
      List.getElem?_append_left (hknown i hi)]
  rwa [hitems]

namespace Accounted

variable (h : cfg.Accounted s)

include h

theorem finish (he : e ∈ s.semaphore.holders) (draws : ℕ → ℚ) :
    cfg.Accounted (cfg.finish s e he draws) where
  known := by
    show ∀ e' ∈ s.started ++ (s.semaphore.release e he).line, _
    rw [FairSemaphore.line_release]
    exact h.known
  holding e' he' := h.holding e' (List.mem_of_mem_erase he')
  settled := by
    obtain ⟨k, hle, hpositions, -⟩ := cfg.simulator.runBatch_positions (s.items e draws)
    have hlength : (cfg.simulator.runBatch (s.items e draws)).resolved.length = k := by
      rw [← List.length_map (f := Prod.fst), hpositions, List.length_range]
    have hholders := (List.perm_cons_erase he).flatMap_right Execution.calls
    refine List.Perm.trans ?_ h.settled
    show ((s.answers ++ _).map Prod.fst ++ (s.lost ++ _) ++
      (s.semaphore.holders.erase e).flatMap Execution.calls).Perm _
    rw [List.map_append, InferenceService.map_fst_filterMap hpositions, hlength]
    rw [List.perm_iff_count] at hholders ⊢
    intro i
    have hcount := hholders i
    have hcalls := congrArg (List.count i) (List.take_append_drop k e.calls)
    simp only [List.count_append, List.flatMap_cons] at hcount hcalls ⊢
    omega
  own r hr := by
    rcases List.mem_append.mp hr with hr | hr
    · exact h.own r hr
    · have hknown := h.known e (List.mem_append_left _ (h.holding e he))
      exact outcome_of_mem_finish hknown hr
  lost i hi := by
    rcases List.mem_append.mp hi with hi | hi
    · exact h.lost i hi
    · refine ⟨e, h.holding e he, List.mem_of_mem_drop hi, draws, ?_⟩
      exact raised_of_mem_drop hi
  gauge := by
    have hholders := ((List.perm_cons_erase he).flatMap_right Execution.calls).length_eq
    rw [List.flatMap_cons, List.length_append] at hholders
    show s.activeJobs - e.calls.length =
      ((s.semaphore.holders.erase e).flatMap Execution.calls).length
    rw [h.gauge, hholders]
    omega

theorem letIn {semaphore : FairSemaphore Execution cfg.permits}
    (hholders : semaphore.holders = s.semaphore.holders ++ [e])
    (hknown : ∀ e' ∈ s.started ++ [e] ++ semaphore.line, ∀ i ∈ e'.calls, i < s.payloads.length) :
    cfg.Accounted (s.letIn semaphore e) where
  known := hknown
  holding e' he' := by
    rw [show (s.letIn semaphore e).semaphore.holders = s.semaphore.holders ++ [e] from hholders]
      at he'
    exact List.mem_append.mpr ((List.mem_append.mp he').imp_left (h.holding e'))
  settled := by
    show (s.answers.map Prod.fst ++ s.lost ++ semaphore.holders.flatMap _).Perm
      ((s.started ++ [e]).flatMap _)
    rw [hholders, List.flatMap_append, List.flatMap_append, ← List.append_assoc]
    exact h.settled.append_right _
  own := h.own
  lost i hi := by
    obtain ⟨e', he', hcall⟩ := h.lost i hi
    exact ⟨e', List.mem_append_left _ he', hcall⟩
  gauge := by
    show s.activeJobs + e.calls.length = (semaphore.holders.flatMap _).length
    rw [hholders, List.flatMap_append, List.length_append, h.gauge, List.flatMap_singleton]
    rfl

theorem begin {semaphore : FairSemaphore Execution cfg.permits} {he : e ∈ semaphore.holders}
    (hholders : semaphore.holders = s.semaphore.holders ++ [e])
    (hknown : ∀ e' ∈ s.started ++ [e] ++ semaphore.line, ∀ i ∈ e'.calls, i < s.payloads.length) :
    cfg.Accounted (cfg.begin s semaphore e he) := by
  unfold InferenceConfig.begin
  split
  · exact h.letIn hholders hknown
  · exact (h.letIn hholders hknown).finish ..

theorem enter (hknown : ∀ i ∈ e.calls, i < s.payloads.length) :
    cfg.Accounted (cfg.enter s e) := by
  have hall : ∀ e' ∈ s.started ++ s.semaphore.line ++ [e], ∀ i ∈ e'.calls,
      i < s.payloads.length := by
    intro e' he'
    rcases List.mem_append.mp he' with he' | he'
    · exact h.known e' he'
    · exact List.mem_singleton.mp he' ▸ hknown
  unfold InferenceConfig.enter
  split
  · next hfree =>
    rw [hfree.line_eq, List.append_nil] at hall
    refine h.begin rfl ?_
    rwa [FairSemaphore.line_take, List.append_nil]
  · next hfull =>
    refine ⟨?_, h.holding, h.settled, h.own, h.lost, h.gauge⟩
    show ∀ e' ∈ s.started ++ (s.semaphore.wait hfull e).line, _
    rwa [FairSemaphore.line_wait, ← List.append_assoc]

/-- The first of those that were woken goes on. -/
theorem resume {s' : InferenceService cfg.permits} (hresume : cfg.resume s = some s') :
    cfg.Accounted s' := by
  unfold InferenceConfig.resume at hresume
  split at hresume
  · cases hresume
  · next e rest hwoken =>
    refine Option.some.inj hresume ▸ h.begin rfl ?_
    rw [List.append_assoc, List.singleton_append, ← FairSemaphore.line_resume]
    exact h.known

theorem setQueue (q : BatchQueue ℕ) : cfg.Accounted { s with queue := q } :=
  ⟨h.known, h.holding, h.settled, h.own, h.lost, h.gauge⟩

theorem arrive (payload : Dict) :
    cfg.Accounted { s with payloads := s.payloads ++ [payload] } where
  known e he i hi := by
    have hlt := h.known e he i hi
    show i < (s.payloads ++ [payload]).length
    rw [List.length_append]
    omega
  holding := h.holding
  settled := h.settled
  own r hr := by
    obtain ⟨payload', draw, hpayload, houtcome⟩ := h.own r hr
    obtain ⟨hlt, -⟩ := List.getElem?_eq_some_iff.mp hpayload
    exact ⟨payload', draw, (List.getElem?_append_left hlt).trans hpayload, houtcome⟩
  lost i hi := by
    obtain ⟨e, he, hcall, hraised⟩ := h.lost i hi
    exact ⟨e, he, hcall, hraised.arrive (h.known e (List.mem_append_left _ he)) payload⟩
  gauge := h.gauge

end Accounted

/-! ### Without batching -/

/-- Without batching the queue is not used, and the calls are begun in the order in which they
came. -/
structure Unbatched (s : InferenceService cfg.permits) : Prop where
  queue : s.queue = .empty
  order : s.started ++ s.semaphore.line = (List.range s.payloads.length).map .single
  lost : s.lost = []

theorem unbatched_empty : Unbatched (.empty cfg.permits) := ⟨rfl, rfl, rfl⟩

namespace Unbatched

variable (h : Unbatched s)

include h

theorem eq_single (he : e ∈ s.started) : ∃ i, e = .single i := by
  have hmem := List.mem_append_left s.semaphore.line he
  rw [h.order] at hmem
  obtain ⟨i, -, rfl⟩ := List.mem_map.mp hmem
  exact ⟨i, rfl⟩

/-- Every permit is held for one call. -/
theorem length_calls (hacc : cfg.Accounted s) :
    (s.semaphore.holders.flatMap Execution.calls).length = s.semaphore.holders.length := by
  have hone : ∀ e ∈ s.semaphore.holders, e.calls.length = 1 := fun e he => by
    obtain ⟨i, rfl⟩ := h.eq_single (hacc.holding e he)
    rfl
  rw [List.length_flatMap, List.map_congr_left hone, List.map_const', List.sum_replicate,
    smul_eq_mul, mul_one]

theorem finish {i : ℕ} (he : .single i ∈ s.semaphore.holders) (draws : ℕ → ℚ) :
    Unbatched (cfg.finish s (.single i) he draws) where
  queue := h.queue
  order := by
    show s.started ++ (s.semaphore.release _ he).line = _
    rw [FairSemaphore.line_release]
    exact h.order
  lost := by
    show s.lost ++ [] = []
    rw [h.lost, List.append_nil]

end Unbatched

/-- The call is begun. -/
theorem unbatched_begin {i : ℕ} {semaphore : FairSemaphore Execution cfg.permits}
    {he : .single i ∈ semaphore.holders} (hqueue : s.queue = .empty) (hlost : s.lost = [])
    (horder : s.started ++ [.single i] ++ semaphore.line =
      (List.range s.payloads.length).map .single) :
    Unbatched (cfg.begin s semaphore (.single i) he) := by
  have hletIn : Unbatched (s.letIn semaphore (.single i)) := ⟨hqueue, horder, hlost⟩
  unfold InferenceConfig.begin
  split
  · exact hletIn
  · exact hletIn.finish ..

namespace Unbatched

variable (h : Unbatched s)

include h

theorem process {payload : Dict} : Unbatched
    (cfg.enter { s with payloads := s.payloads ++ [payload] } (.single s.payloads.length)) := by
  have horder : s.started ++ s.semaphore.line ++ [.single s.payloads.length] =
      (List.range (s.payloads ++ [payload]).length).map .single := by
    rw [List.length_append, List.length_singleton, List.range_succ, List.map_append, h.order]
    rfl
  unfold InferenceConfig.enter
  split
  · next hfree =>
    change s.semaphore.Free at hfree
    rw [hfree.line_eq, List.append_nil] at horder
    refine unbatched_begin h.queue h.lost ?_
    rwa [FairSemaphore.line_take, List.append_nil]
  · next hfull =>
    refine ⟨h.queue, ?_, h.lost⟩
    show s.started ++ (s.semaphore.wait hfull _).line = _
    rwa [FairSemaphore.line_wait, ← List.append_assoc]

theorem resume {s' : InferenceService cfg.permits} (hresume : cfg.resume s = some s') :
    Unbatched s' := by
  unfold InferenceConfig.resume at hresume
  split at hresume
  · cases hresume
  · next e rest hwoken =>
    have horder := h.order
    rw [FairSemaphore.line_resume hwoken] at horder
    have hmem : e ∈ (List.range s.payloads.length).map Execution.single := by
      rw [← horder]
      exact List.mem_append_right _ List.mem_cons_self
    obtain ⟨i, -, rfl⟩ := List.mem_map.mp hmem
    refine Option.some.inj hresume ▸ unbatched_begin h.queue h.lost ?_
    rwa [List.append_assoc, List.singleton_append]

/-- Every step keeps the order. -/
theorem of_step (hbatch : cfg.batchEnabled = false) (hacc : cfg.Accounted s) {a : InferenceAction}
    {s' : InferenceService cfg.permits} (hstep : cfg.step s a = some s') : Unbatched s' := by
  cases a with
  | process payload =>
    simp only [step, InferenceConfig.process, hbatch, Bool.false_eq_true, if_false] at hstep
    exact Option.some.inj hstep ▸ h.process
  | lock => simp [step, lock, h.queue, BatchQueue.step, BatchQueue.empty] at hstep
  | start t => simp [step, h.queue, BatchQueue.step, BatchQueue.empty] at hstep
  | wake t => simp [step, h.queue, BatchQueue.step, BatchQueue.empty] at hstep
  | timeOut t => simp [step, h.queue, BatchQueue.step, BatchQueue.empty] at hstep
  | resume => exact h.resume hstep
  | slept e draws =>
    simp only [step] at hstep
    split at hstep
    · next he =>
      obtain ⟨i, rfl⟩ := h.eq_single (hacc.holding e he)
      exact Option.some.inj hstep ▸ h.finish he draws
    · cases hstep

end Unbatched

/-! ### With batching -/

variable (cfg) in
/-- The queue is sound unless a batch raised. -/
def QueueKept (s : InferenceService cfg.permits) : Prop :=
  s.queue.Sound (keptBatchSize cfg.batchSize) ∨
    s.queue.Stalled (keptBatchSize cfg.batchSize) ∧ ∃ e ∈ s.started, cfg.Raised s e

variable (cfg) in
/-- With batching the queue hands over what is executed, one batch after the other, and nobody waits
for the semaphore. -/
structure Batching (s : InferenceService cfg.permits) : Prop where
  queue : cfg.QueueKept s
  arrived : s.queue.arrived = List.range s.payloads.length
  runs : s.queue.runs = s.started.map Execution.calls
  line : s.semaphore.line = []
  executing : (s.semaphore.holders = [] ∧ ∀ t, ¬s.queue.Running t) ∨
    ∃ t calls, s.semaphore.holders = [.batch t calls] ∧ s.queue.Running t

theorem batching_empty : cfg.Batching (.empty cfg.permits) where
  queue := .inl BatchQueue.sound_empty
  arrived := rfl
  runs := rfl
  line := rfl
  executing := .inl ⟨rfl, fun t ht => by
    simp [BatchQueue.Running, InferenceService.empty, BatchQueue.empty] at ht⟩

namespace QueueKept

variable (h : cfg.QueueKept s)

include h

theorem arrived : s.queue.runs.flatten ++ s.queue.queue ++ s.queue.callers = s.queue.arrived :=
  h.elim (·.arrived) (·.1.arrived)

theorem batches : ∀ batch ∈ s.queue.runs,
    1 ≤ batch.length ∧ batch.length ≤ keptBatchSize cfg.batchSize :=
  h.elim (·.batches) (·.1.batches)

theorem sound {t : ℕ} {p : FlushPhase} (ht : s.queue.tasks[t]? = some p) (hp : p ≠ .done) :
    s.queue.Sound (keptBatchSize cfg.batchSize) :=
  h.resolve_right fun hstalled => hp (hstalled.1.phase_eq ht)

theorem sound_of_flushLoop {t : ℕ} {rest : List (LockWaiter ℕ)}
    (hrest : s.queue.lockWaiters = .flushLoop t :: rest) :
    s.queue.Sound (keptBatchSize cfg.batchSize) := by
  refine h.resolve_right fun hstalled => ?_
  have := hstalled.1.flushers
  rw [BatchQueue.flushers, hrest, List.filterMap_cons_some (LockWaiter.task?_flushLoop t)] at this
  cases this

end QueueKept

namespace Batching

variable (h : cfg.Batching s)

include h

theorem setQueue {q : BatchQueue ℕ} (hqueue : q.Sound (keptBatchSize cfg.batchSize))
    (harrived : q.arrived = s.queue.arrived) (hruns : q.runs = s.queue.runs)
    (hrunning : ∀ t, q.Running t ↔ s.queue.Running t) :
    cfg.Batching { s with queue := q } where
  queue := .inl hqueue
  arrived := harrived.trans h.arrived
  runs := hruns.trans h.runs
  line := h.line
  executing := h.executing.imp
    (fun hidle => ⟨hidle.1, fun t ht => hidle.2 t ((hrunning t).mp ht)⟩)
    (fun ⟨t, calls, hholders, ht⟩ => ⟨t, calls, hholders, (hrunning t).mpr ht⟩)

/-- One batch is executed at a time, whatever the number of permits. -/
theorem length_holders_le : s.semaphore.holders.length ≤ 1 := by
  obtain ⟨hnil, -⟩ | ⟨t, calls, hholders, -⟩ := h.executing
  · simp [hnil]
  · simp [hholders]

theorem length_calls_le (hacc : cfg.Accounted s) :
    (s.semaphore.holders.flatMap Execution.calls).length ≤ keptBatchSize cfg.batchSize := by
  obtain ⟨hnil, -⟩ | ⟨t, calls, hholders, -⟩ := h.executing
  · simp [hnil]
  · have hstarted : .batch t calls ∈ s.started := hacc.holding _ (by simp [hholders])
    have hruns : calls ∈ s.queue.runs := by
      rw [h.runs]
      exact List.mem_map_of_mem hstarted
    rw [hholders, List.flatMap_singleton]
    exact (h.queue.batches calls hruns).2

theorem finish (hstarted : e ∈ s.started) (he : e ∈ s.semaphore.holders) (draws : ℕ → ℚ) :
    cfg.Batching (cfg.finish s e he draws) := by
  obtain ⟨hnil, -⟩ | ⟨t, calls, hholders, ht⟩ := h.executing
  · simp [hnil] at he
  obtain rfl : e = .batch t calls := by simpa [hholders] using he
  have hsound := h.queue.sound ht (by decide)
  have hline : (s.semaphore.release _ he).line = [] :=
    (FairSemaphore.line_release he).trans h.line
  have hidle : (s.semaphore.release _ he).holders = [] := by
    rw [FairSemaphore.holders_release, hholders, List.erase_cons_head]
  by_cases hraised :
      (cfg.simulator.runBatch (s.items (.batch t calls) draws)).raised.isSome = true
  · have hqueue : (cfg.finish s (.batch t calls) he draws).queue = s.queue.setPhase t .done := by
      simp [InferenceConfig.finish, InferenceService.leaveBatch, hraised]
    exact ⟨.inr ⟨hqueue ▸ hsound.stalled ht, _, hstarted, draws, hraised⟩, hqueue ▸ h.arrived,
      hqueue ▸ h.runs, hline, .inl ⟨hidle, fun u => hqueue ▸ hsound.not_running ht (by decide)⟩⟩
  · have hqueue : (cfg.finish s (.batch t calls) he draws).queue =
        s.queue.setPhase t .waiting := by
      simp [InferenceConfig.finish, InferenceService.leaveBatch, hraised]
    have hwaiting := hsound.toWaiting ht (by decide) (by decide)
    exact ⟨.inl (hqueue ▸ hwaiting), hqueue ▸ h.arrived, hqueue ▸ h.runs, hline,
      .inl ⟨hidle, fun u => hqueue ▸ hsound.not_running ht (by decide)⟩⟩

/-- A flush task goes on to `_run_batch`: the semaphore lets it in at once. -/
theorem enter {q : BatchQueue ℕ} {t : ℕ} {calls : List ℕ}
    (hqueue : q.Sound (keptBatchSize cfg.batchSize)) (harrived : q.arrived = s.queue.arrived)
    (hruns : q.runs = s.queue.runs ++ [calls]) (ht : q.Running t)
    (hidle : s.semaphore.holders = []) :
    cfg.Batching (cfg.enter { s with queue := q } (.batch t calls)) := by
  have hfree : s.semaphore.Free := s.semaphore.free_of_idle cfg.permits_pos hidle h.line
  have hletIn : cfg.Batching
      (InferenceService.letIn { s with queue := q } (s.semaphore.take hfree (.batch t calls))
            (.batch t calls)) := by
    refine ⟨.inl hqueue, harrived.trans h.arrived, ?_, rfl, .inr ⟨t, calls, ?_, ht⟩⟩
    · show q.runs = (s.started ++ [Execution.batch t calls]).map Execution.calls
      rw [hruns, h.runs, List.map_append]
      rfl
    · show s.semaphore.holders ++ [Execution.batch t calls] = _
      rw [hidle, List.nil_append]
  unfold InferenceConfig.enter
  rw [dif_pos
    (show ({ s with queue := q } : InferenceService cfg.permits).semaphore.Free from hfree)]
  unfold InferenceConfig.begin
  split
  · exact hletIn
  · exact hletIn.finish (List.mem_append_right _ List.mem_cons_self) ..

theorem enqueue {item : ℕ} {rest : List (LockWaiter ℕ)}
    (hrest : s.queue.lockWaiters = .caller item :: rest) :
    cfg.Batching { s with queue :=
      { s.queue with lockWaiters := rest }.enqueue (keptBatchSize cfg.batchSize) item } := by
  refine h.setQueue (h.queue.elim (·.enqueue hrest) (·.1.enqueue hrest)) ?_ ?_ fun t => ?_
  · exact BatchQueue.ensureFlushTask_arrived
  · exact BatchQueue.ensureFlushTask_runs
  · exact BatchQueue.running_ensureFlushTask

theorem flush_of_nil {t : ℕ} {rest : List (LockWaiter ℕ)}
    (hrest : s.queue.lockWaiters = .flushLoop t :: rest) (hnil : s.queue.queue = []) :
    cfg.Batching { s with queue :=
      { s.queue with lockWaiters := rest }.flush (keptBatchSize cfg.batchSize) t } := by
  have hsound := h.queue.sound_of_flushLoop hrest
  obtain ⟨hacquiring, -, -⟩ := hsound.flushLoop_head hrest
  refine h.setQueue (hsound.flush hrest (one_le_keptBatchSize cfg.batchSize)) ?_ ?_
    fun u => ?_
  · exact BatchQueue.flush_arrived
  · exact BatchQueue.runs_flush_of_nil hnil
  · exact BatchQueue.running_flush_of_nil hnil hacquiring

theorem flush_of_ne_nil {t : ℕ} {rest : List (LockWaiter ℕ)}
    (hrest : s.queue.lockWaiters = .flushLoop t :: rest) (hne : s.queue.queue ≠ []) :
    cfg.Batching (cfg.enter { s with queue :=
        { s.queue with lockWaiters := rest }.flush (keptBatchSize cfg.batchSize) t }
      (.batch t (s.queue.queue.take (keptBatchSize cfg.batchSize)))) := by
  have hsound := h.queue.sound_of_flushLoop hrest
  obtain ⟨hacquiring, hflushTask, -⟩ := hsound.flushLoop_head hrest
  -- the flush task is the only one that has not ended, and waits for the lock
  have hidle : s.semaphore.holders = [] := by
    obtain ⟨hidle, -⟩ | ⟨u, calls, -, hu⟩ := h.executing
    · exact hidle
    · have := (hsound.flushing u).mp ⟨_, hu, by decide⟩
      obtain rfl := Option.some.inj (this.symm.trans hflushTask)
      cases hu.symm.trans hacquiring
  refine h.enter (hsound.flush hrest (one_le_keptBatchSize cfg.batchSize)) ?_ ?_ ?_ hidle
  · exact BatchQueue.flush_arrived
  · exact BatchQueue.runs_flush_of_ne_nil hne
  · exact BatchQueue.running_flush_of_ne_nil hne hacquiring

theorem leaveWait {t : ℕ} (ht : s.queue.tasks[t]? = some .waiting) :
    cfg.Batching { s with queue := s.queue.leaveWait t } :=
  h.setQueue ((h.queue.sound ht (by decide)).leaveWait ht) rfl rfl
    fun _ => BatchQueue.running_setPhase ht (by decide) (by decide)

/-- Every step keeps the order of the batches. -/
theorem of_step (hbatch : cfg.batchEnabled = true) (hacc : cfg.Accounted s) {a : InferenceAction}
    {s' : InferenceService cfg.permits} (hstep : cfg.step s a = some s') : cfg.Batching s' := by
  cases a with
  | process payload =>
    simp only [step, InferenceConfig.process, hbatch, if_true, BatchQueue.step, Option.map_some,
      Option.some.injEq] at hstep
    subst hstep
    refine ⟨h.queue.imp (·.call _) ?_, ?_, h.runs, h.line, h.executing⟩
    · rintro ⟨hstalled, e, he, hraised⟩
      have hknown := hacc.known e (List.mem_append_left _ he)
      exact ⟨hstalled.call _, e, he, hraised.arrive hknown payload⟩
    show s.queue.arrived ++ [s.payloads.length] = List.range (s.payloads ++ [payload]).length
    rw [h.arrived, List.length_append, List.length_singleton, List.range_succ]
  | lock =>
    obtain ⟨item, rest, hlock, rfl⟩ | ⟨t, rest, hlock, ⟨hnil, rfl⟩ | ⟨hne, rfl⟩⟩ := lock_cases hstep
    · exact h.enqueue hlock
    · exact h.flush_of_nil hlock hnil
    · exact h.flush_of_ne_nil hlock hne
  | start t =>
    obtain ⟨q, hq, rfl⟩ := Option.map_eq_some_iff.mp hstep
    obtain ⟨ht, hq⟩ := Option.ite_none_right_eq_some.mp hq
    obtain rfl := Option.some.inj hq
    have hsound := h.queue.sound ht (by decide)
    exact h.setQueue (hsound.toWaiting ht (by decide) (by decide)) rfl rfl
      fun u => BatchQueue.running_setPhase ht (by decide) (by decide)
  | wake t =>
    obtain ⟨q, hq, rfl⟩ := Option.map_eq_some_iff.mp hstep
    obtain ⟨⟨ht, -⟩, hq⟩ := Option.ite_none_right_eq_some.mp hq
    exact Option.some.inj hq ▸ h.leaveWait ht
  | timeOut t =>
    obtain ⟨q, hq, rfl⟩ := Option.map_eq_some_iff.mp hstep
    obtain ⟨ht, hq⟩ := Option.ite_none_right_eq_some.mp hq
    exact Option.some.inj hq ▸ h.leaveWait ht
  | resume =>
    have hwoken := (List.append_eq_nil_iff.mp h.line).1
    simp only [step, InferenceConfig.resume] at hstep
    split at hstep
    · cases hstep
    · next hcons =>
      rw [hwoken] at hcons
      cases hcons
  | slept e draws =>
    simp only [step] at hstep
    split at hstep
    · next he => exact Option.some.inj hstep ▸ h.finish (hacc.holding e he) he draws
    · cases hstep

end Batching

end InferenceConfig

end Morphflow
