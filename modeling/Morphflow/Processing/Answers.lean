import Morphflow.Processing.Executions

/-!
# The answers of the inference simulator

With or without batching, the calls are executed in the order in which they came, and what was
executed is answered once, with the outcome that `_run_single` gives for the payload, or left behind
by an exception that its batch raised. Without batching nothing is left behind.

## Main definitions

* `InferenceConfig.Kept`: the invariant.
* `InferenceService.remaining`: what is left to do when no call arrives any more.

## Main results

* `calls_are_settled`, `steady_calls_are_answered`.
* `permits_are_kept`.
-/

namespace Morphflow

namespace InferenceConfig

variable {cfg : InferenceConfig} {s s' : InferenceService cfg.permits} {a : InferenceAction}
  {e : Execution}

/-! ### The calls -/

@[simp] theorem payloads_begin {semaphore : FairSemaphore Execution cfg.permits}
    {he : e ∈ semaphore.holders} : (cfg.begin s semaphore e he).payloads = s.payloads := by
  unfold begin
  split <;> rfl

@[simp] theorem payloads_enter : (cfg.enter s e).payloads = s.payloads := by
  unfold enter
  split
  · exact payloads_begin
  · rfl

theorem payloads_of_step (hstep : cfg.step s a = some s') :
    s'.payloads = s.payloads ++ a.payload?.toList := by
  cases a with
  | process payload =>
    simp only [step, process] at hstep
    split at hstep
    · obtain ⟨q, -, rfl⟩ := Option.map_eq_some_iff.mp hstep
      rfl
    · exact Option.some.inj hstep ▸ payloads_enter
  | lock =>
    obtain ⟨q, -, rfl⟩ := Option.map_eq_some_iff.mp hstep
    split <;> simp [InferenceAction.payload?]
  | start t | wake t | timeOut t =>
    obtain ⟨q, -, rfl⟩ := Option.map_eq_some_iff.mp hstep
    exact (List.append_nil _).symm
  | resume =>
    simp only [step, resume] at hstep
    split at hstep
    · cases hstep
    · exact Option.some.inj hstep ▸ payloads_begin.trans (List.append_nil _).symm
  | slept e draws =>
    obtain ⟨he, hstep⟩ := Option.dite_none_right_eq_some.mp hstep
    exact Option.some.inj hstep ▸ (List.append_nil _).symm

theorem payloads_of_run {as : List InferenceAction}
    (hrun : (inferenceSystem cfg).run s as = some s') :
    s'.payloads = s.payloads ++ as.filterMap InferenceAction.payload? := by
  induction as generalizing s with
  | nil =>
    obtain rfl := Option.some.inj hrun
    exact (List.append_nil _).symm
  | cons a as ih =>
    obtain ⟨u, hu, hrun⟩ := (inferenceSystem cfg).run_cons_eq_some.mp hrun
    rw [ih hrun, payloads_of_step hu, List.append_assoc]
    cases h : a.payload? <;> simp [h]

/-! ### The invariant -/

variable (cfg) in
/-- The executions are accounted for, and in order. -/
structure Kept (s : InferenceService cfg.permits) : Prop where
  accounted : cfg.Accounted s
  unbatched : cfg.batchEnabled = false → Unbatched s
  batching : cfg.batchEnabled = true → cfg.Batching s

theorem kept_empty : cfg.Kept (.empty cfg.permits) :=
  ⟨accounted_empty, fun _ => unbatched_empty, fun _ => batching_empty⟩

namespace Kept

variable (h : cfg.Kept s)

include h

theorem queued_lt {i : ℕ} (hi : i ∈ s.queue.queue) : i < s.payloads.length := by
  cases hbatch : cfg.batchEnabled with
  | false =>
    rw [(h.unbatched hbatch).queue] at hi
    cases hi
  | true =>
    have hmem : i ∈ s.queue.arrived := by
      rw [← (h.batching hbatch).queue.arrived]
      exact List.mem_append_left _ (List.mem_append_right _ hi)
    rwa [(h.batching hbatch).arrived, List.mem_range] at hmem

/-- The execution of a flush task is the batch that the task is running. -/
theorem running {t : ℕ} {calls : List ℕ} (he : .batch t calls ∈ s.semaphore.holders) :
    s.queue.Running t := by
  cases hbatch : cfg.batchEnabled with
  | false =>
    obtain ⟨i, hi⟩ := (h.unbatched hbatch).eq_single (h.accounted.holding _ he)
    cases hi
  | true =>
    obtain ⟨hnil, -⟩ | ⟨u, calls', hholders, hu⟩ := (h.batching hbatch).executing
    · simp [hnil] at he
    · obtain ⟨rfl, rfl⟩ : t = u ∧ calls = calls' := by simpa [hholders] using he
      exact hu

theorem accounted_of_step (hstep : cfg.step s a = some s') : cfg.Accounted s' := by
  cases a with
  | process payload =>
    simp only [step, process] at hstep
    split at hstep
    · obtain ⟨q, -, rfl⟩ := Option.map_eq_some_iff.mp hstep
      exact (h.accounted.arrive payload).setQueue q
    · refine Option.some.inj hstep ▸ (h.accounted.arrive payload).enter fun i hi => ?_
      obtain rfl := List.mem_singleton.mp hi
      simp
  | lock =>
    obtain ⟨q, -, rfl⟩ := Option.map_eq_some_iff.mp hstep
    split
    · next hqueue =>
      refine (h.accounted.setQueue q).enter fun i hi => h.queued_lt ?_
      rw [hqueue]
      exact List.mem_of_mem_take hi
    · exact h.accounted.setQueue q
  | start t =>
    obtain ⟨q, -, rfl⟩ := Option.map_eq_some_iff.mp hstep
    exact h.accounted.setQueue q
  | wake t =>
    obtain ⟨q, -, rfl⟩ := Option.map_eq_some_iff.mp hstep
    exact h.accounted.setQueue q
  | timeOut t =>
    obtain ⟨q, -, rfl⟩ := Option.map_eq_some_iff.mp hstep
    exact h.accounted.setQueue q
  | resume => exact h.accounted.resume hstep
  | slept e draws =>
    simp only [step] at hstep
    split at hstep
    · next he => exact Option.some.inj hstep ▸ h.accounted.finish he draws
    · cases hstep

theorem of_step (hstep : cfg.step s a = some s') : cfg.Kept s' where
  accounted := h.accounted_of_step hstep
  unbatched hbatch := (h.unbatched hbatch).of_step hbatch h.accounted hstep
  batching hbatch := (h.batching hbatch).of_step hbatch h.accounted hstep

end Kept

theorem kept_of_reachable (h : (inferenceSystem cfg).Reachable s) : cfg.Kept s :=
  h.rec_on_step (fun _ h₀ => h₀ ▸ kept_empty) fun _ _ _ _ hs hstep => hs.of_step hstep

end InferenceConfig

/-! ### What is left to do -/

/-- What is left to do when no call arrives any more. -/
def InferenceService.remaining {permits : ℕ} (s : InferenceService permits) : ℕ :=
  4 * s.queue.remaining + s.semaphore.remaining

namespace InferenceConfig

variable {cfg : InferenceConfig} {s s' : InferenceService cfg.permits} {a : InferenceAction}
  {e : Execution}

theorem remaining_leaveBatch {q : BatchQueue ℕ} (raised : Bool)
    (hrunning : ∀ t calls, e = .batch t calls → q.Running t) :
    (InferenceService.leaveBatch q raised e).remaining ≤ q.remaining := by
  cases e with
  | single call => exact le_rfl
  | batch t calls =>
    refine (BatchQueue.remaining_setPhase (hrunning t calls rfl) ?_).le
    cases raised <;> decide

theorem remaining_finish (he : e ∈ s.semaphore.holders) (draws : ℕ → ℚ)
    (hrunning : ∀ t calls, e = .batch t calls → s.queue.Running t) :
    (cfg.finish s e he draws).remaining < s.remaining := by
  have hsemaphore := s.semaphore.remaining_release he
  have hqueue :=
    remaining_leaveBatch (cfg.simulator.runBatch (s.items e draws)).raised.isSome hrunning
  unfold InferenceService.remaining
  show 4 * (InferenceService.leaveBatch s.queue _ e).remaining +
    (s.semaphore.release e he).remaining < _
  omega

theorem remaining_begin {semaphore : FairSemaphore Execution cfg.permits}
    {he : e ∈ semaphore.holders} (hrunning : ∀ t calls, e = .batch t calls → s.queue.Running t) :
    (cfg.begin s semaphore e he).remaining ≤ 4 * s.queue.remaining + semaphore.remaining := by
  unfold InferenceConfig.begin
  split
  · exact le_rfl
  · exact (remaining_finish (s := s.letIn semaphore e) he _ hrunning).le

/-- Asking for a permit adds at most three steps: being woken, going on, and giving it back. -/
theorem remaining_enter (hrunning : ∀ t calls, e = .batch t calls → s.queue.Running t) :
    (cfg.enter s e).remaining ≤ s.remaining + 3 := by
  unfold InferenceConfig.enter
  split
  · next hfree =>
    have hbegin : (cfg.begin s (s.semaphore.take hfree e) e (by simp)).remaining ≤ _ :=
      remaining_begin hrunning
    rw [FairSemaphore.remaining_take] at hbegin
    unfold InferenceService.remaining at hbegin ⊢
    omega
  · next hfull =>
    show 4 * s.queue.remaining + (s.semaphore.wait hfull e).remaining ≤ _
    rw [FairSemaphore.remaining_wait]
    unfold InferenceService.remaining
    omega

theorem remaining_setQueue {q : BatchQueue ℕ} (hq : q.remaining < s.queue.remaining) :
    ({ s with queue := q } : InferenceService cfg.permits).remaining < s.remaining := by
  show 4 * q.remaining + s.semaphore.remaining < 4 * s.queue.remaining + s.semaphore.remaining
  omega

namespace Kept

variable (h : cfg.Kept s)

include h

/-- A flush task waits for the lock of a sound queue only. -/
theorem sound_of_flushLoop {t : ℕ} {rest : List (LockWaiter ℕ)}
    (hrest : s.queue.lockWaiters = .flushLoop t :: rest) :
    s.queue.Sound (keptBatchSize cfg.batchSize) := by
  cases hbatch : cfg.batchEnabled with
  | false =>
    rw [(h.unbatched hbatch).queue] at hrest
    cases hrest
  | true => exact (h.batching hbatch).queue.sound_of_flushLoop hrest

/-- No flush task waits for the semaphore. -/
theorem ne_batch_of_mem_line (he : e ∈ s.semaphore.line) (t : ℕ) (calls : List ℕ) :
    e ≠ .batch t calls := by
  rintro rfl
  cases hbatch : cfg.batchEnabled with
  | false =>
    have hmem := List.mem_append_right s.started he
    rw [(h.unbatched hbatch).order] at hmem
    obtain ⟨i, -, hi⟩ := List.mem_map.mp hmem
    cases hi
  | true =>
    rw [(h.batching hbatch).line] at he
    cases he

/-- Every step but a call leaves less to do. -/
theorem remaining_lt (ha : a.isCall = false) (hstep : cfg.step s a = some s') :
    s'.remaining < s.remaining := by
  cases a with
  | process payload => cases ha
  | lock =>
    obtain ⟨item, rest, hlock, rfl⟩ | ⟨t, rest, hlock, hflush⟩ := lock_cases hstep
    · exact remaining_setQueue (BatchQueue.remaining_enqueue hlock)
    have hsound := h.sound_of_flushLoop hlock
    have hqueue := hsound.remaining_flush (one_le_keptBatchSize cfg.batchSize) hlock
    obtain ⟨-, rfl⟩ | ⟨hne, rfl⟩ := hflush
    · exact remaining_setQueue hqueue
    · refine (remaining_enter fun u calls heq => ?_).trans_lt ?_
      · obtain ⟨rfl, -⟩ := Execution.batch.inj heq
        exact BatchQueue.running_flush_of_ne_nil hne (hsound.flushLoop_head hlock).1
      · unfold InferenceService.remaining
        dsimp only
        omega
  | start t =>
    obtain ⟨q, hq, rfl⟩ := Option.map_eq_some_iff.mp hstep
    obtain ⟨ht, hq⟩ := Option.ite_none_right_eq_some.mp hq
    exact remaining_setQueue
      (Option.some.inj hq ▸ BatchQueue.remaining_setPhase ht (by decide))
  | wake t =>
    obtain ⟨q, hq, rfl⟩ := Option.map_eq_some_iff.mp hstep
    obtain ⟨ht, hq⟩ := Option.ite_none_right_eq_some.mp hq
    exact remaining_setQueue (Option.some.inj hq ▸ BatchQueue.remaining_leaveWait ht.1)
  | timeOut t =>
    obtain ⟨q, hq, rfl⟩ := Option.map_eq_some_iff.mp hstep
    obtain ⟨ht, hq⟩ := Option.ite_none_right_eq_some.mp hq
    exact remaining_setQueue (Option.some.inj hq ▸ BatchQueue.remaining_leaveWait ht)
  | resume =>
    simp only [step, InferenceConfig.resume] at hstep
    split at hstep
    · cases hstep
    · next e rest hwoken =>
      have hresume := s.semaphore.remaining_resume hwoken
      have hline : e ∈ s.semaphore.line := by
        rw [FairSemaphore.line_resume hwoken]
        exact List.mem_cons_self
      refine Option.some.inj hstep ▸ (remaining_begin fun t calls heq => ?_).trans_lt ?_
      · exact absurd heq (h.ne_batch_of_mem_line hline t calls)
      · unfold InferenceService.remaining
        omega
  | slept e draws =>
    simp only [step] at hstep
    split at hstep
    · next he =>
      exact Option.some.inj hstep ▸
        remaining_finish he draws fun t calls heq => h.running (heq ▸ he)
    · cases hstep

/-- Without new calls, a run has at most as many steps as there were left to do. -/
theorem length_le_remaining {as : List InferenceAction} (has : ∀ a ∈ as, a.isCall = false)
    (hrun : (inferenceSystem cfg).run s as = some s') : as.length ≤ s.remaining := by
  induction as generalizing s with
  | nil => exact Nat.zero_le _
  | cons a as ih =>
    obtain ⟨u, hu, hrun⟩ := (inferenceSystem cfg).run_cons_eq_some.mp hrun
    have hlt := h.remaining_lt (has a List.mem_cons_self) hu
    have hle := ih (h.of_step hu) (fun b hb => has b (List.mem_cons_of_mem a hb)) hrun
    rw [List.length_cons]
    omega

/-! ### When nothing can happen but a call -/

section Stuck

variable (hstuck : ∀ a : InferenceAction, a.isCall = false → cfg.step s a = none)

include hstuck

omit h in
theorem idle_of_stuck : s.semaphore.holders = [] ∧ s.semaphore.line = [] := by
  have hholders : s.semaphore.holders = [] := by
    rw [List.eq_nil_iff_forall_not_mem]
    intro e he
    have := hstuck (.slept e fun _ => 0) rfl
    simp [step, he] at this
  have hwoken : s.semaphore.woken = [] := by
    have := hstuck .resume rfl
    simp only [step, resume] at this
    split at this
    · next hnil => exact hnil
    · cases this
  have hwaiters := s.semaphore.waiters_eq_nil cfg.permits_pos hholders hwoken
  exact ⟨hholders, by rw [FairSemaphore.line, hwoken, hwaiters, List.append_nil]⟩

omit h in
theorem lockWaiters_of_stuck : s.queue.lockWaiters = [] := by
  have hnone := Option.map_eq_none_iff.mp (hstuck .lock rfl)
  simp only [BatchQueue.step] at hnone
  split at hnone
  · next hnil => exact hnil
  · cases hnone
  · cases hnone

/-- What is queued waits behind a flush task that was left by an exception. -/
theorem queue_of_stuck : s.queue.queue = [] ∨
    s.queue.Stalled (keptBatchSize cfg.batchSize) ∧ ∃ e ∈ s.started, cfg.Raised s e := by
  cases hbatch : cfg.batchEnabled with
  | false =>
    rw [(h.unbatched hbatch).queue]
    exact .inl rfl
  | true =>
    have hbatching := h.batching hbatch
    refine hbatching.queue.imp_left fun hsound => (hsound.eq_nil_of_stuck fun a ha => ?_).2
    cases a with
    | call item => cases ha
    | lock => exact Option.map_eq_none_iff.mp (hstuck .lock rfl)
    | start t => exact Option.map_eq_none_iff.mp (hstuck (.start t) rfl)
    | wake t => exact Option.map_eq_none_iff.mp (hstuck (.wake t) rfl)
    | timeOut t => exact Option.map_eq_none_iff.mp (hstuck (.timeOut t) rfl)
    | batchRan t =>
      -- who is in `_run_batch` holds a permit
      refine if_neg fun ht => ?_
      obtain ⟨-, hnot⟩ | ⟨u, calls, hholders, -⟩ := hbatching.executing
      · exact hnot t ht
      · simp [(idle_of_stuck hstuck).1] at hholders

end Stuck

theorem ordered : (s.started ++ s.semaphore.line).flatMap Execution.calls ++ s.queue.queue ++
    s.queue.callers = List.range s.payloads.length := by
  cases hbatch : cfg.batchEnabled with
  | false =>
    have hunbatched := h.unbatched hbatch
    have hcalls : ∀ l : List ℕ, (l.map Execution.single).flatMap Execution.calls = l := by
      intro l
      rw [List.flatMap_map]
      exact List.flatMap_singleton' l
    rw [hunbatched.order, hcalls, hunbatched.queue]
    exact (List.append_nil _).trans (List.append_nil _)
  | true =>
    have hbatching := h.batching hbatch
    rw [← hbatching.arrived, ← hbatching.queue.arrived, hbatching.runs, hbatching.line,
      List.append_nil, List.flatMap_def]

/-- When nothing can happen but a call, the calls are settled but for those that are queued. -/
theorem settled_of_stuck (hstuck : ∀ a : InferenceAction, a.isCall = false → cfg.step s a = none) :
    (s.answers.map Prod.fst ++ s.lost ++ s.queue.queue).Perm (List.range s.payloads.length) := by
  obtain ⟨hholders, hline⟩ := idle_of_stuck hstuck
  have hsettled := h.accounted.settled
  have hordered := h.ordered
  rw [hholders, List.flatMap_nil, List.append_nil] at hsettled
  rw [hline, List.append_nil, BatchQueue.callers, lockWaiters_of_stuck hstuck,
    List.filterMap_nil, List.append_nil] at hordered
  exact hordered ▸ hsettled.append_right s.queue.queue

/-- A batch of steady payloads is not left by an exception. -/
theorem not_raised (hsteady : ∀ payload ∈ s.payloads, cfg.simulator.Steady payload)
    (he : e ∈ s.started) : ¬cfg.Raised s e := by
  rintro ⟨draws, hraised⟩
  have hne : e.calls ≠ [] := by
    cases hbatch : cfg.batchEnabled with
    | false =>
      obtain ⟨i, rfl⟩ := (h.unbatched hbatch).eq_single he
      exact List.cons_ne_nil i []
    | true =>
      have hruns : e.calls ∈ s.queue.runs := by
        rw [(h.batching hbatch).runs]
        exact List.mem_map_of_mem he
      exact List.ne_nil_of_length_pos ((h.batching hbatch).queue.batches _ hruns).1
  have hbatchable : cfg.simulator.Batchable (s.items e draws) := by
    refine GpuInferenceSimulator.batchable_of_steady fun item hitem => ?_
    obtain ⟨i, hi, rfl⟩ := List.mem_map.mp hitem
    have hlt := h.accounted.known e (List.mem_append_left _ he) i hi
    refine hsteady _ ?_
    rw [InferenceService.payload, List.getD_eq_getElem?_getD, List.getElem?_eq_getElem hlt]
    exact List.getElem_mem hlt
  have hnone := hbatchable.raised_eq_none (by simpa [InferenceService.items] using hne)
  rw [hnone] at hraised
  cases hraised

end Kept

end InferenceConfig

/-- **Every call is settled once.** Whatever the order of the steps, the calls are executed first
come, first served, each is answered once and as if it were processed alone, and only an exception
in its batch leaves a call behind; the calls queued then wait for the next call. -/
theorem calls_are_settled {cfg : InferenceConfig} {s : InferenceService cfg.permits}
    (h : (inferenceSystem cfg).Reachable s) :
    -- the calls that were begun, that wait for the semaphore, that are queued, and that wait for
    -- the lock are all calls, in the order in which they came
    (s.started ++ s.semaphore.line).flatMap Execution.calls ++ s.queue.queue ++ s.queue.callers =
        List.range s.payloads.length ∧
      -- what was begun is answered once, was left behind once, or is being executed
      (s.answers.map Prod.fst ++ s.lost ++ s.semaphore.holders.flatMap Execution.calls).Perm
        (s.started.flatMap Execution.calls) ∧
      -- an answer is that of `_run_single` for the payload of the call
      (∀ r ∈ s.answers, ∃ payload draw, s.payloads[r.1]? = some payload ∧
        r.2.map withoutBatchSize = (cfg.simulator.runSingle payload draw).map withoutBatchSize) ∧
      (∀ i ∈ s.lost, cfg.batchEnabled = true ∧ ∃ e ∈ s.started, i ∈ e.calls ∧ cfg.Raised s e) ∧
      -- when no step is enabled but a call, what is not settled is queued behind a batch that
      -- raised
      ((∀ a : InferenceAction, a.isCall = false → (inferenceSystem cfg).step s a = none) →
        (s.answers.map Prod.fst ++ s.lost ++ s.queue.queue).Perm (List.range s.payloads.length) ∧
        (s.queue.queue = [] ∨ s.queue.Stalled (keptBatchSize cfg.batchSize) ∧
          ∃ e ∈ s.started, cfg.Raised s e)) ∧
      -- and that comes about after so many steps without new calls
      ∀ as s', (∀ a ∈ as, a.isCall = false) → (inferenceSystem cfg).run s as = some s' →
        as.length ≤ s.remaining := by
  have hkept := InferenceConfig.kept_of_reachable h
  refine ⟨hkept.ordered, hkept.accounted.settled, hkept.accounted.own, fun i hi => ⟨?_, ?_⟩,
    fun hstuck => ⟨?_, hkept.queue_of_stuck hstuck⟩, fun as s' has hrun => ?_⟩
  · by_contra hbatch
    rw [(hkept.unbatched (Bool.eq_false_of_not_eq_true hbatch)).lost] at hi
    exact List.not_mem_nil hi
  · exact hkept.accounted.lost i hi
  · exact hkept.settled_of_stuck hstuck
  · exact hkept.length_le_remaining has hrun

/-- Batches of two. -/
def exampleBatching : InferenceConfig := ⟨exampleSimulator, 4, true, 2⟩

/-- Three calls, the second with a number as its content: the batch of the first two raises, and the
third call stays in the queue. -/
def exampleRaised : List InferenceAction :=
  [.process (examplePayload (.str "one")), .lock, .process (examplePayload (.int 42)),
    .process (examplePayload (.str "three")), .start 0, .lock, .lock, .wake 0, .lock,
    .slept (.batch 0 [0, 1]) fun _ => 1 / 2]

theorem calls_are_settled_raised : ∃ s : InferenceService exampleBatching.permits,
    (inferenceSystem exampleBatching).run (.empty _) exampleRaised = some s ∧
      s.answers.map Prod.fst = [0] ∧ s.lost = [1] ∧ s.queue.queue = [2] ∧
      ∃ e ∈ s.started, 1 ∈ e.calls ∧ exampleBatching.Raised s e := by
  have hrun : ((inferenceSystem exampleBatching).run (.empty _) exampleRaised).map
      (fun s => (s.answers.map Prod.fst, s.lost, s.queue.queue)) = some ([0], [1], [2]) := by
    decide +kernel
  obtain ⟨s, hs, heq⟩ := Option.map_eq_some_iff.mp hrun
  obtain ⟨hanswers, hlost, hqueue⟩ := by simpa only [Prod.mk.injEq] using heq
  have hmem : 1 ∈ s.lost := hlost ▸ List.mem_cons_self
  exact ⟨s, hs, hanswers, hlost, hqueue, ((calls_are_settled (.of_run rfl hs)).2.2.2.1 1 hmem).2⟩

/-- **Steady calls are answered.** As long as no payload can raise anything but a simulated failure,
no call is left behind, a flush task is there as long as calls are queued, and when nothing can
happen but a new call, every call has its answer. -/
theorem steady_calls_are_answered {cfg : InferenceConfig} {s : InferenceService cfg.permits}
    (h : (inferenceSystem cfg).Reachable s)
    (hsteady : ∀ payload ∈ s.payloads, cfg.simulator.Steady payload) :
    s.lost = [] ∧
      (s.queue.queue ≠ [] → ∃ t, s.queue.flushTask = some t ∧ s.queue.Flushing t) ∧
      ((∀ a : InferenceAction, a.isCall = false → (inferenceSystem cfg).step s a = none) →
        (s.answers.map Prod.fst).Perm (List.range s.payloads.length)) := by
  have hkept := InferenceConfig.kept_of_reachable h
  have hraised : ¬∃ e ∈ s.started, cfg.Raised s e := fun ⟨_, he, hraised⟩ =>
    hkept.not_raised hsteady he hraised
  have hlost : s.lost = [] := by
    rw [List.eq_nil_iff_forall_not_mem]
    intro i hi
    obtain ⟨e, he, -, hlost⟩ := hkept.accounted.lost i hi
    exact hraised ⟨e, he, hlost⟩
  refine ⟨hlost, fun hne => ?_, fun hstuck => ?_⟩
  · cases hbatch : cfg.batchEnabled with
    | false => exact absurd (congrArg BatchQueue.queue (hkept.unbatched hbatch).queue) hne
    | true =>
      have hsound := (hkept.batching hbatch).queue.resolve_right fun hstalled => hraised hstalled.2
      obtain ⟨t, ht⟩ := Option.isSome_iff_exists.mp (hsound.queued hne)
      exact ⟨t, ht, (hsound.flushing t).mpr ht⟩
  · have hsettled := hkept.settled_of_stuck hstuck
    have hqueue := (hkept.queue_of_stuck hstuck).resolve_right fun hstalled => hraised hstalled.2
    rwa [hlost, hqueue, List.append_nil, List.append_nil] at hsettled

theorem steady_examplePayload (text : String) :
    exampleSimulator.Steady (examplePayload (.str text)) where
  processable _ := by
    refine ⟨⟨[], rfl, fun x hx => ?_, fun n hn => ?_⟩,
      .inr ⟨[("content", .str text)], rfl, trivial⟩⟩
    · cases hx
    · cases hn
  delay ms hms := by
    obtain rfl : 700 = ms := Except.ok.inj hms
    decide +kernel

/-- Three texts, in two batches. -/
def exampleSteady : List InferenceAction :=
  [.process (examplePayload (.str "one")), .lock, .process (examplePayload (.str "two")),
    .process (examplePayload (.str "three")), .start 0, .lock, .lock, .wake 0, .lock,
    .slept (.batch 0 [0, 1]) fun _ => 1 / 2, .timeOut 0, .lock,
    .slept (.batch 0 [2]) fun _ => 1 / 2, .timeOut 0, .lock]

theorem steady_calls_are_answered_texts : ∃ s : InferenceService exampleBatching.permits,
    (inferenceSystem exampleBatching).run (.empty _) exampleSteady = some s ∧
      s.answers.map Prod.fst = [0, 1, 2] ∧ s.lost = [] := by
  have hrun : ((inferenceSystem exampleBatching).run (.empty _) exampleSteady).map
      (fun s => s.answers.map Prod.fst) = some [0, 1, 2] := by
    decide +kernel
  obtain ⟨s, hs, hanswers⟩ := Option.map_eq_some_iff.mp hrun
  have hpayloads :
      s.payloads = ["one", "two", "three"].map fun text => examplePayload (.str text) :=
    InferenceConfig.payloads_of_run hs
  refine ⟨s, hs, hanswers,
    (steady_calls_are_answered (.of_run rfl hs) fun payload hpayload => ?_).1⟩
  rw [hpayloads] at hpayload
  obtain ⟨text, -, rfl⟩ := List.mem_map.mp hpayload
  exact steady_examplePayload text

/-- **The permits are kept.** A permit is free, on its way to a call that was woken, or held, and
the gauge counts the calls that hold one. Without batching that is one call for each permit; with
batching there is one batch at a time, whatever the number of permits. -/
theorem permits_are_kept {cfg : InferenceConfig} {s : InferenceService cfg.permits}
    (h : (inferenceSystem cfg).Reachable s) :
    s.semaphore.value + s.semaphore.woken.length + s.semaphore.holders.length = cfg.permits ∧
      s.activeJobs = (s.semaphore.holders.flatMap Execution.calls).length ∧
      (cfg.batchEnabled = false →
        s.activeJobs = s.semaphore.holders.length ∧ s.activeJobs ≤ max 1 cfg.maxConcurrency) ∧
      (cfg.batchEnabled = true → s.semaphore.holders.length ≤ 1 ∧ s.semaphore.line = [] ∧
        s.activeJobs ≤ max 1 cfg.batchSize) := by
  have hkept := InferenceConfig.kept_of_reachable h
  have hgauge := hkept.accounted.gauge
  refine ⟨s.semaphore.conserved, hgauge, fun hbatch => ?_, fun hbatch => ?_⟩
  · have hlength := s.semaphore.length_holders_le
    rw [(hkept.unbatched hbatch).length_calls hkept.accounted] at hgauge
    refine ⟨hgauge, ?_⟩
    unfold InferenceConfig.permits at hlength
    omega
  · have hbatching := hkept.batching hbatch
    refine ⟨hbatching.length_holders_le, hbatching.line, ?_⟩
    have hlength := hbatching.length_calls_le hkept.accounted
    unfold keptBatchSize at hlength
    omega

theorem permits_are_kept_steady : ∃ s : InferenceService exampleBatching.permits,
    (inferenceSystem exampleBatching).run (.empty _) (exampleSteady.take 9) = some s ∧
      s.activeJobs = 2 ∧ s.semaphore.holders.length ≤ 1 := by
  have hrun : ((inferenceSystem exampleBatching).run (.empty _) (exampleSteady.take 9)).map
      (fun s => s.activeJobs) = some 2 := by
    decide +kernel
  obtain ⟨s, hs, hactive⟩ := Option.map_eq_some_iff.mp hrun
  exact ⟨s, hs, hactive, ((permits_are_kept (.of_run rfl hs)).2.2.2 rfl).1⟩

end Morphflow
