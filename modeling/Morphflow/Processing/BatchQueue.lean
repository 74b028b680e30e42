import Morphflow.Foundation.Transition

/-!
# The micro-batch queue

`_enqueue_and_wait` appends its item to `_batch_queue` under `_batch_lock`, starts a flush task when
there is none, and sets `_batch_event` when a batch is full. `_batch_flush_loop` waits for the event
or a timeout, clears the event, and under the lock cuts a batch off the queue, or ends when the
queue is empty. The event is cleared outside the lock; the task field is only touched under it.

A step is what runs between two awaits. The sections under the lock contain no await, so the lock is
free between any two steps; those that acquire it are served in the order in which they asked for
it, each in a step of its own. The event may be set and the timeout may fire in either order. The
items are of any type: the queue does not look at them.

## Main definitions

* `BatchQueue`, `BatchQueue.step`, `batchQueueSystem`.
* `BatchQueue.Sound`: the flush task is the only one that has not ended, and it is there as long as
  items are queued.

## Main results

* `BatchQueue.Sound.of_step`, `BatchQueue.sound_of_reachable`.
* `BatchQueue.remaining_lt`: every step but a call leaves less to do.
* `batches_are_served`: nothing is lost, repeated or reordered.
-/

namespace Morphflow

/-- Where a flush task is: not started yet, waiting for the event or the timeout, waiting for the
lock, in `_run_batch`, or done. -/
inductive FlushPhase where
  | created
  | waiting
  | acquiring
  | running
  | done
  deriving DecidableEq, Repr

/-- Who waits for `_batch_lock`: a call of `_enqueue_and_wait` with its item, or a flush task. -/
inductive LockWaiter (ι : Type*) where
  | caller (item : ι)
  | flushLoop (task : ℕ)

/-- The item of a call. -/
def LockWaiter.item? {ι : Type*} : LockWaiter ι → Option ι
  | .caller item => some item
  | .flushLoop _ => none

/-- The number of a flush task. -/
def LockWaiter.task? {ι : Type*} : LockWaiter ι → Option ℕ
  | .caller _ => none
  | .flushLoop task => some task

@[simp] theorem LockWaiter.item?_caller {ι : Type*} (item : ι) :
    (LockWaiter.caller item).item? = some item := rfl

@[simp] theorem LockWaiter.item?_flushLoop {ι : Type*} (t : ℕ) :
    (LockWaiter.flushLoop t : LockWaiter ι).item? = none := rfl

@[simp] theorem LockWaiter.task?_caller {ι : Type*} (item : ι) :
    (LockWaiter.caller item).task? = none := rfl

@[simp] theorem LockWaiter.task?_flushLoop {ι : Type*} (t : ℕ) :
    (LockWaiter.flushLoop t : LockWaiter ι).task? = some t := rfl

/-- The micro-batch queue of a simulator. -/
structure BatchQueue (ι : Type*) where
  /-- `_batch_queue`. -/
  queue : List ι
  /-- `_batch_event`. -/
  event : Bool
  /-- `_batch_flush_task`, the number of the task. -/
  flushTask : Option ℕ
  /-- The flush tasks ever created. -/
  tasks : List FlushPhase
  /-- Those who wait for `_batch_lock`, in the order in which they asked for it. -/
  lockWaiters : List (LockWaiter ι)
  /-- The items of all calls, in the order of the calls. -/
  arrived : List ι
  /-- The batches that `_run_batch` was called with, oldest first. -/
  runs : List (List ι)

/-- What happens next: a call of `_enqueue_and_wait`, the lock goes to the first who waits for it,
or a flush task goes on: it starts, the event wakes it, its timeout fires, or `_run_batch` returns.
-/
inductive QueueAction (ι : Type*) where
  | call (item : ι)
  | lock
  | start (task : ℕ)
  | wake (task : ℕ)
  | timeOut (task : ℕ)
  | batchRan (task : ℕ)

/-- The action is a new call. -/
def QueueAction.isCall {ι : Type*} : QueueAction ι → Bool
  | .call _ => true
  | _ => false

/-- How many steps a flush task is from its next batch, or from its end. -/
def FlushPhase.work : FlushPhase → ℕ
  | .created => 4
  | .waiting => 3
  | .acquiring => 2
  | .running => 4
  | .done => 0

/-- `_batch_size`, as `__init__` keeps it. -/
def keptBatchSize (batchSize : ℤ) : ℕ := (max 1 batchSize).toNat

theorem one_le_keptBatchSize (batchSize : ℤ) : 1 ≤ keptBatchSize batchSize := by
  unfold keptBatchSize
  omega

namespace BatchQueue

variable {ι : Type*}

/-- The queue of a new simulator. -/
def empty : BatchQueue ι := ⟨[], false, none, [], [], [], []⟩

/-- The task has been created and has not ended. -/
def Flushing (s : BatchQueue ι) (t : ℕ) : Prop :=
  ∃ p, s.tasks[t]? = some p ∧ p ≠ .done

/-- `self._batch_flush_task is None or self._batch_flush_task.done()`. -/
def needsFlushTask (s : BatchQueue ι) : Bool :=
  match s.flushTask with
  | none => true
  | some t => s.tasks[t]? == some .done

/-- The task goes on to the phase. -/
def setPhase (s : BatchQueue ι) (t : ℕ) (p : FlushPhase) : BatchQueue ι :=
  { s with tasks := s.tasks.set t p }

/-- `asyncio.create_task(self._batch_flush_loop())`. -/
def createFlushTask (s : BatchQueue ι) : BatchQueue ι :=
  { s with tasks := s.tasks ++ [.created], flushTask := some s.tasks.length }

/-- A flush task is created unless there is one. -/
def ensureFlushTask (s : BatchQueue ι) : BatchQueue ι :=
  if s.needsFlushTask then s.createFlushTask else s

/-- The event is set when a batch is full. -/
def signal (s : BatchQueue ι) (size : ℕ) : BatchQueue ι :=
  { s with event := s.event || decide (size ≤ s.queue.length) }

/-- The section of `_enqueue_and_wait` under the lock. -/
def enqueue (s : BatchQueue ι) (size : ℕ) (item : ι) : BatchQueue ι :=
  { s with queue := s.queue ++ [item] }.ensureFlushTask.signal size

/-- The section of `_batch_flush_loop` under the lock, and the call of `_run_batch` behind it. -/
def flush (s : BatchQueue ι) (size : ℕ) (t : ℕ) : BatchQueue ι :=
  if s.queue.isEmpty then
    { s.setPhase t .done with flushTask := none }
  else
    let batch := s.queue.take size
    let s := { s with queue := s.queue.drop size }.signal size
    { s.setPhase t .running with runs := s.runs ++ [batch] }

/-- The wait of `_batch_flush_loop` is over: the event is cleared, then the lock asked for. -/
def leaveWait (s : BatchQueue ι) (t : ℕ) : BatchQueue ι :=
  { s.setPhase t .acquiring with event := false, lockWaiters := s.lockWaiters ++ [.flushLoop t] }

/-- A step of the event loop. -/
def step (size : ℕ) (s : BatchQueue ι) : QueueAction ι → Option (BatchQueue ι)
  | .call item => some
      { s with arrived := s.arrived ++ [item], lockWaiters := s.lockWaiters ++ [.caller item] }
  | .lock =>
    match s.lockWaiters with
    | [] => none
    | .caller item :: rest => some ({ s with lockWaiters := rest }.enqueue size item)
    | .flushLoop t :: rest => some ({ s with lockWaiters := rest }.flush size t)
  | .start t => if s.tasks[t]? = some .created then some (s.setPhase t .waiting) else none
  | .wake t => if s.tasks[t]? = some .waiting ∧ s.event then some (s.leaveWait t) else none
  | .timeOut t => if s.tasks[t]? = some .waiting then some (s.leaveWait t) else none
  | .batchRan t => if s.tasks[t]? = some .running then some (s.setPhase t .waiting) else none

end BatchQueue

/-- The runs of a new simulator's queue, every call of `_run_batch` returning. -/
def batchQueueSystem (ι : Type*) (batchSize : ℤ) :
    TransitionSystem (BatchQueue ι) (QueueAction ι) where
  init s := s = .empty
  step := BatchQueue.step (keptBatchSize batchSize)

namespace BatchQueue

variable {ι : Type*} {s s' : BatchQueue ι} {size t u : ℕ} {a : QueueAction ι}

/-! ### The phases of the tasks -/

section Phases

variable {p q : FlushPhase}

@[simp] theorem setPhase_queue : (s.setPhase t p).queue = s.queue := rfl

@[simp] theorem setPhase_flushTask : (s.setPhase t p).flushTask = s.flushTask := rfl

@[simp] theorem setPhase_lockWaiters : (s.setPhase t p).lockWaiters = s.lockWaiters := rfl

@[simp] theorem setPhase_arrived : (s.setPhase t p).arrived = s.arrived := rfl

@[simp] theorem setPhase_runs : (s.setPhase t p).runs = s.runs := rfl

@[simp] theorem ensureFlushTask_queue : s.ensureFlushTask.queue = s.queue := by
  unfold ensureFlushTask
  split <;> rfl

@[simp] theorem ensureFlushTask_lockWaiters : s.ensureFlushTask.lockWaiters = s.lockWaiters := by
  unfold ensureFlushTask
  split <;> rfl

theorem setPhase_self (ht : s.tasks[t]? = some q) : (s.setPhase t p).tasks[t]? = some p := by
  obtain ⟨hlt, -⟩ := List.getElem?_eq_some_iff.mp ht
  simp [setPhase, hlt]

theorem setPhase_ne (hne : u ≠ t) : (s.setPhase t p).tasks[u]? = s.tasks[u]? :=
  List.getElem?_set_ne hne.symm

theorem flushing_setPhase (ht : s.tasks[t]? = some q) (hq : q ≠ .done) (hp : p ≠ .done) :
    (s.setPhase t p).Flushing u ↔ s.Flushing u := by
  by_cases hu : u = t
  · subst hu
    exact iff_of_true ⟨p, setPhase_self ht, hp⟩ ⟨q, ht, hq⟩
  · simp only [Flushing, setPhase_ne hu]

theorem flushing_setPhase_done (ht : s.tasks[t]? = some q) :
    (s.setPhase t .done).Flushing u ↔ s.Flushing u ∧ u ≠ t := by
  by_cases hu : u = t
  · subst hu
    simp [Flushing, setPhase_self ht]
  · simp [Flushing, setPhase_ne hu, hu]

theorem flushing_createFlushTask :
    s.createFlushTask.Flushing u ↔ s.Flushing u ∨ u = s.tasks.length := by
  unfold Flushing createFlushTask
  rw [List.getElem?_append]
  split
  · next hlt => simp [hlt.ne]
  · next hle =>
    rw [List.getElem?_eq_none (not_lt.mp hle)]
    by_cases hu : u = s.tasks.length
    · simp [hu]
    · have : 1 ≤ u - s.tasks.length := by omega
      simp [hu, List.getElem?_eq_none (l := [FlushPhase.created]) this]

theorem createFlushTask_acquiring :
    s.createFlushTask.tasks[u]? = some .acquiring ↔ s.tasks[u]? = some .acquiring := by
  unfold createFlushTask
  rw [List.getElem?_append]
  split
  · rfl
  · next hle =>
    rw [List.getElem?_eq_none (not_lt.mp hle)]
    cases hu : u - s.tasks.length <;> simp

end Phases

/-! ### The invariant -/

/-- The items of the calls that wait for the lock. -/
def callers (s : BatchQueue ι) : List ι :=
  s.lockWaiters.filterMap LockWaiter.item?

/-- The flush tasks that wait for the lock. -/
def flushers (s : BatchQueue ι) : List ℕ :=
  s.lockWaiters.filterMap LockWaiter.task?

/-- The flush task is the only one that has not ended, and there is one as long as items are queued;
the tasks that wait for the lock wait once; every item that arrived has been handed over, is queued,
or its call waits for the lock, in the order of arrival. -/
structure Sound (size : ℕ) (s : BatchQueue ι) : Prop where
  arrived : s.runs.flatten ++ s.queue ++ s.callers = s.arrived
  flushing : ∀ t, s.Flushing t ↔ s.flushTask = some t
  queued : s.queue ≠ [] → s.flushTask.isSome
  acquiring : ∀ t, t ∈ s.flushers ↔ s.tasks[t]? = some .acquiring
  nodup : s.flushers.Nodup
  batches : ∀ batch ∈ s.runs, 1 ≤ batch.length ∧ batch.length ≤ size

theorem sound_empty : (empty : BatchQueue ι).Sound size where
  arrived := rfl
  flushing t := by simp [Flushing, empty]
  queued h := absurd rfl h
  acquiring t := by simp [flushers, empty]
  nodup := List.nodup_nil
  batches _ h := absurd h List.not_mem_nil

namespace Sound

variable (h : s.Sound size)

include h

theorem needsFlushTask_iff : s.needsFlushTask = true ↔ s.flushTask = none := by
  unfold needsFlushTask
  split
  · next hnone => simp [hnone]
  · next t ht =>
    obtain ⟨p, hp, hne⟩ := (h.flushing t).mpr ht
    simp [ht, hp, hne]

theorem call (item : ι) : Sound size
    { s with arrived := s.arrived ++ [item], lockWaiters := s.lockWaiters ++ [.caller item] } where
  arrived := by simp [callers, ← h.arrived]
  flushing := h.flushing
  queued := h.queued
  acquiring t := by simpa [flushers] using h.acquiring t
  nodup := by
    rw [flushers, List.filterMap_append, List.filterMap_cons_none rfl, List.filterMap_nil,
      List.append_nil]
    exact h.nodup
  batches := h.batches

theorem toWaiting {p : FlushPhase} (ht : s.tasks[t]? = some p) (hp : p ≠ .done)
    (hne : p ≠ .acquiring) : (s.setPhase t .waiting).Sound size where
  arrived := h.arrived
  flushing u := (flushing_setPhase ht hp (by decide)).trans (h.flushing u)
  queued := h.queued
  acquiring u := by
    refine (h.acquiring u).trans ?_
    by_cases hu : u = t
    · subst hu
      rw [setPhase_self ht, ht]
      simp [hne]
    · rw [setPhase_ne hu]
  nodup := h.nodup
  batches := h.batches

theorem leaveWait (ht : s.tasks[t]? = some .waiting) : (s.leaveWait t).Sound size where
  arrived := by
    have hcallers : (s.leaveWait t).callers = s.callers := by
      simp [callers, BatchQueue.leaveWait]
    rw [hcallers]
    exact h.arrived
  flushing u := (flushing_setPhase ht (by decide) (by decide)).trans (h.flushing u)
  queued := h.queued
  acquiring u := by
    have hflushers : (s.leaveWait t).flushers = s.flushers ++ [t] := by
      simp [flushers, BatchQueue.leaveWait]
    have htasks : (s.leaveWait t).tasks = (s.setPhase t .acquiring).tasks := rfl
    rw [hflushers, htasks, List.mem_append, List.mem_singleton, h.acquiring u]
    by_cases hu : u = t
    · subst hu
      simp [setPhase_self ht]
    · simp [setPhase_ne hu, hu]
  nodup := by
    have hflushers : (s.leaveWait t).flushers = s.flushers ++ [t] := by
      simp [flushers, BatchQueue.leaveWait]
    have hnot : t ∉ s.flushers := fun hmem => by
      have hphase := (h.acquiring t).mp hmem
      rw [ht] at hphase
      cases hphase
    rw [hflushers]
    exact List.concat_eq_append ▸ h.nodup.concat hnot
  batches := h.batches

/-- The section of `_enqueue_and_wait`: the item of the first call in the line is queued, and there
is a flush task. -/
theorem enqueue {item : ι} {rest : List (LockWaiter ι)}
    (hrest : s.lockWaiters = .caller item :: rest) :
    ({ s with lockWaiters := rest }.enqueue size item).Sound size := by
  have hneeds : needsFlushTask { s with lockWaiters := rest, queue := s.queue ++ [item] } = true ↔
      s.flushTask = none := h.needsFlushTask_iff
  have hflushers : s.flushers = rest.filterMap LockWaiter.task? := by
    rw [flushers, hrest, List.filterMap_cons_none rfl]
  have harrived := h.arrived
  rw [callers, hrest, List.filterMap_cons_some (LockWaiter.item?_caller item)] at harrived
  have hacquiring := h.acquiring
  have hnodup := h.nodup
  rw [hflushers] at hacquiring hnodup
  unfold BatchQueue.enqueue ensureFlushTask signal
  by_cases hnone : s.flushTask = none
  · -- no task is left: the new one is the only one
    rw [if_pos (hneeds.mpr hnone)]
    refine ⟨?_, fun u => ?_, fun _ => rfl, fun u => ?_, hnodup, h.batches⟩
    · rw [← harrived]
      simp [callers, createFlushTask]
    · refine flushing_createFlushTask.trans ?_
      have hidle : ¬s.Flushing u := by simp [h.flushing, hnone]
      simp only [createFlushTask, Option.some.injEq]
      exact ⟨fun hu => (hu.resolve_left hidle).symm, fun hu => .inr hu.symm⟩
    · exact (hacquiring u).trans createFlushTask_acquiring.symm
  · rw [if_neg (mt hneeds.mp hnone)]
    refine ⟨?_, h.flushing, fun _ => Option.isSome_iff_ne_none.mpr hnone, hacquiring, hnodup,
      h.batches⟩
    rw [← harrived]
    simp [callers]

section Flush

variable {rest : List (LockWaiter ι)} (hrest : s.lockWaiters = .flushLoop t :: rest)

include hrest

/-- The first in the line is the only task that waits for the lock, and the flush task. -/
theorem flushLoop_head : s.tasks[t]? = some .acquiring ∧ s.flushTask = some t ∧
    ∀ u, u ∉ rest.filterMap LockWaiter.task? := by
  have hflushers : s.flushers = t :: rest.filterMap LockWaiter.task? := by
    rw [flushers, hrest, List.filterMap_cons_some (LockWaiter.task?_flushLoop t)]
  have hacquiring : ∀ u, u ∈ t :: rest.filterMap LockWaiter.task? →
      s.tasks[u]? = some .acquiring := fun u hu => (h.acquiring u).mp (hflushers ▸ hu)
  have hflushTask : ∀ u, u ∈ t :: rest.filterMap LockWaiter.task? → s.flushTask = some u :=
    fun u hu => (h.flushing u).mp ⟨_, hacquiring u hu, by decide⟩
  have ht := hflushTask t List.mem_cons_self
  have hnodup : (t :: rest.filterMap LockWaiter.task?).Nodup := hflushers ▸ h.nodup
  refine ⟨hacquiring t List.mem_cons_self, ht, fun u hu => ?_⟩
  have hut := hflushTask u (List.mem_cons_of_mem t hu)
  obtain rfl : u = t := Option.some.inj (hut.symm.trans ht)
  exact (List.nodup_cons.mp hnodup).1 hu

theorem flush_acquiring {p : FlushPhase} (hp : p ≠ .acquiring) (u : ℕ) :
    u ∈ rest.filterMap LockWaiter.task? ↔ (s.setPhase t p).tasks[u]? = some .acquiring := by
  obtain ⟨ht, hflushTask, hnone⟩ := h.flushLoop_head hrest
  refine iff_of_false (hnone u) fun hu => ?_
  by_cases hut : u = t
  · subst hut
    rw [setPhase_self ht] at hu
    exact hp (Option.some.inj hu)
  · rw [setPhase_ne hut] at hu
    have := (h.flushing u).mp ⟨_, hu, by decide⟩
    exact hut (Option.some.inj (this.symm.trans hflushTask))

/-- The section of `_batch_flush_loop`: the task ends when the queue is empty, and otherwise hands a
batch over. -/
theorem flush (hsize : 1 ≤ size) : ({ s with lockWaiters := rest }.flush size t).Sound size := by
  obtain ⟨ht, hflushTask, hnone⟩ := h.flushLoop_head hrest
  have hnodup : (rest.filterMap LockWaiter.task?).Nodup := by
    rw [List.eq_nil_iff_forall_not_mem.mpr hnone]
    exact List.nodup_nil
  have harrived := h.arrived
  rw [callers, hrest, List.filterMap_cons_none rfl] at harrived
  unfold BatchQueue.flush
  by_cases hempty : s.queue = []
  · rw [if_pos (by simp [hempty])]
    refine ⟨harrived, fun u => ?_, fun hne => absurd hempty hne,
      h.flush_acquiring hrest (by decide), hnodup, h.batches⟩
    refine (flushing_setPhase_done ht).trans ?_
    rw [h.flushing, hflushTask]
    simp only [Option.some.injEq, reduceCtorEq, iff_false]
    exact fun hu => hu.2 hu.1.symm
  · rw [if_neg (by simp [hempty])]
    have hpos : 0 < s.queue.length := List.length_pos_iff.mpr hempty
    refine ⟨?_, fun u => ?_, fun _ => ?_, h.flush_acquiring hrest (by decide), hnodup,
      fun batch hbatch => ?_⟩
    · rw [← harrived]
      simp [callers, signal]
    · exact (flushing_setPhase ht (by decide) (by decide)).trans (h.flushing u)
    · exact Option.isSome_iff_exists.mpr ⟨t, hflushTask⟩
    · rcases List.mem_append.mp hbatch with hbatch | hbatch
      · exact h.batches batch hbatch
      · obtain rfl := List.mem_singleton.mp hbatch
        have hlength : (s.queue.take size).length = min size s.queue.length := List.length_take
        show 1 ≤ (s.queue.take size).length ∧ (s.queue.take size).length ≤ size
        omega

end Flush

/-- Every step keeps the queue sound. -/
theorem of_step (hsize : 1 ≤ size) (hstep : s.step size a = some s') : s'.Sound size := by
  cases a with
  | call item => exact Option.some.inj hstep ▸ h.call item
  | lock =>
    simp only [step] at hstep
    split at hstep
    · cases hstep
    · next item rest hrest => exact Option.some.inj hstep ▸ h.enqueue hrest
    · next t rest hrest => exact Option.some.inj hstep ▸ h.flush hrest hsize
  | start t =>
    obtain ⟨ht, hstep⟩ := Option.ite_none_right_eq_some.mp hstep
    exact Option.some.inj hstep ▸ h.toWaiting ht (by decide) (by decide)
  | wake t =>
    obtain ⟨ht, hstep⟩ := Option.ite_none_right_eq_some.mp hstep
    exact Option.some.inj hstep ▸ h.leaveWait ht.1
  | timeOut t =>
    obtain ⟨ht, hstep⟩ := Option.ite_none_right_eq_some.mp hstep
    exact Option.some.inj hstep ▸ h.leaveWait ht
  | batchRan t =>
    obtain ⟨ht, hstep⟩ := Option.ite_none_right_eq_some.mp hstep
    exact Option.some.inj hstep ▸ h.toWaiting ht (by decide) (by decide)

end Sound

/-- The queue is sound in every state that a run can reach. -/
theorem sound_of_reachable {batchSize : ℤ} (h : (batchQueueSystem ι batchSize).Reachable s) :
    s.Sound (keptBatchSize batchSize) :=
  h.rec_on_step (fun _ h₀ => h₀ ▸ sound_empty) fun _ _ _ _ hs hstep =>
    hs.of_step (one_le_keptBatchSize batchSize) hstep

/-! ### What is left to do -/

/-- The work of all flush tasks. -/
def work (s : BatchQueue ι) : ℕ := (s.tasks.map FlushPhase.work).sum

/-- What is left to do when no call arrives any more. -/
def remaining (s : BatchQueue ι) : ℕ :=
  10 * s.callers.length + 5 * s.queue.length + s.work

theorem sum_work_set {l : List FlushPhase} {p q : FlushPhase} (ht : l[t]? = some q) :
    ((l.set t p).map FlushPhase.work).sum + q.work = (l.map FlushPhase.work).sum + p.work := by
  induction l generalizing t with
  | nil => cases ht
  | cons r l ih =>
    cases t with
    | zero =>
      obtain rfl := Option.some.inj ht
      simp only [List.set_cons_zero, List.map_cons, List.sum_cons]
      omega
    | succ t =>
      have hrest := ih (List.getElem?_cons_succ ▸ ht)
      simp only [List.set_cons_succ, List.map_cons, List.sum_cons]
      omega

theorem work_setPhase {p q : FlushPhase} (ht : s.tasks[t]? = some q) :
    (s.setPhase t p).work + q.work = s.work + p.work :=
  sum_work_set ht

theorem remaining_setPhase {p q : FlushPhase} (ht : s.tasks[t]? = some q) (hlt : p.work < q.work) :
    (s.setPhase t p).remaining < s.remaining := by
  have hwork := work_setPhase (p := p) ht
  show 10 * s.callers.length + 5 * s.queue.length + (s.setPhase t p).work < s.remaining
  unfold remaining
  omega

theorem remaining_leaveWait (ht : s.tasks[t]? = some .waiting) :
    (s.leaveWait t).remaining < s.remaining := by
  have hcallers : (s.leaveWait t).callers = s.callers := by simp [callers, leaveWait]
  refine lt_of_eq_of_lt ?_ (remaining_setPhase ht (p := .acquiring) (by decide))
  show 10 * (s.leaveWait t).callers.length + 5 * s.queue.length + (s.setPhase t .acquiring).work = _
  rw [hcallers]
  rfl

/-- A new task has four steps to its first batch. -/
theorem work_ensureFlushTask : s.ensureFlushTask.work ≤ s.work + 4 := by
  unfold ensureFlushTask
  split
  · simp [work, createFlushTask, FlushPhase.work]
  · exact Nat.le_add_right ..

/-- The section of `_enqueue_and_wait` turns a call into a queued item, and perhaps creates a
task. -/
theorem remaining_enqueue {item : ι} {rest : List (LockWaiter ι)}
    (hrest : s.lockWaiters = .caller item :: rest) :
    ({ s with lockWaiters := rest }.enqueue size item).remaining < s.remaining := by
  have hcallers : s.callers.length = (rest.filterMap LockWaiter.item?).length + 1 := by
    rw [callers, hrest, List.filterMap_cons_some (LockWaiter.item?_caller item), List.length_cons]
  have hwork : ({ s with lockWaiters := rest }.enqueue size item).work ≤ s.work + 4 :=
    work_ensureFlushTask (s := { s with lockWaiters := rest, queue := s.queue ++ [item] })
  have hqueue : ({ s with lockWaiters := rest }.enqueue size item).queue.length =
      s.queue.length + 1 := by
    simp only [enqueue, signal, ensureFlushTask_queue, List.length_append, List.length_singleton]
  have hrestCallers : ({ s with lockWaiters := rest }.enqueue size item).callers =
      rest.filterMap LockWaiter.item? := by
    simp only [callers, enqueue, signal, ensureFlushTask_lockWaiters]
  simp only [remaining, hqueue, hrestCallers, hcallers]
  omega

/-- The section of `_batch_flush_loop` ends the task, or takes a batch off the queue. -/
theorem Sound.remaining_flush (h : s.Sound size) (hsize : 1 ≤ size) {rest : List (LockWaiter ι)}
    (hrest : s.lockWaiters = .flushLoop t :: rest) :
    ({ s with lockWaiters := rest }.flush size t).remaining < s.remaining := by
  obtain ⟨ht, -, -⟩ := h.flushLoop_head hrest
  have hcallers : s.callers = rest.filterMap LockWaiter.item? := by
    rw [callers, hrest, List.filterMap_cons_none rfl]
  have hdone := work_setPhase (p := .done) ht
  have hrunning := work_setPhase (p := .running) ht
  simp only [FlushPhase.work] at hdone hrunning
  unfold BatchQueue.flush
  by_cases hempty : s.queue = []
  · rw [if_pos (by simp [hempty])]
    show 10 * (rest.filterMap LockWaiter.item?).length + 5 * s.queue.length +
      (s.setPhase t .done).work < s.remaining
    rw [remaining, hcallers]
    omega
  · rw [if_neg (by simp [hempty])]
    show 10 * (rest.filterMap LockWaiter.item?).length + 5 * (s.queue.drop size).length +
      (s.setPhase t .running).work < s.remaining
    have hpos : 0 < s.queue.length := List.length_pos_iff.mpr hempty
    rw [remaining, hcallers, List.length_drop]
    omega

/-- Every step but a call leaves less to do. -/
theorem Sound.remaining_lt (h : s.Sound size) (hsize : 1 ≤ size) (ha : a.isCall = false)
    (hstep : s.step size a = some s') : s'.remaining < s.remaining := by
  cases a with
  | call item => cases ha
  | lock =>
    simp only [step] at hstep
    split at hstep
    · cases hstep
    · next item rest hrest => exact Option.some.inj hstep ▸ remaining_enqueue hrest
    · next t rest hrest => exact Option.some.inj hstep ▸ h.remaining_flush hsize hrest
  | start t =>
    obtain ⟨ht, hstep⟩ := Option.ite_none_right_eq_some.mp hstep
    exact Option.some.inj hstep ▸ remaining_setPhase ht (by decide)
  | wake t =>
    obtain ⟨ht, hstep⟩ := Option.ite_none_right_eq_some.mp hstep
    exact Option.some.inj hstep ▸ remaining_leaveWait ht.1
  | timeOut t =>
    obtain ⟨ht, hstep⟩ := Option.ite_none_right_eq_some.mp hstep
    exact Option.some.inj hstep ▸ remaining_leaveWait ht
  | batchRan t =>
    obtain ⟨ht, hstep⟩ := Option.ite_none_right_eq_some.mp hstep
    exact Option.some.inj hstep ▸ remaining_setPhase ht (by decide)

/-- Without new calls, a run has at most as many steps as there were left to do. -/
theorem Sound.length_le_remaining (h : s.Sound size) (hsize : 1 ≤ size)
    {T : TransitionSystem (BatchQueue ι) (QueueAction ι)} (hT : T.step = step size)
    {as : List (QueueAction ι)} (has : ∀ a ∈ as, a.isCall = false) (hrun : T.run s as = some s') :
    as.length ≤ s.remaining := by
  induction as generalizing s with
  | nil => exact Nat.zero_le _
  | cons a as ih =>
    obtain ⟨u, hu, hrun⟩ := T.run_cons_eq_some.mp hrun
    rw [hT] at hu
    have hlt := h.remaining_lt hsize (has a List.mem_cons_self) hu
    have hle := ih (h.of_step hsize hu) (fun b hb => has b (List.mem_cons_of_mem a hb)) hrun
    rw [List.length_cons]
    omega

/-- When nothing can happen but a new call, no call waits for the lock and no item is queued. -/
theorem Sound.eq_nil_of_stuck (h : s.Sound size)
    (hstuck : ∀ a : QueueAction ι, a.isCall = false → s.step size a = none) :
    s.lockWaiters = [] ∧ s.queue = [] := by
  have hlock : s.lockWaiters = [] := by
    have := hstuck .lock rfl
    simp only [step] at this
    split at this
    · next hnil => exact hnil
    · cases this
    · cases this
  refine ⟨hlock, ?_⟩
  by_contra hne
  obtain ⟨t, ht⟩ := Option.isSome_iff_exists.mp (h.queued hne)
  obtain ⟨p, hp, hdone⟩ := (h.flushing t).mpr ht
  -- whatever the flush task is at, it could go on
  cases p with
  | created => simpa [step, hp] using hstuck (.start t) rfl
  | waiting => simpa [step, hp] using hstuck (.timeOut t) rfl
  | acquiring =>
    have hmem := (h.acquiring t).mpr hp
    rw [flushers, hlock] at hmem
    exact List.not_mem_nil hmem
  | running => simpa [step, hp] using hstuck (.batchRan t) rfl
  | done => exact hdone rfl

end BatchQueue

/-- The micro-batch queue neither loses, repeats nor reorders requests. -/
theorem batches_are_served {ι : Type*} {batchSize : ℤ} {s : BatchQueue ι}
    (h : (batchQueueSystem ι batchSize).Reachable s) :
    -- as long as items are queued, there is a flush task that has not ended
    (s.queue ≠ [] → ∃ t, s.flushTask = some t ∧ s.Flushing t) ∧
      -- never more than one
      (∀ t u, s.Flushing t → s.Flushing u → t = u) ∧
      -- what arrived is what `_run_batch` was called with, then what is queued, then the items of
      -- the calls that wait for the lock
      s.runs.flatten ++ s.queue ++ s.callers = s.arrived ∧
      (∀ batch ∈ s.runs, 1 ≤ batch.length ∧ (batch.length : ℤ) ≤ max 1 batchSize) ∧
      -- when no step is enabled any more, everything has been handed over
      ((∀ a : QueueAction ι, a.isCall = false → (batchQueueSystem ι batchSize).step s a = none) →
        s.queue = [] ∧ s.runs.flatten = s.arrived) ∧
      -- and that comes about after so many steps without new calls
      ∀ as s', (∀ a ∈ as, a.isCall = false) →
        (batchQueueSystem ι batchSize).run s as = some s' → as.length ≤ s.remaining := by
  have hsound := BatchQueue.sound_of_reachable h
  refine ⟨fun hne => ?_, fun t u ht hu => ?_, hsound.arrived, fun batch hbatch => ?_,
    fun hstuck => ?_, fun as s' has hrun => ?_⟩
  · obtain ⟨t, ht⟩ := Option.isSome_iff_exists.mp (hsound.queued hne)
    exact ⟨t, ht, (hsound.flushing t).mpr ht⟩
  · exact Option.some.inj (((hsound.flushing t).mp ht).symm.trans ((hsound.flushing u).mp hu))
  · obtain ⟨hpos, hle⟩ := hsound.batches batch hbatch
    refine ⟨hpos, ?_⟩
    unfold keptBatchSize at hle
    omega
  · obtain ⟨hlock, hqueue⟩ := hsound.eq_nil_of_stuck hstuck
    have harrived := hsound.arrived
    rw [BatchQueue.callers, hlock, hqueue, List.append_nil, List.filterMap_nil,
      List.append_nil] at harrived
    exact ⟨hqueue, harrived⟩
  · exact hsound.length_le_remaining (one_le_keptBatchSize batchSize) rfl has hrun

/-- Three calls and batches of two: the last item waits for the timeout, and the task ends. -/
def exampleCalls : List (QueueAction ℕ) :=
  [.call 1, .lock, .call 2, .call 3, .start 0, .lock, .wake 0, .lock, .lock, .batchRan 0,
    .timeOut 0, .lock, .batchRan 0, .timeOut 0, .lock]

theorem batches_are_served_exampleCalls : ∃ s : BatchQueue ℕ,
    (batchQueueSystem ℕ 2).run .empty exampleCalls = some s ∧ s.runs = [[1, 2], [3]] ∧
      s.flushTask = none ∧ s.runs.flatten = s.arrived := by
  have hs := TransitionSystem.Reachable.get (T := batchQueueSystem ℕ 2) exampleCalls
    (s := .empty) rfl rfl
  exact ⟨_, rfl, rfl, rfl, (batches_are_served hs).2.2.1⟩

end Morphflow
