import Morphflow.Services.LeasedService
import Morphflow.Foundation.FencedLease
import Morphflow.Foundation.Transition

/-!
# The history of the leases of a job

One job, created `PENDING`, is written by committed operations in any order: claims by any owners
with any lease length, renewals, and the two writes of an outcome that `WorkerService` and
`InferencePipelineService` make under a lease. `LeaseRun` keeps the rows together with what
happened to the leases, in the vocabulary of `FencedLease`, and with all clock readings.

The three conditional updates spell their conditions over status, owner, epoch and expiry
separately. Read through `registerOf`, a row is a lease register and every operation that changes
the row is a step of the register (`LeaseOp.step_of_apply`); the history of the leases is then that
of the register.

## Main results

* `LeaseRun.lease_safety`: epochs are handed out as `1, 2, 3, …`; an outcome or a renewal succeeds
  only under the newest lease and before its outcome; a lease that was taken over had been given
  up or had expired.
-/

namespace Morphflow

/-- The committed operations on the row of a job. -/
inductive LeaseOp
  | claim (owner : String) (leaseSeconds : ℤ) (now : Instant)
  | renew (owner : String) (epoch : ℕ) (leaseSeconds : ℤ) (now : Instant)
  | complete (c : LeasedCall) (lease : JobLease) (result : Dict)
  | fail (c : LeasedCall) (lease : JobLease) (error : String)

namespace LeaseOp

/-- What the operation did to the lease of the job and the new rows, `none` when its condition
excluded the row. -/
def apply (jobId : Uuid) (jobs : Jobs) : LeaseOp → Option (FencedLease.Event String Instant × Jobs)
  | .claim owner leaseSeconds now =>
    (claimForProcessing jobs jobId owner leaseSeconds now).map fun p =>
      (.acquired owner p.1.epoch now (now + timedelta leaseSeconds), p.2)
  | .renew owner epoch leaseSeconds now =>
    (renewLease jobs jobId owner epoch leaseSeconds now).map fun jobs =>
      (.renewed epoch (now + timedelta leaseSeconds), jobs)
  | .complete c lease result =>
    match updateStatus jobs jobId (WorkerService.successChange c lease result) with
    | .ok (some (_, jobs)) => some (.settled lease.epoch true, jobs)
    | _ => none
  | .fail c lease error =>
    match updateStatus jobs jobId (c.failureChange lease error) with
    | .ok (some (_, jobs)) => some (.settled lease.epoch false, jobs)
    | _ => none

/-- The clock reading of an operation. -/
def reading? : LeaseOp → Option Instant
  | .claim _ _ now => some now
  | .renew _ _ _ now => some now
  | .complete .. => none
  | .fail .. => none

end LeaseOp

/-- The rows, what happened to the leases of the job, and the clock readings so far. -/
structure LeaseRun where
  jobs : Jobs
  history : List (FencedLease.Event String Instant)
  clock : List Instant

namespace LeaseRun

/-- One operation on the job. -/
def step (jobId : Uuid) (w : LeaseRun) (op : LeaseOp) : LeaseRun :=
  match op.apply jobId w.jobs with
  | some (ev, jobs) => ⟨jobs, w.history ++ [ev], w.clock ++ op.reading?.toList⟩
  | none => { w with clock := w.clock ++ op.reading?.toList }

/-- The runs on a job that was created `PENDING`. -/
def system (jobId : Uuid) : TransitionSystem LeaseRun LeaseOp where
  init w := (∃ jobs payload,
    w.jobs = addJob jobs { id := jobId, status := .pending, requestPayload := payload }) ∧
    w.history = [] ∧ w.clock = []
  step w op := some (w.step jobId op)

end LeaseRun

/-! ### A row is a lease register -/

/-- The lease register a row stands for. -/
def registerOf (row : JobRow) : FencedLease.Register String Instant where
  epoch := row.leaseEpoch
  hold :=
    match row.status, row.leaseOwner, row.leaseExpiresAt with
    | .processing, some owner, some expiresAt => .held owner expiresAt
    | .success, _, _ => .closed
    | _, _, _ => .free

/-- A row has an owner and an expiry exactly while it is processed. -/
def JobRow.LeaseCoherent (row : JobRow) : Prop :=
  if row.status = .processing then ∃ o t, row.leaseOwner = some o ∧ row.leaseExpiresAt = some t
  else row.leaseOwner = none ∧ row.leaseExpiresAt = none

namespace JobRow.LeaseCoherent

variable {row : JobRow}

theorem held (h : row.LeaseCoherent) (hs : row.status = .processing) :
    ∃ o t, row.leaseOwner = some o ∧ row.leaseExpiresAt = some t ∧
      registerOf row = ⟨row.leaseEpoch, .held o t⟩ := by
  rw [JobRow.LeaseCoherent, if_pos hs] at h
  obtain ⟨o, t, ho, ht⟩ := h
  exact ⟨o, t, ho, ht, by rw [registerOf, hs, ho, ht]⟩

/-- A row that has an owner is being processed. -/
theorem processing_of_owner (h : row.LeaseCoherent) {o : String} (ho : row.leaseOwner = some o) :
    row.status = .processing := by
  by_contra hs
  rw [JobRow.LeaseCoherent, if_neg hs, ho] at h
  cases h.1

end JobRow.LeaseCoherent

theorem registerOf_waiting {row : JobRow} (h : row.status = .pending ∨ row.status = .failed) :
    registerOf row = ⟨row.leaseEpoch, .free⟩ := by
  rcases h with h | h <;> rw [registerOf, h]

/-- **Simulation.** An operation that changes the row of a coherent row leaves a coherent row, and
it is a step of the lease register. -/
theorem LeaseOp.step_of_apply {jobId : Uuid} {jobs jobs' : Jobs} {op : LeaseOp} {row : JobRow}
    {ev : FencedLease.Event String Instant} (hrow : jobs jobId = some row)
    (hc : row.LeaseCoherent) (h : op.apply jobId jobs = some (ev, jobs')) :
    ∃ row', jobs' jobId = some row' ∧ row'.LeaseCoherent ∧
      FencedLease.Step (registerOf row) ev (registerOf row') := by
  cases op with
  | claim owner leaseSeconds now =>
    simp only [LeaseOp.apply, Option.map_eq_some_iff, Prod.mk.injEq, Prod.exists] at h
    obtain ⟨lease, jobs₁, hclaim, rfl, rfl⟩ := h
    obtain ⟨row₀, hrow₀, hable, rfl, rfl⟩ := claimForProcessing_eq_some_iff.mp hclaim
    obtain rfl : row = row₀ := Option.some.inj (hrow.symm.trans hrow₀)
    refine ⟨_, KeyedTable.set_self _ _ _, by simp [JobRow.LeaseCoherent], ?_⟩
    rcases JobRow.claimable_iff.mp hable with hs | hs | ⟨hs, hexp⟩
    · rw [registerOf_waiting (.inl hs)]
      exact .acquire ..
    · rw [registerOf_waiting (.inr hs)]
      exact .acquire ..
    · obtain ⟨o, t, -, ht, hreg⟩ := hc.held hs
      rw [hreg]
      exact .takeOver _ _ _ _ _ _ (hexp t ht)
  | renew owner epoch leaseSeconds now =>
    simp only [LeaseOp.apply, Option.map_eq_some_iff, Prod.mk.injEq] at h
    obtain ⟨jobs₁, hrenew, rfl, rfl⟩ := h
    obtain ⟨row₀, hrow₀, ho, rfl, rfl⟩ := renewLease_eq_some_iff.mp hrenew
    obtain rfl : row = row₀ := Option.some.inj (hrow.symm.trans hrow₀)
    have hs := hc.processing_of_owner ho
    obtain ⟨o, t, ho', ht, hreg⟩ := hc.held hs
    refine ⟨_, KeyedTable.set_self _ _ _, by simp [JobRow.LeaseCoherent, hs, ho], ?_⟩
    rw [hreg]
    simp only [registerOf, hs, ho']
    exact .renew ..
  | complete c lease result =>
    simp only [LeaseOp.apply] at h
    split at h
    · next job jobs₁ hupd =>
      obtain ⟨rfl, rfl⟩ := Prod.mk.inj (Option.some.inj h)
      obtain ⟨row₀, hrow₀, happ, -, rfl⟩ := updateStatus_eq_some_iff.mp hupd
      obtain rfl : row = row₀ := Option.some.inj (hrow.symm.trans hrow₀)
      obtain ⟨hs, -, he⟩ := WorkerService.successChange_applies.mp happ
      obtain ⟨o, t, -, -, hreg⟩ := hc.held hs
      refine ⟨_, KeyedTable.set_self _ _ _,
        by simp [JobRow.LeaseCoherent, StatusChange.applyTo, WorkerService.successChange], ?_⟩
      rw [hreg, ← he]
      exact .settle _ _ _ true
    · cases h
  | fail c lease error =>
    simp only [LeaseOp.apply] at h
    split at h
    · next job jobs₁ hupd =>
      obtain ⟨rfl, rfl⟩ := Prod.mk.inj (Option.some.inj h)
      obtain ⟨row₀, hrow₀, happ, -, rfl⟩ := updateStatus_eq_some_iff.mp hupd
      obtain rfl : row = row₀ := Option.some.inj (hrow.symm.trans hrow₀)
      obtain ⟨-, ho, he⟩ := LeasedCall.failureChange_applies.mp happ
      obtain ⟨o, t, -, -, hreg⟩ := hc.held (hc.processing_of_owner ho)
      refine ⟨_, KeyedTable.set_self _ _ _,
        by simp [JobRow.LeaseCoherent, StatusChange.applyTo, LeasedCall.failureChange], ?_⟩
      rw [hreg, ← he]
      exact .settle _ _ _ false
    · cases h

/-! ### Runs of operations -/

namespace LeaseRun

variable {jobId : Uuid} {w : LeaseRun}

/-- The row is coherent, its register is reached by the history, and the clock readings cover
those of the acquisitions. -/
def Sound (jobId : Uuid) (w : LeaseRun) : Prop :=
  ∃ row, w.jobs jobId = some row ∧ row.LeaseCoherent ∧
    FencedLease.Trace w.history (registerOf row) ∧ FencedLease.readings w.history ⊆ w.clock

private theorem reading_of_apply {jobs jobs' : Jobs} {op : LeaseOp} {o : String} {e : ℕ}
    {now x : Instant} (h : op.apply jobId jobs = some (.acquired o e now x, jobs')) :
    op.reading? = some now := by
  cases op with
  | claim owner leaseSeconds now' =>
    simp only [LeaseOp.apply, Option.map_eq_some_iff, Prod.mk.injEq, Prod.exists,
      FencedLease.Event.acquired.injEq] at h
    obtain ⟨-, -, -, ⟨-, -, rfl, -⟩, -⟩ := h
    rfl
  | renew owner epoch leaseSeconds now' =>
    simp [LeaseOp.apply] at h
  | complete c lease result =>
    simp only [LeaseOp.apply] at h
    split at h <;> simp at h
  | fail c lease error =>
    simp only [LeaseOp.apply] at h
    split at h <;> simp at h

theorem Sound.step (h : w.Sound jobId) (op : LeaseOp) : (w.step jobId op).Sound jobId := by
  obtain ⟨row, hrow, hc, htrace, hread⟩ := h
  unfold LeaseRun.step
  cases hop : op.apply jobId w.jobs with
  | none => exact ⟨row, hrow, hc, htrace, fun t ht => List.mem_append_left _ (hread ht)⟩
  | some p =>
    obtain ⟨ev, jobs'⟩ := p
    obtain ⟨row', hrow', hc', hstep⟩ := LeaseOp.step_of_apply hrow hc hop
    refine ⟨row', hrow', hc', htrace.snoc hstep, fun t ht => ?_⟩
    rw [FencedLease.mem_readings] at ht
    obtain ⟨o, e, x, hm⟩ := ht
    rcases List.mem_append.mp hm with hm | hm
    · exact List.mem_append_left _ (hread (FencedLease.mem_readings.mpr ⟨o, e, x, hm⟩))
    · rw [← List.mem_singleton.mp hm] at hop
      simp [reading_of_apply hop]

theorem sound_of_reachable (h : (system jobId).Reachable w) : w.Sound jobId := by
  refine h.rec_on_step ?_ ?_
  · rintro w ⟨⟨jobs, payload, hjobs⟩, hh, -⟩
    refine ⟨_, by rw [hjobs]; exact KeyedTable.set_self _ _ _, ?_, ?_, ?_⟩
    · simp [JobRow.LeaseCoherent, Job.toRow]
    · rw [hh]
      exact .nil
    · simp [hh, FencedLease.readings]
  · intro w op w' _ hw hstep
    obtain rfl := Option.some.inj hstep
    exact hw.step op

/-- **Lease and fencing safety.** In every run of operations on a job that was created `PENDING`:
the epochs handed out are `1, 2, 3, …`; an operation that is not told in the history changed
nothing; an outcome or a renewal succeeds only under the newest epoch and while no outcome has been
written under it; and, when the clock readings do not decrease, a claim that succeeds finds every
earlier lease given up with `FAILED` or past its expiry, as last renewed. -/
theorem lease_safety (h : (system jobId).Reachable w) :
    FencedLease.acquiredEpochs w.history =
      List.range' 1 (FencedLease.acquiredEpochs w.history).length ∧
    (∀ op : LeaseOp, op.apply jobId w.jobs = none → (w.step jobId op).jobs = w.jobs) ∧
    (∀ (op : LeaseOp) e final jobs', op.apply jobId w.jobs = some (.settled e final, jobs') →
      (FencedLease.acquiredEpochs w.history).getLast? = some e ∧
        ∀ final', .settled e final' ∉ w.history) ∧
    (∀ (op : LeaseOp) e expiry jobs', op.apply jobId w.jobs = some (.renewed e expiry, jobs') →
      (FencedLease.acquiredEpochs w.history).getLast? = some e ∧
        ∀ final', .settled e final' ∉ w.history) ∧
    (∀ (op : LeaseOp) owner e now expiry jobs',
      op.apply jobId w.jobs = some (.acquired owner e now expiry, jobs') →
      (w.clock ++ [now]).Pairwise (· ≤ ·) →
      ∀ e' ∈ FencedLease.acquiredEpochs w.history,
        .settled e' false ∈ w.history ∨
          ∃ t, FencedLease.lastExpiry w.history e' = some t ∧ t < now) := by
  obtain ⟨row, hrow, hc, htrace, hread⟩ := sound_of_reachable h
  refine ⟨?_, ?_, ?_, ?_, ?_⟩
  · rw [htrace.acquiredEpochs_eq, List.length_range']
  · intro op hop
    rw [LeaseRun.step, hop]
  · intro op e final jobs' hop
    obtain ⟨row', -, -, hstep⟩ := LeaseOp.step_of_apply hrow hc hop
    exact htrace.settled_newest hstep
  · intro op e expiry jobs' hop
    obtain ⟨row', -, -, hstep⟩ := LeaseOp.step_of_apply hrow hc hop
    exact htrace.renewed_newest hstep
  · intro op owner e now expiry jobs' hop hmono
    obtain ⟨row', -, -, hstep⟩ := LeaseOp.step_of_apply hrow hc hop
    refine htrace.settled_or_expired hstep fun n hn => ?_
    exact (List.pairwise_append.mp hmono).2.2 n (hread hn) now (List.mem_singleton_self now)

/-- Worker `b` claims, two seconds later, a job that `a` had claimed for one. -/
theorem lease_safety_takeOver :
    ∃ w, (system 7).Reachable w ∧ FencedLease.acquiredEpochs w.history = [1] ∧
      (.settled 1 false ∈ w.history ∨
        ∃ t, FencedLease.lastExpiry w.history 1 = some t ∧ t < 2000000) := by
  have h₀ : (system 7).init ⟨addJob (fun _ => none) ⟨7, .pending, [], none, none, 0⟩, [], []⟩ :=
    ⟨⟨_, [], rfl⟩, rfl, rfl⟩
  have hw := TransitionSystem.Reachable.get [.claim "a" 1 0] h₀ rfl
  refine ⟨_, hw, rfl, ?_⟩
  exact (lease_safety hw).2.2.2.2 (.claim "b" 1 2000000) "b" 2 2000000 3000000 _ rfl
    (by decide) 1 (by decide)

end LeaseRun

end Morphflow
