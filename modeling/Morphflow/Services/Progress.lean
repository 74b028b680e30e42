import Morphflow.Foundation.Possibility
import Morphflow.Services.DownstreamService
import Morphflow.Services.LeasedService

/-!
# What a call can still do

A call of any service that begins, on whatever tables, can come to return with success: at a late
time the lease on its job has expired, the processor may return, and the transactions may commit.
What it leaves is what the service is for, with one exception: a downstream call leaves a job that
it does not find `PROCESSING` as it was, unless that was finished.

The calls here are alone on their store. The identifier of an outbox row is drawn by the database.

## Main definitions

* `leasedCalls`, `downstreamCalls`.
* `Db.Finished`, `Db.HandedOver`.

## Main results

* `WorkerService.leads_finished`, `InferencePipelineService.leads_handedOver`,
  `DownstreamCall.leads_acknowledged`.
-/

namespace Morphflow

/-- The job is finished. -/
def Db.Finished (db : Db) (jobId : Uuid) : Prop :=
  ∃ row, db.jobs jobId = some row ∧ row.status = .success

/-- The job is processed, and a message about it waits for the downstream stage. -/
structure Db.HandedOver (topic : String) (db : Db) (jobId : Uuid) : Prop where
  processing : ∃ row, db.jobs jobId = some row ∧ row.status = .processing
  waiting : ∃ row ∈ db.outbox, row.status = .pending ∧ row.topic = topic ∧ row.payload.jobId = jobId

/-- The identifier of an outbox row is not one of the given rows. -/
def LeasedAct.drawsFresh (rows : List OutboxRow) : LeasedAct → Bool
  | .complete ids _ => decide (∀ row ∈ rows, row.id ≠ ids.rowId)
  | _ => true

/-- A call under a lease. -/
def leasedCalls (source : String) (completeTx : CompleteTx) :
    TransitionSystem (LeasedCall × Db) LeasedAct where
  init s := s.1.phase = .claiming
  step s a := if a.drawsFresh s.2.outbox then s.1.step source completeTx s.2 a else none

/-- A call of the downstream stage. -/
def downstreamCalls : TransitionSystem (DownstreamCall × Db) DownstreamAct where
  init s := s.1.phase = .reading
  step s a := s.1.step s.2 a

/-! ### The claim -/

/-- A job that is not finished can be claimed at a late time. -/
theorem JobRow.exists_claimable {row : JobRow} (h : row.status ≠ .success) :
    ∃ now, row.claimable now = true := by
  cases hs : row.status with
  | success => exact absurd hs h
  | pending => exact ⟨0, JobRow.claimable_iff.mpr (.inl hs)⟩
  | failed => exact ⟨0, JobRow.claimable_iff.mpr (.inr (.inl hs))⟩
  | processing =>
    cases ht : row.leaseExpiresAt with
    | none =>
      refine ⟨0, JobRow.claimable_iff.mpr (.inr (.inr ⟨hs, fun t h => ?_⟩))⟩
      rw [ht] at h
      cases h
    | some t =>
      refine ⟨t + 1, JobRow.claimable_iff.mpr (.inr (.inr ⟨hs, fun t' h => ?_⟩))⟩
      obtain rfl := Option.some.inj (ht.symm.trans h)
      exact lt_add_one t

namespace LeasedCall

variable {source : String} {completeTx : CompleteTx} {c : LeasedCall} {db : Db} {row : JobRow}

/-- A call about a finished job can acknowledge it. -/
theorem leads_acknowledged (hp : c.phase = .claiming) (hrow : db.jobs c.event.jobId = some row)
    (hs : row.status = .success) : (leasedCalls source completeTx).Leads (c, db)
      ({ c with phase := .returned true none }, db) := by
  have hrefused : c.claimTx source 0 0 db = .ok none := by
    refine claimTx_eq_none_iff.mpr fun row' hrow' => ?_
    obtain rfl := Option.some.inj (hrow.symm.trans hrow')
    exact Bool.eq_false_iff.mpr fun hc => JobRow.ne_success_of_claimable hc hs
  have hclaim : (leasedCalls source completeTx).step (c, db) (.claim 0 0 .commits) =
      some ({ c with phase := .claimMissed }, db) := by
    simp [leasedCalls, LeasedAct.drawsFresh, step, phaseStep, hp, hrefused, TxFate.conclude]
  have hread : ({ c with phase := .claimMissed } : LeasedCall).readBack db =
      .returned true none := by
    simp [readBack, getJob, hrow, hs]
  refine (TransitionSystem.Leads.of_step hclaim).trans (.of_step (a := .readBack none) ?_)
  simp [leasedCalls, LeasedAct.drawsFresh, step, phaseStep, hread]

/-- A call about a job that is not finished can claim it, and have its request processed. -/
theorem leads_completing (hp : c.phase = .claiming) (hrow : db.jobs c.event.jobId = some row)
    (hs : row.status ≠ .success) (hrequest : (c.event.payload.get? "request").isSome) :
    ∃ now, (leasedCalls source completeTx).Leads (c, db)
      ({ c with phase := .completing (c.leaseOn row now) [] },
        c.claimedDb source row now 0 db) := by
  obtain ⟨now, hc⟩ := row.exists_claimable hs
  obtain ⟨request, hrequest⟩ := Option.isSome_iff_exists.mp hrequest
  have htx : c.claimTx source now 0 db =
      .ok (some (c.leaseOn row now, c.claimedDb source row now 0 db)) :=
    claimTx_eq_some_iff.mpr ⟨row, hrow, hc, rfl, rfl⟩
  have hclaim : (leasedCalls source completeTx).step (c, db) (.claim now 0 .commits) =
      some ({ c with phase := .processing (c.leaseOn row now) },
        c.claimedDb source row now 0 db) := by
    simp [leasedCalls, LeasedAct.drawsFresh, step, phaseStep, hp, htx, TxFate.conclude]
  refine ⟨now, (TransitionSystem.Leads.of_step hclaim).trans
    (.of_step (a := .process (.ok [])) ?_)⟩
  simp [leasedCalls, LeasedAct.drawsFresh, step, phaseStep, afterProcess, hrequest]

/-- A call whose completion commits returns with success. -/
theorem leads_completed {lease : JobLease} {ids : CompletionIds} {db' : Db}
    (hp : c.phase = .completing lease []) (hfresh : ∀ row ∈ db.outbox, row.id ≠ ids.rowId)
    (htx : completeTx c lease [] ids db = .ok (some ((), db'))) :
    (leasedCalls source completeTx).Leads (c, db)
      ({ c with phase := .returned true none }, db') := by
  have hdraws : (LeasedAct.complete ids .commits).drawsFresh db.outbox = true :=
    decide_eq_true hfresh
  refine .of_step (a := .complete ids .commits) ?_
  simp [leasedCalls, hdraws, step, phaseStep, hp, htx, TxFate.conclude]

end LeasedCall

/-- An identifier that no row has. -/
theorem exists_freshId (rows : List OutboxRow) : ∃ id, ∀ row ∈ rows, row.id ≠ id := by
  obtain ⟨id, hid⟩ := Infinite.exists_notMem_finset (rows.map (·.id)).toFinset
  refine ⟨id, fun row hrow heq => hid ?_⟩
  exact List.mem_toFinset.mpr (heq ▸ List.mem_map_of_mem hrow)

section Complete

variable {c : LeasedCall} {db : Db}

/-- A call of `WorkerService` about a committed job can leave it finished. -/
theorem WorkerService.leads_finished (hp : c.phase = .claiming)
    (hjob : (db.jobs c.event.jobId).isSome)
    (hrequest : (c.event.payload.get? "request").isSome) : ∃ db',
    (leasedCalls "worker" WorkerService.completeTx).Leads (c, db)
      ({ c with phase := .returned true none }, db') ∧ db'.Finished c.event.jobId := by
  obtain ⟨row, hrow⟩ := Option.isSome_iff_exists.mp hjob
  by_cases hs : row.status = .success
  · exact ⟨db, LeasedCall.leads_acknowledged hp hrow hs, row, hrow, hs⟩
  obtain ⟨now, hcompleting⟩ := LeasedCall.leads_completing hp hrow hs hrequest
  let c₁ : LeasedCall := { c with phase := .completing (c.leaseOn row now) [] }
  let db₁ := c.claimedDb "worker" row now 0 db
  let row₁ := row.claimed c.workerId (now + timedelta c.leaseSeconds)
  obtain ⟨rowId, hfresh⟩ := exists_freshId db₁.outbox
  have hrow₁ : db₁.jobs c.event.jobId = some row₁ := KeyedTable.set_self ..
  have happ : (WorkerService.successChange c₁ (c.leaseOn row now) []).applies row₁ = true :=
    WorkerService.successChange_applies.mpr ⟨rfl, rfl, rfl⟩
  have htx : WorkerService.completeTx c₁ (c.leaseOn row now) [] ⟨0, 0, 0, rowId⟩ db₁ =
      .ok (some ((), _)) := recordTx_eq_some_iff.mpr ⟨row₁, hrow₁, happ, rfl⟩
  exact ⟨_, hcompleting.trans (LeasedCall.leads_completed rfl hfresh htx), _,
    KeyedTable.set_self .., rfl⟩

/-- A call of `InferencePipelineService` about a committed job can hand it over, unless it is
finished. -/
theorem InferencePipelineService.leads_handedOver (topic : String) (hp : c.phase = .claiming)
    (hjob : (db.jobs c.event.jobId).isSome)
    (hrequest : (c.event.payload.get? "request").isSome) : ∃ db',
    (leasedCalls "inference-worker" (InferencePipelineService.completeTx topic)).Leads (c, db)
      ({ c with phase := .returned true none }, db') ∧
    (db'.Finished c.event.jobId ∨ db'.HandedOver topic c.event.jobId) := by
  obtain ⟨row, hrow⟩ := Option.isSome_iff_exists.mp hjob
  by_cases hs : row.status = .success
  · exact ⟨db, LeasedCall.leads_acknowledged hp hrow hs, .inl ⟨row, hrow, hs⟩⟩
  obtain ⟨now, hcompleting⟩ := LeasedCall.leads_completing hp hrow hs hrequest
  let c₁ : LeasedCall := { c with phase := .completing (c.leaseOn row now) [] }
  let db₁ := c.claimedDb "inference-worker" row now 0 db
  obtain ⟨rowId, hfresh⟩ := exists_freshId db₁.outbox
  have htx : InferencePipelineService.completeTx topic c₁ (c.leaseOn row now) [] ⟨0, 0, 0, rowId⟩
      db₁ = .ok (some ((), _)) := InferencePipelineService.completeTx_eq_some_iff.mpr rfl
  refine ⟨_, hcompleting.trans (LeasedCall.leads_completed rfl hfresh htx), .inr ⟨?_, ?_⟩⟩
  · exact ⟨_, KeyedTable.set_self .., rfl⟩
  · exact ⟨_, List.mem_append_right _ (List.mem_singleton_self _), rfl, rfl, rfl⟩

end Complete

/-- A call of the downstream stage about a committed job can acknowledge its message. It leaves the
job finished, when it is processed or finished. -/
theorem DownstreamCall.leads_acknowledged {c : DownstreamCall} {db : Db} {row : JobRow}
    (hp : c.phase = .reading) (hrow : db.jobs c.event.jobId = some row) : ∃ db',
    downstreamCalls.Leads (c, db) ({ c with phase := .returned true none }, db') ∧
    (row.status = .processing ∨ row.status = .success → db'.Finished c.event.jobId) := by
  have hgot : getJob db.jobs c.event.jobId = some (row.toJob c.event.jobId) :=
    getJob_eq_some_iff.mpr ⟨row, hrow, rfl⟩
  by_cases hs : row.status = .success
  · refine ⟨db, .of_step (a := .read none) ?_, fun _ => ⟨row, hrow, hs⟩⟩
    simp [downstreamCalls, step, phaseStep, hp, afterRead, hgot, hs]
  have hread : downstreamCalls.step (c, db) (.read none) =
      some ({ c with phase := .processing }, db) := by
    simp [downstreamCalls, step, phaseStep, hp, afterRead, hgot, hs]
  have hprocess : downstreamCalls.step ({ c with phase := .processing }, db) (.process (.ok [])) =
      some ({ c with phase := .completing [] }, db) := by
    simp [downstreamCalls, step, phaseStep]
  have hcomplete : ∀ {db' : Db},
      writeTx db c.event.jobId (c.successChange []) (c.completionEvent [] 0) =
        .ok (some ((), db')) →
      downstreamCalls.Leads (c, db) ({ c with phase := .returned true none }, db') := by
    intro db' htx
    have htx' : ({ c with phase := .completing [] } : DownstreamCall).completeTx [] 0 db =
        .ok (some ((), db')) := htx
    refine ((TransitionSystem.Leads.of_step hread).trans (.of_step hprocess)).trans
      (.of_step (a := .complete 0 .commits) ?_)
    simp [downstreamCalls, step, phaseStep, htx', TxFate.conclude]
  rcases writeTx_eq_some db c.event.jobId (c.completionEvent [] 0) (c.successChange_sources []) with
    ⟨row', hrow', happ, htx⟩ | ⟨hnone, htx⟩
  · exact ⟨_, hcomplete htx, fun _ => ⟨_, KeyedTable.set_self .., rfl⟩⟩
  · refine ⟨_, hcomplete htx, fun hactive => ?_⟩
    have happ := hnone row hrow
    rw [successChange_applies.mpr (hactive.resolve_right hs)] at happ
    cases happ

end Morphflow
