import Morphflow.Database.Store
import Morphflow.Foundation.Transaction

/-!
# The services that process a job under a lease

`WorkerService.handle_event` and `InferencePipelineService.handle_event` claim the job, process
the request and record the outcome, in up to three transactions. The claim and the record of a
failure are the same in both but for the name of the source; the transaction that completes the job
is not.

A call is a machine whose phase says what it awaits. Its steps are the awaits of the source: a
transaction is one step, decided by the committed store at its commit, and the environment decides
whether it raises (`TxFate`). The processor's outcome is an argument of the step that awaits it. A
call whose process died takes no more steps.

The text of an exception is what `str(exc)` gives; that of a missing key is the quoted key.

## Main definitions

* `LeasedPhase`, `LeasedCall`, `LeasedAct`, `LeasedCall.step`, `LeasedCall.Effect`.
* `LeasedCall.claimTx`, `LeasedCall.failTx`.
* `WorkerService.completeTx`, `WorkerService.step`.
* `InferencePipelineService.completeTx`, `InferencePipelineService.step`.

## Main results

* `LeasedCall.effect_of_step`: everything a step can do.
* `LeasedCall.claimTx_eq_some_iff`, `LeasedCall.failureChange_applies`,
  `WorkerService.successChange_applies`: what the transactions commit, and when.
-/

namespace Morphflow

/-- What a call of `handle_event` awaits. -/
inductive LeasedPhase
  /-- The claim has not been decided. -/
  | claiming
  /-- The claim changed no row and was rolled back; the job is read next. -/
  | claimMissed
  /-- The processor runs under the lease. -/
  | processing (lease : JobLease)
  /-- The processor returned; the outcome is recorded next. -/
  | completing (lease : JobLease) (result : Dict)
  /-- An exception was caught; the failure is recorded next. -/
  | failing (lease : JobLease) (error : String)
  /-- The call returned a pair. -/
  | returned (success : Bool) (error : Option String)
  /-- The call raised. -/
  | raised (error : String)

/-- A call of `handle_event` by a service with the given identity and lease length. -/
structure LeasedCall where
  workerId : String
  leaseSeconds : ℤ
  event : Event
  phase : LeasedPhase

/-- The identifiers drawn by the transaction that completes a job. -/
structure CompletionIds where
  eventId : Uuid
  downstreamEventId : Uuid := 0
  messageId : Uuid := 0
  rowId : ℕ := 0

/-- The steps of a call. -/
inductive LeasedAct
  | claim (now : Instant) (eventId : Uuid) (fate : TxFate)
  | readBack (failure : Option String)
  | process (outcome : Except String Dict)
  | complete (ids : CompletionIds) (fate : TxFate)
  | fail (eventId : Uuid) (fate : TxFate)

/-- The body of the transaction that completes a job. -/
abbrev CompleteTx := LeasedCall → JobLease → Dict → CompletionIds → Db →
  Except String (Option (Unit × Db))

namespace LeasedCall

/-- The lease a call acts under. -/
def lease? (c : LeasedCall) : Option JobLease :=
  match c.phase with
  | .processing lease => some lease
  | .completing lease _ => some lease
  | .failing lease _ => some lease
  | _ => none

/-- The event that tells of a claim. -/
def startEvent (source : String) (c : LeasedCall) (epoch : ℕ) (eventId : Uuid) : Event :=
  buildEvent eventId c.event.jobId .processingStarted source c.event.traceId
    [("lease_epoch", .int epoch)]

/-- The first transaction: claim the job and log it. -/
def claimTx (source : String) (c : LeasedCall) (now : Instant) (eventId : Uuid) (db : Db) :
    Except String (Option (JobLease × Db)) :=
  match claimForProcessing db.jobs c.event.jobId c.workerId c.leaseSeconds now with
  | none => .ok none
  | some (lease, jobs) =>
    let event := c.startEvent source lease.epoch eventId
    .ok (some (lease, { db with jobs := jobs, events := db.events ++ [event] }))

/-- The update that records a failure under the lease. -/
def failureChange (c : LeasedCall) (lease : JobLease) (error : String) : StatusChange where
  status := .failed
  error := some error
  leaseOwner := some c.workerId
  leaseEpoch := some lease.epoch
  releaseLease := true

/-- The event that tells of a failure. -/
def failureEvent (source : String) (c : LeasedCall) (error : String) (eventId : Uuid) : Event :=
  buildEvent eventId c.event.jobId .failed source c.event.traceId [("error", .str error)]

/-- The last transaction after an exception: record the failure, unless fenced out. -/
def failTx (source : String) (c : LeasedCall) (lease : JobLease) (error : String)
    (eventId : Uuid) (db : Db) : Except String (Option (Unit × Db)) :=
  recordTx db c.event.jobId (c.failureChange lease error) (c.failureEvent source error eventId)

/-- The answer after a claim that changed no row: a finished job is acknowledged, anything else is
left to the retries. -/
def readBack (c : LeasedCall) (db : Db) : LeasedPhase :=
  match getJob db.jobs c.event.jobId with
  | some job => if job.status = .success then .returned true none
    else .returned false (some "LEASE_HELD")
  | none => .returned false (some "LEASE_HELD")

/-- The continuation after the processor; a payload without a request raises before it runs. -/
def afterProcess (c : LeasedCall) (lease : JobLease) (outcome : Except String Dict) :
    LeasedPhase :=
  match c.event.payload.get? "request", outcome with
  | none, _ => .failing lease "'request'"
  | some _, .ok result => .completing lease result
  | some _, .error e => .failing lease e

/-- A step of `handle_event` from the current phase. -/
def phaseStep (source : String) (completeTx : CompleteTx) (c : LeasedCall) (db : Db)
    (a : LeasedAct) : Option (LeasedPhase × Db) :=
  match c.phase, a with
  | .claiming, .claim now eventId fate =>
    some (fate.conclude db (c.claimTx source now eventId db) .claimMissed .processing .raised)
  | .claimMissed, .readBack none => some (c.readBack db, db)
  | .claimMissed, .readBack (some e) => some (.raised e, db)
  | .processing lease, .process outcome => some (c.afterProcess lease outcome, db)
  | .completing lease result, .complete ids fate =>
    some (fate.conclude db (completeTx c lease result ids db) (.returned true none)
      (fun _ => .returned true none) (.failing lease))
  | .failing lease error, .fail eventId fate =>
    some (fate.conclude db (c.failTx source lease error eventId db) (.returned false (some error))
      (fun _ => .returned false (some error)) .raised)
  | _, _ => none

/-- A step of `handle_event`. -/
def step (source : String) (completeTx : CompleteTx) (c : LeasedCall) (db : Db) (a : LeasedAct) :
    Option (LeasedCall × Db) :=
  (c.phaseStep source completeTx db a).map fun p => ({ c with phase := p.1 }, p.2)

end LeasedCall

/-! ### The transaction that completes a job -/

namespace WorkerService

/-- The update that records a result under the lease. -/
def successChange (c : LeasedCall) (lease : JobLease) (result : Dict) : StatusChange where
  status := .success
  result := some result
  clearError := true
  leaseOwner := some c.workerId
  leaseEpoch := some lease.epoch
  releaseLease := true

/-- The event that tells of a result. -/
def completionEvent (c : LeasedCall) (result : Dict) (eventId : Uuid) : Event :=
  buildEvent eventId c.event.jobId .processingCompleted "worker" c.event.traceId
    [("result", .obj result)]

/-- The result and its event are recorded together, unless fenced out. -/
def completeTx : CompleteTx := fun c lease result ids db =>
  recordTx db c.event.jobId (successChange c lease result) (completionEvent c result ids.eventId)

/-- `WorkerService.handle_event`, one step. -/
def step : LeasedCall → Db → LeasedAct → Option (LeasedCall × Db) :=
  LeasedCall.step "worker" completeTx

end WorkerService

namespace InferencePipelineService

/-- The envelope handed to the downstream stage. -/
def downstreamEvent (c : LeasedCall) (result : Dict) (eventId : Uuid) : Event :=
  buildEvent eventId c.event.jobId .inferenceCompleted "inference-worker" c.event.traceId
    [("request", c.event.payload.getOrNull "request"), ("inference_result", .obj result)]

/-- The log entry and the downstream message are written together; the row of the job and the
lease are not looked at. -/
def completeTx (downstreamTopic : String) : CompleteTx := fun c _ result ids db =>
  let event := buildEvent ids.eventId c.event.jobId .inferenceCompleted "inference-worker"
    c.event.traceId [("result", .obj result)]
  let outbox := addOutbox db.outbox ids.rowId ids.messageId downstreamTopic
    (downstreamEvent c result ids.downstreamEventId)
  .ok (some ((), { db with events := db.events ++ [event], outbox := outbox }))

/-- The tables after a handover. -/
def handedOverDb (topic : String) (c : LeasedCall) (result : Dict)
    (ids : CompletionIds) (db : Db) : Db where
  jobs := db.jobs
  events := db.events ++ [buildEvent ids.eventId c.event.jobId .inferenceCompleted
    "inference-worker" c.event.traceId [("result", .obj result)]]
  outbox := addOutbox db.outbox ids.rowId ids.messageId topic
    (downstreamEvent c result ids.downstreamEventId)

/-- A handover looks at no row, and is never refused. -/
theorem completeTx_eq_some_iff {topic : String} {c : LeasedCall} {lease : JobLease} {result : Dict}
    {ids : CompletionIds} {db db' : Db} : completeTx topic c lease result ids db =
      .ok (some ((), db')) ↔ db' = handedOverDb topic c result ids db := by
  simp only [completeTx, handedOverDb, Except.ok.injEq, Option.some.injEq, Prod.mk.injEq, true_and]
  exact eq_comm

/-- `InferencePipelineService.handle_event`, one step. -/
def step (downstreamTopic : String) : LeasedCall → Db → LeasedAct → Option (LeasedCall × Db) :=
  LeasedCall.step "inference-worker" (completeTx downstreamTopic)

end InferencePipelineService

/-! ### What the transactions commit -/

namespace LeasedCall

/-- The lease a claim of the row hands out. -/
def leaseOn (c : LeasedCall) (row : JobRow) (now : Instant) : JobLease :=
  ⟨c.event.jobId, c.workerId, row.leaseEpoch + 1, some (now + timedelta c.leaseSeconds)⟩

/-- The tables after a successful claim of the row. -/
def claimedDb (source : String) (c : LeasedCall) (row : JobRow) (now : Instant) (eventId : Uuid)
    (db : Db) : Db :=
  db.recorded c.event.jobId (row.claimed c.workerId (now + timedelta c.leaseSeconds))
    (c.startEvent source (row.leaseEpoch + 1) eventId)

theorem claimTx_eq_some_iff {source : String} {c : LeasedCall} {now : Instant} {eventId : Uuid}
    {db db' : Db} {lease : JobLease} : c.claimTx source now eventId db = .ok (some (lease, db')) ↔
      ∃ row, db.jobs c.event.jobId = some row ∧ row.claimable now = true ∧
        lease = c.leaseOn row now ∧ db' = c.claimedDb source row now eventId db := by
  unfold claimTx
  cases h : claimForProcessing db.jobs c.event.jobId c.workerId c.leaseSeconds now with
  | none =>
    have hnone := claimForProcessing_eq_none_iff.mp h
    constructor
    · rintro ⟨⟩
    · rintro ⟨row, hrow, hc, -⟩
      exact absurd (hnone row hrow) (by rw [hc]; decide)
  | some p =>
    obtain ⟨row, hrow, hc, hl, hjobs⟩ := claimForProcessing_eq_some_iff.mp h
    simp only [Except.ok.injEq, Option.some.injEq, Prod.mk.injEq]
    constructor
    · rintro ⟨rfl, rfl⟩
      exact ⟨row, hrow, hc, hl, by rw [claimedDb, Db.recorded, hjobs, hl]⟩
    · rintro ⟨row', hrow', -, hl', hdb⟩
      obtain rfl : row = row' := Option.some.inj (hrow.symm.trans hrow')
      exact ⟨hl.trans hl'.symm, by rw [hdb, claimedDb, Db.recorded, hjobs, hl]⟩

theorem claimTx_eq_none_iff {source : String} {c : LeasedCall} {now : Instant} {eventId : Uuid}
    {db : Db} : c.claimTx source now eventId db = .ok none ↔
      ∀ row, db.jobs c.event.jobId = some row → row.claimable now = false := by
  have hiff : claimForProcessing db.jobs c.event.jobId c.workerId c.leaseSeconds now = none ↔ _ :=
    claimForProcessing_eq_none_iff
  rw [← hiff]
  unfold claimTx
  cases claimForProcessing db.jobs c.event.jobId c.workerId c.leaseSeconds now <;> simp

/-- A job that is not finished is left to the retries. -/
theorem readBack_of_ne_success {c : LeasedCall} {db : Db} {row : JobRow}
    (hrow : db.jobs c.event.jobId = some row) (h : row.status ≠ .success) :
    c.readBack db = .returned false (some "LEASE_HELD") := by
  unfold readBack
  rw [getJob_eq_some_iff.mpr ⟨row, hrow, rfl⟩]
  exact if_neg h

/-- A fenced write of a failure applies to a row the lease still owns. -/
theorem failureChange_applies {c : LeasedCall} {lease : JobLease} {error : String} {row : JobRow} :
    (c.failureChange lease error).applies row = true ↔
      (row.status = .pending ∨ row.status = .processing) ∧ row.leaseOwner = some c.workerId ∧
        row.leaseEpoch = lease.epoch := by
  simp [StatusChange.applies_iff, failureChange, StatusChange.sources]

theorem ne_success_of_failureChange {c : LeasedCall} {lease : JobLease} {error : String}
    {row : JobRow} (h : (c.failureChange lease error).applies row = true) :
    row.status ≠ .success := by
  rcases (failureChange_applies.mp h).1 with hs | hs <;> rw [hs] <;> decide

theorem failTx_eq_none_iff {source : String} {c : LeasedCall} {lease : JobLease} {error : String}
    {eventId : Uuid} {db : Db} : c.failTx source lease error eventId db = .ok none ↔
      ∀ row, db.jobs c.event.jobId = some row →
        (c.failureChange lease error).applies row = false :=
  recordTx_eq_none_iff ⟨.pending, by simp [failureChange, StatusChange.sources]⟩

end LeasedCall

namespace WorkerService

/-- A fenced write of a result applies to a row the lease still owns. -/
theorem successChange_applies {c : LeasedCall} {lease : JobLease} {result : Dict} {row : JobRow} :
    (successChange c lease result).applies row = true ↔
      row.status = .processing ∧ row.leaseOwner = some c.workerId ∧
        row.leaseEpoch = lease.epoch := by
  simp [StatusChange.applies_iff, successChange, StatusChange.sources]

theorem completeTx_eq_none_iff {c : LeasedCall} {lease : JobLease} {result : Dict}
    {ids : CompletionIds} {db : Db} : completeTx c lease result ids db = .ok none ↔
      ∀ row, db.jobs c.event.jobId = some row →
        (successChange c lease result).applies row = false :=
  recordTx_eq_none_iff ⟨.processing, by simp [successChange, StatusChange.sources]⟩

end WorkerService

/-! ### Everything a step can do -/

namespace LeasedCall

/-- What a step of a call does to its phase and to the committed tables. -/
inductive Effect (source : String) (completeTx : CompleteTx) (c : LeasedCall) (db : Db)
    (a : LeasedAct) : LeasedPhase → Db → Prop
  /-- The claim is committed; the call goes on under the lease, or the commit raised. -/
  | claimed {now : Instant} {eventId : Uuid} {fate : TxFate} {row : JobRow}
      {phase' : LeasedPhase} (ha : a = .claim now eventId fate) (hp : c.phase = .claiming)
      (hrow : db.jobs c.event.jobId = some row) (hc : row.claimable now = true)
      (hphase : phase' = .processing (c.leaseOn row now) ∨ ∃ e, phase' = .raised e) :
      Effect source completeTx c db a phase' (c.claimedDb source row now eventId db)
  /-- The claim found no claimable row. -/
  | refused {now : Instant} {eventId : Uuid} {fate : TxFate}
      (ha : a = .claim now eventId fate) (hp : c.phase = .claiming)
      (hnone : ∀ row, db.jobs c.event.jobId = some row → row.claimable now = false) :
      Effect source completeTx c db a .claimMissed db
  /-- The job was read after a refused claim. -/
  | answered (hp : c.phase = .claimMissed) : Effect source completeTx c db a (c.readBack db) db
  /-- The processor ended. -/
  | processed {lease : JobLease} {outcome : Except String Dict}
      (hp : c.phase = .processing lease) :
      Effect source completeTx c db a (c.afterProcess lease outcome) db
  /-- The completion is committed; the call returns, or the commit raised. -/
  | completed {lease : JobLease} {result : Dict} {ids : CompletionIds} {db' : Db}
      {phase' : LeasedPhase} (hp : c.phase = .completing lease result)
      (htx : completeTx c lease result ids db = .ok (some ((), db')))
      (hphase : phase' = .returned true none ∨ ∃ e, phase' = .failing lease e) :
      Effect source completeTx c db a phase' db'
  /-- The completion was rolled back. -/
  | rolledBack {lease : JobLease} {result : Dict} {ids : CompletionIds}
      (hp : c.phase = .completing lease result)
      (htx : completeTx c lease result ids db = .ok none) :
      Effect source completeTx c db a (.returned true none) db
  /-- The completion raised before anything was committed. -/
  | notCompleted {lease : JobLease} {result : Dict} {e : String}
      (hp : c.phase = .completing lease result) :
      Effect source completeTx c db a (.failing lease e) db
  /-- The failure is committed; the call returns, or the commit raised. -/
  | failed {lease : JobLease} {error : String} {eventId : Uuid} {row : JobRow}
      {phase' : LeasedPhase} (hp : c.phase = .failing lease error)
      (hrow : db.jobs c.event.jobId = some row)
      (happ : (c.failureChange lease error).applies row = true)
      (hphase : phase' = .returned false (some error) ∨ ∃ e, phase' = .raised e) :
      Effect source completeTx c db a phase' (db.recorded c.event.jobId
        ((c.failureChange lease error).applyTo row) (c.failureEvent source error eventId))
  /-- The record of the failure was rolled back. -/
  | fencedOut {lease : JobLease} {error : String} (hp : c.phase = .failing lease error)
      (hnone : ∀ row, db.jobs c.event.jobId = some row →
        (c.failureChange lease error).applies row = false) :
      Effect source completeTx c db a (.returned false (some error)) db
  /-- A call outside the exception boundary raised without effect. -/
  | broke {e : String} (hp : c.phase = .claiming ∨ c.phase = .claimMissed ∨
      ∃ lease error, c.phase = .failing lease error) :
      Effect source completeTx c db a (.raised e) db

/-- Every step has one of these effects. -/
theorem effect_of_step {source : String} {completeTx : CompleteTx} {c c' : LeasedCall}
    {db db' : Db} {a : LeasedAct} (h : c.step source completeTx db a = some (c', db')) :
    ∃ phase', c' = { c with phase := phase' } ∧ Effect source completeTx c db a phase' db' := by
  obtain ⟨⟨phase', db₁⟩, hstep, heq⟩ := Option.map_eq_some_iff.mp h
  obtain ⟨rfl, rfl⟩ := Prod.mk.inj heq
  refine ⟨phase', rfl, ?_⟩
  cases hp : c.phase with
  | claiming =>
    cases a with
    | claim now eventId fate =>
      simp only [phaseStep, hp, Option.some.injEq] at hstep
      rcases fate.conclude_cases db (c.claimTx source now eventId db) LeasedPhase.claimMissed
        .processing .raised with ⟨e, he⟩ | ⟨hb, he⟩ | ⟨lease, db', hb, he⟩
      · obtain ⟨rfl, rfl⟩ := Prod.mk.inj (he.symm.trans hstep)
        exact .broke (.inl hp)
      · obtain ⟨rfl, rfl⟩ := Prod.mk.inj (he.symm.trans hstep)
        exact .refused rfl hp (claimTx_eq_none_iff.mp hb)
      · obtain ⟨row, hrow, hc, rfl, rfl⟩ := claimTx_eq_some_iff.mp hb
        rcases he with ⟨-, he⟩ | ⟨e, -, he⟩ <;>
          obtain ⟨rfl, rfl⟩ := Prod.mk.inj (he.symm.trans hstep)
        · exact .claimed rfl hp hrow hc (.inl rfl)
        · exact .claimed rfl hp hrow hc (.inr ⟨e, rfl⟩)
    | _ => simp [phaseStep, hp] at hstep
  | claimMissed =>
    cases a with
    | readBack failure =>
      cases failure <;> simp only [phaseStep, hp, Option.some.injEq, Prod.mk.injEq] at hstep <;>
        obtain ⟨rfl, rfl⟩ := hstep
      · exact .answered hp
      · exact .broke (.inr (.inl hp))
    | _ => simp [phaseStep, hp] at hstep
  | processing lease =>
    cases a with
    | process outcome =>
      simp only [phaseStep, hp, Option.some.injEq, Prod.mk.injEq] at hstep
      obtain ⟨rfl, rfl⟩ := hstep
      exact .processed hp
    | _ => simp [phaseStep, hp] at hstep
  | completing lease result =>
    cases a with
    | complete ids fate =>
      simp only [phaseStep, hp, Option.some.injEq] at hstep
      rcases fate.conclude_cases db (completeTx c lease result ids db)
        (LeasedPhase.returned true none) (fun _ => .returned true none) (.failing lease)
        with ⟨e, he⟩ | ⟨hb, he⟩ | ⟨_, db', hb, he⟩
      · obtain ⟨rfl, rfl⟩ := Prod.mk.inj (he.symm.trans hstep)
        exact .notCompleted hp
      · obtain ⟨rfl, rfl⟩ := Prod.mk.inj (he.symm.trans hstep)
        exact .rolledBack hp hb
      · rcases he with ⟨-, he⟩ | ⟨e, -, he⟩ <;>
          obtain ⟨rfl, rfl⟩ := Prod.mk.inj (he.symm.trans hstep)
        · exact .completed hp hb (.inl rfl)
        · exact .completed hp hb (.inr ⟨e, rfl⟩)
    | _ => simp [phaseStep, hp] at hstep
  | failing lease error =>
    cases a with
    | fail eventId fate =>
      simp only [phaseStep, hp, Option.some.injEq] at hstep
      rcases fate.conclude_cases db (c.failTx source lease error eventId db)
        (LeasedPhase.returned false (some error)) (fun _ => .returned false (some error)) .raised
        with ⟨e, he⟩ | ⟨hb, he⟩ | ⟨_, db', hb, he⟩
      · obtain ⟨rfl, rfl⟩ := Prod.mk.inj (he.symm.trans hstep)
        exact .broke (.inr (.inr ⟨lease, error, hp⟩))
      · obtain ⟨rfl, rfl⟩ := Prod.mk.inj (he.symm.trans hstep)
        exact .fencedOut hp (failTx_eq_none_iff.mp hb)
      · obtain ⟨row, hrow, happ, rfl⟩ := recordTx_eq_some_iff.mp hb
        rcases he with ⟨-, he⟩ | ⟨e, -, he⟩ <;>
          obtain ⟨rfl, rfl⟩ := Prod.mk.inj (he.symm.trans hstep)
        · exact .failed hp hrow happ (.inl rfl)
        · exact .failed hp hrow happ (.inr ⟨e, rfl⟩)
    | _ => simp [phaseStep, hp] at hstep
  | returned success error => cases a <;> simp [phaseStep, hp] at hstep
  | raised error => cases a <;> simp [phaseStep, hp] at hstep

end LeasedCall

end Morphflow
