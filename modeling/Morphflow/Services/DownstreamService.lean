import Morphflow.Database.Store
import Morphflow.Foundation.Transaction

/-!
# The downstream stage

`DownstreamPipelineService.handle_event` reads the job, processes the envelope left by the
inference stage and writes the outcome, without a lease. Its two writes go through the same
conditional update as the others, but neither looks at what the update returned: the event is
logged and committed whether or not a row changed.

As for the services under a lease, a call is a machine whose phase says what it awaits, and a
transaction is one step.

## Main definitions

* `DownstreamPhase`, `DownstreamCall`, `DownstreamAct`, `DownstreamCall.step`.
* `DownstreamCall.completeTx`, `DownstreamCall.failTx`.
* `DownstreamCall.Effect`.

## Main results

* `DownstreamCall.effect_of_step`: everything a step can do.
-/

namespace Morphflow

/-- What a call of `DownstreamPipelineService.handle_event` awaits. -/
inductive DownstreamPhase
  /-- The job is read next. -/
  | reading
  /-- The processor runs. -/
  | processing
  /-- The processor returned; the outcome is recorded next. -/
  | completing (result : Dict)
  /-- An exception was caught; the failure is recorded next. -/
  | failing (error : String)
  /-- The call returned a pair. -/
  | returned (success : Bool) (error : Option String)
  /-- The call raised. -/
  | raised (error : String)

/-- A call of `DownstreamPipelineService.handle_event`. -/
structure DownstreamCall where
  event : Event
  phase : DownstreamPhase

/-- The steps of a call. -/
inductive DownstreamAct
  | read (failure : Option String)
  | process (outcome : Except String Dict)
  | complete (eventId : Uuid) (fate : TxFate)
  | fail (eventId : Uuid) (fate : TxFate)

namespace DownstreamCall

/-- An unfenced change of status, its result unused, and an event in one transaction. -/
def writeTx (db : Db) (jobId : Uuid) (change : StatusChange) (event : Event) :
    Except String (Option (Unit × Db)) :=
  match updateStatus db.jobs jobId change with
  | .error e => .error e
  | .ok none => .ok (some ((), db.logged event))
  | .ok (some (_, jobs)) =>
    .ok (some ((), { db with jobs := jobs, events := db.events ++ [event] }))

/-- The result stored for a job. -/
def jobResult (c : DownstreamCall) (result : Dict) : Dict :=
  [("inference", c.event.payload.getOrNull "inference_result"), ("downstream", .obj result)]

/-- The update that records a result. -/
def successChange (c : DownstreamCall) (result : Dict) : StatusChange where
  status := .success
  result := some (c.jobResult result)
  clearError := true

/-- The event that tells of a result. -/
def completionEvent (c : DownstreamCall) (result : Dict) (eventId : Uuid) : Event :=
  buildEvent eventId c.event.jobId .downstreamCompleted "downstream-worker" c.event.traceId
    [("result", .obj result)]

/-- The transaction that completes the job. -/
def completeTx (c : DownstreamCall) (result : Dict) (eventId : Uuid) (db : Db) :
    Except String (Option (Unit × Db)) :=
  writeTx db c.event.jobId (c.successChange result) (c.completionEvent result eventId)

/-- The update that records a failure. -/
def failureChange (error : String) : StatusChange where
  status := .failed
  error := some error

/-- The event that tells of a failure. -/
def failureEvent (c : DownstreamCall) (error : String) (eventId : Uuid) : Event :=
  buildEvent eventId c.event.jobId .failed "downstream-worker" c.event.traceId
    [("error", .str error)]

/-- The last transaction after an exception. -/
def failTx (c : DownstreamCall) (error : String) (eventId : Uuid) (db : Db) :
    Except String (Option (Unit × Db)) :=
  writeTx db c.event.jobId (failureChange error) (c.failureEvent error eventId)

/-- The continuation after the job was read; an unknown job raises. -/
def afterRead (c : DownstreamCall) (db : Db) : DownstreamPhase :=
  match getJob db.jobs c.event.jobId with
  | none => .failing s!"Job not found for downstream event: {c.event.jobId}"
  | some job => if job.status = .success then .returned true none else .processing

/-- A step of `handle_event` from the current phase. -/
def phaseStep (c : DownstreamCall) (db : Db) (a : DownstreamAct) : Option (DownstreamPhase × Db) :=
  match c.phase, a with
  | .reading, .read none => some (c.afterRead db, db)
  | .reading, .read (some e) => some (.failing e, db)
  | .processing, .process (.ok result) => some (.completing result, db)
  | .processing, .process (.error e) => some (.failing e, db)
  | .completing result, .complete eventId fate =>
    some (fate.conclude db (c.completeTx result eventId db) (.returned true none)
      (fun _ => .returned true none) .failing)
  | .failing error, .fail eventId fate =>
    some (fate.conclude db (c.failTx error eventId db) (.returned false (some error))
      (fun _ => .returned false (some error)) .raised)
  | _, _ => none

/-- A step of `DownstreamPipelineService.handle_event`. -/
def step (c : DownstreamCall) (db : Db) (a : DownstreamAct) : Option (DownstreamCall × Db) :=
  (c.phaseStep db a).map fun p => ({ c with phase := p.1 }, p.2)

/-! ### What the transactions commit -/

theorem successChange_sources (c : DownstreamCall) (result : Dict) :
    (c.successChange result).sources.Nonempty :=
  ⟨.processing, by simp [successChange, StatusChange.sources]⟩

theorem failureChange_sources (error : String) : (failureChange error).sources.Nonempty :=
  ⟨.processing, by simp [failureChange, StatusChange.sources]⟩

/-- A write commits the event; the status changes with it when the row meets the condition. -/
theorem writeTx_eq_some (db : Db) (jobId : Uuid) {change : StatusChange} (event : Event)
    (h : change.sources.Nonempty) :
    (∃ row, db.jobs jobId = some row ∧ change.applies row = true ∧
      writeTx db jobId change event =
        .ok (some ((), db.recorded jobId (change.applyTo row) event))) ∨
    ((∀ row, db.jobs jobId = some row → change.applies row = false) ∧
      writeTx db jobId change event = .ok (some ((), db.logged event))) := by
  unfold writeTx
  rcases hupd : updateStatus db.jobs jobId change with e | _ | ⟨job, jobs⟩
  · exact absurd hupd (updateStatus_ne_error h)
  · exact .inr ⟨(updateStatus_eq_none_iff.mp hupd).2, rfl⟩
  · obtain ⟨row, hrow, happ, -, rfl⟩ := updateStatus_eq_some_iff.mp hupd
    exact .inl ⟨row, hrow, happ, rfl⟩

theorem successChange_applies {c : DownstreamCall} {result : Dict} {row : JobRow} :
    (c.successChange result).applies row = true ↔ row.status = .processing := by
  simp [StatusChange.applies_iff, successChange, StatusChange.sources]

theorem failureChange_applies {error : String} {row : JobRow} :
    (failureChange error).applies row = true ↔
      row.status = .pending ∨ row.status = .processing := by
  simp [StatusChange.applies_iff, failureChange, StatusChange.sources]

/-! ### Everything a step can do -/

/-- What a step of a call does to its phase and to the committed tables. -/
inductive Effect (c : DownstreamCall) (db : Db) (a : DownstreamAct) : DownstreamPhase → Db → Prop
  /-- The job is finished already. -/
  | acknowledged {row : JobRow} (hp : c.phase = .reading)
      (hrow : db.jobs c.event.jobId = some row) (hs : row.status = .success) :
      Effect c db a (.returned true none) db
  /-- The job is to be processed. -/
  | started {row : JobRow} (hp : c.phase = .reading)
      (hrow : db.jobs c.event.jobId = some row) (hs : row.status ≠ .success) :
      Effect c db a .processing db
  /-- The processor returned. -/
  | processed {result : Dict} (hp : c.phase = .processing) :
      Effect c db a (.completing result) db
  /-- Something raised before anything was committed: the read, the processor, or the
  completion. -/
  | interrupted {e : String} (hp : c.phase = .reading ∨ c.phase = .processing ∨
      ∃ result, c.phase = .completing result) : Effect c db a (.failing e) db
  /-- The completion is committed and changed the row; the call returns, or the commit raised. -/
  | completed {result : Dict} {eventId : Uuid} {fate : TxFate} {row : JobRow}
      {phase' : DownstreamPhase} (ha : a = .complete eventId fate)
      (hf : fate.takesEffect = true) (hp : c.phase = .completing result)
      (hrow : db.jobs c.event.jobId = some row) (hs : row.status = .processing)
      (hphase : (fate = .commits ∧ phase' = .returned true none) ∨ ∃ e, phase' = .failing e) :
      Effect c db a phase' (db.recorded c.event.jobId ((c.successChange result).applyTo row)
        (c.completionEvent result eventId))
  /-- The completion is committed and changed no row. -/
  | completedLate {result : Dict} {eventId : Uuid} {fate : TxFate} {phase' : DownstreamPhase}
      (ha : a = .complete eventId fate) (hf : fate.takesEffect = true)
      (hp : c.phase = .completing result)
      (hnone : ∀ row, db.jobs c.event.jobId = some row → row.status ≠ .processing)
      (hphase : (fate = .commits ∧ phase' = .returned true none) ∨ ∃ e, phase' = .failing e) :
      Effect c db a phase' (db.logged (c.completionEvent result eventId))
  /-- The failure is committed and changed the row; the call returns, or the commit raised. -/
  | failed {error : String} {eventId : Uuid} {fate : TxFate} {row : JobRow}
      {phase' : DownstreamPhase} (ha : a = .fail eventId fate)
      (hf : fate.takesEffect = true) (hp : c.phase = .failing error)
      (hrow : db.jobs c.event.jobId = some row)
      (hs : row.status = .pending ∨ row.status = .processing)
      (hphase : (fate = .commits ∧ phase' = .returned false (some error)) ∨
        ∃ e, phase' = .raised e) :
      Effect c db a phase' (db.recorded c.event.jobId ((failureChange error).applyTo row)
        (c.failureEvent error eventId))
  /-- The failure is committed and changed no row. -/
  | failedLate {error : String} {eventId : Uuid} {fate : TxFate} {phase' : DownstreamPhase}
      (ha : a = .fail eventId fate)
      (hf : fate.takesEffect = true) (hp : c.phase = .failing error)
      (hnone : ∀ row, db.jobs c.event.jobId = some row →
        ¬(row.status = .pending ∨ row.status = .processing))
      (hphase : (fate = .commits ∧ phase' = .returned false (some error)) ∨
        ∃ e, phase' = .raised e) :
      Effect c db a phase' (db.logged (c.failureEvent error eventId))
  /-- The record of the failure raised without effect. -/
  | broke {e : String} {error : String} (hp : c.phase = .failing error) :
      Effect c db a (.raised e) db

/-- The caller of a write handles an exception without effect, or the event is committed, with the
change of status when the row met the condition. -/
private theorem conclude_writeTx {fate : TxFate} {db db' : Db} {jobId : Uuid}
    {change : StatusChange} {event : Event} {onRollback phase phase' : DownstreamPhase}
    {onRaise : String → DownstreamPhase} (hsources : change.sources.Nonempty)
    (h : fate.conclude db (writeTx db jobId change event) onRollback (fun _ => phase) onRaise =
      (phase', db')) :
    (∃ e, phase' = onRaise e ∧ db' = db) ∨
    (fate.takesEffect = true ∧ ((fate = .commits ∧ phase' = phase) ∨ ∃ e, phase' = onRaise e) ∧
      ((∃ row, db.jobs jobId = some row ∧ change.applies row = true ∧
          db' = db.recorded jobId (change.applyTo row) event) ∨
        ((∀ row, db.jobs jobId = some row → change.applies row = false) ∧
          db' = db.logged event))) := by
  have hwrite := writeTx_eq_some db jobId event hsources
  rcases fate.conclude_cases db (writeTx db jobId change event) onRollback (fun _ => phase) onRaise
    with ⟨e, he⟩ | ⟨hb, -⟩ | ⟨⟨⟩, db₁, hb, he⟩
  · obtain ⟨rfl, rfl⟩ := Prod.mk.inj (he.symm.trans h)
    exact .inl ⟨e, rfl, rfl⟩
  · rcases hwrite with ⟨row, -, -, htx⟩ | ⟨-, htx⟩ <;> cases hb.symm.trans htx
  · refine .inr ⟨?_, ?_, ?_⟩
    · rcases he with ⟨rfl, -⟩ | ⟨e, rfl, -⟩ <;> rfl
    · rcases he with ⟨hf, he⟩ | ⟨e, -, he⟩
      · exact .inl ⟨hf, (Prod.mk.inj (he.symm.trans h)).1.symm⟩
      · exact .inr ⟨e, (Prod.mk.inj (he.symm.trans h)).1.symm⟩
    · have hdb : db₁ = db' := by
        rcases he with ⟨-, he⟩ | ⟨e, -, he⟩ <;> exact (Prod.mk.inj (he.symm.trans h)).2
      subst hdb
      rcases hwrite with ⟨row, hrow, happ, htx⟩ | ⟨hnone, htx⟩
      · obtain rfl := (Prod.mk.inj (Option.some.inj (Except.ok.inj (hb.symm.trans htx)))).2
        exact .inl ⟨row, hrow, happ, rfl⟩
      · obtain rfl := (Prod.mk.inj (Option.some.inj (Except.ok.inj (hb.symm.trans htx)))).2
        exact .inr ⟨hnone, rfl⟩

/-- Every step has one of these effects. -/
theorem effect_of_step {c c' : DownstreamCall} {db db' : Db} {a : DownstreamAct}
    (h : c.step db a = some (c', db')) :
    ∃ phase', c' = { c with phase := phase' } ∧ Effect c db a phase' db' := by
  obtain ⟨⟨phase', db₁⟩, hstep, heq⟩ := Option.map_eq_some_iff.mp h
  obtain ⟨rfl, rfl⟩ := Prod.mk.inj heq
  refine ⟨phase', rfl, ?_⟩
  cases hp : c.phase with
  | reading =>
    cases a with
    | read failure =>
      cases failure with
      | none =>
        simp only [phaseStep, hp, Option.some.injEq, Prod.mk.injEq] at hstep
        obtain ⟨rfl, rfl⟩ := hstep
        cases hjob : getJob db.jobs c.event.jobId with
        | none =>
          rw [afterRead, hjob]
          exact .interrupted (.inl hp)
        | some job =>
          obtain ⟨row, hrow, rfl⟩ := getJob_eq_some_iff.mp hjob
          by_cases hs : row.status = .success
          · rw [show c.afterRead db = .returned true none by simp [afterRead, hjob, hs]]
            exact .acknowledged hp hrow hs
          · rw [show c.afterRead db = .processing by simp [afterRead, hjob, hs]]
            exact .started hp hrow hs
      | some e =>
        simp only [phaseStep, hp, Option.some.injEq, Prod.mk.injEq] at hstep
        obtain ⟨rfl, rfl⟩ := hstep
        exact .interrupted (.inl hp)
    | _ => simp [phaseStep, hp] at hstep
  | processing =>
    cases a with
    | process outcome =>
      cases outcome <;> simp only [phaseStep, hp, Option.some.injEq, Prod.mk.injEq] at hstep <;>
        obtain ⟨rfl, rfl⟩ := hstep
      · exact .interrupted (.inr (.inl hp))
      · exact .processed hp
    | _ => simp [phaseStep, hp] at hstep
  | completing result =>
    cases a with
    | complete eventId fate =>
      simp only [phaseStep, hp, Option.some.injEq] at hstep
      rcases conclude_writeTx (c.successChange_sources result) hstep with ⟨e, rfl, rfl⟩ |
        ⟨hf, hphase, ⟨row, hrow, happ, rfl⟩ | ⟨hnone, rfl⟩⟩
      · exact .interrupted (.inr (.inr ⟨result, hp⟩))
      · exact .completed rfl hf hp hrow (successChange_applies.mp happ) hphase
      · refine .completedLate rfl hf hp (fun row hrow hs => ?_) hphase
        exact absurd (successChange_applies.mpr hs) (by rw [hnone row hrow]; decide)
    | _ => simp [phaseStep, hp] at hstep
  | failing error =>
    cases a with
    | fail eventId fate =>
      simp only [phaseStep, hp, Option.some.injEq] at hstep
      rcases conclude_writeTx (failureChange_sources error) hstep with ⟨e, rfl, rfl⟩ |
        ⟨hf, hphase, ⟨row, hrow, happ, rfl⟩ | ⟨hnone, rfl⟩⟩
      · exact .broke hp
      · exact .failed rfl hf hp hrow (failureChange_applies.mp happ) hphase
      · refine .failedLate rfl hf hp (fun row hrow hs => ?_) hphase
        exact absurd (failureChange_applies.mpr hs) (by rw [hnone row hrow]; decide)
    | _ => simp [phaseStep, hp] at hstep
  | returned success error => cases a <;> simp [phaseStep, hp] at hstep
  | raised error => cases a <;> simp [phaseStep, hp] at hstep

/-- A failure whose record takes effect moves a waiting or processed job into `FAILED`. -/
theorem step_fail {c : DownstreamCall} {db : Db} {error : String} {fate : TxFate} {row : JobRow}
    (eventId : Uuid) (hp : c.phase = .failing error) (hf : fate.takesEffect = true)
    (hrow : db.jobs c.event.jobId = some row)
    (hs : row.status = .pending ∨ row.status = .processing) :
    ∃ phase', c.step db (.fail eventId fate) = some ({ c with phase := phase' },
      db.recorded c.event.jobId ((failureChange error).applyTo row)
        (c.failureEvent error eventId)) := by
  rcases writeTx_eq_some db c.event.jobId (c.failureEvent error eventId)
    (failureChange_sources error) with ⟨row', hrow', -, htx⟩ | ⟨hnone, -⟩
  · obtain rfl : row = row' := Option.some.inj (hrow.symm.trans hrow')
    obtain ⟨phase', hconclude⟩ := TxFate.conclude_of_takesEffect db hf htx
      (DownstreamPhase.returned false (some error)) (fun _ => .returned false (some error)) .raised
    refine ⟨phase', ?_⟩
    simp only [step, phaseStep, hp, failTx, hconclude, Option.map_some]
  · exact absurd (failureChange_applies.mpr hs) (by rw [hnone row hrow]; decide)

/-- A failure whose record takes effect is told, also when it changes no row. -/
theorem step_failLate {c : DownstreamCall} {db : Db} {error : String} {fate : TxFate}
    (eventId : Uuid) (hp : c.phase = .failing error) (hf : fate.takesEffect = true)
    (hnone : ∀ row, db.jobs c.event.jobId = some row →
      ¬(row.status = .pending ∨ row.status = .processing)) :
    ∃ phase', c.step db (.fail eventId fate) = some ({ c with phase := phase' },
      db.logged (c.failureEvent error eventId)) := by
  rcases writeTx_eq_some db c.event.jobId (c.failureEvent error eventId)
    (failureChange_sources error) with ⟨row, hrow, happ, -⟩ | ⟨-, htx⟩
  · exact absurd (failureChange_applies.mp happ) (hnone row hrow)
  · obtain ⟨phase', hconclude⟩ := TxFate.conclude_of_takesEffect db hf htx
      (DownstreamPhase.returned false (some error)) (fun _ => .returned false (some error)) .raised
    refine ⟨phase', ?_⟩
    simp only [step, phaseStep, hp, failTx, hconclude, Option.map_some]

/-- A completion whose transaction takes effect is told, also when it changes no row. -/
theorem step_completeLate {c : DownstreamCall} {db : Db} {result : Dict} {fate : TxFate}
    (eventId : Uuid) (hp : c.phase = .completing result) (hf : fate.takesEffect = true)
    (hnone : ∀ row, db.jobs c.event.jobId = some row → row.status ≠ .processing) :
    ∃ phase', c.step db (.complete eventId fate) = some ({ c with phase := phase' },
      db.logged (c.completionEvent result eventId)) := by
  rcases writeTx_eq_some db c.event.jobId (c.completionEvent result eventId)
    (c.successChange_sources result) with ⟨row, hrow, happ, -⟩ | ⟨-, htx⟩
  · exact absurd (successChange_applies.mp happ) (hnone row hrow)
  · obtain ⟨phase', hconclude⟩ := TxFate.conclude_of_takesEffect db hf htx
      (DownstreamPhase.returned true none) (fun _ => .returned true none) .failing
    refine ⟨phase', ?_⟩
    simp only [step, phaseStep, hp, completeTx, hconclude, Option.map_some]

end DownstreamCall

end Morphflow
