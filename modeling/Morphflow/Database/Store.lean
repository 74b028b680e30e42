import Morphflow.Database.JobRepository

/-!
# The committed store

The database holds three tables: `jobs`, the log `job_events` and the outbox. The log is listed in
commit order. An outbox row is inserted as `PENDING` and never deleted.

The column `created_at` of the outbox is left out: no statement reads it.

## Main definitions

* `OutboxRow`, `addOutbox`.
* `Db`, `Db.eventsOf`.
* `recordTx`: a change of status and its event in one transaction.

## Main results

* `recordTx_eq_some_iff`, `recordTx_eq_none_iff`.
-/

namespace Morphflow

inductive OutboxStatus
  | pending
  | published
  deriving DecidableEq

/-- A row of `outbox_messages`: a message to be published. -/
structure OutboxRow where
  id : ℕ
  messageId : Uuid
  topic : String
  payload : Event
  headers : Option (List (String × String)) := none
  status : OutboxStatus := .pending
  attempts : ℕ := 0
  lastError : Option String := none
  publishedAt : Option Instant := none

/-- `SqlAlchemyOutboxRepository.add`: the row `id` is appended, waiting to be published. -/
def addOutbox (rows : List OutboxRow) (id : ℕ) (messageId : Uuid) (topic : String)
    (payload : Event) (headers : Option (List (String × String)) := none) : List OutboxRow :=
  rows ++ [{ id := id, messageId := messageId, topic := topic, payload := payload,
             headers := headers }]

/-- The committed tables. -/
structure Db where
  jobs : Jobs
  events : List Event
  outbox : List OutboxRow

namespace Db

/-- The tables before the first request. -/
def empty : Db := ⟨fun _ => none, [], []⟩

/-- The log of one job, in commit order. -/
def eventsOf (db : Db) (jobId : Uuid) : List Event :=
  db.events.filter fun e => e.jobId == jobId

theorem eventsOf_append {db db' : Db} {e : Event} (h : db'.events = db.events ++ [e])
    (jobId : Uuid) : db'.eventsOf jobId =
      if e.jobId = jobId then db.eventsOf jobId ++ [e] else db.eventsOf jobId := by
  by_cases he : e.jobId = jobId <;> simp [eventsOf, h, List.filter_append, he]

end Db

/-! ### What holds of a row and the log of its job -/

/-- The events of one type. -/
def eventsOfType (type : EventType) (events : List Event) : List Event :=
  events.filter fun e => e.eventType == type

theorem eventsOfType_append_of_eq {type : EventType} {e : Event} (h : e.eventType = type)
    (events : List Event) :
    eventsOfType type (events ++ [e]) = eventsOfType type events ++ [e] := by
  simp [eventsOfType, h]

theorem eventsOfType_append_of_ne {type : EventType} {e : Event} (h : e.eventType ≠ type)
    (events : List Event) : eventsOfType type (events ++ [e]) = eventsOfType type events := by
  simp [eventsOfType, h]

/-- `P` holds of the row of every job and of its log. -/
def Db.PerJob (P : Option JobRow → List Event → Prop) (db : Db) : Prop :=
  ∀ jobId, P (db.jobs jobId) (db.eventsOf jobId)

/-! ### A change of status and its event -/

/-- A conditional update and the event that tells of it in one transaction, rolled back when the
update changed no row. -/
def recordTx (db : Db) (jobId : Uuid) (change : StatusChange) (event : Event) :
    Except String (Option (Unit × Db)) :=
  match updateStatus db.jobs jobId change with
  | .error e => .error e
  | .ok none => .ok none
  | .ok (some (_, jobs)) =>
    .ok (some ((), { db with jobs := jobs, events := db.events ++ [event] }))

/-- The tables after a change of the row under the key and its event. -/
def Db.recorded (db : Db) (jobId : Uuid) (row : JobRow) (event : Event) : Db :=
  { db with jobs := db.jobs.set jobId row, events := db.events ++ [event] }

/-- The tables after one more event. -/
def Db.logged (db : Db) (event : Event) : Db :=
  { db with events := db.events ++ [event] }

section Recorded

variable {db db' : Db} {jobId : Uuid} {row : JobRow} {change : StatusChange} {event : Event}

@[simp] theorem Db.recorded_jobs :
    (db.recorded jobId row event).jobs = db.jobs.set jobId row := rfl

@[simp] theorem Db.recorded_events :
    (db.recorded jobId row event).events = db.events ++ [event] := rfl

@[simp] theorem Db.recorded_outbox : (db.recorded jobId row event).outbox = db.outbox := rfl

@[simp] theorem Db.logged_jobs : (db.logged event).jobs = db.jobs := rfl

@[simp] theorem Db.logged_events : (db.logged event).events = db.events ++ [event] := rfl

/-- A change of one row and its event keep `P` when they do for that job. -/
theorem Db.PerJob.recorded {P : Option JobRow → List Event → Prop} (h : db.PerJob P)
    (hjobs : db'.jobs = db.jobs.set jobId row) (hevents : db'.events = db.events ++ [event])
    (he : event.jobId = jobId)
    (hstep : P (db.jobs jobId) (db.eventsOf jobId) → P (some row) (db.eventsOf jobId ++ [event])) :
    db'.PerJob P := by
  intro k
  rw [Db.eventsOf_append hevents, he, hjobs]
  by_cases hk : k = jobId
  · subst hk
    rw [KeyedTable.set_self, if_pos rfl]
    exact hstep (h k)
  · rw [KeyedTable.set_of_ne _ _ hk, if_neg (Ne.symm hk)]
    exact h k

theorem Db.PerJob.logged {P : Option JobRow → List Event → Prop} (h : db.PerJob P)
    (hjobs : db'.jobs = db.jobs) (hevents : db'.events = db.events ++ [event])
    (hstep : P (db.jobs event.jobId) (db.eventsOf event.jobId) →
      P (db.jobs event.jobId) (db.eventsOf event.jobId ++ [event])) : db'.PerJob P := by
  intro k
  rw [Db.eventsOf_append hevents, hjobs]
  by_cases hk : event.jobId = k
  · subst hk
    rw [if_pos rfl]
    exact hstep (h event.jobId)
  · rw [if_neg hk]
    exact h k

/-- A recorded change found a row that meets its condition. -/
theorem recordTx_eq_some_iff : recordTx db jobId change event = .ok (some ((), db')) ↔
    ∃ row, db.jobs jobId = some row ∧ change.applies row = true ∧
      db' = db.recorded jobId (change.applyTo row) event := by
  unfold recordTx
  rcases h : updateStatus db.jobs jobId change with e | _ | ⟨job, jobs⟩
  · constructor
    · rintro ⟨⟩
    · rintro ⟨row, hrow, happ, -⟩
      have hsome := updateStatus_eq_some_iff.mpr ⟨row, hrow, happ, rfl, rfl⟩
      cases h.symm.trans hsome
  · obtain ⟨-, hnone⟩ := updateStatus_eq_none_iff.mp h
    constructor
    · rintro ⟨⟩
    · rintro ⟨row, hrow, happ, -⟩
      exact absurd (hnone row hrow) (by rw [happ]; decide)
  · obtain ⟨row, hrow, happ, -, rfl⟩ := updateStatus_eq_some_iff.mp h
    simp only [Except.ok.injEq, Option.some.injEq, Prod.mk.injEq, true_and]
    constructor
    · rintro rfl
      exact ⟨row, hrow, happ, rfl⟩
    · rintro ⟨row', hrow', -, rfl⟩
      obtain rfl : row = row' := Option.some.inj (hrow.symm.trans hrow')
      rfl

/-- A change rolled back found no row that meets its condition. -/
theorem recordTx_eq_none_iff (h : change.sources.Nonempty) :
    recordTx db jobId change event = .ok none ↔
      ∀ row, db.jobs jobId = some row → change.applies row = false := by
  have hiff : updateStatus db.jobs jobId change = .ok none ↔ _ := updateStatus_eq_none_iff
  simp only [h.ne_empty, ne_eq, not_false_eq_true, true_and] at hiff
  rw [← hiff]
  unfold recordTx
  rcases updateStatus db.jobs jobId change with e | _ | p <;> simp

end Recorded

end Morphflow
