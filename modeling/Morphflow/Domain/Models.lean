import Morphflow.Domain.Json

/-!
# Jobs, leases and events

The domain of the pipeline: the status of a job with the table of its allowed transitions, the
lease under which a worker processes a job, and the envelope of an event.

Identifiers drawn by `uuid4` are natural numbers; which number a call draws is a parameter of the
call. Points in time are microseconds, the resolution of `datetime`.

## Main definitions

* `JobStatus`, `allowedTransitions`, `allowedSourceStatuses`.
* `JobLease`, `Event`, `buildEvent`.
-/

namespace Morphflow

/-- An identifier drawn by `uuid4`. -/
abbrev Uuid := ℕ

/-- A point in time, in microseconds. -/
abbrev Instant := ℤ

/-- `timedelta(seconds=…)` in microseconds. -/
def timedelta (seconds : ℤ) : ℤ := seconds * 1000000

inductive JobStatus
  | pending
  | processing
  | success
  | failed
  deriving DecidableEq

/-- From which statuses a job may get to a status. `none` where the table has no row: nothing
leads to `pending`. -/
def allowedTransitions : JobStatus → Option (Finset JobStatus)
  | .processing => some {.pending, .failed, .processing}
  | .success => some {.processing}
  | .failed => some {.pending, .processing}
  | .pending => none

/-- The statuses from which a job may get to `target`. -/
def allowedSourceStatuses (target : JobStatus) : Finset JobStatus :=
  (allowedTransitions target).getD ∅

@[simp] theorem mem_allowedSourceStatuses_processing {s : JobStatus} :
    s ∈ allowedSourceStatuses .processing ↔ s ≠ .success := by
  cases s <;> decide

@[simp] theorem mem_allowedSourceStatuses_success {s : JobStatus} :
    s ∈ allowedSourceStatuses .success ↔ s = .processing := by
  cases s <;> decide

@[simp] theorem mem_allowedSourceStatuses_failed {s : JobStatus} :
    s ∈ allowedSourceStatuses .failed ↔ s = .pending ∨ s = .processing := by
  cases s <;> decide

theorem success_notMem_allowedSourceStatuses (target : JobStatus) :
    JobStatus.success ∉ allowedSourceStatuses target := by
  cases target <;> decide

/-- The ownership of a job by a worker; the epoch is the fencing token that is checked again when
the result is recorded. -/
structure JobLease where
  jobId : Uuid
  owner : String
  epoch : ℕ
  expiresAt : Option Instant

inductive EventType
  | requested
  | processingStarted
  | processingCompleted
  | inferenceCompleted
  | downstreamCompleted
  | failed
  deriving DecidableEq

/-- The envelope of an event. -/
structure Event where
  eventId : Uuid
  jobId : Uuid
  eventType : EventType
  traceId : Uuid
  source : String
  payload : Dict

/-- Every producer builds its envelopes with this function; `eventId` is the identifier drawn. -/
def buildEvent (eventId jobId : Uuid) (eventType : EventType) (source : String) (traceId : Uuid)
    (payload : Dict) : Event where
  eventId := eventId
  jobId := jobId
  eventType := eventType
  traceId := traceId
  source := source
  payload := payload

@[simp] theorem buildEvent_jobId (eventId jobId traceId : Uuid) (eventType : EventType)
    (source : String) (payload : Dict) :
    (buildEvent eventId jobId eventType source traceId payload).jobId = jobId := rfl

@[simp] theorem buildEvent_eventType (eventId jobId traceId : Uuid) (eventType : EventType)
    (source : String) (payload : Dict) :
    (buildEvent eventId jobId eventType source traceId payload).eventType = eventType := rfl

@[simp] theorem buildEvent_source (eventId jobId traceId : Uuid) (eventType : EventType)
    (source : String) (payload : Dict) :
    (buildEvent eventId jobId eventType source traceId payload).source = source := rfl

@[simp] theorem buildEvent_payload (eventId jobId traceId : Uuid) (eventType : EventType)
    (source : String) (payload : Dict) :
    (buildEvent eventId jobId eventType source traceId payload).payload = payload := rfl

end Morphflow
