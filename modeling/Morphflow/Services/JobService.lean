import Morphflow.Database.Store
import Morphflow.Foundation.Transaction

/-!
# The requests

`JobService.create_job` writes the row of the job, the first event of its log and the message to be
published in one transaction. The idempotency store is not modelled: a request that it recognises
writes nothing here.

The identifiers of the job and of the outbox row are primary keys, so the insertion raises when one
of them is taken.

## Main results

* `JobService.createJob_cases`: a request wrote nothing, or all three rows.
-/

namespace Morphflow

/-- The identifiers drawn by a request. -/
structure RequestIds where
  jobId : Uuid
  traceId : Uuid
  eventId : Uuid
  messageId : Uuid
  rowId : ℕ

namespace JobService

/-- The event that tells of a request; it is also the message to be published. -/
def requestEvent (ids : RequestIds) (payload : Dict) : Event :=
  buildEvent ids.eventId ids.jobId .requested "api" ids.traceId [("request", .obj payload)]

/-- The job of a request. -/
def newJob (ids : RequestIds) (payload : Dict) : Job where
  id := ids.jobId
  status := .pending
  requestPayload := payload

/-- The tables after a request. -/
def createdDb (topic : String) (ids : RequestIds) (payload : Dict) (db : Db) : Db where
  jobs := addJob db.jobs (newJob ids payload)
  events := db.events ++ [requestEvent ids payload]
  outbox := addOutbox db.outbox ids.rowId ids.messageId topic (requestEvent ids payload)

/-- The body of the transaction. -/
def createTx (topic : String) (ids : RequestIds) (payload : Dict) (db : Db) :
    Except String (Option (Unit × Db)) :=
  if (db.jobs ids.jobId).isNone ∧ ∀ row ∈ db.outbox, row.id ≠ ids.rowId then
    .ok (some ((), createdDb topic ids payload db))
  else .error "duplicate key value violates unique constraint"

/-- The committed store after `JobService.create_job`. -/
def createJob (topic : String) (ids : RequestIds) (payload : Dict) (fate : TxFate) (db : Db) :
    Db :=
  (fate.conclude db (createTx topic ids payload db) () id fun _ => ()).2

/-- A request wrote nothing, or all three rows under fresh keys. -/
theorem createJob_cases (topic : String) (ids : RequestIds) (payload : Dict) (fate : TxFate)
    (db : Db) : createJob topic ids payload fate db = db ∨
      (db.jobs ids.jobId = none ∧ (∀ row ∈ db.outbox, row.id ≠ ids.rowId) ∧
        createJob topic ids payload fate db = createdDb topic ids payload db) := by
  unfold createJob
  rcases fate.conclude_cases db (createTx topic ids payload db) () id fun _ => () with
    ⟨e, he⟩ | ⟨-, he⟩ | ⟨u, db', hb, he⟩
  · exact .inl (by rw [he])
  · exact .inl (by rw [he])
  · right
    unfold createTx at hb
    split_ifs at hb with hfresh
    obtain ⟨-, rfl⟩ := Prod.mk.inj (Option.some.inj (Except.ok.inj hb))
    refine ⟨Option.isNone_iff_eq_none.mp hfresh.1, hfresh.2, ?_⟩
    rcases he with ⟨-, he⟩ | ⟨e, -, he⟩ <;> rw [he]

section Created

variable (topic : String) (ids : RequestIds) (payload : Dict) (db : Db)

@[simp] theorem createdDb_jobs : (createdDb topic ids payload db).jobs =
    db.jobs.set ids.jobId (newJob ids payload).toRow := rfl

@[simp] theorem createdDb_events : (createdDb topic ids payload db).events =
    db.events ++ [requestEvent ids payload] := rfl

end Created

end JobService

end Morphflow
