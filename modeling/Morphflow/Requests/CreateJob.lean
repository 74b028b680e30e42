import Morphflow.Requests.IdempotencyStore
import Morphflow.Services.JobService

/-!
# A request with its key

`JobService.create_job` reads the record of its key, reserves the key, writes the job in one
transaction and marks the key as completed: four calls to two stores, each of which may raise
before or after it took effect. A request whose key has a record loads the job that the record
names instead.

A call is a machine whose phase says what it awaits. All identifiers are drawn when it begins.

## Main definitions

* `RequestPhase`, `RequestCall`, `RequestSettings`, `RequestCall.step`, `RequestCall.Effect`.

## Main results

* `RequestCall.effect_of_step`: everything a step can do.
-/

namespace Morphflow

/-- What a call of `create_job` awaits. -/
inductive RequestPhase
  /-- The record of the key is read. -/
  | checking
  /-- The job a record names is read. -/
  | loading (jobId : Uuid)
  /-- The key is to be reserved. -/
  | reserving
  /-- The reservation was refused; the record is read again. -/
  | rechecking
  /-- The key is reserved; the job is written next. -/
  | committing
  /-- The job is written; the key is marked as completed next. -/
  | completing
  /-- The call returned a job. -/
  | returned (job : Job)
  /-- The call raised. -/
  | raised (error : String)
  /-- The process of the call died. -/
  | crashed

/-- A call of `create_job`. -/
structure RequestCall where
  idempotencyKey : Option String
  /-- The key drawn for a request without one. -/
  drawnKey : String
  payload : Dict
  ids : RequestIds
  phase : RequestPhase

/-- What `JobService` is built with. -/
structure RequestSettings where
  store : RedisIdempotencyStore
  topic : String

namespace RequestPhase

/-- The call awaits nothing any more. -/
def ended : RequestPhase → Bool
  | .returned _ => true
  | .raised _ => true
  | .crashed => true
  | _ => false

end RequestPhase

namespace RequestCall

/-- `idempotency_key or str(uuid4())`. -/
def requestKey (c : RequestCall) : String :=
  match c.idempotencyKey with
  | some key => if key = "" then c.drawnKey else key
  | none => c.drawnKey

/-- The exception when a record names a job that is not there. -/
def notFound (c : RequestCall) : String :=
  "Idempotent job not found for key " ++ c.requestKey

/-- The continuation after the record was read: its job is loaded, if it names one. -/
def afterRecord (c : RequestCall) (redis : Redis) (now : Instant) (otherwise : RequestPhase) :
    RequestPhase :=
  match RedisIdempotencyStore.recordedJob? redis now c.requestKey with
  | some jobId => .loading jobId
  | none => otherwise

/-- The continuation after the job of a record was read. -/
def afterLoad (c : RequestCall) (db : Db) (jobId : Uuid) : RequestPhase :=
  match getJob db.jobs jobId with
  | some job => .returned job
  | none => .raised c.notFound

/-- A step of `create_job` at the time `now` and under the given fate: what the call awaits next,
and the two stores. -/
def step (cfg : RequestSettings) (now : Instant) (fate : TxFate) (c : RequestCall) (redis : Redis)
    (db : Db) : Option (RequestPhase × Redis × Db) :=
  match c.phase with
  | .checking => some (fate.read (c.afterRecord redis now .reserving) .raised, redis, db)
  | .loading jobId => some (fate.read (c.afterLoad db jobId) .raised, redis, db)
  | .reserving =>
    let p := fate.conclude redis
      (cfg.store.reserveRequest redis now c.requestKey c.ids.jobId) .rechecking
      (fun granted => if granted then .committing else .rechecking) .raised
    some (p.1, p.2, db)
  | .rechecking =>
    some (fate.read (c.afterRecord redis now (.raised "Unable to reserve idempotency key")) .raised,
      redis, db)
  | .committing =>
    let p := fate.conclude db (JobService.createTx cfg.topic c.ids c.payload db) .completing
      (fun _ => .completing) .raised
    some (p.1, redis, p.2)
  | .completing =>
    let job := JobService.newJob c.ids c.payload
    let p := fate.conclude redis
      (cfg.store.completeRequest redis now c.requestKey c.ids.jobId) (.returned job)
      (fun _ => .returned job) .raised
    some (p.1, p.2, db)
  | .returned _ => none
  | .raised _ => none
  | .crashed => none

/-! ### Everything a step can do -/

/-- A call to a store took effect: the caller goes on to `phase`, or it raises all the same. -/
def GoesOn (fate : TxFate) (phase phase' : RequestPhase) : Prop :=
  (fate = .commits ∧ phase' = phase) ∨ ∃ e, fate = .raisesAfter e ∧ phase' = .raised e

/-- What a step does to the phase of a call and to the two stores. -/
inductive Effect (cfg : RequestSettings) (now : Instant) (c : RequestCall) (redis : Redis)
    (db : Db) : TxFate → RequestPhase → Redis → Db → Prop
  /-- The call to the store raised and had no effect. -/
  | failed {fate : TxFate} {e : String} (hp : c.phase.ended = false) (hf : fate ≠ .commits)
      (hcommit : c.phase = .committing → fate.takesEffect = false) :
      Effect cfg now c redis db fate (.raised e) redis db
  /-- The store refused the arguments. -/
  | rejected {fate : TxFate} {e : String}
      (hp : (c.phase = .reserving ∧ ¬ 0 < cfg.store.processingTtlSeconds) ∨
        (c.phase = .completing ∧ ¬ 0 < cfg.store.ttlSeconds) ∨
        (c.phase = .committing ∧ ¬ (db.jobs c.ids.jobId = none ∧
          ∀ row ∈ db.outbox, row.id ≠ c.ids.rowId))) :
      Effect cfg now c redis db fate (.raised e) redis db
  /-- A record names a job. -/
  | found {jobId : Uuid} (hp : c.phase = .checking ∨ c.phase = .rechecking)
      (hj : RedisIdempotencyStore.recordedJob? redis now c.requestKey = some jobId) :
      Effect cfg now c redis db .commits (.loading jobId) redis db
  /-- No record names a job. -/
  | absent (hp : c.phase = .checking)
      (hj : RedisIdempotencyStore.recordedJob? redis now c.requestKey = none) :
      Effect cfg now c redis db .commits .reserving redis db
  /-- No record names a job though the reservation was refused. -/
  | unreservable {e : String} (hp : c.phase = .rechecking)
      (hj : RedisIdempotencyStore.recordedJob? redis now c.requestKey = none) :
      Effect cfg now c redis db .commits (.raised e) redis db
  /-- The job of the record was read. -/
  | loaded {jobId : Uuid} {row : JobRow} (hp : c.phase = .loading jobId)
      (hrow : db.jobs jobId = some row) :
      Effect cfg now c redis db .commits (.returned (row.toJob jobId)) redis db
  /-- The job of the record is not there. -/
  | missing {jobId : Uuid} (hp : c.phase = .loading jobId) (hrow : db.jobs jobId = none) :
      Effect cfg now c redis db .commits (.raised c.notFound) redis db
  /-- The key was reserved. -/
  | granted {fate : TxFate} {phase' : RequestPhase} (hp : c.phase = .reserving)
      (hpos : 0 < cfg.store.processingTtlSeconds)
      (hnone : RedisIdempotencyStore.getRequestRecord redis now c.requestKey = none)
      (hphase : GoesOn fate .committing phase') :
      Effect cfg now c redis db fate phase'
        (cfg.store.reserved redis now c.requestKey c.ids.jobId) db
  /-- The reservation was refused. -/
  | refused (hp : c.phase = .reserving)
      (hsome : RedisIdempotencyStore.getRequestRecord redis now c.requestKey ≠ none) :
      Effect cfg now c redis db .commits .rechecking redis db
  /-- The job was written. -/
  | committed {fate : TxFate} {phase' : RequestPhase} (hp : c.phase = .committing)
      (hjob : db.jobs c.ids.jobId = none) (hrow : ∀ row ∈ db.outbox, row.id ≠ c.ids.rowId)
      (hphase : GoesOn fate .completing phase') :
      Effect cfg now c redis db fate phase' redis
        (JobService.createdDb cfg.topic c.ids c.payload db)
  /-- The key was marked as completed. -/
  | completed {fate : TxFate} {phase' : RequestPhase} (hp : c.phase = .completing)
      (hpos : 0 < cfg.store.ttlSeconds)
      (hphase : GoesOn fate (.returned (JobService.newJob c.ids c.payload)) phase') :
      Effect cfg now c redis db fate phase'
        (cfg.store.completed redis now c.requestKey c.ids.jobId) db

variable {cfg : RequestSettings} {now : Instant} {fate : TxFate} {c : RequestCall}
  {redis redis' : Redis} {db db' : Db} {phase' : RequestPhase}

theorem step_eq_none_iff : c.step cfg now fate redis db = none ↔ c.phase.ended = true := by
  cases hp : c.phase <;> simp [step, hp, RequestPhase.ended]

theorem effect_read {value phase : RequestPhase} (hp : c.phase = phase)
    (hopen : phase.ended = false) (hne : phase ≠ .committing)
    (h : Effect cfg now c redis db .commits value redis db) :
    Effect cfg now c redis db fate (fate.read value .raised) redis db := by
  have hfail : ∀ {fate : TxFate} {e : String}, fate ≠ .commits →
      Effect cfg now c redis db fate (.raised e) redis db := fun hf =>
    .failed (by rw [hp]; exact hopen) hf fun hc => absurd (hp.symm.trans hc) hne
  cases fate with
  | commits => exact h
  | raisesBefore e => exact hfail (by simp)
  | raisesAfter e => exact hfail (by simp)

/-- Every step has one of these effects. -/
theorem effect_of_step (h : c.step cfg now fate redis db = some (phase', redis', db')) :
    Effect cfg now c redis db fate phase' redis' db' := by
  cases hp : c.phase with
  | checking =>
    simp only [step, hp, Option.some.injEq, Prod.mk.injEq] at h
    obtain ⟨rfl, rfl, rfl⟩ := h
    refine effect_read hp rfl (by simp) ?_
    unfold afterRecord
    split
    · next j hj => exact .found (.inl hp) hj
    · next hj => exact .absent hp hj
  | loading jobId =>
    simp only [step, hp, Option.some.injEq, Prod.mk.injEq] at h
    obtain ⟨rfl, rfl, rfl⟩ := h
    refine effect_read hp rfl (by simp) ?_
    unfold afterLoad
    cases hrow : db.jobs jobId with
    | none =>
      rw [getJob_eq_none_iff.mpr hrow]
      exact .missing hp hrow
    | some row =>
      rw [getJob_eq_some_iff.mpr ⟨row, hrow, rfl⟩]
      exact .loaded hp hrow
  | reserving =>
    simp only [step, hp, Option.some.injEq, Prod.mk.injEq] at h
    obtain ⟨rfl, rfl, rfl⟩ := h
    by_cases hpos : 0 < cfg.store.processingTtlSeconds
    · by_cases hrec : RedisIdempotencyStore.getRequestRecord redis now c.requestKey = none
      · rw [RedisIdempotencyStore.reserveRequest_granted_iff.mpr ⟨hpos, hrec, rfl⟩]
        cases fate with
        | commits => exact .granted hp hpos hrec (.inl ⟨rfl, rfl⟩)
        | raisesBefore e => exact .failed (by rw [hp]; rfl) (by simp) fun _ => rfl
        | raisesAfter e => exact .granted hp hpos hrec (.inr ⟨e, rfl, rfl⟩)
      · rw [RedisIdempotencyStore.reserveRequest_refused_iff.mpr ⟨hpos, hrec, rfl⟩]
        cases fate with
        | commits => exact .refused hp hrec
        | raisesBefore e => exact .failed (by rw [hp]; rfl) (by simp) fun _ => rfl
        | raisesAfter e => exact .failed (by rw [hp]; rfl) (by simp) (by simp [hp])
    · obtain ⟨e, he⟩ := fate.conclude_error redis RedisIdempotencyStore.invalidExpire
        RequestPhase.rechecking
        (fun granted : Bool => if granted then .committing else .rechecking) .raised
      rw [RedisIdempotencyStore.reserveRequest, if_neg hpos, he]
      exact .rejected (.inl ⟨hp, hpos⟩)
  | rechecking =>
    simp only [step, hp, Option.some.injEq, Prod.mk.injEq] at h
    obtain ⟨rfl, rfl, rfl⟩ := h
    refine effect_read hp rfl (by simp) ?_
    unfold afterRecord
    split
    · next j hj => exact .found (.inr hp) hj
    · next hj => exact .unreservable hp hj
  | committing =>
    simp only [step, hp, Option.some.injEq, Prod.mk.injEq] at h
    obtain ⟨rfl, rfl, rfl⟩ := h
    by_cases hfresh : db.jobs c.ids.jobId = none ∧ ∀ row ∈ db.outbox, row.id ≠ c.ids.rowId
    · rw [JobService.createTx, if_pos ⟨by rw [hfresh.1]; rfl, hfresh.2⟩]
      cases fate with
      | commits => exact .committed hp hfresh.1 hfresh.2 (.inl ⟨rfl, rfl⟩)
      | raisesBefore e => exact .failed (by rw [hp]; rfl) (by simp) fun _ => rfl
      | raisesAfter e => exact .committed hp hfresh.1 hfresh.2 (.inr ⟨e, rfl, rfl⟩)
    · obtain ⟨e, he⟩ := fate.conclude_error db
        "duplicate key value violates unique constraint" RequestPhase.completing
        (fun _ : Unit => .completing) .raised
      rw [JobService.createTx, if_neg (by rwa [Option.isNone_iff_eq_none]), he]
      exact .rejected (.inr (.inr ⟨hp, hfresh⟩))
  | completing =>
    simp only [step, hp, Option.some.injEq, Prod.mk.injEq] at h
    obtain ⟨rfl, rfl, rfl⟩ := h
    by_cases hpos : 0 < cfg.store.ttlSeconds
    · rw [RedisIdempotencyStore.completeRequest, if_pos hpos]
      cases fate with
      | commits => exact .completed hp hpos (.inl ⟨rfl, rfl⟩)
      | raisesBefore e => exact .failed (by rw [hp]; rfl) (by simp) fun _ => rfl
      | raisesAfter e => exact .completed hp hpos (.inr ⟨e, rfl, rfl⟩)
    · obtain ⟨e, he⟩ := fate.conclude_error redis RedisIdempotencyStore.invalidExpire
        (RequestPhase.returned (JobService.newJob c.ids c.payload))
        (fun _ : Unit => .returned (JobService.newJob c.ids c.payload)) .raised
      rw [RedisIdempotencyStore.completeRequest, if_neg hpos, he]
      exact .rejected (.inr (.inl ⟨hp, hpos⟩))
  | _ => simp [step, hp] at h

/-! ### The steps of a call whose store calls succeed -/

theorem step_checking (hp : c.phase = .checking) : c.step cfg now .commits redis db =
    some (c.afterRecord redis now .reserving, redis, db) := by
  rw [step, hp]
  rfl

theorem step_loading {jobId : Uuid} (hp : c.phase = .loading jobId) :
    c.step cfg now .commits redis db = some (c.afterLoad db jobId, redis, db) := by
  rw [step, hp]
  rfl

theorem step_reserving (hp : c.phase = .reserving) (hpos : 0 < cfg.store.processingTtlSeconds)
    (hnone : RedisIdempotencyStore.getRequestRecord redis now c.requestKey = none) :
    c.step cfg now .commits redis db =
      some (.committing, cfg.store.reserved redis now c.requestKey c.ids.jobId, db) := by
  simp only [step, hp, RedisIdempotencyStore.reserveRequest_granted_iff.mpr ⟨hpos, hnone, rfl⟩,
    TxFate.conclude, if_true]

theorem step_reserving_of_record (hp : c.phase = .reserving)
    (hpos : 0 < cfg.store.processingTtlSeconds)
    (hsome : RedisIdempotencyStore.getRequestRecord redis now c.requestKey ≠ none) :
    c.step cfg now .commits redis db = some (.rechecking, redis, db) := by
  simp only [step, hp, RedisIdempotencyStore.reserveRequest_refused_iff.mpr ⟨hpos, hsome, rfl⟩,
    TxFate.conclude, Bool.false_eq_true, if_false]

theorem step_rechecking (hp : c.phase = .rechecking) : c.step cfg now .commits redis db =
    some (c.afterRecord redis now (.raised "Unable to reserve idempotency key"), redis, db) := by
  rw [step, hp]
  rfl

theorem step_committing (hp : c.phase = .committing) (hjob : db.jobs c.ids.jobId = none)
    (hrow : ∀ row ∈ db.outbox, row.id ≠ c.ids.rowId) : c.step cfg now .commits redis db =
      some (.completing, redis, JobService.createdDb cfg.topic c.ids c.payload db) := by
  have hbody : JobService.createTx cfg.topic c.ids c.payload db =
      .ok (some ((), JobService.createdDb cfg.topic c.ids c.payload db)) :=
    if_pos ⟨by rw [hjob]; rfl, hrow⟩
  simp only [step, hp, hbody, TxFate.conclude]

theorem step_completing (hp : c.phase = .completing) (hpos : 0 < cfg.store.ttlSeconds) :
    c.step cfg now .commits redis db = some (.returned (JobService.newJob c.ids c.payload),
      cfg.store.completed redis now c.requestKey c.ids.jobId, db) := by
  simp only [step, hp, RedisIdempotencyStore.completeRequest, if_pos hpos, TxFate.conclude]
  rfl

end RequestCall

end Morphflow
