import Morphflow.Requests.CreateJob

/-!
# A failed request and its retry

A request is run alone until a call to a store raises; then the same key is requested again, and
this time every call succeeds. The retry is answered with a stored job unless it finds a record
whose job is not stored. Such a record is left behind by a request that reserved its key and
raised before its job was committed.

## Main definitions

* `RequestCall.run`: a call run alone.
* `Recoverable`: the failure leaves no record without a job.

## Main results

* `retry_answered_iff`: which failures a retry recovers from.
* `retry_poisoned`: a failed transaction after which the key raises.
-/

namespace Morphflow

namespace RequestCall

/-- A call run alone at one time, under the given fates of its calls to the stores. -/
def run (cfg : RequestSettings) (now : Instant) :
    List TxFate → RequestCall × Redis × Db → RequestCall × Redis × Db
  | [], s => s
  | fate :: fates, (c, redis, db) =>
    match c.step cfg now fate redis db with
    | some (phase', redis', db') => run cfg now fates ({ c with phase := phase' }, redis', db')
    | none => (c, redis, db)

variable {cfg : RequestSettings} {now : Instant} {fate : TxFate} {c : RequestCall}
  {redis redis' : Redis} {db db' : Db} {phase' : RequestPhase}

theorem run_cons_of_step {fates : List TxFate}
    (h : c.step cfg now fate redis db = some (phase', redis', db')) :
    run cfg now (fate :: fates) (c, redis, db) =
      run cfg now fates ({ c with phase := phase' }, redis', db') := by
  rw [run, h]

theorem run_of_ended {fates : List TxFate} (hp : c.phase.ended = true) :
    run cfg now fates (c, redis, db) = (c, redis, db) := by
  cases fates with
  | nil => rfl
  | cons fate fates => rw [run, step_eq_none_iff.mpr hp]

theorem run_append (fates fates' : List TxFate) (s : RequestCall × Redis × Db) :
    run cfg now (fates ++ fates') s = run cfg now fates' (run cfg now fates s) := by
  induction fates generalizing s with
  | nil => rfl
  | cons fate fates ih =>
    obtain ⟨c, redis, db⟩ := s
    cases hstep : c.step cfg now fate redis db with
    | some p => rw [List.cons_append, run_cons_of_step hstep, run_cons_of_step hstep, ih]
    | none =>
      have hended := step_eq_none_iff.mp hstep
      rw [run_of_ended hended, run_of_ended hended, run_of_ended hended]

/-! ### A call that succeeds throughout -/

/-- A key whose record names a job: the job is loaded. -/
theorem run_of_recorded {jobId : Uuid} (hp : c.phase = .checking)
    (hj : RedisIdempotencyStore.recordedJob? redis now c.requestKey = some jobId) (n : ℕ) :
    run cfg now (List.replicate (n + 2) .commits) (c, redis, db) =
      ({ c with phase := c.afterLoad db jobId }, redis, db) := by
  have hafter : c.afterRecord redis now .reserving = .loading jobId := by rw [afterRecord, hj]
  have hended : (c.afterLoad db jobId).ended = true := by
    unfold afterLoad
    split <;> rfl
  rw [List.replicate_succ, run_cons_of_step (step_checking hp), hafter, List.replicate_succ,
    run_cons_of_step (step_loading rfl)]
  exact run_of_ended hended

/-- A key whose record names no job. -/
theorem run_of_unnamed (hp : c.phase = .checking) (hpos : 0 < cfg.store.processingTtlSeconds)
    (hsome : RedisIdempotencyStore.getRequestRecord redis now c.requestKey ≠ none)
    (hj : RedisIdempotencyStore.recordedJob? redis now c.requestKey = none) (n : ℕ) :
    run cfg now (List.replicate (n + 3) .commits) (c, redis, db) =
      ({ c with phase := .raised "Unable to reserve idempotency key" }, redis, db) := by
  have hafter : ∀ otherwise, c.afterRecord redis now otherwise = otherwise := by
    intro otherwise
    rw [afterRecord, hj]
  have hreserve : ({ c with phase := .reserving } : RequestCall).step cfg now .commits redis db =
      some (.rechecking, redis, db) := step_reserving_of_record rfl hpos hsome
  have hrecheck : ({ c with phase := .rechecking } : RequestCall).step cfg now .commits redis db =
      some (.raised "Unable to reserve idempotency key", redis, db) :=
    (step_rechecking rfl).trans (congrArg (fun p => some (p, redis, db)) (hafter _))
  rw [List.replicate_succ, run_cons_of_step (step_checking hp), hafter, List.replicate_succ,
    run_cons_of_step hreserve, List.replicate_succ, run_cons_of_step hrecheck]
  exact run_of_ended rfl

section New

variable (hp : c.phase = .checking) (hpos : 0 < cfg.store.processingTtlSeconds)
  (hnone : RedisIdempotencyStore.getRequestRecord redis now c.requestKey = none)
include hp hnone

/-- A key without a record: the key is reserved next. -/
theorem run_one_of_new : run cfg now [.commits] (c, redis, db) =
    ({ c with phase := .reserving }, redis, db) := by
  have hj : RedisIdempotencyStore.recordedJob? redis now c.requestKey = none := by
    rw [RedisIdempotencyStore.recordedJob?, hnone]
    rfl
  rw [run_cons_of_step (step_checking hp), afterRecord, hj]
  rfl

include hpos

theorem run_two_of_new : run cfg now [.commits, .commits] (c, redis, db) =
    ({ c with phase := .committing },
      cfg.store.reserved redis now c.requestKey c.ids.jobId, db) := by
  have hsplit : [.commits, .commits] = [TxFate.commits] ++ [.commits] := rfl
  have hreserve : ({ c with phase := .reserving } : RequestCall).step cfg now .commits redis db =
      some (.committing, cfg.store.reserved redis now c.requestKey c.ids.jobId, db) :=
    step_reserving rfl hpos hnone
  rw [hsplit, run_append, run_one_of_new hp hnone, run_cons_of_step hreserve]
  rfl

variable (hjob : db.jobs c.ids.jobId = none) (hrow : ∀ row ∈ db.outbox, row.id ≠ c.ids.rowId)
include hjob hrow

theorem run_three_of_new : run cfg now [.commits, .commits, .commits] (c, redis, db) =
    ({ c with phase := .completing }, cfg.store.reserved redis now c.requestKey c.ids.jobId,
      JobService.createdDb cfg.topic c.ids c.payload db) := by
  have hsplit : [.commits, .commits, .commits] = [TxFate.commits, .commits] ++ [.commits] := rfl
  have hcommit : ({ c with phase := .committing } : RequestCall).step cfg now .commits
      (cfg.store.reserved redis now c.requestKey c.ids.jobId) db = some (.completing,
        cfg.store.reserved redis now c.requestKey c.ids.jobId,
        JobService.createdDb cfg.topic c.ids c.payload db) := step_committing rfl hjob hrow
  rw [hsplit, run_append, run_two_of_new hp hpos hnone, run_cons_of_step hcommit]
  rfl

/-- A key without a record: the job is written. -/
theorem run_of_new (hmark : 0 < cfg.store.ttlSeconds) (n : ℕ) :
    run cfg now (List.replicate (n + 4) .commits) (c, redis, db) =
      ({ c with phase := .returned (JobService.newJob c.ids c.payload) },
        cfg.store.completed (cfg.store.reserved redis now c.requestKey c.ids.jobId) now
          c.requestKey c.ids.jobId,
        JobService.createdDb cfg.topic c.ids c.payload db) := by
  have hsplit : List.replicate (n + 4) TxFate.commits =
      [.commits, .commits, .commits] ++ (.commits :: List.replicate n .commits) := by
    rw [Nat.add_comm, List.replicate_add]
    rfl
  rw [hsplit, run_append, run_three_of_new hp hpos hnone hjob hrow,
    run_cons_of_step (step_completing rfl hmark)]
  exact run_of_ended rfl

end New

/-! ### A call that fails -/

/-- What a failed call leaves in the two stores. -/
def failed (cfg : RequestSettings) (now : Instant) (c : RequestCall) (redis : Redis) (db : Db)
    (n : ℕ) (fate : TxFate) : Redis × Db :=
  (run cfg now (List.replicate n .commits ++ [fate]) (c, redis, db)).2

/-- A call that reserved nothing leaves the stores while its key has a record. -/
theorem Effect.untouched (h : c.Effect cfg now redis db fate phase' redis' db')
    (hsome : RedisIdempotencyStore.getRequestRecord redis now c.requestKey ≠ none)
    (hp : c.phase ≠ .committing ∧ c.phase ≠ .completing) :
    redis' = redis ∧ db' = db ∧ phase' ≠ .committing ∧ phase' ≠ .completing := by
  cases h with
  | granted _ _ hnone => exact absurd hnone hsome
  | committed hp' => exact absurd hp' hp.1
  | completed hp' => exact absurd hp' hp.2
  | _ => simp

theorem failed_of_record (hp : c.phase = .checking)
    (hsome : RedisIdempotencyStore.getRequestRecord redis now c.requestKey ≠ none) (n : ℕ)
    (fate : TxFate) : failed cfg now c redis db n fate = (redis, db) := by
  have hrun : ∀ (fates : List TxFate) (p : RequestPhase), p ≠ .committing ∧ p ≠ .completing →
      (run cfg now fates ({ c with phase := p }, redis, db)).2 = (redis, db) := by
    intro fates
    induction fates with
    | nil => exact fun _ _ => rfl
    | cons fate fates ih =>
      intro p hp
      cases hstep : ({ c with phase := p } : RequestCall).step cfg now fate redis db with
      | none => rw [run, hstep]
      | some s =>
        obtain ⟨p', redis', db'⟩ := s
        obtain ⟨rfl, rfl, hp'⟩ := (effect_of_step hstep).untouched hsome hp
        rw [run_cons_of_step hstep]
        exact ih p' hp'
  have hfailed := hrun (List.replicate n .commits ++ [fate]) c.phase (by simp [hp])
  exact hfailed

theorem failed_eq (n : ℕ) (fate : TxFate) : failed cfg now c redis db n fate =
    (run cfg now [fate] (run cfg now (List.replicate n .commits) (c, redis, db))).2 := by
  rw [failed, run_append]

section Raises

variable (hf : fate ≠ .commits)
include hf

theorem step_checking_raises (hp : c.phase = .checking) :
    ∃ e, c.step cfg now fate redis db = some (.raised e, redis, db) := by
  cases fate with
  | commits => exact absurd rfl hf
  | raisesBefore e => exact ⟨e, by rw [step, hp]; rfl⟩
  | raisesAfter e => exact ⟨e, by rw [step, hp]; rfl⟩

theorem step_reserving_raises (hp : c.phase = .reserving)
    (hpos : 0 < cfg.store.processingTtlSeconds)
    (hnone : RedisIdempotencyStore.getRequestRecord redis now c.requestKey = none) :
    ∃ e, c.step cfg now fate redis db = some (.raised e,
      if fate.takesEffect then cfg.store.reserved redis now c.requestKey c.ids.jobId else redis,
      db) := by
  simp only [step, hp, RedisIdempotencyStore.reserveRequest_granted_iff.mpr ⟨hpos, hnone, rfl⟩]
  cases fate with
  | commits => exact absurd rfl hf
  | raisesBefore e => exact ⟨e, rfl⟩
  | raisesAfter e => exact ⟨e, rfl⟩

theorem step_committing_raises (hp : c.phase = .committing) (hjob : db.jobs c.ids.jobId = none)
    (hrow : ∀ row ∈ db.outbox, row.id ≠ c.ids.rowId) :
    ∃ e, c.step cfg now fate redis db = some (.raised e, redis,
      if fate.takesEffect then JobService.createdDb cfg.topic c.ids c.payload db else db) := by
  have hbody : JobService.createTx cfg.topic c.ids c.payload db =
      .ok (some ((), JobService.createdDb cfg.topic c.ids c.payload db)) :=
    if_pos ⟨by rw [hjob]; rfl, hrow⟩
  simp only [step, hp, hbody]
  cases fate with
  | commits => exact absurd rfl hf
  | raisesBefore e => exact ⟨e, rfl⟩
  | raisesAfter e => exact ⟨e, rfl⟩

theorem step_completing_raises (hp : c.phase = .completing) (hmark : 0 < cfg.store.ttlSeconds) :
    ∃ e, c.step cfg now fate redis db = some (.raised e,
      if fate.takesEffect then cfg.store.completed redis now c.requestKey c.ids.jobId else redis,
      db) := by
  simp only [step, hp, RedisIdempotencyStore.completeRequest, if_pos hmark]
  cases fate with
  | commits => exact absurd rfl hf
  | raisesBefore e => exact ⟨e, rfl⟩
  | raisesAfter e => exact ⟨e, rfl⟩

end Raises

section FailedNew

variable (hp : c.phase = .checking) (hpos : 0 < cfg.store.processingTtlSeconds)
  (hnone : RedisIdempotencyStore.getRequestRecord redis now c.requestKey = none)
  (hf : fate ≠ .commits)
include hp hf

theorem failed_zero : failed cfg now c redis db 0 fate = (redis, db) := by
  obtain ⟨e, he⟩ : ∃ e, c.step cfg now fate redis db = _ := step_checking_raises hf hp
  rw [failed_eq, List.replicate_zero, run, run_cons_of_step he]
  rfl

include hpos hnone

theorem failed_one : failed cfg now c redis db 1 fate =
    (if fate.takesEffect then cfg.store.reserved redis now c.requestKey c.ids.jobId else redis,
      db) := by
  obtain ⟨e, he⟩ : ∃ e, ({ c with phase := .reserving } : RequestCall).step cfg now fate redis db =
    _ := step_reserving_raises hf rfl hpos hnone
  rw [failed_eq, List.replicate_one, run_one_of_new hp hnone, run_cons_of_step he]
  rfl

variable (hjob : db.jobs c.ids.jobId = none) (hrow : ∀ row ∈ db.outbox, row.id ≠ c.ids.rowId)
include hjob hrow

theorem failed_two : failed cfg now c redis db 2 fate =
    (cfg.store.reserved redis now c.requestKey c.ids.jobId,
      if fate.takesEffect then JobService.createdDb cfg.topic c.ids c.payload db else db) := by
  obtain ⟨e, he⟩ : ∃ e, ({ c with phase := .committing } : RequestCall).step cfg now fate
      (cfg.store.reserved redis now c.requestKey c.ids.jobId) db = _ :=
    step_committing_raises hf rfl hjob hrow
  have htwo : List.replicate 2 TxFate.commits = [.commits, .commits] := rfl
  rw [failed_eq, htwo, run_two_of_new hp hpos hnone, run_cons_of_step he]
  rfl

theorem failed_three (hmark : 0 < cfg.store.ttlSeconds) : failed cfg now c redis db 3 fate =
    (let redis' := cfg.store.reserved redis now c.requestKey c.ids.jobId
     if fate.takesEffect then cfg.store.completed redis' now c.requestKey c.ids.jobId else redis',
      JobService.createdDb cfg.topic c.ids c.payload db) := by
  obtain ⟨e, he⟩ : ∃ e, ({ c with phase := .completing } : RequestCall).step cfg now fate
      (cfg.store.reserved redis now c.requestKey c.ids.jobId)
      (JobService.createdDb cfg.topic c.ids c.payload db) = _ :=
    step_completing_raises hf rfl hmark
  have hthree : List.replicate 3 TxFate.commits = [.commits, .commits, .commits] := rfl
  rw [failed_eq, hthree, run_three_of_new hp hpos hnone hjob hrow, run_cons_of_step he]
  rfl

end FailedNew

end RequestCall

/-! ### A failed request and its retry -/

/-- A request run alone until a call to a store raises, after some that succeeded. -/
structure FailedRequest (cfg : RequestSettings) where
  redis : Redis
  db : Db
  now : Instant
  first : RequestCall
  succeeded : ℕ
  fate : TxFate
  begins : first.phase = .checking
  freshJob : db.jobs first.ids.jobId = none
  freshRow : ∀ row ∈ db.outbox, row.id ≠ first.ids.rowId
  raises : fate ≠ .commits
  underWay : (RequestCall.run cfg now (List.replicate succeeded .commits)
    (first, redis, db)).1.phase.ended = false

namespace FailedRequest

variable {cfg : RequestSettings} (f : FailedRequest cfg)

/-- The record of the key before the request. -/
def record? : Option IdempotencyRecord :=
  RedisIdempotencyStore.getRequestRecord f.redis f.now f.first.requestKey

/-- The stores after the failure. -/
def stores : Redis × Db :=
  RequestCall.failed cfg f.now f.first f.redis f.db f.succeeded f.fate

/-- The failure leaves no record without its job: the record of the key, if there was one, names a
stored job; otherwise the reservation did not raise after it took effect, and the transaction did
not raise before its commit. -/
def Recoverable : Prop :=
  match f.record? with
  | some record => ∃ jobId row, record.jobId = some jobId ∧ f.db.jobs jobId = some row
  | none => (f.succeeded = 1 → f.fate.takesEffect = false) ∧
      (f.succeeded = 2 → f.fate.takesEffect = true)

/-- A later request of the same key, before the record of the key expires. -/
structure Retry where
  now : Instant
  second : RequestCall
  begins : second.phase = .checking
  sameKey : second.requestKey = f.first.requestKey
  freshJob : f.stores.2.jobs second.ids.jobId = none
  freshRow : ∀ row ∈ f.stores.2.outbox, row.id ≠ second.ids.rowId
  later : f.now ≤ now
  kept : RedisIdempotencyStore.getRequestRecord f.stores.1 f.now f.first.requestKey ≠ none →
    RedisIdempotencyStore.getRequestRecord f.stores.1 now f.first.requestKey ≠ none

namespace Retry

variable {f} (r : f.Retry)

/-- The retry run alone, with all its calls to the stores succeeding. -/
def result : RequestCall × Redis × Db :=
  RequestCall.run cfg r.now (List.replicate 4 .commits) (r.second, f.stores)

/-- The retry returns a stored job: that of the record, that of the failed request if it was
committed, and a new one otherwise. -/
def Answered : Prop :=
  ∃ job row, r.result.1.phase = .returned job ∧ r.result.2.2.jobs job.id = some row ∧
    (∀ record, f.record? = some record → record.jobId = some job.id) ∧
    (f.stores.2.jobs f.first.ids.jobId ≠ none → job.id = f.first.ids.jobId) ∧
    (f.record? = none → f.stores.2.jobs f.first.ids.jobId = none → job.id = r.second.ids.jobId)

theorem record_eq : RedisIdempotencyStore.getRequestRecord f.stores.1 r.now r.second.requestKey =
    RedisIdempotencyStore.getRequestRecord f.stores.1 f.now f.first.requestKey := by
  rw [r.sameKey]
  exact RedisIdempotencyStore.getRequestRecord_of_kept r.later r.kept

/-- A record that names a job. -/
theorem result_of_recorded {record : IdempotencyRecord} {jobId : Uuid}
    (hrec : RedisIdempotencyStore.getRequestRecord f.stores.1 f.now f.first.requestKey =
      some record) (hid : record.jobId = some jobId) :
    r.result = ({ r.second with phase := r.second.afterLoad f.stores.2 jobId }, f.stores) := by
  have hj : RedisIdempotencyStore.recordedJob? f.stores.1 r.now r.second.requestKey =
      some jobId := by
    rw [RedisIdempotencyStore.recordedJob?, r.record_eq, hrec]
    exact hid
  exact RequestCall.run_of_recorded r.begins hj 2

/-- A record without its job: the retry raises. -/
theorem not_answered_of_missing {record : IdempotencyRecord} {jobId : Uuid}
    (hrec : RedisIdempotencyStore.getRequestRecord f.stores.1 f.now f.first.requestKey =
      some record) (hid : record.jobId = some jobId) (hjob : f.stores.2.jobs jobId = none) :
    ¬ r.Answered := by
  rintro ⟨job, row, hp, -⟩
  rw [r.result_of_recorded hrec hid, RequestCall.afterLoad, getJob_eq_none_iff.mpr hjob] at hp
  cases hp

/-- A record with its job: the retry returns it. -/
theorem result_of_stored {record : IdempotencyRecord} {jobId : Uuid} {row : JobRow}
    (hrec : RedisIdempotencyStore.getRequestRecord f.stores.1 f.now f.first.requestKey =
      some record) (hid : record.jobId = some jobId) (hjob : f.stores.2.jobs jobId = some row) :
    r.result.1.phase = .returned (row.toJob jobId) ∧ r.result.2.2.jobs jobId = some row := by
  rw [r.result_of_recorded hrec hid]
  refine ⟨?_, hjob⟩
  rw [RequestCall.afterLoad, getJob_eq_some_iff.mpr ⟨row, hjob, rfl⟩]

/-- A key that has no record any more: the retry writes a new job. -/
theorem answered_of_new (hpos : 0 < cfg.store.processingTtlSeconds)
    (hmark : 0 < cfg.store.ttlSeconds) (hnone : f.record? = none)
    (hstores : f.stores = (f.redis, f.db)) : r.Answered := by
  have hrec : RedisIdempotencyStore.getRequestRecord f.stores.1 r.now r.second.requestKey =
      none := by
    rw [r.record_eq, hstores]
    exact hnone
  have hresult : r.result = _ :=
    RequestCall.run_of_new r.begins hpos hrec r.freshJob r.freshRow hmark 0
  refine ⟨JobService.newJob r.second.ids r.second.payload,
    (JobService.newJob r.second.ids r.second.payload).toRow, by rw [hresult], ?_, ?_, ?_, ?_⟩
  · rw [hresult]
    exact KeyedTable.set_self ..
  · intro record hsome
    cases hnone.symm.trans hsome
  · intro hne
    rw [hstores] at hne
    exact absurd f.freshJob hne
  · exact fun _ _ => rfl

/-- The record of the failed request with its job: the retry returns that job. -/
theorem answered_of_first {record : IdempotencyRecord} {row : JobRow} (hnone : f.record? = none)
    (hrec : RedisIdempotencyStore.getRequestRecord f.stores.1 f.now f.first.requestKey =
      some record) (hid : record.jobId = some f.first.ids.jobId)
    (hjob : f.stores.2.jobs f.first.ids.jobId = some row) : r.Answered := by
  obtain ⟨hp, hstored⟩ := r.result_of_stored hrec hid hjob
  refine ⟨row.toJob f.first.ids.jobId, row, hp, hstored, ?_, fun _ => rfl, ?_⟩
  · intro record' hsome
    cases hnone.symm.trans hsome
  · intro _ hmissing
    cases hjob.symm.trans hmissing

/-- The key had a record before the request. -/
theorem answered_iff_of_record {record : IdempotencyRecord}
    (hpos : 0 < cfg.store.processingTtlSeconds) (hsome : f.record? = some record) :
    r.Answered ↔ ∃ jobId row, record.jobId = some jobId ∧ f.db.jobs jobId = some row := by
  have hne : RedisIdempotencyStore.getRequestRecord f.redis f.now f.first.requestKey ≠ none :=
    Option.ne_none_iff_exists'.mpr ⟨record, hsome⟩
  have hstores : f.stores = (f.redis, f.db) :=
    RequestCall.failed_of_record f.begins hne f.succeeded f.fate
  have hrec : RedisIdempotencyStore.getRequestRecord f.stores.1 f.now f.first.requestKey =
      some record := by
    rw [hstores]
    exact hsome
  constructor
  · intro hans
    cases hid : record.jobId with
    | none =>
      have hret : RedisIdempotencyStore.getRequestRecord f.stores.1 r.now r.second.requestKey =
          some record := r.record_eq.trans hrec
      have hj : RedisIdempotencyStore.recordedJob? f.stores.1 r.now r.second.requestKey = none := by
        rw [RedisIdempotencyStore.recordedJob?, hret]
        exact hid
      have hresult : r.result = _ := RequestCall.run_of_unnamed r.begins hpos
        (Option.ne_none_iff_exists'.mpr ⟨record, hret⟩) hj 1
      obtain ⟨job, row, hp, -⟩ := hans
      rw [hresult] at hp
      cases hp
    | some jobId =>
      cases hjob : f.db.jobs jobId with
      | none =>
        have hmissing : f.stores.2.jobs jobId = none := by
          rw [hstores]
          exact hjob
        exact absurd hans (r.not_answered_of_missing hrec hid hmissing)
      | some row => exact ⟨jobId, row, rfl, hjob⟩
  · rintro ⟨jobId, row, hid, hjob⟩
    have hstored : f.stores.2.jobs jobId = some row := by
      rw [hstores]
      exact hjob
    obtain ⟨hp, hrow⟩ := r.result_of_stored hrec hid hstored
    refine ⟨row.toJob jobId, row, hp, hrow, ?_, ?_, ?_⟩
    · intro record' hsome'
      cases hsome.symm.trans hsome'
      exact hid
    · intro hfirst
      rw [hstores] at hfirst
      exact absurd f.freshJob hfirst
    · intro hnone
      cases hnone.symm.trans hsome

/-- The key had no record before the request. -/
theorem answered_iff_of_new (hpos : 0 < cfg.store.processingTtlSeconds)
    (hmark : 0 < cfg.store.ttlSeconds) (hnone : f.record? = none) :
    r.Answered ↔ (f.succeeded = 1 → f.fate.takesEffect = false) ∧
      (f.succeeded = 2 → f.fate.takesEffect = true) := by
  let redis' := cfg.store.reserved f.redis f.now f.first.requestKey f.first.ids.jobId
  have hreserved : RedisIdempotencyStore.getRequestRecord redis' f.now f.first.requestKey =
      some ⟨f.first.requestKey, some f.first.ids.jobId, .processing⟩ :=
    RedisIdempotencyStore.getRequestRecord_reserved hpos
  let db' := JobService.createdDb cfg.topic f.first.ids f.first.payload f.db
  have hcreated : (JobService.createdDb cfg.topic f.first.ids f.first.payload f.db).jobs
      f.first.ids.jobId = some (JobService.newJob f.first.ids f.first.payload).toRow :=
    KeyedTable.set_self ..
  -- the failing call: the read of the record, the reservation, the transaction, the mark
  match hn : f.succeeded with
  | 0 =>
    have hstores : f.stores = (f.redis, f.db) := by
      rw [stores, hn]
      exact RequestCall.failed_zero f.begins f.raises
    simp [r.answered_of_new hpos hmark hnone hstores]
  | 1 =>
    have hstores : f.stores = (if f.fate.takesEffect then redis' else f.redis, f.db) := by
      rw [stores, hn]
      exact RequestCall.failed_one f.begins hpos hnone f.raises
    cases hf : f.fate.takesEffect with
    | false =>
      rw [hf] at hstores
      simp [r.answered_of_new hpos hmark hnone hstores]
    | true =>
      rw [hf, if_pos rfl] at hstores
      have hmissing : ¬ r.Answered :=
        r.not_answered_of_missing (by rw [hstores]; exact hreserved) rfl
          (by rw [hstores]; exact f.freshJob)
      simp [hmissing]
  | 2 =>
    have hstores : f.stores = (redis', if f.fate.takesEffect then db' else f.db) := by
      rw [stores, hn]
      exact RequestCall.failed_two f.begins hpos hnone f.raises f.freshJob f.freshRow
    cases hf : f.fate.takesEffect with
    | false =>
      rw [hf] at hstores
      have hmissing : ¬ r.Answered :=
        r.not_answered_of_missing (by rw [hstores]; exact hreserved) rfl
          (by rw [hstores]; exact f.freshJob)
      simp [hmissing]
    | true =>
      rw [hf, if_pos rfl] at hstores
      have hans : r.Answered := r.answered_of_first hnone (by rw [hstores]; exact hreserved) rfl
        (by rw [hstores]; exact hcreated)
      simp [hans]
  | 3 =>
    have hstores : f.stores = (if f.fate.takesEffect then
        cfg.store.completed redis' f.now f.first.requestKey f.first.ids.jobId else redis',
        db') := by
      rw [stores, hn]
      exact RequestCall.failed_three f.begins hpos hnone f.raises f.freshJob f.freshRow hmark
    have hans : r.Answered := by
      cases hf : f.fate.takesEffect with
      | false =>
        rw [hf] at hstores
        exact r.answered_of_first hnone (by rw [hstores]; exact hreserved) rfl
          (by rw [hstores]; exact hcreated)
      | true =>
        rw [hf, if_pos rfl] at hstores
        exact r.answered_of_first hnone
          (by rw [hstores]; exact RedisIdempotencyStore.getRequestRecord_completed hmark) rfl
          (by rw [hstores]; exact hcreated)
    simp [hans]
  | n + 4 =>
    have hway := f.underWay
    rw [hn, RequestCall.run_of_new f.begins hpos hnone f.freshJob f.freshRow hmark n] at hway
    cases hway

end Retry

end FailedRequest

/-- A retry is answered exactly after the failures that leave no record without its job. -/
theorem retry_answered_iff {cfg : RequestSettings} (hpos : 0 < cfg.store.processingTtlSeconds)
    (hmark : 0 < cfg.store.ttlSeconds) (f : FailedRequest cfg) (r : f.Retry) :
    r.Answered ↔ f.Recoverable := by
  unfold FailedRequest.Recoverable
  cases hrec : f.record? with
  | some record => exact r.answered_iff_of_record hpos hrec
  | none => exact r.answered_iff_of_new hpos hmark hrec

/-- The default validity of a key and of its reservation. -/
def defaultRequestSettings : RequestSettings := ⟨⟨3600, 1800⟩, "request-topic"⟩

/-- A request on empty stores that fails after the given number of calls to them. -/
def exampleFailedRequest (succeeded : ℕ) (hway : (RequestCall.run defaultRequestSettings 0
    (List.replicate succeeded .commits) (⟨some "key", "", [], ⟨1, 2, 3, 4, 5⟩, .checking⟩,
      fun _ => none, Db.empty)).1.phase.ended = false) : FailedRequest defaultRequestSettings where
  redis := fun _ => none
  db := Db.empty
  now := 0
  first := ⟨some "key", "", [], ⟨1, 2, 3, 4, 5⟩, .checking⟩
  succeeded := succeeded
  fate := .raisesBefore "connection lost"
  begins := rfl
  freshJob := rfl
  freshRow _ hrow := by cases hrow
  raises := by simp
  underWay := hway

/-- The mark of completion fails: the retry is answered with the job that was written. -/
theorem retry_answered_iff_marked : ∃ (f : FailedRequest defaultRequestSettings) (r : f.Retry),
    f.succeeded = 3 ∧ r.Answered := by
  let f := exampleFailedRequest 3 rfl
  let r : f.Retry :=
    { now := timedelta 1
      second := ⟨some "key", "", [], ⟨11, 12, 13, 14, 15⟩, .checking⟩
      begins := rfl
      sameKey := rfl
      freshJob := rfl
      freshRow := by decide
      later := by decide
      kept := fun _ => by decide }
  exact ⟨f, r, rfl, (retry_answered_iff (by decide) (by decide) f r).mpr ⟨by decide, by decide⟩⟩

/-- **A poisoned key.** The transaction of the first request raises; the retry finds the
reservation, whose job does not exist. -/
theorem retry_poisoned : ¬ ∀ (cfg : RequestSettings), 0 < cfg.store.processingTtlSeconds →
    0 < cfg.store.ttlSeconds → ∀ (f : FailedRequest cfg) (r : f.Retry), r.Answered := by
  intro h
  let f := exampleFailedRequest 2 rfl
  let r : f.Retry :=
    { now := timedelta 1
      second := ⟨some "key", "", [], ⟨11, 12, 13, 14, 15⟩, .checking⟩
      begins := rfl
      sameKey := rfl
      freshJob := rfl
      freshRow := by decide
      later := by decide
      kept := fun _ => by decide }
  obtain ⟨job, row, hp, -⟩ := h defaultRequestSettings (by decide) (by decide) f r
  have hraised : r.result.1.phase = .raised "Idempotent job not found for key key" := by rfl
  cases hraised.symm.trans hp

end Morphflow
