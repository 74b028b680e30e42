import Morphflow.Services.JobService
import Morphflow.Services.LeasedService
import Morphflow.Services.DownstreamService
import Morphflow.Foundation.Transition

/-!
# The services on one store

Any number of calls of the services run on one committed store. A step is a request, the start of a
call, one step of a call that is under way, a renewal of a lease, or the passing of time. Which
calls run, on which events and in which order is up to the environment; a call whose process died
takes no more steps.

The deployments are the same system with fewer actions: in the modes A and B requests are processed
by `WorkerService`, in the modes C and BC by `InferencePipelineService` and
`DownstreamPipelineService`.

## Main definitions

* `Service`, `Call`, `World`, `Action`, `pipeline`.
* `modesAB`, `modesCBC`.

## Main results

* `World.effect_of_step`: everything a step can do.
-/

namespace Morphflow

/-- A call of one of the three services. -/
inductive Call
  | worker (c : LeasedCall)
  | inference (c : LeasedCall)
  | downstream (c : DownstreamCall)

/-- A service with its settings. -/
inductive Service
  | worker (workerId : String) (leaseSeconds : ℤ)
  | inference (workerId : String) (leaseSeconds : ℤ)
  | downstream

/-- The call of `handle_event` before its first step. -/
def Service.handleEvent : Service → Event → Call
  | .worker workerId leaseSeconds, event => .worker ⟨workerId, leaseSeconds, event, .claiming⟩
  | .inference workerId leaseSeconds, event => .inference ⟨workerId, leaseSeconds, event, .claiming⟩
  | .downstream, event => .downstream ⟨event, .reading⟩

/-- The topics the services publish to through the outbox. -/
structure Topics where
  request : String
  downstream : String

/-- The committed store, the calls, and the clock. -/
structure World where
  db : Db
  calls : KeyedTable ℕ Call
  clock : Instant

/-- The steps of the system. -/
inductive Action
  | create (ids : RequestIds) (payload : Dict) (fate : TxFate)
  | start (i : ℕ) (service : Service) (event : Event)
  | leased (i : ℕ) (a : LeasedAct)
  | downstream (i : ℕ) (a : DownstreamAct)
  | renew (jobId : Uuid) (owner : String) (epoch : ℕ) (leaseSeconds : ℤ) (now : Instant)
  | tick (now : Instant)

namespace World

/-- The world before the first request. -/
def initial : World := ⟨Db.empty, fun _ => none, 0⟩

/-- The world after a step of the call `i`. -/
def goOn (w : World) (i : ℕ) (call : Call) (db : Db) : World :=
  { w with db := db, calls := w.calls.set i call }

/-- A step of the system. -/
def step (topics : Topics) (w : World) : Action → Option World
  | .create ids payload fate =>
    some { w with db := JobService.createJob topics.request ids payload fate w.db }
  | .start i service event =>
    if (w.calls i).isNone then some (w.goOn i (service.handleEvent event) w.db) else none
  | .leased i a =>
    match w.calls i with
    | some (.worker c) => (WorkerService.step c w.db a).map fun p => w.goOn i (.worker p.1) p.2
    | some (.inference c) => (InferencePipelineService.step topics.downstream c w.db a).map fun p =>
        w.goOn i (.inference p.1) p.2
    | _ => none
  | .downstream i a =>
    match w.calls i with
    | some (.downstream c) => (c.step w.db a).map fun p => w.goOn i (.downstream p.1) p.2
    | _ => none
  | .renew jobId owner epoch leaseSeconds now =>
    match renewLease w.db.jobs jobId owner epoch leaseSeconds now with
    | some jobs => some { w with db := { w.db with jobs := jobs } }
    | none => some w
  | .tick now => if w.clock ≤ now then some { w with clock := now } else none

@[simp] theorem goOn_db (w : World) (i : ℕ) (call : Call) (db : Db) :
    (w.goOn i call db).db = db := rfl

@[simp] theorem goOn_calls (w : World) (i : ℕ) (call : Call) (db : Db) :
    (w.goOn i call db).calls = w.calls.set i call := rfl

@[simp] theorem goOn_clock (w : World) (i : ℕ) (call : Call) (db : Db) :
    (w.goOn i call db).clock = w.clock := rfl

end World

/-- The services on one store, from the empty store. -/
def pipeline (topics : Topics) : TransitionSystem World Action where
  init w := w.db = Db.empty ∧ ∀ i, w.calls i = none
  step := World.step topics

theorem pipeline_init_initial (topics : Topics) : (pipeline topics).init World.initial :=
  ⟨rfl, fun _ => rfl⟩

/-- Which services may be started. -/
def Action.startsOnly (p : Service → Bool) : Action → Bool
  | .start _ service _ => p service
  | .renew .. => false
  | _ => true

/-- The modes A and B: requests are processed by `WorkerService`. -/
def modesAB (topics : Topics) : TransitionSystem World Action :=
  (pipeline topics).restrict fun _ a => a.startsOnly fun
    | .worker .. => true
    | _ => false

/-- The reading a step takes from the common clock is not ahead of it. -/
def Action.readsClock (clock : Instant) : Action → Bool
  | .leased _ (.claim now _ _) => now ≤ clock
  | _ => true

/-- The modes C and BC: requests are processed by `InferencePipelineService`, and what it leaves by
`DownstreamPipelineService`. All processes read one clock. -/
def modesCBC (topics : Topics) : TransitionSystem World Action :=
  (pipeline topics).restrict fun w a => a.readsClock w.clock && a.startsOnly fun
    | .worker .. => false
    | _ => true

/-- The service a call belongs to. -/
def Call.service : Call → Service
  | .worker c => .worker c.workerId c.leaseSeconds
  | .inference c => .inference c.workerId c.leaseSeconds
  | .downstream _ => .downstream

theorem Service.service_handleEvent (service : Service) (event : Event) :
    (service.handleEvent event).service = service := by
  cases service <;> rfl

/-! ### A job between the two stages -/

/-- The request of the concrete runs. -/
def exampleIds : RequestIds := ⟨1, 2, 3, 4, 5⟩

/-- The envelope that the inference stage leaves for the downstream stage in the concrete runs. -/
def exampleEnvelope : Event :=
  InferencePipelineService.downstreamEvent
    ⟨"inference-a", 1800, JobService.requestEvent exampleIds [], .claiming⟩ [] 12

/-- A request, and an inference that left the job `PROCESSING` with a message for the downstream
stage. -/
def exampleInference : List Action :=
  [.create exampleIds [] .commits,
    .start 0 (.inference "inference-a" 1800) (JobService.requestEvent exampleIds []),
    .leased 0 (.claim 0 10 .commits), .leased 0 (.process (.ok [])),
    .leased 0 (.complete ⟨11, 12, 13, 6⟩ .commits)]

/-! ### Everything a step can do -/

namespace World

/-- The tables after a lease was extended. -/
def extendedDb (db : Db) (jobId : Uuid) (row : JobRow) (expiresAt : Instant) : Db :=
  { db with jobs := db.jobs.set jobId { row with leaseExpiresAt := some expiresAt } }

/-- What a step does to the world. -/
inductive Effect (topics : Topics) (w : World) : Action → World → Prop
  /-- Nothing was written: the request failed, or the renewal found the lease gone. -/
  | unchanged {a : Action} : Effect topics w a w
  /-- A request was written. -/
  | created {ids : RequestIds} {payload : Dict} {fate : TxFate}
      (hjob : w.db.jobs ids.jobId = none) (hrow : ∀ row ∈ w.db.outbox, row.id ≠ ids.rowId) :
      Effect topics w (.create ids payload fate)
        { w with db := JobService.createdDb topics.request ids payload w.db }
  /-- A call was started. -/
  | started {i : ℕ} {service : Service} {event : Event} (hi : w.calls i = none) :
      Effect topics w (.start i service event) (w.goOn i (service.handleEvent event) w.db)
  /-- A call of `WorkerService` took a step. -/
  | worker {i : ℕ} {a : LeasedAct} {c : LeasedCall} {phase' : LeasedPhase} {db' : Db}
      (hi : w.calls i = some (.worker c))
      (heff : c.Effect "worker" WorkerService.completeTx w.db a phase' db') :
      Effect topics w (.leased i a) (w.goOn i (.worker { c with phase := phase' }) db')
  /-- A call of `InferencePipelineService` took a step. -/
  | inference {i : ℕ} {a : LeasedAct} {c : LeasedCall} {phase' : LeasedPhase} {db' : Db}
      (hi : w.calls i = some (.inference c))
      (heff : c.Effect "inference-worker" (InferencePipelineService.completeTx topics.downstream)
        w.db a phase' db') :
      Effect topics w (.leased i a) (w.goOn i (.inference { c with phase := phase' }) db')
  /-- A call of `DownstreamPipelineService` took a step. -/
  | downstream {i : ℕ} {a : DownstreamAct} {c : DownstreamCall} {phase' : DownstreamPhase}
      {db' : Db} (hi : w.calls i = some (.downstream c)) (heff : c.Effect w.db a phase' db') :
      Effect topics w (.downstream i a) (w.goOn i (.downstream { c with phase := phase' }) db')
  /-- A lease was extended. -/
  | renewed {jobId : Uuid} {owner : String} {epoch : ℕ} {leaseSeconds : ℤ} {now : Instant}
      {row : JobRow} (hrow : w.db.jobs jobId = some row) (ho : row.leaseOwner = some owner)
      (he : row.leaseEpoch = epoch) :
      Effect topics w (.renew jobId owner epoch leaseSeconds now)
        { w with db := extendedDb w.db jobId row (now + timedelta leaseSeconds) }
  /-- Time passed. -/
  | ticked {now : Instant} (h : w.clock ≤ now) :
      Effect topics w (.tick now) { w with clock := now }

/-- Every step has one of these effects. -/
theorem effect_of_step {topics : Topics} {w w' : World} {a : Action}
    (h : w.step topics a = some w') : Effect topics w a w' := by
  cases a with
  | create ids payload fate =>
    obtain rfl := Option.some.inj h
    rcases JobService.createJob_cases topics.request ids payload fate w.db with hdb |
      ⟨hjob, hrow, hdb⟩ <;> rw [hdb]
    · exact .unchanged
    · exact .created hjob hrow
  | start i service event =>
    simp only [step] at h
    split_ifs at h with hi
    obtain rfl := Option.some.inj h
    exact .started (Option.isNone_iff_eq_none.mp hi)
  | leased i a =>
    simp only [step] at h
    split at h
    · next c hi =>
      obtain ⟨⟨c', db'⟩, hstep, rfl⟩ := Option.map_eq_some_iff.mp h
      obtain ⟨phase', rfl, heff⟩ := LeasedCall.effect_of_step hstep
      exact .worker hi heff
    · next c hi =>
      obtain ⟨⟨c', db'⟩, hstep, rfl⟩ := Option.map_eq_some_iff.mp h
      obtain ⟨phase', rfl, heff⟩ := LeasedCall.effect_of_step hstep
      exact .inference hi heff
    · cases h
  | downstream i a =>
    simp only [step] at h
    split at h
    · next c hi =>
      obtain ⟨⟨c', db'⟩, hstep, rfl⟩ := Option.map_eq_some_iff.mp h
      obtain ⟨phase', rfl, heff⟩ := DownstreamCall.effect_of_step hstep
      exact .downstream hi heff
    · cases h
  | renew jobId owner epoch leaseSeconds now =>
    simp only [step] at h
    split at h
    · next jobs hrenew =>
      obtain rfl := Option.some.inj h
      obtain ⟨row, hrow, ho, he, rfl⟩ := renewLease_eq_some_iff.mp hrenew
      exact .renewed hrow ho he
    · obtain rfl := Option.some.inj h
      exact .unchanged
  | tick now =>
    simp only [step] at h
    split_ifs at h with hle
    obtain rfl := Option.some.inj h
    exact .ticked hle

/-- A call keeps its service; when only some services are started, every call is of one of
them. -/
theorem Effect.service {topics : Topics} {w w' : World} {a : Action} {p : Service → Bool}
    (h : Effect topics w a w') (hp : a.startsOnly p = true)
    (hw : ∀ i call, w.calls i = some call → p call.service = true) :
    ∀ i call, w'.calls i = some call → p call.service = true := by
  have hset : ∀ i call db, p call.service = true → ∀ j call',
      (w.goOn i call db).calls j = some call' → p call'.service = true := by
    intro i call db hcall j call' hj
    rcases KeyedTable.set_eq_some_iff.mp hj with ⟨-, rfl⟩ | ⟨-, hj⟩
    · exact hcall
    · exact hw j call' hj
  cases h with
  | unchanged => exact hw
  | created => exact hw
  | started => exact hset _ _ _ (by rw [Service.service_handleEvent]; exact hp)
  | worker hi => exact hset _ _ _ (by simpa only [Call.service] using hw _ _ hi)
  | inference hi => exact hset _ _ _ (by simpa only [Call.service] using hw _ _ hi)
  | downstream hi => exact hset _ _ _ (by simpa only [Call.service] using hw _ _ hi)
  | renewed => exact hw
  | ticked => exact hw

end World

theorem modesAB_calls {topics : Topics} {w : World} (h : (modesAB topics).Reachable w) {i : ℕ}
    {call : Call} (hi : w.calls i = some call) : ∃ c, call = .worker c := by
  have hp := h.rec_on_step (P := fun w => ∀ i call, w.calls i = some call →
    (match call.service with | .worker .. => true | _ => false) = true)
    (fun w hw i call hi => by simp [hw.2 i] at hi)
    (fun w a w' _ hw hstep => by
      obtain ⟨hok, hstep⟩ := TransitionSystem.restrict_step_eq_some.mp hstep
      exact (World.effect_of_step hstep).service hok hw) i call hi
  cases call with
  | worker c => exact ⟨c, rfl⟩
  | inference c => simp [Call.service] at hp
  | downstream c => simp [Call.service] at hp

theorem modesCBC_calls {topics : Topics} {w : World} (h : (modesCBC topics).Reachable w) {i : ℕ}
    {c : LeasedCall} : w.calls i ≠ some (.worker c) := by
  intro hi
  have hp := h.rec_on_step (P := fun w => ∀ i call, w.calls i = some call →
    (match call.service with | .worker .. => false | _ => true) = true)
    (fun w hw i call hi => by simp [hw.2 i] at hi)
    (fun w a w' _ hw hstep => by
      obtain ⟨hok, hstep⟩ := TransitionSystem.restrict_step_eq_some.mp hstep
      exact (World.effect_of_step hstep).service ((Bool.and_eq_true _ _).mp hok).2 hw) i _ hi
  simp [Call.service] at hp

end Morphflow
