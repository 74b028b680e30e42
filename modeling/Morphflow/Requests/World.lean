import Morphflow.Foundation.Transition
import Morphflow.Requests.CreateJob

/-!
# Requests on one idempotency store and one database

Any number of calls of `create_job` run on one Redis and one database. A step is the beginning of a
call, one step of a call that is under way, the death of its process, the passing of time, or the
loss of an entry by Redis. Identifiers drawn by a call have not been drawn before.

The jobs committed so far are kept with their keys and times.

## Main definitions

* `RequestWorld`, `RequestAct`, `requests`.

## Main results

* `RequestWorld.effect_of_step`: everything a step can do.
-/

namespace Morphflow

/-- A job committed for a key. -/
structure RequestCommit where
  key : String
  jobId : Uuid
  committedAt : Instant

/-- The two stores, the calls, the clock, the identifiers drawn and the jobs committed so far. -/
structure RequestWorld where
  clock : Instant
  redis : Redis
  db : Db
  calls : KeyedTable ℕ RequestCall
  drawn : List RequestIds
  commits : List RequestCommit

/-- The steps of the system. -/
inductive RequestAct
  | begin (i : ℕ) (idempotencyKey : Option String) (drawnKey : String) (payload : Dict)
      (ids : RequestIds)
  | step (i : ℕ) (fate : TxFate)
  | crash (i : ℕ)
  | tick (now : Instant)
  | lose (key : String)

/-- The job a step of a call commits. -/
def RequestCall.commit? (c : RequestCall) (cfg : RequestSettings) (now : Instant) (fate : TxFate)
    (db : Db) : Option RequestCommit :=
  match c.phase, JobService.createTx cfg.topic c.ids c.payload db with
  | .committing, .ok (some _) =>
    if fate.takesEffect then some ⟨c.requestKey, c.ids.jobId, now⟩ else none
  | _, _ => none

namespace RequestWorld

/-- The identifiers are new to the database and to the calls so far. -/
def Fresh (w : RequestWorld) (ids : RequestIds) : Prop :=
  (w.db.jobs ids.jobId).isNone ∧ (∀ e ∈ w.db.events, e.jobId ≠ ids.jobId) ∧
    (∀ row ∈ w.db.outbox, row.id ≠ ids.rowId ∧ row.payload.jobId ≠ ids.jobId) ∧
    ∀ d ∈ w.drawn, d.jobId ≠ ids.jobId ∧ d.rowId ≠ ids.rowId

instance (w : RequestWorld) (ids : RequestIds) : Decidable (w.Fresh ids) :=
  inferInstanceAs (Decidable (_ ∧ _))

/-- A step of the system. -/
def step (cfg : RequestSettings) (w : RequestWorld) : RequestAct → Option RequestWorld
  | .begin i idempotencyKey drawnKey payload ids =>
    if (w.calls i).isNone ∧ w.Fresh ids then
      some { w with
        calls := w.calls.set i ⟨idempotencyKey, drawnKey, payload, ids, .checking⟩
        drawn := ids :: w.drawn }
    else none
  | .step i fate =>
    match w.calls i with
    | some c =>
      (c.step cfg w.clock fate w.redis w.db).map fun p =>
        { w with
          redis := p.2.1
          db := p.2.2
          calls := w.calls.set i { c with phase := p.1 }
          commits := w.commits ++ (c.commit? cfg w.clock fate w.db).toList }
    | none => none
  | .crash i =>
    match w.calls i with
    | some c =>
      if c.phase.ended then none
      else some { w with calls := w.calls.set i { c with phase := .crashed } }
    | none => none
  | .tick now => if w.clock ≤ now then some { w with clock := now } else none
  | .lose key => some { w with redis := w.redis.erase (RedisIdempotencyStore.requestKey key) }

/-- The world before the first request, with the given tables and entries. -/
def initial (redis : Redis) (db : Db) : RequestWorld := ⟨0, redis, db, fun _ => none, [], []⟩

end RequestWorld

/-- Requests on any two stores. -/
def requests (cfg : RequestSettings) : TransitionSystem RequestWorld RequestAct where
  init w := (∀ i, w.calls i = none) ∧ w.drawn = [] ∧ w.commits = []
  step := RequestWorld.step cfg

/-! ### Everything a step can do -/

namespace RequestWorld

/-- What a step does to the world. -/
inductive Effect (cfg : RequestSettings) (w : RequestWorld) : RequestAct → RequestWorld → Prop
  /-- A call began. -/
  | begun {i : ℕ} {idempotencyKey : Option String} {drawnKey : String} {payload : Dict}
      {ids : RequestIds} (hi : w.calls i = none) (hfresh : w.Fresh ids) :
      Effect cfg w (.begin i idempotencyKey drawnKey payload ids)
        { w with
          calls := w.calls.set i ⟨idempotencyKey, drawnKey, payload, ids, .checking⟩
          drawn := ids :: w.drawn }
  /-- A call took a step. -/
  | stepped {i : ℕ} {fate : TxFate} {c : RequestCall} {phase' : RequestPhase} {redis' : Redis}
      {db' : Db} (hi : w.calls i = some c)
      (heff : c.Effect cfg w.clock w.redis w.db fate phase' redis' db') :
      Effect cfg w (.step i fate)
        { w with
          redis := redis'
          db := db'
          calls := w.calls.set i { c with phase := phase' }
          commits := w.commits ++ (c.commit? cfg w.clock fate w.db).toList }
  /-- The process of a call died. -/
  | crashed {i : ℕ} {c : RequestCall} (hi : w.calls i = some c) (hp : c.phase.ended = false) :
      Effect cfg w (.crash i) { w with calls := w.calls.set i { c with phase := .crashed } }
  /-- Time passed. -/
  | ticked {now : Instant} (hle : w.clock ≤ now) :
      Effect cfg w (.tick now) { w with clock := now }
  /-- Redis lost an entry. -/
  | lost {key : String} : Effect cfg w (.lose key)
      { w with redis := w.redis.erase (RedisIdempotencyStore.requestKey key) }

/-- Every step has one of these effects. -/
theorem effect_of_step {cfg : RequestSettings} {w w' : RequestWorld} {a : RequestAct}
    (h : w.step cfg a = some w') : Effect cfg w a w' := by
  cases a with
  | begin i idempotencyKey drawnKey payload ids =>
    simp only [step] at h
    split_ifs at h with hi
    obtain rfl := Option.some.inj h
    exact .begun (Option.isNone_iff_eq_none.mp hi.1) hi.2
  | step i fate =>
    simp only [step] at h
    split at h
    · next c hi =>
      obtain ⟨⟨phase', redis', db'⟩, hstep, rfl⟩ := Option.map_eq_some_iff.mp h
      exact .stepped hi (RequestCall.effect_of_step hstep)
    · cases h
  | crash i =>
    simp only [step] at h
    split at h
    · next c hi =>
      split_ifs at h with hp
      obtain rfl := Option.some.inj h
      exact .crashed hi (Bool.eq_false_iff.mpr hp)
    · cases h
  | tick now =>
    simp only [step] at h
    split_ifs at h with hle
    obtain rfl := Option.some.inj h
    exact .ticked hle
  | lose key =>
    obtain rfl := Option.some.inj h
    exact .lost

end RequestWorld

end Morphflow
