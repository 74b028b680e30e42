import Morphflow.Requests.World

/-!
# The rows of a request

The three rows of a request are written together: before the commit none of them is there, after it
each is there once. No other request touches them, as the identifiers are distinct.

## Main definitions

* `RequestIds.Absent`, `RequestIds.Written`.
* `RequestWorld.Sound`.

## Main results

* `RequestWorld.Sound.of_effect`: every step keeps the soundness.
-/

namespace Morphflow

/-- The outbox rows of one job. -/
def Db.outboxOf (db : Db) (jobId : Uuid) : List OutboxRow :=
  db.outbox.filter fun row => row.payload.jobId == jobId

namespace RequestIds

/-- Nothing is stored under the identifiers. -/
structure Absent (ids : RequestIds) (db : Db) : Prop where
  job : db.jobs ids.jobId = none
  events : db.eventsOf ids.jobId = []
  outbox : db.outboxOf ids.jobId = []
  rowId : ∀ row ∈ db.outbox, row.id ≠ ids.rowId

/-- The row of the job, its event and its message are stored, each once. -/
structure Written (ids : RequestIds) (topic : String) (payload : Dict) (db : Db) : Prop where
  job : db.jobs ids.jobId = some (JobService.newJob ids payload).toRow
  events : db.eventsOf ids.jobId = [JobService.requestEvent ids payload]
  outbox : db.outboxOf ids.jobId =
    addOutbox [] ids.rowId ids.messageId topic (JobService.requestEvent ids payload)

variable {topic topic' : String} {ids ids' : RequestIds} {payload payload' : Dict} {db : Db}

theorem Written.not_absent (h : ids.Written topic payload db) : ¬ ids.Absent db := by
  intro ha
  cases h.job.symm.trans ha.job

/-- A request writes its rows. -/
theorem Absent.written (h : ids.Absent db) (topic : String) (payload : Dict) :
    ids.Written topic payload (JobService.createdDb topic ids payload db) where
  job := KeyedTable.set_self ..
  events := by
    rw [Db.eventsOf_append (JobService.createdDb_events ..), h.events]
    exact if_pos rfl
  outbox := by
    have houtbox := h.outbox
    simp only [Db.outboxOf] at houtbox ⊢
    simp [JobService.createdDb, addOutbox, houtbox, JobService.requestEvent]

section Other

variable (hjob : ids'.jobId ≠ ids.jobId)
include hjob

theorem outboxOf_createdDb_of_ne :
    (JobService.createdDb topic ids payload db).outboxOf ids'.jobId = db.outboxOf ids'.jobId := by
  simp [Db.outboxOf, JobService.createdDb, addOutbox, JobService.requestEvent, hjob.symm]

theorem eventsOf_createdDb_of_ne :
    (JobService.createdDb topic ids payload db).eventsOf ids'.jobId = db.eventsOf ids'.jobId := by
  rw [Db.eventsOf_append (JobService.createdDb_events ..)]
  exact if_neg hjob.symm

theorem jobs_createdDb_of_ne :
    (JobService.createdDb topic ids payload db).jobs ids'.jobId = db.jobs ids'.jobId := by
  rw [JobService.createdDb_jobs, KeyedTable.set_of_ne _ _ hjob]

theorem Written.createdDb (h : ids'.Written topic' payload' db) :
    ids'.Written topic' payload' (JobService.createdDb topic ids payload db) where
  job := by rw [jobs_createdDb_of_ne hjob, h.job]
  events := by rw [eventsOf_createdDb_of_ne hjob, h.events]
  outbox := by rw [outboxOf_createdDb_of_ne hjob, h.outbox]

theorem Absent.createdDb (h : ids'.Absent db) (hrow : ids'.rowId ≠ ids.rowId) :
    ids'.Absent (JobService.createdDb topic ids payload db) where
  job := by rw [jobs_createdDb_of_ne hjob, h.job]
  events := by rw [eventsOf_createdDb_of_ne hjob, h.events]
  outbox := by rw [outboxOf_createdDb_of_ne hjob, h.outbox]
  rowId row hmem := by
    rcases List.mem_append.mp hmem with hmem | hmem
    · exact h.rowId row hmem
    · rw [List.mem_singleton.mp hmem]
      exact hrow.symm

end Other

end RequestIds

/-- The job is not written yet. -/
def RequestPhase.beforeCommit : RequestPhase → Bool
  | .checking => true
  | .loading _ => true
  | .reserving => true
  | .rechecking => true
  | .committing => true
  | _ => false

/-- No two calls have an identifier in common. -/
def DistinctIds (calls : KeyedTable ℕ RequestCall) : Prop :=
  ∀ i j c d, calls i = some c → calls j = some d →
    c.ids.jobId = d.ids.jobId ∨ c.ids.rowId = d.ids.rowId → i = j

namespace DistinctIds

variable {calls : KeyedTable ℕ RequestCall} {i : ℕ} {c c' : RequestCall}

theorem set (h : DistinctIds calls) (hnew : ∀ j d, j ≠ i → calls j = some d →
    d.ids.jobId ≠ c'.ids.jobId ∧ d.ids.rowId ≠ c'.ids.rowId) : DistinctIds (calls.set i c') := by
  intro j k d e hj hk hids
  rcases KeyedTable.set_eq_some_iff.mp hj with ⟨hji, rfl⟩ | ⟨hji, hj'⟩
  · rcases KeyedTable.set_eq_some_iff.mp hk with ⟨hki, -⟩ | ⟨hki, hk'⟩
    · rw [hji, hki]
    · obtain ⟨hjob, hrow⟩ := hnew k e hki hk'
      exact (hids.elim (fun heq => hjob heq.symm) fun heq => hrow heq.symm).elim
  · rcases KeyedTable.set_eq_some_iff.mp hk with ⟨hki, rfl⟩ | ⟨hki, hk'⟩
    · obtain ⟨hjob, hrow⟩ := hnew j d hji hj'
      exact (hids.elim hjob hrow).elim
    · exact h j k d e hj' hk' hids

theorem ne (h : DistinctIds calls) (hi : calls i = some c) {j : ℕ} {d : RequestCall} (hj : j ≠ i)
    (hd : calls j = some d) : d.ids.jobId ≠ c.ids.jobId ∧ d.ids.rowId ≠ c.ids.rowId :=
  ⟨fun heq => hj (h j i d c hd hi (.inl heq)), fun heq => hj (h j i d c hd hi (.inr heq))⟩

end DistinctIds

/-! ### What a step commits -/

namespace RequestCall

variable {cfg : RequestSettings} {now : Instant} {fate : TxFate} {c : RequestCall} {db : Db}

theorem commit?_of_ne (hp : c.phase ≠ .committing) : c.commit? cfg now fate db = none := by
  unfold commit?
  split
  · next hp' _ => exact absurd hp' hp
  · rfl

theorem commit?_of_not_takesEffect (hf : fate.takesEffect = false) :
    c.commit? cfg now fate db = none := by
  unfold commit?
  split
  · exact if_neg (by rw [hf]; decide)
  · rfl

theorem commit?_of_not_fresh (h : ¬ (db.jobs c.ids.jobId = none ∧
    ∀ row ∈ db.outbox, row.id ≠ c.ids.rowId)) : c.commit? cfg now fate db = none := by
  have hbody : JobService.createTx cfg.topic c.ids c.payload db =
      .error "duplicate key value violates unique constraint" :=
    if_neg (by rwa [Option.isNone_iff_eq_none])
  unfold commit?
  rw [hbody]
  cases c.phase <;> rfl

/-- A transaction that takes effect commits the job. -/
theorem commit?_of_goesOn (hp : c.phase = .committing) (hjob : db.jobs c.ids.jobId = none)
    (hrow : ∀ row ∈ db.outbox, row.id ≠ c.ids.rowId) {phase phase' : RequestPhase}
    (hphase : GoesOn fate phase phase') :
    c.commit? cfg now fate db = some ⟨c.requestKey, c.ids.jobId, now⟩ := by
  have hbody : JobService.createTx cfg.topic c.ids c.payload db =
      .ok (some ((), JobService.createdDb cfg.topic c.ids c.payload db)) :=
    if_pos ⟨by rw [hjob]; rfl, hrow⟩
  have hf : fate.takesEffect = true := by
    rcases hphase with ⟨rfl, -⟩ | ⟨e, rfl, -⟩ <;> rfl
  unfold commit?
  rw [hp, hbody]
  exact if_pos hf

/-- A step commits nothing and leaves the tables, or it writes the job. -/
theorem Effect.commit?_cases {redis redis' : Redis} {db' : Db} {phase' : RequestPhase}
    (h : c.Effect cfg now redis db fate phase' redis' db') :
    (c.commit? cfg now fate db = none ∧ db' = db ∧ phase' ≠ .completing ∧
      (c.phase.beforeCommit = false → phase'.beforeCommit = false)) ∨
    (c.phase = .committing ∧ db.jobs c.ids.jobId = none ∧
      (∀ row ∈ db.outbox, row.id ≠ c.ids.rowId) ∧ GoesOn fate .completing phase' ∧
      redis' = redis ∧ db' = JobService.createdDb cfg.topic c.ids c.payload db) := by
  -- a step from a phase before the commit
  have hopen : ∀ {p : RequestPhase}, c.phase = p → p.beforeCommit = true → p ≠ .committing →
      phase' ≠ .completing → c.commit? cfg now fate db = none ∧ db = db ∧ phase' ≠ .completing ∧
        (c.phase.beforeCommit = false → phase'.beforeCommit = false) := by
    intro p hp hbefore hne hphase
    refine ⟨commit?_of_ne (by rwa [hp]), rfl, hphase, fun hafter => ?_⟩
    rw [hp, hbefore] at hafter
    cases hafter
  cases h with
  | failed hp hf hcommit =>
    refine .inl ⟨?_, rfl, by simp, fun _ => rfl⟩
    by_cases hc : c.phase = .committing
    · exact commit?_of_not_takesEffect (hcommit hc)
    · exact commit?_of_ne hc
  | rejected hp =>
    refine .inl ⟨?_, rfl, by simp, fun _ => rfl⟩
    rcases hp with ⟨hp, -⟩ | ⟨hp, -⟩ | ⟨-, hfresh⟩
    · exact commit?_of_ne (by simp [hp])
    · exact commit?_of_ne (by simp [hp])
    · exact commit?_of_not_fresh hfresh
  | found hp =>
    rcases hp with hp | hp
    · exact .inl (hopen hp rfl (by simp) (by simp))
    · exact .inl (hopen hp rfl (by simp) (by simp))
  | absent hp => exact .inl (hopen hp rfl (by simp) (by simp))
  | unreservable hp => exact .inl (hopen hp rfl (by simp) (by simp))
  | loaded hp => exact .inl (hopen hp rfl (by simp) (by simp))
  | missing hp => exact .inl (hopen hp rfl (by simp) (by simp))
  | granted hp _ _ hphase =>
    refine .inl (hopen hp rfl (by simp) ?_)
    rcases hphase with ⟨-, rfl⟩ | ⟨e, -, rfl⟩ <;> simp
  | refused hp => exact .inl (hopen hp rfl (by simp) (by simp))
  | committed hp hjob hrow hphase => exact .inr ⟨hp, hjob, hrow, hphase, rfl, rfl⟩
  | completed hp _ hphase =>
    refine .inl ⟨commit?_of_ne (by simp [hp]), rfl, ?_, fun _ => ?_⟩
    · rcases hphase with ⟨-, rfl⟩ | ⟨e, -, rfl⟩ <;> simp
    · rcases hphase with ⟨-, rfl⟩ | ⟨e, -, rfl⟩ <;> rfl

/-- Only a reservation leads to the commit. -/
theorem Effect.granted_of_committing {redis redis' : Redis} {db' : Db}
    (h : c.Effect cfg now redis db fate .committing redis' db') :
    c.phase = .reserving ∧ fate = .commits ∧ 0 < cfg.store.processingTtlSeconds ∧
      RedisIdempotencyStore.getRequestRecord redis now c.requestKey = none ∧ db' = db := by
  cases h with
  | granted hp hpos hnone hphase =>
    rcases hphase with ⟨hf, -⟩ | ⟨e, -, hraised⟩
    · exact ⟨hp, hf, hpos, hnone, rfl⟩
    · cases hraised
  | committed _ _ _ hphase => rcases hphase with ⟨-, hp⟩ | ⟨e, -, hp⟩ <;> cases hp
  | completed _ _ hphase => rcases hphase with ⟨-, hp⟩ | ⟨e, -, hp⟩ <;> cases hp

end RequestCall

namespace RequestWorld

/-- How a call stands to the tables and to the jobs committed so far. -/
def RowsAgree (cfg : RequestSettings) (w : RequestWorld) (c : RequestCall) : Prop :=
  (c.ids.Absent w.db ∧ c.phase ≠ .completing ∧ ∀ x ∈ w.commits, x.jobId ≠ c.ids.jobId) ∨
    (c.ids.Written cfg.topic c.payload w.db ∧ c.phase.beforeCommit = false ∧
      ∃ x ∈ w.commits, x.key = c.requestKey ∧ x.jobId = c.ids.jobId)

/-- What holds of the calls, the tables and the jobs committed so far. -/
structure Sound (cfg : RequestSettings) (w : RequestWorld) : Prop where
  drawn : ∀ i c, w.calls i = some c → c.ids ∈ w.drawn
  distinct : DistinctIds w.calls
  rows : ∀ i c, w.calls i = some c → w.RowsAgree cfg c
  stored : ∀ x ∈ w.commits, ∃ row, w.db.jobs x.jobId = some row

variable {cfg : RequestSettings} {w w' : RequestWorld} {i : ℕ} {c : RequestCall}

namespace Sound

theorem absent (h : w.Sound cfg) (hi : w.calls i = some c) (hp : c.phase.beforeCommit = true) :
    c.ids.Absent w.db := by
  rcases h.rows i c hi with ⟨ha, -⟩ | ⟨-, hp', -⟩
  · exact ha
  · cases hp.symm.trans hp'

theorem rephase (h : w.Sound cfg) (hi : w.calls i = some c) {phase' : RequestPhase}
    (redis' : Redis) (hne : phase' ≠ .completing)
    (hafter : c.phase.beforeCommit = false → phase'.beforeCommit = false) :
    Sound cfg { w with redis := redis', calls := w.calls.set i { c with phase := phase' } } where
  drawn j d hj := by
    rcases KeyedTable.set_eq_some_iff.mp hj with ⟨-, rfl⟩ | ⟨-, hj⟩
    · exact h.drawn i c hi
    · exact h.drawn j d hj
  distinct := h.distinct.set fun j d hj hd => h.distinct.ne hi hj hd
  rows j d hj := by
    rcases KeyedTable.set_eq_some_iff.mp hj with ⟨-, rfl⟩ | ⟨-, hj⟩
    · rcases h.rows i c hi with ⟨ha, -, hx⟩ | ⟨hw, hp, hx⟩
      · exact .inl ⟨ha, hne, hx⟩
      · exact .inr ⟨hw, hafter hp, hx⟩
    · exact h.rows j d hj
  stored := h.stored

theorem begin (h : w.Sound cfg) {idempotencyKey : Option String} {drawnKey : String}
    {payload : Dict} {ids : RequestIds} (hfresh : w.Fresh ids) :
    Sound cfg { w with
      calls := w.calls.set i ⟨idempotencyKey, drawnKey, payload, ids, .checking⟩
      drawn := ids :: w.drawn } where
  drawn j d hj := by
    rcases KeyedTable.set_eq_some_iff.mp hj with ⟨-, rfl⟩ | ⟨-, hj⟩
    · exact List.mem_cons_self
    · exact List.mem_cons_of_mem _ (h.drawn j d hj)
  distinct := h.distinct.set fun j d _ hd => hfresh.2.2.2 _ (h.drawn j d hd)
  rows j d hj := by
    rcases KeyedTable.set_eq_some_iff.mp hj with ⟨-, rfl⟩ | ⟨-, hj⟩
    · obtain ⟨hjob, hevents, hrows, -⟩ := hfresh
      have hjob := Option.isNone_iff_eq_none.mp hjob
      refine .inl ⟨⟨hjob, ?_, ?_, fun row hm => (hrows row hm).1⟩, by simp, fun x hx heq => ?_⟩
      · exact List.filter_eq_nil_iff.mpr fun e he => by simpa using hevents e he
      · exact List.filter_eq_nil_iff.mpr fun row hm => by simpa using (hrows row hm).2
      · obtain ⟨row, hrow⟩ := h.stored x hx
        rw [heq, hjob] at hrow
        cases hrow
    · exact h.rows j d hj
  stored := h.stored

theorem commit (h : w.Sound cfg) (hi : w.calls i = some c) (hp : c.phase = .committing)
    {phase' : RequestPhase} (hphase : phase'.beforeCommit = false) :
    Sound cfg { w with
      db := JobService.createdDb cfg.topic c.ids c.payload w.db
      calls := w.calls.set i { c with phase := phase' }
      commits := w.commits ++ [⟨c.requestKey, c.ids.jobId, w.clock⟩] } where
  drawn j d hj := by
    rcases KeyedTable.set_eq_some_iff.mp hj with ⟨-, rfl⟩ | ⟨-, hj⟩
    · exact h.drawn i c hi
    · exact h.drawn j d hj
  distinct := h.distinct.set fun j d hj hd => h.distinct.ne hi hj hd
  rows j d hj := by
    rcases KeyedTable.set_eq_some_iff.mp hj with ⟨-, rfl⟩ | ⟨hne, hj⟩
    · have habsent := h.absent hi (by rw [hp]; rfl)
      exact .inr ⟨habsent.written cfg.topic c.payload, hphase, _,
        List.mem_append_right _ (List.mem_singleton_self _), rfl, rfl⟩
    · obtain ⟨hjob, hrow⟩ := h.distinct.ne hi hne hj
      rcases h.rows j d hj with ⟨ha, hp', hx⟩ | ⟨hw, hp', x, hx, hxd⟩
      · refine .inl ⟨ha.createdDb hjob hrow, hp', fun x hm => ?_⟩
        rcases List.mem_append.mp hm with hm | hm
        · exact hx x hm
        · rw [List.mem_singleton.mp hm]
          exact hjob.symm
      · exact .inr ⟨hw.createdDb hjob, hp', x, List.mem_append_left _ hx, hxd⟩
  stored x hm := by
    rw [JobService.createdDb_jobs]
    by_cases hx : x.jobId = c.ids.jobId
    · exact ⟨_, by rw [hx, KeyedTable.set_self]⟩
    · rcases List.mem_append.mp hm with hm | hm
      · obtain ⟨row, hrow⟩ := h.stored x hm
        exact ⟨row, by rw [KeyedTable.set_of_ne _ _ hx, hrow]⟩
      · exact absurd (by rw [List.mem_singleton.mp hm]) hx

/-- **Step lemma.** A step of a call. -/
theorem stepped (h : w.Sound cfg) (hi : w.calls i = some c) {fate : TxFate}
    {phase' : RequestPhase} {redis' : Redis} {db' : Db}
    (heff : c.Effect cfg w.clock w.redis w.db fate phase' redis' db') :
    Sound cfg { w with
      redis := redis'
      db := db'
      calls := w.calls.set i { c with phase := phase' }
      commits := w.commits ++ (c.commit? cfg w.clock fate w.db).toList } := by
  rcases heff.commit?_cases with ⟨hnone, rfl, hne, hafter⟩ | ⟨hp, hjob, hrow, hphase, rfl, rfl⟩
  · rw [hnone, Option.toList_none, List.append_nil]
    exact h.rephase hi redis' hne hafter
  · rw [RequestCall.commit?_of_goesOn hp hjob hrow hphase, Option.toList_some]
    refine h.commit hi hp ?_
    rcases hphase with ⟨-, rfl⟩ | ⟨e, -, rfl⟩ <;> rfl

/-- Every step keeps the soundness. -/
theorem of_effect (h : w.Sound cfg) {a : RequestAct} (heff : Effect cfg w a w') :
    w'.Sound cfg := by
  cases heff with
  | begun hi hfresh => exact h.begin hfresh
  | stepped hi heff => exact h.stepped hi heff
  | crashed hi hp => exact h.rephase hi w.redis (by simp) fun _ => rfl
  | ticked => exact ⟨h.drawn, h.distinct, h.rows, h.stored⟩
  | lost => exact ⟨h.drawn, h.distinct, h.rows, h.stored⟩

theorem of_init (h : (requests cfg).init w) : w.Sound cfg := by
  obtain ⟨hcalls, -, hcommits⟩ := h
  refine ⟨fun i c hi => ?_, fun i j c d hi => ?_, fun i c hi => ?_, fun x hx => ?_⟩
  · cases (hcalls i).symm.trans hi
  · cases (hcalls i).symm.trans hi
  · cases (hcalls i).symm.trans hi
  · rw [hcommits] at hx
    cases hx

end Sound

end RequestWorld

end Morphflow
