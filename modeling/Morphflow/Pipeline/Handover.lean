import Morphflow.Pipeline.Coherence
import Morphflow.Pipeline.Exclusion
import Morphflow.Pipeline.Replay

/-!
# The handovers of the inference stage

`InferencePipelineService` completes a job by one transaction, the *handover*: the event
`INFERENCE_COMPLETED` and the message for the downstream stage. The transaction does not look at
the row of the job, so a worker whose lease was taken over hands over all the same. A handover is
fenced exactly when the newest `PROCESSING_STARTED` in the log of the job is that of the worker's
own claim.

## Main definitions

* `inferenceStage`: inference workers on one store.
* `handovers`: the handovers along a run.
* `Handover.Fenced`, `Handover.LastStarted`.

## Main results

* `handover_fenced_iff`: which handovers are fenced; a claim is handed over at most once.
* `handover_not_fenced`: a run in which a worker hands over after a take-over.
-/

namespace Morphflow

/-- The calls of `InferencePipelineService`. -/
def Service.isInference : Service → Bool
  | .inference .. => true
  | _ => false

/-- Inference workers on one store, together with the requests. -/
def inferenceStage (topics : Topics) : TransitionSystem World Action :=
  (pipeline topics).restrict fun _ a => a.startsOnly Service.isInference

/-- A committed completion: the state it was committed in and the lease of its call. -/
structure Handover where
  before : World
  lease : JobLease

namespace Handover

/-- The call acts under the current lease of a job that is `PROCESSING`. -/
def Fenced (h : Handover) : Prop :=
  ∃ row, h.before.db.jobs h.lease.jobId = some row ∧ row.leaseEpoch = h.lease.epoch ∧
    row.leaseOwner = some h.lease.owner ∧ row.status = .processing

/-- The log tells of no claim of the job after that of the call. -/
def LastStarted (h : Handover) : Prop :=
  (startedEpochs (h.before.db.eventsOf h.lease.jobId)).getLast? =
    some (some (.int h.lease.epoch))

/-- The claim that is handed over. -/
def claim (h : Handover) : Uuid × ℕ := (h.lease.jobId, h.lease.epoch)

end Handover

/-- The handover an action commits. -/
def World.handover? (w : World) : Action → Option Handover
  | .leased i (.complete _ fate) =>
    match w.calls i with
    | some (.inference c) =>
      match c.phase with
      | .completing lease _ => if fate.takesEffect then some ⟨w, lease⟩ else none
      | _ => none
    | _ => none
  | _ => none

/-- The handovers along a run. -/
def handovers (topics : Topics) (w : World) (as : List Action) : List Handover :=
  (inferenceStage topics).observe World.handover? w as

/-- The jobs whose inference the log tells of as completed. -/
def Db.completedInferences (db : Db) : List Uuid :=
  (eventsOfType .inferenceCompleted db.events).map (·.jobId)

/-- The jobs of the messages for the downstream stage. -/
def Db.downstreamMessages (db : Db) : List Uuid :=
  (eventsOfType .inferenceCompleted (db.outbox.map (·.payload))).map (·.jobId)

/-- No inference is logged, and nothing is published. -/
def Db.Quiet (db db' : Db) : Prop :=
  db'.outbox = db.outbox ∧ (db'.events = db.events ∨
    ∃ e : Event, e.eventType ≠ .inferenceCompleted ∧ db'.events = db.events ++ [e])

theorem Db.Quiet.refl (db : Db) : db.Quiet db := ⟨rfl, .inl rfl⟩

theorem Db.completedInferences_of_append {db db' : Db} {e : Event}
    (h : db'.events = db.events ++ [e]) : db'.completedInferences =
      db.completedInferences ++ if e.eventType = .inferenceCompleted then [e.jobId] else [] := by
  by_cases he : e.eventType = .inferenceCompleted <;>
    simp [completedInferences, eventsOfType, h, he]

theorem Db.downstreamMessages_of_append {db db' : Db} {row : OutboxRow}
    (h : db'.outbox = db.outbox ++ [row]) : db'.downstreamMessages = db.downstreamMessages ++
      if row.payload.eventType = .inferenceCompleted then [row.payload.jobId] else [] := by
  by_cases he : row.payload.eventType = .inferenceCompleted <;>
    simp [downstreamMessages, eventsOfType, h, he]

/-! ### What a step does -/

/-- The lease under which a call may still complete its job. -/
def LeasedCall.completable? (c : LeasedCall) : Option JobLease :=
  match c.phase with
  | .processing lease => some lease
  | .completing lease _ => some lease
  | _ => none

section Steps

variable {topics : Topics} {w w' : World} {c : LeasedCall} {db db' : Db} {a : LeasedAct}
  {phase' : LeasedPhase} {source : String} {completeTx : CompleteTx} {lease : JobLease}

theorem LeasedCall.lease?_of_completable? (h : c.completable? = some lease) :
    c.lease? = some lease := by
  cases hp : c.phase with
  | processing => simpa [LeasedCall.completable?, LeasedCall.lease?, hp] using h
  | completing => simpa [LeasedCall.completable?, LeasedCall.lease?, hp] using h
  | _ => simp [LeasedCall.completable?, hp] at h

/-- A step leaves a call with the job it could complete, with none, or with the one it claimed. -/
theorem LeasedCall.Effect.completable? (h : c.Effect source completeTx db a phase' db')
    (hl : ({ c with phase := phase' } : LeasedCall).completable? = some lease) :
    c.completable? = some lease ∨ ∃ row now, db.jobs c.event.jobId = some row ∧
      lease = c.leaseOn row now := by
  cases h with
  | @claimed now _ _ row _ _ _ hrow _ hphase =>
    rcases hphase with rfl | ⟨e, rfl⟩
    · exact .inr ⟨row, now, hrow, (Option.some.inj hl).symm⟩
    · cases hl
  | answered =>
    have hnone := LeasedCall.lease?_of_completable? hl
    rw [LeasedCall.lease?_readBack] at hnone
    cases hnone
  | processed hp =>
    left
    have hlease := LeasedCall.lease?_of_completable? hl
    rw [LeasedCall.lease?_afterProcess] at hlease
    rw [LeasedCall.completable?, hp]
    exact hlease
  | completed _ _ hphase => rcases hphase with rfl | ⟨e, rfl⟩ <;> cases hl
  | failed _ _ _ hphase => rcases hphase with rfl | ⟨e, rfl⟩ <;> cases hl
  | _ => cases hl

theorem LeasedCall.eq_complete_of_step {c' : LeasedCall} {result : Dict}
    (hp : c.phase = .completing lease result)
    (h : c.step source completeTx db a = some (c', db')) : ∃ ids fate, a = .complete ids fate := by
  cases a with
  | complete ids fate => exact ⟨ids, fate, rfl⟩
  | _ => simp [LeasedCall.step, LeasedCall.phaseStep, hp] at h

/-- A call that awaits its completion hands over, and returns unless the commit raises, or the
transaction raises before its commit. -/
theorem InferencePipelineService.handed_of_completing {topic : String} {c' : LeasedCall}
    {result : Dict} (hp : c.phase = .completing lease result)
    (h : InferencePipelineService.step topic c db a = some (c', db')) :
    ∃ ids fate, a = .complete ids fate ∧
      ((fate.takesEffect = true ∧ c'.completable? = none ∧
        ((∃ e, fate = .raisesAfter e) ∨ c'.phase = .returned true none) ∧
        db' = handedOverDb topic c result ids db) ∨ (fate.takesEffect = false ∧ db' = db)) := by
  obtain ⟨ids, fate, rfl⟩ := LeasedCall.eq_complete_of_step hp h
  refine ⟨ids, fate, rfl, ?_⟩
  simp only [InferencePipelineService.step, LeasedCall.step, LeasedCall.phaseStep, hp,
    Option.map_some, Option.some.injEq, Prod.mk.injEq] at h
  obtain ⟨rfl, rfl⟩ := h
  cases fate with
  | commits => exact .inl ⟨rfl, rfl, .inr rfl, rfl⟩
  | raisesBefore e => exact .inr ⟨rfl, rfl⟩
  | raisesAfter e => exact .inl ⟨rfl, rfl, .inl ⟨e, rfl⟩, rfl⟩

theorem World.handover?_of_ne_completing {i : ℕ} (hi : w.calls i = some (.inference c))
    (hp : ∀ lease result, c.phase ≠ .completing lease result) (a : LeasedAct) :
    w.handover? (.leased i a) = none := by
  cases a with
  | complete ids fate =>
    cases hp' : c.phase with
    | completing lease result => exact absurd hp' (hp lease result)
    | _ => simp [handover?, hi, hp']
  | _ => rfl

/-- A step is quiet, but for what its completion does. -/
theorem LeasedCall.Effect.quiet (h : c.Effect source completeTx db a phase' db')
    (hcomplete : ∀ lease result ids db₁, c.phase = .completing lease result →
      completeTx c lease result ids db = .ok (some ((), db₁)) → db.Quiet db₁) : db.Quiet db' := by
  cases h with
  | claimed => exact ⟨rfl, .inr ⟨_, by simp [startEvent], rfl⟩⟩
  | completed hp htx => exact hcomplete _ _ _ _ hp htx
  | failed => exact ⟨rfl, .inr ⟨_, by simp [failureEvent], rfl⟩⟩
  | _ => exact .refl _

theorem RowChange.epoch_le {row : JobRow} {row? : Option JobRow} (h : RowChange (some row) row?) :
    ∃ row', row? = some row' ∧ row.leaseEpoch ≤ row'.leaseEpoch := by
  cases h with
  | claimed => exact ⟨_, rfl, Nat.le_succ _⟩
  | _ => exact ⟨_, rfl, le_rfl⟩

end Steps

/-! ### The claims told by the log -/

/-- The last start in the log has the epoch of the row. -/
theorem StartsLogged.getLast?_eq_iff {row : JobRow} {events : List Event}
    (h : StartsLogged (some row) events) {epoch : ℕ} (hpos : 0 < epoch) :
    (startedEpochs events).getLast? = some (some (.int epoch)) ↔ row.leaseEpoch = epoch := by
  rw [h, Option.elim_some]
  rcases Nat.eq_zero_or_pos row.leaseEpoch with h0 | h0
  · rw [h0]
    simp [hpos.ne]
  · obtain ⟨n, hn⟩ := Nat.exists_eq_succ_of_ne_zero h0.ne'
    rw [hn, Nat.succ_eq_add_one, List.range'_concat, List.map_append, List.map_singleton,
      List.getLast?_concat]
    simp only [Nat.one_mul, Option.some.injEq, Json.int.injEq, Nat.cast_inj]
    omega

theorem LeasedCall.Effect.startsLogged {topic : String} {c : LeasedCall} {db db' : Db}
    {a : LeasedAct} {phase' : LeasedPhase}
    (h : c.Effect "inference-worker" (InferencePipelineService.completeTx topic) db a phase' db')
    (hdb : db.PerJob StartsLogged) : db'.PerJob StartsLogged := by
  cases h with
  | claimed _ _ hrow =>
    refine hdb.recorded rfl rfl rfl fun hlog => ?_
    rw [hrow] at hlog
    exact hlog.claimed ..
  | completed _ htx =>
    obtain rfl := InferencePipelineService.completeTx_eq_some_iff.mp htx
    exact hdb.logged rfl rfl fun hlog => hlog.append_of_ne (by simp) rfl
  | failed _ hrow =>
    refine hdb.recorded rfl rfl rfl fun hlog => ?_
    rw [hrow] at hlog
    exact hlog.append_of_ne (by simp [LeasedCall.failureEvent]) rfl
  | _ => exact hdb

/-! ### What holds of the claims -/

section Runs

variable {topics : Topics} {w w' : World} {hs : List Handover} {i : ℕ} {c c' : LeasedCall}
  {a : LeasedAct} {phase' : LeasedPhase} {db' : Db}

/-- A current lease is the lease of a `PROCESSING` row, and the log tells of every claim. -/
structure World.ClaimsSound (w : World) : Prop where
  disciplined : (jobFencing fun lease row => row.leaseOwner = some lease.owner ∧
    row.status = .processing).Disciplined w.db.jobs w.inferenceLease
  named : ∀ i c, w.calls i = some (.inference c) → c.LeaseNamed
  positive : ∀ i lease, w.inferenceLease i = some lease → 0 < lease.epoch
  started : w.db.PerJob StartsLogged

namespace World.ClaimsSound

/-- A handover is fenced when the log tells of no later claim. -/
theorem fenced_iff (h : w.ClaimsSound) {lease : JobLease} (hl : w.inferenceLease i = some lease) :
    (Handover.mk w lease).Fenced ↔ (Handover.mk w lease).LastStarted := by
  obtain ⟨row, hrow, -, hvalid⟩ := h.disciplined.fenced i lease hl
  have hrow : w.db.jobs lease.jobId = some row := hrow
  have hlog := h.started lease.jobId
  rw [hrow] at hlog
  rw [Handover.LastStarted, hlog.getLast?_eq_iff (h.positive i lease hl)]
  constructor
  · rintro ⟨row', hrow', hepoch, -⟩
    obtain rfl := Option.some.inj (hrow.symm.trans hrow')
    exact hepoch
  · intro hepoch
    obtain ⟨ho, hs⟩ := hvalid hepoch.symm
    exact ⟨row, hrow, hepoch, ho, hs⟩

theorem created (h : w.ClaimsSound) {ids : RequestIds} {payload : Dict}
    (hjob : w.db.jobs ids.jobId = none) :
    { w with db := JobService.createdDb topics.request ids payload w.db : World }.ClaimsSound where
  disciplined := h.disciplined.insert hjob fun _ _ hl => hl
  named := h.named
  positive := h.positive
  started := by
    refine h.started.recorded (JobService.createdDb_jobs ..) (JobService.createdDb_events ..) rfl
      fun hlog => ?_
    rw [hjob] at hlog
    exact hlog.append_of_ne (by simp [JobService.requestEvent]) rfl

theorem start (h : w.ClaimsSound) (i : ℕ) (service : Service) (event : Event) :
    (w.goOn i (service.handleEvent event) w.db).ClaimsSound where
  disciplined := h.disciplined.release fun _ _ => inferenceLease_of_start
  named := World.LeasesNamed.start h.named
  positive j lease hl := h.positive j lease (inferenceLease_of_start hl)
  started := h.started

theorem inference (h : w.ClaimsSound) (hi : w.calls i = some (.inference c))
    (heff : c.Effect "inference-worker" (InferencePipelineService.completeTx topics.downstream)
      w.db a phase' db') : (w.goOn i (.inference { c with phase := phase' }) db').ClaimsSound := by
  have hli : w.inferenceLease i = c.lease? := by rw [World.inferenceLease, hi]
  have hnamed := h.named i c hi
  refine ⟨?_, World.LeasesNamed.inference h.named (heff.leaseNamed hnamed), fun j lease hl => ?_,
    heff.startsLogged h.started⟩
  · refine heff.disciplined h.disciplined hli World.inferenceLease_goOn_self
      (fun j m hj hm => ?_) hnamed (fun _ _ => ⟨rfl, rfl⟩) fun lease result ids db₁ htx => ?_
    · rwa [World.inferenceLease_goOn_of_ne hj] at hm
    · obtain rfl := InferencePipelineService.completeTx_eq_some_iff.mp htx
      exact .inl rfl
  · by_cases hj : j = i
    · subst hj
      rw [World.inferenceLease_goOn_self] at hl
      rcases heff.lease? hl with hl | ⟨row, now, rfl⟩
      · exact h.positive j lease (hli.trans hl)
      · exact Nat.succ_pos _
    · rw [World.inferenceLease_goOn_of_ne hj] at hl
      exact h.positive j lease hl

end World.ClaimsSound

/-! ### The handovers along a run -/

/-- A claim that was handed over: no call can complete it any more. -/
def Handover.Spent (h : Handover) (w : World) : Prop :=
  (∃ row, w.db.jobs h.lease.jobId = some row ∧ h.lease.epoch ≤ row.leaseEpoch) ∧
    ∀ i c lease, w.calls i = some (.inference c) → c.completable? = some lease →
      (lease.jobId, lease.epoch) ≠ h.claim

/-- What holds of a state and of the handovers on the way to it. -/
structure Handed (w : World) (hs : List Handover) : Prop where
  claims : w.ClaimsSound
  completed : w.db.completedInferences = hs.map (·.lease.jobId)
  messages : w.db.downstreamMessages = hs.map (·.lease.jobId)
  fenced : ∀ h ∈ hs, h.Fenced ↔ h.LastStarted
  nodup : (hs.map Handover.claim).Nodup
  spent : ∀ h ∈ hs, h.Spent w

/-- A handover stays spent over a step of an inference. -/
theorem Handover.Spent.inference {h : Handover} (hspent : h.Spent w)
    (hi : w.calls i = some (.inference c))
    (heff : c.Effect "inference-worker" (InferencePipelineService.completeTx topics.downstream)
      w.db a phase' db') : h.Spent (w.goOn i (.inference { c with phase := phase' }) db') := by
  obtain ⟨⟨row, hrow, hle⟩, hcalls⟩ := hspent
  have hchange := heff.rowChange (fun _ _ _ _ => InferencePipelineService.rowChange_of_completeTx)
    h.lease.jobId
  rw [hrow] at hchange
  obtain ⟨row', hrow', hle'⟩ := hchange.epoch_le
  refine ⟨⟨row', hrow', hle.trans hle'⟩, fun j d lease hj hl => ?_⟩
  rcases KeyedTable.set_eq_some_iff.mp hj with ⟨-, heq⟩ | ⟨-, hj⟩
  · obtain rfl := Call.inference.inj heq
    rcases heff.completable? hl with hl | ⟨row₀, now, hrow₀, rfl⟩
    · exact hcalls i c lease hi hl
    · -- a new claim has a new epoch
      intro heq
      obtain ⟨hjob, hepoch⟩ := Prod.mk.inj heq
      rw [← hjob] at hrow
      obtain rfl := Option.some.inj (hrow₀.symm.trans hrow)
      simp only [LeasedCall.leaseOn] at hepoch
      omega
  · exact hcalls j d lease hj hl

namespace Handed

theorem created (h : Handed w hs) {ids : RequestIds} {payload : Dict}
    (hjob : w.db.jobs ids.jobId = none) :
    Handed { w with db := JobService.createdDb topics.request ids payload w.db } hs where
  claims := h.claims.created hjob
  completed := by
    rw [Db.completedInferences_of_append (JobService.createdDb_events ..), ← h.completed]
    exact List.append_nil _
  messages := by
    rw [Db.downstreamMessages_of_append rfl, ← h.messages]
    exact List.append_nil _
  fenced := h.fenced
  nodup := h.nodup
  spent x hx := by
    obtain ⟨⟨row, hrow, hle⟩, hcalls⟩ := h.spent x hx
    have hne : x.lease.jobId ≠ ids.jobId := by
      intro heq
      rw [heq, hjob] at hrow
      cases hrow
    refine ⟨⟨row, ?_, hle⟩, hcalls⟩
    rw [JobService.createdDb_jobs, KeyedTable.set_of_ne _ _ hne, hrow]

theorem start (h : Handed w hs) (i : ℕ) (service : Service) (event : Event) :
    Handed (w.goOn i (service.handleEvent event) w.db) hs where
  claims := h.claims.start i service event
  completed := h.completed
  messages := h.messages
  fenced := h.fenced
  nodup := h.nodup
  spent x hx := by
    refine ⟨(h.spent x hx).1, fun j c lease hc hl => ?_⟩
    rcases World.calls_start hc with hc | hp
    · exact (h.spent x hx).2 j c lease hc hl
    · simp [LeasedCall.completable?, hp] at hl

/-- A step of an inference that commits no completion. -/
theorem inference_of_none (h : Handed w hs) (hi : w.calls i = some (.inference c))
    (heff : c.Effect "inference-worker" (InferencePipelineService.completeTx topics.downstream)
      w.db a phase' db') (hquiet : w.db.Quiet db') :
    Handed (w.goOn i (.inference { c with phase := phase' }) db') hs where
  claims := h.claims.inference hi heff
  completed := by
    rw [← h.completed, World.goOn_db]
    rcases hquiet.2 with hevents | ⟨e, he, hevents⟩
    · rw [Db.completedInferences, hevents, Db.completedInferences]
    · rw [Db.completedInferences_of_append hevents, if_neg he, List.append_nil]
  messages := by
    rw [← h.messages, World.goOn_db, Db.downstreamMessages, hquiet.1, Db.downstreamMessages]
  fenced := h.fenced
  nodup := h.nodup
  spent x hx := (h.spent x hx).inference hi heff

theorem handover (h : Handed w hs) (hi : w.calls i = some (.inference c)) {lease : JobLease}
    {result : Dict} {ids : CompletionIds} (hp : c.phase = .completing lease result)
    (heff : c.Effect "inference-worker" (InferencePipelineService.completeTx topics.downstream)
      w.db a phase' (InferencePipelineService.handedOverDb topics.downstream c result ids w.db))
    (hdone : ({ c with phase := phase' } : LeasedCall).completable? = none) :
    Handed (w.goOn i (.inference { c with phase := phase' })
      (InferencePipelineService.handedOverDb topics.downstream c result ids w.db))
      (hs ++ [⟨w, lease⟩]) := by
  have hcl : c.completable? = some lease := by rw [LeasedCall.completable?, hp]
  have hl : w.inferenceLease i = some lease :=
    World.inferenceLease_eq_some_iff.mpr ⟨c, hi, LeasedCall.lease?_of_completable? hcl⟩
  have hjob : lease.jobId = c.event.jobId :=
    h.claims.named i c hi lease (LeasedCall.lease?_of_completable? hcl)
  refine ⟨h.claims.inference hi heff, ?_, ?_, ?_, ?_, ?_⟩
  · rw [World.goOn_db, Db.completedInferences_of_append rfl, h.completed, List.map_append,
      List.map_singleton, hjob]
    rfl
  · rw [World.goOn_db, Db.downstreamMessages_of_append rfl, h.messages, List.map_append,
      List.map_singleton, hjob]
    rfl
  · intro x hx
    rcases List.mem_append.mp hx with hx | hx
    · exact h.fenced x hx
    · rw [List.mem_singleton.mp hx]
      exact h.claims.fenced_iff hl
  · rw [List.map_append, List.map_singleton]
    refine List.nodup_append.mpr ⟨h.nodup, List.nodup_singleton _, fun claim hmem own hown => ?_⟩
    obtain ⟨x, hx, rfl⟩ := List.mem_map.mp hmem
    rw [List.mem_singleton.mp hown]
    exact ((h.spent x hx).2 i c lease hi hcl).symm
  · intro x hx
    rcases List.mem_append.mp hx with hx | hx
    · exact (h.spent x hx).inference hi heff
    · obtain ⟨row, hrow, hle, -⟩ := h.claims.disciplined.fenced i lease hl
      rw [List.mem_singleton.mp hx]
      refine ⟨⟨row, hrow, hle⟩, fun j d own hj hown heq => ?_⟩
      rcases KeyedTable.set_eq_some_iff.mp hj with ⟨-, hcall⟩ | ⟨hne, hj⟩
      · obtain rfl := Call.inference.inj hcall
        cases hdone.symm.trans hown
      · -- no other call holds the claim
        obtain ⟨hkey, htoken⟩ := Prod.mk.inj heq
        have hj' := World.inferenceLease_eq_some_iff.mpr
          ⟨d, hj, LeasedCall.lease?_of_completable? hown⟩
        exact hne (h.claims.disciplined.unique j i own lease hj' hl hkey htoken)

/-- **Step lemma.** A step of an inference adds its handover. -/
theorem inference (h : Handed w hs) (hi : w.calls i = some (.inference c))
    (hstep : InferencePipelineService.step topics.downstream c w.db a = some (c', db')) :
    Handed (w.goOn i (.inference c') db') (hs ++ (w.handover? (.leased i a)).toList) := by
  obtain ⟨phase', rfl, heff⟩ := LeasedCall.effect_of_step hstep
  by_cases hp : ∃ lease result, c.phase = .completing lease result
  · obtain ⟨lease, result, hp⟩ := hp
    obtain ⟨ids, fate, rfl, ⟨hf, hdone, -, rfl⟩ | ⟨hf, rfl⟩⟩ :=
      InferencePipelineService.handed_of_completing hp hstep
    · have hhand : w.handover? (.leased i (.complete ids fate)) = some ⟨w, lease⟩ := by
        simp [World.handover?, hi, hp, hf]
      rw [hhand, Option.toList_some]
      exact h.handover hi hp heff hdone
    · have hhand : w.handover? (.leased i (.complete ids fate)) = none := by
        simp [World.handover?, hi, hp, hf]
      rw [hhand, Option.toList_none, List.append_nil]
      exact h.inference_of_none hi heff (.refl _)
  · have hne : ∀ lease result, c.phase ≠ .completing lease result :=
      fun lease result hp' => hp ⟨lease, result, hp'⟩
    have hhand := World.handover?_of_ne_completing hi hne a
    rw [hhand, Option.toList_none, List.append_nil]
    exact h.inference_of_none hi heff (heff.quiet fun _ _ _ _ hp' => absurd hp' (hne _ _))

end Handed

/-- Every run of the inference stage keeps account of its handovers. -/
theorem handed_of_run {w₀ : World} {as : List Action} (h₀ : (inferenceStage topics).init w₀)
    (hr : (inferenceStage topics).run w₀ as = some w) : Handed w (handovers topics w₀ as) := by
  refine (TransitionSystem.run_observes World.handover? (P := fun w hs => Handed w hs ∧
    ∀ i call, w.calls i = some call → call.service.isInference = true) ?_ ?_ h₀ hr).1
  · rintro w ⟨hdb, hcalls⟩
    have hnone : ∀ i, w.inferenceLease i = none := fun i => by rw [World.inferenceLease, hcalls i]
    refine ⟨⟨⟨.of_none hnone, fun i c hi => ?_, fun i l hl => ?_, fun jobId => ?_⟩, ?_, ?_,
      by simp, by simp, by simp⟩, fun i call hi => ?_⟩
    · cases (hcalls i).symm.trans hi
    · cases (hnone i).symm.trans hl
    · rw [hdb]
      rfl
    · rw [hdb]
      rfl
    · rw [hdb]
      rfl
    · cases (hcalls i).symm.trans hi
  · rintro w a w' hs - ⟨hw, honly⟩ hstep
    obtain ⟨hok, hstep⟩ := TransitionSystem.restrict_step_eq_some.mp hstep
    have heff := World.effect_of_step hstep
    refine ⟨?_, heff.service hok honly⟩
    have hkept : ∀ {w'}, Handed w' hs → w.handover? a = none →
        Handed w' (hs ++ (w.handover? a).toList) := by
      intro w' hw' hnone
      rwa [hnone, Option.toList_none, List.append_nil]
    cases a with
    | leased i a =>
      have hstep : w.step topics (.leased i a) = some w' := hstep
      cases hi : w.calls i with
      | none => simp [World.step, hi] at hstep
      | some call =>
        cases call with
        | worker c => exact absurd (honly i _ hi) (by simp [Call.service, Service.isInference])
        | inference c =>
          simp only [World.step, hi, Option.map_eq_some_iff] at hstep
          obtain ⟨⟨c', db'⟩, hcall, rfl⟩ := hstep
          exact hw.inference hi hcall
        | downstream c => simp [World.step, hi] at hstep
    | create ids payload fate =>
      refine hkept ?_ rfl
      cases heff with
      | unchanged => exact hw
      | created hjob => exact hw.created hjob
    | start i service event =>
      refine hkept ?_ rfl
      cases heff with
      | unchanged => exact hw
      | started => exact hw.start i service event
    | downstream i a =>
      refine hkept ?_ rfl
      cases heff with
      | unchanged => exact hw
      | downstream hi =>
        exact absurd (honly i _ hi) (by simp [Call.service, Service.isInference])
    | renew => cases hok
    | tick now =>
      refine hkept ?_ rfl
      cases heff with
      | unchanged => exact hw
      | ticked => exact ⟨⟨hw.claims.disciplined, hw.claims.named, hw.claims.positive,
          hw.claims.started⟩, hw.completed, hw.messages, hw.fenced, hw.nodup, hw.spent⟩

/-- **When a handover is fenced.** In every run of inference workers on one store: the log's
completed inferences and the downstream messages are those of the handovers, one each; a handover
was committed under the current lease of a `PROCESSING` job exactly when the newest start in the
log of the job was that of its own claim; and no claim is handed over twice. -/
theorem handover_fenced_iff {w₀ : World} {as : List Action} (h₀ : (inferenceStage topics).init w₀)
    (hr : (inferenceStage topics).run w₀ as = some w) :
    w.db.completedInferences = (handovers topics w₀ as).map (·.lease.jobId) ∧
    w.db.downstreamMessages = (handovers topics w₀ as).map (·.lease.jobId) ∧
    (∀ h ∈ handovers topics w₀ as, h.Fenced ↔ h.LastStarted) ∧
    ((handovers topics w₀ as).map Handover.claim).Nodup := by
  have h := handed_of_run h₀ hr
  exact ⟨h.completed, h.messages, h.fenced, h.nodup⟩

/-- Inference `a` claims, its lease expires, `b` claims the job and `a` completes. -/
def exampleLateHandover : List Action :=
  [.create exampleIds [] .commits,
    .start 0 (.inference "inference-a" 1800) (JobService.requestEvent exampleIds []),
    .leased 0 (.claim 0 10 .commits), .leased 0 (.process (.ok [])),
    .start 1 (.inference "inference-b" 1800) (JobService.requestEvent exampleIds []),
    .leased 1 (.claim 1801000000 20 .commits),
    .leased 0 (.complete ⟨11, 12, 13, 6⟩ .commits)]

/-- The take-over commits one handover. -/
theorem handover_fenced_iff_takeOver : ∃ w h,
    (inferenceStage ⟨"requests", "downstream"⟩).run World.initial exampleLateHandover = some w ∧
    handovers ⟨"requests", "downstream"⟩ World.initial exampleLateHandover = [h] ∧
    (h.Fenced ↔ h.LastStarted) := by
  let topics : Topics := ⟨"requests", "downstream"⟩
  have hr : ((inferenceStage topics).run World.initial exampleLateHandover).isSome := rfl
  obtain ⟨-, -, hfenced, -⟩ :=
    handover_fenced_iff (pipeline_init_initial topics) (Option.some_get hr).symm
  exact ⟨_, _, (Option.some_get hr).symm, rfl, hfenced _ (List.mem_singleton_self _)⟩

/-- **A handover after a take-over.** The worker whose lease was taken over hands over all the
same, while the job is `PROCESSING` under the lease of another worker. -/
theorem handover_not_fenced :
    ¬ ∀ (topics : Topics) (w₀ w : World) (as : List Action), (inferenceStage topics).init w₀ →
      (inferenceStage topics).run w₀ as = some w → ∀ h ∈ handovers topics w₀ as, h.Fenced := by
  intro h
  let topics : Topics := ⟨"requests", "downstream"⟩
  have hr : ((inferenceStage topics).run World.initial exampleLateHandover).isSome := rfl
  obtain ⟨row, hrow, hepoch, -⟩ := h topics World.initial _ exampleLateHandover
    (pipeline_init_initial topics) (Option.some_get hr).symm _ (List.mem_singleton_self _)
  obtain rfl := Option.some.inj hrow
  exact absurd hepoch (by decide)

end Runs

end Morphflow
