import Morphflow.Pipeline.Handover

/-!
# Acknowledged inferences

`InferencePipelineService` acknowledges a message by `(True, None)`, when it found the job finished
or after the transaction that hands it over. The event of the log and the message for the downstream
stage are written by that one transaction, whatever raises around it; when the commit itself raises,
the failure is recorded although the message is there.

The services run on any store in which the log and the outbox agree, the empty one for instance;
inference workers alone are a special case. Requests are published on another topic than the one
of the downstream stage.

## Main definitions

* `Db.Balanced`: as many inferences are logged for a job as messages are there for it.
* `balancedPipeline`, `Written`.
* `LeasedCall.Backed`: an acknowledgement has a finished job or a message behind it.

## Main results

* `World.publishes_of_step`: what a step writes to the log and to the outbox, call by call.
* `Db.Balanced.of_publishes`, `World.Effect.backed`: the step lemmas.
* `acknowledged_backed`: what holds in every run.
-/

namespace Morphflow

namespace Db

/-- The number of the events of a job that tell of a completed inference. -/
def inferenceEvents (db : Db) (jobId : Uuid) : ℕ :=
  (eventsOfType .inferenceCompleted (db.eventsOf jobId)).length

/-- The number of the rows of the outbox for a job on a topic. -/
def rowsFor (db : Db) (topic : String) (jobId : Uuid) : ℕ :=
  (db.outbox.filter fun row => row.topic == topic && row.payload.jobId == jobId).length

/-- As many inferences are logged for a job as messages are there for it. -/
def Balanced (topic : String) (db : Db) : Prop :=
  ∀ jobId, db.inferenceEvents jobId = db.rowsFor topic jobId

variable {db db' : Db} {topic : String}

theorem inferenceEvents_append {e : Event} (h : db'.events = db.events ++ [e]) (jobId : Uuid) :
    db'.inferenceEvents jobId = db.inferenceEvents jobId +
      if e.jobId = jobId ∧ e.eventType = .inferenceCompleted then 1 else 0 := by
  unfold inferenceEvents
  rw [eventsOf_append h]
  by_cases hj : e.jobId = jobId
  · by_cases ht : e.eventType = .inferenceCompleted
    · simp [hj, ht, eventsOfType_append_of_eq ht]
    · simp [hj, ht, eventsOfType_append_of_ne ht]
  · simp [hj]

theorem rowsFor_append {row : OutboxRow} (h : db'.outbox = db.outbox ++ [row]) (topic : String)
    (jobId : Uuid) : db'.rowsFor topic jobId = db.rowsFor topic jobId +
      if row.topic = topic ∧ row.payload.jobId = jobId then 1 else 0 := by
  unfold rowsFor
  rw [h, List.filter_append, List.length_append]
  by_cases ht : row.topic = topic <;> by_cases hj : row.payload.jobId = jobId <;> simp [ht, hj]

theorem rowsFor_le_of_prefix (h : db.outbox <+: db'.outbox) (topic : String) (jobId : Uuid) :
    db.rowsFor topic jobId ≤ db'.rowsFor topic jobId :=
  (h.sublist.filter _).length_le

theorem balanced_empty : empty.Balanced topic := fun _ => rfl

theorem Balanced.of_quiet (h : db.Balanced topic) (hquiet : db.Quiet db') :
    db'.Balanced topic := by
  obtain ⟨houtbox, hevents⟩ := hquiet
  intro jobId
  have hrows : db'.rowsFor topic jobId = db.rowsFor topic jobId := by
    rw [rowsFor, houtbox, rowsFor]
  rw [hrows, ← h jobId]
  rcases hevents with hevents | ⟨e, he, hevents⟩
  · rw [inferenceEvents, eventsOf, hevents, inferenceEvents, eventsOf]
  · rw [inferenceEvents_append hevents, if_neg fun hcompleted => he hcompleted.2, Nat.add_zero]

end Db

/-! ### What a step writes -/

/-- A result is logged under another type. -/
theorem WorkerService.quiet_of_completeTx {c : LeasedCall} {lease : JobLease} {result : Dict}
    {ids : CompletionIds} {db db' : Db}
    (h : completeTx c lease result ids db = .ok (some ((), db'))) : db.Quiet db' := by
  obtain ⟨row, -, -, rfl⟩ := recordTx_eq_some_iff.mp h
  exact ⟨rfl, .inr ⟨_, by simp [completionEvent], rfl⟩⟩

/-- The downstream stage tells of no inference. -/
theorem DownstreamCall.Effect.quiet {c : DownstreamCall} {db db' : Db} {a : DownstreamAct}
    {phase' : DownstreamPhase} (h : c.Effect db a phase' db') : db.Quiet db' := by
  cases h with
  | completed => exact ⟨rfl, .inr ⟨_, by simp [completionEvent], rfl⟩⟩
  | completedLate => exact ⟨rfl, .inr ⟨_, by simp [completionEvent], rfl⟩⟩
  | failed => exact ⟨rfl, .inr ⟨_, by simp [failureEvent], rfl⟩⟩
  | failedLate => exact ⟨rfl, .inr ⟨_, by simp [failureEvent], rfl⟩⟩
  | _ => exact .refl _

/-- What a step writes to the log and to the outbox. -/
inductive World.Publishes (topics : Topics) (w : World) : Action → World → Prop
  | quiet {a : Action} {w' : World} (hquiet : w.db.Quiet w'.db) : Publishes topics w a w'
  /-- A request was written. -/
  | requested {ids : RequestIds} {payload : Dict} {fate : TxFate} {w' : World}
      (hdb : w'.db = JobService.createdDb topics.request ids payload w.db) :
      Publishes topics w (.create ids payload fate) w'
  /-- An inference was handed over; the call returned, or the commit raised. -/
  | handed {i : ℕ} {ids : CompletionIds} {fate : TxFate} {c c' : LeasedCall} {lease : JobLease}
      {result : Dict} {w' : World} (hi : w.calls i = some (.inference c))
      (hp : c.phase = .completing lease result)
      (hdb : w'.db = InferencePipelineService.handedOverDb topics.downstream c result ids w.db)
      (hi' : w'.calls i = some (.inference c'))
      (hfate : (∃ e, fate = .raisesAfter e) ∨ c'.phase = .returned true none) :
      Publishes topics w (.leased i (.complete ids fate)) w'

/-- A step of an inference is quiet, or hands over. -/
theorem World.publishes_of_inference {topics : Topics} {w : World} {i : ℕ} {c c' : LeasedCall}
    {a : LeasedAct} {db' : Db} (hi : w.calls i = some (.inference c))
    (h : InferencePipelineService.step topics.downstream c w.db a = some (c', db')) :
    Publishes topics w (.leased i a) (w.goOn i (.inference c') db') := by
  by_cases hp : ∃ lease result, c.phase = .completing lease result
  · obtain ⟨lease, result, hp⟩ := hp
    obtain ⟨ids, fate, rfl, ⟨-, -, hfate, rfl⟩ | ⟨-, rfl⟩⟩ :=
      InferencePipelineService.handed_of_completing hp h
    · exact .handed hi hp rfl (KeyedTable.set_self ..) hfate
    · exact .quiet (.refl _)
  · obtain ⟨phase', rfl, heff⟩ := LeasedCall.effect_of_step h
    exact .quiet (heff.quiet fun lease result _ _ hp' => absurd ⟨lease, result, hp'⟩ hp)

/-- Every step writes in one of these ways. -/
theorem World.publishes_of_step {topics : Topics} {w w' : World} {a : Action}
    (h : w.step topics a = some w') : Publishes topics w a w' := by
  cases a with
  | create ids payload fate =>
    obtain rfl := Option.some.inj h
    rcases JobService.createJob_cases topics.request ids payload fate w.db with hdb |
      ⟨-, -, hdb⟩
    · refine .quiet ?_
      show w.db.Quiet (JobService.createJob topics.request ids payload fate w.db)
      rw [hdb]
      exact .refl _
    · exact .requested hdb
  | leased i a =>
    simp only [step] at h
    split at h
    · next c hi =>
      obtain ⟨⟨c', db'⟩, hstep, rfl⟩ := Option.map_eq_some_iff.mp h
      obtain ⟨phase', rfl, heff⟩ := LeasedCall.effect_of_step hstep
      exact .quiet (heff.quiet fun _ _ _ _ _ => WorkerService.quiet_of_completeTx)
    · next c hi =>
      obtain ⟨⟨c', db'⟩, hstep, rfl⟩ := Option.map_eq_some_iff.mp h
      exact publishes_of_inference hi hstep
    · cases h
  | start i service event =>
    cases effect_of_step h with
    | unchanged => exact .quiet (.refl _)
    | started => exact .quiet (.refl _)
  | downstream i a =>
    cases effect_of_step h with
    | unchanged => exact .quiet (.refl _)
    | downstream _ heff => exact .quiet heff.quiet
  | renew jobId owner epoch leaseSeconds now =>
    cases effect_of_step h with
    | unchanged => exact .quiet (.refl _)
    | renewed => exact .quiet ⟨rfl, .inl rfl⟩
  | tick now =>
    cases effect_of_step h with
    | unchanged => exact .quiet (.refl _)
    | ticked => exact .quiet (.refl _)

theorem World.Publishes.outbox_prefix {topics : Topics} {w w' : World} {a : Action}
    (h : w.Publishes topics a w') : w.db.outbox <+: w'.db.outbox := by
  cases h with
  | quiet hquiet => rw [hquiet.1]
  | requested hdb =>
    rw [hdb]
    exact List.prefix_append ..
  | handed _ _ hdb =>
    rw [hdb]
    exact List.prefix_append ..

/-- **Step lemma.** What a step writes keeps the log and the outbox in agreement. -/
theorem Db.Balanced.of_publishes {topics : Topics} {w w' : World} {a : Action}
    (h : w.db.Balanced topics.downstream)
    (hcreate : ∀ ids payload fate, a = .create ids payload fate →
      topics.request ≠ topics.downstream) (hpub : w.Publishes topics a w') :
    w'.db.Balanced topics.downstream := by
  cases hpub with
  | quiet hquiet => exact h.of_quiet hquiet
  | @requested ids payload fate _ hdb =>
    have htopic := hcreate ids payload fate rfl
    intro jobId
    rw [hdb, inferenceEvents_append rfl, rowsFor_append rfl, h jobId]
    simp [JobService.requestEvent, htopic]
  | handed _ _ hdb =>
    intro jobId
    rw [hdb, inferenceEvents_append rfl, rowsFor_append rfl, h jobId]
    simp [InferencePipelineService.downstreamEvent]

/-! ### Acknowledgements -/

/-- When the call returned `(True, None)`, its job is finished or a message is there for it. -/
def LeasedCall.Backed (topic : String) (db : Db) (c : LeasedCall) : Prop :=
  c.phase = .returned true none →
    (∃ row, db.jobs c.event.jobId = some row ∧ row.status = .success) ∨
      0 < db.rowsFor topic c.event.jobId

section Steps

variable {topics : Topics} {w w' : World} {c : LeasedCall} {db db' : Db} {i : ℕ}

theorem LeasedCall.Backed.mono {topic : String} (h : c.Backed topic db)
    (hchange : ∀ k, RowChange (db.jobs k) (db'.jobs k)) (houtbox : db.outbox <+: db'.outbox) :
    c.Backed topic db' := by
  intro hp
  rcases h hp with hfinished | hpos
  · exact .inl (finished_of_evolves (RowChange.evolves hchange) hfinished)
  · exact .inr (hpos.trans_le (Db.rowsFor_le_of_prefix houtbox _ _))

/-- A call that reads a job back acknowledges it when it is finished. -/
theorem LeasedCall.status_of_readBack {error : Option String}
    (h : c.readBack db = .returned true error) :
    ∃ row, db.jobs c.event.jobId = some row ∧ row.status = .success := by
  unfold readBack at h
  split at h
  · next job hjob =>
    obtain ⟨row, hrow, rfl⟩ := getJob_eq_some_iff.mp hjob
    split_ifs at h with hs
    · exact ⟨row, hrow, hs⟩
    · cases h
  · cases h

/-- A step of an inference that ends in an acknowledgement has read a finished job, or written the
message. -/
theorem InferencePipelineService.backed_of_effect {topic : String} {a : LeasedAct}
    {phase' : LeasedPhase}
    (h : c.Effect "inference-worker" (completeTx topic) db a phase' db') :
    ({ c with phase := phase' } : LeasedCall).Backed topic db' := by
  intro hreturned
  replace hreturned : phase' = .returned true none := hreturned
  cases h with
  | claimed _ _ _ _ hphase => rcases hphase with rfl | ⟨e, rfl⟩ <;> cases hreturned
  | answered => exact .inl (LeasedCall.status_of_readBack hreturned)
  | processed =>
    unfold LeasedCall.afterProcess at hreturned
    split at hreturned <;> cases hreturned
  | completed _ htx =>
    obtain rfl := InferencePipelineService.completeTx_eq_some_iff.mp htx
    refine .inr ?_
    rw [Db.rowsFor_append rfl]
    simp [downstreamEvent]
  | rolledBack _ htx => cases htx
  | failed _ _ _ hphase => rcases hphase with rfl | ⟨e, rfl⟩ <;> cases hreturned
  | _ => cases hreturned

/-- **Step lemma.** A step keeps all acknowledgements backed. -/
theorem World.Effect.backed {a : Action} (h : Effect topics w a w')
    (houtbox : w.db.outbox <+: w'.db.outbox)
    (hw : ∀ i c, w.calls i = some (.inference c) → c.Backed topics.downstream w.db) :
    ∀ i c, w'.calls i = some (.inference c) → c.Backed topics.downstream w'.db := by
  intro j d hj
  have hothers : w.calls j = some (.inference d) → d.Backed topics.downstream w'.db :=
    fun hj => (hw j d hj).mono h.rowChange houtbox
  -- a call that took no step relies on what the writes of others keep
  have hset : ∀ {i call}, (w.calls.set i call) j = some (.inference d) →
      (call = .inference d → d.Backed topics.downstream w'.db) →
        d.Backed topics.downstream w'.db := by
    intro i call hj hcall
    rcases KeyedTable.set_eq_some_iff.mp hj with ⟨-, heq⟩ | ⟨-, hj⟩
    · exact hcall heq
    · exact hothers hj
  cases h with
  | @started i service event hi =>
    refine hset hj fun heq hp => ?_
    cases service <;> cases heq
    cases hp
  | worker => exact hset hj fun heq => by cases heq
  | inference hi heff =>
    refine hset hj fun heq => ?_
    obtain rfl := Call.inference.inj heq
    exact InferencePipelineService.backed_of_effect heff
  | downstream => exact hset hj fun heq => by cases heq
  | _ => exact hothers hj

theorem LeasedCall.Effect.ne_returned {source : String} {completeTx : CompleteTx} {a : LeasedAct}
    {phase' : LeasedPhase} (h : c.Effect source completeTx db a phase' db') (success : Bool)
    (error : Option String) : c.phase ≠ .returned success error := by
  intro hreturned
  cases h with
  | broke hp => rcases hp with hp | hp | ⟨_, _, hp⟩ <;> cases hp.symm.trans hreturned
  | _ => simp_all only [reduceCtorEq]

theorem World.Effect.calls_of_returned {a : Action} (h : Effect topics w a w')
    (hi : w.calls i = some (.inference c)) {success : Bool} {error : Option String}
    (hp : c.phase = .returned success error) : w'.calls i = some (.inference c) := by
  have hset : ∀ {j call}, w.calls j ≠ some (.inference c) →
      (w.calls.set j call) i = some (.inference c) := by
    intro j call hj
    have hne : i ≠ j := fun heq => hj (heq ▸ hi)
    rw [KeyedTable.set_of_ne _ _ hne]
    exact hi
  cases h with
  | started hj => exact hset (by rw [hj]; exact fun heq => by cases heq)
  | worker hj => exact hset (by rw [hj]; exact fun heq => by cases heq)
  | inference hj heff =>
    refine hset fun heq => ?_
    obtain rfl := Call.inference.inj (Option.some.inj (hj.symm.trans heq))
    exact heff.ne_returned success error hp
  | downstream hj => exact hset (by rw [hj]; exact fun heq => by cases heq)
  | _ => exact hi

end Steps

/-! ### Runs of the services -/

/-- What a step of a call under a lease wrote to the outbox. -/
structure Written where
  call : ℕ
  act : LeasedAct
  rows : List OutboxRow

/-- What a step of a call under a lease writes to the outbox. -/
def World.written? (topics : Topics) (w : World) : Action → Option Written
  | .leased i act => (w.step topics (.leased i act)).map fun w' =>
      ⟨i, act, w'.db.outbox.drop w.db.outbox.length⟩
  | _ => none

/-- The action is a request on the topic of the downstream stage. -/
def Action.requestsDownstream (topics : Topics) : Action → Bool
  | .create .. => topics.request == topics.downstream
  | _ => false

/-- The services on a store in which the log and the outbox agree. Requests are published on another
topic than that of the downstream stage. -/
def balancedPipeline (topics : Topics) : TransitionSystem World Action where
  init w := w.db.Balanced topics.downstream ∧ ∀ i, w.calls i = none
  step w a := if a.requestsDownstream topics then none else w.step topics a

/-- The commit that wrote the rows raised, or the call returned `(True, None)`. -/
def Written.Accounted (w : World) (b : Written) : Prop :=
  (∃ ids e, b.act = .complete ids (.raisesAfter e)) ∨
    ∃ c, w.calls b.call = some (.inference c) ∧ c.phase = .returned true none

section Runs

variable {topics : Topics} {w w' w₀ : World} {as : List Action}

/-- What a step wrote is accounted for behind it. -/
theorem World.Publishes.accounted {a : Action} (hpub : w.Publishes topics a w')
    (hstep : w.step topics a = some w') {b : Written} (hb : w.written? topics a = some b)
    (hrows : b.rows ≠ []) : b.Accounted w' := by
  cases a with
  | leased i act =>
    rw [World.written?, hstep, Option.map_some] at hb
    obtain rfl := Option.some.inj hb
    cases hpub with
    | quiet hquiet => exact absurd (by rw [hquiet.1, List.drop_length]) hrows
    | handed _ _ _ hi' hfate =>
      rcases hfate with ⟨e, rfl⟩ | hp
      · exact .inl ⟨_, e, rfl⟩
      · exact .inr ⟨_, hi', hp⟩
  | _ => cases hb

theorem Written.Accounted.of_effect {b : Written} (h : b.Accounted w) {a : Action}
    (heff : World.Effect topics w a w') : b.Accounted w' := by
  rcases h with h | ⟨c, hc, hp⟩
  · exact .inl h
  · exact .inr ⟨c, heff.calls_of_returned hc hp, hp⟩

/-- **Run lemma.** In every run the log and the outbox agree, acknowledgements are backed, and what
was written is accounted for. -/
theorem backed_of_run (h₀ : (balancedPipeline topics).init w₀)
    (hr : (balancedPipeline topics).run w₀ as = some w) :
    w.db.Balanced topics.downstream ∧
      (∀ i c, w.calls i = some (.inference c) → c.Backed topics.downstream w.db) ∧
      ∀ b ∈ (balancedPipeline topics).observe (World.written? topics) w₀ as, b.rows ≠ [] →
        b.Accounted w := by
  refine TransitionSystem.run_observes (World.written? topics) (P := fun w bs =>
    w.db.Balanced topics.downstream ∧
      (∀ i c, w.calls i = some (.inference c) → c.Backed topics.downstream w.db) ∧
      ∀ b ∈ bs, b.rows ≠ [] → b.Accounted w) ?_ ?_ h₀ hr
  · rintro w ⟨hdb, hcalls⟩
    refine ⟨hdb, fun i c hi => ?_, fun b hb => absurd hb List.not_mem_nil⟩
    rw [hcalls i] at hi
    cases hi
  · rintro w a w' bs - ⟨hbalanced, hbacked, haccounted⟩ hstep
    obtain ⟨hother, hstep⟩ := Option.ite_none_left_eq_some.mp hstep
    have hpub := World.publishes_of_step hstep
    have heff := World.effect_of_step hstep
    refine ⟨hbalanced.of_publishes ?_ hpub, heff.backed hpub.outbox_prefix hbacked, ?_⟩
    · rintro ids payload fate rfl htopic
      exact hother (beq_iff_eq.mpr htopic)
    · intro b hb hrows
      rcases List.mem_append.mp hb with hb | hb
      · exact (haccounted b hb hrows).of_effect heff
      · exact hpub.accounted hstep (Option.mem_toList.mp hb) hrows

/-- **An acknowledged inference has been handed over.** In every run of the services: the log tells
of as many completed inferences of a job as there are rows of the outbox for it on the topic of the
downstream stage; the job of a call that returned `(True, None)` is finished or has such a row; and
a call that returned `False` or raised wrote such a row only by a commit that took effect and
raised. -/
theorem acknowledged_backed (h₀ : (balancedPipeline topics).init w₀)
    (hr : (balancedPipeline topics).run w₀ as = some w) :
    (∀ jobId, w.db.inferenceEvents jobId = w.db.rowsFor topics.downstream jobId) ∧
    (∀ i c, w.calls i = some (.inference c) → c.phase = .returned true none →
      (∃ row, w.db.jobs c.event.jobId = some row ∧ row.status = .success) ∨
        0 < w.db.rowsFor topics.downstream c.event.jobId) ∧
    ∀ i c, w.calls i = some (.inference c) →
      (∃ error, c.phase = .returned false error) ∨ (∃ e, c.phase = .raised e) →
      ∀ b ∈ (balancedPipeline topics).observe (World.written? topics) w₀ as, b.call = i →
        (∃ row ∈ b.rows, row.topic = topics.downstream) →
          ∃ ids e, b.act = .complete ids (.raisesAfter e) := by
  obtain ⟨hbalanced, hbacked, haccounted⟩ := backed_of_run h₀ hr
  refine ⟨hbalanced, hbacked, fun i c hi hp b hb hcall ⟨row, hrow, _⟩ => ?_⟩
  rcases haccounted b hb (List.ne_nil_of_mem hrow) with h | ⟨c', hc', hp'⟩
  · exact h
  · rw [hcall, hi] at hc'
    obtain rfl := Call.inference.inj (Option.some.inj hc')
    rcases hp with ⟨error, hp⟩ | ⟨e, hp⟩ <;> cases hp'.symm.trans hp

/-- An inference whose commit takes effect and raises; the failure is recorded. -/
def exampleRaisedCommit : List Action :=
  [.create exampleIds [] .commits,
    .start 0 (.inference "inference-a" 1800) (JobService.requestEvent exampleIds []),
    .leased 0 (.claim 0 10 .commits), .leased 0 (.process (.ok [])),
    .leased 0 (.complete ⟨11, 12, 13, 6⟩ (.raisesAfter "connection lost")),
    .leased 0 (.fail 14 .commits)]

/-- The message is there although the call returned `False`. -/
theorem acknowledged_backed_raisedCommit : ∃ w,
    (balancedPipeline ⟨"requests", "downstream"⟩).run World.initial exampleRaisedCommit = some w ∧
    w.db.inferenceEvents 1 = w.db.rowsFor "downstream" 1 ∧ w.db.rowsFor "downstream" 1 = 1 := by
  let topics : Topics := ⟨"requests", "downstream"⟩
  have hr : ((balancedPipeline topics).run World.initial exampleRaisedCommit).isSome := rfl
  obtain ⟨hcount, -, -⟩ :=
    acknowledged_backed ⟨Db.balanced_empty, fun _ => rfl⟩ (Option.some_get hr).symm
  exact ⟨_, (Option.some_get hr).symm, hcount 1, rfl⟩

end Runs

end Morphflow
