import Morphflow.Pipeline.Handover

/-!
# Envelopes and the log

Every envelope carries an `event_id`, and the log keeps one event under each. A request publishes
the event it logs. The inference stage builds two: one for the log, and another one, under an
identifier of its own, for the outbox; no event is logged under the identifier that it publishes.

`uuid4` is taken to draw an identifier that is not in use.

## Main definitions

* `Db.Traces`: the log tells of the event of an envelope.
* `freshPipeline`: the services, every identifier of an event drawn fresh.
* `World.Writes`: what a step writes to the log and to the outbox.

## Main results

* `Db.Traced.of_writes`: the step lemma.
* `traceable_iff`: which rows of the outbox are traceable; none are published under one identifier.
* `not_traceable`: a request that goes through the inference stage.
-/

namespace Morphflow

/-- The log tells of the event of an envelope. -/
def Db.Traces (db : Db) (envelope : Event) : Prop :=
  ∃ e ∈ db.events, e.eventId = envelope.eventId ∧ e.jobId = envelope.jobId ∧
    e.eventType = envelope.eventType

/-- The identifiers in use, in the log and in the outbox. -/
def Db.eventIds (db : Db) : List Uuid :=
  db.events.map (·.eventId) ++ db.outbox.map (·.payload.eventId)

/-- The identifiers of events that a step of a call under a lease draws. -/
def LeasedAct.drawn : LeasedAct → List Uuid
  | .claim _ eventId _ => [eventId]
  | .complete ids _ => [ids.eventId, ids.downstreamEventId]
  | .fail eventId _ => [eventId]
  | _ => []

/-- The identifiers of events that a step of a call of the downstream stage draws. -/
def DownstreamAct.drawn : DownstreamAct → List Uuid
  | .complete eventId _ => [eventId]
  | .fail eventId _ => [eventId]
  | _ => []

/-- The identifiers of events that a step draws. -/
def Action.drawn : Action → List Uuid
  | .create ids _ _ => [ids.eventId]
  | .leased _ a => a.drawn
  | .downstream _ a => a.drawn
  | _ => []

/-- The services on one store; the identifiers that a step draws differ and are not in use. -/
def freshPipeline (topics : Topics) : TransitionSystem World Action :=
  (pipeline topics).restrict fun w a => a.drawn.Nodup ∧ ∀ id ∈ a.drawn, id ∉ w.db.eventIds

/-! ### What a step writes to the log and to the outbox -/

/-- At most one event is logged, under one of the identifiers; nothing is published. -/
def Db.Logs (ids : List Uuid) (db db' : Db) : Prop :=
  db'.outbox = db.outbox ∧
    (db'.events = db.events ∨ ∃ e : Event, e.eventId ∈ ids ∧ db'.events = db.events ++ [e])

namespace Db.Logs

variable {db db' : Db} {ids : List Uuid}

theorem refl (ids : List Uuid) (db : Db) : db.Logs ids db := ⟨rfl, .inl rfl⟩

theorem of_conclude {α φ : Type*} {fate : TxFate} {body : Except String (Option (α × Db))}
    {onRollback phase' : φ} {onCommit : α → φ} {onRaise : String → φ}
    (hbody : ∀ x db₁, body = .ok (some (x, db₁)) → db.Logs ids db₁)
    (h : fate.conclude db body onRollback onCommit onRaise = (phase', db')) :
    db.Logs ids db' := by
  rcases fate.conclude_cases db body onRollback onCommit onRaise with
    ⟨e, he⟩ | ⟨-, he⟩ | ⟨x, db₁, hb, he⟩
  · rw [← (Prod.mk.inj (he.symm.trans h)).2]
    exact .refl ..
  · rw [← (Prod.mk.inj (he.symm.trans h)).2]
    exact .refl ..
  · have hdb : db₁ = db' := by
      rcases he with ⟨-, he⟩ | ⟨e, -, he⟩ <;> exact (Prod.mk.inj (he.symm.trans h)).2
    exact hdb ▸ hbody x db₁ hb

theorem of_recordTx {jobId : Uuid} {change : StatusChange} {event : Event}
    (hid : event.eventId ∈ ids) {x : Unit}
    (h : recordTx db jobId change event = .ok (some (x, db'))) : db.Logs ids db' := by
  obtain ⟨row, -, -, rfl⟩ := recordTx_eq_some_iff.mp h
  exact ⟨rfl, .inr ⟨event, hid, rfl⟩⟩

theorem of_writeTx {jobId : Uuid} {change : StatusChange} {event : Event}
    (hid : event.eventId ∈ ids) {x : Unit}
    (h : DownstreamCall.writeTx db jobId change event = .ok (some (x, db'))) :
    db.Logs ids db' := by
  unfold DownstreamCall.writeTx at h
  split at h
  · cases h
  · obtain ⟨-, rfl⟩ := Prod.mk.inj (Option.some.inj (Except.ok.inj h))
    exact ⟨rfl, .inr ⟨event, hid, rfl⟩⟩
  · obtain ⟨-, rfl⟩ := Prod.mk.inj (Option.some.inj (Except.ok.inj h))
    exact ⟨rfl, .inr ⟨event, hid, rfl⟩⟩

end Db.Logs

/-- A step of a call under a lease logs at most one event, but for what its completion does. -/
theorem LeasedCall.logs_of_step {source : String} {completeTx : CompleteTx} {c c' : LeasedCall}
    {db db' : Db} {a : LeasedAct}
    (hcomplete : ∀ lease result ids x db₁, c.phase = .completing lease result →
      completeTx c lease result ids db = .ok (some (x, db₁)) →
        db.Logs [ids.eventId, ids.downstreamEventId] db₁)
    (h : c.step source completeTx db a = some (c', db')) : db.Logs a.drawn db' := by
  obtain ⟨⟨phase', db₁⟩, hstep, heq⟩ := Option.map_eq_some_iff.mp h
  obtain ⟨rfl, rfl⟩ := Prod.mk.inj heq
  unfold phaseStep at hstep
  split at hstep
  · refine .of_conclude (fun lease db₂ hb => ?_) (Option.some.inj hstep)
    obtain ⟨row, -, -, -, rfl⟩ := claimTx_eq_some_iff.mp hb
    exact ⟨rfl, .inr ⟨_, List.mem_singleton_self _, rfl⟩⟩
  · obtain ⟨-, rfl⟩ := Prod.mk.inj (Option.some.inj hstep)
    exact .refl ..
  · obtain ⟨-, rfl⟩ := Prod.mk.inj (Option.some.inj hstep)
    exact .refl ..
  · obtain ⟨-, rfl⟩ := Prod.mk.inj (Option.some.inj hstep)
    exact .refl ..
  · next _ _ lease result ids fate hp =>
    exact .of_conclude (fun x db₂ hb => hcomplete lease result ids x db₂ hp hb)
      (Option.some.inj hstep)
  · exact .of_conclude (fun x db₂ hb => .of_recordTx (List.mem_singleton_self _) hb)
      (Option.some.inj hstep)
  · cases hstep

/-- A step of a call of the downstream stage logs at most one event. -/
theorem DownstreamCall.logs_of_step {c c' : DownstreamCall} {db db' : Db} {a : DownstreamAct}
    (h : c.step db a = some (c', db')) : db.Logs a.drawn db' := by
  obtain ⟨⟨phase', db₁⟩, hstep, heq⟩ := Option.map_eq_some_iff.mp h
  obtain ⟨rfl, rfl⟩ := Prod.mk.inj heq
  unfold phaseStep at hstep
  split at hstep
  · obtain ⟨-, rfl⟩ := Prod.mk.inj (Option.some.inj hstep)
    exact .refl ..
  · obtain ⟨-, rfl⟩ := Prod.mk.inj (Option.some.inj hstep)
    exact .refl ..
  · obtain ⟨-, rfl⟩ := Prod.mk.inj (Option.some.inj hstep)
    exact .refl ..
  · obtain ⟨-, rfl⟩ := Prod.mk.inj (Option.some.inj hstep)
    exact .refl ..
  · exact .of_conclude (fun x db₂ hb => .of_writeTx (List.mem_singleton_self _) hb)
      (Option.some.inj hstep)
  · exact .of_conclude (fun x db₂ hb => .of_writeTx (List.mem_singleton_self _) hb)
      (Option.some.inj hstep)
  · cases hstep

/-- What a step writes to the log and to the outbox. -/
inductive World.Writes (topics : Topics) (w : World) : Action → Db → Prop
  /-- At most one event is logged. -/
  | logged {a : Action} {db' : Db} (hlogs : w.db.Logs a.drawn db') (hnone : w.handover? a = none) :
      Writes topics w a db'
  /-- A request was written. -/
  | created {ids : RequestIds} {payload : Dict} {fate : TxFate} :
      Writes topics w (.create ids payload fate)
        (JobService.createdDb topics.request ids payload w.db)
  /-- An inference was handed over. -/
  | handed {i : ℕ} {ids : CompletionIds} {fate : TxFate} {c : LeasedCall} {result : Dict}
      {h : Handover} (hsome : w.handover? (.leased i (.complete ids fate)) = some h) :
      Writes topics w (.leased i (.complete ids fate))
        (InferencePipelineService.handedOverDb topics.downstream c result ids w.db)

/-- A step of an inference logs at most one event, or hands over. -/
theorem World.writes_of_inference {topics : Topics} {w : World} {i : ℕ} {c c' : LeasedCall}
    {a : LeasedAct} {db' : Db} (hi : w.calls i = some (.inference c))
    (h : InferencePipelineService.step topics.downstream c w.db a = some (c', db')) :
    Writes topics w (.leased i a) db' := by
  by_cases hp : ∃ lease result, c.phase = .completing lease result
  · obtain ⟨lease, result, hp⟩ := hp
    obtain ⟨ids, fate, rfl, ⟨hf, -, -, rfl⟩ | ⟨hf, rfl⟩⟩ :=
      InferencePipelineService.handed_of_completing hp h
    · exact .handed (h := ⟨w, lease⟩) (by simp [handover?, hi, hp, hf])
    · exact .logged (.refl ..) (by simp [handover?, hi, hp, hf])
  · have hne : ∀ lease result, c.phase ≠ .completing lease result :=
      fun lease result hp' => hp ⟨lease, result, hp'⟩
    refine .logged (LeasedCall.logs_of_step (fun lease result _ _ _ hp' => ?_) h) ?_
    · exact absurd hp' (hne lease result)
    · exact handover?_of_ne_completing hi hne a

theorem World.writes_of_step {topics : Topics} {w w' : World} {a : Action}
    (h : w.step topics a = some w') : Writes topics w a w'.db := by
  cases a with
  | create ids payload fate =>
    obtain rfl := Option.some.inj h
    rcases JobService.createJob_cases topics.request ids payload fate w.db with hdb |
      ⟨-, -, hdb⟩ <;> rw [hdb]
    · exact .logged (.refl ..) rfl
    · exact .created
  | start i service event =>
    simp only [step] at h
    split_ifs at h
    obtain rfl := Option.some.inj h
    exact .logged (.refl ..) rfl
  | leased i a =>
    simp only [step] at h
    split at h
    · next c hi =>
      obtain ⟨⟨c', db'⟩, hstep, rfl⟩ := Option.map_eq_some_iff.mp h
      refine .logged (LeasedCall.logs_of_step (fun _ _ _ _ _ _ hb => ?_) hstep) ?_
      · exact .of_recordTx List.mem_cons_self hb
      · cases a <;> simp [handover?, hi]
    · next c hi =>
      obtain ⟨⟨c', db'⟩, hstep, rfl⟩ := Option.map_eq_some_iff.mp h
      exact writes_of_inference hi hstep
    · cases h
  | downstream i a =>
    simp only [step] at h
    split at h
    · obtain ⟨⟨c', db'⟩, hstep, rfl⟩ := Option.map_eq_some_iff.mp h
      exact .logged (DownstreamCall.logs_of_step hstep) rfl
    · cases h
  | renew jobId owner epoch leaseSeconds now =>
    simp only [step] at h
    split at h
    · obtain rfl := Option.some.inj h
      exact .logged ⟨rfl, .inl rfl⟩ rfl
    · obtain rfl := Option.some.inj h
      exact .logged (.refl ..) rfl
  | tick now =>
    simp only [step] at h
    split_ifs at h
    obtain rfl := Option.some.inj h
    exact .logged (.refl ..) rfl

/-! ### The envelopes that are traceable -/

/-- No two rows are published under one identifier, and the log tells of the requests only. -/
structure Db.Traced (db : Db) : Prop where
  distinct : (db.outbox.map (·.payload.eventId)).Nodup
  requested : ∀ row ∈ db.outbox, db.Traces row.payload ↔ row.payload.eventType = .requested

namespace Db.Traced

variable {db db' : Db}

/-- An event under another identifier tells nothing of an envelope. -/
theorem traces_append {e envelope : Event} (hevents : db'.events = db.events ++ [e])
    (hne : e.eventId ≠ envelope.eventId) : db'.Traces envelope ↔ db.Traces envelope := by
  simp [Traces, hevents, hne]

/-- What is logged under a fresh identifier tells nothing of the envelopes there are. -/
theorem of_logs (h : db.Traced) {ids : List Uuid} (hfresh : ∀ id ∈ ids, id ∉ db.eventIds)
    (hlogs : db.Logs ids db') : db'.Traced := by
  obtain ⟨houtbox, hevents⟩ := hlogs
  refine ⟨houtbox ▸ h.distinct, fun row hrow => ?_⟩
  rw [houtbox] at hrow
  rw [← h.requested row hrow]
  rcases hevents with hevents | ⟨e, he, hevents⟩
  · rw [Traces, hevents, Traces]
  · refine traces_append hevents fun heq => hfresh e.eventId he ?_
    exact List.mem_append_right _ (heq ▸ List.mem_map_of_mem hrow)

theorem append (h : db.Traced) {e : Event} {row : OutboxRow}
    (hevents : db'.events = db.events ++ [e]) (houtbox : db'.outbox = db.outbox ++ [row])
    (he : e.eventId ∉ db.eventIds) (hrow : row.payload.eventId ∉ db.eventIds)
    (hiff : db'.Traces row.payload ↔ row.payload.eventType = .requested) : db'.Traced := by
  refine ⟨?_, fun row' hrow' => ?_⟩
  · rw [houtbox, List.map_append, List.map_singleton]
    refine h.distinct.append (List.nodup_singleton _) ?_
    rw [List.disjoint_singleton]
    exact fun hmem => hrow (List.mem_append_right _ hmem)
  · rw [houtbox, List.mem_append, List.mem_singleton] at hrow'
    rcases hrow' with hrow' | rfl
    · rw [← h.requested row' hrow']
      refine traces_append hevents fun heq => he ?_
      exact List.mem_append_right _ (heq ▸ List.mem_map_of_mem hrow')
    · exact hiff

/-- **Step lemma.** A step that draws fresh identifiers publishes under another one than all others,
and its envelope is traceable when it is a request. -/
theorem of_writes {topics : Topics} {w : World} {a : Action} (h : w.db.Traced)
    (hnodup : a.drawn.Nodup) (hfresh : ∀ id ∈ a.drawn, id ∉ w.db.eventIds)
    (hw : w.Writes topics a db') : db'.Traced := by
  cases hw with
  | logged hlogs => exact h.of_logs hfresh hlogs
  | @created ids payload fate =>
    have hid : ids.eventId ∉ w.db.eventIds := hfresh _ (List.mem_singleton_self _)
    refine h.append rfl rfl hid hid ⟨fun _ => rfl, fun _ => ?_⟩
    exact ⟨_, List.mem_append_right _ (List.mem_singleton_self _), rfl, rfl, rfl⟩
  | @handed i ids fate c result =>
    have hid : ids.eventId ∉ w.db.eventIds := hfresh _ List.mem_cons_self
    have hid' : ids.downstreamEventId ∉ w.db.eventIds :=
      hfresh _ (List.mem_cons_of_mem _ (List.mem_singleton_self _))
    have hne : ids.eventId ≠ ids.downstreamEventId := by
      simpa [Action.drawn, LeasedAct.drawn] using hnodup
    refine h.append rfl rfl hid hid' ⟨?_, fun htype => by cases htype⟩
    -- the event of the log has an identifier of its own
    rintro ⟨e, he, heq, -⟩
    have heq : e.eventId = ids.downstreamEventId := heq
    rcases List.mem_append.mp he with he | he
    · exact absurd (List.mem_append_left _ (heq ▸ List.mem_map_of_mem he)) hid'
    · rw [List.mem_singleton.mp he] at heq
      exact absurd heq hne

end Db.Traced

section Runs

variable {topics : Topics} {w₀ w : World} {as : List Action}

/-- **Run lemma.** Every run keeps the requests traceable; whatever else it published it handed
over. -/
theorem traced_of_run (h₀ : (freshPipeline topics).init w₀)
    (hr : (freshPipeline topics).run w₀ as = some w) :
    w.db.Traced ∧ ((∀ row ∈ w.db.outbox, row.payload.eventType = .requested) ↔
      (freshPipeline topics).observe World.handover? w₀ as = []) := by
  refine TransitionSystem.run_observes World.handover? (P := fun w hs => w.db.Traced ∧
    ((∀ row ∈ w.db.outbox, row.payload.eventType = .requested) ↔ hs = [])) ?_ ?_ h₀ hr
  · rintro w ⟨hdb, -⟩
    rw [hdb]
    exact ⟨⟨List.nodup_nil, by simp [Db.empty]⟩, by simp [Db.empty]⟩
  · rintro w a w' hs - ⟨htraced, hrequests⟩ hstep
    obtain ⟨⟨hnodup, hfresh⟩, hstep⟩ := TransitionSystem.restrict_step_eq_some.mp hstep
    have hwrites := World.writes_of_step hstep
    refine ⟨htraced.of_writes hnodup hfresh hwrites, ?_⟩
    generalize w'.db = db' at hwrites
    cases hwrites with
    | logged hlogs hnone => rw [hlogs.1, hnone, Option.toList_none, List.append_nil, hrequests]
    | created =>
      rw [show w.handover? (.create ..) = none from rfl, Option.toList_none, List.append_nil,
        ← hrequests]
      simp [JobService.createdDb, addOutbox, JobService.requestEvent, or_imp, forall_and]
    | handed hsome =>
      rw [hsome, Option.toList_some]
      simp [InferencePipelineService.handedOverDb, addOutbox,
        InferencePipelineService.downstreamEvent]

/-- **Which envelopes are traceable.** In every run of the services on one store: no identifier is
published in two rows of the outbox; the log tells of the event of a row exactly when the row is a
request; and it tells of all of them exactly when no inference was handed over. -/
theorem traceable_iff (h₀ : (freshPipeline topics).init w₀)
    (hr : (freshPipeline topics).run w₀ as = some w) :
    (w.db.outbox.map (·.payload.eventId)).Nodup ∧
    (∀ row ∈ w.db.outbox, w.db.Traces row.payload ↔ row.payload.eventType = .requested) ∧
    ((∀ row ∈ w.db.outbox, w.db.Traces row.payload) ↔
      (freshPipeline topics).observe World.handover? w₀ as = []) := by
  obtain ⟨htraced, hrequests⟩ := traced_of_run h₀ hr
  refine ⟨htraced.distinct, htraced.requested, ?_⟩
  rw [← hrequests]
  exact forall₂_congr htraced.requested

end Runs

/-- A request is traceable until its inference is handed over. -/
theorem traceable_iff_request : ∃ w, (freshPipeline ⟨"requests", "downstream"⟩).run World.initial
    [.create exampleIds [] .commits] = some w ∧ w.db.outbox.length = 1 ∧
    ∀ row ∈ w.db.outbox, w.db.Traces row.payload := by
  let topics : Topics := ⟨"requests", "downstream"⟩
  have hr : ((freshPipeline topics).run World.initial [.create exampleIds [] .commits]).isSome :=
    rfl
  obtain ⟨-, -, hall⟩ :=
    traceable_iff (pipeline_init_initial topics) (Option.some_get hr).symm
  exact ⟨_, (Option.some_get hr).symm, rfl, hall.mpr rfl⟩

/-- **An envelope that is not traceable.** The message of the inference stage carries an identifier
under which nothing is logged. -/
theorem not_traceable :
    ¬ ∀ (topics : Topics) (w : World), (freshPipeline topics).Reachable w →
      ∀ row ∈ w.db.outbox, w.db.Traces row.payload := by
  intro h
  let topics : Topics := ⟨"requests", "downstream"⟩
  have hw := TransitionSystem.Reachable.get (T := freshPipeline topics) exampleInference
    (pipeline_init_initial topics) rfl
  obtain ⟨e, he, heq, -⟩ := h topics _ hw _ (List.mem_cons_of_mem _ (List.mem_singleton_self _))
  have hids : ∀ e ∈ (((freshPipeline topics).run World.initial exampleInference).get rfl).db.events,
      e.eventId ≠ 12 := by
    decide +kernel
  exact hids e he heq

end Morphflow
