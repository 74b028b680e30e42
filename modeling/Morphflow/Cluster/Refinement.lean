import Morphflow.Cluster.NoLostJob
import Morphflow.Foundation.Simulation

/-!
# A deployment is a run of the services

The services on one store are a looser system than a deployment: any call may be started on any
event at any time, and nobody delivers anything. A deployment refines it. The jobs and the log are
the same, the outbox is the same but for what the relays wrote into its rows, and every call that a
worker has in hand is a call under way. What the relays, the poll loops and the topics do, the
services do not see.

## Main definitions

* `Db.asWritten`, `Cluster.Represents`.

## Main results

* `Call.step_asWritten`: no service reads what the relays write.
* `Cluster.Represents.simulation`, `deployment_refines_services`.
-/

namespace Morphflow

variable {P : Type*} {cfg : ClusterConfig P} {w w' : Cluster P} {W : World}

/-- The row before any relay wrote to it. -/
def OutboxRow.asWritten (row : OutboxRow) : OutboxRow where
  id := row.id
  messageId := row.messageId
  topic := row.topic
  payload := row.payload
  headers := row.headers

/-- The tables without what the relays wrote. -/
def Db.asWritten (db : Db) : Db := { db with outbox := db.outbox.map OutboxRow.asWritten }

/-! ### No service reads what the relays write -/

section AsWritten

variable (db : Db)

theorem Db.addOutbox_asWritten (rows : List OutboxRow) (id : ℕ) (messageId : Uuid)
    (topic : String) (payload : Event) :
    (addOutbox rows id messageId topic payload).map OutboxRow.asWritten =
      addOutbox (rows.map OutboxRow.asWritten) id messageId topic payload := by
  simp [addOutbox, OutboxRow.asWritten]

/-- What a transaction proposes, without what the relays wrote. -/
abbrev txAsWritten {α : Type} (body : Except String (Option (α × Db))) :
    Except String (Option (α × Db)) :=
  body.map (Option.map (Prod.map id Db.asWritten))

theorem recordTx_asWritten (jobId : Uuid) (change : StatusChange) (event : Event) :
    recordTx db.asWritten jobId change event = txAsWritten (recordTx db jobId change event) := by
  unfold recordTx
  rw [show db.asWritten.jobs = db.jobs from rfl]
  rcases updateStatus db.jobs jobId change with e | _ | p <;> rfl

theorem writeTx_asWritten (jobId : Uuid) (change : StatusChange) (event : Event) :
    DownstreamCall.writeTx db.asWritten jobId change event =
      txAsWritten (DownstreamCall.writeTx db jobId change event) := by
  unfold DownstreamCall.writeTx
  rw [show db.asWritten.jobs = db.jobs from rfl]
  rcases updateStatus db.jobs jobId change with e | _ | p <;> rfl

theorem claimTx_asWritten (source : String) (c : LeasedCall) (now : Instant) (eventId : Uuid) :
    c.claimTx source now eventId db.asWritten = txAsWritten (c.claimTx source now eventId db) := by
  unfold LeasedCall.claimTx
  rw [show db.asWritten.jobs = db.jobs from rfl]
  cases claimForProcessing db.jobs c.event.jobId c.workerId c.leaseSeconds now <;> rfl

theorem handover_asWritten (topic : String) (c : LeasedCall) (lease : JobLease) (result : Dict)
    (ids : CompletionIds) :
    InferencePipelineService.completeTx topic c lease result ids db.asWritten =
      txAsWritten (InferencePipelineService.completeTx topic c lease result ids db) := by
  simp only [InferencePipelineService.completeTx, Db.asWritten, txAsWritten, Except.map,
    Option.map_some, Prod.map_apply, id_eq, Db.addOutbox_asWritten]

/-- A call under a lease reads the jobs only. -/
theorem LeasedCall.step_asWritten {completeTx : CompleteTx}
    (htx : ∀ c lease result ids, completeTx c lease result ids db.asWritten =
      txAsWritten (completeTx c lease result ids db))
    (source : String) (c : LeasedCall) (a : LeasedAct) :
    c.step source completeTx db.asWritten a =
      (c.step source completeTx db a).map (Prod.map id Db.asWritten) := by
  have hphase : c.phaseStep source completeTx db.asWritten a =
      (c.phaseStep source completeTx db a).map (Prod.map id Db.asWritten) := by
    unfold LeasedCall.phaseStep
    split <;> simp only [Option.map_some, Option.map_none]
    · rw [claimTx_asWritten, TxFate.conclude_map]
    · rfl
    · rfl
    · rfl
    · rw [htx, TxFate.conclude_map]
    · rw [LeasedCall.failTx, recordTx_asWritten, TxFate.conclude_map]
      rfl
  rw [LeasedCall.step, hphase, LeasedCall.step]
  cases c.phaseStep source completeTx db a <;> rfl

/-- A call of the downstream stage reads the jobs only. -/
theorem DownstreamCall.step_asWritten (c : DownstreamCall) (a : DownstreamAct) :
    c.step db.asWritten a = (c.step db a).map (Prod.map id Db.asWritten) := by
  have hphase : c.phaseStep db.asWritten a =
      (c.phaseStep db a).map (Prod.map id Db.asWritten) := by
    unfold DownstreamCall.phaseStep
    split <;> simp only [Option.map_some, Option.map_none]
    · rfl
    · rfl
    · rfl
    · rfl
    · rw [DownstreamCall.completeTx, writeTx_asWritten, TxFate.conclude_map]
      rfl
    · rw [DownstreamCall.failTx, writeTx_asWritten, TxFate.conclude_map]
      rfl
  rw [DownstreamCall.step, hphase, DownstreamCall.step]
  cases c.phaseStep db a <;> rfl

/-- No service reads what the relays write. -/
theorem Call.step_asWritten (topic : String) (call : Call) (a : CallAct) :
    call.step topic db.asWritten a =
      (call.step topic db a).map (Prod.map id Db.asWritten) := by
  cases call with
  | worker c =>
    cases a with
    | leased a =>
      have htx : ∀ c lease result ids, WorkerService.completeTx c lease result ids db.asWritten =
          txAsWritten (WorkerService.completeTx c lease result ids db) :=
        fun c lease result ids => recordTx_asWritten db ..
      simp only [Call.step, WorkerService.step, LeasedCall.step_asWritten db htx, Option.map_map]
      rfl
    | downstream a => rfl
  | inference c =>
    cases a with
    | leased a =>
      simp only [Call.step, InferencePipelineService.step,
        LeasedCall.step_asWritten db (handover_asWritten db topic), Option.map_map]
      rfl
    | downstream a => rfl
  | downstream c =>
    cases a with
    | leased a => rfl
    | downstream a =>
      simp only [Call.step, DownstreamCall.step_asWritten, Option.map_map]
      rfl

/-- A request reads the jobs and the identifiers of the rows. -/
theorem JobService.createJob_asWritten (topic : String) (ids : RequestIds) (payload : Dict)
    (fate : TxFate) :
    createJob topic ids payload fate db.asWritten =
      (createJob topic ids payload fate db).asWritten := by
  have htx : createTx topic ids payload db.asWritten =
      txAsWritten (createTx topic ids payload db) := by
    unfold createTx
    have hiff : (∀ row ∈ db.asWritten.outbox, row.id ≠ ids.rowId) ↔
        ∀ row ∈ db.outbox, row.id ≠ ids.rowId := by
      simp [Db.asWritten, OutboxRow.asWritten]
    rw [show db.asWritten.jobs = db.jobs from rfl]
    simp only [hiff]
    split_ifs
    · simp only [createdDb, Db.asWritten, txAsWritten, Except.map, Option.map_some, Prod.map_apply,
        id_eq, Db.addOutbox_asWritten]
    · rfl
  rw [createJob, htx, TxFate.conclude_map]
  rfl

/-- The relays write nothing else. -/
theorem Relays.Effect.asWritten {rows rows' : List OutboxRow} {r r' : Relays} {a : RelayAct}
    (h : Relays.Effect rows r a rows' r') :
    rows'.map OutboxRow.asWritten = rows.map OutboxRow.asWritten := by
  cases h with
  | @committed i now d =>
    rw [List.map_map]
    refine List.map_congr_left fun row _ => ?_
    simp only [Function.comp_apply, Drain.writeRow]
    cases d.failed with
    | none => dsimp only; split_ifs <;> rfl
    | some p => dsimp only; split_ifs <;> rfl
  | _ => rfl

end AsWritten

/-! ### The simulation -/

/-- The topics that the services publish to. -/
def ClusterConfig.topics (cfg : ClusterConfig P) : Topics :=
  ⟨cfg.settings.kafkaRequestTopic, cfg.settings.kafkaDownstreamTopic⟩

/-- The step of the services that a step of the call `i` is. -/
def CallAct.action (i : ℕ) : CallAct → Action
  | .leased a => .leased i a
  | .downstream a => .downstream i a

/-- A step of a call under way is a step of the services. -/
theorem World.step_action {topics : Topics} {i : ℕ} {call call' : Call} {db' : Db} {a : CallAct}
    (hi : W.calls i = some call) (h : call.step topics.downstream W.db a = some (call', db')) :
    W.step topics (a.action i) = some (W.goOn i call' db') := by
  cases call <;> cases a <;> simp only [Call.step, reduceCtorEq] at h <;>
    obtain ⟨r, hstep, heq⟩ := Option.map_eq_some_iff.mp h <;>
    obtain ⟨rfl, rfl⟩ := Prod.mk.inj heq <;>
    simp only [CallAct.action, World.step, hi, hstep, Option.map_some]

namespace Cluster

/-- The services have the tables of the deployment as they were written, and run every call that a
worker has in hand; `site i` is where the call `i` was started. -/
structure Represents (w : Cluster P) (W : World) : Prop where
  db : W.db = w.db.asWritten
  calls : ∃ site : ℕ → Option (ConsumerGroupId × P), ∀ g p m call,
    (w.groups g).handling? p = some (m, .calling call) →
      ∃ i, site i = some (g, p) ∧ W.calls i = some call
  room : ∃ n, ∀ i, n ≤ i → W.calls i = none

namespace Represents

variable {g : ConsumerGroupId} {p : P} {m : Message Event} {call : Call}

/-- The services need not move when the jobs and the log stay and no call begins or goes on. -/
theorem quiet (h : w.Represents W) (hdb : w'.db.asWritten = w.db.asWritten)
    (hcalls : ∀ g p m call, (w'.groups g).handling? p = some (m, .calling call) →
      (w.groups g).handling? p = some (m, .calling call)) : w'.Represents W where
  db := h.db.trans hdb.symm
  calls := h.calls.imp fun _ hsite g p m call hx => hsite g p m call (hcalls g p m call hx)
  room := h.room

theorem goOn (h : w.Represents W) {i : ℕ} {db' : Db} (hdb : db' = w'.db.asWritten)
    (site : ℕ → Option (ConsumerGroupId × P)) (hi : site i = some (g, p))
    (hcalls : ∀ g' p' m' call', (w'.groups g').handling? p' = some (m', .calling call') →
      ((g', p') = (g, p) ∧ call' = call) ∨
        ∃ j, j ≠ i ∧ site j = some (g', p') ∧ W.calls j = some call') :
    w'.Represents (W.goOn i call db') where
  db := hdb
  calls := by
    refine ⟨site, fun g' p' m' call' hx => ?_⟩
    rcases hcalls g' p' m' call' hx with ⟨heq, rfl⟩ | ⟨j, hj, hsite, hcall⟩
    · exact ⟨i, hi.trans (congrArg some heq.symm), KeyedTable.set_self ..⟩
    · exact ⟨j, hsite, (KeyedTable.set_of_ne _ _ hj).trans hcall⟩
  room := by
    obtain ⟨n, hn⟩ := h.room
    refine ⟨max n (i + 1), fun j hj => ?_⟩
    rw [World.goOn_calls, KeyedTable.set_of_ne _ _ (by omega)]
    exact hn j (by omega)

variable [DecidableEq P] [Fintype P]

/-- Only a visit begins a call, and only a step of a call goes on with one. -/
theorem calling_of_quiet (hs : w.Sound cfg) {a : ClusterAct P} (heff : Effect cfg w a w')
    (hloop : ∀ g p now, a ≠ .loop g (.visit p now)) (hcall : ∀ g p act, a ≠ .call g p act)
    (hx : (w'.groups g).handling? p = some (m, .calling call)) :
    (w.groups g).handling? p = some (m, .calling call) := by
  rcases heff.calling_cases hs hx with hx | ⟨_, _, ha, -⟩ | ⟨_, _, ha, -⟩
  · exact hx
  · exact absurd ha (hloop _ _ _)
  · exact absurd ha (hcall _ _ _)

theorem start (h : w.Represents W) (hs : w.Sound cfg) {a : ClusterAct P} (heff : Effect cfg w a w')
    (hdb : w'.db = w.db) {now : ℤ} {i : ℕ} (ha : a = .loop g (.visit p now))
    (hx : (w'.groups g).handling? p =
      some (m, .calling ((cfg.service g i).handleEvent m.value))) :
    ∃ as W', as.length ≤ 1 ∧ (pipeline cfg.topics).run W as = some W' ∧ w'.Represents W' := by
  obtain ⟨site, hsite⟩ := h.calls
  obtain ⟨n, hn⟩ := h.room
  have hfree : W.calls n = none := hn n le_rfl
  refine ⟨[.start n (cfg.service g i) m.value],
    W.goOn n ((cfg.service g i).handleEvent m.value) W.db, le_rfl, ?_, ?_⟩
  · simp [TransitionSystem.run_cons, pipeline, World.step, hfree]
  refine h.goOn (h.db.trans (by rw [hdb])) (Function.update site n (some (g, p)))
    (Function.update_self ..) fun g' p' m' call' hx' => ?_
  by_cases heq : (g', p') = (g, p)
  · obtain ⟨rfl, rfl⟩ := Prod.mk.inj heq
    obtain ⟨-, hcall⟩ := Prod.mk.inj (Option.some.inj (hx'.symm.trans hx))
    exact .inl ⟨rfl, Handling.calling.inj hcall⟩
  · rcases heff.calling_cases hs hx' with hold | ⟨_, _, ha', -⟩ | ⟨_, _, ha', -⟩
    · obtain ⟨j, hj, hcall⟩ := hsite g' p' m' call' hold
      have hne : j ≠ n := fun hjn => by rw [hjn, hfree] at hcall; cases hcall
      exact .inr ⟨j, hne, (Function.update_of_ne hne ..).trans hj, hcall⟩
    · obtain ⟨rfl, hvisit⟩ := ClusterAct.loop.inj (ha.symm.trans ha')
      obtain ⟨rfl, -⟩ := GroupAct.visit.inj hvisit
      exact absurd rfl heq
    · cases ha.symm.trans ha'

theorem progress (h : w.Represents W) (hs : w.Sound cfg) {t : PartitionTask Event Call}
    {call' : Call} {db' : Db} {a : CallAct} (heff : Effect cfg w (.call g p a) w')
    (ht : (w.groups g).openTask? p = some t) (hh : t.handling = some (m, .calling call))
    (hstep : call.step cfg.settings.kafkaDownstreamTopic w.db a = some (call', db'))
    (hw' : w' = { w with db := db' }.setGroup g
      ((w.groups g).setTask p { t with handling := some (m, .calling call') })) :
    ∃ as W', as.length ≤ 1 ∧ (pipeline cfg.topics).run W as = some W' ∧ w'.Represents W' := by
  obtain ⟨site, hsite⟩ := h.calls
  obtain ⟨i, hi, hcall⟩ := hsite g p m call ((Group.handling?_of_openTask? ht).trans hh)
  have hworld : (pipeline cfg.topics).step W (a.action i) =
      some (W.goOn i call' db'.asWritten) := by
    refine World.step_action hcall ?_
    rw [h.db, Call.step_asWritten, ClusterConfig.topics, hstep]
    rfl
  refine ⟨[a.action i], _, le_rfl, (pipeline cfg.topics).run_cons_eq_some.mpr ⟨_, hworld, rfl⟩, ?_⟩
  refine h.goOn (by rw [hw']; rfl) site hi fun g' p' m' call₁ hx' => ?_
  by_cases heq : (g', p') = (g, p)
  · obtain ⟨rfl, rfl⟩ := Prod.mk.inj heq
    rw [hw', setGroup_groups_self, Group.handling?_goOn_self ht] at hx'
    obtain ⟨-, hnew⟩ := Prod.mk.inj (Option.some.inj hx')
    exact .inl ⟨rfl, (Handling.calling.inj hnew).symm⟩
  · rcases heff.calling_cases hs hx' with hold | ⟨_, _, ha, -⟩ | ⟨_, _, ha, -⟩
    · obtain ⟨j, hj, hcall'⟩ := hsite g' p' m' call₁ hold
      refine .inr ⟨j, fun hji => heq ?_, hj, hcall'⟩
      exact Option.some.inj (hj.symm.trans (hji ▸ hi))
    · cases ha
    · obtain ⟨rfl, rfl, -⟩ := ClusterAct.call.inj ha
      exact absurd rfl heq

/-- **Step lemma.** A step of the deployment is answered by at most one step of the services. -/
theorem step (h : w.Represents W) (hs : w.Sound cfg) {a : ClusterAct P}
    (hstep : w.step cfg a = some w') : ∃ as W', as.length ≤ 1 ∧
      (pipeline cfg.topics).run W as = some W' ∧ w'.Represents W' := by
  have heff := effect_of_step hstep
  cases a with
  | create ids payload fate =>
    obtain rfl := Option.some.inj hstep
    refine ⟨[.create ids payload fate], _, le_rfl, rfl, ?_, h.calls, h.room⟩
    rw [h.db]
    exact JobService.createJob_asWritten ..
  | relay a place =>
    refine ⟨[], W, Nat.zero_le _, rfl, h.quiet ?_ fun g p m call hx =>
      calling_of_quiet hs heff (by rintro _ _ _ ⟨⟩) (by rintro _ _ _ ⟨⟩) hx⟩
    cases heff with
    | relayed _ heff =>
      exact congrArg (fun rows => (⟨w.db.jobs, w.db.events, rows⟩ : Db)) heff.asWritten
    | rowPublished _ _ _ hland => rw [land_db hland]; rfl
  | answer g p now =>
    refine ⟨[], W, Nat.zero_le _, rfl, h.quiet ?_ fun g p m call hx =>
      calling_of_quiet hs heff (by rintro _ _ _ ⟨⟩) (by rintro _ _ _ ⟨⟩) hx⟩
    cases heff <;> rfl
  | publish g p returned place =>
    refine ⟨[], W, Nat.zero_le _, rfl, h.quiet ?_ fun g p m call hx =>
      calling_of_quiet hs heff (by rintro _ _ _ ⟨⟩) (by rintro _ _ _ ⟨⟩) hx⟩
    cases heff with
    | published _ _ hland => rw [setGroup_db, land_db hland]
    | publishFailed _ _ hland => rw [setGroup_db, land_db hland]
  | loop g a =>
    have hdb : w'.db = w.db := by cases heff; rfl
    by_cases hnew : ∃ g p m call, (w'.groups g).handling? p = some (m, .calling call) ∧
        (w.groups g).handling? p = none
    · obtain ⟨g₁, p₁, m₁, call₁, hx₁, hnone⟩ := hnew
      rcases heff.calling_cases hs hx₁ with hx | ⟨now, i, ha, -, rfl⟩ | ⟨_, _, ha, -⟩
      · cases hnone.symm.trans hx
      · exact h.start hs heff hdb ha hx₁
      · cases ha
    · refine ⟨[], W, Nat.zero_le _, rfl, h.quiet (congrArg _ hdb) fun g p m call hx => ?_⟩
      rcases heff.calling_cases hs hx with hold | ⟨_, _, _, hnone, -⟩ | ⟨_, _, ha, -⟩
      · exact hold
      · exact absurd ⟨g, p, m, call, hx, hnone⟩ hnew
      · cases ha
  | call g p a =>
    cases heff with
    | @progressed _ _ _ t m call call' db' ht hh heff' hstep' =>
      exact h.progress hs (.progressed ht hh heff' hstep') ht hh hstep' rfl

variable (cfg) in
/-- The services simulate the deployment. -/
theorem simulation : (clusterSystem cfg).Simulation (pipeline cfg.topics) Represents where
  init w hw := by
    subst hw
    refine ⟨World.initial, pipeline_init_initial _, rfl, ⟨fun _ => none, ?_⟩, 0, fun _ _ => rfl⟩
    rintro g p m call ⟨⟩
  step w a w' W hreach h hstep := by
    obtain ⟨as, W', -, hr, h'⟩ := h.step (.of_reachable hreach) hstep
    exact ⟨as, W', hr, h'⟩

end Represents

end Cluster

/-- **A deployment refines the services on one store.** Every reachable deployment represents a
reachable state of the services, with the same jobs and the same log; and whatever the deployment
goes on to do, the services can do from any state it represents. -/
theorem deployment_refines_services [DecidableEq P] [Fintype P]
    (h : (clusterSystem cfg).Reachable w) :
    (∃ W, (pipeline cfg.topics).Reachable W ∧ w.Represents W) ∧
    ∀ W as w', w.Represents W → (clusterSystem cfg).run w as = some w' →
      ∃ bs W', (pipeline cfg.topics).run W bs = some W' ∧ w'.Represents W' :=
  ⟨(Cluster.Represents.simulation cfg).reachable h,
    fun _ _ _ hR hr => (Cluster.Represents.simulation cfg).run h hR hr⟩

/-- The deployment whose worker died represents a state of the services. -/
theorem deployment_refines_services_switched :
    ∃ W, (pipeline exampleCluster.topics).Reachable W ∧ exampleSwitched.Represents W := by
  have hreach : (clusterSystem exampleCluster).Reachable exampleSwitched :=
    TransitionSystem.Reachable.get (T := clusterSystem exampleCluster) exampleSwitch rfl
      (by decide)
  exact (deployment_refines_services hreach).1

end Morphflow
