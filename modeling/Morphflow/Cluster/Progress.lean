import Morphflow.Cluster.Messages
import Morphflow.Cluster.NoLostJob
import Morphflow.Outbox.Progress
import Morphflow.Runner.Progress
import Morphflow.Services.Progress

/-!
# What a deployment can still do

In a deployment of any mixture of the modes a message of the request topic can be handled so that
its job is finished, or is handed over to the downstream stage; and a message of the downstream
topic so that its job is finished, if the job is `PROCESSING`. Hence a job that is `PROCESSING`, or
of which a request is left, has not come to a dead end.

## Main definitions

* `serviceCalls`, `Service.Serves`.
* `Cluster.Known`: every message is about a committed job and carries the request.
* `Cluster.Ready`, `Cluster.Served`: what the handling of a message needs and leaves.
* `Cluster.RequestLeft`.

## Main results

* `Service.leads_served`: what a call can still do.
* `Cluster.leads_read`, `Cluster.leads_publish`: what a worker and a relay can still do.
* `no_dead_end_in_any_mode`.
-/

namespace Morphflow

/-! ### Calls of any service -/

/-- A call of any service on a store that nobody else writes. -/
def serviceCalls (topic : String) : TransitionSystem (Call × Db) CallAct where
  init s := ∃ service event, s.1 = Service.handleEvent service event
  step s a := if a.drawsFresh s.2.outbox then s.1.step topic s.2 a else none

/-- What a call of the service can leave of a job with the given row. -/
def Service.Serves (topic : String) (row : JobRow) (jobId : Uuid) (db : Db) : Service → Prop
  | .worker .. => db.Finished jobId
  | .inference .. => db.Finished jobId ∨ db.HandedOver topic jobId
  | .downstream => row.status = .processing ∨ row.status = .success → db.Finished jobId

namespace Call

variable {topic : String} {call call' : Call} {db db' : Db}

/-- A run of a call writes no other job. -/
theorem jobs_of_leads (h : (serviceCalls topic).Leads (call, db) (call', db')) {k : Uuid}
    (hk : k ≠ call.event.jobId) : db'.jobs k = db.jobs k := by
  refine (h.preserves (P := fun s => s.1.event = call.event ∧ s.2.jobs k = db.jobs k) ?_
    ⟨rfl, rfl⟩).2
  rintro ⟨c, d⟩ a ⟨c', d'⟩ ⟨hevent, hjobs⟩ hstep
  obtain ⟨hfresh, hstep⟩ := Option.ite_none_right_eq_some.mp hstep
  have heff := Call.effect_of_step hstep hfresh
  refine ⟨heff.event_eq.trans hevent, ?_⟩
  rw [← hjobs]
  exact heff.write.jobs_of_ne (by rwa [hevent])

end Call

theorem drawsFresh_leased (rows : List OutboxRow) (a : LeasedAct) :
    (CallAct.leased a).drawsFresh rows = a.drawsFresh rows := by
  cases a <;> rfl

/-- A call of any service about a committed job can return with success. -/
theorem Service.leads_served (topic : String) (service : Service) {event : Event} {db : Db}
    {row : JobRow} (hrow : db.jobs event.jobId = some row)
    (hrequest : (event.payload.get? "request").isSome) : ∃ call' db',
    (serviceCalls topic).Leads (service.handleEvent event, db) (call', db') ∧
      call'.outcome? = some (.ok (true, none)) ∧ service.Serves topic row event.jobId db' := by
  have hjob : (db.jobs event.jobId).isSome := by simp [hrow]
  cases service with
  | worker workerId leaseSeconds =>
    let c : LeasedCall := ⟨workerId, leaseSeconds, event, .claiming⟩
    obtain ⟨db', hleads, hfinished⟩ := WorkerService.leads_finished (c := c) rfl hjob hrequest
    refine ⟨.worker { c with phase := .returned true none }, db', ?_, rfl, hfinished⟩
    refine hleads.lift (U := serviceCalls topic) (f := fun s => (.worker s.1, s.2))
      fun s a s' hstep => .of_step (a := .leased a) ?_
    obtain ⟨hfresh, hstep⟩ := Option.ite_none_right_eq_some.mp hstep
    have hworker : WorkerService.step s.1 s.2 a = some s' := hstep
    simp [serviceCalls, drawsFresh_leased, hfresh, Call.step, hworker]
  | inference workerId leaseSeconds =>
    let c : LeasedCall := ⟨workerId, leaseSeconds, event, .claiming⟩
    obtain ⟨db', hleads, hserved⟩ :=
      InferencePipelineService.leads_handedOver (c := c) topic rfl hjob hrequest
    refine ⟨.inference { c with phase := .returned true none }, db', ?_, rfl, hserved⟩
    refine hleads.lift (U := serviceCalls topic) (f := fun s => (.inference s.1, s.2))
      fun s a s' hstep => .of_step (a := .leased a) ?_
    obtain ⟨hfresh, hstep⟩ := Option.ite_none_right_eq_some.mp hstep
    have hinference : InferencePipelineService.step topic s.1 s.2 a = some s' := hstep
    simp [serviceCalls, drawsFresh_leased, hfresh, Call.step, hinference]
  | downstream =>
    let c : DownstreamCall := ⟨event, .reading⟩
    obtain ⟨db', hleads, hserved⟩ := DownstreamCall.leads_acknowledged (c := c) rfl hrow
    refine ⟨.downstream { c with phase := .returned true none }, db', ?_, rfl, hserved⟩
    refine hleads.lift (U := serviceCalls topic) (f := fun s => (.downstream s.1, s.2))
      fun s a s' hstep => .of_step (a := .downstream a) ?_
    have hdownstream : s.1.step s.2 a = some s' := hstep
    simp [serviceCalls, CallAct.drawsFresh, Call.step, hdownstream]

/-! ### Messages about committed jobs -/

variable {P : Type*} {cfg : ClusterConfig P} {w w' : Cluster P} {g : ConsumerGroupId} {p : P}
  {m : Message Event} {t : PartitionTask Event Call} {rest : List (Message Event)}

namespace Cluster

/-- Every message is about a committed job and carries the request, and every lock belongs to an
open drain. -/
structure Known (cfg : ClusterConfig P) (w : Cluster P) : Prop where
  messages : w.Messages cfg fun _ e =>
    (w.db.jobs e.jobId).isSome ∧ (e.payload.get? "request").isSome
  locks : w.relays.Tight

theorem Known.knows (h : w.Known cfg) (hs : w.Sound cfg)
    (hm : m ∈ (w.groups g).messages (cfg.group g) p) :
    (w.db.jobs m.value.jobId).isSome ∧ (m.value.payload.get? "request").isSome := by
  obtain ⟨record, hrecord, hvalue, -⟩ := Group.exists_record_of_mem hm
  obtain ⟨-, hknown⟩ := h.messages.of_record hs hrecord
  rwa [hvalue] at hknown

variable [DecidableEq P] [Fintype P]

/-- The drains go on with the locks they hold. -/
theorem Effect.tight {a : ClusterAct P} (heff : Effect cfg w a w') (h : w.relays.Tight) :
    w'.relays.Tight := by
  have hland : ∀ {w w' : Cluster P} {topic : String} {record : LogRecord Event}
      {place : RecordPlace P}, w.land cfg topic record place = some w' →
      w'.relays = w.relays := by
    intro w w' topic record place hl
    rcases land_cases hl with ⟨-, rfl⟩ | ⟨at', -, -, rfl⟩ <;> rfl
  cases heff with
  | relayed _ heff => exact h.of_effect heff
  | @rowPublished i outcome _ _ _ _ _ hi hf hm hl =>
    have heff : w.relays.Effect w.db.outbox (.publish i outcome) _ _ := .published hi hf hm
    rw [hland hl]
    exact h.of_effect heff
  | published _ _ hl =>
    rw [setGroup_relays, hland hl]
    exact h
  | publishFailed _ _ hl =>
    rw [setGroup_relays, hland hl]
    exact h
  | _ => exact h

theorem Known.of_effect (h : w.Known cfg) (hs : w.Sound cfg) {a : ClusterAct P}
    (heff : Effect cfg w a w') : w'.Known cfg where
  locks := heff.tight h.locks
  messages := by
    refine h.messages.of_effect hs heff (fun _ e he => ⟨?_, he.2⟩)
      (fun ids payload fate _ hdb => ⟨?_, rfl⟩) (fun g p m c lease result ids hx _ _ => ⟨?_, rfl⟩)
    · obtain ⟨row, hrow⟩ := Option.isSome_iff_exists.mp he.1
      obtain ⟨row', hrow', -⟩ := heff.row_kept hrow
      simp [hrow']
    · rw [hdb]
      exact Option.isSome_iff_exists.mpr ⟨_, KeyedTable.set_self ..⟩
    · have hevent : c.event = m.value := (hs.handling g p m _ hx).1
      obtain ⟨row, hrow⟩ := Option.isSome_iff_exists.mp (h.messages.in_hand hs hx).1
      obtain ⟨row', hrow', -⟩ := heff.row_kept hrow
      show (w'.db.jobs c.event.jobId).isSome
      simp [hevent, hrow']

theorem Known.of_reachable (h : (clusterSystem cfg).Reachable w) : w.Known cfg := by
  refine h.rec_on_step (P := fun w => w.Known cfg) (fun w h₀ => h₀ ▸ ⟨⟨?_, ?_, ?_⟩, ?_⟩)
    fun _ _ _ hr hk hstep => hk.of_effect (.of_reachable hr) (effect_of_step hstep)
  · exact fun _ h => absurd h List.not_mem_nil
  · exact fun _ _ _ h => absurd h List.not_mem_nil
  · exact fun _ h => absurd h List.not_mem_nil
  · exact fun _ h => absurd h (Finset.notMem_empty _)

/-! ### What a worker can still do -/

/-- The job is processed or finished. -/
def Active (db : Db) (jobId : Uuid) : Prop :=
  ∃ row, db.jobs jobId = some row ∧ (row.status = .processing ∨ row.status = .success)

/-- The handling of a message of the group can bring its job forward. -/
def Ready (db : Db) (jobId : Uuid) : ConsumerGroupId → Prop
  | .request => True
  | .downstream => Active db jobId

/-- What the handling of a message of the group can leave. -/
def Served (cfg : ClusterConfig P) (db : Db) (jobId : Uuid) : ConsumerGroupId → Prop
  | .request => db.Finished jobId ∨ db.HandedOver cfg.settings.kafkaDownstreamTopic jobId
  | .downstream => db.Finished jobId

omit [DecidableEq P] [Fintype P] in
theorem served_of_serves {db db' : Db} {i : ℕ} {row : JobRow} {jobId : Uuid}
    (hrow : db.jobs jobId = some row) (hready : Ready db jobId g)
    (h : (cfg.service g i).Serves cfg.settings.kafkaDownstreamTopic row jobId db') :
    Served cfg db' jobId g := by
  have hgroup := cfg.role_group g i
  unfold ClusterConfig.service buildWorkerRole at h
  cases g with
  | request =>
    cases hrole : (cfg.process .request i).workerRole with
    | unified =>
      rw [hrole] at h
      exact .inl h
    | inference =>
      simp only [hrole] at h
      split_ifs at h
      · exact h
      · exact .inl h
    | downstream =>
      have hdown : resolveWorkerGroupId (cfg.process .request i) = .downstream := if_pos hrole
      cases hdown.symm.trans hgroup
  | downstream =>
    obtain ⟨row', hrow', hactive⟩ := hready
    obtain rfl := Option.some.inj (hrow.symm.trans hrow')
    have hrole : (cfg.process .downstream i).workerRole = .downstream := by
      by_contra hne
      have hrequest : resolveWorkerGroupId (cfg.process .downstream i) = .request := if_neg hne
      cases hrequest.symm.trans hgroup
    simp only [hrole] at h
    split_ifs at h
    · exact h hactive
    · exact h

omit [Fintype P] [DecidableEq P] in
theorem setGroup_setGroup (x y : Group P Event Call) :
    (w.setGroup g x).setGroup g y = w.setGroup g y := by
  simp [setGroup]

omit [Fintype P] [DecidableEq P] in
theorem setGroup_self : w.setGroup g (w.groups g) = w := by
  simp [setGroup]

theorem leads_loops {x : Group P Event Call} (h : (pollLoops (cfg.group g)).Leads (w.groups g) x) :
    (clusterSystem cfg).Leads w (w.setGroup g x) := by
  suffices hlift : (clusterSystem cfg).Leads (w.setGroup g (w.groups g)) (w.setGroup g x) by
    rwa [setGroup_self] at hlift
  refine h.lift (U := clusterSystem cfg) (f := w.setGroup g) fun x₁ a x₂ hstep =>
    .of_step (a := .loop g a) ?_
  obtain ⟨hloops, hstep⟩ := TransitionSystem.restrict_step_eq_some.mp hstep
  have hgroup : x₁.step (cfg.group g) a = some x₂ := hstep
  simp [clusterSystem, step, hloops, groupStep, hgroup, setGroup_setGroup]

theorem leads_call {call call' : Call} {db' : Db} (ht : (w.groups g).openTask? p = some t)
    (hh : t.handling = some (m, .calling call))
    (h : (serviceCalls cfg.settings.kafkaDownstreamTopic).Leads (call, w.db) (call', db')) :
    (clusterSystem cfg).Leads w ({ w with db := db' }.setGroup g
      ((w.groups g).setTask p { t with handling := some (m, .calling call') })) := by
  let f : Call × Db → Cluster P := fun s => { w with db := s.2 }.setGroup g
    ((w.groups g).setTask p { t with handling := some (m, .calling s.1) })
  have hstart : f (call, w.db) = w := by
    have hsame : (w.groups g).setTask p { t with handling := some (m, .calling call) } =
        w.groups g := by
      rw [← hh]
      exact Group.setTask_of_openTask? ht
    simp only [f, hsame]
    exact setGroup_self
  suffices hlift : (clusterSystem cfg).Leads (f (call, w.db)) (f (call', db')) by
    rwa [hstart] at hlift
  refine h.lift (U := clusterSystem cfg) fun s a s' hstep => .of_step (a := .call g p a) ?_
  obtain ⟨hfresh, hstep⟩ := Option.ite_none_right_eq_some.mp hstep
  have hopen :
      ((f s).groups g).openTask? p = some { t with handling := some (m, .calling s.1) } := by
    rw [show (f s).groups g = _ from setGroup_groups_self ..]
    exact Group.openTask?_setTask_self (Group.openTask?_eq_some_iff.mp ht).2
  have hcalling : ((f s).groups g).handling? p = some (m, .calling s.1) :=
    Group.handling?_of_openTask? hopen
  simp only [clusterSystem, step, hcalling, show (f s).db = s.2 from rfl, hfresh, if_true, hstep,
    groupStep, Group.step, hopen, Option.bind_some, Option.map_some]
  simp [f, setGroup]

/-- The next message of a batch can be skipped, or handled by some worker of the group. -/
theorem leads_handle (h : (clusterSystem cfg).Reachable w)
    (ht : (w.groups g).openTask? p = some t) (hh : t.handling = none)
    (hr : t.remaining = m :: rest) :
    ∃ db', (clusterSystem cfg).Leads w
        ({ w with db := db' }.setGroup g ((w.groups g).settle p t m rest)) ∧
      (∀ k, k ≠ m.value.jobId → db'.jobs k = w.db.jobs k) ∧
      (m.skipped (cfg.runner g) = true ∧ db' = w.db ∨ m.skipped (cfg.runner g) = false ∧
        (Ready w.db m.value.jobId g → Served cfg db' m.value.jobId g)) := by
  have hs := Sound.of_reachable h
  have hm := (hs.groups g).mem_of_next ht hh hr
  obtain ⟨i, now, hvisit⟩ := (hs.groups g).step_visit ht hh hr
  by_cases hskip : m.skipped (cfg.group g).settings = true
  · rw [if_pos hskip] at hvisit
    exact ⟨w.db, leads_loops (Group.leads_of_step rfl hvisit), fun _ _ => rfl, .inl ⟨hskip, rfl⟩⟩
  rw [if_neg hskip] at hvisit
  let call := (cfg.group g).role i m.value
  let t₁ : PartitionTask Event Call :=
    { t with remaining := rest, handling := some (m, .calling call) }
  obtain ⟨hjob, hrequest⟩ := (Known.of_reachable h).knows hs hm
  obtain ⟨row, hrow⟩ := Option.isSome_iff_exists.mp hjob
  obtain ⟨call', db', hcall, hout, hserves⟩ :=
    (cfg.service g i).leads_served cfg.settings.kafkaDownstreamTopic hrow hrequest
  have hevent : ((cfg.service g i).handleEvent m.value).event = m.value := by
    cases cfg.service g i <;> rfl
  refine ⟨db', (leads_loops (Group.leads_of_step rfl hvisit)).trans ?_,
    fun k hk => Call.jobs_of_leads hcall (by rwa [hevent]),
    .inr ⟨Bool.eq_false_iff.mpr hskip, fun hready => served_of_serves hrow hready hserves⟩⟩
  let w₁ := w.setGroup g ((w.groups g).setTask p t₁)
  have hgroup : w₁.groups g = (w.groups g).setTask p t₁ := setGroup_groups_self ..
  have hopen : ∀ x, ((w.groups g).setTask p { t₁ with handling := x }).openTask? p =
      some { t₁ with handling := x } :=
    fun x => Group.openTask?_setTask_self (Group.openTask?_eq_some_iff.mp ht).2
  refine (leads_call (w := w₁) (hgroup ▸ hopen _) rfl hcall).trans ?_
  refine .of_step (a := .answer g p 0) ?_
  simp [clusterSystem, step, Group.handling?, hgroup, hopen, hout, groupStep, Group.step,
    Message.afterHandler, setGroup_setGroup, t₁]
  exact setGroup_setGroup (w := { w with db := db' }) ((w.groups g).setTask p t₁)
    ((w.groups g).settle p t m rest)

/-- A worker can handle its batch up to a message that its group wants, and serve its job. -/
theorem leads_consume (h : (clusterSystem cfg).Reachable w)
    (ht : (w.groups g).openTask? p = some t) (hh : t.handling = none) (hm : m ∈ t.remaining)
    (hskip : m.skipped (cfg.runner g) = false) (hready : Ready w.db m.value.jobId g) :
    ∃ w', (clusterSystem cfg).Leads w w' ∧ Served cfg w'.db m.value.jobId g := by
  induction hr : t.remaining generalizing w t with
  | nil => exact absurd (hr ▸ hm) List.not_mem_nil
  | cons m₀ rest ih =>
    obtain ⟨db', hhandle, hother, hdb⟩ := leads_handle h ht hh hr
    rcases List.mem_cons.mp (hr ▸ hm) with rfl | hrest
    · rcases hdb with ⟨hskip', -⟩ | ⟨-, hserved⟩
      · cases hskip.symm.trans hskip'
      · exact ⟨_, hhandle, hserved hready⟩
    let w₁ := { w with db := db' }.setGroup g ((w.groups g).settle p t m₀ rest)
    have hopen : (w₁.groups g).openTask? p = some (t.settle m₀ rest) := by
      rw [show w₁.groups g = _ from setGroup_groups_self ..]
      exact Group.openTask?_settle_self ht m₀ rest
    have hready₁ : Ready w₁.db m.value.jobId g := by
      rcases hdb with ⟨-, rfl⟩ | ⟨-, hserved⟩
      · exact hready
      cases g with
      | request => exact hready
      | downstream =>
        by_cases hk : m.value.jobId = m₀.value.jobId
        · -- an earlier message of the job has finished it
          obtain ⟨row, hrow, hs⟩ := hserved (hk ▸ hready)
          exact ⟨row, hk ▸ hrow, .inr hs⟩
        · obtain ⟨row, hrow, hactive⟩ := hready
          exact ⟨row, (hother _ hk).trans hrow, hactive⟩
    obtain ⟨w', hrun, hserved⟩ := ih (hhandle.reachable h) hopen rfl hrest hready₁ rfl
    exact ⟨w', hhandle.trans hrun, hserved⟩

/-- A record at or behind the committed offset that its group wants can be handled, and its job
served. -/
theorem leads_read (h : (clusterSystem cfg).Reachable w) {o : ℕ} {record : LogRecord Event}
    (hrecord : ((w.groups g).log p)[o]? = some record) (hle : (w.groups g).committed p ≤ o)
    (hskip : (⟨cfg.topicOf g p, o, record.value, record.headers⟩ : Message Event).skipped
      (cfg.runner g) = false) (hready : Ready w.db record.value.jobId g) :
    ∃ w', (clusterSystem cfg).Leads w w' ∧ Served cfg w'.db record.value.jobId g := by
  obtain ⟨x, t, hbatch, -, ht, hh, hmem⟩ :=
    Group.leads_batch ((Sound.of_reachable h).groups g) hrecord hle
  have hpolled := leads_loops hbatch
  have hopen : ((w.setGroup g x).groups g).openTask? p = some t := by
    rwa [setGroup_groups_self]
  obtain ⟨w', hconsume, hserved⟩ :=
    leads_consume (hpolled.reachable h) hopen hh hmem hskip hready
  exact ⟨w', hpolled.trans hconsume, hserved⟩

/-! ### What a relay can still do -/

/-- The relays can take their steps that publish nothing. -/
theorem leads_relays {r : Relays} (h : quietRelays.Leads (w.db.outbox, w.relays) (w.db.outbox, r)) :
    (clusterSystem cfg).Leads w (w.relayed w.db.outbox r) := by
  refine h.lift (U := clusterSystem cfg) (f := fun s => w.relayed s.1 s.2) fun s a s' hstep =>
    .of_step (a := .relay a none) ?_
  obtain ⟨hquiet, hstep⟩ := Option.ite_none_right_eq_some.mp hstep
  have hcall : s.2.publishCall? a = none := Option.isNone_iff_eq_none.mp hquiet
  simp [clusterSystem, step, relayed, hstep, hcall]

/-- A relay can publish its batch in order, up to any row of it. -/
theorem leads_publish (h : (clusterSystem cfg).Reachable w) {place : ConsumerGroupId → P}
    (hplace : ∀ g, cfg.topicOf g (place g) = (cfg.runner g).consumeTopic) {i : ℕ} {d : Drain}
    {row : OutboxRow} (hi : w.relays.drains i = some d) (hf : d.failed = none)
    (hrow : row ∈ d.remaining) (hg : row.topic = (cfg.runner g).consumeTopic) :
    ∃ w' o record, (clusterSystem cfg).Leads w w' ∧ w'.db = w.db ∧
      ((w'.groups g).log (place g))[o]? = some record ∧
      (w'.groups g).committed (place g) ≤ o ∧ record.value = row.payload ∧
      (⟨cfg.topicOf g (place g), o, record.value, record.headers⟩ : Message Event).skipped
        (cfg.runner g) = false := by
  induction hr : d.remaining generalizing w d with
  | nil => exact absurd (hr ▸ hrow) List.not_mem_nil
  | cons message rest ih =>
    have hs := Sound.of_reachable h
    obtain ⟨-, hmem, -⟩ :=
      hs.relays.fetched_of_mem_remaining hi (hr ▸ List.mem_cons_self : message ∈ d.remaining)
    obtain ⟨⟨g', hg'⟩, hheaders⟩ := hs.rows message hmem
    have hnext : d.next? = some message := Relays.next?_eq_some_iff.mpr ⟨hf, rest, hr⟩
    -- only the group of the message reads its topic
    have hat : ∀ g₁, cfg.subscribes g₁ message.topic = true →
        cfg.topicOf g₁ (place g₁) = message.topic := by
      intro g₁ hsub
      rcases ClusterConfig.subscribes_iff.mp hsub with heq | heq
      · exact (hplace g₁).trans heq.symm
      · exact absurd (hg'.symm.trans heq) (cfg.consume_ne_retry g' g₁)
    let d₁ := d.afterPublish message (.ok ())
    let w₁ := (w.relayed w.db.outbox (w.relays.goOn i d₁)).landed cfg message.topic message.record
      place
    have hpublish : (clusterSystem cfg).step w (.relay (.publish i (.ok ())) (some place)) =
        some w₁ := by
      simp only [clusterSystem, step, Relays.step, hi, hnext, Relays.publishCall?,
        Option.bind_some, Option.map_some, OutboxRow.publishCall, Option.isNone_some,
        Bool.and_false, Bool.false_eq_true, if_false, land]
      exact if_pos hat
    have hlead := TransitionSystem.Leads.of_step hpublish
    have hd₁ : d₁.remaining = rest := by simp [d₁, Drain.afterPublish, hr]
    rcases List.mem_cons.mp (hr ▸ hrow) with rfl | hrest
    · -- the record is the last one of the log
      have hsub : cfg.subscribes g row.topic = true := ClusterConfig.subscribes_iff.mpr (.inl hg)
      have hgroup : w₁.groups g = (w.groups g).append (place g) row.record :=
        landed_groups_of_subscribes hsub
      refine ⟨w₁, ((w.groups g).log (place g)).length, row.record, hlead, rfl, ?_, ?_, rfl,
        ClusterConfig.skipped_of_origin ?_⟩
      · simp [hgroup, Group.append]
      · rw [hgroup]
        exact ((hs.groups g).committed_le_frontier _).trans ((hs.groups g).frontier_le_length _)
      · show row.record.origin (cfg.topicOf g (place g)) = _
        rw [OutboxRow.record_origin hheaders]
        exact hplace g
    · obtain ⟨w', o, record, hrun, hdb, hfound⟩ := ih (hlead.reachable h)
        (KeyedTable.set_self ..) (by simpa [d₁, Drain.afterPublish] using hf) (hd₁ ▸ hrest) hd₁
      exact ⟨w', o, record, hlead.trans hrun, hdb, hfound⟩

/-- A waiting row can be published and its record handled, and its job served. -/
theorem leads_sent (h : (clusterSystem cfg).Reachable w) {place : ConsumerGroupId → P}
    (hplace : ∀ g, cfg.topicOf g (place g) = (cfg.runner g).consumeTopic) {row : OutboxRow}
    (hrow : row ∈ w.db.outbox) (hpending : row.status = .pending)
    (hg : row.topic = (cfg.runner g).consumeTopic) (hready : Ready w.db row.payload.jobId g) :
    ∃ w', (clusterSystem cfg).Leads w w' ∧ Served cfg w'.db row.payload.jobId g := by
  obtain ⟨i, r, d, hfetch, hd, hf, hremaining⟩ := Relays.leads_fetched
    (Known.of_reachable h).locks (Sound.of_reachable h).relays.distinct hrow hpending
  have hfetched : (clusterSystem cfg).Leads w _ := leads_relays hfetch
  have h₁ := hfetched.reachable h
  obtain ⟨w₂, o, record, hpublish, hdb, hrecord, hle, hvalue, hskip⟩ :=
    leads_publish h₁ hplace hd hf hremaining hg
  have hready₂ : Ready w₂.db record.value.jobId g := by
    rw [hdb, hvalue]
    exact hready
  obtain ⟨w₃, hread, hserved⟩ := leads_read (hpublish.reachable h₁) hrecord hle hskip hready₂
  exact ⟨w₃, (hfetched.trans hpublish).trans hread, hvalue ▸ hserved⟩

/-- A request for the job waits in the outbox, or is a record that the request group has not
committed and does not skip. -/
def RequestLeft (cfg : ClusterConfig P) (w : Cluster P) (jobId : Uuid) : Prop :=
  (∃ row ∈ w.db.outbox, row.status = .pending ∧
    row.topic = (cfg.runner .request).consumeTopic ∧ row.payload.jobId = jobId) ∨
  ∃ p o record, ((w.groups .request).log p)[o]? = some record ∧
    (w.groups .request).committed p ≤ o ∧ record.value.jobId = jobId ∧
    (⟨cfg.topicOf .request p, o, record.value, record.headers⟩ : Message Event).skipped
      (cfg.runner .request) = false

/-- A job that was served by the request group can be finished. -/
theorem leads_finished (h : (clusterSystem cfg).Reachable w) {place : ConsumerGroupId → P}
    (hplace : ∀ g, cfg.topicOf g (place g) = (cfg.runner g).consumeTopic) {jobId : Uuid}
    (hserved : Served cfg w.db jobId .request) :
    ∃ w', (clusterSystem cfg).Leads w w' ∧ w'.db.Finished jobId := by
  rcases hserved with hfinished | ⟨⟨row, hrow, hs⟩, r, hr, hpending, htopic, rfl⟩
  · exact ⟨w, .refl w, hfinished⟩
  · exact leads_sent (g := .downstream) h hplace hr hpending htopic ⟨row, hrow, .inl hs⟩

/-- A job without a dead letter that is processed, or of which a request is left, can be
finished. -/
theorem leads_success (h : (clusterSystem cfg).Reachable w) {place : ConsumerGroupId → P}
    (hplace : ∀ g, cfg.topicOf g (place g) = (cfg.runner g).consumeTopic) {jobId : Uuid}
    {row : JobRow} (hrow : w.db.jobs jobId = some row)
    (hlog : ∀ e ∈ w.db.events, e.jobId = jobId → e.eventType ≠ .downstreamCompleted)
    (halive : ∀ record ∈ w.dlq, record.value.jobId ≠ jobId)
    (hstatus : row.status = .processing ∨ row.status = .success ∨ w.RequestLeft cfg jobId) :
    ∃ w', (clusterSystem cfg).Leads w w' ∧ w'.db.Finished jobId := by
  have hrequest : w.RequestLeft cfg jobId →
      ∃ w', (clusterSystem cfg).Leads w w' ∧ w'.db.Finished jobId := by
    intro hleft
    have hserved : ∃ w', (clusterSystem cfg).Leads w w' ∧ Served cfg w'.db jobId .request := by
      rcases hleft with ⟨r, hmem, hpending, htopic, rfl⟩ | ⟨p, o, record, hrecord, hle, rfl, hskip⟩
      · exact leads_sent h hplace hmem hpending htopic trivial
      · exact leads_read h hrecord hle hskip trivial
    obtain ⟨w₁, hlead, hserved⟩ := hserved
    obtain ⟨w₂, hlead', hfinished⟩ := leads_finished (hlead.reachable h) hplace hserved
    exact ⟨w₂, hlead.trans hlead', hfinished⟩
  by_cases hsuccess : row.status = .success
  · exact ⟨w, .refl w, row, hrow, hsuccess⟩
  rcases hstatus with hprocessing | hs | hleft
  · have hactive : Active w.db jobId := ⟨row, hrow, .inl hprocessing⟩
    have hunsettled : ¬ w.db.Settled jobId row := by
      rintro (hs | ⟨e, he, hjob, htype⟩)
      · exact hsuccess hs
      · exact hlog e he hjob htype
    rcases (Kept.of_reachable h jobId row hrow hunsettled).exists_carrier (.of_reachable h) with
      ⟨r, hmem, hpending, hjob⟩ | ⟨g, p, o, record, hrecord, hle, hjob, hskip⟩ |
      ⟨record, hmem, hjob⟩
    · obtain ⟨⟨g, htopic⟩, -⟩ := (Sound.of_reachable h).rows r hmem
      cases g with
      | request => exact hrequest (.inl ⟨r, hmem, hpending, htopic, hjob⟩)
      | downstream =>
        subst hjob
        exact leads_sent (g := .downstream) h hplace hmem hpending htopic hactive
    · cases g with
      | request => exact hrequest (.inr ⟨p, o, record, hrecord, hle, hjob, hskip⟩)
      | downstream =>
        subst hjob
        exact leads_read (g := .downstream) h hrecord hle hskip hactive
    · exact absurd hjob (halive record hmem)
  · exact absurd hs hsuccess
  · exact hrequest hleft

end Cluster

/-- **No dead end in any mixture of the modes.** From every reachable state of a deployment in which
the topic of each group has a partition: a committed job, of which no message is a dead letter and
whose log holds no completion by the downstream stage, can still become `SUCCESS` if it is
`PROCESSING` or `SUCCESS` or a request for it is left. -/
theorem no_dead_end_in_any_mode [DecidableEq P] [Fintype P] (h : (clusterSystem cfg).Reachable w)
    {place : ConsumerGroupId → P}
    (hplace : ∀ g, cfg.topicOf g (place g) = (cfg.runner g).consumeTopic) {jobId : Uuid}
    {row : JobRow} (hrow : w.db.jobs jobId = some row)
    (hlog : ∀ e ∈ w.db.events, e.jobId = jobId → e.eventType ≠ .downstreamCompleted)
    (halive : ∀ record ∈ w.dlq, record.value.jobId ≠ jobId)
    (hstatus : row.status = .processing ∨ row.status = .success ∨ w.RequestLeft cfg jobId) :
    ∃ as w' row', (clusterSystem cfg).run w as = some w' ∧ w'.db.jobs jobId = some row' ∧
      row'.status = .success := by
  obtain ⟨w', ⟨as, hrun⟩, row', hrow', hs⟩ :=
    Cluster.leads_success h hplace hrow hlog halive hstatus
  exact ⟨as, w', row', hrun, hrow', hs⟩

/-- The job whose worker died after the handover can still be finished. -/
theorem no_dead_end_in_any_mode_switched : ∃ as w' row',
    (clusterSystem exampleCluster).run exampleSwitched as = some w' ∧
      w'.db.jobs 1 = some row' ∧ row'.status = .success := by
  have hreach : (clusterSystem exampleCluster).Reachable exampleSwitched :=
    TransitionSystem.Reachable.get (T := clusterSystem exampleCluster) exampleSwitch rfl
      (by decide)
  have hrow : exampleSwitched.db.jobs 1 = some ((exampleSwitched.db.jobs 1).get (by decide)) :=
    (Option.some_get _).symm
  have hplace : ∀ g, exampleCluster.topicOf g false = (exampleCluster.runner g).consumeTopic := by
    intro g
    cases g <;> decide
  exact no_dead_end_in_any_mode hreach hplace hrow (by decide)
    (by decide) (.inl (by decide))

end Morphflow
