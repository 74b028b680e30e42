import Morphflow.Cluster.Progress

/-!
# Dead ends of the two-stage modes

Where every worker of the downstream group runs `DownstreamPipelineService`, a job that is `PENDING`
or `FAILED` comes forward by a request only, as the downstream stage finishes no job but one that is
`PROCESSING`. So such a job is *stuck* when no request for it is left, and it stays so whatever
happens. A job that the downstream stage failed is stuck as soon as its request is committed,
although its downstream message is still retried.

## Main definitions

* `ClusterConfig.DownstreamStage`, `Cluster.Stuck`.

## Main results

* `Cluster.Effect.requestLeft`: no step brings a request back.
* `Cluster.Stuck.of_effect`, `Cluster.Stuck.of_leads`.
* `can_finish_iff`.
-/

namespace Morphflow

variable {P : Type*} {cfg : ClusterConfig P} {w w' : Cluster P} {g : ConsumerGroupId} {p : P}
  {m : Message Event} {x : Handling Event Call} {k : Uuid}

/-- Every worker of the downstream group runs in a mode of two stages. -/
def ClusterConfig.DownstreamStage (cfg : ClusterConfig P) : Prop :=
  ∀ i, (cfg.process .downstream i).twoStages = true

theorem ClusterConfig.DownstreamStage.service_eq (h : cfg.DownstreamStage) (i : ℕ) :
    cfg.service .downstream i = .downstream := by
  have hrole : (cfg.process .downstream i).workerRole = .downstream := by
    by_contra hne
    have hrequest : resolveWorkerGroupId (cfg.process .downstream i) = .request := if_neg hne
    cases hrequest.symm.trans (cfg.role_group .downstream i)
  simp [ClusterConfig.service, buildWorkerRole, hrole, h i]

namespace Cluster

/-- The job is not finished, nor is it processed, and no request for it is left. -/
def Stuck (cfg : ClusterConfig P) (w : Cluster P) (jobId : Uuid) : Prop :=
  (∃ row, w.db.jobs jobId = some row ∧ (row.status = .pending ∨ row.status = .failed)) ∧
    ¬ w.RequestLeft cfg jobId

/-! ### Requests that are left -/

namespace RequestLeft

theorem of_handling (hs : w.Sound cfg) (hx : (w.groups .request).handling? p = some (m, x)) :
    w.RequestLeft cfg m.value.jobId := by
  have hat := (hs.groups .request).handled_at_frontier hx
  rw [Group.messages, messagesOf_getElem?] at hat
  obtain ⟨record, hrecord, heq⟩ := Option.map_eq_some_iff.mp hat
  refine .inr ⟨p, _, record, hrecord, (hs.groups .request).committed_le_frontier p,
    congrArg (·.value.jobId) heq, ?_⟩
  have hskip := ClusterConfig.skipped_of_origin (hs.handling .request p m x hx).2
  rwa [← heq] at hskip

/-- What is left after the store changed was left before, when the change adds no waiting request
for the job. -/
theorem of_db {db' : Db} (h : ({ w with db := db' } : Cluster P).RequestLeft cfg k)
    (hrows : ∀ row ∈ db'.outbox, row.status = .pending →
      row.topic = (cfg.runner .request).consumeTopic → row.payload.jobId = k →
      ∃ row' ∈ w.db.outbox, row'.status = .pending ∧
        row'.topic = (cfg.runner .request).consumeTopic ∧ row'.payload.jobId = k) :
    w.RequestLeft cfg k :=
  h.imp_left fun ⟨row, hmem, hpending, htopic, hjob⟩ => hrows row hmem hpending htopic hjob

/-- What is left after a group went on was left before. -/
theorem of_regroup {y : Group P Event Call} (h : (w.setGroup g y).RequestLeft cfg k)
    (hlog : y.log = (w.groups g).log) (hle : ∀ p, (w.groups g).committed p ≤ y.committed p) :
    w.RequestLeft cfg k := by
  refine h.imp_right fun ⟨p, o, record, hrecord, ho, hjob, hskip⟩ => ?_
  by_cases hg : ConsumerGroupId.request = g
  · subst hg
    rw [setGroup_groups_self] at hrecord ho
    exact ⟨p, o, record, hlog ▸ hrecord, (hle p).trans ho, hjob, hskip⟩
  · rw [setGroup_groups_of_ne w y hg] at hrecord ho
    exact ⟨p, o, record, hrecord, ho, hjob, hskip⟩

variable [DecidableEq P]

theorem of_land {topic : String} {record : LogRecord Event} {place : RecordPlace P}
    (hland : w.land cfg topic record place = some w') (hs : w'.Sound cfg)
    (h : w'.RequestLeft cfg k) : w.RequestLeft cfg k ∨
      (record.value.jobId = k ∧ record.origin topic = (cfg.runner .request).consumeTopic) := by
  rcases land_cases hland with ⟨-, rfl⟩ | ⟨at', -, hat, rfl⟩
  · exact .inl h
  rcases h with hrow | ⟨p, o, r, hr, ho, hjob, hskip⟩
  · exact .inl (.inl hrow)
  -- a record that is handled originates from the topic of the group
  have horigin := (hs.skipped_eq_false_iff (p := p)
    (List.mem_of_getElem? (i := o) (by rw [Group.messages, messagesOf_getElem?, hr]; rfl))).mp hskip
  replace horigin : r.origin (cfg.topicOf .request p) = _ := horigin
  cases hsub : cfg.subscribes .request topic
  · rw [landed_groups_of_not hsub] at hr ho
    exact .inl (.inr ⟨p, o, r, hr, ho, hjob, hskip⟩)
  rw [landed_groups_of_subscribes hsub] at hr ho
  by_cases hp : p = at' .request
  swap
  · simp only [Group.append, Function.update_of_ne hp] at hr
    exact .inl (.inr ⟨p, o, r, hr, ho, hjob, hskip⟩)
  subst hp
  simp only [Group.append, Function.update_self] at hr
  rcases lt_or_ge o ((w.groups .request).log (at' .request)).length with hlt | hle
  · rw [List.getElem?_append_left hlt] at hr
    exact .inl (.inr ⟨_, o, r, hr, ho, hjob, hskip⟩)
  · rw [List.getElem?_append_right hle] at hr
    obtain rfl := List.mem_singleton.mp (List.mem_of_getElem? hr)
    rw [hat .request hsub] at horigin
    exact .inr ⟨hjob, horigin⟩

end RequestLeft

variable [DecidableEq P]

/-- What is left after the value of a message in hand was published was left before. -/
theorem requestLeft_of_republished {place : RecordPlace P} {pub : Publication Event}
    (hs : w.Sound cfg) (hx : (w.groups g).handling? p = some (m, .publishing pub))
    (hland : w.land cfg pub.topic pub.record place = some w') (h : w'.RequestLeft cfg k) :
    w.RequestLeft cfg k := by
  have hs' : w'.Sound cfg := hs.land (hs.placed_republished hx) hland
  obtain ⟨⟨error, now, hpub⟩, hfrom⟩ := hs.handling g p m _ hx
  rcases RequestLeft.of_land hland hs' h with hleft | ⟨hjob, horigin⟩
  · exact hleft
  -- only the request group publishes a request again, and it has it in hand
  rw [hpub, republication_origin, hfrom] at horigin
  obtain rfl := cfg.distinct.consume_injective g .request horigin
  rw [hpub, republication_value] at hjob
  exact hjob ▸ .of_handling hs hx

variable [Fintype P]

/-- **No step brings a request back** for a job that exists. -/
theorem Effect.requestLeft {a : ClusterAct P} (heff : Effect cfg w a w') (hs : w.Sound cfg)
    {job : JobRow} (hk : w.db.jobs k = some job) (h : w'.RequestLeft cfg k) :
    w.RequestLeft cfg k := by
  have hs' : w'.Sound cfg := hs.of_effect heff
  cases heff with
  | unchanged => exact h
  | @created ids payload fate hjob =>
    refine h.of_db fun row hmem hpending htopic hrow => ?_
    rcases List.mem_append.mp hmem with hold | hnew
    · exact ⟨row, hold, hpending, htopic, hrow⟩
    · obtain rfl := List.mem_singleton.mp hnew
      obtain rfl : ids.jobId = k := hrow
      cases hjob.symm.trans hk
  | relayed _ heff =>
    refine RequestLeft.of_db h fun row hmem hpending htopic hrow => ?_
    obtain ⟨row₀, hmem₀, hsame, hwaits⟩ := heff.exists_sameMessage hmem
    exact ⟨row₀, hmem₀, hwaits hpending, hsame.topic ▸ htopic, hsame.payload ▸ hrow⟩
  | @rowPublished i outcome place d row rest w' hi hf hm hland =>
    obtain ⟨-, hmem, hpending⟩ :=
      hs.relays.fetched_of_mem_remaining hi (hm ▸ List.mem_cons_self : row ∈ d.remaining)
    obtain ⟨-, hheaders⟩ := hs.rows row hmem
    rcases RequestLeft.of_land hland hs' h with hleft | ⟨hjob, horigin⟩
    · exact hleft
    · -- the row that was published still waits
      rw [OutboxRow.record_origin hheaders] at horigin
      exact .inl ⟨row, hmem, hpending, horigin, hjob⟩
  | looped hloops heff => exact h.of_regroup (heff.log_eq hloops) (heff.committed_le (hs.groups _))
  | @progressed g p a t m call call' db' ht hh heff =>
    have hdb : ({ w with db := db' } : Cluster P).RequestLeft cfg k :=
      h.of_regroup rfl fun _ => le_rfl
    refine hdb.of_db fun row hmem hpending htopic hrow => ?_
    cases heff.write with
    | handed =>
      rcases List.mem_append.mp hmem with hold | hnew
      · exact ⟨row, hold, hpending, htopic, hrow⟩
      · obtain rfl := List.mem_singleton.mp hnew
        cases cfg.distinct.consume_injective .downstream .request htopic
    | _ => exact ⟨row, hmem, hpending, htopic, hrow⟩
  | acknowledged => exact h.of_regroup rfl fun _ => le_rfl
  | answered => exact h.of_regroup rfl fun _ => le_rfl
  | raised => exact h.of_regroup rfl fun _ => le_rfl
  | published ht hh hland =>
    exact requestLeft_of_republished hs ((Group.handling?_of_openTask? ht).trans hh) hland
      (h.of_regroup rfl fun _ => le_rfl)
  | publishFailed ht hh hland =>
    exact requestLeft_of_republished hs ((Group.handling?_of_openTask? ht).trans hh) hland
      (h.of_regroup rfl fun _ => le_rfl)

/-! ### Jobs that are stuck -/

theorem downstream_in_hand (hstage : cfg.DownstreamStage) (h : (clusterSystem cfg).Reachable w) :
    ∀ p m call, (w.groups .downstream).handling? p = some (m, .calling call) →
      ∃ c, call = .downstream c := by
  refine h.rec_on_step (P := fun w => ∀ p m call,
    (w.groups .downstream).handling? p = some (m, .calling call) → ∃ c, call = .downstream c)
    (fun w h₀ p m call hx => ?_) fun w a w' hr hcalls hstep p m call hx => ?_
  · cases (h₀ : w = Cluster.initial)
    cases hx
  rcases (effect_of_step hstep).calling_cases (.of_reachable hr) hx with hx |
    ⟨now, i, -, -, rfl⟩ | ⟨act, call₀, -, hx, hcall⟩
  · exact hcalls p m call hx
  · exact ⟨⟨m.value, .reading⟩, by rw [hstage.service_eq]; rfl⟩
  · obtain ⟨c, rfl⟩ := hcalls p m call₀ hx
    cases act with
    | leased => cases hcall
    | downstream a =>
      obtain ⟨r, -, hr⟩ := Option.map_eq_some_iff.mp hcall
      exact ⟨r.1, (Prod.mk.inj hr).1.symm⟩

/-- **A stuck job stays stuck.** -/
theorem Stuck.of_effect (h : w.Stuck cfg k) (hs : w.Sound cfg)
    (hcalls : ∀ p m call, (w.groups .downstream).handling? p = some (m, .calling call) →
      ∃ c, call = .downstream c) {a : ClusterAct P} (heff : Effect cfg w a w') :
    w'.Stuck cfg k := by
  obtain ⟨⟨row, hrow, hstatus⟩, hnone⟩ := h
  refine ⟨?_, fun hleft => hnone (heff.requestLeft hs hrow hleft)⟩
  -- the row is there before and after, unless a call about the job writes it
  have hkeep : w'.db.jobs k = w.db.jobs k →
      ∃ row', w'.db.jobs k = some row' ∧ (row'.status = .pending ∨ row'.status = .failed) :=
    fun heq => ⟨row, heq.trans hrow, hstatus⟩
  cases heff with
  | @created ids payload fate hjob =>
    refine hkeep (KeyedTable.set_of_ne _ _ ?_)
    rintro rfl
    cases hjob.symm.trans hrow
  | @progressed g p a t m call call' db' ht hh heff =>
    have hx := (Group.handling?_of_openTask? ht).trans hh
    obtain ⟨hevent, -⟩ := hs.handling g p m _ hx
    replace hevent : call.event = m.value := hevent
    by_cases hk : k = call.event.jobId
    swap
    · exact hkeep (heff.write.jobs_of_ne hk)
    cases g with
    | request => exact absurd (RequestLeft.of_handling hs hx) (by rwa [hk, hevent] at hnone)
    | downstream =>
      obtain ⟨c, rfl⟩ := hcalls p m call hx
      subst hk
      cases heff with
      | downstream heff =>
        cases heff with
        | completed _ _ _ hrow' hprocessing =>
          obtain rfl := Option.some.inj (hrow.symm.trans hrow')
          rw [hprocessing] at hstatus
          rcases hstatus with hs | hs <;> cases hs
        | failed => exact ⟨_, KeyedTable.set_self .., .inr rfl⟩
        | _ => exact hkeep rfl
  | rowPublished _ _ _ hland => exact hkeep (by rw [land_db hland]; rfl)
  | published _ _ hland => exact hkeep (by rw [setGroup_db, land_db hland])
  | publishFailed _ _ hland => exact hkeep (by rw [setGroup_db, land_db hland])
  | _ => exact hkeep rfl

/-- Whatever happens, a stuck job stays stuck. -/
theorem Stuck.of_leads (hstage : cfg.DownstreamStage) (hr : (clusterSystem cfg).Reachable w)
    (hrun : (clusterSystem cfg).Leads w w') (h : w.Stuck cfg k) : w'.Stuck cfg k := by
  refine (hrun.preserves (P := fun w => (clusterSystem cfg).Reachable w ∧ w.Stuck cfg k)
    (fun w a w' ⟨hr, hstuck⟩ hstep => ⟨hr.step hstep, ?_⟩) ⟨hr, h⟩).2
  exact hstuck.of_effect (.of_reachable hr) (downstream_in_hand hstage hr) (effect_of_step hstep)

end Cluster

/-- **Which jobs can still be finished** where the downstream group runs its own service. From every
reachable state in which the topic of each group has a partition, a committed job, of which no
message is a dead letter and whose log holds no completion by the downstream stage, can become
`SUCCESS` in some run exactly when it is `PROCESSING` or `SUCCESS` or a request for it is left. -/
theorem can_finish_iff [DecidableEq P] [Fintype P] (hstage : cfg.DownstreamStage)
    (h : (clusterSystem cfg).Reachable w) {place : ConsumerGroupId → P}
    (hplace : ∀ g, cfg.topicOf g (place g) = (cfg.runner g).consumeTopic) {jobId : Uuid}
    {row : JobRow} (hrow : w.db.jobs jobId = some row)
    (hlog : ∀ e ∈ w.db.events, e.jobId = jobId → e.eventType ≠ .downstreamCompleted)
    (halive : ∀ record ∈ w.dlq, record.value.jobId ≠ jobId) :
    (∃ as w' row', (clusterSystem cfg).run w as = some w' ∧ w'.db.jobs jobId = some row' ∧
      row'.status = .success) ↔
    row.status = .processing ∨ row.status = .success ∨ w.RequestLeft cfg jobId := by
  constructor
  · rintro ⟨as, w', row', hrun, hrow', hsuccess⟩
    by_contra hnone
    obtain ⟨hprocessing, hs, hleft⟩ : row.status ≠ .processing ∧ row.status ≠ .success ∧
        ¬ w.RequestLeft cfg jobId := by simpa only [not_or] using hnone
    have hstatus : row.status = .pending ∨ row.status = .failed := by
      cases hrs : row.status <;> simp_all
    obtain ⟨⟨row'', hrow'', hs''⟩, -⟩ :=
      Cluster.Stuck.of_leads hstage h ⟨as, hrun⟩ ⟨⟨row, hrow, hstatus⟩, hleft⟩
    obtain rfl := Option.some.inj (hrow'.symm.trans hrow'')
    rw [hsuccess] at hs''
    rcases hs'' with hs'' | hs'' <;> cases hs''
  · intro hstatus
    obtain ⟨w', ⟨as, hrun⟩, row', hrow', hs⟩ :=
      Cluster.leads_success h hplace hrow hlog halive hstatus
    exact ⟨as, w', row', hrun, hrow', hs⟩

/-! ### A job that the downstream stage failed -/

/-- The default settings in the mode C, with one partition of each topic. -/
def exampleStages : ClusterConfig Bool where
  settings := {}
  mode _ _ := .C
  role g _ := match g with
    | .request => .inference
    | .downstream => .downstream
  uuid _ _ := "a"
  topicOf := exampleCluster.topicOf
  distinct := exampleCluster.distinct
  role_group g i := by cases g <;> rfl
  topicOf_or := exampleCluster.topicOf_or

/-- A job is handed over and its request committed; the downstream processor raises, and the message
is published for a retry. -/
def exampleDownstreamFailure : List (ClusterAct Bool) :=
  [.create ⟨1, 2, 3, 4, 5⟩ [] .commits, .relay (.fetch 0 100) none,
    .relay (.publish 0 (.ok ())) (some fun _ => false), .relay (.commit 0 0) none,
    .loop .request (.spawn 0), .loop .request (.assign 0 false),
    .loop .request (.poll 0 0 fun _ => 1), .loop .request (.visit false 0),
    .call .request false (.leased (.claim 0 10 .commits)),
    .call .request false (.leased (.process (.ok []))),
    .call .request false (.leased (.complete ⟨11, 12, 13, 6⟩ .commits)),
    .answer .request false 0, .loop .request (.visit false 0), .loop .request (.gather 0),
    .loop .request (.commit 0),
    .relay (.fetch 0 100) none, .relay (.publish 0 (.ok ())) (some fun _ => false),
    .relay (.commit 0 0) none, .loop .downstream (.spawn 0), .loop .downstream (.assign 0 false),
    .loop .downstream (.poll 0 0 fun _ => 1), .loop .downstream (.visit false 0),
    .call .downstream false (.downstream (.read none)),
    .call .downstream false (.downstream (.process (.error "out of memory"))),
    .call .downstream false (.downstream (.fail 14 .commits)),
    .answer .downstream false 0, .publish .downstream false true (some fun _ => true)]

/-- The deployment after the failure. -/
def exampleStuck : Cluster Bool :=
  ((clusterSystem exampleStages).run Cluster.initial exampleDownstreamFailure).get (by decide)

/-- The downstream message is published again, but no run brings the job to `SUCCESS`. -/
theorem can_finish_iff_stuck : (((exampleStuck.groups .downstream).log true).length = 1) ∧
    ¬ ∃ as w' row', (clusterSystem exampleStages).run exampleStuck as = some w' ∧
      w'.db.jobs 1 = some row' ∧ row'.status = .success := by
  have hreach : (clusterSystem exampleStages).Reachable exampleStuck :=
    TransitionSystem.Reachable.get (T := clusterSystem exampleStages) exampleDownstreamFailure rfl
      (by decide)
  have hrow : exampleStuck.db.jobs 1 = some ((exampleStuck.db.jobs 1).get (by decide)) :=
    (Option.some_get _).symm
  have hplace : ∀ g, exampleStages.topicOf g false = (exampleStages.runner g).consumeTopic := by
    intro g
    cases g <;> decide
  refine ⟨by decide, fun hrun => ?_⟩
  rcases (can_finish_iff (fun i => rfl) hreach hplace hrow (by decide) (by decide)).mp hrun with
    hs | hs | ⟨r, hr, hpending, -⟩ | ⟨p, o, record, hrecord, ho, -⟩
  · exact absurd hs (by decide)
  · exact absurd hs (by decide)
  · exact absurd hpending (by revert r; decide)
  · -- the one request is committed
    have hlength : ∀ p, ((exampleStuck.groups .request).log p).length ≤
        (exampleStuck.groups .request).committed p := by decide
    have hlt := (List.getElem?_eq_some_iff.mp hrecord).1
    have := hlength p
    omega

end Morphflow
