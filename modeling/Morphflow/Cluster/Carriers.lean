import Morphflow.Cluster.Soundness
import Morphflow.Outbox.Carriers
import Morphflow.Pipeline.Coherence

/-!
# Carriers in any mode

A call *loses* its message when all that can follow is that the message is acknowledged, although
the call does not finish the job: it returned success, or it runs `WorkerService` under a lease that
no longer owns the row. `Call.Effect.of_loses` is the heart of the argument: a step that makes a
call lose its message has settled the job or has handed it over to the downstream stage. Every other
step leaves the message with the call.

No invariant of the leases is needed, so the result holds for any mixture of the services, also
while the processes of one mode are being replaced by those of another.

## Main definitions

* `Call.Loses`, `Db.Settled`, `Cluster.Carried`, `Cluster.Kept`.

## Main results

* `Call.Effect.of_loses`: the heart of the argument.
* `Cluster.Kept.of_effect`, `Cluster.Kept.of_reachable`.
-/

namespace Morphflow

variable {P : Type*}

/-- The row is processed under the lease of the call. -/
def LeasedCall.Owns (c : LeasedCall) (lease : JobLease) (row : JobRow) : Prop :=
  row.status = .processing ∧ row.leaseOwner = some c.workerId ∧ row.leaseEpoch = lease.epoch

/-- The message of the call is going to be acknowledged, or was, and the call does not finish the
job with the given row. -/
def Call.Loses (row : JobRow) : Call → Prop
  | .worker c =>
    match c.phase with
    | .processing lease => ¬ c.Owns lease row
    | .completing lease _ => ¬ c.Owns lease row
    | .returned success _ => success = true
    | _ => False
  | .inference c => ∃ error, c.phase = .returned true error
  | .downstream c => ∃ error, c.phase = .returned true error

/-- The handling of a message loses it. -/
def Handling.Loses (row : JobRow) : Handling Event Call → Prop
  | .calling call => call.Loses row
  | .publishing _ => False

/-- The job is finished, or the downstream stage has told of its completion. -/
def Db.Settled (db : Db) (jobId : Uuid) (row : JobRow) : Prop :=
  row.status = .success ∨
    ∃ e ∈ db.events, e.jobId = jobId ∧ e.eventType = .downstreamCompleted

/-! ### One step of a call -/

namespace Call

variable {topic : String} {db db' : Db} {call call' : Call} {a : CallAct} {row' : JobRow}

/-- A call that has not begun loses nothing. -/
theorem not_loses_handleEvent (service : Service) (event : Event) (row : JobRow) :
    ¬ (service.handleEvent event).Loses row := by
  cases service with
  | worker => exact id
  | inference => rintro ⟨error, ⟨⟩⟩
  | downstream => rintro ⟨error, ⟨⟩⟩

/-- A call that returned success loses its message. -/
theorem loses_of_outcome? {error : Option String} (h : call.outcome? = some (.ok (true, error)))
    (row : JobRow) : call.Loses row := by
  cases call with
  | worker c =>
    cases hp : c.phase <;> simp only [outcome?, LeasedPhase.outcome?, hp, reduceCtorEq,
      Option.some.injEq, Except.ok.injEq, Prod.mk.injEq] at h
    simp [Loses, hp, h.1]
  | inference c =>
    cases hp : c.phase <;> simp only [outcome?, LeasedPhase.outcome?, hp, reduceCtorEq,
      Option.some.injEq, Except.ok.injEq, Prod.mk.injEq] at h
    exact ⟨_, by rw [hp, h.1]⟩
  | downstream c =>
    cases hp : c.phase <;> simp only [outcome?, DownstreamPhase.outcome?, hp, reduceCtorEq,
      Option.some.injEq, Except.ok.injEq, Prod.mk.injEq] at h
    exact ⟨_, by rw [hp, h.1]⟩

/-- Reading the job back is a success only when the job is finished. -/
theorem success_of_readBack {c : LeasedCall} {error : Option String}
    (hrow : db.jobs c.event.jobId = some row') (h : c.readBack db = .returned true error) :
    row'.status = .success := by
  by_contra hne
  rw [LeasedCall.readBack_of_ne_success hrow hne] at h
  cases h

/-- **A call that loses its message** after a step lost it before, or the step settled the job or
handed it over by a new row of the outbox. -/
theorem Effect.of_loses (heff : Effect topic db call a call' db')
    (hrow : db'.jobs call.event.jobId = some row') (hl : call'.Loses row') :
    db'.Settled call.event.jobId row' ∨
    (db.jobs call.event.jobId = some row' ∧ call.Loses row') ∨
    ∃ row, db'.outbox = db.outbox ++ [row] ∧ (∀ row₀ ∈ db.outbox, row₀.id ≠ row.id) ∧
      row.status = .pending ∧ row.payload.jobId = call.event.jobId := by
  cases heff with
  | @worker c a phase' db' heff =>
    cases heff with
    | @claimed now eventId fate row _ _ _ hrow₀ _ hphase =>
      -- the claimer owns the row
      rw [LeasedCall.claimedDb, Db.recorded_jobs, event, KeyedTable.set_self] at hrow
      obtain rfl := Option.some.inj hrow
      rcases hphase with rfl | ⟨e, rfl⟩
      · exact absurd ⟨rfl, rfl, rfl⟩ hl
      · exact hl.elim
    | answered =>
      refine .inl (.inl ?_)
      cases hp : c.readBack db with
      | returned success error =>
        simp only [Loses, hp] at hl
        exact success_of_readBack hrow (by rw [hp, hl])
      | _ => simp [Loses, hp] at hl <;> cases LeasedCall.lease?_readBack.symm.trans
              (by rw [LeasedCall.lease?, hp])
    | @processed lease outcome hp =>
      refine .inr (.inl ⟨hrow, ?_⟩)
      simp only [Loses, hp]
      unfold LeasedCall.afterProcess at hl
      split at hl
      · exact hl.elim
      · exact hl
      · exact hl.elim
    | @completed lease result ids _ _ hp htx =>
      obtain ⟨row, hrow₀, happ, rfl⟩ := recordTx_eq_some_iff.mp htx
      rw [Db.recorded_jobs, event, KeyedTable.set_self] at hrow
      exact .inl (.inl (Option.some.inj hrow ▸ rfl))
    | @rolledBack lease result ids hp htx =>
      refine .inr (.inl ⟨hrow, ?_⟩)
      simp only [Loses, hp]
      intro howns
      have happ := WorkerService.completeTx_eq_none_iff.mp htx row' hrow
      rw [WorkerService.successChange_applies.mpr howns] at happ
      cases happ
    | @failed _ _ _ _ _ _ _ _ hphase =>
      rcases hphase with rfl | ⟨e, rfl⟩
      · cases hl
      · exact hl.elim
    | fencedOut => cases hl
    | _ => exact hl.elim
  | @inference c a phase' db' heff hhanded =>
    obtain ⟨error, hphase'⟩ := hl
    replace hphase' : phase' = .returned true error := hphase'
    cases heff with
    | claimed _ _ _ _ hphase => rcases hphase with rfl | ⟨e, rfl⟩ <;> cases hphase'
    | answered => exact .inl (.inl (success_of_readBack hrow hphase'))
    | processed =>
      unfold LeasedCall.afterProcess at hphase'
      split at hphase' <;> cases hphase'
    | completed hp htx =>
      obtain rfl := InferencePipelineService.completeTx_eq_some_iff.mp htx
      rcases hhanded with ho | ⟨lease, result, ids, -, hdb, hid⟩
      · have hlength := congrArg List.length ho
        simp [InferencePipelineService.handedOverDb, addOutbox] at hlength
      · exact .inr (.inr ⟨_, congrArg Db.outbox hdb, hid, rfl, rfl⟩)
    | rolledBack _ htx => cases htx
    | failed _ _ _ hphase => rcases hphase with rfl | ⟨e, rfl⟩ <;> cases hphase'
    | _ => cases hphase'
  | @downstream c a phase' db' heff =>
    obtain ⟨error, hphase'⟩ := hl
    replace hphase' : phase' = .returned true error := hphase'
    cases heff with
    | acknowledged _ hrow₀ hs => exact .inl (.inl (Option.some.inj (hrow₀.symm.trans hrow) ▸ hs))
    | completed _ _ _ hrow₀ =>
      rw [Db.recorded_jobs, event, KeyedTable.set_self] at hrow
      exact .inl (.inl (Option.some.inj hrow ▸ rfl))
    | completedLate => exact .inl (.inr ⟨_, List.mem_append_right _ (List.mem_singleton_self _),
        rfl, rfl⟩)
    | failed _ _ _ _ _ hphase => rcases hphase with ⟨-, rfl⟩ | ⟨e, rfl⟩ <;> cases hphase'
    | failedLate _ _ _ _ hphase => rcases hphase with ⟨-, rfl⟩ | ⟨e, rfl⟩ <;> cases hphase'
    | _ => cases hphase'

end Call

theorem Db.Settled.grow {db db' : Db} {jobId : Uuid} {row : JobRow}
    (h : db.Settled jobId row) (hp : db.events <+: db'.events) : db'.Settled jobId row :=
  h.imp_right fun ⟨e, he, hrest⟩ => ⟨e, hp.subset he, hrest⟩

/-! ### Jobs -/

namespace Cluster

/-- The group handles the message, which is about the job. -/
def Wants (cfg : ClusterConfig P) (g : ConsumerGroupId) (jobId : Uuid) (m : Message Event) : Prop :=
  m.value.jobId = jobId ∧ m.skipped (cfg.runner g) = false

/-- The group owes the job with the given row. -/
abbrev OwesJob (cfg : ClusterConfig P) (g : ConsumerGroupId) (y : Group P Event Call)
    (jobId : Uuid) (row : JobRow) : Prop :=
  y.Owes (cfg.group g) (Wants cfg g jobId) fun _ => Handling.Loses row

/-- A job with the given row is carried. -/
def Carried (cfg : ClusterConfig P) (w : Cluster P) (jobId : Uuid) (row : JobRow) : Prop :=
  w.relays.Carries w.db.outbox jobId ∨
  (∃ g, OwesJob cfg g (w.groups g) jobId row) ∨
  ∃ record ∈ w.dlq, record.value.jobId = jobId

/-- Every unsettled job is carried. -/
def Kept (cfg : ClusterConfig P) (w : Cluster P) : Prop :=
  ∀ jobId row, w.db.jobs jobId = some row → ¬ w.db.Settled jobId row → w.Carried cfg jobId row

variable {cfg : ClusterConfig P} {w w' : Cluster P} {g : ConsumerGroupId} {p : P} {k : Uuid}
  {m : Message Event} {x : Handling Event Call} {t : PartitionTask Event Call} {row : JobRow}

namespace Carried

theorem regroup (h : w.Carried cfg k row) {y : Group P Event Call}
    (hy : OwesJob cfg g (w.groups g) k row → OwesJob cfg g y k row) :
    (w.setGroup g y).Carried cfg k row := by
  refine h.imp id (Or.imp_left fun ⟨g', howes⟩ => ⟨g', ?_⟩)
  by_cases hg : g' = g
  · subst hg
    rw [setGroup_groups_self]
    exact hy howes
  · rwa [setGroup_groups_of_ne w y hg]

theorem of_owes {y : Group P Event Call} (hy : OwesJob cfg g y k row) :
    (w.setGroup g y).Carried cfg k row :=
  .inr (.inl ⟨g, by rwa [setGroup_groups_self]⟩)

variable [DecidableEq P]

/-- A record that lands takes no carrier away. -/
theorem landed (h : w.Carried cfg k row) (topic : String) (record : LogRecord Event)
    (at' : ConsumerGroupId → P) : (w.landed cfg topic record at').Carried cfg k row := by
  refine h.imp id (Or.imp (fun ⟨g, howes⟩ => ⟨g, ?_⟩) fun ⟨r, hr, hjob⟩ => ⟨r, ?_, hjob⟩)
  · cases hsub : cfg.subscribes g topic
    · rwa [landed_groups_of_not hsub]
    · rw [landed_groups_of_subscribes hsub]
      exact howes.append ..
  · simp only [Cluster.landed]
    split_ifs
    · exact List.mem_append_left _ hr
    · exact hr

theorem land (h : w.Carried cfg k row) {topic : String} {record : LogRecord Event}
    {place : RecordPlace P} (hland : w.land cfg topic record place = some w') :
    w'.Carried cfg k row := by
  rcases land_cases hland with ⟨-, rfl⟩ | ⟨at', -, -, rfl⟩
  · exact h
  · exact h.landed ..

/-- A record that landed carries its job: its group handles it, or it is a dead letter. -/
theorem of_landed (hs : w.Sound cfg) {topic : String} {record : LogRecord Event}
    {at' : ConsumerGroupId → P}
    (hat : ∀ g, cfg.subscribes g topic = true → cfg.topicOf g (at' g) = topic)
    (horigin : record.origin topic = (cfg.runner g).consumeTopic)
    (htopic : cfg.subscribes g topic = true ∨ topic = cfg.settings.kafkaDlqTopic) :
    (w.landed cfg topic record at').Carried cfg record.value.jobId row := by
  rcases htopic with hsub | rfl
  · refine .inr (.inl ⟨g, ?_⟩)
    rw [landed_groups_of_subscribes hsub]
    refine Group.Owes.of_append (hs.groups g) _ _ ⟨rfl, ClusterConfig.skipped_of_origin ?_⟩
    show record.origin (cfg.topicOf g (at' g)) = _
    rw [hat g hsub, horigin]
  · exact .inr (.inr ⟨record, by simp [Cluster.landed], rfl⟩)

end Carried

namespace Kept

theorem create (h : w.Kept cfg) (hs : w.Sound cfg) {ids : RequestIds} {payload : Dict}
    (hrow : ∀ row ∈ w.db.outbox, row.id ≠ ids.rowId) :
    ({ w with db := JobService.createdDb cfg.settings.kafkaRequestTopic ids payload w.db } :
      Cluster P).Kept cfg := by
  intro k row hk hne
  rcases KeyedTable.set_eq_some_iff.mp hk with ⟨rfl, -⟩ | ⟨-, hk⟩
  · exact .inl (Relays.Carries.of_fresh hs.relays hrow rfl)
  · refine (h k row hk fun hset => hne (hset.grow (List.prefix_append ..))).imp_left
      fun hr => hr.append _

theorem relay (h : w.Kept cfg) (hs : w.Sound cfg) {a : RelayAct} {rows : List OutboxRow}
    {r : Relays} (hcall : w.relays.publishCall? a = none)
    (heff : Relays.Effect w.db.outbox w.relays a rows r) : (w.relayed rows r).Kept cfg :=
  fun k row hk hne => (h k row hk hne).imp_left fun hr => hr.of_quiet hs.relays hcall heff

theorem regroup (h : w.Kept cfg) {y : Group P Event Call}
    (hy : ∀ k row, w.db.jobs k = some row → ¬ w.db.Settled k row →
      OwesJob cfg g (w.groups g) k row → OwesJob cfg g y k row) : (w.setGroup g y).Kept cfg :=
  fun k row hk hne => (h k row hk hne).regroup (hy k row hk hne)

variable [DecidableEq P]

/-- The call of a partition may take a step: it goes on to carry its job, or it finished the job or
handed it over. -/
theorem progress (h : w.Kept cfg) (hs : w.Sound cfg) {a : CallAct} {call call' : Call} {db' : Db}
    (ht : (w.groups g).openTask? p = some t) (hh : t.handling = some (m, .calling call))
    (heff : Call.Effect cfg.settings.kafkaDownstreamTopic w.db call a call' db') :
    ({ w with db := db' }.setGroup g
      ((w.groups g).setTask p { t with handling := some (m, .calling call') })).Kept cfg := by
  obtain ⟨hevent, horigin⟩ := hs.handling g p m _ ((Group.handling?_of_openTask? ht).trans hh)
  replace hevent : call.event = m.value := hevent
  have hskip := ClusterConfig.skipped_of_origin horigin
  intro k row' hk hne
  replace hk : db'.jobs k = some row' := hk
  replace hne : ¬ db'.Settled k row' := hne
  -- a job whose row stays is carried as before, unless its message comes to be lost
  have hkeep : w.db.jobs k = some row' →
      (Wants cfg g k m → call'.Loses row' → call.Loses row') →
      ({ w with db := db' }.setGroup g
        ((w.groups g).setTask p { t with handling := some (m, .calling call') })).Carried cfg k
          row' := by
    intro hk₀ hlose
    have hc := h k row' hk₀ fun hset => hne (hset.grow heff.write.events_prefix)
    have hc' : ({ w with db := db' } : Cluster P).Carried cfg k row' := by
      refine hc.imp_left fun hr => ?_
      rcases heff.write.outbox_eq_or with ho | ⟨row, ho⟩ <;> simp only [ho]
      · exact hr
      · exact hr.append row
    exact hc'.regroup fun howes => howes.goOn (hs.groups g) ht hh hlose
  by_cases hkey : k = call.event.jobId
  swap
  · refine hkeep (heff.write.jobs_of_ne hkey ▸ hk) fun hwant => absurd ?_ hkey
    rw [hevent, hwant.1]
  by_cases hl : call'.Loses row'
  · subst hkey
    rcases heff.of_loses hk hl with hset | ⟨hk₀, hl₀⟩ | ⟨row, ho, hid, hstatus, hjob⟩
    · exact absurd hset hne
    · exact hkeep hk₀ fun _ _ => hl₀
    · refine .inl ?_
      rw [← hjob]
      simp only [setGroup_relays, setGroup_db, ho]
      exact Relays.Carries.of_fresh hs.relays hid hstatus
  · -- the call carries its job
    refine Carried.of_owes (Group.Owes.of_handling ((hs.groups g).goOn ht hh _)
      (Group.handling?_goOn_self ht ..) ⟨?_, hskip⟩ hl)
    rw [hkey, hevent]

theorem publishRow (h : w.Kept cfg) (hs : w.Sound cfg) {i : ℕ} {outcome : Except String Unit}
    {place : RecordPlace P} {d : Drain} {row : OutboxRow} {rest : List OutboxRow}
    (hi : w.relays.drains i = some d) (hf : d.failed = none) (hm : d.remaining = row :: rest)
    (hland : (w.relayed w.db.outbox (w.relays.goOn i (d.afterPublish row outcome))).land cfg
      row.topic row.record place = some w')
    (hret : outcome = .ok () → place ≠ none) : w'.Kept cfg := by
  have heff : w.relays.Effect w.db.outbox (.publish i outcome) _ _ := .published hi hf hm
  intro k job hk hne
  have hdb : w'.db = w.db := (land_db hland).trans rfl
  rw [hdb] at hk hne
  have hkeep : (w.relayed w.db.outbox (w.relays.goOn i (d.afterPublish row outcome))).Carried cfg
      k job → w'.Carried cfg k job := fun hc => hc.land hland
  rcases h k job hk hne with hr | hg | hd
  · rcases hr.of_published hs.relays hi hf hm outcome with hr | ⟨rfl, rfl⟩
    · exact hkeep (.inl hr)
    · -- the row itself was sent, and its record landed
      obtain ⟨-, hmem, -⟩ :=
        hs.relays.fetched_of_mem_remaining hi (hm ▸ List.mem_cons_self : row ∈ d.remaining)
      obtain ⟨⟨g, htopic⟩, hheaders⟩ := hs.rows row hmem
      rcases land_cases hland with ⟨rfl, -⟩ | ⟨at', -, hat, rfl⟩
      · exact absurd rfl (hret rfl)
      · refine Carried.of_landed (hs.relay heff) hat (g := g) ?_
          (.inl (ClusterConfig.subscribes_iff.mpr (.inl htopic)))
        rw [OutboxRow.record_origin hheaders]
        exact htopic
  · exact hkeep (.inr (.inl hg))
  · exact hkeep (.inr (.inr hd))

theorem republish (h : w.Kept cfg) (hs : w.Sound cfg) {place : RecordPlace P}
    {pub : Publication Event} (ht : (w.groups g).openTask? p = some t)
    (hh : t.handling = some (m, .publishing pub))
    (hland : w.land cfg pub.topic pub.record place = some w') (hplace : place ≠ none) :
    (w'.setGroup g ((w'.groups g).settle p t m t.remaining)).Kept cfg := by
  obtain ⟨⟨error, now, hpub⟩, horigin⟩ :=
    hs.handling g p m _ ((Group.handling?_of_openTask? ht).trans hh)
  rcases land_cases hland with ⟨hnone, -⟩ | ⟨at', -, hat, rfl⟩
  · exact absurd hnone hplace
  have hvalue : pub.record.value = m.value := by rw [hpub, republication_value]
  have hfrom : pub.record.origin pub.topic = (cfg.runner g).consumeTopic := by
    rw [hpub, republication_origin, horigin]
  have htopic : cfg.subscribes g pub.topic = true ∨ pub.topic = cfg.settings.kafkaDlqTopic := by
    rw [hpub, republication_topic, ClusterConfig.runner_dlq]
    split_ifs
    · exact .inr rfl
    · exact .inl (ClusterConfig.subscribes_iff.mpr (.inr rfl))
  -- settling and appending commute
  have hcomm : (w.landed cfg pub.topic pub.record at').setGroup g
      (((w.landed cfg pub.topic pub.record at').groups g).settle p t m t.remaining) =
      (w.setGroup g ((w.groups g).settle p t m t.remaining)).landed cfg pub.topic pub.record
        at' := by
    simp only [Cluster.landed, setGroup, mk.injEq, true_and, and_true]
    funext g'
    by_cases hg : g' = g
    · subst hg
      simp only [Function.update_self]
      split_ifs <;> rfl
    · simp only [Function.update_of_ne hg]
  rw [hcomm]
  intro k row hk hne
  by_cases hkey : m.value.jobId = k
  · subst hkey
    rw [← hvalue]
    exact Carried.of_landed (hs.settle ht hh) hat hfrom htopic
  · exact ((h k row hk hne).regroup fun howes =>
      howes.settle (hs.groups g) ht hh fun hwant => absurd hwant.1 hkey).landed ..

variable [Fintype P]

/-- **Step lemma.** A step keeps every unsettled job carried. -/
theorem of_effect (h : w.Kept cfg) (hs : w.Sound cfg) {a : ClusterAct P}
    (heff : Effect cfg w a w') : w'.Kept cfg := by
  cases heff with
  | unchanged => exact h
  | created _ hrow => exact h.create hs hrow
  | relayed hcall heff => exact h.relay hs hcall heff
  | rowPublished hi hf hm hland hret => exact h.publishRow hs hi hf hm hland hret
  | looped hloops heff =>
    exact h.regroup fun k row _ _ howes => howes.loop (hs.groups _) (fun _ _ _ hm => hm.2)
      (fun i m => Call.not_loses_handleEvent (cfg.service _ i) m.value row) hloops heff
  | progressed ht hh heff => exact h.progress hs ht hh heff
  | acknowledged ht hh hout =>
    exact h.regroup fun k row _ _ howes =>
      howes.settle (hs.groups _) ht hh fun _ => Call.loses_of_outcome? hout row
  | answered ht hh hout =>
    exact h.regroup fun k row _ _ howes => howes.goOn (hs.groups _) ht hh fun _ hl => hl.elim
  | raised => exact h.regroup fun k row _ _ howes => howes.seek ..
  | published ht hh hland hplace => exact h.republish hs ht hh hland hplace
  | publishFailed ht hh hland =>
    refine fun k row hk hne => ((h k row ?_ ?_).land hland).regroup fun howes => howes.seek ..
    · rwa [← land_db hland]
    · rwa [← land_db hland]

/-- Every reachable cluster keeps its jobs. -/
theorem of_reachable (h : (clusterSystem cfg).Reachable w) : w.Kept cfg :=
  h.rec_on_step (P := fun w => w.Kept cfg) (fun w hw k row hk => by rw [hw] at hk; cases hk)
    fun _ _ _ hr hs hstep => hs.of_effect (.of_reachable hr) (effect_of_step hstep)

end Kept

end Cluster

end Morphflow
