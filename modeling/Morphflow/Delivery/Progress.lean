import Morphflow.Delivery.NoLostJob
import Morphflow.Outbox.Progress
import Morphflow.Pipeline.Coherence
import Morphflow.Runner.Progress
import Morphflow.Services.Progress

/-!
# No dead end

From every reachable state of the delivery, whatever failed before, a job none of whose requests is
a dead letter can still be brought to `SUCCESS`: a waiting outbox row can be published, whichever
relays hold locks, and a record at or behind the committed offset can be read by a fresh worker,
which handles the records before it and takes the job over once its lease has expired.

## Main definitions

* `Delivery.Known`: every request in the outbox and in the logs is about a committed job.

## Main results

* `Delivery.leads_consume`, `Delivery.leads_read`, `Delivery.leads_publish`: what a worker and a
  relay can still do.
* `no_dead_end`.
-/

namespace Morphflow

/-! ### Requests about committed jobs -/

/-- The job of the event is committed, and the payload of the event has a request. -/
structure Jobs.Knows (jobs : Jobs) (e : Event) : Prop where
  job : (jobs e.jobId).isSome
  request : (e.payload.get? "request").isSome

theorem Jobs.Knows.mono {jobs jobs' : Jobs} {e : Event} (h : jobs.Knows e)
    (hchange : ∀ k, RowChange (jobs k) (jobs' k)) : jobs'.Knows e where
  job := by
    obtain ⟨row, hrow⟩ := Option.isSome_iff_exists.mp h.job
    obtain ⟨row', hrow'⟩ := (hrow ▸ hchange e.jobId).exists_of_some
    rw [hrow']
    rfl
  request := h.request

variable {P : Type*} {cfg : DeliveryConfig P} {w w' : Delivery P}

namespace Delivery

/-- What is in the outbox and in the logs are requests about committed jobs, and every lock belongs
to an open drain. -/
structure Known (w : Delivery P) : Prop where
  rows : ∀ row ∈ w.db.outbox, w.db.jobs.Knows row.payload
  records : ∀ p, ∀ record ∈ w.group.log p, w.db.jobs.Knows record.value
  locks : w.relays.Tight

theorem land_db [DecidableEq P] {topic : String} {record : LogRecord Event} {landing : Landing P}
    (h : w.land cfg topic record landing = some w') : w'.db = w.db := by
  rcases land_cases h with ⟨-, rfl⟩ | ⟨p, -, -, rfl⟩ | ⟨-, -, rfl⟩ <;> rfl

theorem Effect.rowChange [DecidableEq P] [Fintype P] {a : DeliveryAct P}
    (h : Effect cfg w a w') (k : Uuid) : RowChange (w.db.jobs k) (w'.db.jobs k) := by
  cases h with
  | created hjob => exact .of_set (by rw [JobService.newJob, hjob]; exact .created ..) k
  | progressed _ _ heff =>
    exact heff.rowChange (fun _ _ _ _ => WorkerService.rowChange_of_completeTx) k
  | rowPublished _ _ _ hland =>
    rw [land_db hland]
    exact .unchanged _
  | published _ _ hland =>
    rw [land_db hland]
    exact .unchanged _
  | publishFailed _ _ hland =>
    rw [land_db hland]
    exact .unchanged _
  | _ => exact .unchanged _

namespace Known

theorem initial : (Delivery.initial : Delivery P).Known where
  rows _ h := absurd h List.not_mem_nil
  records _ _ h := absurd h List.not_mem_nil
  locks _ h := absurd h (Finset.notMem_empty _)

variable (h : w.Known)

include h

theorem change {db : Db} {g : Group P Event LeasedCall}
    (hchange : ∀ k, RowChange (w.db.jobs k) (db.jobs k)) (houtbox : db.outbox = w.db.outbox)
    (hlog : g.log = w.group.log) : ({ w with db := db, group := g } : Delivery P).Known where
  rows row hrow := (h.rows row (houtbox ▸ hrow)).mono hchange
  records p record hrecord := (h.records p record (hlog ▸ hrecord)).mono hchange
  locks := h.locks

theorem regroup {g : Group P Event LeasedCall} (hlog : g.log = w.group.log) :
    ({ w with group := g } : Delivery P).Known :=
  h.change (fun _ => .unchanged _) rfl hlog

theorem create {topic : String} {ids : RequestIds} {payload : Dict}
    (hjob : w.db.jobs ids.jobId = none) :
    ({ w with db := JobService.createdDb topic ids payload w.db } : Delivery P).Known := by
  have hchange : ∀ k, RowChange (w.db.jobs k)
      ((JobService.createdDb topic ids payload w.db).jobs k) :=
    fun k => .of_set (by rw [JobService.newJob, hjob]; exact .created ..) k
  refine ⟨fun row hrow => ?_, fun p record hrecord => (h.records p record hrecord).mono hchange,
    h.locks⟩
  rcases List.mem_append.mp hrow with hrow | hrow
  · exact (h.rows row hrow).mono hchange
  · obtain rfl := List.mem_singleton.mp hrow
    exact ⟨Option.isSome_iff_exists.mpr ⟨_, KeyedTable.set_self ..⟩, rfl⟩

theorem relay {a : RelayAct} {rows : List OutboxRow} {r : Relays}
    (heff : Relays.Effect w.db.outbox w.relays a rows r) : (w.relayed rows r).Known where
  rows row hrow := by
    obtain ⟨row₀, hrow₀, hsame, -⟩ := heff.exists_sameMessage hrow
    rw [hsame.payload]
    exact h.rows row₀ hrow₀
  records := h.records
  locks := h.locks.of_effect heff

theorem land [DecidableEq P] {topic : String} {record : LogRecord Event} {landing : Landing P}
    (hrecord : w.db.jobs.Knows record.value) (hland : w.land cfg topic record landing = some w') :
    w'.Known := by
  rcases land_cases hland with ⟨-, rfl⟩ | ⟨p, -, -, rfl⟩ | ⟨-, -, rfl⟩
  · exact h
  · refine ⟨h.rows, fun q r hr => ?_, h.locks⟩
    rcases Group.mem_log_append hr with hr | ⟨rfl, rfl⟩
    · exact h.records q r hr
    · exact hrecord
  · exact ⟨h.rows, h.records, h.locks⟩

theorem knows {p : P} {m : Message Event} (hm : m ∈ w.group.messages cfg.group p) :
    w.db.jobs.Knows m.value := by
  obtain ⟨record, hrecord, hvalue, -⟩ := Group.exists_record_of_mem hm
  exact hvalue ▸ h.records p record hrecord

theorem of_effect [DecidableEq P] [Fintype P] (hs : w.Sound cfg) {a : DeliveryAct P}
    (heff : Effect cfg w a w') : w'.Known := by
  have hrepublished : ∀ {p : P} {t : PartitionTask Event LeasedCall} {m : Message Event}
      {pub : Publication Event}, w.group.openTask? p = some t →
      t.handling = some (m, .publishing pub) → w.db.jobs.Knows pub.record.value := by
    intro p t m pub ht hh
    have hx := (Group.handling?_of_openTask? ht).trans hh
    obtain ⟨error, now, hpub⟩ := hs.handling p m _ hx
    have hvalue : pub.record.value = m.value := by rw [hpub, republication_value]
    rw [hvalue]
    exact h.knows (List.mem_of_getElem? (hs.group.handled_at_frontier hx))
  cases heff with
  | unchanged => exact h
  | created hjob => exact h.create hjob
  | relayed _ heff => exact h.relay heff
  | @rowPublished i outcome landing d row rest w' hi hf hm hland =>
    obtain ⟨-, hmem, -⟩ :=
      hs.relays.fetched_of_mem_remaining hi (hm ▸ List.mem_cons_self : row ∈ d.remaining)
    have heff : w.relays.Effect w.db.outbox (.publish i outcome) _ _ := .published hi hf hm
    refine (h.relay heff).land ?_ hland
    exact h.rows row hmem
  | looped hloops heff => exact h.regroup (heff.log_eq hloops)
  | progressed _ _ heff =>
    exact h.change (heff.rowChange fun _ _ _ _ => WorkerService.rowChange_of_completeTx)
      heff.outbox rfl
  | acknowledged => exact h.regroup rfl
  | answered => exact h.regroup rfl
  | raised => exact h.regroup rfl
  | published ht hh hland => exact (h.land (hrepublished ht hh) hland).regroup rfl
  | publishFailed ht hh hland => exact (h.land (hrepublished ht hh) hland).regroup rfl

end Known

variable [DecidableEq P] [Fintype P]

theorem known_of_reachable (h : (requestDelivery cfg).Reachable w) : w.Known :=
  h.rec_on_step (P := fun w => w.Known) (fun _ h₀ => h₀ ▸ Known.initial)
    fun _ _ _ hr hk hstep => hk.of_effect (.of_reachable hr) (effect_of_step hstep)

/-- A finished job stays finished. -/
theorem finished_of_leads (h : (requestDelivery cfg).Leads w w') {jobId : Uuid}
    (hfinished : w.db.Finished jobId) : w'.db.Finished jobId := by
  refine h.preserves (P := fun w => w.db.Finished jobId) (fun w₁ a w₂ h₁ hstep => ?_) hfinished
  exact finished_of_evolves (RowChange.evolves (effect_of_step hstep).rowChange) h₁

/-! ### What a worker can still do -/

section Worker

variable {p : P} {t : PartitionTask Event LeasedCall} {m : Message Event}
  {rest : List (Message Event)}

theorem leads_loops {g : Group P Event LeasedCall} (h : (pollLoops cfg.group).Leads w.group g) :
    (requestDelivery cfg).Leads w { w with group := g } := by
  refine h.lift (U := requestDelivery cfg) (f := fun g => { w with group := g })
    fun g₁ a g₂ hstep => .of_step (a := .loop a) ?_
  obtain ⟨hloops, hstep⟩ := TransitionSystem.restrict_step_eq_some.mp hstep
  have hgroup : g₁.step cfg.group a = some g₂ := hstep
  simp [requestDelivery, step, hloops, groupStep, hgroup]

theorem leads_call {c c' : LeasedCall} {db' : Db} (ht : w.group.openTask? p = some t)
    (hh : t.handling = some (m, .calling c))
    (h : (leasedCalls "worker" WorkerService.completeTx).Leads (c, w.db) (c', db')) :
    (requestDelivery cfg).Leads w { w with
      db := db'
      group := w.group.setTask p { t with handling := some (m, .calling c') } } := by
  let f : LeasedCall × Db → Delivery P := fun s => { w with
    db := s.2
    group := w.group.setTask p { t with handling := some (m, .calling s.1) } }
  have hstart : f (c, w.db) = w := by
    have hsame : w.group.setTask p { t with handling := some (m, .calling c) } = w.group := by
      rw [← hh]
      exact Group.setTask_of_openTask? ht
    simp only [f, hsame]
  suffices hlift : (requestDelivery cfg).Leads (f (c, w.db)) (f (c', db')) by rwa [hstart] at hlift
  refine h.lift (U := requestDelivery cfg) fun s a s' hstep => .of_step (a := .call p a) ?_
  obtain ⟨-, hstep⟩ := Option.ite_none_right_eq_some.mp hstep
  have hcall : WorkerService.step s.1 s.2 a = some s' := hstep
  have hopen : (f s).group.openTask? p = some { t with handling := some (m, .calling s.1) } :=
    Group.openTask?_setTask_self (Group.openTask?_eq_some_iff.mp ht).2
  have hcalling : (f s).group.handling? p = some (m, .calling s.1) :=
    Group.handling?_of_openTask? hopen
  simp only [requestDelivery, step, hcalling, show (f s).db = s.2 from rfl, hcall, groupStep,
    Group.step, hopen, Option.bind_some, Option.map_some]
  simp [f]

/-- The next message of a batch can be handled, and leaves its job finished. -/
theorem leads_handle (h : (requestDelivery cfg).Reachable w) (ht : w.group.openTask? p = some t)
    (hh : t.handling = none) (hr : t.remaining = m :: rest) :
    ∃ db', (requestDelivery cfg).Leads w
        { w with db := db', group := w.group.settle p t m rest } ∧
      db'.Finished m.value.jobId := by
  have hs := Sound.of_reachable h
  have hm := hs.group.mem_of_next ht hh hr
  obtain ⟨i, now, hvisit⟩ := hs.group.step_visit ht hh hr
  have hskip : m.skipped cfg.group.settings = false := hs.not_skipped p m hm
  simp only [hskip, Bool.false_eq_true, if_false] at hvisit
  let c := cfg.group.role i m.value
  let t₁ : PartitionTask Event LeasedCall :=
    { t with remaining := rest, handling := some (m, .calling c) }
  obtain ⟨hjob, hrequest⟩ := (known_of_reachable h).knows hm
  obtain ⟨db', hcall, hfinished⟩ :=
    WorkerService.leads_finished (c := c) rfl hjob hrequest
  refine ⟨db', (leads_loops (Group.leads_of_step rfl hvisit)).trans ?_, hfinished⟩
  have hopen : ∀ x, (w.group.setTask p { t₁ with handling := x }).openTask? p =
      some { t₁ with handling := x } :=
    fun x => Group.openTask?_setTask_self (Group.openTask?_eq_some_iff.mp ht).2
  refine (leads_call (w := { w with group := w.group.setTask p t₁ }) (hopen _) rfl hcall).trans ?_
  refine .of_step (a := .answer p 0) ?_
  simp [requestDelivery, step, Group.handling?, hopen, groupStep, Group.step, Message.afterHandler,
    t₁]
  rfl

/-- A worker can handle its batch, and leave every job of it finished. -/
theorem leads_consume (h : (requestDelivery cfg).Reachable w) (ht : w.group.openTask? p = some t)
    (hh : t.handling = none) : ∃ w', (requestDelivery cfg).Leads w w' ∧
      ∀ m ∈ t.remaining, w'.db.Finished m.value.jobId := by
  induction hr : t.remaining generalizing w t with
  | nil => exact ⟨w, .refl w, fun m hm => absurd hm List.not_mem_nil⟩
  | cons m rest ih =>
    obtain ⟨db', hhandle, hfinished⟩ := leads_handle h ht hh hr
    obtain ⟨w', hrest, hall⟩ :=
      ih (hhandle.reachable h) (Group.openTask?_settle_self ht m rest) rfl rfl
    refine ⟨w', hhandle.trans hrest, fun m' hm' => ?_⟩
    rcases List.mem_cons.mp hm' with rfl | hm'
    · exact finished_of_leads hrest hfinished
    · exact hall m' hm'

/-- A record at or behind the committed offset can be handled, and leaves its job finished. -/
theorem leads_read (h : (requestDelivery cfg).Reachable w) {o : ℕ} {record : LogRecord Event}
    (hrecord : (w.group.log p)[o]? = some record) (hle : w.group.committed p ≤ o) :
    ∃ w', (requestDelivery cfg).Leads w w' ∧ w'.db.Finished record.value.jobId := by
  obtain ⟨g, t, hbatch, -, ht, hh, hmem⟩ :=
    Group.leads_batch (Sound.of_reachable h).group hrecord hle
  have hpolled := leads_loops (w := w) hbatch
  obtain ⟨w', hconsume, hall⟩ :=
    leads_consume (w := { w with group := g }) (hpolled.reachable h) ht hh
  exact ⟨w', hpolled.trans hconsume, hall _ hmem⟩

end Worker

/-! ### What a relay can still do -/

section Relay

variable {row : OutboxRow}

/-- The relays can take their steps that publish nothing. -/
theorem leads_relays {r : Relays} (h : quietRelays.Leads (w.db.outbox, w.relays) (w.db.outbox, r)) :
    (requestDelivery cfg).Leads w (w.relayed w.db.outbox r) := by
  refine h.lift (U := requestDelivery cfg) (f := fun s => w.relayed s.1 s.2) fun s a s' hstep =>
    .of_step (a := .relay a .lost) ?_
  obtain ⟨hquiet, hstep⟩ := Option.ite_none_right_eq_some.mp hstep
  have hcall : s.2.publishCall? a = none := Option.isNone_iff_eq_none.mp hquiet
  simp [requestDelivery, step, relayed, hstep, hcall, Landing.isLost]

/-- A relay can publish its batch in order, up to any row of it. -/
theorem leads_publish (h : (requestDelivery cfg).Reachable w) {p : P}
    (hp : cfg.topicOf p = cfg.settings.consumeTopic) {i : ℕ} {d : Drain}
    (hi : w.relays.drains i = some d) (hf : d.failed = none) (hrow : row ∈ d.remaining) :
    ∃ w' o record, (requestDelivery cfg).Leads w w' ∧ (w'.group.log p)[o]? = some record ∧
      w'.group.committed p ≤ o ∧ record.value.jobId = row.payload.jobId := by
  induction hr : d.remaining generalizing w d with
  | nil => exact absurd (hr ▸ hrow) List.not_mem_nil
  | cons message rest ih =>
    have hs := Sound.of_reachable h
    obtain ⟨-, hmem, -⟩ :=
      hs.relays.fetched_of_mem_remaining hi (hr ▸ List.mem_cons_self : message ∈ d.remaining)
    have hnext : d.next? = some message := Relays.next?_eq_some_iff.mpr ⟨hf, rest, hr⟩
    let d₁ := d.afterPublish message (.ok ())
    let w₁ : Delivery P := { w.relayed w.db.outbox (w.relays.goOn i d₁) with
      group := w.group.append p message.record }
    have hpublish : (requestDelivery cfg).step w (.relay (.publish i (.ok ())) (.partition p)) =
        some w₁ := by
      simp [requestDelivery, step, Relays.step, hi, hnext, Relays.publishCall?,
        OutboxRow.publishCall, Landing.isLost, land, hp, (hs.rows message hmem).1, w₁, d₁,
        OutboxRow.record, relayed]
    have hlead := TransitionSystem.Leads.of_step hpublish
    rcases List.mem_cons.mp (hr ▸ hrow) with rfl | hrest
    · -- the record is the last one of the log
      refine ⟨w₁, (w.group.log p).length, row.record, hlead, ?_, ?_, rfl⟩
      · simp [w₁, Group.append]
      · exact (hs.group.committed_le_frontier p).trans (hs.group.frontier_le_length p)
    · have hd₁ : d₁.remaining = rest := by simp [d₁, Drain.afterPublish, hr]
      obtain ⟨w', o, record, hrun, hfound⟩ := ih (hlead.reachable h) (KeyedTable.set_self ..)
        (by simpa [d₁, Drain.afterPublish] using hf) (hd₁ ▸ hrest) hd₁
      exact ⟨w', o, record, hlead.trans hrun, hfound⟩

end Relay

end Delivery

/-- **No dead end in the modes A and B.** From every reachable state, whatever crashed, raised or
was lost before: when the request topic has a partition, every committed job of which no request is
a dead letter can still become `SUCCESS`. -/
theorem no_dead_end [DecidableEq P] [Fintype P] (h : (requestDelivery cfg).Reachable w) {p : P}
    (hp : cfg.topicOf p = cfg.settings.consumeTopic) {jobId : Uuid} {row : JobRow}
    (hrow : w.db.jobs jobId = some row) (halive : ∀ record ∈ w.dlq, record.value.jobId ≠ jobId) :
    ∃ as w' row', (requestDelivery cfg).run w as = some w' ∧ w'.db.jobs jobId = some row' ∧
      row'.status = .success := by
  suffices hleads : ∃ w', (requestDelivery cfg).Leads w w' ∧ w'.db.Finished jobId by
    obtain ⟨w', ⟨as, hr⟩, row', hrow', hs⟩ := hleads
    exact ⟨as, w', row', hr, hrow', hs⟩
  by_cases hsuccess : row.status = .success
  · exact ⟨w, .refl w, row, hrow, hsuccess⟩
  have hcarried := Delivery.Kept.of_reachable h jobId row hrow ⟨hsuccess, .inl rfl⟩
  rcases hcarried.exists_carrier (.of_reachable h) with ⟨r, hmem, hpending, rfl⟩ |
    ⟨q, o, record, hrecord, hle, rfl⟩ | ⟨-, record, hrecord, hjob⟩
  · obtain ⟨i, r', d, hfetch, hd, hf, hremaining⟩ :=
      Relays.leads_fetched (Delivery.known_of_reachable h).locks
        (Delivery.Sound.of_reachable h).relays.distinct hmem hpending
    have hfetched : (requestDelivery cfg).Leads w _ := Delivery.leads_relays hfetch
    have h₁ := hfetched.reachable h
    obtain ⟨w₂, o, record, hpublish, hrecord, hle, hjob⟩ :=
      Delivery.leads_publish h₁ hp hd hf hremaining
    obtain ⟨w₃, hread, hfinished⟩ := Delivery.leads_read (hpublish.reachable h₁) hrecord hle
    exact ⟨w₃, (hfetched.trans hpublish).trans hread, hjob ▸ hfinished⟩
  · exact Delivery.leads_read h hrecord hle
  · exact absurd hjob (halive record hrecord)

/-- After the death of the worker the job is `PROCESSING`, and can still become `SUCCESS`. -/
theorem no_dead_end_dead : ∃ row, exampleDead.db.jobs 1 = some row ∧ row.status = .processing ∧
    ∃ as w' row', (requestDelivery exampleDelivery).run exampleDead as = some w' ∧
      w'.db.jobs 1 = some row' ∧ row'.status = .success := by
  have hreach : (requestDelivery exampleDelivery).Reachable exampleDead :=
    TransitionSystem.Reachable.get (T := requestDelivery exampleDelivery) exampleDeath rfl
      (by decide)
  have hrow : exampleDead.db.jobs 1 = some ((exampleDead.db.jobs 1).get (by decide)) :=
    (Option.some_get _).symm
  have hdlq : exampleDead.dlq = [] := List.isEmpty_iff.mp (by decide)
  have htopic : exampleDelivery.topicOf false = exampleDelivery.settings.consumeTopic := by decide
  exact ⟨_, hrow, by decide, no_dead_end hreach htopic hrow (by simp [hdlq])⟩

end Morphflow
