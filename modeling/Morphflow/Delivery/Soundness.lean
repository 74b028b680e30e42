import Morphflow.Delivery.World
import Morphflow.Services.LeaseDiscipline

/-!
# What holds throughout a delivery

`Delivery.Sound` collects what the argument about lost jobs rests on: the invariants of the group
and of the relays, that every record was written for the role that reads it, that a handling is
about the message in hand, and that the handlers are disciplined holders of leases.

## Main definitions

* `Delivery.lease?`, `Delivery.Sound`.

## Main results

* `Delivery.Sound.of_effect`, `Delivery.Sound.of_reachable`.
* `Delivery.Sound.not_skipped`: no message is for another role.
-/

namespace Morphflow

variable {P : Type*}

/-- What the holder of a current lease knows: the job is `PROCESSING` and the lease is its own, or
the job is finished. -/
def heldOn (lease : JobLease) (row : JobRow) : Prop :=
  (row.status = .processing ∧ row.leaseOwner = some lease.owner) ∨ row.status = .success

/-- The record is for the role that consumes the topic, when it is on the given topic. -/
def LogRecord.ForRole (cfg : DeliveryConfig P) (topic : String) (record : LogRecord Event) : Prop :=
  record.origin topic = cfg.settings.consumeTopic

/-! ### The invariant -/

namespace LeasedCall

/-- The lease of a call is for the job of its event, and its own. -/
structure Owned (c : LeasedCall) : Prop where
  named : c.LeaseNamed
  owner : ∀ lease, c.lease? = some lease → lease.owner = c.workerId

/-- A step leaves a call with a lease of its own. -/
theorem Effect.owned {source : String} {completeTx : CompleteTx} {c : LeasedCall} {db db' : Db}
    {a : LeasedAct} {phase' : LeasedPhase} (h : c.Effect source completeTx db a phase' db')
    (hc : c.Owned) : ({ c with phase := phase' } : LeasedCall).Owned where
  named := h.leaseNamed hc.named
  owner lease hl := by
    rcases h.lease? hl with hl | ⟨row, now, rfl⟩
    · exact hc.owner lease hl
    · rfl

/-- `WorkerService` does not touch the outbox. -/
theorem Effect.outbox {c : LeasedCall} {db db' : Db} {a : LeasedAct} {phase' : LeasedPhase}
    (h : c.Effect "worker" WorkerService.completeTx db a phase' db') :
    db'.outbox = db.outbox := by
  cases h with
  | completed _ htx =>
    obtain ⟨row, -, -, rfl⟩ := recordTx_eq_some_iff.mp htx
    rfl
  | _ => rfl

/-- `WorkerService` writes the job of its event only. -/
theorem Effect.jobs_of_ne {c : LeasedCall} {db db' : Db} {a : LeasedAct} {phase' : LeasedPhase}
    (h : c.Effect "worker" WorkerService.completeTx db a phase' db') {k : Uuid}
    (hk : k ≠ c.event.jobId) : db'.jobs k = db.jobs k := by
  cases h with
  | claimed => exact KeyedTable.set_of_ne _ _ hk
  | completed _ htx =>
    obtain ⟨row, -, -, rfl⟩ := recordTx_eq_some_iff.mp htx
    exact KeyedTable.set_of_ne _ _ hk
  | failed => exact KeyedTable.set_of_ne _ _ hk
  | _ => rfl

/-- A completion of `WorkerService` finishes the job. -/
theorem keepsValid_worker (c : LeasedCall) (db : Db) :
    c.KeepsValid heldOn WorkerService.completeTx db := by
  intro lease result ids db₁ htx
  obtain ⟨row, hrow, -, rfl⟩ := recordTx_eq_some_iff.mp htx
  exact .inr ⟨row, _, hrow, rfl, rfl, fun _ => .inr rfl⟩

end LeasedCall

/-- A handling is about the message in hand. -/
def Handling.IsFor (cfg : DeliveryConfig P) (m : Message Event) : Handling Event LeasedCall → Prop
  | .calling c => c.event = m.value ∧ c.Owned
  | .publishing pub => ∃ error now, pub = m.republication cfg.settings error now

namespace Delivery

/-- The lease under which the message of a partition is handled. -/
def lease? (w : Delivery P) (p : P) : Option JobLease :=
  match w.group.handling? p with
  | some (_, .calling c) => c.lease?
  | _ => none

/-- The invariant of the delivery. -/
structure Sound (cfg : DeliveryConfig P) (w : Delivery P) : Prop where
  group : w.group.Sound cfg.group
  relays : w.relays.Sound w.db.outbox
  rows : ∀ row ∈ w.db.outbox, row.topic = cfg.settings.consumeTopic ∧ row.headers = none
  records : ∀ p, ∀ record ∈ w.group.log p, record.ForRole cfg (cfg.topicOf p)
  handling : ∀ p m x, w.group.handling? p = some (m, x) → x.IsFor cfg m
  leases : (jobFencing heldOn).Disciplined w.db.jobs w.lease?

variable {cfg : DeliveryConfig P} {w w' : Delivery P} {p : P}

theorem lease?_congr {q : P} (h : w'.group.handling? q = w.group.handling? q) :
    w'.lease? q = w.lease? q := by
  rw [lease?, lease?, h]

theorem lease?_of_handling?_none (h : w.group.handling? p = none) : w.lease? p = none := by
  rw [lease?, h]

theorem lease?_of_calling {m : Message Event} {c : LeasedCall}
    (h : w.group.handling? p = some (m, .calling c)) : w.lease? p = c.lease? := by
  rw [lease?, h]

/-- The messages of a partition are for the role. -/
theorem Sound.origin (h : w.Sound cfg) {m : Message Event}
    (hm : m ∈ w.group.messages cfg.group p) : m.origin = cfg.settings.consumeTopic := by
  obtain ⟨record, hrecord, -, -, horigin⟩ := Group.exists_record_of_mem hm
  exact horigin.trans (h.records p record hrecord)

/-- No message is for another role. -/
theorem Sound.not_skipped (h : w.Sound cfg) (p : P) :
    ∀ m ∈ w.group.messages cfg.group p, m.skipped cfg.settings = false :=
  fun _ hm => Message.skipped_of_origin cfg.consume_ne_retry (h.origin hm)

/-- A lease under which an unfinished job cannot be written was taken over. -/
theorem Sound.stale (h : w.Sound cfg) {m : Message Event} {c : LeasedCall} {lease : JobLease}
    {row : JobRow} (hx : w.group.handling? p = some (m, .calling c)) (hl : c.lease? = some lease)
    (hrow : w.db.jobs c.event.jobId = some row) (hne : row.status ≠ .success)
    (hnot : ¬ (row.status = .processing ∧ row.leaseOwner = some c.workerId ∧
      row.leaseEpoch = lease.epoch)) : lease.epoch < row.leaseEpoch := by
  obtain ⟨-, howned⟩ := h.handling p m _ hx
  have hl' := (lease?_of_calling hx).trans hl
  have hrow' : w.db.jobs lease.jobId = some row := by rw [howned.named lease hl, hrow]
  have hle : lease.epoch ≤ row.leaseEpoch := h.leases.token_le hl' hrow'
  refine hle.lt_of_ne fun heq => ?_
  rcases h.leases.valid_of_current hl' hrow' heq with ⟨hst, hown⟩ | hst
  · exact hnot ⟨hst, by rw [hown, howned.owner lease hl], heq.symm⟩
  · exact hne hst

/-! ### Steps keep the invariant -/

namespace Sound

/-- A sound group with the same logs may take over when no handling goes on but for those that hold
no lease. -/
theorem regroup (h : w.Sound cfg) {g : Group P Event LeasedCall} (hg : g.Sound cfg.group)
    (hlog : g.log = w.group.log)
    (hhandling : ∀ q m x, g.handling? q = some (m, x) →
      w.group.handling? q = some (m, x) ∨
        (x.IsFor cfg m ∧ ∀ c, x = .calling c → c.lease? = none)) :
    ({ w with group := g } : Delivery P).Sound cfg where
  group := hg
  relays := h.relays
  rows := h.rows
  records p record hr := h.records p record (by rwa [hlog] at hr)
  handling q m x hx := (hhandling q m x hx).elim (h.handling q m x) And.left
  leases := by
    refine h.leases.release fun q lease hl => ?_
    cases hx : g.handling? q with
    | none =>
      rw [lease?_of_handling?_none hx] at hl
      cases hl
    | some x =>
      obtain ⟨m, x⟩ := x
      rcases hhandling q m x hx with hold | ⟨-, hnone⟩
      · have hsame : ({ w with group := g } : Delivery P).lease? q = w.lease? q :=
          lease?_congr (hx.trans hold.symm)
        rwa [hsame] at hl
      · cases x with
        | calling c =>
          rw [lease?_of_calling hx, hnone c rfl] at hl
          cases hl
        | publishing pub =>
          simp only [lease?, hx] at hl
          cases hl

theorem create (h : w.Sound cfg) {ids : RequestIds} {payload : Dict}
    (hjob : w.db.jobs ids.jobId = none) (hrow : ∀ row ∈ w.db.outbox, row.id ≠ ids.rowId) :
    ({ w with db := JobService.createdDb cfg.settings.consumeTopic ids payload w.db } :
      Delivery P).Sound cfg where
  group := h.group
  relays := h.relays.append hrow
  rows row hmem := by
    rcases List.mem_append.mp hmem with hmem | hmem
    · exact h.rows row hmem
    · obtain rfl := List.mem_singleton.mp hmem
      exact ⟨rfl, rfl⟩
  records := h.records
  handling := h.handling
  leases := h.leases.insert hjob fun _ _ => id

theorem relay (h : w.Sound cfg) {a : RelayAct} {rows : List OutboxRow} {r : Relays}
    (heff : Relays.Effect w.db.outbox w.relays a rows r) : (w.relayed rows r).Sound cfg where
  group := h.group
  relays := h.relays.of_effect heff
  rows row hmem := by
    obtain ⟨row₀, hmem₀, hsame, -⟩ := heff.exists_sameMessage hmem
    rw [hsame.topic, hsame.headers]
    exact h.rows row₀ hmem₀
  records := h.records
  handling := h.handling
  leases := h.leases

variable [DecidableEq P]

theorem land (h : w.Sound cfg) {topic : String} {record : LogRecord Event} {landing : Landing P}
    (hrecord : record.ForRole cfg topic) (hland : w.land cfg topic record landing = some w') :
    w'.Sound cfg := by
  rcases land_cases hland with ⟨-, rfl⟩ | ⟨p, -, htopic, rfl⟩ | ⟨-, -, rfl⟩
  · exact h
  · refine ⟨h.group.append p record, h.relays, h.rows, fun q r hr => ?_, h.handling, h.leases⟩
    rcases Group.mem_log_append hr with hr | ⟨rfl, rfl⟩
    · exact h.records q r hr
    · exact htopic ▸ hrecord
  · exact ⟨h.group, h.relays, h.rows, h.records, h.handling, h.leases⟩

theorem goOn (h : w.Sound cfg) {t : PartitionTask Event LeasedCall} {m : Message Event}
    {x x' : Handling Event LeasedCall} (ht : w.group.openTask? p = some t)
    (hh : t.handling = some (m, x)) (hx' : x'.IsFor cfg m)
    (hlease : ∀ c, x' = .calling c → c.lease? = none) :
    ({ w with group := w.group.setTask p { t with handling := some (m, x') } } :
      Delivery P).Sound cfg := by
  refine h.regroup (h.group.goOn ht hh x') rfl fun q m₁ x₁ hx₁ => ?_
  rcases Group.handling?_of_goOn ht hx₁ with ⟨-, rfl, rfl⟩ | hold
  · exact .inr ⟨hx', hlease⟩
  · exact .inl hold

theorem settle (h : w.Sound cfg) {t : PartitionTask Event LeasedCall} {m : Message Event}
    {x : Handling Event LeasedCall} (ht : w.group.openTask? p = some t)
    (hh : t.handling = some (m, x)) :
    ({ w with group := w.group.settle p t m t.remaining } : Delivery P).Sound cfg :=
  h.regroup (h.group.settle ht (PartitionTask.inHand_of_some hh)) rfl
    fun _ _ _ hx => .inl (Group.handling?_of_settle hx)

theorem seek (h : w.Sound cfg) {t : PartitionTask Event LeasedCall} {m : Message Event}
    {x : Handling Event LeasedCall} (ht : w.group.openTask? p = some t)
    (hh : t.handling = some (m, x)) :
    ({ w with group := w.group.setReader p ((w.group.readers p).seek t m) } :
      Delivery P).Sound cfg :=
  h.regroup (h.group.seek ht (PartitionTask.inHand_of_some hh)) rfl
    fun _ _ _ hx => .inl (Group.handling?_of_seek hx)

theorem progress (h : w.Sound cfg) {a : LeasedAct} {t : PartitionTask Event LeasedCall}
    {m : Message Event} {c : LeasedCall} {phase' : LeasedPhase} {db' : Db}
    (ht : w.group.openTask? p = some t) (hh : t.handling = some (m, .calling c))
    (heff : c.Effect "worker" WorkerService.completeTx w.db a phase' db') :
    ({ w with
        db := db'
        group := w.group.setTask p
          { t with handling := some (m, .calling { c with phase := phase' }) } } :
      Delivery P).Sound cfg := by
  have hcalling : w.group.handling? p = some (m, .calling c) :=
    (Group.handling?_of_openTask? ht).trans hh
  have hcalling' : (w.group.setTask p
      { t with handling := some (m, .calling { c with phase := phase' }) }).handling? p =
      some (m, .calling { c with phase := phase' }) := Group.handling?_goOn_self ht ..
  obtain ⟨hevent, howned⟩ := h.handling p m _ hcalling
  refine ⟨h.group.goOn ht hh _, ?_, ?_, h.records, fun q m₁ x₁ hx₁ => ?_, ?_⟩
  · rw [heff.outbox]
    exact h.relays
  · rw [heff.outbox]
    exact h.rows
  · rcases Group.handling?_of_goOn ht hx₁ with ⟨-, rfl, rfl⟩ | hold
    · exact ⟨hevent, heff.owned howned⟩
    · exact h.handling q m₁ x₁ hold
  · refine heff.disciplined h.leases (lease?_of_calling hcalling) (lease?_of_calling hcalling')
      (fun q lease hq hl => ?_) howned.named (fun row now => .inl ⟨rfl, rfl⟩)
      (LeasedCall.keepsValid_worker c w.db)
    rwa [lease?_congr (Group.handling?_setTask_of_ne _ hq)] at hl

variable [Fintype P]

theorem loop (h : w.Sound cfg) {a : GroupAct P Event LeasedCall} {g : Group P Event LeasedCall}
    (hloops : a.loops = true) (heff : Group.Effect cfg.group w.group a g) :
    ({ w with group := g } : Delivery P).Sound cfg := by
  refine h.regroup (h.group.of_effect heff) (heff.log_eq hloops) fun q m x hx => ?_
  rcases heff.frontier_or h.group hloops h.not_skipped q with ⟨-, hsame⟩ | ⟨-, hnone⟩ |
    ⟨-, -, i, m', -, hnew⟩
  · exact .inl (hsame ▸ hx)
  · cases hnone.symm.trans hx
  · obtain ⟨rfl, rfl⟩ := Prod.mk.inj (Option.some.inj (hnew.symm.trans hx))
    refine .inr ⟨⟨rfl, ⟨fun lease hl => ?_, fun lease hl => ?_⟩⟩, fun c hc => ?_⟩
    · cases hl
    · cases hl
    · obtain rfl := Handling.calling.inj hc
      rfl

/-- A step keeps the invariant. -/
theorem of_effect (h : w.Sound cfg) {a : DeliveryAct P} (heff : Effect cfg w a w') :
    w'.Sound cfg := by
  have hrepublished : ∀ {p : P} {t : PartitionTask Event LeasedCall} {m : Message Event}
      {pub : Publication Event}, w.group.openTask? p = some t →
      t.handling = some (m, .publishing pub) → pub.record.ForRole cfg pub.topic := by
    intro p t m pub ht hh
    have hx := (Group.handling?_of_openTask? ht).trans hh
    obtain ⟨error, now, rfl⟩ := h.handling p m _ hx
    rw [LogRecord.ForRole, republication_origin]
    exact h.origin (List.mem_of_getElem? (h.group.handled_at_frontier hx))
  cases heff with
  | unchanged => exact h
  | created hjob hrow => exact h.create hjob hrow
  | relayed _ heff => exact h.relay heff
  | @rowPublished i outcome landing d row rest w' hi hf hm hland =>
    obtain ⟨-, hmem, -⟩ :=
      h.relays.fetched_of_mem_remaining hi (hm ▸ List.mem_cons_self : row ∈ d.remaining)
    obtain ⟨htopic, hheaders⟩ := h.rows row hmem
    have heff : w.relays.Effect w.db.outbox (.publish i outcome) _ _ := .published hi hf hm
    exact (h.relay heff).land ((OutboxRow.record_origin hheaders _).trans htopic) hland
  | looped hloops heff => exact h.loop hloops heff
  | progressed ht hh heff => exact h.progress ht hh heff
  | acknowledged ht hh => exact h.settle ht hh
  | answered ht hh =>
    refine h.goOn ht hh ⟨_, _, rfl⟩ fun c hc => ?_
    cases hc
  | raised ht hh => exact h.seek ht hh
  | published ht hh hland =>
    refine (h.land (hrepublished ht hh) hland).settle ?_ hh
    rwa [Group.openTask?, land_readers hland]
  | publishFailed ht hh hland =>
    refine (h.land (hrepublished ht hh) hland).seek ?_ hh
    rwa [Group.openTask?, land_readers hland]

theorem initial : (Delivery.initial : Delivery P).Sound cfg where
  group := Group.Sound.of_init ⟨_, rfl⟩
  relays := Relays.Sound.initial
  rows row hmem := by cases hmem
  records p record hmem := by cases hmem
  handling p m x hx := by cases hx
  leases := by
    refine ⟨fun p lease hl => ?_, fun p q lease lease' hl => ?_⟩ <;> cases hl

/-- Every reachable world meets the invariant. -/
theorem of_reachable (h : (requestDelivery cfg).Reachable w) : w.Sound cfg :=
  h.rec_on_step (fun _ h₀ => h₀ ▸ Sound.initial) fun _ _ _ _ hs hstep =>
    hs.of_effect (effect_of_step hstep)

end Sound

end Delivery

end Morphflow
