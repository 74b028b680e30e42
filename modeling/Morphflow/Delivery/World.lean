import Morphflow.Runner.Republication
import Morphflow.Services.JobService
import Morphflow.Services.LeasedService

/-!
# The delivery of requests in the modes A and B

The whole path of a request: `JobService.create_job` writes the job and the outbox row, relays
publish the rows, and the workers of one consumer group read the request topic and the retry topic,
handle the messages with `WorkerService`, and publish what failed to the retry topic or to the dead
letters.

A publish call that returned has appended its record; one that raised may have. Which partition of
the topic the record goes to is up to the environment. Nobody else writes to the topics.

## Main definitions

* `DeliveryConfig`, `Delivery`, `DeliveryAct`, `Landing`.
* `Delivery.step`, `requestDelivery`.

## Main results

* `Delivery.effect_of_step`: everything a step can do.
-/

namespace Morphflow

variable {P : Type*}

/-- The settings of the deployment: the partitions belong to the two topics the group reads, and
the three topics are distinct. -/
structure DeliveryConfig (P : Type*) where
  settings : RunnerSettings
  topicOf : P → String
  workerId : ℕ → String
  leaseSeconds : ℕ → ℤ
  topicOf_or : ∀ p, topicOf p = settings.consumeTopic ∨ topicOf p = settings.retryTopic
  consume_ne_retry : settings.consumeTopic ≠ settings.retryTopic
  consume_ne_dlq : settings.consumeTopic ≠ settings.kafkaDlqTopic
  retry_ne_dlq : settings.retryTopic ≠ settings.kafkaDlqTopic

/-- The consumer group: a worker calls `WorkerService.handle_event` on every value. -/
def DeliveryConfig.group (cfg : DeliveryConfig P) : GroupConfig P Event LeasedCall where
  settings := cfg.settings
  topicOf := cfg.topicOf
  role i event := ⟨cfg.workerId i, cfg.leaseSeconds i, event, .claiming⟩

/-- Where the record of a publish call ends up. -/
inductive Landing (P : Type*)
  | lost
  | partition (p : P)
  | deadLetters

/-- No record was appended. -/
def Landing.isLost : Landing P → Bool
  | .lost => true
  | _ => false

theorem Landing.ne_lost_of_isLost {landing : Landing P} (h : landing.isLost = false) :
    landing ≠ .lost := by
  rintro rfl
  cases h

/-- The committed store, the relays, the consumer group with its logs, and the dead letters. -/
structure Delivery (P : Type*) where
  db : Db
  relays : Relays
  group : Group P Event LeasedCall
  dlq : List (LogRecord Event)

/-- The steps; `p` is a partition. -/
inductive DeliveryAct (P : Type*)
  | create (ids : RequestIds) (payload : Dict) (fate : TxFate)
  | relay (a : RelayAct) (landing : Landing P)
  | loop (a : GroupAct P Event LeasedCall)
  | call (p : P) (a : LeasedAct)
  | answer (p : P) (now : ℤ)
  | publish (p : P) (returned : Bool) (landing : Landing P)

namespace Delivery

variable [DecidableEq P]

/-- The world after a record was appended somewhere, `none` where it cannot land. -/
def land (cfg : DeliveryConfig P) (w : Delivery P) (topic : String) (record : LogRecord Event) :
    Landing P → Option (Delivery P)
  | .lost => some w
  | .partition p =>
    if cfg.topicOf p = topic then some { w with group := w.group.append p record } else none
  | .deadLetters =>
    if topic = cfg.settings.kafkaDlqTopic then some { w with dlq := w.dlq ++ [record] } else none

/-- The world after a step of the relays on the rows. -/
def relayed (w : Delivery P) (rows : List OutboxRow) (relays : Relays) : Delivery P :=
  { w with db := { w.db with outbox := rows }, relays := relays }

variable [Fintype P]

/-- The world after a step of the group. -/
def groupStep (cfg : DeliveryConfig P) (w : Delivery P) (a : GroupAct P Event LeasedCall) :
    Option (Delivery P) :=
  (w.group.step cfg.group a).map fun g => { w with group := g }

/-- A step of the system. -/
def step (cfg : DeliveryConfig P) (w : Delivery P) : DeliveryAct P → Option (Delivery P)
  | .create ids payload fate =>
    some { w with db := JobService.createJob cfg.settings.consumeTopic ids payload fate w.db }
  | .relay a landing =>
    (w.relays.step w.db.outbox a).bind fun r =>
      match w.relays.publishCall? a with
      | none => if landing.isLost then some (w.relayed r.1 r.2) else none
      | some call =>
        if call.returned && landing.isLost then none
        else (w.relayed r.1 r.2).land cfg call.topic
          ⟨call.payload, rawHeaders (call.headers.getD [])⟩ landing
  | .loop a => if a.loops then w.groupStep cfg a else none
  | .call p a =>
    match w.group.handling? p with
    | some (_, .calling c) =>
      (WorkerService.step c w.db a).bind fun r =>
        { w with db := r.2 }.groupStep cfg (.progress p r.1)
    | _ => none
  | .answer p now =>
    match w.group.handling? p with
    | some (_, .calling c) =>
      match c.phase with
      | .returned success error => w.groupStep cfg (.answer p success error now)
      | .raised _ => w.groupStep cfg (.raise p)
      | _ => none
    | _ => none
  | .publish p returned landing =>
    match w.group.handling? p with
    | some (_, .publishing pub) =>
      if returned && landing.isLost then none
      else (w.land cfg pub.topic pub.record landing).bind fun w' =>
        w'.groupStep cfg (if returned then .publish p else .raise p)
    | _ => none

/-- The world before the first request. -/
def initial : Delivery P := ⟨Db.empty, ⟨∅, fun _ => none⟩, Group.initial, []⟩

end Delivery

/-- The delivery of requests, from empty tables and logs. -/
def requestDelivery [DecidableEq P] [Fintype P] (cfg : DeliveryConfig P) :
    TransitionSystem (Delivery P) (DeliveryAct P) where
  init w := w = Delivery.initial
  step := Delivery.step cfg

/-! ### Everything a step can do -/

namespace Delivery

variable [DecidableEq P] {cfg : DeliveryConfig P} {w w' : Delivery P}

/-- A publish call left no record, or one in a partition of its topic, or a dead letter. -/
theorem land_cases {topic : String} {record : LogRecord Event} {landing : Landing P}
    (h : w.land cfg topic record landing = some w') :
    (landing = .lost ∧ w' = w) ∨
    (∃ p, landing = .partition p ∧ cfg.topicOf p = topic ∧
      w' = { w with group := w.group.append p record }) ∨
    (landing = .deadLetters ∧ topic = cfg.settings.kafkaDlqTopic ∧
      w' = { w with dlq := w.dlq ++ [record] }) := by
  cases landing with
  | lost => exact .inl ⟨rfl, (Option.some.inj h).symm⟩
  | partition p =>
    simp only [land, Option.ite_none_right_eq_some, Option.some.injEq] at h
    exact .inr (.inl ⟨p, rfl, h.1, h.2.symm⟩)
  | deadLetters =>
    simp only [land, Option.ite_none_right_eq_some, Option.some.injEq] at h
    exact .inr (.inr ⟨rfl, h.1, h.2.symm⟩)

theorem land_readers {topic : String} {record : LogRecord Event} {landing : Landing P}
    (h : w.land cfg topic record landing = some w') : w'.group.readers = w.group.readers := by
  rcases land_cases h with ⟨-, rfl⟩ | ⟨p, -, -, rfl⟩ | ⟨-, -, rfl⟩ <;> rfl

variable [Fintype P]

/-- What a step does to the world. -/
inductive Effect (cfg : DeliveryConfig P) (w : Delivery P) : DeliveryAct P → Delivery P → Prop
  /-- The request failed. -/
  | unchanged {ids : RequestIds} {payload : Dict} {fate : TxFate} :
      Effect cfg w (.create ids payload fate) w
  | created {ids : RequestIds} {payload : Dict} {fate : TxFate}
      (hjob : w.db.jobs ids.jobId = none) (hrow : ∀ row ∈ w.db.outbox, row.id ≠ ids.rowId) :
      Effect cfg w (.create ids payload fate)
        { w with db := JobService.createdDb cfg.settings.consumeTopic ids payload w.db }
  /-- A relay took a step that publishes nothing. -/
  | relayed {a : RelayAct} {landing : Landing P} {rows : List OutboxRow} {r : Relays}
      (hcall : w.relays.publishCall? a = none)
      (heff : Relays.Effect w.db.outbox w.relays a rows r) :
      Effect cfg w (.relay a landing) (w.relayed rows r)
  /-- A relay published a row. -/
  | rowPublished {i : ℕ} {outcome : Except String Unit} {landing : Landing P} {d : Drain}
      {row : OutboxRow} {rest : List OutboxRow} {w' : Delivery P}
      (hi : w.relays.drains i = some d) (hf : d.failed = none) (hm : d.remaining = row :: rest)
      (hland : (w.relayed w.db.outbox (w.relays.goOn i (d.afterPublish row outcome))).land cfg
        row.topic row.record landing = some w')
      (hret : outcome = .ok () → landing ≠ .lost) :
      Effect cfg w (.relay (.publish i outcome) landing) w'
  | looped {a : GroupAct P Event LeasedCall} {g : Group P Event LeasedCall}
      (hloops : a.loops = true) (heff : Group.Effect cfg.group w.group a g) :
      Effect cfg w (.loop a) { w with group := g }
  /-- The handler of a partition took a step. -/
  | progressed {p : P} {a : LeasedAct} {t : PartitionTask Event LeasedCall} {m : Message Event}
      {c : LeasedCall} {phase' : LeasedPhase} {db' : Db} (ht : w.group.openTask? p = some t)
      (hh : t.handling = some (m, .calling c))
      (heff : c.Effect "worker" WorkerService.completeTx w.db a phase' db') :
      Effect cfg w (.call p a) { w with
        db := db'
        group := w.group.setTask p
          { t with handling := some (m, .calling { c with phase := phase' }) } }
  /-- The handler answered with success. -/
  | acknowledged {p : P} {now : ℤ} {t : PartitionTask Event LeasedCall} {m : Message Event}
      {c : LeasedCall} {error : Option String} (ht : w.group.openTask? p = some t)
      (hh : t.handling = some (m, .calling c)) (hphase : c.phase = .returned true error) :
      Effect cfg w (.answer p now) { w with group := w.group.settle p t m t.remaining }
  /-- The handler answered with a failure. -/
  | answered {p : P} {now : ℤ} {t : PartitionTask Event LeasedCall} {m : Message Event}
      {c : LeasedCall} {error : Option String} (ht : w.group.openTask? p = some t)
      (hh : t.handling = some (m, .calling c)) (hphase : c.phase = .returned false error) :
      Effect cfg w (.answer p now) { w with
        group := w.group.setTask p
          { t with handling := some (m, .publishing (m.republication cfg.settings error now)) } }
  /-- The handler raised. -/
  | raised {p : P} {now : ℤ} {t : PartitionTask Event LeasedCall} {m : Message Event}
      {c : LeasedCall} {e : String} (ht : w.group.openTask? p = some t)
      (hh : t.handling = some (m, .calling c)) (hphase : c.phase = .raised e) :
      Effect cfg w (.answer p now)
        { w with group := w.group.setReader p ((w.group.readers p).seek t m) }
  /-- The value of a failed message was published, and the message is settled. -/
  | published {p : P} {landing : Landing P} {t : PartitionTask Event LeasedCall}
      {m : Message Event} {pub : Publication Event} {w' : Delivery P}
      (ht : w.group.openTask? p = some t) (hh : t.handling = some (m, .publishing pub))
      (hland : w.land cfg pub.topic pub.record landing = some w') (hlost : landing ≠ .lost) :
      Effect cfg w (.publish p true landing)
        { w' with group := w'.group.settle p t m t.remaining }
  /-- The publish call raised. -/
  | publishFailed {p : P} {landing : Landing P} {t : PartitionTask Event LeasedCall}
      {m : Message Event} {pub : Publication Event} {w' : Delivery P}
      (ht : w.group.openTask? p = some t) (hh : t.handling = some (m, .publishing pub))
      (hland : w.land cfg pub.topic pub.record landing = some w') :
      Effect cfg w (.publish p false landing)
        { w' with group := w'.group.setReader p ((w'.group.readers p).seek t m) }

/-- Every step has one of these effects. -/
theorem effect_of_step {a : DeliveryAct P} (h : w.step cfg a = some w') : Effect cfg w a w' := by
  cases a with
  | create ids payload fate =>
    obtain rfl := Option.some.inj h
    rcases JobService.createJob_cases cfg.settings.consumeTopic ids payload fate w.db with hdb |
      ⟨hjob, hrow, hdb⟩ <;> rw [hdb]
    · exact .unchanged
    · exact .created hjob hrow
  | relay a landing =>
    simp only [step, Option.bind_eq_some_iff] at h
    obtain ⟨⟨rows, r⟩, hstep, h⟩ := h
    have heff := Relays.effect_of_step hstep
    split at h
    · next hcall =>
      split_ifs at h
      exact Option.some.inj h ▸ .relayed hcall heff
    · next call hcall =>
      split_ifs at h with hret
      cases heff with
      | @published i outcome d row rest hi hf hm =>
        have hnext := Relays.next?_eq_some_iff.mpr ⟨hf, rest, hm⟩
        simp only [Relays.publishCall?, hi, Option.bind_some, hnext, Option.map_some,
          Option.some.injEq] at hcall
        subst hcall
        refine .rowPublished hi hf hm h ?_
        rintro rfl rfl
        exact hret rfl
      | _ => cases hcall
  | loop a =>
    simp only [step, groupStep, Option.ite_none_right_eq_some, Option.map_eq_some_iff] at h
    obtain ⟨hloops, g, hg, rfl⟩ := h
    exact .looped hloops (Group.effect_of_step hg)
  | call p a =>
    simp only [step] at h
    split at h
    · next m c hc =>
      obtain ⟨⟨c', db'⟩, hstep, h⟩ := Option.bind_eq_some_iff.mp h
      obtain ⟨phase', rfl, heff⟩ := LeasedCall.effect_of_step hstep
      obtain ⟨g, hg, rfl⟩ := Option.map_eq_some_iff.mp h
      obtain ⟨t, ht, hh⟩ := Group.handling?_eq_some_iff.mp hc
      simp only [Group.step, ht, Option.bind_some, hh, Option.some.injEq] at hg
      exact hg ▸ .progressed ht hh heff
    · cases h
  | answer p now =>
    simp only [step] at h
    split at h
    · next m c hc =>
      obtain ⟨t, ht, hh⟩ := Group.handling?_eq_some_iff.mp hc
      split at h
      · next success error hphase =>
        obtain ⟨g, hg, rfl⟩ := Option.map_eq_some_iff.mp h
        simp only [Group.step, ht, Option.bind_some, hh] at hg
        cases success with
        | true =>
          simp only [Message.afterHandler, if_true, Option.some.injEq] at hg
          exact hg ▸ .acknowledged ht hh hphase
        | false =>
          simp only [DeliveryConfig.group, Message.afterHandler_failure, Option.some.injEq] at hg
          exact hg ▸ .answered ht hh hphase
      · next e hphase =>
        obtain ⟨g, hg, rfl⟩ := Option.map_eq_some_iff.mp h
        simp only [Group.step, ht, Option.bind_some, hh, Option.some.injEq] at hg
        exact hg ▸ .raised ht hh hphase
      · cases h
    · cases h
  | publish p returned landing =>
    simp only [step] at h
    split at h
    · next m pub hc =>
      obtain ⟨t, ht, hh⟩ := Group.handling?_eq_some_iff.mp hc
      -- the task is the same after the record landed
      have htask : ∀ {w₁ : Delivery P}, w.land cfg pub.topic pub.record landing = some w₁ →
          w₁.group.openTask? p = some t := fun hland => by
        rw [Group.openTask?, land_readers hland]
        exact ht
      cases returned with
      | true =>
        simp only [Bool.true_and, if_true, Option.ite_none_left_eq_some] at h
        obtain ⟨hlost, h⟩ := h
        obtain ⟨w₁, hland, h⟩ := Option.bind_eq_some_iff.mp h
        obtain ⟨g, hg, rfl⟩ := Option.map_eq_some_iff.mp h
        simp only [Group.step, htask hland, Option.bind_some, hh, Option.some.injEq] at hg
        exact hg ▸ .published ht hh hland (Landing.ne_lost_of_isLost (by simpa using hlost))
      | false =>
        simp only [Bool.false_and, Bool.false_eq_true, if_false] at h
        obtain ⟨w₁, hland, h⟩ := Option.bind_eq_some_iff.mp h
        obtain ⟨g, hg, rfl⟩ := Option.map_eq_some_iff.mp h
        simp only [Group.step, htask hland, Option.bind_some, hh, Option.some.injEq] at hg
        exact hg ▸ .publishFailed ht hh hland
    · cases h

end Delivery

end Morphflow
