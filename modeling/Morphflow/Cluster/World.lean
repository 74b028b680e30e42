import Morphflow.Cluster.Calls
import Morphflow.Runner.Republication
import Morphflow.Services.JobService
import Morphflow.Workers.Roles

/-!
# The whole deployment

Requests, any number of relays, and the workers of both consumer groups on one database and one
broker. Each worker process has its own mode: the group of the requests may hold processes that run
`WorkerService` beside others that run `InferencePipelineService`, as while the architecture is
switched over, and the downstream group may hold either as well.

As in the delivery of the modes A and B, a publish call that returned has appended its record to its
topic, one that raised may have, and nobody else writes to the topics. A record of a topic that both
groups read, which only a shared retry topic is, is read by both.

## Main definitions

* `ClusterConfig`, `Cluster`, `ClusterAct`.
* `Cluster.step`, `clusterSystem`.

## Main results

* `Cluster.effect_of_step`: everything a step can do.
* `Cluster.Effect.db_cases`: what it does to the jobs and the log.
-/

namespace Morphflow

/-! ### The deployment -/

variable {P : Type*}

/-- The settings of the deployment. The processes share the names of the topics and the settings of
the retries; each has its own mode and role, and is in the group of its role. The partitions of a
group belong to the topics it reads. -/
structure ClusterConfig (P : Type*) where
  settings : Settings
  mode : ConsumerGroupId → ℕ → ArchitectureMode
  role : ConsumerGroupId → ℕ → WorkerRole
  uuid : ConsumerGroupId → ℕ → String
  topicOf : ConsumerGroupId → P → String
  distinct : settings.TopicsDistinct
  role_group : ∀ g i, resolveWorkerGroupId (settings.started (mode g i) (role g i)) = g
  topicOf_or : ∀ g p, topicOf g p = (settings.groupRunner g).consumeTopic ∨
    topicOf g p = (settings.groupRunner g).retryTopic

namespace ClusterConfig

variable (cfg : ClusterConfig P)

/-- The settings of the worker `i` of a group. -/
def process (g : ConsumerGroupId) (i : ℕ) : Settings :=
  cfg.settings.started (cfg.mode g i) (cfg.role g i)

/-- The service that the worker `i` of a group runs. -/
def service (g : ConsumerGroupId) (i : ℕ) : Service :=
  buildWorkerRole (cfg.process g i) (cfg.uuid g i)

/-- What the poll loops of a group read. -/
def runner (g : ConsumerGroupId) : RunnerSettings := cfg.settings.groupRunner g

/-- Every process of a group reads the same. -/
theorem runner_process (g : ConsumerGroupId) (i : ℕ) :
    (cfg.process g i).runner = cfg.runner g := by
  rw [process, Settings.runner_started, cfg.role_group]
  rfl

/-- A consumer group: its workers call their services. -/
def group (g : ConsumerGroupId) : GroupConfig P Event Call where
  settings := cfg.runner g
  topicOf := cfg.topicOf g
  role i event := (cfg.service g i).handleEvent event

/-- A group reads the topic. -/
def subscribes (g : ConsumerGroupId) (topic : String) : Bool :=
  topic == (cfg.runner g).consumeTopic || topic == (cfg.runner g).retryTopic

end ClusterConfig

/-- The committed store, the relays, the consumer groups with their logs, and the dead letters. -/
structure Cluster (P : Type*) where
  db : Db
  relays : Relays
  groups : ConsumerGroupId → Group P Event Call
  dlq : List (LogRecord Event)

/-- Where the record of a publish call ends up: nowhere, or in the given partition of every group
that reads its topic. -/
abbrev RecordPlace (P : Type*) := Option (ConsumerGroupId → P)

/-- The steps; `g` is a group and `p` one of its partitions. -/
inductive ClusterAct (P : Type*)
  | create (ids : RequestIds) (payload : Dict) (fate : TxFate)
  | relay (a : RelayAct) (place : RecordPlace P)
  | loop (g : ConsumerGroupId) (a : GroupAct P Event Call)
  | call (g : ConsumerGroupId) (p : P) (a : CallAct)
  | answer (g : ConsumerGroupId) (p : P) (now : ℤ)
  | publish (g : ConsumerGroupId) (p : P) (returned : Bool) (place : RecordPlace P)

namespace Cluster

/-- The cluster with another state of one group. -/
def setGroup (w : Cluster P) (g : ConsumerGroupId) (x : Group P Event Call) : Cluster P :=
  { w with groups := Function.update w.groups g x }

@[simp] theorem setGroup_db (w : Cluster P) (g : ConsumerGroupId) (x : Group P Event Call) :
    (w.setGroup g x).db = w.db := rfl

@[simp] theorem setGroup_relays (w : Cluster P) (g : ConsumerGroupId) (x : Group P Event Call) :
    (w.setGroup g x).relays = w.relays := rfl

@[simp] theorem setGroup_dlq (w : Cluster P) (g : ConsumerGroupId) (x : Group P Event Call) :
    (w.setGroup g x).dlq = w.dlq := rfl

@[simp] theorem setGroup_groups_self (w : Cluster P) (g : ConsumerGroupId)
    (x : Group P Event Call) : (w.setGroup g x).groups g = x := Function.update_self ..

theorem setGroup_groups_of_ne (w : Cluster P) {g g' : ConsumerGroupId} (x : Group P Event Call)
    (h : g' ≠ g) : (w.setGroup g x).groups g' = w.groups g' := Function.update_of_ne h ..

/-- The cluster after a step of the relays on the rows. -/
def relayed (w : Cluster P) (rows : List OutboxRow) (relays : Relays) : Cluster P :=
  { w with db := { w.db with outbox := rows }, relays := relays }

variable [DecidableEq P]

/-- The cluster after a record was appended to its topic. -/
def landed (cfg : ClusterConfig P) (w : Cluster P) (topic : String) (record : LogRecord Event)
    (place : ConsumerGroupId → P) : Cluster P :=
  { w with
    groups := fun g =>
      if cfg.subscribes g topic then (w.groups g).append (place g) record else w.groups g
    dlq := if topic = cfg.settings.kafkaDlqTopic then w.dlq ++ [record] else w.dlq }

/-- The cluster after a publish call, `none` where the record cannot end up. -/
def land (cfg : ClusterConfig P) (w : Cluster P) (topic : String) (record : LogRecord Event) :
    RecordPlace P → Option (Cluster P)
  | none => some w
  | some place =>
    if ∀ g, cfg.subscribes g topic = true → cfg.topicOf g (place g) = topic then
      some (w.landed cfg topic record place)
    else none

variable [Fintype P]

/-- The cluster after a step of a group. -/
def groupStep (cfg : ClusterConfig P) (w : Cluster P) (g : ConsumerGroupId)
    (a : GroupAct P Event Call) : Option (Cluster P) :=
  ((w.groups g).step (cfg.group g) a).map (w.setGroup g)

/-- A step of the deployment. -/
def step (cfg : ClusterConfig P) (w : Cluster P) : ClusterAct P → Option (Cluster P)
  | .create ids payload fate => some { w with
      db := JobService.createJob cfg.settings.kafkaRequestTopic ids payload fate w.db }
  | .relay a place =>
    (w.relays.step w.db.outbox a).bind fun r =>
      match w.relays.publishCall? a with
      | none => if place.isNone then some (w.relayed r.1 r.2) else none
      | some call =>
        if call.returned && place.isNone then none
        else (w.relayed r.1 r.2).land cfg call.topic
          ⟨call.payload, rawHeaders (call.headers.getD [])⟩ place
  | .loop g a => if a.loops then w.groupStep cfg g a else none
  | .call g p a =>
    match (w.groups g).handling? p with
    | some (_, .calling call) =>
      if a.drawsFresh w.db.outbox then
        (call.step cfg.settings.kafkaDownstreamTopic w.db a).bind fun r =>
          { w with db := r.2 }.groupStep cfg g (.progress p r.1)
      else none
    | _ => none
  | .answer g p now =>
    match (w.groups g).handling? p with
    | some (_, .calling call) =>
      match call.outcome? with
      | some (.ok (success, error)) => w.groupStep cfg g (.answer p success error now)
      | some (.error _) => w.groupStep cfg g (.raise p)
      | none => none
    | _ => none
  | .publish g p returned place =>
    match (w.groups g).handling? p with
    | some (_, .publishing pub) =>
      if returned && place.isNone then none
      else (w.land cfg pub.topic pub.record place).bind fun w' =>
        w'.groupStep cfg g (if returned then .publish p else .raise p)
    | _ => none

/-- The cluster before the first request. -/
def initial : Cluster P := ⟨Db.empty, ⟨∅, fun _ => none⟩, fun _ => Group.initial, []⟩

end Cluster

/-- The deployment, from empty tables and logs. -/
def clusterSystem [DecidableEq P] [Fintype P] (cfg : ClusterConfig P) :
    TransitionSystem (Cluster P) (ClusterAct P) where
  init w := w = Cluster.initial
  step := Cluster.step cfg

/-! ### Everything a step can do -/

namespace Cluster

variable [DecidableEq P] {cfg : ClusterConfig P} {w w' : Cluster P} {g g' : ConsumerGroupId}
  {topic : String} {record : LogRecord Event}

theorem land_cases {place : RecordPlace P} (h : w.land cfg topic record place = some w') :
    (place = none ∧ w' = w) ∨
    ∃ at', place = some at' ∧
      (∀ g, cfg.subscribes g topic = true → cfg.topicOf g (at' g) = topic) ∧
      w' = w.landed cfg topic record at' := by
  cases place with
  | none => exact .inl ⟨rfl, (Option.some.inj h).symm⟩
  | some at' =>
    obtain ⟨hat, heq⟩ := Option.ite_none_right_eq_some.mp h
    exact .inr ⟨at', rfl, hat, (Option.some.inj heq).symm⟩

@[simp] theorem landed_db (at' : ConsumerGroupId → P) :
    (w.landed cfg topic record at').db = w.db := rfl

@[simp] theorem landed_relays (at' : ConsumerGroupId → P) :
    (w.landed cfg topic record at').relays = w.relays := rfl

theorem landed_groups_of_subscribes {at' : ConsumerGroupId → P}
    (h : cfg.subscribes g topic = true) :
    (w.landed cfg topic record at').groups g = (w.groups g).append (at' g) record := by
  simp [landed, h]

theorem landed_groups_of_not {at' : ConsumerGroupId → P} (h : cfg.subscribes g topic = false) :
    (w.landed cfg topic record at').groups g = w.groups g := by
  simp [landed, h]

theorem landed_readers (at' : ConsumerGroupId → P) (g : ConsumerGroupId) :
    ((w.landed cfg topic record at').groups g).readers = (w.groups g).readers := by
  simp only [landed]
  split <;> rfl

theorem land_readers {place : RecordPlace P} (h : w.land cfg topic record place = some w')
    (g : ConsumerGroupId) : (w'.groups g).readers = (w.groups g).readers := by
  rcases land_cases h with ⟨-, rfl⟩ | ⟨at', -, -, rfl⟩
  · rfl
  · exact landed_readers at' g

theorem land_db {place : RecordPlace P} (h : w.land cfg topic record place = some w') :
    w'.db = w.db := by
  rcases land_cases h with ⟨-, rfl⟩ | ⟨at', -, -, rfl⟩ <;> rfl

variable [Fintype P]

/-- What a step does to the cluster. -/
inductive Effect (cfg : ClusterConfig P) (w : Cluster P) : ClusterAct P → Cluster P → Prop
  /-- The request failed. -/
  | unchanged {ids : RequestIds} {payload : Dict} {fate : TxFate} :
      Effect cfg w (.create ids payload fate) w
  | created {ids : RequestIds} {payload : Dict} {fate : TxFate}
      (hjob : w.db.jobs ids.jobId = none) (hrow : ∀ row ∈ w.db.outbox, row.id ≠ ids.rowId) :
      Effect cfg w (.create ids payload fate) { w with
        db := JobService.createdDb cfg.settings.kafkaRequestTopic ids payload w.db }
  /-- A relay took a step that publishes nothing. -/
  | relayed {a : RelayAct} {place : RecordPlace P} {rows : List OutboxRow} {r : Relays}
      (hcall : w.relays.publishCall? a = none)
      (heff : Relays.Effect w.db.outbox w.relays a rows r) :
      Effect cfg w (.relay a place) (w.relayed rows r)
  /-- A relay published a row. -/
  | rowPublished {i : ℕ} {outcome : Except String Unit} {place : RecordPlace P} {d : Drain}
      {row : OutboxRow} {rest : List OutboxRow} {w' : Cluster P}
      (hi : w.relays.drains i = some d) (hf : d.failed = none) (hm : d.remaining = row :: rest)
      (hland : (w.relayed w.db.outbox (w.relays.goOn i (d.afterPublish row outcome))).land cfg
        row.topic row.record place = some w')
      (hret : outcome = .ok () → place ≠ none) :
      Effect cfg w (.relay (.publish i outcome) place) w'
  | looped {g : ConsumerGroupId} {a : GroupAct P Event Call} {x : Group P Event Call}
      (hloops : a.loops = true) (heff : Group.Effect (cfg.group g) (w.groups g) a x) :
      Effect cfg w (.loop g a) (w.setGroup g x)
  /-- The call of a partition took a step. -/
  | progressed {g : ConsumerGroupId} {p : P} {a : CallAct} {t : PartitionTask Event Call}
      {m : Message Event} {call call' : Call} {db' : Db}
      (ht : (w.groups g).openTask? p = some t) (hh : t.handling = some (m, .calling call))
      (heff : Call.Effect cfg.settings.kafkaDownstreamTopic w.db call a call' db')
      (hstep : call.step cfg.settings.kafkaDownstreamTopic w.db a = some (call', db')) :
      Effect cfg w (.call g p a) ({ w with db := db' }.setGroup g
        ((w.groups g).setTask p { t with handling := some (m, .calling call') }))
  /-- The handler answered with success. -/
  | acknowledged {g : ConsumerGroupId} {p : P} {now : ℤ} {t : PartitionTask Event Call}
      {m : Message Event} {call : Call} {error : Option String}
      (ht : (w.groups g).openTask? p = some t) (hh : t.handling = some (m, .calling call))
      (hout : call.outcome? = some (.ok (true, error))) :
      Effect cfg w (.answer g p now)
        (w.setGroup g ((w.groups g).settle p t m t.remaining))
  /-- The handler answered with a failure. -/
  | answered {g : ConsumerGroupId} {p : P} {now : ℤ} {t : PartitionTask Event Call}
      {m : Message Event} {call : Call} {error : Option String}
      (ht : (w.groups g).openTask? p = some t) (hh : t.handling = some (m, .calling call))
      (hout : call.outcome? = some (.ok (false, error))) :
      Effect cfg w (.answer g p now) (w.setGroup g ((w.groups g).setTask p
        { t with handling := some (m, .publishing (m.republication (cfg.runner g) error now)) }))
  /-- The handler raised. -/
  | raised {g : ConsumerGroupId} {p : P} {now : ℤ} {t : PartitionTask Event Call}
      {m : Message Event} {call : Call} {e : String}
      (ht : (w.groups g).openTask? p = some t) (hh : t.handling = some (m, .calling call))
      (hout : call.outcome? = some (.error e)) :
      Effect cfg w (.answer g p now) (w.setGroup g
        ((w.groups g).setReader p (((w.groups g).readers p).seek t m)))
  /-- The value of a failed message was published, and the message is settled. -/
  | published {g : ConsumerGroupId} {p : P} {place : RecordPlace P}
      {t : PartitionTask Event Call} {m : Message Event} {pub : Publication Event}
      {w' : Cluster P} (ht : (w.groups g).openTask? p = some t)
      (hh : t.handling = some (m, .publishing pub))
      (hland : w.land cfg pub.topic pub.record place = some w') (hplace : place ≠ none) :
      Effect cfg w (.publish g p true place)
        (w'.setGroup g ((w'.groups g).settle p t m t.remaining))
  /-- The publish call raised. -/
  | publishFailed {g : ConsumerGroupId} {p : P} {place : RecordPlace P}
      {t : PartitionTask Event Call} {m : Message Event} {pub : Publication Event}
      {w' : Cluster P} (ht : (w.groups g).openTask? p = some t)
      (hh : t.handling = some (m, .publishing pub))
      (hland : w.land cfg pub.topic pub.record place = some w') :
      Effect cfg w (.publish g p false place) (w'.setGroup g
        ((w'.groups g).setReader p (((w'.groups g).readers p).seek t m)))

/-- Every step has one of these effects. -/
theorem effect_of_step {a : ClusterAct P} (h : w.step cfg a = some w') : Effect cfg w a w' := by
  cases a with
  | create ids payload fate =>
    obtain rfl := Option.some.inj h
    rcases JobService.createJob_cases cfg.settings.kafkaRequestTopic ids payload fate w.db with
      hdb | ⟨hjob, hrow, hdb⟩ <;> rw [hdb]
    · exact .unchanged
    · exact .created hjob hrow
  | relay a place =>
    simp only [step, Option.bind_eq_some_iff] at h
    obtain ⟨⟨rows, r⟩, hstep, h⟩ := h
    have heff := Relays.effect_of_step hstep
    split at h
    · next hcall =>
      split_ifs at h
      exact Option.some.inj h ▸ .relayed hcall heff
    · next call hcall =>
      split_ifs at h with hret
      cases heff with
      | @published i outcome d row rest hi hf hm =>
        have hnext := Relays.next?_eq_some_iff.mpr ⟨hf, rest, hm⟩
        simp only [Relays.publishCall?, hi, Option.bind_some, hnext, Option.map_some,
          Option.some.injEq] at hcall
        subst hcall
        refine .rowPublished hi hf hm h ?_
        rintro rfl rfl
        exact hret rfl
      | _ => cases hcall
  | loop g a =>
    simp only [step, groupStep, Option.ite_none_right_eq_some, Option.map_eq_some_iff] at h
    obtain ⟨hloops, x, hx, rfl⟩ := h
    exact .looped hloops (Group.effect_of_step hx)
  | call g p a =>
    simp only [step] at h
    split at h
    · next m call hc =>
      obtain ⟨hfresh, h⟩ := Option.ite_none_right_eq_some.mp h
      obtain ⟨⟨call', db'⟩, hstep, h⟩ := Option.bind_eq_some_iff.mp h
      obtain ⟨x, hx, rfl⟩ := Option.map_eq_some_iff.mp h
      obtain ⟨t, ht, hh⟩ := Group.handling?_eq_some_iff.mp hc
      simp only [Group.step, ht, Option.bind_some, hh, Option.some.injEq] at hx
      exact hx ▸ .progressed ht hh (Call.effect_of_step hstep hfresh) hstep
    · cases h
  | answer g p now =>
    simp only [step] at h
    split at h
    · next m call hc =>
      obtain ⟨t, ht, hh⟩ := Group.handling?_eq_some_iff.mp hc
      split at h
      · next success error hout =>
        obtain ⟨x, hx, rfl⟩ := Option.map_eq_some_iff.mp h
        simp only [Group.step, ht, Option.bind_some, hh] at hx
        cases success with
        | true =>
          simp only [Message.afterHandler, if_true, Option.some.injEq] at hx
          exact hx ▸ .acknowledged ht hh hout
        | false =>
          simp only [ClusterConfig.group, Message.afterHandler_failure, Option.some.injEq] at hx
          exact hx ▸ .answered ht hh hout
      · next e hout =>
        obtain ⟨x, hx, rfl⟩ := Option.map_eq_some_iff.mp h
        simp only [Group.step, ht, Option.bind_some, hh, Option.some.injEq] at hx
        exact hx ▸ .raised ht hh hout
      · cases h
    · cases h
  | publish g p returned place =>
    simp only [step] at h
    split at h
    · next m pub hc =>
      obtain ⟨t, ht, hh⟩ := Group.handling?_eq_some_iff.mp hc
      -- the task is the same after the record landed
      have htask : ∀ {w₁ : Cluster P}, w.land cfg pub.topic pub.record place = some w₁ →
          (w₁.groups g).openTask? p = some t := fun hland => by
        rw [Group.openTask?, land_readers hland]
        exact ht
      cases returned with
      | true =>
        simp only [Bool.true_and, if_true, Option.ite_none_left_eq_some] at h
        obtain ⟨hlost, h⟩ := h
        obtain ⟨w₁, hland, h⟩ := Option.bind_eq_some_iff.mp h
        obtain ⟨x, hx, rfl⟩ := Option.map_eq_some_iff.mp h
        simp only [Group.step, htask hland, Option.bind_some, hh, Option.some.injEq] at hx
        exact hx ▸ .published ht hh hland (by simpa using hlost)
      | false =>
        simp only [Bool.false_and, Bool.false_eq_true, if_false] at h
        obtain ⟨w₁, hland, h⟩ := Option.bind_eq_some_iff.mp h
        obtain ⟨x, hx, rfl⟩ := Option.map_eq_some_iff.mp h
        simp only [Group.step, htask hland, Option.bind_some, hh, Option.some.injEq] at hx
        exact hx ▸ .publishFailed ht hh hland
    · cases h

/-- A step leaves the jobs and the log alone, writes a request, or is a step of a call. -/
theorem Effect.db_cases {a : ClusterAct P} (h : Effect cfg w a w') :
    (w'.db.jobs = w.db.jobs ∧ w'.db.events = w.db.events) ∨
    (∃ ids payload fate, a = .create ids payload fate ∧ w.db.jobs ids.jobId = none ∧
      w'.db = JobService.createdDb cfg.settings.kafkaRequestTopic ids payload w.db) ∨
    ∃ g p m call, (w.groups g).handling? p = some (m, .calling call) ∧
      call.Write cfg.settings.kafkaDownstreamTopic w.db w'.db := by
  cases h with
  | created hjob => exact .inr (.inl ⟨_, _, _, rfl, hjob, rfl⟩)
  | progressed ht hh heff =>
    exact .inr (.inr ⟨_, _, _, _, (Group.handling?_of_openTask? ht).trans hh, heff.write⟩)
  | rowPublished _ _ _ hland =>
    rw [land_db hland]
    exact .inl ⟨rfl, rfl⟩
  | published _ _ hland =>
    rw [setGroup_db, land_db hland]
    exact .inl ⟨rfl, rfl⟩
  | publishFailed _ _ hland =>
    rw [setGroup_db, land_db hland]
    exact .inl ⟨rfl, rfl⟩
  | _ => exact .inl ⟨rfl, rfl⟩

theorem Effect.row_kept {a : ClusterAct P} (h : Effect cfg w a w') {k : Uuid} {row : JobRow}
    (hrow : w.db.jobs k = some row) :
    ∃ row', w'.db.jobs k = some row' ∧ row'.requestPayload = row.requestPayload := by
  rcases h.db_cases with ⟨hj, -⟩ | ⟨ids, payload, fate, -, hjob, hdb⟩ | ⟨g, p, m, call, -, hwrite⟩
  · exact ⟨row, hj ▸ hrow, rfl⟩
  · have hne : k ≠ ids.jobId := fun heq => by rw [heq, hjob] at hrow; cases hrow
    exact ⟨row, by rw [hdb, JobService.createdDb_jobs, KeyedTable.set_of_ne _ _ hne, hrow], rfl⟩
  · exact hwrite.row_kept hrow

theorem Effect.events_prefix {a : ClusterAct P} (h : Effect cfg w a w') :
    w.db.events <+: w'.db.events := by
  rcases h.db_cases with ⟨-, he⟩ | ⟨ids, payload, fate, -, -, hdb⟩ | ⟨g, p, m, call, -, hwrite⟩
  · rw [he]
  · rw [hdb]
    exact List.prefix_append ..
  · exact hwrite.events_prefix

end Cluster

end Morphflow
