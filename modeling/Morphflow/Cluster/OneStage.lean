import Morphflow.Cluster.Messages
import Morphflow.Delivery.World
import Morphflow.Foundation.Simulation
import Morphflow.Runner.Handlers

/-!
# A deployment with one stage

Where every worker of the request group runs `WorkerService`, as in the modes A and B, no job is
handed over. Every message is a request then, and the downstream group, which may read the retries
of requests on a shared retry topic, handles none of them. What is left of the deployment is the
delivery of requests: each of its steps is a step of the delivery, or none.

## Main definitions

* `ClusterConfig.OneStage`, `ClusterConfig.delivery`.
* `Cluster.OnlyRequests`, `Cluster.Delivers`.

## Main results

* `Cluster.OnlyRequests.of_reachable`: every message is a request.
* `Cluster.Delivers.step`, `Cluster.Delivers.simulation`.
* `deployment_refines_delivery`.
-/

namespace Morphflow

variable {P : Type*} {cfg : ClusterConfig P} {w w' : Cluster P} {d : Delivery P}

/-! ### The settings -/

/-- No worker of the request group runs in a mode of two stages. -/
def ClusterConfig.OneStage (cfg : ClusterConfig P) : Prop :=
  ∀ i, (cfg.process .request i).twoStages = false

/-- The delivery that the request group runs where there is one stage. -/
def ClusterConfig.delivery (cfg : ClusterConfig P) : DeliveryConfig P where
  settings := cfg.runner .request
  topicOf := cfg.topicOf .request
  workerId i := "worker-" ++ cfg.uuid .request i
  leaseSeconds i := (cfg.process .request i).workerProcessingTtlSeconds
  topicOf_or := cfg.topicOf_or .request
  consume_ne_retry := cfg.consume_ne_retry .request .request
  consume_ne_dlq := cfg.consume_ne_dlq .request
  retry_ne_dlq := cfg.retry_ne_dlq .request

namespace ClusterConfig.OneStage

theorem service_eq (h : cfg.OneStage) (i : ℕ) : cfg.service .request i =
    .worker (cfg.delivery.workerId i) (cfg.delivery.leaseSeconds i) := by
  unfold service buildWorkerRole
  simp only [h i]
  cases (cfg.process .request i).workerRole <;> rfl

/-- The request group is the group of the delivery, with its calls among the calls of any
service. -/
theorem group_eq (h : cfg.OneStage) : cfg.group .request = cfg.delivery.group.map Call.worker := by
  refine congrArg (GroupConfig.mk _ _) (funext fun i => funext fun event => ?_)
  rw [h.service_eq]
  rfl

end ClusterConfig.OneStage

namespace Cluster

/-! ### Every message is a request -/

/-- Every message is a request, and every call in hand is one of `WorkerService`. -/
structure OnlyRequests (cfg : ClusterConfig P) (w : Cluster P) : Prop where
  messages : w.Messages cfg fun g _ => g = .request
  calls : ∀ g p m call, (w.groups g).handling? p = some (m, .calling call) →
    ∃ c, call = .worker c

namespace OnlyRequests

theorem downstream_idle (h : w.OnlyRequests cfg) (hs : w.Sound cfg) (p : P) :
    (w.groups .downstream).handling? p = none := by
  cases hx : (w.groups .downstream).handling? p with
  | none => rfl
  | some x => cases h.messages.in_hand hs hx

/-- A row is published to the topic of the requests. -/
theorem row_topic (h : w.OnlyRequests cfg) (hs : w.Sound cfg) {row : OutboxRow}
    (hrow : row ∈ w.db.outbox) : row.topic = (cfg.runner .request).consumeTopic := by
  obtain ⟨⟨g, htopic⟩, -⟩ := hs.rows row hrow
  obtain rfl := h.messages.rows row hrow g htopic
  exact htopic

variable [DecidableEq P] [Fintype P]

/-- A step brings requests only. -/
theorem of_effect (hone : cfg.OneStage) (h : w.OnlyRequests cfg) (hs : w.Sound cfg)
    {a : ClusterAct P} (heff : Effect cfg w a w') : w'.OnlyRequests cfg := by
  have hmessages : w'.Messages cfg fun g _ => g = .request := by
    refine h.messages.of_effect hs heff (fun _ _ => id) (fun _ _ _ _ _ => rfl)
      fun g p m c lease result ids hx => ?_
    -- no call of the inference stage is in hand
    obtain ⟨c', hc⟩ := h.calls g p m _ hx
    cases hc
  refine ⟨hmessages, fun g p m call hx => ?_⟩
  rcases heff.calling_cases hs hx with hold | ⟨now, i, -, -, rfl⟩ | ⟨act, call₀, -, hx₀, hstep⟩
  · exact h.calls g p m call hold
  · obtain rfl := hmessages.in_hand (hs.of_effect heff) hx
    rw [hone.service_eq]
    exact ⟨_, rfl⟩
  · obtain ⟨c, rfl⟩ := h.calls g p m call₀ hx₀
    cases act with
    | leased act =>
      obtain ⟨r, -, heq⟩ := Option.map_eq_some_iff.mp hstep
      exact ⟨r.1, (Prod.mk.inj heq).1.symm⟩
    | downstream act => cases hstep

/-- Every message of a reachable deployment with one stage is a request. -/
theorem of_reachable (hone : cfg.OneStage) (h : (clusterSystem cfg).Reachable w) :
    w.OnlyRequests cfg := by
  refine h.rec_on_step (P := fun w => w.OnlyRequests cfg) (fun w h₀ => h₀ ▸ ⟨⟨?_, ?_, ?_⟩, ?_⟩)
    fun _ _ _ hr hw hstep => hw.of_effect hone (.of_reachable hr) (effect_of_step hstep)
  · exact fun _ h => absurd h List.not_mem_nil
  · exact fun _ _ _ h => absurd h List.not_mem_nil
  · exact fun _ h => absurd h List.not_mem_nil
  · rintro g p m call ⟨⟩

end OnlyRequests

/-! ### The simulation -/

/-- The deployment has the tables, the relays and the dead letters of the delivery, and its request
group is the group of the delivery. -/
structure Delivers (w : Cluster P) (d : Delivery P) : Prop where
  db : w.db = d.db
  relays : w.relays = d.relays
  group : w.groups .request = d.group.map Call.worker
  dlq : w.dlq = d.dlq

namespace Delivers

/-- What the request group has in hand the group of the delivery has in hand. -/
theorem exists_handling (h : w.Delivers d) {p : P} {m : Message Event} {x : Handling Event Call}
    (hx : (w.groups .request).handling? p = some (m, x)) :
    ∃ x₀, d.group.handling? p = some (m, x₀) ∧ x = x₀.map Call.worker := by
  rw [h.group, Group.map_handling?] at hx
  obtain ⟨⟨m₀, x₀⟩, hx₀, heq⟩ := Option.map_eq_some_iff.mp hx
  obtain ⟨rfl, rfl⟩ := Prod.mk.inj heq
  exact ⟨x₀, hx₀, rfl⟩

theorem other (h : w.Delivers d) (y : Group P Event Call) :
    (w.setGroup .downstream y).Delivers d where
  db := h.db
  relays := h.relays
  group := (setGroup_groups_of_ne w y (by decide)).trans h.group
  dlq := h.dlq

theorem withDb (h : w.Delivers d) (db : Db) :
    ({ w with db := db } : Cluster P).Delivers { d with db := db } where
  db := rfl
  relays := h.relays
  group := h.group
  dlq := h.dlq

theorem relayed (h : w.Delivers d) (rows : List OutboxRow) (r : Relays) :
    (w.relayed rows r).Delivers (d.relayed rows r) where
  db := by rw [Cluster.relayed, Delivery.relayed, h.db]
  relays := rfl
  group := h.group
  dlq := h.dlq

variable [DecidableEq P]

theorem land (h : w.Delivers d) {topic : String} {record : LogRecord Event} {place : RecordPlace P}
    (htopic : cfg.subscribes .request topic = true ∨ topic = cfg.settings.kafkaDlqTopic)
    (hland : w.land cfg topic record place = some w') :
    ∃ landing d', d.land cfg.delivery topic record landing = some d' ∧ w'.Delivers d' ∧
      landing.isLost = place.isNone := by
  rcases land_cases hland with ⟨rfl, rfl⟩ | ⟨at', rfl, hat, rfl⟩
  · exact ⟨.lost, d, rfl, h, rfl⟩
  rcases htopic with hsub | rfl
  · -- the group does not read the dead letters
    have hne : topic ≠ cfg.settings.kafkaDlqTopic := by
      rcases ClusterConfig.subscribes_iff.mp hsub with rfl | rfl
      · exact cfg.consume_ne_dlq .request
      · exact cfg.retry_ne_dlq .request
    refine ⟨.partition (at' .request), _, if_pos (hat .request hsub), ⟨h.db, h.relays, ?_, ?_⟩, rfl⟩
    · rw [landed_groups_of_subscribes hsub, h.group]
      rfl
    · exact (if_neg hne).trans h.dlq
  · have hsub : cfg.subscribes .request cfg.settings.kafkaDlqTopic = false := by
      refine Bool.eq_false_iff.mpr fun hsub => ?_
      rcases ClusterConfig.subscribes_iff.mp hsub with heq | heq
      · exact cfg.consume_ne_dlq .request heq.symm
      · exact cfg.retry_ne_dlq .request heq.symm
    refine ⟨.deadLetters, _, if_pos rfl, ⟨h.db, h.relays, ?_, ?_⟩, rfl⟩
    · rw [landed_groups_of_not hsub, h.group]
    · exact (if_pos rfl).trans (congrArg (· ++ [record]) h.dlq)

variable [Fintype P]

theorem groupStep (hone : cfg.OneStage) (h : w.Delivers d) {a : GroupAct P Event LeasedCall}
    (hstep : w.groupStep cfg .request (a.map Call.worker) = some w') :
    ∃ d', d.groupStep cfg.delivery a = some d' ∧ w'.Delivers d' := by
  rw [Cluster.groupStep, hone.group_eq, h.group, Group.step_map, Option.map_map] at hstep
  obtain ⟨g, hg, rfl⟩ := Option.map_eq_some_iff.mp hstep
  refine ⟨{ d with group := g }, ?_, h.db, h.relays, setGroup_groups_self .., h.dlq⟩
  rw [Delivery.groupStep, hg]
  rfl

theorem relay (h : w.Delivers d) (hs : w.Sound cfg) (hq : w.OnlyRequests cfg) {a : RelayAct}
    {place : RecordPlace P} (hstep : w.step cfg (.relay a place) = some w') :
    ∃ a' d', d.step cfg.delivery a' = some d' ∧ w'.Delivers d' := by
  simp only [step, Option.bind_eq_some_iff] at hstep
  obtain ⟨⟨rows, r⟩, hrelay, hstep⟩ := hstep
  have hrelay' := hrelay
  rw [h.db, h.relays] at hrelay'
  have hdelivers := h.relayed rows r
  split at hstep
  · next hcall =>
    split_ifs at hstep
    obtain rfl := Option.some.inj hstep
    rw [h.relays] at hcall
    exact ⟨.relay a .lost, _, by simp [Delivery.step, hrelay', hcall, Landing.isLost], hdelivers⟩
  · next call hcall =>
    split_ifs at hstep with hret
    -- the row that is published is a request
    have htopic : cfg.subscribes .request call.topic = true := by
      cases Relays.effect_of_step hrelay with
      | @published i outcome d' row rest hi hf hm =>
        have hnext := Relays.next?_eq_some_iff.mpr ⟨hf, rest, hm⟩
        obtain ⟨-, hmem, -⟩ :=
          hs.relays.fetched_of_mem_remaining hi (hm ▸ List.mem_cons_self : row ∈ d'.remaining)
        simp only [Relays.publishCall?, hi, Option.bind_some, hnext, Option.map_some,
          Option.some.injEq] at hcall
        subst hcall
        exact ClusterConfig.subscribes_iff.mpr (.inl (hq.row_topic hs hmem))
      | _ => cases hcall
    obtain ⟨landing, d', hland, hd', hlost⟩ := hdelivers.land (.inl htopic) hstep
    refine ⟨.relay a landing, d', ?_, hd'⟩
    rw [h.relays] at hcall
    rw [← hlost] at hret
    simp [Delivery.step, hrelay', hcall, hland, hret]

theorem call (hone : cfg.OneStage) (h : w.Delivers d) {p : P} {a : CallAct}
    (hstep : w.step cfg (.call .request p a) = some w') :
    ∃ a' d', d.step cfg.delivery a' = some d' ∧ w'.Delivers d' := by
  simp only [step] at hstep
  split at hstep
  · next m call hc =>
    obtain ⟨-, hstep⟩ := Option.ite_none_right_eq_some.mp hstep
    obtain ⟨⟨call', db'⟩, hcall, hstep⟩ := Option.bind_eq_some_iff.mp hstep
    obtain ⟨x, hx, heq⟩ := h.exists_handling hc
    cases x with
    | publishing pub => cases heq
    | calling c =>
      obtain rfl := Handling.calling.inj heq
      cases a with
      | downstream a => cases hcall
      | leased a =>
        obtain ⟨⟨c', db₁⟩, hworker, heq⟩ := Option.map_eq_some_iff.mp hcall
        obtain ⟨rfl, rfl⟩ := Prod.mk.inj heq
        obtain ⟨d', hd', hdelivers⟩ :=
          (h.withDb db₁).groupStep hone (a := .progress p c') hstep
        refine ⟨.call p a, d', ?_, hdelivers⟩
        rw [h.db] at hworker
        simp only [Delivery.step, hx, hworker, Option.bind_some]
        exact hd'
  · cases hstep

theorem answer (hone : cfg.OneStage) (h : w.Delivers d) {p : P} {now : ℤ}
    (hstep : w.step cfg (.answer .request p now) = some w') :
    ∃ a' d', d.step cfg.delivery a' = some d' ∧ w'.Delivers d' := by
  simp only [step] at hstep
  split at hstep
  · next m call hc =>
    obtain ⟨x, hx, heq⟩ := h.exists_handling hc
    cases x with
    | publishing pub => cases heq
    | calling c =>
      obtain rfl := Handling.calling.inj heq
      refine ⟨.answer p now, ?_⟩
      cases hp : c.phase with
      | returned success error =>
        simp only [Call.outcome?, LeasedPhase.outcome?, hp] at hstep
        obtain ⟨d', hd', hdelivers⟩ :=
          h.groupStep hone (a := .answer p success error now) hstep
        exact ⟨d', by simpa only [Delivery.step, hx, hp] using hd', hdelivers⟩
      | raised e =>
        simp only [Call.outcome?, LeasedPhase.outcome?, hp] at hstep
        obtain ⟨d', hd', hdelivers⟩ := h.groupStep hone (a := .raise p) hstep
        exact ⟨d', by simpa only [Delivery.step, hx, hp] using hd', hdelivers⟩
      | _ => simp [Call.outcome?, LeasedPhase.outcome?, hp] at hstep
  · cases hstep

theorem publish (hone : cfg.OneStage) (h : w.Delivers d) (hs : w.Sound cfg) {p : P}
    {returned : Bool} {place : RecordPlace P}
    (hstep : w.step cfg (.publish .request p returned place) = some w') :
    ∃ a' d', d.step cfg.delivery a' = some d' ∧ w'.Delivers d' := by
  simp only [step] at hstep
  split at hstep
  · next m pub hc =>
    obtain ⟨⟨error, now, hpub⟩, -⟩ := hs.handling .request p m _ hc
    have htopic : cfg.subscribes .request pub.topic = true ∨
        pub.topic = cfg.settings.kafkaDlqTopic := by
      rw [hpub, republication_topic, ClusterConfig.runner_dlq]
      split_ifs
      · exact .inr rfl
      · exact .inl (ClusterConfig.subscribes_iff.mpr (.inr rfl))
    obtain ⟨x, hx, heq⟩ := h.exists_handling hc
    cases x with
    | calling c => cases heq
    | publishing pub' =>
      obtain rfl := Handling.publishing.inj heq
      obtain ⟨hret, hstep⟩ := Option.ite_none_left_eq_some.mp hstep
      obtain ⟨w₁, hland, hstep⟩ := Option.bind_eq_some_iff.mp hstep
      obtain ⟨landing, d₁, hland', hd₁, hlost⟩ := h.land htopic hland
      have hmap : (if returned then GroupAct.publish p else .raise p : GroupAct P Event Call) =
          GroupAct.map Call.worker (if returned then .publish p else .raise p) := by
        cases returned <;> rfl
      rw [hmap] at hstep
      obtain ⟨d', hd', hdelivers⟩ := hd₁.groupStep hone hstep
      refine ⟨.publish p returned landing, d', ?_, hdelivers⟩
      rw [← hlost] at hret
      simp only [Delivery.step, hx, hret, hland', Option.bind_some]
      exact hd'
  · cases hstep

/-- **Step lemma.** A step of a deployment with one stage is a step of the delivery, or none. -/
theorem step (hone : cfg.OneStage) (h : w.Delivers d) (hs : w.Sound cfg)
    (hq : w.OnlyRequests cfg) {a : ClusterAct P} (hstep : w.step cfg a = some w') :
    w'.Delivers d ∨ ∃ a' d', d.step cfg.delivery a' = some d' ∧ w'.Delivers d' := by
  cases a with
  | create ids payload fate =>
    obtain rfl := Option.some.inj hstep
    refine .inr ⟨.create ids payload fate, _, rfl, ?_⟩
    rw [h.db]
    exact h.withDb _
  | relay a place => exact .inr (h.relay hs hq hstep)
  | loop g a =>
    obtain ⟨hloops, hstep⟩ := Option.ite_none_right_eq_some.mp hstep
    cases g with
    | request =>
      obtain ⟨a₀, rfl, hloops₀⟩ := GroupAct.exists_map Call.worker hloops
      obtain ⟨d', hd', hdelivers⟩ := h.groupStep hone hstep
      refine .inr ⟨.loop a₀, d', ?_, hdelivers⟩
      simpa only [Delivery.step, hloops₀, if_true] using hd'
    | downstream =>
      obtain ⟨y, -, rfl⟩ := Option.map_eq_some_iff.mp hstep
      exact .inl (h.other y)
  | call g p a =>
    cases g with
    | request => exact .inr (h.call hone hstep)
    | downstream => simp [Cluster.step, hq.downstream_idle hs] at hstep
  | answer g p now =>
    cases g with
    | request => exact .inr (h.answer hone hstep)
    | downstream => simp [Cluster.step, hq.downstream_idle hs] at hstep
  | publish g p returned place =>
    cases g with
    | request => exact .inr (h.publish hone hs hstep)
    | downstream => simp [Cluster.step, hq.downstream_idle hs] at hstep

/-- The delivery simulates a deployment with one stage. -/
theorem simulation (hone : cfg.OneStage) :
    (clusterSystem cfg).Simulation (requestDelivery cfg.delivery) Delivers where
  init w hw := ⟨Delivery.initial, rfl, hw ▸ ⟨rfl, rfl, (Group.map_initial Call.worker).symm, rfl⟩⟩
  step w a w' d hreach h hstep := by
    rcases h.step hone (.of_reachable hreach) (.of_reachable hone hreach) hstep with
      h' | ⟨a', d', hd', h'⟩
    · exact ⟨[], d, rfl, h'⟩
    · exact ⟨[a'], d', (requestDelivery cfg.delivery).run_cons_eq_some.mpr ⟨d', hd', rfl⟩, h'⟩

end Delivers

end Cluster

/-- **A deployment with one stage is a delivery of requests.** Every reachable deployment whose
request group runs `WorkerService` has the tables, the request logs and the dead letters of a
reachable delivery; and whatever the deployment goes on to do, the delivery can do. -/
theorem deployment_refines_delivery [DecidableEq P] [Fintype P] (hone : cfg.OneStage)
    (h : (clusterSystem cfg).Reachable w) :
    (∃ d, (requestDelivery cfg.delivery).Reachable d ∧ w.Delivers d) ∧
    ∀ d as w', w.Delivers d → (clusterSystem cfg).run w as = some w' →
      ∃ bs d', (requestDelivery cfg.delivery).run d bs = some d' ∧ w'.Delivers d' :=
  ⟨(Cluster.Delivers.simulation hone).reachable h,
    fun _ _ _ hR hr => (Cluster.Delivers.simulation hone).run h hR hr⟩

end Morphflow
