import Morphflow.Cluster.Soundness

/-!
# What holds of every message

A message waits in the outbox, lies in a log or is a dead letter, and it is for the group that
consumes the topic it was first published on. `Cluster.Messages` says that a predicate holds of
every message and its group. Messages come from two places only, the requests and the handovers;
what holds of these, and is kept while the store changes, holds of every message.

## Main definitions

* `Cluster.Messages`.

## Main results

* `Cluster.Messages.of_effect`, `Cluster.Messages.in_hand`.
-/

namespace Morphflow

variable {P : Type*}

namespace Cluster

/-- Every message meets `G` for the group it is for. -/
structure Messages (cfg : ClusterConfig P) (G : ConsumerGroupId → Event → Prop) (w : Cluster P) :
    Prop where
  rows : ∀ row ∈ w.db.outbox, ∀ g, row.topic = (cfg.runner g).consumeTopic → G g row.payload
  records : ∀ g' p, ∀ record ∈ (w.groups g').log p, ∀ g,
    record.origin (cfg.topicOf g' p) = (cfg.runner g).consumeTopic → G g record.value
  deadLetters : ∀ record ∈ w.dlq, ∃ g, G g record.value

variable {cfg : ClusterConfig P} {w w' : Cluster P} {g : ConsumerGroupId} {p : P}
  {m : Message Event} {x : Handling Event Call} {G G' : ConsumerGroupId → Event → Prop}

namespace Messages

theorem mono (h : w.Messages cfg G) (hmono : ∀ g e, G g e → G' g e) : w.Messages cfg G' where
  rows row hmem g htopic := hmono g _ (h.rows row hmem g htopic)
  records g' p record hmem g horigin := hmono g _ (h.records g' p record hmem g horigin)
  deadLetters record hmem := (h.deadLetters record hmem).imp fun g => hmono g _

/-- The message in hand meets `G` for its group. -/
theorem in_hand (h : w.Messages cfg G) (hs : w.Sound cfg)
    (hx : (w.groups g).handling? p = some (m, x)) : G g m.value := by
  have horigin := (hs.handling g p m x hx).2
  have hmem := List.mem_of_getElem? ((hs.groups g).handled_at_frontier hx)
  obtain ⟨record, hrecord, hvalue, -, hfrom⟩ := Group.exists_record_of_mem hmem
  exact hvalue ▸ h.records g p record hrecord g (hfrom ▸ horigin)

/-- Every message for a group meets `G`. -/
theorem of_row (h : w.Messages cfg G) (hs : w.Sound cfg) {row : OutboxRow}
    (hmem : row ∈ w.db.outbox) : ∃ g, G g row.payload := by
  obtain ⟨⟨g, htopic⟩, -⟩ := hs.rows row hmem
  exact ⟨g, h.rows row hmem g htopic⟩

theorem of_record (h : w.Messages cfg G) (hs : w.Sound cfg) {record : LogRecord Event}
    (hmem : record ∈ (w.groups g).log p) : ∃ g, G g record.value := by
  obtain ⟨⟨g', horigin⟩, -⟩ := hs.records g p record hmem
  exact ⟨g', h.records g p record hmem g' horigin⟩

/-! ### Steps -/

theorem regroup (h : w.Messages cfg G) {y : Group P Event Call}
    (hlog : y.log = (w.groups g).log) : (w.setGroup g y).Messages cfg G := by
  refine ⟨h.rows, fun g' p record hmem => ?_, h.deadLetters⟩
  by_cases hg : g' = g
  · subst hg
    rw [setGroup_groups_self, hlog] at hmem
    exact h.records g' p record hmem
  · rw [setGroup_groups_of_ne w y hg] at hmem
    exact h.records g' p record hmem

theorem withDb (h : w.Messages cfg G) {db' : Db} (ho : db'.outbox = w.db.outbox) :
    ({ w with db := db' } : Cluster P).Messages cfg G where
  rows row hmem := h.rows row (ho ▸ hmem)
  records := h.records
  deadLetters := h.deadLetters

theorem addRow (h : w.Messages cfg G) {db' : Db} {row : OutboxRow}
    (ho : db'.outbox = w.db.outbox ++ [row]) (htopic : row.topic = (cfg.runner g).consumeTopic)
    (hG : G g row.payload) : ({ w with db := db' } : Cluster P).Messages cfg G where
  rows row' hmem g' htopic' := by
    simp only [ho, List.mem_append, List.mem_singleton] at hmem
    rcases hmem with hmem | rfl
    · exact h.rows row' hmem g' htopic'
    · exact cfg.distinct.consume_injective g g' (htopic.symm.trans htopic') ▸ hG
  records := h.records
  deadLetters := h.deadLetters

theorem relay (h : w.Messages cfg G) {a : RelayAct} {rows : List OutboxRow} {r : Relays}
    (heff : Relays.Effect w.db.outbox w.relays a rows r) : (w.relayed rows r).Messages cfg G where
  rows row hmem g htopic := by
    obtain ⟨row₀, hmem₀, hsame, -⟩ := heff.exists_sameMessage hmem
    rw [hsame.topic] at htopic
    rw [hsame.payload]
    exact h.rows row₀ hmem₀ g htopic
  records := h.records
  deadLetters := h.deadLetters

variable [DecidableEq P]

theorem land (h : w.Messages cfg G) {topic : String} {record : LogRecord Event}
    {place : RecordPlace P} (horigin : record.origin topic = (cfg.runner g).consumeTopic)
    (hG : G g record.value) (hland : w.land cfg topic record place = some w') :
    w'.Messages cfg G := by
  rcases land_cases hland with ⟨-, rfl⟩ | ⟨at', -, hat, rfl⟩
  · exact h
  refine ⟨h.rows, fun g₁ q r hmem g₂ horigin₂ => ?_, fun r hmem => ?_⟩
  · cases hsub : cfg.subscribes g₁ topic
    · rw [landed_groups_of_not hsub] at hmem
      exact h.records g₁ q r hmem g₂ horigin₂
    rw [landed_groups_of_subscribes hsub] at hmem
    rcases Group.mem_log_append hmem with hmem | ⟨rfl, rfl⟩
    · exact h.records g₁ q r hmem g₂ horigin₂
    · rw [hat g₁ hsub, horigin] at horigin₂
      exact cfg.distinct.consume_injective g g₂ horigin₂ ▸ hG
  · simp only [landed] at hmem
    split_ifs at hmem
    · rcases List.mem_append.mp hmem with hmem | hmem
      · exact h.deadLetters r hmem
      · exact ⟨g, List.mem_singleton.mp hmem ▸ hG⟩
    · exact h.deadLetters r hmem

/-- What is published for a message in hand is the message again. -/
theorem republish (h : w.Messages cfg G) (hs : w.Sound cfg) {pub : Publication Event}
    {place : RecordPlace P} (hx : (w.groups g).handling? p = some (m, .publishing pub))
    (hland : w.land cfg pub.topic pub.record place = some w') : w'.Messages cfg G := by
  obtain ⟨⟨error, now, rfl⟩, horigin⟩ := hs.handling g p m _ hx
  refine h.land (g := g) ((republication_origin _).trans horigin) ?_ hland
  rw [republication_value]
  exact h.in_hand hs hx

variable [Fintype P]

/-- **Step lemma.** What holds of every message, of a new request and of a handover, and is kept by
the change of the store, holds of every message after the step. -/
theorem of_effect (h : w.Messages cfg G) (hs : w.Sound cfg) {a : ClusterAct P}
    (heff : Effect cfg w a w') (hmono : ∀ g e, G g e → G' g e)
    (hcreated : ∀ ids payload fate, a = .create ids payload fate →
      w'.db = JobService.createdDb cfg.settings.kafkaRequestTopic ids payload w.db →
      G' .request (JobService.requestEvent ids payload))
    (hhanded : ∀ g p m c lease result ids,
      (w.groups g).handling? p = some (m, .calling (.inference c)) →
      c.phase = .completing lease result →
      w'.db = InferencePipelineService.handedOverDb cfg.settings.kafkaDownstreamTopic c result ids
        w.db →
      G' .downstream (InferencePipelineService.downstreamEvent c result ids.downstreamEventId)) :
    w'.Messages cfg G' := by
  have h' := h.mono hmono
  cases heff with
  | unchanged => exact h'
  | created => exact h'.addRow (g := .request) rfl rfl (hcreated _ _ _ rfl rfl)
  | relayed _ heff => exact h'.relay heff
  | @rowPublished i outcome place d row rest w' hi hf hm hland =>
    obtain ⟨-, hmem, -⟩ :=
      hs.relays.fetched_of_mem_remaining hi (hm ▸ List.mem_cons_self : row ∈ d.remaining)
    obtain ⟨⟨g, htopic⟩, hheaders⟩ := hs.rows row hmem
    have heff : w.relays.Effect w.db.outbox (.publish i outcome) _ _ := .published hi hf hm
    exact (h'.relay heff).land (g := g) ((OutboxRow.record_origin hheaders _).trans htopic)
      (h'.rows row hmem g htopic) hland
  | looped hloops heff => exact h'.regroup (heff.log_eq hloops)
  | @progressed g p a t m call call' db' ht hh heff =>
    refine regroup (w := { w with db := db' }) ?_ rfl
    cases heff.write with
    | @handed c lease result ids hcall hp =>
      subst hcall
      exact h'.addRow (g := .downstream) rfl rfl
        (hhanded g p m c lease result ids ((Group.handling?_of_openTask? ht).trans hh) hp rfl)
    | _ => exact h'.withDb rfl
  | acknowledged => exact h'.regroup rfl
  | answered => exact h'.regroup rfl
  | raised => exact h'.regroup rfl
  | published ht hh hland =>
    exact (h'.republish hs ((Group.handling?_of_openTask? ht).trans hh) hland).regroup rfl
  | publishFailed ht hh hland =>
    exact (h'.republish hs ((Group.handling?_of_openTask? ht).trans hh) hland).regroup rfl

end Messages

end Cluster

end Morphflow
