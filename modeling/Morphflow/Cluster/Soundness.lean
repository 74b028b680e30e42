import Morphflow.Cluster.World

/-!
# What holds throughout a deployment

A record *originates* from the topic its `original-topic` header names, and from its own topic
without one. `Cluster.Sound` says that every record originates from the topic some group consumes,
on such a topic from that topic itself; that a handling is about the message in hand, and that this
message originates from the topic of the group. So the group that handles a message is the one it
was first published for, also where both groups read one retry topic.

## Main definitions

* `LogRecord.Placed`, `Cluster.Sound`.

## Main results

* `Cluster.Sound.of_effect`, `Cluster.Sound.of_reachable`.
* `Cluster.Sound.skipped_eq_false_iff`: a group handles the messages of its own topic.
-/

namespace Morphflow

variable {P : Type*}

/-- A record of the topic originates from a topic that is consumed, and from this one if it is. -/
def LogRecord.Placed (cfg : ClusterConfig P) (topic : String) (record : LogRecord Event) : Prop :=
  (∃ g, record.origin topic = (cfg.runner g).consumeTopic) ∧
    ∀ g, topic = (cfg.runner g).consumeTopic → record.origin topic = topic

/-- A handling is about the message in hand. -/
def Handling.Concerns (cfg : ClusterConfig P) (g : ConsumerGroupId) (m : Message Event) :
    Handling Event Call → Prop
  | .calling call => call.event = m.value
  | .publishing pub => ∃ error now, pub = m.republication (cfg.runner g) error now

namespace ClusterConfig

variable (cfg : ClusterConfig P) (g g' : ConsumerGroupId)

theorem consume_ne_retry : (cfg.runner g).consumeTopic ≠ (cfg.runner g').retryTopic :=
  cfg.distinct.consume_ne_retry g g'

theorem consume_ne_dlq : (cfg.runner g).consumeTopic ≠ cfg.settings.kafkaDlqTopic :=
  cfg.distinct.consume_ne_dlq g

theorem retry_ne_dlq : (cfg.runner g).retryTopic ≠ cfg.settings.kafkaDlqTopic :=
  cfg.distinct.retry_ne_dlq_topic g

variable {cfg g g'}

theorem runner_dlq : (cfg.runner g).kafkaDlqTopic = cfg.settings.kafkaDlqTopic := by
  cases g <;> rfl

theorem subscribes_iff {topic : String} : cfg.subscribes g topic = true ↔
    topic = (cfg.runner g).consumeTopic ∨ topic = (cfg.runner g).retryTopic := by
  simp [subscribes]

/-- A message that originates from the topic of the group is handled. -/
theorem skipped_of_origin {m : Message Event} (h : m.origin = (cfg.runner g).consumeTopic) :
    m.skipped (cfg.runner g) = false :=
  Message.skipped_of_origin (cfg.consume_ne_retry g g) h

end ClusterConfig

namespace Cluster

/-- The invariant of the deployment. -/
structure Sound (cfg : ClusterConfig P) (w : Cluster P) : Prop where
  groups : ∀ g, (w.groups g).Sound (cfg.group g)
  relays : w.relays.Sound w.db.outbox
  rows : ∀ row ∈ w.db.outbox, (∃ g, row.topic = (cfg.runner g).consumeTopic) ∧ row.headers = none
  records : ∀ g p, ∀ record ∈ (w.groups g).log p, record.Placed cfg (cfg.topicOf g p)
  handling : ∀ g p m x, (w.groups g).handling? p = some (m, x) →
    x.Concerns cfg g m ∧ m.origin = (cfg.runner g).consumeTopic

variable {cfg : ClusterConfig P} {w w' : Cluster P} {g : ConsumerGroupId} {p : P}
  {m : Message Event} {x : Handling Event Call} {t : PartitionTask Event Call}

/-- A group handles the messages of its own topic. -/
theorem Sound.skipped_eq_false_iff (h : w.Sound cfg)
    (hm : m ∈ (w.groups g).messages (cfg.group g) p) :
    m.skipped (cfg.runner g) = false ↔ m.origin = (cfg.runner g).consumeTopic := by
  refine ⟨fun hs => ?_, ClusterConfig.skipped_of_origin⟩
  obtain ⟨record, hrecord, -, htopic, horigin⟩ := Group.exists_record_of_mem hm
  replace htopic : m.topic = cfg.topicOf g p := htopic
  obtain ⟨⟨g', hg'⟩, hconsumed⟩ := h.records g p record hrecord
  rcases cfg.topicOf_or g p with ht | ht
  · exact (horigin.trans (hconsumed g ht)).trans ht
  · replace hg' : m.origin = _ := horigin.trans hg'
    rw [Message.skipped, htopic, show cfg.topicOf g p = (cfg.runner g).retryTopic from ht] at hs
    cases hd : m.decoded originalTopicHeader with
    | none =>
      rw [Message.origin, hd, Option.getD_none, htopic, ht] at hg'
      exact absurd hg'.symm (cfg.consume_ne_retry g' g)
    | some topic =>
      simp only [beq_self_eq_true, hd, Option.getD_some, Bool.true_and, bne_eq_false_iff_eq] at hs
      rw [Message.origin, hd, Option.getD_some, hs]

/-! ### Steps keep the invariant -/

namespace Sound

/-- Another sound group with the same logs may take the place of a group when it handles what was
handled before, or a message of its topic. -/
theorem regroup (h : w.Sound cfg) {y : Group P Event Call} (hy : y.Sound (cfg.group g))
    (hlog : y.log = (w.groups g).log)
    (hhandling : ∀ p m x, y.handling? p = some (m, x) →
      (w.groups g).handling? p = some (m, x) ∨
        (x.Concerns cfg g m ∧ m.origin = (cfg.runner g).consumeTopic)) :
    (w.setGroup g y).Sound cfg := by
  refine ⟨fun g' => ?_, h.relays, h.rows, fun g' p record hr => ?_, fun g' p m x hx => ?_⟩ <;>
    by_cases hg : g' = g
  · subst hg
    rwa [setGroup_groups_self]
  · rw [setGroup_groups_of_ne w y hg]
    exact h.groups g'
  · subst hg
    rw [setGroup_groups_self, hlog] at hr
    exact h.records g' p record hr
  · rw [setGroup_groups_of_ne w y hg] at hr
    exact h.records g' p record hr
  · subst hg
    rw [setGroup_groups_self] at hx
    exact (hhandling p m x hx).elim (h.handling g' p m x) id
  · rw [setGroup_groups_of_ne w y hg] at hx
    exact h.handling g' p m x hx

theorem withDb (h : w.Sound cfg) {db' : Db} (ho : db'.outbox = w.db.outbox) :
    ({ w with db := db' } : Cluster P).Sound cfg where
  groups := h.groups
  relays := by
    simp only [ho]
    exact h.relays
  rows := by
    simp only [ho]
    exact h.rows
  records := h.records
  handling := h.handling

theorem addRow (h : w.Sound cfg) {db' : Db} {row : OutboxRow}
    (ho : db'.outbox = w.db.outbox ++ [row]) (hid : ∀ row' ∈ w.db.outbox, row'.id ≠ row.id)
    (htopic : row.topic = (cfg.runner g).consumeTopic) (hheaders : row.headers = none) :
    ({ w with db := db' } : Cluster P).Sound cfg where
  groups := h.groups
  relays := by
    simp only [ho]
    exact h.relays.append hid
  rows row' hmem := by
    simp only [ho, List.mem_append, List.mem_singleton] at hmem
    rcases hmem with hmem | rfl
    · exact h.rows row' hmem
    · exact ⟨⟨g, htopic⟩, hheaders⟩
  records := h.records
  handling := h.handling

/-- The relays may take a step that publishes nothing, or whose record has not landed yet. -/
theorem relay (h : w.Sound cfg) {a : RelayAct} {rows : List OutboxRow} {r : Relays}
    (heff : Relays.Effect w.db.outbox w.relays a rows r) : (w.relayed rows r).Sound cfg where
  groups := h.groups
  relays := h.relays.of_effect heff
  rows row hmem := by
    obtain ⟨row₀, hmem₀, hsame, -⟩ := heff.exists_sameMessage hmem
    rw [hsame.topic, hsame.headers]
    exact h.rows row₀ hmem₀
  records := h.records
  handling := h.handling

theorem progressDb (h : w.Sound cfg) {a : CallAct} {call call' : Call} {db' : Db}
    (heff : Call.Effect cfg.settings.kafkaDownstreamTopic w.db call a call' db') :
    ({ w with db := db' } : Cluster P).Sound cfg := by
  cases heff.write with
  | handed _ _ hid => exact h.addRow (g := .downstream) rfl hid rfl rfl
  | _ => exact h.withDb rfl

variable [DecidableEq P]

theorem land (h : w.Sound cfg) {topic : String} {record : LogRecord Event} {place : RecordPlace P}
    (hrecord : record.Placed cfg topic) (hland : w.land cfg topic record place = some w') :
    w'.Sound cfg := by
  rcases land_cases hland with ⟨-, rfl⟩ | ⟨at', -, hat, rfl⟩
  · exact h
  refine ⟨fun g => ?_, h.relays, h.rows, fun g p r hr => ?_, fun g p m x hx => ?_⟩ <;>
    cases hsub : cfg.subscribes g topic
  · rw [landed_groups_of_not hsub]
    exact h.groups g
  · rw [landed_groups_of_subscribes hsub]
    exact (h.groups g).append ..
  · rw [landed_groups_of_not hsub] at hr
    exact h.records g p r hr
  · rw [landed_groups_of_subscribes hsub] at hr
    rcases Group.mem_log_append hr with hr | ⟨rfl, rfl⟩
    · exact h.records g p r hr
    · exact hat g hsub ▸ hrecord
  · rw [landed_groups_of_not hsub] at hx
    exact h.handling g p m x hx
  · rw [landed_groups_of_subscribes hsub, Group.handling?_append] at hx
    exact h.handling g p m x hx

theorem goOn (h : w.Sound cfg) {x' : Handling Event Call} (ht : (w.groups g).openTask? p = some t)
    (hh : t.handling = some (m, x)) (hx' : x'.Concerns cfg g m) :
    (w.setGroup g ((w.groups g).setTask p { t with handling := some (m, x') })).Sound cfg := by
  have horigin := (h.handling g p m x ((Group.handling?_of_openTask? ht).trans hh)).2
  refine h.regroup ((h.groups g).goOn ht hh x') rfl fun q m₁ x₁ hx₁ => ?_
  rcases Group.handling?_of_goOn ht hx₁ with ⟨-, rfl, rfl⟩ | hold
  · exact .inr ⟨hx', horigin⟩
  · exact .inl hold

theorem settle (h : w.Sound cfg) (ht : (w.groups g).openTask? p = some t)
    (hh : t.handling = some (m, x)) :
    (w.setGroup g ((w.groups g).settle p t m t.remaining)).Sound cfg :=
  h.regroup ((h.groups g).settle ht (PartitionTask.inHand_of_some hh)) rfl
    fun _ _ _ hx => .inl (Group.handling?_of_settle hx)

theorem seek (h : w.Sound cfg) (ht : (w.groups g).openTask? p = some t)
    (hh : t.handling = some (m, x)) :
    (w.setGroup g ((w.groups g).setReader p (((w.groups g).readers p).seek t m))).Sound cfg :=
  h.regroup ((h.groups g).seek ht (PartitionTask.inHand_of_some hh)) rfl
    fun _ _ _ hx => .inl (Group.handling?_of_seek hx)

variable [Fintype P]

theorem loop (h : w.Sound cfg) {a : GroupAct P Event Call} {y : Group P Event Call}
    (hloops : a.loops = true) (heff : Group.Effect (cfg.group g) (w.groups g) a y) :
    (w.setGroup g y).Sound cfg := by
  refine h.regroup ((h.groups g).of_effect heff) (heff.log_eq hloops) fun q m x hx => ?_
  rcases heff.frontier_cases (h.groups g) hloops q with ⟨-, hsame⟩ | ⟨-, hnone⟩ |
    ⟨-, -, now, i, m', -, hm', hskip, hnew⟩ | ⟨-, hnone, -⟩
  · exact .inl (hsame ▸ hx)
  · cases hnone.symm.trans hx
  · obtain ⟨rfl, rfl⟩ := Prod.mk.inj (Option.some.inj (hnew.symm.trans hx))
    refine .inr ⟨?_, (h.skipped_eq_false_iff (List.mem_of_getElem? hm')).mp hskip⟩
    show ((cfg.service g i).handleEvent m'.value).event = m'.value
    cases cfg.service g i <;> rfl
  · cases hnone.symm.trans hx

omit [DecidableEq P] [Fintype P] in
/-- What is published for a message in hand is placed where the message came from. -/
theorem placed_republished (h : w.Sound cfg) {pub : Publication Event}
    (hx : (w.groups g).handling? p = some (m, .publishing pub)) :
    pub.record.Placed cfg pub.topic := by
  obtain ⟨⟨error, now, rfl⟩, horigin⟩ := h.handling g p m _ hx
  refine ⟨⟨g, by rw [republication_origin, horigin]⟩, fun g' hg' => ?_⟩
  rw [republication_topic, ClusterConfig.runner_dlq] at hg'
  split_ifs at hg'
  · exact absurd hg'.symm (cfg.consume_ne_dlq g')
  · exact absurd hg'.symm (cfg.consume_ne_retry g' g)

/-- A step keeps the invariant. -/
theorem of_effect (h : w.Sound cfg) {a : ClusterAct P} (heff : Effect cfg w a w') :
    w'.Sound cfg := by
  cases heff with
  | unchanged => exact h
  | created hjob hrow => exact h.addRow (g := .request) rfl hrow rfl rfl
  | relayed _ heff => exact h.relay heff
  | @rowPublished i outcome place d row rest w' hi hf hm hland =>
    obtain ⟨-, hmem, -⟩ :=
      h.relays.fetched_of_mem_remaining hi (hm ▸ List.mem_cons_self : row ∈ d.remaining)
    obtain ⟨⟨g, htopic⟩, hheaders⟩ := h.rows row hmem
    have heff : w.relays.Effect w.db.outbox (.publish i outcome) _ _ := .published hi hf hm
    have horigin := OutboxRow.record_origin hheaders row.topic
    exact (h.relay heff).land ⟨⟨g, horigin.trans htopic⟩, fun _ _ => horigin⟩ hland
  | looped hloops heff => exact h.loop hloops heff
  | @progressed g p a t m call call' db' ht hh heff =>
    refine (h.progressDb heff).goOn ht hh ?_
    obtain ⟨hevent, -⟩ := h.handling g p m _ ((Group.handling?_of_openTask? ht).trans hh)
    exact heff.event_eq.trans hevent
  | acknowledged ht hh => exact h.settle ht hh
  | answered ht hh => exact h.goOn ht hh ⟨_, _, rfl⟩
  | raised ht hh => exact h.seek ht hh
  | published ht hh hland =>
    have hplaced := h.placed_republished ((Group.handling?_of_openTask? ht).trans hh)
    refine (h.land hplaced hland).settle ?_ hh
    rwa [Group.openTask?, land_readers hland]
  | publishFailed ht hh hland =>
    have hplaced := h.placed_republished ((Group.handling?_of_openTask? ht).trans hh)
    refine (h.land hplaced hland).seek ?_ hh
    rwa [Group.openTask?, land_readers hland]

theorem initial : (Cluster.initial : Cluster P).Sound cfg where
  groups g := Group.Sound.of_init ⟨_, rfl⟩
  relays := Relays.Sound.initial
  rows row hmem := by cases hmem
  records g p record hmem := by cases hmem
  handling g p m x hx := by cases hx

/-- Every reachable cluster meets the invariant. -/
theorem of_reachable (h : (clusterSystem cfg).Reachable w) : w.Sound cfg :=
  h.rec_on_step (fun _ h₀ => h₀ ▸ Sound.initial) fun _ _ _ _ hs hstep =>
    hs.of_effect (effect_of_step hstep)

end Sound

/-! ### The calls in hand -/

section Calling

variable {call : Call}

/-- Where another group with the same calls takes the place of a group, no call is new. -/
private theorem calling_setGroup {y : Group P Event Call} {g' : ConsumerGroupId}
    (hy : ∀ q m call, y.handling? q = some (m, .calling call) →
      (w.groups g).handling? q = some (m, .calling call))
    (hx : ((w.setGroup g y).groups g').handling? q = some (m, .calling call)) :
    (w.groups g').handling? q = some (m, .calling call) := by
  by_cases hg : g' = g
  · subst hg
    rw [setGroup_groups_self] at hx
    exact hy q m call hx
  · rwa [setGroup_groups_of_ne w y hg] at hx

variable [DecidableEq P]

variable [Fintype P]

/-- A call in hand was in hand before the step, has just been started, or took the step. -/
theorem Effect.calling_cases (hs : w.Sound cfg) {a : ClusterAct P} (h : Effect cfg w a w')
    (hx : (w'.groups g).handling? p = some (m, .calling call)) :
    (w.groups g).handling? p = some (m, .calling call) ∨
    (∃ now i, a = .loop g (.visit p now) ∧ (w.groups g).handling? p = none ∧
      call = (cfg.service g i).handleEvent m.value) ∨
    ∃ act call₀, a = .call g p act ∧ (w.groups g).handling? p = some (m, .calling call₀) ∧
      call₀.step cfg.settings.kafkaDownstreamTopic w.db act = some (call, w'.db) := by
  cases h with
  | rowPublished _ _ _ hland =>
    exact .inl ((Group.handling?_congr (congrFun (land_readers hland g) p)).symm.trans hx)
  | @looped g' a y hloops heff =>
    by_cases hg : g = g'
    · subst hg
      rw [setGroup_groups_self] at hx
      rcases heff.frontier_cases (hs.groups g) hloops p with ⟨-, hsame⟩ | ⟨-, hnone⟩ |
        ⟨-, hbefore, now, i, m', rfl, -, -, hnew⟩ | ⟨-, hnone, -⟩
      · exact .inl (hsame ▸ hx)
      · cases hnone.symm.trans hx
      · obtain ⟨rfl, hcall⟩ := Prod.mk.inj (Option.some.inj (hnew.symm.trans hx))
        exact .inr (.inl ⟨now, i, rfl, hbefore, (Handling.calling.inj hcall).symm⟩)
      · cases hnone.symm.trans hx
    · rw [setGroup_groups_of_ne w y hg] at hx
      exact .inl hx
  | @progressed g' p' a t m' call' call'' db' ht hh heff hstep =>
    by_cases hg : g = g'
    · subst hg
      rw [setGroup_groups_self] at hx
      rcases Group.handling?_of_goOn ht hx with ⟨rfl, rfl, hcall⟩ | hold
      · obtain rfl := Handling.calling.inj hcall
        exact .inr (.inr ⟨a, call', rfl, (Group.handling?_of_openTask? ht).trans hh, hstep⟩)
      · exact .inl hold
    · rw [setGroup_groups_of_ne _ _ hg] at hx
      exact .inl hx
  | acknowledged => exact .inl (calling_setGroup (fun _ _ _ => Group.handling?_of_settle) hx)
  | @answered g' p' now t m' call' error ht hh hout =>
    refine .inl (calling_setGroup (fun q m₁ call₁ hx₁ => ?_) hx)
    rcases Group.handling?_of_goOn ht hx₁ with ⟨-, -, hnew⟩ | hold
    · cases hnew
    · exact hold
  | raised => exact .inl (calling_setGroup (fun _ _ _ => Group.handling?_of_seek) hx)
  | @published g' p' place t m' pub w₁ ht hh hland =>
    refine .inl ((Group.handling?_congr (congrFun (land_readers hland g) p)).symm.trans
      (calling_setGroup (fun _ _ _ => Group.handling?_of_settle) hx))
  | @publishFailed g' p' place t m' pub w₁ ht hh hland =>
    refine .inl ((Group.handling?_congr (congrFun (land_readers hland g) p)).symm.trans
      (calling_setGroup (fun _ _ _ => Group.handling?_of_seek) hx))
  | _ => exact .inl hx

end Calling

end Cluster

end Morphflow
