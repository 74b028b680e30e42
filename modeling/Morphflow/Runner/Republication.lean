import Morphflow.Outbox.Relay
import Morphflow.Runner.Owes

/-!
# Records and their origin

A record *originates* from the topic its `original-topic` header names, and from its own topic
without one. A row of the outbox is published without headers. What is published again after a
failure has the value of its message and originates from where the message does. A role handles
what originates from the topic it consumes.

## Main definitions

* `Publication.record`, `OutboxRow.record`, `Message.republication`.
* `LogRecord.origin`, `Message.origin`.

## Main results

* `republication_origin`: what is published again keeps its origin.
* `Message.skipped_of_origin`: a role skips no message that originates from its topic.
-/

namespace Morphflow

variable {P V H : Type*}

/-- The record a publication appends. -/
def Publication.record (pub : Publication V) : LogRecord V :=
  ⟨pub.value, rawHeaders pub.headers⟩

/-- The record that the publication of an outbox row appends. -/
def OutboxRow.record (row : OutboxRow) : LogRecord Event :=
  ⟨row.payload, rawHeaders ((headersOrNone row.headers).getD [])⟩

/-- What is published after the handler answered with a failure. -/
def Message.republication (s : RunnerSettings) (m : Message V) (error : Option String) (now : ℤ) :
    Publication V :=
  if m.spent s then m.dlqPublication s error else m.retryPublication s error now

/-- The topic a record of the given topic was first published on. -/
def LogRecord.origin (topic : String) (record : LogRecord V) : String :=
  (decodeHeaders record.headers originalTopicHeader).getD topic

/-- The topic a message was first published on. -/
def Message.origin (m : Message V) : String := (m.decoded originalTopicHeader).getD m.topic

/-- A row without headers originates from its own topic. -/
theorem OutboxRow.record_origin {row : OutboxRow} (h : row.headers = none) (topic : String) :
    row.record.origin topic = topic := by
  rw [LogRecord.origin, record, h]
  rfl

section Republication

variable {s : RunnerSettings} {m : Message V} {error : Option String} {now : ℤ}

theorem Message.afterHandler_failure :
    m.afterHandler s false error now = some (m.republication s error now) := by
  unfold afterHandler republication
  split_ifs <;> simp_all

theorem republication_value : (m.republication s error now).record.value = m.value := by
  unfold Message.republication
  split_ifs <;> rfl

theorem republication_topic :
    (m.republication s error now).topic = if m.spent s then s.kafkaDlqTopic else s.retryTopic := by
  unfold Message.republication
  split_ifs <;> rfl

/-- What is published again names the topic the message came from first. -/
theorem republication_origin (topic : String) :
    (m.republication s error now).record.origin topic = m.origin := by
  have hheader : decodeHeaders (m.republication s error now).record.headers originalTopicHeader =
      some m.origin := by
    unfold Message.republication
    split_ifs <;>
      simp [Message.dlqPublication, Message.retryPublication, Publication.record, rawHeaders,
        decodeHeaders, KeyedTable.set, retryCountHeader, originalTopicHeader, errorReasonHeader,
        retryAtHeader, Message.origin]
  rw [LogRecord.origin, hheader, Option.getD_some]

/-- A message that originates from the topic of the role is handled. -/
theorem Message.skipped_of_origin (hne : s.consumeTopic ≠ s.retryTopic)
    (h : m.origin = s.consumeTopic) : m.skipped s = false := by
  unfold skipped
  by_cases ht : m.topic = s.retryTopic
  · cases hd : m.decoded originalTopicHeader with
    | none =>
      rw [origin, hd, Option.getD_none, ht] at h
      exact absurd h.symm hne
    | some topic =>
      rw [origin, hd, Option.getD_some] at h
      simp [h]
  · simp [ht]

end Republication

namespace Group

variable {cfg : GroupConfig P V H} {g : Group P V H} {p q : P} {m : Message V}
  {record record' : LogRecord V}

theorem exists_record_of_mem (hm : m ∈ g.messages cfg p) : ∃ record ∈ g.log p,
    record.value = m.value ∧ m.topic = cfg.topicOf p ∧
      m.origin = record.origin (cfg.topicOf p) := by
  have hat := getElem?_offset hm
  rw [messagesOf_getElem?] at hat
  obtain ⟨record, hrecord, heq⟩ := Option.map_eq_some_iff.mp hat
  refine ⟨record, List.mem_of_getElem? hrecord, ?_⟩
  rw [← heq]
  exact ⟨rfl, rfl, rfl⟩

theorem mem_log_append [DecidableEq P] (h : record ∈ (g.append p record').log q) :
    record ∈ g.log q ∨ (q = p ∧ record = record') := by
  by_cases hq : q = p
  · subst hq
    simp only [append, Function.update_self, List.mem_append, List.mem_singleton] at h
    exact h.imp_right fun heq => ⟨rfl, heq⟩
  · simp only [append, Function.update_of_ne hq] at h
    exact .inl h

end Group

end Morphflow
