import Morphflow.Pipeline.System
import Morphflow.Runner.HandleMessage

/-!
# Settings and roles of the workers

A worker process is started with an architecture mode and a role. The role decides which topics it
consumes and to which consumer group it belongs, the mode which service handles its messages. The
groups keep their topics across the modes, so that workers of different modes may follow each other,
or run beside each other, on one backlog.

Of the settings those are kept that a modelled function reads. `Settings` validates the mode and the
role, so the branch of `build_worker_role` for an unknown role is never taken and is left out.

## Main definitions

* `Settings`, `ArchitectureMode`, `WorkerRole`, `ConsumerGroupId`.
* `buildWorkerRole`, `resolveWorkerTopic`, `resolveWorkerRetryTopic`, `resolveWorkerGroupId`.
* `Settings.runner`: what the poll loop of the process reads.
* `Settings.buildTopicPartitionTargets`.

## Main results

* `Settings.runner_started`: the processes of a group agree on their topics, whatever their modes.
* `Settings.exists_partitions`: the topics of a group have partitions.
-/

namespace Morphflow

inductive ArchitectureMode
  | A
  | B
  | C
  | BC
  deriving DecidableEq

inductive WorkerRole
  | unified
  | inference
  | downstream
  deriving DecidableEq

/-- The group ids `REQUEST_GROUP_ID` and `DOWNSTREAM_GROUP_ID`. -/
inductive ConsumerGroupId
  | request
  | downstream
  deriving DecidableEq

instance : Fintype ConsumerGroupId := ⟨{.request, .downstream}, fun g => by cases g <;> decide⟩

/-- The text of a group id. -/
def ConsumerGroupId.value : ConsumerGroupId → String
  | .request => "architecture-main-worker"
  | .downstream => "architecture-main-worker-downstream"

/-- The settings of a process, with their defaults. -/
structure Settings where
  architectureMode : ArchitectureMode := .A
  workerRole : WorkerRole := .unified
  kafkaRequestTopic : String := "request-topic"
  kafkaInferenceTopic : String := "inference-topic"
  kafkaRetryTopicRequest : String := "retry-topic"
  kafkaRetryTopicDownstream : String := "retry-downstream-topic"
  kafkaDlqTopic : String := "dlq-topic"
  kafkaDownstreamTopic : String := "downstream-topic"
  kafkaPartitionsWorkerTopic : ℤ := 1
  kafkaPartitionsDownstreamTopic : ℤ := 1
  kafkaPartitionsDlq : ℤ := 1
  retryMaxCount : ℤ := 3
  retryBackoffSeconds : ℚ := 1
  retryBackoffMultiplier : ℚ := 2
  retryBackoffMaxSeconds : ℚ := 30
  workerProcessingTtlSeconds : ℤ := 1800

namespace Settings

/-- The mode splits the processing into two stages. -/
def twoStages (s : Settings) : Bool :=
  s.architectureMode == .C || s.architectureMode == .BC

end Settings

/-- `build_worker_role`: the service behind the role; `uuid` is the identifier drawn for the
worker. -/
def buildWorkerRole (s : Settings) (uuid : String) : Service :=
  match s.workerRole with
  | .unified => .worker ("worker-" ++ uuid) s.workerProcessingTtlSeconds
  | .inference =>
    if s.twoStages then .inference ("inference-" ++ uuid) s.workerProcessingTtlSeconds
    else .worker ("worker-" ++ uuid) s.workerProcessingTtlSeconds
  | .downstream =>
    if s.twoStages then .downstream
    else .worker ("worker-" ++ uuid) s.workerProcessingTtlSeconds

/-- `resolve_worker_topic`. -/
def resolveWorkerTopic (s : Settings) : String :=
  match s.workerRole with
  | .unified => s.kafkaRequestTopic
  | .inference => s.kafkaRequestTopic
  | .downstream => s.kafkaDownstreamTopic

/-- `resolve_worker_retry_topic`. -/
def resolveWorkerRetryTopic (s : Settings) : String :=
  if s.workerRole = .downstream then s.kafkaRetryTopicDownstream else s.kafkaRetryTopicRequest

/-- `resolve_worker_group_id`. -/
def resolveWorkerGroupId (s : Settings) : ConsumerGroupId :=
  if s.workerRole = .downstream then .downstream else .request

namespace Settings

/-- What the poll loop of the process reads. -/
def runner (s : Settings) : RunnerSettings where
  consumeTopic := resolveWorkerTopic s
  retryTopic := resolveWorkerRetryTopic s
  kafkaDlqTopic := s.kafkaDlqTopic
  retryMaxCount := s.retryMaxCount
  retryBackoffSeconds := s.retryBackoffSeconds
  retryBackoffMultiplier := s.retryBackoffMultiplier
  retryBackoffMaxSeconds := s.retryBackoffMaxSeconds

/-- The settings of another process of the deployment. -/
def started (s : Settings) (mode : ArchitectureMode) (role : WorkerRole) : Settings :=
  { s with architectureMode := mode, workerRole := role }

/-- What the poll loops of a group read. -/
def groupRunner (s : Settings) : ConsumerGroupId → RunnerSettings
  | .request => (s.started s.architectureMode .unified).runner
  | .downstream => (s.started s.architectureMode .downstream).runner

/-- The processes of a group agree on their topics, whatever their modes. -/
theorem runner_started (s : Settings) (mode : ArchitectureMode) (role : WorkerRole) :
    (s.started mode role).runner = s.groupRunner (resolveWorkerGroupId (s.started mode role)) := by
  cases role <;> rfl

/-- `build_topic_partition_targets`: how many partitions a topic is configured with. -/
def buildTopicPartitionTargets (s : Settings) : KeyedTable String ℤ :=
  let workerPartitions := max 1 s.kafkaPartitionsWorkerTopic
  let downstreamPartitions := max 1 s.kafkaPartitionsDownstreamTopic
  .ofList
    [(s.kafkaRequestTopic, workerPartitions),
      (s.kafkaInferenceTopic, workerPartitions),
      (s.kafkaRetryTopicRequest, workerPartitions),
      (s.kafkaRetryTopicDownstream, downstreamPartitions),
      (s.kafkaDlqTopic, max 1 s.kafkaPartitionsDlq),
      (s.kafkaDownstreamTopic, downstreamPartitions)]

/-- Every topic that a group reads or publishes to has a partition, also where topics are shared. -/
theorem exists_partitions (s : Settings) (g : ConsumerGroupId) {topic : String}
    (htopic : topic ∈
      [(s.groupRunner g).consumeTopic, (s.groupRunner g).retryTopic, s.kafkaDlqTopic]) :
    ∃ partitions, s.buildTopicPartitionTargets topic = some partitions ∧ 1 ≤ partitions := by
  refine KeyedTable.exists_of_mem_ofList ?_ fun row hrow => ?_
  · have hgroup : (s.groupRunner g).consumeTopic ∈ [s.kafkaRequestTopic, s.kafkaDownstreamTopic] ∧
        (s.groupRunner g).retryTopic ∈ [s.kafkaRetryTopicRequest, s.kafkaRetryTopicDownstream] := by
      cases g <;> simp [groupRunner, runner, started, resolveWorkerTopic, resolveWorkerRetryTopic]
    simp only [List.mem_cons, List.not_mem_nil, or_false] at htopic hgroup
    simp only [List.map_cons, List.map_nil, List.mem_cons, List.not_mem_nil, or_false]
    rcases htopic with rfl | rfl | rfl
    · exact hgroup.1.elim .inl fun h => by simp [h]
    · rcases hgroup.2 with h | h <;> simp [h]
    · simp
  · -- each of the listed numbers is at least one
    simp only [List.mem_cons, List.not_mem_nil, or_false] at hrow
    rcases hrow with rfl | rfl | rfl | rfl | rfl | rfl <;> exact le_max_left ..

/-- No topic has two purposes; only the two retry topics may be one. -/
structure TopicsDistinct (s : Settings) : Prop where
  request_ne_downstream : s.kafkaRequestTopic ≠ s.kafkaDownstreamTopic
  request_ne_retry : s.kafkaRequestTopic ≠ s.kafkaRetryTopicRequest
  request_ne_retryDownstream : s.kafkaRequestTopic ≠ s.kafkaRetryTopicDownstream
  downstream_ne_retry : s.kafkaDownstreamTopic ≠ s.kafkaRetryTopicRequest
  downstream_ne_retryDownstream : s.kafkaDownstreamTopic ≠ s.kafkaRetryTopicDownstream
  request_ne_dlq : s.kafkaRequestTopic ≠ s.kafkaDlqTopic
  downstream_ne_dlq : s.kafkaDownstreamTopic ≠ s.kafkaDlqTopic
  retry_ne_dlq : s.kafkaRetryTopicRequest ≠ s.kafkaDlqTopic
  retryDownstream_ne_dlq : s.kafkaRetryTopicDownstream ≠ s.kafkaDlqTopic

namespace TopicsDistinct

variable {s : Settings} (h : s.TopicsDistinct) (g g' : ConsumerGroupId)

include h

theorem consume_ne_retry : (s.groupRunner g).consumeTopic ≠ (s.groupRunner g').retryTopic := by
  cases g <;> cases g'
  · exact h.request_ne_retry
  · exact h.request_ne_retryDownstream
  · exact h.downstream_ne_retry
  · exact h.downstream_ne_retryDownstream

theorem consume_ne_dlq : (s.groupRunner g).consumeTopic ≠ s.kafkaDlqTopic := by
  cases g
  · exact h.request_ne_dlq
  · exact h.downstream_ne_dlq

theorem retry_ne_dlq_topic : (s.groupRunner g).retryTopic ≠ s.kafkaDlqTopic := by
  cases g
  · exact h.retry_ne_dlq
  · exact h.retryDownstream_ne_dlq

/-- A group is known by the topic it consumes. -/
theorem consume_injective
    (heq : (s.groupRunner g).consumeTopic = (s.groupRunner g').consumeTopic) : g = g' := by
  cases g <;> cases g'
  · rfl
  · exact absurd heq h.request_ne_downstream
  · exact absurd heq.symm h.request_ne_downstream
  · rfl

end TopicsDistinct

end Settings

end Morphflow
