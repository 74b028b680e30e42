import Morphflow.Delivery.Carriers

/-!
# No job is lost

In every reachable state of the delivery every job that is not finished has a carrier: an outbox row
that waits, a record that the group has not committed, or a dead letter.

## Main results

* `no_job_lost`.
-/

namespace Morphflow

variable {P : Type*} {cfg : DeliveryConfig P} {w : Delivery P}

namespace Delivery

/-- A carried job has a waiting row, an uncommitted record, or a dead letter. -/
theorem Carried.exists_carrier {deadLetters : Bool} {jobId : Uuid} {epoch : ℕ}
    (h : w.Carried deadLetters cfg jobId epoch) (hs : w.Sound cfg) :
    (∃ row ∈ w.db.outbox, row.status = .pending ∧ row.payload.jobId = jobId) ∨
    (∃ p o record, (w.group.log p)[o]? = some record ∧ w.group.committed p ≤ o ∧
      record.value.jobId = jobId) ∨
    (deadLetters = true ∧ ∃ record ∈ w.dlq, record.value.jobId = jobId) := by
  refine h.imp (fun hr => ?_) (Or.imp_left fun hg => ?_)
  · obtain ⟨row, hmem, hp, hjob, -⟩ := hr
    exact ⟨row, hmem, hp, hjob⟩
  · exact hg.exists_record hs.group

variable [DecidableEq P] [Fintype P]

/-- Where the dead letters count, no claim loses a job. -/
theorem Kept.of_reachable (h : (requestDelivery cfg).Reachable w) : w.Kept true cfg :=
  h.rec_on_step (P := fun w => w.Kept true cfg)
    (fun w hw k row hk => by rw [hw] at hk; cases hk)
    fun _ _ _ hr hs hstep => hs.of_effect (.of_reachable hr) (effect_of_step hstep)
      fun p now eventId fate ha m c hx hlast => by
        rw [Message.lastChance] at hlast
        cases hlast

end Delivery

/-- **No job is lost in the modes A and B.** A committed job that is not finished has an outbox row
that waits, a record on the request topic or the retry topic at or behind the committed offset, or a
dead letter. -/
theorem no_job_lost [DecidableEq P] [Fintype P] (h : (requestDelivery cfg).Reachable w)
    {jobId : Uuid} {row : JobRow} (hrow : w.db.jobs jobId = some row)
    (hne : row.status ≠ .success) :
    (∃ row ∈ w.db.outbox, row.status = .pending ∧ row.payload.jobId = jobId) ∨
    (∃ p o record, (w.group.log p)[o]? = some record ∧ w.group.committed p ≤ o ∧
      record.value.jobId = jobId) ∨
    (∃ record ∈ w.dlq, record.value.jobId = jobId) := by
  have hcarried := Delivery.Kept.of_reachable h jobId row hrow ⟨hne, .inl rfl⟩
  exact (hcarried.exists_carrier (.of_reachable h)).imp_right (Or.imp_right And.right)

/-! ### A worker that dies under its lease -/

/-- A partition of the request topic and one of the retry topic, three retries, and workers with a
lease of half an hour. -/
def exampleDelivery : DeliveryConfig Bool where
  settings := exampleSettings 3
  topicOf retry := if retry then "retry-topic" else "request-topic"
  workerId i := if i = 0 then "worker-a" else "worker-b"
  leaseSeconds _ := 1800
  topicOf_or p := by cases p <;> decide
  consume_ne_retry := by decide
  consume_ne_dlq := by decide
  retry_ne_dlq := by decide

/-- A request is written and published, and a worker dies after its claim. -/
def exampleDeath : List (DeliveryAct Bool) :=
  [.create ⟨1, 2, 3, 4, 5⟩ [("request", .obj [])] .commits, .relay (.fetch 0 100) .lost,
    .relay (.publish 0 (.ok ())) (.partition false), .relay (.commit 0 0) .lost, .loop (.spawn 0),
    .loop (.assign 0 false), .loop (.poll 0 0 fun _ => 1), .loop (.visit false 0),
    .call false (.claim 0 10 .commits), .loop (.crash 0)]

/-- The world after the death of the worker. -/
def exampleDead : Delivery Bool :=
  ((requestDelivery exampleDelivery).run Delivery.initial exampleDeath).get (by decide)

/-- After the death of the worker the job is `PROCESSING`, and it has a carrier. -/
theorem no_job_lost_dead : ∃ row, exampleDead.db.jobs 1 = some row ∧ row.status = .processing ∧
    ((∃ row ∈ exampleDead.db.outbox, row.status = .pending ∧ row.payload.jobId = 1) ∨
      (∃ p o record, (exampleDead.group.log p)[o]? = some record ∧
        exampleDead.group.committed p ≤ o ∧ record.value.jobId = 1) ∨
      (∃ record ∈ exampleDead.dlq, record.value.jobId = 1)) := by
  have hreach : (requestDelivery exampleDelivery).Reachable exampleDead :=
    TransitionSystem.Reachable.get (T := requestDelivery exampleDelivery) exampleDeath rfl
      (by decide)
  have hrow : exampleDead.db.jobs 1 = some ((exampleDead.db.jobs 1).get (by decide)) :=
    (Option.some_get _).symm
  exact ⟨_, hrow, by decide, no_job_lost hreach hrow (by decide)⟩

end Morphflow
