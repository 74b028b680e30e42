import Morphflow.Delivery.NoLostJob

/-!
# Recovery by take-over

A message that meets a live lease is answered `LEASE_HELD` and handed to the retries, so that the
job can be claimed once the lease has expired. Every such answer spends a retry, and nothing ties
the budget to the length of the lease: when the holder of the lease is dead, the last message for
the job may be moved to the dead letters while the lease is still live, and then nobody claims the
job again. As long as no message with a spent budget is refused under the lease of a dead holder,
every job without a deliverable message has ended.

## Main definitions

* `Delivery.spentClaimsHeld`.

## Main results

* `recoverable_in_time`, `not_recoverable`.
-/

namespace Morphflow

variable {P : Type*} {cfg : DeliveryConfig P} {w : Delivery P}

namespace Delivery

/-- Some handling under way holds the lease on the job with the given epoch, as a test. -/
def holderAlive [Fintype P] (w : Delivery P) (jobId : Uuid) (epoch : ℕ) : Bool :=
  decide (∃ q, (w.lease? q).any fun lease => lease.jobId == jobId && lease.epoch == epoch)

/-- The step is not the claim for a message with a spent retry count that finds the job
`PROCESSING` under an unexpired lease which no handling under way holds. -/
def spentClaimsHeld [Fintype P] (cfg : DeliveryConfig P) (w : Delivery P) : DeliveryAct P → Bool
  | .call p (.claim now _ _) =>
    match w.group.handling? p with
    | some (m, .calling c) =>
      !m.spent cfg.settings || (w.db.jobs c.event.jobId).all fun row =>
        row.status != .processing || row.claimable now ||
          w.holderAlive c.event.jobId row.leaseEpoch
    | _ => true
  | _ => true

theorem holderAlive_eq_true_iff [Fintype P] {jobId : Uuid} {epoch : ℕ} :
    w.holderAlive jobId epoch = true ↔ w.HolderAlive jobId epoch := by
  simp [holderAlive, HolderAlive, Option.any_eq_true]

variable [DecidableEq P] [Fintype P]

/-- In a run that meets the condition every job that is neither finished nor failed is carried. -/
theorem Kept.of_restrict
    (h : ((requestDelivery cfg).restrict fun w a => w.spentClaimsHeld cfg a).Reachable w) :
    w.Kept false cfg := by
  refine h.rec_on_step (P := fun w => w.Kept false cfg)
    (fun w hw k row hk => by rw [hw] at hk; cases hk) fun w a w' hr hs hstep => ?_
  obtain ⟨hok, hstep⟩ := TransitionSystem.restrict_step_eq_some.mp hstep
  refine hs.of_effect (.of_reachable hr.of_restrict) (effect_of_step hstep) ?_
  intro p now eventId fate ha m c hx hlast row hrow hst hc
  have hspent : m.spent cfg.settings = true := by simpa [Message.lastChance] using hlast
  simp only [ha, spentClaimsHeld, hx, hspent, hrow, hst, hc, Option.all_some, Bool.not_true,
    bne_self_eq_false, Bool.false_or] at hok
  exact holderAlive_eq_true_iff.mp hok

end Delivery

/-- **A crashed worker's job is recoverable, in time.** In every run in which no claim for a message
with a spent retry count finds the job `PROCESSING` under an unexpired lease that no handling under
way holds: a job without a waiting outbox row and with all its records on the two topics below the
committed offsets is `SUCCESS` or `FAILED`. -/
theorem recoverable_in_time [DecidableEq P] [Fintype P]
    (h : ((requestDelivery cfg).restrict fun w a => w.spentClaimsHeld cfg a).Reachable w)
    {jobId : Uuid} {row : JobRow} (hrow : w.db.jobs jobId = some row)
    (hrows : ∀ row ∈ w.db.outbox, row.payload.jobId = jobId → row.status ≠ .pending)
    (hrecords : ∀ p o record, (w.group.log p)[o]? = some record → record.value.jobId = jobId →
      o < w.group.committed p) : row.status = .success ∨ row.status = .failed := by
  by_contra hne
  obtain ⟨hsuccess, hfailed⟩ := not_or.mp hne
  have hcarried := Delivery.Kept.of_restrict h jobId row hrow ⟨hsuccess, .inr hfailed⟩
  rcases hcarried.exists_carrier (.of_reachable h.of_restrict) with
    ⟨r, hmem, hp, hjob⟩ | ⟨p, o, record, ho, hle, hjob⟩ | ⟨hd, -⟩
  · exact hrows r hmem hjob hp
  · exact absurd (hrecords p o record ho hjob) hle.not_gt
  · cases hd

/-! ### A take-over -/

/-- A worker dies under its lease, and after it has expired another worker finishes the job. -/
def exampleTakeOver : List (DeliveryAct Bool) :=
  exampleDeath ++
    [.loop (.spawn 1), .loop (.assign 1 false), .loop (.poll 1 1801000 fun _ => 1),
      .loop (.visit false 1801000), .call false (.claim 1801000000 11 .commits),
      .call false (.process (.ok [])), .call false (.complete ⟨12, 0, 0, 0⟩ .commits),
      .answer false 1801000, .loop (.visit false 1801000), .loop (.gather 1), .loop (.commit 1)]

/-- The runs of the concrete deployment that meet the condition. -/
def exampleInTime : TransitionSystem (Delivery Bool) (DeliveryAct Bool) :=
  (requestDelivery exampleDelivery).restrict fun w a => w.spentClaimsHeld exampleDelivery a

/-- The world after the take-over. -/
def exampleTaken : Delivery Bool :=
  (exampleInTime.run Delivery.initial exampleTakeOver).get (by decide +kernel)

/-- After the take-over nothing is left to be delivered, and the job has ended. -/
theorem recoverable_in_time_takeOver : ∃ row, exampleTaken.db.jobs 1 = some row ∧
    (row.status = .success ∨ row.status = .failed) := by
  have hreach : exampleInTime.Reachable exampleTaken :=
    TransitionSystem.Reachable.get (T := exampleInTime) exampleTakeOver rfl (by decide +kernel)
  have hrow : exampleTaken.db.jobs 1 = some ((exampleTaken.db.jobs 1).get (by decide +kernel)) :=
    (Option.some_get _).symm
  refine ⟨_, hrow, recoverable_in_time hreach hrow ?_ fun p o record ho _ => ?_⟩
  · decide +kernel
  · have hlength : ∀ p, (exampleTaken.group.log p).length ≤ exampleTaken.group.committed p := by
      decide +kernel
    exact (List.getElem?_eq_some_iff.mp ho).1.trans_le (hlength p)

/-! ### The retries run out under the lease of a dead worker -/

/-- A message is polled, refused under the lease, published again, and committed. -/
def exampleRefusal (p : Bool) (second : ℤ) (landing : Landing Bool) : List (DeliveryAct Bool) :=
  [.loop (.poll 1 (second * 1000) fun _ => 1), .loop (.visit p (second * 1000)),
    .call p (.claim (second * 1000000) 11 .commits), .call p (.readBack none),
    .answer p (second * 1000), .publish p true landing, .loop (.visit p (second * 1000)),
    .loop (.gather 1), .loop (.commit 1)]

/-- A worker dies under its lease; within a minute the three retries are spent. -/
def exampleSpent : List (DeliveryAct Bool) :=
  exampleDeath ++ [.loop (.spawn 1), .loop (.assign 1 false), .loop (.assign 1 true)] ++
    exampleRefusal false 10 (.partition true) ++ exampleRefusal true 20 (.partition true) ++
    exampleRefusal true 30 (.partition true) ++ exampleRefusal true 40 .deadLetters

/-- The world after the retries were spent. -/
def exampleLost : Delivery Bool :=
  ((requestDelivery exampleDelivery).run Delivery.initial exampleSpent).get (by decide +kernel)

/-- A minute after its worker died the job is still `PROCESSING` under a lease of half an hour, and
neither an outbox row nor a record is left to be delivered: its only message is a dead letter. -/
theorem not_recoverable : (requestDelivery exampleDelivery).Reachable exampleLost ∧
    ((exampleLost.db.jobs 1).map fun row => (row.status, row.leaseExpiresAt)) =
      some (.processing, some 1800000000) ∧
    (∀ row ∈ exampleLost.db.outbox, row.payload.jobId = 1 → row.status ≠ .pending) ∧
    (∀ p o record, (exampleLost.group.log p)[o]? = some record → record.value.jobId = 1 →
      o < exampleLost.group.committed p) ∧
    exampleLost.dlq.length = 1 := by
  refine ⟨TransitionSystem.Reachable.get (T := requestDelivery exampleDelivery) exampleSpent rfl
    (by decide +kernel), by decide +kernel, by decide +kernel, fun p o record ho _ => ?_,
    by decide +kernel⟩
  have hlength : ∀ p, (exampleLost.group.log p).length ≤ exampleLost.group.committed p := by
    decide +kernel
  exact (List.getElem?_eq_some_iff.mp ho).1.trans_le (hlength p)

end Morphflow
