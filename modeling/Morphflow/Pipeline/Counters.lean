import Morphflow.Pipeline.Coherence
import Morphflow.Services.LeaseHistory

/-!
# The counters of take-overs and conflicts

`JOB_LEASE_TAKEOVER_TOTAL` is to count the jobs reclaimed because the lease of the previous owner
had expired, `JOB_TRANSITION_CONFLICT_TOTAL` the conditional updates that changed no row. The
services do not see these events: they count a take-over when a claim hands out an epoch above 1,
and a conflict in some of the branches behind an update that changed no row. A claim that changed no
row is counted after the job has been read back, unless it is finished then.

Beside the counters a state keeps what happened: the take-overs, the updates that changed no row,
and the calls whose refused claim is still to be counted. No transaction raises here, and only
`WorkerService` and `InferencePipelineService` process the jobs.

## Main definitions

* `LeasedCall.countsTakeover`, `WorkerService.countsConflict`,
  `InferencePipelineService.countsConflict`: what the services count.
* `LeasedCall.takesOver`, `LeasedCall.claimMisses`, `WorkerService.completionMisses`,
  `LeasedCall.failureMisses`: what happens.
* `Metered`, `metered`, `Metered.miscountsTakeover`, `Metered.miscountsConflict`.

## Main results

* `Metered.Sound.takeover_balance`, `Metered.Sound.conflict_balance`: the step lemmas.
* `counters_exact_iff`: in which runs the counters are right.
* `not_counters_exact`: a retry that is counted as a take-over, and a failure that is fenced out.
-/

namespace Morphflow

/-! ### What the services count -/

/-- The update changes no row. -/
def updateMisses (jobs : Jobs) (jobId : Uuid) (change : StatusChange) : Bool :=
  match updateStatus jobs jobId change with
  | .ok none => true
  | _ => false

namespace LeasedCall

variable (c : LeasedCall) (db : Db) (a : LeasedAct)

/-- `JOB_LEASE_TAKEOVER_TOTAL` after a claim: the epoch is above 1. -/
def countsTakeover : Bool :=
  match c.phase, a with
  | .claiming, .claim now _ _ =>
    match claimForProcessing db.jobs c.event.jobId c.workerId c.leaseSeconds now with
    | some (lease, _) => decide (lease.epoch > 1)
    | none => false
  | _, _ => false

/-- `JOB_TRANSITION_CONFLICT_TOTAL` after a refused claim: the job that is read back is not
finished. -/
def countsHeld : Bool :=
  match c.phase, a with
  | .claimMissed, .readBack none =>
    match getJob db.jobs c.event.jobId with
    | some job => decide (job.status ≠ .success)
    | none => true
  | _, _ => false

/-! ### What happens -/

/-- A claim finds the job in such a state. -/
def claimFinds (p : Instant → JobRow → Bool) : Bool :=
  match c.phase, a with
  | .claiming, .claim now _ _ => (db.jobs c.event.jobId).any (p now)
  | _, _ => false

/-- A claim finds the job `PROCESSING` under a lease that has expired. -/
def takesOver : Bool :=
  c.claimFinds db a fun now row =>
    decide (row.status = .processing) && row.leaseExpiresAt.any fun expiresAt => expiresAt < now

/-- A claim finds the job `FAILED`. -/
def reclaimsFailed : Bool := c.claimFinds db a fun _ row => decide (row.status = .failed)

/-- A claim changes no row. -/
def refused : Bool :=
  match c.phase, a with
  | .claiming, .claim now _ _ =>
    (claimForProcessing db.jobs c.event.jobId c.workerId c.leaseSeconds now).isNone
  | _, _ => false

/-- A claim changes no row, and not because the job is `SUCCESS`. -/
def claimMisses : Bool :=
  c.refused db a && (db.jobs c.event.jobId).all fun row => decide (row.status ≠ .success)

/-- The record of a failure changes no row. -/
def failureMisses : Bool :=
  match c.phase, a with
  | .failing lease error, .fail _ _ =>
    updateMisses db.jobs c.event.jobId (c.failureChange lease error)
  | _, _ => false

/-- The job is read back after a refused claim. -/
def readsBack : Bool :=
  match c.phase, a with
  | .claimMissed, .readBack _ => true
  | _, _ => false

/-- The job is read back after a refused claim, and is finished. -/
def readsFinished : Bool :=
  c.readsBack a && (db.jobs c.event.jobId).any fun row => decide (row.status = .success)

end LeasedCall

namespace WorkerService

variable (c : LeasedCall) (db : Db) (a : LeasedAct)

/-- The record of a result changes no row. -/
def completionMisses : Bool :=
  match c.phase, a with
  | .completing lease result, .complete _ _ =>
    updateMisses db.jobs c.event.jobId (successChange c lease result)
  | _, _ => false

/-- `JOB_TRANSITION_CONFLICT_TOTAL` in `WorkerService`: behind a refused claim, and behind a result
that was fenced out. -/
def countsConflict : Bool := c.countsHeld db a || completionMisses c db a

/-- A conditional update of `WorkerService` changes no row. -/
def misses : Bool := c.claimMisses db a || completionMisses c db a || c.failureMisses db a

end WorkerService

namespace InferencePipelineService

variable (c : LeasedCall) (db : Db) (a : LeasedAct)

/-- `JOB_TRANSITION_CONFLICT_TOTAL` in `InferencePipelineService`: behind a refused claim. -/
def countsConflict : Bool := c.countsHeld db a

/-- A conditional update of `InferencePipelineService` changes no row. -/
def misses : Bool := c.claimMisses db a || c.failureMisses db a

end InferencePipelineService

/-! ### The metered services -/

/-- The call of one of the two services that process a job under a lease. -/
def Call.leased? : Call → Option LeasedCall
  | .worker c => some c
  | .inference c => some c
  | .downstream _ => none

/-- The call `i`, if it is of one of these. -/
def World.leased? (w : World) (i : ℕ) : Option LeasedCall := (w.calls i).bind Call.leased?

/-- What a service tells of the step of a call, `onWorker` and `onInference` saying what. -/
def World.tells (onWorker onInference : LeasedCall → Db → LeasedAct → Bool) (w : World) :
    Action → Bool
  | .leased i a =>
    match w.calls i with
    | some (.worker c) => onWorker c w.db a
    | some (.inference c) => onInference c w.db a
    | _ => false
  | _ => false

/-- The world, the counters of all processes together, and what happened so far. -/
structure Metered where
  world : World
  /-- `JOB_LEASE_TAKEOVER_TOTAL`. -/
  takeoverTotal : ℕ
  /-- `JOB_TRANSITION_CONFLICT_TOTAL`, over all labels. -/
  conflictTotal : ℕ
  /-- The claims that found the job `PROCESSING` under a lease that had expired. -/
  takeovers : ℕ
  /-- The conditional updates that changed no row, but for claims that found the job `SUCCESS`. -/
  missed : ℕ
  /-- The calls whose claim is one of these, and that have not read the job back. -/
  awaiting : Finset ℕ

/-- No transaction raises, and the two services process the jobs. -/
def LeasedAct.raisesNothing : LeasedAct → Bool
  | .claim _ _ fate => fate.succeeds
  | .readBack failure => failure.isNone
  | .process _ => true
  | .complete _ fate => fate.succeeds
  | .fail _ fate => fate.succeeds

/-- The steps of the runs without crashes and database errors. -/
def Action.isMetered : Action → Bool
  | .create .. => true
  | .start _ service _ =>
    match service with
    | .downstream => false
    | _ => true
  | .leased _ a => a.raisesNothing
  | .downstream .. => false
  | .renew .. => false
  | .tick _ => true

namespace Metered

/-- The calls that have not read the job back, after a step. -/
def awaitingAfter (m : Metered) : Action → Finset ℕ
  | .leased i a =>
    if m.world.tells LeasedCall.claimMisses LeasedCall.claimMisses (.leased i a) then
      insert i m.awaiting
    else if m.world.tells (fun c _ => c.readsBack) (fun c _ => c.readsBack) (.leased i a) then
      m.awaiting.erase i
    else m.awaiting
  | _ => m.awaiting

/-- The counters after a step to the world `w'`. -/
def after (m : Metered) (a : Action) (w' : World) : Metered where
  world := w'
  takeoverTotal := m.takeoverTotal +
    (m.world.tells LeasedCall.countsTakeover LeasedCall.countsTakeover a).toNat
  conflictTotal := m.conflictTotal +
    (m.world.tells WorkerService.countsConflict InferencePipelineService.countsConflict a).toNat
  takeovers := m.takeovers + (m.world.tells LeasedCall.takesOver LeasedCall.takesOver a).toNat
  missed := m.missed +
    (m.world.tells WorkerService.misses InferencePipelineService.misses a).toNat
  awaiting := m.awaitingAfter a

/-- A claim finds the job `FAILED`. -/
def miscountsTakeover (m : Metered) (a : Action) : Bool :=
  m.world.tells LeasedCall.reclaimsFailed LeasedCall.reclaimsFailed a

/-- A call whose claim is still to be counted finds the job finished. -/
def overlooks (m : Metered) : Action → Bool
  | .leased i a => decide (i ∈ m.awaiting) &&
      m.world.tells LeasedCall.readsFinished LeasedCall.readsFinished (.leased i a)
  | _ => false

/-- The record of a failure changes no row, or a call whose claim is still to be counted finds the
job finished. -/
def miscountsConflict (m : Metered) (a : Action) : Bool :=
  m.world.tells LeasedCall.failureMisses LeasedCall.failureMisses a || m.overlooks a

end Metered

/-- The two services on one store, from the empty store, with their counters at zero. -/
def metered (topics : Topics) : TransitionSystem Metered Action where
  init m := (pipeline topics).init m.world ∧ m.takeoverTotal = 0 ∧ m.conflictTotal = 0 ∧
    m.takeovers = 0 ∧ m.missed = 0 ∧ m.awaiting = ∅
  step m a := if a.isMetered then (m.world.step topics a).map (m.after a) else none

/-! ### The rows of the two services -/

/-- A row has a lease exactly while it is processed, and an epoch exactly since it was claimed. -/
structure JobRow.Tallied (row : JobRow) : Prop where
  lease : row.LeaseCoherent
  epoch : row.leaseEpoch = 0 ↔ row.status = .pending

section Rows

variable {c : LeasedCall} {db db' : Db} {row : JobRow} {k : Uuid}

theorem JobRow.Tallied.claimed (owner : String) (expiresAt : Instant) :
    (row.claimed owner expiresAt).Tallied where
  lease := by simp [LeaseCoherent]
  epoch := by simp

theorem JobRow.Tallied.released (h : row.Tallied) {change : StatusChange} {owner : String}
    (howner : row.leaseOwner = some owner) (hrelease : change.releaseLease = true)
    (hstatus : change.status = .success ∨ change.status = .failed) :
    (change.applyTo row).Tallied where
  lease := by
    rcases hstatus with hs | hs <;> simp [LeaseCoherent, StatusChange.applyTo, hrelease, hs]
  epoch := by
    have hs := h.lease.processing_of_owner howner
    have hpos : row.leaseEpoch ≠ 0 := fun h0 => by cases hs.symm.trans (h.epoch.mp h0)
    rcases hstatus with hs | hs <;> simp [hs, hpos]

theorem tallied_set {jobs : Jobs} (h : ∀ k row, jobs k = some row → row.Tallied)
    (hrow : row.Tallied) (jobId k : Uuid) {row' : JobRow}
    (hk : jobs.set jobId row k = some row') : row'.Tallied := by
  rcases KeyedTable.set_eq_some_iff.mp hk with ⟨-, rfl⟩ | ⟨-, hk⟩
  · exact hrow
  · exact h k row' hk

theorem LeasedCall.Effect.tallied {source : String} {completeTx : CompleteTx} {a : LeasedAct}
    {phase' : LeasedPhase} (h : c.Effect source completeTx db a phase' db')
    (hcomplete : ∀ lease result ids db₁, completeTx c lease result ids db = .ok (some ((), db₁)) →
      ∀ k row, db₁.jobs k = some row → row.Tallied)
    (hdb : ∀ k row, db.jobs k = some row → row.Tallied) :
    ∀ k row, db'.jobs k = some row → row.Tallied := by
  cases h with
  | claimed => exact fun k _ => tallied_set hdb (.claimed ..) _ k
  | completed _ htx => exact hcomplete _ _ _ _ htx
  | failed _ hrow happ =>
    obtain ⟨-, howner, -⟩ := LeasedCall.failureChange_applies.mp happ
    exact fun k _ => tallied_set hdb ((hdb _ _ hrow).released howner rfl (.inr rfl)) _ k
  | _ => exact hdb

theorem WorkerService.tallied_of_completeTx {lease : JobLease} {result : Dict}
    {ids : CompletionIds} (h : completeTx c lease result ids db = .ok (some ((), db')))
    (hdb : ∀ k row, db.jobs k = some row → row.Tallied) :
    ∀ k row, db'.jobs k = some row → row.Tallied := by
  obtain ⟨row, hrow, happ, rfl⟩ := recordTx_eq_some_iff.mp h
  obtain ⟨-, howner, -⟩ := WorkerService.successChange_applies.mp happ
  exact fun k _ => tallied_set hdb ((hdb _ _ hrow).released howner rfl (.inl rfl)) _ k

end Rows

/-- A step of the two services keeps the rows as they should be. -/
theorem World.Effect.tallied {topics : Topics} {w w' : World} {a : Action}
    (h : Effect topics w a w') (ha : a.isMetered = true)
    (hw : ∀ k row, w.db.jobs k = some row → row.Tallied) :
    ∀ k row, w'.db.jobs k = some row → row.Tallied := by
  cases h with
  | created =>
    refine fun k _ => tallied_set hw ⟨?_, ?_⟩ _ k
    · simp [JobRow.LeaseCoherent, JobService.newJob, Job.toRow]
    · simp [JobService.newJob, Job.toRow]
  | worker _ heff =>
    exact heff.tallied (fun _ _ _ _ htx => WorkerService.tallied_of_completeTx htx hw) hw
  | inference _ heff =>
    refine heff.tallied (fun _ _ _ _ htx => ?_) hw
    obtain rfl := InferencePipelineService.completeTx_eq_some_iff.mp htx
    exact hw
  | downstream => cases ha
  | renewed => cases ha
  | _ => exact hw

/-! ### What is counted in a step -/

section Balance

variable {c c' : LeasedCall} {db db' : Db} {a : LeasedAct} {source : String}
  {completeTx : CompleteTx}

/-- What a call that takes a step awaits, and the step. -/
theorem LeasedCall.act_cases (h : c.step source completeTx db a = some (c', db')) :
    (c.phase = .claiming ∧ ∃ now eventId fate, a = .claim now eventId fate) ∨
    (c.phase = .claimMissed ∧ ∃ failure, a = .readBack failure) ∨
    (∃ lease outcome, c.phase = .processing lease ∧ a = .process outcome) ∨
    (∃ lease result ids fate, c.phase = .completing lease result ∧ a = .complete ids fate) ∨
    ∃ lease error eventId fate, c.phase = .failing lease error ∧ a = .fail eventId fate := by
  obtain ⟨p, hstep, -⟩ := Option.map_eq_some_iff.mp h
  unfold phaseStep at hstep
  split at hstep
  · next hp => exact .inl ⟨hp, _, _, _, rfl⟩
  · next hp => exact .inr (.inl ⟨hp, _, rfl⟩)
  · next hp => exact .inr (.inl ⟨hp, _, rfl⟩)
  · next hp => exact .inr (.inr (.inl ⟨_, _, hp, rfl⟩))
  · next hp => exact .inr (.inr (.inr (.inl ⟨_, _, _, _, hp, rfl⟩)))
  · next hp => exact .inr (.inr (.inr (.inr ⟨_, _, _, _, hp, rfl⟩)))
  · cases hstep

theorem LeasedCall.refused_claim (hp : c.phase = .claiming) {now : Instant} {eventId : Uuid}
    {fate : TxFate} : c.refused db (.claim now eventId fate) = true ↔
      ∀ row, db.jobs c.event.jobId = some row → row.claimable now = false := by
  simp [refused, hp, claimForProcessing_eq_none_iff]

/-- A claim that is counted as a take-over found a row that was claimed before. -/
theorem LeasedCall.countsTakeover_claim (hp : c.phase = .claiming) {now : Instant} {eventId : Uuid}
    {fate : TxFate} : c.countsTakeover db (.claim now eventId fate) = true ↔
      ∃ row, db.jobs c.event.jobId = some row ∧ row.claimable now = true ∧ row.leaseEpoch ≠ 0 := by
  unfold countsTakeover
  simp only [hp]
  cases h : claimForProcessing db.jobs c.event.jobId c.workerId c.leaseSeconds now with
  | none =>
    have hnone := claimForProcessing_eq_none_iff.mp h
    simp only [Bool.false_eq_true, false_iff]
    rintro ⟨row, hrow, hc, -⟩
    cases (hnone row hrow).symm.trans hc
  | some p =>
    obtain ⟨row, hrow, hc, hlease, -⟩ := claimForProcessing_eq_some_iff.mp h
    simp only [hlease, hrow, Option.some.injEq, decide_eq_true_eq, exists_eq_left', hc, true_and]
    omega

/-- Of the rows that were claimed before, a claim finds those that are `FAILED`, and those under an
expired lease. -/
theorem LeasedCall.takeover_balance (hrows : ∀ k row, db.jobs k = some row → row.Tallied)
    (h : c.step source completeTx db a = some (c', db')) :
    (c.countsTakeover db a).toNat = (c.takesOver db a).toNat + (c.reclaimsFailed db a).toNat := by
  rcases act_cases h with ⟨hp, now, eventId, fate, rfl⟩ | ⟨hp, _, rfl⟩ | ⟨_, _, hp, rfl⟩ |
    ⟨_, _, _, _, hp, rfl⟩ | ⟨_, _, _, _, hp, rfl⟩
  · cases hrow : db.jobs c.event.jobId with
    | none =>
      have hcounts : c.countsTakeover db (.claim now eventId fate) = false := by
        rw [← Bool.not_eq_true, countsTakeover_claim hp, hrow]
        rintro ⟨row, ⟨⟩, -⟩
      simp [hcounts, takesOver, reclaimsFailed, claimFinds, hp, hrow]
    | some row =>
      have hcounts : c.countsTakeover db (.claim now eventId fate) =
          (row.claimable now && decide (row.leaseEpoch ≠ 0)) := by
        rw [Bool.eq_iff_iff, countsTakeover_claim hp, hrow]
        simp
      obtain ⟨hlease, hepoch⟩ := hrows _ _ hrow
      rw [hcounts]
      simp only [takesOver, reclaimsFailed, claimFinds, hp, hrow, Option.any_some]
      cases hs : row.status with
      | pending => simp [hepoch.mpr hs]
      | processing =>
        obtain ⟨o, t, -, ht, -⟩ := hlease.held hs
        have hpos : row.leaseEpoch ≠ 0 := fun h0 => by cases hs.symm.trans (hepoch.mp h0)
        have hclaimable : row.claimable now = decide (t < now) := by
          rw [Bool.eq_iff_iff, JobRow.claimable_iff, hs, ht]
          simp
        simp [hclaimable, ht, hpos]
      | success => simp [JobRow.claimable, JobRow.takeover, hs]
      | failed =>
        have hpos : row.leaseEpoch ≠ 0 := fun h0 => by cases hs.symm.trans (hepoch.mp h0)
        simp [JobRow.claimable, hs, hpos]
  all_goals simp [countsTakeover, takesOver, reclaimsFailed, claimFinds, hp]

theorem WorkerService.completing_of_completionMisses
    (h : completionMisses c db a = true) : ∃ lease result, c.phase = .completing lease result := by
  unfold completionMisses at h
  split at h
  · next hp => exact ⟨_, _, hp⟩
  · cases h

/-- A finished job that is read back is not counted, any other is. -/
theorem LeasedCall.countsHeld_readBack (hp : c.phase = .claimMissed) :
    c.countsHeld db (.readBack none) = !c.readsFinished db (.readBack none) := by
  simp only [countsHeld, readsFinished, readsBack, hp, getJob]
  cases h : db.jobs c.event.jobId with
  | none => simp
  | some row => by_cases hs : row.status = .success <;> simp [hs]

/-- Of the updates that changed no row, those of a failure are not counted; a refused claim is
counted when the job is read back, unless it is finished. -/
theorem LeasedCall.conflict_balance {awaiting : Finset ℕ} {i : ℕ} (completion : Bool)
    (h : c.step source completeTx db a = some (c', db')) (hok : a.raisesNothing = true)
    (hcompletion : completion = true → ∃ lease result, c.phase = .completing lease result)
    (hawaiting : i ∈ awaiting → c.phase = .claimMissed)
    (hfinished : c.phase = .claimMissed → i ∉ awaiting →
      ∃ row, db.jobs c.event.jobId = some row ∧ row.status = .success) :
    (c.claimMisses db a || completion || c.failureMisses db a).toNat + awaiting.card =
      (c.countsHeld db a || completion).toNat +
        (if c.claimMisses db a then insert i awaiting
          else if c.readsBack a then awaiting.erase i else awaiting).card +
        (c.failureMisses db a || (decide (i ∈ awaiting) && c.readsFinished db a)).toNat := by
  have hnotCompleting : (∀ lease result, c.phase ≠ .completing lease result) →
      completion = false := by
    intro hne
    by_contra hc
    obtain ⟨lease, result, hp⟩ := hcompletion (Bool.not_eq_false _ ▸ hc)
    exact hne lease result hp
  have hnotMem : c.phase ≠ .claimMissed → i ∉ awaiting := fun hne hmem => hne (hawaiting hmem)
  rcases act_cases h with ⟨hp, now, eventId, fate, rfl⟩ | ⟨hp, failure, rfl⟩ | ⟨_, _, hp, rfl⟩ |
    ⟨_, _, _, _, hp, rfl⟩ | ⟨_, _, _, _, hp, rfl⟩
  · have hcompl := hnotCompleting (by simp [hp])
    have hmem := hnotMem (by simp [hp])
    cases c.claimMisses db (.claim now eventId fate) <;>
      simp [hcompl, hmem, countsHeld, failureMisses, readsFinished, readsBack, hp, Nat.add_comm]
  · have hcompl := hnotCompleting (by simp [hp])
    obtain rfl : failure = none := Option.isNone_iff_eq_none.mp hok
    have hmiss : c.claimMisses db (.readBack none) = false := by simp [claimMisses, refused, hp]
    have hfailure : c.failureMisses db (.readBack none) = false := by simp [failureMisses, hp]
    have hback : c.readsBack (.readBack none) = true := by simp [readsBack, hp]
    rw [countsHeld_readBack hp]
    by_cases hmem : i ∈ awaiting
    · have hcard := Finset.card_erase_add_one hmem
      cases c.readsFinished db (.readBack none) <;>
        simp [hcompl, hmiss, hfailure, hback, hmem] <;> omega
    · obtain ⟨row, hrow, hs⟩ := hfinished hp hmem
      have hread : c.readsFinished db (.readBack none) = true := by
        simp [readsFinished, hback, hrow, hs]
      simp [hcompl, hmiss, hfailure, hback, hmem, hread]
  · have hcompl := hnotCompleting (by simp [hp])
    simp [hcompl, claimMisses, refused, failureMisses, countsHeld, readsFinished, readsBack, hp]
  · simp [claimMisses, refused, failureMisses, countsHeld, readsFinished, readsBack, hp]
  · have hcompl := hnotCompleting (by simp [hp])
    simp [hcompl, claimMisses, refused, countsHeld, readsFinished, readsBack, hp]
    omega

end Balance

/-! ### The steps of the metered services -/

/-- Only a claim leaves a call waiting to read its job back. -/
theorem LeasedCall.Effect.ne_claimMissed {c : LeasedCall} {db db' : Db} {a : LeasedAct}
    {source : String} {completeTx : CompleteTx} {phase' : LeasedPhase}
    (h : c.Effect source completeTx db a phase' db') (hp : c.phase ≠ .claiming) :
    phase' ≠ .claimMissed := by
  cases h with
  | claimed _ hp' => exact absurd hp' hp
  | refused _ hp' => exact absurd hp' hp
  | answered =>
    unfold readBack
    split
    · split <;> simp
    · simp
  | processed =>
    unfold afterProcess
    split <;> simp
  | completed _ _ hphase => rcases hphase with rfl | ⟨e, rfl⟩ <;> simp
  | failed _ _ _ hphase => rcases hphase with rfl | ⟨e, rfl⟩ <;> simp
  | _ => simp

/-- A call waits to read its job back exactly behind a refused claim. -/
theorem LeasedCall.claimMissed_iff_refused {c c' : LeasedCall} {db db' : Db} {a : LeasedAct}
    {source : String} {completeTx : CompleteTx}
    (h : c.step source completeTx db a = some (c', db')) (hok : a.raisesNothing = true) :
    c'.phase = .claimMissed ↔ c.refused db a = true := by
  by_cases hp : c.phase = .claiming
  · rcases act_cases h with ⟨-, now, eventId, fate, rfl⟩ | ⟨hp', -⟩ | ⟨_, _, hp', -⟩ |
      ⟨_, _, _, _, hp', -⟩ | ⟨_, _, _, _, hp', -⟩
    · have hnone : c.claimTx source now eventId db = .ok none ↔ _ := claimTx_eq_none_iff
      rw [refused_claim hp, ← hnone]
      obtain ⟨p, hstep, heq⟩ := Option.map_eq_some_iff.mp h
      obtain rfl := (Prod.mk.inj heq).1
      simp only [phaseStep, hp, Option.some.injEq] at hstep
      cases fate with
      | commits =>
        rw [← hstep]
        rcases c.claimTx source now eventId db with e | _ | ⟨lease, db₁⟩ <;> simp [TxFate.conclude]
      | raisesBefore e => cases hok
      | raisesAfter e => cases hok
    all_goals cases hp.symm.trans hp'
  · obtain ⟨phase', rfl, heff⟩ := effect_of_step h
    refine iff_of_false (heff.ne_claimMissed hp) ?_
    unfold refused
    split
    · next hp' => exact absurd hp' hp
    · simp

/-- A call that starts is about to claim its job. -/
theorem Service.phase_of_handleEvent {service : Service} {event : Event} {c : LeasedCall}
    (h : (service.handleEvent event).leased? = some c) : c.phase = .claiming := by
  cases service with
  | worker => exact (Option.some.inj h) ▸ rfl
  | inference => exact (Option.some.inj h) ▸ rfl
  | downstream => cases h

namespace World

variable {topics : Topics} {w w' : World} {i j : ℕ} {a : LeasedAct}

theorem leased?_goOn (w : World) (i j : ℕ) (call : Call) (db : Db) :
    (w.goOn i call db).leased? j = if j = i then call.leased? else w.leased? j := by
  unfold leased?
  by_cases hj : j = i
  · simp [hj]
  · simp [hj, KeyedTable.set_of_ne]

/-- A step under a lease is one of `WorkerService` or of `InferencePipelineService`. -/
theorem leased_cases (h : w.step topics (.leased i a) = some w') :
    (∃ c c' db', w.calls i = some (.worker c) ∧ WorkerService.step c w.db a = some (c', db') ∧
      w' = w.goOn i (.worker c') db') ∨
    ∃ c c' db', w.calls i = some (.inference c) ∧
      InferencePipelineService.step topics.downstream c w.db a = some (c', db') ∧
      w' = w.goOn i (.inference c') db' := by
  simp only [step] at h
  split at h
  · next c hi =>
    obtain ⟨⟨c', db'⟩, hstep, rfl⟩ := Option.map_eq_some_iff.mp h
    exact .inl ⟨c, c', db', hi, hstep, rfl⟩
  · next c hi =>
    obtain ⟨⟨c', db'⟩, hstep, rfl⟩ := Option.map_eq_some_iff.mp h
    exact .inr ⟨c, c', db', hi, hstep, rfl⟩
  · cases h

/-- What the step of a call does to it and to the others. -/
theorem leased_step (h : w.step topics (.leased i a) = some w') :
    ∃ source completeTx c c' db', w.leased? i = some c ∧
      c.step source completeTx w.db a = some (c', db') ∧
      ∀ j, w'.leased? j = if j = i then some c' else w.leased? j := by
  rcases leased_cases h with ⟨c, c', db', hi, hstep, rfl⟩ | ⟨c, c', db', hi, hstep, rfl⟩
  · exact ⟨_, _, c, c', db', by simp [leased?, hi, Call.leased?], hstep,
      fun j => leased?_goOn w i j (.worker c') db'⟩
  · exact ⟨_, _, c, c', db', by simp [leased?, hi, Call.leased?], hstep,
      fun j => leased?_goOn w i j (.inference c') db'⟩

theorem tells_self (f : LeasedCall → Db → LeasedAct → Bool) (w : World) (i : ℕ) (a : LeasedAct) :
    w.tells f f (.leased i a) = (w.leased? i).any fun c => f c w.db a := by
  simp only [tells, leased?]
  cases w.calls i with
  | none => rfl
  | some call => cases call <;> rfl

theorem finished_of_step {b : Action} (h : w.step topics b = some w') {jobId : Uuid}
    (hfinished : ∃ row, w.db.jobs jobId = some row ∧ row.status = .success) :
    ∃ row, w'.db.jobs jobId = some row ∧ row.status = .success :=
  finished_of_evolves (RowChange.evolves (effect_of_step h).rowChange) hfinished

end World

namespace Metered

/-- The rows are as they should be; the calls whose claim is still to be counted wait to read their
job back, and the jobs of all others that do are finished. -/
structure Sound (m : Metered) : Prop where
  rows : ∀ k row, m.world.db.jobs k = some row → row.Tallied
  awaiting : ∀ i ∈ m.awaiting, ∃ c, m.world.leased? i = some c ∧ c.phase = .claimMissed
  finished : ∀ i c, m.world.leased? i = some c → c.phase = .claimMissed → i ∉ m.awaiting →
    ∃ row, m.world.db.jobs c.event.jobId = some row ∧ row.status = .success

variable {topics : Topics} {m m' : Metered} {w' : World} {a : Action}

theorem step_eq_some_iff : (metered topics).step m a = some m' ↔
    a.isMetered = true ∧ ∃ w', m.world.step topics a = some w' ∧ m.after a w' = m' := by
  simp [metered, Option.map_eq_some_iff]

namespace Sound

variable (h : m.Sound)

include h

/-- **Step lemma.** The take-overs that are counted are those that happen, and the claims that find
the job `FAILED`. -/
theorem takeover_balance (hstep : m.world.step topics a = some w') :
    (m.world.tells LeasedCall.countsTakeover LeasedCall.countsTakeover a).toNat =
      (m.world.tells LeasedCall.takesOver LeasedCall.takesOver a).toNat +
        (m.miscountsTakeover a).toNat := by
  cases a with
  | leased i a =>
    obtain ⟨source, completeTx, c, c', db', hi, hc, -⟩ := World.leased_step hstep
    simp only [miscountsTakeover, World.tells_self, hi, Option.any_some]
    exact LeasedCall.takeover_balance h.rows hc
  | _ => rfl

/-- **Step lemma.** The updates that changed no row are counted, still to be counted, or one of
those that are not. -/
theorem conflict_balance (ha : a.isMetered = true) (hstep : m.world.step topics a = some w') :
    (m.world.tells WorkerService.misses InferencePipelineService.misses a).toNat +
        m.awaiting.card =
      (m.world.tells WorkerService.countsConflict InferencePipelineService.countsConflict a).toNat +
        (m.awaitingAfter a).card + (m.miscountsConflict a).toNat := by
  cases a with
  | leased i a =>
    have hawaiting : ∀ c, m.world.leased? i = some c → i ∈ m.awaiting →
        c.phase = .claimMissed := by
      intro c hc hmem
      obtain ⟨c', hc', hp⟩ := h.awaiting i hmem
      exact Option.some.inj (hc'.symm.trans hc) ▸ hp
    rcases World.leased_cases hstep with ⟨c, c', db', hi, hc, -⟩ | ⟨c, c', db', hi, hc, -⟩
    · have hleased : m.world.leased? i = some c := by simp [World.leased?, hi, Call.leased?]
      have hbalance := LeasedCall.conflict_balance
        (WorkerService.completionMisses c m.world.db a) hc ha
        WorkerService.completing_of_completionMisses
        (hawaiting c hleased) (h.finished i c hleased)
      simpa only [World.tells, hi, miscountsConflict, overlooks, awaitingAfter,
        WorkerService.misses, WorkerService.countsConflict] using hbalance
    · have hleased : m.world.leased? i = some c := by simp [World.leased?, hi, Call.leased?]
      have hbalance := LeasedCall.conflict_balance false hc ha
        (fun hfalse => by cases hfalse) (hawaiting c hleased) (h.finished i c hleased)
      simpa only [World.tells, hi, miscountsConflict, overlooks, awaitingAfter,
        InferencePipelineService.misses, InferencePipelineService.countsConflict,
        Bool.or_false] using hbalance
  | _ => simp [World.tells, awaitingAfter, miscountsConflict, overlooks]

/-- Behind a step under a lease, the claim of the call is still to be counted when it is one that
changed no row in this step. -/
theorem mem_awaitingAfter {i j : ℕ} {act : LeasedAct} {c c' : LeasedCall} {source : String}
    {completeTx : CompleteTx} {db' : Db} (hi : m.world.leased? i = some c)
    (hc : c.step source completeTx m.world.db act = some (c', db')) :
    j ∈ m.awaitingAfter (.leased i act) ↔
      if j = i then c.claimMisses m.world.db act = true else j ∈ m.awaiting := by
  simp only [awaitingAfter, World.tells_self, hi, Option.any_some]
  by_cases hj : j = i
  · subst hj
    rw [if_pos rfl]
    by_cases hmiss : c.claimMisses m.world.db act = true
    · simp [hmiss]
    · rw [if_neg hmiss]
      refine iff_of_false ?_ hmiss
      by_cases hback : c.readsBack act = true
      · simp [hback]
      · rw [if_neg hback]
        intro hmem
        -- a call that waits to read its job back does so in its next step
        obtain ⟨c₁, hc₁, hp⟩ := h.awaiting j hmem
        obtain rfl := Option.some.inj (hi.symm.trans hc₁)
        rcases LeasedCall.act_cases hc with ⟨hp', -⟩ | ⟨-, failure, rfl⟩ | ⟨_, _, hp', -⟩ |
          ⟨_, _, _, _, hp', -⟩ | ⟨_, _, _, _, hp', -⟩
        · cases hp.symm.trans hp'
        · exact hback (by simp [LeasedCall.readsBack, hp])
        · cases hp.symm.trans hp'
        · cases hp.symm.trans hp'
        · cases hp.symm.trans hp'
  · rw [if_neg hj]
    split_ifs <;> simp [hj]

/-- A step under a lease keeps track of the calls whose claim is still to be counted. -/
theorem leased {i : ℕ} {act : LeasedAct} (hok : act.raisesNothing = true)
    (hstep : m.world.step topics (.leased i act) = some w') :
    (∀ j ∈ m.awaitingAfter (.leased i act),
      ∃ c, w'.leased? j = some c ∧ c.phase = .claimMissed) ∧
    ∀ j c, w'.leased? j = some c → c.phase = .claimMissed →
      j ∉ m.awaitingAfter (.leased i act) →
        ∃ row, w'.db.jobs c.event.jobId = some row ∧ row.status = .success := by
  obtain ⟨source, completeTx, c, c', db', hi, hc, hleased⟩ := World.leased_step hstep
  have hphase := LeasedCall.claimMissed_iff_refused hc hok
  have hevent : c'.event = c.event := by
    obtain ⟨phase', rfl, -⟩ := LeasedCall.effect_of_step hc
    rfl
  refine ⟨fun j hj => ?_, fun j d hj hp hnot => ?_⟩
  · rw [h.mem_awaitingAfter hi hc] at hj
    rw [hleased j]
    split_ifs at hj ⊢ with hji
    · exact ⟨c', rfl, hphase.mpr ((Bool.and_eq_true _ _).mp hj).1⟩
    · exact h.awaiting j hj
  · rw [h.mem_awaitingAfter hi hc] at hnot
    rw [hleased j] at hj
    split_ifs at hj hnot with hji
    · obtain rfl := Option.some.inj hj
      rw [hevent]
      refine World.finished_of_step hstep ?_
      -- the claim was refused, and not because the job was unfinished
      rw [LeasedCall.claimMisses, hphase.mp hp, Bool.true_and] at hnot
      cases hrow : m.world.db.jobs c.event.jobId with
      | none => simp [hrow] at hnot
      | some row => exact ⟨row, rfl, by simpa [hrow] using hnot⟩
    · exact World.finished_of_step hstep (h.finished j d hj hp hnot)

theorem not_leased (hwaits : m.awaitingAfter a = m.awaiting)
    (hstep : m.world.step topics a = some w')
    (hcalls : ∀ j c, w'.leased? j = some c → m.world.leased? j = some c ∨ c.phase = .claiming)
    (hkeep : ∀ j c, m.world.leased? j = some c → w'.leased? j = some c) :
    (∀ j ∈ m.awaitingAfter a, ∃ c, w'.leased? j = some c ∧ c.phase = .claimMissed) ∧
    ∀ j c, w'.leased? j = some c → c.phase = .claimMissed → j ∉ m.awaitingAfter a →
      ∃ row, w'.db.jobs c.event.jobId = some row ∧ row.status = .success := by
  rw [hwaits]
  refine ⟨fun j hj => ?_, fun j c hj hp hnot => ?_⟩
  · obtain ⟨c, hc, hp⟩ := h.awaiting j hj
    exact ⟨c, hkeep j c hc, hp⟩
  · rcases hcalls j c hj with hj | hp'
    · exact World.finished_of_step hstep (h.finished j c hj hp hnot)
    · cases hp.symm.trans hp'

/-- **Step lemma.** Every step keeps a metered world sound. -/
theorem of_step (hs : (metered topics).step m a = some m') : m'.Sound := by
  obtain ⟨ha, w', hstep, rfl⟩ := step_eq_some_iff.mp hs
  have heff := World.effect_of_step hstep
  have hcalls : (∀ j ∈ m.awaitingAfter a,
      ∃ c, w'.leased? j = some c ∧ c.phase = .claimMissed) ∧
      ∀ j c, w'.leased? j = some c → c.phase = .claimMissed → j ∉ m.awaitingAfter a →
        ∃ row, w'.db.jobs c.event.jobId = some row ∧ row.status = .success := by
    cases a with
    | leased i act => exact h.leased ha hstep
    | start i service event =>
      cases heff with
      | unchanged => exact h.not_leased rfl hstep (fun _ _ hj => .inl hj) fun _ _ hj => hj
      | started hi =>
        refine h.not_leased rfl hstep (fun j c hj => ?_) fun j c hj => ?_
        · rw [World.leased?_goOn] at hj
          split_ifs at hj
          · exact .inr (Service.phase_of_handleEvent hj)
          · exact .inl hj
        · have hne : j ≠ i := by
            rintro rfl
            simp [World.leased?, hi] at hj
          rw [World.leased?_goOn, if_neg hne]
          exact hj
    | create ids payload fate =>
      obtain rfl := Option.some.inj hstep
      exact h.not_leased rfl hstep (fun _ _ hj => .inl hj) fun _ _ hj => hj
    | downstream => cases ha
    | renew => cases ha
    | tick now =>
      cases heff with
      | unchanged => exact h.not_leased rfl hstep (fun _ _ hj => .inl hj) fun _ _ hj => hj
      | ticked => exact h.not_leased rfl hstep (fun _ _ hj => .inl hj) fun _ _ hj => hj
  exact ⟨heff.tallied ha h.rows, hcalls.1, hcalls.2⟩

end Sound

end Metered

/-! ### Runs of the metered services -/

section Runs

variable {topics : Topics} {m m₀ : Metered} {as : List Action}

theorem Metered.sound_of_reachable (h : (metered topics).Reachable m) : m.Sound := by
  refine h.rec_on_step ?_ fun _ _ _ _ hs hstep => hs.of_step hstep
  rintro m ⟨⟨hdb, hcalls⟩, -, -, -, -, hawaiting⟩
  refine ⟨fun k row hk => ?_, fun i hi => ?_, fun i c hi => ?_⟩
  · rw [hdb] at hk
    cases hk
  · rw [hawaiting] at hi
    exact absurd hi (Finset.notMem_empty i)
  · rw [World.leased?, hcalls i] at hi
    cases hi

/-- The steps of a run that a condition excludes. -/
def excluded (topics : Topics) (p : Metered → Action → Bool) (m₀ : Metered) (as : List Action) :
    List Unit :=
  (metered topics).observe (fun m a => if p m a = false then none else some ()) m₀ as

/-- **Run lemma.** The counter of take-overs is ahead by the claims that found the job `FAILED`. -/
theorem takeoverTotal_eq (h₀ : (metered topics).init m₀)
    (hr : (metered topics).run m₀ as = some m) :
    m.takeoverTotal = m.takeovers + (excluded topics Metered.miscountsTakeover m₀ as).length := by
  refine TransitionSystem.run_observes _ (P := fun m obs => m.takeoverTotal = m.takeovers +
    obs.length) ?_ ?_ h₀ hr
  · rintro m ⟨-, htotal, -, htakeovers, -⟩
    rw [htotal, htakeovers]
    rfl
  · intro m a m' obs hreach hm hs
    obtain ⟨-, w', hstep, rfl⟩ := Metered.step_eq_some_iff.mp hs
    have hbalance := (Metered.sound_of_reachable hreach).takeover_balance hstep
    simp only [Metered.after, hbalance, hm, List.length_append]
    cases m.miscountsTakeover a <;> simp <;> omega

/-- **Run lemma.** The counter of conflicts is behind by the claims that are still to be counted,
the failures that were fenced out, and the claims of jobs that were finished in between. -/
theorem missed_eq (h₀ : (metered topics).init m₀) (hr : (metered topics).run m₀ as = some m) :
    m.missed = m.conflictTotal + m.awaiting.card +
      (excluded topics Metered.miscountsConflict m₀ as).length := by
  refine TransitionSystem.run_observes _ (P := fun m obs => m.missed = m.conflictTotal +
    m.awaiting.card + obs.length) ?_ ?_ h₀ hr
  · rintro m ⟨-, -, htotal, -, hmissed, hawaiting⟩
    rw [htotal, hmissed, hawaiting]
    rfl
  · intro m a m' obs hreach hm hs
    obtain ⟨ha, w', hstep, rfl⟩ := Metered.step_eq_some_iff.mp hs
    have hbalance := (Metered.sound_of_reachable hreach).conflict_balance ha hstep
    simp only [Metered.after, List.length_append]
    cases hmis : m.miscountsConflict a <;> rw [hmis] at hbalance <;> simp at hbalance ⊢ <;> omega

/-- **In which runs the counters are right.** The counter of take-overs is the number of take-overs
exactly when no claim of the run found its job `FAILED`. The counter of conflicts, together with the
claims still to be counted, is the number of the updates that changed no row exactly when in the run
every record of a failure changed its row, and no job of a claim still to be counted was finished
when it was read back. -/
theorem counters_exact_iff (h₀ : (metered topics).init m₀)
    (hr : (metered topics).run m₀ as = some m) :
    (m.takeoverTotal = m.takeovers ↔
      ((metered topics).restrict fun m a => m.miscountsTakeover a = false).run m₀ as = some m) ∧
    (m.conflictTotal + m.awaiting.card = m.missed ↔
      ((metered topics).restrict fun m a => m.miscountsConflict a = false).run m₀ as = some m) := by
  have htakeover := takeoverTotal_eq h₀ hr
  have hmissed := missed_eq h₀ hr
  constructor
  · rw [TransitionSystem.run_restrict_eq_some_iff, ← excluded, ← List.length_eq_zero_iff]
    exact ⟨fun heq => ⟨hr, by omega⟩, fun hnil => by omega⟩
  · rw [TransitionSystem.run_restrict_eq_some_iff, ← excluded, ← List.length_eq_zero_iff]
    exact ⟨fun heq => ⟨hr, by omega⟩, fun hnil => by omega⟩

/-- The services before the first request, their counters at zero. -/
def exampleMetered : Metered := ⟨World.initial, 0, 0, 0, 0, ∅⟩

theorem metered_init_exampleMetered (topics : Topics) :
    (metered topics).init exampleMetered :=
  ⟨pipeline_init_initial topics, rfl, rfl, rfl, rfl, rfl⟩

/-- A worker is refused while another one works, a third one takes over, and the result of the
first is fenced out. -/
def exampleConflicts : List Action :=
  let event := JobService.requestEvent exampleIds []
  [.create exampleIds [] .commits, .start 0 (.worker "worker-a" 60) event,
    .leased 0 (.claim 10 11 .commits), .start 1 (.inference "inference-b" 60) event,
    .leased 1 (.claim 20 12 .commits), .leased 1 (.readBack none),
    .start 2 (.worker "worker-c" 60) event, .leased 2 (.claim 61000000 13 .commits),
    .leased 0 (.process (.ok [])), .leased 0 (.complete { eventId := 14 } .commits)]

/-- One take-over and two conflicts. -/
theorem counters_exact_iff_takeOver : ∃ m,
    (metered ⟨"requests", "downstream"⟩).run exampleMetered exampleConflicts = some m ∧
      m.takeoverTotal = m.takeovers ∧ m.conflictTotal + m.awaiting.card = m.missed ∧
      m.takeovers = 1 ∧ m.missed = 2 := by
  let topics : Topics := ⟨"requests", "downstream"⟩
  have hr : ((metered topics).run exampleMetered exampleConflicts).isSome := rfl
  obtain ⟨htakeover, hconflict⟩ :=
    counters_exact_iff (metered_init_exampleMetered topics) (Option.some_get hr).symm
  exact ⟨_, (Option.some_get hr).symm, htakeover.mpr rfl, hconflict.mpr rfl, rfl, rfl⟩

/-- The lease of a worker expires, and its failure is fenced out; the failure of the next worker is
recorded, and a third one tries again. -/
def exampleFailures : List Action :=
  let event := JobService.requestEvent exampleIds []
  [.create exampleIds [] .commits, .start 0 (.worker "worker-a" 60) event,
    .leased 0 (.claim 10 11 .commits), .start 1 (.worker "worker-b" 60) event,
    .leased 1 (.claim 61000000 12 .commits), .leased 0 (.process (.error "out of memory")),
    .leased 0 (.fail 13 .commits), .leased 1 (.process (.error "out of memory")),
    .leased 1 (.fail 14 .commits), .start 2 (.worker "worker-c" 60) event,
    .leased 2 (.claim 62000000 15 .commits)]

/-- **A retry that is counted as a take-over, and a failure that is fenced out.** -/
theorem not_counters_exact :
    (¬ ∀ topics m, (metered topics).Reachable m → m.takeoverTotal = m.takeovers) ∧
      ¬ ∀ topics m, (metered topics).Reachable m → m.awaiting = ∅ →
        m.conflictTotal = m.missed := by
  let topics : Topics := ⟨"requests", "downstream"⟩
  have hm := TransitionSystem.Reachable.get (T := metered topics) exampleFailures
    (metered_init_exampleMetered topics) rfl
  refine ⟨fun h => ?_, fun h => ?_⟩
  · have heq : 2 = 1 := h topics _ hm
    cases heq
  · have heq : 0 = 1 := h topics _ hm rfl
    cases heq

end Runs

end Morphflow
