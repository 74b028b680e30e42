import Morphflow.Domain.Models
import Morphflow.Foundation.KeyedTable

/-!
# The job table and its conditional updates

The rows of `jobs` are written by three statements only: the insertion of a new job, the
conditional update of the status (`updateStatus`), and the two statements on the lease
(`claimForProcessing`, `renewLease`). Each of the last three is one `UPDATE … WHERE … RETURNING`;
its condition decides on the latest committed row and it reports whether a row changed.

A comparison with a column that is null is not true, so a condition on `lease_owner` fails for a
row without an owner.

The columns `created_at` and `updated_at` are left out: no statement reads them.

## Main definitions

* `JobRow`, `Jobs`, `Job`.
* `StatusChange`, `updateStatus`, `claimForProcessing`, `renewLease`.

## Main results

* `updateStatus_eq_some_iff`, `updateStatus_eq_none_iff`.
* `claimForProcessing_eq_some_iff`, `claimForProcessing_eq_none_iff`.
* `renewLease_eq_some_iff`.
-/

namespace Morphflow

/-- The text a status is stored as. -/
def JobStatus.value : JobStatus → String
  | .pending => "PENDING"
  | .processing => "PROCESSING"
  | .success => "SUCCESS"
  | .failed => "FAILED"

/-- A job as the services see it. -/
structure Job where
  id : Uuid
  status : JobStatus
  requestPayload : Dict
  result : Option Dict := none
  error : Option String := none
  retryCount : ℕ := 0

/-- A row of `jobs`; its key is the identifier of the job. -/
structure JobRow where
  requestPayload : Dict
  status : JobStatus
  retryCount : ℕ := 0
  result : Option Dict := none
  errorMessage : Option String := none
  leaseOwner : Option String := none
  leaseExpiresAt : Option Instant := none
  leaseEpoch : ℕ := 0

/-- The committed rows of `jobs`. -/
abbrev Jobs := KeyedTable Uuid JobRow

/-- The job a row stands for. -/
def JobRow.toJob (id : Uuid) (row : JobRow) : Job where
  id := id
  status := row.status
  requestPayload := row.requestPayload
  result := row.result
  error := row.errorMessage
  retryCount := row.retryCount

/-- The row inserted for a job. -/
def Job.toRow (job : Job) : JobRow where
  requestPayload := job.requestPayload
  status := job.status
  retryCount := job.retryCount
  result := job.result
  errorMessage := job.error

/-- `SqlAlchemyJobRepository.add`. -/
def addJob (jobs : Jobs) (job : Job) : Jobs := jobs.set job.id job.toRow

/-- `SqlAlchemyJobRepository.get`. -/
def getJob (jobs : Jobs) (jobId : Uuid) : Option Job := (jobs jobId).map (·.toJob jobId)

theorem getJob_eq_some_iff {jobs : Jobs} {jobId : Uuid} {job : Job} :
    getJob jobs jobId = some job ↔ ∃ row, jobs jobId = some row ∧ row.toJob jobId = job := by
  simp [getJob]

theorem getJob_eq_none_iff {jobs : Jobs} {jobId : Uuid} :
    getJob jobs jobId = none ↔ jobs jobId = none := by
  simp [getJob]

@[simp] theorem JobRow.toJob_status (id : Uuid) (row : JobRow) :
    (row.toJob id).status = row.status := rfl

/-! ### The conditional update of the status -/

/-- The arguments of `update_status` after the job's identifier. -/
structure StatusChange where
  status : JobStatus
  result : Option Dict := none
  error : Option String := none
  clearError : Bool := false
  expectedStatuses : Option (List JobStatus) := none
  leaseOwner : Option String := none
  leaseEpoch : Option ℕ := none
  releaseLease : Bool := false

namespace StatusChange

/-- The statuses the update may start from. -/
def sources (c : StatusChange) : Finset JobStatus :=
  match c.expectedStatuses with
  | some statuses => statuses.toFinset
  | none => allowedSourceStatuses c.status

/-- The condition of the update on the row under the key. -/
def applies (c : StatusChange) (row : JobRow) : Bool :=
  decide (row.status ∈ c.sources) &&
    (c.leaseOwner.all fun owner => row.leaseOwner == some owner) &&
    (c.leaseEpoch.all fun epoch => row.leaseEpoch == epoch)

/-- The row with the values the update sets. -/
def applyTo (c : StatusChange) (row : JobRow) : JobRow where
  requestPayload := row.requestPayload
  status := c.status
  retryCount := row.retryCount
  result := c.result.or row.result
  errorMessage := if c.clearError then none else c.error.or row.errorMessage
  leaseOwner := if c.releaseLease then none else row.leaseOwner
  leaseExpiresAt := if c.releaseLease then none else row.leaseExpiresAt
  leaseEpoch := row.leaseEpoch

variable (c : StatusChange) (row : JobRow)

@[simp] theorem applyTo_status : (c.applyTo row).status = c.status := rfl

@[simp] theorem applyTo_leaseEpoch : (c.applyTo row).leaseEpoch = row.leaseEpoch := rfl

theorem applies_iff : c.applies row = true ↔ row.status ∈ c.sources ∧
    (∀ owner, c.leaseOwner = some owner → row.leaseOwner = some owner) ∧
    (∀ epoch, c.leaseEpoch = some epoch → row.leaseEpoch = epoch) := by
  cases ho : c.leaseOwner <;> cases he : c.leaseEpoch <;> simp [applies, ho, he, and_assoc]

end StatusChange

/-- `SqlAlchemyJobRepository.update_status`: the changed job and the new table, `none` when the
condition excluded the row. It raises when no status may be the source. -/
def updateStatus (jobs : Jobs) (jobId : Uuid) (c : StatusChange) :
    Except String (Option (Job × Jobs)) :=
  if c.sources = ∅ then
    .error s!"no allowed source status for transition to {c.status.value}"
  else
    .ok ((jobs.updateWhere jobId c.applies c.applyTo).map fun p => (p.1.toJob jobId, p.2))

/-- An update that changed a row found one that meets its condition. -/
theorem updateStatus_eq_some_iff {jobs jobs' : Jobs} {jobId : Uuid} {c : StatusChange}
    {job : Job} : updateStatus jobs jobId c = .ok (some (job, jobs')) ↔
      ∃ row, jobs jobId = some row ∧ c.applies row = true ∧
        job = (c.applyTo row).toJob jobId ∧ jobs' = jobs.set jobId (c.applyTo row) := by
  unfold updateStatus
  split_ifs with h
  · constructor
    · rintro ⟨⟩
    · rintro ⟨row, -, happ, -⟩
      have hmem := ((c.applies_iff row).mp happ).1
      rw [h] at hmem
      exact absurd hmem (Finset.notMem_empty _)
  · simp only [Except.ok.injEq, Option.map_eq_some_iff, Prod.mk.injEq, Prod.exists,
      KeyedTable.updateWhere_eq_some_iff]
    constructor
    · rintro ⟨_, _, ⟨row, hrow, happ, rfl, rfl⟩, rfl, rfl⟩
      exact ⟨row, hrow, happ, rfl, rfl⟩
    · rintro ⟨row, hrow, happ, rfl, rfl⟩
      exact ⟨_, _, ⟨row, hrow, happ, rfl, rfl⟩, rfl, rfl⟩

/-- An update that changed no row found none that meets its condition. -/
theorem updateStatus_eq_none_iff {jobs : Jobs} {jobId : Uuid} {c : StatusChange} :
    updateStatus jobs jobId c = .ok none ↔
      c.sources ≠ ∅ ∧ ∀ row, jobs jobId = some row → c.applies row = false := by
  unfold updateStatus
  split_ifs with h <;> simp [h, KeyedTable.updateWhere_eq_none_iff]

theorem updateStatus_ne_error {jobs : Jobs} {jobId : Uuid} {c : StatusChange} {e : String}
    (h : c.sources.Nonempty) : updateStatus jobs jobId c ≠ .error e := by
  simp [updateStatus, h.ne_empty]

/-! ### The lease -/

/-- A `PROCESSING` row whose lease is missing or has expired at `now`. -/
def JobRow.takeover (row : JobRow) (now : Instant) : Bool :=
  row.status == .processing && row.leaseExpiresAt.all fun expiresAt => expiresAt < now

/-- The condition of `claim_for_processing` on the row. -/
def JobRow.claimable (row : JobRow) (now : Instant) : Bool :=
  row.status == .pending || row.status == .failed || row.takeover now

/-- The row with the values `claim_for_processing` sets. -/
def JobRow.claimed (row : JobRow) (owner : String) (expiresAt : Instant) : JobRow :=
  { row with
    status := .processing
    leaseOwner := some owner
    leaseExpiresAt := some expiresAt
    leaseEpoch := row.leaseEpoch + 1 }

/-- `SqlAlchemyJobRepository.claim_for_processing` with the clock reading `now`. -/
def claimForProcessing (jobs : Jobs) (jobId : Uuid) (owner : String) (leaseSeconds : ℤ)
    (now : Instant) : Option (JobLease × Jobs) :=
  let expiresAt := now + timedelta leaseSeconds
  (jobs.updateWhere jobId (·.claimable now) (·.claimed owner expiresAt)).map fun p =>
    (⟨jobId, owner, p.1.leaseEpoch, p.1.leaseExpiresAt⟩, p.2)

/-- `SqlAlchemyJobRepository.renew_lease` with the clock reading `now`: the new table when the
lease was extended. -/
def renewLease (jobs : Jobs) (jobId : Uuid) (owner : String) (epoch : ℕ) (leaseSeconds : ℤ)
    (now : Instant) : Option Jobs :=
  let expiresAt := now + timedelta leaseSeconds
  (jobs.updateWhere jobId (fun row => row.leaseOwner == some owner && row.leaseEpoch == epoch)
    fun row => { row with leaseExpiresAt := some expiresAt }).map Prod.snd

theorem JobRow.takeover_iff {row : JobRow} {now : Instant} : row.takeover now = true ↔
    row.status = .processing ∧ ∀ t, row.leaseExpiresAt = some t → t < now := by
  cases h : row.leaseExpiresAt <;> simp [JobRow.takeover, h]

/-- A row is claimable when it is waiting, failed, or being processed under an expired lease. -/
theorem JobRow.claimable_iff {row : JobRow} {now : Instant} : row.claimable now = true ↔
    row.status = .pending ∨ row.status = .failed ∨
      (row.status = .processing ∧ ∀ t, row.leaseExpiresAt = some t → t < now) := by
  simp [JobRow.claimable, JobRow.takeover_iff, or_assoc]

/-- A row that is neither finished nor to be claimed is processed. -/
theorem JobRow.processing_of_not_claimable {row : JobRow} {now : Instant}
    (h : row.claimable now = false) (hs : row.status ≠ .success) : row.status = .processing := by
  rw [← Bool.not_eq_true, JobRow.claimable_iff] at h
  cases hst : row.status with
  | pending => exact absurd (.inl hst) h
  | processing => rfl
  | success => exact absurd hst hs
  | failed => exact absurd (.inr (.inl hst)) h

theorem JobRow.ne_success_of_claimable {row : JobRow} {now : Instant}
    (h : row.claimable now = true) : row.status ≠ .success := by
  rcases JobRow.claimable_iff.mp h with hs | hs | ⟨hs, -⟩ <;> rw [hs] <;> decide

section Claimed

variable (row : JobRow) (owner : String) (expiresAt : Instant)

@[simp] theorem JobRow.claimed_status : (row.claimed owner expiresAt).status = .processing := rfl

@[simp] theorem JobRow.claimed_leaseOwner :
    (row.claimed owner expiresAt).leaseOwner = some owner := rfl

@[simp] theorem JobRow.claimed_leaseExpiresAt :
    (row.claimed owner expiresAt).leaseExpiresAt = some expiresAt := rfl

@[simp] theorem JobRow.claimed_leaseEpoch :
    (row.claimed owner expiresAt).leaseEpoch = row.leaseEpoch + 1 := rfl

@[simp] theorem JobRow.claimed_result : (row.claimed owner expiresAt).result = row.result := rfl

@[simp] theorem JobRow.claimed_errorMessage :
    (row.claimed owner expiresAt).errorMessage = row.errorMessage := rfl

end Claimed

/-- A successful claim found a claimable row and raised its epoch. -/
theorem claimForProcessing_eq_some_iff {jobs jobs' : Jobs} {jobId : Uuid} {owner : String}
    {leaseSeconds : ℤ} {now : Instant} {lease : JobLease} :
    claimForProcessing jobs jobId owner leaseSeconds now = some (lease, jobs') ↔
      ∃ row, jobs jobId = some row ∧ row.claimable now = true ∧
        lease = ⟨jobId, owner, row.leaseEpoch + 1, some (now + timedelta leaseSeconds)⟩ ∧
        jobs' = jobs.set jobId (row.claimed owner (now + timedelta leaseSeconds)) := by
  simp only [claimForProcessing, Option.map_eq_some_iff, Prod.mk.injEq, Prod.exists,
    KeyedTable.updateWhere_eq_some_iff]
  constructor
  · rintro ⟨_, _, ⟨row, hrow, hc, rfl, rfl⟩, rfl, rfl⟩
    exact ⟨row, hrow, hc, rfl, rfl⟩
  · rintro ⟨row, hrow, hc, rfl, rfl⟩
    exact ⟨_, _, ⟨row, hrow, hc, rfl, rfl⟩, rfl, rfl⟩

/-- A claim that failed found no claimable row. -/
theorem claimForProcessing_eq_none_iff {jobs : Jobs} {jobId : Uuid} {owner : String}
    {leaseSeconds : ℤ} {now : Instant} :
    claimForProcessing jobs jobId owner leaseSeconds now = none ↔
      ∀ row, jobs jobId = some row → row.claimable now = false := by
  simp [claimForProcessing, KeyedTable.updateWhere_eq_none_iff]

/-- A successful renewal found the row under the owner and the epoch. -/
theorem renewLease_eq_some_iff {jobs jobs' : Jobs} {jobId : Uuid} {owner : String} {epoch : ℕ}
    {leaseSeconds : ℤ} {now : Instant} :
    renewLease jobs jobId owner epoch leaseSeconds now = some jobs' ↔
      ∃ row, jobs jobId = some row ∧ row.leaseOwner = some owner ∧ row.leaseEpoch = epoch ∧
        jobs' =
          jobs.set jobId { row with leaseExpiresAt := some (now + timedelta leaseSeconds) } := by
  simp only [renewLease, Option.map_eq_some_iff, Prod.exists, KeyedTable.updateWhere_eq_some_iff,
    Bool.and_eq_true, beq_iff_eq]
  constructor
  · rintro ⟨_, _, ⟨row, hrow, ⟨ho, he⟩, rfl, rfl⟩, rfl⟩
    exact ⟨row, hrow, ho, he, rfl⟩
  · rintro ⟨row, hrow, ho, he, rfl⟩
    exact ⟨_, _, ⟨row, hrow, ⟨ho, he⟩, rfl, rfl⟩, rfl⟩

end Morphflow
