import Morphflow.Services.LeasedService
import Morphflow.Foundation.FencedHolders

/-!
# Calls as holders of leases

A call that claimed a job holds the lease until it returns or raises. Seen as agents, the calls are
disciplined holders of fencing tokens: `LeasedCall.Effect.disciplined` is the step lemma, for calls
of any index type and for any knowledge `valid` of a current holder about its row that a claim
establishes and a completion keeps.

## Main definitions

* `jobFencing`.

## Main results

* `LeasedCall.Effect.disciplined`.
-/

namespace Morphflow

/-- Leases on the rows of `jobs`, fenced by the epoch. -/
def jobFencing (valid : JobLease → JobRow → Prop) : FencingScheme Uuid JobRow JobLease where
  epoch row := row.leaseEpoch
  key lease := lease.jobId
  token lease := lease.epoch
  valid := valid

namespace LeasedCall

/-- The lease of a call is for the job of its event. -/
def LeaseNamed (c : LeasedCall) : Prop :=
  ∀ lease, c.lease? = some lease → lease.jobId = c.event.jobId

variable {source : String} {completeTx : CompleteTx} {c : LeasedCall} {db db' : Db}
  {a : LeasedAct} {phase' : LeasedPhase}

theorem lease?_readBack : ({ c with phase := c.readBack db } : LeasedCall).lease? = none := by
  unfold readBack
  split
  · split_ifs <;> rfl
  · rfl

theorem lease?_afterProcess {lease : JobLease} {outcome : Except String Dict} :
    ({ c with phase := c.afterProcess lease outcome } : LeasedCall).lease? = some lease := by
  unfold afterProcess
  split <;> rfl

/-- A step leaves the call with the lease it had, with none, or with the one it was handed. -/
theorem Effect.lease? (h : c.Effect source completeTx db a phase' db') {lease : JobLease}
    (hl : ({ c with phase := phase' } : LeasedCall).lease? = some lease) :
    c.lease? = some lease ∨ ∃ row now, lease = c.leaseOn row now := by
  cases h with
  | @claimed now _ _ row _ _ _ _ _ hphase =>
    rcases hphase with rfl | ⟨e, rfl⟩
    · exact .inr ⟨row, now, (Option.some.inj hl).symm⟩
    · cases hl
  | refused => cases hl
  | answered => cases lease?_readBack.symm.trans hl
  | processed hp =>
    left
    rw [lease?_afterProcess] at hl
    rw [LeasedCall.lease?, hp]
    exact hl
  | completed hp _ hphase =>
    rcases hphase with rfl | ⟨e, rfl⟩
    · cases hl
    · left
      rw [LeasedCall.lease?, hp]
      exact hl
  | rolledBack => cases hl
  | notCompleted hp =>
    left
    rw [LeasedCall.lease?, hp]
    exact hl
  | failed _ _ _ hphase => rcases hphase with rfl | ⟨e, rfl⟩ <;> cases hl
  | fencedOut => cases hl
  | broke => cases hl

/-- A lease keeps naming the job of the event. -/
theorem Effect.leaseNamed (h : c.Effect source completeTx db a phase' db') (hc : c.LeaseNamed) :
    ({ c with phase := phase' } : LeasedCall).LeaseNamed := by
  intro lease hl
  rcases h.lease? hl with hl | ⟨row, now, rfl⟩
  · exact hc lease hl
  · rfl

/-- A completion leaves the rows as they are, or rewrites the row of the job, keeping its epoch, to
one of which every lease is valid. -/
def KeepsValid (valid : JobLease → JobRow → Prop) (c : LeasedCall) (completeTx : CompleteTx)
    (db : Db) : Prop :=
  ∀ lease result ids db₁, completeTx c lease result ids db = .ok (some ((), db₁)) →
    db₁.jobs = db.jobs ∨ ∃ row row', db.jobs c.event.jobId = some row ∧
      db₁.jobs = db.jobs.set c.event.jobId row' ∧ row'.leaseEpoch = row.leaseEpoch ∧
      ∀ lease, valid lease row'

/-- **Step lemma.** A step of the call `i` keeps the discipline of all holders. -/
theorem Effect.disciplined {ι : Type*} {valid : JobLease → JobRow → Prop}
    {holds holds' : ι → Option JobLease} {i : ι}
    (h : c.Effect source completeTx db a phase' db')
    (hd : (jobFencing valid).Disciplined db.jobs holds) (hi : holds i = c.lease?)
    (hi' : holds' i = ({ c with phase := phase' } : LeasedCall).lease?)
    (hother : ∀ j m, j ≠ i → holds' j = some m → holds j = some m) (hnamed : c.LeaseNamed)
    (hgrant : ∀ row now,
      valid (c.leaseOn row now) (row.claimed c.workerId (now + timedelta c.leaseSeconds)))
    (hcomplete : c.KeepsValid valid completeTx db) :
    (jobFencing valid).Disciplined db'.jobs holds' := by
  -- a call that has no lease after the step, or the one it had, hands nothing out
  have hsub : (∀ m, holds' i = some m → holds i = some m) →
      ∀ j m, holds' j = some m → holds j = some m := by
    intro hself j m hm
    by_cases hj : j = i
    · subst hj
      exact hself m hm
    · exact hother j m hj hm
  have hdrop : ∀ {m : Option JobLease}, holds' i = m → (m = none ∨ m = c.lease?) →
      ∀ j m, holds' j = some m → holds j = some m := by
    intro m hm hor
    refine hsub fun l hl => ?_
    rcases hor with rfl | rfl
    · cases hm.symm.trans hl
    · rw [hi, ← hm, hl]
  cases h with
  | @claimed now _ _ row _ _ _ hrow hc hphase =>
    refine hd.grant (i := i) (l := c.leaseOn row now) hrow rfl rfl (hgrant row now) ?_ hother
    intro m hm
    rcases hphase with rfl | ⟨e, rfl⟩
    · exact (Option.some.inj (hi'.symm.trans hm)).symm
    · cases hi'.symm.trans hm
  | refused => exact hd.release (hdrop hi' (.inl rfl))
  | answered => exact hd.release (hdrop hi' (.inl lease?_readBack))
  | processed hp =>
    refine hd.release (hdrop hi' (.inr ?_))
    rw [lease?_afterProcess, LeasedCall.lease?, hp]
  | completed hp htx hphase =>
    have hkeep := hdrop hi' (by
      rcases hphase with rfl | ⟨e, rfl⟩
      · exact .inl rfl
      · exact .inr (by rw [LeasedCall.lease?, LeasedCall.lease?, hp]))
    rcases hcomplete _ _ _ _ htx with hjobs | ⟨row, row', hrow, hjobs, hepoch, hvalid⟩
    · rw [hjobs]
      exact hd.release hkeep
    · rw [hjobs]
      exact hd.touch hrow hepoch (fun _ l _ _ _ _ => hvalid l) hkeep
  | rolledBack => exact hd.release (hdrop hi' (.inl rfl))
  | notCompleted hp =>
    refine hd.release (hdrop hi' (.inr ?_))
    rw [LeasedCall.lease?, LeasedCall.lease?, hp]
  | @failed lease error _ row _ hp hrow happ hphase =>
    have hl : c.lease? = some lease := by rw [LeasedCall.lease?, hp]
    have hnone : holds' i = none := by
      rw [hi']
      rcases hphase with rfl | ⟨e, rfl⟩ <;> rfl
    have hkey := hnamed lease hl
    have hrow' : db.jobs lease.jobId = some row := by rw [hkey, hrow]
    rw [Db.recorded_jobs, ← hkey]
    exact hd.settle (hi.trans hl) hrow' (failureChange_applies.mp happ).2.2.symm rfl hnone hother
  | fencedOut => exact hd.release (hdrop hi' (.inl rfl))
  | broke => exact hd.release (hdrop hi' (.inl rfl))

end LeasedCall

end Morphflow
