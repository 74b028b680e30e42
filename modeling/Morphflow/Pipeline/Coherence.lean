import Morphflow.Pipeline.System

/-!
# The status machine of a job

All services together, on any events addressed to any job, write the rows of `jobs` in few ways:
`RowChange` lists them. The three conditional updates spell their source statuses differently, and
two of the writes of an outcome are fenced while two are not; what they have in common is
`StatusChange.Outcome`.

## Main definitions

* `RowChange`, `JobRow.Coherent`, `JobRow.Frozen`.

## Main results

* `World.Effect.rowChange`: a step changes the row of a job in one of these ways.
* `status_machine`: statuses change along the table of allowed transitions, finished rows are
  final, and status, result and error of a row belong together.
-/

namespace Morphflow

/-- The outcomes the services write: a result without an error, or an error without a result. -/
structure StatusChange.Outcome (change : StatusChange) : Prop where
  sources : change.expectedStatuses = none
  values : (change.status = .success ∧ change.result.isSome ∧ change.clearError = true) ∨
    (change.status = .failed ∧ change.result = none ∧ change.error.isSome ∧
      change.clearError = false)

/-- What a step does to the row of a job. -/
inductive RowChange : Option JobRow → Option JobRow → Prop
  | unchanged (row? : Option JobRow) : RowChange row? row?
  | created (ids : RequestIds) (payload : Dict) :
      RowChange none (some (JobService.newJob ids payload).toRow)
  | claimed (row : JobRow) (owner : String) (expiresAt now : Instant)
      (hc : row.claimable now = true) : RowChange (some row) (some (row.claimed owner expiresAt))
  | outcome (row : JobRow) (change : StatusChange) (ho : change.Outcome)
      (happ : change.applies row = true) : RowChange (some row) (some (change.applyTo row))
  | renewed (row : JobRow) (expiresAt : Instant) :
      RowChange (some row) (some { row with leaseExpiresAt := some expiresAt })

/-- A rewritten row changes in the way it was rewritten, all others stay. -/
theorem RowChange.of_set {jobs : Jobs} {jobId : Uuid} {row : JobRow}
    (h : RowChange (jobs jobId) (some row)) (k : Uuid) :
    RowChange (jobs k) (jobs.set jobId row k) := by
  by_cases hk : k = jobId
  · subst hk
    rwa [KeyedTable.set_self]
  · rw [KeyedTable.set_of_ne _ _ hk]
    exact .unchanged _

section Effects

variable {c : LeasedCall} {d : DownstreamCall} {db db' : Db}

/-- The rows after a step of a call under a lease, whatever its completion does to them. -/
theorem LeasedCall.Effect.rowChange {source : String} {completeTx : CompleteTx} {a : LeasedAct}
    {phase' : LeasedPhase} (h : c.Effect source completeTx db a phase' db')
    (hcomplete : ∀ lease result ids db₁, completeTx c lease result ids db = .ok (some ((), db₁)) →
      ∀ k, RowChange (db.jobs k) (db₁.jobs k)) (k : Uuid) :
    RowChange (db.jobs k) (db'.jobs k) := by
  cases h with
  | claimed _ _ hrow hc => exact .of_set (by rw [hrow]; exact .claimed _ _ _ _ hc) k
  | completed _ htx => exact hcomplete _ _ _ _ htx k
  | failed _ hrow happ =>
    exact .of_set (by rw [hrow]; exact .outcome _ _ ⟨rfl, .inr ⟨rfl, rfl, rfl, rfl⟩⟩ happ) k
  | _ => exact .unchanged _

theorem WorkerService.rowChange_of_completeTx {lease : JobLease} {result : Dict}
    {ids : CompletionIds} (h : completeTx c lease result ids db = .ok (some ((), db'))) (k : Uuid) :
    RowChange (db.jobs k) (db'.jobs k) := by
  obtain ⟨row, hrow, happ, rfl⟩ := recordTx_eq_some_iff.mp h
  exact .of_set (by rw [hrow]; exact .outcome _ _ ⟨rfl, .inl ⟨rfl, rfl, rfl⟩⟩ happ) k

theorem InferencePipelineService.rowChange_of_completeTx {topic : String} {lease : JobLease}
    {result : Dict} {ids : CompletionIds}
    (h : completeTx topic c lease result ids db = .ok (some ((), db'))) (k : Uuid) :
    RowChange (db.jobs k) (db'.jobs k) := by
  obtain rfl := completeTx_eq_some_iff.mp h
  exact .unchanged _

theorem DownstreamCall.Effect.rowChange {a : DownstreamAct} {phase' : DownstreamPhase}
    (h : d.Effect db a phase' db') (k : Uuid) : RowChange (db.jobs k) (db'.jobs k) := by
  cases h with
  | completed _ _ _ hrow hs =>
    exact .of_set (by
      rw [hrow]
      exact .outcome _ _ ⟨rfl, .inl ⟨rfl, rfl, rfl⟩⟩ (successChange_applies.mpr hs)) k
  | failed _ _ _ hrow hs =>
    exact .of_set (by
      rw [hrow]
      exact .outcome _ _ ⟨rfl, .inr ⟨rfl, rfl, rfl, rfl⟩⟩ (failureChange_applies.mpr hs)) k
  | _ => exact .unchanged _

end Effects

/-- A step changes the row of a job in one of the ways of `RowChange`. -/
theorem World.Effect.rowChange {topics : Topics} {w w' : World} {a : Action}
    (h : Effect topics w a w') (k : Uuid) : RowChange (w.db.jobs k) (w'.db.jobs k) := by
  cases h with
  | created hjob => exact .of_set (by rw [JobService.newJob, hjob]; exact .created ..) k
  | worker _ heff =>
    exact heff.rowChange (fun _ _ _ _ => WorkerService.rowChange_of_completeTx) k
  | inference _ heff =>
    exact heff.rowChange (fun _ _ _ _ => InferencePipelineService.rowChange_of_completeTx) k
  | downstream _ heff => exact heff.rowChange k
  | renewed hrow => exact .of_set (by rw [hrow]; exact .renewed ..) k
  | unchanged => exact .unchanged _
  | started => exact .unchanged _
  | ticked => exact .unchanged _

/-! ### The columns of a row belong together -/

/-- What a status says about the other columns. -/
structure JobRow.Coherent (row : JobRow) : Prop where
  pending : row.status = .pending →
    row.leaseEpoch = 0 ∧ row.result = none ∧ row.errorMessage = none
  result : row.result.isSome ↔ row.status = .success
  success : row.status = .success → row.errorMessage = none
  failed : row.status = .failed → row.errorMessage.isSome

/-- A row that is finished stays as it is, its lease apart. -/
def JobRow.Frozen (row row' : JobRow) : Prop :=
  row.status = .success →
    row'.status = .success ∧ row'.result = row.result ∧ row'.errorMessage = row.errorMessage

theorem JobRow.Frozen.refl (row : JobRow) : row.Frozen row :=
  fun hs => ⟨hs, rfl, rfl⟩

theorem JobRow.Frozen.trans (row row' row'' : JobRow) (h : row.Frozen row')
    (h' : row'.Frozen row'') : row.Frozen row'' := by
  intro hs
  obtain ⟨hs', hr, he⟩ := h hs
  obtain ⟨hs'', hr', he'⟩ := h' hs'
  exact ⟨hs'', hr'.trans hr, he'.trans he⟩

namespace RowChange

variable {row row' : JobRow}

/-- A status changes along the table of allowed transitions. -/
theorem edge (h : RowChange (some row) (some row')) (hne : row'.status ≠ row.status) :
    row.status ∈ allowedSourceStatuses row'.status := by
  cases h with
  | unchanged => exact absurd rfl hne
  | claimed _ _ _ now hc =>
    rw [JobRow.claimed_status, mem_allowedSourceStatuses_processing]
    rcases JobRow.claimable_iff.mp hc with hs | hs | ⟨hs, -⟩ <;> rw [hs] <;> decide
  | outcome _ change ho happ =>
    have hmem := (change.applies_iff row |>.mp happ).1
    rwa [StatusChange.sources, ho.sources] at hmem
  | renewed => exact absurd rfl hne

/-- A finished row is final. -/
theorem frozen (h : RowChange (some row) (some row')) : row.Frozen row' := by
  intro hs
  cases h with
  | unchanged => exact ⟨hs, rfl, rfl⟩
  | claimed _ _ _ now hc =>
    exact absurd hs (JobRow.ne_success_of_claimable hc)
  | outcome _ change ho happ =>
    have hmem := (change.applies_iff row |>.mp happ).1
    rw [StatusChange.sources, ho.sources, hs] at hmem
    exact absurd hmem (success_notMem_allowedSourceStatuses _)
  | renewed => exact ⟨hs, rfl, rfl⟩

theorem exists_of_some {row? : Option JobRow} (h : RowChange (some row) row?) :
    ∃ row', row? = some row' := by
  cases h <;> exact ⟨_, rfl⟩

theorem coherent {row? : Option JobRow} (h : RowChange row? (some row'))
    (hrow : ∀ row, row? = some row → row.Coherent) : row'.Coherent := by
  cases h with
  | unchanged => exact hrow _ rfl
  | created =>
    refine ⟨fun _ => ⟨rfl, rfl, rfl⟩, ?_, by rintro ⟨⟩, by rintro ⟨⟩⟩
    simp [JobService.newJob, Job.toRow]
  | claimed row _ _ now hc =>
    refine ⟨by rintro ⟨⟩, ?_, by rintro ⟨⟩, by rintro ⟨⟩⟩
    -- the statuses a claim starts from have no result
    have hresult := (hrow row rfl).result
    rw [JobRow.claimed_result, hresult, JobRow.claimed_status]
    simp [JobRow.ne_success_of_claimable hc]
  | outcome row change ho happ =>
    rcases ho.values with ⟨hs, hr, hclear⟩ | ⟨hs, hr, herr, hclear⟩
    · obtain ⟨result, hresult⟩ := Option.isSome_iff_exists.mp hr
      refine ⟨fun h => ?_, ?_, fun _ => ?_, fun h => ?_⟩
      · cases hs.symm.trans h
      · simp [StatusChange.applyTo, hs, hresult]
      · simp [StatusChange.applyTo, hclear]
      · cases hs.symm.trans h
    · obtain ⟨error, herror⟩ := Option.isSome_iff_exists.mp herr
      refine ⟨fun h => ?_, ?_, fun h => ?_, fun _ => ?_⟩
      · cases hs.symm.trans h
      · have hmem := (change.applies_iff row |>.mp happ).1
        rw [StatusChange.sources, ho.sources, hs] at hmem
        have hresult := (hrow row rfl).result
        simp only [StatusChange.applyTo, hr, Option.none_or, hresult, hs]
        rcases mem_allowedSourceStatuses_failed.mp hmem with hs' | hs' <;> rw [hs'] <;> decide
      · cases hs.symm.trans h
      · simp [StatusChange.applyTo, hclear, herror]
  | renewed row => exact ⟨(hrow row rfl).pending, (hrow row rfl).result, (hrow row rfl).success,
      (hrow row rfl).failed⟩

/-- Rows stay, and finished rows are final. -/
theorem evolves {jobs jobs' : Jobs} (h : ∀ k, RowChange (jobs k) (jobs' k)) :
    KeyedTable.Evolves JobRow.Frozen jobs jobs' := by
  intro k row hrow
  have hk := h k
  rw [hrow] at hk
  obtain ⟨row', hrow'⟩ := hk.exists_of_some
  rw [hrow'] at hk
  exact ⟨row', hrow', hk.frozen⟩

end RowChange

theorem finished_of_evolves {jobs jobs' : Jobs}
    (h : KeyedTable.Evolves JobRow.Frozen jobs jobs') {jobId : Uuid}
    (hfinished : ∃ row, jobs jobId = some row ∧ row.status = .success) :
    ∃ row, jobs' jobId = some row ∧ row.status = .success := by
  obtain ⟨row, hrow, hs⟩ := hfinished
  obtain ⟨row', hrow', hfrozen⟩ := h jobId row hrow
  exact ⟨row', hrow', (hfrozen hs).1⟩

/-! ### Runs of all services -/

section Runs

variable {topics : Topics} {w w' : World}

theorem coherent_of_reachable (h : (pipeline topics).Reachable w) :
    ∀ jobId row, w.db.jobs jobId = some row → row.Coherent := by
  refine h.rec_on_step (P := fun w => ∀ jobId row, w.db.jobs jobId = some row → row.Coherent) ?_ ?_
  · rintro w ⟨hdb, -⟩ jobId row hrow
    rw [hdb] at hrow
    cases hrow
  · intro w a w' _ hw hstep jobId row' hrow'
    have hchange := (World.effect_of_step hstep).rowChange jobId
    rw [hrow'] at hchange
    exact hchange.coherent fun row hrow => hw jobId row hrow

/-- Over a whole run rows stay, and finished rows are final. -/
theorem evolves_of_run {as : List Action} (hr : (pipeline topics).run w as = some w') :
    KeyedTable.Evolves JobRow.Frozen w.db.jobs w'.db.jobs := by
  refine TransitionSystem.run_preserves (P := fun w' => KeyedTable.Evolves JobRow.Frozen w.db.jobs
    w'.db.jobs) (fun w₁ a w₂ h hstep => ?_) hr (.refl JobRow.Frozen.refl _)
  exact h.trans JobRow.Frozen.trans (RowChange.evolves (World.effect_of_step hstep).rowChange)

/-- **The status machine.** In every run of all services on one store: a change of a job's status
is an edge of the table of allowed transitions; the status, the result and the error of a finished
job never change again; and what a status says about the epoch, the result and the error holds of
every row. -/
theorem status_machine (h : (pipeline topics).Reachable w) :
    (∀ a w', (pipeline topics).step w a = some w' → ∀ jobId row row',
      w.db.jobs jobId = some row → w'.db.jobs jobId = some row' → row'.status ≠ row.status →
      row.status ∈ allowedSourceStatuses row'.status) ∧
    (∀ as w', (pipeline topics).run w as = some w' → ∀ jobId row,
      w.db.jobs jobId = some row → row.status = .success →
      ∃ row', w'.db.jobs jobId = some row' ∧ row'.status = .success ∧
        row'.result = row.result ∧ row'.errorMessage = row.errorMessage) ∧
    ∀ jobId row, w.db.jobs jobId = some row →
      (row.status = .pending →
        row.leaseEpoch = 0 ∧ row.result = none ∧ row.errorMessage = none) ∧
      (row.result.isSome ↔ row.status = .success) ∧
      (row.status = .success → row.errorMessage = none) ∧
      (row.status = .failed → row.errorMessage.isSome) := by
  refine ⟨?_, ?_, ?_⟩
  · intro a w' hstep jobId row row' hrow hrow'
    have hchange := (World.effect_of_step hstep).rowChange jobId
    rw [hrow, hrow'] at hchange
    exact hchange.edge
  · intro as w' hr jobId row hrow hs
    obtain ⟨row', hrow', hfrozen⟩ := evolves_of_run hr jobId row hrow
    exact ⟨row', hrow', hfrozen hs⟩
  · intro jobId row hrow
    have hc := coherent_of_reachable h jobId row hrow
    exact ⟨hc.pending, hc.result, hc.success, hc.failed⟩

/-- A job of the modes C and BC that the downstream stage finished. -/
theorem status_machine_finished : ∃ w row,
    (pipeline ⟨"requests", "downstream"⟩).Reachable w ∧ w.db.jobs 1 = some row ∧
    row.status = .success ∧ row.errorMessage = none := by
  let topics : Topics := ⟨"requests", "downstream"⟩
  let event := JobService.requestEvent ⟨1, 2, 3, 4, 5⟩ []
  have hw := TransitionSystem.Reachable.get (T := pipeline topics)
    [.create ⟨1, 2, 3, 4, 5⟩ [] .commits,
      .start 0 (.inference "a" 60) event, .leased 0 (.claim 0 10 .commits),
      .start 1 .downstream event, .downstream 1 (.read none),
      .downstream 1 (.process (.ok [])), .downstream 1 (.complete 11 .commits)]
    (pipeline_init_initial topics) rfl
  exact ⟨_, _, hw, rfl, rfl, ((status_machine hw).2.2 1 _ rfl).2.2.1 rfl⟩

end Runs

end Morphflow
