import Morphflow.Pipeline.Coherence

/-!
# Acknowledged downstream messages

A downstream call that returns `(True, None)` has its message acknowledged. It returns so when it
read a finished job, or when its completing transaction committed; the latter does not look at
whether the update changed the row. After a failed delivery the row is `FAILED`, from where nothing
leads to `SUCCESS`: the next delivery is processed, acknowledged, and changes nothing.

## Main definitions

* `Action.completesInTime`: a completing transaction finds the job still processed, or finished.
* `delivery`, `deliveries`: whole calls one after the other.

## Main results

* `acknowledged_iff_in_time`: acknowledged jobs are finished in every run whose completing
  transactions are in time; deliveries in sequence finish the job exactly when none failed before.
* `acknowledged_not_finished`: a run that acknowledges a `FAILED` job.
-/

namespace Morphflow

/-- A completing transaction of the downstream stage that goes through finds its job `PROCESSING`,
or `SUCCESS` already. -/
def Action.completesInTime (w : World) : Action → Bool
  | .downstream i (.complete _ .commits) =>
    match w.calls i with
    | some (.downstream c) => (w.db.jobs c.event.jobId).all fun row =>
        row.status == .processing || row.status == .success
    | _ => true
  | _ => true

/-- What the phase of a downstream call says about its job: it is finished when the call returned
`True`, and it is there when the call goes on after it was read. -/
def DownstreamCall.Justified (jobs : Jobs) (c : DownstreamCall) : Prop :=
  match c.phase with
  | .returned true _ => ∃ row, jobs c.event.jobId = some row ∧ row.status = .success
  | .processing => ∃ row, jobs c.event.jobId = some row
  | .completing _ => ∃ row, jobs c.event.jobId = some row
  | _ => True

namespace DownstreamCall

variable {c : DownstreamCall} {db db' : Db} {jobs jobs' : Jobs}

/-- The writes of others keep what a call relies on. -/
theorem Justified.of_rowChange (h : c.Justified jobs)
    (hchange : ∀ k, RowChange (jobs k) (jobs' k)) : c.Justified jobs' := by
  have hjobs := RowChange.evolves hchange
  unfold Justified at h ⊢
  split at h
  · exact finished_of_evolves hjobs h
  · obtain ⟨row, hrow⟩ := h
    obtain ⟨row', hrow', -⟩ := hjobs _ row hrow
    exact ⟨row', hrow'⟩
  · obtain ⟨row, hrow⟩ := h
    obtain ⟨row', hrow', -⟩ := hjobs _ row hrow
    exact ⟨row', hrow'⟩
  · trivial

/-- A step of a call keeps it justified when a completion is in time. -/
theorem Justified.of_effect {a : DownstreamAct} {phase' : DownstreamPhase}
    (h : c.Justified db.jobs) (heff : c.Effect db a phase' db')
    (hintime : ∀ eventId, a = .complete eventId .commits → ∀ row, db.jobs c.event.jobId = some row →
        row.status = .processing ∨ row.status = .success) :
    DownstreamCall.Justified db'.jobs { c with phase := phase' } := by
  cases heff with
  | acknowledged _ hrow hs => exact ⟨_, hrow, hs⟩
  | started _ hrow => exact ⟨_, hrow⟩
  | processed hp =>
    rw [Justified, hp] at h
    exact h
  | interrupted => trivial
  | completed _ _ _ _ _ hphase =>
    rcases hphase with ⟨-, rfl⟩ | ⟨e, rfl⟩
    · exact ⟨_, KeyedTable.set_self .., rfl⟩
    · trivial
  | completedLate ha _ hp hnone hphase =>
    rcases hphase with ⟨rfl, rfl⟩ | ⟨e, rfl⟩
    · rw [Justified, hp] at h
      obtain ⟨row, hrow⟩ := h
      rcases hintime _ ha row hrow with hs | hs
      · exact absurd hs (hnone row hrow)
      · exact ⟨row, hrow, hs⟩
    · trivial
  | failed _ _ _ _ _ hphase => rcases hphase with ⟨-, rfl⟩ | ⟨e, rfl⟩ <;> trivial
  | failedLate _ _ _ _ hphase => rcases hphase with ⟨-, rfl⟩ | ⟨e, rfl⟩ <;> trivial
  | broke => trivial

end DownstreamCall

section Runs

variable {topics : Topics} {w w' : World}

theorem World.Effect.justified {a : Action} (h : Effect topics w a w')
    (hintime : a.completesInTime w = true)
    (hw : ∀ i c, w.calls i = some (.downstream c) → c.Justified w.db.jobs) :
    ∀ i c, w'.calls i = some (.downstream c) → c.Justified w'.db.jobs := by
  intro j d hj
  have hothers : w.calls j = some (.downstream d) → d.Justified w'.db.jobs :=
    fun hj => (hw j d hj).of_rowChange h.rowChange
  -- a call that took no step relies on what the writes of others keep
  have hset : ∀ {i call}, (w.calls.set i call) j = some (.downstream d) →
      (call = .downstream d → d.Justified w'.db.jobs) → d.Justified w'.db.jobs := by
    intro i call hj hcall
    rcases KeyedTable.set_eq_some_iff.mp hj with ⟨-, heq⟩ | ⟨-, hj⟩
    · exact hcall heq
    · exact hothers hj
  cases h with
  | started =>
    refine hset hj fun heq => ?_
    rename_i i service event hi
    cases service <;> simp only [Service.handleEvent, Call.downstream.injEq, reduceCtorEq] at heq
    subst heq
    trivial
  | worker => exact hset hj (by rintro ⟨⟩)
  | inference => exact hset hj (by rintro ⟨⟩)
  | @downstream i a c phase' db' hi heff =>
    refine hset hj fun heq => ?_
    obtain rfl := Call.downstream.inj heq
    refine (hw i c hi).of_effect heff ?_
    rintro eventId rfl row hrow
    simpa [Action.completesInTime, hi, hrow] using hintime
  | unchanged => exact hothers hj
  | created => exact hothers hj
  | renewed => exact hothers hj
  | ticked => exact hothers hj

/-- An acknowledged downstream message of a job means that the job is finished. -/
def World.AcknowledgesFinished (w : World) : Prop :=
  ∀ i c, w.calls i = some (.downstream c) → c.phase = .returned true none →
    ∀ row, w.db.jobs c.event.jobId = some row → row.status = .success

/-- A completion that is not in time acknowledges an unfinished job. -/
theorem not_acknowledgesFinished_of_late {a : Action} (hstep : w.step topics a = some w')
    (hlate : a.completesInTime w = false) : ¬ w'.AcknowledgesFinished := by
  unfold Action.completesInTime at hlate
  split at hlate
  · next i eventId =>
    split at hlate
    · next c hi =>
      obtain ⟨row, hrow, hs⟩ : ∃ row, w.db.jobs c.event.jobId = some row ∧
          ¬(row.status = .processing ∨ row.status = .success) := by
        simpa [Option.all_eq_false] using hlate
      cases hp : c.phase with
      | completing result =>
        rcases DownstreamCall.writeTx_eq_some w.db c.event.jobId (c.completionEvent result eventId)
          (c.successChange_sources result) with ⟨row', hrow', happ, -⟩ | ⟨-, htx⟩
        · obtain rfl : row = row' := Option.some.inj (hrow.symm.trans hrow')
          exact absurd (.inl (DownstreamCall.successChange_applies.mp happ)) hs
        · have hw' : w' = w.goOn i (.downstream { c with phase := .returned true none })
              (w.db.logged (c.completionEvent result eventId)) := by
            have hcall : c.step w.db (.complete eventId .commits) =
                some ({ c with phase := .returned true none },
                  w.db.logged (c.completionEvent result eventId)) := by
              simp [DownstreamCall.step, DownstreamCall.phaseStep, hp, DownstreamCall.completeTx,
                htx, TxFate.conclude]
            simpa [World.step, hi, hcall, eq_comm] using hstep
          intro hw
          rw [hw'] at hw
          exact hs (.inr (hw i _ (KeyedTable.set_self ..) rfl row hrow))
      | _ => simp [World.step, hi, DownstreamCall.step, DownstreamCall.phaseStep, hp] at hstep
    · cases hlate
  · cases hlate

/-- In runs whose completions are in time all downstream calls are justified. -/
theorem justified_of_reachable
    (h : ((modesCBC topics).restrict fun w a => a.completesInTime w).Reachable w) :
    ∀ i c, w.calls i = some (.downstream c) → c.Justified w.db.jobs := by
  refine h.rec_on_step
    (P := fun w => ∀ i c, w.calls i = some (.downstream c) → c.Justified w.db.jobs) ?_ ?_
  · rintro w ⟨-, hcalls⟩ i c hi
    cases (hcalls i).symm.trans hi
  · intro w a w' _ hw hstep
    obtain ⟨hintime, hstep⟩ := TransitionSystem.restrict_step_eq_some.mp hstep
    obtain ⟨-, hstep⟩ := TransitionSystem.restrict_step_eq_some.mp hstep
    exact (World.effect_of_step hstep).justified hintime hw

end Runs

/-! ### Deliveries one after the other -/

/-- The steps of a whole call `i` in which nothing raises but the processor. -/
def delivery (event : Event) (i : ℕ) (eventId : Uuid) : Except String Dict → List Action
  | .ok result => [.start i .downstream event, .downstream i (.read none),
      .downstream i (.process (.ok result)), .downstream i (.complete eventId .commits)]
  | .error e => [.start i .downstream event, .downstream i (.read none),
      .downstream i (.process (.error e)), .downstream i (.fail eventId .commits)]

/-- The steps of whole calls `i`, `i + 1`, … of one event. -/
def deliveries (event : Event) (eventId : Uuid) : ℕ → List (Except String Dict) → List Action
  | _, [] => []
  | i, outcome :: outcomes =>
    delivery event i eventId outcome ++ deliveries event eventId (i + 1) outcomes

theorem deliveries_append (event : Event) (eventId : Uuid) (i : ℕ)
    (xs ys : List (Except String Dict)) : deliveries event eventId i (xs ++ ys) =
      deliveries event eventId i xs ++ deliveries event eventId (i + xs.length) ys := by
  induction xs generalizing i with
  | nil => rfl
  | cons x xs ih =>
    rw [List.cons_append, deliveries, deliveries, ih, List.append_assoc, List.length_cons,
      Nat.add_assoc, Nat.add_comm 1]

section Sequence

variable {topics : Topics} {w : World} {event : Event} {i : ℕ} {row : JobRow}

private theorem step_start (hi : w.calls i = none) :
    (modesCBC topics).step w (.start i .downstream event) =
      some (w.goOn i (.downstream ⟨event, .reading⟩) w.db) := by
  refine TransitionSystem.restrict_step_eq_some.mpr ⟨rfl, ?_⟩
  simp [pipeline, World.step, hi, Service.handleEvent]

private theorem step_call {c c' : DownstreamCall} {db' : Db} {a : DownstreamAct}
    (hi : w.calls i = some (.downstream c)) (h : c.step w.db a = some (c', db')) :
    (modesCBC topics).step w (.downstream i a) = some (w.goOn i (.downstream c') db') := by
  refine TransitionSystem.restrict_step_eq_some.mpr ⟨rfl, ?_⟩
  simp [pipeline, World.step, hi, h]

private theorem step_read {db : Db} (hrow : db.jobs event.jobId = some row)
    (hs : row.status ≠ .success) :
    (DownstreamCall.mk event .reading).step db (.read none) = some (⟨event, .processing⟩, db) := by
  simp [DownstreamCall.step, DownstreamCall.phaseStep, DownstreamCall.afterRead, getJob, hrow, hs]

/-- A call run from its start on: the tables are those of its last step, and no other call took a
step. -/
private theorem run_call {c₁ c₂ c₃ : DownstreamCall} {a₁ a₂ a₃ : DownstreamAct} {db' : Db}
    (hi : w.calls i = none)
    (h₁ : (DownstreamCall.mk event .reading).step w.db a₁ = some (c₁, w.db))
    (h₂ : c₁.step w.db a₂ = some (c₂, w.db)) (h₃ : c₂.step w.db a₃ = some (c₃, db')) :
    ∃ w', (modesCBC topics).run w [.start i .downstream event, .downstream i a₁,
        .downstream i a₂, .downstream i a₃] = some w' ∧
      w'.db = db' ∧ w'.calls i = some (.downstream c₃) ∧ ∀ j, j ≠ i → w'.calls j = w.calls j := by
  let w₀ := w.goOn i (.downstream ⟨event, .reading⟩) w.db
  let w₁ := w₀.goOn i (.downstream c₁) w.db
  let w₂ := w₁.goOn i (.downstream c₂) w.db
  refine ⟨w₂.goOn i (.downstream c₃) db', ?_, rfl, KeyedTable.set_self .., fun j hj => ?_⟩
  · have hs₁ : (modesCBC topics).step w₀ (.downstream i a₁) = some w₁ :=
      step_call (KeyedTable.set_self ..) h₁
    have hs₂ : (modesCBC topics).step w₁ (.downstream i a₂) = some w₂ :=
      step_call (KeyedTable.set_self ..) h₂
    have hs₃ : (modesCBC topics).step w₂ (.downstream i a₃) = some (w₂.goOn i _ db') :=
      step_call (KeyedTable.set_self ..) h₃
    simp only [TransitionSystem.run_cons, step_start hi, Option.bind_some, hs₁, hs₂, hs₃,
      TransitionSystem.run_nil, w₀]
  · simp only [w₂, w₁, w₀, World.goOn_calls, KeyedTable.set_of_ne _ _ hj]

/-- A delivery whose processor raises leaves an unfinished job `FAILED`. -/
theorem run_delivery_error (topics : Topics) (eventId : Uuid) (e : String) (hi : w.calls i = none)
    (hrow : w.db.jobs event.jobId = some row)
    (hs : row.status = .processing ∨ row.status = .failed) :
    ∃ w' row', (modesCBC topics).run w (delivery event i eventId (.error e)) = some w' ∧
      w'.db.jobs event.jobId = some row' ∧ row'.status = .failed ∧
      ∀ j, j ≠ i → w'.calls j = w.calls j := by
  have hne : row.status ≠ .success := by rcases hs with hs | hs <;> rw [hs] <;> decide
  let c : DownstreamCall := ⟨event, .failing e⟩
  -- the committed tables after the failure was recorded
  obtain ⟨db', row', htx, hrow', hs'⟩ : ∃ db' row', c.failTx e eventId w.db =
      .ok (some ((), db')) ∧ db'.jobs event.jobId = some row' ∧ row'.status = .failed := by
    rcases DownstreamCall.writeTx_eq_some w.db event.jobId (c.failureEvent e eventId)
      (DownstreamCall.failureChange_sources e) with ⟨row₁, hrow₁, -, htx⟩ | ⟨hnone, htx⟩
    · exact ⟨_, _, htx, KeyedTable.set_self .., rfl⟩
    · refine ⟨_, row, htx, hrow, ?_⟩
      rcases hs with hs | hs
      · exact absurd (DownstreamCall.failureChange_applies.mpr (.inr hs))
          (by rw [hnone row hrow]; decide)
      · exact hs
  have hfail : c.step w.db (.fail eventId .commits) =
      some (⟨event, .returned false (some e)⟩, db') := by
    simp [DownstreamCall.step, DownstreamCall.phaseStep, c, TxFate.conclude, htx]
  have hprocess : (DownstreamCall.mk event .processing).step w.db (.process (.error e)) =
      some (c, w.db) := rfl
  obtain ⟨w', hrun, rfl, -, hcalls⟩ := run_call hi (step_read hrow hne) hprocess hfail
  exact ⟨w', row', hrun, hrow', hs', hcalls⟩

/-- A delivery whose processor returns is acknowledged; it finishes the job if this is still being
processed, and changes nothing otherwise. -/
theorem run_delivery_ok (topics : Topics) (eventId : Uuid) (result : Dict) (hi : w.calls i = none)
    (hrow : w.db.jobs event.jobId = some row)
    (hs : row.status = .processing ∨ row.status = .failed) :
    ∃ w' row', (modesCBC topics).run w (delivery event i eventId (.ok result)) = some w' ∧
      w'.calls i = some (.downstream ⟨event, .returned true none⟩) ∧
      w'.db.jobs event.jobId = some row' ∧
      (row.status = .processing → row'.status = .success ∧ row'.result =
        some ((DownstreamCall.mk event .reading).jobResult result)) ∧
      (row.status = .failed → row' = row) := by
  have hne : row.status ≠ .success := by rcases hs with hs | hs <;> rw [hs] <;> decide
  let c : DownstreamCall := ⟨event, .completing result⟩
  -- the committed tables after the completion
  obtain ⟨db', row', htx, hrow', hok, hlate⟩ : ∃ db' row', c.completeTx result eventId w.db =
      .ok (some ((), db')) ∧ db'.jobs event.jobId = some row' ∧
      (row.status = .processing → row'.status = .success ∧ row'.result =
        some ((DownstreamCall.mk event .reading).jobResult result)) ∧
      (row.status = .failed → row' = row) := by
    rcases DownstreamCall.writeTx_eq_some w.db event.jobId (c.completionEvent result eventId)
      (c.successChange_sources result) with ⟨row₁, hrow₁, happ, htx⟩ | ⟨hnone, htx⟩
    · obtain rfl : row = row₁ := Option.some.inj (hrow.symm.trans hrow₁)
      refine ⟨_, _, htx, KeyedTable.set_self .., fun _ => ⟨rfl, rfl⟩, fun hf => ?_⟩
      cases hf.symm.trans (DownstreamCall.successChange_applies.mp happ)
    · refine ⟨_, row, htx, hrow, fun hp => ?_, fun _ => rfl⟩
      exact absurd (DownstreamCall.successChange_applies.mpr hp) (by rw [hnone row hrow]; decide)
  have hcomplete : c.step w.db (.complete eventId .commits) =
      some (⟨event, .returned true none⟩, db') := by
    simp [DownstreamCall.step, DownstreamCall.phaseStep, c, TxFate.conclude, htx]
  have hprocess : (DownstreamCall.mk event .processing).step w.db (.process (.ok result)) =
      some (c, w.db) := rfl
  obtain ⟨w', hrun, rfl, hcall, -⟩ := run_call hi (step_read hrow hne) hprocess hcomplete
  exact ⟨w', row', hrun, hcall, hrow', hok, hlate⟩

/-- Deliveries that fail one after the other: the job stays as it was before the first, and is
`FAILED` after it. -/
theorem run_deliveries_error (topics : Topics) (eventId : Uuid) (errs : List String)
    (hfree : ∀ j, i ≤ j → w.calls j = none) (hrow : w.db.jobs event.jobId = some row)
    (hs : row.status = .processing ∨ row.status = .failed) :
    ∃ w' row', (modesCBC topics).run w (deliveries event eventId i (errs.map .error)) = some w' ∧
      w'.db.jobs event.jobId = some row' ∧
      row'.status = (if errs = [] then row.status else .failed) ∧
      ∀ j, i + errs.length ≤ j → w'.calls j = none := by
  induction errs generalizing w i row with
  | nil => exact ⟨w, row, rfl, hrow, rfl, hfree⟩
  | cons e errs ih =>
    obtain ⟨w₁, row₁, hrun₁, hrow₁, hs₁, hcalls₁⟩ := run_delivery_error topics eventId e
      (hfree i le_rfl) hrow hs
    obtain ⟨w₂, row₂, hrun₂, hrow₂, hs₂, hcalls₂⟩ := ih (w := w₁) (i := i + 1)
      (fun j hj => (hcalls₁ j (by omega)).trans (hfree j (by omega))) hrow₁ (.inr hs₁)
    refine ⟨w₂, row₂, ?_, hrow₂, ?_, fun j hj => hcalls₂ j ?_⟩
    · rw [List.map_cons, deliveries, TransitionSystem.run_append, hrun₁]
      exact hrun₂
    · rw [hs₂, hs₁, if_neg (List.cons_ne_nil e errs)]
      split_ifs <;> rfl
    · rw [List.length_cons] at hj
      omega

/-- Deliveries in sequence, of which the last is the first to be processed without error: it is
acknowledged, and it finishes the job with its result exactly when none failed before. -/
theorem run_deliveries_iff (topics : Topics) (eventId : Uuid) (errs : List String) (result : Dict)
    (hfree : ∀ j, i ≤ j → w.calls j = none) (hrow : w.db.jobs event.jobId = some row)
    (hs : row.status = .processing) :
    ∃ w' row', (modesCBC topics).run w
        (deliveries event eventId i (errs.map .error ++ [.ok result])) = some w' ∧
      w'.calls (i + errs.length) = some (.downstream ⟨event, .returned true none⟩) ∧
      w'.db.jobs event.jobId = some row' ∧
      (row'.status = .success ∧ row'.result =
        some ((DownstreamCall.mk event .reading).jobResult result) ↔ errs = []) := by
  obtain ⟨w₁, row₁, hrun₁, hrow₁, hs₁, hcalls₁⟩ :=
    run_deliveries_error topics eventId errs hfree hrow (.inl hs)
  have hs₁' : row₁.status = .processing ∨ row₁.status = .failed := by
    rw [hs₁, hs]
    split_ifs <;> decide
  obtain ⟨w₂, row₂, hrun₂, hcall, hrow₂, hok, hlate⟩ :=
    run_delivery_ok topics eventId result (hcalls₁ _ le_rfl) hrow₁ hs₁'
  refine ⟨w₂, row₂, ?_, hcall, hrow₂, ?_, ?_⟩
  · rw [deliveries_append, TransitionSystem.run_append, hrun₁, List.length_map, Option.bind_some,
      deliveries, deliveries, List.append_nil]
    exact hrun₂
  · rintro ⟨hsuccess, -⟩
    by_contra herrs
    rw [if_neg herrs] at hs₁
    rw [hlate hs₁, hs₁] at hsuccess
    cases hsuccess
  · intro herrs
    rw [if_pos herrs, hs] at hs₁
    exact hok hs₁

end Sequence

/-- **When an acknowledgement means that the job is finished.** In every run of the modes C and BC
whose downstream completions find the job `PROCESSING` or `SUCCESS`, the job of an acknowledged
downstream message is `SUCCESS`; a step outside this condition acknowledges an unfinished job. Of
deliveries in sequence to a job that is being processed, the first that is processed without error
finishes the job with its result exactly when no delivery failed before it. -/
theorem acknowledged_iff_in_time {topics : Topics} {w : World}
    (h : ((modesCBC topics).restrict fun w a => a.completesInTime w).Reachable w) :
    (∀ i c, w.calls i = some (.downstream c) → c.phase = .returned true none →
      ∃ row, w.db.jobs c.event.jobId = some row ∧ row.status = .success) ∧
    (∀ a w', (modesCBC topics).step w a = some w' → a.completesInTime w = false →
      ¬ w'.AcknowledgesFinished) ∧
    ∀ event row i eventId errs result, w.db.jobs event.jobId = some row →
      row.status = .processing → (∀ j, i ≤ j → w.calls j = none) →
      ∃ w' row', (modesCBC topics).run w
          (deliveries event eventId i (errs.map .error ++ [.ok result])) = some w' ∧
        w'.calls (i + errs.length) = some (.downstream ⟨event, .returned true none⟩) ∧
        w'.db.jobs event.jobId = some row' ∧
        (row'.status = .success ∧ row'.result =
          some ((DownstreamCall.mk event .reading).jobResult result) ↔ errs = []) := by
  refine ⟨fun i c hi hp => ?_, fun a w' hstep hlate => ?_, ?_⟩
  · have hjust := justified_of_reachable h i c hi
    rwa [DownstreamCall.Justified, hp] at hjust
  · exact not_acknowledgesFinished_of_late
      (TransitionSystem.restrict_step_eq_some.mp hstep).2 hlate
  · intro event row i eventId errs result hrow hs hfree
    exact run_deliveries_iff topics eventId errs result hfree hrow hs

/-- A delivery that finishes the job. -/
theorem acknowledged_iff_in_time_straight : ∃ w row,
    (modesCBC ⟨"requests", "downstream"⟩).Reachable w ∧
    w.calls 1 = some (.downstream ⟨exampleEnvelope, .returned true none⟩) ∧
    w.db.jobs 1 = some row ∧ row.status = .success := by
  let topics : Topics := ⟨"requests", "downstream"⟩
  have hw := TransitionSystem.Reachable.get
    (T := (modesCBC topics).restrict fun w a => a.completesInTime w)
    (exampleInference ++ delivery exampleEnvelope 1 20 (.ok []))
    (pipeline_init_initial topics) rfl
  obtain ⟨row, hrow, hs⟩ := (acknowledged_iff_in_time hw).1 1 _ rfl rfl
  exact ⟨_, row, hw.of_restrict, rfl, hrow, hs⟩

/-- **An acknowledged job that is not finished.** The envelope of a job that the inference left
`PROCESSING` is delivered twice; the first delivery fails, the second is processed without error
and returns `(True, None)`, and the job stays `FAILED`. -/
theorem acknowledged_not_finished :
    ¬ ∀ w, (modesCBC ⟨"requests", "downstream"⟩).Reachable w → w.AcknowledgesFinished := by
  intro h
  let topics : Topics := ⟨"requests", "downstream"⟩
  have hw := TransitionSystem.Reachable.get (T := modesCBC topics)
    (exampleInference ++ deliveries exampleEnvelope 20 1 [.error "timeout", .ok []])
    (pipeline_init_initial topics) rfl
  cases h _ hw 2 _ rfl rfl _ rfl

end Morphflow
