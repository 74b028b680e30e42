import Morphflow.Pipeline.Acknowledgement

/-!
# The completions told by the log of the modes C and BC

The downstream stage logs its outcome whether or not the row changed. The log agrees with the row
as long as every one of its writes finds the job in a status that it changes: a completion while
the job is `PROCESSING`, a failure while it is `PENDING` or `PROCESSING`.

## Main definitions

* `Action.writesInTime`: a write of the downstream stage changes the row.
* `CompletionLog`: the completions in the log of a row.

## Main results

* `log_agrees_iff_in_time`: the log agrees with the row in every run whose downstream writes are in
  time, and no longer after a write that is not.
* `completions_not_once`: two concurrent deliveries leave two completions in the log.
-/

namespace Morphflow

/-- A write of the downstream stage that takes effect finds its job in a status that it
changes. -/
def Action.writesInTime (w : World) : Action → Bool
  | .downstream i (.complete _ fate) =>
    match w.calls i with
    | some (.downstream c) => !fate.takesEffect ||
        (w.db.jobs c.event.jobId).any fun row => row.status == .processing
    | _ => true
  | .downstream i (.fail _ fate) =>
    match w.calls i with
    | some (.downstream c) => !fate.takesEffect ||
        (w.db.jobs c.event.jobId).any fun row =>
          row.status == .pending || row.status == .processing
    | _ => true
  | _ => true

/-- The completions in the log of a job: one in a finished job, with the downstream part of its
result, and none otherwise. -/
def CompletionLog (row? : Option JobRow) (events : List Event) : Prop :=
  match row? with
  | none => eventsOfType .downstreamCompleted events = []
  | some row =>
    if row.status = .success then
      ∃ e, eventsOfType .downstreamCompleted events = [e] ∧
        e.payload.get? "result" = row.result.bind fun result => Dict.get? result "downstream"
    else eventsOfType .downstreamCompleted events = []

namespace CompletionLog

variable {row row' : JobRow} {row? : Option JobRow} {events : List Event} {e : Event}

theorem of_unfinished (hs : row.status ≠ .success) :
    CompletionLog (some row) events ↔ eventsOfType .downstreamCompleted events = [] := by
  simp [CompletionLog, hs]

theorem of_finished (hs : row.status = .success) :
    CompletionLog (some row) events ↔ ∃ e, eventsOfType .downstreamCompleted events = [e] ∧
      e.payload.get? "result" = row.result.bind fun result => Dict.get? result "downstream" := by
  simp [CompletionLog, hs]

theorem append_of_ne (h : CompletionLog row? events) (he : e.eventType ≠ .downstreamCompleted) :
    CompletionLog row? (events ++ [e]) := by
  unfold CompletionLog at h ⊢
  rwa [eventsOfType_append_of_ne he]

theorem unfinished (h : CompletionLog (some row) events) (hs : row.status ≠ .success)
    (hs' : row'.status ≠ .success) (he : e.eventType ≠ .downstreamCompleted) :
    CompletionLog (some row') (events ++ [e]) := by
  rw [of_unfinished hs'] at *
  rw [of_unfinished hs] at h
  rwa [eventsOfType_append_of_ne he]

end CompletionLog

variable {topics : Topics} {w w' : World}

/-- A step of an inference call keeps the completions. -/
theorem LeasedCall.Effect.completionLog {c : LeasedCall} {db db' : Db} {a : LeasedAct}
    {phase' : LeasedPhase} {topic : String} (h : c.Effect "inference-worker"
      (InferencePipelineService.completeTx topic) db a phase' db')
    (hdb : db.PerJob CompletionLog) : db'.PerJob CompletionLog := by
  cases h with
  | claimed _ _ hrow hc =>
    refine hdb.recorded rfl rfl rfl fun hlog => ?_
    rw [hrow] at hlog
    exact hlog.unfinished (JobRow.ne_success_of_claimable hc) (by simp)
      (by simp [LeasedCall.startEvent])
  | completed _ htx =>
    obtain rfl := InferencePipelineService.completeTx_eq_some_iff.mp htx
    exact hdb.logged rfl rfl fun hlog => hlog.append_of_ne (by simp)
  | failed _ hrow happ =>
    refine hdb.recorded rfl rfl rfl fun hlog => ?_
    rw [hrow] at hlog
    exact hlog.unfinished (LeasedCall.ne_success_of_failureChange happ)
      (by simp [LeasedCall.failureChange]) (by simp [LeasedCall.failureEvent])
  | _ => exact hdb

/-- A write of the downstream stage that is in time finds a row. -/
theorem Action.writesInTime_complete {i : ℕ} {c : DownstreamCall} {eventId : Uuid} {fate : TxFate}
    (hi : w.calls i = some (.downstream c)) (hf : fate.takesEffect = true)
    (h : Action.writesInTime w (.downstream i (.complete eventId fate)) = true) :
    ∃ row, w.db.jobs c.event.jobId = some row ∧ row.status = .processing := by
  simpa [Action.writesInTime, hi, hf, Option.any_eq_true] using h

theorem Action.writesInTime_fail {i : ℕ} {c : DownstreamCall} {eventId : Uuid} {fate : TxFate}
    (hi : w.calls i = some (.downstream c)) (hf : fate.takesEffect = true)
    (h : Action.writesInTime w (.downstream i (.fail eventId fate)) = true) :
    ∃ row, w.db.jobs c.event.jobId = some row ∧
      (row.status = .pending ∨ row.status = .processing) := by
  simpa [Action.writesInTime, hi, hf, Option.any_eq_true] using h

theorem DownstreamCall.Effect.completionLog {i : ℕ} {c : DownstreamCall} {a : DownstreamAct}
    {phase' : DownstreamPhase} {db' : Db} (h : c.Effect w.db a phase' db')
    (hi : w.calls i = some (.downstream c))
    (hintime : Action.writesInTime w (.downstream i a) = true)
    (hdb : w.db.PerJob CompletionLog) : db'.PerJob CompletionLog := by
  cases h with
  | @completed result eventId _ _ _ _ _ _ hrow hs =>
    refine hdb.recorded rfl rfl rfl fun hlog => ?_
    rw [hrow, CompletionLog.of_unfinished (by rw [hs]; decide)] at hlog
    refine (CompletionLog.of_finished rfl).mpr ⟨c.completionEvent result eventId, ?_, ?_⟩
    · rw [eventsOfType_append_of_eq (by simp [completionEvent]), hlog, List.nil_append]
    · simp [completionEvent, StatusChange.applyTo, successChange, jobResult,
        Dict.get?_cons_of_ne]
  | completedLate ha hf _ hnone =>
    obtain ⟨row, hrow, hs⟩ := Action.writesInTime_complete hi hf (ha ▸ hintime)
    exact absurd hs (hnone row hrow)
  | failed _ _ _ hrow hs =>
    refine hdb.recorded rfl rfl rfl fun hlog => ?_
    rw [hrow] at hlog
    refine hlog.unfinished ?_ (by simp [failureChange]) (by simp [failureEvent])
    rcases hs with hs | hs <;> rw [hs] <;> decide
  | failedLate ha hf _ hnone =>
    obtain ⟨row, hrow, hs⟩ := Action.writesInTime_fail hi hf (ha ▸ hintime)
    exact absurd hs (hnone row hrow)
  | _ => exact hdb

/-- In runs whose downstream writes are in time the completions in the log are those of the
rows. -/
theorem completionLog_of_reachable
    (h : ((modesCBC topics).restrict fun w a => a.writesInTime w).Reachable w) :
    w.db.PerJob CompletionLog := by
  refine h.rec_on_step (P := fun w => w.db.PerJob CompletionLog) ?_ ?_
  · rintro w ⟨hdb, -⟩ jobId
    rw [hdb]
    exact rfl
  · intro w a w' hw hdb hstep
    obtain ⟨hintime, hstep⟩ := TransitionSystem.restrict_step_eq_some.mp hstep
    obtain ⟨hok, hstep⟩ := TransitionSystem.restrict_step_eq_some.mp hstep
    cases World.effect_of_step hstep with
    | unchanged => exact hdb
    | @created ids payload _ hjob =>
      refine hdb.recorded (JobService.createdDb_jobs ..) (JobService.createdDb_events ..) rfl
        fun hlog => ?_
      rw [hjob] at hlog
      refine CompletionLog.append_of_ne ?_ (by simp [JobService.requestEvent])
      exact (CompletionLog.of_unfinished (by simp [JobService.newJob, Job.toRow])).mpr hlog
    | started => exact hdb
    | worker hi => exact absurd hi (modesCBC_calls hw.of_restrict)
    | inference _ heff => exact heff.completionLog hdb
    | downstream hi heff => exact heff.completionLog hi hintime hdb
    | renewed => simp [Action.startsOnly] at hok
    | ticked => exact hdb

/-- Each failure of the downstream stage among the events that a step logged was committed together
with a move of its job into `FAILED`. -/
def FailuresMove (w w' : World) : Prop :=
  ∃ new, w'.db.events = w.db.events ++ new ∧ ∀ e ∈ new, e.eventType = .failed →
    e.source = "downstream-worker" → ∃ row row', w.db.jobs e.jobId = some row ∧
      w'.db.jobs e.jobId = some row' ∧ row.status ≠ .failed ∧ row'.status = .failed

/-- The failures logged by a step that is in time move their jobs. -/
theorem failuresMove_of_step (hw : (modesCBC topics).Reachable w) {a : Action}
    (hintime : a.writesInTime w = true) (hstep : (modesCBC topics).step w a = some w') :
    FailuresMove w w' := by
  obtain ⟨hok, hstep⟩ := TransitionSystem.restrict_step_eq_some.mp hstep
  have hnil : w'.db.events = w.db.events → FailuresMove w w' := fun heq =>
    ⟨[], by rw [heq, List.append_nil], fun e he => absurd he List.not_mem_nil⟩
  cases World.effect_of_step hstep with
  | unchanged => exact hnil rfl
  | created => exact ⟨_, rfl, by simp [JobService.requestEvent]⟩
  | started => exact hnil rfl
  | worker hi => exact absurd hi (modesCBC_calls hw)
  | inference hi heff =>
    cases heff with
    | claimed => exact ⟨_, rfl, by simp [LeasedCall.startEvent]⟩
    | completed _ htx =>
      obtain rfl := InferencePipelineService.completeTx_eq_some_iff.mp htx
      exact ⟨_, rfl, by simp⟩
    | failed => exact ⟨_, rfl, by simp [LeasedCall.failureEvent]⟩
    | _ => exact hnil rfl
  | downstream hi heff =>
    cases heff with
    | completed => exact ⟨_, rfl, by simp [DownstreamCall.completionEvent]⟩
    | completedLate => exact ⟨_, rfl, by simp [DownstreamCall.completionEvent]⟩
    | failed _ _ _ hrow hs =>
      refine ⟨_, rfl, fun e he _ _ => ?_⟩
      obtain rfl := List.mem_singleton.mp he
      refine ⟨_, _, hrow, KeyedTable.set_self .., ?_, rfl⟩
      rcases hs with hs | hs <;> rw [hs] <;> decide
    | failedLate ha hf _ hnone =>
      obtain ⟨row, hrow, hs⟩ := Action.writesInTime_fail hi hf (ha ▸ hintime)
      exact absurd hs (hnone row hrow)
    | _ => exact hnil rfl
  | renewed => simp [Action.startsOnly] at hok
  | ticked => exact hnil rfl

/-- The log of a job with a row tells one completion when the job is `SUCCESS`, and none
otherwise. -/
def World.CompletesOnce (w : World) : Prop :=
  ∀ jobId row, w.db.jobs jobId = some row →
    (eventsOfType .downstreamCompleted (w.db.eventsOf jobId)).length =
      if row.status = .success then 1 else 0

theorem Db.PerJob.completesOnce (h : w.db.PerJob CompletionLog) : w.CompletesOnce := by
  intro jobId row hrow
  have hlog := h jobId
  rw [hrow] at hlog
  by_cases hs : row.status = .success
  · obtain ⟨e, he, -⟩ := (CompletionLog.of_finished hs).mp hlog
    rw [he, if_pos hs, List.length_singleton]
  · rw [(CompletionLog.of_unfinished hs).mp hlog, if_neg hs, List.length_nil]

/-- A write that is in time finds a job that is processed or finished. -/
theorem Action.completesInTime_of_writesInTime {a : Action} (h : a.writesInTime w = true) :
    a.completesInTime w = true := by
  unfold Action.completesInTime
  split
  · next i eventId =>
    split
    · next c hi =>
      obtain ⟨row, hrow, hs⟩ := Action.writesInTime_complete hi rfl h
      simp [hrow, hs]
    · rfl
  · rfl

/-- A completion that changes no row is one too many. -/
theorem World.CompletesOnce.not_logged {c : DownstreamCall} {i : ℕ} {result : Dict}
    {eventId : Uuid} {row : JobRow} (hw : w.CompletesOnce)
    (hrow : w.db.jobs c.event.jobId = some row) (call : Call) :
    ¬ (w.goOn i call (w.db.logged (c.completionEvent result eventId))).CompletesOnce := by
  intro hw'
  have hnew := hw' c.event.jobId row hrow
  have hlogged : (w.db.logged (c.completionEvent result eventId)).eventsOf c.event.jobId =
      w.db.eventsOf c.event.jobId ++ [c.completionEvent result eventId] := by
    simp [Db.eventsOf, Db.logged, DownstreamCall.completionEvent]
  rw [World.goOn_db, hlogged, eventsOfType_append_of_eq (by simp [DownstreamCall.completionEvent]),
    List.length_append, hw c.event.jobId row hrow] at hnew
  simp at hnew

theorem not_failuresMove_logged {c : DownstreamCall} {i : ℕ} {error : String} {eventId : Uuid}
    (call : Call) :
    ¬ FailuresMove w (w.goOn i call (w.db.logged (c.failureEvent error eventId))) := by
  rintro ⟨new, hnew, hmove⟩
  obtain rfl : [c.failureEvent error eventId] = new := List.append_cancel_left hnew
  obtain ⟨row, row', hrow, hrow', hs, hs'⟩ := hmove _ List.mem_cons_self rfl rfl
  obtain rfl : row = row' := Option.some.inj (hrow.symm.trans hrow')
  exact hs hs'

/-- A write of the downstream stage that is not in time is logged, and no change stands behind
it. -/
theorem not_told_of_late (hw : w.CompletesOnce)
    (hjust : ∀ i c, w.calls i = some (.downstream c) → c.Justified w.db.jobs) {a : Action}
    (hstep : w.step topics a = some w') (hlate : a.writesInTime w = false) :
    ¬ (w'.CompletesOnce ∧ FailuresMove w w') := by
  unfold Action.writesInTime at hlate
  split at hlate
  · next i eventId fate =>
    split at hlate
    · next c hi =>
      obtain ⟨hf, hnone⟩ : fate.takesEffect = true ∧
          ∀ row, w.db.jobs c.event.jobId = some row → row.status ≠ .processing := by
        simpa [Option.any_eq_false] using hlate
      cases hp : c.phase with
      | completing result =>
        obtain ⟨phase', hcall⟩ := DownstreamCall.step_completeLate eventId hp hf hnone
        obtain rfl : w.goOn i _ _ = w' := by simpa [World.step, hi, hcall] using hstep
        have hjob := hjust i c hi
        rw [DownstreamCall.Justified, hp] at hjob
        obtain ⟨row, hrow⟩ := hjob
        exact fun h => hw.not_logged hrow _ h.1
      | _ => simp [World.step, hi, DownstreamCall.step, DownstreamCall.phaseStep, hp] at hstep
    · cases hlate
  · next i eventId fate =>
    split at hlate
    · next c hi =>
      obtain ⟨hf, hnone⟩ : fate.takesEffect = true ∧ ∀ row, w.db.jobs c.event.jobId = some row →
          ¬(row.status = .pending ∨ row.status = .processing) := by
        simpa [Option.any_eq_false] using hlate
      cases hp : c.phase with
      | failing error =>
        obtain ⟨phase', hcall⟩ := DownstreamCall.step_failLate eventId hp hf hnone
        obtain rfl : w.goOn i _ _ = w' := by simpa [World.step, hi, hcall] using hstep
        exact fun h => not_failuresMove_logged _ h.2
      | _ => simp [World.step, hi, DownstreamCall.step, DownstreamCall.phaseStep, hp] at hstep
    · cases hlate
  · cases hlate

/-- **When the log agrees with the row.** In every run of the modes C and BC whose downstream
writes find the job in a status that they change: the log of a job tells one downstream completion
when the job is `SUCCESS` and none otherwise, with the downstream part of the result of the row; and
every failure told by the downstream stage was committed together with a move of its job into
`FAILED`. A write outside this condition tells of a completion or a failure that is not so. -/
theorem log_agrees_iff_in_time
    (h : ((modesCBC topics).restrict fun w a => a.writesInTime w).Reachable w) :
    (∀ jobId row, w.db.jobs jobId = some row →
      (eventsOfType .downstreamCompleted (w.db.eventsOf jobId)).length =
        (if row.status = .success then 1 else 0) ∧
      ∀ e ∈ eventsOfType .downstreamCompleted (w.db.eventsOf jobId),
        e.payload.get? "result" = row.result.bind fun result => Dict.get? result "downstream") ∧
    (∀ a w', ((modesCBC topics).restrict fun w a => a.writesInTime w).step w a = some w' →
      FailuresMove w w') ∧
    ∀ a w', (modesCBC topics).step w a = some w' → a.writesInTime w = false →
      ¬ (w'.CompletesOnce ∧ FailuresMove w w') := by
  have hlog := completionLog_of_reachable h
  have hjust : ∀ i c, w.calls i = some (.downstream c) → c.Justified w.db.jobs :=
    justified_of_reachable (h.restrict_mono fun _ _ => Action.completesInTime_of_writesInTime)
  refine ⟨fun jobId row hrow => ⟨hlog.completesOnce jobId row hrow, fun e he => ?_⟩,
    fun a w' hstep => ?_, fun a w' hstep hlate => ?_⟩
  · have hjob := hlog jobId
    rw [hrow] at hjob
    by_cases hs : row.status = .success
    · obtain ⟨e', he', hpayload⟩ := (CompletionLog.of_finished hs).mp hjob
      rw [he'] at he
      rw [List.mem_singleton.mp he, hpayload]
    · rw [(CompletionLog.of_unfinished hs).mp hjob] at he
      exact absurd he List.not_mem_nil
  · obtain ⟨hintime, hstep⟩ := TransitionSystem.restrict_step_eq_some.mp hstep
    exact failuresMove_of_step h.of_restrict hintime hstep
  · obtain ⟨-, hstep⟩ := TransitionSystem.restrict_step_eq_some.mp hstep
    exact not_told_of_late hlog.completesOnce hjust hstep hlate

/-- A delivery that finishes the job is told once. -/
theorem log_agrees_iff_in_time_straight : ∃ w row,
    (modesCBC ⟨"requests", "downstream"⟩).Reachable w ∧ w.db.jobs 1 = some row ∧
    row.status = .success ∧
    (eventsOfType .downstreamCompleted (w.db.eventsOf 1)).length = 1 := by
  let topics : Topics := ⟨"requests", "downstream"⟩
  have hw := TransitionSystem.Reachable.get
    (T := (modesCBC topics).restrict fun w a => a.writesInTime w)
    (exampleInference ++ [.start 1 .downstream exampleEnvelope, .downstream 1 (.read none),
      .downstream 1 (.process (.ok [])), .downstream 1 (.complete 20 .commits)])
    (pipeline_init_initial topics) rfl
  exact ⟨_, _, hw.of_restrict, rfl, rfl, ((log_agrees_iff_in_time hw).1 1 _ rfl).1⟩

/-- **Two completions of one job.** Two concurrent deliveries of the envelope of a job both read it
before either is recorded; both are recorded. -/
theorem completions_not_once :
    ¬ ∀ w, (modesCBC ⟨"requests", "downstream"⟩).Reachable w → ∀ jobId row,
      w.db.jobs jobId = some row →
      (eventsOfType .downstreamCompleted (w.db.eventsOf jobId)).length =
        if row.status = .success then 1 else 0 := by
  intro h
  let topics : Topics := ⟨"requests", "downstream"⟩
  have hw := TransitionSystem.Reachable.get (T := modesCBC topics)
    (exampleInference ++ [.start 1 .downstream exampleEnvelope,
      .start 2 .downstream exampleEnvelope, .downstream 1 (.read none), .downstream 2 (.read none),
      .downstream 1 (.process (.ok [])), .downstream 2 (.process (.ok [])),
      .downstream 1 (.complete 20 .commits), .downstream 2 (.complete 21 .commits)])
    (pipeline_init_initial topics) rfl
  cases h _ hw 1 _ rfl

end Morphflow
