import Morphflow.Pipeline.System

/-!
# The log of a job replays to its row

In the modes A and B every transaction writes an event exactly when it changes the row of a job,
so the row can be computed back from the log. `replay` folds the log of a job, reading the values
from the payloads of the events; `JobRow.Replays` is what the log of a row looks like.

## Main definitions

* `Replay`, `replay`.
* `StartsLogged`, `JobRow.Replays`.

## Main results

* `replay_eq_row`: in every reachable state the log of a job replays to its row.
-/

namespace Morphflow

/-- The columns of a row that the log determines. -/
structure Replay where
  status : JobStatus
  leaseEpoch : ℤ
  result : Option Dict
  error : Option String

/-- The columns after an event; `none` without a request, or when a payload lacks its value. -/
def Replay.next (r : Option Replay) (e : Event) : Option Replay :=
  match e.eventType with
  | .requested => some ⟨.pending, 0, none, none⟩
  | .processingStarted =>
    r.bind fun r => ((e.payload.get? "lease_epoch").bind Json.toInt?).map fun epoch =>
      { r with status := .processing, leaseEpoch := epoch }
  | .processingCompleted =>
    r.bind fun r => ((e.payload.get? "result").bind Json.toObj?).map fun result =>
      { r with status := .success, result := some result }
  | .failed =>
    r.bind fun r => ((e.payload.get? "error").bind Json.toStr?).map fun error =>
      { r with status := .failed, error := some error }
  | .inferenceCompleted => r
  | .downstreamCompleted => r

/-- The columns after a log, from its first event on. -/
def replay (events : List Event) : Option Replay :=
  events.foldl Replay.next none

theorem replay_append (events : List Event) (e : Event) :
    replay (events ++ [e]) = Replay.next (replay events) e := by
  simp [replay]

/-- The replayed columns are those of the row; the error is compared in a failed row. -/
structure Replay.Agrees (r : Replay) (row : JobRow) : Prop where
  status : r.status = row.status
  leaseEpoch : r.leaseEpoch = row.leaseEpoch
  result : r.result = row.result
  error : row.status = .failed → r.error = row.errorMessage

/-- The epochs told by the events that start a processing. -/
def startedEpochs (events : List Event) : List (Option Json) :=
  (eventsOfType .processingStarted events).map fun e => e.payload.get? "lease_epoch"

/-- The log tells one start for each epoch handed out. -/
def StartsLogged (row? : Option JobRow) (events : List Event) : Prop :=
  startedEpochs events =
    (List.range' 1 (row?.elim 0 JobRow.leaseEpoch)).map fun n => some (.int (n : ℕ))

theorem startedEpochs_append_of_ne {e : Event} (h : e.eventType ≠ .processingStarted)
    (events : List Event) : startedEpochs (events ++ [e]) = startedEpochs events := by
  rw [startedEpochs, eventsOfType_append_of_ne h, startedEpochs]

theorem StartsLogged.append_of_ne {row? row?' : Option JobRow} {events : List Event} {e : Event}
    (h : StartsLogged row? events) (he : e.eventType ≠ .processingStarted)
    (hrow : row?'.elim 0 JobRow.leaseEpoch = row?.elim 0 JobRow.leaseEpoch) :
    StartsLogged row?' (events ++ [e]) := by
  rw [StartsLogged, startedEpochs_append_of_ne he, hrow]
  exact h

/-- A claim and its event. -/
theorem StartsLogged.claimed {row : JobRow} {events : List Event}
    (h : StartsLogged (some row) events) (source : String) (c : LeasedCall) (owner : String)
    (expiresAt : Instant) (eventId : Uuid) :
    StartsLogged (some (row.claimed owner expiresAt))
      (events ++ [c.startEvent source (row.leaseEpoch + 1) eventId]) := by
  rw [StartsLogged, startedEpochs] at h
  rw [StartsLogged, startedEpochs, eventsOfType_append_of_eq (by simp [LeasedCall.startEvent]),
    List.map_append, h, Option.elim_some, Option.elim_some, JobRow.claimed_leaseEpoch,
    List.range'_concat, List.map_append, Nat.one_mul, Nat.add_comm 1]
  rfl

/-- What the log of a row looks like. -/
structure JobRow.Replays (row : JobRow) (events : List Event) : Prop where
  agrees : ∃ r, replay events = some r ∧ r.Agrees row
  started : startedEpochs events =
    (List.range' 1 row.leaseEpoch).map fun n => some (.int (n : ℕ))
  completed : (eventsOfType .processingCompleted events).length =
    if row.status = .success then 1 else 0
  completedLast : ∀ e ∈ events.dropLast, e.eventType ≠ .processingCompleted

namespace JobRow.Replays

variable {row : JobRow} {events : List Event}

theorem ne_completed (h : row.Replays events) (hs : row.status ≠ .success) :
    ∀ e ∈ events, e.eventType ≠ .processingCompleted := by
  intro e he htype
  have hlen := h.completed
  rw [if_neg hs, List.length_eq_zero_iff, eventsOfType, List.filter_eq_nil_iff] at hlen
  exact hlen e he (by simp [htype])

/-- A completion has nothing after it. -/
theorem nil_of_completed (h : row.Replays events) {pre post : List Event} {e : Event}
    (hsplit : events = pre ++ e :: post) (he : e.eventType = .processingCompleted) :
    post = [] := by
  by_contra hpost
  refine h.completedLast e ?_ he
  rw [hsplit, List.dropLast_append_of_ne_nil (List.cons_ne_nil e post),
    List.dropLast_cons_of_ne_nil hpost]
  simp

theorem startsLogged (h : row.Replays events) : StartsLogged (some row) events :=
  h.started

theorem length_append_of_ne (h : row.Replays events) (hs : row.status ≠ .success) {e : Event}
    (he : e.eventType ≠ .processingCompleted) :
    (eventsOfType .processingCompleted (events ++ [e])).length = 0 := by
  rw [eventsOfType_append_of_ne he, h.completed, if_neg hs]

/-- The log of an unfinished job has no completion before its next event. -/
theorem completedLast_append (h : row.Replays events) (hs : row.status ≠ .success) (e : Event) :
    ∀ e' ∈ (events ++ [e]).dropLast, e'.eventType ≠ .processingCompleted := by
  rw [List.dropLast_concat]
  exact h.ne_completed hs

theorem requested (ids : RequestIds) (payload : Dict) :
    (JobService.newJob ids payload).toRow.Replays [JobService.requestEvent ids payload] where
  agrees := ⟨_, rfl, rfl, rfl, rfl, by rintro ⟨⟩⟩
  started := rfl
  completed := rfl
  completedLast := by simp

theorem claimed (h : row.Replays events) (hs : row.status ≠ .success) (source : String)
    (c : LeasedCall) (owner : String) (expiresAt : Instant) (eventId : Uuid) :
    (row.claimed owner expiresAt).Replays
      (events ++ [c.startEvent source (row.leaseEpoch + 1) eventId]) where
  agrees := by
    obtain ⟨r, hr, hag⟩ := h.agrees
    refine ⟨{ r with status := .processing, leaseEpoch := (row.leaseEpoch + 1 : ℕ) }, ?_, rfl, rfl,
      hag.result, by rintro ⟨⟩⟩
    rw [replay_append, hr]
    rfl
  started := h.startsLogged.claimed ..
  completed := h.length_append_of_ne hs (by simp [LeasedCall.startEvent])
  completedLast := h.completedLast_append hs _

theorem succeeded (h : row.Replays events) (hs : row.status ≠ .success) (c : LeasedCall)
    (lease : JobLease) (result : Dict) (eventId : Uuid) :
    ((WorkerService.successChange c lease result).applyTo row).Replays
      (events ++ [WorkerService.completionEvent c result eventId]) where
  agrees := by
    obtain ⟨r, hr, hag⟩ := h.agrees
    refine ⟨{ r with status := .success, result := some result }, ?_, rfl, hag.leaseEpoch, rfl,
      by rintro ⟨⟩⟩
    rw [replay_append, hr]
    rfl
  started := h.startsLogged.append_of_ne (by simp [WorkerService.completionEvent]) rfl
  completed := by
    rw [eventsOfType_append_of_eq (by simp [WorkerService.completionEvent]), List.length_append,
      h.completed, if_neg hs]
    rfl
  completedLast := h.completedLast_append hs _

theorem failed (h : row.Replays events) (hs : row.status ≠ .success) (source : String)
    (c : LeasedCall) (lease : JobLease) (error : String) (eventId : Uuid) :
    ((c.failureChange lease error).applyTo row).Replays
      (events ++ [c.failureEvent source error eventId]) where
  agrees := by
    obtain ⟨r, hr, hag⟩ := h.agrees
    refine ⟨{ r with status := .failed, error := some error }, ?_, rfl, hag.leaseEpoch, hag.result,
      fun _ => rfl⟩
    rw [replay_append, hr]
    rfl
  started := h.startsLogged.append_of_ne (by simp [LeasedCall.failureEvent]) rfl
  completed := h.length_append_of_ne hs (by simp [LeasedCall.failureEvent])
  completedLast := h.completedLast_append hs _

end JobRow.Replays

/-- The log of a job, empty while there is no row. -/
def LogReplays (row? : Option JobRow) (events : List Event) : Prop :=
  match row? with
  | none => events = []
  | some row => row.Replays events

theorem LeasedCall.Effect.logReplays {c : LeasedCall} {db db' : Db} {a : LeasedAct}
    {phase' : LeasedPhase} (h : c.Effect "worker" WorkerService.completeTx db a phase' db')
    (hdb : db.PerJob LogReplays) : db'.PerJob LogReplays := by
  cases h with
  | claimed _ _ hrow hc =>
    refine hdb.recorded rfl rfl rfl fun hlog => ?_
    rw [hrow] at hlog
    exact JobRow.Replays.claimed hlog (JobRow.ne_success_of_claimable hc) ..
  | completed _ htx =>
    obtain ⟨row, hrow, happ, rfl⟩ := recordTx_eq_some_iff.mp htx
    refine hdb.recorded rfl rfl rfl fun hlog => ?_
    rw [hrow] at hlog
    refine JobRow.Replays.succeeded hlog ?_ ..
    rw [(WorkerService.successChange_applies.mp happ).1]
    decide
  | failed _ hrow happ =>
    refine hdb.recorded rfl rfl rfl fun hlog => ?_
    rw [hrow] at hlog
    exact JobRow.Replays.failed hlog (LeasedCall.ne_success_of_failureChange happ) ..
  | _ => exact hdb

theorem logReplays_of_reachable {topics : Topics} {w : World} (h : (modesAB topics).Reachable w) :
    w.db.PerJob LogReplays := by
  refine h.rec_on_step (P := fun w => w.db.PerJob LogReplays) ?_ ?_
  · rintro w ⟨hdb, -⟩ jobId
    rw [hdb]
    exact rfl
  · intro w a w' hw hdb hstep
    obtain ⟨hok, hstep⟩ := TransitionSystem.restrict_step_eq_some.mp hstep
    cases World.effect_of_step hstep with
    | unchanged => exact hdb
    | @created ids payload _ hjob =>
      refine hdb.recorded (JobService.createdDb_jobs ..) (JobService.createdDb_events ..) rfl
        fun hlog => ?_
      rw [hjob] at hlog
      rw [show w.db.eventsOf ids.jobId = [] from hlog]
      exact JobRow.Replays.requested ..
    | started => exact hdb
    | worker hi heff => exact heff.logReplays hdb
    | inference hi => obtain ⟨c, ⟨⟩⟩ := modesAB_calls hw hi
    | downstream hi => obtain ⟨c, ⟨⟩⟩ := modesAB_calls hw hi
    | renewed => cases hok
    | ticked => exact hdb

/-- **The log replays to the row.** In every reachable state of the modes A and B and for every
job: the log folds to the status, the epoch and the result of the row and, in a failed row, to its
error; it tells one start for each epoch from one to that of the row, in order; it tells at most
one completion, and nothing after it. -/
theorem replay_eq_row {topics : Topics} {w : World} (h : (modesAB topics).Reachable w)
    {jobId : Uuid} {row : JobRow} (hrow : w.db.jobs jobId = some row) :
    (∃ r, replay (w.db.eventsOf jobId) = some r ∧ r.status = row.status ∧
      r.leaseEpoch = row.leaseEpoch ∧ r.result = row.result ∧
      (row.status = .failed → r.error = row.errorMessage)) ∧
    startedEpochs (w.db.eventsOf jobId) =
      (List.range' 1 row.leaseEpoch).map (fun n => some (.int (n : ℕ))) ∧
    (eventsOfType .processingCompleted (w.db.eventsOf jobId)).length ≤ 1 ∧
    ∀ pre e post, w.db.eventsOf jobId = pre ++ e :: post →
      e.eventType = .processingCompleted → post = [] := by
  have hlog := logReplays_of_reachable h jobId
  rw [hrow] at hlog
  have hlog : row.Replays (w.db.eventsOf jobId) := hlog
  obtain ⟨r, hr, hag⟩ := hlog.agrees
  refine ⟨⟨r, hr, hag.status, hag.leaseEpoch, hag.result, hag.error⟩, hlog.started, ?_, ?_⟩
  · rw [hlog.completed]
    split_ifs <;> decide
  · exact fun pre e post hsplit he => hlog.nil_of_completed hsplit he

/-- A job that failed under its first lease and succeeded under its second. -/
theorem replay_eq_row_second_attempt : ∃ w row,
    (modesAB ⟨"requests", "downstream"⟩).Reachable w ∧ w.db.jobs 1 = some row ∧
    row.status = .success ∧ row.leaseEpoch = 2 ∧
    ∃ r, replay (w.db.eventsOf 1) = some r ∧ r.status = row.status ∧ r.result = row.result := by
  let event := JobService.requestEvent ⟨1, 2, 3, 4, 5⟩ []
  have hw := TransitionSystem.Reachable.get (T := modesAB ⟨"requests", "downstream"⟩)
    [.create ⟨1, 2, 3, 4, 5⟩ [] .commits,
      .start 0 (.worker "a" 60) event, .leased 0 (.claim 0 10 .commits),
      .leased 0 (.process (.error "timeout")), .leased 0 (.fail 11 .commits),
      .start 1 (.worker "b" 60) event, .leased 1 (.claim 1 12 .commits),
      .leased 1 (.process (.ok [])), .leased 1 (.complete ⟨13, 0, 0, 0⟩ .commits)]
    (pipeline_init_initial ⟨"requests", "downstream"⟩) rfl
  refine ⟨_, _, hw, rfl, rfl, rfl, ?_⟩
  obtain ⟨⟨r, hr, hstatus, -, hresult, -⟩, -⟩ := @replay_eq_row _ _ hw 1 _ rfl
  exact ⟨r, hr, hstatus, hresult⟩

end Morphflow
