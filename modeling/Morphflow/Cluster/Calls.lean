import Morphflow.Pipeline.Handover

/-!
# A call of any service

The workers of a deployment run different services, so the steps of a call are those of whichever
service it belongs to. What a step writes is said once for all of them: nothing, the row of the job
with an event, an event alone, or a handover to the downstream stage.

## Main definitions

* `CallAct`, `Call.step`, `Call.outcome?`, `Call.Effect`.
* `Call.Write`, `Call.Stores`.

## Main results

* `Call.effect_of_step`: everything a step can do.
* `Call.Effect.write`: what it writes.
-/

namespace Morphflow

/-! ### Calls of any service -/

/-- The steps of a call. -/
inductive CallAct
  | leased (a : LeasedAct)
  | downstream (a : DownstreamAct)

/-- The identifier of an outbox row is drawn by the database. -/
def CallAct.drawsFresh (rows : List OutboxRow) : CallAct → Bool
  | .leased (.complete ids _) => decide (∀ row ∈ rows, row.id ≠ ids.rowId)
  | _ => true

/-- What an ended call gave: the pair it returned, or the text of its exception. -/
def LeasedPhase.outcome? : LeasedPhase → Option (Except String (Bool × Option String))
  | .returned success error => some (.ok (success, error))
  | .raised e => some (.error e)
  | _ => none

/-- What an ended call gave. -/
def DownstreamPhase.outcome? : DownstreamPhase → Option (Except String (Bool × Option String))
  | .returned success error => some (.ok (success, error))
  | .raised e => some (.error e)
  | _ => none

namespace Call

/-- The event a call is about. -/
def event : Call → Event
  | .worker c => c.event
  | .inference c => c.event
  | .downstream c => c.event

/-- What an ended call gave. -/
def outcome? : Call → Option (Except String (Bool × Option String))
  | .worker c => c.phase.outcome?
  | .inference c => c.phase.outcome?
  | .downstream c => c.phase.outcome?

/-- A step of a call; `topic` is the topic of the downstream stage. -/
def step (topic : String) : Call → Db → CallAct → Option (Call × Db)
  | .worker c, db, .leased a => (WorkerService.step c db a).map fun r => (.worker r.1, r.2)
  | .inference c, db, .leased a =>
    (InferencePipelineService.step topic c db a).map fun r => (.inference r.1, r.2)
  | .downstream c, db, .downstream a => (c.step db a).map fun r => (.downstream r.1, r.2)
  | _, _, _ => none

/-- What a step of a call does. The outbox grows by a handover only, by a row of a new
identifier. -/
inductive Effect (topic : String) (db : Db) : Call → CallAct → Call → Db → Prop
  | worker {c : LeasedCall} {a : LeasedAct} {phase' : LeasedPhase} {db' : Db}
      (heff : c.Effect "worker" WorkerService.completeTx db a phase' db') :
      Effect topic db (.worker c) (.leased a) (.worker { c with phase := phase' }) db'
  | inference {c : LeasedCall} {a : LeasedAct} {phase' : LeasedPhase} {db' : Db}
      (heff : c.Effect "inference-worker" (InferencePipelineService.completeTx topic) db a phase'
        db')
      (hhanded : db'.outbox = db.outbox ∨ ∃ lease result ids, c.phase = .completing lease result ∧
        db' = InferencePipelineService.handedOverDb topic c result ids db ∧
        ∀ row ∈ db.outbox, row.id ≠ ids.rowId) :
      Effect topic db (.inference c) (.leased a) (.inference { c with phase := phase' }) db'
  | downstream {c : DownstreamCall} {a : DownstreamAct} {phase' : DownstreamPhase} {db' : Db}
      (heff : c.Effect db a phase' db') :
      Effect topic db (.downstream c) (.downstream a) (.downstream { c with phase := phase' }) db'

theorem effect_of_step {topic : String} {call call' : Call} {db db' : Db} {a : CallAct}
    (h : call.step topic db a = some (call', db')) (hfresh : a.drawsFresh db.outbox = true) :
    Effect topic db call a call' db' := by
  cases call <;> cases a <;> simp only [step, reduceCtorEq] at h <;>
    obtain ⟨⟨c', db₁⟩, hstep, heq⟩ := Option.map_eq_some_iff.mp h <;>
    obtain ⟨rfl, rfl⟩ := Prod.mk.inj heq
  · obtain ⟨phase', rfl, heff⟩ := LeasedCall.effect_of_step hstep
    exact .worker heff
  · next c a =>
    obtain ⟨phase', rfl, heff⟩ := LeasedCall.effect_of_step hstep
    refine .inference heff ?_
    cases hp : c.phase with
    | completing lease result =>
      obtain ⟨ids, fate, rfl, ⟨-, -, -, hdb⟩ | ⟨-, hdb⟩⟩ :=
        InferencePipelineService.handed_of_completing hp hstep
      · exact .inr ⟨lease, result, ids, rfl, hdb, of_decide_eq_true hfresh⟩
      · exact .inl (congrArg Db.outbox hdb)
    | _ => exact .inl (heff.quiet fun _ _ _ _ hp' => by cases hp.symm.trans hp').1
  · obtain ⟨phase', rfl, heff⟩ := DownstreamCall.effect_of_step hstep
    exact .downstream heff

theorem Effect.event_eq {topic : String} {call call' : Call} {db db' : Db} {a : CallAct}
    (h : Effect topic db call a call' db') : call'.event = call.event := by
  cases h <;> rfl

/-! ### What a step writes -/

/-- The result that a call is about to store. -/
def Stores (result : Dict) : Call → Prop
  | .worker c => ∃ lease, c.phase = .completing lease result
  | .inference _ => False
  | .downstream c => ∃ value, c.phase = .completing value ∧ result = c.jobResult value

/-- What a step of a call may write. -/
inductive Write (topic : String) (call : Call) (db : Db) : Db → Prop
  | nothing : Write topic call db db
  /-- The row of the job and an event. -/
  | recorded {row row' : JobRow} {e : Event} (hrow : db.jobs call.event.jobId = some row)
      (hjob : e.jobId = call.event.jobId) (htrace : e.traceId = call.event.traceId)
      (htype : e.eventType ≠ .requested) (hrequest : row'.requestPayload = row.requestPayload)
      (hresult : (row'.status ≠ .success ∧ row'.result = row.result) ∨
        ∃ result, row'.result = some result ∧ call.Stores result) :
      Write topic call db (db.recorded call.event.jobId row' e)
  /-- An event alone. -/
  | logged {e : Event} (hjob : e.jobId = call.event.jobId)
      (htrace : e.traceId = call.event.traceId) (htype : e.eventType ≠ .requested) :
      Write topic call db (db.logged e)
  /-- An event and a message for the downstream stage. -/
  | handed {c : LeasedCall} {lease : JobLease} {result : Dict} {ids : CompletionIds}
      (hcall : call = .inference c) (hp : c.phase = .completing lease result)
      (hid : ∀ row ∈ db.outbox, row.id ≠ ids.rowId) :
      Write topic call db (InferencePipelineService.handedOverDb topic c result ids db)

/-- What a call under a lease writes but for its completion. -/
private theorem leased_write {topic source : String} {completeTx : CompleteTx} (call : Call)
    {c : LeasedCall} {db db' : Db} {a : LeasedAct} {phase' : LeasedPhase}
    (hevent : call.event = c.event) (h : c.Effect source completeTx db a phase' db') :
    call.Write topic db db' ∨ ∃ lease result ids, c.phase = .completing lease result ∧
      completeTx c lease result ids db = .ok (some ((), db')) := by
  cases h with
  | claimed _ _ hrow =>
    rw [← hevent] at hrow
    rw [LeasedCall.claimedDb, ← hevent]
    exact .inl (.recorded hrow (hevent ▸ rfl) (hevent ▸ rfl) (by simp [LeasedCall.startEvent]) rfl
      (.inl ⟨by simp, rfl⟩))
  | completed hp htx => exact .inr ⟨_, _, _, hp, htx⟩
  | failed _ hrow =>
    rw [← hevent] at hrow ⊢
    exact .inl (.recorded hrow (hevent ▸ rfl) (hevent ▸ rfl) (by simp [LeasedCall.failureEvent]) rfl
      (.inl ⟨by simp [LeasedCall.failureChange], rfl⟩))
  | _ => exact .inl .nothing

variable {topic : String} {call call' : Call} {db db' : Db} {a : CallAct}

/-- Every step writes in one of these ways. -/
theorem Effect.write (h : Effect topic db call a call' db') : call.Write topic db db' := by
  cases h with
  | @worker c a phase' db' heff =>
    rcases leased_write (.worker c) rfl heff with hw | ⟨lease, result, ids, hp, htx⟩
    · exact hw
    · obtain ⟨row, hrow, -, rfl⟩ := recordTx_eq_some_iff.mp htx
      exact .recorded hrow rfl rfl (by simp [WorkerService.completionEvent]) rfl
        (.inr ⟨result, rfl, lease, hp⟩)
  | @inference c a phase' db' heff hhanded =>
    rcases leased_write (.inference c) rfl heff with hw | ⟨lease, result, ids, hp, htx⟩
    · exact hw
    · rcases hhanded with ho | ⟨lease', result', ids', hp', rfl, hid⟩
      · obtain rfl := InferencePipelineService.completeTx_eq_some_iff.mp htx
        have hlength := congrArg List.length ho
        simp [InferencePipelineService.handedOverDb, addOutbox] at hlength
      · exact .handed rfl hp' hid
  | downstream heff =>
    cases heff with
    | completed _ _ hp hrow =>
      exact .recorded hrow rfl rfl (by simp [DownstreamCall.completionEvent]) rfl
        (.inr ⟨_, rfl, _, hp, rfl⟩)
    | completedLate => exact .logged rfl rfl (by simp [DownstreamCall.completionEvent])
    | failed _ _ _ hrow =>
      exact .recorded hrow rfl rfl (by simp [DownstreamCall.failureEvent]) rfl
        (.inl ⟨by simp [DownstreamCall.failureChange], rfl⟩)
    | failedLate => exact .logged rfl rfl (by simp [DownstreamCall.failureEvent])
    | _ => exact .nothing

namespace Write

theorem jobs_of_ne (h : call.Write topic db db') {k : Uuid} (hk : k ≠ call.event.jobId) :
    db'.jobs k = db.jobs k := by
  cases h with
  | recorded => exact KeyedTable.set_of_ne _ _ hk
  | _ => rfl

theorem row_kept (h : call.Write topic db db') {k : Uuid} {row : JobRow}
    (hrow : db.jobs k = some row) :
    ∃ row', db'.jobs k = some row' ∧ row'.requestPayload = row.requestPayload := by
  cases h with
  | @recorded row₀ row' e hrow₀ _ _ _ hrequest =>
    by_cases hk : k = call.event.jobId
    · subst hk
      obtain rfl := Option.some.inj (hrow₀.symm.trans hrow)
      exact ⟨row', KeyedTable.set_self .., hrequest⟩
    · exact ⟨row, (KeyedTable.set_of_ne _ _ hk).trans hrow, rfl⟩
  | _ => exact ⟨row, hrow, rfl⟩

theorem events_prefix (h : call.Write topic db db') : db.events <+: db'.events := by
  cases h with
  | nothing => exact List.prefix_rfl
  | _ => exact List.prefix_append ..

theorem outbox_eq_or (h : call.Write topic db db') :
    db'.outbox = db.outbox ∨ ∃ row, db'.outbox = db.outbox ++ [row] := by
  cases h with
  | handed => exact .inr ⟨_, rfl⟩
  | _ => exact .inl rfl

end Write

end Call

end Morphflow
