import Morphflow.Cluster.Messages
import Morphflow.Cluster.NoLostJob

/-!
# One trace for each job

The log of a job begins with the event of its request, which is the only one of its type, and every
later event of the job carries the trace of the request. So does every envelope about the job,
wherever it is: waiting in the outbox, in a log, retried any number of times, or a dead letter.

## Main definitions

* `JobLog`, `Db.Tells`, `Cluster.Traced`, `Cluster.Holds`.

## Main results

* `one_trace_per_job`.
-/

namespace Morphflow

variable {P : Type*} {cfg : ClusterConfig P} {w w' : Cluster P}

/-- The log of a job begins with the event of its request; the others carry the trace of it. -/
def JobLog (row? : Option JobRow) (events : List Event) : Prop :=
  (row? = none ∧ events = []) ∨
  ∃ row request rest, row? = some row ∧ events = request :: rest ∧
    request.eventType = .requested ∧ request.payload = [("request", .obj row.requestPayload)] ∧
    ∀ e ∈ rest, e.eventType ≠ .requested ∧ e.traceId = request.traceId

/-- The log of the job begins with an event of the trace of the envelope. -/
def Db.Tells (db : Db) (e : Event) : Prop :=
  ∃ request rest, db.eventsOf e.jobId = request :: rest ∧ request.traceId = e.traceId

theorem Db.Tells.grow {db db' : Db} {e : Event} (h : db.Tells e)
    (hp : db.events <+: db'.events) : db'.Tells e := by
  obtain ⟨request, rest, hevents, htrace⟩ := h
  obtain ⟨more, hmore⟩ := hp
  refine ⟨request, rest ++ more.filter fun e' => e'.jobId == e.jobId, ?_, htrace⟩
  rw [Db.eventsOf, ← hmore, List.filter_append, ← Db.eventsOf, hevents, List.cons_append]

theorem Db.Tells.of_log {db : Db} {e : Event} (h : db.PerJob JobLog) (he : e ∈ db.events) :
    db.Tells e := by
  have hmem : e ∈ db.eventsOf e.jobId := List.mem_filter.mpr ⟨he, beq_self_eq_true _⟩
  rcases h e.jobId with ⟨-, hnil⟩ | ⟨row, request, rest, -, hevents, -, -, hrest⟩
  · rw [hnil] at hmem
    cases hmem
  · refine ⟨request, rest, hevents, ?_⟩
    rw [hevents] at hmem
    rcases List.mem_cons.mp hmem with rfl | hmem
    · rfl
    · exact (hrest e hmem).2.symm

/-- An event of the trace of the request may be logged, and the row may change but for its
request. -/
theorem JobLog.append {row row' : JobRow} {events : List Event} {e : Event}
    (h : JobLog (some row) events) (hrequest : row'.requestPayload = row.requestPayload)
    (htype : e.eventType ≠ .requested)
    (htrace : ∃ request rest, events = request :: rest ∧ request.traceId = e.traceId) :
    JobLog (some row') (events ++ [e]) := by
  rcases h with ⟨hnone, -⟩ | ⟨row₀, request, rest, hrow, rfl, hfirst, hpayload, hrest⟩
  · cases hnone
  obtain rfl := Option.some.inj hrow
  obtain ⟨request', rest', heq, htrace⟩ := htrace
  obtain ⟨rfl, rfl⟩ := List.cons.inj heq
  refine .inr ⟨row', request, rest ++ [e], rfl, rfl, hfirst, hrequest ▸ hpayload, fun e' he' => ?_⟩
  rcases List.mem_append.mp he' with he' | he'
  · exact hrest e' he'
  · obtain rfl := List.mem_singleton.mp he'
    exact ⟨htype, htrace.symm⟩

namespace Cluster

/-- The invariant: the logs of the jobs are in order, and tell of every message. -/
structure Traced (cfg : ClusterConfig P) (w : Cluster P) : Prop where
  logs : w.db.PerJob JobLog
  messages : w.Messages cfg fun _ e => w.db.Tells e

/-- The envelope is somewhere in the deployment. -/
def Holds (w : Cluster P) (e : Event) : Prop :=
  e ∈ w.db.events ∨ (∃ row ∈ w.db.outbox, row.payload = e) ∨
  (∃ g p, ∃ record ∈ (w.groups g).log p, record.value = e) ∨ ∃ record ∈ w.dlq, record.value = e

/-- The event of a request begins the log of its job. -/
theorem logs_create {topic : String} {ids : RequestIds} {payload : Dict} {db : Db}
    (h : db.PerJob JobLog) (hjob : db.jobs ids.jobId = none) :
    (JobService.createdDb topic ids payload db).PerJob JobLog := by
  refine h.recorded rfl rfl rfl fun hold => ?_
  rcases hold with ⟨-, hnil⟩ | ⟨row, _, _, hrow, -⟩
  · rw [hnil]
    exact .inr ⟨_, _, [], rfl, rfl, rfl, rfl, fun e he => absurd he List.not_mem_nil⟩
  · cases hjob.symm.trans hrow

/-- A call that works on an event the log tells of keeps the logs in order. -/
theorem logs_write {topic : String} {call : Call} {db db' : Db} (h : db.PerJob JobLog)
    (htells : db.Tells call.event) (hwrite : call.Write topic db db') : db'.PerJob JobLog := by
  obtain ⟨request, rest, hevents, htrace⟩ := htells
  have hknown : ∃ row, db.jobs call.event.jobId = some row := by
    rcases h call.event.jobId with ⟨-, hnil⟩ | ⟨row, _, _, hrow, -⟩
    · cases hnil.symm.trans hevents
    · exact ⟨row, hrow⟩
  cases hwrite with
  | nothing => exact h
  | recorded hrow hjob htrace' htype hrequest =>
    refine h.recorded rfl rfl hjob fun hold => ?_
    rw [hrow] at hold
    exact hold.append hrequest htype ⟨request, rest, hevents, htrace.trans htrace'.symm⟩
  | @logged e hjob htrace' htype =>
    refine h.logged rfl rfl fun hold => ?_
    obtain ⟨row, hrow⟩ := hknown
    rw [hjob, hrow] at hold ⊢
    exact hold.append rfl htype ⟨request, rest, hevents, htrace.trans htrace'.symm⟩
  | @handed c lease result ids hcall hp =>
    subst hcall
    refine Db.PerJob.logged h rfl rfl fun hold => ?_
    obtain ⟨row, hrow⟩ := hknown
    replace hrow : db.jobs c.event.jobId = some row := hrow
    rw [buildEvent_jobId, hrow] at hold ⊢
    exact hold.append rfl (by simp) ⟨request, rest, hevents, htrace⟩

namespace Traced

theorem initial : (Cluster.initial : Cluster P).Traced cfg where
  logs _ := .inl ⟨rfl, rfl⟩
  messages := by
    refine ⟨fun row hmem => ?_, fun g p record hmem => ?_, fun record hmem => ?_⟩ <;> cases hmem

theorem tells (h : w.Traced cfg) (hs : w.Sound cfg) {e : Event} (he : w.Holds e) :
    w.db.Tells e := by
  rcases he with he | ⟨row, hmem, rfl⟩ | ⟨g, p, record, hmem, rfl⟩ | ⟨record, hmem, rfl⟩
  · exact .of_log h.logs he
  · exact (h.messages.of_row hs hmem).choose_spec
  · exact (h.messages.of_record hs hmem).choose_spec
  · exact (h.messages.deadLetters record hmem).choose_spec

variable [DecidableEq P] [Fintype P]

theorem of_effect (h : w.Traced cfg) (hs : w.Sound cfg) {a : ClusterAct P}
    (heff : Effect cfg w a w') : w'.Traced cfg := by
  have htells : ∀ g p m call, (w.groups g).handling? p = some (m, .calling call) →
      w.db.Tells call.event := fun g p m call hx => by
    rw [show call.event = m.value from (hs.handling g p m _ hx).1]
    exact h.messages.in_hand hs hx
  have hlogs : w'.db.PerJob JobLog := by
    rcases heff.db_cases with ⟨hj, he⟩ | ⟨ids, payload, fate, -, hjob, hdb⟩ |
      ⟨g, p, m, call, hx, hwrite⟩
    · intro k
      rw [hj, Db.eventsOf, he]
      exact h.logs k
    · exact hdb ▸ logs_create h.logs hjob
    · exact logs_write h.logs (htells g p m call hx) hwrite
  refine ⟨hlogs, h.messages.of_effect hs heff (fun _ e he => he.grow heff.events_prefix) ?_ ?_⟩
  · intro ids payload fate _ hdb
    refine .of_log hlogs ?_
    rw [hdb]
    exact List.mem_append_right _ (List.mem_singleton_self _)
  · intro g p m c lease result ids hx _ _
    exact (htells g p m _ hx).grow heff.events_prefix

theorem of_reachable (h : (clusterSystem cfg).Reachable w) : w.Traced cfg :=
  h.rec_on_step (P := fun w => w.Traced cfg) (fun _ h₀ => h₀ ▸ Traced.initial)
    fun _ _ _ hr ht hstep => ht.of_effect (.of_reachable hr) (effect_of_step hstep)

end Traced

end Cluster

/-- **One trace for each job.** Every envelope of the deployment is about a job that exists. The log
of the job begins with the event of its request, the only one of its type, which has the payload of
the row; the envelope and every event of the log carry the trace of that event. -/
theorem one_trace_per_job [DecidableEq P] [Fintype P] (h : (clusterSystem cfg).Reachable w)
    {e : Event} (he : w.Holds e) : ∃ row request rest, w.db.jobs e.jobId = some row ∧
      w.db.eventsOf e.jobId = request :: rest ∧ request.eventType = .requested ∧
      request.payload = [("request", .obj row.requestPayload)] ∧ request.traceId = e.traceId ∧
      ∀ e' ∈ rest, e'.eventType ≠ .requested ∧ e'.traceId = e.traceId := by
  have htraced := Cluster.Traced.of_reachable h
  obtain ⟨request, rest, hevents, htrace⟩ := htraced.tells (.of_reachable h) he
  rcases htraced.logs e.jobId with
    ⟨-, hnil⟩ | ⟨row, request', rest', hrow, heq, hfirst, hpay, hrest⟩
  · cases hnil.symm.trans hevents
  · obtain ⟨rfl, rfl⟩ := List.cons.inj (heq.symm.trans hevents)
    exact ⟨row, request', rest', hrow, hevents, hfirst, hpay, htrace,
      fun e' he' => ⟨(hrest e' he').1, (hrest e' he').2.trans htrace⟩⟩

/-- The message that waits for the downstream stage carries the trace of the request. -/
theorem one_trace_per_job_switched : ∃ row ∈ exampleSwitched.db.outbox,
    row.topic = "downstream-topic" ∧ ∃ job request rest,
      exampleSwitched.db.jobs row.payload.jobId = some job ∧
      exampleSwitched.db.eventsOf row.payload.jobId = request :: rest ∧
      request.eventType = .requested ∧
      request.payload = [("request", .obj job.requestPayload)] ∧
      request.traceId = row.payload.traceId ∧
      ∀ e' ∈ rest, e'.eventType ≠ .requested ∧ e'.traceId = row.payload.traceId := by
  have hreach : (clusterSystem exampleCluster).Reachable exampleSwitched :=
    TransitionSystem.Reachable.get (T := clusterSystem exampleCluster) exampleSwitch rfl
      (by decide)
  have hlast : exampleSwitched.db.outbox.getLast? =
    some ((exampleSwitched.db.outbox.getLast?).get (by decide)) := (Option.some_get _).symm
  have hmem := List.mem_of_getLast? hlast
  exact ⟨_, hmem, by decide, one_trace_per_job hreach (.inr (.inl ⟨_, hmem, rfl⟩))⟩

end Morphflow
