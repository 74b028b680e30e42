import Morphflow.Cluster.Messages
import Morphflow.Cluster.NoLostJob

/-!
# Where a result comes from

The result of a finished job is what the processors returned for the request of that job: what a
primary processor returned, or what it returned together with what the downstream processor returned
for both. What came from outside is observed along the run: the requests, and each value that a
processor returned with the argument it was called with.

A call keeps what its processor returned until it stores it, and by then the job may have been taken
over, retried, or handed on by several workers of both modes. The invariant follows the payload of
the request through all of them.

## Main definitions

* `Supply`, `Call.supply?`, `Cluster.supply?`.
* `Explains`, `Genuine`, `Call.Returned`, `Cluster.Explained`.

## Main results

* `result_of_own_request`.
-/

namespace Morphflow

variable {P : Type*} {cfg : ClusterConfig P} {w w' : Cluster P}

/-- What comes from outside: a request, or what a processor returned for its argument. -/
inductive Supply
  | submitted (jobId : Uuid) (payload : Dict)
  | primary (request : Json) (result : Dict)
  | downstream (payload : Dict) (result : Dict)

/-- What a processor returns in a step of a call. -/
def Call.supply? : Call → CallAct → Option Supply
  | .worker c, .leased (.process (.ok result)) =>
    (c.event.payload.get? "request").map fun request => .primary request result
  | .inference c, .leased (.process (.ok result)) =>
    (c.event.payload.get? "request").map fun request => .primary request result
  | .downstream c, .downstream (.process (.ok result)) => some (.downstream c.event.payload result)
  | _, _ => none

/-- What comes from outside in a step. -/
def Cluster.supply? (w : Cluster P) : ClusterAct P → Option Supply
  | .create ids payload _ => some (.submitted ids.jobId payload)
  | .call g p a =>
    match (w.groups g).handling? p with
    | some (_, .calling call) => call.supply? a
    | _ => none
  | _ => none

/-- The result is what the processors returned for the request. -/
def Explains (supplies : List Supply) (request result : Dict) : Prop :=
  .primary (.obj request) result ∈ supplies ∨
  ∃ r d, result = [("inference", .obj r), ("downstream", .obj d)] ∧
    .primary (.obj request) r ∈ supplies ∧
    .downstream [("request", .obj request), ("inference_result", .obj r)] d ∈ supplies

/-- The envelope for a group has the payload of the request of its job, and for the downstream
group what the primary processor returned for it. -/
def Genuine (supplies : List Supply) (db : Db) (g : ConsumerGroupId) (e : Event) : Prop :=
  ∃ row, db.jobs e.jobId = some row ∧
    match g with
    | .request => e.payload = [("request", .obj row.requestPayload)]
    | .downstream => ∃ r, .primary (.obj row.requestPayload) r ∈ supplies ∧
        e.payload = [("request", .obj row.requestPayload), ("inference_result", .obj r)]

/-- A call of the group has the value that its processor returned. -/
def Call.Returned (supplies : List Supply) (g : ConsumerGroupId) : Call → Prop
  | .worker c => ∀ lease result, c.phase = .completing lease result →
      ∃ request, c.event.payload.get? "request" = some request ∧ .primary request result ∈ supplies
  | .inference c => ∀ lease result, c.phase = .completing lease result →
      ∃ request, c.event.payload.get? "request" = some request ∧ .primary request result ∈ supplies
  | .downstream c => g = .downstream ∧ ∀ result, c.phase = .completing result →
      .downstream c.event.payload result ∈ supplies

/-- The row is of a submitted request, and its result is explained. -/
structure JobRow.Supplied (supplies : List Supply) (jobId : Uuid) (row : JobRow) : Prop where
  submitted : .submitted jobId row.requestPayload ∈ supplies
  finished : row.status = .success → row.result ≠ none
  result : ∀ result, row.result = some result → Explains supplies row.requestPayload result

/-- The invariant of a run that was given the supplies. -/
structure Cluster.Explained (cfg : ClusterConfig P) (supplies : List Supply) (w : Cluster P) :
    Prop where
  messages : w.Messages cfg (Genuine supplies w.db)
  calls : ∀ g p m call, (w.groups g).handling? p = some (m, .calling call) →
    call.Returned supplies g
  rows : ∀ jobId row, w.db.jobs jobId = some row → row.Supplied supplies jobId

/-! ### What comes later takes nothing away -/

section Mono

variable {supplies supplies' : List Supply} {db db' : Db} {g : ConsumerGroupId} {e : Event}

theorem Explains.mono {request result : Dict} (h : Explains supplies request result)
    (hs : supplies ⊆ supplies') : Explains supplies' request result :=
  h.imp (fun hp => hs hp) fun ⟨r, d, heq, hp, hd⟩ => ⟨r, d, heq, hs hp, hs hd⟩

theorem JobRow.Supplied.mono {jobId : Uuid} {row : JobRow} (h : row.Supplied supplies jobId)
    (hs : supplies ⊆ supplies') : row.Supplied supplies' jobId :=
  ⟨hs h.submitted, h.finished, fun result hr => (h.result result hr).mono hs⟩

theorem Call.Returned.mono {call : Call} (h : call.Returned supplies g)
    (hs : supplies ⊆ supplies') : call.Returned supplies' g := by
  cases call with
  | worker =>
    intro lease result hp
    obtain ⟨request, hrequest, hmem⟩ := h lease result hp
    exact ⟨request, hrequest, hs hmem⟩
  | inference =>
    intro lease result hp
    obtain ⟨request, hrequest, hmem⟩ := h lease result hp
    exact ⟨request, hrequest, hs hmem⟩
  | downstream => exact ⟨h.1, fun result hp => hs (h.2 result hp)⟩

theorem Genuine.mono (h : Genuine supplies db g e) (hs : supplies ⊆ supplies')
    (hrow : ∀ row, db.jobs e.jobId = some row →
      ∃ row', db'.jobs e.jobId = some row' ∧ row'.requestPayload = row.requestPayload) :
    Genuine supplies' db' g e := by
  obtain ⟨row, hjob, hpayload⟩ := h
  obtain ⟨row', hjob', heq⟩ := hrow row hjob
  refine ⟨row', hjob', ?_⟩
  rw [heq]
  cases g with
  | request => exact hpayload
  | downstream =>
    obtain ⟨r, hr, hpayload⟩ := hpayload
    exact ⟨r, hs hr, hpayload⟩

theorem Genuine.request (h : Genuine supplies db g e) {row : JobRow}
    (hrow : db.jobs e.jobId = some row) :
    e.payload.get? "request" = some (.obj row.requestPayload) := by
  obtain ⟨row', hrow', hpayload⟩ := h
  obtain rfl := Option.some.inj (hrow'.symm.trans hrow)
  cases g with
  | request => rw [show e.payload = _ from hpayload, Dict.get?_cons_self]
  | downstream =>
    obtain ⟨r, -, hpayload⟩ := hpayload
    rw [hpayload, Dict.get?_cons_self]

end Mono

/-! ### Calls -/

section Calls

variable {supplies : List Supply} {g : ConsumerGroupId} {topic : String}

/-- A call has a value to store when its processor has just returned it. -/
theorem LeasedCall.returned_of_step {source : String} {completeTx : CompleteTx}
    {c c' : LeasedCall} {db db' : Db} {a : LeasedAct}
    (h : c.step source completeTx db a = some (c', db')) :
    c'.event = c.event ∧ ∀ lease result, c'.phase = .completing lease result →
      a = .process (.ok result) ∧ ∃ request, c.event.payload.get? "request" = some request := by
  obtain ⟨phase', rfl, heff⟩ := LeasedCall.effect_of_step h
  refine ⟨rfl, fun lease result hphase => ?_⟩
  replace hphase : phase' = .completing lease result := hphase
  cases heff with
  | @processed lease₀ outcome hp =>
    cases a with
    | process outcome =>
      simp only [LeasedCall.step, LeasedCall.phaseStep, hp, Option.map_some, Option.some.injEq,
        Prod.mk.injEq] at h
      have hafter : c.afterProcess lease₀ outcome = .completing lease result :=
        (congrArg LeasedCall.phase h.1).trans hphase
      unfold LeasedCall.afterProcess at hafter
      split at hafter
      · cases hafter
      · next request value hrequest =>
        obtain ⟨-, rfl⟩ := LeasedPhase.completing.inj hafter
        exact ⟨rfl, request, hrequest⟩
      · cases hafter
    | _ => simp [LeasedCall.step, LeasedCall.phaseStep, hp] at h
  | claimed _ _ _ _ hphase' => rcases hphase' with rfl | ⟨e, rfl⟩ <;> cases hphase
  | answered =>
    have hnone : ({ c with phase := c.readBack db } : LeasedCall).lease? = none :=
      LeasedCall.lease?_readBack
    rw [LeasedCall.lease?, hphase] at hnone
    cases hnone
  | completed _ _ hphase' => rcases hphase' with rfl | ⟨e, rfl⟩ <;> cases hphase
  | failed _ _ _ hphase' => rcases hphase' with rfl | ⟨e, rfl⟩ <;> cases hphase
  | _ => cases hphase

/-- A call of the downstream stage has a value to store when its processor has just returned it. -/
theorem DownstreamCall.returned_of_step {c c' : DownstreamCall} {db db' : Db} {a : DownstreamAct}
    (h : c.step db a = some (c', db')) : c'.event = c.event ∧ ∀ result,
      c'.phase = .completing result → a = .process (.ok result) := by
  obtain ⟨phase', rfl, heff⟩ := DownstreamCall.effect_of_step h
  refine ⟨rfl, fun result hphase => ?_⟩
  replace hphase : phase' = .completing result := hphase
  cases heff with
  | @processed value hp =>
    obtain rfl := DownstreamPhase.completing.inj hphase
    cases a with
    | process outcome =>
      cases outcome with
      | ok value' =>
        simp only [DownstreamCall.step, DownstreamCall.phaseStep, hp, Option.map_some,
          Option.some.injEq, Prod.mk.injEq] at h
        obtain rfl := DownstreamPhase.completing.inj (congrArg DownstreamCall.phase h.1)
        rfl
      | error e =>
        simp only [DownstreamCall.step, DownstreamCall.phaseStep, hp, Option.map_some,
          Option.some.injEq, Prod.mk.injEq] at h
        cases congrArg DownstreamCall.phase h.1
    | _ => simp [DownstreamCall.step, DownstreamCall.phaseStep, hp] at h
  | completed _ _ _ _ _ hphase' => rcases hphase' with ⟨-, rfl⟩ | ⟨e, rfl⟩ <;> cases hphase
  | completedLate _ _ _ _ hphase' => rcases hphase' with ⟨-, rfl⟩ | ⟨e, rfl⟩ <;> cases hphase
  | failed _ _ _ _ _ hphase' => rcases hphase' with ⟨-, rfl⟩ | ⟨e, rfl⟩ <;> cases hphase
  | failedLate _ _ _ _ hphase' => rcases hphase' with ⟨-, rfl⟩ | ⟨e, rfl⟩ <;> cases hphase
  | _ => cases hphase

/-- What a call has to store after a step was just returned. -/
theorem Call.Returned.of_step {call call' : Call} {db db' : Db} {a : CallAct}
    (hreturned : call.Returned supplies g) (h : call.step topic db a = some (call', db')) :
    call'.Returned (supplies ++ (call.supply? a).toList) g := by
  cases call <;> cases a <;> simp only [Call.step, reduceCtorEq] at h <;>
    obtain ⟨⟨c', db₁⟩, hstep, heq⟩ := Option.map_eq_some_iff.mp h <;>
    obtain ⟨rfl, rfl⟩ := Prod.mk.inj heq
  · obtain ⟨hevent, hvalue⟩ := LeasedCall.returned_of_step hstep
    intro lease result hphase
    obtain ⟨rfl, request, hrequest⟩ := hvalue lease result hphase
    exact ⟨request, hevent ▸ hrequest, by simp [Call.supply?, hrequest]⟩
  · obtain ⟨hevent, hvalue⟩ := LeasedCall.returned_of_step hstep
    intro lease result hphase
    obtain ⟨rfl, request, hrequest⟩ := hvalue lease result hphase
    exact ⟨request, hevent ▸ hrequest, by simp [Call.supply?, hrequest]⟩
  · obtain ⟨hevent, hvalue⟩ := DownstreamCall.returned_of_step hstep
    refine ⟨hreturned.1, fun result hphase => ?_⟩
    obtain rfl := hvalue result hphase
    rw [hevent]
    simp [Call.supply?]

/-- A call that has not begun has nothing to store; the downstream stage runs in its own group. -/
theorem Call.returned_handleEvent (cfg : ClusterConfig P) (i : ℕ) (event : Event) :
    ((cfg.service g i).handleEvent event).Returned supplies g := by
  have hrole := cfg.role_group g i
  cases hservice : cfg.service g i with
  | worker => rintro lease result ⟨⟩
  | inference => rintro lease result ⟨⟩
  | downstream =>
    refine ⟨?_, by rintro result ⟨⟩⟩
    rw [ClusterConfig.service, ClusterConfig.process, buildWorkerRole] at hservice
    rw [← hrole, resolveWorkerGroupId]
    cases hr : cfg.role g i with
    | unified => simp [Settings.started, hr] at hservice
    | inference =>
      simp only [Settings.started, hr] at hservice
      split_ifs at hservice
    | downstream => simp [Settings.started]

/-- A genuine call that stores a result stores what the processors returned for its job. -/
theorem Call.Stores.explains {call : Call} {db : Db} {row : JobRow} {result : Dict}
    (h : call.Stores result) (hreturned : call.Returned supplies g)
    (hgenuine : Genuine supplies db g call.event) (hrow : db.jobs call.event.jobId = some row) :
    Explains supplies row.requestPayload result := by
  cases call with
  | worker c =>
    obtain ⟨lease, hp⟩ := h
    obtain ⟨request, hrequest, hmem⟩ := hreturned lease result hp
    rw [show c.event.payload.get? "request" = _ from hgenuine.request hrow] at hrequest
    exact .inl (Option.some.inj hrequest ▸ hmem)
  | inference => exact h.elim
  | downstream c =>
    obtain ⟨value, hp, rfl⟩ := h
    obtain ⟨rfl, hvalue⟩ := hreturned
    obtain ⟨row', hrow', r, hr, hpayload⟩ := hgenuine
    obtain rfl := Option.some.inj (hrow'.symm.trans hrow)
    replace hpayload : c.event.payload = _ := hpayload
    refine .inr ⟨r, value, ?_, hr, hpayload ▸ hvalue value hp⟩
    rw [DownstreamCall.jobResult, hpayload, Dict.getOrNull,
      Dict.get?_cons_of_ne (by decide), Dict.get?_cons_self]
    rfl

/-- A call keeps a row explained. -/
theorem JobRow.Supplied.of_write {call : Call} {db db' : Db} {jobId : Uuid} {row' : JobRow}
    (h : ∀ row, db.jobs jobId = some row → row.Supplied supplies jobId)
    (hreturned : call.Returned supplies g) (hgenuine : Genuine supplies db g call.event)
    (hwrite : call.Write topic db db') (hrow' : db'.jobs jobId = some row') :
    row'.Supplied supplies jobId := by
  cases hwrite with
  | @recorded row row₁ e hrow _ _ _ hrequest hresult =>
    rcases KeyedTable.set_eq_some_iff.mp hrow' with ⟨rfl, rfl⟩ | ⟨-, hrow'⟩
    swap
    · exact h row' hrow'
    have hold := h row hrow
    refine ⟨hrequest ▸ hold.submitted, fun hs => ?_, fun result hr => ?_⟩ <;>
      rcases hresult with ⟨hne, hkept⟩ | ⟨result', hr', hstores⟩
    · exact absurd hs hne
    · rw [hr']
      exact Option.some_ne_none _
    · exact hrequest ▸ hold.result result (hkept ▸ hr)
    · obtain rfl := Option.some.inj (hr'.symm.trans hr)
      exact hrequest ▸ hstores.explains hreturned hgenuine hrow
  | _ => exact h row' hrow'

end Calls

namespace Cluster.Explained

variable {supplies : List Supply}

theorem initial : (Cluster.initial : Cluster P).Explained cfg [] where
  messages := by
    refine ⟨fun row hmem => ?_, fun g p record hmem => ?_, fun record hmem => ?_⟩ <;> cases hmem
  calls g p m call hx := by cases hx
  rows jobId row hrow := by cases hrow

variable [DecidableEq P] [Fintype P]

theorem of_effect (h : w.Explained cfg supplies) (hs : w.Sound cfg) {a : ClusterAct P}
    (heff : Effect cfg w a w') : w'.Explained cfg (supplies ++ (w.supply? a).toList) := by
  have hsub : supplies ⊆ supplies ++ (w.supply? a).toList := List.subset_append_left ..
  have hgenuine : ∀ {g p m call}, (w.groups g).handling? p = some (m, .calling call) →
      Genuine supplies w.db g call.event := fun hx => by
    rw [show Call.event _ = _ from (hs.handling _ _ _ _ hx).1]
    exact h.messages.in_hand hs hx
  have hmono : ∀ g e, Genuine supplies w.db g e →
      Genuine (supplies ++ (w.supply? a).toList) w'.db g e :=
    fun g e he => he.mono hsub fun row => heff.row_kept
  refine ⟨h.messages.of_effect hs heff hmono ?_ ?_, ?_, ?_⟩
  · rintro ids payload fate rfl hdb
    exact ⟨_, by rw [hdb]; exact KeyedTable.set_self .., rfl⟩
  · intro g p m c lease result ids hx hp hdb
    have hcall : Genuine supplies w.db g c.event := hgenuine hx
    obtain ⟨row, hrow, -⟩ := hcall
    obtain ⟨request, hrequest, hmem⟩ := h.calls g p m _ hx lease result hp
    have heq : c.event.payload.get? "request" = _ := (hgenuine hx).request hrow
    obtain rfl := Option.some.inj (hrequest.symm.trans heq)
    refine ⟨row, hdb ▸ hrow, result, hsub hmem, ?_⟩
    simp [InferencePipelineService.downstreamEvent, Dict.getOrNull, heq]
  · intro g p m call hx
    rcases heff.calling_cases hs hx with hx | ⟨now, i, -, -, rfl⟩ | ⟨act, call₀, rfl, hx, hstep⟩
    · exact (h.calls g p m call hx).mono hsub
    · exact Call.returned_handleEvent cfg i m.value
    · have hsupply : w.supply? (.call g p act) = call₀.supply? act := by
        simp only [Cluster.supply?, hx]
      exact hsupply ▸ (h.calls g p m call₀ hx).of_step hstep
  · intro jobId row' hrow'
    rcases heff.db_cases with ⟨hj, -⟩ | ⟨ids, payload, fate, rfl, -, hdb⟩ |
      ⟨g, p, m, call, hx, hwrite⟩
    · exact (h.rows jobId row' (hj ▸ hrow')).mono hsub
    · rw [hdb] at hrow'
      rcases KeyedTable.set_eq_some_iff.mp hrow' with ⟨rfl, rfl⟩ | ⟨-, hrow⟩
      · exact ⟨by simp [Cluster.supply?, JobService.newJob, Job.toRow], by rintro ⟨⟩,
          by rintro result ⟨⟩⟩
      · exact (h.rows jobId row' hrow).mono hsub
    · have hsupplied := JobRow.Supplied.of_write (fun row hrow => h.rows jobId row hrow)
        (h.calls g p m call hx) (hgenuine hx) hwrite hrow'
      exact hsupplied.mono hsub

theorem of_run {as : List (ClusterAct P)}
    (hr : (clusterSystem cfg).run Cluster.initial as = some w) :
    w.Explained cfg ((clusterSystem cfg).observe Cluster.supply? Cluster.initial as) :=
  TransitionSystem.run_observes (T := clusterSystem cfg)
    (P := fun w supplies => w.Explained cfg supplies) Cluster.supply?
    (fun _ h₀ => h₀ ▸ Explained.initial)
    (fun _ _ _ _ hreach hw hstep => hw.of_effect (.of_reachable hreach) (effect_of_step hstep))
    rfl hr

end Cluster.Explained

/-- **A client gets the result of its own request.** In every run of a deployment whose workers run
any mixture of the modes, a finished job has the payload of a request that was submitted for it, and
its result is what a primary processor returned in this run for that payload, or the pair of that
and of what the downstream processor returned in this run for both. -/
theorem result_of_own_request [DecidableEq P] [Fintype P] {as : List (ClusterAct P)}
    (hr : (clusterSystem cfg).run Cluster.initial as = some w) {jobId : Uuid} {row : JobRow}
    (hrow : w.db.jobs jobId = some row) (hs : row.status = .success) :
    let supplies := (clusterSystem cfg).observe Cluster.supply? Cluster.initial as
    .submitted jobId row.requestPayload ∈ supplies ∧ ∃ result, row.result = some result ∧
      (.primary (.obj row.requestPayload) result ∈ supplies ∨
        ∃ r d, result = [("inference", .obj r), ("downstream", .obj d)] ∧
          .primary (.obj row.requestPayload) r ∈ supplies ∧
          .downstream [("request", .obj row.requestPayload), ("inference_result", .obj r)] d ∈
            supplies) := by
  have hsupplied := (Cluster.Explained.of_run hr).rows jobId row hrow
  obtain ⟨result, hresult⟩ := Option.ne_none_iff_exists'.mp (hsupplied.finished hs)
  exact ⟨hsupplied.submitted, result, hresult, hsupplied.result result hresult⟩

/-! ### A job that two modes finished -/

/-- The message that waits is published, and a worker of the downstream stage finishes the job. -/
def exampleFinish : List (ClusterAct Bool) :=
  [.relay (.fetch 0 100) none, .relay (.publish 0 (.ok ())) (some fun _ => false),
    .relay (.commit 0 20) none, .loop .downstream (.spawn 0), .loop .downstream (.assign 0 false),
    .loop .downstream (.poll 0 0 fun _ => 1), .loop .downstream (.visit false 20),
    .call .downstream false (.downstream (.read none)),
    .call .downstream false (.downstream (.process (.ok [("persisted", .bool true)]))),
    .call .downstream false (.downstream (.complete 21 .commits))]

/-- The deployment after the job was finished. -/
def exampleFinished : Cluster Bool :=
  ((clusterSystem exampleCluster).run Cluster.initial (exampleSwitch ++ exampleFinish)).get
    (by decide)

/-- The job that was handed over is finished with the results of both stages. -/
theorem result_of_own_request_switched :
    let supplies := (clusterSystem exampleCluster).observe Cluster.supply? Cluster.initial
      (exampleSwitch ++ exampleFinish)
    ∃ row, exampleFinished.db.jobs 1 = some row ∧ .submitted 1 row.requestPayload ∈ supplies ∧
      ∃ result, row.result = some result ∧
        (.primary (.obj row.requestPayload) result ∈ supplies ∨
          ∃ r d, result = [("inference", .obj r), ("downstream", .obj d)] ∧
            .primary (.obj row.requestPayload) r ∈ supplies ∧
            .downstream [("request", .obj row.requestPayload), ("inference_result", .obj r)] d ∈
              supplies) := by
  have hr : (clusterSystem exampleCluster).run Cluster.initial (exampleSwitch ++ exampleFinish) =
    some exampleFinished := (Option.some_get _).symm
  have hrow : exampleFinished.db.jobs 1 = some ((exampleFinished.db.jobs 1).get (by decide)) :=
    (Option.some_get _).symm
  exact ⟨_, hrow, result_of_own_request hr hrow (by decide)⟩

end Morphflow
