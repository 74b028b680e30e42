import Morphflow.Cluster.Carriers

/-!
# No job is lost in any mode

In every reachable state of a deployment whose workers run any mixture of the modes, every job that
is not finished has a carrier: an outbox row that waits, a record that a group has not committed and
does not skip, or a dead letter. The one way out is a job whose completion by the downstream stage
is in the log although its row was not written.

## Main results

* `no_job_lost_in_any_mode`.
-/

namespace Morphflow

variable {P : Type*} {cfg : ClusterConfig P} {w : Cluster P}

/-- A carried job has a waiting row, an uncommitted record for one of the groups, or a dead
letter. -/
theorem Cluster.Carried.exists_carrier {jobId : Uuid} {row : JobRow}
    (h : w.Carried cfg jobId row) (hs : w.Sound cfg) :
    (∃ row ∈ w.db.outbox, row.status = .pending ∧ row.payload.jobId = jobId) ∨
    (∃ g p o record, ((w.groups g).log p)[o]? = some record ∧ (w.groups g).committed p ≤ o ∧
      record.value.jobId = jobId ∧ (⟨cfg.topicOf g p, o, record.value, record.headers⟩ :
        Message Event).skipped (cfg.runner g) = false) ∨
    (∃ record ∈ w.dlq, record.value.jobId = jobId) := by
  refine h.imp (fun ⟨row, hmem, hp, hjob, _⟩ => ⟨row, hmem, hp, hjob⟩) (Or.imp_left ?_)
  rintro ⟨g, howes⟩
  obtain ⟨p, o, record, hrecord, hle, hjob, hskip⟩ := howes.exists_record (hs.groups g)
  exact ⟨g, p, o, record, hrecord, hle, hjob, hskip⟩

/-- **No job is lost in any mixture of the modes.** A committed job that is not finished, and whose
log holds no completion by the downstream stage, has an outbox row that waits, a record at or behind
the committed offset of a group that handles it, or a dead letter. -/
theorem no_job_lost_in_any_mode [DecidableEq P] [Fintype P] (h : (clusterSystem cfg).Reachable w)
    {jobId : Uuid} {row : JobRow} (hrow : w.db.jobs jobId = some row)
    (hne : row.status ≠ .success)
    (hlog : ∀ e ∈ w.db.events, e.jobId = jobId → e.eventType ≠ .downstreamCompleted) :
    (∃ row ∈ w.db.outbox, row.status = .pending ∧ row.payload.jobId = jobId) ∨
    (∃ g p o record, ((w.groups g).log p)[o]? = some record ∧ (w.groups g).committed p ≤ o ∧
      record.value.jobId = jobId ∧ (⟨cfg.topicOf g p, o, record.value, record.headers⟩ :
        Message Event).skipped (cfg.runner g) = false) ∨
    (∃ record ∈ w.dlq, record.value.jobId = jobId) := by
  refine Cluster.Carried.exists_carrier (Cluster.Kept.of_reachable h jobId row hrow ?_)
    (.of_reachable h)
  rintro (hsuccess | ⟨e, he, hjob, htype⟩)
  · exact hne hsuccess
  · exact hlog e he hjob htype

/-! ### A deployment that is switched over -/

/-- The default settings with one partition of each topic. The first worker of each group runs the
mode C, the others still the mode A. -/
def exampleCluster : ClusterConfig Bool where
  settings := {}
  mode _ i := if i = 0 then .C else .A
  role g _ := match g with
    | .request => .inference
    | .downstream => .downstream
  uuid _ i := if i = 0 then "a" else "b"
  topicOf g retry := match g, retry with
    | .request, false => "request-topic"
    | .request, true => "retry-topic"
    | .downstream, false => "downstream-topic"
    | .downstream, true => "retry-downstream-topic"
  distinct := by constructor <;> decide
  role_group g i := by cases g <;> rfl
  topicOf_or g p := by cases g <;> cases p <;> decide

/-- A request is written and published; a worker of the mode C hands the job over and dies before
its message is settled. -/
def exampleSwitch : List (ClusterAct Bool) :=
  [.create ⟨1, 2, 3, 4, 5⟩ [] .commits, .relay (.fetch 0 100) none,
    .relay (.publish 0 (.ok ())) (some fun _ => false), .relay (.commit 0 0) none,
    .loop .request (.spawn 0), .loop .request (.assign 0 false),
    .loop .request (.poll 0 0 fun _ => 1), .loop .request (.visit false 0),
    .call .request false (.leased (.claim 0 10 .commits)),
    .call .request false (.leased (.process (.ok []))),
    .call .request false (.leased (.complete ⟨11, 12, 13, 6⟩ .commits)),
    .loop .request (.crash 0)]

/-- The deployment after the death of the worker. -/
def exampleSwitched : Cluster Bool :=
  ((clusterSystem exampleCluster).run Cluster.initial exampleSwitch).get (by decide)

/-- The job is `PROCESSING`, and the downstream stage will get its message. -/
theorem no_job_lost_in_any_mode_switched : ∃ row, exampleSwitched.db.jobs 1 = some row ∧
    row.status = .processing ∧
    ((∃ row ∈ exampleSwitched.db.outbox, row.status = .pending ∧ row.payload.jobId = 1) ∨
      (∃ g p o record, ((exampleSwitched.groups g).log p)[o]? = some record ∧
        (exampleSwitched.groups g).committed p ≤ o ∧ record.value.jobId = 1 ∧
        (⟨exampleCluster.topicOf g p, o, record.value, record.headers⟩ :
          Message Event).skipped (exampleCluster.runner g) = false) ∨
      (∃ record ∈ exampleSwitched.dlq, record.value.jobId = 1)) := by
  have hreach : (clusterSystem exampleCluster).Reachable exampleSwitched :=
    TransitionSystem.Reachable.get (T := clusterSystem exampleCluster) exampleSwitch rfl
      (by decide)
  have hrow : exampleSwitched.db.jobs 1 = some ((exampleSwitched.db.jobs 1).get (by decide)) :=
    (Option.some_get _).symm
  exact ⟨_, hrow, by decide, no_job_lost_in_any_mode hreach hrow (by decide) (by decide)⟩

end Morphflow
