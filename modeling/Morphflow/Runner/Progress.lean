import Morphflow.Foundation.Possibility
import Morphflow.Runner.Frontier

/-!
# What a consumer group can still do

However a group got into its state, a fresh worker can be given any partition and poll a batch with
any record that is at or behind the committed offset, and at a late time the next message of a batch
is skipped or handed to the handler.

## Main definitions

* `pollLoops`: the steps that the poll loops take by themselves.

## Main results

* `Group.leads_batch`, `Group.Sound.step_visit`.
-/

namespace Morphflow

variable {P V H : Type*}

/-- The poll loops of a group, without what the handlers and the producers do. -/
def pollLoops [DecidableEq P] [Fintype P] (cfg : GroupConfig P V H) :
    TransitionSystem (Group P V H) (GroupAct P V H) :=
  (consumerGroup cfg).restrict fun _ a => a.loops

namespace Group

variable {cfg : GroupConfig P V H} {g : Group P V H} {p : P} {t t' : PartitionTask V H}
  {m : Message V} {rest : List (Message V)}

/-- The next message of a batch is one of the log. -/
theorem Sound.mem_of_next (hs : g.Sound cfg) (ht : g.openTask? p = some t)
    (hh : t.handling = none) (hr : t.remaining = m :: rest) : m ∈ g.messages cfg p :=
  List.mem_of_getElem? (hs.getElem?_frontier ht ((PartitionTask.inHand_of_none hh).trans hr))

variable [DecidableEq P]

/-! ### A task that is put back -/

theorem setTask_of_openTask? (ht : g.openTask? p = some t) : g.setTask p t = g := by
  have hreader : ({ g.readers p with task := some t } : Reader V H) = g.readers p := by
    rw [← (openTask?_eq_some_iff.mp ht).1]
  rw [setTask, hreader, setReader, Function.update_eq_self]

@[simp] theorem setTask_setTask : (g.setTask p t).setTask p t' = g.setTask p t' := by
  simp [setTask, setReader]

theorem openTask?_setTask_self (ho : t.ended = false) : (g.setTask p t).openTask? p = some t :=
  openTask?_eq_some_iff.mpr ⟨by rw [readers_setTask_self], ho⟩

@[simp] theorem settle_setTask (m : Message V) (rest : List (Message V)) :
    (g.setTask p t).settle p t' m rest = g.settle p t' m rest := by
  simp [settle, setTask, setReader]

theorem openTask?_settle_self (ht : g.openTask? p = some t) (m : Message V)
    (rest : List (Message V)) : (g.settle p t m rest).openTask? p = some (t.settle m rest) :=
  openTask?_eq_some_iff.mpr ⟨by rw [readers_settle_self], (openTask?_eq_some_iff.mp ht).2⟩

/-! ### A batch from the committed offset -/

variable [Fintype P]

theorem leads_of_step {a : GroupAct P V H} {g' : Group P V H} (hloops : a.loops = true)
    (h : g.step cfg a = some g') : (pollLoops cfg).Leads g g' :=
  .of_step (TransitionSystem.restrict_step_eq_some.mpr ⟨hloops, h⟩)

/-- A partition can be taken from its worker, and a worker that is not alive found. -/
theorem leads_idle (hs : g.Sound cfg) (p : P) : ∃ i g', (pollLoops cfg).Leads g g' ∧
    g'.log = g.log ∧ g'.committed = g.committed ∧ g'.workers i = none ∧
    (g'.readers p).worker = none := by
  have hcrash : ∀ i, g.workers i ≠ none → (pollLoops cfg).Leads g (g.crash i) := by
    intro i hi
    refine leads_of_step (a := .crash i) rfl ?_
    simp [step, Option.isSome_iff_ne_none.mpr hi]
  cases hp : (g.readers p).worker with
  | some i =>
    obtain ⟨phase, hphase, -⟩ := hs.alive p i hp
    obtain ⟨w, hi, -⟩ := Option.map_eq_some_iff.mp hphase
    refine ⟨i, _, hcrash i (by simp [hi]), rfl, rfl, ?_, ?_⟩
    · simp [crash, KeyedTable.erase]
    · simp [crash, reads, hp]
  | none =>
    cases hi : g.workers 0 with
    | none => exact ⟨0, g, .refl g, rfl, rfl, hi, hp⟩
    | some w =>
      refine ⟨0, _, hcrash 0 (by simp [hi]), rfl, rfl, ?_, ?_⟩
      · simp [crash, KeyedTable.erase]
      · simp [crash, reads, hp]

variable (cfg) in
/-- A fresh worker can be given a partition and poll what follows the committed offset. -/
theorem leads_poll {i : ℕ} (hi : g.workers i = none) (hp : (g.readers p).worker = none) (n : ℕ)
    (hne : g.committed p < (g.log p).length) : ∃ g' t, (pollLoops cfg).Leads g g' ∧
      g'.log = g.log ∧ g'.openTask? p = some t ∧ t.handling = none ∧
      t.remaining = ((g.messages cfg p).drop (g.committed p)).take (n + 1) := by
  let g₁ : Group P V H := { g with workers := g.workers.set i {} }
  let g₂ := g₁.setReader p (.assigned i (g₁.committed p))
  let counts : P → ℕ := fun _ => n + 1
  let g₃ := g₂.poll cfg i {} 0 counts
  let batch := ((g.messages cfg p).drop (g.committed p)).take (n + 1)
  have hspawn : g.step cfg (.spawn i) = some g₁ := by simp [step, hi, g₁]
  have hassign : g₁.step cfg (.assign i p) = some g₂ := by simp [step, g₁, g₂, hp]
  have hworker : g₂.workers i = some {} := KeyedTable.set_self ..
  have hpoll : g₂.step cfg (.poll i 0 counts) = some g₃ := by simp [step, hworker, due, g₃]
  have hreads : g₂.reads i p = true := by simp [reads, g₂, Reader.assigned]
  have hbatch : g₂.batch cfg i {} 0 counts p = batch := by
    simp only [Group.batch, hreads]
    simp [g₂, g₁, Reader.assigned, messages, batch, counts, setReader]
  have hlength : (g.messages cfg p).length = (g.log p).length := by simp [messages, messagesOf]
  have hnil : batch ≠ [] := by
    refine List.ne_nil_of_length_pos ?_
    rw [List.length_take, List.length_drop, hlength]
    omega
  refine ⟨g₃, { remaining := batch }, ?_, rfl, ?_, rfl, rfl⟩
  · exact ((leads_of_step rfl hspawn).trans (leads_of_step rfl hassign)).trans
      (leads_of_step rfl hpoll)
  · refine openTask?_eq_some_iff.mpr ⟨?_, rfl⟩
    rw [readers_poll_of_reads hreads, hbatch]
    simp [hnil]

/-- A batch can be polled in which a record at or behind the committed offset is found. -/
theorem leads_batch (hs : g.Sound cfg) {o : ℕ} {record : LogRecord V}
    (hrecord : (g.log p)[o]? = some record) (hle : g.committed p ≤ o) :
    ∃ g' t, (pollLoops cfg).Leads g g' ∧ g'.log = g.log ∧ g'.openTask? p = some t ∧
      t.handling = none ∧ ⟨cfg.topicOf p, o, record.value, record.headers⟩ ∈ t.remaining := by
  obtain ⟨i, g₁, hidle, hlog, hcommitted, hi, hp⟩ := leads_idle hs p
  rw [← hlog] at hrecord
  rw [← hcommitted] at hle
  have hlt : o < (g₁.log p).length := (List.getElem?_eq_some_iff.mp hrecord).1
  obtain ⟨g₂, t, hpoll, hlog', ht, hh, hremaining⟩ := leads_poll cfg hi hp o (hle.trans_lt hlt)
  refine ⟨g₂, t, hidle.trans hpoll, hlog'.trans hlog, ht, hh, ?_⟩
  rw [hremaining]
  refine List.mem_of_getElem? (i := o - g₁.committed p) ?_
  rw [List.getElem?_take_of_lt (by omega), List.getElem?_drop, Nat.add_sub_cancel' hle, messages,
    messagesOf_getElem?, hrecord]
  rfl

/-! ### The next message -/

/-- At a late time the next message of a batch is skipped, or handed to the handler of the
worker. -/
theorem Sound.step_visit (hs : g.Sound cfg) (ht : g.openTask? p = some t) (hh : t.handling = none)
    (hr : t.remaining = m :: rest) : ∃ i now, g.step cfg (.visit p now) = some
      (if m.skipped cfg.settings then g.settle p t m rest
        else g.setTask p
          { t with remaining := rest, handling := some (m, .calling (cfg.role i m.value)) }) := by
  obtain ⟨i, hp⟩ := hs.worker_of_openTask? ht
  obtain ⟨phase, hphase, -⟩ := hs.alive p i hp
  obtain ⟨w, hi, -⟩ := Option.map_eq_some_iff.mp hphase
  refine ⟨i, retryDueAt m.decoded, ?_⟩
  simp [step, ht, hp, hi, hh, visit, hr]

end Group

end Morphflow
