import Morphflow.Runner.HandleMessage
import Morphflow.Foundation.Transition

/-!
# The consumer group

Worker processes of one consumer group run the poll loop of `run_worker`. A partition is a log of
records of one topic, read by at most one worker at a time from the offset committed last. An
iteration resumes the partitions whose time has come, polls a batch, handles the messages of each
partition in order and of different partitions in any order, and commits what the batches returned.

The steps are the awaits of the source. What a poll returns, what the handler answers, whether a
publish or a commit raises, the clock readings and the crashes are up to the environment, and so is
which partitions a worker is given. Records may be appended to any log at any time.

Two fields follow the run and steer no step: `Reader.settled` and `Group.returned` list the offsets
whose handling returned, since the partition was assigned and since ever.

## Main definitions

* `LoopWorker`, `Reader`, `Group`, `GroupConfig`, `GroupAct`.
* `Group.step`, `consumerGroup`.
* `Group.Effect`.

## Main results

* `Group.effect_of_step`: everything a step can do.
-/

namespace Morphflow

variable {P V H : Type*}

/-- A record of a log. -/
structure LogRecord (V : Type*) where
  value : V
  headers : RawHeaders := []

/-- Where the poll loop of a worker stands. -/
inductive LoopPhase (P : Type*)
  /-- At the start of an iteration. -/
  | polling
  /-- The batches of the partitions are handled. -/
  | consuming
  /-- The offsets are being committed. -/
  | committing (offsets : P → Option ℕ)

/-- A live worker process: its poll loop and `paused_until`. -/
structure LoopWorker (P : Type*) where
  phase : LoopPhase P := .polling
  pausedUntil : KeyedTable P ℤ := fun _ => none

/-- What `_handle_message` awaits. -/
inductive Handling (V H : Type*)
  | calling (handler : H)
  | publishing (publication : Publication V)

/-- A call of `_consume_partition`: the messages behind the current one, the offset to be committed,
the message that is handled, and whether the loop has ended. -/
structure PartitionTask (V H : Type*) where
  remaining : List (Message V)
  commitOffset : Option ℕ := none
  handling : Option (Message V × Handling V H) := none
  ended : Bool := false

/-- The consumer's view of a partition. -/
structure Reader (V H : Type*) where
  worker : Option ℕ := none
  position : ℕ := 0
  paused : Bool := false
  task : Option (PartitionTask V H) := none
  start : ℕ := 0
  settled : List ℕ := []

/-- The logs, the committed offsets, the live workers and the readers of the partitions. -/
structure Group (P V H : Type*) where
  log : P → List (LogRecord V)
  committed : P → ℕ
  workers : KeyedTable ℕ (LoopWorker P)
  readers : P → Reader V H
  returned : P → List ℕ

/-- The settings of the workers, the topics of the partitions, and the handler that a worker calls
on a value. -/
structure GroupConfig (P V H : Type*) where
  settings : RunnerSettings
  topicOf : P → String
  role : ℕ → V → H

/-- The steps of the group; `i` is a worker and `p` a partition. -/
inductive GroupAct (P V H : Type*)
  | append (p : P) (record : LogRecord V)
  | spawn (i : ℕ)
  | assign (i : ℕ) (p : P)
  | revoke (p : P)
  | poll (i : ℕ) (now : ℤ) (counts : P → ℕ)
  | visit (p : P) (now : ℤ)
  | progress (p : P) (handler : H)
  | answer (p : P) (success : Bool) (error : Option String) (now : ℤ)
  | publish (p : P)
  | raise (p : P)
  | gather (i : ℕ)
  | commit (i : ℕ)
  | commitFails (i : ℕ) (applied : P → Bool)
  | crash (i : ℕ)

/-- The messages of a log. -/
def messagesOf (topic : String) (log : List (LogRecord V)) : List (Message V) :=
  log.mapIdx fun offset record => ⟨topic, offset, record.value, record.headers⟩

/-- The partition a worker has been given, before its first poll. -/
def Reader.assigned (i committed : ℕ) : Reader V H where
  worker := some i
  position := committed
  start := committed

/-- The messages a task has not settled. -/
def PartitionTask.inHand (t : PartitionTask V H) : List (Message V) :=
  (t.handling.map Prod.fst).toList ++ t.remaining

/-- The task after the handling of a message returned. -/
def PartitionTask.settle (t : PartitionTask V H) (m : Message V) (rest : List (Message V)) :
    PartitionTask V H :=
  { t with remaining := rest, commitOffset := some (m.offset + 1), handling := none }

/-- The reader after the loop of its task was left at a message: the position is set back to it. -/
def Reader.seek (r : Reader V H) (t : PartitionTask V H) (m : Message V) : Reader V H :=
  { r with position := m.offset, task := some { t with handling := none, ended := true } }

namespace Group

variable [DecidableEq P] [Fintype P]

/-- The group with another reader of the partition. -/
def setReader (g : Group P V H) (p : P) (r : Reader V H) : Group P V H :=
  { g with readers := Function.update g.readers p r }

/-- The group with another task of the partition. -/
def setTask (g : Group P V H) (p : P) (t : PartitionTask V H) : Group P V H :=
  g.setReader p { g.readers p with task := some t }

/-- The worker of a partition is the given one. -/
def reads (g : Group P V H) (i : ℕ) (p : P) : Bool := (g.readers p).worker == some i

/-- A record is appended to a log. -/
def append (g : Group P V H) (p : P) (record : LogRecord V) : Group P V H :=
  { g with log := Function.update g.log p (g.log p ++ [record]) }

/-- The process of a worker is gone, and its partitions are read by nobody. -/
def crash (g : Group P V H) (i : ℕ) : Group P V H where
  log := g.log
  committed := g.committed
  workers := g.workers.erase i
  readers p := if g.reads i p then {} else g.readers p
  returned := g.returned

/-- The handling of the message returned. -/
def settle (g : Group P V H) (p : P) (t : PartitionTask V H) (m : Message V)
    (rest : List (Message V)) : Group P V H :=
  let r := g.readers p
  { g.setReader p { r with task := some (t.settle m rest), settled := r.settled ++ [m.offset] } with
    returned := Function.update g.returned p (g.returned p ++ [m.offset]) }

/-- The partitions of the worker whose time has come. -/
def due (w : LoopWorker P) (now : ℤ) (p : P) : Bool :=
  (w.pausedUntil p).any fun resumeAt => resumeAt ≤ now

/-- The batch that a poll returns for a partition, given how many records it takes. -/
def batch (cfg : GroupConfig P V H) (g : Group P V H) (i : ℕ) (w : LoopWorker P) (now : ℤ)
    (counts : P → ℕ) (p : P) : List (Message V) :=
  let r := g.readers p
  if g.reads i p && (!r.paused || due w now p) then
    ((messagesOf (cfg.topicOf p) (g.log p)).drop r.position).take (counts p)
  else []

/-- The group after `_resume_due_partitions` and the poll. -/
def poll (cfg : GroupConfig P V H) (g : Group P V H) (i : ℕ) (w : LoopWorker P) (now : ℤ)
    (counts : P → ℕ) : Group P V H :=
  let batch := g.batch cfg i w now counts
  { g with
    workers := g.workers.set i
      { phase := if ∀ p, batch p = [] then .polling else .consuming
        pausedUntil := fun p => if due w now p then none else w.pausedUntil p }
    readers := fun p =>
      let r := g.readers p
      if g.reads i p then
        { r with
          position := r.position + (batch p).length
          paused := r.paused && !due w now p
          task := if batch p = [] then none else some { remaining := batch p } }
      else r }

/-- A retry message whose time has not come: the partition is set back to it and paused. -/
def defer (g : Group P V H) (p : P) (i : ℕ) (w : LoopWorker P) (t : PartitionTask V H)
    (m : Message V) (dueAt : ℤ) : Group P V H :=
  { g.setReader p { (g.readers p).seek t m with paused := true } with
    workers := g.workers.set i { w with pausedUntil := w.pausedUntil.set p dueAt } }

/-- The next message of a batch, or its end. -/
def visit (cfg : GroupConfig P V H) (g : Group P V H) (p : P) (i : ℕ) (w : LoopWorker P)
    (t : PartitionTask V H) (now : ℤ) : Group P V H :=
  match t.remaining with
  | [] => g.setTask p { t with ended := true }
  | m :: rest =>
    if m.topic = cfg.settings.retryTopic ∧ now < retryDueAt m.decoded then
      g.defer p i w t m (retryDueAt m.decoded)
    else if m.skipped cfg.settings then g.settle p t m rest
    else g.setTask p
      { t with remaining := rest, handling := some (m, .calling (cfg.role i m.value)) }

/-- The offsets that the tasks of a worker returned. -/
def results (g : Group P V H) (i : ℕ) (p : P) : Option ℕ :=
  if g.reads i p then (g.readers p).task.bind (·.commitOffset) else none

/-- The tasks of a worker have ended, and their results are gathered. -/
def gather (g : Group P V H) (i : ℕ) (w : LoopWorker P) : Group P V H :=
  { g with
    workers := g.workers.set i
      { w with phase := if ∀ p, g.results i p = none then .polling else .committing (g.results i) }
    readers := fun p => if g.reads i p then { g.readers p with task := none } else g.readers p }

/-- The offsets are committed for the partitions that meet the condition. -/
def commitOffsets (g : Group P V H) (offsets : P → Option ℕ) (applied : P → Bool) :
    Group P V H :=
  { g with committed := fun p => if applied p then (offsets p).getD (g.committed p)
      else g.committed p }

/-- The task of a partition that is under way. -/
def openTask? (g : Group P V H) (p : P) : Option (PartitionTask V H) :=
  (g.readers p).task.filter fun t => !t.ended

/-- A step of the group. -/
def step (cfg : GroupConfig P V H) (g : Group P V H) : GroupAct P V H → Option (Group P V H)
  | .append p record => some (g.append p record)
  | .spawn i =>
    if (g.workers i).isNone then some { g with workers := g.workers.set i {} } else none
  | .assign i p =>
    if (g.workers i).isSome && (g.readers p).worker.isNone then
      some (g.setReader p (.assigned i (g.committed p)))
    else none
  | .revoke p =>
    -- a partition is taken from a worker between two iterations
    (g.readers p).worker.bind fun i => (g.workers i).bind fun w =>
      match w.phase with
      | .polling => some (g.setReader p {})
      | _ => none
  | .poll i now counts =>
    (g.workers i).bind fun w =>
      match w.phase with
      | .polling =>
        -- resuming a partition that is not assigned raises and ends the loop
        if ∃ p, due w now p ∧ g.reads i p = false then some (g.crash i)
        else some (g.poll cfg i w now counts)
      | _ => none
  | .visit p now =>
    (g.openTask? p).bind fun t => (g.readers p).worker.bind fun i => (g.workers i).bind fun w =>
      match t.handling with
      | none => some (g.visit cfg p i w t now)
      | some _ => none
  | .progress p handler =>
    (g.openTask? p).bind fun t =>
      match t.handling with
      | some (m, .calling _) => some (g.setTask p { t with handling := some (m, .calling handler) })
      | _ => none
  | .answer p success error now =>
    (g.openTask? p).bind fun t =>
      match t.handling with
      | some (m, .calling _) =>
        match m.afterHandler cfg.settings success error now with
        | none => some (g.settle p t m t.remaining)
        | some pub => some (g.setTask p { t with handling := some (m, .publishing pub) })
      | _ => none
  | .publish p =>
    (g.openTask? p).bind fun t =>
      match t.handling with
      | some (m, .publishing _) => some (g.settle p t m t.remaining)
      | _ => none
  | .raise p =>
    (g.openTask? p).bind fun t =>
      match t.handling with
      | some (m, _) => some (g.setReader p ((g.readers p).seek t m))
      | none => none
  | .gather i =>
    (g.workers i).bind fun w =>
      match w.phase with
      | .consuming =>
        if ∀ p, g.reads i p = true → (g.openTask? p).isNone then some (g.gather i w) else none
      | _ => none
  | .commit i =>
    (g.workers i).bind fun w =>
      match w.phase with
      | .committing offsets =>
        some { g.commitOffsets offsets fun _ => true with
          workers := g.workers.set i { w with phase := .polling } }
      | _ => none
  | .commitFails i applied =>
    (g.workers i).bind fun w =>
      match w.phase with
      | .committing offsets => some ((g.commitOffsets offsets applied).crash i)
      | _ => none
  | .crash i => if (g.workers i).isSome then some (g.crash i) else none

/-- The group before the first record. -/
def initial : Group P V H :=
  ⟨fun _ => [], fun _ => 0, fun _ => none, fun _ => {}, fun _ => []⟩

/-! ### Everything a step can do -/

/-- What a step does to the group. -/
inductive Effect (cfg : GroupConfig P V H) (g : Group P V H) :
    GroupAct P V H → Group P V H → Prop
  | appended {p : P} {record : LogRecord V} : Effect cfg g (.append p record) (g.append p record)
  | spawned {i : ℕ} (hi : g.workers i = none) :
      Effect cfg g (.spawn i) { g with workers := g.workers.set i {} }
  | assigned {i : ℕ} {p : P} {w : LoopWorker P} (hi : g.workers i = some w)
      (hp : (g.readers p).worker = none) :
      Effect cfg g (.assign i p) (g.setReader p (.assigned i (g.committed p)))
  | revoked {i : ℕ} {p : P} {w : LoopWorker P} (hp : (g.readers p).worker = some i)
      (hi : g.workers i = some w) (hw : w.phase = .polling) :
      Effect cfg g (.revoke p) (g.setReader p {})
  /-- The process died, or resuming a partition raised. -/
  | crashed {a : GroupAct P V H} {i : ℕ} {w : LoopWorker P} (hi : g.workers i = some w)
      (ha : a = .crash i ∨ ∃ now counts, a = .poll i now counts) : Effect cfg g a (g.crash i)
  | polled {i : ℕ} {now : ℤ} {counts : P → ℕ} {w : LoopWorker P} (hi : g.workers i = some w)
      (hw : w.phase = .polling) :
      Effect cfg g (.poll i now counts) (g.poll cfg i w now counts)
  /-- The loop came to the end of its batch. -/
  | loopEnded {p : P} {now : ℤ} {t : PartitionTask V H} (ht : g.openTask? p = some t)
      (hh : t.handling = none) (hr : t.remaining = []) :
      Effect cfg g (.visit p now) (g.setTask p { t with ended := true })
  /-- The next message is to be retried later. -/
  | deferred {p : P} {now : ℤ} {t : PartitionTask V H} {i : ℕ} {w : LoopWorker P} {m : Message V}
      {rest : List (Message V)} (ht : g.openTask? p = some t)
      (hp : (g.readers p).worker = some i) (hi : g.workers i = some w) (hh : t.handling = none)
      (hr : t.remaining = m :: rest) (hdue : now < retryDueAt m.decoded) :
      Effect cfg g (.visit p now) (g.defer p i w t m (retryDueAt m.decoded))
  /-- The next message is for another role. -/
  | skipped {p : P} {now : ℤ} {t : PartitionTask V H} {m : Message V} {rest : List (Message V)}
      (ht : g.openTask? p = some t) (hh : t.handling = none) (hr : t.remaining = m :: rest)
      (hskip : m.skipped cfg.settings = true)
      (hdue : ¬ (m.topic = cfg.settings.retryTopic ∧ now < retryDueAt m.decoded)) :
      Effect cfg g (.visit p now) (g.settle p t m rest)
  /-- The handler is called on the next message. -/
  | entered {p : P} {now : ℤ} {t : PartitionTask V H} {i : ℕ} {m : Message V}
      {rest : List (Message V)} (ht : g.openTask? p = some t)
      (hp : (g.readers p).worker = some i) (hh : t.handling = none) (hr : t.remaining = m :: rest)
      (hskip : m.skipped cfg.settings = false) :
      Effect cfg g (.visit p now) (g.setTask p
        { t with remaining := rest, handling := some (m, .calling (cfg.role i m.value)) })
  | progressed {p : P} {handler handler' : H} {t : PartitionTask V H} {m : Message V}
      (ht : g.openTask? p = some t) (hh : t.handling = some (m, .calling handler)) :
      Effect cfg g (.progress p handler')
        (g.setTask p { t with handling := some (m, .calling handler') })
  /-- The handler answered with success. -/
  | acknowledged {p : P} {success : Bool} {error : Option String} {now : ℤ}
      {t : PartitionTask V H} {m : Message V} {handler : H} (ht : g.openTask? p = some t)
      (hh : t.handling = some (m, .calling handler))
      (hpub : m.afterHandler cfg.settings success error now = none) :
      Effect cfg g (.answer p success error now) (g.settle p t m t.remaining)
  /-- The handler answered with a failure, and the value is to be published again. -/
  | answered {p : P} {success : Bool} {error : Option String} {now : ℤ}
      {t : PartitionTask V H} {m : Message V} {handler : H} {pub : Publication V}
      (ht : g.openTask? p = some t) (hh : t.handling = some (m, .calling handler))
      (hpub : m.afterHandler cfg.settings success error now = some pub) :
      Effect cfg g (.answer p success error now)
        (g.setTask p { t with handling := some (m, .publishing pub) })
  | published {p : P} {t : PartitionTask V H} {m : Message V} {pub : Publication V}
      (ht : g.openTask? p = some t) (hh : t.handling = some (m, .publishing pub)) :
      Effect cfg g (.publish p) (g.settle p t m t.remaining)
  /-- The handler or the publish call raised. -/
  | failed {p : P} {t : PartitionTask V H} {m : Message V} {h : Handling V H}
      (ht : g.openTask? p = some t) (hh : t.handling = some (m, h)) :
      Effect cfg g (.raise p) (g.setReader p ((g.readers p).seek t m))
  | gathered {i : ℕ} {w : LoopWorker P} (hi : g.workers i = some w) (hw : w.phase = .consuming)
      (hended : ∀ p, g.reads i p = true → g.openTask? p = none) :
      Effect cfg g (.gather i) (g.gather i w)
  | committed {i : ℕ} {w : LoopWorker P} {offsets : P → Option ℕ} (hi : g.workers i = some w)
      (hw : w.phase = .committing offsets) :
      Effect cfg g (.commit i) { g.commitOffsets offsets fun _ => true with
        workers := g.workers.set i { w with phase := .polling } }
  | commitFailed {i : ℕ} {applied : P → Bool} {w : LoopWorker P} {offsets : P → Option ℕ}
      (hi : g.workers i = some w) (hw : w.phase = .committing offsets) :
      Effect cfg g (.commitFails i applied) ((g.commitOffsets offsets applied).crash i)

/-- Every step has one of these effects. -/
theorem effect_of_step {cfg : GroupConfig P V H} {g g' : Group P V H} {a : GroupAct P V H}
    (h : g.step cfg a = some g') : Effect cfg g a g' := by
  cases a with
  | append p record => exact Option.some.inj h ▸ .appended
  | spawn i =>
    simp only [step, Option.isNone_iff_eq_none, Option.ite_none_right_eq_some,
      Option.some.injEq] at h
    exact h.2 ▸ .spawned h.1
  | assign i p =>
    simp only [step, Bool.and_eq_true, Option.isSome_iff_exists, Option.isNone_iff_eq_none,
      Option.ite_none_right_eq_some, Option.some.injEq] at h
    obtain ⟨⟨⟨w, hi⟩, hp⟩, rfl⟩ := h
    exact .assigned hi hp
  | revoke p =>
    simp only [step, Option.bind_eq_some_iff] at h
    obtain ⟨i, hp, w, hi, h⟩ := h
    cases hw : w.phase with
    | polling =>
      simp only [hw, Option.some.injEq] at h
      exact h ▸ .revoked hp hi hw
    | consuming => simp [hw] at h
    | committing offsets => simp [hw] at h
  | poll i now counts =>
    simp only [step, Option.bind_eq_some_iff] at h
    obtain ⟨w, hi, h⟩ := h
    cases hw : w.phase with
    | polling =>
      simp only [hw] at h
      split_ifs at h
      · exact Option.some.inj h ▸ .crashed hi (.inr ⟨now, counts, rfl⟩)
      · exact Option.some.inj h ▸ .polled hi hw
    | consuming => simp [hw] at h
    | committing offsets => simp [hw] at h
  | visit p now =>
    simp only [step, Option.bind_eq_some_iff] at h
    obtain ⟨t, ht, i, hp, w, hi, h⟩ := h
    split at h
    · next hh =>
      obtain rfl := Option.some.inj h
      unfold visit
      split
      · next hr => exact .loopEnded ht hh hr
      · next m rest hr =>
        split_ifs with hdue hskip
        · exact .deferred ht hp hi hh hr hdue.2
        · exact .skipped ht hh hr hskip hdue
        · exact .entered ht hp hh hr (by simpa using hskip)
    · cases h
  | progress p handler =>
    simp only [step, Option.bind_eq_some_iff] at h
    obtain ⟨t, ht, h⟩ := h
    split at h
    · next hh => exact Option.some.inj h ▸ .progressed ht hh
    · cases h
  | answer p success error now =>
    simp only [step, Option.bind_eq_some_iff] at h
    obtain ⟨t, ht, h⟩ := h
    split at h
    · next hh =>
      split at h
      · next hpub => exact Option.some.inj h ▸ .acknowledged ht hh hpub
      · next hpub => exact Option.some.inj h ▸ .answered ht hh hpub
    · cases h
  | publish p =>
    simp only [step, Option.bind_eq_some_iff] at h
    obtain ⟨t, ht, h⟩ := h
    split at h
    · next hh => exact Option.some.inj h ▸ .published ht hh
    · cases h
  | raise p =>
    simp only [step, Option.bind_eq_some_iff] at h
    obtain ⟨t, ht, h⟩ := h
    split at h
    · next hh => exact Option.some.inj h ▸ .failed ht hh
    · cases h
  | gather i =>
    simp only [step, Option.bind_eq_some_iff] at h
    obtain ⟨w, hi, h⟩ := h
    cases hw : w.phase with
    | consuming =>
      simp only [hw] at h
      split_ifs at h with hended
      exact Option.some.inj h ▸ .gathered hi hw (by simpa using hended)
    | polling => simp [hw] at h
    | committing offsets => simp [hw] at h
  | commit i =>
    simp only [step, Option.bind_eq_some_iff] at h
    obtain ⟨w, hi, h⟩ := h
    cases hw : w.phase with
    | committing offsets =>
      simp only [hw, Option.some.injEq] at h
      exact h ▸ .committed hi hw
    | polling => simp [hw] at h
    | consuming => simp [hw] at h
  | commitFails i applied =>
    simp only [step, Option.bind_eq_some_iff] at h
    obtain ⟨w, hi, h⟩ := h
    cases hw : w.phase with
    | committing offsets =>
      simp only [hw, Option.some.injEq] at h
      exact h ▸ .commitFailed hi hw
    | polling => simp [hw] at h
    | consuming => simp [hw] at h
  | crash i =>
    simp only [step, Option.isSome_iff_exists, Option.ite_none_right_eq_some,
      Option.some.injEq] at h
    obtain ⟨⟨w, hi⟩, rfl⟩ := h
    exact .crashed hi (.inl rfl)

end Group

/-- The consumer group, from any logs. -/
def consumerGroup [DecidableEq P] [Fintype P] (cfg : GroupConfig P V H) :
    TransitionSystem (Group P V H) (GroupAct P V H) where
  init g := ∃ log, g = { Group.initial with log := log }
  step := Group.step cfg

end Morphflow
