import Morphflow.Runner.Frontier

/-!
# Groups with other handlers

The poll loops call their handlers and hand their answers on, but do not look into them. So the
steps of a group commute with a renaming of the handlers, and a group whose handlers belong to a
larger family takes the same steps as the group of that family.

## Main definitions

* `Handling.map`, `PartitionTask.map`, `Reader.map`, `Group.map`, `GroupConfig.map`, `GroupAct.map`.

## Main results

* `Group.step_map`: the steps commute with a renaming.
-/

namespace Morphflow

variable {P V H H' : Type*}

def Handling.map (f : H → H') : Handling V H → Handling V H'
  | .calling handler => .calling (f handler)
  | .publishing publication => .publishing publication

def PartitionTask.map (f : H → H') (t : PartitionTask V H) : PartitionTask V H' where
  remaining := t.remaining
  commitOffset := t.commitOffset
  handling := t.handling.map (Prod.map id (Handling.map f))
  ended := t.ended

@[simp] theorem PartitionTask.map_handling (f : H → H') (t : PartitionTask V H) :
    (t.map f).handling = t.handling.map (Prod.map id (Handling.map f)) := rfl

def Reader.map (f : H → H') (r : Reader V H) : Reader V H' where
  worker := r.worker
  position := r.position
  paused := r.paused
  task := r.task.map (PartitionTask.map f)
  start := r.start
  settled := r.settled

/-- The group with its handlers renamed. -/
def Group.map (f : H → H') (g : Group P V H) : Group P V H' where
  log := g.log
  committed := g.committed
  workers := g.workers
  readers p := (g.readers p).map f
  returned := g.returned

def GroupConfig.map (f : H → H') (cfg : GroupConfig P V H) : GroupConfig P V H' where
  settings := cfg.settings
  topicOf := cfg.topicOf
  role i value := f (cfg.role i value)

def GroupAct.map (f : H → H') : GroupAct P V H → GroupAct P V H'
  | .append p record => .append p record
  | .spawn i => .spawn i
  | .assign i p => .assign i p
  | .revoke p => .revoke p
  | .poll i now counts => .poll i now counts
  | .visit p now => .visit p now
  | .progress p handler => .progress p (f handler)
  | .answer p success error now => .answer p success error now
  | .publish p => .publish p
  | .raise p => .raise p
  | .gather i => .gather i
  | .commit i => .commit i
  | .commitFails i applied => .commitFails i applied
  | .crash i => .crash i

theorem GroupAct.exists_map (f : H → H') {a : GroupAct P V H'} (h : a.loops = true) :
    ∃ a₀ : GroupAct P V H, a₀.map f = a ∧ a₀.loops = true := by
  cases a with
  | spawn i => exact ⟨.spawn i, rfl, rfl⟩
  | assign i p => exact ⟨.assign i p, rfl, rfl⟩
  | revoke p => exact ⟨.revoke p, rfl, rfl⟩
  | poll i now counts => exact ⟨.poll i now counts, rfl, rfl⟩
  | visit p now => exact ⟨.visit p now, rfl, rfl⟩
  | gather i => exact ⟨.gather i, rfl, rfl⟩
  | commit i => exact ⟨.commit i, rfl, rfl⟩
  | commitFails i applied => exact ⟨.commitFails i applied, rfl, rfl⟩
  | crash i => exact ⟨.crash i, rfl, rfl⟩
  | _ => cases h

namespace Group

variable (f : H → H') (cfg : GroupConfig P V H) (g : Group P V H) (p : P)

@[simp] theorem map_workers : (g.map f).workers = g.workers := rfl

@[simp] theorem map_readers_worker : ((g.map f).readers p).worker = (g.readers p).worker := rfl

@[simp] theorem map_reads (i : ℕ) : (g.map f).reads i p = g.reads i p := rfl

@[simp] theorem map_openTask? :
    (g.map f).openTask? p = (g.openTask? p).map (PartitionTask.map f) := by
  unfold openTask?
  show ((g.readers p).task.map (PartitionTask.map f)).filter _ = _
  cases (g.readers p).task with
  | none => rfl
  | some t => cases he : t.ended <;> simp [Option.filter, PartitionTask.map, he]

@[simp] theorem map_handling? :
    (g.map f).handling? p = (g.handling? p).map (Prod.map id (Handling.map f)) := by
  rw [handling?, handling?, map_openTask?]
  cases g.openTask? p <;> rfl

theorem map_initial : (initial : Group P V H).map f = initial := rfl

@[simp] theorem map_results (i : ℕ) : (g.map f).results i = g.results i := by
  funext q
  show (if g.reads i q then ((g.readers q).task.map _).bind _ else none) = _
  rw [Option.bind_map]
  rfl

theorem map_crash (i : ℕ) : (g.crash i).map f = (g.map f).crash i :=
  congrArg (Group.mk g.log g.committed (g.workers.erase i) · g.returned)
    (funext fun q => apply_ite (Reader.map f) (g.reads i q = true) {} (g.readers q))

theorem map_poll [Fintype P] (i : ℕ) (w : LoopWorker P) (now : ℤ) (counts : P → ℕ) :
    (g.poll cfg i w now counts).map f = (g.map f).poll (cfg.map f) i w now counts := by
  refine congrArg (Group.mk g.log g.committed _ · g.returned) (funext fun q => ?_)
  refine (apply_ite (Reader.map f) (g.reads i q = true) _ _).trans (if_congr Iff.rfl ?_ rfl)
  exact congrArg (Reader.mk (g.readers q).worker _ _ · _ _)
    (apply_ite (Option.map (PartitionTask.map f)) _ _ _)

theorem map_gather [Fintype P] (i : ℕ) (w : LoopWorker P) :
    (g.gather i w).map f = (g.map f).gather i w := by
  rw [gather, gather, map_results]
  exact congrArg (Group.mk g.log g.committed _ · g.returned)
    (funext fun q => apply_ite (Reader.map f) (g.reads i q = true) _ _)

/-- A step that reads something common to both groups commutes when it does for what is read. -/
theorem bind_map {α : Type*} {x : Option α} {k : α → Option (Group P V H)}
    {k' : α → Option (Group P V H')} (h : ∀ a, k' a = (k a).map (Group.map f)) :
    x.bind k' = (x.bind k).map (Group.map f) := by
  rw [Option.map_bind]
  exact congrArg x.bind (funext h)

/-- A step under a condition commutes when it does where the condition holds. -/
theorem ite_map {c : Prop} [Decidable c] {x : Group P V H} {x' : Group P V H'} (h : x' = x.map f) :
    (if c then some x' else none) = (if c then some x else none).map (Group.map f) := by
  split_ifs
  · exact congrArg some h
  · rfl

/-- A step that reads the open task commutes when it does for every task. -/
theorem bind_openTask?_map {k : PartitionTask V H → Option (Group P V H)}
    {k' : PartitionTask V H' → Option (Group P V H')}
    (h : ∀ t : PartitionTask V H, k' (t.map f) = (k t).map (Group.map f)) :
    ((g.map f).openTask? p).bind k' = ((g.openTask? p).bind k).map (Group.map f) := by
  rw [map_openTask?, Option.bind_map]
  exact bind_map f h

variable [DecidableEq P]

theorem map_setReader (r : Reader V H) :
    (g.setReader p r).map f = (g.map f).setReader p (r.map f) := by
  refine congrArg (Group.mk g.log g.committed g.workers · g.returned) (funext fun q => ?_)
  exact Function.apply_update (fun _ => Reader.map f) g.readers p r q

theorem map_setTask (t : PartitionTask V H) :
    (g.setTask p t).map f = (g.map f).setTask p (t.map f) :=
  map_setReader ..

theorem map_settle (t : PartitionTask V H) (m : Message V) (rest : List (Message V)) :
    (g.settle p t m rest).map f = (g.map f).settle p (t.map f) m rest := by
  refine congrArg (Group.mk g.log g.committed g.workers · _) (funext fun q => ?_)
  exact Function.apply_update (fun _ => Reader.map f) g.readers p _ q

theorem map_defer (i : ℕ) (w : LoopWorker P) (t : PartitionTask V H) (m : Message V) (dueAt : ℤ) :
    (g.defer p i w t m dueAt).map f = (g.map f).defer p i w (t.map f) m dueAt := by
  refine congrArg (Group.mk g.log g.committed _ · g.returned) (funext fun q => ?_)
  exact Function.apply_update (fun _ => Reader.map f) g.readers p _ q

theorem map_visit (i : ℕ) (w : LoopWorker P) (t : PartitionTask V H) (now : ℤ) :
    (g.visit cfg p i w t now).map f = (g.map f).visit (cfg.map f) p i w (t.map f) now := by
  have hremaining : (t.map f).remaining = t.remaining := rfl
  unfold visit
  rw [hremaining]
  cases t.remaining with
  | nil => exact map_setTask ..
  | cons m rest =>
    refine (apply_ite (Group.map f) _ _ _).trans (if_congr Iff.rfl (map_defer ..) ?_)
    refine (apply_ite (Group.map f) _ _ _).trans (if_congr Iff.rfl (map_settle ..) ?_)
    exact map_setTask ..

variable [Fintype P]

/-- **The steps commute with a renaming of the handlers.** -/
theorem step_map (a : GroupAct P V H) :
    (g.map f).step (cfg.map f) (a.map f) = (g.step cfg a).map (Group.map f) := by
  cases a with
  | append p record => rfl
  | spawn i => exact ite_map f rfl
  | assign i p => exact ite_map f (map_setReader f g p (.assigned i (g.committed p))).symm
  | revoke p =>
    refine bind_map f fun i => bind_map f fun w => ?_
    cases w.phase with
    | polling => exact congrArg some (map_setReader f g p {}).symm
    | _ => rfl
  | poll i now counts =>
    refine bind_map f fun w => ?_
    cases w.phase with
    | polling =>
      rw [apply_ite (Option.map (Group.map f))]
      exact if_congr Iff.rfl (congrArg some (map_crash f g i).symm)
        (congrArg some (map_poll f cfg g i w now counts).symm)
    | _ => rfl
  | visit p now =>
    refine bind_openTask?_map f g p fun t => bind_map f fun i => bind_map f fun w => ?_
    rw [PartitionTask.map_handling]
    cases t.handling with
    | none => exact congrArg some (map_visit f cfg g p i w t now).symm
    | some x => rfl
  | progress p handler =>
    refine bind_openTask?_map f g p fun t => ?_
    rw [PartitionTask.map_handling]
    rcases t.handling with _ | ⟨m, handler' | pub⟩
    · rfl
    · exact congrArg some
        (map_setTask f g p { t with handling := some (m, .calling handler) }).symm
    · rfl
  | answer p success error now =>
    refine bind_openTask?_map f g p fun t => ?_
    rw [PartitionTask.map_handling]
    rcases t.handling with _ | ⟨m, handler | pub⟩
    · rfl
    · have hsettings : (cfg.map f).settings = cfg.settings := rfl
      simp only [hsettings, Option.map_some, Prod.map_apply, Handling.map, id_eq]
      cases m.afterHandler cfg.settings success error now with
      | none => exact congrArg some (map_settle f g p t m t.remaining).symm
      | some pub =>
        exact congrArg some
          (map_setTask f g p { t with handling := some (m, .publishing pub) }).symm
    · rfl
  | publish p =>
    refine bind_openTask?_map f g p fun t => ?_
    rw [PartitionTask.map_handling]
    rcases t.handling with _ | ⟨m, handler | pub⟩
    · rfl
    · rfl
    · exact congrArg some (map_settle f g p t m t.remaining).symm
  | raise p =>
    refine bind_openTask?_map f g p fun t => ?_
    rw [PartitionTask.map_handling]
    cases t.handling with
    | none => rfl
    | some x => exact congrArg some (map_setReader f g p ((g.readers p).seek t x.1)).symm
  | gather i =>
    refine bind_map f fun w => ?_
    cases w.phase with
    | consuming =>
      simp only [map_reads, map_openTask?, Option.isNone_map]
      exact ite_map f (map_gather f g i w).symm
    | _ => rfl
  | commit i =>
    refine bind_map f fun w => ?_
    cases w.phase <;> rfl
  | commitFails i applied =>
    refine bind_map f fun w => ?_
    cases w.phase with
    | committing offsets =>
      exact congrArg some (map_crash f (g.commitOffsets offsets applied) i).symm
    | _ => rfl
  | crash i => exact ite_map f (map_crash f g i).symm

end Group

end Morphflow
