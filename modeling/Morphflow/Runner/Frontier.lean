import Morphflow.Runner.Offsets

/-!
# The frontier of a partition

What a consumer group still owes to a partition begins at its *frontier*: the cursor while a worker
reads it, the committed offset while nobody does. The message at the frontier may be in the hands of
a handler. The module says what each update of a group does to the frontiers and to the messages in
hand; the steps of the poll loop itself never move a frontier on, as long as no message is skipped.

## Main definitions

* `Group.frontier`, `Group.handling?`, `GroupAct.loops`.

## Main results

* `Group.Effect.frontier_cases`, `Group.Effect.frontier_or`: what a step of the poll loop does.
-/

namespace Morphflow

variable {P V H : Type*}

/-- The steps of the poll loop and of its environment: neither the log grows nor does a handling go
on. -/
def GroupAct.loops : GroupAct P V H → Bool
  | .append .. | .progress .. | .answer .. | .publish .. | .raise .. => false
  | _ => true

namespace Group

/-- The first offset that the group has not settled. -/
def frontier (g : Group P V H) (p : P) : ℕ :=
  if (g.readers p).worker.isSome then (g.readers p).cursor else g.committed p

/-- The message of a partition that is handled, and what the handling awaits. -/
def handling? (g : Group P V H) (p : P) : Option (Message V × Handling V H) :=
  (g.openTask? p).bind (·.handling)

variable {cfg : GroupConfig P V H} {g g' : Group P V H} {p q : P} {i : ℕ}
  {t : PartitionTask V H} {m m' : Message V} {x : Handling V H} {rest : List (Message V)}

theorem handling?_eq_some_iff : g.handling? p = some (m, x) ↔
    ∃ t, g.openTask? p = some t ∧ t.handling = some (m, x) := by
  rw [handling?, Option.bind_eq_some_iff]

theorem frontier_of_worker (h : (g.readers p).worker = some i) :
    g.frontier p = (g.readers p).cursor := by
  simp [frontier, h]

theorem frontier_of_idle (h : (g.readers p).worker = none) : g.frontier p = g.committed p := by
  simp [frontier, h]

theorem handling?_of_openTask? (ht : g.openTask? p = some t) : g.handling? p = t.handling := by
  simp [handling?, ht]

theorem handling?_of_task_none (h : (g.readers p).task = none) : g.handling? p = none := by
  simp [handling?, openTask?, h]

/-- The frontier and the message in hand are told by the reader and the committed offset. -/
theorem frontier_congr (hr : g'.readers p = g.readers p)
    (hc : (g.readers p).worker = none → g'.committed p = g.committed p) :
    g'.frontier p = g.frontier p := by
  cases hp : (g.readers p).worker with
  | none => rw [frontier_of_idle hp, frontier_of_idle (hr ▸ hp), hc hp]
  | some i => rw [frontier_of_worker hp, frontier_of_worker (hr ▸ hp), hr]

theorem handling?_congr (hr : g'.readers p = g.readers p) : g'.handling? p = g.handling? p := by
  simp only [handling?, openTask?, hr]

namespace Sound

theorem committed_le_frontier (h : g.Sound cfg) (p : P) : g.committed p ≤ g.frontier p := by
  cases hp : (g.readers p).worker with
  | none => exact (frontier_of_idle hp).ge
  | some i => exact frontier_of_worker hp ▸ (h.reader p i hp).committed_le

theorem frontier_le_length (h : g.Sound cfg) (p : P) : g.frontier p ≤ (g.log p).length := by
  have hlength : (g.messages cfg p).length = (g.log p).length := by simp [messages, messagesOf]
  cases hp : (g.readers p).worker with
  | none => exact frontier_of_idle hp ▸ (h.inLog p).trans hlength.le
  | some i => exact frontier_of_worker hp ▸ (h.reader p i hp).cursor_le.trans hlength.le

/-- An open task belongs to a partition that a worker reads. -/
theorem worker_of_openTask? (h : g.Sound cfg) (ht : g.openTask? p = some t) :
    ∃ i, (g.readers p).worker = some i :=
  h.exists_worker (openTask?_eq_some_iff.mp ht).1

theorem getElem?_frontier (h : g.Sound cfg) (ht : g.openTask? p = some t)
    (hand : t.inHand = m :: rest) : (g.messages cfg p)[g.frontier p]? = some m := by
  obtain ⟨htask, ho⟩ := openTask?_eq_some_iff.mp ht
  obtain ⟨i, hp⟩ := h.exists_worker htask
  rw [frontier_of_worker hp]
  exact (h.reader p i hp).getElem?_cursor htask ho hand

/-- A handled message is at the frontier. -/
theorem handled_at_frontier (h : g.Sound cfg) (hh : g.handling? p = some (m, x)) :
    (g.messages cfg p)[g.frontier p]? = some m := by
  obtain ⟨t, ht, hh⟩ := handling?_eq_some_iff.mp hh
  exact h.getElem?_frontier ht (PartitionTask.inHand_of_some hh)

theorem handling?_of_idle (h : g.Sound cfg) (hp : (g.readers p).worker = none) :
    g.handling? p = none :=
  handling?_of_task_none (by rw [h.idle p hp])

end Sound

/-! ### Updates of one partition -/

section Updates

variable [DecidableEq P]

theorem handling?_setReader_of_ne (r : Reader V H) (hq : q ≠ p) :
    (g.setReader p r).handling? q = g.handling? q :=
  handling?_congr (readers_setReader_of_ne hq r)

theorem frontier_setReader_of_ne (r : Reader V H) (hq : q ≠ p) :
    (g.setReader p r).frontier q = g.frontier q :=
  frontier_congr (readers_setReader_of_ne hq r) fun _ => rfl

@[simp] theorem frontier_setTask (g : Group P V H) (p : P) (t : PartitionTask V H) (q : P) :
    (g.setTask p t).frontier q = g.frontier q := by
  by_cases hq : q = p
  · subst hq
    simp [frontier, Reader.cursor]
  · exact frontier_setReader_of_ne _ hq

theorem handling?_setTask_of_ne (t : PartitionTask V H) (hq : q ≠ p) :
    (g.setTask p t).handling? q = g.handling? q :=
  handling?_setReader_of_ne _ hq

theorem handling?_setTask_self (ho : t.ended = false) :
    (g.setTask p t).handling? p = t.handling := by
  refine handling?_of_openTask? (openTask?_eq_some_iff.mpr ⟨?_, ho⟩)
  rw [readers_setTask_self]

theorem handling?_goOn_self (ht : g.openTask? p = some t) (m : Message V) (x : Handling V H) :
    (g.setTask p { t with handling := some (m, x) }).handling? p = some (m, x) :=
  handling?_setTask_self (openTask?_eq_some_iff.mp ht).2

theorem frontier_seek (t : PartitionTask V H) (m : Message V) (q : P) :
    (g.setReader p ((g.readers p).seek t m)).frontier q = g.frontier q := by
  by_cases hq : q = p
  · subst hq
    simp [frontier, Reader.seek, Reader.cursor]
  · exact frontier_setReader_of_ne _ hq

theorem handling?_seek_self (t : PartitionTask V H) (m : Message V) :
    (g.setReader p ((g.readers p).seek t m)).handling? p = none := by
  simp [handling?, openTask?, Reader.seek]

/-- A settled message is behind the frontier, and nothing is in hand. -/
theorem frontier_settle_self (hp : (g.readers p).worker = some i) :
    (g.settle p t m rest).frontier p = g.frontier p + 1 := by
  simp [frontier, settle, setReader, Reader.cursor, hp, add_assoc]

theorem frontier_settle_of_ne (hq : q ≠ p) : (g.settle p t m rest).frontier q = g.frontier q :=
  frontier_congr (readers_settle_of_ne hq ..) fun _ => rfl

theorem handling?_settle_self : (g.settle p t m rest).handling? p = none := by
  simp [handling?, openTask?, PartitionTask.settle]

theorem handling?_settle_of_ne (hq : q ≠ p) : (g.settle p t m rest).handling? q = g.handling? q :=
  handling?_congr (readers_settle_of_ne hq ..)

/-- What is in hand after a handling went on is that handling, or was in hand before. -/
theorem handling?_of_goOn {m₁ : Message V} {x₁ : Handling V H} (ht : g.openTask? p = some t)
    (hx : (g.setTask p { t with handling := some (m, x) }).handling? q = some (m₁, x₁)) :
    (q = p ∧ m₁ = m ∧ x₁ = x) ∨ g.handling? q = some (m₁, x₁) := by
  by_cases hq : q = p
  · subst hq
    rw [handling?_goOn_self ht] at hx
    obtain ⟨rfl, rfl⟩ := Prod.mk.inj (Option.some.inj hx)
    exact .inl ⟨rfl, rfl, rfl⟩
  · rw [handling?_setTask_of_ne _ hq] at hx
    exact .inr hx

theorem handling?_of_settle (hx : (g.settle p t m rest).handling? q = some (m', x)) :
    g.handling? q = some (m', x) := by
  by_cases hq : q = p
  · subst hq
    rw [handling?_settle_self] at hx
    cases hx
  · rwa [handling?_settle_of_ne hq] at hx

theorem handling?_of_seek
    (hx : (g.setReader p ((g.readers p).seek t m)).handling? q = some (m', x)) :
    g.handling? q = some (m', x) := by
  by_cases hq : q = p
  · subst hq
    rw [handling?_seek_self] at hx
    cases hx
  · rwa [handling?_setReader_of_ne _ hq] at hx

@[simp] theorem frontier_append (g : Group P V H) (p : P) (record : LogRecord V) (q : P) :
    (g.append p record).frontier q = g.frontier q := rfl

@[simp] theorem handling?_append (g : Group P V H) (p : P) (record : LogRecord V) (q : P) :
    (g.append p record).handling? q = g.handling? q := rfl

/-- A new reader begins at the committed offset. -/
theorem Sound.assign_frontier (h : g.Sound cfg) (hp : (g.readers p).worker = none) (i : ℕ) (q : P) :
    (g.setReader p (.assigned i (g.committed p))).frontier q = g.frontier q ∧
      (g.setReader p (.assigned i (g.committed p))).handling? q = g.handling? q := by
  by_cases hq : q = p
  · subst hq
    rw [frontier_of_idle hp, h.handling?_of_idle hp]
    refine ⟨?_, handling?_of_task_none (by simp [Reader.assigned])⟩
    rw [frontier_of_worker (i := i) (by simp [Reader.assigned])]
    simp [Reader.assigned, Reader.cursor]
  · exact ⟨frontier_setReader_of_ne _ hq, handling?_setReader_of_ne _ hq⟩

end Updates

/-! ### The steps of the poll loop -/

/-- A partition whose reader is gone is read again from the committed offset. -/
theorem crash_frontier_or (g₁ : Group P V H) (i : ℕ) (hreaders : g₁.readers = g.readers)
    (hle : g₁.committed q ≤ g.frontier q)
    (hidle : (g.readers q).worker = none → g₁.committed q = g.committed q) :
    ((g₁.crash i).frontier q = g.frontier q ∧ (g₁.crash i).handling? q = g.handling? q) ∨
      (g₁.crash i).frontier q ≤ g.frontier q ∧ (g₁.crash i).handling? q = none := by
  by_cases hq : g₁.reads i q = true
  · right
    have hr : (g₁.crash i).readers q = {} := by simp [Group.crash, hq]
    rw [frontier_of_idle (by rw [hr]), handling?_of_task_none (by rw [hr])]
    exact ⟨hle, rfl⟩
  · left
    have hr : (g₁.crash i).readers q = g.readers q := by
      rw [← hreaders]
      simp [Group.crash, hq]
    exact ⟨frontier_congr hr hidle, handling?_congr hr⟩

/-- A commit leaves the frontiers where they are. -/
theorem Sound.commitOffsets_le_frontier (h : g.Sound cfg) {offsets : P → Option ℕ}
    (hi : g.phase? i = some (.committing offsets)) (applied : P → Bool) (q : P) :
    (g.commitOffsets offsets applied).committed q ≤ g.frontier q ∧
      ((g.readers q).worker = none →
        (g.commitOffsets offsets applied).committed q = g.committed q) := by
  rcases h.committed_commitOffsets hi applied q with heq | ⟨hp, heq⟩ <;> rw [heq]
  · exact ⟨h.committed_le_frontier q, fun _ => rfl⟩
  · exact ⟨(frontier_of_worker hp).ge, fun hnone => (by cases hp.symm.trans hnone)⟩

section Iteration

variable [Fintype P]

/-- A poll leaves the frontiers where they are, and hands no message to a handler. -/
theorem Sound.poll_frontier (h : g.Sound cfg) {w : LoopWorker P} (hi : g.workers i = some w)
    (hw : w.phase = .polling) (now : ℤ) (counts : P → ℕ) (q : P) :
    (g.poll cfg i w now counts).frontier q = g.frontier q ∧
      (g.poll cfg i w now counts).handling? q = g.handling? q := by
  cases hq : g.reads i q with
  | true =>
    have hp := reads_eq_true_iff.mp hq
    have hnone : (g.readers q).task = none := by
      by_contra hne
      obtain ⟨phase, hphase, hc⟩ := h.alive q i hp
      rw [phase?_eq_some hi, hw, hc hne] at hphase
      cases hphase
    refine ⟨?_, ?_⟩
    · simp [frontier, readers_poll_of_reads hq, hp, Reader.cursor]
    · rw [handling?_of_task_none hnone]
      simp only [handling?, openTask?, readers_poll_of_reads hq]
      split_ifs <;> rfl
  | false =>
    have hr : (g.poll cfg i w now counts).readers q = g.readers q :=
      readers_poll_of_not_reads hq w now counts
    exact ⟨frontier_congr hr fun _ => rfl, handling?_congr hr⟩

theorem gather_frontier {w : LoopWorker P}
    (hended : ∀ q, g.reads i q = true → g.openTask? q = none) (q : P) :
    (g.gather i w).frontier q = g.frontier q ∧
      (g.gather i w).handling? q = g.handling? q := by
  cases hq : g.reads i q with
  | true =>
    have hnone : g.handling? q = none := by simp [handling?, hended q hq]
    rw [hnone]
    refine ⟨?_, handling?_of_task_none (by rw [readers_gather_of_reads hq])⟩
    simp [frontier, Group.gather, hq, Reader.cursor]
  | false =>
    have hr := readers_gather_of_not_reads hq w
    exact ⟨frontier_congr hr fun _ => rfl, handling?_congr hr⟩

end Iteration

variable [DecidableEq P] [Fintype P]

theorem Effect.log_eq {a : GroupAct P V H} (heff : Effect cfg g a g') (hloops : a.loops = true) :
    g'.log = g.log := by
  cases heff with
  | appended => cases hloops
  | _ => rfl

/-- A step of the poll loop leaves a partition as it is, drops its message in hand and perhaps sets
its frontier back, calls the handler on the message at its frontier, or skips that message. -/
theorem Effect.frontier_cases (h : g.Sound cfg) {a : GroupAct P V H} (heff : Effect cfg g a g')
    (hloops : a.loops = true) (q : P) :
    (g'.frontier q = g.frontier q ∧ g'.handling? q = g.handling? q) ∨
    (g'.frontier q ≤ g.frontier q ∧ g'.handling? q = none) ∨
    (g'.frontier q = g.frontier q ∧ g.handling? q = none ∧ ∃ now i m, a = .visit q now ∧
      (g.messages cfg q)[g.frontier q]? = some m ∧ m.skipped cfg.settings = false ∧
      g'.handling? q = some (m, .calling (cfg.role i m.value))) ∨
    (g'.frontier q = g.frontier q + 1 ∧ g'.handling? q = none ∧ ∃ m,
      (g.messages cfg q)[g.frontier q]? = some m ∧ m.skipped cfg.settings = true) := by
  cases heff with
  | appended => cases hloops
  | progressed => cases hloops
  | acknowledged => cases hloops
  | answered => cases hloops
  | published => cases hloops
  | failed => cases hloops
  | spawned => exact .inl ⟨rfl, rfl⟩
  | assigned _ hp => exact .inl (h.assign_frontier hp _ q)
  | @revoked i p w hp hi hw =>
    by_cases hq : q = p
    · subst hq
      right; left
      refine ⟨?_, handling?_of_task_none (by simp)⟩
      rw [frontier_of_idle (by simp)]
      exact h.committed_le_frontier q
    · exact .inl ⟨frontier_setReader_of_ne _ hq, handling?_setReader_of_ne _ hq⟩
  | crashed =>
    exact (crash_frontier_or g _ rfl (h.committed_le_frontier q) fun _ => rfl).imp id .inl
  | polled hi hw => exact .inl (h.poll_frontier hi hw _ _ q)
  | @loopEnded p now t ht hh hr =>
    left
    refine ⟨frontier_setTask .., ?_⟩
    by_cases hq : q = p
    · subst hq
      rw [handling?_of_openTask? ht, hh]
      simp [handling?, openTask?]
    · exact handling?_setTask_of_ne _ hq
  | @deferred p now t i w m rest ht hp hi hh hr hdue =>
    left
    by_cases hq : q = p
    · subst hq
      refine ⟨?_, ?_⟩
      · simp [frontier, Reader.seek, Reader.cursor]
      · rw [handling?_of_openTask? ht, hh]
        simp [handling?, openTask?, Reader.seek]
    · exact ⟨frontier_congr (readers_defer_of_ne hq ..) fun _ => rfl,
        handling?_congr (readers_defer_of_ne hq ..)⟩
  | @skipped p now t m rest ht hh hr hs =>
    by_cases hq : q = p
    · subst hq
      obtain ⟨i, hp⟩ := h.worker_of_openTask? ht
      right; right; right
      exact ⟨frontier_settle_self hp, handling?_settle_self, m,
        h.getElem?_frontier ht ((PartitionTask.inHand_of_none hh).trans hr), hs⟩
    · exact .inl ⟨frontier_settle_of_ne hq, handling?_settle_of_ne hq⟩
  | @entered p now t i m rest ht hp hh hr hs =>
    by_cases hq : q = p
    · subst hq
      right; right; left
      refine ⟨frontier_setTask .., (handling?_of_openTask? ht).trans hh, now, i, m, rfl, ?_, hs, ?_⟩
      · exact h.getElem?_frontier ht ((PartitionTask.inHand_of_none hh).trans hr)
      · exact handling?_setTask_self (openTask?_eq_some_iff.mp ht).2
    · exact .inl ⟨frontier_setTask .., handling?_setTask_of_ne _ hq⟩
  | gathered _ _ hended => exact .inl (gather_frontier hended q)
  | committed hi hw =>
    have hphase := (phase?_eq_some hi).trans (congrArg some hw)
    obtain ⟨-, hidle⟩ := h.commitOffsets_le_frontier hphase (fun _ => true) q
    exact .inl ⟨frontier_congr rfl hidle, rfl⟩
  | @commitFailed i applied w offsets hi hw =>
    have hphase := (phase?_eq_some hi).trans (congrArg some hw)
    obtain ⟨hle, hidle⟩ := h.commitOffsets_le_frontier hphase applied q
    exact (crash_frontier_or (g := g) (g.commitOffsets offsets applied) i rfl hle hidle).imp id .inl

/-- When no message is skipped, a step of the poll loop leaves a partition as it is, drops its
message in hand and perhaps sets its frontier back, or calls the handler on the message at its
frontier. -/
theorem Effect.frontier_or (h : g.Sound cfg) {a : GroupAct P V H} (heff : Effect cfg g a g')
    (hloops : a.loops = true)
    (hskip : ∀ p, ∀ m ∈ g.messages cfg p, m.skipped cfg.settings = false) (q : P) :
    (g'.frontier q = g.frontier q ∧ g'.handling? q = g.handling? q) ∨
    (g'.frontier q ≤ g.frontier q ∧ g'.handling? q = none) ∨
    (g'.frontier q = g.frontier q ∧ g.handling? q = none ∧ ∃ i m,
      (g.messages cfg q)[g.frontier q]? = some m ∧
      g'.handling? q = some (m, .calling (cfg.role i m.value))) := by
  rcases heff.frontier_cases h hloops q with heq | hback |
    ⟨heq, hnone, now, i, m, -, hm, -, hnew⟩ | ⟨-, -, m, hm, hs⟩
  · exact .inl heq
  · exact .inr (.inl hback)
  · exact .inr (.inr ⟨heq, hnone, i, m, hm, hnew⟩)
  · rw [hskip q m (List.mem_of_getElem? hm)] at hs
    cases hs

end Group

end Morphflow
