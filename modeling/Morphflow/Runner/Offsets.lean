import Morphflow.Runner.Cursor

/-!
# Committed offsets

The invariant of the group: every assigned partition has a live worker and a sound reader, and the
offsets under commit are cursors. It holds over whole runs, with failures in the middle of a batch,
deferrals, failed commits and crashes.

## Main definitions

* `Group.Sound`.

## Main results

* `Group.Sound.of_effect`: a step keeps the invariant.
* `Group.Effect.committed_le`: no step sets a committed offset back.
-/

namespace Morphflow

variable {P V H : Type*}

/-! ### Sound groups -/

namespace Group

/-- Where the loop of a worker stands. -/
def phase? (g : Group P V H) (i : ℕ) : Option (LoopPhase P) := (g.workers i).map (·.phase)

/-- The messages of a partition. -/
def messages (cfg : GroupConfig P V H) (g : Group P V H) (p : P) : List (Message V) :=
  messagesOf (cfg.topicOf p) (g.log p)

/-- Every assigned partition has a live worker and a sound reader, the offsets under commit are the
cursors, and what is committed or settled was handled. -/
structure Sound (cfg : GroupConfig P V H) (g : Group P V H) : Prop where
  reader : ∀ p i, (g.readers p).worker = some i →
    (g.readers p).Sound (g.messages cfg p) (g.committed p)
  idle : ∀ p, (g.readers p).worker = none → g.readers p = {}
  alive : ∀ p i, (g.readers p).worker = some i →
    ∃ phase, g.phase? i = some phase ∧ ((g.readers p).task ≠ none → phase = .consuming)
  pending : ∀ i offsets, g.phase? i = some (.committing offsets) → ∀ p o, offsets p = some o →
    (g.readers p).worker = some i ∧ o = (g.readers p).cursor
  inLog : ∀ p, g.committed p ≤ (g.messages cfg p).length
  returned : ∀ p o, o < g.committed p → o ∈ g.returned p
  settled : ∀ p, ∀ o ∈ (g.readers p).settled, o ∈ g.returned p

variable {cfg : GroupConfig P V H} {g g' : Group P V H} {p : P} {i : ℕ} {w : LoopWorker P}
  {t : PartitionTask V H} {m : Message V} {rest : List (Message V)}

theorem openTask?_eq_some_iff :
    g.openTask? p = some t ↔ (g.readers p).task = some t ∧ t.ended = false := by
  simp [openTask?, Option.filter_eq_some_iff]

theorem reads_eq_true_iff : g.reads i p = true ↔ (g.readers p).worker = some i := by
  simp [reads]

theorem reads_eq_false_iff : g.reads i p = false ↔ (g.readers p).worker ≠ some i := by
  simp [reads]

theorem phase?_eq_some (hi : g.workers i = some w) : g.phase? i = some w.phase := by
  simp [phase?, hi]

theorem phase?_of_set (h : g'.workers = g.workers.set i w) (j : ℕ) :
    g'.phase? j = if j = i then some w.phase else g.phase? j := by
  simp only [phase?, h, KeyedTable.set]
  split_ifs <;> rfl

theorem phase?_of_erase (h : g'.workers = g.workers.erase i) (j : ℕ) :
    g'.phase? j = if j = i then none else g.phase? j := by
  simp only [phase?, h, KeyedTable.erase]
  split_ifs <;> rfl

theorem batch_prefix_drop (cfg : GroupConfig P V H) (g : Group P V H) (i : ℕ) (w : LoopWorker P)
    (now : ℤ) (counts : P → ℕ) (p : P) :
    g.batch cfg i w now counts p <+: (g.messages cfg p).drop (g.readers p).position := by
  unfold batch
  dsimp only
  split_ifs
  · exact List.take_prefix ..
  · exact List.nil_prefix

/-! ### The readers after an operation -/

section Readers

variable {q : P}

section OneReader

variable [DecidableEq P]

@[simp] theorem readers_setReader_self (r : Reader V H) : (g.setReader p r).readers p = r :=
  Function.update_self ..

theorem readers_setReader_of_ne (hq : q ≠ p) (r : Reader V H) :
    (g.setReader p r).readers q = g.readers q :=
  Function.update_of_ne hq ..

@[simp] theorem readers_setTask_self (t : PartitionTask V H) :
    (g.setTask p t).readers p = { g.readers p with task := some t } :=
  Function.update_self ..

theorem readers_setTask_of_ne (hq : q ≠ p) (t : PartitionTask V H) :
    (g.setTask p t).readers q = g.readers q :=
  Function.update_of_ne hq ..

@[simp] theorem readers_settle_self (t : PartitionTask V H) (m : Message V)
    (rest : List (Message V)) : (g.settle p t m rest).readers p =
      { g.readers p with
        task := some (t.settle m rest)
        settled := (g.readers p).settled ++ [m.offset] } :=
  Function.update_self ..

theorem readers_settle_of_ne (hq : q ≠ p) (t : PartitionTask V H) (m : Message V)
    (rest : List (Message V)) : (g.settle p t m rest).readers q = g.readers q :=
  Function.update_of_ne hq ..

@[simp] theorem readers_defer_self (i : ℕ) (w : LoopWorker P) (t : PartitionTask V H)
    (m : Message V) (dueAt : ℤ) : (g.defer p i w t m dueAt).readers p =
      { (g.readers p).seek t m with paused := true } :=
  Function.update_self ..

theorem readers_defer_of_ne (hq : q ≠ p) (i : ℕ) (w : LoopWorker P) (t : PartitionTask V H)
    (m : Message V) (dueAt : ℤ) : (g.defer p i w t m dueAt).readers q = g.readers q :=
  Function.update_of_ne hq ..

@[simp] theorem committed_setReader (r : Reader V H) :
    (g.setReader p r).committed = g.committed := rfl

@[simp] theorem committed_setTask (t : PartitionTask V H) :
    (g.setTask p t).committed = g.committed := rfl

@[simp] theorem committed_defer (i : ℕ) (w : LoopWorker P) (t : PartitionTask V H) (m : Message V)
    (dueAt : ℤ) : (g.defer p i w t m dueAt).committed = g.committed := rfl

end OneReader

section OneWorker

variable [Fintype P]

theorem readers_poll_of_reads (hq : g.reads i q = true) (w : LoopWorker P) (now : ℤ)
    (counts : P → ℕ) : (g.poll cfg i w now counts).readers q =
      { g.readers q with
        position := (g.readers q).position + (g.batch cfg i w now counts q).length
        paused := (g.readers q).paused && !due w now q
        task := if g.batch cfg i w now counts q = [] then none
          else some { remaining := g.batch cfg i w now counts q } } :=
  if_pos hq

theorem readers_poll_of_not_reads (hq : g.reads i q = false) (w : LoopWorker P) (now : ℤ)
    (counts : P → ℕ) : (g.poll cfg i w now counts).readers q = g.readers q :=
  if_neg (by simp [hq])

theorem readers_gather_of_reads (hq : g.reads i q = true) (w : LoopWorker P) :
    (g.gather i w).readers q = { g.readers q with task := none } :=
  if_pos hq

theorem readers_gather_of_not_reads (hq : g.reads i q = false) (w : LoopWorker P) :
    (g.gather i w).readers q = g.readers q :=
  if_neg (by simp [hq])

end OneWorker

end Readers

namespace Sound

theorem exists_worker (h : g.Sound cfg) (ht : (g.readers p).task = some t) :
    ∃ i, (g.readers p).worker = some i := by
  cases hp : (g.readers p).worker with
  | some i => exact ⟨i, rfl⟩
  | none =>
    rw [h.idle p hp] at ht
    cases ht

theorem consuming (h : g.Sound cfg) (ht : (g.readers p).task = some t)
    (hp : (g.readers p).worker = some i) : g.phase? i = some .consuming := by
  obtain ⟨phase, hi, hc⟩ := h.alive p i hp
  rw [hi, hc (by rw [ht]; exact Option.some_ne_none t)]

/-- One reader may change while no offset of its partition is under commit. -/
theorem changeReader (h : g.Sound cfg) (hphase : ∀ j, g'.phase? j = g.phase? j)
    (hlog : g'.log = g.log) (hcommitted : g'.committed = g.committed)
    (hother : ∀ q, q ≠ p → g'.readers q = g.readers q)
    (hreturned : ∀ q o, o ∈ g.returned q → o ∈ g'.returned q)
    (hfree : ∀ j offsets, g.phase? j = some (.committing offsets) →
      (g.readers p).worker ≠ some j)
    (hidle : (g'.readers p).worker = none → g'.readers p = {})
    (hreader : ∀ j, (g'.readers p).worker = some j →
      (g'.readers p).Sound (g.messages cfg p) (g.committed p) ∧
      ∃ phase, g.phase? j = some phase ∧ ((g'.readers p).task ≠ none → phase = .consuming))
    (hsettled : ∀ o ∈ (g'.readers p).settled, o ∈ g'.returned p) : g'.Sound cfg := by
  have hmessages : ∀ q, g'.messages cfg q = g.messages cfg q := fun q => by
    rw [messages, messages, hlog]
  constructor
  · intro q j hj
    rw [hmessages, hcommitted]
    by_cases hq : q = p
    · subst hq
      exact (hreader j hj).1
    · rw [hother q hq] at hj ⊢
      exact h.reader q j hj
  · intro q hj
    by_cases hq : q = p
    · subst hq
      exact hidle hj
    · rw [hother q hq] at hj ⊢
      exact h.idle q hj
  · intro q j hj
    rw [hphase]
    by_cases hq : q = p
    · subst hq
      exact (hreader j hj).2
    · rw [hother q hq] at hj ⊢
      exact h.alive q j hj
  · intro j offsets hj q o ho
    rw [hphase] at hj
    obtain ⟨hworker, hcursor⟩ := h.pending j offsets hj q o ho
    have hne : q ≠ p := by
      rintro rfl
      exact hfree j offsets hj hworker
    rw [hother q hne]
    exact ⟨hworker, hcursor⟩
  · intro q
    rw [hmessages, hcommitted]
    exact h.inLog q
  · intro q o ho
    rw [hcommitted] at ho
    exact hreturned q o (h.returned q o ho)
  · intro q o ho
    by_cases hq : q = p
    · subst hq
      exact hsettled o ho
    · rw [hother q hq] at ho
      exact hreturned q o (h.settled q o ho)

/-- One open task may go on, and nothing else changes but what its worker has paused. -/
theorem update (h : g.Sound cfg) (ht : g.openTask? p = some t)
    (hphase : ∀ j, g'.phase? j = g.phase? j) (hlog : g'.log = g.log)
    (hcommitted : g'.committed = g.committed)
    (hother : ∀ q, q ≠ p → g'.readers q = g.readers q)
    (hreturned : ∀ q o, o ∈ g.returned q → o ∈ g'.returned q)
    (hworker : (g'.readers p).worker = (g.readers p).worker)
    (hreader : (g'.readers p).Sound (g.messages cfg p) (g.committed p))
    (hsettled : ∀ o ∈ (g'.readers p).settled, o ∈ g'.returned p) : g'.Sound cfg := by
  obtain ⟨ht, -⟩ := openTask?_eq_some_iff.mp ht
  obtain ⟨i, hp⟩ := h.exists_worker ht
  have hconsuming := h.consuming ht hp
  refine h.changeReader hphase hlog hcommitted hother hreturned (fun j offsets hj hq => ?_)
    (fun hnone => ?_) (fun j hj => ⟨hreader, ?_⟩) hsettled
  · -- the worker of the open task commits nothing now
    obtain rfl : i = j := Option.some.inj (hp.symm.trans hq)
    cases hconsuming.symm.trans hj
  · cases (hworker.symm.trans hnone).symm.trans hp
  · obtain rfl : i = j := Option.some.inj (hp.symm.trans (hworker.symm.trans hj))
    exact ⟨.consuming, hconsuming, fun _ => rfl⟩

theorem spawn (h : g.Sound cfg) (hi : g.workers i = none) :
    ({ g with workers := g.workers.set i {} } : Group P V H).Sound cfg := by
  refine ⟨h.reader, h.idle, fun q j hj => ?_, fun j offsets hj => ?_, h.inLog, h.returned,
    h.settled⟩
  · obtain ⟨phase, hphase, hc⟩ := h.alive q j hj
    have hne : j ≠ i := by
      rintro rfl
      rw [phase?, hi] at hphase
      cases hphase
    exact ⟨phase, by rw [phase?_of_set rfl, if_neg hne, hphase], hc⟩
  · rw [phase?_of_set rfl] at hj
    split_ifs at hj
    · cases hj
    · exact h.pending j offsets hj

theorem crash (h : g.Sound cfg) (i : ℕ) : (g.crash i).Sound cfg := by
  have hreaders : ∀ q, (g.crash i).readers q =
      if g.reads i q then {} else g.readers q := fun _ => rfl
  have hkept : ∀ q j, ((g.crash i).readers q).worker = some j →
      (g.crash i).readers q = g.readers q ∧ j ≠ i := by
    intro q j hj
    by_cases hq : g.reads i q = true
    · rw [hreaders, if_pos hq] at hj
      cases hj
    · rw [hreaders, if_neg hq] at hj ⊢
      refine ⟨rfl, ?_⟩
      rintro rfl
      exact hq (reads_eq_true_iff.mpr hj)
  constructor
  · intro q j hj
    have heq := (hkept q j hj).1
    rw [heq] at hj ⊢
    exact h.reader q j hj
  · intro q hq
    rw [hreaders] at hq ⊢
    split_ifs at hq ⊢
    · rfl
    · exact h.idle q hq
  · intro q j hj
    obtain ⟨heq, hne⟩ := hkept q j hj
    rw [heq] at hj ⊢
    rw [phase?_of_erase (g := g) rfl, if_neg hne]
    exact h.alive q j hj
  · intro j offsets hj q o ho
    rw [phase?_of_erase (g := g) rfl] at hj
    split_ifs at hj with hji
    obtain ⟨hq, hcursor⟩ := h.pending j offsets hj q o ho
    have hnot : g.reads i q = false :=
      reads_eq_false_iff.mpr (by rw [hq]; exact fun heq => hji (Option.some.inj heq))
    rw [hreaders, hnot]
    exact ⟨hq, hcursor⟩
  · exact h.inLog
  · exact h.returned
  · intro q o ho
    rw [hreaders] at ho
    split_ifs at ho
    · cases ho
    · exact h.settled q o ho

/-- A committed offset is the old one, or the cursor of a partition of the worker. -/
theorem committed_commitOffsets (h : g.Sound cfg) {offsets : P → Option ℕ}
    (hi : g.phase? i = some (.committing offsets)) (applied : P → Bool) (q : P) :
    (g.commitOffsets offsets applied).committed q = g.committed q ∨
      (g.readers q).worker = some i ∧
        (g.commitOffsets offsets applied).committed q = (g.readers q).cursor := by
  simp only [Group.commitOffsets]
  split_ifs
  · cases ho : offsets q with
    | none => exact .inl rfl
    | some o => exact .inr (h.pending i offsets hi q o ho)
  · exact .inl rfl

theorem commitOffsets (h : g.Sound cfg) {offsets : P → Option ℕ}
    (hi : g.phase? i = some (.committing offsets)) (applied : P → Bool) :
    (g.commitOffsets offsets applied).Sound cfg := by
  have hcommitted := h.committed_commitOffsets hi applied
  constructor
  · intro q j hq
    have hr := h.reader q j hq
    rcases hcommitted q with hc | ⟨-, hc⟩ <;> rw [hc]
    · exact hr
    · exact hr.commit hr.committed_le le_rfl
  · exact h.idle
  · exact h.alive
  · exact h.pending
  · intro q
    rcases hcommitted q with hc | ⟨hq, hc⟩ <;> rw [hc]
    · exact h.inLog q
    · exact (h.reader q i hq).cursor_le
  · intro q o ho
    rcases hcommitted q with hc | ⟨hq, hc⟩ <;> rw [hc] at ho
    · exact h.returned q o ho
    · -- below the cursor a record was committed before or settled since
      have hr := h.reader q i hq
      by_cases hlt : o < g.committed q
      · exact h.returned q o hlt
      · refine h.settled q o ?_
        rw [hr.settled, List.mem_range'_1]
        exact ⟨hr.start_le.trans (Nat.le_of_not_lt hlt), ho⟩
  · exact h.settled

/-- One worker may change, with the readers of its partitions. -/
theorem changeWorker (h : g.Sound cfg) {phase' : LoopPhase P}
    (hphase : ∀ j, g'.phase? j = if j = i then some phase' else g.phase? j)
    (hlog : g'.log = g.log) (hcommitted : g'.committed = g.committed)
    (hreturned : g'.returned = g.returned)
    (hkeep : ∀ q, (g.readers q).worker ≠ some i → g'.readers q = g.readers q)
    (hworker : ∀ q, (g.readers q).worker = some i → (g'.readers q).worker = some i)
    (hreader : ∀ q, (g.readers q).worker = some i →
      (g'.readers q).Sound (g.messages cfg q) (g.committed q))
    (hsettled : ∀ q, (g.readers q).worker = some i →
      (g'.readers q).settled = (g.readers q).settled)
    (htask : ∀ q, (g.readers q).worker = some i → (g'.readers q).task ≠ none →
      phase' = .consuming)
    (hpending : ∀ offsets, phase' = .committing offsets → ∀ q o, offsets q = some o →
      (g.readers q).worker = some i ∧ o = (g'.readers q).cursor) : g'.Sound cfg := by
  have hmessages : ∀ q, g'.messages cfg q = g.messages cfg q := fun q => by
    rw [messages, messages, hlog]
  have hworkers : ∀ q, (g'.readers q).worker = (g.readers q).worker := by
    intro q
    by_cases hq : (g.readers q).worker = some i
    · rw [hworker q hq, hq]
    · rw [hkeep q hq]
  have hother : ∀ q j, (g.readers q).worker = some j → j ≠ i → g'.readers q = g.readers q :=
    fun q j hj hji => hkeep q (by rw [hj]; exact fun heq => hji (Option.some.inj heq))
  constructor
  · intro q j hj
    rw [hworkers] at hj
    rw [hmessages, hcommitted]
    by_cases hji : j = i
    · exact hreader q (hji ▸ hj)
    · rw [hother q j hj hji]
      exact h.reader q j hj
  · intro q hq
    rw [hworkers] at hq
    rw [hkeep q (by rw [hq]; rintro ⟨⟩)]
    exact h.idle q hq
  · intro q j hj
    rw [hworkers] at hj
    rw [hphase]
    by_cases hji : j = i
    · rw [if_pos hji]
      exact ⟨phase', rfl, htask q (hji ▸ hj)⟩
    · rw [if_neg hji, hother q j hj hji]
      exact h.alive q j hj
  · intro j offsets hj q o ho
    rw [hphase] at hj
    by_cases hji : j = i
    · subst hji
      rw [if_pos rfl] at hj
      obtain ⟨hq, hcursor⟩ := hpending offsets (Option.some.inj hj) q o ho
      exact ⟨hworker q hq, hcursor⟩
    · rw [if_neg hji] at hj
      obtain ⟨hq, hcursor⟩ := h.pending j offsets hj q o ho
      rw [hother q j hq hji]
      exact ⟨hq, hcursor⟩
  · intro q
    rw [hmessages, hcommitted]
    exact h.inLog q
  · intro q o ho
    rw [hcommitted] at ho
    rw [hreturned]
    exact h.returned q o ho
  · intro q o ho
    rw [hreturned]
    refine h.settled q o ?_
    by_cases hq : (g.readers q).worker = some i
    · rwa [hsettled q hq] at ho
    · rwa [hkeep q hq] at ho

theorem setPolling (h : g.Sound cfg) (hi : g.workers i = some w)
    (hw : w.phase ≠ .consuming) :
    ({ g with workers := g.workers.set i { w with phase := .polling } } :
      Group P V H).Sound cfg := by
  refine h.changeWorker (fun j => phase?_of_set (g := g) rfl j) rfl rfl rfl (fun _ _ => rfl)
    (fun _ hq => hq) (fun q hq => h.reader q i hq) (fun _ _ => rfl) (fun q hq hne => ?_) ?_
  · obtain ⟨phase, hphase, hc⟩ := h.alive q i hq
    refine absurd ?_ hw
    rw [← hc hne]
    exact Option.some.inj ((phase?_eq_some hi).symm.trans hphase)
  · rintro offsets ⟨⟩

section Updates

variable [DecidableEq P]

theorem append (h : g.Sound cfg) (p : P) (record : LogRecord V) :
    (g.append p record).Sound cfg := by
  refine ⟨fun q i hq => ?_, h.idle, h.alive, h.pending, fun q => ?_, h.returned, h.settled⟩
  · by_cases hqp : q = p
    · subst hqp
      simp only [messages, Group.append, Function.update_self]
      exact (h.reader q i hq).append record
    · simp only [messages, Group.append, Function.update_of_ne hqp]
      exact h.reader q i hq
  · refine (h.inLog q).trans ?_
    by_cases hqp : q = p
    · subst hqp
      simp only [messages, Group.append, Function.update_self, messagesOf_append,
        List.length_append]
      exact Nat.le_add_right ..
    · simp only [messages, Group.append, Function.update_of_ne hqp]
      exact le_rfl

theorem assign (h : g.Sound cfg) (hi : g.workers i = some w)
    (hp : (g.readers p).worker = none) :
    (g.setReader p (.assigned i (g.committed p))).Sound cfg := by
  refine h.changeReader (p := p) (fun _ => rfl) rfl rfl (fun q hq => readers_setReader_of_ne hq _)
    (fun _ _ => id) (fun j offsets _ hj => ?_) ?_ ?_ ?_
  · cases hp.symm.trans hj
  · rw [readers_setReader_self]
    rintro ⟨⟩
  · rw [readers_setReader_self]
    intro j hj
    obtain rfl := Option.some.inj hj
    exact ⟨.assigned (h.inLog p) i, w.phase, phase?_eq_some hi, fun hne => absurd rfl hne⟩
  · rw [readers_setReader_self]
    exact fun o ho => absurd ho List.not_mem_nil

theorem revoke (h : g.Sound cfg) (hp : (g.readers p).worker = some i)
    (hi : g.phase? i = some .polling) : (g.setReader p {}).Sound cfg := by
  refine h.changeReader (p := p) (fun _ => rfl) rfl rfl (fun q hq => readers_setReader_of_ne hq _)
    (fun _ _ => id) (fun j offsets hj hq => ?_) ?_ ?_ ?_
  · obtain rfl : i = j := Option.some.inj (hp.symm.trans hq)
    cases hi.symm.trans hj
  · exact fun _ => readers_setReader_self _
  · rw [readers_setReader_self]
    rintro j ⟨⟩
  · rw [readers_setReader_self]
    exact fun o ho => absurd ho List.not_mem_nil

theorem setReader (h : g.Sound cfg) (ht : g.openTask? p = some t) {r : Reader V H}
    (hworker : r.worker = (g.readers p).worker) (hsettled : r.settled = (g.readers p).settled)
    (hr : r.Sound (g.messages cfg p) (g.committed p)) : (g.setReader p r).Sound cfg := by
  refine h.update ht (fun _ => rfl) rfl rfl (fun q hq => ?_) (fun _ _ => id) ?_ ?_ ?_
  · exact readers_setReader_of_ne hq r
  · rw [readers_setReader_self, hworker]
  · rwa [readers_setReader_self]
  · rw [readers_setReader_self, hsettled]
    exact h.settled p

theorem setTask (h : g.Sound cfg) (ht : g.openTask? p = some t) {t' : PartitionTask V H}
    (hand : t'.inHand = t.inHand) (hcommit : t'.commitOffset = t.commitOffset)
    (hended : t'.ended = t.ended) : (g.setTask p t').Sound cfg := by
  obtain ⟨htask, ho⟩ := openTask?_eq_some_iff.mp ht
  obtain ⟨i, hp⟩ := h.exists_worker htask
  exact h.setReader ht rfl rfl ((h.reader p i hp).goOn htask ho hand hcommit (hended.trans ho))

theorem goOn (h : g.Sound cfg) (ht : g.openTask? p = some t) {x : Handling V H}
    (hh : t.handling = some (m, x)) (x' : Handling V H) :
    (g.setTask p { t with handling := some (m, x') }).Sound cfg :=
  h.setTask ht ((PartitionTask.inHand_of_some hh).symm ▸ rfl) rfl rfl

theorem seek (h : g.Sound cfg) (ht : g.openTask? p = some t) (hand : t.inHand = m :: rest) :
    (g.setReader p ((g.readers p).seek t m)).Sound cfg := by
  obtain ⟨htask, ho⟩ := openTask?_eq_some_iff.mp ht
  obtain ⟨i, hp⟩ := h.exists_worker htask
  exact h.setReader ht rfl rfl ((h.reader p i hp).seek htask ho hand _)

theorem settle (h : g.Sound cfg) (ht : g.openTask? p = some t) (hand : t.inHand = m :: rest) :
    (g.settle p t m rest).Sound cfg := by
  obtain ⟨htask, ho⟩ := openTask?_eq_some_iff.mp ht
  obtain ⟨i, hp⟩ := h.exists_worker htask
  refine h.update ht (fun _ => rfl) rfl rfl (fun q hq => ?_) (fun q o hmem => ?_) ?_ ?_ ?_
  · exact readers_settle_of_ne hq ..
  · by_cases hq : q = p
    · subst hq
      simp only [Group.settle, Function.update_self]
      exact List.mem_append_left _ hmem
    · simpa only [Group.settle, Function.update_of_ne hq] using hmem
  · rw [readers_settle_self]
  · rw [readers_settle_self]
    exact (h.reader p i hp).settle htask ho hand
  · rw [readers_settle_self]
    simp only [Group.settle, Function.update_self, List.mem_append]
    exact fun o hmem => hmem.imp (h.settled p o) id

/-- A retry message may be put off. -/
theorem defer (h : g.Sound cfg) (ht : g.openTask? p = some t)
    (hp : (g.readers p).worker = some i) (hi : g.workers i = some w)
    (hand : t.inHand = m :: rest) (dueAt : ℤ) : (g.defer p i w t m dueAt).Sound cfg := by
  obtain ⟨htask, ho⟩ := openTask?_eq_some_iff.mp ht
  refine h.update ht (fun j => ?_) rfl rfl (fun q hq => ?_) (fun _ _ => id) ?_ ?_ ?_
  · rw [phase?_of_set (g := g) rfl]
    split_ifs with hj
    · rw [hj, phase?_eq_some hi]
    · rfl
  · exact readers_defer_of_ne hq ..
  · rw [readers_defer_self, Reader.seek]
  · rw [readers_defer_self]
    exact (h.reader p i hp).seek htask ho hand true
  · rw [readers_defer_self]
    exact h.settled p

end Updates

section Iteration

variable [Fintype P]

theorem poll (h : g.Sound cfg) (hi : g.workers i = some w) (hw : w.phase = .polling) (now : ℤ)
    (counts : P → ℕ) : (g.poll cfg i w now counts).Sound cfg := by
  refine h.changeWorker (fun j => phase?_of_set (g := g) (i := i) rfl j) rfl rfl rfl
    (fun q hq => readers_poll_of_not_reads (reads_eq_false_iff.mpr hq) ..) (fun q hq => ?_)
    (fun q hq => ?_) (fun q hq => ?_) (fun q hq hne => ?_) fun offsets heq => ?_
  · rw [readers_poll_of_reads (reads_eq_true_iff.mpr hq), hq]
  · rw [readers_poll_of_reads (reads_eq_true_iff.mpr hq)]
    have hnone : (g.readers q).task = none := by
      by_contra hne
      obtain ⟨phase, hp, hc⟩ := h.alive q i hq
      have hpoll := Option.some.inj ((phase?_eq_some hi).symm.trans hp)
      rw [hw, hc hne] at hpoll
      cases hpoll
    exact (h.reader q i hq).poll hnone (batch_prefix_drop cfg g i w now counts q) _
  · rw [readers_poll_of_reads (reads_eq_true_iff.mpr hq)]
  · rw [readers_poll_of_reads (reads_eq_true_iff.mpr hq)] at hne
    refine if_neg fun hall => hne ?_
    rw [if_pos (hall q)]
  · simp only at heq
    split_ifs at heq

theorem gather (h : g.Sound cfg) (w : LoopWorker P)
    (hended : ∀ q, g.reads i q = true → g.openTask? q = none) : (g.gather i w).Sound cfg := by
  refine h.changeWorker (fun j => phase?_of_set (g := g) (i := i) rfl j) rfl rfl rfl
    (fun q hq => readers_gather_of_not_reads (reads_eq_false_iff.mpr hq) w) (fun q hq => ?_)
    (fun q hq => ?_) (fun q hq => ?_) (fun q hq hne => ?_) fun offsets heq q o ho => ?_
  · rw [readers_gather_of_reads (reads_eq_true_iff.mpr hq), hq]
  · rw [readers_gather_of_reads (reads_eq_true_iff.mpr hq)]
    refine (h.reader q i hq).gather fun t ht => ?_
    by_contra ho
    have hopen := hended q (reads_eq_true_iff.mpr hq)
    rw [openTask?_eq_some_iff.mpr ⟨ht, by simpa using ho⟩] at hopen
    cases hopen
  · rw [readers_gather_of_reads (reads_eq_true_iff.mpr hq)]
  · rw [readers_gather_of_reads (reads_eq_true_iff.mpr hq)] at hne
    exact absurd rfl hne
  · simp only at heq
    split_ifs at heq
    obtain rfl := LoopPhase.committing.inj heq
    simp only [results, Option.ite_none_right_eq_some, Option.bind_eq_some_iff] at ho
    obtain ⟨hq, t, ht, hc⟩ := ho
    have hq := reads_eq_true_iff.mp hq
    rw [readers_gather_of_reads (reads_eq_true_iff.mpr hq)]
    exact ⟨hq, ((h.reader q i hq).task t ht).commit o hc⟩

/-- A step keeps the invariant. -/
theorem of_effect [DecidableEq P] (h : g.Sound cfg) {a : GroupAct P V H}
    (heff : Effect cfg g a g') : g'.Sound cfg := by
  cases heff with
  | appended => exact h.append _ _
  | spawned hi => exact h.spawn hi
  | assigned hi hp => exact h.assign hi hp
  | revoked hp hi hw => exact h.revoke hp (by rw [phase?_eq_some hi, hw])
  | crashed => exact h.crash _
  | polled hi hw => exact h.poll hi hw _ _
  | loopEnded ht hh hr =>
    obtain ⟨htask, ho⟩ := openTask?_eq_some_iff.mp ht
    obtain ⟨i, hp⟩ := h.exists_worker htask
    have hand := (PartitionTask.inHand_of_none hh).trans hr
    exact h.setReader ht rfl rfl ((h.reader _ i hp).endLoop htask ho hand)
  | deferred ht hp hi hh hr =>
    exact h.defer ht hp hi ((PartitionTask.inHand_of_none hh).trans hr) _
  | skipped ht hh hr => exact h.settle ht ((PartitionTask.inHand_of_none hh).trans hr)
  | entered ht hp hh hr =>
    exact h.setTask ht (((PartitionTask.inHand_of_none hh).trans hr).symm ▸ rfl) rfl rfl
  | progressed ht hh => exact h.goOn ht hh _
  | acknowledged ht hh => exact h.settle ht (PartitionTask.inHand_of_some hh)
  | answered ht hh => exact h.goOn ht hh _
  | published ht hh => exact h.settle ht (PartitionTask.inHand_of_some hh)
  | failed ht hh => exact h.seek ht (PartitionTask.inHand_of_some hh)
  | gathered _ _ hended => exact h.gather _ hended
  | committed hi hw =>
    have hphase := (phase?_eq_some hi).trans (congrArg some hw)
    exact (h.commitOffsets hphase _).setPolling hi (by rw [hw]; rintro ⟨⟩)
  | commitFailed hi hw =>
    have hphase := (phase?_eq_some hi).trans (congrArg some hw)
    exact (h.commitOffsets hphase _).crash _

end Iteration

end Sound

/-- A step commits cursors only. -/
theorem Effect.committed_le [DecidableEq P] [Fintype P] (h : g.Sound cfg) {a : GroupAct P V H}
    (heff : Effect cfg g a g') (p : P) : g.committed p ≤ g'.committed p := by
  have hcommit : ∀ {i : ℕ} {w : LoopWorker P} {offsets : P → Option ℕ} (applied : P → Bool),
      g.workers i = some w → w.phase = .committing offsets →
      g.committed p ≤ (g.commitOffsets offsets applied).committed p := by
    intro i w offsets applied hi hw
    have hphase := (phase?_eq_some hi).trans (congrArg some hw)
    rcases h.committed_commitOffsets hphase applied p with heq | ⟨hp, heq⟩ <;> rw [heq]
    exact (h.reader p i hp).committed_le
  cases heff with
  | committed hi hw => exact hcommit (fun _ => true) hi hw
  | @commitFailed i applied w offsets hi hw => exact hcommit applied hi hw
  | _ => exact le_rfl

theorem Sound.of_init [DecidableEq P] [Fintype P] (h : (consumerGroup cfg).init g) :
    g.Sound cfg := by
  obtain ⟨log, rfl⟩ := h
  refine ⟨fun p i hi => ?_, fun _ _ => rfl, fun p i hi => ?_, fun i offsets hi => ?_,
    fun _ => Nat.zero_le _, fun p o ho => ?_, fun p o ho => ?_⟩
  · cases hi
  · cases hi
  · cases hi
  · cases ho
  · cases ho

theorem Sound.of_reachable [DecidableEq P] [Fintype P] (h : (consumerGroup cfg).Reachable g) :
    g.Sound cfg :=
  h.rec_on_step (fun _ h₀ => .of_init h₀) fun _ _ _ _ hs hstep =>
    hs.of_effect (effect_of_step hstep)

end Group

end Morphflow
