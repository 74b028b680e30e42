import Morphflow.Runner.ConsumerGroup

/-!
# The cursor of a partition

Between its assignment and the end of its worker, a partition has a *cursor*: the first offset not
settled yet. `Reader.Sound` ties everything that moves to it: a task has in hand what follows the
cursor, the position is behind that or, once the loop was left, the cursor itself, the offset a task
returns is the cursor, and the committed offset never passes it.

## Main definitions

* `Reader.cursor`, `PartitionTask.Sound`, `Reader.Sound`.

## Main results

* `Reader.Sound.settle`, `Reader.Sound.seek`, `Reader.Sound.poll`: what moves the cursor and the
  position keeps them in agreement.
-/

namespace Morphflow

variable {P V H : Type*}

/-! ### The messages of a log -/

section Messages

variable {topic : String} {log : List (LogRecord V)} {m : Message V} {rest : List (Message V)}
  {k : ℕ}

theorem messagesOf_getElem? : (messagesOf topic log)[k]? =
    log[k]?.map fun record => ⟨topic, k, record.value, record.headers⟩ := by
  simp [messagesOf]

theorem messagesOf_append (record : LogRecord V) : messagesOf topic (log ++ [record]) =
    messagesOf topic log ++ [⟨topic, log.length, record.value, record.headers⟩] := by
  simp [messagesOf]

theorem getElem?_of_cons_prefix_drop (h : m :: rest <+: (messagesOf topic log).drop k) :
    (messagesOf topic log)[k]? = some m := by
  obtain ⟨tail, htail⟩ := h
  have hhead : ((messagesOf topic log).drop k)[0]? = some m := by rw [← htail]; rfl
  simpa using hhead

theorem offset_of_getElem? (h : (messagesOf topic log)[k]? = some m) : m.offset = k := by
  rw [messagesOf_getElem?] at h
  obtain ⟨record, -, rfl⟩ := Option.map_eq_some_iff.mp h
  rfl

theorem prefix_drop_succ (h : m :: rest <+: (messagesOf topic log).drop k) :
    rest <+: (messagesOf topic log).drop (k + 1) := by
  obtain ⟨tail, htail⟩ := h
  refine ⟨tail, ?_⟩
  rw [← List.tail_drop, ← htail]
  rfl

theorem prefix_drop_append {l : List (Message V)} (h : l <+: (messagesOf topic log).drop k)
    (record : LogRecord V) : l <+: (messagesOf topic (log ++ [record])).drop k := by
  rw [messagesOf_append, List.drop_append]
  exact h.trans (List.prefix_append ..)

end Messages

/-! ### Sound tasks and readers -/

section InHand

variable {t : PartitionTask V H} {m : Message V} {x : Handling V H}

theorem PartitionTask.inHand_of_none (h : t.handling = none) : t.inHand = t.remaining := by
  simp [inHand, h]

theorem PartitionTask.inHand_of_some (h : t.handling = some (m, x)) :
    t.inHand = m :: t.remaining := by
  simp [inHand, h]

end InHand

/-- The first offset that is not settled since the partition was assigned. -/
def Reader.cursor (r : Reader V H) : ℕ := r.start + r.settled.length

/-- A task of a partition with the given cursor and position. -/
structure PartitionTask.Sound (messages : List (Message V)) (cursor position : ℕ)
    (t : PartitionTask V H) : Prop where
  commit : ∀ o, t.commitOffset = some o → o = cursor
  underWay : t.ended = false →
    t.inHand <+: messages.drop cursor ∧ position = cursor + t.inHand.length
  left : t.ended = true → t.handling = none ∧ position = cursor

/-- The reader of an assigned partition. -/
structure Reader.Sound (messages : List (Message V)) (committed : ℕ) (r : Reader V H) : Prop where
  settled : r.settled = List.range' r.start r.settled.length
  start_le : r.start ≤ committed
  committed_le : committed ≤ r.cursor
  cursor_le : r.cursor ≤ messages.length
  resting : r.task = none → r.position = r.cursor
  task : ∀ t, r.task = some t → t.Sound messages r.cursor r.position

namespace Reader.Sound

variable {topic : String} {log : List (LogRecord V)} {committed : ℕ} {r : Reader V H}
  {t t' : PartitionTask V H} {m : Message V} {rest : List (Message V)}

theorem assigned {messages : List (Message V)} {committed : ℕ} (h : committed ≤ messages.length)
    (i : ℕ) : (Reader.assigned i committed : Reader V H).Sound messages committed where
  settled := rfl
  start_le := le_rfl
  committed_le := le_rfl
  cursor_le := h
  resting _ := rfl
  task t ht := by cases ht

theorem append (h : r.Sound (messagesOf topic log) committed) (record : LogRecord V) :
    r.Sound (messagesOf topic (log ++ [record])) committed where
  settled := h.settled
  start_le := h.start_le
  committed_le := h.committed_le
  cursor_le := by
    rw [messagesOf_append, List.length_append]
    exact h.cursor_le.trans (Nat.le_add_right ..)
  resting := h.resting
  task t ht :=
    ⟨(h.task t ht).commit, fun he => ⟨prefix_drop_append ((h.task t ht).underWay he).1 record,
      ((h.task t ht).underWay he).2⟩, (h.task t ht).left⟩

/-- A committed offset between the start and the cursor. -/
theorem commit (h : r.Sound (messagesOf topic log) committed) {committed' : ℕ}
    (hle : committed ≤ committed') (hle' : committed' ≤ r.cursor) :
    r.Sound (messagesOf topic log) committed' where
  settled := h.settled
  start_le := h.start_le.trans hle
  committed_le := hle'
  cursor_le := h.cursor_le
  resting := h.resting
  task := h.task

/-- The next batch was polled. -/
theorem poll (h : r.Sound (messagesOf topic log) committed) (hn : r.task = none)
    {batch : List (Message V)} (hb : batch <+: (messagesOf topic log).drop r.position)
    (paused : Bool) :
    ({ r with
        position := r.position + batch.length
        paused := paused
        task := if batch = [] then none else some { remaining := batch } } : Reader V H).Sound
      (messagesOf topic log) committed where
  settled := h.settled
  start_le := h.start_le
  committed_le := h.committed_le
  cursor_le := h.cursor_le
  resting hnone := by
    have hnil : batch = [] := by simpa using hnone
    rw [hnil]
    exact h.resting hn
  task t ht := by
    rw [h.resting hn] at hb
    simp only [Option.ite_none_left_eq_some, Option.some.injEq] at ht
    obtain ⟨-, rfl⟩ := ht
    refine ⟨fun o hc => (by cases hc), fun _ => ⟨hb, ?_⟩, fun he => (by cases he)⟩
    rw [h.resting hn]
    rfl

/-- The result of an ended task was gathered. -/
theorem gather (h : r.Sound (messagesOf topic log) committed)
    (hended : ∀ t, r.task = some t → t.ended = true) :
    ({ r with task := none } : Reader V H).Sound (messagesOf topic log) committed where
  settled := h.settled
  start_le := h.start_le
  committed_le := h.committed_le
  cursor_le := h.cursor_le
  resting _ := by
    cases ht : r.task with
    | none => exact h.resting ht
    | some t => exact ((h.task t ht).left (hended t ht)).2
  task t ht := by cases ht

section Open

variable (h : r.Sound (messagesOf topic log) committed) (ht : r.task = some t)
  (ho : t.ended = false)

include h ht ho

theorem getElem?_cursor (hand : t.inHand = m :: rest) :
    (messagesOf topic log)[r.cursor]? = some m :=
  getElem?_of_cons_prefix_drop (hand ▸ ((h.task t ht).underWay ho).1)

theorem offset_eq (hand : t.inHand = m :: rest) : m.offset = r.cursor :=
  offset_of_getElem? (h.getElem?_cursor ht ho hand)

/-- A task that goes on with the same messages. -/
theorem goOn (hand : t'.inHand = t.inHand) (hcommit : t'.commitOffset = t.commitOffset)
    (ho' : t'.ended = false) :
    ({ r with task := some t' } : Reader V H).Sound (messagesOf topic log) committed where
  settled := h.settled
  start_le := h.start_le
  committed_le := h.committed_le
  cursor_le := h.cursor_le
  resting hn := by cases hn
  task t₁ ht₁ := by
    obtain rfl := Option.some.inj ht₁
    refine ⟨fun o hc => (h.task t ht).commit o (hcommit ▸ hc), fun _ => ?_, fun he => ?_⟩
    · rw [hand]
      exact (h.task t ht).underWay ho
    · rw [ho'] at he
      cases he

/-- The loop came to the end of its batch. -/
theorem endLoop (hand : t.inHand = []) :
    ({ r with task := some { t with ended := true } } : Reader V H).Sound (messagesOf topic log)
      committed where
  settled := h.settled
  start_le := h.start_le
  committed_le := h.committed_le
  cursor_le := h.cursor_le
  resting hn := by cases hn
  task t₁ ht₁ := by
    obtain rfl := Option.some.inj ht₁
    have hpos := ((h.task t ht).underWay ho).2
    rw [hand] at hpos
    have hnone : t.handling = none := by
      cases hh : t.handling with
      | none => rfl
      | some x => simp [PartitionTask.inHand, hh] at hand
    exact ⟨(h.task t ht).commit, fun he => (by cases he), fun _ => ⟨hnone, hpos⟩⟩

/-- The loop was left at the message in hand. -/
theorem seek (hand : t.inHand = m :: rest) (paused : Bool) :
    ({ r.seek t m with paused := paused } : Reader V H).Sound (messagesOf topic log) committed where
  settled := h.settled
  start_le := h.start_le
  committed_le := h.committed_le
  cursor_le := h.cursor_le
  resting hn := by cases hn
  task t₁ ht₁ := by
    obtain rfl := Option.some.inj ht₁
    exact ⟨(h.task t ht).commit, fun he => (by cases he),
      fun _ => ⟨rfl, h.offset_eq ht ho hand⟩⟩

/-- The message in hand was settled. -/
theorem settle (hand : t.inHand = m :: rest) :
    ({ r with task := some (t.settle m rest), settled := r.settled ++ [m.offset] } :
      Reader V H).Sound (messagesOf topic log) committed where
  settled := by
    have hoff := h.offset_eq ht ho hand
    simp only [List.length_append, List.length_singleton, List.range'_concat, one_mul]
    rw [← h.settled, hoff, Reader.cursor]
  start_le := h.start_le
  committed_le := by
    have hle := h.committed_le
    simp only [Reader.cursor, List.length_append, List.length_singleton] at hle ⊢
    omega
  cursor_le := by
    have hlt := (List.getElem?_eq_some_iff.mp (h.getElem?_cursor ht ho hand)).1
    simp only [Reader.cursor, List.length_append, List.length_singleton] at hlt ⊢
    omega
  resting hn := by cases hn
  task t₁ ht₁ := by
    obtain rfl := Option.some.inj ht₁
    have hoff := h.offset_eq ht ho hand
    obtain ⟨hpre, hpos⟩ := (h.task t ht).underWay ho
    have hcursor : ({ r with task := some (t.settle m rest), settled := r.settled ++ [m.offset] } :
        Reader V H).cursor = r.cursor + 1 := by
      simp [Reader.cursor, add_assoc]
    rw [hcursor]
    refine ⟨fun o hc => ?_, fun _ => ⟨?_, ?_⟩, fun he => ?_⟩
    · rw [← hoff]
      exact (Option.some.inj hc).symm
    · exact prefix_drop_succ (hand ▸ hpre)
    · rw [hpos, hand]
      simp [PartitionTask.inHand, PartitionTask.settle]
      omega
    · cases ho.symm.trans he

end Open

end Reader.Sound

end Morphflow
