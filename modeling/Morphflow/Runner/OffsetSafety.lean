import Morphflow.Runner.Frontier

/-!
# Offset safety

The records below a committed offset were all handled: for each of them the run has a step with
which its handling returned, because the handler answered with success, because the value was
published to the retry topic or to the dead letters, or because the record is for another role. The
committed offsets never go back, and between two restarts the records are settled in order.

## Main definitions

* `Group.Returns`: with which steps a handling returns.
* `Group.Publishes`.

## Main results

* `Group.Effect.returns`: what is settled by a step returned with it.
* `offset_safety`: what is committed was handled, in order and without gaps.
-/

namespace Morphflow

variable {P V H : Type*}

/-- What a failed message is published as: its value, to the dead letters when the retry count is
spent, and to the retry topic otherwise. -/
def Publication.Republishes (s : RunnerSettings) (m : Message V) (pub : Publication V) : Prop :=
  pub.value = m.value ∧
    pub.topic = if s.retryMaxCount ≤ m.retryCount then s.kafkaDlqTopic else s.retryTopic

theorem Publication.Republishes.of_afterHandler {s : RunnerSettings} {m : Message V}
    {success : Bool} {error : Option String} {now : ℤ} {pub : Publication V}
    (h : m.afterHandler s success error now = some pub) : pub.Republishes s m := by
  unfold Message.afterHandler Message.spent at h
  split_ifs at h with hs hspent <;> obtain rfl := Option.some.inj h
  · exact ⟨rfl, (if_pos (of_decide_eq_true hspent)).symm⟩
  · exact ⟨rfl, (if_neg fun hle => hspent (decide_eq_true hle)).symm⟩

namespace Group

/-- The handling of the message returns with the step. -/
inductive Returns (cfg : GroupConfig P V H) (g : Group P V H) (p : P) (m : Message V) :
    GroupAct P V H → Prop
  /-- The handler answered with success. -/
  | success {handler : H} {error : Option String} {now : ℤ}
      (hx : g.handling? p = some (m, .calling handler)) :
      Returns cfg g p m (.answer p true error now)
  /-- The call of `publish` returned. -/
  | published {pub : Publication V} (hx : g.handling? p = some (m, .publishing pub))
      (hpub : pub.Republishes cfg.settings m) : Returns cfg g p m (.publish p)
  /-- The message is next; it is due, on the retry topic, and from the topic of another role. -/
  | skipped {t : PartitionTask V H} {now : ℤ} {original : String}
      (ht : g.openTask? p = some t) (hh : t.handling = none) (hm : t.remaining.head? = some m)
      (hdue : retryDueAt m.decoded ≤ now) (htopic : m.topic = cfg.settings.retryTopic)
      (horiginal : m.decoded originalTopicHeader = some original)
      (hne : original ≠ cfg.settings.consumeTopic) : Returns cfg g p m (.visit p now)

/-- Every publication in hand is that of its message. -/
def Publishes (cfg : GroupConfig P V H) (g : Group P V H) : Prop :=
  ∀ p m pub, g.handling? p = some (m, .publishing pub) → pub.Republishes cfg.settings m

variable {cfg : GroupConfig P V H} {g g' : Group P V H} {p : P} {m : Message V} {o : ℕ}

variable [DecidableEq P]

/-- What returned after a message was settled is the message, or returned before. -/
theorem mem_returned_of_settle {q : P} {t : PartitionTask V H} {rest : List (Message V)}
    (ho : o ∈ (g.settle q t m rest).returned p) :
    o ∈ g.returned p ∨ (p = q ∧ o = m.offset) := by
  by_cases hp : p = q
  · subst hp
    simp only [settle, Function.update_self, List.mem_append, List.mem_singleton] at ho
    exact ho.imp_right fun heq => ⟨rfl, heq⟩
  · simp only [settle, Function.update_of_ne hp] at ho
    exact .inl ho

variable [Fintype P]

theorem Publishes.of_effect (h : g.Publishes cfg) (hs : g.Sound cfg) {a : GroupAct P V H}
    (heff : Effect cfg g a g') : g'.Publishes cfg := by
  intro q m pub hx
  by_cases hloops : a.loops = true
  · rcases heff.frontier_cases hs hloops q with ⟨-, hsame⟩ | ⟨-, hnone⟩ |
      ⟨-, -, now, i, m', -, -, -, hnew⟩ | ⟨-, hnone, -⟩
    · exact h q m pub (hsame ▸ hx)
    · cases hnone.symm.trans hx
    · cases (Prod.mk.inj (Option.some.inj (hnew.symm.trans hx))).2
    · cases hnone.symm.trans hx
  cases heff with
  | appended => exact h q m pub hx
  | progressed ht =>
    rcases handling?_of_goOn ht hx with ⟨-, -, hnew⟩ | hold
    · cases hnew
    · exact h q m pub hold
  | acknowledged => exact h q m pub (handling?_of_settle hx)
  | answered ht _ hpub =>
    rcases handling?_of_goOn ht hx with ⟨-, rfl, hnew⟩ | hold
    · obtain rfl := Handling.publishing.inj hnew
      exact .of_afterHandler hpub
    · exact h q m pub hold
  | published => exact h q m pub (handling?_of_settle hx)
  | failed => exact h q m pub (handling?_of_seek hx)
  | crashed _ ha => rcases ha with rfl | ⟨now, counts, rfl⟩ <;> exact absurd rfl hloops
  | _ => exact absurd rfl hloops

/-- What is settled by a step returned with it. -/
theorem Effect.returns (hs : g.Sound cfg) (hpub : g.Publishes cfg) {a : GroupAct P V H}
    (heff : Effect cfg g a g') (hno : o ∉ g.returned p) (ho : o ∈ g'.returned p) :
    ∃ m, (g.messages cfg p)[o]? = some m ∧ g.Returns cfg p m a := by
  -- a message that is settled is the one of its offset
  have hsettled : ∀ {q t m rest rest'}, g.openTask? q = some t → t.inHand = m :: rest' →
      o ∈ (g.settle q t m rest).returned p → p = q ∧ (g.messages cfg p)[o]? = some m := by
    intro q t m rest rest' ht hand ho
    obtain ⟨rfl, rfl⟩ := (mem_returned_of_settle ho).resolve_left hno
    have hat := hs.getElem?_frontier ht hand
    exact ⟨rfl, by rwa [offset_of_getElem? hat]⟩
  cases heff with
  | @skipped q now t m rest ht hh hr hskip hdue =>
    obtain ⟨rfl, hm⟩ := hsettled ht ((PartitionTask.inHand_of_none hh).trans hr) ho
    refine ⟨_, hm, ?_⟩
    unfold Message.skipped at hskip
    obtain ⟨htopic, hother⟩ := Bool.and_eq_true_iff.mp hskip
    replace htopic := eq_of_beq htopic
    cases hd : m.decoded originalTopicHeader with
    | none =>
      rw [hd, Option.getD_none] at hother
      exact absurd hother (by simp)
    | some original =>
      refine .skipped ht hh (by rw [hr]; rfl) ?_ htopic hd (by simpa [hd] using hother)
      exact not_lt.mp fun hlt => hdue ⟨htopic, hlt⟩
  | @acknowledged q success error now t m handler ht hh hnone =>
    obtain ⟨rfl, hm⟩ := hsettled ht (PartitionTask.inHand_of_some hh) ho
    cases success with
    | true => exact ⟨_, hm, .success ((handling?_of_openTask? ht).trans hh)⟩
    | false =>
      simp only [Message.afterHandler, Bool.false_eq_true, if_false] at hnone
      split_ifs at hnone
  | published ht hh =>
    obtain ⟨rfl, hm⟩ := hsettled ht (PartitionTask.inHand_of_some hh) ho
    have hx := (handling?_of_openTask? ht).trans hh
    exact ⟨_, hm, .published hx (hpub _ _ _ hx)⟩
  | _ => exact absurd ho hno

/-- Publications are those of their messages in every reachable group. -/
theorem Publishes.of_reachable (h : (consumerGroup cfg).Reachable g) : g.Publishes cfg := by
  refine h.rec_on_step (P := fun g => g.Publishes cfg) (fun g h₀ => ?_)
    fun g a g' hr hpub hstep => hpub.of_effect (.of_reachable hr) (effect_of_step hstep)
  obtain ⟨log, rfl⟩ := h₀
  intro p m pub hx
  cases hx

/-- A message of a partition stays at its offset. -/
theorem Effect.messages_kept {a : GroupAct P V H} (heff : Effect cfg g a g')
    (hm : (g.messages cfg p)[o]? = some m) : (g'.messages cfg p)[o]? = some m := by
  cases heff with
  | @appended q record =>
    by_cases hp : p = q
    · subst hp
      simp only [messages, append, Function.update_self, messagesOf_append]
      exact (List.getElem?_append_left (List.getElem?_eq_some_iff.mp hm).1).trans hm
    · simpa only [messages, append, Function.update_of_ne hp] using hm
  | _ => exact hm

end Group

/-- **Offset safety of the consumer loop.** In every run: every record below a committed offset, or
settled since its partition was assigned, was handled, and its handling returned with a step of the
run; no further run moves a committed offset back; the records of a partition that were settled
since it was assigned are those from the offset where it started, in order, each once; and at the
start of every iteration of its worker its position is the first record not settled since. -/
theorem offset_safety [DecidableEq P] [Fintype P] {cfg : GroupConfig P V H} {g₀ g : Group P V H}
    {as : List (GroupAct P V H)} (h₀ : (consumerGroup cfg).init g₀)
    (hrun : (consumerGroup cfg).run g₀ as = some g) (p : P) :
    (∀ o, o < g.committed p ∨ o ∈ (g.readers p).settled → ∃ before a after g₁ m,
      as = before ++ a :: after ∧ (consumerGroup cfg).run g₀ before = some g₁ ∧
        (g.messages cfg p)[o]? = some m ∧ g₁.Returns cfg p m a) ∧
    (∀ as' g', (consumerGroup cfg).run g as' = some g' → g.committed p ≤ g'.committed p) ∧
    (∀ i, (g.readers p).worker = some i →
      (g.readers p).settled = List.range' (g.readers p).start (g.readers p).settled.length ∧
      (g.phase? i = some .polling →
        (g.readers p).position = (g.readers p).start + (g.readers p).settled.length)) := by
  have h : (consumerGroup cfg).Reachable g := .of_run h₀ hrun
  have hs := Group.Sound.of_reachable h
  refine ⟨fun o ho => ?_, fun as' g' hrun' => ?_,
    fun i hp => ⟨(hs.reader p i hp).settled, fun hi => ?_⟩⟩
  · -- the offset is settled by some step of the run
    have hreturned : o ∈ g.returned p := ho.elim (hs.returned p o) (hs.settled p o)
    have hnone : o ∉ g₀.returned p := by
      obtain ⟨log, rfl⟩ := h₀
      exact List.not_mem_nil
    obtain ⟨before, a, after, g₁, g₂, rfl, hbefore, hstep, hafter, hno, hyes⟩ :=
      TransitionSystem.run_becomes (Q := fun g => o ∈ g.returned p) hrun hnone hreturned
    have h₁ : (consumerGroup cfg).Reachable g₁ := .of_run h₀ hbefore
    have heff := Group.effect_of_step hstep
    obtain ⟨m, hm, hreturns⟩ := heff.returns (.of_reachable h₁) (.of_reachable h₁) hno hyes
    refine ⟨before, a, after, g₁, m, rfl, hbefore, ?_, hreturns⟩
    exact TransitionSystem.run_preserves (P := fun g => (g.messages cfg p)[o]? = some m)
      (fun _ _ _ hm hstep => (Group.effect_of_step hstep).messages_kept hm) hafter
      (heff.messages_kept hm)
  · exact TransitionSystem.run_relates
      (R := fun g g' : Group P V H => g.committed p ≤ g'.committed p)
      (fun _ => le_rfl) (fun _ _ _ => le_trans) (fun g a g' hg hstep =>
        (Group.effect_of_step hstep).committed_le (Group.Sound.of_reachable hg) p) h hrun'
  · refine (hs.reader p i hp).resting ?_
    by_contra hne
    obtain ⟨phase, hphase, hc⟩ := hs.alive p i hp
    rw [hc hne] at hphase
    cases hi.symm.trans hphase

/-! ### A batch with two failures -/

/-- One partition of the request topic, and a handler without a state. -/
def exampleGroup : GroupConfig Unit ℕ Unit :=
  ⟨exampleSettings 3, fun _ => "request-topic", fun _ _ => ()⟩

/-- The log of the concrete run; the retry count of the third record is spent. -/
def exampleLogs : Group Unit ℕ Unit :=
  { Group.initial with
    log := fun _ => [⟨7, []⟩, ⟨8, []⟩, ⟨9, [("retry-count", some "3")]⟩, ⟨10, []⟩] }

/-- A batch of four: the first is handled with success, the second and the third fail and are
published, and the handler of the fourth raises; the worker commits the first three. -/
def exampleFailure : List (GroupAct Unit ℕ Unit) :=
  [.spawn 0, .assign 0 (), .poll 0 0 fun _ => 4, .visit () 0, .answer () true none 0, .visit () 0,
    .answer () false none 0, .publish (), .visit () 0, .answer () false none 0, .publish (),
    .visit () 0, .raise (), .gather 0, .commit 0]

/-- The group after the failures. -/
def exampleFailed : Group Unit ℕ Unit :=
  ((consumerGroup exampleGroup).run exampleLogs exampleFailure).get (by decide)

/-- The topic of the publication in hand. -/
def Group.publishing? (g : Group P V H) (p : P) : Option String :=
  (g.handling? p).bind fun x => match x.2 with
    | .publishing pub => some pub.topic
    | .calling _ => none

/-- The value of the second record goes to the retry topic and that of the third to the dead
letters; the offset of the fourth is committed, and it is polled next. -/
theorem offset_safety_failure : exampleFailed.committed () = 3 ∧
    (exampleFailed.readers ()).position = 3 ∧
    ((consumerGroup exampleGroup).run exampleLogs (exampleFailure.take 7)).bind
      (·.publishing? ()) = some "retry-topic" ∧
    ((consumerGroup exampleGroup).run exampleLogs (exampleFailure.take 10)).bind
      (·.publishing? ()) = some "dlq-topic" ∧
    ∀ o < 3, ∃ before a after g₁ m, exampleFailure = before ++ a :: after ∧
      (consumerGroup exampleGroup).run exampleLogs before = some g₁ ∧
      (exampleFailed.messages exampleGroup ())[o]? = some m ∧
      g₁.Returns exampleGroup () m a := by
  have hrun : (consumerGroup exampleGroup).run exampleLogs exampleFailure = some exampleFailed :=
    (Option.some_get _).symm
  have hsafe := offset_safety ⟨_, rfl⟩ hrun ()
  have hpos := (hsafe.2.2 0 (by decide)).2 (by rfl)
  exact ⟨by decide, hpos.trans (by decide), by decide, by decide,
    fun o ho => hsafe.1 o (.inl ho)⟩

end Morphflow
