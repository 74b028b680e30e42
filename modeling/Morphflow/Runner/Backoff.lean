import Morphflow.Runner.Offsets

/-!
# The back-off of a partition

A retry message whose time has not come is put off: the partition is set back to it, the consumer
pauses the partition, and `paused_until` keeps the time. The next iteration after that time resumes
the partition and drops the entry. The pause is kept twice, and the two agree as long as no
partition is taken from a worker.

A run has one clock; the readings of `_now_ms` do not go back.

## Main definitions

* `ClockedGroup`, `pollLoop`.
* `Group.resumeAt?`, `Group.Waits`, `Group.BackedOff`.

## Main results

* `Group.visit_cases`: everything a visit can do, with the condition of the deferral.
* `Group.BackedOff.of_step`: every step keeps the two pauses in agreement.
* `backoff_honoured`: no handler is called early, and only the partition itself waits.
-/

namespace Morphflow

variable {P V H : Type*}

/-- The clock reading of a step. -/
def GroupAct.reading? : GroupAct P V H → Option ℤ
  | .poll _ now _ => some now
  | .visit _ now => some now
  | .answer _ _ _ now => some now
  | _ => none

/-- The step takes no partition from a worker. -/
def GroupAct.keepsPartitions : GroupAct P V H → Bool
  | .revoke _ => false
  | _ => true

/-- The group with the last clock reading. -/
structure ClockedGroup (P V H : Type*) where
  group : Group P V H
  clock : ℤ

section Clocked

variable [DecidableEq P] [Fintype P]

/-- A step whose clock reading does not go back. -/
def ClockedGroup.step (cfg : GroupConfig P V H) (s : ClockedGroup P V H) (a : GroupAct P V H) :
    Option (ClockedGroup P V H) :=
  let clock := a.reading?.getD s.clock
  if s.clock ≤ clock then (s.group.step cfg a).map fun group => ⟨group, clock⟩ else none

/-- The consumer group under a clock. -/
def pollLoop (cfg : GroupConfig P V H) :
    TransitionSystem (ClockedGroup P V H) (GroupAct P V H) where
  init s := (consumerGroup cfg).init s.group
  step := ClockedGroup.step cfg

variable {cfg : GroupConfig P V H} {s s' : ClockedGroup P V H} {a : GroupAct P V H}

theorem ClockedGroup.step_eq_some_iff : s.step cfg a = some s' ↔
    s.clock ≤ s'.clock ∧ s'.clock = a.reading?.getD s.clock ∧
      s.group.step cfg a = some s'.group := by
  obtain ⟨g', clock'⟩ := s'
  simp only [step, Option.ite_none_right_eq_some, Option.map_eq_some_iff, ClockedGroup.mk.injEq]
  constructor
  · rintro ⟨hle, g, hg, rfl, rfl⟩
    exact ⟨hle, rfl, hg⟩
  · rintro ⟨hle, rfl, hg⟩
    exact ⟨hle, g', hg, rfl, rfl⟩

end Clocked

namespace Group

/-- The entry of a partition in `paused_until` of a worker. -/
def resumeAt? (g : Group P V H) (i : ℕ) (p : P) : Option ℤ :=
  (g.workers i).bind fun w => w.pausedUntil p

/-- The partition stands at a retry message that is not to be handled before `dueAt`. -/
def Waits (cfg : GroupConfig P V H) (g : Group P V H) (p : P) (dueAt : ℤ) : Prop :=
  ∃ m, (g.messages cfg p)[(g.readers p).position]? = some m ∧
    m.topic = cfg.settings.retryTopic ∧ retryDueAt m.decoded = dueAt

/-- The handler may be called on the message. -/
def MayCall (cfg : GroupConfig P V H) (clock : ℤ) (m : Message V) : Prop :=
  m.topic = cfg.settings.retryTopic → retryDueAt m.decoded ≤ clock

/-- The pauses of the consumer and the entries of `paused_until` agree, an entry is the time of the
message the partition stands at, and handlers were called in time. -/
structure BackedOff (cfg : GroupConfig P V H) (g : Group P V H) (clock : ℤ) : Prop where
  entry : ∀ i p dueAt, g.resumeAt? i p = some dueAt →
    (g.readers p).worker = some i ∧ (g.readers p).paused = true ∧ g.Waits cfg p dueAt
  paused : ∀ i p, (g.readers p).worker = some i → (g.readers p).paused = true →
    ∃ dueAt, g.resumeAt? i p = some dueAt
  running : ∀ p t, g.openTask? p = some t → (g.readers p).paused = false
  called : ∀ p t m x, g.openTask? p = some t → t.handling = some (m, .calling x) →
    MayCall cfg clock m

variable {cfg : GroupConfig P V H} {g g' : Group P V H} {clock clock' : ℤ} {p : P} {i : ℕ}
  {w : LoopWorker P} {t : PartitionTask V H} {m : Message V} {rest : List (Message V)}

theorem resumeAt?_eq_of_worker (hi : g.workers i = some w) (p : P) :
    g.resumeAt? i p = w.pausedUntil p := by
  rw [resumeAt?, hi]
  rfl

theorem resumeAt?_of_workers (h : g'.workers = g.workers) (i : ℕ) (p : P) :
    g'.resumeAt? i p = g.resumeAt? i p := by
  rw [resumeAt?, h]
  rfl

theorem resumeAt?_of_set (h : g'.workers = g.workers.set i w) (j : ℕ) (p : P) :
    g'.resumeAt? j p = if j = i then w.pausedUntil p else g.resumeAt? j p := by
  simp only [resumeAt?, h, KeyedTable.set]
  split_ifs <;> rfl

theorem resumeAt?_of_rephased (hi : g.workers i = some w) {phase : LoopPhase P}
    (h : g'.workers = g.workers.set i { w with phase := phase }) (j : ℕ) (p : P) :
    g'.resumeAt? j p = g.resumeAt? j p := by
  rw [resumeAt?_of_set h]
  split_ifs with hj
  · rw [hj, resumeAt?_eq_of_worker hi]
  · rfl

theorem resumeAt?_of_erase (h : g'.workers = g.workers.erase i) (j : ℕ) (p : P) :
    g'.resumeAt? j p = if j = i then none else g.resumeAt? j p := by
  simp only [resumeAt?, h, KeyedTable.erase]
  split_ifs <;> rfl

theorem MayCall.mono (h : MayCall cfg clock m) (hle : clock ≤ clock') : MayCall cfg clock' m :=
  fun htopic => (h htopic).trans hle

/-- Everything a visit can do. -/
theorem visit_cases [DecidableEq P] [Fintype P] {now : ℤ}
    (h : g.step cfg (.visit p now) = some g') :
    ∃ t i w, g.openTask? p = some t ∧ (g.readers p).worker = some i ∧ g.workers i = some w ∧
      t.handling = none ∧
      ((t.remaining = [] ∧ g' = g.setTask p { t with ended := true }) ∨
      ∃ m rest, t.remaining = m :: rest ∧
        ((m.topic = cfg.settings.retryTopic ∧ now < retryDueAt m.decoded ∧
            g' = g.defer p i w t m (retryDueAt m.decoded)) ∨
          (MayCall cfg now m ∧ (g' = g.settle p t m rest ∨ g' = g.setTask p { t with
            remaining := rest, handling := some (m, .calling (cfg.role i m.value)) })))) := by
  simp only [step, Option.bind_eq_some_iff] at h
  obtain ⟨t, ht, i, hp, w, hi, h⟩ := h
  cases hh : t.handling with
  | some x => simp [hh] at h
  | none =>
    simp only [hh, Option.some.injEq] at h
    refine ⟨t, i, w, ht, hp, hi, hh, ?_⟩
    cases hr : t.remaining with
    | nil =>
      simp only [visit, hr] at h
      exact .inl ⟨rfl, h.symm⟩
    | cons m rest =>
      refine .inr ⟨m, rest, rfl, ?_⟩
      simp only [visit, hr] at h
      split_ifs at h with hdue hskip
      · exact .inl ⟨hdue.1, hdue.2, h.symm⟩
      · exact .inr ⟨fun htopic => by simpa [htopic] using hdue, .inl h.symm⟩
      · exact .inr ⟨fun htopic => by simpa [htopic] using hdue, .inr h.symm⟩

namespace BackedOff

/-- Partitions that wait are left alone, and tasks go on with messages that may be handled. -/
theorem keep (h : g.BackedOff cfg clock) (hle : clock ≤ clock')
    (hentry : ∀ i q, g'.resumeAt? i q = g.resumeAt? i q)
    (hworker : ∀ q, (g'.readers q).worker = (g.readers q).worker)
    (hpaused : ∀ q, (g'.readers q).paused = (g.readers q).paused)
    (hposition : ∀ q, (g.readers q).paused = true →
      (g'.readers q).position = (g.readers q).position)
    (hmessages : ∀ q (k : ℕ) (m : Message V), (g.messages cfg q)[k]? = some m →
      (g'.messages cfg q)[k]? = some m)
    (hopen : ∀ q t', g'.openTask? q = some t' → ∃ t, g.openTask? q = some t ∧
      ∀ m x, t'.handling = some (m, .calling x) →
        (∃ x', t.handling = some (m, .calling x')) ∨ MayCall cfg clock' m) :
    g'.BackedOff cfg clock' := by
  constructor
  · intro i q dueAt he
    rw [hentry] at he
    obtain ⟨hi, hp, m, hm, htopic, hdue⟩ := h.entry i q dueAt he
    refine ⟨(hworker q).trans hi, (hpaused q).trans hp, m, ?_, htopic, hdue⟩
    rw [hposition q hp]
    exact hmessages q _ m hm
  · intro i q hi hp
    obtain ⟨dueAt, he⟩ := h.paused i q ((hworker q).symm.trans hi) ((hpaused q).symm.trans hp)
    exact ⟨dueAt, (hentry i q).trans he⟩
  · intro q t' ht'
    obtain ⟨t, ht, -⟩ := hopen q t' ht'
    exact (hpaused q).trans (h.running q t ht)
  · intro q t' m x ht' hcall
    obtain ⟨t, ht, hgo⟩ := hopen q t' ht'
    rcases hgo m x hcall with ⟨x', hx'⟩ | hm
    · exact (h.called q t m x' ht hx').mono hle
    · exact hm

/-- A group that differs in the committed offsets only, and in where the loops stand. -/
theorem congr (h : g.BackedOff cfg clock) (hle : clock ≤ clock') (hreaders : g'.readers = g.readers)
    (hlog : g'.log = g.log) (hentry : ∀ i q, g'.resumeAt? i q = g.resumeAt? i q) :
    g'.BackedOff cfg clock' := by
  have hopen : ∀ q, g'.openTask? q = g.openTask? q := fun q => by
    rw [openTask?, openTask?, hreaders]
  have hmessages : ∀ q, g'.messages cfg q = g.messages cfg q := fun q => by
    rw [messages, messages, hlog]
  refine h.keep hle hentry (fun q => by rw [hreaders]) (fun q => by rw [hreaders])
    (fun q _ => by rw [hreaders]) (fun q k m hm => by rwa [hmessages]) fun q t ht => ?_
  exact ⟨t, (hopen q).symm.trans ht, fun m x hx => .inl ⟨x, hx⟩⟩

/-- A reader whose loop is not under way may change, with the entries of its partition. -/
theorem changeReader (h : g.BackedOff cfg clock) (hle : clock ≤ clock') (hlog : g'.log = g.log)
    (hother : ∀ q, q ≠ p → g'.readers q = g.readers q)
    (hentries : ∀ i q, q ≠ p → g'.resumeAt? i q = g.resumeAt? i q)
    (hentry : ∀ i dueAt, g'.resumeAt? i p = some dueAt → (g'.readers p).worker = some i ∧
      (g'.readers p).paused = true ∧ g'.Waits cfg p dueAt)
    (hpaused : ∀ i, (g'.readers p).worker = some i → (g'.readers p).paused = true →
      ∃ dueAt, g'.resumeAt? i p = some dueAt)
    (hclosed : g'.openTask? p = none) : g'.BackedOff cfg clock' := by
  have hne : ∀ {q t}, g'.openTask? q = some t → q ≠ p := by
    rintro q t ht rfl
    cases hclosed.symm.trans ht
  constructor
  · intro i q dueAt he
    by_cases hq : q = p
    · subst hq
      exact hentry i dueAt he
    · rw [hentries i q hq] at he
      rw [Waits, messages, hlog, hother q hq]
      exact h.entry i q dueAt he
  · intro i q hi hpause
    by_cases hq : q = p
    · subst hq
      exact hpaused i hi hpause
    · rw [hother q hq] at hi hpause
      rw [hentries i q hq]
      exact h.paused i q hi hpause
  · intro q t ht
    have hq := hne ht
    rw [openTask?, hother q hq] at ht
    rw [hother q hq]
    exact h.running q t ht
  · intro q t m x ht hx
    rw [openTask?, hother q (hne ht)] at ht
    exact (h.called q t m x ht hx).mono hle

section Task

variable (h : g.BackedOff cfg clock) (hle : clock ≤ clock') (ht : g.openTask? p = some t)
include h hle ht

theorem ofTask (hother : ∀ q, q ≠ p → g'.readers q = g.readers q)
    (hworkers : g'.workers = g.workers) (hlog : g'.log = g.log)
    (hworker : (g'.readers p).worker = (g.readers p).worker)
    (hpaused : (g'.readers p).paused = (g.readers p).paused)
    (hcall : ∀ t' m x, g'.openTask? p = some t' → t'.handling = some (m, .calling x) →
      (∃ x', t.handling = some (m, .calling x')) ∨ MayCall cfg clock' m) :
    g'.BackedOff cfg clock' := by
  have hrunning := h.running p t ht
  have hmessages : ∀ q, g'.messages cfg q = g.messages cfg q := fun q => by
    rw [messages, messages, hlog]
  refine h.keep hle (resumeAt?_of_workers hworkers) (fun q => ?_) (fun q => ?_) (fun q hq => ?_)
    (fun q k m hm => by rwa [hmessages]) fun q t' ht' => ?_
  · by_cases hqp : q = p
    · rw [hqp, hworker]
    · rw [hother q hqp]
  · by_cases hqp : q = p
    · rw [hqp, hpaused]
    · rw [hother q hqp]
  · have hqp : q ≠ p := by
      rintro rfl
      cases hrunning.symm.trans hq
    rw [hother q hqp]
  · by_cases hqp : q = p
    · subst hqp
      exact ⟨t, ht, fun m x hx => hcall t' m x ht' hx⟩
    · refine ⟨t', ?_, fun m x hx => .inl ⟨x, hx⟩⟩
      rw [openTask?, hother q hqp] at ht'
      exact ht'

variable [DecidableEq P]

/-- The message in hand is settled. -/
theorem settle (m : Message V) (rest : List (Message V)) :
    (g.settle p t m rest).BackedOff cfg clock' := by
  refine h.ofTask hle ht (fun q hq => ?_) rfl rfl ?_ ?_ fun t' m' x ht' hx => ?_
  · exact readers_settle_of_ne hq ..
  · rw [readers_settle_self]
  · rw [readers_settle_self]
  · rw [openTask?_eq_some_iff, readers_settle_self, Option.some.injEq] at ht'
    obtain ⟨rfl, -⟩ := ht'
    cases hx

/-- The task goes on with a message that is handled already or may be handled. -/
theorem setTask {t' : PartitionTask V H}
    (hcall : ∀ m x, t'.handling = some (m, .calling x) →
      (∃ x', t.handling = some (m, .calling x')) ∨ MayCall cfg clock' m) :
    (g.setTask p t').BackedOff cfg clock' := by
  refine h.ofTask hle ht (fun q hq => ?_) rfl rfl ?_ ?_ fun t₁ m' x ht₁ hx => ?_
  · exact readers_setTask_of_ne hq _
  · rw [readers_setTask_self]
  · rw [readers_setTask_self]
  · rw [openTask?_eq_some_iff, readers_setTask_self, Option.some.injEq] at ht₁
    obtain ⟨rfl, -⟩ := ht₁
    exact hcall m' x hx

theorem seek (m : Message V) :
    (g.setReader p ((g.readers p).seek t m)).BackedOff cfg clock' := by
  refine h.ofTask hle ht (fun q hq => ?_) rfl rfl ?_ ?_ fun t' m' x ht' hx => ?_
  · exact readers_setReader_of_ne hq _
  · rw [readers_setReader_self, Reader.seek]
  · rw [readers_setReader_self, Reader.seek]
  · rw [openTask?_eq_some_iff, readers_setReader_self, Reader.seek, Option.some.injEq] at ht'
    obtain ⟨rfl, hended⟩ := ht'
    cases hended

theorem defer (hs : g.Sound cfg) (hp : (g.readers p).worker = some i) (hi : g.workers i = some w)
    (hand : t.inHand = m :: rest) (htopic : m.topic = cfg.settings.retryTopic) :
    (g.defer p i w t m (retryDueAt m.decoded)).BackedOff cfg clock' := by
  obtain ⟨htask, ho⟩ := openTask?_eq_some_iff.mp ht
  have hsound := hs.reader p i hp
  have hat : (g.messages cfg p)[m.offset]? = some m := by
    rw [hsound.offset_eq htask ho hand]
    exact hsound.getElem?_cursor htask ho hand
  have hself := readers_defer_self (g := g) (p := p) i w t m (retryDueAt m.decoded)
  have hentry : ∀ j q, (g.defer p i w t m (retryDueAt m.decoded)).resumeAt? j q =
      if j = i ∧ q = p then some (retryDueAt m.decoded) else g.resumeAt? j q := by
    intro j q
    rw [resumeAt?_of_set (g := g) (i := i) rfl]
    by_cases hj : j = i
    · subst hj
      rw [resumeAt?_eq_of_worker hi]
      by_cases hq : q = p <;> simp [KeyedTable.set, hq]
    · rw [if_neg hj, if_neg fun hjq => hj hjq.1]
  refine h.changeReader (p := p) hle rfl (fun q hq => readers_defer_of_ne hq ..)
    (fun j q hq => ?_) (fun j dueAt he => ?_) (fun j hj _ => ?_) ?_
  · rw [hentry, if_neg fun hjq => hq hjq.2]
  · rw [hentry] at he
    have hji : j = i := by
      by_contra hji
      rw [if_neg fun hjq => hji hjq.1] at he
      -- only the worker of the partition has an entry for it
      exact hji (Option.some.inj ((h.entry j p dueAt he).1.symm.trans hp))
    rw [if_pos ⟨hji, rfl⟩] at he
    obtain rfl := Option.some.inj he
    rw [Waits, hself, hji]
    exact ⟨hp, rfl, m, hat, htopic, rfl⟩
  · rw [hself] at hj
    have hji : j = i := Option.some.inj (hj.symm.trans hp)
    exact ⟨_, (hentry j p).trans (if_pos ⟨hji, rfl⟩)⟩
  · rw [openTask?, hself]
    rfl

end Task

theorem append [DecidableEq P] (h : g.BackedOff cfg clock) (p : P) (record : LogRecord V) :
    (g.append p record).BackedOff cfg clock := by
  refine h.keep le_rfl (fun _ _ => rfl) (fun _ => rfl) (fun _ => rfl) (fun _ _ => rfl)
    (fun q k m hm => ?_) fun q t ht => ⟨t, ht, fun m x hx => .inl ⟨x, hx⟩⟩
  by_cases hqp : q = p
  · subst hqp
    simp only [messages, Group.append, Function.update_self, messagesOf_append] at hm ⊢
    rw [List.getElem?_append_left (List.getElem?_eq_some_iff.mp hm).1, hm]
  · simpa only [messages, Group.append, Function.update_of_ne hqp] using hm

theorem spawn (h : g.BackedOff cfg clock) (hi : g.workers i = none) :
    ({ g with workers := g.workers.set i {} } : Group P V H).BackedOff cfg clock := by
  refine h.congr le_rfl rfl rfl fun j q => ?_
  rw [resumeAt?_of_set (g := g) (i := i) rfl]
  split_ifs with hj
  · rw [hj, resumeAt?, hi]
    rfl
  · rfl

theorem assign [DecidableEq P] (h : g.BackedOff cfg clock) (hp : (g.readers p).worker = none) :
    (g.setReader p (.assigned i (g.committed p))).BackedOff cfg clock := by
  have hself : (g.setReader p (.assigned i (g.committed p))).readers p =
      .assigned i (g.committed p) := readers_setReader_self _
  refine h.changeReader (p := p) le_rfl rfl (fun q hq => readers_setReader_of_ne hq _)
    (fun _ _ _ => rfl) (fun j dueAt he => ?_) (fun j _ hpause => ?_) ?_
  · cases hp.symm.trans (h.entry j p dueAt he).1
  · rw [hself] at hpause
    cases hpause
  · rw [openTask?, hself]
    rfl

theorem crash (h : g.BackedOff cfg clock) (hle : clock ≤ clock') (i : ℕ) :
    (g.crash i).BackedOff cfg clock' := by
  have hreaders : ∀ q, (g.crash i).readers q = if g.reads i q then {} else g.readers q :=
    fun _ => rfl
  have hentry : ∀ j q, (g.crash i).resumeAt? j q = if j = i then none else g.resumeAt? j q :=
    fun j q => resumeAt?_of_erase rfl j q
  constructor
  · intro j q dueAt he
    rw [hentry] at he
    split_ifs at he with hj
    obtain ⟨hq, hpause, hwaits⟩ := h.entry j q dueAt he
    have hnot : g.reads i q = false :=
      reads_eq_false_iff.mpr (by rw [hq]; exact fun heq => hj (Option.some.inj heq))
    rw [Waits, hreaders, hnot]
    exact ⟨hq, hpause, hwaits⟩
  · intro j q hj hpause
    rw [hreaders] at hj hpause
    by_cases hq : g.reads i q = true
    · rw [if_pos hq] at hj
      cases hj
    · rw [if_neg hq] at hj hpause
      have hne : j ≠ i := by
        rintro rfl
        exact hq (reads_eq_true_iff.mpr hj)
      rw [hentry, if_neg hne]
      exact h.paused j q hj hpause
  · intro q t ht
    rw [openTask?, hreaders] at ht
    rw [hreaders]
    split_ifs at ht ⊢
    · rfl
    · exact h.running q t ht
  · intro q t m x ht hx
    rw [openTask?, hreaders] at ht
    split_ifs at ht
    · cases ht
    · exact (h.called q t m x ht hx).mono hle

section Iteration

variable [Fintype P]

/-- The partitions whose time has come are resumed, and the others stay where they are. -/
theorem poll (h : g.BackedOff cfg clock) (hi : g.workers i = some w) {now : ℤ} (hle : clock ≤ now)
    (counts : P → ℕ) : (g.poll cfg i w now counts).BackedOff cfg now := by
  have hentry : ∀ j q, (g.poll cfg i w now counts).resumeAt? j q =
      if j = i then (if due w now q then none else g.resumeAt? i q) else g.resumeAt? j q := by
    intro j q
    rw [resumeAt?_of_set (g := g) (i := i) rfl, resumeAt?_eq_of_worker hi]
  constructor
  · intro j q dueAt he
    rw [hentry] at he
    by_cases hj : j = i
    · subst hj
      rw [if_pos rfl] at he
      split_ifs at he with hdue
      obtain ⟨hq, hpause, hwaits⟩ := h.entry j q dueAt he
      have hempty : g.batch cfg j w now counts q = [] := by
        simp [batch, hpause, hdue]
      rw [Waits, readers_poll_of_reads (reads_eq_true_iff.mpr hq), hempty]
      exact ⟨hq, by simp [hpause, hdue], hwaits⟩
    · rw [if_neg hj] at he
      obtain ⟨hq, hpause, hwaits⟩ := h.entry j q dueAt he
      have hnot : g.reads i q = false :=
        reads_eq_false_iff.mpr (by rw [hq]; exact fun heq => hj (Option.some.inj heq))
      rw [Waits, readers_poll_of_not_reads hnot]
      exact ⟨hq, hpause, hwaits⟩
  · intro j q hj hpause
    rw [hentry]
    cases hq : g.reads i q with
    | true =>
      rw [readers_poll_of_reads hq] at hj hpause
      have hji : j = i := Option.some.inj (hj.symm.trans (reads_eq_true_iff.mp hq))
      simp only [Bool.and_eq_true, Bool.not_eq_true'] at hpause
      subst hji
      rw [if_pos rfl, hpause.2]
      exact h.paused j q hj hpause.1
    | false =>
      rw [readers_poll_of_not_reads hq] at hj hpause
      have hji : j ≠ i := by
        rintro rfl
        rw [reads_eq_true_iff.mpr hj] at hq
        cases hq
      rw [if_neg hji]
      exact h.paused j q hj hpause
  · intro q t ht
    cases hq : g.reads i q with
    | true =>
      rw [openTask?_eq_some_iff, readers_poll_of_reads hq] at ht
      rw [readers_poll_of_reads hq]
      obtain ⟨hne, -⟩ := Option.ite_none_left_eq_some.mp ht.1
      -- a batch was returned, so the partition was not paused or its time has come
      by_contra hpause
      simp only [Bool.and_eq_false_iff, Bool.not_eq_false', not_or, Bool.not_eq_false,
        Bool.not_eq_true] at hpause
      exact hne (by simp [batch, hpause])
    | false =>
      rw [openTask?, readers_poll_of_not_reads hq] at ht
      rw [readers_poll_of_not_reads hq]
      exact h.running q t ht
  · intro q t m x ht hx
    cases hq : g.reads i q with
    | true =>
      rw [openTask?_eq_some_iff, readers_poll_of_reads hq] at ht
      obtain ⟨-, ht'⟩ := Option.ite_none_left_eq_some.mp ht.1
      obtain rfl := Option.some.inj ht'
      cases hx
    | false =>
      rw [openTask?, readers_poll_of_not_reads hq] at ht
      exact (h.called q t m x ht hx).mono hle

theorem gather (h : g.BackedOff cfg clock) (hi : g.workers i = some w) :
    (g.gather i w).BackedOff cfg clock := by
  have hreaders : ∀ q, (g.gather i w).readers q =
      if g.reads i q then { g.readers q with task := none } else g.readers q := fun _ => rfl
  refine h.keep le_rfl (fun j q => ?_) (fun q => ?_) (fun q => ?_) (fun q _ => ?_)
    (fun _ _ _ => id) fun q t ht => ?_
  · exact resumeAt?_of_rephased hi rfl j q
  · rw [hreaders]
    split_ifs <;> rfl
  · rw [hreaders]
    split_ifs <;> rfl
  · rw [hreaders]
    split_ifs <;> rfl
  · rw [openTask?, hreaders] at ht
    split_ifs at ht
    · cases ht
    · exact ⟨t, ht, fun m x hx => .inl ⟨x, hx⟩⟩

variable [DecidableEq P]

theorem visit (hs : g.Sound cfg) (h : g.BackedOff cfg clock) {now : ℤ} (hle : clock ≤ now)
    (hstep : g.step cfg (.visit p now) = some g') : g'.BackedOff cfg now := by
  obtain ⟨t, i, w, ht, hp, hi, hh, hvisit⟩ := visit_cases hstep
  have hand := PartitionTask.inHand_of_none hh
  rcases hvisit with ⟨-, rfl⟩ | ⟨m, rest, hr, ⟨htopic, -, rfl⟩ | ⟨hcall, rfl | rfl⟩⟩
  · exact h.setTask hle ht fun m x hx => .inl ⟨x, hx⟩
  · exact h.defer hle ht hs hp hi (hand.trans hr) htopic
  · exact h.settle hle ht m rest
  · refine h.setTask hle ht fun m' x hx => .inr ?_
    obtain rfl : m = m' := congrArg Prod.fst (Option.some.inj hx)
    exact hcall

/-- **Step lemma.** Every step that takes no partition from a worker keeps the pauses in
agreement. -/
theorem of_step (hs : g.Sound cfg) (h : g.BackedOff cfg clock) {a : GroupAct P V H}
    (ha : a.keepsPartitions = true) (hclock : clock' = a.reading?.getD clock)
    (hle : clock ≤ clock') (hstep : g.step cfg a = some g') : g'.BackedOff cfg clock' := by
  by_cases hvisit : ∃ p now, a = .visit p now
  · obtain ⟨p, now, rfl⟩ := hvisit
    obtain rfl : clock' = now := hclock
    exact visit hs h hle hstep
  cases effect_of_step hstep with
  | appended => exact hclock ▸ h.append _ _
  | spawned hi => exact hclock ▸ h.spawn hi
  | assigned hi hp => exact hclock ▸ h.assign hp
  | revoked => cases ha
  | crashed => exact h.crash hle _
  | polled hi hw =>
    obtain rfl := hclock
    exact h.poll hi hle _
  | loopEnded => exact absurd ⟨_, _, rfl⟩ hvisit
  | deferred => exact absurd ⟨_, _, rfl⟩ hvisit
  | skipped => exact absurd ⟨_, _, rfl⟩ hvisit
  | entered => exact absurd ⟨_, _, rfl⟩ hvisit
  | @progressed p handler handler' t m ht hh =>
    refine h.setTask hle ht fun m' x hx => .inl ⟨handler, ?_⟩
    obtain rfl : m = m' := congrArg Prod.fst (Option.some.inj hx)
    exact hh
  | acknowledged ht => exact h.settle hle ht _ _
  | answered ht => exact h.setTask hle ht fun m x hx => by cases hx
  | published ht => exact h.settle hle ht _ _
  | failed ht => exact h.seek hle ht _
  | gathered hi => exact hclock ▸ h.gather hi
  | committed hi =>
    exact h.congr hle rfl rfl fun j q => resumeAt?_of_rephased hi rfl j q
  | @commitFailed i applied w offsets hi hw =>
    have hoffsets : (g.commitOffsets offsets applied).BackedOff cfg clock :=
      h.congr le_rfl rfl rfl fun _ _ => rfl
    exact hoffsets.crash hle i

end Iteration

end BackedOff

end Group

section Loop

variable [DecidableEq P] [Fintype P] {cfg : GroupConfig P V H} {s : ClockedGroup P V H}

/-- The runs of the poll loop in which no partition is taken from a worker. -/
abbrev steadyLoop (cfg : GroupConfig P V H) :
    TransitionSystem (ClockedGroup P V H) (GroupAct P V H) :=
  (pollLoop cfg).restrict fun _ a => a.keepsPartitions = true

/-- **Run lemma.** -/
theorem Group.BackedOff.of_reachable (h : (steadyLoop cfg).Reachable s) :
    s.group.Sound cfg ∧ s.group.BackedOff cfg s.clock := by
  refine h.rec_on_step (P := fun s : ClockedGroup P V H =>
    s.group.Sound cfg ∧ s.group.BackedOff cfg s.clock) (fun s h₀ => ?_)
    fun s a s' _ ⟨hs, hb⟩ hstep => ?_
  · refine ⟨.of_init h₀, ?_⟩
    obtain ⟨log, hlog⟩ := h₀
    rw [hlog]
    refine ⟨fun i p dueAt he => ?_, fun i p hi => ?_, fun p t ht => ?_, fun p t m x ht => ?_⟩
    · cases he
    · cases hi
    · cases ht
    · cases ht
  · obtain ⟨ha, hstep⟩ := TransitionSystem.restrict_step_eq_some.mp hstep
    obtain ⟨hle, hclock, hstep⟩ := ClockedGroup.step_eq_some_iff.mp hstep
    exact ⟨hs.of_effect (Group.effect_of_step hstep), hb.of_step hs ha hclock hle hstep⟩

/-- The deferral of a message touches its own partition only. -/
theorem Group.visit_other {g g' : Group P V H} {p q : P} {now : ℤ}
    (h : g.step cfg (.visit p now) = some g') (hq : q ≠ p) :
    g'.readers q = g.readers q ∧ ∀ i, g'.resumeAt? i q = g.resumeAt? i q := by
  obtain ⟨t, i, w, ht, hp, hi, hh, hvisit⟩ := Group.visit_cases h
  rcases hvisit with ⟨-, rfl⟩ | ⟨m, rest, hr, ⟨htopic, -, rfl⟩ | ⟨hcall, rfl | rfl⟩⟩
  · exact ⟨Group.readers_setTask_of_ne hq _, fun _ => rfl⟩
  · refine ⟨Group.readers_defer_of_ne hq .., fun j => ?_⟩
    rw [Group.resumeAt?_of_set (g := g) (i := i) rfl]
    split_ifs with hj
    · rw [hj, Group.resumeAt?_eq_of_worker hi]
      exact KeyedTable.set_of_ne _ _ hq
    · rfl
  · exact ⟨Group.readers_settle_of_ne hq .., fun _ => rfl⟩
  · exact ⟨Group.readers_setTask_of_ne hq _, fun _ => rfl⟩

/-- An iteration of a worker whose entries belong to its partitions resumes those whose time has
come. -/
theorem Group.BackedOff.resumed {g g' : Group P V H} {clock now : ℤ} {i : ℕ} {counts : P → ℕ}
    (h : g.BackedOff cfg clock) (hstep : g.step cfg (.poll i now counts) = some g') {p : P}
    {dueAt : ℤ} (he : g.resumeAt? i p = some dueAt) (hdue : dueAt ≤ now) :
    g'.resumeAt? i p = none ∧ (g'.readers p).worker = some i ∧ (g'.readers p).paused = false := by
  simp only [Group.step, Option.bind_eq_some_iff] at hstep
  obtain ⟨w, hi, hstep⟩ := hstep
  have hnow : Group.due w now p = true := by
    rw [Group.resumeAt?_eq_of_worker hi] at he
    simpa [Group.due, he] using hdue
  have hreads := Group.reads_eq_true_iff.mpr (h.entry i p dueAt he).1
  cases hw : w.phase with
  | polling =>
    simp only [hw] at hstep
    have hnone : ¬ ∃ q, Group.due w now q = true ∧ g.reads i q = false := by
      rintro ⟨q, hq, hnot⟩
      cases hentry : w.pausedUntil q with
      | none => simp [Group.due, hentry] at hq
      | some resumeAt =>
        have hentry' := (Group.resumeAt?_eq_of_worker hi q).trans hentry
        rw [Group.reads_eq_true_iff.mpr (h.entry i q resumeAt hentry').1] at hnot
        cases hnot
    rw [if_neg hnone] at hstep
    obtain rfl := Option.some.inj hstep
    rw [Group.resumeAt?_of_set (g := g) (i := i) rfl]
    rw [Group.readers_poll_of_reads hreads]
    simp [hnow, Group.reads_eq_true_iff.mp hreads]
  | consuming => simp [hw] at hstep
  | committing offsets => simp [hw] at hstep

end Loop

/-- **Back-off.** In every reachable state of a poll loop under a clock that does not go back, no
partition being taken from a worker: a handler under way on a retry message was not called before
its time; a partition is paused in the consumer exactly when `paused_until` has an entry for it,
which is the time of the retry message at its position; a deferral leaves the other partitions as
they are; and the next iteration drops an entry whose time has come and resumes its partition. -/
theorem backoff_honoured [DecidableEq P] [Fintype P] {cfg : GroupConfig P V H}
    {s : ClockedGroup P V H} (h : (steadyLoop cfg).Reachable s) :
    (∀ p t m x, s.group.openTask? p = some t → t.handling = some (m, .calling x) →
      m.topic = cfg.settings.retryTopic → retryDueAt m.decoded ≤ s.clock) ∧
    (∀ i p, (s.group.readers p).worker = some i → ((s.group.readers p).paused = true ↔
      ∃ dueAt, s.group.resumeAt? i p = some dueAt)) ∧
    (∀ i p dueAt, s.group.resumeAt? i p = some dueAt → (s.group.readers p).worker = some i ∧
      ∃ m, (s.group.messages cfg p)[(s.group.readers p).position]? = some m ∧
        m.topic = cfg.settings.retryTopic ∧ retryDueAt m.decoded = dueAt) ∧
    (∀ p now s', s.step cfg (.visit p now) = some s' → ∀ q, q ≠ p →
      s'.group.readers q = s.group.readers q ∧
        ∀ i, s'.group.resumeAt? i q = s.group.resumeAt? i q) ∧
    ∀ i now counts s', s.step cfg (.poll i now counts) = some s' →
      ∀ p dueAt, s.group.resumeAt? i p = some dueAt → dueAt ≤ now → s'.group.resumeAt? i p = none ∧
        (s'.group.readers p).worker = some i ∧ (s'.group.readers p).paused = false := by
  obtain ⟨-, hb⟩ := Group.BackedOff.of_reachable h
  refine ⟨fun p t m x ht hx => hb.called p t m x ht hx, fun i p hi => ⟨hb.paused i p hi, ?_⟩,
    fun i p dueAt he => ⟨(hb.entry i p dueAt he).1, (hb.entry i p dueAt he).2.2⟩,
    fun p now s' hstep q hq => ?_, fun i now counts s' hstep p dueAt he hdue => ?_⟩
  · rintro ⟨dueAt, he⟩
    exact (hb.entry i p dueAt he).2.1
  · exact Group.visit_other (ClockedGroup.step_eq_some_iff.mp hstep).2.2 hq
  · exact hb.resumed (ClockedGroup.step_eq_some_iff.mp hstep).2.2 he hdue

/-! ### A retry message that is put off -/

/-- One partition of the retry topic. -/
def exampleRetryGroup : GroupConfig Unit ℕ Unit :=
  ⟨exampleSettings 3, fun _ => "retry-topic", fun _ _ => ()⟩

/-- A retry message that is not to be handled before 5000. -/
def exampleRetryLog : ClockedGroup Unit ℕ Unit :=
  ⟨{ Group.initial with log := fun _ => [⟨7, [(retryAtHeader, some "5000")]⟩] }, 0⟩

/-- The message is read at 1000 and put off. -/
def exampleDeferral : List (GroupAct Unit ℕ Unit) :=
  [.spawn 0, .assign 0 (), .poll 0 0 fun _ => 1, .visit () 1000, .gather 0]

def exampleDeferred : ClockedGroup Unit ℕ Unit :=
  ((steadyLoop exampleRetryGroup).run exampleRetryLog exampleDeferral).get (by decide)

/-- The entry is the time of the message at the position. -/
theorem backoff_honoured_deferred : exampleDeferred.group.resumeAt? 0 () = some 5000 ∧
    ∃ m, (exampleDeferred.group.messages exampleRetryGroup ())[0]? = some m ∧
      retryDueAt m.decoded = 5000 := by
  have hreach : (steadyLoop exampleRetryGroup).Reachable exampleDeferred :=
    TransitionSystem.Reachable.get (T := steadyLoop exampleRetryGroup) exampleDeferral ⟨_, rfl⟩
      (by decide)
  obtain ⟨-, -, hentry, -⟩ := backoff_honoured hreach
  obtain ⟨-, m, hm, -, hdue⟩ := hentry 0 () 5000 (by decide)
  exact ⟨by decide, m, hm, hdue⟩

end Morphflow
