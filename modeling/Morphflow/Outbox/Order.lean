import Morphflow.Outbox.Accounting

/-!
# The order of the messages of a job

One relay sends the messages of a job in the order of their rows: its batch is in that order and
the loop is left at the first failure. Several relays skip each other's locked rows, so a relay may
fetch a later row of a job while another one still holds an earlier row that it has not sent.

The worlds below keep, besides the outbox, which rows were committed when the drain of a slot made
its fetch.

## Main definitions

* `WatchedOutbox`, `watchedOutbox`.
* `WatchedOutbox.SendsInOrder`: a first publish call of the slot overtakes no row of its job.
* `WatchedOutbox.FetchesInTime`: what a fetch reaches has no earlier row of its job that another
  relay holds and has not sent.

## Main results

* `mem_fetchPending_iff`: the rows that a fetch reaches.
* `WatchedOutbox.InOrder.step`: the step lemma of the order.
* `sent_in_order_in_time`: the runs whose fetches meet the condition, and what a fetch outside it
  leads to.
* `not_sent_in_order`: a relay that skips the row another one holds.
-/

/-- In a list in increasing order, the first `n` members are those with fewer than `n` members
below them. -/
theorem List.mem_take_iff_countP_lt {α : Type*} {f : α → ℕ} {l : List α}
    (h : l.Pairwise fun a b => f a < f b) {x : α} {n : ℕ} :
    x ∈ l.take n ↔ x ∈ l ∧ l.countP (fun y => decide (f y < f x)) < n := by
  induction l generalizing n with
  | nil => simp
  | cons y l ih =>
    obtain ⟨hy, hl⟩ := List.pairwise_cons.mp h
    cases n with
    | zero => simp
    | succ n =>
      rw [List.take_succ_cons, List.mem_cons, List.mem_cons, ih hl, List.countP_cons]
      constructor
      · rintro (rfl | ⟨hx, hn⟩)
        · have hzero : l.countP (fun z => decide (f z < f x)) = 0 :=
            List.countP_eq_zero.mpr fun z hz => by simpa using (hy z hz).le
          exact ⟨.inl rfl, by simp [hzero]⟩
        · exact ⟨.inr hx, by simp only [decide_eq_true_eq, if_pos (hy x hx)]; omega⟩
      · rintro ⟨rfl | hx, hn⟩
        · exact .inl rfl
        · rw [if_pos (by simpa using hy x hx)] at hn
          exact .inr ⟨hx, by omega⟩

namespace Morphflow

/-! ### The rows that a fetch reaches -/

/-- The row waits and nobody locked it. -/
def OutboxRow.available (locks : Finset ℕ) (row : OutboxRow) : Bool :=
  row.status == .pending && decide (row.id ∉ locks)

/-- The row is one of the first `limit` waiting rows that nobody locked. -/
def InReach (rows : List OutboxRow) (locks : Finset ℕ) (limit : ℕ) (row : OutboxRow) : Prop :=
  row ∈ rows ∧ row.available locks = true ∧
    rows.countP (fun row' => row'.available locks && decide (row'.id < row.id)) < limit

theorem mem_fetchPending_iff {rows : List OutboxRow} (h : (rows.map (·.id)).Nodup)
    {locks : Finset ℕ} {limit : ℕ} {row : OutboxRow} :
    row ∈ fetchPending rows locks limit ↔ InReach rows locks limit row := by
  let waiting := rows.filter fun row => row.status == .pending && decide (row.id ∉ locks)
  let sorted := waiting.insertionSort fun a b => a.id ≤ b.id
  have hperm : sorted.Perm waiting := List.perm_insertionSort _ _
  have hsorted : sorted.Pairwise fun a b => a.id < b.id := by
    have hall : ((fetchPending rows locks sorted.length).map (·.id)).Pairwise (· < ·) :=
      pairwise_fetchPending h
    rw [fetchPending, List.take_length] at hall
    exact List.pairwise_map.mp hall
  have hcount : sorted.countP (fun row' => decide (row'.id < row.id)) =
      rows.countP fun row' => row'.available locks && decide (row'.id < row.id) := by
    rw [hperm.countP_eq, List.countP_filter]
    exact List.countP_congr fun row' _ => by simp [OutboxRow.available, and_comm]
  show row ∈ sorted.take limit ↔ _
  rw [List.mem_take_iff_countP_lt hsorted, hcount, hperm.mem_iff, List.mem_filter, InReach,
    and_assoc, OutboxRow.available]

/-! ### The outbox under watch -/

/-- The row was successfully published. -/
def OutboxWorld.Sent (w : OutboxWorld) (row : OutboxRow) : Prop :=
  row.status = .published ∨ 0 < returnedCalls w.calls row.id

/-- The outbox, and for every slot the rows that were visible to its latest fetch. -/
structure WatchedOutbox where
  outbox : OutboxWorld
  visible : ℕ → List ℕ

namespace WatchedOutbox

/-- A step of the outbox; a fetch notes the rows that are committed. -/
def step (w : WatchedOutbox) (a : OutboxAct) : Option WatchedOutbox :=
  (w.outbox.step a).map fun outbox =>
    { outbox := outbox
      visible := match a with
        | .relay (.fetch k _) => Function.update w.visible k (w.outbox.rows.map (·.id))
        | _ => w.visible }

/-- The state after a fetch of the slot that opened a drain. -/
def fetched (w : WatchedOutbox) (k limit : ℕ) : WatchedOutbox where
  outbox := { w.outbox with
    relays := w.outbox.relays.openDrain k
      (fetchPending w.outbox.rows w.outbox.relays.locks limit)
    made := Function.update w.outbox.made k [] }
  visible := Function.update w.visible k (w.outbox.rows.map (·.id))

@[simp] theorem fetched_visible_self (w : WatchedOutbox) (k limit : ℕ) :
    (w.fetched k limit).visible k = w.outbox.rows.map (·.id) :=
  Function.update_self ..

theorem fetched_visible_of_ne (w : WatchedOutbox) {k l : ℕ} (limit : ℕ) (h : l ≠ k) :
    (w.fetched k limit).visible l = w.visible l :=
  Function.update_of_ne h ..

/-- What the slot publishes next was sent before, or every earlier row of its job that was visible
to the fetch of the slot has been sent. -/
def SendsInOrder (w : WatchedOutbox) (k : ℕ) : Prop :=
  ∀ d message, w.outbox.relays.drains k = some d → d.next? = some message →
    returnedCalls w.outbox.calls message.id = 0 →
    ∀ row ∈ w.outbox.rows, row.id < message.id → row.payload.jobId = message.payload.jobId →
      ¬ w.outbox.Sent row → row.id ∉ w.visible k

/-- No row that a fetch reaches and that was not sent before has an earlier row of its job that
waits under the lock of another relay and was not sent. -/
def FetchesInTime (w : WatchedOutbox) : OutboxAct → Prop
  | .relay (.fetch _ batchSize) => ∀ message,
      InReach w.outbox.rows w.outbox.relays.locks (max 1 batchSize).toNat message →
      returnedCalls w.outbox.calls message.id = 0 →
      ∀ row ∈ w.outbox.rows, row.id < message.id → row.payload.jobId = message.payload.jobId →
        row.id ∈ w.outbox.relays.locks → w.outbox.Sent row
  | _ => True

end WatchedOutbox

/-- Relays that start on any outbox. -/
def watchedOutbox : TransitionSystem WatchedOutbox OutboxAct where
  init w := (w.outbox.rows.map (·.id)).Nodup ∧ w.outbox.relays.locks = ∅ ∧
    (∀ k, w.outbox.relays.drains k = none) ∧ w.outbox.calls = [] ∧ w.outbox.closed = [] ∧
    ∀ k, w.visible k = []
  step := WatchedOutbox.step

namespace WatchedOutbox

/-- What the open drains have not sent yet they send in order. -/
structure InOrder (w : WatchedOutbox) : Prop where
  sound : w.outbox.relays.Sound w.outbox.rows
  known : ∀ k, ∀ id ∈ w.visible k, ∃ row ∈ w.outbox.rows, row.id = id
  ahead : ∀ k d, w.outbox.relays.drains k = some d → d.failed = none → ∀ message ∈ d.remaining,
    returnedCalls w.outbox.calls message.id = 0 → ∀ row ∈ w.outbox.rows, row.id ∈ w.visible k →
      row.id < message.id → row.payload.jobId = message.payload.jobId →
        w.outbox.Sent row ∨ row ∈ d.remaining

variable {w w' : WatchedOutbox}

namespace InOrder

theorem of_init (h : watchedOutbox.init w) : w.InOrder := by
  obtain ⟨hids, -, hdrains, -, -, hvisible⟩ := h
  refine ⟨⟨hids, ?_, ?_, ?_, ?_⟩, ?_, ?_⟩
  · intro k d hk
    cases (hdrains k).symm.trans hk
  · intro k d hk
    cases (hdrains k).symm.trans hk
  · intro k d hk
    cases (hdrains k).symm.trans hk
  · intro k l d e _ hk
    cases (hdrains k).symm.trans hk
  · intro k id hid
    rw [hvisible k] at hid
    cases hid
  · intro k d hk
    cases (hdrains k).symm.trans hk

/-- The next message overtakes nothing: what is left of the batch is behind it. -/
theorem sendsInOrder (h : w.InOrder) (k : ℕ) : w.SendsInOrder k := by
  intro d message hk hnext hfirst row hrow hlt hjob hunsent hvisible
  obtain ⟨hf, rest, hm⟩ := Relays.next?_eq_some_iff.mp hnext
  have hmessage : message ∈ d.remaining := hm ▸ List.mem_cons_self
  rcases h.ahead k d hk hf message hmessage hfirst row hrow hvisible hlt hjob with hs | hleft
  · exact hunsent hs
  · have hsorted := (h.sound.sound k d hk).sorted_remaining
    rw [hm, List.pairwise_cons] at hsorted
    rw [hm, List.mem_cons] at hleft
    rcases hleft with rfl | hleft
    · exact hlt.false
    · exact (hlt.trans (hsorted.1 row hleft)).false

theorem add (h : w.InOrder) {row : OutboxRow} (hid : ∀ row' ∈ w.outbox.rows, row'.id ≠ row.id) :
    InOrder { w with outbox := { w.outbox with rows := w.outbox.rows ++ [row] } } where
  sound := h.sound.append hid
  known k id hmem := by
    obtain ⟨row', hrow', heq⟩ := h.known k id hmem
    exact ⟨row', List.mem_append_left _ hrow', heq⟩
  ahead k d hk hf message hm hfirst row' hrow' hvisible hlt hjob := by
    rcases List.mem_append.mp hrow' with hrow' | hrow'
    · exact h.ahead k d hk hf message hm hfirst row' hrow' hvisible hlt hjob
    · obtain rfl := List.mem_singleton.mp hrow'
      obtain ⟨row₀, hrow₀, heq⟩ := h.known k _ hvisible
      exact absurd heq (hid row₀ hrow₀)

/-- What a fetch sees are rows. -/
theorem known_update (h : w.InOrder) (k l : ℕ) :
    ∀ id ∈ Function.update w.visible k (w.outbox.rows.map (·.id)) l,
      ∃ row ∈ w.outbox.rows, row.id = id := by
  intro id hmem
  by_cases hl : l = k
  · subst hl
    rw [Function.update_self] at hmem
    obtain ⟨row, hrow, rfl⟩ := List.mem_map.mp hmem
    exact ⟨row, hrow, rfl⟩
  · rw [Function.update_of_ne hl] at hmem
    exact h.known l id hmem

/-- A fetch in time finds the earlier rows of a job sent or fetches them too. -/
theorem fetch (h : w.InOrder) {k : ℕ} {batchSize : ℤ}
    (hintime : w.FetchesInTime (.relay (.fetch k batchSize))) :
    InOrder (w.fetched k (max 1 batchSize).toNat) where
  sound := h.sound.openDrain _
  known := h.known_update k
  ahead l d hl hf message hm hfirst row hrow hvisible hlt hjob := by
    rcases KeyedTable.set_eq_some_iff.mp hl with ⟨-, rfl⟩ | ⟨hne, hl⟩
    · have hreach := (mem_fetchPending_iff h.sound.distinct).mp hm
      by_cases hlocked : row.id ∈ w.outbox.relays.locks
      · exact .inl (hintime message hreach hfirst row hrow hlt hjob hlocked)
      · cases hs : row.status with
        | published => exact .inl (.inl hs)
        | pending =>
          refine .inr ((mem_fetchPending_iff h.sound.distinct).mpr ⟨hrow, ?_, ?_⟩)
          · simp [OutboxRow.available, hs, hlocked]
          · -- whatever is below the row is below the message
            refine (List.countP_mono_left fun row' _ hrow' => ?_).trans_lt hreach.2.2
            simp only [Bool.and_eq_true, decide_eq_true_eq] at hrow' ⊢
            exact ⟨hrow'.1, hrow'.2.trans hlt⟩
    · rw [fetched_visible_of_ne _ _ hne] at hvisible
      exact h.ahead l d hl hf message hm hfirst row hrow hvisible hlt hjob

theorem idleFetch (h : w.InOrder) {k : ℕ} (hk : w.outbox.relays.drains k = none) :
    InOrder { w with
      visible := Function.update w.visible k (w.outbox.rows.map (·.id)) } where
  sound := h.sound
  known := h.known_update k
  ahead l d hl hf message hm hfirst row hrow hvisible := by
    have hne : l ≠ k := by
      rintro rfl
      cases hk.symm.trans hl
    have hsame := Function.update_of_ne hne (w.outbox.rows.map (·.id)) w.visible
    exact h.ahead l d hl hf message hm hfirst row hrow (hsame ▸ hvisible)

/-- A message that was sent is ahead of the rest; at one that failed the drain is left. -/
theorem publish (h : w.InOrder) {k : ℕ} {d : Drain} {message : OutboxRow}
    {rest : List OutboxRow} (hk : w.outbox.relays.drains k = some d) (hf : d.failed = none)
    (hm : d.remaining = message :: rest) (outcome : Except String Unit) :
    InOrder { w with
      outbox := { w.outbox with
        relays := w.outbox.relays.goOn k (d.afterPublish message outcome)
        calls := w.outbox.calls ++ [message.publishCall outcome] } } where
  sound := h.sound.of_effect (.published hk hf hm)
  known := h.known
  ahead l e hl hfe message' hm' hfirst row hrow hvisible hlt hjob := by
    have hmono : ∀ id, returnedCalls w.outbox.calls id ≤
        returnedCalls (w.outbox.calls ++ [message.publishCall outcome]) id := by
      intro id
      rw [returnedCalls_append]
      exact Nat.le_add_right ..
    have hfirst' : returnedCalls w.outbox.calls message'.id = 0 :=
      Nat.le_zero.mp ((hmono _).trans hfirst.le)
    rcases KeyedTable.set_eq_some_iff.mp hl with ⟨rfl, rfl⟩ | ⟨-, hl⟩
    · cases outcome with
      | error e => cases hfe
      | ok u =>
        have hrest : (d.afterPublish message (.ok u)).remaining = rest := by
          simp [Drain.afterPublish, hm]
        rw [hrest] at hm' ⊢
        have hmem : message' ∈ d.remaining := hm ▸ List.mem_cons_of_mem _ hm'
        rcases h.ahead l d hk hf message' hmem hfirst' row hrow hvisible hlt hjob with hs | hleft
        · exact .inl (hs.imp id fun hs => hs.trans_le (hmono _))
        · rw [hm, List.mem_cons] at hleft
          rcases hleft with rfl | hleft
          · -- the row is the message that was sent
            refine .inl (.inr ?_)
            simp [returnedCalls_append, OutboxRow.publishCall]
          · exact .inr hleft
    · exact (h.ahead l e hl hfe message' hm' hfirst' row hrow hvisible hlt hjob).imp_left
        fun hs => hs.imp id fun hs => hs.trans_le (hmono _)

theorem commit (h : w.InOrder) {k : ℕ} {d : Drain} (now : Instant)
    (hk : w.outbox.relays.drains k = some d) (hended : d.loopEnded = true)
    (closed : List ClosedDrain) :
    InOrder { w with
      outbox := { w.outbox with
        rows := w.outbox.rows.map (d.writeRow now)
        relays := w.outbox.relays.close k d
        closed := closed } } where
  sound := h.sound.of_effect (.committed hk hended)
  known l id hid := by
    obtain ⟨row, hrow, rfl⟩ := h.known l id hid
    exact ⟨_, List.mem_map_of_mem hrow, (d.writeRow_sameMessage now row).id⟩
  ahead l e hl hfe message hm hfirst row' hrow' hvisible hlt hjob := by
    obtain ⟨hlk, hl⟩ := KeyedTable.erase_eq_some_iff.mp hl
    obtain ⟨row, hrow, rfl⟩ := List.mem_map.mp hrow'
    have hsame := d.writeRow_sameMessage now row
    rw [hsame.id] at hvisible hlt
    rw [hsame.payload] at hjob
    have hkeep : row.id ∉ d.ids → d.writeRow now row = row :=
      (h.sound.sound k d hk).writeRow_of_notMem_ids now
    rcases h.ahead l e hl hfe message hm hfirst row hrow hvisible hlt hjob with (hs | hs) | hleft
    · refine .inl (.inl ?_)
      rw [hkeep fun hid => ?_, hs]
      cases hs.symm.trans (h.sound.pending_of_mem_ids hk hrow hid)
    · refine .inl (.inr ?_)
      rw [hsame.id]
      exact hs
    · refine .inr ?_
      obtain ⟨visited, hbatch, -⟩ := (h.sound.sound l e hl).progress
      have hid : row.id ∈ e.ids :=
        List.mem_map_of_mem (hbatch ▸ List.mem_append_right _ hleft)
      rw [hkeep fun hid' => h.sound.disjoint l k e d hlk hl hk _ hid hid']
      exact hleft

theorem abort (h : w.InOrder) {k : ℕ} {d : Drain} (hk : w.outbox.relays.drains k = some d)
    (closed : List ClosedDrain) :
    InOrder { w with
      outbox := { w.outbox with relays := w.outbox.relays.close k d, closed := closed } } where
  sound := h.sound.of_effect (.aborted hk)
  known := h.known
  ahead l e hl := h.ahead l e (KeyedTable.erase_eq_some_iff.mp hl).2

/-- The order does not look at the calls that are noted with a drain. -/
theorem withMade (h : w.InOrder) (made : ℕ → List PublishCall) :
    InOrder { w with outbox := { w.outbox with made := made } } where
  sound := h.sound
  known := h.known
  ahead := h.ahead

/-- **Step lemma.** A step keeps the drains in order when its fetch is in time. -/
theorem step (h : w.InOrder) {a : OutboxAct} (hintime : w.FetchesInTime a)
    (hstep : w.step a = some w') : w'.InOrder := by
  obtain ⟨outbox, houtbox, rfl⟩ := Option.map_eq_some_iff.mp hstep
  cases a with
  | add id messageId topic payload headers =>
    simp only [OutboxWorld.step] at houtbox
    split_ifs at houtbox with hid
    obtain rfl := Option.some.inj houtbox
    exact h.add hid
  | relay a =>
    obtain ⟨⟨rows', r'⟩, hrelay, rfl⟩ := Option.map_eq_some_iff.mp houtbox
    cases Relays.effect_of_step hrelay with
    | idle =>
      simpa [Relays.publishCall?, Relays.closedDrain?] using
        (h.idleFetch (Relays.drains_of_fetch hrelay)).withMade _
    | fetched hk =>
      simpa [Relays.publishCall?, Relays.closedDrain?, Relays.madeAfter, fetched] using
        h.fetch hintime
    | @published k outcome d message rest hk hf hm =>
      have hnext : d.next? = some message := Relays.next?_eq_some_iff.mpr ⟨hf, rest, hm⟩
      simpa [Relays.publishCall?, Relays.closedDrain?, hk, hnext] using
        (h.publish hk hf hm outcome).withMade _
    | committed hk hended =>
      simpa [Relays.publishCall?] using (h.commit _ hk hended _).withMade _
    | aborted hk => simpa [Relays.publishCall?] using (h.abort hk _).withMade _

open Classical in
/-- **Run lemma.** -/
theorem of_reachable (h : (watchedOutbox.restrict FetchesInTime).Reachable w) : w.InOrder :=
  h.rec_on_step (fun _ h₀ => .of_init h₀) fun w a w' _ hw hstep => by
    obtain ⟨hintime, hstep⟩ := TransitionSystem.restrict_step_eq_some.mp hstep
    exact hw.step hintime hstep

end InOrder

/-! ### What a fetch that is not in time leads to -/

/-- The state after the slot has published a message. -/
def sentNext (w : WatchedOutbox) (k : ℕ) (d : Drain) (message : OutboxRow) : WatchedOutbox :=
  { w with
    outbox := { w.outbox with
      relays := w.outbox.relays.goOn k (d.afterPublish message (.ok ()))
      calls := w.outbox.calls ++ [message.publishCall (.ok ())]
      made := Function.update w.outbox.made k
        (w.outbox.made k ++ [message.publishCall (.ok ())]) } }

theorem step_sentNext {k : ℕ} {d : Drain} {message : OutboxRow}
    (hk : w.outbox.relays.drains k = some d) (hnext : d.next? = some message) :
    w.step (.relay (.publish k (.ok ()))) = some (w.sentNext k d message) := by
  simp [step, OutboxWorld.step, Relays.step, Relays.publishCall?, Relays.closedDrain?,
    Relays.madeAfter, hk, hnext, sentNext]

/-- A drain publishes what is left of its batch up to a message. -/
theorem run_publish {k : ℕ} {message : OutboxRow} {rest : List OutboxRow}
    (before : List OutboxRow) : ∀ {w : WatchedOutbox} {d : Drain},
    w.outbox.relays.drains k = some d → d.failed = none →
    d.remaining = before ++ message :: rest →
      ∃ as w' d', watchedOutbox.run w as = some w' ∧ w'.outbox.relays.drains k = some d' ∧
        d'.next? = some message ∧ w'.outbox.rows = w.outbox.rows ∧ w'.visible = w.visible ∧
        ∀ id, (∀ row ∈ before, row.id ≠ id) →
          returnedCalls w'.outbox.calls id = returnedCalls w.outbox.calls id := by
  induction before with
  | nil =>
    intro w d hk hf hm
    have hnext : d.next? = some message := Relays.next?_eq_some_iff.mpr ⟨hf, rest, hm⟩
    exact ⟨[], w, d, rfl, hk, hnext, rfl, rfl, fun _ _ => rfl⟩
  | cons first before ih =>
    intro w d hk hf hm
    let d₁ := d.afterPublish first (.ok ())
    have hstep : w.step (.relay (.publish k (.ok ()))) = some (w.sentNext k d first) :=
      step_sentNext hk (Relays.next?_eq_some_iff.mpr ⟨hf, _, hm⟩)
    have hm₁ : d₁.remaining = before ++ message :: rest := by
      simp [d₁, Drain.afterPublish, hm]
    obtain ⟨as, w', d', hrun, hk', hnext', hrows, hvisible, hcalls⟩ :=
      ih (w := w.sentNext k d first) (d := d₁) (KeyedTable.set_self ..) hf hm₁
    refine ⟨.relay (.publish k (.ok ())) :: as, w', d',
      watchedOutbox.run_cons_eq_some.mpr ⟨_, hstep, hrun⟩, hk', hnext', hrows, hvisible, ?_⟩
    intro id hid
    rw [hcalls id fun row hrow => hid row (List.mem_cons_of_mem _ hrow)]
    have hne : first.id ≠ id := hid first List.mem_cons_self
    simp [sentNext, returnedCalls_append, OutboxRow.publishCall, hne]

/-- A fetch that is not in time opens a drain that may overtake a row of its job. -/
theorem not_sendsInOrder (hdistinct : (w.outbox.rows.map (·.id)).Nodup) {k : ℕ} {batchSize : ℤ}
    (hstep : w.step (.relay (.fetch k batchSize)) = some w')
    (hlate : ¬ w.FetchesInTime (.relay (.fetch k batchSize))) :
    ∃ as v v', watchedOutbox.run w' as = some v ∧
      watchedOutbox.step v (.relay (.publish k (.ok ()))) = some v' ∧ ¬ v.SendsInOrder k := by
  simp only [FetchesInTime] at hlate
  push Not at hlate
  obtain ⟨message, hreach, hfirst, row, hrow, hlt, hjob, hlocked, hunsent⟩ := hlate
  let limit := (max 1 batchSize).toNat
  let batch := fetchPending w.outbox.rows w.outbox.relays.locks limit
  have hmem : message ∈ batch := (mem_fetchPending_iff hdistinct).mpr hreach
  have hw' : w' = w.fetched k limit := by
    have hfree : w.outbox.relays.drains k = none := by
      obtain ⟨outbox, houtbox, -⟩ := Option.map_eq_some_iff.mp hstep
      obtain ⟨p, hrelay, -⟩ := Option.map_eq_some_iff.mp houtbox
      exact Relays.drains_of_fetch hrelay
    have hne : fetchPending w.outbox.rows w.outbox.relays.locks limit ≠ [] :=
      List.ne_nil_of_mem hmem
    have hopen : w.outbox.relays.step w.outbox.rows (.fetch k batchSize) =
        some (w.outbox.rows, w.outbox.relays.openDrain k batch) := by
      simp only [Relays.step, hfree, Option.isSome_none, Bool.false_eq_true, if_false]
      exact if_neg hne
    simp only [step, OutboxWorld.step, hopen, Option.map_some, Option.some.injEq,
      Relays.publishCall?, Relays.closedDrain?, Relays.madeAfter, Option.toList_none,
      List.append_nil] at hstep
    exact hstep.symm
  subst hw'
  obtain ⟨before, rest, hbatch⟩ := List.append_of_mem hmem
  obtain ⟨as, v, d, hrun, hk, hnext, hrows, hvisible, hcalls⟩ :=
    run_publish before (w := w.fetched k limit) (d := .ofBatch batch) (KeyedTable.set_self ..) rfl
      hbatch
  -- neither the message nor the row is among what was published before
  have hfirst' : returnedCalls v.outbox.calls message.id = 0 := by
    rw [hcalls message.id fun row' hrow' heq => ?_]
    · exact hfirst
    · have hsorted : (batch.map (·.id)).Pairwise (· < ·) := pairwise_fetchPending hdistinct
      rw [List.pairwise_map, hbatch] at hsorted
      have hbelow := (List.pairwise_append.mp hsorted).2.2 row' hrow' message List.mem_cons_self
      exact hbelow.ne heq
  have hunsent' : ¬ v.outbox.Sent row := by
    rw [OutboxWorld.Sent, hcalls row.id fun row' hrow' heq => ?_]
    · exact hunsent
    · have hopen : row' ∈ batch := hbatch ▸ List.mem_append_left _ hrow'
      exact (mem_of_mem_fetchPending hopen).2.2 (heq ▸ hlocked)
  refine ⟨as, v, _, hrun, step_sentNext hk hnext, fun horder => ?_⟩
  refine horder d message hk hnext hfirst' row (hrows ▸ hrow) hlt hjob hunsent' ?_
  rw [hvisible, fetched_visible_self]
  exact List.mem_map_of_mem hrow

end WatchedOutbox

open Classical in
/-- **The order of the messages of a job.** In every run of any number of relays on any outbox
whose fetches are in time, no message of a job is sent ahead of an earlier one that was there to be
sent. A fetch outside the condition leads to a run in which one is. -/
theorem sent_in_order_in_time {w : WatchedOutbox}
    (h : (watchedOutbox.restrict WatchedOutbox.FetchesInTime).Reachable w) :
    (∀ k w', watchedOutbox.step w (.relay (.publish k (.ok ()))) = some w' → w.SendsInOrder k) ∧
    ∀ k batchSize w', watchedOutbox.step w (.relay (.fetch k batchSize)) = some w' →
      ¬ w.FetchesInTime (.relay (.fetch k batchSize)) →
        ∃ as v v', watchedOutbox.run w' as = some v ∧
          watchedOutbox.step v (.relay (.publish k (.ok ()))) = some v' ∧ ¬ v.SendsInOrder k := by
  have hw := WatchedOutbox.InOrder.of_reachable h
  refine ⟨fun k _ _ => hw.sendsInOrder k, fun k batchSize w' hstep hlate => ?_⟩
  exact WatchedOutbox.not_sendsInOrder hw.sound.distinct hstep hlate

/-- No rows yet. -/
def exampleEmptyOutbox : WatchedOutbox :=
  ⟨⟨[], ⟨∅, fun _ => none⟩, [], fun _ => [], []⟩, fun _ => []⟩

/-- Two messages of the job 1 are written one after the other. -/
def exampleTwoMessages : List OutboxAct :=
  [.add 1 11 "request-topic" (buildEvent 21 1 .requested "api" 31 []) none,
    .add 2 12 "result-topic" (buildEvent 22 1 .inferenceCompleted "inference-worker" 31 []) none]

theorem init_exampleEmptyOutbox : watchedOutbox.init exampleEmptyOutbox :=
  ⟨List.nodup_nil, rfl, fun _ => rfl, rfl, rfl, fun _ => rfl⟩

open Classical in
/-- One relay sends the second message after the first. -/
theorem sent_in_order_in_time_one_relay : ∃ w : WatchedOutbox,
    returnedCalls w.outbox.calls 1 = 1 ∧ (watchedOutbox.step w
      (.relay (.publish 0 (.ok ())))).isSome ∧ w.SendsInOrder 0 := by
  let R := watchedOutbox.restrict WatchedOutbox.FetchesInTime
  have hgo : ∀ {w w' : WatchedOutbox} (a : OutboxAct), R.Reachable w → w.FetchesInTime a →
      w.step a = some w' → R.Reachable w' :=
    fun a h hp hs => h.step (TransitionSystem.restrict_step_eq_some.mpr ⟨hp, hs⟩)
  have hfirst : R.Reachable _ := hgo exampleTwoMessages[0] (.of_init init_exampleEmptyOutbox)
    trivial rfl
  have hsecond : R.Reachable _ := hgo exampleTwoMessages[1] hfirst trivial rfl
  -- nothing is locked
  have hfetched : R.Reachable _ := hgo (.relay (.fetch 0 10)) hsecond
    (fun _ _ _ _ _ _ _ hlocked => absurd hlocked (Finset.notMem_empty _)) rfl
  have hpublished : R.Reachable _ := hgo (.relay (.publish 0 (.ok ()))) hfetched trivial rfl
  exact ⟨_, rfl, rfl, (sent_in_order_in_time hpublished).1 0 _ rfl⟩

/-- The relay of slot 0 holds the first message when the second is written; that of slot 1 skips
the first and fetches the second. -/
def exampleOvertaking : List OutboxAct :=
  [exampleTwoMessages[0], .relay (.fetch 0 100), exampleTwoMessages[1], .relay (.fetch 1 100)]

/-- The second message of a job is sent ahead of the first, which was there to be sent. -/
theorem not_sent_in_order : ∃ w w', watchedOutbox.Reachable w ∧
    watchedOutbox.step w (.relay (.publish 1 (.ok ()))) = some w' ∧ ¬ w.SendsInOrder 1 := by
  have hw := TransitionSystem.Reachable.get (T := watchedOutbox) exampleOvertaking
    init_exampleEmptyOutbox rfl
  refine ⟨_, _, hw, rfl, fun horder => ?_⟩
  refine horder _ _ rfl rfl rfl _ List.mem_cons_self (by decide) rfl ?_ (by decide)
  rintro (hs | hs)
  · cases hs
  · exact absurd hs (by decide)

end Morphflow
