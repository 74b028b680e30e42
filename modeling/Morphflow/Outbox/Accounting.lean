import Morphflow.Outbox.Relay
import Morphflow.Services.JobService
import Morphflow.Foundation.Transition

/-!
# What the relays publish

A publish call is not undone when its drain aborts, so the rows and the messages sent diverge at
every abort. The system below keeps, besides the rows and the open drains, every publish call and
every drain that ended; `OutboxWorld.Balanced` accounts for each row: how often it was sent is how
often a drain that had sent it was aborted, and once more if it is `PUBLISHED`.

## Main definitions

* `OutboxWorld`, `outboxSystem`.
* `OutboxWorld.Balanced`.

## Main results

* `outbox_accounting`: at-least-once delivery with accounted duplication.
-/

namespace Morphflow

/-- A drain that ended, by a commit or by an abort, and the publish calls it made. -/
structure ClosedDrain where
  drain : Drain
  calls : List PublishCall
  committed : Bool

/-- The committed rows, the open drains, the publish calls so far, those of the latest drain of
every slot, and the drains that ended. -/
structure OutboxWorld where
  rows : List OutboxRow
  relays : Relays
  calls : List PublishCall
  made : ℕ → List PublishCall
  closed : List ClosedDrain

/-- The steps: a row is added by some transaction, or a relay takes a step. -/
inductive OutboxAct
  | add (id : ℕ) (messageId : Uuid) (topic : String) (payload : Event)
      (headers : Option (List (String × String)))
  | relay (a : RelayAct)

namespace Relays

/-- The drain that a step ends, with its calls. -/
def closedDrain? (r : Relays) (made : ℕ → List PublishCall) : RelayAct → Option ClosedDrain
  | .commit i _ => (r.drains i).map fun d => ⟨d, made i, true⟩
  | .abort i => (r.drains i).map fun d => ⟨d, made i, false⟩
  | _ => none

/-- The calls of the latest drain of every slot after a step: a fetch begins a drain, and a publish
call is its slot's. -/
def madeAfter (r : Relays) (made : ℕ → List PublishCall) : RelayAct → ℕ → List PublishCall
  | .fetch i _ => Function.update made i []
  | .publish i outcome =>
    Function.update made i (made i ++ (r.publishCall? (.publish i outcome)).toList)
  | _ => made

end Relays

namespace OutboxWorld

/-- A step of the system. -/
def step (w : OutboxWorld) : OutboxAct → Option OutboxWorld
  | .add id messageId topic payload headers =>
    if ∀ row ∈ w.rows, row.id ≠ id then
      some { w with rows := addOutbox w.rows id messageId topic payload headers }
    else none
  | .relay a => (w.relays.step w.rows a).map fun p =>
    { rows := p.1
      relays := p.2
      calls := w.calls ++ (w.relays.publishCall? a).toList
      made := w.relays.madeAfter w.made a
      closed := w.closed ++ (w.relays.closedDrain? w.made a).toList }

end OutboxWorld

/-- The relays on an outbox of rows that no drain has touched. -/
def outboxSystem : TransitionSystem OutboxWorld OutboxAct where
  init w := (w.rows.map (·.id)).Nodup ∧
    (∀ row ∈ w.rows, row.status = .pending ∧ row.attempts = 0) ∧
    w.relays.locks = ∅ ∧ (∀ i, w.relays.drains i = none) ∧ w.calls = [] ∧ w.closed = []
  step := OutboxWorld.step

/-! ### Counting -/

/-- How many publish calls for the row returned. -/
def returnedCalls (calls : List PublishCall) (id : ℕ) : ℕ :=
  calls.countP fun c => c.returned && c.rowId == id

/-- How many aborted drains had made a call for the row that returned. -/
def abortedSent (closed : List ClosedDrain) (id : ℕ) : ℕ :=
  closed.countP fun d => !d.committed && d.calls.any fun c => c.returned && c.rowId == id

/-- How many committed drains had made a call for the row that raised. -/
def committedRaised (closed : List ClosedDrain) (id : ℕ) : ℕ :=
  closed.countP fun d => d.committed && d.calls.any fun c => !c.returned && c.rowId == id

theorem returnedCalls_append (calls : List PublishCall) (c : PublishCall) (id : ℕ) :
    returnedCalls (calls ++ [c]) id =
      returnedCalls calls id + if c.returned = true ∧ c.rowId = id then 1 else 0 := by
  simp [returnedCalls, List.countP_append, List.countP_singleton]

/-! ### Publish calls -/

/-- The call is one for the row, with its topic, its payload and its headers; empty headers are left
out. -/
structure PublishCall.IsFor (c : PublishCall) (row : OutboxRow) : Prop where
  rowId : c.rowId = row.id
  topic : c.topic = row.topic
  payload : c.payload = row.payload
  headers : c.headers.getD [] = row.headers.getD []
  nonempty : c.headers ≠ some []

theorem OutboxRow.publishCall_isFor (row : OutboxRow) (outcome : Except String Unit) :
    (row.publishCall outcome).IsFor row where
  rowId := rfl
  topic := rfl
  payload := rfl
  headers := by
    rcases hh : row.headers with _ | _ | ⟨header, headers⟩ <;>
      simp [publishCall, headersOrNone, hh, Option.filter]
  nonempty := by
    rcases hh : row.headers with _ | _ | ⟨header, headers⟩ <;>
      simp [publishCall, headersOrNone, hh, Option.filter]

theorem OutboxRow.publishCall_returned_iff (row : OutboxRow) (outcome : Except String Unit) :
    (row.publishCall outcome).returned = true ↔ outcome = .ok () := by
  cases outcome <;> simp [publishCall]

/-- The notes of a drain agree with the calls it made: they are about the rows of its batch in
order, those that returned are what it sent, and only the last one may have raised. -/
structure Drain.Made (d : Drain) (calls : List PublishCall) : Prop where
  ids : calls.map (·.rowId) ++ d.remaining.map (·.id) = d.ids
  remaining : d.remaining = d.batch.drop calls.length
  sent : (calls.filter (·.returned)).map (·.rowId) = d.sent
  failed : (calls.filter (!·.returned)).map (·.rowId) = (d.failed.map Prod.fst).toList
  stops : ∀ c ∈ calls.dropLast, c.returned = true

namespace Drain.Made

variable {d : Drain} {calls : List PublishCall}

theorem ofBatch (batch : List OutboxRow) : (Drain.ofBatch batch).Made [] :=
  ⟨rfl, rfl, rfl, rfl, fun _ hc => absurd hc List.not_mem_nil⟩

theorem afterPublish (h : d.Made calls) (hf : d.failed = none) {message : OutboxRow}
    {rest : List OutboxRow} (hm : d.remaining = message :: rest) (outcome : Except String Unit) :
    (d.afterPublish message outcome).Made (calls ++ [message.publishCall outcome]) := by
  have hfailed := h.failed
  rw [hf] at hfailed
  have hreturned : ∀ c ∈ calls, c.returned = true := by
    simpa [List.filter_eq_nil_iff] using hfailed
  have hids : (calls ++ [message.publishCall outcome]).map (·.rowId) ++
      d.remaining.tail.map (·.id) = d.ids := by
    have hids := h.ids
    rw [hm] at hids
    simpa [hm, OutboxRow.publishCall] using hids
  have htail : d.remaining.tail =
      d.batch.drop (calls ++ [message.publishCall outcome]).length := by
    rw [h.remaining, List.tail_drop, List.length_append, List.length_singleton]
  have hstops : ∀ c ∈ (calls ++ [message.publishCall outcome]).dropLast, c.returned = true := by
    rwa [List.dropLast_concat]
  cases outcome with
  | ok =>
    refine ⟨hids, htail, ?_, ?_, hstops⟩
    · simp [Drain.afterPublish, OutboxRow.publishCall, ← h.sent]
    · simpa [Drain.afterPublish, OutboxRow.publishCall, hf] using hfailed
  | error e =>
    refine ⟨hids, htail, ?_, ?_, hstops⟩
    · simp [Drain.afterPublish, OutboxRow.publishCall, ← h.sent]
    · simpa [Drain.afterPublish, OutboxRow.publishCall] using hfailed

theorem any_returned_iff (h : d.Made calls) {id : ℕ} :
    (calls.any fun c => c.returned && c.rowId == id) = true ↔ id ∈ d.sent := by
  rw [← h.sent]
  simp [and_assoc]

theorem any_raised_iff (h : d.Made calls) {id : ℕ} :
    (calls.any fun c => !c.returned && c.rowId == id) = true ↔
      d.failed.map Prod.fst = some id := by
  rw [← Option.mem_toList, ← h.failed]
  simp [and_assoc]

/-- Behind a call that raised is what the loop has not come to. -/
theorem drop_of_raised (h : d.Made calls) {k : ℕ} {c : PublishCall} (hk : calls[k]? = some c)
    (hc : c.returned = false) : d.batch.drop (k + 1) = d.remaining := by
  obtain ⟨hlt, heq⟩ := List.getElem?_eq_some_iff.mp hk
  have hlast : ¬ k < calls.length - 1 := by
    intro hk'
    have hmem : c ∈ calls.dropLast := by
      refine List.mem_of_getElem? (i := k) ?_
      rw [List.getElem?_dropLast, if_pos hk', hk]
    cases hc.symm.trans (h.stops c hmem)
  rw [h.remaining, show calls.length = k + 1 by omega]

end Drain.Made

theorem abortedSent_append {closed : List ClosedDrain} {d : Drain} {calls : List PublishCall}
    (h : d.Made calls) (committed : Bool) (id : ℕ) :
    abortedSent (closed ++ [⟨d, calls, committed⟩]) id =
      abortedSent closed id + if committed = false ∧ id ∈ d.sent then 1 else 0 := by
  simp only [abortedSent, List.countP_append, List.countP_singleton, Bool.and_eq_true,
    h.any_returned_iff, Bool.not_eq_true']

theorem committedRaised_append {closed : List ClosedDrain} {d : Drain} {calls : List PublishCall}
    (h : d.Made calls) (committed : Bool) (id : ℕ) :
    committedRaised (closed ++ [⟨d, calls, committed⟩]) id = committedRaised closed id +
      if committed = true ∧ d.failed.map Prod.fst = some id then 1 else 0 := by
  simp only [committedRaised, List.countP_append, List.countP_singleton, Bool.and_eq_true,
    h.any_raised_iff]

/-! ### The account of every row -/

namespace OutboxWorld

/-- No open drain fetched the row. -/
def Free (w : OutboxWorld) (id : ℕ) : Prop :=
  ∀ i d, w.relays.drains i = some d → id ∉ d.ids

/-- The open drains are sound, the calls and the ended drains are about committed rows, and every
row is accounted for. -/
structure Balanced (w : OutboxWorld) : Prop where
  sound : w.relays.Sound w.rows
  calls : ∀ c ∈ w.calls, ∃ row ∈ w.rows, row.id = c.rowId
  made : ∀ i d, w.relays.drains i = some d → d.Made (w.made i)
  closed : ∀ c ∈ w.closed, c.drain.Sound ∧ c.drain.Made c.calls ∧
    ∀ id ∈ c.drain.ids, ∃ row ∈ w.rows, row.id = id
  attempts : ∀ row ∈ w.rows, row.attempts = committedRaised w.closed row.id
  held : ∀ row ∈ w.rows, ∀ i d, w.relays.drains i = some d → row.id ∈ d.ids →
    returnedCalls w.calls row.id =
      abortedSent w.closed row.id + if row.id ∈ d.sent then 1 else 0
  free : ∀ row ∈ w.rows, w.Free row.id → returnedCalls w.calls row.id =
    abortedSent w.closed row.id + if row.status = .published then 1 else 0

variable {w w' : OutboxWorld}

theorem Balanced.of_init (h : outboxSystem.init w) : w.Balanced := by
  obtain ⟨hids, hrows, hlocks, hdrains, hcalls, hclosed⟩ := h
  refine ⟨⟨hids, ?_, ?_, ?_, ?_⟩, ?_, ?_, ?_, ?_, ?_, ?_⟩
  · intro i d hi
    cases (hdrains i).symm.trans hi
  · intro i d hi
    cases (hdrains i).symm.trans hi
  · intro i d hi
    cases (hdrains i).symm.trans hi
  · intro i j d e _ hi
    cases (hdrains i).symm.trans hi
  · rw [hcalls]
    simp
  · intro i d hi
    cases (hdrains i).symm.trans hi
  · rw [hclosed]
    simp
  · intro row hrow
    rw [hclosed, (hrows row hrow).2]
    rfl
  · intro row _ i d hi
    cases (hdrains i).symm.trans hi
  · intro row hrow _
    rw [hcalls, hclosed, (hrows row hrow).1]
    rfl

namespace Balanced

theorem add (h : w.Balanced) {row : OutboxRow} (hid : ∀ row' ∈ w.rows, row'.id ≠ row.id)
    (hs : row.status = .pending) (ha : row.attempts = 0) :
    ({ w with rows := w.rows ++ [row] } : OutboxWorld).Balanced := by
  have hcalls : returnedCalls w.calls row.id = 0 := by
    refine List.countP_eq_zero.mpr fun c hc => ?_
    obtain ⟨row', hrow', heq⟩ := h.calls c hc
    simp [← heq, hid row' hrow']
  have hsent : abortedSent w.closed row.id = 0 := by
    refine List.countP_eq_zero.mpr fun c hc hmem => ?_
    obtain ⟨hsound, hmade, hids⟩ := h.closed c hc
    simp only [Bool.and_eq_true, hmade.any_returned_iff] at hmem
    obtain ⟨row', hrow', heq⟩ := hids _ (hsound.mem_ids_of_mem_sent hmem.2)
    exact hid row' hrow' heq
  have hraised : committedRaised w.closed row.id = 0 := by
    refine List.countP_eq_zero.mpr fun c hc hmem => ?_
    obtain ⟨hsound, hmade, hids⟩ := h.closed c hc
    simp only [Bool.and_eq_true, hmade.any_raised_iff, Option.map_eq_some_iff] at hmem
    obtain ⟨-, p, hp, hp₁⟩ := hmem
    obtain ⟨row', hrow', heq⟩ := hids _ (hsound.mem_ids_of_failed hp)
    exact hid row' hrow' (heq.trans hp₁)
  have hrows : ∀ id, (∃ row' ∈ w.rows, row'.id = id) →
      ∃ row' ∈ w.rows ++ [row], row'.id = id :=
    fun id ⟨row', hrow', heq⟩ => ⟨row', List.mem_append_left _ hrow', heq⟩
  refine ⟨h.sound.append hid, fun c hc => hrows _ (h.calls c hc), h.made, fun c hc => ?_,
    fun row' hrow' => ?_, fun row' hrow' i d hi hmem => ?_, fun row' hrow' hfree => ?_⟩
  · obtain ⟨hsound, hmade, hids⟩ := h.closed c hc
    exact ⟨hsound, hmade, fun id hmem => hrows id (hids id hmem)⟩
  · rcases List.mem_append.mp hrow' with hrow' | hrow'
    · exact h.attempts row' hrow'
    · obtain rfl := List.mem_singleton.mp hrow'
      rw [ha, hraised]
  · rcases List.mem_append.mp hrow' with hrow' | hrow'
    · exact h.held row' hrow' i d hi hmem
    · obtain rfl := List.mem_singleton.mp hrow'
      obtain ⟨row₀, hrow₀, heq⟩ := h.sound.exists_of_mem_ids hi hmem
      exact absurd heq (hid row₀ hrow₀)
  · rcases List.mem_append.mp hrow' with hrow' | hrow'
    · exact h.free row' hrow' hfree
    · obtain rfl := List.mem_singleton.mp hrow'
      rw [hcalls, hsent, hs]
      rfl

/-- A fetch that finds nothing only clears the calls of its slot. -/
theorem idle (h : w.Balanced) {i : ℕ} (hi : w.relays.drains i = none) :
    ({ w with made := Function.update w.made i [] } : OutboxWorld).Balanced := by
  refine ⟨h.sound, h.calls, fun j d hj => ?_, h.closed, h.attempts, h.held, h.free⟩
  have hji : j ≠ i := by
    rintro rfl
    cases hi.symm.trans hj
  simpa only [Function.update_of_ne hji] using h.made j d hj

/-- A fetched batch has sent nothing yet. -/
theorem openDrain (h : w.Balanced) {i : ℕ} (limit : ℕ) (hi : w.relays.drains i = none) :
    ({ w with
      relays := w.relays.openDrain i (fetchPending w.rows w.relays.locks limit)
      made := Function.update w.made i [] } : OutboxWorld).Balanced := by
  refine ⟨h.sound.openDrain limit, h.calls, fun j d hj => ?_, h.closed, h.attempts,
    fun row hrow j d hj hmem => ?_,
    fun row hrow hfree => h.free row hrow fun j d hj => hfree j d ?_⟩
  · rcases KeyedTable.set_eq_some_iff.mp hj with ⟨rfl, rfl⟩ | ⟨hji, hj⟩
    · simpa only [Function.update_self] using Drain.Made.ofBatch _
    · simpa only [Function.update_of_ne hji] using h.made j d hj
  · rcases KeyedTable.set_eq_some_iff.mp hj with ⟨-, rfl⟩ | ⟨-, hj⟩
    · obtain ⟨row', hrow', heq⟩ := List.mem_map.mp hmem
      obtain ⟨hmem', hs, hlock⟩ := mem_of_mem_fetchPending hrow'
      obtain rfl := eq_of_id_eq h.sound.distinct hmem' hrow heq
      have hfree : w.Free row'.id := fun k e hk hid => hlock (h.sound.locked k e hk _ hid)
      rw [h.free row' hrow hfree, hs]
      rfl
    · exact h.held row hrow j d hj hmem
  · refine (KeyedTable.set_of_ne _ _ ?_).trans hj
    rintro rfl
    cases hi.symm.trans hj

/-- A publish call is counted with the row of its message. -/
theorem publish (h : w.Balanced) {i : ℕ} {d : Drain} {message : OutboxRow}
    {rest : List OutboxRow} (hi : w.relays.drains i = some d) (hf : d.failed = none)
    (hm : d.remaining = message :: rest) (outcome : Except String Unit) :
    ({ w with
      relays := w.relays.goOn i (d.afterPublish message outcome)
      calls := w.calls ++ [message.publishCall outcome]
      made := Function.update w.made i (w.made i ++ [message.publishCall outcome]) } :
      OutboxWorld).Balanced := by
  have hd := h.sound.sound i d hi
  have hids : (d.afterPublish message outcome).ids = d.ids := by cases outcome <;> rfl
  obtain ⟨hmem, hrow, -⟩ :=
    h.sound.fetched_of_mem_remaining hi (hm ▸ List.mem_cons_self : message ∈ d.remaining)
  have hmessage : message.id ∈ d.ids := List.mem_map_of_mem hmem
  have hcount : ∀ id, id ≠ message.id →
      returnedCalls (w.calls ++ [message.publishCall outcome]) id = returnedCalls w.calls id := by
    intro id hid
    rw [returnedCalls_append, if_neg fun hc => hid hc.2.symm, Nat.add_zero]
  refine ⟨?_, fun c hc => ?_, fun j e hj => ?_, h.closed, h.attempts,
    fun row hrow j e hj hid => ?_, fun row hrow hfree => ?_⟩
  · exact h.sound.goOn hi (by cases outcome <;> rfl) (hd.afterPublish hf hm outcome)
  · rcases List.mem_append.mp hc with hc | hc
    · exact h.calls c hc
    · obtain rfl := List.mem_singleton.mp hc
      exact ⟨message, hrow, rfl⟩
  · rcases KeyedTable.set_eq_some_iff.mp hj with ⟨rfl, rfl⟩ | ⟨hji, hj⟩
    · simpa only [Function.update_self] using (h.made j d hi).afterPublish hf hm outcome
    · simpa only [Function.update_of_ne hji] using h.made j e hj
  · rcases KeyedTable.set_eq_some_iff.mp hj with ⟨rfl, rfl⟩ | ⟨hji, hj⟩
    · rw [hids] at hid
      have hold := h.held row hrow j d hi hid
      by_cases heq : row.id = message.id
      · -- the message had not been sent by this drain
        have hnot := (hd.notMem_sent_of_mem_remaining (hm ▸ List.mem_cons_self)).1
        rw [heq, if_neg hnot] at hold
        rw [returnedCalls_append, heq, hold]
        cases outcome with
        | ok u => simp [OutboxRow.publishCall, Drain.afterPublish]
        | error e => simp [OutboxRow.publishCall, Drain.afterPublish, hnot]
      · rw [hcount _ heq, hold]
        cases outcome with
        | ok u => simp [Drain.afterPublish, heq]
        | error e => rfl
    · have heq : row.id ≠ message.id := by
        intro heq
        exact h.sound.disjoint j i e d hji hj hi _ hid (heq ▸ hmessage)
      rw [hcount _ heq]
      exact h.held row hrow j e hj hid
  · have hfree' : w.Free row.id := by
      intro j e hj
      by_cases hji : j = i
      · subst hji
        obtain rfl : d = e := Option.some.inj (hi.symm.trans hj)
        rw [← hids]
        exact hfree j _ (KeyedTable.set_self ..)
      · exact hfree j e ((KeyedTable.set_of_ne _ _ hji).trans hj)
    have heq : row.id ≠ message.id := by
      intro heq
      exact hfree' i d hi (by rw [heq]; exact hmessage)
    rw [hcount _ heq]
    exact h.free row hrow hfree'

/-- The drains other than one that ends did not fetch its rows. -/
theorem free_of_close {i : ℕ} {d : Drain} {id : ℕ} (hid : id ∉ d.ids)
    (hi : w.relays.drains i = some d)
    (hfree : ∀ j e, (w.relays.close i d).drains j = some e → id ∉ e.ids) : w.Free id := by
  intro j e hj
  by_cases hji : j = i
  · subst hji
    obtain rfl : d = e := Option.some.inj (hi.symm.trans hj)
    exact hid
  · exact hfree j e (KeyedTable.erase_eq_some_iff.mpr ⟨hji, hj⟩)

/-- A commit publishes the rows that were sent, and counts an attempt for the one that failed. -/
theorem commit (h : w.Balanced) {i : ℕ} {d : Drain} (now : Instant)
    (hi : w.relays.drains i = some d) (hended : d.loopEnded = true) :
    ({ w with
      rows := w.rows.map (d.writeRow now)
      relays := w.relays.close i d
      closed := w.closed ++ [⟨d, w.made i, true⟩] } : OutboxWorld).Balanced := by
  have hd := h.sound.sound i d hi
  have hmade := h.made i d hi
  have hsent : ∀ id, abortedSent (w.closed ++ [⟨d, w.made i, true⟩]) id =
      abortedSent w.closed id := by
    intro id
    rw [abortedSent_append hmade, if_neg (by simp), Nat.add_zero]
  have hrows : ∀ id, (∃ row ∈ w.rows, row.id = id) →
      ∃ row ∈ w.rows.map (d.writeRow now), row.id = id := by
    rintro id ⟨row, hrow, rfl⟩
    exact ⟨_, List.mem_map_of_mem hrow, (d.writeRow_sameMessage now row).id⟩
  refine ⟨h.sound.of_effect (.committed hi hended), fun c hc => hrows _ (h.calls c hc),
    fun j e hj => h.made j e (KeyedTable.erase_eq_some_iff.mp hj).2, fun c hc => ?_,
    fun row' hrow' => ?_, fun row' hrow' j e hj hid => ?_, fun row' hrow' hfree => ?_⟩
  · rcases List.mem_append.mp hc with hc | hc
    · obtain ⟨hsound, hcalls, hids⟩ := h.closed c hc
      exact ⟨hsound, hcalls, fun id hid => hrows id (hids id hid)⟩
    · obtain rfl := List.mem_singleton.mp hc
      exact ⟨hd, hmade, fun id hid => hrows id (h.sound.exists_of_mem_ids hi hid)⟩
  · obtain ⟨row, hrow, rfl⟩ := List.mem_map.mp hrow'
    rw [(d.writeRow_sameMessage now row).id, committedRaised_append hmade, ← h.attempts row hrow]
    by_cases hf : d.failed.map Prod.fst = some row.id
    · obtain ⟨⟨id, error⟩, hp, rfl : id = row.id⟩ := Option.map_eq_some_iff.mp hf
      rw [Drain.writeRow_of_failed (hd.notMem_sent_of_failed hp) hp, if_pos ⟨rfl, hf⟩]
      rfl
    · have hne : ∀ p, d.failed = some p → p.1 ≠ row.id := by
        rintro p hp hp₁
        exact hf (by rw [hp, Option.map_some, hp₁])
      rw [if_neg fun hc => hf hc.2, Nat.add_zero]
      by_cases hs : row.id ∈ d.sent
      · rw [Drain.writeRow_of_sent hs hne]
        rfl
      · rw [Drain.writeRow_of_notMem hs hne]
  · obtain ⟨row, hrow, rfl⟩ := List.mem_map.mp hrow'
    obtain ⟨hji, hj⟩ := KeyedTable.erase_eq_some_iff.mp hj
    rw [(d.writeRow_sameMessage now row).id] at hid ⊢
    rw [hsent]
    exact h.held row hrow j e hj hid
  · obtain ⟨row, hrow, rfl⟩ := List.mem_map.mp hrow'
    rw [(d.writeRow_sameMessage now row).id] at hfree ⊢
    rw [hsent]
    by_cases hid : row.id ∈ d.ids
    · -- a row of the batch was waiting; it is published exactly when it was sent
      rw [h.held row hrow i d hi hid]
      simp only [hd.writeRow_status now (h.sound.pending_of_mem_ids hi hrow hid)]
    · rw [hd.writeRow_of_notMem_ids now hid]
      exact h.free row hrow (free_of_close hid hi hfree)

/-- An abort leaves the rows as they were, and counts what the drain had sent. -/
theorem abort (h : w.Balanced) {i : ℕ} {d : Drain} (hi : w.relays.drains i = some d) :
    ({ w with
      relays := w.relays.close i d
      closed := w.closed ++ [⟨d, w.made i, false⟩] } : OutboxWorld).Balanced := by
  have hd := h.sound.sound i d hi
  have hmade := h.made i d hi
  refine ⟨h.sound.of_effect (.aborted hi), h.calls,
    fun j e hj => h.made j e (KeyedTable.erase_eq_some_iff.mp hj).2, fun c hc => ?_,
    fun row hrow => ?_, fun row hrow j e hj hid => ?_, fun row hrow hfree => ?_⟩
  · rcases List.mem_append.mp hc with hc | hc
    · exact h.closed c hc
    · obtain rfl := List.mem_singleton.mp hc
      exact ⟨hd, hmade, fun id hid => h.sound.exists_of_mem_ids hi hid⟩
  · rw [committedRaised_append hmade, if_neg (by simp), Nat.add_zero]
    exact h.attempts row hrow
  · obtain ⟨hji, hj⟩ := KeyedTable.erase_eq_some_iff.mp hj
    have hnot : row.id ∉ d.sent := fun hs =>
      h.sound.disjoint j i e d hji hj hi _ hid (hd.mem_ids_of_mem_sent hs)
    rw [abortedSent_append hmade, if_neg fun hc => hnot hc.2, Nat.add_zero]
    exact h.held row hrow j e hj hid
  · by_cases hid : row.id ∈ d.ids
    · rw [h.held row hrow i d hi hid, abortedSent_append hmade,
        h.sound.pending_of_mem_ids hi hrow hid]
      simp
    · have hnot : row.id ∉ d.sent := fun hs => hid (hd.mem_ids_of_mem_sent hs)
      rw [abortedSent_append hmade, if_neg fun hc => hnot hc.2, Nat.add_zero]
      exact h.free row hrow (free_of_close hid hi hfree)

theorem step (h : w.Balanced) {a : OutboxAct} (hstep : w.step a = some w') : w'.Balanced := by
  cases a with
  | add id messageId topic payload headers =>
    simp only [OutboxWorld.step] at hstep
    split_ifs at hstep with hid
    obtain rfl := Option.some.inj hstep
    exact h.add hid rfl rfl
  | relay a =>
    obtain ⟨⟨rows', r'⟩, hrelay, rfl⟩ := Option.map_eq_some_iff.mp hstep
    cases Relays.effect_of_step hrelay with
    | idle =>
      simpa [Relays.publishCall?, Relays.closedDrain?, Relays.madeAfter] using
        h.idle (Relays.drains_of_fetch hrelay)
    | fetched hi =>
      simpa [Relays.publishCall?, Relays.closedDrain?, Relays.madeAfter] using h.openDrain _ hi
    | @published i outcome d message rest hi hf hm =>
      have hnext : d.next? = some message := Relays.next?_eq_some_iff.mpr ⟨hf, rest, hm⟩
      simpa [Relays.publishCall?, Relays.closedDrain?, Relays.madeAfter, hi, hnext] using
        h.publish hi hf hm outcome
    | committed hi hended =>
      simpa [Relays.publishCall?, Relays.closedDrain?, Relays.madeAfter, hi] using
        h.commit _ hi hended
    | aborted hi =>
      simpa [Relays.publishCall?, Relays.closedDrain?, Relays.madeAfter, hi] using h.abort hi

end Balanced

/-- In every reachable state every row is accounted for. -/
theorem balanced_of_reachable (h : outboxSystem.Reachable w) : w.Balanced :=
  h.rec_on_step (P := Balanced) (fun _ => .of_init) fun _ _ _ _ hw hstep => hw.step hstep

/-! ### Rows stay -/

/-- Every row is still there with its message, and `PUBLISHED` rows stay so. -/
def Keeps (w w' : OutboxWorld) : Prop :=
  ∀ row ∈ w.rows, ∃ row' ∈ w'.rows, row.SameMessage row' ∧
    (row.status = .published → row'.status = .published)

theorem Keeps.refl (w : OutboxWorld) : w.Keeps w :=
  fun row hrow => ⟨row, hrow, ⟨rfl, rfl, rfl, rfl⟩, id⟩

theorem Keeps.trans {w'' : OutboxWorld} (h : w.Keeps w') (h' : w'.Keeps w'') : w.Keeps w'' := by
  intro row hrow
  obtain ⟨row', hrow', hsame, hs⟩ := h row hrow
  obtain ⟨row'', hrow'', hsame', hs'⟩ := h' row' hrow'
  exact ⟨row'', hrow'', ⟨hsame'.id.trans hsame.id, hsame'.topic.trans hsame.topic,
    hsame'.payload.trans hsame.payload, hsame'.headers.trans hsame.headers⟩, fun hp => hs' (hs hp)⟩

theorem Balanced.keeps (h : w.Balanced) {a : OutboxAct} (hstep : w.step a = some w') :
    w.Keeps w' := by
  cases a with
  | add id messageId topic payload headers =>
    simp only [OutboxWorld.step] at hstep
    split_ifs at hstep with hid
    obtain rfl := Option.some.inj hstep
    exact fun row hrow => ⟨row, List.mem_append_left _ hrow, ⟨rfl, rfl, rfl, rfl⟩, fun hp => hp⟩
  | relay a =>
    obtain ⟨⟨rows', r'⟩, hrelay, rfl⟩ := Option.map_eq_some_iff.mp hstep
    cases Relays.effect_of_step hrelay with
    | @committed i now d hi =>
      intro row hrow
      refine ⟨_, List.mem_map_of_mem hrow, d.writeRow_sameMessage now row, fun hp => ?_⟩
      have hid : row.id ∉ d.ids := by
        intro hid
        cases hp.symm.trans (h.sound.pending_of_mem_ids hi hrow hid)
      rw [(h.sound.sound i d hi).writeRow_of_notMem_ids now hid, hp]
    | _ => exact Keeps.refl _

theorem keeps_of_run {as : List OutboxAct} (h : outboxSystem.Reachable w)
    (hr : outboxSystem.run w as = some w') : w.Keeps w' :=
  TransitionSystem.run_relates Keeps.refl (fun _ _ _ => Keeps.trans)
    (fun _ _ _ hw hstep => (balanced_of_reachable hw).keeps hstep) h hr

/-- A step makes a publish call exactly when it publishes: for a committed row that waits, and with
the outcome of the step. -/
theorem Balanced.calls_of_step (h : w.Balanced) {a : OutboxAct} (hstep : w.step a = some w') :
    (w'.calls = w.calls ∧ ∀ i outcome, a ≠ .relay (.publish i outcome)) ∨
    ∃ i outcome c, a = .relay (.publish i outcome) ∧ w'.calls = w.calls ++ [c] ∧
      w'.made i = w.made i ++ [c] ∧ (c.returned = true ↔ outcome = .ok ()) ∧
      ∃ row ∈ w.rows, row.status = .pending ∧ c.IsFor row := by
  cases a with
  | add id messageId topic payload headers =>
    simp only [OutboxWorld.step] at hstep
    split_ifs at hstep with hid
    obtain rfl := Option.some.inj hstep
    exact .inl ⟨rfl, fun _ _ heq => by cases heq⟩
  | relay a =>
    obtain ⟨⟨rows', r'⟩, hrelay, rfl⟩ := Option.map_eq_some_iff.mp hstep
    cases Relays.effect_of_step hrelay with
    | @published i outcome d message rest hi hf hm =>
      have hnext : d.next? = some message := Relays.next?_eq_some_iff.mpr ⟨hf, rest, hm⟩
      obtain ⟨-, hrow, hs⟩ :=
        h.sound.fetched_of_mem_remaining hi (hm ▸ List.mem_cons_self : message ∈ d.remaining)
      refine .inr ⟨i, outcome, message.publishCall outcome, rfl, ?_, ?_,
        message.publishCall_returned_iff outcome, message, hrow, hs,
        message.publishCall_isFor outcome⟩
      · simp [Relays.publishCall?, hi, hnext]
      · simp [Relays.madeAfter, Relays.publishCall?, hi, hnext]
    | _ => exact .inl ⟨by simp [Relays.publishCall?], fun _ _ heq => by cases heq⟩

/-- The rows behind a failed one are committed as they were. -/
theorem Balanced.remaining_of_commit (h : w.Balanced) {i : ℕ} {d : Drain} {now : Instant}
    (hi : w.relays.drains i = some d) (hstep : w.step (.relay (.commit i now)) = some w') :
    ∀ row ∈ d.remaining, row ∈ w.rows ∧ row ∈ w'.rows := by
  intro row hrow
  have hd := h.sound.sound i d hi
  obtain ⟨-, hmem, -⟩ := h.sound.fetched_of_mem_remaining hi hrow
  refine ⟨hmem, ?_⟩
  obtain ⟨⟨rows', r'⟩, hrelay, rfl⟩ := Option.map_eq_some_iff.mp hstep
  cases Relays.effect_of_step hrelay with
  | committed hi' =>
    obtain rfl := Option.some.inj (hi.symm.trans hi')
    obtain ⟨hsent, hfailed⟩ := hd.notMem_sent_of_mem_remaining hrow
    refine List.mem_map.mpr ⟨row, hmem, ?_⟩
    exact Drain.writeRow_of_notMem hsent hfailed

end OutboxWorld

/-- **At-least-once delivery with accounted duplication.** In every run of any number of relays on
one outbox: a publish call is made for a committed waiting row only, with its topic, payload and
headers; no row is in two open drains; the calls of a drain go through its batch, which is in the
order of the identifiers, and only the last of them may have raised, so that what was sent is a
prefix of the batch; the rows behind a call that raised are committed as they were; for a row that
no open drain holds, the publish calls that returned are those of aborted drains that had made one,
and one more if it is `PUBLISHED`; the attempts of a row are the committed drains in which its
publish call raised; a `PUBLISHED` row was sent; and no row is ever lost. -/
theorem outbox_accounting {w : OutboxWorld} (h : outboxSystem.Reachable w) :
    (∀ a w', outboxSystem.step w a = some w' →
      (w'.calls = w.calls ∧ ∀ i outcome, a ≠ .relay (.publish i outcome)) ∨
      ∃ i outcome c, a = .relay (.publish i outcome) ∧ w'.calls = w.calls ++ [c] ∧
        w'.made i = w.made i ++ [c] ∧ (c.returned = true ↔ outcome = .ok ()) ∧
        ∃ row ∈ w.rows, row.status = .pending ∧ c.IsFor row) ∧
    (∀ i j d e, i ≠ j → w.relays.drains i = some d → w.relays.drains j = some e →
      ∀ id ∈ d.ids, id ∉ e.ids) ∧
    (∀ d calls, ((∃ i, w.relays.drains i = some d ∧ w.made i = calls) ∨
        ∃ c ∈ w.closed, c.drain = d ∧ c.calls = calls) →
      d.ids.Pairwise (· < ·) ∧ calls.map (·.rowId) <+: d.ids ∧
        (∀ c ∈ calls.dropLast, c.returned = true) ∧
        (calls.filter (·.returned)).map (·.rowId) <+: d.ids) ∧
    (∀ i d now w', w.relays.drains i = some d →
      outboxSystem.step w (.relay (.commit i now)) = some w' →
      ∀ k c, (w.made i)[k]? = some c → c.returned = false →
        ∀ row ∈ d.batch.drop (k + 1), row ∈ w.rows ∧ row ∈ w'.rows) ∧
    (∀ row ∈ w.rows, (∀ i d, w.relays.drains i = some d → row.id ∉ d.ids) →
      returnedCalls w.calls row.id =
        abortedSent w.closed row.id + if row.status = .published then 1 else 0) ∧
    (∀ row ∈ w.rows, row.attempts = committedRaised w.closed row.id) ∧
    (∀ row ∈ w.rows, row.status = .published → 0 < returnedCalls w.calls row.id) ∧
    ∀ as w', outboxSystem.run w as = some w' → ∀ row ∈ w.rows, ∃ row' ∈ w'.rows,
      row.SameMessage row' ∧ (row.status = .published → row'.status = .published) := by
  have hb := OutboxWorld.balanced_of_reachable h
  refine ⟨fun a w' => hb.calls_of_step, hb.sound.disjoint, fun d calls hd => ?_,
    fun i d now w' hi hstep k c hk hc => ?_, hb.free, hb.attempts, ?_,
    fun as w' => OutboxWorld.keeps_of_run h⟩
  · obtain ⟨hsound, hmade⟩ : d.Sound ∧ d.Made calls := by
      rcases hd with ⟨i, hi, rfl⟩ | ⟨c, hc, rfl, rfl⟩
      · exact ⟨hb.sound.sound i d hi, hb.made i d hi⟩
      · exact ⟨(hb.closed c hc).1, (hb.closed c hc).2.1⟩
    exact ⟨hsound.sorted, ⟨_, hmade.ids⟩, hmade.stops, hmade.sent ▸ hsound.sent_prefix_ids⟩
  · rw [(hb.made i d hi).drop_of_raised hk hc]
    exact hb.remaining_of_commit hi hstep
  · intro row hrow hs
    have hfree : w.Free row.id := by
      intro i d hi hid
      cases hs.symm.trans (hb.sound.pending_of_mem_ids hi hrow hid)
    rw [hb.free row hrow hfree, hs, if_pos rfl]
    omega

/-! ### A row that is sent twice -/

/-- A drain of two rows is aborted behind its first call; in the next one the first call raises; the
third sends both rows. -/
def exampleDrains : List OutboxAct :=
  [.add 1 7 "requests" (JobService.requestEvent ⟨1, 2, 3, 4, 5⟩ []) (some [("trace", "t")]),
    .add 2 8 "requests" (JobService.requestEvent ⟨6, 7, 8, 9, 10⟩ []) none,
    .relay (.fetch 0 10), .relay (.publish 0 (.ok ())), .relay (.abort 0),
    .relay (.fetch 1 10), .relay (.publish 1 (.error "timeout")), .relay (.commit 1 0),
    .relay (.fetch 0 10), .relay (.publish 0 (.ok ())), .relay (.publish 0 (.ok ())),
    .relay (.commit 0 0)]

/-- The outbox after the drains. -/
def exampleDrained : OutboxWorld :=
  (outboxSystem.run ⟨[], ⟨∅, fun _ => none⟩, [], fun _ => [], []⟩ exampleDrains).get (by decide)

/-- The first row was sent by the aborted drain and by the last one, and the drain between them left
it an attempt. -/
theorem outbox_accounting_sent_twice : ∃ row ∈ exampleDrained.rows, row.id = 1 ∧
    row.status = .published ∧ row.attempts = 1 ∧ returnedCalls exampleDrained.calls row.id = 2 := by
  have h₀ : outboxSystem.init ⟨[], ⟨∅, fun _ => none⟩, [], fun _ => [], []⟩ := by
    refine ⟨List.nodup_nil, ?_, rfl, fun _ => rfl, rfl, rfl⟩
    exact fun row hrow => absurd hrow List.not_mem_nil
  have hw : outboxSystem.Reachable exampleDrained :=
    TransitionSystem.Reachable.get (T := outboxSystem) exampleDrains h₀ (by decide)
  obtain ⟨-, -, -, -, hfree, hattempts, -⟩ := outbox_accounting hw
  obtain ⟨row, hrow, hid, hs⟩ : ∃ row ∈ exampleDrained.rows, row.id = 1 ∧
      row.status = .published := by decide
  refine ⟨row, hrow, hid, hs, ?_, ?_⟩
  · rw [hattempts row hrow, hid]
    decide
  · rw [hfree row hrow ?_, hs, hid]
    · decide
    · rintro (_ | _ | i) d ⟨⟩

end Morphflow
