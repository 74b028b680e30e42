import Morphflow.Database.Store

/-!
# The outbox relay

`OutboxRelay.drain_once` fetches a batch of waiting rows under row locks, publishes them in order up
to the first failure, and marks in the same transaction what it sent and what failed. A *drain* is
such a transaction under way; any number of them are open at once, each a slot of a table. Its
steps are the fetch, one publish call after the other, and the commit; it may abort at any time,
which undoes its writes and releases its locks, but not what was published.

The rows behind a failed one stay in `remaining`: the loop is left there.

## Main definitions

* `fetchPending`, `markPublished`, `markFailed`.
* `Drain`, `Relays`, `RelayAct`, `Relays.step`, `Relays.publishCall?`.
* `Relays.Sound`.

## Main results

* `Relays.Sound.step`: a step keeps the open drains sound: disjoint, ordered, and in agreement with
  the committed rows.
-/

namespace Morphflow

/-! ### The statements on the outbox -/

/-- `SqlAlchemyOutboxRepository.fetch_pending`: the waiting rows in the order of their identifiers,
those locked by others skipped. -/
def fetchPending (rows : List OutboxRow) (locks : Finset ℕ) (limit : ℕ) : List OutboxRow :=
  ((rows.filter fun row => row.status == .pending && decide (row.id ∉ locks)).insertionSort
    fun a b => a.id ≤ b.id).take limit

/-- The values `mark_published` sets. -/
def OutboxRow.published (row : OutboxRow) (now : Instant) : OutboxRow :=
  { row with status := .published, publishedAt := some now, lastError := none }

/-- The values `mark_failed` sets: the row stays `PENDING`, and of the text of the error the first
500 characters are kept. -/
def OutboxRow.failed (row : OutboxRow) (error : String) : OutboxRow :=
  { row with
    attempts := row.attempts + 1
    lastError := some (String.ofList (error.toList.take 500)) }

/-- `SqlAlchemyOutboxRepository.mark_published` at the clock reading `now`. -/
def markPublished (rows : List OutboxRow) (ids : List ℕ) (now : Instant) : List OutboxRow :=
  if ids = [] then rows
  else rows.map fun row => if row.id ∈ ids then row.published now else row

/-- `SqlAlchemyOutboxRepository.mark_failed`. -/
def markFailed (rows : List OutboxRow) (id : ℕ) (error : String) : List OutboxRow :=
  rows.map fun row => if row.id = id then row.failed error else row

/-! ### Drains -/

/-- A drain under way: the fetched batch, the identifiers sent so far, the failure that left the
loop with the text of its error, and the messages the loop has not come to. -/
structure Drain where
  batch : List OutboxRow
  sent : List ℕ := []
  failed : Option (ℕ × String) := none
  remaining : List OutboxRow

/-- A call of `publish`: for which row, with which arguments, and whether it returned. -/
structure PublishCall where
  rowId : ℕ
  topic : String
  payload : Event
  headers : Option (List (String × String))
  returned : Bool

namespace Drain

/-- The identifiers of the fetched rows. -/
def ids (d : Drain) : List ℕ := d.batch.map (·.id)

/-- The drain of a batch before its first publish call. -/
def ofBatch (batch : List OutboxRow) : Drain := { batch := batch, remaining := batch }

/-- The message the loop publishes next. -/
def next? (d : Drain) : Option OutboxRow :=
  if d.failed.isNone then d.remaining.head? else none

/-- The drain after the publish call for its next message. -/
def afterPublish (d : Drain) (message : OutboxRow) : Except String Unit → Drain
  | .ok () => { d with sent := d.sent ++ [message.id], remaining := d.remaining.tail }
  | .error e => { d with failed := some (message.id, e), remaining := d.remaining.tail }

/-- The loop has ended. -/
def loopEnded (d : Drain) : Bool := d.failed.isSome || d.remaining.isEmpty

/-- The rows the transaction commits: `mark_failed` in the loop, `mark_published` behind it. -/
def writeTo (d : Drain) (rows : List OutboxRow) (now : Instant) : List OutboxRow :=
  let rows := match d.failed with
    | some (id, error) => markFailed rows id error
    | none => rows
  markPublished rows d.sent now

end Drain

/-- The row locks and the open drains. -/
structure Relays where
  locks : Finset ℕ
  drains : KeyedTable ℕ Drain

/-- The steps of the relays; `i` is the slot of a drain. -/
inductive RelayAct
  | fetch (i : ℕ) (batchSize : ℤ)
  | publish (i : ℕ) (outcome : Except String Unit)
  | commit (i : ℕ) (now : Instant)
  | abort (i : ℕ)

/-- The headers of a publish call, `headers or None`. -/
def headersOrNone (headers : Option (List (String × String))) : Option (List (String × String)) :=
  headers.filter fun headers => !headers.isEmpty

/-- The publish call for a message. -/
def OutboxRow.publishCall (message : OutboxRow) (outcome : Except String Unit) : PublishCall where
  rowId := message.id
  topic := message.topic
  payload := message.payload
  headers := headersOrNone message.headers
  returned := match outcome with
    | .ok () => true
    | .error _ => false

namespace Relays

/-- The state after the drain of the slot `i` ended. -/
def close (r : Relays) (i : ℕ) (d : Drain) : Relays where
  locks := r.locks \ d.ids.toFinset
  drains := r.drains.erase i

/-- The state after the drain of the slot `i` took a step. -/
def goOn (r : Relays) (i : ℕ) (d : Drain) : Relays := { r with drains := r.drains.set i d }

/-- The state after a drain of the batch was opened in the slot `i`. -/
def openDrain (r : Relays) (i : ℕ) (batch : List OutboxRow) : Relays where
  locks := r.locks ∪ (batch.map (·.id)).toFinset
  drains := r.drains.set i (.ofBatch batch)

/-- A step on the committed rows and the open drains. A fetch that finds nothing ends its
transaction at once. -/
def step (rows : List OutboxRow) (r : Relays) : RelayAct → Option (List OutboxRow × Relays)
  | .fetch i batchSize =>
    if (r.drains i).isSome then none
    else
      let batch := fetchPending rows r.locks (max 1 batchSize).toNat
      if batch = [] then some (rows, r) else some (rows, r.openDrain i batch)
  | .publish i outcome =>
    (r.drains i).bind fun d => d.next?.map fun message =>
      (rows, r.goOn i (d.afterPublish message outcome))
  | .commit i now =>
    (r.drains i).bind fun d => if d.loopEnded then some (d.writeTo rows now, r.close i d) else none
  | .abort i => (r.drains i).map fun d => (rows, r.close i d)

/-- The publish call that a step makes. -/
def publishCall? (r : Relays) : RelayAct → Option PublishCall
  | .publish i outcome =>
    (r.drains i).bind fun d => d.next?.map fun message => message.publishCall outcome
  | _ => none

end Relays

/-! ### The statements, row by row -/

/-- Two rows carry the same message. -/
structure OutboxRow.SameMessage (row row' : OutboxRow) : Prop where
  id : row'.id = row.id
  topic : row'.topic = row.topic
  payload : row'.payload = row.payload
  headers : row'.headers = row.headers

/-- What the commit of a drain does to a row. -/
def Drain.writeRow (d : Drain) (now : Instant) (row : OutboxRow) : OutboxRow :=
  let row := match d.failed with
    | some (id, error) => if row.id = id then row.failed error else row
    | none => row
  if row.id ∈ d.sent then row.published now else row

namespace Drain

variable {d : Drain} {now : Instant} {rows : List OutboxRow} {row : OutboxRow}

theorem writeTo_eq_map : d.writeTo rows now = rows.map (d.writeRow now) := by
  have hpublished : ∀ rows : List OutboxRow, markPublished rows d.sent now =
      rows.map fun row => if row.id ∈ d.sent then row.published now else row := by
    intro rows
    unfold markPublished
    split_ifs with h
    · simp [h]
    · rfl
  cases hf : d.failed with
  | none =>
    simp only [writeTo, hf, hpublished]
    exact List.map_congr_left fun row _ => by rw [writeRow, hf]
  | some p =>
    simp only [writeTo, hf, hpublished, markFailed, List.map_map]
    exact List.map_congr_left fun row _ => by simp only [Function.comp, writeRow, hf]

theorem writeRow_of_notMem (hs : row.id ∉ d.sent) (hf : ∀ p, d.failed = some p → p.1 ≠ row.id) :
    d.writeRow now row = row := by
  unfold writeRow
  cases hd : d.failed with
  | none => simp [hs]
  | some p => simp [Ne.symm (hf p hd), hs]

theorem writeRow_of_sent (hs : row.id ∈ d.sent) (hf : ∀ p, d.failed = some p → p.1 ≠ row.id) :
    d.writeRow now row = row.published now := by
  unfold writeRow
  cases hd : d.failed with
  | none => simp [hs]
  | some p => simp [Ne.symm (hf p hd), hs]

/-- The row whose publish call raised has one attempt more. -/
theorem writeRow_of_failed {error : String} (hs : row.id ∉ d.sent)
    (hf : d.failed = some (row.id, error)) : d.writeRow now row = row.failed error := by
  simp [writeRow, hf, hs, OutboxRow.failed]

theorem writeRow_sameMessage (d : Drain) (now : Instant) (row : OutboxRow) :
    row.SameMessage (d.writeRow now row) := by
  unfold writeRow
  cases d.failed with
  | none => dsimp only; split_ifs <;> exact ⟨rfl, rfl, rfl, rfl⟩
  | some p => dsimp only; split_ifs <;> exact ⟨rfl, rfl, rfl, rfl⟩

theorem pending_of_writeRow (h : (d.writeRow now row).status = .pending) :
    row.status = .pending := by
  unfold writeRow at h
  cases hf : d.failed with
  | none =>
    simp only [hf] at h
    split_ifs at h
    · cases h
    · exact h
  | some failure =>
    simp only [hf] at h
    split_ifs at h
    · cases h
    · exact h
    · cases h
    · exact h

end Drain

/-! ### Sound drains -/

/-- An open drain: its batch is in the order of the identifiers, and the loop has gone through a
part of it, of which it sent all but the one that failed. -/
structure Drain.Sound (d : Drain) : Prop where
  sorted : d.ids.Pairwise (· < ·)
  progress : ∃ visited, d.batch = visited ++ d.remaining ∧
    visited.map (·.id) = d.sent ++ (d.failed.map Prod.fst).toList

/-- The open drains agree with the committed rows: they are sound, their batches are committed rows
that wait and are locked, and no row is in two of them. -/
structure Relays.Sound (rows : List OutboxRow) (r : Relays) : Prop where
  distinct : (rows.map (·.id)).Nodup
  sound : ∀ i d, r.drains i = some d → d.Sound
  fetched : ∀ i d, r.drains i = some d → ∀ row ∈ d.batch, row ∈ rows ∧ row.status = .pending
  locked : ∀ i d, r.drains i = some d → ∀ id ∈ d.ids, id ∈ r.locks
  disjoint : ∀ i j d e, i ≠ j → r.drains i = some d → r.drains j = some e →
    ∀ id ∈ d.ids, id ∉ e.ids

theorem eq_of_id_eq {rows : List OutboxRow} (h : (rows.map (·.id)).Nodup) {a b : OutboxRow}
    (ha : a ∈ rows) (hb : b ∈ rows) (hid : a.id = b.id) : a = b :=
  List.inj_on_of_nodup_map h ha hb hid

section Fetch

variable {rows : List OutboxRow} {locks : Finset ℕ} {limit : ℕ} {row : OutboxRow}

/-- A fetched row is committed, waits and is not locked. -/
theorem mem_of_mem_fetchPending (h : row ∈ fetchPending rows locks limit) :
    row ∈ rows ∧ row.status = .pending ∧ row.id ∉ locks := by
  have hmem := List.mem_of_mem_take h
  rw [List.mem_insertionSort, List.mem_filter, Bool.and_eq_true, beq_iff_eq,
    decide_eq_true_iff] at hmem
  exact hmem

/-- The fetched rows are in the order of their identifiers. -/
theorem pairwise_fetchPending (h : (rows.map (·.id)).Nodup) :
    ((fetchPending rows locks limit).map (·.id)).Pairwise (· < ·) := by
  let r : OutboxRow → OutboxRow → Prop := fun a b => a.id ≤ b.id
  have : Std.Total r := ⟨fun a b => Nat.le_total a.id b.id⟩
  have : IsTrans OutboxRow r := ⟨fun a b c => Nat.le_trans⟩
  have hsorted := List.pairwise_insertionSort r
    (rows.filter fun row => row.status == .pending && decide (row.id ∉ locks))
  have hle : ((fetchPending rows locks limit).map (·.id)).Pairwise (· ≤ ·) :=
    List.pairwise_map.mpr (hsorted.sublist (List.take_sublist ..))
  have hnodup : ((fetchPending rows locks limit).map (·.id)).Nodup := by
    refine List.Nodup.sublist ((List.take_sublist ..).map _) ?_
    refine ((List.perm_insertionSort r _).map _).nodup_iff.mpr ?_
    exact h.sublist (List.filter_sublist.map _)
  exact (hle.and hnodup).imp fun hab => lt_of_le_of_ne hab.1 hab.2

end Fetch

namespace Drain.Sound

variable {d : Drain} {row : OutboxRow}

theorem mem_ids_of_mem_sent (h : d.Sound) {id : ℕ} (hid : id ∈ d.sent) : id ∈ d.ids := by
  obtain ⟨visited, hbatch, hvisited⟩ := h.progress
  rw [ids, hbatch, List.map_append, hvisited]
  simp [hid]

theorem mem_ids_of_failed (h : d.Sound) {p : ℕ × String} (hp : d.failed = some p) :
    p.1 ∈ d.ids := by
  obtain ⟨visited, hbatch, hvisited⟩ := h.progress
  rw [ids, hbatch, List.map_append, hvisited]
  simp [hp]

/-- The identifiers sent are a prefix of those fetched. -/
theorem sent_prefix_ids (h : d.Sound) : d.sent <+: d.ids := by
  obtain ⟨visited, hbatch, hvisited⟩ := h.progress
  rw [ids, hbatch, List.map_append, hvisited, List.append_assoc]
  exact List.prefix_append ..

/-- What failed was not sent. -/
theorem notMem_sent_of_failed (h : d.Sound) {p : ℕ × String} (hp : d.failed = some p) :
    p.1 ∉ d.sent := by
  obtain ⟨visited, hbatch, hvisited⟩ := h.progress
  have hsorted := h.sorted
  rw [ids, hbatch, List.map_append, hvisited, hp] at hsorted
  have hlt := (List.pairwise_append.mp (List.pairwise_append.mp hsorted).1).2.2
  exact fun hmem => absurd (hlt p.1 hmem p.1 (by simp)) (lt_irrefl _)

/-- A message the loop has not come to was neither sent nor did it fail. -/
theorem notMem_sent_of_mem_remaining (h : d.Sound) (hrow : row ∈ d.remaining) :
    row.id ∉ d.sent ∧ ∀ p, d.failed = some p → p.1 ≠ row.id := by
  obtain ⟨visited, hbatch, hvisited⟩ := h.progress
  have hsorted := h.sorted
  rw [ids, hbatch, List.map_append, hvisited] at hsorted
  have hlt := (List.pairwise_append.mp hsorted).2.2
  have hmem : row.id ∈ d.remaining.map (·.id) := List.mem_map_of_mem hrow
  refine ⟨fun hs => ?_, fun p hp heq => ?_⟩
  · exact absurd (hlt _ (List.mem_append_left _ hs) _ hmem) (lt_irrefl _)
  · exact absurd (hlt p.1 (List.mem_append_right _ (by simp [hp])) _ (heq ▸ hmem)) (lt_irrefl _)

/-- What the loop has not come to is in the order of the identifiers. -/
theorem sorted_remaining (h : d.Sound) : d.remaining.Pairwise fun a b => a.id < b.id := by
  obtain ⟨visited, hbatch, -⟩ := h.progress
  have hsorted := List.pairwise_map.mp h.sorted
  rw [hbatch] at hsorted
  exact (List.pairwise_append.mp hsorted).2.1

/-- The commit of a drain leaves the rows it did not fetch alone. -/
theorem writeRow_of_notMem_ids (h : d.Sound) (now : Instant) (hrow : row.id ∉ d.ids) :
    d.writeRow now row = row := by
  refine writeRow_of_notMem (fun hs => hrow (h.mem_ids_of_mem_sent hs)) fun p hp heq => ?_
  exact hrow (heq ▸ h.mem_ids_of_failed hp)

/-- The commit of a drain publishes the waiting rows that were sent, and no others. -/
theorem writeRow_status (h : d.Sound) (now : Instant) (hs : row.status = .pending) :
    (d.writeRow now row).status = .published ↔ row.id ∈ d.sent := by
  by_cases hsent : row.id ∈ d.sent
  · have hne : ∀ p, d.failed = some p → p.1 ≠ row.id := by
      intro p hp heq
      exact h.notMem_sent_of_failed hp (by rw [heq]; exact hsent)
    rw [writeRow_of_sent hsent hne]
    exact ⟨fun _ => hsent, fun _ => rfl⟩
  · refine ⟨fun hp => absurd hp ?_, fun hmem => absurd hmem hsent⟩
    by_cases hf : ∃ error, d.failed = some (row.id, error)
    · obtain ⟨error, hf⟩ := hf
      simp [writeRow_of_failed hsent hf, OutboxRow.failed, hs]
    · rw [writeRow_of_notMem hsent fun p hp heq => hf ⟨p.2, by rw [hp, ← heq]⟩, hs]
      decide

theorem ofBatch {batch : List OutboxRow} (h : (batch.map (·.id)).Pairwise (· < ·)) :
    (Drain.ofBatch batch).Sound :=
  ⟨h, [], rfl, rfl⟩

theorem afterPublish (h : d.Sound) {message : OutboxRow} {rest : List OutboxRow}
    (hf : d.failed = none) (hm : d.remaining = message :: rest) (outcome : Except String Unit) :
    (d.afterPublish message outcome).Sound := by
  obtain ⟨visited, hbatch, hvisited⟩ := h.progress
  rw [hf] at hvisited
  rcases outcome with e | ⟨⟩
  · refine ⟨h.sorted, visited ++ [message], ?_, ?_⟩
    · simp [Drain.afterPublish, hbatch, hm]
    · simpa [Drain.afterPublish] using hvisited
  · refine ⟨h.sorted, visited ++ [message], ?_, ?_⟩
    · simp [Drain.afterPublish, hbatch, hm]
    · simpa [Drain.afterPublish, hf] using hvisited

end Drain.Sound

/-! ### The steps of the relays -/

namespace Relays

/-- What a step does to the committed rows and the open drains. -/
inductive Effect (rows : List OutboxRow) (r : Relays) : RelayAct → List OutboxRow → Relays → Prop
  /-- Nothing was waiting. -/
  | idle {i : ℕ} {batchSize : ℤ} : Effect rows r (.fetch i batchSize) rows r
  /-- A batch was fetched and locked. -/
  | fetched {i : ℕ} {batchSize : ℤ} (hi : r.drains i = none) :
      Effect rows r (.fetch i batchSize) rows
        (r.openDrain i (fetchPending rows r.locks (max 1 batchSize).toNat))
  /-- The next message was published, or its publish call raised. -/
  | published {i : ℕ} {outcome : Except String Unit} {d : Drain} {message : OutboxRow}
      {rest : List OutboxRow} (hi : r.drains i = some d) (hf : d.failed = none)
      (hm : d.remaining = message :: rest) :
      Effect rows r (.publish i outcome) rows (r.goOn i (d.afterPublish message outcome))
  /-- The drain was committed. -/
  | committed {i : ℕ} {now : Instant} {d : Drain} (hi : r.drains i = some d)
      (hended : d.loopEnded = true) :
      Effect rows r (.commit i now) (rows.map (d.writeRow now)) (r.close i d)
  /-- The drain was aborted. -/
  | aborted {i : ℕ} {d : Drain} (hi : r.drains i = some d) :
      Effect rows r (.abort i) rows (r.close i d)

theorem next?_eq_some_iff {d : Drain} {message : OutboxRow} : d.next? = some message ↔
    d.failed = none ∧ ∃ rest, d.remaining = message :: rest := by
  unfold Drain.next?
  cases d.failed with
  | some p => simp
  | none => cases d.remaining <;> simp

theorem effect_of_step {rows rows' : List OutboxRow} {r r' : Relays} {a : RelayAct}
    (h : r.step rows a = some (rows', r')) : Effect rows r a rows' r' := by
  cases a with
  | fetch i batchSize =>
    simp only [step] at h
    split_ifs at h with hi hb
    · obtain ⟨rfl, rfl⟩ := Prod.mk.inj (Option.some.inj h)
      exact .idle
    · obtain ⟨rfl, rfl⟩ := Prod.mk.inj (Option.some.inj h)
      exact .fetched (by simpa using hi)
  | publish i outcome =>
    simp only [step, Option.bind_eq_some_iff, Option.map_eq_some_iff, Prod.mk.injEq] at h
    obtain ⟨d, hi, message, hnext, rfl, rfl⟩ := h
    obtain ⟨hf, rest, hm⟩ := next?_eq_some_iff.mp hnext
    exact .published hi hf hm
  | commit i now =>
    simp only [step, Option.bind_eq_some_iff] at h
    obtain ⟨d, hi, h⟩ := h
    split_ifs at h with hended
    obtain ⟨rfl, rfl⟩ := Prod.mk.inj (Option.some.inj h)
    rw [Drain.writeTo_eq_map]
    exact .committed hi hended
  | abort i =>
    simp only [step, Option.map_eq_some_iff, Prod.mk.injEq] at h
    obtain ⟨d, hi, rfl, rfl⟩ := h
    exact .aborted hi

/-- The rows after a step carry the messages of the rows before it, and wait only if these do. -/
theorem Effect.exists_sameMessage {rows rows' : List OutboxRow} {r r' : Relays} {a : RelayAct}
    (h : Effect rows r a rows' r') {row : OutboxRow} (hrow : row ∈ rows') :
    ∃ row₀ ∈ rows, row₀.SameMessage row ∧ (row.status = .pending → row₀.status = .pending) := by
  cases h with
  | @committed i now d =>
    obtain ⟨row₀, hrow₀, rfl⟩ := List.mem_map.mp hrow
    exact ⟨row₀, hrow₀, d.writeRow_sameMessage now row₀, Drain.pending_of_writeRow⟩
  | _ => exact ⟨row, hrow, ⟨rfl, rfl, rfl, rfl⟩, id⟩

theorem drains_of_fetch {rows : List OutboxRow} {r : Relays} {i : ℕ} {batchSize : ℤ}
    {p : List OutboxRow × Relays} (h : r.step rows (.fetch i batchSize) = some p) :
    r.drains i = none := by
  simp only [step] at h
  split_ifs at h with hi
  · simpa using hi
  · simpa using hi

namespace Sound

variable {rows rows' : List OutboxRow} {r r' : Relays}

theorem initial : Sound [] ⟨∅, fun _ => none⟩ where
  distinct := List.nodup_nil
  sound i d hi := by cases hi
  fetched i d hi := by cases hi
  locked i d hi := by cases hi
  disjoint i j d e _ hi := by cases hi

theorem exists_of_mem_ids (h : Sound rows r) {i : ℕ} {d : Drain} (hi : r.drains i = some d)
    {id : ℕ} (hid : id ∈ d.ids) : ∃ row ∈ rows, row.id = id := by
  obtain ⟨row, hrow, rfl⟩ := List.mem_map.mp hid
  exact ⟨row, (h.fetched i d hi row hrow).1, rfl⟩

theorem pending_of_mem_ids (h : Sound rows r) {i : ℕ} {d : Drain} (hi : r.drains i = some d)
    {row : OutboxRow} (hrow : row ∈ rows) (hid : row.id ∈ d.ids) : row.status = .pending := by
  obtain ⟨row₀, hrow₀, heq⟩ := List.mem_map.mp hid
  obtain ⟨hmem, hpending⟩ := h.fetched i d hi row₀ hrow₀
  obtain rfl := eq_of_id_eq h.distinct hmem hrow heq
  exact hpending

/-- What is still to be sent is in the batch. -/
theorem fetched_of_mem_remaining (h : Sound rows r) {i : ℕ} {d : Drain}
    (hi : r.drains i = some d) {row : OutboxRow} (hrow : row ∈ d.remaining) :
    row ∈ d.batch ∧ row ∈ rows ∧ row.status = .pending := by
  obtain ⟨visited, hbatch, -⟩ := (h.sound i d hi).progress
  have hmem : row ∈ d.batch := hbatch ▸ List.mem_append_right _ hrow
  exact ⟨hmem, h.fetched i d hi row hmem⟩

theorem openDrain (h : Sound rows r) {i : ℕ} (limit : ℕ) :
    Sound rows (r.openDrain i (fetchPending rows r.locks limit)) where
  distinct := h.distinct
  sound j d hj := by
    rcases KeyedTable.set_eq_some_iff.mp hj with ⟨-, rfl⟩ | ⟨-, hj⟩
    · exact .ofBatch (pairwise_fetchPending h.distinct)
    · exact h.sound j d hj
  fetched j d hj row hrow := by
    rcases KeyedTable.set_eq_some_iff.mp hj with ⟨-, rfl⟩ | ⟨-, hj⟩
    · obtain ⟨hmem, hs, -⟩ := mem_of_mem_fetchPending hrow
      exact ⟨hmem, hs⟩
    · exact h.fetched j d hj row hrow
  locked j d hj id hid := by
    rcases KeyedTable.set_eq_some_iff.mp hj with ⟨-, rfl⟩ | ⟨-, hj⟩
    · exact Finset.mem_union_right _ (List.mem_toFinset.mpr hid)
    · exact Finset.mem_union_left _ (h.locked j d hj id hid)
  disjoint j k d e hjk hj hk id hid hid' := by
    -- a fetched row is not locked, and those of the other drains are
    have hnew : ∀ id ∈ (Drain.ofBatch (fetchPending rows r.locks limit)).ids, id ∉ r.locks := by
      intro id hid
      obtain ⟨row, hrow, rfl⟩ := List.mem_map.mp hid
      exact (mem_of_mem_fetchPending hrow).2.2
    rcases KeyedTable.set_eq_some_iff.mp hj with ⟨rfl, rfl⟩ | ⟨-, hj'⟩
    · rcases KeyedTable.set_eq_some_iff.mp hk with ⟨rfl, rfl⟩ | ⟨-, hk'⟩
      · exact hjk rfl
      · exact hnew id hid (h.locked k e hk' id hid')
    · rcases KeyedTable.set_eq_some_iff.mp hk with ⟨rfl, rfl⟩ | ⟨-, hk'⟩
      · exact hnew id hid' (h.locked j d hj' id hid)
      · exact h.disjoint j k d e hjk hj' hk' id hid hid'

theorem goOn (h : Sound rows r) {i : ℕ} {d d' : Drain} (hi : r.drains i = some d)
    (hbatch : d'.batch = d.batch) (hd' : d'.Sound) : Sound rows (r.goOn i d') where
  distinct := h.distinct
  sound j e hj := by
    rcases KeyedTable.set_eq_some_iff.mp hj with ⟨-, rfl⟩ | ⟨-, hj⟩
    · exact hd'
    · exact h.sound j e hj
  fetched j e hj row hrow := by
    rcases KeyedTable.set_eq_some_iff.mp hj with ⟨-, rfl⟩ | ⟨-, hj⟩
    · exact h.fetched i d hi row (hbatch ▸ hrow)
    · exact h.fetched j e hj row hrow
  locked j e hj id hid := by
    rcases KeyedTable.set_eq_some_iff.mp hj with ⟨-, rfl⟩ | ⟨-, hj⟩
    · exact h.locked i d hi id (by rwa [Drain.ids, ← hbatch])
    · exact h.locked j e hj id hid
  disjoint j k e f hjk hj hk id hid := by
    rcases KeyedTable.set_eq_some_iff.mp hj with ⟨rfl, rfl⟩ | ⟨-, hj'⟩
    · rcases KeyedTable.set_eq_some_iff.mp hk with ⟨rfl, rfl⟩ | ⟨-, hk'⟩
      · exact absurd rfl hjk
      · exact h.disjoint j k d f hjk hi hk' id (by rwa [Drain.ids, ← hbatch])
    · rcases KeyedTable.set_eq_some_iff.mp hk with ⟨rfl, rfl⟩ | ⟨-, hk'⟩
      · rw [Drain.ids, hbatch]
        exact h.disjoint j k e d hjk hj' hi id hid
      · exact h.disjoint j k e f hjk hj' hk' id hid

/-- A drain may end, with rows that agree with the old ones outside of its batch. -/
theorem close (h : Sound rows r) {i : ℕ} {d : Drain} (hi : r.drains i = some d)
    (hdistinct : (rows'.map (·.id)).Nodup)
    (hkeep : ∀ row ∈ rows, row.id ∉ d.ids → row ∈ rows') : Sound rows' (r.close i d) where
  distinct := hdistinct
  sound j e hj := h.sound j e (KeyedTable.erase_eq_some_iff.mp hj).2
  fetched j e hj row hrow := by
    obtain ⟨hji, hj⟩ := KeyedTable.erase_eq_some_iff.mp hj
    obtain ⟨hmem, hs⟩ := h.fetched j e hj row hrow
    exact ⟨hkeep row hmem (h.disjoint j i e d hji hj hi _ (List.mem_map_of_mem hrow)), hs⟩
  locked j e hj id hid := by
    obtain ⟨hji, hj⟩ := KeyedTable.erase_eq_some_iff.mp hj
    refine Finset.mem_sdiff.mpr ⟨h.locked j e hj id hid, ?_⟩
    rw [List.mem_toFinset]
    exact h.disjoint j i e d hji hj hi id hid
  disjoint j k e f hjk hj hk := h.disjoint j k e f hjk (KeyedTable.erase_eq_some_iff.mp hj).2
    (KeyedTable.erase_eq_some_iff.mp hk).2

theorem of_effect (h : Sound rows r) {a : RelayAct} (heff : Effect rows r a rows' r') :
    Sound rows' r' := by
  cases heff with
  | idle => exact h
  | fetched => exact h.openDrain _
  | @published i outcome d message rest hi hf hm =>
    refine h.goOn hi ?_ ((h.sound i d hi).afterPublish hf hm outcome)
    cases outcome <;> rfl
  | @committed i now d hi =>
    have hids : (rows.map (d.writeRow now)).map (·.id) = rows.map (·.id) := by
      rw [List.map_map]
      exact List.map_congr_left fun row _ => (Drain.writeRow_sameMessage d now row).id
    refine h.close hi (by rw [hids]; exact h.distinct) fun row hrow hid => ?_
    rw [← (h.sound i d hi).writeRow_of_notMem_ids now hid]
    exact List.mem_map_of_mem hrow
  | aborted hi => exact h.close hi h.distinct fun row hrow _ => hrow

theorem append (h : Sound rows r) {row : OutboxRow} (hid : ∀ row' ∈ rows, row'.id ≠ row.id) :
    Sound (rows ++ [row]) r where
  distinct := by
    rw [List.map_append, List.nodup_append]
    refine ⟨h.distinct, List.nodup_singleton _, ?_⟩
    rintro id hmem id' hmem' rfl
    obtain ⟨row', hrow', rfl⟩ := List.mem_map.mp hmem
    exact hid row' hrow' (List.mem_singleton.mp hmem')
  sound := h.sound
  fetched i d hi row' hrow' :=
    ⟨List.mem_append_left _ (h.fetched i d hi row' hrow').1, (h.fetched i d hi row' hrow').2⟩
  locked := h.locked
  disjoint := h.disjoint

end Sound

end Relays

end Morphflow
