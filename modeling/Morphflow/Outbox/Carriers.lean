import Morphflow.Outbox.Relay

/-!
# Rows that carry a job

A job is carried by an outbox row as long as the row waits and no open drain has sent it: whatever
the relays do, the row is going to be published.

## Main definitions

* `Relays.Carries`.

## Main results

* `Relays.Carries.of_quiet`, `Relays.Carries.of_published`: a row carries its job until a publish
  call for it returned.
-/

namespace Morphflow

/-- A waiting row for the job that no open drain has sent. -/
def Relays.Carries (rows : List OutboxRow) (r : Relays) (jobId : Uuid) : Prop :=
  ∃ row ∈ rows, row.status = .pending ∧ row.payload.jobId = jobId ∧
    ∀ i d, r.drains i = some d → row.id ∉ d.sent

namespace Relays.Carries

variable {rows rows' : List OutboxRow} {r r' : Relays} {jobId : Uuid}

theorem of_fresh (hs : r.Sound rows) {row : OutboxRow} (hid : ∀ row' ∈ rows, row'.id ≠ row.id)
    (hp : row.status = .pending) : r.Carries (rows ++ [row]) row.payload.jobId := by
  refine ⟨row, List.mem_append_right _ (List.mem_singleton_self row), hp, rfl,
    fun i d hi hsent => ?_⟩
  obtain ⟨row', hmem, heq⟩ :=
    hs.exists_of_mem_ids hi ((hs.sound i d hi).mem_ids_of_mem_sent hsent)
  exact hid row' hmem heq

theorem append (h : r.Carries rows jobId) (row : OutboxRow) : r.Carries (rows ++ [row]) jobId := by
  obtain ⟨row₀, hmem, hrest⟩ := h
  exact ⟨row₀, List.mem_append_left _ hmem, hrest⟩

/-- A step of the relays leaves a job to its row, or publishes the row. -/
theorem of_effect (h : r.Carries rows jobId) (hs : r.Sound rows) {a : RelayAct}
    (heff : Relays.Effect rows r a rows' r') : r'.Carries rows' jobId ∨
      ∃ i d row rest, a = .publish i (.ok ()) ∧ r.drains i = some d ∧ d.failed = none ∧
        d.remaining = row :: rest ∧ row.payload.jobId = jobId := by
  obtain ⟨row, hmem, hp, hjob, hsent⟩ := h
  cases heff with
  | idle => exact .inl ⟨row, hmem, hp, hjob, hsent⟩
  | fetched =>
    refine .inl ⟨row, hmem, hp, hjob, fun j d hj => ?_⟩
    rcases KeyedTable.set_eq_some_iff.mp hj with ⟨-, rfl⟩ | ⟨-, hj⟩
    · exact List.not_mem_nil
    · exact hsent j d hj
  | @published i outcome d message rest hi hf hm =>
    by_cases hnew : outcome = .ok () ∧ message.id = row.id
    · -- the row itself was sent
      obtain ⟨rfl, hid⟩ := hnew
      obtain ⟨-, hmessage, -⟩ :=
        hs.fetched_of_mem_remaining hi (hm ▸ List.mem_cons_self : message ∈ d.remaining)
      obtain rfl := eq_of_id_eq hs.distinct hmessage hmem hid
      exact .inr ⟨i, d, message, rest, rfl, hi, hf, hm, hjob⟩
    · refine .inl ⟨row, hmem, hp, hjob, fun j e hj => ?_⟩
      rcases KeyedTable.set_eq_some_iff.mp hj with ⟨-, rfl⟩ | ⟨-, hj⟩
      · have hnot := hsent i d hi
        rcases outcome with e | ⟨⟩
        · exact hnot
        · simp only [Drain.afterPublish, List.mem_append, List.mem_singleton, not_or]
          exact ⟨hnot, fun heq => hnew ⟨rfl, heq.symm⟩⟩
      · exact hsent j e hj
  | @committed i now d hi hended =>
    refine .inl ⟨d.writeRow now row, List.mem_map_of_mem hmem, ?_, ?_, fun j e hj => ?_⟩
    · -- only what was sent is no longer waiting
      have hiff := (hs.sound i d hi).writeRow_status now hp
      cases hstatus : (d.writeRow now row).status with
      | pending => rfl
      | published => exact absurd (hiff.mp hstatus) (hsent i d hi)
    · rw [(Drain.writeRow_sameMessage d now row).payload, hjob]
    · rw [(Drain.writeRow_sameMessage d now row).id]
      exact hsent j e (KeyedTable.erase_eq_some_iff.mp hj).2
  | aborted =>
    exact .inl ⟨row, hmem, hp, hjob, fun j e hj => hsent j e (KeyedTable.erase_eq_some_iff.mp hj).2⟩

/-- A step that publishes nothing leaves a job to its row. -/
theorem of_quiet (h : r.Carries rows jobId) (hs : r.Sound rows) {a : RelayAct}
    (hcall : r.publishCall? a = none) (heff : Relays.Effect rows r a rows' r') :
    r'.Carries rows' jobId := by
  rcases h.of_effect hs heff with h' | ⟨i, d, row, rest, rfl, hi, hf, hm, -⟩
  · exact h'
  · have hnext := Relays.next?_eq_some_iff.mpr ⟨hf, rest, hm⟩
    simp [publishCall?, hi, hnext] at hcall

/-- A publish call leaves a job to its row, or has sent the row. -/
theorem of_published (h : r.Carries rows jobId) (hs : r.Sound rows) {i : ℕ} {d : Drain}
    {row : OutboxRow} {rest : List OutboxRow} (hi : r.drains i = some d) (hf : d.failed = none)
    (hm : d.remaining = row :: rest) (outcome : Except String Unit) :
    (r.goOn i (d.afterPublish row outcome)).Carries rows jobId ∨
      (outcome = .ok () ∧ row.payload.jobId = jobId) := by
  have heff : Relays.Effect rows r (.publish i outcome) rows
      (r.goOn i (d.afterPublish row outcome)) := .published hi hf hm
  rcases h.of_effect hs heff with
    h' | ⟨j, e, row', rest', hact, hj, -, hm', hjob⟩
  · exact .inl h'
  · obtain ⟨rfl, rfl⟩ := RelayAct.publish.inj hact
    obtain rfl := Option.some.inj (hi.symm.trans hj)
    obtain ⟨rfl, -⟩ := List.cons.inj (hm.symm.trans hm')
    exact .inr ⟨rfl, hjob⟩

end Relays.Carries

end Morphflow
