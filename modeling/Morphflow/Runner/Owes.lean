import Morphflow.Runner.Frontier

/-!
# What a group owes

A group *owes* a message when it is at or behind the frontier of its partition and its handling, if
it is in hand, will not settle it without a trace. Which messages are wanted and which handlings
lose their message is left open; the module says how the debt moves with the steps of a group.

## Main definitions

* `Group.Owes`.

## Main results

* `Group.Owes.loop`: the poll loop keeps a debt whose message it does not skip.
* `Group.Owes.goOn`, `Group.Owes.settle`, `Group.Owes.seek`: the debt and the message in hand.
* `Group.Owes.exists_record`: what is owed has not been committed.
-/

namespace Morphflow

variable {P V H : Type*}

theorem getElem?_offset {topic : String} {log : List (LogRecord V)} {m : Message V}
    (h : m ∈ messagesOf topic log) : (messagesOf topic log)[m.offset]? = some m := by
  obtain ⟨k, hk⟩ := List.mem_iff_getElem?.mp h
  rwa [offset_of_getElem? hk]

namespace Group

/-- A wanted message is not settled, and its handling does not lose it. -/
def Owes (cfg : GroupConfig P V H) (g : Group P V H) (wanted : Message V → Prop)
    (lost : Message V → Handling V H → Prop) : Prop :=
  ∃ p, ∃ m ∈ g.messages cfg p, g.frontier p ≤ m.offset ∧ wanted m ∧
    ∀ m' x, g.handling? p = some (m', x) → m'.offset = m.offset → ¬ lost m' x

variable {cfg : GroupConfig P V H} {g g' : Group P V H} {p : P} {t : PartitionTask V H}
  {m : Message V} {x : Handling V H} {wanted : Message V → Prop}
  {lost lost' : Message V → Handling V H → Prop}

theorem Sound.eq_of_handled (h : g.Sound cfg) (hx : g.handling? p = some (m, x)) {m' : Message V}
    (hm' : m' ∈ g.messages cfg p) (ho : m.offset = m'.offset) : m = m' := by
  have hm := getElem?_offset (List.mem_of_getElem? (h.handled_at_frontier hx))
  rw [ho] at hm
  exact Option.some.inj (hm.symm.trans (getElem?_offset hm'))

namespace Owes

theorem mono (h : g.Owes cfg wanted lost) (hlost : ∀ m y, lost' m y → lost m y) :
    g.Owes cfg wanted lost' := by
  obtain ⟨q, m₀, hm₀, hle, hw, hkeep⟩ := h
  exact ⟨q, m₀, hm₀, hle, hw, fun m' y hy ho hl => hkeep m' y hy ho (hlost m' y hl)⟩

/-- A wanted message in hand is owed when its handling does not lose it. -/
theorem of_handling (hs : g.Sound cfg) (hx : g.handling? p = some (m, x)) (hw : wanted m)
    (hl : ¬ lost m x) : g.Owes cfg wanted lost := by
  have hat := hs.handled_at_frontier hx
  refine ⟨p, m, List.mem_of_getElem? hat, (offset_of_getElem? hat).ge, hw, fun m' x' hx' _ => ?_⟩
  obtain ⟨rfl, rfl⟩ := Prod.mk.inj (Option.some.inj (hx.symm.trans hx'))
  exact hl

/-- What is owed was not committed. -/
theorem exists_record (h : g.Owes cfg wanted lost) (hs : g.Sound cfg) :
    ∃ p o record, (g.log p)[o]? = some record ∧ g.committed p ≤ o ∧
      wanted ⟨cfg.topicOf p, o, record.value, record.headers⟩ := by
  obtain ⟨p, m, hm, hle, hw, -⟩ := h
  have ho := getElem?_offset hm
  rw [messagesOf_getElem?] at ho
  obtain ⟨record, hrecord, heq⟩ := Option.map_eq_some_iff.mp ho
  refine ⟨p, m.offset, record, hrecord, (hs.committed_le_frontier p).trans hle, ?_⟩
  rwa [heq]

variable [DecidableEq P]

theorem append (h : g.Owes cfg wanted lost) (p : P) (record : LogRecord V) :
    (g.append p record).Owes cfg wanted lost := by
  obtain ⟨q, m, hm, hrest⟩ := h
  refine ⟨q, m, ?_, hrest⟩
  by_cases hq : q = p
  · subst hq
    simp only [messages, Group.append, Function.update_self, messagesOf_append]
    exact List.mem_append_left _ hm
  · simpa only [messages, Group.append, Function.update_of_ne hq] using hm

/-- A wanted record that was appended is owed. -/
theorem of_append (hs : g.Sound cfg) (p : P) (record : LogRecord V)
    (hw : wanted ⟨cfg.topicOf p, (g.log p).length, record.value, record.headers⟩) :
    (g.append p record).Owes cfg wanted lost := by
  refine ⟨p, ⟨cfg.topicOf p, (g.log p).length, record.value, record.headers⟩, ?_,
    hs.frontier_le_length p, hw, fun m' x hx ho => ?_⟩
  · simp only [messages, Group.append, Function.update_self, messagesOf_append]
    exact List.mem_append_right _ (List.mem_singleton_self _)
  · -- the message in hand is an older one
    have hat := hs.handled_at_frontier hx
    have hlt := (List.getElem?_eq_some_iff.mp hat).1
    rw [← offset_of_getElem? hat, ho] at hlt
    simp [messages, messagesOf] at hlt

/-- A handling may go on when it does not come to lose a wanted message. -/
theorem goOn (h : g.Owes cfg wanted lost) (hs : g.Sound cfg) (ht : g.openTask? p = some t)
    (hh : t.handling = some (m, x)) {x' : Handling V H}
    (hx : wanted m → lost m x' → lost m x) :
    (g.setTask p { t with handling := some (m, x') }).Owes cfg wanted lost := by
  obtain ⟨q, m₀, hm₀, hle, hw, hkeep⟩ := h
  refine ⟨q, m₀, hm₀, by rwa [frontier_setTask], hw, fun m' y hy ho hl => ?_⟩
  rcases handling?_of_goOn ht hy with ⟨rfl, rfl, rfl⟩ | hold
  · have hcur := (handling?_of_openTask? ht).trans hh
    obtain rfl := hs.eq_of_handled hcur hm₀ ho
    exact hkeep _ _ hcur rfl (hx hw hl)
  · exact hkeep m' y hold ho hl

/-- The message in hand may be settled when it is not wanted or its handling lost it. -/
theorem settle (h : g.Owes cfg wanted lost) (hs : g.Sound cfg) (ht : g.openTask? p = some t)
    (hh : t.handling = some (m, x)) (hx : wanted m → lost m x) :
    (g.settle p t m t.remaining).Owes cfg wanted lost := by
  obtain ⟨q, m₀, hm₀, hle, hw, hkeep⟩ := h
  refine ⟨q, m₀, hm₀, ?_, hw, fun m' y hy => hkeep m' y (handling?_of_settle hy)⟩
  by_cases hq : q = p
  · subst hq
    have hcur := (handling?_of_openTask? ht).trans hh
    have hat := offset_of_getElem? (hs.handled_at_frontier hcur)
    obtain ⟨i, hp⟩ := hs.worker_of_openTask? ht
    have hne : m₀.offset ≠ g.frontier q := by
      intro heq
      obtain rfl := hs.eq_of_handled hcur hm₀ (hat.trans heq.symm)
      exact hkeep _ _ hcur rfl (hx hw)
    rw [frontier_settle_self hp]
    omega
  · rwa [frontier_settle_of_ne hq]

/-- The loop may be left at a message. -/
theorem seek (h : g.Owes cfg wanted lost) (t : PartitionTask V H) (m : Message V) :
    (g.setReader p ((g.readers p).seek t m)).Owes cfg wanted lost := by
  obtain ⟨q, m₀, hm₀, hle, hw, hkeep⟩ := h
  exact ⟨q, m₀, hm₀, by rwa [frontier_seek], hw, fun m' y hy => hkeep m' y (handling?_of_seek hy)⟩

/-- The poll loop may take a step, when it does not skip the wanted messages and no handling loses
its message from the start. -/
theorem loop [Fintype P] (h : g.Owes cfg wanted lost) (hs : g.Sound cfg)
    (hskip : ∀ p, ∀ m ∈ g.messages cfg p, wanted m → m.skipped cfg.settings = false)
    (hfresh : ∀ i m, ¬ lost m (.calling (cfg.role i m.value))) {a : GroupAct P V H}
    (hloops : a.loops = true) (heff : Group.Effect cfg g a g') : g'.Owes cfg wanted lost := by
  obtain ⟨q, m₀, hm₀, hle, hw, hkeep⟩ := h
  have hmessages : g'.messages cfg q = g.messages cfg q := by
    rw [messages, messages, heff.log_eq hloops]
  refine ⟨q, m₀, hmessages ▸ hm₀, ?_, hw, fun m' y hy ho => ?_⟩ <;>
    rcases heff.frontier_cases hs hloops q with ⟨heq, hsame⟩ | ⟨hback, hnone⟩ |
      ⟨heq, -, now, i, m, -, -, -, hnew⟩ | ⟨heq, hnone, m, hm, hskipped⟩
  · exact heq ▸ hle
  · exact hback.trans hle
  · exact heq ▸ hle
  · -- a wanted message is not the one that was skipped
    have hne : m₀.offset ≠ g.frontier q := by
      intro ho
      have hat : (g.messages cfg q)[m₀.offset]? = some m₀ := getElem?_offset hm₀
      obtain rfl := Option.some.inj ((ho ▸ hat).symm.trans hm)
      rw [hskip q m₀ hm₀ hw] at hskipped
      cases hskipped
    omega
  · exact hkeep m' y (hsame ▸ hy) ho
  · cases hnone.symm.trans hy
  · obtain ⟨rfl, rfl⟩ := Prod.mk.inj (Option.some.inj (hnew.symm.trans hy))
    exact hfresh i m
  · cases hnone.symm.trans hy

end Owes

end Group

end Morphflow
