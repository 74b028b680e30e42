import Mathlib

/-!
# A fair counting semaphore

A semaphore has a number of permits. A party that asks for one when none is left, or while others
wait for theirs, waits in a line. A permit that comes back goes to the first in the line, who is
woken and goes on in a step of its own; until then the permit is neither free nor held. A woken
party that goes on passes the permits that have come back meanwhile down the line.

The permits are conserved and none is free as long as somebody waits and nobody has been woken:
both are fields of the structure.

## Main definitions

* `FairSemaphore`, `take`, `wait`, `resume`, `release`.
* `FairSemaphore.line`: who has been woken and who waits, in the order in which they came.

## Main results

* `length_holders_le`: never more holders than permits.
* `line_wait`, `line_resume`, `line_release`: first come, first served.
* `waiters_eq_nil`: nobody waits when no permit is held or on its way.
-/

/-- A semaphore with its permits: free, on their way to a woken party, or held. -/
structure FairSemaphore (κ : Type*) (capacity : ℕ) where
  /-- The free permits. -/
  value : ℕ
  /-- Who waits, in the order of asking. -/
  waiters : List κ
  /-- Who was given a permit and has not gone on yet. -/
  woken : List κ
  /-- Who holds a permit. -/
  holders : List κ
  conserved : value + woken.length + holders.length = capacity
  handedOver : 0 < value → waiters ≠ [] → woken ≠ []

namespace FairSemaphore

variable {κ : Type*} {capacity : ℕ}

/-- All permits are free. -/
def new (κ : Type*) (capacity : ℕ) : FairSemaphore κ capacity where
  value := capacity
  waiters := []
  woken := []
  holders := []
  conserved := rfl
  handedOver _ h := absurd rfl h

variable (s : FairSemaphore κ capacity)

/-- A permit can be taken at once. -/
def Free : Prop := 0 < s.value ∧ s.waiters = [] ∧ s.woken = []

instance : Decidable s.Free :=
  inferInstanceAs (Decidable (_ ∧ _ ∧ _))

/-- Who has not got in yet, in the order of asking. -/
def line : List κ := s.woken ++ s.waiters

/-- A free permit is taken. -/
def take (h : s.Free) (k : κ) : FairSemaphore κ capacity where
  value := s.value - 1
  waiters := []
  woken := []
  holders := s.holders ++ [k]
  conserved := by
    have hconserved := s.conserved
    have hpos := h.1
    rw [h.2.2, List.length_nil] at hconserved
    rw [List.length_append, List.length_singleton, List.length_nil]
    omega
  handedOver _ h := absurd rfl h

/-- Waiting behind all others. -/
def wait (h : ¬s.Free) (k : κ) : FairSemaphore κ capacity where
  value := s.value
  waiters := s.waiters ++ [k]
  woken := s.woken
  holders := s.holders
  conserved := s.conserved
  handedOver hpos _ hwoken := by
    by_cases hwaiters : s.waiters = []
    · exact h ⟨hpos, hwaiters, hwoken⟩
    · exact s.handedOver hpos hwaiters hwoken

/-- The first of those that were woken goes on, and wakes as many others as there are permits. -/
def resume (k : κ) (rest : List κ) (h : s.woken = k :: rest) : FairSemaphore κ capacity where
  value := s.value - min s.value s.waiters.length
  waiters := s.waiters.drop s.value
  woken := rest ++ s.waiters.take s.value
  holders := s.holders ++ [k]
  conserved := by
    have hconserved := s.conserved
    rw [h, List.length_cons] at hconserved
    rw [List.length_append, List.length_append, List.length_take, List.length_singleton]
    omega
  handedOver hpos hwaiters := by
    refine absurd (List.drop_eq_nil_iff.mpr ?_) hwaiters
    omega

/-- A permit comes back, and goes to the first in the line. -/
def release [DecidableEq κ] (k : κ) (h : k ∈ s.holders) : FairSemaphore κ capacity where
  value := if s.waiters = [] then s.value + 1 else s.value
  waiters := s.waiters.tail
  woken := s.woken ++ s.waiters.take 1
  holders := s.holders.erase k
  conserved := by
    have hconserved := s.conserved
    have hpos := List.length_pos_of_mem h
    rw [List.length_erase_of_mem h, List.length_append, List.length_take]
    by_cases hwaiters : s.waiters = []
    · rw [if_pos hwaiters, hwaiters, List.length_nil]
      omega
    · have := List.length_pos_iff.mpr hwaiters
      rw [if_neg hwaiters]
      omega
  handedOver _ hwaiters hwoken := by
    cases hw : s.waiters with
    | nil => simp [hw] at hwaiters
    | cons k' rest => simp [hw] at hwoken

/-! ### Never more holders than permits -/

theorem length_holders_le : s.holders.length ≤ capacity := by
  have hconserved := s.conserved
  omega

/-- Nobody waits when no permit is held or on its way. -/
theorem waiters_eq_nil (hpos : 0 < capacity) (hholders : s.holders = []) (hwoken : s.woken = []) :
    s.waiters = [] := by
  have hconserved := s.conserved
  rw [hholders, hwoken, List.length_nil] at hconserved
  by_contra hne
  exact s.handedOver (by omega) hne hwoken

/-- A permit is free when none is held and nobody waits. -/
theorem free_of_idle (hpos : 0 < capacity) (hholders : s.holders = []) (hline : s.line = []) :
    s.Free := by
  obtain ⟨hwoken, hwaiters⟩ := List.append_eq_nil_iff.mp hline
  have hconserved := s.conserved
  rw [hholders, hwoken, List.length_nil] at hconserved
  exact ⟨by omega, hwaiters, hwoken⟩

/-! ### First come, first served -/

section Line

variable {s} {k : κ}

theorem Free.line_eq (h : s.Free) : s.line = [] := by
  rw [line, h.2.1, h.2.2, List.append_nil]

@[simp] theorem holders_take (h : s.Free) : (s.take h k).holders = s.holders ++ [k] := rfl

@[simp] theorem line_take (h : s.Free) : (s.take h k).line = [] := rfl

@[simp] theorem holders_wait (h : ¬s.Free) : (s.wait h k).holders = s.holders := rfl

@[simp] theorem line_wait (h : ¬s.Free) : (s.wait h k).line = s.line ++ [k] :=
  (List.append_assoc ..).symm

@[simp] theorem holders_resume {rest : List κ} (h : s.woken = k :: rest) :
    (s.resume k rest h).holders = s.holders ++ [k] := rfl

/-- Who goes on is the first in the line. -/
theorem line_resume {rest : List κ} (h : s.woken = k :: rest) :
    s.line = k :: (s.resume k rest h).line := by
  rw [line, line, h]
  show k :: rest ++ s.waiters = k :: (rest ++ s.waiters.take s.value ++ s.waiters.drop s.value)
  rw [List.append_assoc, List.take_append_drop, List.cons_append]

@[simp] theorem holders_release [DecidableEq κ] (h : k ∈ s.holders) :
    (s.release k h).holders = s.holders.erase k := rfl

/-- A permit that comes back leaves the line as it is. -/
@[simp] theorem line_release [DecidableEq κ] (h : k ∈ s.holders) :
    (s.release k h).line = s.line := by
  show s.woken ++ s.waiters.take 1 ++ s.waiters.tail = s.woken ++ s.waiters
  rw [List.append_assoc]
  cases s.waiters <;> rfl

end Line

/-! ### What is left to do -/

/-- How far the parties are from having given their permits back, when nobody comes any more. -/
def remaining : ℕ := 3 * s.waiters.length + 2 * s.woken.length + s.holders.length

theorem remaining_take (h : s.Free) (k : κ) : (s.take h k).remaining = s.remaining + 1 := by
  simp [remaining, take, h.2.1, h.2.2]

theorem remaining_wait (h : ¬s.Free) (k : κ) : (s.wait h k).remaining = s.remaining + 3 := by
  simp only [remaining, wait, List.length_append, List.length_singleton]
  omega

theorem remaining_resume {k : κ} {rest : List κ} (h : s.woken = k :: rest) :
    (s.resume k rest h).remaining < s.remaining := by
  simp only [remaining, resume, h, List.length_append, List.length_take, List.length_drop,
    List.length_cons, List.length_nil]
  omega

theorem remaining_release [DecidableEq κ] {k : κ} (h : k ∈ s.holders) :
    (s.release k h).remaining < s.remaining := by
  have hpos := List.length_pos_of_mem h
  simp only [remaining, release, List.length_append, List.length_take, List.length_tail,
    List.length_erase_of_mem h]
  omega

end FairSemaphore
