import Morphflow.Domain.PyNumber
import Morphflow.Runner.HandleMessage

/-!
# The retries of a message

A record is handled, then the record that was published to the retry topic for it, and so on. The
handler answers each time and publishing succeeds; the answers, the clock readings and the offsets
are up to the environment. Each record of the chain carries one more in its retry count, so the
chain ends, either in a success or in one dead letter.

The back-off is computed on floats. It raises where the exponent, the power or the delay in
milliseconds has no float, although the delay is cut to its maximum afterwards; then nothing is
published.

## Main definitions

* `Message.handle`: `_handle_message` with the handler's answer.
* `RetryPasses`, `RetryPasses.record`: the chain of a record.
* `RetryPasses.Isolated`: the chain is bounded and ends with the message intact.

## Main results

* `RetryPasses.Carries.next`: what a record of the chain hands on to the next.
* `isolated_iff`: which records have such chains whatever the handler answers.
* `not_isolated`: a back-off that raises.
* `handled_again_iff`: which retries pass the role filter of the role that wrote them.
* `not_handled_again`: a retry for a record that names no original topic.
-/

namespace Morphflow

variable {V : Type*}

/-- How a call of `_handle_message` ends when the handler answers and publishing succeeds. -/
inductive HandleEnd (V : Type*)
  | skipped
  | succeeded
  | published (publication : Publication V)
  | raised (error : String)

namespace RunnerSettings

/-- The delay before the retry with the given count. -/
def retryDelay (s : RunnerSettings) (next : ℕ) : ℚ :=
  computeRetryBackoffSeconds next s.retryBackoffSeconds s.retryBackoffMultiplier
    s.retryBackoffMaxSeconds

/-- Computing the delay in milliseconds raises an `OverflowError`. -/
def backoffOverflows (s : RunnerSettings) (next : ℕ) : Bool :=
  let exponent := max 1 next - 1
  overflowsFloat exponent || overflowsFloat (s.retryBackoffMultiplier ^ exponent) ||
    overflowsFloat (s.retryDelay next * 1000)

end RunnerSettings

namespace Message

/-- `_handle_message` on the handler's answer and the clock reading of the back-off. -/
def handle (s : RunnerSettings) (m : Message V) (answer : Bool × Option String) (now : ℤ) :
    HandleEnd V :=
  if m.skipped s then .skipped
  else
    match m.afterHandler s answer.1 answer.2 now with
    | none => .succeeded
    | some pub =>
      if !m.spent s && s.backoffOverflows (m.retryCount + 1) then .raised "OverflowError"
      else .published pub

end Message

/-- The record of a publication, as the next consumer reads it. -/
def Publication.message (pub : Publication V) (offset : ℕ) : Message V :=
  ⟨pub.topic, offset, pub.value, rawHeaders pub.headers⟩

/-- The environment of the passes: the handler's answers, the clock readings of the back-off, and
the offsets of the published records. -/
structure RetryPasses where
  answer : ℕ → Bool × Option String
  now : ℕ → ℤ
  offset : ℕ → ℕ

namespace RetryPasses

section Chain

variable (e : RetryPasses) (s : RunnerSettings) (m₀ : Message V)

/-- The record handled in the pass `k`. -/
def record : ℕ → Option (Message V)
  | 0 => some m₀
  | k + 1 => (record k).bind fun m =>
    match m.handle s (e.answer k) (e.now k) with
    | .published pub => if pub.topic = s.retryTopic then some (pub.message (e.offset k)) else none
    | _ => none

/-- How the pass `k` ends. -/
def ending (k : ℕ) : Option (HandleEnd V) :=
  (e.record s m₀ k).map fun m => m.handle s (e.answer k) (e.now k)

/-- The handler is called in the pass `k`. -/
def calls (k : ℕ) : Bool := (e.record s m₀ k).any fun m => !m.skipped s

/-- The dead letter of the pass `k`. -/
def deadLetter? (k : ℕ) : Option (Publication V) :=
  match e.ending s m₀ k with
  | some (.published pub) => if pub.topic = s.kafkaDlqTopic then some pub else none
  | _ => none

/-- The dead letters of the first `n` passes. -/
def deadLetters (n : ℕ) : List (Publication V) := (List.range n).filterMap (e.deadLetter? s m₀)

/-- The number of calls of the handler in the first `n` passes. -/
def callCount (n : ℕ) : ℕ := ((List.range n).filter (e.calls s m₀)).length

/-- The chain ends in a success with no dead letter. -/
def Succeeds : Prop :=
  ∃ k, e.ending s m₀ k = some .succeeded ∧ e.record s m₀ (k + 1) = none ∧
    ∀ n, e.deadLetters s m₀ n = []

/-- The chain ends in one dead letter that carries the value and names the topic. -/
def Buried : Prop :=
  ∃ k pub, e.ending s m₀ k = some (.published pub) ∧ e.record s m₀ (k + 1) = none ∧
    pub.topic = s.kafkaDlqTopic ∧ pub.value = m₀.value ∧
    decodeHeaders (rawHeaders pub.headers) originalTopicHeader = some s.consumeTopic ∧
    decodeHeaders (rawHeaders pub.headers) retryCountHeader = some (toString (m₀.retryCount + k)) ∧
    ∀ n, e.deadLetters s m₀ n = if k < n then [pub] else []

/-- The retries of a record are bounded, and end with the message intact. -/
structure Isolated : Prop where
  notSkipped : ∀ k m, e.record s m₀ k = some m → m.skipped s = false
  republished : ∀ k m, e.record s m₀ (k + 1) = some m → m.topic = s.retryTopic ∧
    m.value = m₀.value ∧ m.retryCount = m₀.retryCount + (k + 1) ∧
    m.decoded retryCountHeader = some (toString (m₀.retryCount + (k + 1))) ∧
    m.decoded originalTopicHeader = some s.consumeTopic ∧
    ∃ retryAt : ℤ, m.decoded retryAtHeader = some (toString retryAt) ∧ e.now k ≤ retryAt
  bounded : ∀ n, e.callCount s m₀ n ≤ (s.retryMaxCount - m₀.retryCount).toNat + 1
  ends : e.Succeeds s m₀ ∨ e.Buried s m₀

end Chain

end RetryPasses

/-! ### What a pass hands on -/

theorem truncate_nonneg {q : ℚ} (h : 0 ≤ q) : 0 ≤ truncate q :=
  Int.tdiv_nonneg (Rat.num_nonneg.mpr h) (Int.natCast_nonneg _)

namespace Message

section Headers

variable {s : RunnerSettings} {m : Message V} {error : Option String} {now : ℤ} {offset : ℕ}

theorem retryPublication_retryCount :
    ((m.retryPublication s error now).message offset).decoded retryCountHeader =
      some (toString (m.retryCount + 1)) := by
  simp [retryPublication, Publication.message, decoded, rawHeaders, decodeHeaders,
    KeyedTable.set, retryCountHeader, originalTopicHeader, errorReasonHeader, retryAtHeader]

theorem retryPublication_originalTopic :
    ((m.retryPublication s error now).message offset).decoded originalTopicHeader =
      some ((m.decoded originalTopicHeader).getD m.topic) := by
  simp [retryPublication, Publication.message, decoded, rawHeaders, decodeHeaders,
    KeyedTable.set, retryCountHeader, originalTopicHeader, errorReasonHeader, retryAtHeader]

theorem retryPublication_retryAt :
    ((m.retryPublication s error now).message offset).decoded retryAtHeader =
      some (toString (now + truncate (s.retryDelay (m.retryCount + 1) * 1000))) := by
  simp [retryPublication, RunnerSettings.retryDelay, Publication.message, decoded, rawHeaders,
    decodeHeaders, KeyedTable.set, retryCountHeader, originalTopicHeader, errorReasonHeader,
    retryAtHeader]

theorem dlqPublication_originalTopic :
    decodeHeaders (rawHeaders (m.dlqPublication s error).headers) originalTopicHeader =
      some ((m.decoded originalTopicHeader).getD m.topic) := by
  simp [dlqPublication, rawHeaders, decodeHeaders, KeyedTable.set, retryCountHeader,
    originalTopicHeader, errorReasonHeader]

theorem dlqPublication_retryCount :
    decodeHeaders (rawHeaders (m.dlqPublication s error).headers) retryCountHeader =
      some (toString m.retryCount) := by
  simp [dlqPublication, rawHeaders, decodeHeaders, KeyedTable.set, retryCountHeader,
    originalTopicHeader, errorReasonHeader]

/-- The count that was written is read back, as the power of the back-off did not raise. -/
theorem retryCount_retryPublication (hfloat : s.backoffOverflows (m.retryCount + 1) = false) :
    ((m.retryPublication s error now).message offset).retryCount = m.retryCount + 1 := by
  have hexp : overflowsFloat (m.retryCount : ℚ) = false := by
    simp only [RunnerSettings.backoffOverflows, Bool.or_eq_false_iff] at hfloat
    simpa using hfloat.1.1
  obtain ⟨k, hpos, hk, hlt⟩ := exists_lt_of_overflowsFloat_eq_false hexp
  rw [retryCount, parseRetryCount, retryPublication_retryCount, Option.getD_some,
    pyInt?_toString hpos hk hlt]
  rfl

end Headers

/-- Everything a pass can do. -/
theorem handle_cases (s : RunnerSettings) (m : Message V) (answer : Bool × Option String)
    (now : ℤ) :
    (m.skipped s = true ∧ m.handle s answer now = .skipped) ∨
    (m.skipped s = false ∧ answer.1 = true ∧ m.handle s answer now = .succeeded) ∨
    (m.skipped s = false ∧ answer.1 = false ∧ s.retryMaxCount ≤ m.retryCount ∧
      m.handle s answer now = .published (m.dlqPublication s answer.2)) ∨
    (m.skipped s = false ∧ answer.1 = false ∧ (m.retryCount : ℤ) < s.retryMaxCount ∧
      s.backoffOverflows (m.retryCount + 1) = true ∧
      m.handle s answer now = .raised "OverflowError") ∨
    (m.skipped s = false ∧ answer.1 = false ∧ (m.retryCount : ℤ) < s.retryMaxCount ∧
      s.backoffOverflows (m.retryCount + 1) = false ∧
      m.handle s answer now = .published (m.retryPublication s answer.2 now)) := by
  obtain ⟨success, error⟩ := answer
  cases hskip : m.skipped s with
  | true => simp [handle, hskip]
  | false =>
    cases success with
    | true => simp [handle, hskip, afterHandler]
    | false =>
      by_cases hspent : s.retryMaxCount ≤ m.retryCount
      · simp [handle, hskip, afterHandler, spent, hspent, Int.not_lt.mpr hspent]
      · cases hfloat : s.backoffOverflows (m.retryCount + 1) <;>
          simp [handle, hskip, afterHandler, spent, hspent, hfloat, Int.not_le.mp hspent]

theorem handle_eq_skipped_iff {s : RunnerSettings} {m : Message V} {answer : Bool × Option String}
    {now : ℤ} : m.handle s answer now = .skipped ↔ m.skipped s = true := by
  rcases m.handle_cases s answer now with ⟨hskip, hend⟩ | ⟨hskip, -, hend⟩ |
    ⟨hskip, -, -, hend⟩ | ⟨hskip, -, -, -, hend⟩ | ⟨hskip, -, -, -, hend⟩ <;> simp [hskip, hend]

theorem handle_eq_retry {s : RunnerSettings} {m : Message V} (hskip : m.skipped s = false)
    (hcount : (m.retryCount : ℤ) < s.retryMaxCount)
    (hfloat : s.backoffOverflows (m.retryCount + 1) = false) (error : Option String) (now : ℤ) :
    m.handle s (false, error) now = .published (m.retryPublication s error now) := by
  simp [handle, hskip, afterHandler, spent, hfloat, Int.not_le.mpr hcount]

/-- What is published names the topic that the record names, or else the one it came from. -/
theorem originalTopic_of_published {s : RunnerSettings} {m : Message V}
    {answer : Bool × Option String} {now : ℤ} {pub : Publication V}
    (hpub : m.handle s answer now = .published pub) (offset : ℕ) :
    (pub.message offset).decoded originalTopicHeader =
      some ((m.decoded originalTopicHeader).getD m.topic) := by
  rcases m.handle_cases s answer now with ⟨-, hend⟩ | ⟨-, -, hend⟩ | ⟨-, -, -, hend⟩ |
    ⟨-, -, -, -, hend⟩ | ⟨-, -, -, -, hend⟩
  · cases hpub.symm.trans hend
  · cases hpub.symm.trans hend
  · cases hpub.symm.trans hend
    exact dlqPublication_originalTopic (s := s)
  · cases hpub.symm.trans hend
  · cases hpub.symm.trans hend
    exact retryPublication_originalTopic

end Message

namespace RetryPasses

/-- What the record handled in the pass `k` still carries of the first one. -/
structure Carries (s : RunnerSettings) (m₀ : Message V) (k : ℕ) (m : Message V) : Prop where
  notSkipped : m.skipped s = false
  originalTopic : (m.decoded originalTopicHeader).getD m.topic = s.consumeTopic
  value : m.value = m₀.value
  retryCount : m.retryCount = m₀.retryCount + k

variable {e : RetryPasses} {s : RunnerSettings} {m₀ m m' : Message V} {k : ℕ}

theorem record_succ_eq_some_iff : e.record s m₀ (k + 1) = some m' ↔
    ∃ m pub, e.record s m₀ k = some m ∧
      m.handle s (e.answer k) (e.now k) = .published pub ∧ pub.topic = s.retryTopic ∧
      pub.message (e.offset k) = m' := by
  rw [record, Option.bind_eq_some_iff]
  constructor
  · rintro ⟨m, hm, h⟩
    split at h
    · next pub hpub =>
      obtain ⟨htopic, hmessage⟩ := Option.ite_none_right_eq_some.mp h
      exact ⟨m, pub, hm, hpub, htopic, Option.some.inj hmessage⟩
    · cases h
  · rintro ⟨m, pub, hm, hpub, htopic, rfl⟩
    exact ⟨m, hm, by rw [hpub]; exact if_pos htopic⟩

theorem deadLetter?_of_record_none (hm : e.record s m₀ k = none) : e.deadLetter? s m₀ k = none := by
  rw [deadLetter?, ending, hm]
  rfl

/-- The chain has no gaps. -/
theorem record_of_le {j : ℕ} (hm : e.record s m₀ k = some m) (hle : j ≤ k) :
    ∃ m', e.record s m₀ j = some m' := by
  induction hle generalizing m with
  | refl => exact ⟨m, hm⟩
  | step _ ih =>
    obtain ⟨m', -, hprev, -⟩ := record_succ_eq_some_iff.mp hm
    exact ih hprev

/-- The number of calls is at most the number of records. -/
theorem callCount_le {b : ℕ} (hb : ∀ k m, e.record s m₀ k = some m → k < b) (n : ℕ) :
    e.callCount s m₀ n ≤ b := by
  have hsub : (List.range n).filter (e.calls s m₀) ⊆ List.range b := by
    intro k hk
    have hcalls := List.of_mem_filter hk
    cases hm : e.record s m₀ k with
    | none => simp [calls, hm] at hcalls
    | some m => exact List.mem_range.mpr (hb k m hm)
  have hnodup : ((List.range n).filter (e.calls s m₀)).Nodup := List.nodup_range.filter _
  calc e.callCount s m₀ n ≤ (List.range b).length := (hnodup.subperm hsub).length_le
    _ = b := List.length_range

theorem exists_last {b : ℕ} (hb : ∀ k m, e.record s m₀ k = some m → k < b) :
    ∃ k m, e.record s m₀ k = some m ∧ e.record s m₀ (k + 1) = none := by
  have hnone : ∃ k, e.record s m₀ k = none :=
    ⟨b, Option.eq_none_iff_forall_ne_some.mpr fun m hm => (hb b m hm).false⟩
  cases hfind : Nat.find hnone with
  | zero =>
    have hfirst := Nat.find_spec hnone
    rw [hfind] at hfirst
    cases hfirst
  | succ k =>
    have hlast := Nat.find_spec hnone
    rw [hfind] at hlast
    have hsome := Nat.find_min hnone (m := k) (by omega)
    obtain ⟨m, hm⟩ := Option.ne_none_iff_exists'.mp hsome
    exact ⟨k, m, hm, hlast⟩

theorem answer_of_succeeded {answer : Bool × Option String} {now : ℤ}
    (h : m.handle s answer now = .succeeded) : answer.1 = true := by
  rcases m.handle_cases s answer now with ⟨-, hend⟩ | ⟨-, hanswer, -⟩ | ⟨-, -, -, hend⟩ |
    ⟨-, -, -, -, hend⟩ | ⟨-, -, -, -, hend⟩
  · cases h.symm.trans hend
  · exact hanswer
  · cases h.symm.trans hend
  · cases h.symm.trans hend
  · cases h.symm.trans hend

section Distinct

variable (hdlq : s.retryTopic ≠ s.kafkaDlqTopic)
include hdlq

theorem handle_eq_of_retry {pub : Publication V} {answer : Bool × Option String} {now : ℤ}
    (h : m.handle s answer now = .published pub) (htopic : pub.topic = s.retryTopic) :
    answer.1 = false ∧ (m.retryCount : ℤ) < s.retryMaxCount ∧
      s.backoffOverflows (m.retryCount + 1) = false ∧ pub = m.retryPublication s answer.2 now := by
  rcases m.handle_cases s answer now with ⟨-, hend⟩ | ⟨-, -, hend⟩ | ⟨-, -, -, hend⟩ |
    ⟨-, -, -, -, hend⟩ | ⟨-, hanswer, hcount, hfloat, hend⟩
  · cases h.symm.trans hend
  · cases h.symm.trans hend
  · cases h.symm.trans hend
    exact absurd htopic.symm hdlq
  · cases h.symm.trans hend
  · cases h.symm.trans hend
    exact ⟨hanswer, hcount, hfloat, rfl⟩

/-- A record that goes to the dead letters. -/
theorem spent_of_dlq {pub : Publication V} {answer : Bool × Option String} {now : ℤ}
    (h : m.handle s answer now = .published pub) (htopic : pub.topic = s.kafkaDlqTopic) :
    s.retryMaxCount ≤ m.retryCount := by
  rcases m.handle_cases s answer now with ⟨-, hend⟩ | ⟨-, -, hend⟩ | ⟨-, -, hspent, -⟩ |
    ⟨-, -, -, -, hend⟩ | ⟨-, -, -, -, hend⟩
  · cases h.symm.trans hend
  · cases h.symm.trans hend
  · exact hspent
  · cases h.symm.trans hend
  · cases h.symm.trans hend
    exact absurd htopic hdlq

/-- **Step lemma.** The next record carries the same, with one more in its count. -/
theorem Carries.next (h : Carries s m₀ k m) {pub : Publication V} {answer : Bool × Option String}
    {now : ℤ} (hpub : m.handle s answer now = .published pub) (htopic : pub.topic = s.retryTopic)
    (offset : ℕ) : Carries s m₀ (k + 1) (pub.message offset) := by
  obtain ⟨-, -, hfloat, rfl⟩ := handle_eq_of_retry hdlq hpub htopic
  have horigin : ((m.retryPublication s answer.2 now).message offset).decoded originalTopicHeader =
      some s.consumeTopic := by
    rw [Message.retryPublication_originalTopic, h.originalTopic]
  refine ⟨?_, by rw [horigin, Option.getD_some], h.value, ?_⟩
  · rw [Message.skipped, horigin]
    simp
  · rw [Message.retryCount_retryPublication hfloat, h.retryCount, Nat.add_assoc]

/-- **Run lemma.** Every record of the chain carries what the first one did. -/
theorem Carries.of_record (h : Carries s m₀ 0 m₀) (hm : e.record s m₀ k = some m) :
    Carries s m₀ k m := by
  induction k generalizing m with
  | zero => exact Option.some.inj hm ▸ h
  | succ k ih =>
    obtain ⟨m, pub, hprev, hpub, htopic, rfl⟩ := record_succ_eq_some_iff.mp hm
    exact (ih hprev).next hdlq hpub htopic _

theorem count_lt_of_record (h : Carries s m₀ 0 m₀) (hm : e.record s m₀ (k + 1) = some m') :
    ((m₀.retryCount + k : ℕ) : ℤ) < s.retryMaxCount ∧
      s.backoffOverflows (m₀.retryCount + k + 1) = false := by
  obtain ⟨m, pub, hprev, hpub, htopic, -⟩ := record_succ_eq_some_iff.mp hm
  obtain ⟨-, hcount, hfloat, -⟩ := handle_eq_of_retry hdlq hpub htopic
  rw [(h.of_record hdlq hprev).retryCount] at hcount hfloat
  exact ⟨hcount, hfloat⟩

/-! ### The end of the chain -/

/-- A pass whose successor is there published to the retry topic. -/
theorem deadLetter?_of_record (hm : e.record s m₀ (k + 1) = some m') :
    e.deadLetter? s m₀ k = none := by
  obtain ⟨m, pub, hprev, hpub, htopic, -⟩ := record_succ_eq_some_iff.mp hm
  have hend : e.ending s m₀ k = some (.published pub) := by rw [ending, hprev, ← hpub]; rfl
  rw [deadLetter?, hend]
  exact if_neg fun h => hdlq (htopic.symm.trans h)

theorem deadLetter?_of_ne {j : ℕ} (hm : e.record s m₀ k = some m)
    (hlast : e.record s m₀ (k + 1) = none) (hne : j ≠ k) : e.deadLetter? s m₀ j = none := by
  rcases Nat.lt_or_gt_of_ne hne with hlt | hgt
  · obtain ⟨m', hm'⟩ := record_of_le hm hlt
    exact deadLetter?_of_record hdlq hm'
  · refine deadLetter?_of_record_none ?_
    by_contra hsome
    obtain ⟨m', hm'⟩ := Option.ne_none_iff_exists'.mp hsome
    obtain ⟨m'', hm''⟩ := record_of_le hm' hgt
    cases hlast.symm.trans hm''

/-- The dead letters of a chain whose last pass is `k`. -/
theorem deadLetters_eq (hm : e.record s m₀ k = some m) (hlast : e.record s m₀ (k + 1) = none)
    (n : ℕ) : e.deadLetters s m₀ n = if k < n then (e.deadLetter? s m₀ k).toList else [] := by
  induction n with
  | zero => rfl
  | succ n ih =>
    rw [deadLetters, List.range_succ, List.filterMap_append, ← deadLetters, ih]
    by_cases hnk : n = k
    · subst hnk
      cases hd : e.deadLetter? s m₀ n <;> simp [hd]
    · have hnone := deadLetter?_of_ne hdlq hm hlast hnk
      have hlt : k < n ↔ k < n + 1 := by omega
      simp [hnone, hlt]

/-! ### Bounded and intact -/

/-- The chain has at most one record more than there are retries left. -/
theorem lt_of_record (h : Carries s m₀ 0 m₀) (hm : e.record s m₀ k = some m) :
    k < (s.retryMaxCount - m₀.retryCount).toNat + 1 := by
  cases k with
  | zero => omega
  | succ k =>
    have hcount := (count_lt_of_record hdlq h hm).1
    push_cast at hcount
    omega

theorem Carries.republished (h : Carries s m₀ 0 m₀) (hdelay : ∀ n, 0 ≤ s.retryDelay n)
    (hm : e.record s m₀ (k + 1) = some m') : m'.topic = s.retryTopic ∧ m'.value = m₀.value ∧
      m'.retryCount = m₀.retryCount + (k + 1) ∧
      m'.decoded retryCountHeader = some (toString (m₀.retryCount + (k + 1))) ∧
      m'.decoded originalTopicHeader = some s.consumeTopic ∧
      ∃ retryAt : ℤ, m'.decoded retryAtHeader = some (toString retryAt) ∧ e.now k ≤ retryAt := by
  have hcarries := h.of_record hdlq hm
  obtain ⟨m, pub, hprev, hpub, htopic, rfl⟩ := record_succ_eq_some_iff.mp hm
  obtain ⟨-, -, -, rfl⟩ := handle_eq_of_retry hdlq hpub htopic
  have hc := h.of_record hdlq hprev
  refine ⟨rfl, hcarries.value, hcarries.retryCount, ?_, ?_, _, m.retryPublication_retryAt, ?_⟩
  · rw [Message.retryPublication_retryCount, hc.retryCount, Nat.add_assoc]
  · rw [Message.retryPublication_originalTopic, hc.originalTopic]
  · have hms : 0 ≤ s.retryDelay (m.retryCount + 1) * 1000 :=
      mul_nonneg (hdelay _) (by norm_num)
    exact le_add_of_nonneg_right (truncate_nonneg hms)

theorem Carries.ends (h : Carries s m₀ 0 m₀)
    (hfloat : ∀ n, m₀.retryCount ≤ n → (n : ℤ) < s.retryMaxCount →
      s.backoffOverflows (n + 1) = false) : e.Succeeds s m₀ ∨ e.Buried s m₀ := by
  obtain ⟨k, m, hm, hlast⟩ := exists_last fun k m hm => lt_of_record hdlq h hm
  have hc := h.of_record hdlq hm
  have hend : e.ending s m₀ k = some (m.handle s (e.answer k) (e.now k)) := by
    rw [ending, hm]
    rfl
  have hdead := deadLetters_eq hdlq hm hlast
  rcases m.handle_cases s (e.answer k) (e.now k) with ⟨hskip, -⟩ | ⟨-, -, hpass⟩ |
    ⟨-, -, -, hpass⟩ | ⟨-, -, hcount, hraise, -⟩ | ⟨-, -, -, -, hpass⟩
  · cases hc.notSkipped.symm.trans hskip
  · rw [hpass] at hend
    have hnone : e.deadLetter? s m₀ k = none := by rw [deadLetter?, hend]
    exact .inl ⟨k, hend, hlast, fun n => by simp [hdead n, hnone]⟩
  · rw [hpass] at hend
    have hsome : e.deadLetter? s m₀ k = some (m.dlqPublication s (e.answer k).2) := by
      rw [deadLetter?, hend]
      exact if_pos rfl
    refine .inr ⟨k, _, hend, hlast, rfl, hc.value, ?_, ?_, fun n => by simp [hdead n, hsome]⟩
    · rw [Message.dlqPublication_originalTopic, hc.originalTopic]
    · rw [Message.dlqPublication_retryCount, hc.retryCount]
  · rw [hc.retryCount] at hcount hraise
    have hnot := hfloat (m₀.retryCount + k) (Nat.le_add_right _ _) hcount
    cases hnot.symm.trans hraise
  · have hnext := record_succ_eq_some_iff.mpr ⟨m, _, hm, hpass, rfl, rfl⟩
    cases hlast.symm.trans hnext

/-- A chain that ends though the handler always fails has computed every delay. -/
theorem Carries.float_of_ends (h : Carries s m₀ 0 m₀) (hfails : ∀ k, (e.answer k).1 = false)
    (hends : e.Succeeds s m₀ ∨ e.Buried s m₀) {n : ℕ} (hle : m₀.retryCount ≤ n)
    (hlt : (n : ℤ) < s.retryMaxCount) : s.backoffOverflows (n + 1) = false := by
  -- the handler never succeeded, so the last record became a dead letter
  have hlast : ∃ k m, e.record s m₀ k = some m ∧ s.retryMaxCount ≤ m.retryCount := by
    rcases hends with ⟨k, hend, -, -⟩ | ⟨k, pub, hend, -, htopic, -⟩
    · obtain ⟨m, -, hpass⟩ := Option.map_eq_some_iff.mp hend
      cases (hfails k).symm.trans (answer_of_succeeded hpass)
    · obtain ⟨m, hm, hpass⟩ := Option.map_eq_some_iff.mp hend
      exact ⟨k, m, hm, spent_of_dlq hdlq hpass htopic⟩
  obtain ⟨k, m, hm, hspent⟩ := hlast
  rw [(h.of_record hdlq hm).retryCount] at hspent
  obtain ⟨j, rfl⟩ := Nat.exists_eq_add_of_le hle
  have hjk : j + 1 ≤ k := by
    push_cast at hspent hlt
    omega
  obtain ⟨m', hm'⟩ := record_of_le hm hjk
  exact (count_lt_of_record hdlq h hm').2

end Distinct

end RetryPasses

/-- A record whose retries are bounded and end with the message intact, whatever the handler
answers: no delay of a retry that is left overflows. -/
theorem isolated_iff {s : RunnerSettings} {m₀ : Message V}
    (hconsume : s.consumeTopic ≠ s.retryTopic) (hdlq : s.retryTopic ≠ s.kafkaDlqTopic)
    (hdelay : ∀ n, 0 ≤ s.retryDelay n) (htopic : m₀.topic = s.consumeTopic)
    (horigin : m₀.decoded originalTopicHeader = none ∨
      m₀.decoded originalTopicHeader = some s.consumeTopic) :
    (∀ e : RetryPasses, e.Isolated s m₀) ↔ ∀ n, m₀.retryCount ≤ n → (n : ℤ) < s.retryMaxCount →
      s.backoffOverflows (n + 1) = false := by
  have hfirst : RetryPasses.Carries s m₀ 0 m₀ := by
    refine ⟨?_, ?_, rfl, rfl⟩
    · rw [Message.skipped, htopic, beq_eq_false_iff_ne.mpr hconsume, Bool.false_and]
    · rcases horigin with horigin | horigin <;> rw [horigin]
      · exact htopic
      · rfl
  constructor
  · intro h n hle hlt
    let e : RetryPasses := ⟨fun _ => (false, none), fun _ => 0, fun _ => 0⟩
    exact hfirst.float_of_ends hdlq (e := e) (fun _ => rfl) (h e).ends hle hlt
  · intro hfloat e
    exact ⟨fun k m hm => (hfirst.of_record hdlq hm).notSkipped,
      fun k m hm => hfirst.republished hdlq hdelay hm,
      fun n => RetryPasses.callCount_le (fun k m hm => RetryPasses.lt_of_record hdlq hfirst hm) n,
      hfirst.ends hdlq hfloat⟩

theorem exampleSettings_retryDelay (retryMaxCount : ℤ) (n : ℕ) :
    0 ≤ (exampleSettings retryMaxCount).retryDelay n := by
  have hpow : (0 : ℚ) ≤ 1 * 2 ^ (max 1 n - 1) := by positivity
  exact le_min hpow (by norm_num [exampleSettings])

/-- The handler fails each time. -/
def exampleFailingPasses : RetryPasses := ⟨fun _ => (false, none), fun _ => 0, fun k => k⟩

/-- Three retries, the default. -/
theorem isolated_iff_default :
    exampleFailingPasses.Isolated (exampleSettings 3) ⟨"request-topic", 0, (), []⟩ := by
  refine (isolated_iff (by decide) (by decide) (exampleSettings_retryDelay 3) rfl
    (.inl rfl)).mpr (fun n _ hlt => ?_) exampleFailingPasses
  have hn : (n : ℤ) < 3 := hlt
  have hn' : n < 3 := by omega
  interval_cases n <;> decide +kernel

/-- **A back-off that raises.** The retry count 1024 is below the bound, and `2.0 ** 1024` has no
float. -/
theorem not_isolated : ¬ ∀ (s : RunnerSettings) (m₀ : Message Unit),
    s.consumeTopic ≠ s.retryTopic → s.consumeTopic ≠ s.kafkaDlqTopic →
      s.retryTopic ≠ s.kafkaDlqTopic → (∀ n, 0 ≤ s.retryDelay n) → m₀.topic = s.consumeTopic →
      (m₀.decoded originalTopicHeader = none ∨
        m₀.decoded originalTopicHeader = some s.consumeTopic) →
      ∀ e : RetryPasses, e.Isolated s m₀ := by
  intro h
  let s := exampleSettings 2000
  let m₀ : Message Unit := ⟨"request-topic", 0, (), [(retryCountHeader, some "1024")]⟩
  have hfirst : RetryPasses.Carries s m₀ 0 m₀ := ⟨by decide, by decide, rfl, rfl⟩
  have hends := (h s m₀ (by decide) (by decide) (by decide) (exampleSettings_retryDelay 2000)
    rfl (.inl (by decide)) exampleFailingPasses).ends
  have hcount : m₀.retryCount = 1024 := by decide
  have hfloat : s.backoffOverflows (1024 + 1) = false :=
    hfirst.float_of_ends (by decide) (fun _ => rfl) hends hcount.le (by decide)
  have hraises : s.backoffOverflows (1024 + 1) = true := by decide +kernel
  cases hfloat.symm.trans hraises

/-! ### The role filter -/

/-- The role that published a record to its retry topic calls the handler on it again exactly when
the record it consumed named its topic as the original one or, naming none, came from there. The
filter takes a missing name for the role's own topic; the publication writes the topic that the
record came from. -/
theorem handled_again_iff {s : RunnerSettings} {m : Message V} {answer : Bool × Option String}
    {now : ℤ} {pub : Publication V} (hpub : m.handle s answer now = .published pub)
    (htopic : pub.topic = s.retryTopic) (offset : ℕ) :
    (∀ answer' now', (pub.message offset).handle s answer' now' ≠ .skipped) ↔
      (∀ name, m.decoded originalTopicHeader = some name → name = s.consumeTopic) ∧
        (m.decoded originalTopicHeader = none → m.topic = s.consumeTopic) := by
  have hskipped : (pub.message offset).skipped s = true ↔
      (m.decoded originalTopicHeader).getD m.topic ≠ s.consumeTopic := by
    have hretry : (pub.message offset).topic = s.retryTopic := htopic
    simp [Message.skipped, Message.originalTopic_of_published hpub offset, hretry]
  simp only [ne_eq, Message.handle_eq_skipped_iff, hskipped, not_not, forall_const]
  cases m.decoded originalTopicHeader with
  | none => simp
  | some name => simp

/-- A record of the role's own topic, with a null name, and the first retry for it. -/
theorem handled_again_iff_own : let m : Message Unit :=
      ⟨"request-topic", 0, (), [(originalTopicHeader, none)]⟩
    ∀ answer now, ((m.retryPublication (exampleSettings 3) none 0).message 1).handle
      (exampleSettings 3) answer now ≠ .skipped := by
  intro m
  have hpub := m.handle_eq_retry (s := exampleSettings 3) (by decide) (by decide)
    (by decide +kernel) none 0
  have hnone : m.decoded originalTopicHeader = none := rfl
  refine (handled_again_iff hpub rfl 1).mpr ⟨fun name hname => ?_, fun _ => rfl⟩
  cases hnone.symm.trans hname

/-- **A retry that its own role drops.** A record on the retry topic that names no original topic is
handled; the retry for it names the retry topic. -/
theorem not_handled_again : ¬ ∀ (s : RunnerSettings) (m : Message Unit)
    (answer : Bool × Option String) (now : ℤ) (pub : Publication Unit),
    m.topic = s.consumeTopic ∨ m.topic = s.retryTopic → m.handle s answer now = .published pub →
      pub.topic = s.retryTopic → ∀ offset answer' now',
        (pub.message offset).handle s answer' now' ≠ .skipped := by
  intro h
  let m : Message Unit := ⟨"retry-topic", 0, (), []⟩
  have hpub := m.handle_eq_retry (s := exampleSettings 3) (by decide) (by decide)
    (by decide +kernel) none 0
  refine h (exampleSettings 3) m _ 0 _ (.inr rfl) hpub rfl 1 (true, none) 0 ?_
  exact Message.handle_eq_skipped_iff.mpr (by decide)

end Morphflow
