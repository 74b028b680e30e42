import Morphflow.Requests.OneJob

/-!
# Duplicates under way

A duplicate that finds the record of its key loads the job that the record names. The record is
written before the job is: a duplicate that loads the job before the commit raises. In runs in which
no call to a store fails and every such load comes after the commit, every call of the key is
answered with the same job.

## Main definitions

* `RequestAct.undisturbed`: no call to a store fails and the entry of the key is kept.
* `RequestAct.loadsInTime`: a job is loaded after it was committed.

## Main results

* `duplicates_answered_in_time`: which runs answer every call of a key.
* `duplicate_rejected`: a run in which a duplicate raises.
-/

namespace Morphflow

namespace RequestAct

/-- No call to a store by a call of the key fails, and the entry of the key is kept. -/
def undisturbed (key : String) (w : RequestWorld) : RequestAct → Bool
  | .step i fate => (w.calls i).all fun c => c.requestKey ≠ key || fate.succeeds
  | .crash i => (w.calls i).all fun c => c.requestKey ≠ key
  | a => a.keepsRecord key w

/-- A call of the key that loads the job of a record finds it committed. -/
def loadsInTime (key : String) (w : RequestWorld) : RequestAct → Bool
  | .step i _ => (w.calls i).all fun c =>
    match c.phase with
    | .loading jobId => c.requestKey ≠ key || (w.db.jobs jobId).isSome
    | _ => true
  | _ => true

end RequestAct

/-- How many steps a call may still take. -/
def RequestPhase.remaining : RequestPhase → ℕ
  | .checking => 4
  | .reserving => 3
  | .rechecking => 2
  | .committing => 2
  | .loading _ => 1
  | .completing => 1
  | _ => 0

namespace RequestCall

variable {cfg : RequestSettings} {now : Instant} {fate : TxFate} {c : RequestCall}
  {redis redis' : Redis} {db db' : Db} {phase' : RequestPhase}

theorem exists_step (hp : c.phase.ended = false) :
    ∃ phase' redis' db', c.step cfg now fate redis db = some (phase', redis', db') := by
  cases h : c.step cfg now fate redis db with
  | none => cases hp.symm.trans (step_eq_none_iff.mp h)
  | some s => exact ⟨s.1, s.2.1, s.2.2, rfl⟩

/-- Every step brings a call closer to its end. -/
theorem Effect.remaining_lt (h : c.Effect cfg now redis db fate phase' redis' db') :
    phase'.remaining < c.phase.remaining := by
  have hgoes : ∀ {phase : RequestPhase}, GoesOn fate phase phase' →
      phase'.remaining ≤ phase.remaining := by
    rintro phase (⟨-, rfl⟩ | ⟨e, -, rfl⟩)
    · exact le_rfl
    · exact Nat.zero_le _
  cases h with
  | failed hp =>
    cases hphase : c.phase <;> simp_all [RequestPhase.ended, RequestPhase.remaining]
  | rejected hp => rcases hp with ⟨hp, -⟩ | ⟨hp, -⟩ | ⟨hp, -⟩ <;> simp [hp, RequestPhase.remaining]
  | found hp => rcases hp with hp | hp <;> simp [hp, RequestPhase.remaining]
  | granted hp _ _ hphase => exact (hgoes hphase).trans_lt (by simp [hp, RequestPhase.remaining])
  | committed hp _ _ hphase => exact (hgoes hphase).trans_lt (by simp [hp, RequestPhase.remaining])
  | completed hp _ hphase => exact (hgoes hphase).trans_lt (by simp [hp, RequestPhase.remaining])
  | absent hp => simp [hp, RequestPhase.remaining]
  | unreservable hp => simp [hp, RequestPhase.remaining]
  | loaded hp => simp [hp, RequestPhase.remaining]
  | missing hp => simp [hp, RequestPhase.remaining]
  | refused hp => simp [hp, RequestPhase.remaining]

end RequestCall

namespace RequestWorld

variable {cfg : RequestSettings} {w w' : RequestWorld} {key : String} {i : ℕ} {c : RequestCall}

/-- The calls of the key are on their way to one job; none has raised or died. -/
structure Answered (cfg : RequestSettings) (key : String) (w : RequestWorld) : Prop where
  holder : w.OneHolder cfg key none
  named : RedisIdempotencyStore.getRequestRecord w.redis w.clock key ≠ none →
    w.recorded? key ≠ none
  alive : ∀ i c, w.calls i = some c → c.requestKey = key →
    (∀ e, c.phase ≠ .raised e) ∧ c.phase ≠ .crashed
  refused : ∀ i c, w.calls i = some c → c.requestKey = key → c.phase = .rechecking →
    w.recorded? key ≠ none

namespace Answered

theorem stepped_of_ne (h : w.Answered cfg key) (hi : w.calls i = some c) {fate : TxFate}
    {phase' : RequestPhase} {redis' : Redis} {db' : Db}
    (heff : c.Effect cfg w.clock w.redis w.db fate phase' redis' db') (hkey : c.requestKey ≠ key) :
    Answered cfg key { w with
      redis := redis'
      db := db'
      calls := w.calls.set i { c with phase := phase' }
      commits := w.commits ++ (c.commit? cfg w.clock fate w.db).toList } := by
  have hsame : RedisIdempotencyStore.getRequestRecord redis' w.clock key =
      RedisIdempotencyStore.getRequestRecord w.redis w.clock key :=
    heff.getRequestRecord_of_ne hkey.symm
  have hrecord : RedisIdempotencyStore.recordedJob? redis' w.clock key = w.recorded? key := by
    rw [RedisIdempotencyStore.recordedJob?, hsame]
    rfl
  refine ⟨h.holder.stepped hi heff, fun hr => ?_, fun j d hj hd => ?_, fun j d hj hd hp => ?_⟩
  · exact hrecord.trans_ne (h.named (hsame ▸ hr))
  · rcases KeyedTable.set_eq_some_iff.mp hj with ⟨-, rfl⟩ | ⟨-, hj⟩
    · exact absurd hd hkey
    · exact h.alive j d hj hd
  · rcases KeyedTable.set_eq_some_iff.mp hj with ⟨-, rfl⟩ | ⟨-, hj⟩
    · exact absurd hd hkey
    · exact hrecord.trans_ne (h.refused j d hj hd hp)

/-- A call of the key whose store calls succeed and which loads in time neither raises nor dies, and
a refused reservation finds a record. -/
theorem phase_of_effect (h : w.Answered cfg key) (hstore : 0 < cfg.store.processingTtlSeconds)
    (hmark : 0 < cfg.store.ttlSeconds) (hi : w.calls i = some c) (hkey : c.requestKey = key)
    {phase' : RequestPhase} {redis' : Redis} {db' : Db}
    (heff : c.Effect cfg w.clock w.redis w.db .commits phase' redis' db')
    (hload : ∀ jobId, c.phase = .loading jobId → w.db.jobs jobId ≠ none) :
    (∀ e, phase' ≠ .raised e) ∧ phase' ≠ .crashed ∧
      (phase' = .rechecking → RedisIdempotencyStore.recordedJob? redis' w.clock key ≠ none) := by
  subst hkey
  have hgoes : ∀ {phase : RequestPhase}, RequestCall.GoesOn .commits phase phase' →
      phase' = phase := by
    rintro phase (⟨-, rfl⟩ | ⟨e, ⟨⟩, -⟩)
    rfl
  cases heff with
  | failed _ hf => exact absurd rfl hf
  | rejected hp =>
    rcases hp with ⟨-, hn⟩ | ⟨-, hn⟩ | ⟨hp, hfresh⟩
    · exact absurd hstore hn
    · exact absurd hmark hn
    · have habsent := h.holder.sound.absent hi (by rw [hp]; rfl)
      exact absurd ⟨habsent.job, habsent.rowId⟩ hfresh
  | found => simp
  | absent => simp
  | unreservable hp hj => exact absurd hj (h.refused i c hi rfl hp)
  | loaded => simp
  | missing hp hrow => exact absurd hrow (hload _ hp)
  | granted _ _ _ hphase =>
    rw [hgoes hphase]
    simp
  | refused _ hsome => exact ⟨by simp, by simp, fun _ => h.named hsome⟩
  | committed _ _ _ hphase =>
    rw [hgoes hphase]
    simp
  | completed _ _ hphase =>
    rw [hgoes hphase]
    simp

/-- **Step lemma.** A call of the key whose store calls succeed and which loads in time. -/
theorem stepped (h : w.Answered cfg key) (hstore : 0 < cfg.store.processingTtlSeconds)
    (hmark : 0 < cfg.store.ttlSeconds) (hi : w.calls i = some c) (hkey : c.requestKey = key)
    {phase' : RequestPhase} {redis' : Redis} {db' : Db}
    (heff : c.Effect cfg w.clock w.redis w.db .commits phase' redis' db')
    (hload : ∀ jobId, c.phase = .loading jobId → w.db.jobs jobId ≠ none) :
    Answered cfg key { w with
      redis := redis'
      db := db'
      calls := w.calls.set i { c with phase := phase' }
      commits := w.commits ++ (c.commit? cfg w.clock .commits w.db).toList } := by
  obtain ⟨hraised, hcrashed, hrechecking⟩ := h.phase_of_effect hstore hmark hi hkey heff hload
  refine ⟨h.holder.stepped hi heff, fun hr => ?_, fun j d hj hd => ?_, fun j d hj hd hp => ?_⟩
  · subst hkey
    rcases heff.recordedJob?_self with rfl | ⟨hrecord, -⟩
    · exact h.named hr
    · exact hrecord.trans_ne (by simp)
  · rcases KeyedTable.set_eq_some_iff.mp hj with ⟨-, rfl⟩ | ⟨-, hj⟩
    · exact ⟨hraised, hcrashed⟩
    · exact h.alive j d hj hd
  · rcases KeyedTable.set_eq_some_iff.mp hj with ⟨-, rfl⟩ | ⟨-, hj⟩
    · exact hrechecking hp
    · have hold := h.refused j d hj hd hp
      rcases h.holder.recorded?_of_effect hi heff with hsame | ⟨hnone, -⟩
      · exact hsame.trans_ne hold
      · exact absurd hnone hold

/-- Every step without a failure in which a call of the key loads in time. -/
theorem of_effect (h : w.Answered cfg key) (hstore : 0 < cfg.store.processingTtlSeconds)
    (hmark : 0 < cfg.store.ttlSeconds) {a : RequestAct} (heff : Effect cfg w a w')
    (hok : a.undisturbed key w = true) (hload : a.loadsInTime key w = true) :
    w'.Answered cfg key := by
  -- a step that leaves the record and only sets a call that is alive
  have hkept : ∀ {w' : RequestWorld}, w'.OneHolder cfg key none →
      RedisIdempotencyStore.getRequestRecord w'.redis w'.clock key =
        RedisIdempotencyStore.getRequestRecord w.redis w.clock key →
      (∀ j d, w'.calls j = some d → d.requestKey = key →
        w.calls j = some d ∨ d.phase = .checking) → w'.Answered cfg key := by
    intro w' hholder hsame hcalls
    have hrecord : w'.recorded? key = w.recorded? key := by
      rw [recorded?, RedisIdempotencyStore.recordedJob?, hsame]
      rfl
    refine ⟨hholder, fun hr => hrecord.trans_ne (h.named (hsame ▸ hr)), fun j d hj hd => ?_,
      fun j d hj hd hp => ?_⟩
    · rcases hcalls j d hj hd with hj | hp
      · exact h.alive j d hj hd
      · simp [hp]
    · rcases hcalls j d hj hd with hj | hp'
      · exact hrecord.trans_ne (h.refused j d hj hd hp)
      · cases hp.symm.trans hp'
  cases heff with
  | begun hi hfresh =>
    refine hkept (h.holder.begin hi hfresh) rfl fun j d hj _ => ?_
    rcases KeyedTable.set_eq_some_iff.mp hj with ⟨-, rfl⟩ | ⟨-, hj⟩
    · exact .inr rfl
    · exact .inl hj
  | @stepped i fate c _ _ _ hi heff =>
    by_cases hkey : c.requestKey = key
    · obtain rfl : fate = .commits := by
        cases fate <;> simp_all [RequestAct.undisturbed, TxFate.succeeds]
      refine h.stepped hstore hmark hi hkey heff fun jobId hp hnone => ?_
      simp [RequestAct.loadsInTime, hi, hp, hkey, hnone] at hload
    · exact h.stepped_of_ne hi heff hkey
  | @crashed i c hi =>
    have hkey : c.requestKey ≠ key := by simpa [RequestAct.undisturbed, hi] using hok
    refine hkept (h.holder.crash hi) rfl fun j d hj hd => ?_
    rcases KeyedTable.set_eq_some_iff.mp hj with ⟨-, rfl⟩ | ⟨-, hj⟩
    · exact absurd hd hkey
    · exact .inl hj
  | ticked hle =>
    exact hkept (h.holder.of_effect (.ticked hle) hok) (getRequestRecord_of_keepsRecord hle hok)
      fun j d hj _ => .inl hj
  | lost =>
    exact hkept (h.holder.of_effect .lost hok) (getRequestRecord_of_lost hok)
      fun j d hj _ => .inl hj

theorem of_run (hstore : 0 < cfg.store.processingTtlSeconds) (hmark : 0 < cfg.store.ttlSeconds)
    {w₀ : RequestWorld} {as : List RequestAct} (h₀ : (requests cfg).init w₀)
    (hnew : RedisIdempotencyStore.getRequestRecord w₀.redis w₀.clock key = none)
    (hr : (((requests cfg).restrict fun w a => a.undisturbed key w).restrict
      fun w a => a.loadsInTime key w).run w₀ as = some w) : w.Answered cfg key := by
  have hnone : w₀.recorded? key = none := by
    rw [recorded?, RedisIdempotencyStore.recordedJob?, hnew]
    rfl
  refine TransitionSystem.run_preserves (fun w a w' h hstep => ?_) hr
    ⟨⟨.of_init h₀, fun i c hi => ?_, fun jobId hjob => ?_⟩, fun hr => absurd hnew hr,
      fun i c hi => ?_, fun i c hi => ?_⟩
  · obtain ⟨hload, hstep⟩ := TransitionSystem.restrict_step_eq_some.mp hstep
    obtain ⟨hok, hstep⟩ := TransitionSystem.restrict_step_eq_some.mp hstep
    exact h.of_effect hstore hmark (effect_of_step hstep) hok hload
  · cases (h₀.1 i).symm.trans hi
  · cases hnone.symm.trans hjob
  · cases (h₀.1 i).symm.trans hi
  · cases (h₀.1 i).symm.trans hi

end Answered

end RequestWorld

/-- **Which duplicates are answered.** In every run of requests on a new key in which no call to a
store fails, the entry of the key is kept and every job of a record is loaded after its commit: a
call of the key has returned or is under way, with fewer than five steps to take; the calls that
returned did so with one job, which a call of the key wrote. A call that loads its job before the
commit raises. -/
theorem duplicates_answered_in_time {cfg : RequestSettings} {key : String} {w₀ w : RequestWorld}
    {as : List RequestAct} (hstore : 0 < cfg.store.processingTtlSeconds)
    (hmark : 0 < cfg.store.ttlSeconds) (h₀ : (requests cfg).init w₀)
    (hnew : RedisIdempotencyStore.getRequestRecord w₀.redis w₀.clock key = none)
    (hr : (((requests cfg).restrict fun w a => a.undisturbed key w).restrict
      fun w a => a.loadsInTime key w).run w₀ as = some w) :
    (∀ i c, w.calls i = some c → c.requestKey = key →
      (∃ job, c.phase = .returned job) ∨ (c.phase.ended = false ∧ c.phase.remaining < 5 ∧
        ∃ phase' redis' db', c.step cfg w.clock .commits w.redis w.db =
          some (phase', redis', db') ∧ phase'.remaining < c.phase.remaining)) ∧
    (∀ i j c d job job', w.calls i = some c → w.calls j = some d → c.requestKey = key →
      d.requestKey = key → c.phase = .returned job → d.phase = .returned job' →
      job.id = job'.id) ∧
    (∀ i c job, w.calls i = some c → c.requestKey = key → c.phase = .returned job →
      ∃ j d, w.calls j = some d ∧ d.requestKey = key ∧
        d.ids.Written cfg.topic d.payload w.db ∧ d.ids.jobId = job.id) ∧
    ∀ i c w', w.calls i = some c → (RequestAct.step i .commits).loadsInTime key w = false →
      (requests cfg).step w (.step i .commits) = some w' →
      ∃ d, w'.calls i = some d ∧ d.phase = .raised c.notFound := by
  have h := RequestWorld.Answered.of_run hstore hmark h₀ hnew hr
  refine ⟨fun i c hi hc => ?_, fun i j c d job job' hi hj hc hd hp hp' => ?_,
    fun i c job hi hc hp => h.holder.written_of_returned hi hc hp rfl,
    fun i c w' hi hlate hstep => ?_⟩
  · obtain ⟨hraised, hcrashed⟩ := h.alive i c hi hc
    cases hended : c.phase.ended with
    | true =>
      left
      cases hp : c.phase with
      | returned job => exact ⟨job, rfl⟩
      | raised e => exact absurd hp (hraised e)
      | crashed => exact absurd hp hcrashed
      | _ => simp [hp, RequestPhase.ended] at hended
    | false =>
      have hnext : ∃ phase' redis' db',
          c.step cfg w.clock .commits w.redis w.db = some (phase', redis', db') :=
        RequestCall.exists_step hended
      obtain ⟨phase', redis', db', hstep⟩ := hnext
      refine .inr ⟨rfl, ?_, phase', redis', db', hstep,
        (RequestCall.effect_of_step hstep).remaining_lt⟩
      cases c.phase <;> simp [RequestPhase.remaining]
  · exact Option.some.inj ((h.holder.recorded?_of_returned hi hc hp).symm.trans
      (h.holder.recorded?_of_returned hj hd hp'))
  · have hlate' : ∃ jobId, c.phase = .loading jobId ∧ w.db.jobs jobId = none := by
      cases hp : c.phase with
      | loading jobId =>
        simp only [RequestAct.loadsInTime, hi, hp, Option.all_some, Bool.or_eq_false_iff] at hlate
        exact ⟨jobId, rfl, by simpa using hlate.2⟩
      | _ => simp [RequestAct.loadsInTime, hi, hp] at hlate
    obtain ⟨jobId, hp, hrow⟩ := hlate'
    have hphase : c.step cfg w.clock .commits w.redis w.db =
        some (.raised c.notFound, w.redis, w.db) := by
      simp only [RequestCall.step, hp, TxFate.read, RequestCall.afterLoad,
        getJob_eq_none_iff.mpr hrow]
    have hstep : w.step cfg (.step i .commits) = some w' := hstep
    simp only [RequestWorld.step, hi, hphase, Option.map_some] at hstep
    obtain rfl := Option.some.inj hstep
    exact ⟨_, KeyedTable.set_self .., rfl⟩

/-- The second request is refused the reservation and answered with the job of the first. -/
theorem duplicates_answered_in_time_refused : ∃ (w : RequestWorld) (c d : RequestCall)
    (job job' : Job), w.calls 0 = some c ∧ w.calls 1 = some d ∧ c.phase = .returned job ∧
      d.phase = .returned job' ∧ job.id = job'.id := by
  let w₀ := RequestWorld.initial (fun _ => none) Db.empty
  have hr : ((((requests exampleRequestSettings).restrict fun w a =>
      a.undisturbed "key" w).restrict fun w a => a.loadsInTime "key" w).run w₀
        exampleRequests).isSome := by decide
  obtain ⟨-, hsame, -⟩ := duplicates_answered_in_time (by decide)
    (by decide) ⟨fun _ => rfl, rfl, rfl⟩ rfl (Option.some_get hr).symm
  let job := JobService.newJob exampleFirst []
  let c : RequestCall := ⟨some "key", "", [], exampleFirst, .returned job⟩
  let d : RequestCall := ⟨some "key", "", [], exampleSecond, .returned (job.toRow.toJob 1)⟩
  exact ⟨Option.get _ hr, c, d, _, _, rfl, rfl, rfl, rfl, hsame 0 1 c d _ _ rfl rfl rfl rfl rfl rfl⟩

/-- **A rejected duplicate.** The second request reads the record after the first has reserved the
key, and loads the job before the first has written it. -/
theorem duplicate_rejected : ¬ ∀ (cfg : RequestSettings) (key : String) (w₀ w : RequestWorld)
    (as : List RequestAct), 0 < cfg.store.processingTtlSeconds → 0 < cfg.store.ttlSeconds →
      (requests cfg).init w₀ →
      RedisIdempotencyStore.getRequestRecord w₀.redis w₀.clock key = none →
      ((requests cfg).restrict fun w a => a.undisturbed key w).run w₀ as = some w →
      ∀ i c, w.calls i = some c → c.requestKey = key → ∀ e, c.phase ≠ .raised e := by
  intro h
  let w₀ := RequestWorld.initial (fun _ => none) Db.empty
  let as : List RequestAct :=
    [.begin 0 (some "key") "" [] exampleFirst, .begin 1 (some "key") "" [] exampleSecond,
      .step 0 .commits, .step 0 .commits, .step 1 .commits, .step 1 .commits]
  have hr : (((requests exampleRequestSettings).restrict fun w a =>
      a.undisturbed "key" w).run w₀ as).isSome := by decide
  exact h exampleRequestSettings "key" w₀ _ as (by decide) (by decide) ⟨fun _ => rfl, rfl, rfl⟩ rfl
    (Option.some_get hr).symm 1 _ rfl rfl _ rfl

end Morphflow
