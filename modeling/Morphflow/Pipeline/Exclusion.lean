import Morphflow.Pipeline.System
import Morphflow.Services.LeaseDiscipline

/-!
# Mutual exclusion of the inference

An inference under way holds a lease, and while the lease has not expired no other claim of the job
may succeed. A claim is refused because the row is `PROCESSING` under that lease, or `SUCCESS`
already. The downstream stage can take this protection away: its record of a failure is not fenced
and moves a job from `PROCESSING` to `FAILED`, from where it can be claimed at once.

## Main definitions

* `World.Excludes`: no claim succeeds while an inference is under way under an unexpired lease.
* `Action.failsInTime`: a downstream failure interrupts no such inference.

## Main results

* `excludes_iff_in_time`: the inference is exclusive in every run whose downstream failures are in
  time, and a downstream failure that is not in time breaks the exclusion.
* `inference_not_exclusive`: a run with two inferences of one job at once.
-/

namespace Morphflow

/-- The lease has expired. -/
def JobLease.ExpiredAt (lease : JobLease) (clock : Instant) : Prop :=
  ∃ t, lease.expiresAt = some t ∧ t < clock

/-- While an inference is under way under a lease that has not expired, no claim of its job
succeeds, whoever makes it. -/
def World.Excludes (w : World) : Prop :=
  ∀ i c lease t, w.calls i = some (.inference c) → c.lease? = some lease →
    lease.expiresAt = some t → w.clock ≤ t → ∀ owner leaseSeconds now, now ≤ w.clock →
    claimForProcessing w.db.jobs c.event.jobId owner leaseSeconds now = none

/-- A failure of the downstream stage whose record takes effect while the job is `PROCESSING` finds
the leases of all inferences of the job that are under way expired. -/
def Action.failsInTime (w : World) : Action → Prop
  | .downstream i (.fail _ fate) => fate.takesEffect = true → ∀ c row,
      w.calls i = some (.downstream c) → (∃ error, c.phase = .failing error) →
      w.db.jobs c.event.jobId = some row → row.status = .processing → ∀ j d lease,
      w.calls j = some (.inference d) → d.event.jobId = c.event.jobId → d.lease? = some lease →
      lease.ExpiredAt w.clock
  | _ => True

/-! ### What protects a lease -/

/-- The lease has expired, or the row is under it, or finished under it. -/
def JobLease.Guards (lease : JobLease) (clock : Instant) (row : JobRow) : Prop :=
  ∃ t, lease.expiresAt = some t ∧ (t < clock ∨ (lease.epoch = row.leaseEpoch ∧
    (row.status = .processing ∨ row.status = .success) ∧ row.leaseExpiresAt = some t))

namespace JobLease

variable {lease : JobLease} {clock clock' now : Instant} {row row' : JobRow}

theorem ExpiredAt.guards (h : lease.ExpiredAt clock) : lease.Guards clock row := by
  obtain ⟨t, ht, hlt⟩ := h
  exact ⟨t, ht, .inl hlt⟩

theorem Guards.mono (h : lease.Guards clock row) (hle : clock ≤ clock') :
    lease.Guards clock' row := by
  obtain ⟨t, ht, hlt | hrest⟩ := h
  · exact ⟨t, ht, .inl (lt_of_lt_of_le hlt hle)⟩
  · exact ⟨t, ht, .inr hrest⟩

/-- A row that can be claimed protects no lease that has not expired. -/
theorem Guards.expiredAt (h : lease.Guards clock row) (hc : row.claimable now = true)
    (hnow : now ≤ clock) : lease.ExpiredAt clock := by
  obtain ⟨t, ht, hlt | ⟨-, hs, hexp⟩⟩ := h
  · exact ⟨t, ht, hlt⟩
  · rcases JobRow.claimable_iff.mp hc with hs' | hs' | ⟨-, hlt⟩
    · rw [hs'] at hs
      exact absurd hs (by decide)
    · rw [hs'] at hs
      exact absurd hs (by decide)
    · exact ⟨t, ht, lt_of_lt_of_le (hlt t hexp) hnow⟩

end JobLease

/-- The lease of an inference under way. -/
def World.inferenceLease (w : World) (i : ℕ) : Option JobLease :=
  match w.calls i with
  | some (.inference c) => c.lease?
  | _ => none

theorem World.inferenceLease_eq_some_iff {w : World} {i : ℕ} {lease : JobLease} :
    w.inferenceLease i = some lease ↔
      ∃ c, w.calls i = some (.inference c) ∧ c.lease? = some lease := by
  unfold World.inferenceLease
  split
  · next c hi => simp [hi]
  · next hne =>
    constructor
    · rintro ⟨⟩
    · rintro ⟨c, hi, -⟩
      exact absurd hi (hne c)

/-! ### The leases after a step -/

section Leases

variable {w : World} {i j : ℕ} {c : LeasedCall} {lease : JobLease} {service : Service}
  {event : Event}

theorem World.inferenceLease_goOn_of_ne {call : Call} {db : Db} (hj : j ≠ i) :
    (w.goOn i call db).inferenceLease j = w.inferenceLease j := by
  rw [World.inferenceLease, World.goOn_calls, KeyedTable.set_of_ne _ _ hj, World.inferenceLease]

theorem World.inferenceLease_goOn_self {db : Db} :
    (w.goOn i (.inference c) db).inferenceLease i = c.lease? := by
  rw [World.inferenceLease, World.goOn_calls, KeyedTable.set_self]

/-- The calls after a start: those there were, and one that holds nothing. -/
theorem World.calls_start
    (hj : (w.goOn i (service.handleEvent event) w.db).calls j = some (.inference c)) :
    w.calls j = some (.inference c) ∨ c.phase = .claiming := by
  rcases KeyedTable.set_eq_some_iff.mp hj with ⟨-, heq⟩ | ⟨-, hj⟩
  · right
    cases service <;> simp only [Service.handleEvent, Call.inference.injEq, reduceCtorEq] at heq
    rw [← heq]
  · exact .inl hj

theorem World.inferenceLease_of_start
    (hl : (w.goOn i (service.handleEvent event) w.db).inferenceLease j = some lease) :
    w.inferenceLease j = some lease := by
  obtain ⟨c, hc, hl⟩ := World.inferenceLease_eq_some_iff.mp hl
  rcases World.calls_start hc with hc | hp
  · exact World.inferenceLease_eq_some_iff.mpr ⟨c, hc, hl⟩
  · simp [LeasedCall.lease?, hp] at hl

/-- The leases name the jobs of their calls. -/
def World.LeasesNamed (w : World) : Prop :=
  ∀ i c, w.calls i = some (.inference c) → c.LeaseNamed

theorem World.LeasesNamed.start (h : w.LeasesNamed) :
    (w.goOn i (service.handleEvent event) w.db).LeasesNamed := by
  intro j c hc lease hl
  rcases World.calls_start hc with hc | hp
  · exact h j c hc lease hl
  · simp [LeasedCall.lease?, hp] at hl

theorem World.LeasesNamed.inference (h : w.LeasesNamed) (hc : c.LeaseNamed) {db : Db} :
    (w.goOn i (.inference c) db).LeasesNamed := by
  intro j d hj
  rcases KeyedTable.set_eq_some_iff.mp hj with ⟨-, heq⟩ | ⟨-, hj⟩
  · exact Call.inference.inj heq ▸ hc
  · exact h j d hj

end Leases

/-- Every lease of an inference under way is protected. -/
structure World.Guarded (w : World) : Prop where
  disciplined : (jobFencing fun _ _ => True).Disciplined w.db.jobs w.inferenceLease
  named : ∀ i c, w.calls i = some (.inference c) → c.LeaseNamed
  guards : ∀ i lease, w.inferenceLease i = some lease →
    ∃ row, w.db.jobs lease.jobId = some row ∧ lease.Guards w.clock row

variable {topics : Topics} {w w' : World}

/-- Protected leases are exclusive. -/
theorem World.Guarded.excludes (h : w.Guarded) : w.Excludes := by
  intro i c lease t hi hl ht hle owner leaseSeconds now hnow
  obtain ⟨row, hrow, hguard⟩ :=
    h.guards i lease (World.inferenceLease_eq_some_iff.mpr ⟨c, hi, hl⟩)
  rw [h.named i c hi lease hl] at hrow
  rw [claimForProcessing_eq_none_iff]
  intro row' hrow'
  obtain rfl : row = row' := Option.some.inj (hrow.symm.trans hrow')
  rw [← Bool.not_eq_true]
  intro hc
  obtain ⟨t', ht', hlt⟩ := hguard.expiredAt hc hnow
  obtain rfl : t = t' := Option.some.inj (ht.symm.trans ht')
  exact absurd hlt (not_lt.mpr hle)

namespace World.Guarded

section Inference

variable {i j : ℕ} {c : LeasedCall} {a : LeasedAct} {phase' : LeasedPhase} {db' : Db}
  {lease : JobLease} (h : w.Guarded) (hi : w.calls i = some (.inference c))
  (heff : c.Effect "inference-worker" (InferencePipelineService.completeTx topics.downstream)
    w.db a phase' db')

include h hi heff

/-- The lease that a call has after its own step is protected. -/
theorem guards_own (hl : ({ c with phase := phase' } : LeasedCall).lease? = some lease) :
    ∃ row, db'.jobs lease.jobId = some row ∧ lease.Guards w.clock row := by
  -- a lease the call had before, when its step wrote no row
  have hkeep : c.lease? = some lease → db'.jobs = w.db.jobs →
      ∃ row, db'.jobs lease.jobId = some row ∧ lease.Guards w.clock row := by
    intro hl hjobs
    rw [hjobs]
    exact h.guards i lease (by rw [World.inferenceLease, hi]; exact hl)
  cases heff with
  | claimed _ _ hrow hc hphase =>
    rcases hphase with rfl | ⟨e, rfl⟩
    · obtain rfl := Option.some.inj hl
      exact ⟨_, KeyedTable.set_self .., _, rfl, .inr ⟨rfl, .inl rfl, rfl⟩⟩
    · cases hl
  | completed hp htx hphase =>
    obtain rfl := InferencePipelineService.completeTx_eq_some_iff.mp htx
    rcases hphase with rfl | ⟨e, rfl⟩
    · cases hl
    · exact hkeep (by rw [LeasedCall.lease?, hp]; exact hl) rfl
  | failed _ _ _ hphase => rcases hphase with rfl | ⟨e, rfl⟩ <;> cases hl
  | answered => cases LeasedCall.lease?_readBack.symm.trans hl
  | processed hp =>
    rw [LeasedCall.lease?_afterProcess] at hl
    exact hkeep (by rw [LeasedCall.lease?, hp]; exact hl) rfl
  | notCompleted hp => exact hkeep (by rw [LeasedCall.lease?, hp]; exact hl) rfl
  | _ => cases hl

/-- The lease of another call stays protected. -/
theorem guards_other (hclock : Action.readsClock w.clock (.leased i a) = true) (hj : j ≠ i)
    (hl : w.inferenceLease j = some lease) :
    ∃ row, db'.jobs lease.jobId = some row ∧ lease.Guards w.clock row := by
  obtain ⟨row₀, hrow₀, hguard⟩ := h.guards j lease hl
  -- a write of the row of the lease leaves it protected
  have hwrite : ∀ row' : JobRow, (lease.jobId = c.event.jobId → lease.Guards w.clock row') →
      db'.jobs = w.db.jobs.set c.event.jobId row' →
      ∃ row, db'.jobs lease.jobId = some row ∧ lease.Guards w.clock row := by
    intro row' hguard' hjobs
    rw [hjobs]
    exact KeyedTable.exists_set hrow₀ (fun _ => hguard) hguard'
  cases heff with
  | @claimed now _ _ row _ ha _ hrow hc hphase =>
    refine hwrite _ (fun hk => ?_) rfl
    obtain rfl : row₀ = row := Option.some.inj (hrow₀.symm.trans (hk ▸ hrow))
    subst ha
    exact (hguard.expiredAt hc (by simpa [Action.readsClock] using hclock)).guards
  | completed _ htx =>
    obtain rfl := InferencePipelineService.completeTx_eq_some_iff.mp htx
    exact ⟨row₀, hrow₀, hguard⟩
  | @failed own error _ row _ hp hrow happ hphase =>
    refine hwrite _ (fun hk => ?_) rfl
    obtain rfl : row₀ = row := Option.some.inj (hrow₀.symm.trans (hk ▸ hrow))
    obtain ⟨t, ht, hlt | ⟨hepoch, -, -⟩⟩ := hguard
    · exact ⟨t, ht, .inl hlt⟩
    · -- only one call holds the current lease
      have hlease : c.lease? = some own := by rw [LeasedCall.lease?, hp]
      have hown : w.inferenceLease i = some own := by rw [World.inferenceLease, hi]; exact hlease
      have hkey : lease.jobId = own.jobId := by rw [hk, h.named i c hi own hlease]
      have hsame : lease.epoch = own.epoch :=
        hepoch.trans (LeasedCall.failureChange_applies.mp happ).2.2
      exact absurd (h.disciplined.unique j i lease own hl hown hkey hsame) hj
  | _ => exact ⟨row₀, hrow₀, hguard⟩

theorem inference (hclock : Action.readsClock w.clock (.leased i a) = true) :
    (w.goOn i (.inference { c with phase := phase' }) db').Guarded := by
  have hli : w.inferenceLease i = c.lease? := by rw [World.inferenceLease, hi]
  have hnamed := h.named i c hi
  have hcomplete : c.KeepsValid (fun _ _ => True)
      (InferencePipelineService.completeTx topics.downstream) w.db := by
    intro lease result ids db₁ htx
    obtain rfl := InferencePipelineService.completeTx_eq_some_iff.mp htx
    exact .inl rfl
  refine ⟨?_, World.LeasesNamed.inference h.named (heff.leaseNamed hnamed), fun j lease hl => ?_⟩
  · refine heff.disciplined h.disciplined hli inferenceLease_goOn_self (fun j m hj hm => ?_) hnamed
      (fun _ _ => trivial) hcomplete
    rwa [inferenceLease_goOn_of_ne hj] at hm
  · by_cases hj : j = i
    · subst hj
      rw [inferenceLease_goOn_self] at hl
      exact h.guards_own hi heff hl
    · rw [inferenceLease_goOn_of_ne hj] at hl
      exact h.guards_other hi heff hclock hj hl

end Inference

/-- A step of a downstream call that is in time keeps the leases protected. -/
theorem downstream (h : w.Guarded) {i : ℕ} {c : DownstreamCall} {a : DownstreamAct}
    {phase' : DownstreamPhase} {db' : Db} (hi : w.calls i = some (.downstream c))
    (heff : c.Effect w.db a phase' db') (hintime : Action.failsInTime w (.downstream i a)) :
    (w.goOn i (.downstream { c with phase := phase' }) db').Guarded := by
  have hlease : (w.goOn i (.downstream { c with phase := phase' }) db').inferenceLease =
      w.inferenceLease := by
    funext j
    by_cases hj : j = i
    · subst hj
      rw [World.inferenceLease, World.goOn_calls, KeyedTable.set_self, World.inferenceLease, hi]
    · exact inferenceLease_goOn_of_ne hj
  have hnamed : ∀ j d, (w.goOn i (.downstream { c with phase := phase' }) db').calls j =
      some (.inference d) → d.LeaseNamed := by
    intro j d hj
    rcases KeyedTable.set_eq_some_iff.mp hj with ⟨-, heq⟩ | ⟨-, hj⟩
    · cases heq
    · exact h.named j d hj
  -- a write of the row of the job that keeps its epoch and the protection of its leases
  have hwrite : ∀ row row', w.db.jobs c.event.jobId = some row →
      db'.jobs = w.db.jobs.set c.event.jobId row' → row'.leaseEpoch = row.leaseEpoch →
      (∀ j lease, w.inferenceLease j = some lease → lease.jobId = c.event.jobId →
        lease.Guards w.clock row → lease.Guards w.clock row') →
      (w.goOn i (.downstream { c with phase := phase' }) db').Guarded := by
    intro row row' hrow hjobs hepoch hguards
    refine ⟨?_, hnamed, ?_⟩
    · rw [hlease, World.goOn_db, hjobs]
      exact h.disciplined.touch hrow hepoch (fun _ _ _ _ _ _ => trivial) fun _ _ hl => hl
    · intro j lease hl
      rw [hlease] at hl
      obtain ⟨row₀, hrow₀, hguard⟩ := h.guards j lease hl
      rw [World.goOn_db, hjobs]
      refine KeyedTable.exists_set hrow₀ (fun _ => hguard) fun hk => ?_
      obtain rfl : row₀ = row := Option.some.inj (hrow₀.symm.trans (hk ▸ hrow))
      exact hguards j lease hl hk hguard
  have hsame : db'.jobs = w.db.jobs →
      (w.goOn i (.downstream { c with phase := phase' }) db').Guarded := by
    intro hjobs
    refine ⟨?_, hnamed, fun j lease hl => ?_⟩
    · rw [hlease, World.goOn_db, hjobs]
      exact h.disciplined
    · rw [hlease] at hl
      rw [World.goOn_db, hjobs]
      exact h.guards j lease hl
  cases heff with
  | completed _ _ _ hrow hs =>
    refine hwrite _ _ hrow rfl rfl fun j lease hl hk hguard => ?_
    obtain ⟨t, ht, hlt | ⟨hepoch, -, hexp⟩⟩ := hguard
    · exact ⟨t, ht, .inl hlt⟩
    · exact ⟨t, ht, .inr ⟨hepoch, .inr rfl, hexp⟩⟩
  | @failed error eventId fate row _ ha hf hp hrow hs =>
    refine hwrite _ _ hrow rfl rfl fun j lease hl hk hguard => ?_
    rcases hs with hs | hs
    · -- a job that waits is under no lease
      obtain ⟨t, ht, hlt | ⟨-, hs', -⟩⟩ := hguard
      · exact ⟨t, ht, .inl hlt⟩
      · rw [hs] at hs'
        exact absurd hs' (by decide)
    · obtain ⟨d, hd, hld⟩ := World.inferenceLease_eq_some_iff.mp hl
      subst ha
      exact (hintime hf c row hi ⟨error, hp⟩ hrow hs j d lease hd
        ((h.named j d hd lease hld).symm.trans hk) hld).guards
  | _ => exact hsame rfl

theorem created (h : w.Guarded) {ids : RequestIds} {payload : Dict}
    (hjob : w.db.jobs ids.jobId = none) :
    { w with db := JobService.createdDb topics.request ids payload w.db : World }.Guarded := by
  refine ⟨h.disciplined.insert hjob fun _ _ hl => hl, h.named, fun j lease hl => ?_⟩
  obtain ⟨row, hrow, hguard⟩ := h.guards j lease hl
  have hk : lease.jobId ≠ ids.jobId := by
    intro hk
    rw [hk, hjob] at hrow
    cases hrow
  refine ⟨row, ?_, hguard⟩
  rw [JobService.createdDb_jobs, KeyedTable.set_of_ne _ _ hk, hrow]

theorem started (h : w.Guarded) {i : ℕ} (service : Service) (event : Event) :
    (w.goOn i (service.handleEvent event) w.db).Guarded := by
  exact ⟨h.disciplined.release fun _ _ => inferenceLease_of_start, World.LeasesNamed.start h.named,
    fun j lease hl => h.guards j lease (inferenceLease_of_start hl)⟩

theorem ticked (h : w.Guarded) {now : Instant} (hle : w.clock ≤ now) :
    { w with clock := now : World }.Guarded := by
  refine ⟨h.disciplined, h.named, fun j lease hl => ?_⟩
  obtain ⟨row, hrow, hguard⟩ := h.guards j lease hl
  exact ⟨row, hrow, hguard.mono hle⟩

end World.Guarded

open Classical in
theorem guarded_of_reachable
    (h : ((modesCBC topics).restrict fun w a => a.failsInTime w).Reachable w) : w.Guarded := by
  refine h.rec_on_step (P := World.Guarded) ?_ ?_
  · rintro w ⟨hdb, hcalls⟩
    have hnone : ∀ i, w.inferenceLease i = none := fun i => by rw [World.inferenceLease, hcalls i]
    refine ⟨.of_none hnone, fun i c hi => ?_, fun i l hl => ?_⟩
    · cases (hcalls i).symm.trans hi
    · cases (hnone i).symm.trans hl
  · intro w a w' hw hguarded hstep
    obtain ⟨hintime, hstep⟩ := TransitionSystem.restrict_step_eq_some.mp hstep
    obtain ⟨hok, hstep⟩ := TransitionSystem.restrict_step_eq_some.mp hstep
    obtain ⟨hclock, hok⟩ := (Bool.and_eq_true _ _).mp hok
    cases World.effect_of_step hstep with
    | unchanged => exact hguarded
    | created hjob => exact hguarded.created hjob
    | started => exact hguarded.started ..
    | worker hi => exact absurd hi (modesCBC_calls hw.of_restrict)
    | inference hi heff => exact hguarded.inference hi heff hclock
    | downstream hi heff => exact hguarded.downstream hi heff hintime
    | renewed => simp [Action.startsOnly] at hok
    | ticked hle => exact hguarded.ticked hle

/-! ### What a failure that is not in time does -/

/-- A failure of the downstream stage that is not in time leaves a job that can be claimed under an
inference. -/
theorem not_excludes_of_late {a : Action} (hstep : w.step topics a = some w')
    (hlate : ¬ a.failsInTime w) (hexpires : ∀ i c lease, w.calls i = some (.inference c) →
      c.lease? = some lease → ∃ t, lease.expiresAt = some t) : ¬ w'.Excludes := by
  cases a with
  | downstream i a =>
    cases a with
    | fail eventId fate =>
      simp only [Action.failsInTime] at hlate
      push Not at hlate
      obtain ⟨hf, c, row, hi, ⟨error, hp⟩, hrow, hs, j, d, lease, hd, hjob, hl, hlive⟩ := hlate
      obtain ⟨t, ht⟩ := hexpires j d lease hd hl
      have hji : j ≠ i := by
        rintro rfl
        cases hd.symm.trans hi
      obtain ⟨phase', hcall⟩ := DownstreamCall.step_fail eventId hp hf hrow (.inr hs)
      obtain rfl : w.goOn i _ _ = w' := by simpa [World.step, hi, hcall] using hstep
      intro hex
      -- the job is `FAILED`, so it can be claimed at once
      have hclaim := hex j d lease t ((KeyedTable.set_of_ne _ _ hji).trans hd) hl ht
        (not_lt.mp fun hlt => hlive ⟨t, ht, hlt⟩) d.workerId 0 w.clock le_rfl
      rw [claimForProcessing_eq_none_iff, hjob] at hclaim
      cases hclaim _ (KeyedTable.set_self ..)
    | _ => exact absurd trivial hlate
  | _ => exact absurd trivial hlate

open Classical in
/-- **When the inference is exclusive.** In every run of the modes C and BC whose downstream
failures find the leases of the inferences under way expired, no claim of a job succeeds while an
inference of it is under way under an unexpired lease; a step outside this condition leads to a
state in which one does. -/
theorem excludes_iff_in_time
    (h : ((modesCBC topics).restrict fun w a => a.failsInTime w).Reachable w) :
    (∀ i c lease t, w.calls i = some (.inference c) → c.lease? = some lease →
      lease.expiresAt = some t → w.clock ≤ t → ∀ owner leaseSeconds now, now ≤ w.clock →
      claimForProcessing w.db.jobs c.event.jobId owner leaseSeconds now = none) ∧
    ∀ a w', (modesCBC topics).step w a = some w' → ¬ a.failsInTime w → ¬ w'.Excludes := by
  have hguarded := guarded_of_reachable h
  refine ⟨hguarded.excludes, fun a w' hstep hlate => ?_⟩
  refine not_excludes_of_late (TransitionSystem.restrict_step_eq_some.mp hstep).2 hlate ?_
  intro i c lease hi hl
  obtain ⟨-, -, t, ht, -⟩ :=
    hguarded.guards i lease (World.inferenceLease_eq_some_iff.mpr ⟨c, hi, hl⟩)
  exact ⟨t, ht⟩

open Classical in
/-- A claim while the first inference of a job is under way. -/
theorem excludes_iff_in_time_under_way : ∃ w c,
    (modesCBC ⟨"requests", "downstream"⟩).Reachable w ∧ w.calls 0 = some (.inference c) ∧
    c.lease? = some ⟨1, "inference-a", 1, some 1800000000⟩ ∧
    claimForProcessing w.db.jobs 1 "inference-b" 1800 0 = none := by
  let topics : Topics := ⟨"requests", "downstream"⟩
  have hr : ((modesCBC topics).run World.initial (exampleInference.take 3)).isSome := rfl
  have hrun := TransitionSystem.run_restrict
    (p := fun w a => a.failsInTime w) (by
      intro a ha w
      simp only [exampleInference, List.take_succ_cons, List.take_zero, List.mem_cons,
        List.not_mem_nil, or_false] at ha
      rcases ha with rfl | rfl | rfl <;> trivial) (Option.some_get hr).symm
  have hw := TransitionSystem.Reachable.of_run
    (T := (modesCBC topics).restrict fun w a => a.failsInTime w) (pipeline_init_initial topics) hrun
  exact ⟨_, _, hw.of_restrict, rfl, rfl,
    (excludes_iff_in_time hw).1 0 _ _ 1800000000 rfl rfl rfl
      (show (0 : ℤ) ≤ 1800000000 by decide) "inference-b" 1800 0 (show (0 : ℤ) ≤ 0 by decide)⟩

/-- **Two inferences at once.** The envelope of a first inference is being processed when its lease
expires and a redelivered request starts a second inference; then the downstream stage records a
failure, and the job can be claimed a third time under the second inference. -/
theorem inference_not_exclusive :
    ¬ ∀ w, (modesCBC ⟨"requests", "downstream"⟩).Reachable w → w.Excludes := by
  intro h
  let topics : Topics := ⟨"requests", "downstream"⟩
  have hw := TransitionSystem.Reachable.get (T := modesCBC topics)
    (exampleInference ++ [.start 1 .downstream exampleEnvelope, .downstream 1 (.read none),
      .downstream 1 (.process (.error "timeout")), .tick 1801000000,
      .start 2 (.inference "inference-b" 1800) (JobService.requestEvent exampleIds []),
      .leased 2 (.claim 1801000000 20 .commits), .downstream 1 (.fail 21 .commits)])
    (pipeline_init_initial topics) rfl
  cases h _ hw 2 _ _ 3601000000 rfl rfl rfl (by decide) "inference-c" 1800 1801000000
    (by decide)

end Morphflow
