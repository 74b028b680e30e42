import Morphflow.Requests.Soundness

/-!
# The validity of a key

A key is advertised as valid for `idempotency_ttl_seconds` after its job. The entry that protects
it lives for `worker_processing_ttl_seconds` until the call marks the key as completed, which it may
never do; and a call may outlive its reservation before it commits. A second reservation is then
granted within the validity.

## Main definitions

* `RequestWorld.OncePerValidity`: no two jobs of a key are committed within its validity.
* `RequestAct.grantsInTime`: a reservation is granted outside the validity of the key and while no
  other call of the key is about to commit.

## Main results

* `RequestWorld.Valid.of_effect`: a step that meets the condition keeps the jobs apart.
* `once_per_validity_in_time`: the runs that meet the condition, and what a step outside it leads
  to.
* `not_once_per_validity`: a call that dies between its commit and the mark of completion.
-/

namespace Morphflow

/-- Of two jobs committed for the key, the later one is committed after the validity that the
earlier one began. -/
def RequestWorld.OncePerValidity (cfg : RequestSettings) (key : String) (w : RequestWorld) : Prop :=
  ∀ x ∈ w.commits, ∀ y ∈ w.commits, x.key = key → y.key = key → y.jobId ≠ x.jobId →
    ¬ (x.committedAt < y.committedAt ∧
      y.committedAt ≤ x.committedAt + timedelta cfg.store.ttlSeconds)

/-- A reservation of the key that is granted to a call that goes on finds no other call of the key
about to commit, and the validity of the jobs committed for the key over. -/
def RequestAct.grantsInTime (cfg : RequestSettings) (key : String) (w : RequestWorld) :
    RequestAct → Prop
  | .step i .commits => ∀ c, w.calls i = some c → c.requestKey = key → c.phase = .reserving →
      0 < cfg.store.processingTtlSeconds →
      RedisIdempotencyStore.getRequestRecord w.redis w.clock key = none →
      (∀ j d, j ≠ i → w.calls j = some d → d.requestKey = key → d.phase ≠ .committing) ∧
        ∀ x ∈ w.commits, x.key = key →
          x.committedAt + timedelta cfg.store.ttlSeconds < w.clock
  | _ => True

namespace RequestWorld

/-- The jobs of the key are apart, and so is the one that a call is about to commit. -/
structure Valid (cfg : RequestSettings) (key : String) (w : RequestWorld) : Prop where
  sound : w.Sound cfg
  apart : w.commits.Pairwise fun x y => x.key = key → y.key = key →
    x.committedAt + timedelta cfg.store.ttlSeconds < y.committedAt
  past : ∀ x ∈ w.commits, x.committedAt ≤ w.clock
  due : ∀ i c, w.calls i = some c → c.requestKey = key → c.phase = .committing →
    ∀ x ∈ w.commits, x.key = key → x.committedAt + timedelta cfg.store.ttlSeconds < w.clock
  single : ∀ i j c d, w.calls i = some c → w.calls j = some d → c.requestKey = key →
    d.requestKey = key → c.phase = .committing → d.phase = .committing → i = j

variable {cfg : RequestSettings} {key : String} {w w' : RequestWorld} {i : ℕ} {c : RequestCall}

namespace Valid

theorem oncePerValidity (h : w.Valid cfg key) : w.OncePerValidity cfg key := by
  intro x hx y hy hxk hyk hne ⟨hlt, hle⟩
  let Apart : RequestCommit → RequestCommit → Prop := fun x y => x.key = key → y.key = key →
    x.committedAt + timedelta cfg.store.ttlSeconds < y.committedAt ∨
      y.committedAt + timedelta cfg.store.ttlSeconds < x.committedAt
  have hsymm : Std.Symm Apart := ⟨fun x y hxy hy hx => (hxy hx hy).symm⟩
  have hpairwise : w.commits.Pairwise Apart := h.apart.imp fun hxy hx hy => .inl (hxy hx hy)
  have hapart := hpairwise.forall hx hy (fun heq => hne (by rw [heq])) hxk hyk
  rcases hapart with hapart | hapart
  · exact (hapart.trans_le hle).false
  · linarith

theorem of_init (h : (requests cfg).init w) : w.Valid cfg key := by
  obtain ⟨hcalls, -, hcommits⟩ := id h
  refine ⟨.of_init h, ?_, fun x hx => ?_, fun i c hi => ?_, fun i j c d hi => ?_⟩
  · rw [hcommits]
    exact .nil
  · rw [hcommits] at hx
    cases hx
  · cases (hcalls i).symm.trans hi
  · cases (hcalls i).symm.trans hi

/-- A step that commits nothing and brings no call to its commit. -/
theorem rephase (h : w.Valid cfg key) (hsound : w'.Sound cfg) (hcommits : w'.commits = w.commits)
    (hclock : w.clock ≤ w'.clock) (hcalls : ∀ j d, w'.calls j = some d → d.phase = .committing →
      w.calls j = some d) : w'.Valid cfg key where
  sound := hsound
  apart := hcommits ▸ h.apart
  past x hx := (h.past x (hcommits ▸ hx)).trans hclock
  due j d hj hk hp x hx hxk :=
    (h.due j d (hcalls j d hj hp) hk hp x (hcommits ▸ hx) hxk).trans_le hclock
  single j k d e hj hk hdk hek hpd hpe :=
    h.single j k d e (hcalls j d hj hpd) (hcalls k e hk hpe) hdk hek hpd hpe

theorem grant (h : w.Valid cfg key) {redis' : Redis} {phase' : RequestPhase}
    (hsound : Sound cfg { w with
      redis := redis', calls := w.calls.set i { c with phase := phase' } })
    (hother : c.requestKey = key → ∀ j d, j ≠ i → w.calls j = some d → d.requestKey = key →
      d.phase ≠ .committing)
    (hover : c.requestKey = key → ∀ x ∈ w.commits, x.key = key →
      x.committedAt + timedelta cfg.store.ttlSeconds < w.clock) :
    Valid cfg key { w with
      redis := redis', calls := w.calls.set i { c with phase := phase' } } where
  sound := hsound
  apart := h.apart
  past := h.past
  due j d hj hk hp := by
    rcases KeyedTable.set_eq_some_iff.mp hj with ⟨-, rfl⟩ | ⟨-, hj⟩
    · exact hover hk
    · exact h.due j d hj hk hp
  single j k d e hj hk hdk hek hpd hpe := by
    rcases KeyedTable.set_eq_some_iff.mp hj with ⟨hji, rfl⟩ | ⟨hji, hj'⟩
    · rcases KeyedTable.set_eq_some_iff.mp hk with ⟨hki, -⟩ | ⟨hki, hk'⟩
      · rw [hji, hki]
      · exact absurd hpe (hother hdk k e hki hk' hek)
    · rcases KeyedTable.set_eq_some_iff.mp hk with ⟨hki, rfl⟩ | ⟨hki, hk'⟩
      · exact absurd hpd (hother hek j d hji hj' hdk)
      · exact h.single j k d e hj' hk' hdk hek hpd hpe

theorem commit (h : w.Valid cfg key) (hi : w.calls i = some c) (hp : c.phase = .committing)
    {phase' : RequestPhase} (hphase : phase' ≠ .committing) {db' : Db}
    (hsound : Sound cfg { w with
      db := db', calls := w.calls.set i { c with phase := phase' }
      commits := w.commits ++ [⟨c.requestKey, c.ids.jobId, w.clock⟩] }) :
    Valid cfg key { w with
      db := db', calls := w.calls.set i { c with phase := phase' }
      commits := w.commits ++ [⟨c.requestKey, c.ids.jobId, w.clock⟩] } where
  sound := hsound
  apart := by
    refine List.pairwise_append.mpr
      ⟨h.apart, List.pairwise_singleton .., fun x hx y hy hxk hyk => ?_⟩
    obtain rfl := List.mem_singleton.mp hy
    exact h.due i c hi hyk hp x hx hxk
  past x hx := by
    rcases List.mem_append.mp hx with hx | hx
    · exact h.past x hx
    · rw [List.mem_singleton.mp hx]
  due j d hj hk hpd x hx hxk := by
    rcases KeyedTable.set_eq_some_iff.mp hj with ⟨-, rfl⟩ | ⟨hji, hj'⟩
    · exact absurd hpd hphase
    · rcases List.mem_append.mp hx with hx | hx
      · exact h.due j d hj' hk hpd x hx hxk
      · -- no other call of the key is about to commit
        obtain rfl := List.mem_singleton.mp hx
        exact absurd (h.single j i d c hj' hi hk hxk hpd hp) hji
  single j k d e hj hk hdk hek hpd hpe := by
    rcases KeyedTable.set_eq_some_iff.mp hj with ⟨-, rfl⟩ | ⟨-, hj'⟩
    · exact absurd hpd hphase
    · rcases KeyedTable.set_eq_some_iff.mp hk with ⟨-, rfl⟩ | ⟨-, hk'⟩
      · exact absurd hpe hphase
      · exact h.single j k d e hj' hk' hdk hek hpd hpe

theorem stepped (h : w.Valid cfg key) (hi : w.calls i = some c) {fate : TxFate}
    {phase' : RequestPhase} {redis' : Redis} {db' : Db}
    (heff : c.Effect cfg w.clock w.redis w.db fate phase' redis' db')
    (hintime : (RequestAct.step i fate).grantsInTime cfg key w) :
    Valid cfg key { w with
      redis := redis'
      db := db'
      calls := w.calls.set i { c with phase := phase' }
      commits := w.commits ++ (c.commit? cfg w.clock fate w.db).toList } := by
  have hsound := h.sound.stepped hi heff
  by_cases hgrant : phase' = .committing
  · subst hgrant
    obtain ⟨hp, rfl, hpos, hnone, rfl⟩ := heff.granted_of_committing
    have hcommit : c.commit? cfg w.clock .commits w.db = none :=
      RequestCall.commit?_of_ne (by simp [hp])
    rw [hcommit, Option.toList_none, List.append_nil] at hsound ⊢
    exact h.grant hsound (fun hk => (hintime c hi hk hp hpos (hk ▸ hnone)).1)
      fun hk => (hintime c hi hk hp hpos (hk ▸ hnone)).2
  · rcases heff.commit?_cases with ⟨hnone, -, -, -⟩ | ⟨hp, hjob, hrow, hphase, rfl, rfl⟩
    · refine h.rephase hsound (by simp [hnone]) le_rfl fun j d hj hp => ?_
      rcases KeyedTable.set_eq_some_iff.mp hj with ⟨-, rfl⟩ | ⟨-, hj⟩
      · exact absurd hp hgrant
      · exact hj
    · rw [RequestCall.commit?_of_goesOn hp hjob hrow hphase, Option.toList_some] at hsound ⊢
      exact h.commit hi hp hgrant hsound

/-- **Step lemma.** A step that meets the condition keeps the jobs of the key apart. -/
theorem of_effect (h : w.Valid cfg key) {a : RequestAct} (heff : Effect cfg w a w')
    (hintime : a.grantsInTime cfg key w) : w'.Valid cfg key := by
  have hsound := h.sound.of_effect heff
  cases heff with
  | begun hi hfresh =>
    refine h.rephase hsound rfl le_rfl fun j d hj hp => ?_
    rcases KeyedTable.set_eq_some_iff.mp hj with ⟨-, rfl⟩ | ⟨-, hj⟩
    · cases hp
    · exact hj
  | stepped hi heff => exact h.stepped hi heff hintime
  | crashed hi hp =>
    refine h.rephase hsound rfl le_rfl fun j d hj hp => ?_
    rcases KeyedTable.set_eq_some_iff.mp hj with ⟨-, rfl⟩ | ⟨-, hj⟩
    · cases hp
    · exact hj
  | ticked hle => exact h.rephase hsound rfl hle fun _ _ hj _ => hj
  | lost => exact h.rephase hsound rfl le_rfl fun _ _ hj _ => hj

open Classical in
/-- **Run lemma.** -/
theorem of_reachable
    (h : ((requests cfg).restrict fun w a => a.grantsInTime cfg key w).Reachable w) :
    w.Valid cfg key :=
  h.rec_on_step (fun _ h₀ => .of_init h₀) fun w a w' _ hv hstep => by
    obtain ⟨hintime, hstep⟩ := TransitionSystem.restrict_step_eq_some.mp hstep
    exact hv.of_effect (effect_of_step hstep) hintime

end Valid

/-! ### What a grant that is not in time leads to -/

/-- The job of a call is committed next. -/
def committedNext (cfg : RequestSettings) (w : RequestWorld) (i : ℕ) (c : RequestCall) :
    RequestWorld :=
  { w with
    db := JobService.createdDb cfg.topic c.ids c.payload w.db
    calls := w.calls.set i { c with phase := .completing }
    commits := w.commits ++ [⟨c.requestKey, c.ids.jobId, w.clock⟩] }

theorem step_committedNext (h : w.Sound cfg) (hi : w.calls i = some c)
    (hp : c.phase = .committing) :
    w.step cfg (.step i .commits) = some (w.committedNext cfg i c) := by
  have habsent := h.absent hi (by rw [hp]; rfl)
  have hstep : c.step cfg w.clock .commits w.redis w.db =
      some (.completing, w.redis, JobService.createdDb cfg.topic c.ids c.payload w.db) :=
    RequestCall.step_committing hp habsent.job habsent.rowId
  have hgoes : RequestCall.GoesOn .commits .completing .completing := .inl ⟨rfl, rfl⟩
  have hcommit : c.commit? cfg w.clock .commits w.db = some ⟨c.requestKey, c.ids.jobId, w.clock⟩ :=
    RequestCall.commit?_of_goesOn hp habsent.job habsent.rowId hgoes
  simp only [step, hi, hstep, hcommit, Option.map_some, Option.toList_some]
  rfl

/-- A call that is about to commit within the validity of a job of its key may commit there. -/
theorem overtaken (h : w.Sound cfg) (hi : w.calls i = some c) (hp : c.phase = .committing)
    (hk : c.requestKey = key) {x : RequestCommit} (hx : x ∈ w.commits) (hxk : x.key = key)
    (hpos : 0 < timedelta cfg.store.ttlSeconds)
    (hvalid : w.clock ≤ x.committedAt + timedelta cfg.store.ttlSeconds) :
    ∃ as w', (requests cfg).run w as = some w' ∧ ¬ w'.OncePerValidity cfg key := by
  -- the commit comes a moment later, but still within the validity
  let now := max w.clock (x.committedAt + 1)
  have hlater : x.committedAt < now := (lt_add_one _).trans_le (le_max_right ..)
  have hwithin : now ≤ x.committedAt + timedelta cfg.store.ttlSeconds :=
    max_le hvalid (add_le_add_right (Int.add_one_le_of_lt hpos) _)
  let w₁ : RequestWorld := { w with clock := now }
  have htick : w.step cfg (.tick now) = some w₁ := if_pos (le_max_left ..)
  have hsound : w₁.Sound cfg := h.of_effect (effect_of_step htick)
  have hcommit : w₁.step cfg (.step i .commits) = some (w₁.committedNext cfg i c) :=
    step_committedNext hsound hi hp
  refine ⟨[.tick now, .step i .commits], w₁.committedNext cfg i c, ?_, fun honce => ?_⟩
  · exact (requests cfg).run_cons_eq_some.mpr ⟨w₁, htick,
      (requests cfg).run_cons_eq_some.mpr ⟨_, hcommit, rfl⟩⟩
  · obtain ⟨row, hrow⟩ := h.stored x hx
    have hne : c.ids.jobId ≠ x.jobId := by
      intro heq
      rw [← heq, (h.absent hi (by rw [hp]; rfl)).job] at hrow
      cases hrow
    exact honce x (List.mem_append_left _ hx) ⟨c.requestKey, c.ids.jobId, now⟩
      (List.mem_append_right _ (List.mem_singleton_self _)) hxk hk hne ⟨hlater, hwithin⟩

/-- A grant that is not in time leaves a world in which the key may yield two jobs. -/
theorem Valid.not_oncePerValidity (h : w.Valid cfg key) (hpos : 0 < cfg.store.ttlSeconds)
    {a : RequestAct} (hstep : w.step cfg a = some w') (hlate : ¬ a.grantsInTime cfg key w) :
    ∃ as w'', (requests cfg).run w' as = some w'' ∧ ¬ w''.OncePerValidity cfg key := by
  have hT : 0 < timedelta cfg.store.ttlSeconds := timedelta_pos hpos
  have hsound := h.sound.of_effect (effect_of_step hstep)
  obtain ⟨i, c, rfl, hi, hk, hp, hproc, hnone, hlate⟩ : ∃ i c, a = .step i .commits ∧
      w.calls i = some c ∧ c.requestKey = key ∧ c.phase = .reserving ∧
      0 < cfg.store.processingTtlSeconds ∧
      RedisIdempotencyStore.getRequestRecord w.redis w.clock key = none ∧
      ((∀ j d, j ≠ i → w.calls j = some d → d.requestKey = key → d.phase ≠ .committing) →
        ∃ x ∈ w.commits, x.key = key ∧
          w.clock ≤ x.committedAt + timedelta cfg.store.ttlSeconds) := by
    cases a with
    | step i fate =>
      cases fate with
      | commits =>
        simp only [RequestAct.grantsInTime] at hlate
        push Not at hlate
        obtain ⟨c, hi, hk, hp, hproc, hnone, hlate⟩ := hlate
        exact ⟨i, c, rfl, hi, hk, hp, hproc, hnone, hlate⟩
      | _ => exact absurd trivial hlate
    | _ => exact absurd trivial hlate
  have hgrant : c.step cfg w.clock .commits w.redis w.db = some (.committing,
      cfg.store.reserved w.redis w.clock c.requestKey c.ids.jobId, w.db) :=
    RequestCall.step_reserving hp hproc (hk ▸ hnone)
  have hw' : w' = { w with
      redis := cfg.store.reserved w.redis w.clock c.requestKey c.ids.jobId
      calls := w.calls.set i { c with phase := .committing } } := by
    have hcommit : c.commit? cfg w.clock .commits w.db = none :=
      RequestCall.commit?_of_ne (by simp [hp])
    simp only [step, hi, hgrant, hcommit, Option.map_some, Option.some.injEq, Option.toList_none,
      List.append_nil] at hstep
    exact hstep.symm
  subst hw'
  let c' : RequestCall := { c with phase := .committing }
  by_cases hother : ∀ j d, j ≠ i → w.calls j = some d → d.requestKey = key → d.phase ≠ .committing
  · obtain ⟨x, hx, hxk, hvalid⟩ := hlate hother
    exact overtaken (c := c') hsound (KeyedTable.set_self ..) rfl hk hx hxk hT hvalid
  · -- the other call commits first
    push Not at hother
    obtain ⟨j, d, hji, hj, hdk, hdp⟩ := hother
    have hj' := (KeyedTable.set_of_ne w.calls c' hji).trans hj
    have hcommit := step_committedNext hsound hj' hdp
    have hsound' := hsound.of_effect (effect_of_step hcommit)
    obtain ⟨as, w'', hrun, hviolates⟩ := overtaken (c := c') hsound'
      ((KeyedTable.set_of_ne _ _ hji.symm).trans (KeyedTable.set_self ..)) rfl hk
      (List.mem_append_right _ (List.mem_singleton_self _)) hdk hT
      (le_add_of_nonneg_right hT.le)
    exact ⟨.step j .commits :: as, w'',
      (requests cfg).run_cons_eq_some.mpr ⟨_, hcommit, hrun⟩, hviolates⟩

end RequestWorld

open Classical in
/-- **One job within the validity.** In every run that grants the reservations of a key in time: a
job of a call of the key that is stored was committed at a known time, and no two jobs of the key
are committed within its validity. A step outside the condition leads to a run in which two are. -/
theorem once_per_validity_in_time {cfg : RequestSettings} {key : String} {w : RequestWorld}
    (h : ((requests cfg).restrict fun w a => a.grantsInTime cfg key w).Reachable w) :
    (∀ i c, w.calls i = some c → c.requestKey = key →
      c.ids.Written cfg.topic c.payload w.db →
        ∃ x ∈ w.commits, x.key = key ∧ x.jobId = c.ids.jobId) ∧
    w.OncePerValidity cfg key ∧
    (0 < cfg.store.ttlSeconds → ∀ a w', (requests cfg).step w a = some w' →
      ¬ a.grantsInTime cfg key w →
        ∃ as w'', (requests cfg).run w' as = some w'' ∧ ¬ w''.OncePerValidity cfg key) := by
  have hv := RequestWorld.Valid.of_reachable h
  refine ⟨fun i c hi hk hw => ?_, hv.oncePerValidity,
    fun hpos a w' hstep hlate => hv.not_oncePerValidity hpos hstep hlate⟩
  rcases hv.sound.rows i c hi with ⟨ha, -⟩ | ⟨-, -, x, hx, hxk, hxj⟩
  · exact absurd ha hw.not_absent
  · exact ⟨x, hx, hxk.trans hk, hxj⟩

/-- The default settings: a validity of one hour, and half an hour for a reservation. -/
def exampleHour : RequestSettings := ⟨⟨3600, 1800⟩, "request-topic"⟩

open Classical in
/-- The only request of a key is granted its reservation in time. -/
theorem once_per_validity_in_time_alone : ∃ w : RequestWorld,
    w.commits.length = 1 ∧ w.OncePerValidity exampleHour "key" := by
  let R := (requests exampleHour).restrict fun w a => a.grantsInTime exampleHour "key" w
  have hgo : ∀ {w w' : RequestWorld} (a : RequestAct), R.Reachable w →
      a.grantsInTime exampleHour "key" w → w.step exampleHour a = some w' → R.Reachable w' :=
    fun a h hp hs => h.step (TransitionSystem.restrict_step_eq_some.mpr ⟨hp, hs⟩)
  -- no other call is there, and no job
  have halone : ∀ {w : RequestWorld} (i : ℕ), (∀ j, j ≠ i → w.calls j = none) → w.commits = [] →
      (RequestAct.step i .commits).grantsInTime exampleHour "key" w := by
    intro w i hcalls hcommits c _ _ _ _ _
    refine ⟨fun j d hji hj => ?_, fun x hx => ?_⟩
    · cases (hcalls j hji).symm.trans hj
    · rw [hcommits] at hx
      cases hx
  have hbegun : R.Reachable _ := hgo (.begin 0 (some "key") "" [] ⟨1, 2, 3, 4, 5⟩)
    (.of_init (s := .initial (fun _ => none) Db.empty) ⟨fun _ => rfl, rfl, rfl⟩) trivial rfl
  have hchecked : R.Reachable _ :=
    hgo (.step 0 .commits) hbegun (halone 0 (fun j hj => if_neg hj) rfl) rfl
  have hreserved : R.Reachable _ := hgo (.step 0 .commits) hchecked
    (halone 0 (fun j hj => (if_neg hj).trans (if_neg hj)) rfl) rfl
  have hcommitted : R.Reachable _ := hgo (.step 0 .commits) hreserved
    (halone 0 (fun j hj => (if_neg hj).trans ((if_neg hj).trans (if_neg hj))) rfl) rfl
  exact ⟨_, rfl, (once_per_validity_in_time hcommitted).2.1⟩

/-- A request is written; its process dies before the key is marked. -/
def exampleUnmarked : List RequestAct :=
  [.begin 0 (some "key") "" [] ⟨1, 2, 3, 4, 5⟩, .step 0 .commits, .step 0 .commits,
    .step 0 .commits, .crash 0]

/-- Half an hour after the unmarked request its key is free, and a second job is written. -/
def exampleSecondJob : List RequestAct :=
  [.tick (timedelta 1801), .begin 1 (some "key") "" [] ⟨11, 12, 13, 14, 15⟩, .step 1 .commits,
    .step 1 .commits, .step 1 .commits]

/-- **Two jobs within the validity.** The second job is committed half an hour after the first. -/
theorem not_once_per_validity : ¬ ∀ (cfg : RequestSettings) (key : String) (w : RequestWorld),
    (requests cfg).Reachable w → w.OncePerValidity cfg key := by
  intro h
  have hr : ((requests exampleHour).run (.initial (fun _ => none) Db.empty)
      (exampleUnmarked ++ exampleSecondJob)).isSome := by decide
  have hreach := TransitionSystem.Reachable.get (T := requests exampleHour) _
    ⟨fun _ => rfl, rfl, rfl⟩ hr
  exact h exampleHour "key" _ hreach ⟨"key", 1, 0⟩ (.head _) ⟨"key", 11, timedelta 1801⟩
    (.tail _ (.head _)) rfl rfl (by decide) (by decide)

end Morphflow
