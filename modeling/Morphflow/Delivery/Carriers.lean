import Morphflow.Delivery.Soundness
import Morphflow.Outbox.Carriers

/-!
# Carriers

An unfinished job is *carried* by an outbox row that waits and was not sent, or by a record at or
behind the frontier of its partition that its handling will not lose. A handling is *doomed* when it
can only end by settling its message without a trace: a call that is under way with a lease that was
taken over, or one that answered with success. Where the dead letters do not count as carriers, a
message whose retry count is spent is doomed as soon as its claim was refused.

Everything is stated for both readings of the dead letters; `deadLetters` says whether they carry.

## Main definitions

* `Handling.Doomed`, `Group.Carries`, `Delivery.Carried`, `Delivery.Kept`.

## Main results

* `Delivery.Kept.of_effect`: a step keeps every unfinished job carried, as long as no message with
  its last chance finds a lease whose holder is gone.
-/

namespace Morphflow

variable {P : Type*}

/-- A failure of the message loses it. -/
def Message.lastChance (deadLetters : Bool) (s : RunnerSettings) (m : Message Event) : Bool :=
  !deadLetters && m.spent s

/-- The handling of a message settles it without a trace, unless it is cut off: when the row of the
job has the given epoch, and `last` says whether a failure loses the message. -/
def Handling.Doomed (last : Bool) (epoch : ℕ) : Handling Event LeasedCall → Prop
  | .calling c =>
    match c.phase with
    | .claiming => False
    | .claimMissed => last = true
    | .processing lease => lease.epoch < epoch
    | .completing lease _ => lease.epoch < epoch
    | .failing lease _ => last = true ∧ lease.epoch < epoch
    | .returned success _ => success = true ∨ last = true
    | .raised _ => False
  | .publishing _ => last = true

/-- The group owes a record for the job, where a doomed handling loses it. -/
def Group.Carries (deadLetters : Bool) (cfg : DeliveryConfig P) (g : Group P Event LeasedCall)
    (jobId : Uuid) (epoch : ℕ) : Prop :=
  g.Owes cfg.group (fun m => m.value.jobId = jobId) fun m x =>
    x.Doomed (m.lastChance deadLetters cfg.settings) epoch

/-- What remains to be done for a job. -/
def Unfinished (deadLetters : Bool) (status : JobStatus) : Prop :=
  status ≠ .success ∧ (deadLetters = true ∨ status ≠ .failed)

namespace Delivery

/-- A job whose row has the given epoch is carried. -/
def Carried (deadLetters : Bool) (cfg : DeliveryConfig P) (w : Delivery P) (jobId : Uuid)
    (epoch : ℕ) : Prop :=
  w.relays.Carries w.db.outbox jobId ∨ w.group.Carries deadLetters cfg jobId epoch ∨
    (deadLetters = true ∧ ∃ record ∈ w.dlq, record.value.jobId = jobId)

/-- Every unfinished job is carried. -/
def Kept (deadLetters : Bool) (cfg : DeliveryConfig P) (w : Delivery P) : Prop :=
  ∀ jobId row, w.db.jobs jobId = some row → Unfinished deadLetters row.status →
    w.Carried deadLetters cfg jobId row.leaseEpoch

end Delivery

/-! ### Handlings under a lease -/

theorem Handling.not_doomed_of_lease {last : Bool} {epoch : ℕ} {c : LeasedCall} {lease : JobLease}
    (hl : c.lease? = some lease) (he : epoch ≤ lease.epoch) :
    ¬ (Handling.calling c).Doomed last epoch := by
  unfold LeasedCall.lease? at hl
  unfold Handling.Doomed
  cases hp : c.phase <;> simp only [hp] at hl ⊢ <;> cases hl
  · exact he.not_gt
  · exact he.not_gt
  · exact fun h => he.not_gt h.2

/-! ### Jobs -/

namespace Delivery

variable {deadLetters : Bool} {cfg : DeliveryConfig P} {w w' : Delivery P} {jobId : Uuid}
  {epoch : ℕ} {p : P} {t : PartitionTask Event LeasedCall} {m : Message Event}
  {x : Handling Event LeasedCall}

/-- Some handling under way holds the lease on the job with the given epoch. -/
def HolderAlive (w : Delivery P) (jobId : Uuid) (epoch : ℕ) : Prop :=
  ∃ q lease, w.lease? q = some lease ∧ lease.jobId = jobId ∧ lease.epoch = epoch

namespace Carried

theorem regroup (h : w.Carried deadLetters cfg jobId epoch) {g : Group P Event LeasedCall}
    (hg : w.group.Carries deadLetters cfg jobId epoch → g.Carries deadLetters cfg jobId epoch) :
    ({ w with group := g } : Delivery P).Carried deadLetters cfg jobId epoch :=
  h.imp id (Or.imp hg id)

variable [DecidableEq P]

theorem land (h : w.Carried deadLetters cfg jobId epoch) {topic : String}
    {record : LogRecord Event} {landing : Landing P}
    (hland : w.land cfg topic record landing = some w') :
    w'.Carried deadLetters cfg jobId epoch := by
  rcases land_cases hland with ⟨-, rfl⟩ | ⟨p, -, -, rfl⟩ | ⟨-, -, rfl⟩
  · exact h
  · exact h.regroup fun hg => hg.append p record
  · refine h.imp id (Or.imp id fun ⟨hd, r, hr, hjob⟩ => ⟨hd, r, List.mem_append_left _ hr, hjob⟩)

/-- A handler that holds the current lease carries its job. -/
theorem of_holder (hs : w.Sound cfg) (halive : w.HolderAlive jobId epoch)
    (hidle : w.lease? p = none) (ht : w.group.openTask? p = some t)
    (y : Handling Event LeasedCall) :
    (w.group.setTask p { t with handling := some (m, y) }).Carries deadLetters cfg jobId epoch := by
  obtain ⟨q, lease, hl, hjob, he⟩ := halive
  have hq : q ≠ p := by
    rintro rfl
    cases hidle.symm.trans hl
  cases hx : w.group.handling? q with
  | none => cases (lease?_of_handling?_none hx).symm.trans hl
  | some x =>
    obtain ⟨m', x⟩ := x
    cases x with
    | publishing pub => simp only [lease?, hx] at hl; cases hl
    | calling c =>
      rw [lease?_of_calling hx] at hl
      obtain ⟨hevent, howned⟩ := hs.handling q m' _ hx
      have hat := hs.group.handled_at_frontier hx
      refine ⟨q, m', List.mem_of_getElem? hat, ?_, ?_, fun m₁ x₁ hx₁ _ => ?_⟩
      · rw [Group.frontier_setTask, offset_of_getElem? hat]
      · show m'.value.jobId = jobId
        rw [← hevent, ← howned.named lease hl, hjob]
      · rw [Group.handling?_setTask_of_ne _ hq, hx] at hx₁
        obtain ⟨rfl, rfl⟩ := Prod.mk.inj (Option.some.inj hx₁)
        exact Handling.not_doomed_of_lease hl he.ge

end Carried

namespace Kept

theorem create (h : w.Kept deadLetters cfg) (hs : w.Sound cfg) {ids : RequestIds} {payload : Dict}
    (hrow : ∀ row ∈ w.db.outbox, row.id ≠ ids.rowId) :
    ({ w with db := JobService.createdDb cfg.settings.consumeTopic ids payload w.db } :
      Delivery P).Kept deadLetters cfg := by
  intro k row hk hun
  rcases KeyedTable.set_eq_some_iff.mp hk with ⟨rfl, -⟩ | ⟨-, hk⟩
  · exact .inl (Relays.Carries.of_fresh hs.relays hrow rfl)
  · exact (h k row hk hun).imp (fun hr => hr.append _) id

theorem relay (h : w.Kept deadLetters cfg) (hs : w.Sound cfg) {a : RelayAct}
    {rows : List OutboxRow} {r : Relays} (hcall : w.relays.publishCall? a = none)
    (heff : Relays.Effect w.db.outbox w.relays a rows r) :
    (w.relayed rows r).Kept deadLetters cfg :=
  fun k row hk hun => (h k row hk hun).imp_left fun hr => hr.of_quiet hs.relays hcall heff

variable [DecidableEq P]

/-- The handler of a message may take a step. A claim that is refused to a message with its last
chance leaves the job to the holder of the lease. -/
theorem progress (h : w.Kept deadLetters cfg) (hs : w.Sound cfg) {a : LeasedAct} {c : LeasedCall}
    {phase' : LeasedPhase} {db' : Db} (ht : w.group.openTask? p = some t)
    (hh : t.handling = some (m, .calling c))
    (heff : c.Effect "worker" WorkerService.completeTx w.db a phase' db')
    (hheld : ∀ now eventId fate, a = .claim now eventId fate →
      m.lastChance deadLetters cfg.settings = true → ∀ row, w.db.jobs c.event.jobId = some row →
      row.status = .processing → row.claimable now = false →
      w.HolderAlive c.event.jobId row.leaseEpoch) :
    ({ w with
        db := db'
        group := w.group.setTask p
          { t with handling := some (m, .calling { c with phase := phase' }) } } :
      Delivery P).Kept deadLetters cfg := by
  have hcur := (Group.handling?_of_openTask? ht).trans hh
  obtain ⟨hevent, howned⟩ := hs.handling p m _ hcur
  intro k row' hk hun
  -- the job of a row that was there, when the handling does not become doomed
  have hkeep : ∀ row, w.db.jobs k = some row → Unfinished deadLetters row.status →
      row'.leaseEpoch = row.leaseEpoch →
      (m.value.jobId = k →
        (Handling.calling { c with phase := phase' }).Doomed
          (m.lastChance deadLetters cfg.settings) row.leaseEpoch →
        (Handling.calling c).Doomed (m.lastChance deadLetters cfg.settings) row.leaseEpoch) →
      ({ w with
          db := db'
          group := w.group.setTask p
            { t with handling := some (m, .calling { c with phase := phase' }) } } :
        Delivery P).Carried deadLetters cfg k row'.leaseEpoch := by
    intro row hrow hun₀ hepoch hdoom
    rw [hepoch]
    refine (h k row hrow hun₀).imp (fun hr => ?_) (Or.imp (fun hg => ?_) id)
    · simp only [heff.outbox]
      exact hr
    · exact hg.goOn hs.group ht hh hdoom
  by_cases hkey : k = c.event.jobId
  swap
  · -- another job is not written
    refine hkeep row' (heff.jobs_of_ne hkey ▸ hk) hun rfl fun hjob => absurd ?_ hkey
    rw [← hjob, hevent]
  subst hkey
  cases heff with
  | @claimed now eventId fate row phase' ha hp hrow hc hphase =>
    -- the claimer itself carries the job
    rw [LeasedCall.claimedDb, Db.recorded_jobs, KeyedTable.set_self] at hk
    obtain rfl := Option.some.inj hk
    refine .inr (.inl (Group.Owes.of_handling (hs.group.goOn ht hh _)
      (Group.handling?_goOn_self ht ..) (congrArg Event.jobId hevent).symm ?_))
    rcases hphase with rfl | ⟨e, rfl⟩
    · exact lt_irrefl _
    · exact id
  | @refused now eventId fate ha hp hnone =>
    by_cases hlast : m.lastChance deadLetters cfg.settings = true
    · have hprocessing := JobRow.processing_of_not_claimable (hnone row' hk) hun.1
      have hidle : w.lease? p = none := by
        rw [lease?_of_calling hcur, LeasedCall.lease?, hp]
      exact .inr (.inl (Carried.of_holder hs (hheld now eventId fate ha hlast row' hk hprocessing
        (hnone row' hk)) hidle ht _))
    · exact hkeep row' hk hun rfl fun _ hd => absurd hd hlast
  | @answered hp =>
    refine hkeep row' hk hun rfl fun _ hd => ?_
    simp only [Handling.Doomed, LeasedCall.readBack_of_ne_success hk hun.1, Bool.false_eq_true,
      false_or] at hd
    simp only [Handling.Doomed, hp]
    exact hd
  | @processed lease outcome hp =>
    refine hkeep row' hk hun rfl fun _ hd => ?_
    simp only [Handling.Doomed, hp]
    by_contra hle
    have hl : c.lease? = some lease := by rw [LeasedCall.lease?, hp]
    have hafter : ({ c with phase := c.afterProcess lease outcome } : LeasedCall).lease? =
        some lease := LeasedCall.lease?_afterProcess
    exact Handling.not_doomed_of_lease hafter (Nat.le_of_not_lt hle) hd
  | @completed lease result ids db' phase' hp htx hphase =>
    -- the job is finished
    obtain ⟨row, hrow, -, rfl⟩ := recordTx_eq_some_iff.mp htx
    rw [Db.recorded_jobs, KeyedTable.set_self] at hk
    obtain rfl := Option.some.inj hk
    exact absurd rfl hun.1
  | @rolledBack lease result ids hp htx =>
    refine hkeep row' hk hun rfl fun _ _ => ?_
    simp only [Handling.Doomed, hp]
    refine hs.stale hcur (by rw [LeasedCall.lease?, hp]) hk hun.1 fun hown => ?_
    have happ := WorkerService.completeTx_eq_none_iff.mp htx row' hk
    rw [WorkerService.successChange_applies.mpr hown] at happ
    cases happ
  | @notCompleted lease result e hp =>
    refine hkeep row' hk hun rfl fun _ hd => ?_
    simp only [Handling.Doomed, hp]
    exact hd.2
  | @failed lease error eventId row phase' hp hrow happ hphase =>
    rw [Db.recorded_jobs, KeyedTable.set_self] at hk
    obtain rfl := Option.some.inj hk
    have hpre := LeasedCall.failureChange_applies.mp happ
    have hdead : deadLetters = true := hun.2.resolve_right fun hne => hne rfl
    have hlast : m.lastChance deadLetters cfg.settings = false := by
      rw [Message.lastChance, hdead]; rfl
    refine hkeep row hrow ⟨?_, .inl hdead⟩ rfl fun _ hd => ?_
    · rcases hpre.1 with hst | hst <;> rw [hst] <;> decide
    · rcases hphase with rfl | ⟨e, rfl⟩
      · simp [Handling.Doomed, hlast] at hd
      · exact hd.elim
  | @fencedOut lease error hp hnone =>
    refine hkeep row' hk hun rfl fun _ hd => ?_
    simp only [Handling.Doomed, Bool.false_eq_true, false_or] at hd
    simp only [Handling.Doomed, hp]
    refine ⟨hd, hs.stale hcur (by rw [LeasedCall.lease?, hp]) hk hun.1 fun hown => ?_⟩
    have happ := hnone row' hk
    rw [LeasedCall.failureChange_applies.mpr (hown.imp_left .inr)] at happ
    cases happ
  | broke => exact hkeep row' hk hun rfl fun _ hd => hd.elim

theorem publishRow (h : w.Kept deadLetters cfg) (hs : w.Sound cfg) {i : ℕ}
    {outcome : Except String Unit} {landing : Landing P} {d : Drain} {row : OutboxRow}
    {rest : List OutboxRow} (hi : w.relays.drains i = some d) (hf : d.failed = none)
    (hm : d.remaining = row :: rest)
    (hland : (w.relayed w.db.outbox (w.relays.goOn i (d.afterPublish row outcome))).land cfg
      row.topic row.record landing = some w')
    (hret : outcome = .ok () → landing ≠ .lost) : w'.Kept deadLetters cfg := by
  intro k job hk hun
  have hk₀ : w.db.jobs k = some job := by
    rcases land_cases hland with ⟨-, rfl⟩ | ⟨p, -, -, rfl⟩ | ⟨-, -, rfl⟩ <;> exact hk
  have hland' : ∀ {w₁ : Delivery P}, w₁ = w.relayed w.db.outbox
      (w.relays.goOn i (d.afterPublish row outcome)) →
      w₁.Carried deadLetters cfg k job.leaseEpoch →
        w'.Carried deadLetters cfg k job.leaseEpoch := by
    rintro w₁ rfl hc
    exact hc.land hland
  rcases h k job hk₀ hun with hr | hg | hd
  · rcases hr.of_published hs.relays hi hf hm outcome with hr | ⟨rfl, rfl⟩
    · exact hland' rfl (.inl hr)
    · -- the row itself was sent, and its record landed
      rcases land_cases hland with ⟨rfl, -⟩ | ⟨p, -, -, rfl⟩ | ⟨-, htopic, -⟩
      · exact absurd rfl (hret rfl)
      · exact .inr (.inl (Group.Owes.of_append hs.group p row.record rfl))
      · obtain ⟨-, hmem, -⟩ :=
          hs.relays.fetched_of_mem_remaining hi (hm ▸ List.mem_cons_self : row ∈ d.remaining)
        exact absurd ((hs.rows row hmem).1.symm.trans htopic) cfg.consume_ne_dlq
  · exact hland' rfl (.inr (.inl hg))
  · exact hland' rfl (.inr (.inr hd))

/-- The value of a failed message may be published: its job is carried by the new record, or the
message was doomed. -/
theorem republish (h : w.Kept deadLetters cfg) (hs : w.Sound cfg) {landing : Landing P}
    {pub : Publication Event} (ht : w.group.openTask? p = some t)
    (hh : t.handling = some (m, .publishing pub))
    (hland : w.land cfg pub.topic pub.record landing = some w') (hlost : landing ≠ .lost) :
    ({ w' with group := w'.group.settle p t m t.remaining } : Delivery P).Kept deadLetters cfg := by
  obtain ⟨error, now, hpub⟩ := hs.handling p m _ ((Group.handling?_of_openTask? ht).trans hh)
  have hvalue : pub.record.value = m.value := by rw [hpub, republication_value]
  have hsettled := hs.group.settle ht (PartitionTask.inHand_of_some hh)
  intro k job hk hun
  rcases land_cases hland with ⟨hl, -⟩ | ⟨q, -, -, rfl⟩ | ⟨-, htopic, rfl⟩
  · exact absurd hl hlost
  · -- settling and appending commute
    by_cases hkey : m.value.jobId = k
    · subst hkey
      rw [← hvalue]
      exact .inr (.inl (Group.Owes.of_append hsettled q pub.record rfl))
    · refine (h k job hk hun).imp id (Or.imp (fun hg => ?_) id)
      exact (hg.settle hs.group ht hh fun heq => absurd heq hkey).append q pub.record
  · by_cases hkey : m.value.jobId = k ∧ deadLetters = true
    · exact .inr (.inr ⟨hkey.2, pub.record, by simp, by rw [hvalue, hkey.1]⟩)
    · refine (h k job hk hun).imp id (Or.imp (fun hg => ?_) ?_)
      · refine hg.settle hs.group ht hh fun heq => ?_
        have hspent : m.spent cfg.settings = true := by
          rw [hpub, republication_topic] at htopic
          split_ifs at htopic with hspent
          · exact hspent
          · exact absurd htopic cfg.retry_ne_dlq
        have hdead : deadLetters = false := by simpa using fun hd => hkey ⟨heq, hd⟩
        simp [Handling.Doomed, Message.lastChance, hspent, hdead]
      · exact fun ⟨hd, r, hr, hjob⟩ => ⟨hd, r, List.mem_append_left _ hr, hjob⟩

variable [Fintype P]

/-- **Step lemma.** A step keeps every unfinished job carried, as long as no message with its last
chance is refused under a lease whose holder is gone. -/
theorem of_effect (h : w.Kept deadLetters cfg) (hs : w.Sound cfg) {a : DeliveryAct P}
    (heff : Effect cfg w a w')
    (hheld : ∀ p now eventId fate, a = .call p (.claim now eventId fate) → ∀ m c,
      w.group.handling? p = some (m, .calling c) → m.lastChance deadLetters cfg.settings = true →
      ∀ row, w.db.jobs c.event.jobId = some row → row.status = .processing →
      row.claimable now = false → w.HolderAlive c.event.jobId row.leaseEpoch) :
    w'.Kept deadLetters cfg := by
  cases heff with
  | unchanged => exact h
  | created _ hrow => exact h.create hs hrow
  | relayed hcall heff => exact h.relay hs hcall heff
  | rowPublished hi hf hm hland hret => exact h.publishRow hs hi hf hm hland hret
  | looped hloops heff =>
    exact fun k row hk hun =>
      (h k row hk hun).regroup fun hg => hg.loop hs.group (fun p m hm _ => hs.not_skipped p m hm)
        (fun _ _ => id) hloops heff
  | @progressed p a t m c phase' db' ht hh heff =>
    refine h.progress hs ht hh heff fun now eventId fate ha hlast row hrow hst hc => ?_
    exact hheld p now eventId fate (by rw [ha]) m c ((Group.handling?_of_openTask? ht).trans hh)
      hlast row hrow hst hc
  | acknowledged ht hh hphase =>
    refine fun k row hk hun => (h k row hk hun).regroup fun hg =>
      hg.settle hs.group ht hh fun _ => ?_
    simp [Handling.Doomed, hphase]
  | answered ht hh hphase =>
    refine fun k row hk hun =>
      (h k row hk hun).regroup fun hg => hg.goOn hs.group ht hh fun _ hd => ?_
    simp only [Handling.Doomed, hphase]
    exact .inr hd
  | raised => exact fun k row hk hun => (h k row hk hun).regroup fun hg => hg.seek _ _
  | published ht hh hland hlost => exact h.republish hs ht hh hland hlost
  | publishFailed ht hh hland =>
    intro k row hk hun
    have hk₀ : w.db.jobs k = some row := by
      rcases land_cases hland with ⟨-, rfl⟩ | ⟨p, -, -, rfl⟩ | ⟨-, -, rfl⟩ <;> exact hk
    exact ((h k row hk₀ hun).land hland).regroup fun hg => hg.seek _ _

end Kept

end Delivery

end Morphflow
