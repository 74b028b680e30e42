import Mathlib

/-!
# Leases with fencing tokens

A *lease register* guards one resource. It counts the leases it has handed out, the count being
the fencing token (the *epoch*) of the newest one, and it is free, held by an owner until an
expiry, or closed for good. An owner may acquire it when it is free or when the holder's expiry
lies strictly before the acquirer's clock reading, the holder may renew the expiry, and the holder
may settle its lease, which frees or closes the register. Every step with the holder's rights
quotes the newest epoch.

`FencedLease.Trace h r` says that the register `r` is reached from the fresh one by the events
`h`, oldest first. The results read the history of the leases off such a trace: the epochs are
`1, 2, 3, …`, each is settled at most once and only while it is the newest, and a lease that was
taken over without having been given up had expired.

## Main definitions

* `FencedLease.Register`, `FencedLease.Step`, `FencedLease.Trace`.
* `FencedLease.acquiredEpochs`, `FencedLease.lastExpiry`, `FencedLease.readings`.

## Main results

* `FencedLease.Trace.acquiredEpochs_eq`.
* `FencedLease.Trace.settled_newest`, `FencedLease.Trace.renewed_newest`.
* `FencedLease.Trace.settled_or_expired`.
-/

namespace FencedLease

variable {O T : Type*}

/-- Who holds a register. -/
inductive Hold (O T : Type*)
  | free
  | held (owner : O) (expiry : T)
  | closed

/-- A lease register: the epoch of the newest lease and its holder. -/
structure Register (O T : Type*) where
  epoch : ℕ
  hold : Hold O T

/-- What can happen to a register. -/
inductive Event (O T : Type*)
  /-- `owner` obtained the lease `epoch` at the clock reading `now`. -/
  | acquired (owner : O) (epoch : ℕ) (now expiry : T)
  /-- The lease `epoch` was extended. -/
  | renewed (epoch : ℕ) (expiry : T)
  /-- The holder of the lease `epoch` gave it up, for good when `final`. -/
  | settled (epoch : ℕ) (final : Bool)
  deriving DecidableEq

/-- The steps of a register. -/
inductive Step [LT T] : Register O T → Event O T → Register O T → Prop
  | acquire (e : ℕ) (o : O) (now x : T) :
      Step ⟨e, .free⟩ (.acquired o (e + 1) now x) ⟨e + 1, .held o x⟩
  | takeOver (e : ℕ) (o' o : O) (t now x : T) (h : t < now) :
      Step ⟨e, .held o' t⟩ (.acquired o (e + 1) now x) ⟨e + 1, .held o x⟩
  | renew (e : ℕ) (o : O) (t x : T) : Step ⟨e, .held o t⟩ (.renewed e x) ⟨e, .held o x⟩
  | settle (e : ℕ) (o : O) (t : T) (final : Bool) :
      Step ⟨e, .held o t⟩ (.settled e final) ⟨e, if final then .closed else .free⟩

/-- The register `r` is reached from the fresh register by the events `h`, oldest first. -/
inductive Trace [LT T] : List (Event O T) → Register O T → Prop
  | nil : Trace [] ⟨0, .free⟩
  | snoc {h r ev r'} (ht : Trace h r) (hs : Step r ev r') : Trace (h ++ [ev]) r'

/-! ### What a history says -/

/-- The epoch handed out by an event. -/
def Event.acquiredEpoch? : Event O T → Option ℕ
  | .acquired _ e _ _ => some e
  | .renewed .. => none
  | .settled .. => none

/-- The expiry an event gives to the lease `e`. -/
def Event.expiryFor (e : ℕ) : Event O T → Option T
  | .acquired _ e' _ x => if e' = e then some x else none
  | .renewed e' x => if e' = e then some x else none
  | .settled .. => none

/-- The clock reading an acquisition was made with. -/
def Event.reading? : Event O T → Option T
  | .acquired _ _ now _ => some now
  | .renewed .. => none
  | .settled .. => none

/-- The epochs handed out along a history, oldest first. -/
def acquiredEpochs (h : List (Event O T)) : List ℕ := h.filterMap Event.acquiredEpoch?

/-- The expiry of the lease `e` as last renewed. -/
def lastExpiry (h : List (Event O T)) (e : ℕ) : Option T :=
  (h.filterMap (Event.expiryFor e)).getLast?

/-- The clock readings of the acquisitions along a history. -/
def readings (h : List (Event O T)) : List T := h.filterMap Event.reading?

theorem acquiredEpochs_snoc (h : List (Event O T)) (ev : Event O T) :
    acquiredEpochs (h ++ [ev]) = acquiredEpochs h ++ ev.acquiredEpoch?.toList := by
  cases hev : ev.acquiredEpoch? <;> simp [acquiredEpochs, List.filterMap_append, hev]

theorem lastExpiry_snoc (h : List (Event O T)) (ev : Event O T) (e : ℕ) :
    lastExpiry (h ++ [ev]) e = (ev.expiryFor e).or (lastExpiry h e) := by
  cases hev : ev.expiryFor e <;> simp [lastExpiry, List.filterMap_append, hev]

theorem mem_readings {h : List (Event O T)} {t : T} :
    t ∈ readings h ↔ ∃ o e x, Event.acquired o e t x ∈ h := by
  simp only [readings, List.mem_filterMap]
  constructor
  · rintro ⟨ev, hev, hr⟩
    cases ev with
    | acquired o e now x => exact ⟨o, e, x, Option.some.inj hr ▸ hev⟩
    | renewed e x => cases hr
    | settled e f => cases hr
  · rintro ⟨o, e, x, hev⟩
    exact ⟨_, hev, rfl⟩

/-! ### The invariant along a trace -/

section Invariant

variable [LinearOrder T]

/-- How the newest lease of a register stands in its history. -/
def HoldAgrees (h : List (Event O T)) (r : Register O T) : Prop :=
  match r.hold with
  | .held _ t => 0 < r.epoch ∧ lastExpiry h r.epoch = some t ∧ ∀ f, .settled r.epoch f ∉ h
  | .free => r.epoch = 0 ∨ .settled r.epoch false ∈ h
  | .closed => .settled r.epoch true ∈ h

/-- A lease that is no longer the newest was given up, or had expired at some acquisition. -/
def Superseded (h : List (Event O T)) (e : ℕ) : Prop :=
  .settled e false ∈ h ∨ ∃ t n, lastExpiry h e = some t ∧ n ∈ readings h ∧ t < n

/-- What a register knows about its history. -/
structure Consistent (h : List (Event O T)) (r : Register O T) : Prop where
  epochs : acquiredEpochs h = List.range' 1 r.epoch
  bounded : ∀ e f, .settled e f ∈ h → e ≤ r.epoch
  agrees : HoldAgrees h r
  superseded : ∀ e, 1 ≤ e → e < r.epoch → Superseded h e

/-- An event about other leases does not change how a lease was superseded. -/
private theorem Superseded.snoc {h : List (Event O T)} {ev : Event O T} {e : ℕ}
    (hs : Superseded h e) (hev : ev.expiryFor e = none) : Superseded (h ++ [ev]) e := by
  rcases hs with hs | ⟨t, n, hx, hn, hlt⟩
  · exact .inl (List.mem_append_left _ hs)
  · refine .inr ⟨t, n, by rw [lastExpiry_snoc, hev]; exact hx, ?_, hlt⟩
    rw [mem_readings] at hn ⊢
    obtain ⟨o, e', x, hm⟩ := hn
    exact ⟨o, e', x, List.mem_append_left _ hm⟩

omit [LinearOrder T] in
private theorem mem_readings_snoc (h : List (Event O T)) (o : O) (e : ℕ) (now x : T) :
    now ∈ readings (h ++ [.acquired o e now x]) :=
  mem_readings.mpr ⟨o, e, x, by simp⟩

/-- An acquisition keeps the invariant when the lease it replaces was given up or had expired. -/
private theorem Consistent.acquire {h : List (Event O T)} {r : Register O T}
    (hc : Consistent h r) (o : O) (now x : T)
    (hlast : 1 ≤ r.epoch →
      .settled r.epoch false ∈ h ∨ ∃ t, lastExpiry h r.epoch = some t ∧ t < now) :
    Consistent (h ++ [.acquired o (r.epoch + 1) now x]) ⟨r.epoch + 1, .held o x⟩ where
  epochs := by
    rw [acquiredEpochs_snoc, hc.epochs]
    simp [Event.acquiredEpoch?, List.range'_1_concat, Nat.add_comm]
  bounded := by
    intro e f hm
    have hm' : .settled e f ∈ h := by simpa using hm
    exact (hc.bounded e f hm').trans (Nat.le_succ _)
  agrees := by
    refine ⟨Nat.succ_pos _, ?_, ?_⟩
    · rw [lastExpiry_snoc]
      simp [Event.expiryFor]
    · intro f hm
      have hm' : .settled (r.epoch + 1) f ∈ h := by simpa using hm
      exact absurd (hc.bounded _ f hm') (Nat.not_succ_le_self _)
  superseded := by
    intro e he hlt
    have hother : (Event.acquired o (r.epoch + 1) now x).expiryFor e = none := by
      simp [Event.expiryFor, (Nat.ne_of_lt hlt).symm]
    rcases Nat.lt_succ_iff_lt_or_eq.mp hlt with hlt' | rfl
    · exact (hc.superseded e he hlt').snoc hother
    · rcases hlast he with hs | ⟨t, hx, ht⟩
      · exact .inl (List.mem_append_left _ hs)
      · refine .inr ⟨t, now, ?_, mem_readings_snoc h o _ now x, ht⟩
        rw [lastExpiry_snoc, hother]
        exact hx

omit [LinearOrder T] in
/-- The newest lease is the last one handed out. -/
private theorem newest_eq {h : List (Event O T)} {n : ℕ}
    (he : acquiredEpochs h = List.range' 1 n) (hpos : 0 < n) :
    (acquiredEpochs h).getLast? = some n := by
  obtain ⟨m, rfl⟩ := Nat.exists_eq_succ_of_ne_zero (Nat.ne_of_gt hpos)
  rw [he, List.range'_1_concat]
  simp [Nat.add_comm]

theorem Consistent.step {h : List (Event O T)} {r r' : Register O T} {ev : Event O T}
    (hc : Consistent h r) (hs : Step r ev r') : Consistent (h ++ [ev]) r' := by
  cases hs with
  | acquire e o now x =>
    refine hc.acquire o now x fun he => .inl ?_
    rcases hc.agrees with h0 | hs
    · exact absurd h0 (Nat.one_le_iff_ne_zero.mp he)
    · exact hs
  | takeOver e o' o t now x hlt =>
    exact hc.acquire o now x fun _ => .inr ⟨t, hc.agrees.2.1, hlt⟩
  | renew e o t x =>
    obtain ⟨hpos, -, hopen⟩ := hc.agrees
    refine ⟨?_, ?_, ⟨hpos, ?_, ?_⟩, ?_⟩
    · rw [acquiredEpochs_snoc, hc.epochs]
      simp [Event.acquiredEpoch?]
    · intro e' f hm
      exact hc.bounded e' f (by simpa using hm)
    · rw [lastExpiry_snoc]
      simp [Event.expiryFor]
    · intro f hm
      exact hopen f (by simpa using hm)
    · intro e' he' hlt
      refine (hc.superseded e' he' hlt).snoc ?_
      simp [Event.expiryFor, (Nat.ne_of_lt hlt).symm]
  | settle e o t final =>
    refine ⟨?_, ?_, ?_, ?_⟩
    · rw [acquiredEpochs_snoc, hc.epochs]
      simp [Event.acquiredEpoch?]
    · intro e' f hm
      rcases List.mem_append.mp hm with hm | hm
      · exact hc.bounded e' f hm
      · obtain ⟨rfl, -⟩ := Event.settled.inj (List.mem_singleton.mp hm)
        exact le_rfl
    · cases final
      · exact .inr (by simp)
      · exact List.mem_append_right _ (by simp)
    · intro e' he' hlt
      exact (hc.superseded e' he' hlt).snoc rfl

theorem Trace.consistent {h : List (Event O T)} {r : Register O T} (ht : Trace h r) :
    Consistent h r := by
  induction ht with
  | nil => exact ⟨rfl, by simp, .inl rfl, fun e _ he => absurd he (Nat.not_lt_zero e)⟩
  | snoc _ hs ih => exact ih.step hs

/-! ### The history of the leases -/

/-- The epochs handed out are `1, 2, 3, …`. -/
theorem Trace.acquiredEpochs_eq {h : List (Event O T)} {r : Register O T} (ht : Trace h r) :
    acquiredEpochs h = List.range' 1 r.epoch :=
  ht.consistent.epochs

/-- A lease is settled only while it is the newest one and has not been settled. -/
theorem Trace.settled_newest {h : List (Event O T)} {r r' : Register O T} {e : ℕ} {f : Bool}
    (ht : Trace h r) (hs : Step r (.settled e f) r') :
    (acquiredEpochs h).getLast? = some e ∧ ∀ f', .settled e f' ∉ h := by
  have hc := ht.consistent
  cases hs with
  | settle _ o t =>
    obtain ⟨hpos, -, hopen⟩ := hc.agrees
    exact ⟨newest_eq hc.epochs hpos, hopen⟩

/-- A lease is renewed only while it is the newest one and has not been settled. -/
theorem Trace.renewed_newest {h : List (Event O T)} {r r' : Register O T} {e : ℕ} {x : T}
    (ht : Trace h r) (hs : Step r (.renewed e x) r') :
    (acquiredEpochs h).getLast? = some e ∧ ∀ f', .settled e f' ∉ h := by
  have hc := ht.consistent
  cases hs with
  | renew _ o t =>
    obtain ⟨hpos, -, hopen⟩ := hc.agrees
    exact ⟨newest_eq hc.epochs hpos, hopen⟩

/-- An acquisition whose clock reading is not before the earlier ones finds every earlier lease
given up by its holder or past its expiry, as last renewed. -/
theorem Trace.settled_or_expired {h : List (Event O T)} {r r' : Register O T} {o : O} {e : ℕ}
    {now x : T} (ht : Trace h r) (hs : Step r (.acquired o e now x) r')
    (hclock : ∀ n ∈ readings h, n ≤ now) :
    ∀ e' ∈ acquiredEpochs h,
      .settled e' false ∈ h ∨ ∃ t, lastExpiry h e' = some t ∧ t < now := by
  have hc := ht.consistent
  have hnewest : 1 ≤ r.epoch →
      .settled r.epoch false ∈ h ∨ ∃ t, lastExpiry h r.epoch = some t ∧ t < now := by
    intro he
    cases hs with
    | acquire =>
      rcases hc.agrees with h0 | hs
      · exact absurd h0 (Nat.one_le_iff_ne_zero.mp he)
      · exact .inl hs
    | takeOver _ _ _ t _ _ hlt => exact .inr ⟨t, hc.agrees.2.1, hlt⟩
  intro e' he'
  rw [hc.epochs, List.mem_range'_1] at he'
  rcases Nat.lt_or_ge e' r.epoch with hlt | hge
  · rcases hc.superseded e' he'.1 hlt with hs | ⟨t, n, hx, hn, htn⟩
    · exact .inl hs
    · exact .inr ⟨t, hx, htn.trans_le (hclock n hn)⟩
  · obtain rfl : e' = r.epoch := by omega
    exact hnewest he'.1

end Invariant

end FencedLease
