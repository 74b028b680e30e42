import Morphflow.Processing.GpuSimulator

/-!
# Batches and single runs

`_run_single` has one exception boundary around an item. `_run_batch` has none around the items of
a batch: an exception leaves the loop, and the futures of the item that raised and of those behind
it are never resolved. The batch agrees with the single runs exactly when nothing raises in it but
the simulated failures.

## Main definitions

* `GpuInferenceSimulator.AgreesWithSingle`.
* `GpuInferenceSimulator.Batchable`: the payloads and draws for which nothing else raises.

## Main results

* `batch_agrees_iff`: which batches agree with the single runs.
* `not_batch_agrees`: a content that is a number.
-/

namespace Morphflow

/-- A result apart from `simulated_batch_size`. -/
def withoutBatchSize (result : Dict) : Dict :=
  result.filter fun item => item.1 != "simulated_batch_size"

namespace GpuInferenceSimulator

variable (s : GpuInferenceSimulator)

/-- The batch resolves the future of every item exactly once, with the outcome that `_run_single`
gives for the payload and the draw. -/
def AgreesWithSingle (items : List BatchItem) : Prop :=
  ∀ i item, items[i]? = some item → ∃ outcome : Outcome,
    (s.runBatch items).resolutions i = [outcome] ∧
      outcome.map withoutBatchSize = (s.runSingle item.payload item.draw).map withoutBatchSize

/-- The item raises nothing but a simulated failure: its options are an object, whose overrides are
a finite latency and a failure rate within the floats; and it fails by its draw, or its input is an
object whose content has a length. -/
structure Processable (item : BatchItem) : Prop where
  options : ∃ options, item.payload.getDict "options" = .ok options ∧
    (∀ x, options.getOrNull "simulate_inference_ms" = .float x → ∃ q, x = .finite q) ∧
    ∀ n, options.getOrNull "simulate_inference_failure_rate" = .int n → overflowsFloat n = false
  content : s.shouldFail item.payload item.draw = .ok true ∨
    ∃ input, item.payload.getDict "input" = .ok input ∧
      ((input.get? "content").getD (.str "")).HasLen

/-- The longest latency of a batch. -/
def IsLongest (items : List BatchItem) (longest : ℤ) : Prop :=
  (∃ item ∈ items, s.resolveLatencyMs item.payload = .ok longest) ∧
    ∀ item ∈ items, ∀ ms, s.resolveLatencyMs item.payload = .ok ms → ms ≤ longest

/-- Every item of the batch raises nothing but a simulated failure, and the longest latency and the
overhead make a delay within the floats. -/
structure Batchable (items : List BatchItem) : Prop where
  processable : ∀ item ∈ items, s.Processable item
  delay : ∀ longest, s.IsLongest items longest →
    overflowsFloat ((longest + s.batchOverheadMs : ℤ) / 1000) = false

variable {s} {items : List BatchItem} {item : BatchItem}

/-! ### The latencies -/

/-- The latencies of a batch raise for an item whose latency raises, and for a delay beyond the
floats. -/
theorem exists_batchLatencies_iff (hne : items ≠ []) :
    (∃ latencies, s.batchLatencies items = .ok latencies) ↔
      (∀ item ∈ items, ∃ ms, s.resolveLatencyMs item.payload = .ok ms) ∧
        ∀ longest, s.IsLongest items longest →
          overflowsFloat ((longest + s.batchOverheadMs : ℤ) / 1000) = false := by
  -- the longest latency is the maximum of the list
  have hlongest : ∀ {latencies : List ℤ},
      (items.mapM fun item => s.resolveLatencyMs item.payload) = .ok latencies →
        ∀ longest, latencies.max? = some longest ↔ s.IsLongest items longest := by
    intro latencies hall longest
    have hmem := fun ms : ℤ => List.mem_iff_of_mapM_eq_ok hall (y := ms)
    rw [List.max?_eq_some_iff, hmem, IsLongest]
    refine and_congr_right fun _ => ⟨fun h item hitem ms hms => ?_, fun h ms hms => ?_⟩
    · exact h ms ((hmem ms).mpr ⟨item, hitem, hms⟩)
    · obtain ⟨item, hitem, hms⟩ := (hmem ms).mp hms
      exact h item hitem ms hms
  constructor
  · rintro ⟨latencies, h⟩
    obtain ⟨hall, longest, hmax, hdelay⟩ := s.batchLatencies_eq_ok_iff.mp h
    have hmapM := List.mapM_eq_ok_iff.mpr hall
    refine ⟨List.exists_of_mapM_eq_ok hmapM, fun longest' h' => ?_⟩
    rw [← hlongest hmapM, hmax] at h'
    exact Option.some.inj h' ▸ hdelay
  · rintro ⟨hall, hdelay⟩
    obtain ⟨latencies, hmapM⟩ := List.exists_mapM_eq_ok hall
    have hforall := List.mapM_eq_ok_iff.mp hmapM
    have hmax : latencies.max?.isSome := by
      rw [Option.isSome_iff_ne_none, ne_eq, List.max?_eq_none_iff, ← List.length_eq_zero_iff,
        ← hforall.length_eq, List.length_eq_zero_iff]
      exact hne
    obtain ⟨longest, hmax⟩ := Option.isSome_iff_exists.mp hmax
    exact ⟨latencies, s.batchLatencies_eq_ok_iff.mpr
      ⟨hforall, longest, hmax, hdelay longest ((hlongest hmapM longest).mp hmax)⟩⟩

/-- A delay of the whole batch within the floats bounds that of each of its items. -/
theorem sleepMs_single {longest ms : ℤ} (hle : ms ≤ longest)
    (h : overflowsFloat ((longest + s.batchOverheadMs : ℤ) / 1000) = false) :
    sleepMs (max 1 ms) = .ok () := by
  rw [sleepMs_eq_ok_iff]
  rw [overflowsFloat_eq_false_iff] at h ⊢
  rcases le_total ms 1 with h1 | h1
  · rw [max_eq_left h1]
    calc |((1 : ℤ) : ℚ) / 1000| < 1 := by norm_num
      _ < floatLimit := one_lt_floatLimit
  · have hsum : ms ≤ longest + s.batchOverheadMs :=
      hle.trans (le_add_of_nonneg_right s.zero_le_batchOverheadMs)
    have hpos : (0 : ℚ) ≤ ms := by exact_mod_cast zero_le_one.trans h1
    rw [max_eq_right h1]
    calc |(ms : ℚ) / 1000| = ms / 1000 := abs_of_nonneg (by positivity)
      _ ≤ (longest + s.batchOverheadMs : ℤ) / 1000 := by gcongr
      _ ≤ |((longest + s.batchOverheadMs : ℤ) : ℚ) / 1000| := le_abs_self _
      _ < floatLimit := h

/-! ### The items -/

/-- A result depends on the size of the batch in one item only. -/
theorem map_withoutBatchSize_buildResult (payload : Dict) (latencyMs : ℤ) (m n : ℕ) :
    (s.buildResult payload latencyMs m).map withoutBatchSize =
      (s.buildResult payload latencyMs n).map withoutBatchSize := by
  unfold buildResult
  cases payload.getDict "input" with
  | error e => rfl
  | ok input =>
    cases h : ((input.get? "content").getD (.str "")).len with
    | error e => simp [bind, Except.bind, h]
    | ok length =>
      simp only [bind, Except.bind, h, pure, Except.pure]
      rfl

/-- What the batch resolves the future of an item with is what `_run_single` gives. -/
theorem finalizeItem_agrees {batchSize : ℕ} {ms : ℤ} {outcome : Outcome}
    (hms : s.resolveLatencyMs item.payload = .ok ms) (hsleep : sleepMs (max 1 ms) = .ok ())
    (h : s.finalizeItem batchSize item ms = .ok outcome) :
    outcome.map withoutBatchSize = (s.runSingle item.payload item.draw).map withoutBatchSize := by
  have hsingle : s.runSingle item.payload item.draw =
      (s.shouldFail item.payload item.draw).bind fun fails =>
        if fails then .error simulatedFailure else s.buildResult item.payload ms 1 := by
    rw [runSingle, hms]
    simp only [bind, Except.bind, hsleep]
    cases s.shouldFail item.payload item.draw with
    | error e => rfl
    | ok fails => cases fails <;> rfl
  rw [hsingle]
  unfold finalizeItem at h
  cases hfail : s.shouldFail item.payload item.draw with
  | error e => simp [hfail, bind, Except.bind] at h
  | ok fails =>
    cases fails with
    | true =>
      simp only [hfail, bind, Except.bind, if_true, pure, Except.pure, Except.ok.injEq] at h
      rw [← h]
      rfl
    | false =>
      cases hresult : s.buildResult item.payload ms batchSize with
      | error e => simp [hfail, hresult, bind, Except.bind] at h
      | ok result =>
        simp only [hfail, hresult, bind, Except.bind, Bool.false_eq_true, if_false, pure,
          Except.pure, Except.ok.injEq] at h
        rw [← h, ← hresult]
        exact map_withoutBatchSize_buildResult item.payload ms batchSize 1

/-- The items that are finalised are the ones that can be processed. -/
theorem exists_finalizeItem_iff_processable {batchSize : ℕ} {ms : ℤ}
    (hms : s.resolveLatencyMs item.payload = .ok ms) :
    (∃ o, s.finalizeItem batchSize item ms = .ok o) ↔ s.Processable item := by
  obtain ⟨options, hoptions, hlatency⟩ := s.exists_resolveLatencyMs_iff.mp ⟨ms, hms⟩
  rw [exists_finalizeItem_iff, exists_shouldFail_iff, exists_buildResult_iff]
  constructor
  · rintro ⟨⟨options', hoptions', hrate⟩, hcontent⟩
    obtain rfl := Except.ok.inj (hoptions.symm.trans hoptions')
    exact ⟨⟨options, hoptions, hlatency, hrate⟩, hcontent⟩
  · rintro ⟨⟨options', hoptions', -, hrate⟩, hcontent⟩
    exact ⟨⟨options', hoptions', hrate⟩, hcontent⟩

theorem Processable.exists_resolveLatencyMs (h : s.Processable item) :
    ∃ ms, s.resolveLatencyMs item.payload = .ok ms := by
  obtain ⟨options, hoptions, hlatency, -⟩ := h.options
  exact s.exists_resolveLatencyMs_iff.mpr ⟨options, hoptions, hlatency⟩

/-! ### The batch -/

theorem runBatch_eq (h : 2 ≤ items.length) : s.runBatch items =
    match s.batchLatencies items with
    | .error e => ⟨[], some e⟩
    | .ok latencies => s.finalize items.length 0 (items.zip latencies) := by
  match items, h with
  | _ :: _ :: _, _ => rfl

theorem exists_getElem?_zip {latencies : List ℤ} (h : s.batchLatencies items = .ok latencies)
    {i : ℕ} (hi : items[i]? = some item) :
    ∃ ms, (items.zip latencies)[i]? = some (item, ms) ∧
      s.resolveLatencyMs item.payload = .ok ms := by
  obtain ⟨hall, -⟩ := s.batchLatencies_eq_ok_iff.mp h
  obtain ⟨hlength, hget⟩ := List.forall₂_iff_get.mp hall
  obtain ⟨hlt, rfl⟩ := List.getElem?_eq_some_iff.mp hi
  refine ⟨latencies[i], ?_, hget i hlt (hlength ▸ hlt)⟩
  rw [List.getElem?_zip_eq_some]
  exact ⟨hi, List.getElem?_eq_getElem _⟩

/-- A batch that agrees with the single runs computes its latencies and finalises every item. -/
theorem AgreesWithSingle.batchable (h : s.AgreesWithSingle items) (hsize : 2 ≤ items.length) :
    s.Batchable items := by
  have hne : items ≠ [] := List.ne_nil_of_length_pos (by omega)
  cases hlatencies : s.batchLatencies items with
  | error e =>
    -- no future is resolved
    obtain ⟨outcome, hresolved, -⟩ := h 0 (items.get ⟨0, by omega⟩) (List.getElem?_eq_getElem _)
    rw [runBatch_eq hsize, hlatencies] at hresolved
    cases hresolved
  | ok latencies =>
    refine ⟨fun item hitem => ?_, ((exists_batchLatencies_iff hne).mp ⟨_, hlatencies⟩).2⟩
    obtain ⟨i, hi⟩ := List.mem_iff_getElem?.mp hitem
    obtain ⟨ms, hpair, hms⟩ := exists_getElem?_zip hlatencies hi
    have hiff : (∃ o, s.finalizeItem items.length item ms = .ok o) ↔ s.Processable item :=
      exists_finalizeItem_iff_processable hms
    rw [← hiff]
    cases hfinal : s.finalizeItem items.length item ms with
    | ok outcome => exact ⟨outcome, rfl⟩
    | error e =>
      obtain ⟨outcome, hresolved, -⟩ := h i item hi
      have hnone := s.resolutions_finalize_of_error (i := 0) hpair hfinal
      rw [runBatch_eq hsize, hlatencies] at hresolved
      rw [Nat.zero_add] at hnone
      cases hresolved.symm.trans hnone

theorem Batchable.agreesWithSingle (h : s.Batchable items) (hsize : 2 ≤ items.length) :
    s.AgreesWithSingle items := by
  have hne : items ≠ [] := List.ne_nil_of_length_pos (by omega)
  obtain ⟨latencies, hlatencies⟩ := (exists_batchLatencies_iff hne).mpr
    ⟨fun item hitem => (h.processable item hitem).exists_resolveLatencyMs, h.delay⟩
  intro i item hi
  have hfinal : ∀ p ∈ items.zip latencies, ∃ o, s.finalizeItem items.length p.1 p.2 = .ok o := by
    rintro ⟨item', ms'⟩ hp
    obtain ⟨j, hj⟩ := List.mem_iff_getElem?.mp hp
    obtain ⟨ms, hpair, hms⟩ := exists_getElem?_zip hlatencies (List.getElem?_zip_eq_some.mp hj).1
    obtain ⟨-, rfl⟩ := Prod.mk.inj (Option.some.inj (hpair.symm.trans hj))
    exact (exists_finalizeItem_iff_processable hms).mpr
      (h.processable _ (List.of_mem_zip hp).1)
  obtain ⟨ms, hpair, hms⟩ := exists_getElem?_zip hlatencies hi
  obtain ⟨outcome, houtcome⟩ := hfinal _ (List.mem_of_getElem? hpair)
  refine ⟨outcome, ?_, finalizeItem_agrees hms ?_ houtcome⟩
  · have hresolved := s.resolutions_finalize (i := 0) hfinal hpair houtcome
    rw [Nat.zero_add] at hresolved
    rw [runBatch_eq hsize, hlatencies]
    exact hresolved
  · obtain ⟨hall, longest, hmax, hdelay⟩ := s.batchLatencies_eq_ok_iff.mp hlatencies
    refine sleepMs_single ?_ hdelay
    have hmem := (List.mem_iff_of_mapM_eq_ok (List.mapM_eq_ok_iff.mpr hall) (y := ms)).mpr
      ⟨item, List.mem_of_getElem? hi, hms⟩
    exact (List.max?_eq_some_iff.mp hmax).2 ms hmem

end GpuInferenceSimulator

/-- **Which batches agree with the single runs.** A batch of two or more items resolves every future
exactly once, with the outcome of `_run_single`, exactly when no item raises anything but a
simulated failure and the delay of the batch is within the floats. -/
theorem batch_agrees_iff (s : GpuInferenceSimulator) {items : List BatchItem}
    (hsize : 2 ≤ items.length) : s.AgreesWithSingle items ↔ s.Batchable items :=
  ⟨fun h => h.batchable hsize, fun h => h.agreesWithSingle hsize⟩

/-- The simulator with the default settings. -/
def exampleSimulator : GpuInferenceSimulator := .init 700 (.finite (4 / 5)) (.finite 0) 120

/-- A payload as the API builds it. -/
def examplePayload (content : Json) : Dict :=
  [("input", .obj [("content", content)]), ("options", .obj [])]

/-- Two texts are processed in one batch as they are alone. -/
theorem batch_agrees_iff_texts : exampleSimulator.AgreesWithSingle
    [⟨examplePayload (.str "one"), 1 / 2⟩, ⟨examplePayload (.str "two"), 1 / 2⟩] := by
  refine (batch_agrees_iff exampleSimulator (le_refl 2)).mpr ⟨fun item hitem => ?_, ?_⟩
  · have hpayload : ∃ text, item.payload = examplePayload (.str text) := by
      simp only [List.mem_cons, List.not_mem_nil, or_false] at hitem
      rcases hitem with rfl | rfl
      · exact ⟨_, rfl⟩
      · exact ⟨_, rfl⟩
    obtain ⟨text, hpayload⟩ := hpayload
    refine ⟨⟨[], by rw [hpayload]; rfl, ?_, ?_⟩, .inr ⟨[("content", .str text)], ?_, trivial⟩⟩
    · intro x hx
      cases hx
    · intro n hn
      cases hn
    · rw [hpayload]
      rfl
  · rintro longest ⟨⟨item, hitem, hms⟩, -⟩
    have hlongest : longest = 700 := by
      simp only [List.mem_cons, List.not_mem_nil, or_false] at hitem
      rcases hitem with rfl | rfl
      · exact (Except.ok.inj hms).symm
      · exact (Except.ok.inj hms).symm
    rw [hlongest]
    decide +kernel

/-- **A batch that leaves its items behind.** The content of the first item is a number: the futures
of both items are never resolved. -/
theorem not_batch_agrees : ¬ ∀ (s : GpuInferenceSimulator) (items : List BatchItem),
    2 ≤ items.length → s.AgreesWithSingle items := by
  intro h
  obtain ⟨outcome, hresolved, -⟩ := h exampleSimulator
    [⟨examplePayload (.int 42), 1 / 2⟩, ⟨examplePayload (.str "two"), 1 / 2⟩] (le_refl 2) 1 _ rfl
  have hnone : ((exampleSimulator.runBatch [⟨examplePayload (.int 42), 1 / 2⟩,
      ⟨examplePayload (.str "two"), 1 / 2⟩]).resolutions 1).isEmpty := by
    decide +kernel
  rw [hresolved] at hnone
  cases hnone

end Morphflow
