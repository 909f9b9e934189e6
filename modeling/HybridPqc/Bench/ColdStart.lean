import HybridPqc.Bench.Hybrid
import HybridPqc.Bench.Latency

/-!
# The cold start

Whether the first iteration, which warms up, shows in what the benchmarks report. Those of `c`
skip it (`baselineRow_cons`, `summaryRow_cons`). `benchmark_suite.c` and `bench_e2e.c` sort all
of the samples, and take their mean: it differs whenever the first iteration does
(`cold_start_iff`), although the README reports these figures as without it.
-/

namespace HybridPqc

namespace Bench

/-! ## `benchmark_suite.c` and `bench_e2e.c` -/

/-- `run_bench` of `benchmark_suite.c`, where the executions return `rc` and take the times `ms`. -/
def Suite.runBench (rc : ℕ → Int) (ms : ℕ → ℚ) (samples : Block ℚ) (nIter : Int) :
    Option (Int × Block ℚ) :=
  fillFrom (fun i => rc i ≠ 0) ms nIter 0 samples

/-- The statistics of a track, once `run_bench` is done. -/
def trackStats (nIter : Int) : Option (Int × Block ℚ) → Option (Except Fault LatencyStats)
  | some (0, samples) => some (computeStats samples nIter)
  | _ => none

/-- What `benchmark_suite.c` reports of executions that succeed. -/
def suiteStats (times : List ℚ) : Option (Except Fault LatencyStats) :=
  trackStats times.length
    (Suite.runBench (fun _ => 0) (times.getD · 0) (.uninit times.length) times.length)

/-- What `bench_e2e.c` reports. -/
def e2eStats (times : List ℚ) : Option (Except Fault LatencyStats) :=
  trackStats times.length (runBench (times.getD · 0) (.uninit times.length) times.length)

/-! ## The benchmarks of `c` -/

/-- The loop of `bench_baselines.c`, which leaves out a suite of which a handshake fails. -/
def collectAll : List ℚ → Option (List ℚ)
  | [] => some []
  | ms :: rest => if ms < 0 then none else (collectAll rest).map (ms :: ·)

/-- The stable cost and the spread that `bench_baselines.c` reports. -/
def baselineRow (runs : List ℚ) : Option (ℚ × ℚ) :=
  (collectAll runs).map fun runBuf => (metricsStableCost runBuf, metricsVariance (runBuf.drop 1))

theorem collectAll_eq {runs : List ℚ} (h : ∀ t ∈ runs, 0 ≤ t) : collectAll runs = some runs := by
  induction runs with
  | nil => rfl
  | cons t runs ih =>
    rw [List.forall_mem_cons] at h
    rw [collectAll, if_neg (not_lt.2 h.1), ih h.2, Option.map_some]

/-! ## The first run -/

section ColdStart

variable {x x' : ℚ} {rest times : List ℚ}

/-- The row of `bench_baselines.c` is that of the runs after the first one. -/
theorem baselineRow_cons (hne : rest ≠ []) (hx : 0 ≤ x) (hrest : ∀ t ∈ rest, 0 ≤ t) :
    baselineRow (x :: rest) = some (metricsMean rest, metricsVariance rest) := by
  have hlen : ¬(x :: rest).length ≤ 1 := by
    have := List.length_pos_iff.2 hne
    rw [List.length_cons]
    omega
  rw [baselineRow, collectAll_eq (List.forall_mem_cons.2 ⟨hx, hrest⟩), Option.map_some,
    metricsStableCost, if_neg hlen, List.drop_one, List.tail_cons]

/-- So is the row of `bench_hybrid.c`. -/
theorem summaryRow_cons (m : CostModel) (combo : AlgoCombo) (kdf : Kdf) (hx : 0 ≤ x) (hx' : 0 ≤ x')
    (hrest : ∀ t ∈ rest, 0 ≤ t) :
    summaryRow m combo kdf (x :: rest) = summaryRow m combo kdf (x' :: rest) := by
  rw [summaryRow, summaryRow, collectRuns_eq (List.forall_mem_cons.2 ⟨hx, hrest⟩),
    collectRuns_eq (List.forall_mem_cons.2 ⟨hx', hrest⟩)]
  rfl

theorem map_getD_range (l : List ℚ) : (List.range l.length).map (l.getD · 0) = l := by
  refine List.ext_getElem (by simp) fun i hi hi' => ?_
  simp [hi']

/-- The statistics of a sample, whichever way it is collected. -/
theorem trackStats_eq {r : Option (Int × Block ℚ)} (hne : times ≠ []) (hlt : times.length < 2 ^ 31)
    (h : r = some (0, times.map some)) :
    trackStats times.length r = some (.ok ⟨Stats.mean times, Stats.quantile times (50 / 100),
      Stats.quantile times (95 / 100), Stats.quantile times (99 / 100)⟩) := by
  rw [h, trackStats, computeStats_eq rfl (by omega) hne]

theorem suiteStats_eq (hne : times ≠ []) (hlt : times.length < 2 ^ 31) :
    suiteStats times = some (.ok ⟨Stats.mean times, Stats.quantile times (50 / 100),
      Stats.quantile times (95 / 100), Stats.quantile times (99 / 100)⟩) := by
  refine trackStats_eq hne hlt ?_
  obtain h | ⟨⟨j, -, hfails⟩, -⟩ :=
    @fill_eq (fun _ => (0 : Int) ≠ 0) (times.getD · 0) times.length times.length rfl
  · rw [map_getD_range] at h
    exact h
  · simp at hfails

theorem e2eStats_eq (hne : times ≠ []) (hlt : times.length < 2 ^ 31) (htimes : ∀ t ∈ times, 0 ≤ t) :
    e2eStats times = some (.ok ⟨Stats.mean times, Stats.quantile times (50 / 100),
      Stats.quantile times (95 / 100), Stats.quantile times (99 / 100)⟩) := by
  refine trackStats_eq hne hlt ?_
  obtain h | ⟨⟨j, hj, hfails⟩, -⟩ := @fill_eq (fun i => times.getD i 0 < 0)
    (times.getD · 0) times.length times.length rfl
  · rw [map_getD_range] at h
    exact h
  · have hmem := htimes times[j] (List.getElem_mem hj)
    simp only [List.getD_eq_getElem?_getD, List.getElem?_eq_getElem hj, Option.getD_some,
      decide_eq_true_eq] at hfails
    exact absurd hmem (not_le.2 hfails)

/-- All the benchmarks report the same of two arrays of run times. -/
structure ReportedAlike (times times' : List ℚ) : Prop where
  suite : suiteStats times = suiteStats times'
  e2e : e2eStats times = e2eStats times'
  baselines : baselineRow times = baselineRow times'
  hybrid : ∀ m combo kdf, summaryRow m combo kdf times = summaryRow m combo kdf times'

/-- Both means differ with the first run. -/
theorem suiteStats_cons_iff (hlt : (x :: rest).length < 2 ^ 31) :
    suiteStats (x :: rest) = suiteStats (x' :: rest) ↔ x = x' := by
  have heq' := suiteStats_eq (List.cons_ne_nil x' rest) hlt
  rw [suiteStats_eq (List.cons_ne_nil x rest) hlt, heq']
  refine ⟨fun h => ?_, fun h => h ▸ rfl⟩
  rw [Option.some.injEq, Except.ok.injEq, LatencyStats.mk.injEq] at h
  exact Stats.mean_cons_inj.1 h.1

theorem e2eStats_cons_iff (hlt : (x :: rest).length < 2 ^ 31) (hx : 0 ≤ x) (hx' : 0 ≤ x')
    (hrest : ∀ t ∈ rest, 0 ≤ t) : e2eStats (x :: rest) = e2eStats (x' :: rest) ↔ x = x' := by
  have heq' := e2eStats_eq (List.cons_ne_nil x' rest) hlt (List.forall_mem_cons.2 ⟨hx', hrest⟩)
  rw [e2eStats_eq (List.cons_ne_nil x rest) hlt (List.forall_mem_cons.2 ⟨hx, hrest⟩), heq']
  refine ⟨fun h => ?_, fun h => h ▸ rfl⟩
  rw [Option.some.injEq, Except.ok.injEq, LatencyStats.mk.injEq] at h
  exact Stats.mean_cons_inj.1 h.1

/-- **The first run influences what is reported**, whatever time it takes: the programs of
    `c_dispatch` report the same only of arrays that agree in it, too. Those of `c` always do.
    (The number of runs is an `int`.) -/
theorem cold_start_iff (hlen : 3 ≤ (x :: rest).length) (hlt : (x :: rest).length < 2 ^ 31)
    (hx : 0 ≤ x) (hx' : 0 ≤ x') (hrest : ∀ t ∈ rest, 0 ≤ t) :
    (baselineRow (x :: rest) = baselineRow (x' :: rest) ∧
      ∀ m combo kdf, summaryRow m combo kdf (x :: rest) = summaryRow m combo kdf (x' :: rest)) ∧
    (e2eStats (x :: rest) = e2eStats (x' :: rest) ↔ x = x') ∧
    (ReportedAlike (x :: rest) (x' :: rest) ↔ x = x') := by
  have hne : rest ≠ [] := by
    rintro rfl
    simp at hlen
  refine ⟨⟨?_, fun m combo kdf => summaryRow_cons m combo kdf hx hx' hrest⟩,
    e2eStats_cons_iff hlt hx hx' hrest, fun h => (suiteStats_cons_iff hlt).1 h.suite, ?_⟩
  · rw [baselineRow_cons hne hx hrest, baselineRow_cons hne hx' hrest]
  · rintro rfl
    exact ⟨rfl, rfl, rfl, fun _ _ _ => rfl⟩

/-- A first run that takes four times as long raises the mean. -/
theorem cold_start_shows : ¬∀ (x x' : ℚ) (rest : List ℚ), 3 ≤ (x :: rest).length →
    (x :: rest).length < 2 ^ 31 → 0 ≤ x → 0 ≤ x' → (∀ t ∈ rest, 0 ≤ t) →
      ReportedAlike (x :: rest) (x' :: rest) := by
  intro h
  have halike := h 1 4 [1, 1] (by decide) (by decide) (by decide) (by decide) (by decide)
  exact absurd ((suiteStats_cons_iff (by decide)).1 halike.suite) (by decide)

theorem cold_start_iff_three : ReportedAlike [1, 1, 1] [4, 1, 1] ↔ (1 : ℚ) = 4 :=
  (cold_start_iff (by decide) (by decide) (by decide) (by decide) (by decide)).2.2

end ColdStart

end Bench

end HybridPqc
