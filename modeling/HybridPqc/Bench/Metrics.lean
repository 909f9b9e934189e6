import HybridPqc.Lib.Stats

/-!
# Statistics of the benchmarks

The functions of `c/src/metrics.c`, in exact arithmetic. An array and its length are a list; the
square root of a variance is left out, so that `metrics_stddev` is compared by its square.
-/

namespace HybridPqc

namespace Bench

/-- The loop that adds up an array. -/
def sumLoop (vals : List ℚ) : ℚ := vals.foldl (· + ·) 0

theorem sumLoop_eq (vals : List ℚ) : sumLoop vals = vals.sum := List.sum_eq_foldl.symm

/-- `metrics_mean`. -/
def metricsMean (vals : List ℚ) : ℚ :=
  if vals.length ≤ 0 then 0 else sumLoop vals / vals.length

/-- `metrics_stddev`, squared. -/
def metricsVariance (vals : List ℚ) : ℚ :=
  if vals.length ≤ 1 then
    0
  else
    let mean := metricsMean vals
    sumLoop (vals.map fun val => (val - mean) * (val - mean)) / (vals.length - 1)

/-- `metrics_stable_cost`, which skips the first iteration. -/
def metricsStableCost (vals : List ℚ) : ℚ :=
  if vals.length ≤ 1 then metricsMean vals else metricsMean (vals.drop 1)

theorem metricsMean_eq (vals : List ℚ) : metricsMean vals = Stats.mean vals := by
  rw [metricsMean, sumLoop_eq, Stats.mean]
  split_ifs with h
  · obtain rfl := List.length_eq_zero_iff.1 (Nat.le_zero.1 h)
    simp
  · rfl

theorem metricsVariance_eq {vals : List ℚ} (h : 2 ≤ vals.length) :
    metricsVariance vals = Stats.deviation vals / (vals.length - 1) := by
  rw [metricsVariance, if_neg (by omega)]
  simp only [sumLoop_eq, metricsMean_eq]
  rfl

end Bench

end HybridPqc
