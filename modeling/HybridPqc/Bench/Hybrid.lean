import HybridPqc.Bench.Metrics
import HybridPqc.Python.Engine

/-!
# The three reports of the hybrid benchmark

`run_hybrid_track` of `c/bench_hybrid.c`, that of `bench_hybrid.py`, and
`build_hybrid_latency_table` of `generate_tables.py`, on the same run times and the same costs.

They have the same mean, but the Python program divides the deviation by another number, and
they differ in the prediction, hence in the drift: the sum of the costs of the components, their
maximum with the cost of the KDF, or the maximum alone. So they agree only where this
does not show (`reports_agree_iff`).
-/

namespace HybridPqc

namespace Bench

/-- The engines that `run_hybrid_track` is called with. -/
inductive Kdf
  | sha256
  | blake3
  deriving DecidableEq

/-- The stable costs in `baseline_matrix_weights.json`, by key. -/
abbrev Weights := CString → Option ℚ

/-! ## `c/bench_hybrid.c` -/

/-- `CostModel`. -/
structure CostModel where
  x25519Cost : ℚ := 0
  p256Cost : ℚ := 0
  p384Cost : ℚ := 0
  mlkem768Cost : ℚ := 0
  mlkem1024Cost : ℚ := 0
  sha256KdfCost : ℚ := 0
  blake3KdfCost : ℚ := 0

namespace CostModel

/-- `get_classical_cost`. -/
def getClassicalCost (m : CostModel) (curve : Int) : ℚ :=
  if curve = curveX25519 then m.x25519Cost
  else if curve = curveP256 then m.p256Cost
  else if curve = curveP384 then m.p384Cost
  else 0

/-- `get_pqc_cost`. -/
def getPqcCost (m : CostModel) (pqc : Int) : ℚ :=
  if pqc = pqcMlkem768 then m.mlkem768Cost
  else if pqc = pqcMlkem1024 then m.mlkem1024Cost
  else 0

/-- `get_kdf_cost`. -/
def getKdfCost (m : CostModel) : Kdf → ℚ
  | .blake3 => m.blake3KdfCost
  | .sha256 => m.sha256KdfCost

/-- `load_weights`: a key that is missing leaves its cost as it is. -/
def loadWeights (w : Weights) (m : CostModel) : CostModel :=
  { m with
    x25519Cost := (w (cstr "X25519")).getD m.x25519Cost
    p256Cost := (w (cstr "P256")).getD m.p256Cost
    p384Cost := (w (cstr "P384")).getD m.p384Cost
    mlkem768Cost := (w (cstr "ML-KEM-768")).getD m.mlkem768Cost
    mlkem1024Cost := (w (cstr "ML-KEM-1024")).getD m.mlkem1024Cost }

/-- The model that `main` loads and calibrates, given the costs of the engines. -/
def trained (w : Weights) (kdfCosts : Kdf → ℚ) : CostModel :=
  { loadWeights w {} with
    sha256KdfCost := kdfCosts .sha256
    blake3KdfCost := kdfCosts .blake3 }

end CostModel

/-- The loop of `run_hybrid_track`, which leaves the buffer as it is once a handshake fails. -/
def collectRuns : List ℚ → List ℚ
  | [] => []
  | ms :: rest => if ms < 0 then [] else ms :: collectRuns rest

/-- `SummaryRow`, with the square of its `sd`. -/
structure SummaryRow where
  empAvg : ℚ
  seqPred : ℚ
  parPred : ℚ
  variance : ℚ
  drift : ℚ

/-- The row of a suite, unless there are too few runs. -/
def summaryRow (m : CostModel) (combo : AlgoCombo) (kdf : Kdf) (runs : List ℚ) :
    Option SummaryRow :=
  let runBuf := collectRuns runs
  if runBuf.length < 2 then
    none
  else
    let empAvg := metricsMean (runBuf.drop 1)
    let cCost := m.getClassicalCost combo.classicalCurve
    let qCost := m.getPqcCost combo.pqcAlg
    let kdfCost := m.getKdfCost kdf
    let parPred := max cCost qCost + kdfCost
    some {
      empAvg
      seqPred := cCost + qCost + kdfCost
      parPred
      variance := metricsVariance (runBuf.drop 1)
      drift := if 0 < parPred then empAvg - parPred else 0 }

/-! ## `bench_hybrid.py` -/

/-- A row of `summary_table_rows`, with the square of `sd`, and with `predicted`. -/
structure PySummaryRow where
  empAvg : ℚ
  variance : ℚ
  predicted : ℚ
  drift : ℚ

/-- `weights.get(name, {}).get("stable_cost_ms", 0.0)`. -/
def weightOf (w : Weights) (name : Option CString) : ℚ := (name.bind w).getD 0

/-- The row of a suite, once the predictor has the costs of the engines. -/
def pySummaryRow (w : Weights) (kdfCosts : Kdf → ℚ) (combo : Python.PyCombo) (kdf : Kdf)
    (rawRuns : List ℚ) : PySummaryRow :=
  let steadyState := rawRuns.drop 1
  let n := steadyState.length
  let empAvg := if 0 < n then steadyState.sum / n else 0
  let variance :=
    if 0 < n then (steadyState.map fun x => (x - empAvg) * (x - empAvg)).sum / n else 0
  let cCost := weightOf w combo.classicalName
  let qCost := weightOf w combo.pqcName
  let kdfCost := kdfCosts kdf
  let predicted := cCost + qCost + kdfCost
  { empAvg
    variance
    predicted
    drift := if 0 < predicted then empAvg - predicted else 0 }

/-! ## `generate_tables.py` -/

/-- The `label` of a suite of `ALGORITHM_COMBOS`, by its id. -/
def label (comboId : Int) : CString :=
  if comboId = 1 then cstr "Hybrid: X25519 + ML-KEM-768"
  else if comboId = 2 then cstr "Hybrid: SecP256r1 + ML-KEM-768"
  else if comboId = 3 then cstr "Hybrid: SecP384r1 + ML-KEM-1024"
  else if comboId = 4 then cstr "Pure Classical: X25519"
  else if comboId = 5 then cstr "Pure Classical: SecP256r1"
  else if comboId = 8 then cstr "Pure Classical: SecP384r1"
  else if comboId = 6 then cstr "Pure Quantum: ML-KEM-768"
  else cstr "Pure Quantum: ML-KEM-1024"

/-- `PROFILE_COMPONENTS`. -/
def profileComponents : List (CString × CString × CString) :=
  [(cstr "Hybrid: X25519 + ML-KEM-768", cstr "X25519", cstr "ML-KEM-768"),
    (cstr "Hybrid: SecP256r1 + ML-KEM-768", cstr "P256", cstr "ML-KEM-768"),
    (cstr "Hybrid: SecP384r1 + ML-KEM-1024", cstr "P384", cstr "ML-KEM-1024")]

/-- An entry of `hybrid_telemetry_matrix.json`, without its counters. -/
structure Entry where
  profile : CString
  empiricalAvgMs : ℚ

/-- The entry that `run_hybrid_track` exports. -/
def exported (combo : AlgoCombo) (row : SummaryRow) : Entry := ⟨label combo.id, row.empAvg⟩

/-- The costs in a row of the table. -/
structure LatencyRow where
  seqPred : ℚ
  parPred : ℚ
  drift : ℚ

/-- The row of an entry in `build_hybrid_latency_table`. -/
def latencyRow (baselines : Weights) (entry : Entry) : LatencyRow :=
  match profileComponents.lookup entry.profile with
  | some (cKey, qKey) =>
    let cCost := (baselines cKey).getD 0
    let qCost := (baselines qKey).getD 0
    let parPred := max cCost qCost
    ⟨cCost + qCost, parPred, entry.empiricalAvgMs - parPred⟩
  | none => ⟨0, 0, 0⟩

/-! ## The costs of a suite -/

/-- The hybrid suites of `c`. -/
def hybrids : List AlgoCombo :=
  Baseline.algorithmCombos.filter fun combo => combo.profile = profileHybrid

section Suite

variable (w : Weights) (kdfCosts : Kdf → ℚ) (combo : AlgoCombo)

/-- The costs of the components of a suite. -/
def classicalCost : ℚ := weightOf w (Python.curveName combo.classicalCurve)
def pqcCost : ℚ := weightOf w combo.pqcName

variable {w kdfCosts combo}

theorem eq_of_mem_hybrids (h : combo ∈ hybrids) :
    combo = x25519Mlkem768 ∨ combo = p256Mlkem768 ∨ combo = p384Mlkem1024 := by
  revert combo
  decide

/-- All three reports take the costs of the same components. -/
theorem getClassicalCost_trained (h : combo ∈ hybrids) :
    (CostModel.trained w kdfCosts).getClassicalCost combo.classicalCurve = classicalCost w combo := by
  rcases eq_of_mem_hybrids h with rfl | rfl | rfl <;> rfl

theorem getPqcCost_trained (h : combo ∈ hybrids) :
    (CostModel.trained w kdfCosts).getPqcCost combo.pqcAlg = pqcCost w combo := by
  rcases eq_of_mem_hybrids h with rfl | rfl | rfl <;> rfl

theorem getKdfCost_trained (kdf : Kdf) :
    (CostModel.trained w kdfCosts).getKdfCost kdf = kdfCosts kdf := by
  cases kdf <;> rfl

theorem latencyRow_exported (h : combo ∈ hybrids) (row : SummaryRow) :
    latencyRow w (exported combo row) =
      ⟨classicalCost w combo + pqcCost w combo, max (classicalCost w combo) (pqcCost w combo),
        row.empAvg - max (classicalCost w combo) (pqcCost w combo)⟩ := by
  rcases eq_of_mem_hybrids h with rfl | rfl | rfl <;> rfl

end Suite

/-! ## Agreement -/

section Agreement

variable {w : Weights} {kdfCosts : Kdf → ℚ} {combo : AlgoCombo} {kdf : Kdf} {runs : List ℚ}

/-- Runs of which none fails are all collected. -/
theorem collectRuns_eq (h : ∀ t ∈ runs, 0 ≤ t) : collectRuns runs = runs := by
  induction runs with
  | nil => rfl
  | cons t runs ih =>
    rw [List.forall_mem_cons] at h
    rw [collectRuns, if_neg (not_lt.2 h.1), ih h.2]

theorem summaryRow_eq (hcombo : combo ∈ hybrids) (hlen : 3 ≤ runs.length) (hruns : ∀ t ∈ runs, 0 ≤ t) :
    let steady := runs.drop 1
    let parPred := max (classicalCost w combo) (pqcCost w combo) + kdfCosts kdf
    summaryRow (.trained w kdfCosts) combo kdf runs = some
      ⟨Stats.mean steady, classicalCost w combo + pqcCost w combo + kdfCosts kdf, parPred,
        Stats.deviation steady / (steady.length - 1),
        if 0 < parPred then Stats.mean steady - parPred else 0⟩ := by
  intro steady parPred
  have hsteady : 2 ≤ (runs.drop 1).length := by rw [List.length_drop]; omega
  rw [summaryRow]
  simp only [collectRuns_eq hruns]
  rw [if_neg (by omega), metricsVariance_eq hsteady, getClassicalCost_trained hcombo,
    getPqcCost_trained hcombo, getKdfCost_trained]
  simp only [metricsMean_eq]
  rfl

theorem pySummaryRow_eq (hlen : 3 ≤ runs.length) :
    let steady := runs.drop 1
    let predicted := classicalCost w combo + pqcCost w combo + kdfCosts kdf
    pySummaryRow w kdfCosts (Python.ofAlgoCombo combo) kdf runs =
      ⟨Stats.mean steady, Stats.deviation steady / steady.length, predicted,
        if 0 < predicted then Stats.mean steady - predicted else 0⟩ := by
  intro steady predicted
  have hsteady : 0 < (runs.drop 1).length := by rw [List.length_drop]; omega
  rw [pySummaryRow]
  simp only [if_pos hsteady]
  rfl

/-- Only a deviation of zero may be divided by either number. -/
theorem div_sub_one_eq_iff {d : ℚ} {n : ℕ} (hn : 2 ≤ n) :
    d / ((n : ℚ) - 1) = d / n ↔ d = 0 := by
  have hn' : (2 : ℚ) ≤ n := by exact_mod_cast hn
  constructor
  · intro h
    rw [div_eq_div_iff (by linarith) (by linarith)] at h
    linarith
  · rintro rfl
    rw [zero_div, zero_div]

/-- The maximum of two costs is their sum if one of them is zero, and the other is not less. -/
theorem max_eq_add_iff {c q : ℚ} : max c q = c + q ↔ min c q = 0 := by
  rw [← min_add_max c q]
  constructor
  · intro h
    linarith
  · intro h
    rw [h, zero_add]

/-- The mean, and the sum of all costs, which only the Python program takes its drift from, are the
    same in all cases. -/
theorem common_reports (hcombo : combo ∈ hybrids) (hlen : 3 ≤ runs.length)
    (hruns : ∀ t ∈ runs, 0 ≤ t) :
    ∃ row, summaryRow (.trained w kdfCosts) combo kdf runs = some row ∧
      let py := pySummaryRow w kdfCosts (Python.ofAlgoCombo combo) kdf runs
      row.empAvg = py.empAvg ∧ row.seqPred = py.predicted ∧
        row.seqPred = (latencyRow w (exported combo row)).seqPred + kdfCosts kdf := by
  refine ⟨_, summaryRow_eq hcombo hlen hruns, ?_⟩
  rw [pySummaryRow_eq hlen, latencyRow_exported hcombo]
  exact ⟨rfl, rfl, rfl⟩

/-- The three programs report the same mean, variance, prediction and drift. The prediction is
    the one that the drift is taken from. -/
def ReportsAgree (w : Weights) (kdfCosts : Kdf → ℚ) (combo : AlgoCombo) (kdf : Kdf)
    (runs : List ℚ) : Prop :=
  ∃ row, summaryRow (.trained w kdfCosts) combo kdf runs = some row ∧
    let py := pySummaryRow w kdfCosts (Python.ofAlgoCombo combo) kdf runs
    let table := latencyRow w (exported combo row)
    row.empAvg = py.empAvg ∧ row.variance = py.variance ∧ row.parPred = py.predicted ∧
      row.drift = py.drift ∧ table.parPred = row.parPred ∧ table.drift = row.drift

/-- **The three reports agree** exactly if the runs after the first one all take the same time,
    the KDF costs nothing, and neither does one component, while the other one has a positive
    cost, unless the runs take no time. -/
theorem reports_agree_iff (hcombo : combo ∈ hybrids) (hlen : 3 ≤ runs.length)
    (hruns : ∀ t ∈ runs, 0 ≤ t) :
    ReportsAgree w kdfCosts combo kdf runs ↔
      (∀ t ∈ runs.drop 1, ∀ u ∈ runs.drop 1, t = u) ∧ kdfCosts kdf = 0 ∧
        min (classicalCost w combo) (pqcCost w combo) = 0 ∧
          (0 < max (classicalCost w combo) (pqcCost w combo) ∨ ∀ t ∈ runs.drop 1, t = 0) := by
  have hsteady : 2 ≤ (runs.drop 1).length := by rw [List.length_drop]; omega
  simp only [ReportsAgree, summaryRow_eq hcombo hlen hruns, Option.some.injEq, exists_eq_left',
    pySummaryRow_eq hlen, latencyRow_exported hcombo, true_and, div_sub_one_eq_iff hsteady,
    Stats.deviation_eq_zero_iff, add_left_inj, max_eq_add_iff, left_eq_add]
  generalize kdfCosts kdf = k
  generalize classicalCost w combo = c
  generalize pqcCost w combo = q
  constructor
  -- with no positive cost the drift is reported as zero, and so is the mean
  · rintro ⟨hall, hmin, -, rfl, hdrift⟩
    refine ⟨hall, rfl, hmin, ?_⟩
    rw [add_zero] at hdrift
    refine or_iff_not_imp_left.2 fun hmax t ht => ?_
    rw [if_neg hmax] at hdrift
    have hzero : max c q = 0 :=
      le_antisymm (not_lt.1 hmax) (hmin ▸ min_le_max)
    rw [hzero, sub_zero] at hdrift
    rw [Stats.forall_eq_mean_iff.2 hall t ht, hdrift]
  · rintro ⟨hall, rfl, hmin, hcost⟩
    refine ⟨hall, hmin, ?_, rfl, ?_⟩
    · rw [max_eq_add_iff.2 hmin]
    · rw [add_zero]
      split_ifs with hmax
      · rfl
      · have hzero : max c q = 0 := le_antisymm (not_lt.1 hmax) (hmin ▸ min_le_max)
        rw [hzero, sub_zero]
        exact Stats.mean_eq_of_forall_eq (List.ne_nil_of_length_pos (by omega))
          (hcost.resolve_left hmax)

/-- Costs of a millisecond each, and runs of two: the programs predict three milliseconds, two
    and one. -/
theorem reports_disagree : ¬∀ (w : Weights) (kdfCosts : Kdf → ℚ) (combo : AlgoCombo) (kdf : Kdf)
    (runs : List ℚ), combo ∈ hybrids → 3 ≤ runs.length → (∀ t ∈ runs, 0 ≤ t) →
      ReportsAgree w kdfCosts combo kdf runs := by
  intro h
  have hruns : ∀ t ∈ [(2 : ℚ), 2, 2], 0 ≤ t := by decide
  obtain ⟨row, hrow, -, -, hpred, -⟩ :=
    h (fun _ => some 1) (fun _ => 1) x25519Mlkem768 .sha256 [2, 2, 2] (by decide) (by decide) hruns
  rw [summaryRow_eq (by decide) (by decide) hruns, Option.some.injEq] at hrow
  subst hrow
  have hpred' : max (1 : ℚ) 1 + 1 = 1 + 1 + 1 := hpred
  rw [max_self] at hpred'
  linarith

/-- Where one component costs a millisecond, and the other costs as little as the KDF, they
    agree on constant runs. -/
theorem reports_agree_one_cost :
    ReportsAgree (fun name => if name = cstr "X25519" then some 1 else none) (fun _ => 0)
      x25519Mlkem768 .blake3 [5, 2, 2] :=
  (reports_agree_iff (by decide) (by decide) (by decide)).2
    ⟨by decide, rfl, by decide, .inl (by decide)⟩

end Agreement

end Bench

end HybridPqc
