import HybridPqc.Algo
import HybridPqc.Lib.Memory
import HybridPqc.Lib.Stats

/-!
# The latency benchmark

The sample buffer of `c_dispatch/bench_e2e.c`: the number of runs is read from the command line,
the buffer is allocated and filled, and `compute_stats` sorts it and takes the mean and three
percentiles.

With at least one run, the percentiles are samples, in order, and the mean is between the
smallest and the largest sample (`computeStats_eq`, `Stats.quantile_mono`). A negative number of
runs asks for more memory than there is. No run at all asks for no memory, which may be granted:
then `compute_stats` divides by zero (`percentiles_iff`), where `metrics_mean` of `c` returns `0`.
-/

namespace HybridPqc

namespace Bench

/-! ## The command line -/

/-- The globals that are set by the command line. -/
structure Config where
  host : CString := cstr "127.0.0.1"
  runs : Int := 1000
  kdf : CString := cstr "sha256"

/-- `strtol`, to the base `10`: a number out of range is replaced with the nearest one. -/
def strtol (s : CString) : Int :=
  let s := s.dropWhile fun c => c = 32 ∨ 9 ≤ c ∧ c ≤ 13
  let negative := s.head? = some 45
  let s := if s.head? = some 45 ∨ s.head? = some 43 then s.drop 1 else s
  let digits := s.takeWhile fun c => 48 ≤ c ∧ c ≤ 57
  let n : ℕ := digits.foldl (fun n c => 10 * n + (c.toNat - 48)) 0
  max (-2 ^ 63) (min (2 ^ 63 - 1) (if negative then -n else n))

/-- `atoi`, which keeps 32 bits. -/
def atoi (s : CString) : Int := (strtol s).bmod (2 ^ 32)

/-- `parse_args`, after the name of the program. -/
def parseArgs (c : Config) : List CString → Config
  | arg :: value :: rest =>
    if arg = cstr "--host" then parseArgs { c with host := value } rest
    else if arg = cstr "--runs" then parseArgs { c with runs := atoi value } rest
    else if arg = cstr "--kdf" then parseArgs { c with kdf := value } rest
    else parseArgs c (value :: rest)
  | _ => c

/-- The number of runs is an `int`. -/
theorem runs_parseArgs (c : Config) (argv : List CString) (h : -2 ^ 31 ≤ c.runs ∧ c.runs < 2 ^ 31) :
    -2 ^ 31 ≤ (parseArgs c argv).runs ∧ (parseArgs c argv).runs < 2 ^ 31 := by
  fun_induction parseArgs c argv with
  | case1 c value rest ih => exact ih h
  | case2 c value rest _ ih => exact ih ⟨Int.le_bmod (by decide), Int.bmod_lt (by decide)⟩
  | case3 c value rest _ _ ih => exact ih h
  | case4 c arg value rest _ _ _ ih => exact ih h
  | case5 => exact h

/-! ## Statistics -/

/-- What may go wrong in `compute_stats`. -/
inductive Fault
  | outOfRange
  | divByZero
  deriving DecidableEq

/-- `LatencyStats`. -/
structure LatencyStats where
  meanMs : ℚ
  p50Ms : ℚ
  p95Ms : ℚ
  p99Ms : ℚ
  deriving DecidableEq

/-- `(size_t) n`. -/
def sizeT (n : Int) : ℕ := (n % 2 ^ 64).toNat

/-- `samples[i]`. -/
def loadAt (samples : Block ℚ) (i : Int) : Except Fault ℚ :=
  match if 0 ≤ i then samples.load i.toNat else none with
  | some sample => .ok sample
  | none => .error .outOfRange

/-- `cmp_double`. -/
def cmpDouble (a b : ℚ) : Int := if a < b then -1 else if b < a then 1 else 0

/-- `qsort`, of the first `n` entries. -/
def qsort (samples : Block ℚ) (n : ℕ) : Except Fault (Block ℚ) :=
  match if n ≤ samples.length then (samples.take n).mapM id else none with
  | some values =>
    .ok ((values.mergeSort fun a b => cmpDouble a b ≤ 0).map some ++ samples.drop n)
  | none => .error .outOfRange

/-- `sum / n`. -/
def divide (sum : ℚ) (n : Int) : Except Fault ℚ := if n = 0 then .error .divByZero else .ok (sum / n)

/-- The loop that adds up the first `n` samples. -/
def sumSamples (samples : Block ℚ) (n : ℕ) : Except Fault ℚ :=
  (List.range n).foldlM (fun (sum : ℚ) (i : ℕ) => return sum + (← loadAt samples i)) 0

/-- `compute_stats`. -/
def computeStats (samples : Block ℚ) (n : Int) : Except Fault LatencyStats := do
  let samples ← qsort samples (sizeT n)
  let sum ← sumSamples samples n.toNat
  let meanMs ← divide sum n
  let p50Ms ← loadAt samples (Stats.truncate ((n - 1 : Int) * (50 / 100)))
  let p95Ms ← loadAt samples (Stats.truncate ((n - 1 : Int) * (95 / 100)))
  let p99Ms ← loadAt samples (Stats.truncate ((n - 1 : Int) * (99 / 100)))
  return { meanMs, p50Ms, p95Ms, p99Ms }

section ComputeStats

variable {l : List ℚ}

theorem cmpDouble_le_zero (a b : ℚ) : cmpDouble a b ≤ 0 ↔ a ≤ b := by
  rw [cmpDouble]
  split_ifs with hlt hgt
  · simp [hlt.le]
  · simp [hgt]
  · simpa using hgt

theorem ok_bind {α β : Type} (a : α) (f : α → Except Fault β) : (.ok a >>= f) = f a := rfl

theorem mapM_some (l : List ℚ) : (l.map some).mapM id = some l := by
  induction l with
  | nil => rfl
  | cons a l ih => rw [List.map_cons, List.mapM_cons, ih]; rfl

/-- The buffer is sorted. -/
theorem qsort_map_some (l : List ℚ) :
    qsort (l.map some) l.length = .ok ((l.mergeSort (· ≤ ·)).map some) := by
  have hcmp : (fun a b => decide (cmpDouble a b ≤ 0)) = fun a b : ℚ => decide (a ≤ b) :=
    funext fun a => funext fun b => decide_eq_decide.2 (cmpDouble_le_zero a b)
  rw [qsort, if_pos (by rw [List.length_map]), List.take_of_length_le (by rw [List.length_map]),
    mapM_some]
  simp [hcmp]

theorem loadAt_map_some {i : Int} {j : ℕ} {a : ℚ} (hij : (j : Int) = i) (hj : l[j]? = some a) :
    loadAt (l.map some) i = .ok a := by
  subst hij
  rw [loadAt, if_pos (Int.natCast_nonneg j), Int.toNat_natCast, (Block.holds_map l).load hj]

/-- The loop adds up the entries. -/
theorem sumSamples_map_some (k : ℕ) (hk : k ≤ l.length) :
    sumSamples (l.map some) k = .ok (l.take k).sum := by
  induction k with
  | zero => rfl
  | succ k ih =>
    specialize ih (by omega)
    rw [sumSamples] at ih ⊢
    have hload : loadAt (l.map some) k = .ok l[k] :=
      loadAt_map_some rfl (List.getElem?_eq_getElem (by omega))
    rw [List.range_succ, List.foldlM_append, ih, List.take_add_one,
      List.getElem?_eq_getElem (by omega), Option.toList_some, List.sum_append, List.sum_singleton]
    simp [hload]
    rfl

/-- A percentile is the entry at its index. -/
theorem loadAt_quantile {n : Int} {q : ℚ} (hn : n = l.length) (hne : l ≠ []) (hq : 0 ≤ q)
    (hq1 : q ≤ 1) :
    loadAt ((l.mergeSort (· ≤ ·)).map some) (Stats.truncate ((n - 1 : Int) * q)) =
      .ok (Stats.quantile l q) := by
  subst hn
  exact loadAt_map_some (Stats.index_eq (List.length_pos_iff.2 hne) hq)
    (Stats.getElem?_quantile hne hq hq1)

theorem sizeT_natCast {n : ℕ} (h : n < 2 ^ 64) : sizeT n = n := by
  rw [sizeT]
  omega

/-- With at least one sample, there are statistics, which are those of the sample. -/
theorem computeStats_eq {n : Int} (hn : n = l.length) (hlt : l.length < 2 ^ 64) (hne : l ≠ []) :
    computeStats (l.map some) n = .ok ⟨Stats.mean l, Stats.quantile l (50 / 100),
      Stats.quantile l (95 / 100), Stats.quantile l (99 / 100)⟩ := by
  have hsum := sumSamples_map_some (l := l.mergeSort (· ≤ ·)) l.length (List.length_mergeSort l).ge
  rw [List.take_of_length_le (List.length_mergeSort l).le, (List.mergeSort_perm l _).sum_eq] at hsum
  have hdivide : divide l.sum n = .ok (Stats.mean l) := by
    rw [divide, if_neg, hn, Stats.mean, Int.cast_natCast]
    simpa [hn] using hne
  have hp50 := loadAt_quantile (q := 50 / 100) hn hne (by norm_num) (by norm_num)
  have hp95 := loadAt_quantile (q := 95 / 100) hn hne (by norm_num) (by norm_num)
  have hp99 := loadAt_quantile (q := 99 / 100) hn hne (by norm_num) (by norm_num)
  have hsize : sizeT n = l.length := hn ▸ sizeT_natCast hlt
  have hnat : n.toNat = l.length := by omega
  simp only [computeStats, hsize, hnat, qsort_map_some, ok_bind, hsum, hdivide, hp50, hp95, hp99]
  rfl

end ComputeStats

/-! ## A track -/

/-- The loop of a `run_bench`, from iteration `i` on, where the runs take the times `ms`, unless
    they fail. A store out of range has no result. -/
def fillFrom (fails : ℕ → Bool) (ms : ℕ → ℚ) (nIter : Int) (i : ℕ) (samples : Block ℚ) :
    Option (Int × Block ℚ) :=
  if i < nIter then
    if fails i then
      some (-1, samples)
    else
      match samples.store i (ms i) with
      | some samples => fillFrom fails ms nIter (i + 1) samples
      | none => none
  else
    some (0, samples)
termination_by (nIter - i).toNat

/-- `run_bench`: a handshake that fails has a negative time. -/
def runBench (ms : ℕ → ℚ) (samples : Block ℚ) (nIter : Int) : Option (Int × Block ℚ) :=
  fillFrom (fun i => ms i < 0) ms nIter 0 samples

/-- What becomes of the first track. -/
inductive Track
  | outOfMemory
  | failed
  | done (stats : Except Fault LatencyStats)

/-- The size of the sample buffer, in bytes. -/
def bufferSize (gRuns : Int) : ℕ := word (8 * sizeT gRuns)

/-- `main`, up to the statistics of its first track. -/
def firstTrack (a : Allocator) (argv : List CString) (ms : ℕ → ℚ) : Track :=
  let gRuns := (parseArgs {} argv).runs
  if a.grants (bufferSize gRuns) then
    match runBench ms (.uninit (bufferSize gRuns / 8)) gRuns with
    | none => .done (.error .outOfRange)
    | some (rc, samples) => if rc = 0 then .done (computeStats samples gRuns) else .failed
  else
    .outOfMemory

section Track

variable {fails : ℕ → Bool} {ms : ℕ → ℚ} {gRuns : Int}

theorem fillFrom_eq (n i : ℕ) (samples : Block ℚ) (hn : gRuns = n) (hlen : samples.length = n)
    (hi : i ≤ n) (hholds : samples.Holds ((List.range i).map ms)) :
    fillFrom fails ms gRuns i samples = some (0, ((List.range n).map ms).map some) ∨
      (∃ j < n, fails j) ∧ ∃ samples', fillFrom fails ms gRuns i samples = some (-1, samples') := by
  fun_induction fillFrom fails ms gRuns i samples with
  | case1 i samples hlt hfails => exact .inr ⟨⟨i, by omega, hfails⟩, samples, rfl⟩
  | case2 i samples hlt hfails samples' hstore ih =>
    obtain ⟨_, hstore', hholds', hlen'⟩ := hholds.store (by simp; omega) (ms i)
    rw [List.length_map, List.length_range] at hstore'
    obtain rfl := Option.some.inj (hstore.symm.trans hstore')
    refine ih (hlen'.trans hlen) (by omega) ?_
    rwa [List.range_succ, List.map_append, List.map_singleton]
  | case3 i samples hlt hfails hstore =>
    -- the place is in the buffer
    obtain ⟨_, hstore', -⟩ := hholds.store (by simp; omega) (ms i)
    rw [List.length_map, List.length_range, hstore] at hstore'
    cases hstore'
  | case4 i samples hle =>
    obtain rfl : i = n := by omega
    have heq := List.IsPrefix.eq_of_length hholds (by simp [hlen])
    exact .inl (by rw [heq])

/-- The buffer is filled, or a run fails. -/
theorem fill_eq {n : ℕ} (hn : gRuns = n) :
    fillFrom fails ms gRuns 0 (.uninit n) = some (0, ((List.range n).map ms).map some) ∨
      (∃ j < n, fails j) ∧
        ∃ samples', fillFrom fails ms gRuns 0 (.uninit n) = some (-1, samples') :=
  fillFrom_eq n 0 (.uninit n) hn Block.length_uninit (Nat.zero_le n) Block.holds_nil

/-- A negative number of runs asks for more memory than there is. -/
theorem nonneg_of_grants {a : Allocator} (hlt : -2 ^ 31 ≤ gRuns ∧ gRuns < 2 ^ 31)
    (h : a.grants (bufferSize gRuns)) : 0 ≤ gRuns := by
  have hsize := a.lt_of_grants _ h
  rw [bufferSize, sizeT, word] at hsize
  omega

theorem bufferSize_natCast {n : ℕ} (h : n < 2 ^ 31) : bufferSize n = 8 * n := by
  rw [bufferSize, sizeT_natCast (by omega), word_of_lt (by omega)]

end Track

/-- The percentiles are samples, in order, and the mean is between two samples that all others
    are between. -/
structure Ordered (samples : List ℚ) (stats : LatencyStats) : Prop where
  p50_le_p95 : stats.p50Ms ≤ stats.p95Ms
  p95_le_p99 : stats.p95Ms ≤ stats.p99Ms
  p50_mem : stats.p50Ms ∈ samples
  p95_mem : stats.p95Ms ∈ samples
  p99_mem : stats.p99Ms ∈ samples
  le_mean : ∀ lo, (∀ sample ∈ samples, lo ≤ sample) → lo ≤ stats.meanMs
  mean_le : ∀ hi, (∀ sample ∈ samples, sample ≤ hi) → stats.meanMs ≤ hi

theorem ordered_quantiles {samples : List ℚ} (hne : samples ≠ []) :
    Ordered samples ⟨Stats.mean samples, Stats.quantile samples (50 / 100),
      Stats.quantile samples (95 / 100), Stats.quantile samples (99 / 100)⟩ where
  p50_le_p95 := Stats.quantile_mono hne (by norm_num) (by norm_num) (by norm_num)
  p95_le_p99 := Stats.quantile_mono hne (by norm_num) (by norm_num) (by norm_num)
  p50_mem := Stats.quantile_mem hne (by norm_num) (by norm_num)
  p95_mem := Stats.quantile_mem hne (by norm_num) (by norm_num)
  p99_mem := Stats.quantile_mem hne (by norm_num) (by norm_num)
  le_mean _ hlo := Stats.le_mean hne hlo
  mean_le _ hhi := Stats.mean_le hne hhi

/-- Without a run, the mean is a division by zero. -/
theorem firstTrack_zero {a : Allocator} {argv : List CString} {ms : ℕ → ℚ}
    (hruns : (parseArgs {} argv).runs = 0) (h : a.grants (bufferSize 0)) :
    firstTrack a argv ms = .done (.error .divByZero) := by
  have hstats : computeStats [] 0 = .error .divByZero := by
    simp only [computeStats, show sizeT 0 = ([] : List ℚ).length from rfl,
      show ([] : Block ℚ) = ([] : List ℚ).map some from rfl, qsort_map_some, ok_bind]
    rfl
  have hbench (samples : Block ℚ) : runBench ms samples 0 = some (0, samples) := by
    rw [runBench, fillFrom, if_neg (by decide)]
  simp only [firstTrack, hruns, if_pos h, hbench]
  exact congrArg Track.done hstats

/-- **The statistics are in range and ordered**, exactly if there is at least one run, unless the
    empty buffer is refused. -/
theorem percentiles_iff (a : Allocator) (argv : List CString) (ms : ℕ → ℚ) :
    let gRuns := (parseArgs {} argv).runs
    (∀ r, firstTrack a argv ms = .done r →
      ∃ stats, r = .ok stats ∧ Ordered ((List.range gRuns.toNat).map ms) stats) ↔
        (a.grants (bufferSize gRuns) → 0 < gRuns) := by
  intro gRuns
  have hint : -2 ^ 31 ≤ gRuns ∧ gRuns < 2 ^ 31 := runs_parseArgs {} argv (by decide)
  constructor
  · intro h hgrants
    have hnonneg := nonneg_of_grants hint hgrants
    by_contra hpos
    -- the average of no run divides by zero
    have hzero : gRuns = 0 := by omega
    rw [hzero] at hgrants
    obtain ⟨_, hstats, -⟩ := h _ (firstTrack_zero hzero hgrants)
    cases hstats
  · intro h r hr
    rw [firstTrack] at hr
    split_ifs at hr with hgrants
    have hpos := h hgrants
    obtain ⟨n, hn⟩ := Int.eq_ofNat_of_zero_le hpos.le
    -- the buffer has room for each run, so all are recorded
    have hsize : bufferSize gRuns / 8 = n := by
      rw [hn, bufferSize_natCast (by omega)]
      omega
    obtain hbench | ⟨-, _, hbench⟩ := @fill_eq (fun i => ms i < 0) ms gRuns n hn
    · have hne : (List.range n).map ms ≠ [] := by
        simp only [ne_eq, List.map_eq_nil_iff, List.range_eq_nil]
        omega
      have hstats := computeStats_eq (l := (List.range n).map ms) (n := gRuns) (by simp [hn])
        (by simp; omega) hne
      have hdone : Track.done (computeStats (((List.range n).map ms).map some) gRuns) = .done r := by
        rw [← hr, runBench, hsize, hbench]
        rfl
      rw [hstats, Track.done.injEq] at hdone
      refine ⟨_, hdone.symm, ?_⟩
      rw [show gRuns.toNat = n by omega]
      exact ordered_quantiles hne
    · rw [runBench, hsize, hbench] at hr
      cases hr

/-- No run at all, and a buffer of no bytes that is granted. -/
theorem percentiles_no_run : ¬∀ (a : Allocator) (argv : List CString) (ms : ℕ → ℚ) r,
    firstTrack a argv ms = .done r →
      ∃ stats, r = .ok stats ∧
        Ordered ((List.range (parseArgs {} argv).runs.toNat).map ms) stats := by
  intro h
  have hruns : (parseArgs {} [cstr "--runs", cstr "0"]).runs = 0 := by decide
  obtain ⟨_, hstats, -⟩ := h .largest [cstr "--runs", cstr "0"] (fun _ => 1) _
    (firstTrack_zero hruns (by decide))
  cases hstats

end Bench

end HybridPqc
