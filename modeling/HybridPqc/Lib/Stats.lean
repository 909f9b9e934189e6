import Mathlib.Algebra.Order.BigOperators.Group.List
import Mathlib.Algebra.Order.Field.Basic
import Mathlib.Algebra.Order.Ring.Rat
import Mathlib.Data.List.Sort
import Mathlib.Data.Rat.Floor
import Mathlib.Tactic.Linarith

/-!
# Statistics of a sample

The *mean* of a sample with values in an ordered field, which lies between any bounds of the
sample (`le_mean`, `mean_le`), and its *deviation*, i.e., the sum of the squares of the distances
to the mean, which vanishes exactly on the constant samples (`deviation_eq_zero_iff`).

A *quantile* of a sorted sample is the value at a fraction `p` of its length; an index is rounded
toward zero, as by a conversion to an integer (`truncate`). Larger fractions have larger
quantiles (`getElem_index_le`).
-/

namespace Stats

section Mean

variable {K : Type} [Field K] [LinearOrder K] [IsStrictOrderedRing K] {l l' : List K} {a : K}

/-- The mean. It is `0` for the empty sample. -/
def mean (l : List K) : K := l.sum / l.length

/-- The sum of the squares of the distances to the mean. -/
def deviation (l : List K) : K := (l.map fun a => (a - mean l) * (a - mean l)).sum

theorem length_pos (h : l ≠ []) : (0 : K) < l.length :=
  Nat.cast_pos.2 (List.length_pos_iff.2 h)

theorem le_mean (hne : l ≠ []) (h : ∀ b ∈ l, a ≤ b) : a ≤ mean l := by
  rw [mean, le_div_iff₀ (length_pos hne), mul_comm, ← nsmul_eq_mul]
  exact l.card_nsmul_le_sum a h

theorem mean_le (hne : l ≠ []) (h : ∀ b ∈ l, b ≤ a) : mean l ≤ a := by
  rw [mean, div_le_iff₀ (length_pos hne), mul_comm, ← nsmul_eq_mul]
  exact l.sum_le_card_nsmul a h

/-- Samples with the same rest have the same mean exactly if they are equal. -/
theorem mean_cons_inj {b : K} : mean (a :: l) = mean (b :: l) ↔ a = b := by
  have hpos : ((l.length + 1 : ℕ) : K) ≠ 0 := Nat.cast_ne_zero.2 (Nat.succ_ne_zero _)
  rw [mean, mean, List.length_cons, List.length_cons, div_left_inj' hpos, List.sum_cons,
    List.sum_cons, add_left_inj]

theorem mean_eq_of_forall_eq (hne : l ≠ []) (h : ∀ b ∈ l, b = a) : mean l = a :=
  le_antisymm (mean_le hne fun b hb => (h b hb).le) (le_mean hne fun b hb => (h b hb).ge)

/-- The values all are the mean, exactly if they all are equal. -/
theorem forall_eq_mean_iff : (∀ a ∈ l, a = mean l) ↔ ∀ a ∈ l, ∀ b ∈ l, a = b := by
  constructor
  · intro h a ha b hb
    rw [h a ha, h b hb]
  · intro h a ha
    exact (mean_eq_of_forall_eq (List.ne_nil_of_mem ha) fun b hb => h b hb a ha).symm

/-- Only a constant sample does not deviate. -/
theorem deviation_eq_zero_iff : deviation l = 0 ↔ ∀ a ∈ l, ∀ b ∈ l, a = b := by
  rw [← forall_eq_mean_iff]
  constructor
  · intro h a ha
    have hnonneg : ∀ x ∈ l.map fun a => (a - mean l) * (a - mean l), 0 ≤ x := fun x hx => by
      obtain ⟨b, -, rfl⟩ := List.mem_map.1 hx
      exact mul_self_nonneg _
    have hle := List.single_le_sum hnonneg _ (List.mem_map.2 ⟨a, ha, rfl⟩)
    rw [deviation] at h
    rw [h] at hle
    exact sub_eq_zero.1 (mul_self_eq_zero.1 (le_antisymm hle (mul_self_nonneg _)))
  · intro h
    refine List.sum_eq_zero fun x hx => ?_
    obtain ⟨a, ha, rfl⟩ := List.mem_map.1 hx
    rw [sub_eq_zero.2 (h a ha), mul_zero]

end Mean

/-! ## Quantiles -/

/-- The integer part, toward zero. -/
def truncate (q : ℚ) : Int := if 0 ≤ q then ⌊q⌋ else ⌈q⌉

section Truncate

variable {p q : ℚ} {n : ℕ}

theorem truncate_of_nonneg (h : 0 ≤ q) : truncate q = ⌊q⌋ := if_pos h

theorem truncate_nonneg (h : 0 ≤ q) : 0 ≤ truncate q := by
  rw [truncate_of_nonneg h]
  exact Int.floor_nonneg.2 h

theorem truncate_mono (hp : 0 ≤ p) (h : p ≤ q) : truncate p ≤ truncate q := by
  rw [truncate_of_nonneg hp, truncate_of_nonneg (hp.trans h)]
  exact Int.floor_le_floor h

/-- A fraction of `n` is not more than `n`. -/
theorem truncate_mul_le (hq : 0 ≤ q) (hq1 : q ≤ 1) : truncate (n * q) ≤ n := by
  rw [truncate_of_nonneg (mul_nonneg n.cast_nonneg hq)]
  have hle : (n : ℚ) * q ≤ n := mul_le_of_le_one_right n.cast_nonneg hq1
  exact Int.cast_le.1 ((Int.floor_le _).trans (by simpa using hle))

end Truncate

/-- The index of the quantile at the fraction `q` of a sample of `n` values. -/
def index (n : ℕ) (q : ℚ) : ℕ := (truncate (((n : Int) - 1 : Int) * q)).toNat

/-- The quantile at the fraction `q`. -/
def quantile (l : List ℚ) (q : ℚ) : ℚ := (l.mergeSort (· ≤ ·)).getD (index l.length q) 0

section Quantile

/-- An index is not rounded up from a negative number, if there is a value. -/
theorem index_eq {n : ℕ} {q : ℚ} (hn : 0 < n) (hq : 0 ≤ q) :
    (index n q : Int) = truncate (((n : Int) - 1 : Int) * q) := by
  obtain ⟨n, rfl⟩ := Nat.exists_eq_add_one.2 hn
  refine Int.toNat_of_nonneg (truncate_nonneg (mul_nonneg ?_ hq))
  simp

variable {l : List ℚ} {p q : ℚ}

theorem index_succ (n : ℕ) : index (n + 1) q = (truncate (n * q)).toNat := by
  simp [index]

theorem index_lt (hne : l ≠ []) (hq : 0 ≤ q) (hq1 : q ≤ 1) : index l.length q < l.length := by
  obtain ⟨a, l, rfl⟩ := List.exists_cons_of_ne_nil hne
  have hle := truncate_mul_le (n := l.length) hq hq1
  rw [List.length_cons, index_succ]
  omega

/-- The quantile is the value at its index. -/
theorem getElem?_quantile (hne : l ≠ []) (hq : 0 ≤ q) (hq1 : q ≤ 1) :
    (l.mergeSort (· ≤ ·))[index l.length q]? = some (quantile l q) := by
  have hlt : index l.length q < (l.mergeSort (· ≤ ·)).length := by
    rw [List.length_mergeSort]
    exact index_lt hne hq hq1
  rw [quantile, List.getD_eq_getElem?_getD, List.getElem?_eq_getElem hlt, Option.getD_some]

theorem quantile_mem (hne : l ≠ []) (hq : 0 ≤ q) (hq1 : q ≤ 1) : quantile l q ∈ l :=
  List.mem_mergeSort.1 (List.mem_of_getElem? (getElem?_quantile hne hq hq1))

/-- A larger fraction has a larger quantile. -/
theorem quantile_mono (hne : l ≠ []) (hp : 0 ≤ p) (hpq : p ≤ q) (hq1 : q ≤ 1) :
    quantile l p ≤ quantile l q := by
  have hindex : index l.length p ≤ index l.length q := by
    obtain ⟨a, l, rfl⟩ := List.exists_cons_of_ne_nil hne
    rw [List.length_cons, index_succ, index_succ]
    exact Int.toNat_le_toNat (truncate_mono (mul_nonneg l.length.cast_nonneg hp)
      (mul_le_mul_of_nonneg_left hpq l.length.cast_nonneg))
  have ha := getElem?_quantile hne hp (hpq.trans hq1)
  have hb := getElem?_quantile hne (hp.trans hpq) hq1
  obtain ⟨hi, hia⟩ := List.getElem?_eq_some_iff.1 ha
  obtain ⟨hj, hjb⟩ := List.getElem?_eq_some_iff.1 hb
  rw [← hia, ← hjb]
  exact List.sortedLE_mergeSort.getElem_le_getElem_of_le hindex

end Quantile

end Stats
