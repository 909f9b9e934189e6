import Mathlib.Data.Int.Log
import Mathlib.Data.Rat.Floor
import Mathlib.Tactic.FieldSimp
import Mathlib.Tactic.Linarith
import Mathlib.Tactic.NormNum
import Mathlib.Tactic.Ring

/-!
# Binary floating-point formats

A *format* has numbers with a given number of significant bits, whose last one has no exponent
less than the least one, and which are less than a given power of two (`FloatFormat.Mem`). A
number is *rounded* to a multiple of its last place, ties to the even one (`FloatFormat.round`).

* `round_eq_self`: the numbers of the format are not changed;
* `round_eq_of_close`: nor are those that are off from one by less than half a unit in the
  last place;
* `mem_round`: what a number is rounded to has the format, unless it is too large.
-/

/-! ## Rounding to integers -/

/-- The integer nearest to `q`, or the even one of two. -/
def roundEven (q : ℚ) : ℤ :=
  if Int.fract q < 1 / 2 then ⌊q⌋
  else if 1 / 2 < Int.fract q then ⌊q⌋ + 1
  else if ⌊q⌋ % 2 = 0 then ⌊q⌋ else ⌊q⌋ + 1

theorem abs_sub_roundEven_le (q : ℚ) : |q - roundEven q| ≤ 1 / 2 := by
  have hfract : q = ⌊q⌋ + Int.fract q := (Int.floor_add_fract q).symm
  have hlt := Int.fract_lt_one q
  have hnonneg := Int.fract_nonneg q
  rw [abs_le, roundEven]
  split_ifs <;> push_cast <;> constructor <;> linarith

/-- An integer that is nearer than all other ones. -/
theorem roundEven_eq {q : ℚ} {n : ℤ} (h : |q - n| < 1 / 2) : roundEven q = n := by
  have hdist : |(roundEven q : ℚ) - n| < 1 := by
    calc |(roundEven q : ℚ) - n| = |(q - n) - (q - roundEven q)| := by ring_nf
      _ ≤ |q - n| + |q - roundEven q| := abs_sub _ _
      _ < 1 := by linarith [abs_sub_roundEven_le q]
  rw [← Int.cast_sub, ← Int.cast_abs, ← Int.cast_one, Int.cast_lt, Int.abs_lt_one_iff] at hdist
  omega

@[simp] theorem roundEven_intCast (n : ℤ) : roundEven n = n := roundEven_eq (by simp)

theorem le_roundEven {q : ℚ} {n : ℤ} (h : n ≤ q) : n ≤ roundEven q := by
  have hfloor : n ≤ ⌊q⌋ := Int.le_floor.2 h
  rw [roundEven]
  split_ifs <;> omega

theorem roundEven_le {q : ℚ} {n : ℤ} (h : q ≤ n) : roundEven q ≤ n := by
  obtain heq | hlt := h.eq_or_lt
  · rw [heq, roundEven_intCast]
  · have hfloor : ⌊q⌋ < n := Int.floor_lt.2 hlt
    rw [roundEven]
    split_ifs <;> omega

/-! ## Formats -/

/-- A format: `prec` significant bits, the last of which has at least the exponent `emin`; the
    numbers are less than `2 ^ emax`. -/
structure FloatFormat where
  prec : ℕ
  emin : ℤ
  emax : ℤ

namespace FloatFormat

variable (F : FloatFormat)

/-- The numbers of the format. -/
def Mem (v : ℚ) : Prop :=
  ∃ m e : ℤ, v = m * 2 ^ e ∧ |m| < 2 ^ F.prec ∧ F.emin ≤ e ∧ |v| < 2 ^ F.emax

/-- The exponent of the last place of a number. -/
def lastPlace (v : ℚ) : ℤ := max (Int.log 2 |v| + 1 - F.prec) F.emin

/-- The multiple of the last place nearest to a number. -/
def round (v : ℚ) : ℚ := roundEven (v / 2 ^ F.lastPlace v) * 2 ^ F.lastPlace v

variable {F} {v d : ℚ}

theorem two_zpow_pos (e : ℤ) : (0 : ℚ) < 2 ^ e := zpow_pos (by norm_num) e

theorem lt_two_zpow (v : ℚ) : |v| < 2 ^ (Int.log 2 |v| + 1) :=
  Int.lt_zpow_succ_log_self (by norm_num) _

theorem two_zpow_le (h : v ≠ 0) : 2 ^ Int.log 2 |v| ≤ |v| :=
  Int.zpow_log_le_self (by norm_num) (abs_pos.2 h)

/-- The last place of a number is not far below it. -/
theorem lt_lastPlace (v : ℚ) : |v| < 2 ^ (F.lastPlace v + F.prec) := by
  refine (lt_two_zpow v).trans_le (zpow_le_zpow_right₀ (by norm_num) ?_)
  have := le_max_left (Int.log 2 |v| + 1 - F.prec) F.emin
  rw [lastPlace]
  omega

/-- A multiple of a place is one of the places below. -/
theorem exists_eq_mul {k l : ℤ} (h : k ≤ l) (m : ℤ) : ∃ n : ℤ, (m * 2 ^ l : ℚ) = n * 2 ^ k := by
  refine ⟨m * 2 ^ (l - k).toNat, ?_⟩
  push_cast
  rw [mul_assoc, ← zpow_natCast, ← zpow_add₀ (by norm_num), Int.toNat_of_nonneg (by omega),
    sub_add_cancel]

/-- A number of the format is a multiple of its last place. -/
theorem Mem.eq_mul (h : F.Mem v) : ∃ n : ℤ, v = n * 2 ^ F.lastPlace v := by
  obtain ⟨m, e, rfl, hm, he, -⟩ := h
  by_cases hzero : m = 0
  · exact ⟨0, by simp [hzero]⟩
  refine exists_eq_mul (max_le ?_ he) m
  have hpos : (0 : ℚ) < |(m * 2 ^ e : ℚ)| :=
    abs_pos.2 (mul_ne_zero (Int.cast_ne_zero.2 hzero) (two_zpow_pos e).ne')
  have hlt : |(m * 2 ^ e : ℚ)| < 2 ^ (F.prec + e) := by
    rw [abs_mul, abs_of_pos (two_zpow_pos e), zpow_add₀ (by norm_num)]
    refine mul_lt_mul_of_pos_right ?_ (two_zpow_pos e)
    rw [← Int.cast_abs, zpow_natCast]
    exact_mod_cast hm
  have hlog := (Int.lt_zpow_iff_log_lt (b := 2) (by norm_num) hpos).1 (by exact_mod_cast hlt)
  omega

/-- The integers with as many bits as the format has, if they are in its range. -/
theorem mem_intCast {n : ℤ} (h : |n| < 2 ^ F.prec) (hmin : F.emin ≤ 0)
    (hmax : (F.prec : ℤ) ≤ F.emax) : F.Mem n := by
  refine ⟨n, 0, by rw [zpow_zero, mul_one], h, hmin, ?_⟩
  refine lt_of_lt_of_le ?_ (zpow_le_zpow_right₀ (by norm_num) hmax)
  rw [zpow_natCast, ← Int.cast_abs]
  exact_mod_cast h

/-- The numbers of the format are not too small. -/
theorem Mem.two_zpow_emin_le (h : F.Mem v) (hv : v ≠ 0) : 2 ^ F.emin ≤ |v| := by
  obtain ⟨m, e, rfl, -, he, -⟩ := h
  have hone : (1 : ℚ) ≤ |(m : ℚ)| := by
    rw [← Int.cast_abs]
    exact_mod_cast Int.one_le_abs fun hzero => hv (by rw [hzero, Int.cast_zero, zero_mul])
  calc (2 : ℚ) ^ F.emin ≤ 2 ^ e := zpow_le_zpow_right₀ (by norm_num) he
    _ ≤ |(m : ℚ)| * 2 ^ e := le_mul_of_one_le_left (two_zpow_pos e).le hone
    _ = |(m * 2 ^ e : ℚ)| := by rw [abs_mul, abs_of_pos (two_zpow_pos e)]

/-- The multiple of the last place that is nearer than all other ones. -/
theorem round_eq_mul {n : ℤ} (h : |v - n * 2 ^ F.lastPlace v| < 2 ^ F.lastPlace v / 2) :
    F.round v = n * 2 ^ F.lastPlace v := by
  have hpos := two_zpow_pos (F.lastPlace v)
  rw [round, roundEven_eq]
  have hsub : v / 2 ^ F.lastPlace v - n = (v - n * 2 ^ F.lastPlace v) / 2 ^ F.lastPlace v := by
    field_simp
  rw [hsub, abs_div, abs_of_pos hpos, div_lt_iff₀ hpos]
  linarith

/-- **The numbers of the format** are not changed. -/
theorem round_eq_self (h : F.Mem v) : F.round v = v := by
  obtain ⟨n, hn⟩ := h.eq_mul
  have hround := F.round_eq_mul (v := v) (n := n) (by
    rw [← hn, sub_self, abs_zero]
    exact half_pos (two_zpow_pos _))
  rw [hround, ← hn]

/-- The next power of two is off from a number of the format by its last place. -/
theorem Mem.add_lastPlace_le (h : F.Mem d) (hd : d ≠ 0) :
    |d| + 2 ^ F.lastPlace d ≤ 2 ^ (Int.log 2 |d| + 1) := by
  obtain ⟨m, hm⟩ := h.eq_mul
  have hpos := two_zpow_pos (F.lastPlace d)
  have habs : |d| = |m| * 2 ^ F.lastPlace d := by
    conv_lhs => rw [hm, abs_mul, abs_of_pos hpos, ← Int.cast_abs]
  have hone : 1 ≤ |m| := by
    refine Int.one_le_abs fun hzero => hd ?_
    rw [hm, hzero, Int.cast_zero, zero_mul]
  have hle : F.lastPlace d ≤ Int.log 2 |d| + 1 := by
    refine (zpow_lt_zpow_iff_right₀ (a := (2 : ℚ)) (by norm_num)).1 ?_ |>.le
    refine lt_of_le_of_lt ?_ (lt_two_zpow d)
    rw [habs]
    exact le_mul_of_one_le_left hpos.le (by exact_mod_cast hone)
  obtain ⟨n, hn⟩ := exists_eq_mul hle 1
  rw [Int.cast_one, one_mul] at hn
  have hlt := lt_two_zpow d
  rw [hn, habs, mul_lt_mul_iff_of_pos_right hpos, Int.cast_lt] at hlt
  rw [hn, habs, ← add_one_mul]
  exact mul_le_mul_of_nonneg_right (by exact_mod_cast hlt) hpos.le

/-- A number that is close to one of the format has its last place, or one below. -/
theorem Mem.eq_mul_of_close (h : F.Mem d) (hclose : 2 ^ (F.prec + 1) * |v - d| ≤ |v|) :
    ∃ n : ℤ, d = n * 2 ^ F.lastPlace v := by
  obtain ⟨m, hm⟩ := h.eq_mul
  by_cases hle : F.lastPlace v ≤ F.lastPlace d
  · rw [hm]
    exact exists_eq_mul hle m
  by_cases hzero : m = 0
  · rw [hzero, Int.cast_zero, zero_mul] at hm
    exact ⟨0, by rw [hm, Int.cast_zero, zero_mul]⟩
  exfalso
  have hlog : Int.log 2 |d| < Int.log 2 |v| := by
    by_contra hnot
    exact hle (max_le_max (by omega) le_rfl)
  have hd : d ≠ 0 := by
    rw [hm]
    exact mul_ne_zero (Int.cast_ne_zero.2 hzero) (two_zpow_pos _).ne'
  have hv : v ≠ 0 := by
    rintro rfl
    rw [zero_sub, abs_neg, abs_zero] at hclose
    exact hclose.not_gt (mul_pos (by positivity) (abs_pos.2 hd))
  -- there is a power of two between the numbers, from which `d` is off by its last place
  have hpow : (2 : ℚ) ^ (Int.log 2 |d| + 1) ≤ |v| :=
    (zpow_le_zpow_right₀ (by norm_num) (by omega)).trans (two_zpow_le hv)
  have hgap := h.add_lastPlace_le hd
  have hlast : (2 : ℚ) * 2 ^ (Int.log 2 |d| + 1) ≤ 2 ^ (F.prec + 1) * 2 ^ F.lastPlace d := by
    have hmax := le_max_left (Int.log 2 |d| + 1 - F.prec) F.emin
    rw [← zpow_natCast, ← zpow_add₀ (by norm_num), ← zpow_one_add₀ (by norm_num)]
    refine zpow_le_zpow_right₀ (by norm_num) ?_
    rw [lastPlace]
    push_cast
    omega
  have hdist : |v| - |d| ≤ |v - d| := abs_sub_abs_le_abs_sub v d
  have hone : (1 : ℚ) ≤ 2 ^ (F.prec + 1) := one_le_pow₀ (by norm_num)
  nlinarith [two_zpow_pos (Int.log 2 |d| + 1)]

/-- **The numbers close to one of the format** are rounded to it. -/
theorem round_eq_of_close (h : F.Mem d) (hclose : 2 ^ (F.prec + 1) * |v - d| ≤ |v|) :
    F.round v = d := by
  obtain ⟨n, hn⟩ := h.eq_mul_of_close hclose
  have hround := F.round_eq_mul (v := v) (n := n) (by
    rw [← hn]
    have hlt := F.lt_lastPlace (v := v)
    rw [zpow_add₀ (by norm_num), zpow_natCast] at hlt
    rw [lt_div_iff₀ (by norm_num)]
    refine lt_of_mul_lt_mul_left (a := 2 ^ F.prec) ?_ (by positivity)
    calc (2 : ℚ) ^ F.prec * (|v - d| * 2) = 2 ^ (F.prec + 1) * |v - d| := by ring
      _ ≤ |v| := hclose
      _ < 2 ^ F.prec * 2 ^ F.lastPlace v := by rwa [mul_comm] at hlt)
  rw [hround, ← hn]

/-- **What a number is rounded to** has the format, unless it is too large. -/
theorem mem_round (hprec : 0 < F.prec) (hlt : |F.round v| < 2 ^ F.emax) : F.Mem (F.round v) := by
  have hpos := two_zpow_pos (F.lastPlace v)
  have hbound : |roundEven (v / 2 ^ F.lastPlace v)| ≤ 2 ^ F.prec := by
    have hquot : |v / 2 ^ F.lastPlace v| ≤ 2 ^ F.prec := by
      rw [abs_div, abs_of_pos hpos, div_le_iff₀ hpos, ← zpow_natCast, ← zpow_add₀ (by norm_num),
        add_comm]
      exact F.lt_lastPlace v |>.le
    rw [abs_le] at hquot ⊢
    exact ⟨le_roundEven (by exact_mod_cast hquot.1), roundEven_le (by exact_mod_cast hquot.2)⟩
  have hemin : F.emin ≤ F.lastPlace v := le_max_right _ _
  obtain heq | hlt' := hbound.eq_or_lt
  · -- a carry: one more place, and one bit less
    obtain ⟨p, hp⟩ : ∃ p, F.prec = p + 1 := ⟨F.prec - 1, by omega⟩
    rw [hp, pow_succ] at heq
    obtain ⟨m, hm, hval⟩ : ∃ m : ℤ, |m| = 2 ^ p ∧ roundEven (v / 2 ^ F.lastPlace v) = m * 2 := by
      obtain hpos | hneg := abs_choice (roundEven (v / 2 ^ F.lastPlace v))
      · exact ⟨2 ^ p, abs_of_pos (by positivity), by omega⟩
      · exact ⟨-2 ^ p, by rw [abs_neg, abs_of_pos (by positivity)], by omega⟩
    refine ⟨m, F.lastPlace v + 1, ?_, ?_, by omega, hlt⟩
    · rw [round, hval, Int.cast_mul, zpow_add_one₀ (by norm_num)]
      push_cast
      ring
    · rw [hm, hp]
      exact pow_lt_pow_right₀ (by norm_num) (by omega)
  · exact ⟨_, _, rfl, hlt', hemin, hlt⟩

end FloatFormat
