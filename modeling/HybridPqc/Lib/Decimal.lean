import HybridPqc.Lib.FloatFormat
import Mathlib.Data.List.DropRight
import Mathlib.Data.Nat.Digits.Lemmas

/-!
# Decimal numerals

Numbers as texts, and what `strtod` reads back, before the value is rounded to a double.

A *numeral* has a sign, digits before and after the point, and an exponent. Any text for one, such
as what is written for it (`Numeral.text`), can be read, up to its end (`Numeral.read_eq`).

* `ofInt` is `%d`;
* `numeral` is `%.pg`, whose value has `p` significant digits (`value_numeral`), and is as close
  as these allow (`abs_sub_signif_le`).
-/

namespace Decimal

/-! ## Digits -/

/-- The character of a digit. -/
def digit (n : ℕ) : UInt8 := UInt8.ofNat (48 + n)

/-- The characters of digits. -/
def isDigit (c : UInt8) : Bool := decide (48 ≤ c ∧ c ≤ 57)

/-- The digit of a character. -/
def ofDigit (c : UInt8) : ℕ := c.toNat - 48

/-- The value of some digits. -/
def value (ds : List UInt8) : ℕ := Nat.ofDigits 10 (ds.reverse.map ofDigit)

/-- The last `p` digits of a number. -/
def digits : ℕ → ℕ → List UInt8
  | 0, _ => []
  | p + 1, m => digits p (m / 10) ++ [digit (m % 10)]

/-- The digits of a number. -/
def natText (n : ℕ) : List UInt8 :=
  if n = 0 then [48] else ((Nat.digits 10 n).map digit).reverse

theorem ofDigit_digit : ∀ n < 10, ofDigit (digit n) = n := by decide

theorem isDigit_digit : ∀ n < 10, isDigit (digit n) := by decide

@[simp] theorem value_nil : value [] = 0 := rfl

theorem value_append (ds es : List UInt8) :
    value (ds ++ es) = value ds * 10 ^ es.length + value es := by
  rw [value, List.reverse_append, List.map_append, Nat.ofDigits_append, List.length_map,
    List.length_reverse, value, value]
  ring

theorem value_digit {n : ℕ} (h : n < 10) : value [digit n] = n := by
  simp [value, ofDigit_digit n h]

@[simp] theorem value_zeros (n : ℕ) : value (List.replicate n 48) = 0 := by
  induction n with
  | zero => rfl
  | succ n ih =>
    rw [List.replicate_succ', value_append, ih]
    rfl

@[simp] theorem length_digits (p m : ℕ) : (digits p m).length = p := by
  induction p generalizing m with
  | zero => rfl
  | succ p ih => simp [digits, ih]

theorem value_digits {p m : ℕ} (h : m < 10 ^ p) : value (digits p m) = m := by
  induction p generalizing m with
  | zero => simp_all [digits]
  | succ p ih =>
    rw [digits, value_append, ih (Nat.div_lt_of_lt_mul (by rwa [pow_succ'] at h)),
      value_digit (Nat.mod_lt _ (by norm_num))]
    exact Nat.div_add_mod' m 10

theorem isDigit_of_mem_digits {p m : ℕ} : ∀ c ∈ digits p m, isDigit c := by
  induction p generalizing m with
  | zero => simp [digits]
  | succ p ih =>
    intro c hc
    obtain hc | hc := List.mem_append.1 hc
    · exact ih c hc
    · rw [List.mem_singleton.1 hc]
      exact isDigit_digit _ (Nat.mod_lt _ (by norm_num))

theorem value_natText (n : ℕ) : value (natText n) = n := by
  rw [natText]
  split_ifs with hzero
  · rw [hzero]
    rfl
  · rw [value, List.reverse_reverse, List.map_map]
    have hmap : (Nat.digits 10 n).map (ofDigit ∘ digit) = Nat.digits 10 n := by
      conv_rhs => rw [← List.map_id (Nat.digits 10 n)]
      exact List.map_congr_left fun d hd => ofDigit_digit d (Nat.digits_lt_base (by norm_num) hd)
    rw [hmap, Nat.ofDigits_digits]

theorem isDigit_of_mem_natText {n : ℕ} : ∀ c ∈ natText n, isDigit c := by
  rw [natText]
  split_ifs
  · simp [isDigit]
  · intro c hc
    obtain ⟨d, hd, rfl⟩ := List.mem_map.1 (List.mem_reverse.1 hc)
    exact isDigit_digit d (Nat.digits_lt_base (by norm_num) hd)

theorem natText_ne_nil (n : ℕ) : natText n ≠ [] := by
  rw [natText]
  split_ifs with hzero <;> simp [Nat.digits_ne_nil_iff_ne_zero, hzero]

theorem length_natText_le {n p : ℕ} (hp : 0 < p) (h : n < 10 ^ p) : (natText n).length ≤ p := by
  rw [natText]
  split_ifs with hzero
  · exact hp
  · rw [List.length_reverse, List.length_map, Nat.length_digits 10 n (by norm_num) hzero]
    exact Nat.log_lt_of_lt_pow hzero h

/-- Digits, and something else, or the end. -/
theorem takeWhile_isDigit {ds s : List UInt8} (h : ∀ c ∈ ds, isDigit c)
    (hs : ∀ c ∈ s.head?, ¬isDigit c) :
    (ds ++ s).takeWhile isDigit = ds ∧ (ds ++ s).dropWhile isDigit = s := by
  have hnil : s.takeWhile isDigit = [] ∧ s.dropWhile isDigit = s := by
    cases s with
    | nil => exact ⟨rfl, rfl⟩
    | cons c s =>
      have hc := hs c rfl
      simp [hc]
  rw [List.takeWhile_append_of_pos h, List.dropWhile_append_of_pos h, hnil.1, hnil.2,
    List.append_nil]
  exact ⟨rfl, rfl⟩

/-! ## Numerals -/

/-- A numeral. -/
structure Numeral where
  neg : Bool
  int : List UInt8
  frac : List UInt8
  exp : Option ℤ

/-- The factor for a sign. -/
def sign (neg : Bool) : ℚ := if neg then -1 else 1

/-- The digits after the point, if any. -/
def fracText (frac : List UInt8) : List UInt8 := if frac = [] then [] else 46 :: frac

/-- The exponent, if any, with a sign and at least two digits. -/
def expText : Option ℤ → List UInt8
  | none => []
  | some e =>
    101 :: (if e < 0 then 45 else 43) ::
      if e.natAbs < 10 then 48 :: natText e.natAbs else natText e.natAbs

/-- The texts that can be read as an exponent. -/
inductive IsExp : Option ℤ → List UInt8 → Prop
  | none : IsExp none []
  | plain {c : UInt8} {ds : List UInt8} (hc : c = 101 ∨ c = 69) (hne : ds ≠ [])
      (hds : ∀ d ∈ ds, isDigit d) : IsExp (some (value ds)) (c :: ds)
  | plus {c : UInt8} {ds : List UInt8} (hc : c = 101 ∨ c = 69) (hne : ds ≠ [])
      (hds : ∀ d ∈ ds, isDigit d) : IsExp (some (value ds)) (c :: 43 :: ds)
  | minus {c : UInt8} {ds : List UInt8} (hc : c = 101 ∨ c = 69) (hne : ds ≠ [])
      (hds : ∀ d ∈ ds, isDigit d) : IsExp (some (-value ds)) (c :: 45 :: ds)

namespace Numeral

variable (x : Numeral)

/-- The text of a numeral, with one for its exponent. -/
def textWith (expText : List UInt8) : List UInt8 :=
  (if x.neg then [45] else []) ++ (x.int ++ (fracText x.frac ++ expText))

/-- What is written for a numeral. -/
def text : List UInt8 := x.textWith (expText x.exp)

/-- The texts that can be read as a numeral. -/
def IsText (t : List UInt8) : Prop := ∃ expText, IsExp x.exp expText ∧ t = x.textWith expText

/-- Its value. -/
def value : ℚ :=
  sign x.neg * Decimal.value (x.int ++ x.frac) * 10 ^ (x.exp.getD 0 - x.frac.length : ℤ)

/-- The digits are digits, of which there is one before the point. -/
structure WellFormed : Prop where
  int_ne_nil : x.int ≠ []
  isDigit_int : ∀ c ∈ x.int, isDigit c
  isDigit_frac : ∀ c ∈ x.frac, isDigit c

end Numeral

/-! ## Reading -/

/-- An optional sign. -/
def takeSign : List UInt8 → Bool × List UInt8
  | 43 :: s => (false, s)
  | 45 :: s => (true, s)
  | s => (false, s)

/-- An optional point, and the digits after it. -/
def takeFrac : List UInt8 → List UInt8 × List UInt8
  | 46 :: s => (s.takeWhile isDigit, s.dropWhile isDigit)
  | s => ([], s)

/-- An optional exponent. -/
def takeExp : List UInt8 → ℤ × List UInt8
  | [] => (0, [])
  | c :: s =>
    if c = 101 ∨ c = 69 then
      let (neg, t) := takeSign s
      let ds := t.takeWhile isDigit
      if ds = [] then (0, c :: s)
      else (if neg then -value ds else value ds, t.dropWhile isDigit)
    else (0, c :: s)

/-- The numeral that a text starts with, and how long it is. -/
def read (s : List UInt8) : Option (ℚ × ℕ) :=
  let (neg, t) := takeSign s
  let int := t.takeWhile isDigit
  let (frac, t) := takeFrac (t.dropWhile isDigit)
  let (e, t) := takeExp t
  if int ++ frac = [] then none
  else
    some (Numeral.value ⟨neg, int, frac, some e⟩, s.length - t.length)

/-! ## Reading back -/

theorem takeSign_digits {c : UInt8} {s : List UInt8} (h : isDigit c) :
    takeSign (c :: s) = (false, c :: s) := by
  have hsign : c ≠ 43 ∧ c ≠ 45 := by
    constructor <;>
      · rintro rfl
        exact absurd h (by decide)
  simp [takeSign, hsign]

/-- What is written for an exponent. -/
theorem isExp_expText (e : Option ℤ) : IsExp e (expText e) := by
  cases e with
  | none => exact .none
  | some e =>
    have hvalue : ∀ ds : List UInt8, value (48 :: ds) = value ds := fun ds => by
      rw [← List.singleton_append, value_append]
      simp [value, ofDigit]
    rw [expText]
    generalize hds : (if e.natAbs < 10 then 48 :: natText e.natAbs else natText e.natAbs) = ds
    have hval : value ds = e.natAbs := by
      rw [← hds]
      split_ifs
      · rw [hvalue, value_natText]
      · exact value_natText _
    have hne : ds ≠ [] := by
      rw [← hds]
      split_ifs
      · simp
      · exact natText_ne_nil _
    have hdigit : ∀ c ∈ ds, isDigit c := by
      rw [← hds]
      split_ifs
      · exact List.forall_mem_cons.2 ⟨by decide, isDigit_of_mem_natText⟩
      · exact isDigit_of_mem_natText
    by_cases hneg : e < 0
    · have he : e = -value ds := by omega
      rw [if_pos hneg, he]
      exact .minus (.inl rfl) hne hdigit
    · have he : e = value ds := by omega
      rw [if_neg hneg, he]
      exact .plus (.inl rfl) hne hdigit

theorem Numeral.isText_text (x : Numeral) : x.IsText x.text := ⟨_, isExp_expText x.exp, rfl⟩

/-- The digits of an exponent are read to the end of the text. -/
theorem takeWhile_isDigit_end {ds : List UInt8} (h : ∀ c ∈ ds, isDigit c) :
    ds.takeWhile isDigit = ds ∧ ds.dropWhile isDigit = [] := by
  have hends := takeWhile_isDigit (s := []) h (by simp)
  rwa [List.append_nil] at hends

/-- **An exponent** is read to the end of the text. -/
theorem takeExp_eq {e : Option ℤ} {t : List UInt8} (h : IsExp e t) :
    takeExp t = (e.getD 0, []) := by
  cases h with
  | none => rfl
  | @plain c ds hc hne hds =>
    obtain ⟨htake, hdrop⟩ := takeWhile_isDigit_end hds
    obtain ⟨d, ds, rfl⟩ := List.exists_cons_of_ne_nil hne
    rw [List.forall_mem_cons] at hds
    simp only [takeExp, hc, takeSign_digits hds.1, htake, hdrop, hne, if_true, if_false,
      Bool.false_eq_true, Option.getD_some]
  | plus hc hne hds =>
    obtain ⟨htake, hdrop⟩ := takeWhile_isDigit_end hds
    simp only [takeExp, hc, takeSign, htake, hdrop, hne, if_true, if_false, Bool.false_eq_true,
      Option.getD_some]
  | minus hc hne hds =>
    obtain ⟨htake, hdrop⟩ := takeWhile_isDigit_end hds
    simp only [takeExp, hc, takeSign, htake, hdrop, hne, if_true, if_false, Option.getD_some]

/-- Digits end where the exponent starts, -/
theorem not_isDigit_head_exp {e : Option ℤ} {t : List UInt8} (h : IsExp e t) :
    ∀ c ∈ t.head?, ¬isDigit c := by
  cases h with
  | none => simp
  | plain hc => obtain rfl | rfl := hc <;> simp [isDigit]
  | plus hc => obtain rfl | rfl := hc <;> simp [isDigit]
  | minus hc => obtain rfl | rfl := hc <;> simp [isDigit]

/-- or at the point. -/
theorem not_isDigit_head_fracText (frac : List UInt8) {e : Option ℤ} {t : List UInt8}
    (h : IsExp e t) : ∀ c ∈ (fracText frac ++ t).head?, ¬isDigit c := by
  rw [fracText]
  split_ifs
  · exact not_isDigit_head_exp h
  · simp [isDigit]

theorem takeFrac_fracText {frac : List UInt8} (hfrac : ∀ c ∈ frac, isDigit c) {e : Option ℤ}
    {t : List UInt8} (h : IsExp e t) : takeFrac (fracText frac ++ t) = (frac, t) := by
  rw [fracText]
  split_ifs with hnil
  · rw [hnil, List.nil_append]
    cases h with
    | none => rfl
    | plain hc => obtain rfl | rfl := hc <;> rfl
    | plus hc => obtain rfl | rfl := hc <;> rfl
    | minus hc => obtain rfl | rfl := hc <;> rfl
  · obtain ⟨htake, hdrop⟩ := takeWhile_isDigit hfrac (not_isDigit_head_exp h)
    rw [List.cons_append, takeFrac, htake, hdrop]

/-- The sign of a text for a numeral. -/
theorem Numeral.takeSign_textWith {x : Numeral} (h : x.WellFormed) (s : List UInt8) :
    takeSign (x.textWith s) = (x.neg, x.int ++ (fracText x.frac ++ s)) := by
  obtain ⟨c, int, hint⟩ := List.exists_cons_of_ne_nil h.int_ne_nil
  rw [textWith, hint]
  cases x.neg with
  | true => rfl
  | false => exact takeSign_digits (h.isDigit_int c (by rw [hint]; exact List.mem_cons_self))

/-- **A text for a numeral** is read to its end. -/
theorem Numeral.read_eq {x : Numeral} {t : List UInt8} (h : x.WellFormed) (ht : x.IsText t) :
    read t = some (x.value, t.length) := by
  obtain ⟨s, hs, rfl⟩ := ht
  have hsign := takeSign_textWith h s
  obtain ⟨htake, hdrop⟩ := takeWhile_isDigit h.isDigit_int (not_isDigit_head_fracText x.frac hs)
  have hne : x.int ++ x.frac ≠ [] := by simp [h.int_ne_nil]
  simp only [read, hsign, htake, hdrop, takeFrac_fracText h.isDigit_frac hs, takeExp_eq hs, hne,
    if_false, List.length_nil, Nat.sub_zero]
  rfl

theorem length_takeSign_le (s : List UInt8) : (takeSign s).2.length ≤ s.length := by
  fun_cases takeSign s <;> simp

theorem length_takeDigits (s : List UInt8) :
    (s.takeWhile isDigit).length + (s.dropWhile isDigit).length = s.length := by
  rw [← List.length_append, List.takeWhile_append_dropWhile]

theorem length_takeFrac_le (s : List UInt8) :
    (takeFrac s).1.length + (takeFrac s).2.length ≤ s.length := by
  fun_cases takeFrac s with
  | case1 s =>
    have := length_takeDigits s
    simp only [List.length_cons]
    omega
  | case2 s => simp

theorem length_takeExp_le (s : List UInt8) : (takeExp s).2.length ≤ s.length := by
  fun_cases takeExp s with
  | case1 => rfl
  | case2 => rfl
  | case3 c s hc neg t hsign ds hne =>
    have hle := length_takeSign_le s
    have := length_takeDigits t
    rw [hsign] at hle
    simp only [List.length_cons] at hle ⊢
    omega
  | case4 => rfl

/-- A numeral that is read has characters, all of them in the text. -/
theorem read_bounds {s : List UInt8} {v : ℚ} {n : ℕ} (h : read s = some (v, n)) :
    0 < n ∧ n ≤ s.length := by
  have hsign := length_takeSign_le s
  have hint := length_takeDigits (takeSign s).2
  have hfrac := length_takeFrac_le ((takeSign s).2.dropWhile isDigit)
  have hexp := length_takeExp_le (takeFrac ((takeSign s).2.dropWhile isDigit)).2
  simp only [read] at h
  split_ifs at h with hnil
  have hpos := List.length_pos_iff.2 hnil
  rw [List.length_append] at hpos
  have hn := (Prod.mk.inj (Option.some.inj h)).2
  omega

/-! ## Writing -/

/-- `%d`. -/
def ofInt (n : ℤ) : Numeral := ⟨decide (n < 0), natText n.natAbs, [], none⟩

/-- The digits without the zeros in the end. -/
def stripZeros (ds : List UInt8) : List UInt8 := ds.rdropWhile (· = 48)

/-- Some digits, the first of which has the exponent `e`: with an exponent if it is less than
    `-4`, or there are digits missing before the point. -/
def layout (neg : Bool) (ds : List UInt8) (e : ℤ) : Numeral :=
  if e < -4 ∨ ds.length ≤ e then
    ⟨neg, ds.take 1, stripZeros (ds.drop 1), some e⟩
  else if 0 ≤ e then
    ⟨neg, ds.take (e + 1).toNat, stripZeros (ds.drop (e + 1).toNat), none⟩
  else
    ⟨neg, [48], stripZeros (List.replicate (-e - 1).toNat 48 ++ ds), none⟩

/-- The exponent of the first digit of a number, before it is rounded. -/
def firstPlace (v : ℚ) : ℤ := Int.log 10 |v|

/-- Its `p` significant digits: there is one more if there is a carry. -/
def significand (p : ℕ) (v : ℚ) : ℕ := (roundEven (|v| / 10 ^ (firstPlace v - p + 1))).toNat

/-- `%.pg`. -/
def numeral (p : ℕ) (v : ℚ) : Numeral :=
  if significand p v = 10 ^ p then
    layout (decide (v < 0)) (digits p (10 ^ (p - 1))) (firstPlace v + 1)
  else
    layout (decide (v < 0)) (digits p (significand p v)) (firstPlace v)

/-- The number that is written. -/
def signif (p : ℕ) (v : ℚ) : ℚ :=
  sign (decide (v < 0)) * significand p v * 10 ^ (firstPlace v - p + 1)

theorem exists_eq_stripZeros_append (ds : List UInt8) :
    ∃ n, ds = stripZeros ds ++ List.replicate n 48 := by
  refine ⟨(ds.rtakeWhile (· = 48)).length, ?_⟩
  have hzeros : ds.rtakeWhile (· = 48) = List.replicate (ds.rtakeWhile (· = 48)).length 48 :=
    List.eq_replicate_of_mem fun c hc => by simpa using List.mem_rtakeWhile_imp hc
  rw [← hzeros, stripZeros, List.rdropWhile_append_rtakeWhile]

theorem length_stripZeros_le (ds : List UInt8) : (stripZeros ds).length ≤ ds.length := by
  obtain ⟨n, hn⟩ := exists_eq_stripZeros_append ds
  have := congrArg List.length hn
  rw [List.length_append] at this
  omega

theorem mem_of_mem_stripZeros {ds : List UInt8} {c : UInt8} (h : c ∈ stripZeros ds) : c ∈ ds := by
  obtain ⟨n, hn⟩ := exists_eq_stripZeros_append ds
  rw [hn]
  exact List.mem_append_left _ h

/-- The zeros in the end do not change the value. -/
theorem value_stripZeros (neg : Bool) (int frac : List UInt8) (e : Option ℤ) :
    Numeral.value ⟨neg, int, stripZeros frac, e⟩ =
      sign neg * value (int ++ frac) * 10 ^ (e.getD 0 - frac.length : ℤ) := by
  obtain ⟨n, hn⟩ := exists_eq_stripZeros_append frac
  rw [Numeral.value]
  conv_rhs => rw [hn]
  simp only [← List.append_assoc, value_append, value_zeros, List.length_append,
    List.length_replicate, add_zero]
  push_cast
  rw [mul_assoc, mul_assoc, mul_assoc, ← zpow_natCast (10 : ℚ) n, ← zpow_add₀ (by norm_num)]
  congr 3
  ring

/-- The value of a layout. -/
theorem value_layout (neg : Bool) {ds : List UInt8} (hne : ds ≠ []) (e : ℤ) :
    (layout neg ds e).value = sign neg * value ds * 10 ^ (e - ds.length + 1) := by
  have hpos := List.length_pos_iff.2 hne
  by_cases hexp : e < -4 ∨ ds.length ≤ e
  · rw [layout, if_pos hexp, value_stripZeros, List.take_append_drop, List.length_drop,
      Option.getD_some]
    congr 2
    omega
  by_cases hint : 0 ≤ e
  · rw [layout, if_neg hexp, if_pos hint, value_stripZeros, List.take_append_drop,
      List.length_drop, Option.getD_none]
    congr 2
    omega
  · rw [layout, if_neg hexp, if_neg hint, value_stripZeros, ← List.append_assoc,
      ← List.replicate_one, ← List.replicate_add, value_append, value_zeros, zero_mul, zero_add,
      List.length_append, List.length_replicate, Option.getD_none]
    congr 2
    omega

theorem wellFormed_layout (neg : Bool) {ds : List UInt8} (hne : ds ≠ [])
    (h : ∀ c ∈ ds, isDigit c) (e : ℤ) : (layout neg ds e).WellFormed := by
  rw [layout]
  split_ifs with hexp hint
  · exact ⟨by simpa using hne, fun c hc => h c (List.mem_of_mem_take hc),
      fun c hc => h c (List.mem_of_mem_drop (mem_of_mem_stripZeros hc))⟩
  · refine ⟨?_, fun c hc => h c (List.mem_of_mem_take hc),
      fun c hc => h c (List.mem_of_mem_drop (mem_of_mem_stripZeros hc))⟩
    rw [Ne, List.take_eq_nil_iff, not_or]
    exact ⟨by omega, hne⟩
  · refine ⟨by simp, by simp [isDigit], fun c hc => ?_⟩
    obtain hc | hc := List.mem_append.1 (mem_of_mem_stripZeros hc)
    · rw [List.eq_of_mem_replicate hc]
      rfl
    · exact h c hc

/-! ### Integers -/

theorem wellFormed_ofInt (n : ℤ) : (ofInt n).WellFormed :=
  ⟨natText_ne_nil _, isDigit_of_mem_natText, by simp [ofInt]⟩

theorem value_ofInt (n : ℤ) : (ofInt n).value = n := by
  rw [Numeral.value, ofInt, List.append_nil, value_natText]
  simp only [Option.getD_none, List.length_nil, Nat.cast_zero, sub_zero, zpow_zero, mul_one]
  rw [← Int.cast_natCast, sign]
  by_cases hneg : n < 0
  · rw [decide_eq_true hneg, if_pos rfl, Int.ofNat_natAbs_of_nonpos hneg.le]
    push_cast
    ring
  · rw [decide_eq_false hneg, if_neg (by decide), Int.natAbs_of_nonneg (by omega), one_mul]

/-! ### Significant digits -/

section

variable {p : ℕ} {v : ℚ}

theorem ten_zpow_pos (e : ℤ) : (0 : ℚ) < 10 ^ e := zpow_pos (by norm_num) e

theorem ten_zpow_firstPlace_le (h : v ≠ 0) : 10 ^ firstPlace v ≤ |v| :=
  Int.zpow_log_le_self (by norm_num) (abs_pos.2 h)

theorem le_firstPlace {n : ℤ} (hv : v ≠ 0) (h : 10 ^ n ≤ |v|) : n ≤ firstPlace v :=
  (Int.zpow_le_iff_le_log (b := 10) (by norm_num) (abs_pos.2 hv)).1 (by exact_mod_cast h)

theorem firstPlace_lt {n : ℤ} (hv : v ≠ 0) (h : |v| < 10 ^ n) : firstPlace v < n :=
  (Int.lt_zpow_iff_log_lt (b := 10) (by norm_num) (abs_pos.2 hv)).1 (by exact_mod_cast h)

/-- The digits, before they are rounded to an integer. -/
theorem cast_significand (p : ℕ) (v : ℚ) :
    (significand p v : ℤ) = roundEven (|v| / 10 ^ (firstPlace v - p + 1)) :=
  Int.toNat_of_nonneg
    (le_roundEven (by exact_mod_cast div_nonneg (abs_nonneg v) (ten_zpow_pos _).le))

theorem significand_le (p : ℕ) (v : ℚ) : significand p v ≤ 10 ^ p := by
  have hle : |v| / 10 ^ (firstPlace v - p + 1) ≤ ((10 ^ p : ℤ) : ℚ) := by
    rw [div_le_iff₀ (ten_zpow_pos _)]
    push_cast
    rw [← zpow_natCast, ← zpow_add₀ (by norm_num)]
    have hlt : |v| < 10 ^ (firstPlace v + 1) := Int.lt_zpow_succ_log_self (by norm_num) _
    convert hlt.le using 2
    ring
  have := roundEven_le hle
  rw [← cast_significand] at this
  exact_mod_cast this

/-- **The value that is written** has `p` significant digits, -/
theorem value_numeral (hp : 0 < p) (v : ℚ) : (numeral p v).value = signif p v := by
  have hne : ∀ m, digits p m ≠ [] := fun m => by
    rw [← List.length_pos_iff, length_digits]
    exact hp
  rw [numeral, signif]
  split_ifs with hcarry
  · rw [value_layout _ (hne _), length_digits, hcarry,
      value_digits (Nat.pow_lt_pow_right (by norm_num) (by omega))]
    push_cast
    rw [mul_assoc, mul_assoc, ← zpow_natCast (10 : ℚ) (p - 1), ← zpow_natCast (10 : ℚ) p,
      ← zpow_add₀ (by norm_num), ← zpow_add₀ (by norm_num)]
    congr 2
    omega
  · rw [value_layout _ (hne _), length_digits,
      value_digits (lt_of_le_of_ne (significand_le p v) hcarry)]

theorem wellFormed_numeral (hp : 0 < p) (v : ℚ) : (numeral p v).WellFormed := by
  have hne : ∀ m, digits p m ≠ [] := fun m => by
    rw [← List.length_pos_iff, length_digits]
    exact hp
  rw [numeral]
  split_ifs
  · exact wellFormed_layout _ (hne _) isDigit_of_mem_digits _
  · exact wellFormed_layout _ (hne _) isDigit_of_mem_digits _

/-- **and is as close** to the number as these allow. -/
theorem abs_sub_signif_le (hp : 0 < p) (hv : v ≠ 0) :
    2 * 10 ^ (p - 1) * |v - signif p v| ≤ |v| := by
  have hpos := ten_zpow_pos (firstPlace v - p + 1)
  have habs : |v - signif p v| = |(|v| - significand p v * 10 ^ (firstPlace v - p + 1))| := by
    rw [signif, sign]
    by_cases hneg : v < 0
    · rw [decide_eq_true hneg, if_pos rfl, abs_of_neg hneg, ← abs_neg]
      congr 1
      ring
    · rw [decide_eq_false hneg, if_neg (by decide), abs_of_nonneg (not_lt.1 hneg), one_mul]
  have hround := abs_sub_roundEven_le (|v| / 10 ^ (firstPlace v - p + 1))
  rw [← cast_significand, Int.cast_natCast, div_sub' hpos.ne', abs_div, abs_of_pos hpos,
    div_le_iff₀ hpos, mul_comm (10 ^ (firstPlace v - p + 1) : ℚ)] at hround
  calc 2 * 10 ^ (p - 1) * |v - signif p v|
      ≤ 2 * 10 ^ (p - 1) * (1 / 2 * 10 ^ (firstPlace v - p + 1)) := by
        rw [habs]
        exact mul_le_mul_of_nonneg_left hround (by positivity)
    _ = 10 ^ firstPlace v := by
        rw [← zpow_natCast, mul_mul_mul_comm, mul_one_div_cancel (by norm_num), one_mul,
          ← zpow_add₀ (by norm_num)]
        congr 1
        omega
    _ ≤ |v| := ten_zpow_firstPlace_le hv

end

/-! ### Lengths and characters -/

theorem length_expText_le {e : ℤ} (h : e.natAbs < 1000) : (expText (some e)).length ≤ 5 := by
  have hle : (natText e.natAbs).length ≤ 3 := length_natText_le (by norm_num) h
  have hone : e.natAbs < 10 → (natText e.natAbs).length ≤ 1 :=
    fun hlt => length_natText_le (by norm_num) hlt
  rw [expText, List.length_cons, List.length_cons]
  split_ifs with hlt
  · have := hone hlt
    rw [List.length_cons]
    omega
  · omega

theorem length_fracText_le (frac : List UInt8) : (fracText frac).length ≤ frac.length + 1 := by
  rw [fracText]
  split_ifs <;> simp

theorem length_text_le (neg : Bool) (int frac : List UInt8) (e : Option ℤ) :
    (Numeral.text ⟨neg, int, frac, e⟩).length ≤
      2 + int.length + frac.length + (expText e).length := by
  have := length_fracText_le frac
  rw [Numeral.text, Numeral.textWith]
  split_ifs <;> simp only [List.length_append, List.length_cons, List.length_nil] <;> omega

/-- No layout takes seven characters more than there are digits. -/
theorem length_layout_le (neg : Bool) {ds : List UInt8} (hne : ds ≠ []) {e : ℤ}
    (h : e.natAbs < 1000) : (layout neg ds e).text.length ≤ ds.length + 7 := by
  have hpos := List.length_pos_iff.2 hne
  rw [layout]
  split_ifs with hexp hint
  · refine (length_text_le ..).trans ?_
    have hfrac := length_stripZeros_le (ds.drop 1)
    have hexp := length_expText_le h
    rw [List.length_drop] at hfrac
    rw [List.length_take]
    omega
  · refine (length_text_le ..).trans ?_
    have hfrac := length_stripZeros_le (ds.drop (e + 1).toNat)
    rw [List.length_drop] at hfrac
    rw [List.length_take, expText, List.length_nil]
    omega
  · refine (length_text_le ..).trans ?_
    have hfrac := length_stripZeros_le (List.replicate (-e - 1).toNat 48 ++ ds)
    rw [List.length_append, List.length_replicate] at hfrac
    rw [List.length_singleton, expText, List.length_nil]
    omega

theorem length_numeral_le {p : ℕ} (hp : 0 < p) {v : ℚ} (h : (firstPlace v).natAbs < 999) :
    (numeral p v).text.length ≤ p + 7 := by
  have hlayout : ∀ m e, e.natAbs < 1000 →
      (layout (decide (v < 0)) (digits p m) e).text.length ≤ p + 7 := fun m e he => by
    have hne : digits p m ≠ [] := by
      rw [← List.length_pos_iff, length_digits]
      exact hp
    have := length_layout_le (decide (v < 0)) hne he
    rwa [length_digits] at this
  rw [numeral]
  split_ifs
  · exact hlayout _ _ (by omega)
  · exact hlayout _ _ (by omega)

theorem length_ofInt_le {n : ℤ} {p : ℕ} (hp : 0 < p) (h : n.natAbs < 10 ^ p) :
    (ofInt n).text.length ≤ p + 1 := by
  have hle := length_natText_le hp h
  rw [ofInt, Numeral.text, Numeral.textWith]
  split_ifs <;> simp [fracText, expText] <;> omega

/-- The characters of numerals. -/
def IsChar (c : UInt8) : Prop :=
  isDigit c ∨ c = 43 ∨ c = 45 ∨ c = 46 ∨ c = 69 ∨ c = 101

theorem isChar_of_exp {c : UInt8} (h : c = 101 ∨ c = 69) : IsChar c := by
  obtain rfl | rfl := h
  · exact .inr (.inr (.inr (.inr (.inr rfl))))
  · exact .inr (.inr (.inr (.inr (.inl rfl))))

theorem isChar_of_isExp {e : Option ℤ} {t : List UInt8} (h : IsExp e t) : ∀ c ∈ t, IsChar c := by
  cases h with
  | none => simp
  | plain hc hne hds =>
    rw [List.forall_mem_cons]
    exact ⟨isChar_of_exp hc, fun d hd => .inl (hds d hd)⟩
  | plus hc hne hds =>
    rw [List.forall_mem_cons, List.forall_mem_cons]
    exact ⟨isChar_of_exp hc, .inr (.inl rfl), fun d hd => .inl (hds d hd)⟩
  | minus hc hne hds =>
    rw [List.forall_mem_cons, List.forall_mem_cons]
    exact ⟨isChar_of_exp hc, .inr (.inr (.inl rfl)), fun d hd => .inl (hds d hd)⟩

theorem Numeral.isChar_of_isText {x : Numeral} {t : List UInt8} (h : x.WellFormed)
    (ht : x.IsText t) : ∀ c ∈ t, IsChar c := by
  obtain ⟨s, hs, rfl⟩ := ht
  intro c hc
  rw [textWith, List.mem_append, List.mem_append, List.mem_append] at hc
  obtain hc | hc | hc | hc := hc
  · split_ifs at hc
    · exact .inr (.inr (.inl (List.mem_singleton.1 hc)))
    · exact absurd hc List.not_mem_nil
  · exact .inl (h.isDigit_int c hc)
  · rw [fracText] at hc
    split_ifs at hc
    · exact absurd hc List.not_mem_nil
    · obtain rfl | hc := List.mem_cons.1 hc
      · exact .inr (.inr (.inr (.inl rfl)))
      · exact .inl (h.isDigit_frac c hc)
  · exact isChar_of_isExp hs c hc

/-- A numeral starts with a sign, or a digit. -/
theorem Numeral.exists_isText_eq {x : Numeral} {t : List UInt8} (h : x.WellFormed)
    (ht : x.IsText t) : ∃ c s, t = c :: s ∧ (c = 45 ∨ isDigit c) := by
  obtain ⟨expText, -, rfl⟩ := ht
  obtain ⟨c, int, hint⟩ := List.exists_cons_of_ne_nil h.int_ne_nil
  rw [textWith, hint]
  cases x.neg with
  | true => exact ⟨45, _, rfl, .inl rfl⟩
  | false => exact ⟨c, _, rfl, .inr (h.isDigit_int c (by rw [hint]; exact List.mem_cons_self))⟩

end Decimal
