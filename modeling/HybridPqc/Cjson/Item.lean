import HybridPqc.Json
import HybridPqc.Lib.Decimal
import HybridPqc.Lib.Memory
import Mathlib.Data.Nat.Cast.Order.Field

/-!
# Items of cJSON

The `cJSON` of `c/cjson/cJSON.c`, as a tree: what the library keeps for a JSON value. A number is
a double, hence may be infinite, a zero below zero, or no number at all. Unlike those of other
modules, the numbers are thus not any rational ones (`Item.ofJson`).

What `cJSON_Print` is to write for an item is `Item.text`. A number need not be read back
as it was: `reread` is what becomes of it, and `Item.reread` of an item.
-/

namespace HybridPqc.Cjson

/-! ## Doubles -/

/-- The format of a `double`. -/
def double : FloatFormat := ⟨53, -1074, 1024⟩

/-- A `double`. -/
inductive Double
  /-- A finite number, but for `-0.0`. -/
  | finite (v : ℚ)
  | negZero
  | infinite (neg : Bool)
  | nan
  deriving DecidableEq, Repr

namespace Double

/-- The finite ones have the format. -/
def IsDouble : Double → Prop
  | finite v => double.Mem v
  | _ => True

/-- A number with a sign, rounded: a zero keeps the sign. -/
def ofSigned (neg : Bool) (v : ℚ) : Double :=
  if |double.round v| < 2 ^ double.emax then
    if double.round v = 0 ∧ neg then negZero else finite (double.round v)
  else infinite (decide (v < 0))

/-- A number, rounded. -/
def ofRat (v : ℚ) : Double := ofSigned (decide (v < 0)) v

/-- What a numeral is rounded to. -/
def ofNumeral (x : Decimal.Numeral) : Double := ofSigned x.neg x.value

theorem ofSigned_eq_of_mem {neg : Bool} {v d : ℚ} (hd : double.Mem d) (h : double.round v = d)
    (hzero : d = 0 → neg = false) : ofSigned neg v = finite d := by
  obtain ⟨_, _, _, _, _, hlt⟩ := id hd
  rw [ofSigned, h, if_pos hlt, if_neg]
  rintro ⟨h0, hneg⟩
  rw [hzero h0] at hneg
  cases hneg

theorem isDouble_ofSigned (neg : Bool) (v : ℚ) : (ofSigned neg v).IsDouble := by
  rw [ofSigned]
  split_ifs with hlt hzero
  · trivial
  · exact double.mem_round (by decide) hlt
  · trivial

/-- The number that it is compared as, unless it is infinite or none. -/
def toRat : Double → Option ℚ
  | finite v => some v
  | negZero => some 0
  | _ => none

/-- `compare_double`, whose operations are rounded. The difference of an infinite number and a
    finite one is within an infinite bound; that of equal infinite numbers is no number, and
    what is no number is within no bound. -/
def compare : Double → Double → Bool
  | nan, _ | _, nan => false
  | infinite neg, infinite neg' => neg != neg'
  | infinite _, _ | _, infinite _ => true
  | a, b => decide (double.round |a.toRat.getD 0 - b.toRat.getD 0| ≤
      double.round (max |a.toRat.getD 0| |b.toRat.getD 0| * 2 ^ (-52 : ℤ)))

/-- The member `valueint`, which saturates. -/
def valueint (v : ℚ) : ℤ :=
  if 2147483647 ≤ v then 2147483647
  else if v ≤ -2147483648 then -2147483648
  else v.num.tdiv v.den

end Double

/-- `strtod`, on a text without white space that is not hexadecimal. -/
def strtod (s : List UInt8) : Option (Double × ℕ) :=
  (Decimal.read s).map fun r => (.ofSigned (Decimal.takeSign s).1 r.1, r.2)

theorem strtod_eq {x : Decimal.Numeral} {t : List UInt8} (h : x.WellFormed) (ht : x.IsText t) :
    strtod t = some (.ofNumeral x, t.length) := by
  rw [strtod, Decimal.Numeral.read_eq h ht]
  obtain ⟨s, -, rfl⟩ := ht
  rw [Decimal.Numeral.takeSign_textWith h]
  rfl

theorem strtod_text {x : Decimal.Numeral} (h : x.WellFormed) :
    strtod x.text = some (.ofNumeral x, x.text.length) :=
  strtod_eq h x.isText_text

/-- What `print_number` prints for a finite number. -/
def numeral (v : ℚ) : Decimal.Numeral :=
  if v = Double.valueint v then Decimal.ofInt (Double.valueint v)
  else
    -- fifteen digits, if the number can be recovered
    match strtod (Decimal.numeral 15 v).text with
    | none => Decimal.numeral 17 v
    | some (test, _) =>
      if test.compare (.finite v) then Decimal.numeral 15 v else Decimal.numeral 17 v

/-- The text for a number: a zero has no sign, as its `valueint` has none. -/
def numberText : Double → List UInt8
  | .finite v => (numeral v).text
  | .negZero => (numeral 0).text
  | .infinite _ | .nan => cstr "null"

/-! ## Items -/

/-- An item. -/
inductive Item
  | null
  | bool (b : Bool)
  | number (d : Double)
  | string (s : CString)
  | array (items : List Item)
  | object (fields : List (CString × Item))

/-- `CJSON_NESTING_LIMIT`. -/
abbrev nestingLimit : ℕ := 1000

namespace Item

/-- What the library can make: strings and names that end where they do, doubles, and at most `n`
    arrays and objects inside each other. -/
inductive WellFormed : ℕ → Item → Prop
  | null {n : ℕ} : WellFormed n null
  | bool {n : ℕ} (b : Bool) : WellFormed n (bool b)
  | number {n : ℕ} {d : Double} (h : d.IsDouble) : WellFormed n (number d)
  | string {n : ℕ} {s : CString} (h : 0 ∉ s) : WellFormed n (string s)
  | array {n : ℕ} {items : List Item} (h : ∀ v ∈ items, WellFormed n v) :
      WellFormed (n + 1) (array items)
  | object {n : ℕ} {fields : List (CString × Item)} (hname : ∀ f ∈ fields, 0 ∉ f.1)
      (h : ∀ f ∈ fields, WellFormed n f.2) : WellFormed (n + 1) (object fields)

end Item

/-! ## Texts -/

/-- The character after the backslash for a byte, if it has one of its own. -/
def shortEscape (c : UInt8) : Option UInt8 :=
  if c = 92 then some 92
  else if c = 34 then some 34
  else if c = 8 then some 98
  else if c = 12 then some 102
  else if c = 10 then some 110
  else if c = 13 then some 114
  else if c = 9 then some 116
  else none

/-- A lower-case hexadecimal digit. -/
def hexDigit (n : ℕ) : UInt8 := UInt8.ofNat (if n < 10 then 48 + n else 87 + n)

/-- `u%04x`. -/
def unicodeEscape (n : ℕ) : List UInt8 :=
  [117, hexDigit (n / 4096 % 16), hexDigit (n / 256 % 16), hexDigit (n / 16 % 16),
    hexDigit (n % 16)]

/-- Whether a byte is copied to the text of a string. -/
def isPlain (c : UInt8) : Bool := decide (31 < c) && c != 34 && c != 92

theorem isPlain_iff {c : UInt8} : isPlain c = true ↔ 31 < c ∧ c ≠ 34 ∧ c ≠ 92 := by
  simp [isPlain, and_assoc]

/-- The bytes without a sequence of their own are control characters. -/
theorem lt_of_shortEscape {c : UInt8} (hplain : isPlain c = false) (h : shortEscape c = none) :
    c.toNat < 32 := by
  rw [shortEscape] at h
  split_ifs at h with h₁ h₂
  by_contra hlt
  have hgt : 31 < c := by
    rw [UInt8.lt_iff_toNat_lt]
    exact not_le.1 fun hle => hlt (Nat.lt_succ_of_le hle)
  rw [isPlain, decide_eq_true hgt] at hplain
  simp [h₁, h₂] at hplain

/-- What is written for a byte. -/
def escape (c : UInt8) : List UInt8 :=
  if isPlain c then [c]
  else
    92 :: match shortEscape c with
      | some e => [e]
      | none => unicodeEscape c.toNat

/-- The text for a string. -/
def stringText (s : CString) : List UInt8 := 34 :: (s.flatMap escape ++ [34])

/-- Texts with commas between them. -/
def commas : List (List UInt8) → List UInt8
  | [] => []
  | [t] => t
  | t :: ts => t ++ 44 :: commas ts

namespace Item

mutual

/-- The text for an item, unformatted. -/
def text : Item → List UInt8
  | null => cstr "null"
  | bool false => cstr "false"
  | bool true => cstr "true"
  | number d => numberText d
  | string s => stringText s
  | array items => 91 :: (commas (itemTexts items) ++ [93])
  | object fields => 123 :: (commas (fieldTexts fields) ++ [125])

/-- The texts for the elements of an array. -/
def itemTexts : List Item → List (List UInt8)
  | [] => []
  | v :: items => text v :: itemTexts items

/-- The texts for the fields of an object. -/
def fieldTexts : List (CString × Item) → List (List UInt8)
  | [] => []
  | (name, v) :: fields => (stringText name ++ 58 :: text v) :: fieldTexts fields

end

end Item

/-! ## What is read back -/

/-- What is read back for a finite number. -/
def rereadNumber (v : ℚ) : Double := .ofNumeral (numeral v)

namespace Item

mutual

/-- What is read back for an item. -/
def reread : Item → Item
  | null => null
  | bool b => bool b
  | number (.finite v) => number (rereadNumber v)
  | number .negZero => number (rereadNumber 0)
  | number (.infinite _) | number .nan => null
  | string s => string s
  | array items => array (rereadItems items)
  | object fields => object (rereadFields fields)

/-- What is read back for the elements of an array. -/
def rereadItems : List Item → List Item
  | [] => []
  | v :: items => reread v :: rereadItems items

/-- What is read back for the fields of an object. -/
def rereadFields : List (CString × Item) → List (CString × Item)
  | [] => []
  | (name, v) :: fields => (name, reread v) :: rereadFields fields

end

theorem rereadItems_eq_map (items : List Item) : rereadItems items = items.map reread := by
  induction items with
  | nil => rfl
  | cons v items ih => rw [rereadItems, ih, List.map_cons]

theorem rereadFields_eq_map (fields : List (CString × Item)) :
    rereadFields fields = fields.map fun f => (f.1, f.2.reread) := by
  induction fields with
  | nil => rfl
  | cons f fields ih => rw [rereadFields, ih, List.map_cons]

theorem itemTexts_eq_map (items : List Item) : itemTexts items = items.map text := by
  induction items with
  | nil => rfl
  | cons v items ih => rw [itemTexts, ih, List.map_cons]

theorem fieldTexts_eq_map (fields : List (CString × Item)) :
    fieldTexts fields = fields.map fun f => stringText f.1 ++ 58 :: f.2.text := by
  induction fields with
  | nil => rfl
  | cons f fields ih => rw [fieldTexts, ih, List.map_cons]

theorem text_array (items : List Item) :
    (array items).text = 91 :: (commas (items.map text) ++ [93]) := by
  rw [text, itemTexts_eq_map]

theorem reread_array (items : List Item) : (array items).reread = array (items.map reread) := by
  rw [reread, rereadItems_eq_map]

/-- The text for a field. -/
def fieldText (f : CString × Item) : List UInt8 := stringText f.1 ++ 58 :: f.2.text

/-- What is read back for a field. -/
def rereadField (f : CString × Item) : CString × Item := (f.1, f.2.reread)

theorem text_object (fields : List (CString × Item)) :
    (object fields).text = 123 :: (commas (fields.map fieldText) ++ [125]) := by
  rw [text, fieldTexts_eq_map]
  rfl

theorem reread_object (fields : List (CString × Item)) :
    (object fields).reread = object (fields.map rereadField) := by
  rw [reread, rereadFields_eq_map]
  rfl

end Item

/-! ## Numbers -/

section

variable {v : ℚ}

theorem wellFormed_numeral (v : ℚ) : (numeral v).WellFormed := by
  have h15 := Decimal.wellFormed_numeral (p := 15) (by norm_num) v
  have h17 := Decimal.wellFormed_numeral (p := 17) (by norm_num) v
  rw [numeral]
  split_ifs
  · exact Decimal.wellFormed_ofInt _
  · split
    · exact h17
    · split_ifs
      · exact h15
      · exact h17

/-- Truncation is toward zero. -/
theorem natAbs_tdiv_le (v : ℚ) : ((v.num.tdiv v.den).natAbs : ℚ) ≤ |v| := by
  have habs : |v| = (v.num.natAbs : ℚ) / v.den := by
    rw [Nat.cast_natAbs, Int.cast_abs, ← Nat.abs_cast v.den, ← abs_div, Rat.num_div_den]
  rw [habs, Int.natAbs_tdiv, Int.natAbs_natCast]
  exact Nat.cast_div_le

theorem valueint_lt (v : ℚ) : (Double.valueint v).natAbs < 10 ^ 10 := by
  rw [Double.valueint]
  split_ifs with hmax hmin
  · norm_num
  · norm_num
  · have hlt : |v| < 2147483649 := abs_lt.2 ⟨by linarith, by linarith⟩
    have hnat : (v.num.tdiv v.den).natAbs < 2147483649 := by
      exact_mod_cast (natAbs_tdiv_le v).trans_lt hlt
    omega

/-- The integers that fit a `valueint`. -/
theorem valueint_intCast {n : ℤ} (h : -2147483648 ≤ n ∧ n ≤ 2147483647) :
    Double.valueint n = n := by
  rw [Double.valueint]
  split_ifs with hmax hmin
  · have : (2147483647 : ℤ) ≤ n := by exact_mod_cast hmax
    omega
  · have : n ≤ (-2147483648 : ℤ) := by exact_mod_cast hmin
    omega
  · simp

/-- Seventeen digits are enough. -/
theorem ofNumeral_numeral (h : double.Mem v) (hv : v ≠ 0) :
    .ofNumeral (Decimal.numeral 17 v) = Double.finite v := by
  rw [Double.ofNumeral, Decimal.value_numeral (by norm_num)]
  refine Double.ofSigned_eq_of_mem h (FloatFormat.round_eq_of_close h ?_) fun hzero => absurd hzero hv
  have hclose := Decimal.abs_sub_signif_le (p := 17) (by norm_num) hv
  have hle := abs_sub_abs_le_abs_sub v (Decimal.signif 17 v)
  have hnonneg := abs_nonneg (v - Decimal.signif 17 v)
  rw [abs_sub_comm (Decimal.signif 17 v)]
  norm_num [double] at hclose ⊢
  linarith

/-- The exponents of doubles have three digits at most. -/
theorem natAbs_firstPlace_lt (h : double.Mem v) (hv : v ≠ 0) :
    (Decimal.firstPlace v).natAbs < 999 := by
  obtain ⟨_, _, _, _, _, hlt⟩ := id h
  have hlarge : (2 : ℚ) ^ (1024 : ℤ) < 10 ^ (309 : ℤ) := by
    have hnat : 2 ^ 1024 < 10 ^ 309 := by decide +kernel
    exact_mod_cast hnat
  have hsmall : (10 : ℚ) ^ (-324 : ℤ) ≤ 2 ^ (-1074 : ℤ) := by
    have hnat : 2 ^ 1074 < 10 ^ 324 := by decide +kernel
    have hlt : (2 : ℚ) ^ (1074 : ℤ) < 10 ^ (324 : ℤ) := by exact_mod_cast hnat
    rw [zpow_neg, zpow_neg]
    exact inv_anti₀ (zpow_pos (by norm_num) _) hlt.le
  have hmax : Decimal.firstPlace v < 309 := Decimal.firstPlace_lt hv (hlt.trans hlarge)
  have hmin : -324 ≤ Decimal.firstPlace v :=
    Decimal.le_firstPlace hv (hsmall.trans (h.two_zpow_emin_le hv))
  omega

theorem valueint_zero : Double.valueint 0 = 0 := by
  rw [← Int.cast_zero, valueint_intCast (by norm_num)]

theorem mem_zero : double.Mem 0 := by
  rw [← Int.cast_zero]
  exact FloatFormat.mem_intCast (by norm_num [double]) (by decide) (by decide)

/-- A zero is printed as an integer. -/
theorem numeral_zero : numeral 0 = Decimal.ofInt 0 := by
  rw [numeral, valueint_zero, if_pos Int.cast_zero.symm]

/-- The numbers that are not printed as integers. -/
theorem ne_zero_of_ne_valueint (h : v ≠ Double.valueint v) : v ≠ 0 := by
  rintro rfl
  exact h (by rw [valueint_zero, Int.cast_zero])

theorem length_numeral_digits_le {p : ℕ} (hp : 0 < p) (hle : p ≤ 17) (h : double.Mem v)
    (hint : v ≠ Double.valueint v) : (Decimal.numeral p v).text.length ≤ 25 := by
  have hlen := Decimal.length_numeral_le hp
    (natAbs_firstPlace_lt h (ne_zero_of_ne_valueint hint))
  omega

theorem length_numeral_le (h : double.Mem v) : (numeral v).text.length ≤ 25 := by
  rw [numeral]
  split_ifs with hint
  · exact (Decimal.length_ofInt_le (by norm_num) (valueint_lt v)).trans (by norm_num)
  · split
    · exact length_numeral_digits_le (by norm_num) le_rfl h hint
    · split_ifs
      · exact length_numeral_digits_le (by norm_num) (by norm_num) h hint
      · exact length_numeral_digits_le (by norm_num) le_rfl h hint

/-- The numbers that are printed as integers are read back. -/
theorem rereadNumber_of_valueint (h : double.Mem v) (hint : v = Double.valueint v) :
    rereadNumber v = .finite v := by
  rw [rereadNumber, numeral, if_pos hint, Double.ofNumeral, Decimal.value_ofInt, ← hint]
  refine Double.ofSigned_eq_of_mem h (FloatFormat.round_eq_self h) fun hzero => ?_
  -- a zero is written without a sign
  have hcast : (Double.valueint v : ℚ) = 0 := hint.symm.trans hzero
  rw [Decimal.ofInt, Int.cast_eq_zero.1 hcast]
  rfl

/-- **A finite number is read back**, or one that cannot be told from it by `compare_double`. -/
theorem rereadNumber_eq (h : double.Mem v) :
    rereadNumber v = .finite v ∨ (rereadNumber v).compare (.finite v) = true := by
  by_cases hint : v = Double.valueint v
  · exact .inl (rereadNumber_of_valueint h hint)
  · have hv := ne_zero_of_ne_valueint hint
    rw [rereadNumber, numeral, if_neg hint,
      strtod_text (Decimal.wellFormed_numeral (by norm_num) v)]
    dsimp only
    split_ifs with hcompare
    · exact .inr hcompare
    · exact .inl (ofNumeral_numeral h hv)

/-- The integers that fit an `int` are read back. -/
theorem rereadNumber_intCast {n : ℤ} (h : -2147483648 ≤ n ∧ n ≤ 2147483647) :
    rereadNumber n = .finite n := by
  have hmem : double.Mem n := FloatFormat.mem_intCast (by
    rw [abs_lt]
    constructor <;> norm_num [double] <;> omega) (by decide) (by decide)
  exact rereadNumber_of_valueint hmem (by rw [valueint_intCast h])

end

/-! ## No control characters -/

/-- The bytes that are copied have no sequence of their own. -/
theorem shortEscape_of_isPlain {c : UInt8} (h : isPlain c) : shortEscape c = none := by
  obtain ⟨hlt, hquote, hescape⟩ := isPlain_iff.1 h
  have hne : ∀ d : UInt8, d ≤ 31 → c ≠ d := fun d hd heq => UInt8.not_le.2 (heq ▸ hlt) hd
  rw [shortEscape, if_neg hescape, if_neg hquote, if_neg (hne 8 (by decide)),
    if_neg (hne 12 (by decide)), if_neg (hne 10 (by decide)), if_neg (hne 13 (by decide)),
    if_neg (hne 9 (by decide))]

theorem lt_hexDigit : ∀ n < 16, 31 < hexDigit n := by decide

theorem lt_of_shortEscape_eq {c e : UInt8} (h : shortEscape c = some e) : 31 < e := by
  rw [shortEscape] at h
  split_ifs at h <;> obtain rfl := Option.some.inj h <;> decide

theorem lt_of_mem_escape {c : UInt8} : ∀ d ∈ escape c, 31 < d := by
  rw [escape]
  by_cases hplain : isPlain c
  · rw [if_pos hplain, List.forall_mem_singleton]
    exact (isPlain_iff.1 hplain).1
  rw [if_neg hplain, List.forall_mem_cons]
  refine ⟨by decide, ?_⟩
  cases hshort : shortEscape c with
  | some e =>
    rw [List.forall_mem_singleton]
    exact lt_of_shortEscape_eq hshort
  | none =>
    have hlt : ∀ m : ℕ, 31 < hexDigit (m % 16) := fun m =>
      lt_hexDigit _ (Nat.mod_lt _ (by norm_num))
    simp only [unicodeEscape, List.forall_mem_cons]
    exact ⟨by decide, hlt _, hlt _, hlt _, hlt _, by simp⟩

theorem lt_of_mem_stringText {s : CString} : ∀ c ∈ stringText s, 31 < c := by
  rw [stringText, List.forall_mem_cons, List.forall_mem_append, List.forall_mem_singleton]
  refine ⟨by decide, ?_, by decide⟩
  intro c hc
  obtain ⟨d, -, hd⟩ := List.mem_flatMap.1 hc
  exact lt_of_mem_escape c hd

theorem lt_of_mem_text_numeral (v : ℚ) : ∀ c ∈ (numeral v).text, 31 < c := by
  intro c hc
  obtain hdigit | rfl | rfl | rfl | rfl | rfl :=
    Decimal.Numeral.isChar_of_isText (wellFormed_numeral v) (numeral v).isText_text c hc
  · rw [Decimal.isDigit, decide_eq_true_eq] at hdigit
    exact UInt8.lt_of_lt_of_le (by decide : (31 : UInt8) < 48) hdigit.1
  all_goals decide

theorem lt_of_mem_numberText {d : Double} : ∀ c ∈ numberText d, 31 < c := by
  cases d with
  | infinite neg => exact List.all_iff_forall_prop.1 (by decide : (cstr "null").all (31 < ·) = true)
  | nan => exact List.all_iff_forall_prop.1 (by decide : (cstr "null").all (31 < ·) = true)
  | finite v => exact lt_of_mem_text_numeral v
  | negZero => exact lt_of_mem_text_numeral 0

theorem lt_of_mem_commas {ts : List (List UInt8)} (h : ∀ t ∈ ts, ∀ c ∈ t, 31 < c) :
    ∀ c ∈ commas ts, 31 < c := by
  induction ts with
  | nil => simp [commas]
  | cons t ts ih =>
    rw [List.forall_mem_cons] at h
    cases ts with
    | nil => exact h.1
    | cons t' ts =>
      rw [commas, List.forall_mem_append, List.forall_mem_cons]
      · exact ⟨h.1, by decide, ih h.2⟩
      · simp

/-- No text has a control character. -/
theorem Item.WellFormed.lt_of_mem_text {n : ℕ} {v : Item} (hv : v.WellFormed n) :
    ∀ c ∈ v.text, 31 < c := by
  induction hv with
  | null => exact List.all_iff_forall_prop.1 (by decide : (cstr "null").all (31 < ·) = true)
  | bool b => cases b <;> exact List.all_iff_forall_prop.1 (by decide)
  | number h => exact lt_of_mem_numberText
  | string h => exact lt_of_mem_stringText
  | array h ih =>
    rw [text_array, List.forall_mem_cons, List.forall_mem_append, List.forall_mem_singleton]
    refine ⟨by decide, lt_of_mem_commas ?_, by decide⟩
    rwa [List.forall_mem_map]
  | object hname h ih =>
    rw [text_object, List.forall_mem_cons, List.forall_mem_append, List.forall_mem_singleton]
    refine ⟨by decide, lt_of_mem_commas ?_, by decide⟩
    rw [List.forall_mem_map]
    intro f hf
    rw [fieldText, List.forall_mem_append, List.forall_mem_cons]
    exact ⟨lt_of_mem_stringText, by decide, ih f hf⟩

/-- Texts are C strings. -/
theorem zero_not_mem_of_lt {t : List UInt8} (h : ∀ c ∈ t, 31 < c) : 0 ∉ t :=
  fun hmem => absurd (h 0 hmem) (by decide)

end HybridPqc.Cjson
