import HybridPqc.Cjson.Parse

/-!
# Unicode in strings

The literal for a character is one code unit of UTF-16 with four hexadecimal digits, or two of
them: a surrogate pair. `utf16_literal_to_utf8` makes of it the encoding of the character as UTF-8
(`utf16LiteralToUtf8_unit`, `utf16LiteralToUtf8_pair`).
-/

namespace HybridPqc.Cjson

/-! ## UTF-8 -/

theorem and_or_self (x y : ℕ) : x &&& y ||| y = y := by
  refine Nat.eq_of_testBit_eq fun i => ?_
  rw [Nat.testBit_or, Nat.testBit_and]
  cases x.testBit i <;> simp

/-- The bytes after the first one have six bits of the character. -/
theorem or_and_eq (x : ℕ) : (x ||| 0x80) &&& 0xBF = x % 64 + 0x80 := by
  have hmask : 0xBF = (2 ^ 6 - 1) ||| 0x80 := rfl
  have hlt : x % 64 < 2 ^ 6 := Nat.mod_lt _ (by norm_num)
  calc (x ||| 0x80) &&& 0xBF
    _ = (x &&& 0xBF) ||| (0x80 &&& 0xBF) := Nat.and_or_distrib_right ..
    _ = (x &&& (2 ^ 6 - 1)) ||| ((x &&& 0x80) ||| 0x80) := by
      rw [hmask, Nat.and_or_distrib_left, Nat.or_assoc]
      rfl
    _ = x % 64 ||| 0x80 := by
      rw [Nat.and_two_pow_sub_one_eq_mod, and_or_self]
    _ = x % 64 + 0x80 := by
      rw [Nat.or_comm, show 0x80 = 2 ^ 6 * 2 from rfl, ← Nat.two_pow_add_eq_or_of_lt hlt, add_comm]

/-- The mark of the first byte is above its other bits. -/
theorem or_eq_add {x a n : ℕ} (h : x < 2 ^ n) : 2 ^ n * a ||| x = x + 2 ^ n * a := by
  rw [← Nat.two_pow_add_eq_or_of_lt h, add_comm]

/-- The characters are not surrogates. -/
theorem toNat_cases (c : Char) :
    c.toNat < 0xD800 ∨ 0xDFFF < c.toNat ∧ c.toNat < 0x110000 := c.valid

/-- **The encoding** is that of the character. -/
theorem utf8_toNat (c : Char) : utf8 c.toNat = String.utf8EncodeChar c := by
  have hcases := toNat_cases c
  have hval : c.val.toNat = c.toNat := rfl
  simp only [utf8, String.utf8EncodeChar, hval, or_and_eq, ← Nat.lt_succ_iff]
  generalize c.toNat = v at *
  split_ifs with h1 h2 h3 h4
  · rw [show 0x7F = 2 ^ 7 - 1 from rfl, Nat.and_two_pow_sub_one_eq_mod, Nat.mod_eq_of_lt h1]
  · have hfirst : v / 2 ^ 6 < 2 ^ 5 := by omega
    rw [show 0xC0 = 2 ^ 5 * 6 from rfl, or_eq_add hfirst, pow_zero, Nat.div_one,
      show v / 64 % 0x20 = v / 2 ^ 6 from Nat.mod_eq_of_lt hfirst]
  · have hfirst : v / 2 ^ 12 < 2 ^ 4 := by omega
    rw [show 0xE0 = 2 ^ 4 * 14 from rfl, or_eq_add hfirst, pow_zero, Nat.div_one,
      show v / 4096 % 0x10 = v / 2 ^ 12 from Nat.mod_eq_of_lt hfirst]
    rfl
  · have hfirst : v / 2 ^ 18 < 2 ^ 3 := by omega
    rw [show 0xF0 = 2 ^ 3 * 30 from rfl, or_eq_add hfirst, pow_zero, Nat.div_one,
      show v / 262144 % 0x08 = v / 2 ^ 18 from Nat.mod_eq_of_lt hfirst]
    rfl
  · omega

/-! ## Literals -/

section

variable {content : List UInt8}

/-- The bytes of the text from an index on. -/
theorem getElem?_of_drop {i : ℕ} {s : List UInt8} (h : content.drop i = s) (j : ℕ) :
    content[i + j]? = s[j]? := by
  rw [← h, List.getElem?_drop]

theorem getElem?_of_drop_cons {i : ℕ} {c : UInt8} {s : List UInt8} (h : content.drop i = c :: s) :
    content[i]? = some c :=
  getElem?_of_drop h 0

theorem lt_length_of_drop_cons {i : ℕ} {c : UInt8} {s : List UInt8} (h : content.drop i = c :: s) :
    i < content.length :=
  (List.getElem?_eq_some_iff.1 (getElem?_of_drop_cons h)).1

theorem drop_add_of_drop {i : ℕ} {s t : List UInt8} (h : content.drop i = s ++ t) :
    content.drop (i + s.length) = t := by
  rw [← List.drop_drop, h, List.drop_left]

/-- The value of hexadecimal digits, after others. -/
def hexValue (h : ℕ) : List UInt8 → Option ℕ
  | [] => some h
  | c :: cs => (ofHexDigit c).bind fun d => hexValue (16 * h + d) cs

/-- Digits are read one after the other. -/
theorem parseHex4_eq {cs rest : List UInt8} {i h n : ℕ} (hcs : hexValue h cs = some n)
    (hdrop : content.drop i = cs ++ rest) : parseHex4 content i cs.length h = some n := by
  induction cs generalizing i h with
  | nil => exact hcs
  | cons c cs ih =>
    obtain ⟨d, hd, hcs⟩ := Option.bind_eq_some_iff.1 hcs
    have hrest := drop_add_of_drop (s := [c]) hdrop
    simp only [List.length_cons, parseHex4, getElem?_of_drop_cons hdrop, hd]
    exact ih hcs hrest

/-- The code units of a character beyond those of one. -/
def highSurrogate (v : ℕ) : ℕ := 0xD800 + (v - 0x10000) / 0x400

/-- The other one. -/
def lowSurrogate (v : ℕ) : ℕ := 0xDC00 + (v - 0x10000) % 0x400

theorem surrogates_bounds {v : ℕ} (h : v < 0x110000) :
    (0xD800 ≤ highSurrogate v ∧ highSurrogate v ≤ 0xDBFF) ∧
      0xDC00 ≤ lowSurrogate v ∧ lowSurrogate v ≤ 0xDFFF := by
  rw [highSurrogate, lowSurrogate]
  omega

/-- The code point of a pair. -/
theorem codepoint_surrogates {v : ℕ} (h : 0x10000 ≤ v) (hlt : v < 0x110000) :
    0x10000 + (((highSurrogate v &&& 0x3FF) <<< 10) ||| (lowSurrogate v &&& 0x3FF)) = v := by
  have hhigh : highSurrogate v % 2 ^ 10 = (v - 0x10000) / 0x400 := by
    rw [highSurrogate]
    omega
  have hlow : lowSurrogate v % 2 ^ 10 = (v - 0x10000) % 0x400 := by
    rw [lowSurrogate]
    omega
  rw [show 0x3FF = 2 ^ 10 - 1 from rfl, Nat.and_two_pow_sub_one_eq_mod,
    Nat.and_two_pow_sub_one_eq_mod, hhigh, hlow, Nat.shiftLeft_eq, mul_comm,
    or_eq_add (show (v - 0x10000) % 0x400 < 2 ^ 10 from Nat.mod_lt _ (by norm_num))]
  omega

theorem encodeLiteral_toNat (c : Char) (n : ℕ) :
    encodeLiteral c.toNat n = (String.utf8EncodeChar c, n) := by
  rw [encodeLiteral, utf8_toNat, if_neg String.utf8EncodeChar_ne_nil]

/-- **A literal of one code unit**, which is that of a character. -/
theorem utf16LiteralToUtf8_unit {i inputEnd : ℕ} {cs rest : List UInt8} {c : Char}
    (hlen : cs.length = 4) (hcs : hexValue 0 cs = some c.toNat)
    (hdrop : content.drop i = 92 :: 117 :: (cs ++ rest)) (hend : i + 6 ≤ inputEnd)
    (hc : c.toNat < 0x10000) :
    utf16LiteralToUtf8 content i inputEnd = some (String.utf8EncodeChar c, 6) := by
  have hdigits : content.drop (i + 2) = cs ++ rest := drop_add_of_drop (s := [92, 117]) hdrop
  have hfirst := parseHex4_eq hcs hdigits
  have hcases := toNat_cases c
  rw [hlen] at hfirst
  rw [utf16LiteralToUtf8, if_neg (by omega), hfirst, Option.bind_eq_bind, Option.bind_some,
    if_neg (by omega), if_neg (by omega), encodeLiteral_toNat]
  rfl

/-- **A surrogate pair.** -/
theorem utf16LiteralToUtf8_pair {i inputEnd : ℕ} {cs cs' rest : List UInt8} {c : Char}
    (hlen : cs.length = 4) (hlen' : cs'.length = 4) (hc : 0x10000 ≤ c.toNat)
    (hcs : hexValue 0 cs = some (highSurrogate c.toNat))
    (hcs' : hexValue 0 cs' = some (lowSurrogate c.toNat))
    (hdrop : content.drop i = 92 :: 117 :: (cs ++ 92 :: 117 :: (cs' ++ rest)))
    (hend : i + 12 ≤ inputEnd) :
    utf16LiteralToUtf8 content i inputEnd = some (String.utf8EncodeChar c, 12) := by
  have hdigits : content.drop (i + 2) = cs ++ 92 :: 117 :: (cs' ++ rest) :=
    drop_add_of_drop (s := [92, 117]) hdrop
  have hsecond := drop_add_of_drop hdigits
  rw [hlen, add_assoc] at hsecond
  have hdigits' : content.drop (i + 6 + 2) = cs' ++ rest :=
    drop_add_of_drop (s := [92, 117]) hsecond
  have hfirst := parseHex4_eq hcs hdigits
  have hcode := parseHex4_eq hcs' hdigits'
  rw [hlen] at hfirst
  rw [hlen'] at hcode
  have hlt : c.toNat < 0x110000 := by
    have := toNat_cases c
    omega
  obtain ⟨hhigh, hlow⟩ := surrogates_bounds hlt
  have hbackslash : content[i + 6]? = some 92 := getElem?_of_drop_cons hsecond
  have hu : content[i + 6 + 1]? = some 117 := getElem?_of_drop hsecond 1
  rw [utf16LiteralToUtf8, if_neg (by omega), hfirst, Option.bind_eq_bind, Option.bind_some,
    if_neg (by omega), if_pos hhigh]
  dsimp only
  rw [if_neg (by omega), hbackslash, Option.bind_eq_bind, Option.bind_some, if_neg (by simp), hu,
    Option.bind_some, if_neg (by simp), hcode, Option.bind_some,
    if_neg (by omega), codepoint_surrogates hc hlt, encodeLiteral_toNat]
  rfl

end

end HybridPqc.Cjson
