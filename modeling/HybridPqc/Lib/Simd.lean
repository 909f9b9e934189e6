import Mathlib.Algebra.Order.Ring.Nat
import Mathlib.Data.Fintype.Basic
import Mathlib.Tactic.FinCases

/-!
# SIMD registers

A register of 128 bits is seen as four lanes of 32 bits, the lowest first (`M128`), one of
256 bits as two of these (`M256`) and one of 512 bits as four (`M512`). What instructions do
lane by lane is written with `Register.map` and `Register.zipWith`; what moves lanes works
on quadruples of anything (`Quad`), be they lanes of a register or parts of a wide one.

* `rotr_eq_xor`, `ofHalves_swap`, `ofBytes_rotate8`, `ofBytes_rotate16`: shifts, and shuffles
  of halves and of bytes, that rotate a lane;
* `signed_lt_iff`: an unsigned comparison made by a signed one.
-/

namespace HybridPqc.Simd

/-! ## Quadruples -/

/-- Four values, the lowest first. -/
@[ext]
structure Quad (α : Type*) where
  x0 : α
  x1 : α
  x2 : α
  x3 : α
  deriving DecidableEq, Inhabited

namespace Quad

variable {α β γ : Type*}

def get (a : Quad α) : Fin 4 → α
  | 0 => a.x0
  | 1 => a.x1
  | 2 => a.x2
  | 3 => a.x3

def set (a : Quad α) : Fin 4 → α → Quad α
  | 0, x => { a with x0 := x }
  | 1, x => { a with x1 := x }
  | 2, x => { a with x2 := x }
  | 3, x => { a with x3 := x }

def ofFn (f : Fin 4 → α) : Quad α := ⟨f 0, f 1, f 2, f 3⟩

def map (f : α → β) (a : Quad α) : Quad β := ⟨f a.x0, f a.x1, f a.x2, f a.x3⟩

def zipWith (f : α → β → γ) (a : Quad α) (b : Quad β) : Quad γ :=
  ⟨f a.x0 b.x0, f a.x1 b.x1, f a.x2 b.x2, f a.x3 b.x3⟩

@[simp] theorem get_map (f : α → β) (a : Quad α) (i : Fin 4) : (a.map f).get i = f (a.get i) := by
  fin_cases i <;> rfl

@[simp] theorem get_zipWith (f : α → β → γ) (a : Quad α) (b : Quad β) (i : Fin 4) :
    (zipWith f a b).get i = f (a.get i) (b.get i) := by
  fin_cases i <;> rfl

/-! ## Moving lanes -/

/-- Two bits of a control byte. -/
def control (imm8 : ℕ) (i : Fin 4) : Fin 4 := ⟨imm8 / 4 ^ i.1 % 4, Nat.mod_lt _ (by decide)⟩

/-- `_MM_SHUFFLE`. -/
def shuffleControl (z y x w : ℕ) : ℕ := z * 64 + y * 16 + x * 4 + w

/-- Two values of each: `_mm_shuffle_ps` on lanes, `_mm512_shuffle_i32x4` on parts. -/
def shuffle2 (a b : Quad α) (imm8 : ℕ) : Quad α :=
  ⟨a.get (control imm8 0), a.get (control imm8 1), b.get (control imm8 2), b.get (control imm8 3)⟩

/-- `_mm_shuffle_epi32`. -/
def shuffle (a : Quad α) (imm8 : ℕ) : Quad α := shuffle2 a a imm8

/-- `_mm_unpacklo_epi32`. -/
def unpackLo (a b : Quad α) : Quad α := ⟨a.x0, b.x0, a.x1, b.x1⟩

/-- `_mm_unpackhi_epi32`. -/
def unpackHi (a b : Quad α) : Quad α := ⟨a.x2, b.x2, a.x3, b.x3⟩

/-- `_mm_unpacklo_epi64`. -/
def unpackLo64 (a b : Quad α) : Quad α := ⟨a.x0, a.x1, b.x0, b.x1⟩

/-- `_mm_unpackhi_epi64`. -/
def unpackHi64 (a b : Quad α) : Quad α := ⟨a.x2, a.x3, b.x2, b.x3⟩

end Quad

/-! ## Registers -/

/-- What has lanes of 32 bits. -/
class Register (W : Type) where
  width : ℕ
  lane : W → Fin width → UInt32
  map : (UInt32 → UInt32) → W → W
  zipWith : (UInt32 → UInt32 → UInt32) → W → W → W
  /-- `_mm_set1_epi32`. -/
  set1 : UInt32 → W
  lane_map : ∀ f a i, lane (map f a) i = f (lane a i)
  lane_zipWith : ∀ f a b i, lane (zipWith f a b) i = f (lane a i) (lane b i)
  lane_set1 : ∀ x i, lane (set1 x) i = x

attribute [simp] Register.lane_map Register.lane_zipWith Register.lane_set1

/-- `__m128i`. -/
abbrev M128 := Quad UInt32

/-- `__m256i`. -/
abbrev M256 := M128 × M128

/-- `__m512i`. -/
abbrev M512 := Quad M128

/-- `_mm_set1_epi32`, or the like of it for lanes of another size. -/
def Quad.set1 {α : Type*} (x : α) : Quad α := ⟨x, x, x, x⟩

@[simp] theorem Quad.get_set1 {α : Type*} (x : α) (i : Fin 4) : (Quad.set1 x).get i = x := by
  fin_cases i <;> rfl

instance : Register M128 where
  width := 4
  lane := Quad.get
  map := Quad.map
  zipWith := Quad.zipWith
  set1 := Quad.set1
  lane_map := Quad.get_map
  lane_zipWith := Quad.get_zipWith
  lane_set1 := Quad.get_set1

instance : Register M256 where
  width := 8
  lane a i := (if i.1 < 4 then a.1 else a.2).get ⟨i.1 % 4, Nat.mod_lt _ (by decide)⟩
  map f a := (a.1.map f, a.2.map f)
  zipWith f a b := (a.1.zipWith f b.1, a.2.zipWith f b.2)
  set1 x := (.set1 x, .set1 x)
  lane_map f a i := by split <;> exact Quad.get_map ..
  lane_zipWith f a b i := by split <;> exact Quad.get_zipWith ..
  lane_set1 x i := by rw [ite_self, Quad.get_set1]

instance : Register M512 where
  width := 16
  lane a i := (a.get ⟨i.1 / 4, by omega⟩).get ⟨i.1 % 4, Nat.mod_lt _ (by decide)⟩
  map f a := a.map (Quad.map f)
  zipWith f a b := a.zipWith (Quad.zipWith f) b
  set1 x := .set1 (.set1 x)
  lane_map f a i := by rw [Quad.get_map, Quad.get_map]
  lane_zipWith f a b i := by rw [Quad.get_zipWith, Quad.get_zipWith]
  lane_set1 x i := by rw [Quad.get_set1, Quad.get_set1]

section Instructions

variable {W : Type} [Register W]

/-- `_mm_add_epi32`. -/
def addv (a b : W) : W := Register.zipWith (· + ·) a b

/-- `_mm_sub_epi32`. -/
def subv (a b : W) : W := Register.zipWith (· - ·) a b

/-- `_mm_xor_si128`. -/
def xorv (a b : W) : W := Register.zipWith (· ^^^ ·) a b

/-- `_mm_or_si128`. -/
def orv (a b : W) : W := Register.zipWith (· ||| ·) a b

/-- `_mm_and_si128`. -/
def andv (a b : W) : W := Register.zipWith (· &&& ·) a b

/-- `_mm_andnot_si128`. -/
def andnotv (a b : W) : W := Register.zipWith (fun x y => ~~~x &&& y) a b

/-- `_mm_srli_epi32`. -/
def srli (a : W) (n : UInt32) : W := Register.map (· >>> n) a

/-- `_mm_slli_epi32`. -/
def slli (a : W) (n : UInt32) : W := Register.map (· <<< n) a

/-- A lane rotated to the right. -/
def rotr (w n : UInt32) : UInt32 := (w >>> n) ||| (w <<< (32 - n))

/-- `_mm_ror_epi32`. -/
def ror (a : W) (n : UInt32) : W := Register.map (rotr · n) a

/-- `_mm_cmpgt_epi32`, which compares signed numbers. -/
def cmpgt (a b : W) : W :=
  Register.zipWith (fun x y => if y.toInt32 < x.toInt32 then 0xFFFFFFFF else 0) a b

end Instructions

/-! ## Halves of lanes -/

def lowHalf (w : UInt32) : UInt16 := w.toUInt16

def highHalf (w : UInt32) : UInt16 := (w >>> 16).toUInt16

def ofHalves (lo hi : UInt16) : UInt32 := lo.toUInt32 ||| (hi.toUInt32 <<< 16)

/-- The eight halves of a register, four and four. -/
def halves (a : M128) : Quad UInt16 × Quad UInt16 :=
  (⟨lowHalf a.x0, highHalf a.x0, lowHalf a.x1, highHalf a.x1⟩,
    ⟨lowHalf a.x2, highHalf a.x2, lowHalf a.x3, highHalf a.x3⟩)

/-- The register with the given halves, as `_mm_set_epi16` makes it. -/
def setHalves (h : Quad UInt16 × Quad UInt16) : M128 :=
  ⟨ofHalves h.1.x0 h.1.x1, ofHalves h.1.x2 h.1.x3, ofHalves h.2.x0 h.2.x1, ofHalves h.2.x2 h.2.x3⟩

/-- `_mm_shufflelo_epi16`. -/
def shuffleLo16 (a : M128) (imm8 : ℕ) : M128 :=
  setHalves ((halves a).1.shuffle imm8, (halves a).2)

/-- `_mm_shufflehi_epi16`. -/
def shuffleHi16 (a : M128) (imm8 : ℕ) : M128 :=
  setHalves ((halves a).1, (halves a).2.shuffle imm8)

/-- `_mm_cmpeq_epi16`. -/
def cmpeq16 (a b : M128) : M128 :=
  let eq := fun x y : UInt16 => if x = y then (0xFFFF : UInt16) else 0
  setHalves ((halves a).1.zipWith eq (halves b).1, (halves a).2.zipWith eq (halves b).2)

/-- `_mm_blend_epi16`. -/
def blend16 (a b : M128) (imm8 : ℕ) : M128 :=
  setHalves
    (.ofFn fun i => if imm8.testBit i then (halves b).1.get i else (halves a).1.get i,
      .ofFn fun i => if imm8.testBit (i + 4) then (halves b).2.get i else (halves a).2.get i)

@[simp] theorem ofHalves_halves (w : UInt32) : ofHalves (lowHalf w) (highHalf w) = w := by
  apply UInt32.eq_of_toBitVec_eq
  ext i h
  simp [ofHalves, lowHalf, highHalf, -UInt32.toUInt32_toUInt16]
  grind

/-- The halves exchanged. -/
theorem ofHalves_swap (w : UInt32) : ofHalves (highHalf w) (lowHalf w) = rotr w 16 := by
  apply UInt32.eq_of_toBitVec_eq
  ext i h
  simp [ofHalves, lowHalf, highHalf, rotr, -UInt32.toUInt32_toUInt16]
  grind

theorem lowHalf_ofHalves (lo hi : UInt16) : lowHalf (ofHalves lo hi) = lo := by
  apply UInt16.eq_of_toBitVec_eq
  ext i h
  simp [ofHalves, lowHalf]

theorem highHalf_ofHalves (lo hi : UInt16) : highHalf (ofHalves lo hi) = hi := by
  apply UInt16.eq_of_toBitVec_eq
  ext i h
  simp [ofHalves, highHalf]
  grind

theorem halves_setHalves (h : Quad UInt16 × Quad UInt16) : halves (setHalves h) = h := by
  simp only [halves, setHalves, lowHalf_ofHalves, highHalf_ofHalves]

/-- The shuffles of halves that rotate every lane by 16 bits. -/
theorem shuffleHi16_shuffleLo16 (a : M128) :
    shuffleHi16 (shuffleLo16 a 0xB1) 0xB1 = a.map (rotr · 16) := by
  rw [shuffleHi16, shuffleLo16, halves_setHalves]
  simp only [← ofHalves_swap]
  rfl

/-! ## Bytes of lanes -/

def byteAt (w i : UInt32) : UInt8 := (w >>> (8 * i)).toUInt8

def ofBytes (b : Quad UInt8) : UInt32 :=
  b.x0.toUInt32 ||| (b.x1.toUInt32 <<< 8) ||| (b.x2.toUInt32 <<< 16) ||| (b.x3.toUInt32 <<< 24)

def bytesOf (w : UInt32) : Quad UInt8 := ⟨byteAt w 0, byteAt w 1, byteAt w 2, byteAt w 3⟩

/-- `_mm_shuffle_epi8`, with a control register that is seen by its bytes. -/
def shuffle8 (a : M128) (control : Quad (Quad UInt8)) : M128 :=
  control.map fun c => ofBytes <| c.map fun k =>
    if k ≥ 128 then 0
    else ((a.map bytesOf).get ⟨k.toNat % 16 / 4, by omega⟩).get ⟨k.toNat % 4, by omega⟩

theorem ofBytes_rotate8 (w : UInt32) :
    ofBytes ⟨byteAt w 1, byteAt w 2, byteAt w 3, byteAt w 0⟩ = rotr w 8 := by
  apply UInt32.eq_of_toBitVec_eq
  ext i h
  simp [ofBytes, byteAt, rotr, -UInt32.toUInt32_toUInt8]
  grind

theorem ofBytes_rotate16 (w : UInt32) :
    ofBytes ⟨byteAt w 2, byteAt w 3, byteAt w 0, byteAt w 1⟩ = rotr w 16 := by
  apply UInt32.eq_of_toBitVec_eq
  ext i h
  simp [ofBytes, byteAt, rotr, -UInt32.toUInt32_toUInt8]
  grind

/-- The bytes that rotate every lane by 8 bits. -/
theorem shuffle8_rotate8 (a : M128) :
    shuffle8 a ⟨⟨1, 2, 3, 0⟩, ⟨5, 6, 7, 4⟩, ⟨9, 10, 11, 8⟩, ⟨13, 14, 15, 12⟩⟩ =
      a.map (rotr · 8) := by
  simp only [← ofBytes_rotate8]
  rfl

/-- The bytes that rotate every lane by 16 bits. -/
theorem shuffle8_rotate16 (a : M128) :
    shuffle8 a ⟨⟨2, 3, 0, 1⟩, ⟨6, 7, 4, 5⟩, ⟨10, 11, 8, 9⟩, ⟨14, 15, 12, 13⟩⟩ =
      a.map (rotr · 16) := by
  simp only [← ofBytes_rotate16]
  rfl

/-! ## Rotations and comparisons -/

/-- The two parts of a rotation have no bit in common. -/
theorem rotr_eq_xor (w : UInt32) {n : UInt32} (hn : n = 12 ∨ n = 8 ∨ n = 7) :
    (w >>> n) ^^^ (w <<< (32 - n)) = rotr w n := by
  have hbits (k : ℕ) (hk : 0 < k ∧ k < 32) :
      (w.toBitVec >>> k) ^^^ (w.toBitVec <<< (32 - k)) =
        (w.toBitVec >>> k) ||| (w.toBitVec <<< (32 - k)) := by
    ext i h
    simp only [BitVec.getElem_xor, BitVec.getElem_or, BitVec.getElem_ushiftRight,
      BitVec.getElem_shiftLeft]
    grind
  apply UInt32.eq_of_toBitVec_eq
  rcases hn with rfl | rfl | rfl
  · simpa [rotr] using hbits 12 (by decide)
  · simpa [rotr] using hbits 8 (by decide)
  · simpa [rotr] using hbits 7 (by decide)

theorem xorv_srli_slli (a : M128) {n : UInt32} (hn : n = 12 ∨ n = 8 ∨ n = 7) :
    xorv (srli a n) (slli a (32 - n)) = a.map (rotr · n) := by
  simp only [← rotr_eq_xor _ hn]
  rfl

/-- The highest bit inverted. -/
theorem toNat_xor_highest (a : UInt32) :
    (a ^^^ 0x80000000).toNat = if a.toNat < 2 ^ 31 then a.toNat + 2 ^ 31 else a.toNat - 2 ^ 31 := by
  have hlt := a.toNat_lt
  have hmod : (a.toNat ^^^ 2 ^ 31) % 2 ^ 31 = a.toNat % 2 ^ 31 := by
    rw [Nat.xor_mod_two_pow, Nat.mod_self, Nat.xor_zero]
  have hdiv : (a.toNat ^^^ 2 ^ 31) / 2 ^ 31 = (a.toNat / 2 ^ 31) ^^^ 1 := by
    rw [Nat.xor_div_two_pow, Nat.div_self (by decide)]
  have hxor : (a ^^^ 0x80000000).toNat = a.toNat ^^^ 2 ^ 31 := UInt32.toNat_xor ..
  rw [hxor]
  by_cases h : a.toNat < 2 ^ 31
  · rw [Nat.div_eq_of_lt h, Nat.zero_xor] at hdiv
    rw [if_pos h]
    omega
  · have hone : a.toNat / 2 ^ 31 = 1 := by omega
    rw [hone, Nat.xor_self] at hdiv
    rw [if_neg h]
    omega

/-- With their highest bit inverted, signed numbers compare as unsigned ones. -/
theorem signed_lt_iff (a b : UInt32) :
    (a ^^^ 0x80000000).toInt32 < (b ^^^ 0x80000000).toInt32 ↔ a < b := by
  have hint (c : UInt32) : c.toInt32.toInt =
      if 2 * c.toNat < 2 ^ 32 then (c.toNat : ℤ) else c.toNat - 2 ^ 32 :=
    BitVec.toInt_eq_toNat_cond _
  have ha := a.toNat_lt
  have hb := b.toNat_lt
  rw [Int32.lt_iff_toInt_lt, UInt32.lt_iff_toNat_lt, hint, hint, toNat_xor_highest,
    toNat_xor_highest]
  split_ifs <;> omega

end HybridPqc.Simd
