import HybridPqc.Blake3.Lanes

/-!
# SSE2 and SSE4.1

`blake3_sse2.c` and `blake3_sse41.c`, with four inputs at a time. The two files differ in two
rotations, which SSE2 has no shuffle of bytes for, and in the blend, which it makes of masks.
-/

namespace HybridPqc.Blake3

open Simd Register

/-! ## Rotations -/

namespace Sse2

def rot16 (x : M128) : M128 := shuffleHi16 (shuffleLo16 x 0xB1) 0xB1

def rot12 (x : M128) : M128 := xorv (srli x 12) (slli x (32 - 12))

def rot8 (x : M128) : M128 := xorv (srli x 8) (slli x (32 - 8))

def rot7 (x : M128) : M128 := xorv (srli x 7) (slli x (32 - 7))

/-- `blend_epi16`. -/
def blendEpi16 (a b : M128) (imm8 : ℕ) : M128 :=
  let bits := setHalves (⟨0x01, 0x02, 0x04, 0x08⟩, ⟨0x10, 0x20, 0x40, 0x80⟩)
  let mask := setHalves (.set1 (UInt16.ofNat imm8), .set1 (UInt16.ofNat imm8))
  let mask := andv mask bits
  let mask := cmpeq16 mask bits
  orv (andv mask b) (andnotv mask a)

def rotations : Rotations M128 := ⟨rot16, rot12, rot8, rot7⟩

def rowOps : RowOps := ⟨rotations, blendEpi16⟩

end Sse2

namespace Sse41

def rot16 (x : M128) : M128 :=
  shuffle8 x ⟨⟨2, 3, 0, 1⟩, ⟨6, 7, 4, 5⟩, ⟨10, 11, 8, 9⟩, ⟨14, 15, 12, 13⟩⟩

def rot8 (x : M128) : M128 :=
  shuffle8 x ⟨⟨1, 2, 3, 0⟩, ⟨5, 6, 7, 4⟩, ⟨9, 10, 11, 8⟩, ⟨13, 14, 15, 12⟩⟩

def rotations : Rotations M128 := ⟨rot16, Sse2.rot12, rot8, Sse2.rot7⟩

def rowOps : RowOps := ⟨rotations, blend16⟩

end Sse41

theorem Sse2.rotations_lawful : Rotations.Lawful Sse2.rotations where
  rot16_eq := shuffleHi16_shuffleLo16
  rot12_eq a := xorv_srli_slli a (.inl rfl)
  rot8_eq a := xorv_srli_slli a (.inr (.inl rfl))
  rot7_eq a := xorv_srli_slli a (.inr (.inr rfl))

theorem Sse41.rotations_lawful : Rotations.Lawful Sse41.rotations where
  rot16_eq := shuffle8_rotate16
  rot12_eq := Sse2.rotations_lawful.rot12_eq
  rot8_eq := shuffle8_rotate8
  rot7_eq := Sse2.rotations_lawful.rot7_eq

/-- The masks select whole lanes. -/
theorem Sse2.rowOps_lawful : Sse2.rowOps.Lawful where
  rotations := rotations_lawful
  blend_cc a b := by
    have hmask : cmpeq16
        (andv (setHalves (.set1 (UInt16.ofNat 0xCC), .set1 (UInt16.ofNat 0xCC)))
          (setHalves (⟨0x01, 0x02, 0x04, 0x08⟩, ⟨0x10, 0x20, 0x40, 0x80⟩)))
        (setHalves (⟨0x01, 0x02, 0x04, 0x08⟩, ⟨0x10, 0x20, 0x40, 0x80⟩)) =
        ⟨0, -1, 0, -1⟩ := by decide
    change blendEpi16 a b 0xCC = _
    rw [blendEpi16, hmask]
    simp [orv, andv, andnotv, Register.zipWith, Quad.zipWith]
  blend_c0 a b := by
    have hmask : cmpeq16
        (andv (setHalves (.set1 (UInt16.ofNat 0xC0), .set1 (UInt16.ofNat 0xC0)))
          (setHalves (⟨0x01, 0x02, 0x04, 0x08⟩, ⟨0x10, 0x20, 0x40, 0x80⟩)))
        (setHalves (⟨0x01, 0x02, 0x04, 0x08⟩, ⟨0x10, 0x20, 0x40, 0x80⟩)) =
        ⟨0, 0, 0, -1⟩ := by decide
    change blendEpi16 a b 0xC0 = _
    rw [blendEpi16, hmask]
    simp [orv, andv, andnotv, Register.zipWith, Quad.zipWith]

/-- Pairs of halves are whole lanes. -/
theorem Sse41.rowOps_lawful : Sse41.rowOps.Lawful where
  rotations := rotations_lawful
  blend_cc a b := by
    have hblend : blend16 a b 0xCC = ⟨ofHalves (lowHalf a.x0) (highHalf a.x0),
        ofHalves (lowHalf b.x1) (highHalf b.x1), ofHalves (lowHalf a.x2) (highHalf a.x2),
        ofHalves (lowHalf b.x3) (highHalf b.x3)⟩ := rfl
    refine hblend.trans ?_
    simp only [ofHalves_halves]
  blend_c0 a b := by
    have hblend : blend16 a b 0xC0 = ⟨ofHalves (lowHalf a.x0) (highHalf a.x0),
        ofHalves (lowHalf a.x1) (highHalf a.x1), ofHalves (lowHalf a.x2) (highHalf a.x2),
        ofHalves (lowHalf b.x3) (highHalf b.x3)⟩ := rfl
    refine hblend.trans ?_
    simp only [ofHalves_halves]

/-! ## Transposition -/

/-- `transpose_vecs`, of four registers. -/
def transposeVecs4 {α : Type} (vecs : Quad (Quad α)) : Quad (Quad α) :=
  let ab01 := vecs.x0.unpackLo vecs.x1
  let ab23 := vecs.x0.unpackHi vecs.x1
  let cd01 := vecs.x2.unpackLo vecs.x3
  let cd23 := vecs.x2.unpackHi vecs.x3
  ⟨ab01.unpackLo64 cd01, ab01.unpackHi64 cd01, ab23.unpackLo64 cd23, ab23.unpackHi64 cd23⟩

/-- `transpose_msg_vecs`, of four inputs. -/
def transposeMsgVecs4 (inputs : List (List UInt8)) (offset : ℕ) : Vector M128 16 :=
  let load := fun k : ℕ => transposeVecs4
    ⟨loadu (inputs.getD 0 []) (offset + k * 16), loadu (inputs.getD 1 []) (offset + k * 16),
      loadu (inputs.getD 2 []) (offset + k * 16), loadu (inputs.getD 3 []) (offset + k * 16)⟩
  Rows.words ⟨load 0, load 1, load 2, load 3⟩

/-- Two registers in a row. -/
def storeuBoth (a b : M128) : Cv :=
  ⟨(storeu a).1 ++ (storeu b).1, by rw [List.length_append, (storeu a).2, (storeu b).2]⟩

/-- The halves of each chaining value, next to each other. -/
def storeCvs4 (h : Quad M128 × Quad M128) : List Cv :=
  let lo := transposeVecs4 h.1
  let hi := transposeVecs4 h.2
  [storeuBoth lo.x0 hi.x0, storeuBoth lo.x1 hi.x1, storeuBoth lo.x2 hi.x2, storeuBoth lo.x3 hi.x3]

theorem lane_transposeMsgVecs4 (inputs : List (List UInt8)) (offset : ℕ) (w : Fin 16) (i : Fin 4) :
    ((transposeMsgVecs4 inputs offset).get w).get i =
      load32 (inputs.getD i []) (offset + w * 4) := by
  fin_cases i <;> fin_cases w <;> rfl

theorem storeCvs4_eq (h : Quad M128 × Quad M128) :
    storeCvs4 h = List.ofFn fun i : Fin 4 => storeCvWords (laneCv h i) :=
  rfl

/-! ## Four inputs at a time -/

/-- What the files have in common, given their rotations. -/
def laneOps4 (rotations : Rotations M128) : LaneOps M128 where
  toRotations := rotations
  loadCounters := loadCounters ⟨0, 1, 2, 3⟩
  transposeMsgVecs := transposeMsgVecs4
  storeCvs := storeCvs4

theorem laneOps4_lawful {rotations : Rotations M128} (h : rotations.Lawful) :
    (laneOps4 rotations).Lawful where
  rotations := h
  lane_low counter incrementCounter i :=
    lane_loadCounters_low (by fin_cases i <;> rfl) counter incrementCounter
  lane_high counter incrementCounter i :=
    lane_loadCounters_high (by fin_cases i <;> rfl) (i.isLt.trans (by decide)) counter
      incrementCounter
  lane_message := lane_transposeMsgVecs4
  storeCvs_eq := storeCvs4_eq

section

variable (inputs : List (List UInt8)) (blocks : ℕ) (key : Words) (counter : UInt64)
  (incrementCounter : Bool) (flags flagsStart flagsEnd : UInt8)

/-- `blake3_compress_in_place_sse2`. -/
def Sse2.compressInPlace := compressInPlaceRows Sse2.rowOps

/-- `blake3_compress_xof_sse2`. -/
def Sse2.compressXof := compressXofRows Sse2.rowOps

/-- `blake3_hash_many_sse2`. -/
def Sse2.hashMany : List Cv :=
  hashWide blocks key incrementCounter flags flagsStart flagsEnd (laneOps4 rotations)
    (hashSingly blocks key incrementCounter flags flagsStart flagsEnd compressInPlace) inputs
    counter

/-- `blake3_compress_in_place_sse41`. -/
def Sse41.compressInPlace := compressInPlaceRows Sse41.rowOps

/-- `blake3_compress_xof_sse41`. -/
def Sse41.compressXof := compressXofRows Sse41.rowOps

/-- `blake3_hash_many_sse41`. -/
def Sse41.hashMany : List Cv :=
  hashWide blocks key incrementCounter flags flagsStart flagsEnd (laneOps4 rotations)
    (hashSingly blocks key incrementCounter flags flagsStart flagsEnd compressInPlace) inputs
    counter

theorem Sse2.hashMany_eq :
    Sse2.hashMany inputs blocks key counter incrementCounter flags flagsStart flagsEnd =
      hashManyPortable inputs blocks key counter incrementCounter flags flagsStart flagsEnd := by
  refine hashWide_eq blocks key incrementCounter flags flagsStart flagsEnd
    (laneOps4_lawful rotations_lawful) (by decide) (fun inputs counter => ?_) inputs counter
  rw [compressInPlace, compressInPlaceRows_eq rowOps_lawful, hashSingly_eq]

theorem Sse41.hashMany_eq :
    Sse41.hashMany inputs blocks key counter incrementCounter flags flagsStart flagsEnd =
      hashManyPortable inputs blocks key counter incrementCounter flags flagsStart flagsEnd := by
  refine hashWide_eq blocks key incrementCounter flags flagsStart flagsEnd
    (laneOps4_lawful rotations_lawful) (by decide) (fun inputs counter => ?_) inputs counter
  rw [compressInPlace, compressInPlaceRows_eq rowOps_lawful, hashSingly_eq]

end

end HybridPqc.Blake3
