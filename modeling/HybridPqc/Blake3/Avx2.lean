import HybridPqc.Blake3.Sse

/-!
# AVX2

`blake3_avx2.c`, with eight inputs at a time; what is left is handed to `blake3_sse41.c`. The
instructions work on the two parts of a register separately, but for the last step of the
transposition.
-/

namespace HybridPqc.Blake3

open Simd Register

/-! ## Transposition -/

/-- `_mm256_permute2x128_si256`, with controls that clear nothing. -/
def permute2x128 (a b : M256) (imm8 : ℕ) : M256 :=
  let select := fun control : ℕ =>
    if control = 0 then a.1 else if control = 1 then a.2 else if control = 2 then b.1 else b.2
  (select (imm8 % 4), select (imm8 / 16 % 4))

/-- An instruction on both parts. -/
def inParts (f : M128 → M128 → M128) (a b : M256) : M256 := (f a.1 b.1, f a.2 b.2)

/-- `transpose_vecs`, of eight registers. -/
def transposeVecs8 (vecs : Quad M256 × Quad M256) : Quad M256 × Quad M256 :=
  let ab0145 := inParts .unpackLo vecs.1.x0 vecs.1.x1
  let ab2367 := inParts .unpackHi vecs.1.x0 vecs.1.x1
  let cd0145 := inParts .unpackLo vecs.1.x2 vecs.1.x3
  let cd2367 := inParts .unpackHi vecs.1.x2 vecs.1.x3
  let ef0145 := inParts .unpackLo vecs.2.x0 vecs.2.x1
  let ef2367 := inParts .unpackHi vecs.2.x0 vecs.2.x1
  let gh0145 := inParts .unpackLo vecs.2.x2 vecs.2.x3
  let gh2367 := inParts .unpackHi vecs.2.x2 vecs.2.x3
  let abcd04 := inParts .unpackLo64 ab0145 cd0145
  let abcd15 := inParts .unpackHi64 ab0145 cd0145
  let abcd26 := inParts .unpackLo64 ab2367 cd2367
  let abcd37 := inParts .unpackHi64 ab2367 cd2367
  let efgh04 := inParts .unpackLo64 ef0145 gh0145
  let efgh15 := inParts .unpackHi64 ef0145 gh0145
  let efgh26 := inParts .unpackLo64 ef2367 gh2367
  let efgh37 := inParts .unpackHi64 ef2367 gh2367
  (⟨permute2x128 abcd04 efgh04 0x20, permute2x128 abcd15 efgh15 0x20,
      permute2x128 abcd26 efgh26 0x20, permute2x128 abcd37 efgh37 0x20⟩,
    ⟨permute2x128 abcd04 efgh04 0x31, permute2x128 abcd15 efgh15 0x31,
      permute2x128 abcd26 efgh26 0x31, permute2x128 abcd37 efgh37 0x31⟩)

/-- `loadu`, of 32 bytes. -/
def loadu256 (src : List UInt8) (i : ℕ) : M256 := (loadu src i, loadu src (i + 16))

/-- `transpose_msg_vecs`, of eight inputs. -/
def transposeMsgVecs8 (inputs : List (List UInt8)) (offset : ℕ) : Vector M256 16 :=
  let load := fun k : ℕ => transposeVecs8
    (⟨loadu256 (inputs.getD 0 []) (offset + k * 32), loadu256 (inputs.getD 1 []) (offset + k * 32),
        loadu256 (inputs.getD 2 []) (offset + k * 32),
        loadu256 (inputs.getD 3 []) (offset + k * 32)⟩,
      ⟨loadu256 (inputs.getD 4 []) (offset + k * 32), loadu256 (inputs.getD 5 []) (offset + k * 32),
        loadu256 (inputs.getD 6 []) (offset + k * 32),
        loadu256 (inputs.getD 7 []) (offset + k * 32)⟩)
  Rows.words ⟨(load 0).1, (load 0).2, (load 1).1, (load 1).2⟩

/-- `storeu`, of 32 bytes. -/
def storeu256 (a : M256) : Cv := storeuBoth a.1 a.2

def storeCvs8 (h : Quad M256 × Quad M256) : List Cv :=
  let h := transposeVecs8 h
  [storeu256 h.1.x0, storeu256 h.1.x1, storeu256 h.1.x2, storeu256 h.1.x3, storeu256 h.2.x0,
    storeu256 h.2.x1, storeu256 h.2.x2, storeu256 h.2.x3]

theorem lane_transposeMsgVecs8 (inputs : List (List UInt8)) (offset : ℕ) (w : Fin 16) (i : Fin 8) :
    lane (W := M256) ((transposeMsgVecs8 inputs offset).get w) i =
      load32 (inputs.getD i []) (offset + w * 4) := by
  fin_cases i <;> fin_cases w <;> rfl

theorem storeCvs8_eq (h : Quad M256 × Quad M256) :
    storeCvs8 h = List.ofFn fun i : Fin 8 => storeCvWords (laneCv h i) :=
  rfl

/-! ## Eight inputs at a time -/

namespace Avx2

def rot16 (x : M256) : M256 := (Sse41.rot16 x.1, Sse41.rot16 x.2)

def rot12 (x : M256) : M256 := orv (srli x 12) (slli x (32 - 12))

def rot8 (x : M256) : M256 := (Sse41.rot8 x.1, Sse41.rot8 x.2)

def rot7 (x : M256) : M256 := orv (srli x 7) (slli x (32 - 7))

def rotations : Rotations M256 := ⟨rot16, rot12, rot8, rot7⟩

def laneOps : LaneOps M256 where
  toRotations := rotations
  loadCounters := loadCounters (⟨0, 1, 2, 3⟩, ⟨4, 5, 6, 7⟩)
  transposeMsgVecs := transposeMsgVecs8
  storeCvs := storeCvs8

/-- `blake3_hash_many_avx2`. -/
def hashMany (inputs : List (List UInt8)) (blocks : ℕ) (key : Words) (counter : UInt64)
    (incrementCounter : Bool) (flags flagsStart flagsEnd : UInt8) : List Cv :=
  hashWide blocks key incrementCounter flags flagsStart flagsEnd laneOps
    (fun inputs counter => Sse41.hashMany inputs blocks key counter incrementCounter flags
      flagsStart flagsEnd)
    inputs counter

theorem rotations_lawful : Rotations.Lawful rotations where
  rot16_eq a := Prod.ext (shuffle8_rotate16 a.1) (shuffle8_rotate16 a.2)
  rot12_eq _ := rfl
  rot8_eq a := Prod.ext (shuffle8_rotate8 a.1) (shuffle8_rotate8 a.2)
  rot7_eq _ := rfl

theorem laneOps_lawful : laneOps.Lawful where
  rotations := rotations_lawful
  lane_low counter incrementCounter i :=
    lane_loadCounters_low (by fin_cases i <;> rfl) counter incrementCounter
  lane_high counter incrementCounter i :=
    lane_loadCounters_high (by fin_cases i <;> rfl) (i.isLt.trans (by decide)) counter
      incrementCounter
  lane_message := lane_transposeMsgVecs8
  storeCvs_eq := storeCvs8_eq

theorem hashMany_eq (inputs : List (List UInt8)) (blocks : ℕ) (key : Words) (counter : UInt64)
    (incrementCounter : Bool) (flags flagsStart flagsEnd : UInt8) :
    hashMany inputs blocks key counter incrementCounter flags flagsStart flagsEnd =
      hashManyPortable inputs blocks key counter incrementCounter flags flagsStart flagsEnd :=
  hashWide_eq blocks key incrementCounter flags flagsStart flagsEnd laneOps_lawful (by decide)
    (fun inputs counter => Sse41.hashMany_eq inputs blocks key counter incrementCounter flags
      flagsStart flagsEnd)
    inputs counter

end Avx2

end HybridPqc.Blake3
