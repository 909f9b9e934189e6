import HybridPqc.Blake3.Avx2

/-!
# AVX-512

`blake3_avx512.c`, with four, eight or sixteen inputs at a time, and as many blocks of output.
Lanes rotate in one instruction. The counters of four and of eight lanes are added in 64 bits;
those of sixteen lanes are not, and the carries come from the highest bits of the low words
(`carry_eq`).
-/

namespace HybridPqc.Blake3.Avx512

open Simd Register

/-- `rot16_128`, `rot12_128` and so on, for registers of any width. -/
def rotations (W : Type) [Register W] : Rotations W :=
  ⟨(ror · 16), (ror · 12), (ror · 8), (ror · 7)⟩

def rowOps : RowOps := ⟨rotations M128, blend16⟩

theorem rotations_lawful (W : Type) [Register W] : (rotations W).Lawful where
  rot16_eq _ := rfl
  rot12_eq _ := rfl
  rot8_eq _ := rfl
  rot7_eq _ := rfl

theorem rowOps_lawful : rowOps.Lawful where
  rotations := rotations_lawful M128
  blend_cc := Sse41.rowOps_lawful.blend_cc
  blend_c0 := Sse41.rowOps_lawful.blend_c0

/-! ## Counters -/

/-- The counters of four lanes of 64 bits. -/
def counters64 (deltas : Quad UInt64) (counter : UInt64) (incrementCounter : Bool) : Quad UInt64 :=
  let maskVec : Quad UInt64 := .set1 (if incrementCounter then ~~~0 else 0)
  let deltas := maskVec.zipWith (· &&& ·) deltas
  (Quad.set1 counter).zipWith (· + ·) deltas

/-- `_mm256_cvtepi64_epi32`. -/
def cvtepi64 (a : Quad UInt64) : M128 := a.map UInt64.toUInt32

/-- `_mm256_srli_epi64`. -/
def srli64 (a : Quad UInt64) (n : UInt64) : Quad UInt64 := a.map (· >>> n)

def loadCounters4 (counter : UInt64) (incrementCounter : Bool) : M128 × M128 :=
  let counters := counters64 ⟨0, 1, 2, 3⟩ counter incrementCounter
  (cvtepi64 counters, cvtepi64 (srli64 counters 32))

def loadCounters8 (counter : UInt64) (incrementCounter : Bool) : M256 × M256 :=
  let lo := counters64 ⟨0, 1, 2, 3⟩ counter incrementCounter
  let hi := counters64 ⟨4, 5, 6, 7⟩ counter incrementCounter
  ((cvtepi64 lo, cvtepi64 hi), (cvtepi64 (srli64 lo 32), cvtepi64 (srli64 hi 32)))

def loadCounters16 (counter : UInt64) (incrementCounter : Bool) : M512 × M512 :=
  let mask : M512 := set1 (0 - if incrementCounter then 1 else 0)
  let deltas : M512 := ⟨⟨0, 1, 2, 3⟩, ⟨4, 5, 6, 7⟩, ⟨8, 9, 10, 11⟩, ⟨12, 13, 14, 15⟩⟩
  let maskedDeltas := andv deltas mask
  let lowWords := addv (set1 counter.toUInt32) maskedDeltas
  -- `andnot` inverts what is to be 0 after the addition
  let carries := srli (andnotv lowWords (set1 counter.toUInt32)) 31
  let highWords := addv (set1 (counter >>> 32).toUInt32) carries
  (lowWords, highWords)

theorem get_counters64 {deltas : Quad UInt64} {i : Fin 4} {k : ℕ}
    (hk : deltas.get i = UInt64.ofNat k) (counter : UInt64) (incrementCounter : Bool) :
    (counters64 deltas counter incrementCounter).get i =
      laneCounter counter incrementCounter k := by
  rw [counters64, Quad.get_zipWith, Quad.get_zipWith, Quad.get_set1, Quad.get_set1, hk]
  cases incrementCounter
  · simp [laneCounter]
  · simp [laneCounter]

theorem get_cvtepi64 {deltas : Quad UInt64} {i : Fin 4} {k : ℕ}
    (hk : deltas.get i = UInt64.ofNat k) (counter : UInt64) (incrementCounter : Bool) :
    (cvtepi64 (counters64 deltas counter incrementCounter)).get i =
      counterLow (laneCounter counter incrementCounter k) := by
  rw [cvtepi64, Quad.get_map, get_counters64 hk, counterLow]

theorem get_cvtepi64_srli64 {deltas : Quad UInt64} {i : Fin 4} {k : ℕ}
    (hk : deltas.get i = UInt64.ofNat k) (counter : UInt64) (incrementCounter : Bool) :
    (cvtepi64 (srli64 (counters64 deltas counter incrementCounter) 32)).get i =
      counterHigh (laneCounter counter incrementCounter k) := by
  rw [cvtepi64, srli64, Quad.get_map, Quad.get_map, get_counters64 hk, counterHigh]

theorem shiftRight_31 (x : UInt32) : x >>> 31 = if x.toBitVec.msb then 1 else 0 := by
  have hlt := x.toNat_lt
  have hshift : (31 : UInt32).toNat % 32 = 31 := rfl
  apply UInt32.toNat_inj.1
  rw [UInt32.toNat_shiftRight, hshift, Nat.shiftRight_eq_div_pow, BitVec.msb_eq_decide,
    UInt32.toNat_toBitVec]
  by_cases h : 2 ^ 31 ≤ x.toNat
  · have hone : (1 : UInt32).toNat = 1 := rfl
    rw [if_pos (decide_eq_true h), hone]
    omega
  · have hzero : (0 : UInt32).toNat = 0 := rfl
    rw [if_neg (by simpa using h), hzero]
    omega

/-- The carry is 1 if the highest bit was 1 before the addition and is 0 after it. -/
theorem carry_eq (c : UInt32) {n : ℕ} (hn : n < 2 ^ 31) :
    (~~~(c + UInt32.ofNat n) &&& c) >>> 31 =
      if c + UInt32.ofNat n < UInt32.ofNat n then 1 else 0 := by
  have hc := c.toNat_lt
  have hofNat : (UInt32.ofNat n).toNat = n := UInt32.toNat_ofNat_of_lt' (hn.trans (by decide))
  have hsum : (c + UInt32.ofNat n).toNat = (c.toNat + n) % 2 ^ 32 := by
    rw [UInt32.toNat_add, hofNat]
  have hbits : (~~~(c + UInt32.ofNat n) &&& c).toBitVec.msb =
      decide ((c + UInt32.ofNat n).toNat < 2 ^ 31 ∧ 2 ^ 31 ≤ c.toNat) := by
    rw [UInt32.toBitVec_and, UInt32.toBitVec_not, BitVec.msb_and, BitVec.msb_not,
      BitVec.msb_eq_decide, BitVec.msb_eq_decide, UInt32.toNat_toBitVec, UInt32.toNat_toBitVec,
      Bool.decide_and, ← decide_not]
    simp only [Nat.not_le]
    rfl
  rw [shiftRight_31, hbits, hsum]
  have hiff : decide ((c.toNat + n) % 2 ^ 32 < 2 ^ 31 ∧ 2 ^ 31 ≤ c.toNat) = true ↔
      c + UInt32.ofNat n < UInt32.ofNat n := by
    rw [decide_eq_true_iff, UInt32.lt_iff_toNat_lt, hsum, hofNat]
    omega
  exact if_congr hiff rfl rfl

theorem lane_loadCounters16 (counter : UInt64) (incrementCounter : Bool) (i : Fin 16) :
    lane (W := M512) (loadCounters16 counter incrementCounter).1 i =
        counterLow (laneCounter counter incrementCounter i) ∧
      lane (W := M512) (loadCounters16 counter incrementCounter).2 i =
        counterHigh (laneCounter counter incrementCounter i) := by
  have hdeltas : lane (W := M512) ⟨⟨0, 1, 2, 3⟩, ⟨4, 5, 6, 7⟩, ⟨8, 9, 10, 11⟩, ⟨12, 13, 14, 15⟩⟩ i =
      UInt32.ofNat i := by
    fin_cases i <;> rfl
  simp only [loadCounters16, addv, andv, andnotv, srli, lane_zipWith, lane_map, lane_set1, hdeltas]
  cases incrementCounter
  · constructor
    · simp [laneCounter, counterLow]
    · simp [laneCounter, counterHigh]
  · have hmask (x : UInt32) : x &&& (0 - 1) = x := UInt32.and_neg_one
    have hi : i.1 < 2 ^ 31 := i.isLt.trans (by decide)
    simp only [laneCounter, if_true, counterLow_add, counterHigh_add _ hi, hmask, carry_eq _ hi,
      and_self]

/-! ## Transposition -/

/-- `unpack_lo_128`. -/
def unpackLo128 (a b : M512) : M512 := a.shuffle2 b 0x88

/-- `unpack_hi_128`. -/
def unpackHi128 (a b : M512) : M512 := a.shuffle2 b 0xdd

/-- The first half of `transpose_vecs_512`, of four registers: each part is transposed. -/
def transposeParts (vecs : Quad M512) : Quad M512 :=
  let ab0 : M512 := vecs.x0.zipWith .unpackLo vecs.x1
  let ab2 : M512 := vecs.x0.zipWith .unpackHi vecs.x1
  let cd0 : M512 := vecs.x2.zipWith .unpackLo vecs.x3
  let cd2 : M512 := vecs.x2.zipWith .unpackHi vecs.x3
  ⟨ab0.zipWith .unpackLo64 cd0, ab0.zipWith .unpackHi64 cd0, ab2.zipWith .unpackLo64 cd2,
    ab2.zipWith .unpackHi64 cd2⟩

/-- `transpose_vecs_512`. -/
def transposeVecs16 (vecs : Rows M512) : Rows M512 :=
  let abcd := transposeParts vecs.x0
  let efgh := transposeParts vecs.x1
  let ijkl := transposeParts vecs.x2
  let mnop := transposeParts vecs.x3
  let abcdefgh0 := abcd.zipWith unpackLo128 efgh
  let abcdefgh4 := abcd.zipWith unpackHi128 efgh
  let ijklmnop0 := ijkl.zipWith unpackLo128 mnop
  let ijklmnop4 := ijkl.zipWith unpackHi128 mnop
  ⟨abcdefgh0.zipWith unpackLo128 ijklmnop0, abcdefgh4.zipWith unpackLo128 ijklmnop4,
    abcdefgh0.zipWith unpackHi128 ijklmnop0, abcdefgh4.zipWith unpackHi128 ijklmnop4⟩

/-- `loadu_512`. -/
def loadu512 (src : List UInt8) (i : ℕ) : M512 :=
  ⟨loadu src i, loadu src (i + 16), loadu src (i + 32), loadu src (i + 48)⟩

/-- `transpose_msg_vecs16`. -/
def transposeMsgVecs16 (inputs : List (List UInt8)) (offset : ℕ) : Vector M512 16 :=
  let load := fun k : ℕ => loadu512 (inputs.getD k []) offset
  Rows.words <| transposeVecs16
    ⟨⟨load 0, load 1, load 2, load 3⟩, ⟨load 4, load 5, load 6, load 7⟩,
      ⟨load 8, load 9, load 10, load 11⟩, ⟨load 12, load 13, load 14, load 15⟩⟩

/-- The end of `blake3_hash16_avx512`: the lower half of each register is stored. -/
def storeCvs16 (h : Quad M512 × Quad M512) : List Cv :=
  let padded := transposeVecs16 ⟨h.1, h.2, .set1 (set1 0), .set1 (set1 0)⟩
  (Rows.words padded).toList.map fun v => storeuBoth v.x0 v.x1

theorem lane_transposeMsgVecs16 (inputs : List (List UInt8)) (offset : ℕ) (w i : Fin 16) :
    lane (W := M512) ((transposeMsgVecs16 inputs offset).get w) i =
      load32 (inputs.getD i []) (offset + w * 4) := by
  fin_cases i <;> fin_cases w <;> rfl

theorem storeCvs16_eq (h : Quad M512 × Quad M512) :
    storeCvs16 h = List.ofFn fun i : Fin 16 => storeCvWords (laneCv h i) :=
  rfl

/-! ## Blocks of output -/

/-- The end of `blake3_xof4_avx512`. -/
def storeBlocks4 (v : Rows M128) : List UInt8 :=
  let v := v.map transposeVecs4
  (List.finRange 4).flatMap fun i =>
    (storeu (v.x0.get i)).1 ++ (storeu (v.x1.get i)).1 ++ (storeu (v.x2.get i)).1 ++
      (storeu (v.x3.get i)).1

/-- The end of `blake3_xof8_avx512`. -/
def storeBlocks8 (v : Rows M256) : List UInt8 :=
  let lo := transposeVecs8 (v.x0, v.x1)
  let hi := transposeVecs8 (v.x2, v.x3)
  let vecs := fun w : Quad M256 × Quad M256 =>
    #v[w.1.x0, w.1.x1, w.1.x2, w.1.x3, w.2.x0, w.2.x1, w.2.x2, w.2.x3]
  (List.finRange 8).flatMap fun i =>
    (storeu256 ((vecs lo).get i)).1 ++ (storeu256 ((vecs hi).get i)).1

/-- `storeu_512`. -/
def storeu512 (a : M512) : List UInt8 :=
  (storeu a.x0).1 ++ (storeu a.x1).1 ++ (storeu a.x2).1 ++ (storeu a.x3).1

/-- The end of `blake3_xof16_avx512`. -/
def storeBlocks16 (v : Rows M512) : List UInt8 :=
  let v := transposeVecs16 v
  (List.finRange 16).flatMap fun i => storeu512 ((Rows.words v).get i)

theorem storeBlocks4_eq (v : Rows M128) :
    storeBlocks4 v = (List.finRange 4).flatMap fun i =>
      (storeWords (laneRows (W := M128) v i).words).1 := by
  rw [storeBlocks4]
  congr 1
  funext i
  fin_cases i <;> rfl

theorem storeBlocks8_eq (v : Rows M256) :
    storeBlocks8 v = (List.finRange 8).flatMap fun i =>
      (storeWords (laneRows (W := M256) v i).words).1 := by
  rw [storeBlocks8]
  congr 1
  funext i
  fin_cases i <;> rfl

theorem storeBlocks16_eq (v : Rows M512) :
    storeBlocks16 v = (List.finRange 16).flatMap fun i =>
      (storeWords (laneRows (W := M512) v i).words).1 := by
  rw [storeBlocks16]
  congr 1
  funext i
  fin_cases i <;> rfl

/-! ## Four, eight and sixteen at a time -/

def ops4 : XofOps M128 where
  toRotations := rotations M128
  loadCounters := loadCounters4
  transposeMsgVecs := transposeMsgVecs4
  storeCvs := storeCvs4
  storeBlocks := storeBlocks4

def ops8 : XofOps M256 where
  toRotations := rotations M256
  loadCounters := loadCounters8
  transposeMsgVecs := transposeMsgVecs8
  storeCvs := storeCvs8
  storeBlocks := storeBlocks8

def ops16 : XofOps M512 where
  toRotations := rotations M512
  loadCounters := loadCounters16
  transposeMsgVecs := transposeMsgVecs16
  storeCvs := storeCvs16
  storeBlocks := storeBlocks16

theorem ops4_lawful : ops4.Lawful where
  rotations := rotations_lawful M128
  lane_low counter incrementCounter i :=
    get_cvtepi64 (by fin_cases i <;> rfl) counter incrementCounter
  lane_high counter incrementCounter i :=
    get_cvtepi64_srli64 (by fin_cases i <;> rfl) counter incrementCounter
  lane_message := lane_transposeMsgVecs4
  storeCvs_eq := storeCvs4_eq
  storeBlocks_eq := storeBlocks4_eq

/-- The lanes of the two parts. -/
theorem ops8_lawful : ops8.Lawful where
  rotations := rotations_lawful M256
  lane_low counter incrementCounter i := by
    fin_cases i <;> exact get_cvtepi64 rfl counter incrementCounter
  lane_high counter incrementCounter i := by
    fin_cases i <;> exact get_cvtepi64_srli64 rfl counter incrementCounter
  lane_message := lane_transposeMsgVecs8
  storeCvs_eq := storeCvs8_eq
  storeBlocks_eq := storeBlocks8_eq

theorem ops16_lawful : ops16.Lawful where
  rotations := rotations_lawful M512
  lane_low counter incrementCounter i := (lane_loadCounters16 counter incrementCounter i).1
  lane_high counter incrementCounter i := (lane_loadCounters16 counter incrementCounter i).2
  lane_message := lane_transposeMsgVecs16
  storeCvs_eq := storeCvs16_eq
  storeBlocks_eq := storeBlocks16_eq

/-- `blake3_compress_in_place_avx512`. -/
def compressInPlace := compressInPlaceRows rowOps

/-- `blake3_compress_xof_avx512`. -/
def compressXof := compressXofRows rowOps

/-- `blake3_hash_many_avx512`. -/
def hashMany (inputs : List (List UInt8)) (blocks : ℕ) (key : Words) (counter : UInt64)
    (incrementCounter : Bool) (flags flagsStart flagsEnd : UInt8) : List Cv :=
  let singly := hashSingly blocks key incrementCounter flags flagsStart flagsEnd compressInPlace
  let by4 := hashWide blocks key incrementCounter flags flagsStart flagsEnd ops4.toLaneOps singly
  let by8 := hashWide blocks key incrementCounter flags flagsStart flagsEnd ops8.toLaneOps by4
  hashWide blocks key incrementCounter flags flagsStart flagsEnd ops16.toLaneOps by8 inputs counter

/-- `blake3_xof_many_avx512`. -/
def xofMany (cv : Words) (block : Block) (blockLen : UInt8) (counter : UInt64) (flags : UInt8)
    (outblocks : ℕ) : List UInt8 :=
  let singly := xofManyLanes 1 (fun counter => (compressXof cv block blockLen counter flags).1)
    fun _ _ => []
  let by4 := xofManyLanes 4 (fun counter => xofLanes ops4 cv block blockLen counter flags) singly
  let by8 := xofManyLanes 8 (fun counter => xofLanes ops8 cv block blockLen counter flags) by4
  xofManyLanes 16 (fun counter => xofLanes ops16 cv block blockLen counter flags) by8 counter
    outblocks

theorem hashMany_eq (inputs : List (List UInt8)) (blocks : ℕ) (key : Words) (counter : UInt64)
    (incrementCounter : Bool) (flags flagsStart flagsEnd : UInt8) :
    hashMany inputs blocks key counter incrementCounter flags flagsStart flagsEnd =
      hashManyPortable inputs blocks key counter incrementCounter flags flagsStart flagsEnd := by
  refine hashWide_eq blocks key incrementCounter flags flagsStart flagsEnd ops16_lawful.lanes
    (by decide) (fun inputs counter => ?_) inputs counter
  refine hashWide_eq blocks key incrementCounter flags flagsStart flagsEnd ops8_lawful.lanes
    (by decide) (fun inputs counter => ?_) inputs counter
  refine hashWide_eq blocks key incrementCounter flags flagsStart flagsEnd ops4_lawful.lanes
    (by decide) (fun inputs counter => ?_) inputs counter
  rw [compressInPlace, compressInPlaceRows_eq rowOps_lawful, hashSingly_eq]

theorem xofMany_eq (cv : Words) (block : Block) (blockLen : UInt8) (counter : UInt64)
    (flags : UInt8) (outblocks : ℕ) :
    xofMany cv block blockLen counter flags outblocks =
      xofManyLoop compressXofPortable cv block blockLen counter flags outblocks := by
  let block1 := fun counter => (compressXofPortable cv block blockLen counter flags).1
  refine xofManyLanes_eq (f := block1)
    (fun counter => (xofLanes_eq ops16_lawful cv block blockLen counter flags).trans ?_)
    (fun counter outblocks _ => ?_) (show 0 < 16 by decide) counter outblocks
  · exact flatMap_finRange 16 fun i => block1 (counter + UInt64.ofNat i)
  refine xofManyLanes_eq (f := block1)
    (fun counter => (xofLanes_eq ops8_lawful cv block blockLen counter flags).trans ?_)
    (fun counter outblocks _ => ?_) (show 0 < 8 by decide) counter outblocks
  · exact flatMap_finRange 8 fun i => block1 (counter + UInt64.ofNat i)
  refine xofManyLanes_eq (f := block1)
    (fun counter => (xofLanes_eq ops4_lawful cv block blockLen counter flags).trans ?_)
    (fun counter outblocks _ => ?_) (show 0 < 4 by decide) counter outblocks
  · exact flatMap_finRange 4 fun i => block1 (counter + UInt64.ofNat i)
  refine xofManyLanes_eq (f := block1) (fun counter => ?_) (fun counter outblocks h => ?_)
    Nat.one_pos counter outblocks
  · rw [compressXof, compressXofRows_eq rowOps_lawful]
    simp [block1]
  · rw [Nat.lt_one_iff.1 h]
    rfl

end HybridPqc.Blake3.Avx512
