import HybridPqc.Blake3.Chunk
import HybridPqc.Blake3.Rows
import Mathlib.Tactic.IntervalCases

/-!
# Inputs in lanes

Several inputs are hashed at a time, one in each lane of sixteen registers (`hashLanes`, as
`blake3_hash4_sse2` and its likes have it). The message is loaded and transposed, so that the
words of an input come into its lane, and the counters are added lane by lane.

Each lane computes what `blake3_portable.c` does (`hashLanes_eq`), and so does a loop that takes
as many inputs at a time as it can (`hashManyLoop_eq`).
-/

namespace HybridPqc.Blake3

open Simd Register

variable {W : Type} [Register W]

/-! ## Rounds in lanes -/

/-- `round_fn`, four statements at a time. -/
def roundLanes (rots : Rotations W) (v : Rows W) (m : Vector W 16) (r : Fin 7) : Rows W :=
  let m := scheduled m r
  let a := v.x0
  let b := v.x1
  let c := v.x2
  let d := v.x3
  let a := a.zipWith addv m.x0
  let a := a.zipWith addv b
  let d := d.zipWith xorv a
  let d := d.map rots.rot16
  let c := c.zipWith addv d
  let b := b.zipWith xorv c
  let b := b.map rots.rot12
  let a := a.zipWith addv m.x1
  let a := a.zipWith addv b
  let d := d.zipWith xorv a
  let d := d.map rots.rot8
  let c := c.zipWith addv d
  let b := b.zipWith xorv c
  let b := b.map rots.rot7
  -- the diagonals: `v[0]` with `v[5]`, and so on
  let a := a.zipWith addv m.x2
  let a := a.zipWith addv (left b)
  let d := d.zipWith xorv (left a)
  let d := d.map rots.rot16
  let c := c.zipWith addv (left d)
  let b := b.zipWith xorv (left c)
  let b := b.map rots.rot12
  let a := a.zipWith addv m.x3
  let a := a.zipWith addv (left b)
  let d := d.zipWith xorv (left a)
  let d := d.map rots.rot8
  let c := c.zipWith addv (left d)
  let b := b.zipWith xorv (left c)
  let b := b.map rots.rot7
  ⟨a, b, c, d⟩

/-- The words in a lane. -/
def laneRows (v : Rows W) (i : Fin (width W)) : Rows UInt32 := Quad.map (Quad.map (lane · i)) v

/-- A round in a lane. -/
theorem words_roundLanes {rots : Rotations W} (hrots : rots.Lawful) (v : Rows W) (m : Vector W 16)
    (r : Fin 7) (i : Fin (width W)) :
    (laneRows (roundLanes rots v m r) i).words =
      roundFn (laneRows v i).words (m.map (lane · i)) r := by
  have hget (j : Fin 16) : (m.map (lane · i)).get j = lane (m.get j) i := Vector.getElem_map ..
  rw [roundFn_words]
  congr 1
  simp only [roundLanes, laneRows, Quad.map, Quad.zipWith, left, addv, xorv, hrots.rot16_eq,
    hrots.rot12_eq, hrots.rot8_eq, hrots.rot7_eq, lane_map, lane_zipWith]
  simp only [roundRows, mixRows, halfRound, diagonal, undiagonal, scheduled, left, Quad.map,
    Quad.zipWith, Quad.ofFn, hget]

/-- The seven rounds. -/
def roundsLanes (rots : Rotations W) (v : Rows W) (m : Vector W 16) : Rows W :=
  (List.finRange 7).foldl (fun v r => roundLanes rots v m r) v

theorem words_foldl_roundLanes {rots : Rotations W} (hrots : rots.Lawful) (v : Rows W)
    (m : Vector W 16) (i : Fin (width W)) (rs : List (Fin 7)) :
    (laneRows (rs.foldl (fun v r => roundLanes rots v m r) v) i).words =
      rs.foldl (fun state r => roundFn state (m.map (lane · i)) r) (laneRows v i).words := by
  induction rs generalizing v with
  | nil => rfl
  | cons r rs ih => rw [List.foldl_cons, List.foldl_cons, ih, words_roundLanes hrots]

/-! ## Hashing in lanes -/

/-- What the files that hash several inputs at a time differ in. -/
structure LaneOps (W : Type) [Register W] extends Rotations W where
  /-- `load_counters`: the low words and the high ones. -/
  loadCounters : UInt64 → Bool → W × W
  /-- `transpose_msg_vecs`, of the block at an offset of every input. -/
  transposeMsgVecs : List (List UInt8) → ℕ → Vector W 16
  /-- The end of `blake3_hash4_sse2`: the chaining values are transposed, and stored. -/
  storeCvs : Quad W × Quad W → List Cv

/-- The counter of a lane. -/
def laneCounter (counter : UInt64) (incrementCounter : Bool) (i : ℕ) : UInt64 :=
  if incrementCounter then counter + UInt64.ofNat i else counter

/-- The chaining value in a lane. -/
def laneCv (h : Quad W × Quad W) (i : Fin (width W)) : Words :=
  #v[lane h.1.x0 i, lane h.1.x1 i, lane h.1.x2 i, lane h.1.x3 i, lane h.2.x0 i, lane h.2.x1 i,
    lane h.2.x2 i, lane h.2.x3 i]

/-- Every lane has its counter, its words of the message, and its chaining value. -/
structure LaneOps.Lawful (ops : LaneOps W) : Prop
    extends rotations : Rotations.Lawful ops.toRotations where
  lane_low (counter : UInt64) (incrementCounter : Bool) (i : Fin (width W)) :
    lane (ops.loadCounters counter incrementCounter).1 i =
      counterLow (laneCounter counter incrementCounter i)
  lane_high (counter : UInt64) (incrementCounter : Bool) (i : Fin (width W)) :
    lane (ops.loadCounters counter incrementCounter).2 i =
      counterHigh (laneCounter counter incrementCounter i)
  lane_message (inputs : List (List UInt8)) (offset : ℕ) (w : Fin 16) (i : Fin (width W)) :
    lane ((ops.transposeMsgVecs inputs offset).get w) i = load32 (inputs.getD i []) (offset + w * 4)
  storeCvs_eq (h : Quad W × Quad W) : ops.storeCvs h = List.ofFn fun i => storeCvWords (laneCv h i)

variable (ops : LaneOps W)

/-- The registers before the first round. -/
def lanesBefore (h : Quad W × Quad W) (counters : W × W) (blockLen : UInt8) (blockFlags : UInt8) :
    Rows W :=
  ⟨h.1, h.2, (lowWords iv).map set1,
    ⟨counters.1, counters.2, set1 blockLen.toUInt32, set1 blockFlags.toUInt32⟩⟩

/-- The loop of `blake3_hash4_sse2`. -/
def hashLanesLoop (inputs : List (List UInt8)) (counters : W × W) (flags flagsEnd : UInt8) :
    ℕ → ℕ → Quad W × Quad W → UInt8 → Quad W × Quad W
  | 0, _, h, _ => h
  | blocks + 1, offset, h, blockFlags =>
    let blockFlags := if blocks + 1 = 1 then blockFlags ||| flagsEnd else blockFlags
    let m := ops.transposeMsgVecs inputs offset
    let v := roundsLanes ops.toRotations (lanesBefore h counters 64 blockFlags) m
    hashLanesLoop inputs counters flags flagsEnd blocks (offset + 64)
      (v.x0.zipWith xorv v.x2, v.x1.zipWith xorv v.x3) flags

/-- `blake3_hash4_sse2`, and its likes. -/
def hashLanes (inputs : List (List UInt8)) (blocks : ℕ) (key : Words) (counter : UInt64)
    (incrementCounter : Bool) (flags flagsStart flagsEnd : UInt8) : List Cv :=
  let h : Quad W × Quad W :=
    ((lowWords key).map set1, (highWords key).map set1)
  let counters := ops.loadCounters counter incrementCounter
  ops.storeCvs
    (hashLanesLoop ops inputs counters flags flagsEnd blocks 0 h (flags ||| flagsStart))

/-- A word of a block, read where the block is. -/
theorem load32_blockOf (xs : List UInt8) (w : Fin 16) :
    load32 (blockOf xs).1 (w * 4) = load32 xs (w * 4) := by
  have hget (k : ℕ) (hk : k < 64) : (blockOf xs).1.getD k 0 = xs.getD k 0 := by
    have hlen : (xs.take 64).length ≤ 64 := by
      rw [List.length_take]
      omega
    rw [blockOf, Bytes.memcpy_val _ hlen, Bytes.zero, List.getD_eq_getElem?_getD,
      List.getD_eq_getElem?_getD]
    by_cases h : k < xs.length
    · rw [List.getElem?_append_left (by rw [List.length_take]; omega), List.getElem?_take_of_lt hk]
    · rw [List.getElem?_append_right (by rw [List.length_take]; omega),
        List.getElem?_eq_none (l := xs) (by omega)]
      simp only [List.drop_replicate, List.getElem?_replicate]
      split <;> rfl
  have hw := w.isLt
  rw [load32, load32, hget _ (by omega), hget _ (by omega), hget _ (by omega), hget _ (by omega)]

theorem load32_drop (xs : List UInt8) (n i : ℕ) : load32 (xs.drop n) i = load32 xs (n + i) := by
  simp only [load32, List.getD_eq_getElem?_getD, List.getElem?_drop, Nat.add_assoc]

theorem words_eta (ws : Words) :
    #v[ws.get 0, ws.get 1, ws.get 2, ws.get 3, ws.get 4, ws.get 5, ws.get 6, ws.get 7] = ws := by
  refine Vector.ext fun i hi => ?_
  interval_cases i <;> rfl

variable {ops} (hops : ops.Lawful)

/-- The rounds in a lane. -/
theorem words_roundsLanes {rots : Rotations W} (hrots : rots.Lawful) {v : Rows W} {m : Vector W 16}
    {i : Fin (width W)} {cv : Words} {block : Block} {blockLen : UInt8} {counter : UInt64}
    {flags : UInt8} (hv : (laneRows v i).words = initialState cv blockLen counter flags)
    (hm : m.map (lane · i) = loadBlockWords block) :
    (laneRows (roundsLanes rots v m) i).words = compressPre cv block blockLen counter flags := by
  rw [roundsLanes, words_foldl_roundLanes hrots, hv, hm]
  rfl

/-- The chaining value that is left in a lane. -/
theorem laneCv_feed {v : Rows W} {i : Fin (width W)} {state : Vector UInt32 16}
    (h : (laneRows v i).words = state) :
    laneCv (v.x0.zipWith xorv v.x2, v.x1.zipWith xorv v.x3) i =
      #v[state.get 0 ^^^ state.get 8, state.get 1 ^^^ state.get 9, state.get 2 ^^^ state.get 10,
        state.get 3 ^^^ state.get 11, state.get 4 ^^^ state.get 12, state.get 5 ^^^ state.get 13,
        state.get 6 ^^^ state.get 14, state.get 7 ^^^ state.get 15] := by
  subst h
  simp only [laneCv, Quad.zipWith, xorv, lane_zipWith]
  rfl

/-- The block of output that is left in a lane. -/
theorem words_feedXof {v : Rows W} {i : Fin (width W)} {state : Vector UInt32 16}
    (h : (laneRows v i).words = state) (cv : Words) :
    (laneRows ⟨v.x0.zipWith xorv v.x2, v.x1.zipWith xorv v.x3,
        v.x2.zipWith xorv ((lowWords cv).map set1),
        v.x3.zipWith xorv ((highWords cv).map set1)⟩ i).words =
      #v[state.get 0 ^^^ state.get 8, state.get 1 ^^^ state.get 9, state.get 2 ^^^ state.get 10,
        state.get 3 ^^^ state.get 11, state.get 4 ^^^ state.get 12, state.get 5 ^^^ state.get 13,
        state.get 6 ^^^ state.get 14, state.get 7 ^^^ state.get 15, state.get 8 ^^^ cv.get 0,
        state.get 9 ^^^ cv.get 1, state.get 10 ^^^ cv.get 2, state.get 11 ^^^ cv.get 3,
        state.get 12 ^^^ cv.get 4, state.get 13 ^^^ cv.get 5, state.get 14 ^^^ cv.get 6,
        state.get 15 ^^^ cv.get 7] := by
  subst h
  simp only [laneRows, Quad.map, Quad.zipWith, xorv, lane_zipWith, lane_set1]
  rfl

include hops

theorem message_eq (inputs : List (List UInt8)) (offset : ℕ) (i : Fin (width W)) :
    (ops.transposeMsgVecs inputs offset).map (lane · i) =
      loadBlockWords (blockOf ((inputs.getD i []).drop offset)) := by
  refine Vector.ext fun w hw => ?_
  have hmessage := hops.lane_message inputs offset ⟨w, hw⟩ i
  have hblock := load32_blockOf ((inputs.getD i []).drop offset) ⟨w, hw⟩
  rw [loadBlockWords, Vector.getElem_map, Vector.getElem_ofFn, hblock, load32_drop]
  exact hmessage

theorem lanesBefore_eq (h : Quad W × Quad W) (counter : UInt64) (incrementCounter : Bool)
    (blockLen blockFlags : UInt8) (i : Fin (width W)) :
    (laneRows (lanesBefore h (ops.loadCounters counter incrementCounter) blockLen blockFlags)
        i).words =
      initialState (laneCv h i) blockLen (laneCounter counter incrementCounter i) blockFlags := by
  simp only [lanesBefore, laneRows, Quad.map, lane_set1, hops.lane_low, hops.lane_high]
  rfl

/-- A lane goes on as the portable implementation does with its input. -/
theorem laneCv_hashLanesLoop (inputs : List (List UInt8)) (counter : UInt64)
    (incrementCounter : Bool) (flags flagsEnd : UInt8) (i : Fin (width W)) (blocks offset : ℕ)
    (h : Quad W × Quad W) (blockFlags : UInt8) :
    laneCv (hashLanesLoop ops inputs (ops.loadCounters counter incrementCounter) flags flagsEnd
        blocks offset h blockFlags) i =
      hashOneLoop (laneCounter counter incrementCounter i) flags flagsEnd blocks (laneCv h i)
        ((inputs.getD i []).drop offset) blockFlags := by
  induction blocks generalizing offset h blockFlags with
  | zero => rfl
  | succ blocks ih =>
    rw [hashLanesLoop, hashOneLoop, ih, List.drop_drop]
    congr 1
    exact laneCv_feed (words_roundsLanes hops.rotations
      (lanesBefore_eq hops h counter incrementCounter 64 _ i) (message_eq hops inputs offset i))

/-- Every lane computes what the portable implementation does with its input. -/
theorem hashLanes_eq (inputs : List (List UInt8)) (blocks : ℕ) (key : Words) (counter : UInt64)
    (incrementCounter : Bool) (flags flagsStart flagsEnd : UInt8) :
    hashLanes ops inputs blocks key counter incrementCounter flags flagsStart flagsEnd =
      List.ofFn fun i : Fin (width W) =>
        hashOnePortable (inputs.getD i []) blocks key (laneCounter counter incrementCounter i)
          flags flagsStart flagsEnd := by
  rw [hashLanes, hops.storeCvs_eq]
  congr 1
  funext i
  rw [laneCv_hashLanesLoop hops, hashOnePortable, List.drop_zero]
  congr 2
  simp only [laneCv, Quad.map, lane_set1]
  exact words_eta key

/-! ## Output in lanes -/

omit hops

/-- Where several blocks of output are made at a time: their words are transposed, and
    stored. -/
structure XofOps (W : Type) [Register W] extends LaneOps W where
  storeBlocks : Rows W → List UInt8

/-- Every lane has its block. -/
structure XofOps.Lawful (ops : XofOps W) : Prop
    extends lanes : LaneOps.Lawful ops.toLaneOps where
  storeBlocks_eq (v : Rows W) : ops.storeBlocks v =
    (List.finRange (width W)).flatMap fun i => (storeWords (laneRows v i).words).1

/-- `blake3_xof4_avx512`, and its likes. -/
def xofLanes (ops : XofOps W) (cv : Words) (block : Block) (blockLen : UInt8) (counter : UInt64)
    (flags : UInt8) : List UInt8 :=
  let h : Quad W × Quad W :=
    ((lowWords cv).map set1, (highWords cv).map set1)
  let m := (loadBlockWords block).map set1
  let counters := ops.loadCounters counter true
  let v := roundsLanes ops.toRotations (lanesBefore h counters blockLen flags) m
  ops.storeBlocks ⟨v.x0.zipWith xorv v.x2, v.x1.zipWith xorv v.x3, v.x2.zipWith xorv h.1,
    v.x3.zipWith xorv h.2⟩

/-- Every lane makes the block that the portable implementation makes with its counter. -/
theorem xofLanes_eq {ops : XofOps W} (hops : ops.Lawful) (cv : Words) (block : Block)
    (blockLen : UInt8) (counter : UInt64) (flags : UInt8) :
    xofLanes ops cv block blockLen counter flags =
      (List.finRange (width W)).flatMap fun i : Fin (width W) =>
        (compressXofPortable cv block blockLen (counter + UInt64.ofNat i) flags).1 := by
  rw [xofLanes, hops.storeBlocks_eq]
  congr 1
  funext i
  have hm : ((loadBlockWords block).map set1).map (lane (W := W) · i) = loadBlockWords block := by
    refine Vector.ext fun w hw => ?_
    rw [Vector.getElem_map, Vector.getElem_map, lane_set1]
  have hbefore := lanesBefore_eq hops.lanes
    ((lowWords cv).map set1, (highWords cv).map set1) counter true blockLen flags i
  have hcv : laneCv (W := W) ((lowWords cv).map set1, (highWords cv).map set1) i = cv := by
    simp only [laneCv, Quad.map, lane_set1]
    exact words_eta cv
  rw [hcv] at hbefore
  exact congrArg (fun ws => (storeWords ws).1)
    (words_feedXof (words_roundsLanes hops.rotations hbefore hm) cv)

/-! ## As many at a time as there are lanes -/

/-- A loop of `blake3_hash_many_sse2`, which takes `degree` inputs at a time, and what comes
    after it. -/
def hashManyLoop (degree : ℕ) (hash rest : List (List UInt8) → UInt64 → List Cv)
    (incrementCounter : Bool) (inputs : List (List UInt8)) (counter : UInt64) : List Cv :=
  if _h : 0 < degree ∧ degree ≤ inputs.length then
    hash inputs counter ++ hashManyLoop degree hash rest incrementCounter (inputs.drop degree)
      (laneCounter counter incrementCounter degree)
  else rest inputs counter
termination_by inputs.length
decreasing_by simp only [List.length_drop]; omega

/-- A loop of `blake3_xof_many_avx512`, which makes `degree` blocks at a time, and what comes
    after it. -/
def xofManyLanes (degree : ℕ) (xof : UInt64 → List UInt8) (rest : UInt64 → ℕ → List UInt8)
    (counter : UInt64) (outblocks : ℕ) : List UInt8 :=
  if _h : 0 < degree ∧ degree ≤ outblocks then
    xof counter ++ xofManyLanes degree xof rest (counter + UInt64.ofNat degree)
      (outblocks - degree)
  else rest counter outblocks
termination_by outblocks

/-- `hash_one_sse2`, and its likes. -/
def hashOneRows (compressInPlace : Words → Block → UInt8 → UInt64 → UInt8 → Words)
    (counter : UInt64) (flags flagsEnd : UInt8) : ℕ → Words → List UInt8 → UInt8 → Words
  | 0, cv, _, _ => cv
  | blocks + 1, cv, input, blockFlags =>
    let blockFlags := if blocks + 1 = 1 then blockFlags ||| flagsEnd else blockFlags
    hashOneRows compressInPlace counter flags flagsEnd blocks
      (compressInPlace cv (blockOf input) 64 counter blockFlags) (input.drop 64) flags

theorem hashOneRows_eq : hashOneRows compressInPlacePortable = hashOneLoop := by
  funext counter flags flagsEnd blocks
  induction blocks with
  | zero => rfl
  | succ blocks ih =>
    funext cv input blockFlags
    rw [hashOneRows, hashOneLoop, ih]

theorem laneCounter_add (counter : UInt64) (incrementCounter : Bool) (m n : ℕ) :
    laneCounter (laneCounter counter incrementCounter m) incrementCounter n =
      laneCounter counter incrementCounter (m + n) := by
  cases incrementCounter
  · rfl
  · exact (UInt64.add_assoc ..).trans (congrArg _ (UInt64.ofNat_add ..).symm)

theorem laneCounter_zero (counter : UInt64) (incrementCounter : Bool) :
    laneCounter counter incrementCounter 0 = counter := by
  cases incrementCounter
  · rfl
  · exact UInt64.add_zero counter

section

variable (blocks : ℕ) (key : Words) (incrementCounter : Bool) (flags flagsStart flagsEnd : UInt8)

/-- The inputs one by one, each with its counter. -/
theorem hashManyPortable_append (xs ys : List (List UInt8)) (counter : UInt64) :
    hashManyPortable (xs ++ ys) blocks key counter incrementCounter flags flagsStart flagsEnd =
      hashManyPortable xs blocks key counter incrementCounter flags flagsStart flagsEnd ++
        hashManyPortable ys blocks key (laneCounter counter incrementCounter xs.length)
          incrementCounter flags flagsStart flagsEnd := by
  induction xs generalizing counter with
  | nil =>
    rw [List.nil_append, List.length_nil, laneCounter_zero, hashManyPortable, List.nil_append]
  | cons x xs ih =>
    rw [List.cons_append, hashManyPortable, hashManyPortable, ih, List.cons_append]
    have hone := laneCounter_add counter incrementCounter 1 xs.length
    rw [Nat.add_comm] at hone
    rw [List.length_cons, ← hone]
    rfl

theorem hashManyPortable_eq_ofFn (n : ℕ) (xs : List (List UInt8)) (hn : xs.length = n)
    (counter : UInt64) :
    hashManyPortable xs blocks key counter incrementCounter flags flagsStart flagsEnd =
      List.ofFn fun i : Fin n => hashOnePortable (xs.getD i []) blocks key
        (laneCounter counter incrementCounter i) flags flagsStart flagsEnd := by
  induction n generalizing xs counter with
  | zero =>
    rw [List.length_eq_zero_iff.1 hn]
    rfl
  | succ n ih =>
    obtain ⟨x, xs, rfl⟩ := List.exists_cons_of_length_eq_add_one hn
    have hcounter : (if incrementCounter then counter + 1 else counter) =
        laneCounter counter incrementCounter 1 := rfl
    rw [hashManyPortable, hcounter, ih xs (Nat.succ.inj hn), List.ofFn_succ]
    congr 2
    · exact (laneCounter_zero counter incrementCounter).symm
    · funext i
      rw [laneCounter_add, Nat.add_comm]
      rfl

/-- A loop over lanes and what comes after it leave what the portable implementation does. -/
theorem hashManyLoop_eq {degree : ℕ} {hash rest : List (List UInt8) → UInt64 → List Cv}
    (hhash : ∀ inputs counter, degree ≤ inputs.length → hash inputs counter =
      List.ofFn fun i : Fin degree => hashOnePortable (inputs.getD i []) blocks key
        (laneCounter counter incrementCounter i) flags flagsStart flagsEnd)
    (hrest : ∀ inputs counter, inputs.length < degree → rest inputs counter =
      hashManyPortable inputs blocks key counter incrementCounter flags flagsStart flagsEnd)
    (hdegree : 0 < degree) (inputs : List (List UInt8)) (counter : UInt64) :
    hashManyLoop degree hash rest incrementCounter inputs counter =
      hashManyPortable inputs blocks key counter incrementCounter flags flagsStart flagsEnd := by
  induction inputs, counter using hashManyLoop.induct degree incrementCounter with
  | case1 inputs counter h ih =>
    have hlen : (inputs.take degree).length = degree := List.length_take_of_le h.2
    rw [hashManyLoop, dif_pos h, ih, hhash inputs counter h.2]
    conv_rhs => rw [← List.take_append_drop degree inputs]
    rw [hashManyPortable_append, hlen,
      hashManyPortable_eq_ofFn blocks key incrementCounter flags flagsStart flagsEnd degree _ hlen]
    congr 2
    funext i
    rw [List.getD_eq_getElem?_getD, List.getD_eq_getElem?_getD, List.getElem?_take_of_lt i.isLt]
  | case2 inputs counter h =>
    rw [hashManyLoop, dif_neg h]
    exact hrest inputs counter (by omega)

/-- `hash_one_sse2`, and its likes. -/
def hashOneWith (compressInPlace : Words → Block → UInt8 → UInt64 → UInt8 → Words)
    (input : List UInt8) (counter : UInt64) : Cv :=
  storeCvWords
    (hashOneRows compressInPlace counter flags flagsEnd blocks key input (flags ||| flagsStart))

/-- The last loop of `blake3_hash_many_sse2`, and its likes: one input at a time. -/
def hashSingly (compressInPlace : Words → Block → UInt8 → UInt64 → UInt8 → Words) :
    List (List UInt8) → UInt64 → List Cv :=
  hashManyLoop 1
    (fun inputs counter =>
      [hashOneWith blocks key flags flagsStart flagsEnd compressInPlace (inputs.getD 0 []) counter])
    (fun _ _ => []) incrementCounter

/-- The loops before it, which hash an input in each lane. -/
def hashWide (ops : LaneOps W) (rest : List (List UInt8) → UInt64 → List Cv) :
    List (List UInt8) → UInt64 → List Cv :=
  hashManyLoop (width W)
    (fun inputs counter =>
      hashLanes ops inputs blocks key counter incrementCounter flags flagsStart flagsEnd)
    rest incrementCounter

theorem hashSingly_eq (inputs : List (List UInt8)) (counter : UInt64) :
    hashSingly blocks key incrementCounter flags flagsStart flagsEnd compressInPlacePortable inputs
        counter =
      hashManyPortable inputs blocks key counter incrementCounter flags flagsStart flagsEnd := by
  refine hashManyLoop_eq blocks key incrementCounter flags flagsStart flagsEnd
    (fun inputs counter _ => ?_) (fun inputs counter h => ?_) Nat.one_pos inputs counter
  · rw [List.ofFn_succ, List.ofFn_zero, hashOneWith, hashOneRows_eq]
    have hcounter : laneCounter counter incrementCounter ((0 : Fin 1) : ℕ) = counter :=
      laneCounter_zero counter incrementCounter
    rw [hcounter]
    rfl
  · rw [List.length_eq_zero_iff.1 (Nat.lt_one_iff.1 h)]
    rfl

theorem hashWide_eq {ops : LaneOps W} (hops : ops.Lawful) (hwidth : 0 < width W)
    {rest : List (List UInt8) → UInt64 → List Cv}
    (hrest : ∀ inputs counter, rest inputs counter =
      hashManyPortable inputs blocks key counter incrementCounter flags flagsStart flagsEnd)
    (inputs : List (List UInt8)) (counter : UInt64) :
    hashWide blocks key incrementCounter flags flagsStart flagsEnd ops rest inputs counter =
      hashManyPortable inputs blocks key counter incrementCounter flags flagsStart flagsEnd :=
  hashManyLoop_eq blocks key incrementCounter flags flagsStart flagsEnd
    (fun inputs counter _ => hashLanes_eq hops inputs blocks key counter incrementCounter flags
      flagsStart flagsEnd)
    (fun inputs counter _ => hrest inputs counter) hwidth inputs counter

end

/-! ## As many blocks at a time as there are lanes -/

theorem flatMap_finRange (n : ℕ) (f : ℕ → List UInt8) :
    ((List.finRange n).flatMap fun i : Fin n => f i) = (List.range n).flatMap f := by
  rw [← List.map_coe_finRange_eq_range, List.flatMap_map]

theorem xofManyLanes_eq {degree : ℕ} {xof : UInt64 → List UInt8}
    {rest : UInt64 → ℕ → List UInt8} {f : UInt64 → List UInt8}
    (hxof : ∀ counter, xof counter =
      (List.range degree).flatMap fun i => f (counter + UInt64.ofNat i))
    (hrest : ∀ counter outblocks, outblocks < degree → rest counter outblocks =
      (List.range outblocks).flatMap fun i => f (counter + UInt64.ofNat i))
    (hdegree : 0 < degree) (counter : UInt64) (outblocks : ℕ) :
    xofManyLanes degree xof rest counter outblocks =
      (List.range outblocks).flatMap fun i => f (counter + UInt64.ofNat i) := by
  induction counter, outblocks using xofManyLanes.induct degree with
  | case1 counter outblocks h ih =>
    rw [xofManyLanes, dif_pos h, ih, hxof]
    conv_rhs => rw [← Nat.add_sub_cancel' h.2, List.range_add, List.flatMap_append,
      List.flatMap_map]
    simp only [UInt64.ofNat_add, UInt64.add_assoc]
  | case2 counter outblocks h =>
    rw [xofManyLanes, dif_neg h]
    exact hrest counter outblocks (by omega)

/-! ## Counters -/

theorem counterLow_add (counter : UInt64) (n : ℕ) :
    counterLow (counter + UInt64.ofNat n) = counter.toUInt32 + UInt32.ofNat n := by
  rw [counterLow, UInt64.toUInt32_add, UInt64.toUInt32_ofNat']

/-- The low words carry exactly if they get smaller. -/
theorem counterHigh_add (counter : UInt64) {n : ℕ} (hn : n < 2 ^ 31) :
    counterHigh (counter + UInt64.ofNat n) = (counter >>> 32).toUInt32 +
      if counter.toUInt32 + UInt32.ofNat n < UInt32.ofNat n then 1 else 0 := by
  have hlt := counter.toNat_lt
  have h64 : (UInt64.ofNat n).toNat = n :=
    UInt64.toNat_ofNat_of_lt' (hn.trans (by decide))
  have h32 : (UInt32.ofNat n).toNat = n :=
    UInt32.toNat_ofNat_of_lt' (hn.trans (by decide))
  have hshift : (32 : UInt64).toNat % 64 = 32 := rfl
  have hless : counter.toUInt32 + UInt32.ofNat n < UInt32.ofNat n ↔
      (counter.toNat % 2 ^ 32 + n) % 2 ^ 32 < n := by
    rw [UInt32.lt_iff_toNat_lt, UInt32.toNat_add, UInt64.toNat_toUInt32, h32]
  apply UInt32.toNat_inj.1
  rw [counterHigh, UInt32.toNat_add, UInt64.toNat_toUInt32, UInt64.toNat_toUInt32,
    UInt64.toNat_shiftRight, UInt64.toNat_shiftRight, UInt64.toNat_add, h64, hshift,
    Nat.shiftRight_eq_div_pow, Nat.shiftRight_eq_div_pow]
  by_cases h : counter.toUInt32 + UInt32.ofNat n < UInt32.ofNat n
  · have hone : (1 : UInt32).toNat = 1 := rfl
    rw [if_pos h, hone]
    rw [hless] at h
    omega
  · have hzero : (0 : UInt32).toNat = 0 := rfl
    rw [if_neg h, hzero]
    rw [hless] at h
    omega

/-- `load_counters`, with the registers that count the lanes. -/
def loadCounters (add0 : W) (counter : UInt64) (incrementCounter : Bool) : W × W :=
  let mask : W := set1 (0 - if incrementCounter then 1 else 0)
  let add1 := andv mask add0
  let l := addv (set1 counter.toUInt32) add1
  let carry := cmpgt (xorv add1 (set1 0x80000000)) (xorv l (set1 0x80000000))
  let h := subv (set1 (counter >>> 32).toUInt32) carry
  (l, h)

section

variable {add0 : W} {i : Fin (width W)} (hadd0 : lane add0 i = UInt32.ofNat i)
include hadd0

theorem lane_loadCounters_low (counter : UInt64) (incrementCounter : Bool) :
    lane (loadCounters add0 counter incrementCounter).1 i =
      counterLow (laneCounter counter incrementCounter i) := by
  simp only [loadCounters, addv, andv, lane_zipWith, lane_set1, hadd0]
  cases incrementCounter
  · simp [laneCounter, counterLow]
  · have hmask (x : UInt32) : (0 - 1) &&& x = x := UInt32.neg_one_and
    simp only [laneCounter, if_true, counterLow_add, hmask]

theorem lane_loadCounters_high (hi : i.1 < 2 ^ 31) (counter : UInt64) (incrementCounter : Bool) :
    lane (loadCounters add0 counter incrementCounter).2 i =
      counterHigh (laneCounter counter incrementCounter i) := by
  simp only [loadCounters, addv, subv, xorv, andv, cmpgt, lane_zipWith, lane_set1, hadd0,
    signed_lt_iff]
  cases incrementCounter
  · simp [laneCounter, counterHigh]
  · have hmask (x : UInt32) : (0 - 1) &&& x = x := UInt32.neg_one_and
    simp only [laneCounter, if_true, counterHigh_add _ hi, hmask]
    rw [UInt32.sub_eq_add_neg]
    congr 1
    split_ifs <;> rfl

end

end HybridPqc.Blake3
