import HybridPqc.Blake3.Compress
import HybridPqc.Lib.Simd

/-!
# Rows

The sixteen words of the compression function, as four rows of four. Where a row is a register,
one block is compressed: the diagonals are brought into columns, and the words of the message
are permuted from round to round (`compressPreRows`, as `compress_pre` of `blake3_sse2.c`,
`blake3_sse41.c` and `blake3_avx512.c` has it).

It computes what `compress_pre` of `blake3_portable.c` does (`compressPreRows_eq`): in every
round, the registers hold the words that the schedule says (`scheduled`).
-/

namespace HybridPqc.Blake3

open Simd

/-- The words `v[0..3]`, `v[4..7]`, `v[8..11]` and `v[12..15]`. -/
abbrev Rows (α : Type) := Quad (Quad α)

/-- The words in a row. -/
def Rows.words {α : Type} (v : Rows α) : Vector α 16 :=
  #v[v.x0.x0, v.x0.x1, v.x0.x2, v.x0.x3, v.x1.x0, v.x1.x1, v.x1.x2, v.x1.x3,
    v.x2.x0, v.x2.x1, v.x2.x2, v.x2.x3, v.x3.x0, v.x3.x1, v.x3.x2, v.x3.x3]

/-- A row from its second word on. -/
def left {α : Type} (a : Quad α) : Quad α := ⟨a.x1, a.x2, a.x3, a.x0⟩

/-- The first four words of a chaining value. -/
def lowWords (ws : Words) : Quad UInt32 := ⟨ws.get 0, ws.get 1, ws.get 2, ws.get 3⟩

/-- The last four. -/
def highWords (ws : Words) : Quad UInt32 := ⟨ws.get 4, ws.get 5, ws.get 6, ws.get 7⟩

/-- The rotations of `g`, on what the words are in. -/
structure Rotations (W : Type) where
  rot16 : W → W
  rot12 : W → W
  rot8 : W → W
  rot7 : W → W

/-- Rotations rotate every lane. -/
structure Rotations.Lawful {W : Type} [Register W] (rots : Rotations W) : Prop where
  rot16_eq (a : W) : rots.rot16 a = Register.map (rotr32 · 16) a
  rot12_eq (a : W) : rots.rot12 a = Register.map (rotr32 · 12) a
  rot8_eq (a : W) : rots.rot8 a = Register.map (rotr32 · 8) a
  rot7_eq (a : W) : rots.rot7 a = Register.map (rotr32 · 7) a

/-! ## Rounds on rows -/

section

variable {W : Type}

/-- Half of `g` in every column: the rows, and two of the rotations. -/
def halfRound (add xor : W → W → W) (rotd rotb : W → W) (v : Rows W) (m : Quad W) : Rows W :=
  let a := (v.x0.zipWith add m).zipWith add v.x1
  let d := (v.x3.zipWith xor a).map rotd
  let c := v.x2.zipWith add d
  let b := (v.x1.zipWith xor c).map rotb
  ⟨a, b, c, d⟩

/-- The diagonals as columns. -/
def diagonal (v : Rows W) : Rows W := ⟨v.x0, left v.x1, left (left v.x2), left (left (left v.x3))⟩

def undiagonal (v : Rows W) : Rows W :=
  ⟨v.x0, left (left (left v.x1)), left (left v.x2), left v.x3⟩

end

/-- `g` in every column. -/
def mixRows (v : Rows UInt32) (mx my : Quad UInt32) : Rows UInt32 :=
  let v := halfRound (· + ·) (· ^^^ ·) (rotr32 · 16) (rotr32 · 12) v mx
  halfRound (· + ·) (· ^^^ ·) (rotr32 · 8) (rotr32 · 7) v my

/-- The words of the message in a round: in each half of it, for each column or diagonal. -/
def scheduled {W : Type} (msg : Vector W 16) (r : Fin 7) : Rows W :=
  let s := msgSchedule.get r
  ⟨.ofFn fun i => msg.get (s.get ⟨2 * i, by omega⟩),
    .ofFn fun i => msg.get (s.get ⟨2 * i + 1, by omega⟩),
    .ofFn fun i => msg.get (s.get ⟨2 * i + 8, by omega⟩),
    .ofFn fun i => msg.get (s.get ⟨2 * i + 9, by omega⟩)⟩

def roundRows (v m : Rows UInt32) : Rows UInt32 :=
  undiagonal (mixRows (diagonal (mixRows v m.x0 m.x1)) m.x2 m.x3)

/-- `g`, its sums in another order. -/
theorem g_eq (state : Vector UInt32 16) (a b c d : Fin 16) (x y : UInt32) :
    g state a b c d x y =
      let state := state.set a (state.get a + x + state.get b) a.isLt
      let state := state.set d (rotr32 (state.get d ^^^ state.get a) 16) d.isLt
      let state := state.set c (state.get c + state.get d) c.isLt
      let state := state.set b (rotr32 (state.get b ^^^ state.get c) 12) b.isLt
      let state := state.set a (state.get a + y + state.get b) a.isLt
      let state := state.set d (rotr32 (state.get d ^^^ state.get a) 8) d.isLt
      let state := state.set c (state.get c + state.get d) c.isLt
      state.set b (rotr32 (state.get b ^^^ state.get c) 7) b.isLt := by
  have hcomm (u v w : UInt32) : u + v + w = u + w + v := by
    rw [UInt32.add_assoc, UInt32.add_comm v, ← UInt32.add_assoc]
  rw [g, hcomm]
  dsimp only
  rw [hcomm _ _ y]
  rfl

/-- The words that `g` mixes. -/
structure Line where
  a : UInt32
  b : UInt32
  c : UInt32
  d : UInt32

def Line.mix (l : Line) (x y : UInt32) : Line :=
  let a := l.a + x + l.b
  let d := rotr32 (l.d ^^^ a) 16
  let c := l.c + d
  let b := rotr32 (l.b ^^^ c) 12
  let a := a + y + b
  let d := rotr32 (d ^^^ a) 8
  let c := c + d
  ⟨a, rotr32 (b ^^^ c) 7, c, d⟩

def Rows.column (v : Rows UInt32) (k : Fin 4) : Line :=
  ⟨v.x0.get k, v.x1.get k, v.x2.get k, v.x3.get k⟩

def Rows.setColumn (v : Rows UInt32) (k : Fin 4) (l : Line) : Rows UInt32 :=
  ⟨v.x0.set k l.a, v.x1.set k l.b, v.x2.set k l.c, v.x3.set k l.d⟩

def Rows.mixColumn (v : Rows UInt32) (k : Fin 4) (x y : UInt32) : Rows UInt32 :=
  v.setColumn k ((v.column k).mix x y)

theorem g_column (v : Rows UInt32) (k : Fin 4) (x y : UInt32) :
    g v.words ⟨k, by omega⟩ ⟨4 + k, by omega⟩ ⟨8 + k, by omega⟩ ⟨12 + k, by omega⟩ x y =
      (v.mixColumn k x y).words := by
  rw [g_eq]
  fin_cases k <;> rfl

theorem g_diagonal (v : Rows UInt32) (k : Fin 4) (x y : UInt32) :
    g (undiagonal v).words ⟨k, by omega⟩ ⟨4 + (k + 1) % 4, by omega⟩ ⟨8 + (k + 2) % 4, by omega⟩
        ⟨12 + (k + 3) % 4, by omega⟩ x y =
      (undiagonal (v.mixColumn k x y)).words := by
  rw [g_eq]
  fin_cases k <;> rfl

/-- The columns in turn. -/
theorem mixRows_eq (v : Rows UInt32) (mx my : Quad UInt32) :
    mixRows v mx my = (((v.mixColumn 0 mx.x0 my.x0).mixColumn 1 mx.x1 my.x1).mixColumn 2 mx.x2
      my.x2).mixColumn 3 mx.x3 my.x3 :=
  rfl

/-- A round of `blake3_portable.c`, on rows. -/
theorem roundFn_words (v : Rows UInt32) (msg : Vector UInt32 16) (r : Fin 7) :
    roundFn v.words msg r = (roundRows v (scheduled msg r)).words := by
  have hdiagonal (v : Rows UInt32) : v = undiagonal (diagonal v) := rfl
  rw [roundRows, mixRows_eq, mixRows_eq, ← g_diagonal, ← g_diagonal, ← g_diagonal, ← g_diagonal,
    ← hdiagonal, ← g_column, ← g_column, ← g_column, ← g_column]
  rfl

/-! ## Rows in registers -/

/-- What the files that compress a block in four registers differ in. -/
structure RowOps extends Rotations M128 where
  /-- `_mm_blend_epi16`, or what there is in its place. -/
  blend : M128 → M128 → ℕ → M128

/-- The two blends that are used exchange whole lanes. -/
structure RowOps.Lawful (ops : RowOps) : Prop
    extends rotations : Rotations.Lawful ops.toRotations where
  blend_cc (a b : M128) : ops.blend a b 0xCC = ⟨a.x0, b.x1, a.x2, b.x3⟩
  blend_c0 (a b : M128) : ops.blend a b 0xC0 = ⟨a.x0, a.x1, a.x2, b.x3⟩

/-- `loadu`, of the sixteen bytes from the `i`-th one. -/
def loadu (src : List UInt8) (i : ℕ) : M128 :=
  ⟨load32 src i, load32 src (i + 4), load32 src (i + 8), load32 src (i + 12)⟩

/-- `storeu`. -/
def storeu (a : M128) : Bytes 16 := storeWords #v[a.x0, a.x1, a.x2, a.x3]

section

variable (ops : RowOps)

def g1 (rows : Quad M128) (m : M128) : Quad M128 :=
  let row0 := addv (addv rows.x0 m) rows.x1
  let row3 := xorv rows.x3 row0
  let row3 := ops.rot16 row3
  let row2 := addv rows.x2 row3
  let row1 := xorv rows.x1 row2
  let row1 := ops.rot12 row1
  ⟨row0, row1, row2, row3⟩

def g2 (rows : Quad M128) (m : M128) : Quad M128 :=
  let row0 := addv (addv rows.x0 m) rows.x1
  let row3 := xorv rows.x3 row0
  let row3 := ops.rot8 row3
  let row2 := addv rows.x2 row3
  let row1 := xorv rows.x1 row2
  let row1 := ops.rot7 row1
  ⟨row0, row1, row2, row3⟩

/-- The diagonals are brought into columns, while `row1` stays. -/
def diagonalize (rows : Quad M128) : Quad M128 where
  x0 := rows.x0.shuffle (Quad.shuffleControl 2 1 0 3)
  x1 := rows.x1
  x2 := rows.x2.shuffle (Quad.shuffleControl 0 3 2 1)
  x3 := rows.x3.shuffle (Quad.shuffleControl 1 0 3 2)

def undiagonalize (rows : Quad M128) : Quad M128 where
  x0 := rows.x0.shuffle (Quad.shuffleControl 0 3 2 1)
  x1 := rows.x1
  x2 := rows.x2.shuffle (Quad.shuffleControl 2 1 0 3)
  x3 := rows.x3.shuffle (Quad.shuffleControl 1 0 3 2)

/-- The groups of message words of the first round, `t0` to `t3`. -/
def firstMessage (m : Quad M128) : Quad M128 :=
  let t0 := m.x0.shuffle2 m.x1 (Quad.shuffleControl 2 0 2 0)
  let t1 := m.x0.shuffle2 m.x1 (Quad.shuffleControl 3 1 3 1)
  let t2 := m.x2.shuffle2 m.x3 (Quad.shuffleControl 2 0 2 0)
  let t2 := t2.shuffle (Quad.shuffleControl 2 1 0 3)
  let t3 := m.x2.shuffle2 m.x3 (Quad.shuffleControl 3 1 3 1)
  let t3 := t3.shuffle (Quad.shuffleControl 2 1 0 3)
  ⟨t0, t1, t2, t3⟩

/-- The groups of the next round, from those of a round. -/
def nextMessage (m : Quad M128) : Quad M128 :=
  let t0 := m.x0.shuffle2 m.x1 (Quad.shuffleControl 3 1 1 2)
  let t0 := t0.shuffle (Quad.shuffleControl 0 3 2 1)
  let t1 := m.x2.shuffle2 m.x3 (Quad.shuffleControl 3 3 2 2)
  let tt := m.x0.shuffle (Quad.shuffleControl 0 0 3 3)
  let t1 := ops.blend tt t1 0xCC
  let t2 := m.x3.unpackLo64 m.x1
  let tt := ops.blend t2 m.x2 0xC0
  let t2 := tt.shuffle (Quad.shuffleControl 1 3 2 0)
  let t3 := m.x1.unpackHi m.x3
  let tt := m.x2.unpackLo t3
  let t3 := tt.shuffle (Quad.shuffleControl 0 1 3 2)
  ⟨t0, t1, t2, t3⟩

/-- A round, with its groups of message words. -/
def roundRegisters (rows t : Quad M128) : Quad M128 :=
  let rows := g1 ops rows t.x0
  let rows := g2 ops rows t.x1
  let rows := diagonalize rows
  let rows := g1 ops rows t.x2
  let rows := g2 ops rows t.x3
  undiagonalize rows

/-- `compress_pre`. -/
def compressPreRows (cv : Words) (block : Block) (blockLen : UInt8) (counter : UInt64)
    (flags : UInt8) : Quad M128 :=
  let rows : Quad M128 :=
    ⟨lowWords cv, highWords cv, lowWords iv,
      ⟨counterLow counter, counterHigh counter, blockLen.toUInt32, flags.toUInt32⟩⟩
  let m : Quad M128 := ⟨loadu block.1 0, loadu block.1 16, loadu block.1 32, loadu block.1 48⟩
  let m := firstMessage m
  let rows := roundRegisters ops rows m
  let m := nextMessage ops m
  let rows := roundRegisters ops rows m
  let m := nextMessage ops m
  let rows := roundRegisters ops rows m
  let m := nextMessage ops m
  let rows := roundRegisters ops rows m
  let m := nextMessage ops m
  let rows := roundRegisters ops rows m
  let m := nextMessage ops m
  let rows := roundRegisters ops rows m
  let m := nextMessage ops m
  roundRegisters ops rows m

/-- What `blake3_compress_in_place_sse2` leaves of the rows. -/
def feedInPlace (rows : Quad M128) : Words :=
  let lo := xorv rows.x0 rows.x2
  let hi := xorv rows.x1 rows.x3
  #v[lo.x0, lo.x1, lo.x2, lo.x3, hi.x0, hi.x1, hi.x2, hi.x3]

/-- `blake3_compress_in_place_sse2`, and its likes. -/
def compressInPlaceRows (cv : Words) (block : Block) (blockLen : UInt8) (counter : UInt64)
    (flags : UInt8) : Words :=
  feedInPlace (compressPreRows ops cv block blockLen counter flags)

/-- What `blake3_compress_xof_sse2` leaves of the rows. -/
def feedXof (rows : Quad M128) (cv : Words) : Block :=
  ⟨(storeu (xorv rows.x0 rows.x2)).1 ++ (storeu (xorv rows.x1 rows.x3)).1 ++
      (storeu (xorv rows.x2 (lowWords cv))).1 ++
      (storeu (xorv rows.x3 (highWords cv))).1, by
    simp only [List.length_append, (storeu _).2]⟩

/-- `blake3_compress_xof_sse2`, and its likes. -/
def compressXofRows (cv : Words) (block : Block) (blockLen : UInt8) (counter : UInt64)
    (flags : UInt8) : Block :=
  feedXof (compressPreRows ops cv block blockLen counter flags) cv

end

/-! ## The registers hold the words of the schedule -/

/-- The groups of a round: those of the diagonals begin with the last one. -/
def groups (msg : Vector UInt32 16) (r : Fin 7) : Quad M128 :=
  let m := scheduled msg r
  ⟨m.x0, m.x1, left (left (left m.x2)), left (left (left m.x3))⟩

theorem firstMessage_eq (block : Block) :
    firstMessage ⟨loadu block.1 0, loadu block.1 16, loadu block.1 32, loadu block.1 48⟩ =
      groups (loadBlockWords block) 0 := by
  have hget (j : Fin 16) : (loadBlockWords block).get j = load32 block.1 (j * 4) :=
    Vector.getElem_ofFn ..
  simp only [groups, scheduled, hget]
  rfl

variable {ops : RowOps} (hops : ops.Lawful)
include hops

theorem nextMessage_eq (msg : Vector UInt32 16) (r : Fin 6) :
    nextMessage ops (groups msg r.castSucc) = groups msg r.succ := by
  rw [nextMessage]
  simp only [hops.blend_cc, hops.blend_c0]
  fin_cases r <;> rfl

theorem roundRegisters_eq (rows : Quad M128) (msg : Vector UInt32 16) (r : Fin 7) :
    roundRegisters ops rows (groups msg r) = roundRows rows (scheduled msg r) := by
  rw [roundRegisters]
  simp only [g1, g2, hops.rot16_eq, hops.rot12_eq, hops.rot8_eq, hops.rot7_eq]
  rfl

/-- The rows are the words of the portable implementation. -/
theorem compressPreRows_eq (cv : Words) (block : Block) (blockLen : UInt8) (counter : UInt64)
    (flags : UInt8) :
    Rows.words (compressPreRows ops cv block blockLen counter flags) =
      compressPre cv block blockLen counter flags := by
  have hround (rows : Quad M128) (r : Fin 7) :
      Rows.words (roundRegisters ops rows (groups (loadBlockWords block) r)) =
        roundFn (Rows.words rows) (loadBlockWords block) r := by
    rw [roundRegisters_eq hops, roundFn_words]
  have hnext := nextMessage_eq hops (loadBlockWords block)
  have h1 : nextMessage ops (groups (loadBlockWords block) 0) = groups _ 1 := hnext 0
  have h2 : nextMessage ops (groups (loadBlockWords block) 1) = groups _ 2 := hnext 1
  have h3 : nextMessage ops (groups (loadBlockWords block) 2) = groups _ 3 := hnext 2
  have h4 : nextMessage ops (groups (loadBlockWords block) 3) = groups _ 4 := hnext 3
  have h5 : nextMessage ops (groups (loadBlockWords block) 4) = groups _ 5 := hnext 4
  have h6 : nextMessage ops (groups (loadBlockWords block) 5) = groups _ 6 := hnext 5
  rw [compressPreRows, firstMessage_eq, h1, h2, h3, h4, h5, h6]
  simp only [hround]
  rfl

omit hops in
theorem feedInPlace_eq {rows : Quad M128} {state : Vector UInt32 16} (h : Rows.words rows = state) :
    feedInPlace rows =
      #v[state.get 0 ^^^ state.get 8, state.get 1 ^^^ state.get 9, state.get 2 ^^^ state.get 10,
        state.get 3 ^^^ state.get 11, state.get 4 ^^^ state.get 12, state.get 5 ^^^ state.get 13,
        state.get 6 ^^^ state.get 14, state.get 7 ^^^ state.get 15] := by
  subst h
  rfl

theorem compressInPlaceRows_eq : compressInPlaceRows ops = compressInPlacePortable := by
  funext cv block blockLen counter flags
  exact feedInPlace_eq (compressPreRows_eq hops cv block blockLen counter flags)

omit hops in
theorem feedXof_eq {rows : Quad M128} {state : Vector UInt32 16} (h : Rows.words rows = state)
    (cv : Words) :
    feedXof rows cv =
      storeWords #v[state.get 0 ^^^ state.get 8, state.get 1 ^^^ state.get 9,
        state.get 2 ^^^ state.get 10, state.get 3 ^^^ state.get 11, state.get 4 ^^^ state.get 12,
        state.get 5 ^^^ state.get 13,
        state.get 6 ^^^ state.get 14, state.get 7 ^^^ state.get 15, state.get 8 ^^^ cv.get 0,
        state.get 9 ^^^ cv.get 1, state.get 10 ^^^ cv.get 2, state.get 11 ^^^ cv.get 3,
        state.get 12 ^^^ cv.get 4, state.get 13 ^^^ cv.get 5, state.get 14 ^^^ cv.get 6,
        state.get 15 ^^^ cv.get 7] := by
  subst h
  rfl

theorem compressXofRows_eq : compressXofRows ops = compressXofPortable := by
  funext cv block blockLen counter flags
  exact feedXof_eq (compressPreRows_eq hops cv block blockLen counter flags) cv

end HybridPqc.Blake3
