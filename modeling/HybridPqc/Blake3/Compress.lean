import HybridPqc.Prim

/-!
# The compression function of BLAKE3

`blake3_portable.c`, and what it needs of `blake3_impl.h`: sixteen words are mixed
along their columns and diagonals in seven rounds, each with the words of a block in
another order (`compressPre`). What is left of them is combined into a chaining value
(`compressInPlacePortable`), or into a block of output (`compressXofPortable`).
-/

namespace HybridPqc.Blake3

/-- A key, or a chaining value as words. -/
abbrev Words := Vector UInt32 8

/-- A chaining value as bytes. -/
abbrev Cv := Bytes 32

abbrev Block := Bytes 64

/-! ## Constants -/

def chunkStart : UInt8 := (1 : UInt8) <<< 0
def chunkEnd : UInt8 := (1 : UInt8) <<< 1
def parentFlag : UInt8 := (1 : UInt8) <<< 2
def rootFlag : UInt8 := (1 : UInt8) <<< 3
def keyedHash : UInt8 := (1 : UInt8) <<< 4
def deriveKeyContext : UInt8 := (1 : UInt8) <<< 5
def deriveKeyMaterial : UInt8 := (1 : UInt8) <<< 6

/-- `BLAKE3_KEY_LEN`, `BLAKE3_OUT_LEN`. -/
abbrev outLen : ℕ := 32

/-- `BLAKE3_BLOCK_LEN`. -/
abbrev blockLen : ℕ := 64

/-- `BLAKE3_CHUNK_LEN`. -/
abbrev chunkLen : ℕ := 1024

def iv : Words :=
  #v[0x6A09E667, 0xBB67AE85, 0x3C6EF372, 0xA54FF53A, 0x510E527F, 0x9B05688C, 0x1F83D9AB,
    0x5BE0CD19]

def msgSchedule : Vector (Vector (Fin 16) 16) 7 :=
  #v[#v[0, 1, 2, 3, 4, 5, 6, 7, 8, 9, 10, 11, 12, 13, 14, 15],
    #v[2, 6, 3, 10, 7, 0, 4, 13, 1, 11, 12, 5, 9, 14, 15, 8],
    #v[3, 4, 10, 12, 13, 2, 7, 14, 6, 5, 9, 0, 11, 15, 8, 1],
    #v[10, 7, 12, 9, 14, 3, 13, 15, 4, 0, 11, 2, 5, 8, 1, 6],
    #v[12, 13, 9, 11, 15, 10, 14, 8, 7, 2, 5, 3, 0, 1, 6, 4],
    #v[9, 14, 11, 5, 8, 12, 15, 1, 13, 3, 0, 10, 2, 6, 4, 7],
    #v[11, 15, 5, 0, 1, 9, 8, 6, 14, 10, 2, 12, 3, 4, 7, 13]]

/-! ## Words and bytes -/

/-- `load32`, of the four bytes from the `i`-th one. -/
def load32 (src : List UInt8) (i : ℕ) : UInt32 :=
  (src.getD i 0).toUInt32 <<< 0 ||| (src.getD (i + 1) 0).toUInt32 <<< 8 |||
    (src.getD (i + 2) 0).toUInt32 <<< 16 ||| (src.getD (i + 3) 0).toUInt32 <<< 24

def store32 (w : UInt32) : List UInt8 :=
  [(w >>> 0).toUInt8, (w >>> 8).toUInt8, (w >>> 16).toUInt8, (w >>> 24).toUInt8]

/-- The bytes of some words. -/
def storeWords {n : ℕ} (ws : Vector UInt32 n) : Bytes (n * 4) :=
  ⟨ws.toList.flatMap store32, by simp [List.length_flatMap, store32]⟩

/-- `load_key_words`. -/
def loadKeyWords (key : Cv) : Words := Vector.ofFn fun i => load32 key.1 (i * 4)

/-- `load_block_words`. -/
def loadBlockWords (block : Block) : Vector UInt32 16 :=
  Vector.ofFn fun i => load32 block.1 (i * 4)

/-- `store_cv_words`. -/
def storeCvWords (cvWords : Words) : Cv := storeWords cvWords

def counterLow (counter : UInt64) : UInt32 := counter.toUInt32

def counterHigh (counter : UInt64) : UInt32 := (counter >>> 32).toUInt32

/-! ## Rounds -/

def rotr32 (w c : UInt32) : UInt32 := (w >>> c) ||| (w <<< (32 - c))

/-- `g`: four of the words are mixed with two words of the block. -/
def g (state : Vector UInt32 16) (a b c d : Fin 16) (x y : UInt32) : Vector UInt32 16 :=
  let state := state.set a (state[a] + state[b] + x)
  let state := state.set d (rotr32 (state[d] ^^^ state[a]) 16)
  let state := state.set c (state[c] + state[d])
  let state := state.set b (rotr32 (state[b] ^^^ state[c]) 12)
  let state := state.set a (state[a] + state[b] + y)
  let state := state.set d (rotr32 (state[d] ^^^ state[a]) 8)
  let state := state.set c (state[c] + state[d])
  state.set b (rotr32 (state[b] ^^^ state[c]) 7)

def roundFn (state msg : Vector UInt32 16) (round : Fin 7) : Vector UInt32 16 :=
  let schedule := msgSchedule[round]
  -- the columns
  let state := g state 0 4 8 12 msg[schedule[0]] msg[schedule[1]]
  let state := g state 1 5 9 13 msg[schedule[2]] msg[schedule[3]]
  let state := g state 2 6 10 14 msg[schedule[4]] msg[schedule[5]]
  let state := g state 3 7 11 15 msg[schedule[6]] msg[schedule[7]]
  -- the diagonals
  let state := g state 0 5 10 15 msg[schedule[8]] msg[schedule[9]]
  let state := g state 1 6 11 12 msg[schedule[10]] msg[schedule[11]]
  let state := g state 2 7 8 13 msg[schedule[12]] msg[schedule[13]]
  g state 3 4 9 14 msg[schedule[14]] msg[schedule[15]]

/-- The words before the first round. -/
def initialState (cv : Words) (blockLen : UInt8) (counter : UInt64) (flags : UInt8) :
    Vector UInt32 16 :=
  #v[cv[0], cv[1], cv[2], cv[3], cv[4], cv[5], cv[6], cv[7], iv[0], iv[1], iv[2], iv[3],
    counterLow counter, counterHigh counter, blockLen.toUInt32, flags.toUInt32]

def compressPre (cv : Words) (block : Block) (blockLen : UInt8) (counter : UInt64)
    (flags : UInt8) : Vector UInt32 16 :=
  let blockWords := loadBlockWords block
  let state := initialState cv blockLen counter flags
  let state := roundFn state blockWords 0
  let state := roundFn state blockWords 1
  let state := roundFn state blockWords 2
  let state := roundFn state blockWords 3
  let state := roundFn state blockWords 4
  let state := roundFn state blockWords 5
  roundFn state blockWords 6

/-! ## Compression -/

def compressInPlacePortable (cv : Words) (block : Block) (blockLen : UInt8) (counter : UInt64)
    (flags : UInt8) : Words :=
  let state := compressPre cv block blockLen counter flags
  #v[state[0] ^^^ state[8], state[1] ^^^ state[9], state[2] ^^^ state[10],
    state[3] ^^^ state[11], state[4] ^^^ state[12], state[5] ^^^ state[13],
    state[6] ^^^ state[14], state[7] ^^^ state[15]]

def compressXofPortable (cv : Words) (block : Block) (blockLen : UInt8) (counter : UInt64)
    (flags : UInt8) : Block :=
  let state := compressPre cv block blockLen counter flags
  storeWords #v[state[0] ^^^ state[8], state[1] ^^^ state[9], state[2] ^^^ state[10],
    state[3] ^^^ state[11], state[4] ^^^ state[12], state[5] ^^^ state[13],
    state[6] ^^^ state[14], state[7] ^^^ state[15], state[8] ^^^ cv[0], state[9] ^^^ cv[1],
    state[10] ^^^ cv[2], state[11] ^^^ cv[3], state[12] ^^^ cv[4], state[13] ^^^ cv[5],
    state[14] ^^^ cv[6], state[15] ^^^ cv[7]]

/-- The 64 bytes that are read from an input. -/
def blockOf (input : List UInt8) : Block := (Bytes.zero 64).memcpy (input.take 64)

/-- The loop of `hash_one_portable`. -/
def hashOneLoop (counter : UInt64) (flags flagsEnd : UInt8) :
    ℕ → Words → List UInt8 → UInt8 → Words
  | 0, cv, _, _ => cv
  | blocks + 1, cv, input, blockFlags =>
    let blockFlags := if blocks + 1 = 1 then blockFlags ||| flagsEnd else blockFlags
    hashOneLoop counter flags flagsEnd blocks
      (compressInPlacePortable cv (blockOf input) 64 counter blockFlags) (input.drop 64) flags

def hashOnePortable (input : List UInt8) (blocks : ℕ) (key : Words) (counter : UInt64)
    (flags flagsStart flagsEnd : UInt8) : Cv :=
  storeCvWords (hashOneLoop counter flags flagsEnd blocks key input (flags ||| flagsStart))

def hashManyPortable (inputs : List (List UInt8)) (blocks : ℕ) (key : Words) (counter : UInt64)
    (incrementCounter : Bool) (flags flagsStart flagsEnd : UInt8) : List Cv :=
  match inputs with
  | [] => []
  | input :: inputs =>
    hashOnePortable input blocks key counter flags flagsStart flagsEnd ::
      hashManyPortable inputs blocks key (if incrementCounter then counter + 1 else counter)
        incrementCounter flags flagsStart flagsEnd

end HybridPqc.Blake3
