import HybridPqc.Blake3.Compress
import Mathlib.Algebra.Order.Ring.Nat

/-!
# Chunks

A chunk of at most 1024 bytes is compressed block by block, the last block being kept
as an *output*: it is compressed for its chaining value or, if there is no other chunk,
for the hash (`chunkOutput`). `blake3.c` reads a chunk in pieces of any size, into a
buffer of one block (`ChunkState`).

The functions of `blake3_dispatch.c` are a parameter (`Impl`), which is lawful if it does
what `blake3_portable.c` does.

* `ChunkState.update_took`: a piece of a chunk is read, wherever it begins and ends;
* `ChunkState.Absorbed.output_eq`: the pieces make up the output of the chunk.
-/

namespace HybridPqc

/-- `memcpy` of `src` into the buffer, `off` bytes after its beginning. -/
def Bytes.memcpyAt {n : ℕ} (dst : Bytes n) (off : ℕ) (src : List UInt8) : Bytes n :=
  ⟨dst.1.take off ++ (src ++ dst.1.drop (off + src.length)).take (n - off), by
    have := dst.2
    simp only [List.length_append, List.length_take, List.length_drop]
    omega⟩

namespace Blake3

/-! ## Implementations -/

/-- What `blake3_dispatch.c` chooses between: compressions, for many inputs at a time
    too, with as many lanes as the degree says. -/
structure Impl where
  compressInPlace : Words → Block → UInt8 → UInt64 → UInt8 → Words
  compressXof : Words → Block → UInt8 → UInt64 → UInt8 → Block
  xofMany : Words → Block → UInt8 → UInt64 → UInt8 → ℕ → List UInt8
  hashMany : List (List UInt8) → ℕ → Words → UInt64 → Bool → UInt8 → UInt8 → UInt8 → List Cv
  simdDegree : ℕ
  simdDegree_pos : 0 < simdDegree
  /-- One chaining value is written for each input. -/
  length_hashMany : ∀ inputs blocks key counter incrementCounter flags flagsStart flagsEnd,
    (hashMany inputs blocks key counter incrementCounter flags flagsStart flagsEnd).length =
      inputs.length

/-- `blake3_xof_many`, where a compression is all there is. -/
def xofManyLoop (compressXof : Words → Block → UInt8 → UInt64 → UInt8 → Block) (cv : Words)
    (block : Block) (blockLen : UInt8) (counter : UInt64) (flags : UInt8) (outblocks : ℕ) :
    List UInt8 :=
  (List.range outblocks).flatMap fun i =>
    (compressXof cv block blockLen (counter + UInt64.ofNat i) flags).1

/-- An implementation is lawful if it computes what the portable one does. -/
structure Impl.Lawful (impl : Impl) : Prop where
  compressInPlace_eq : impl.compressInPlace = compressInPlacePortable
  compressXof_eq : impl.compressXof = compressXofPortable
  xofMany_eq (cv : Words) (block : Block) (len : UInt8) (counter : UInt64) (flags : UInt8)
    (outblocks : ℕ) : impl.xofMany cv block len counter flags outblocks =
      xofManyLoop compressXofPortable cv block len counter flags outblocks
  hashMany_eq {inputs : List (List UInt8)} {blocks : ℕ}
    (h : ∀ input ∈ inputs, 64 * blocks ≤ input.length) (key : Words) (counter : UInt64)
    (incrementCounter : Bool) (flags flagsStart flagsEnd : UInt8) :
    impl.hashMany inputs blocks key counter incrementCounter flags flagsStart flagsEnd =
      hashManyPortable inputs blocks key counter incrementCounter flags flagsStart flagsEnd
  simdDegree_eq : ∃ k ≤ 4, impl.simdDegree = 2 ^ k

theorem length_hashManyPortable (inputs : List (List UInt8)) (blocks : ℕ) (key : Words)
    (counter : UInt64) (incrementCounter : Bool) (flags flagsStart flagsEnd : UInt8) :
    (hashManyPortable inputs blocks key counter incrementCounter flags flagsStart flagsEnd).length =
      inputs.length := by
  induction inputs generalizing counter with
  | nil => rfl
  | cons input inputs ih => rw [hashManyPortable, List.length_cons, ih, List.length_cons]

/-- Where there is no SIMD. -/
def Impl.portable : Impl where
  compressInPlace := compressInPlacePortable
  compressXof := compressXofPortable
  xofMany := xofManyLoop compressXofPortable
  hashMany := hashManyPortable
  simdDegree := 1
  simdDegree_pos := Nat.one_pos
  length_hashMany := length_hashManyPortable

theorem Impl.portable_lawful : Impl.portable.Lawful where
  compressInPlace_eq := rfl
  compressXof_eq := rfl
  xofMany_eq _ _ _ _ _ _ := rfl
  hashMany_eq _ _ _ _ _ _ _ := rfl
  simdDegree_eq := ⟨0, by decide, rfl⟩

variable (impl : Impl)

/-! ## Outputs -/

/-- `output_t`. -/
structure Output where
  inputCv : Words
  block : Block
  blockLen : UInt8
  counter : UInt64
  flags : UInt8
  deriving Inhabited

def outputChainingValue (self : Output) : Cv :=
  storeCvWords
    (impl.compressInPlace self.inputCv self.block self.blockLen self.counter self.flags)

/-- The two chaining values that a parent node is made of, one after the other. -/
def parentBlock (left right : Cv) : Block :=
  ⟨left.1 ++ right.1, by rw [List.length_append, left.2, right.2]⟩

def parentOutput (block : Block) (key : Words) (flags : UInt8) : Output where
  inputCv := key
  block := block
  blockLen := 64
  counter := 0
  flags := flags ||| parentFlag

/-- The chaining value of an output. -/
def Output.cv (o : Output) : Cv :=
  storeCvWords (compressInPlacePortable o.inputCv o.block o.blockLen o.counter o.flags)

/-- The output of a chunk, or of what is left of it after some blocks. -/
def chunkOutput (counter : UInt64) (flags : UInt8) (cv : Words) (start : UInt8)
    (xs : List UInt8) : Output :=
  if xs.length ≤ 64 then
    { inputCv := cv
      block := blockOf xs
      blockLen := UInt8.ofNat xs.length
      counter := counter
      flags := flags ||| start ||| chunkEnd }
  else
    chunkOutput counter flags
      (compressInPlacePortable cv (blockOf xs) 64 counter (flags ||| start)) 0 (xs.drop 64)
termination_by xs.length
decreasing_by simp only [List.length_drop]; omega

/-! ## Chunk states -/

/-- `blake3_chunk_state`. -/
structure ChunkState where
  cv : Words
  chunkCounter : UInt64
  buf : Block
  bufLen : UInt8
  blocksCompressed : UInt8
  flags : UInt8

def chunkStateInit (key : Words) (flags : UInt8) : ChunkState where
  cv := key
  chunkCounter := 0
  buf := Bytes.zero 64
  bufLen := 0
  blocksCompressed := 0
  flags := flags

namespace ChunkState

variable (self : ChunkState)

def reset (key : Words) (chunkCounter : UInt64) : ChunkState :=
  { self with
    cv := key
    chunkCounter := chunkCounter
    blocksCompressed := 0
    buf := Bytes.zero 64
    bufLen := 0 }

def len : ℕ := 64 * self.blocksCompressed.toNat + self.bufLen.toNat

def fillBuf (input : List UInt8) : ChunkState × ℕ :=
  let take := 64 - self.bufLen.toNat
  let take := if take > input.length then input.length else take
  ({ self with
      buf := self.buf.memcpyAt self.bufLen.toNat (input.take take)
      bufLen := self.bufLen + UInt8.ofNat take }, take)

def maybeStartFlag : UInt8 := if self.blocksCompressed = 0 then chunkStart else 0

/-- A block of the chunk that is not its last one. -/
def compressBlock (block : Block) : ChunkState :=
  { self with
    cv := impl.compressInPlace self.cv block 64 self.chunkCounter
      (self.flags ||| self.maybeStartFlag)
    blocksCompressed := self.blocksCompressed + 1 }

/-- The loop of `chunk_state_update`. -/
def updateLoop (self : ChunkState) (input : List UInt8) : ChunkState × List UInt8 :=
  if input.length > 64 then
    updateLoop (self.compressBlock impl (blockOf input)) (input.drop 64)
  else (self, input)
termination_by input.length
decreasing_by simp only [List.length_drop]; omega

/-- What `chunk_state_update` does if there is something in the buffer. -/
def finishBuf (input : List UInt8) : ChunkState × List UInt8 :=
  if self.bufLen > 0 then
    let (self, take) := self.fillBuf input
    let input := input.drop take
    if input.length > 0 then
      ({ self.compressBlock impl self.buf with bufLen := 0, buf := Bytes.zero 64 }, input)
    else (self, input)
  else (self, input)

def update (input : List UInt8) : ChunkState :=
  let (self, input) := self.finishBuf impl input
  let (self, input) := self.updateLoop impl input
  (self.fillBuf input).1

/-- `chunk_state_output`. -/
def output : Output where
  inputCv := self.cv
  block := self.buf
  blockLen := self.bufLen
  counter := self.chunkCounter
  flags := self.flags ||| self.maybeStartFlag ||| chunkEnd

end ChunkState

/-! ## Blocks -/

theorem blockOf_val {xs : List UInt8} (h : xs.length ≤ 64) :
    (blockOf xs).1 = xs ++ List.replicate (64 - xs.length) 0 := by
  rw [blockOf, List.take_of_length_le h, Bytes.memcpy_val _ h, Bytes.zero, List.drop_replicate]

/-- A block is not longer than it is. -/
theorem blockOf_append {xs : List UInt8} (h : 64 ≤ xs.length) (ys : List UInt8) :
    blockOf (xs ++ ys) = blockOf xs := by
  rw [blockOf, blockOf, List.take_append_of_le_length h]

theorem blockOf_full (block : Block) : blockOf block.1 = block := by
  apply Subtype.ext
  rw [blockOf_val block.2.le, block.2, Nat.sub_self, List.replicate_zero, List.append_nil]

variable {impl : Impl} (hi : impl.Lawful)

theorem chunkOutput_last {counter : UInt64} {flags : UInt8} {cv : Words} {start : UInt8}
    {xs : List UInt8} (h : xs.length ≤ 64) :
    chunkOutput counter flags cv start xs =
      { inputCv := cv
        block := blockOf xs
        blockLen := UInt8.ofNat xs.length
        counter := counter
        flags := flags ||| start ||| chunkEnd } := by
  rw [chunkOutput, if_pos h]

theorem chunkOutput_append (counter : UInt64) (flags : UInt8) (cv : Words) (start : UInt8)
    {xs ys : List UInt8} (hx : xs.length = 64) (hy : ys ≠ []) :
    chunkOutput counter flags cv start (xs ++ ys) =
      chunkOutput counter flags
        (compressInPlacePortable cv (blockOf xs) 64 counter (flags ||| start)) 0 ys := by
  have hpos := List.length_pos_iff.2 hy
  rw [chunkOutput, if_neg (by rw [List.length_append]; omega), blockOf_append hx.ge, ← hx,
    List.drop_left]

include hi in
theorem outputChainingValue_eq (o : Output) : outputChainingValue impl o = o.cv := by
  rw [outputChainingValue, hi.compressInPlace_eq, Output.cv]

namespace ChunkState

/-! ## Reading a piece -/

/-- What is in the buffer. -/
def pending (self : ChunkState) : List UInt8 := self.buf.1.take self.bufLen.toNat

/-- The buffer is not overrun, and has zeros after what is in it. -/
structure Ok (s : ChunkState) : Prop where
  bufLen_le : s.bufLen.toNat ≤ 64
  buf_eq : s.buf = blockOf s.pending

/-- The output of the chunk, if `ys` is left of it. -/
def finish (self : ChunkState) (ys : List UInt8) : Output :=
  chunkOutput self.chunkCounter self.flags self.cv self.maybeStartFlag (self.pending ++ ys)

/-- A chunk state and what is left of a piece, some time later. -/
structure Took (s t : ChunkState × List UInt8) : Prop where
  ok : t.1.Ok
  counter_eq : t.1.chunkCounter = s.1.chunkCounter
  flags_eq : t.1.flags = s.1.flags
  len_eq : t.1.len + t.2.length = s.1.len + s.2.length
  finish_eq (zs : List UInt8) : t.1.finish (t.2 ++ zs) = s.1.finish (s.2 ++ zs)

theorem Took.trans {s t u : ChunkState × List UInt8} (h : Took s t) (h' : Took t u) :
    Took s u where
  ok := h'.ok
  counter_eq := h'.counter_eq.trans h.counter_eq
  flags_eq := h'.flags_eq.trans h.flags_eq
  len_eq := h'.len_eq.trans h.len_eq
  finish_eq zs := (h'.finish_eq zs).trans (h.finish_eq zs)

theorem Took.fits {s t : ChunkState × List UInt8} (h : Took s t)
    (hs : s.1.len + s.2.length ≤ 1024) : t.1.len + t.2.length ≤ 1024 := h.len_eq.trans_le hs

theorem Ok.refl {self : ChunkState} (h : self.Ok) (input : List UInt8) :
    Took (self, input) (self, input) := ⟨h, rfl, rfl, rfl, fun _ => rfl⟩

theorem length_pending {self : ChunkState} (h : self.Ok) :
    self.pending.length = self.bufLen.toNat := by
  have := h.bufLen_le
  rw [pending, List.length_take, self.buf.2]
  omega

/-- How much is copied to the buffer. -/
theorem fillBuf_snd (self : ChunkState) (input : List UInt8) :
    (self.fillBuf input).2 = min (64 - self.bufLen.toNat) input.length := by
  simp only [fillBuf]
  split <;> omega

theorem fillBuf_bufLen {self : ChunkState} (h : self.Ok) (input : List UInt8) :
    (self.fillBuf input).1.bufLen.toNat = self.bufLen.toNat + (self.fillBuf input).2 := by
  have hle := h.bufLen_le
  have htake := fillBuf_snd self input
  change (self.bufLen + UInt8.ofNat (self.fillBuf input).2).toNat = _
  rw [UInt8.toNat_add, UInt8.toNat_ofNat']
  omega

theorem fillBuf_buf {self : ChunkState} (h : self.Ok) (input : List UInt8) :
    (self.fillBuf input).1.buf =
      blockOf (self.pending ++ input.take (self.fillBuf input).2) := by
  have hle := h.bufLen_le
  have htake := fillBuf_snd self input
  have hbuf : self.buf.1 = self.pending ++ List.replicate (64 - self.bufLen.toNat) 0 := by
    have : self.pending.length ≤ 64 := (length_pending h).trans_le hle
    have := blockOf_val this
    rwa [← h.buf_eq, length_pending h] at this
  change self.buf.memcpyAt self.bufLen.toNat (input.take (self.fillBuf input).2) = _
  generalize (self.fillBuf input).2 = take at htake
  have hlen : (self.pending ++ input.take take).length = self.bufLen.toNat + take := by
    rw [List.length_append, length_pending h, List.length_take]
    omega
  apply Subtype.ext
  rw [blockOf_val (by omega), hlen]
  change self.pending ++ _ = _
  rw [hbuf, List.append_assoc, List.length_take, Nat.min_eq_left (by omega), List.drop_append,
    length_pending h, List.drop_of_length_le (by rw [length_pending h]; omega), List.nil_append,
    List.drop_replicate, List.take_of_length_le]
  · congr 3
    omega
  · rw [List.length_append, List.length_take, List.length_replicate]
    omega

theorem fillBuf_pending {self : ChunkState} (h : self.Ok) (input : List UInt8) :
    (self.fillBuf input).1.pending = self.pending ++ input.take (self.fillBuf input).2 := by
  have hle := h.bufLen_le
  have htake := fillBuf_snd self input
  have hlen : (self.pending ++ input.take (self.fillBuf input).2).length =
      self.bufLen.toNat + (self.fillBuf input).2 := by
    rw [List.length_append, length_pending h, List.length_take]
    omega
  rw [pending, fillBuf_bufLen h, fillBuf_buf h, blockOf_val (by omega), ← hlen,
    List.take_left]

theorem fillBuf_took {self : ChunkState} (h : self.Ok) (input : List UInt8) :
    Took (self, input) ((self.fillBuf input).1, input.drop (self.fillBuf input).2) where
  ok := by
    have hle := h.bufLen_le
    have htake := fillBuf_snd self input
    refine ⟨?_, ?_⟩
    · rw [fillBuf_bufLen h]
      omega
    · rw [fillBuf_buf h, fillBuf_pending h]
  counter_eq := rfl
  flags_eq := rfl
  len_eq := by
    have hle := h.bufLen_le
    have htake := fillBuf_snd self input
    change 64 * self.blocksCompressed.toNat + (self.fillBuf input).1.bufLen.toNat + _ = _
    rw [fillBuf_bufLen h, List.length_drop]
    simp only [len]
    omega
  finish_eq zs := by
    rw [finish, fillBuf_pending h, List.append_assoc, ← List.append_assoc (input.take _),
      List.take_append_drop]
    rfl

theorem pending_empty {self : ChunkState} (h : self.bufLen = 0) : self.pending = [] := by
  rw [pending, h]
  rfl

/-- After a block, there is no start flag. -/
theorem compressBlock_flag {self : ChunkState} (h : self.blocksCompressed.toNat < 255)
    (block : Block) : (self.compressBlock impl block).maybeStartFlag = 0 := by
  have hne : self.blocksCompressed + 1 ≠ 0 := by
    intro h0
    have := congrArg UInt8.toNat h0
    rw [UInt8.toNat_add] at this
    change (self.blocksCompressed.toNat + 1) % 256 = 0 at this
    omega
  exact if_neg hne

theorem compressBlock_blocks {self : ChunkState} (h : self.blocksCompressed.toNat < 255)
    (block : Block) : (self.compressBlock impl block).blocksCompressed.toNat =
      self.blocksCompressed.toNat + 1 := by
  change (self.blocksCompressed + 1).toNat = _
  rw [UInt8.toNat_add]
  change (self.blocksCompressed.toNat + 1) % 256 = _
  omega

include hi in
/-- A block that is not the last one, from the piece itself. -/
theorem compressBlock_took {self : ChunkState} (hbuf : self.bufLen = 0)
    (hz : self.buf = Bytes.zero 64) {input : List UInt8} (hin : 64 < input.length)
    (hlen : self.len + input.length ≤ 1024) :
    Took (self, input) (self.compressBlock impl (blockOf input), input.drop 64) := by
  have hblocks : self.blocksCompressed.toNat < 255 := by
    rw [len] at hlen
    omega
  have htake : (input.take 64).length = 64 := by
    rw [List.length_take]
    omega
  have hblock : blockOf input = blockOf (input.take 64) := by
    conv_lhs => rw [← List.take_append_drop 64 input]
    exact blockOf_append htake.ge _
  have hpend : (self.compressBlock impl (blockOf input)).pending = [] := pending_empty hbuf
  refine ⟨⟨?_, ?_⟩, rfl, rfl, ?_, fun zs => ?_⟩
  · change self.bufLen.toNat ≤ 64
    rw [hbuf]
    decide
  · rw [hpend]
    exact hz
  · change 64 * (self.compressBlock impl _).blocksCompressed.toNat + self.bufLen.toNat + _ = _
    rw [compressBlock_blocks hblocks, List.length_drop]
    simp only [len]
    omega
  · have hne : input.drop 64 ++ zs ≠ [] :=
      List.append_ne_nil_of_left_ne_nil (List.length_pos_iff.1 (by rw [List.length_drop]; omega)) _
    have := chunkOutput_append self.chunkCounter self.flags self.cv self.maybeStartFlag htake hne
    rw [← List.append_assoc, List.take_append_drop] at this
    rw [finish, finish, hpend, pending_empty hbuf, compressBlock_flag hblocks, List.nil_append,
      List.nil_append, this, ← hblock, ← hi.compressInPlace_eq]
    rfl

include hi in
/-- The block in the buffer, if it is full and not the last one. -/
theorem compressBuf_took {self : ChunkState} (h : self.Ok) (hbuf : self.bufLen.toNat = 64)
    {input : List UInt8} (hin : input ≠ []) (hlen : self.len + input.length ≤ 1024) :
    Took (self, input)
      ({ self.compressBlock impl self.buf with bufLen := 0, buf := Bytes.zero 64 }, input) := by
  have hpos := List.length_pos_iff.2 hin
  have hblocks : self.blocksCompressed.toNat < 255 := by
    rw [len] at hlen
    omega
  have hpend : self.pending.length = 64 := (length_pending h).trans hbuf
  refine ⟨⟨Nat.zero_le 64, rfl⟩, rfl, rfl, ?_, fun zs => ?_⟩
  · change 64 * (self.compressBlock impl self.buf).blocksCompressed.toNat + 0 + _ = _
    rw [compressBlock_blocks hblocks]
    simp only [len]
    omega
  · have := chunkOutput_append self.chunkCounter self.flags self.cv self.maybeStartFlag hpend
      (List.append_ne_nil_of_left_ne_nil hin zs)
    rw [← h.buf_eq] at this
    change chunkOutput self.chunkCounter self.flags _
      (self.compressBlock impl self.buf).maybeStartFlag ([] ++ (input ++ zs)) = _
    rw [finish, this, compressBlock_flag hblocks, List.nil_append, ← hi.compressInPlace_eq]
    rfl

include hi in
theorem finishBuf_took {self : ChunkState} (h : self.Ok) {input : List UInt8}
    (hlen : self.len + input.length ≤ 1024) :
    Took (self, input) (self.finishBuf impl input) ∧
      ((self.finishBuf impl input).2 = [] ∨ (self.finishBuf impl input).1.bufLen = 0) := by
  rw [finishBuf]
  split
  case isTrue =>
    have hfill := fillBuf_took h input
    have htake := fillBuf_snd self input
    dsimp only
    split
    case isTrue hpos =>
      have hfull : (self.fillBuf input).1.bufLen.toNat = 64 := by
        have := h.bufLen_le
        rw [List.length_drop] at hpos
        rw [fillBuf_bufLen h]
        omega
      exact ⟨hfill.trans (compressBuf_took hi hfill.ok hfull (List.length_pos_iff.1 hpos)
        (hfill.fits hlen)), .inr rfl⟩
    case isFalse hpos =>
      exact ⟨hfill, .inl (List.length_eq_zero_iff.1 (Nat.eq_zero_of_not_pos hpos))⟩
  case isFalse hbuf =>
    exact ⟨h.refl input, .inr (UInt8.le_zero_iff.1 (UInt8.not_lt.1 hbuf))⟩

include hi in
theorem updateLoop_took {self : ChunkState} (h : self.Ok) {input : List UInt8}
    (hlen : self.len + input.length ≤ 1024) (hbuf : input = [] ∨ self.bufLen = 0) :
    Took (self, input) (self.updateLoop impl input) ∧
      ((self.updateLoop impl input).2 = [] ∨ (self.updateLoop impl input).1.bufLen = 0) ∧
      (self.updateLoop impl input).2.length ≤ 64 := by
  induction hn : input.length using Nat.strong_induction_on generalizing self input with
  | _ n ih =>
    subst hn
    rw [updateLoop]
    split
    case isTrue hin =>
      have hbuf : self.bufLen = 0 := hbuf.resolve_left (List.length_pos_iff.1 (by omega))
      have hz : self.buf = Bytes.zero 64 := by
        rw [h.buf_eq, pending_empty hbuf]
        rfl
      have hstep := compressBlock_took hi hbuf hz hin hlen
      have hlt : (input.drop 64).length < input.length := by
        rw [List.length_drop]
        omega
      obtain ⟨htook, hrest⟩ := ih _ hlt hstep.ok (hstep.fits hlen) (.inr hbuf) rfl
      exact ⟨hstep.trans htook, hrest⟩
    case isFalse hin =>
      exact ⟨h.refl input, hbuf, Nat.le_of_not_lt hin⟩

include hi in
/-- A piece of a chunk is read. -/
theorem update_took {self : ChunkState} (h : self.Ok) {input : List UInt8}
    (hlen : self.len + input.length ≤ 1024) :
    Took (self, input) (self.update impl input, []) := by
  obtain ⟨hbuf, hrest⟩ := finishBuf_took hi h hlen
  obtain ⟨hloop, hrest, hle⟩ := updateLoop_took hi hbuf.ok (hbuf.fits hlen) hrest
  have heq : self.update impl input = (((self.finishBuf impl input).1.updateLoop impl
    (self.finishBuf impl input).2).1.fillBuf ((self.finishBuf impl input).1.updateLoop impl
      (self.finishBuf impl input).2).2).1 := rfl
  rw [heq]
  generalize (self.finishBuf impl input).1.updateLoop impl (self.finishBuf impl input).2 = t
    at hloop hrest hle
  have hfill := fillBuf_took hloop.ok t.2
  have hdrop : t.2.drop (t.1.fillBuf t.2).2 = [] := by
    rw [List.drop_eq_nil_iff, fillBuf_snd]
    rcases hrest with hnil | hbuf0
    · rw [hnil]
      exact Nat.zero_le _
    · rw [hbuf0]
      change _ ≤ min 64 _
      omega
  rw [hdrop] at hfill
  exact hbuf.trans (hloop.trans hfill)

/-! ## Whole chunks -/

/-- The state at the beginning of a chunk. -/
def start (key : Words) (flags : UInt8) (counter : UInt64) : ChunkState :=
  { chunkStateInit key flags with chunkCounter := counter }

theorem start_ok (key : Words) (flags : UInt8) (counter : UInt64) :
    (start key flags counter).Ok := ⟨Nat.zero_le 64, rfl⟩

/-- The state after the bytes `xs` of a chunk. -/
def Absorbed (s : ChunkState) (key : Words) (flags : UInt8) (counter : UInt64)
    (xs : List UInt8) : Prop :=
  Took (start key flags counter, xs) (s, [])

variable {self : ChunkState} {key : Words} {flags : UInt8} {counter : UInt64}

theorem absorbed_start : Absorbed (start key flags counter) key flags counter [] :=
  (start_ok key flags counter).refl []

theorem Absorbed.len_eq {xs : List UInt8} (h : Absorbed self key flags counter xs) :
    self.len = xs.length :=
  (Took.len_eq h).trans (Nat.zero_add _)

theorem Absorbed.reset {xs : List UInt8} (h : Absorbed self key flags counter xs)
    (key' : Words) (counter' : UInt64) : self.reset key' counter' = start key' flags counter' := by
  have hflags : self.flags = flags := Took.flags_eq h
  rw [ChunkState.reset, hflags]
  rfl

include hi in
theorem Absorbed.update {xs : List UInt8} (h : Absorbed self key flags counter xs)
    {ys : List UInt8} (hlen : xs.length + ys.length ≤ 1024) :
    Absorbed (self.update impl ys) key flags counter (xs ++ ys) := by
  have hfits : self.len + ys.length ≤ 1024 := by rwa [h.len_eq]
  have hys : Took (start key flags counter, xs ++ ys) (self, ys) := by
    refine ⟨h.ok, h.counter_eq, h.flags_eq, ?_, fun zs => ?_⟩
    · change self.len + ys.length = 0 + _
      rw [h.len_eq, List.length_append, Nat.zero_add]
    · have := h.finish_eq (ys ++ zs)
      simp only [List.nil_append, ← List.append_assoc] at this
      exact this
  exact hys.trans (update_took hi h.ok hfits)

/-- However a chunk is read, its output is that of the whole. -/
theorem Absorbed.output_eq {xs : List UInt8} (h : Absorbed self key flags counter xs) :
    self.output = chunkOutput counter flags key chunkStart xs := by
  have hle := Ok.bufLen_le h.ok
  have hfin : self.finish [] = chunkOutput counter flags key chunkStart xs := by
    have := Took.finish_eq h []
    rwa [List.append_nil, List.append_nil] at this
  rw [← hfin, finish, List.append_nil, chunkOutput_last (by rwa [length_pending h.ok]),
    ← Ok.buf_eq h.ok, length_pending h.ok, UInt8.ofNat_toNat]
  rfl

include hi in
/-- A chunk that is read in one piece. -/
theorem update_start (key : Words) (flags : UInt8) (counter : UInt64) {xs : List UInt8}
    (h : xs.length ≤ 1024) :
    ((start key flags counter).update impl xs).output =
        chunkOutput counter flags key chunkStart xs ∧
      ((start key flags counter).update impl xs).chunkCounter = counter := by
  have habs : Absorbed ((start key flags counter).update impl xs) key flags counter ([] ++ xs) :=
    absorbed_start.update hi (by rwa [List.length_nil, Nat.zero_add])
  exact ⟨habs.output_eq, Took.counter_eq habs⟩

end ChunkState

/-! ## Chunks at once -/

/-- `hash_one_portable` of all the blocks of a chunk. -/
theorem hashOneLoop_eq {counter : UInt64} {flags : UInt8} (blocks : ℕ) {cv : Words}
    {start : UInt8} {xs : List UInt8} (h : xs.length = 64 * (blocks + 1)) :
    storeCvWords (hashOneLoop counter flags chunkEnd (blocks + 1) cv xs (flags ||| start)) =
      (chunkOutput counter flags cv start xs).cv := by
  induction blocks generalizing cv start xs with
  | zero =>
    rw [chunkOutput_last (by omega), h]
    rfl
  | succ blocks ih =>
    have htake : (xs.take 64).length = 64 := by
      rw [List.length_take]
      omega
    have hdrop : (xs.drop 64).length = 64 * (blocks + 1) := by
      rw [List.length_drop]
      omega
    have hne : xs.drop 64 ≠ [] := List.length_pos_iff.1 (by omega)
    have happ := chunkOutput_append counter flags cv start htake hne
    have hblock : blockOf xs = blockOf (xs.take 64) := by
      conv_lhs => rw [← List.take_append_drop 64 xs]
      exact blockOf_append htake.ge _
    rw [List.take_append_drop] at happ
    rw [happ, ← hblock, ← ih hdrop, UInt8.or_zero, hashOneLoop, if_neg (by omega)]

/-- A whole chunk, as `hash_many` hashes it. -/
theorem hashOnePortable_chunk {xs : List UInt8} (h : xs.length = 1024) (key : Words)
    (counter : UInt64) (flags : UInt8) :
    hashOnePortable xs 16 key counter flags chunkStart chunkEnd =
      (chunkOutput counter flags key chunkStart xs).cv :=
  hashOneLoop_eq 15 h

/-- A parent node, as `hash_many` hashes it. -/
theorem hashOnePortable_parent (block : Block) (key : Words) (flags : UInt8) :
    hashOnePortable block.1 1 key 0 (flags ||| parentFlag) 0 0 =
      (parentOutput block key flags).cv := by
  rw [hashOnePortable, hashOneLoop, if_pos rfl, blockOf_full, UInt8.or_zero, UInt8.or_zero]
  rfl

end Blake3

end HybridPqc
