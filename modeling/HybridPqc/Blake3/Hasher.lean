import HybridPqc.Blake3.Subtree
import HybridPqc.Lib.LeftTree.Stack

/-!
# The hasher

`blake3_hasher` reads an input in pieces of any size. What it keeps are the chunk it is
in and a stack of the chaining values of the subtrees before it, which is *lazy*: two
subtrees of the same size are joined when the next one comes, not before, as they might
be the whole tree. Subtrees that are as large as possible are hashed at once.
-/

namespace HybridPqc.Blake3

variable (impl : Impl)

/-- Count the number of 1 bits. -/
def popcnt (x : UInt64) : ℕ := x.toNat.bitIndices.length

/-- `blake3_hasher`. The stack has its top first; `cv_stack_len` is its length. -/
structure Hasher where
  key : Words
  chunk : ChunkState
  cvStack : List Cv

def hasherInitBase (key : Words) (flags : UInt8) : Hasher where
  key := key
  chunk := chunkStateInit key flags
  cvStack := []

/-- The first half of a pair of chaining values, -/
def leftCv (pair : Block) : Cv := ⟨pair.1.take 32, by rw [List.length_take, pair.2]; rfl⟩

/-- and the second one. -/
def rightCv (pair : Block) : Cv := ⟨pair.1.drop 32, by rw [List.length_drop, pair.2]⟩

/-! ## The stack -/

/-- The loop of `hasher_merge_cv_stack`. -/
def mergeLoop (key : Words) (flags : UInt8) (postMergeStackLen : ℕ) : List Cv → List Cv
  | top :: next :: rest =>
    if rest.length + 2 > postMergeStackLen then
      let output := parentOutput (parentBlock next top) key flags
      mergeLoop key flags postMergeStackLen (outputChainingValue impl output :: rest)
    else top :: next :: rest
  | cvStack => cvStack
termination_by cvStack => cvStack.length

namespace Hasher

/-- `hasher_merge_cv_stack`. -/
def mergeCvStack (self : Hasher) (totalLen : UInt64) : Hasher :=
  { self with cvStack := mergeLoop impl self.key self.chunk.flags (popcnt totalLen) self.cvStack }

/-- `hasher_push_cv`. -/
def pushCv (self : Hasher) (newCv : Cv) (chunkCounter : UInt64) : Hasher :=
  let self := self.mergeCvStack impl chunkCounter
  { self with cvStack := newCv :: self.cvStack }

end Hasher

/-! ## Reading -/

/-- A subtree is halved until its length divides what was read before it. -/
def shrink (subtreeLen : ℕ) (countSoFar : UInt64) : ℕ :=
  if UInt64.ofNat (subtreeLen - 1) &&& countSoFar ≠ 0 then shrink (subtreeLen / 2) countSoFar
  else subtreeLen
termination_by subtreeLen
decreasing_by
  rename_i h
  have hne : subtreeLen ≠ 0 := by
    rintro rfl
    exact h (UInt64.zero_and)
  omega

theorem shrink_pos {subtreeLen : ℕ} (h : 0 < subtreeLen) (countSoFar : UInt64) :
    0 < shrink subtreeLen countSoFar := by
  induction subtreeLen using Nat.strong_induction_on with
  | _ n ih =>
    rw [shrink]
    split
    case isTrue hne =>
      have h1 : n ≠ 1 := by
        rintro rfl
        exact hne (UInt64.zero_and)
      exact ih _ (by omega) (by omega)
    case isFalse => exact h

namespace Hasher

/-- How much of the input the loop of `blake3_hasher_update_base` takes next. -/
def subtreeLen (self : Hasher) (input : List UInt8) : ℕ :=
  shrink (roundDownToPowerOf2 input.length) (self.chunk.chunkCounter * 1024)

/-- A subtree, from the beginning of the input. -/
def pushSubtree (self : Hasher) (input : List UInt8) : Hasher :=
  let subtreeLen := self.subtreeLen input
  let subtreeChunks := UInt64.ofNat (subtreeLen / chunkLen)
  let self :=
    if subtreeLen ≤ chunkLen then
      let chunkState :=
        { chunkStateInit self.key self.chunk.flags with chunkCounter := self.chunk.chunkCounter }
      let chunkState := chunkState.update impl (input.take subtreeLen)
      let cv := outputChainingValue impl chunkState.output
      self.pushCv impl cv chunkState.chunkCounter
    else
      let cvPair := compressSubtreeToParentNode impl (input.take subtreeLen) self.key
        self.chunk.chunkCounter self.chunk.flags
      let self := self.pushCv impl (leftCv cvPair) self.chunk.chunkCounter
      self.pushCv impl (rightCv cvPair) (self.chunk.chunkCounter + subtreeChunks / 2)
  { self with
    chunk := { self.chunk with chunkCounter := self.chunk.chunkCounter + subtreeChunks } }

/-- The loop of `blake3_hasher_update_base`. -/
def updateLoop (self : Hasher) (input : List UInt8) : Hasher × List UInt8 :=
  if input.length > chunkLen then
    updateLoop (self.pushSubtree impl input) (input.drop (self.subtreeLen input))
  else (self, input)
termination_by input.length
decreasing_by
  rename_i h
  have hpos : 0 < self.subtreeLen input := by
    rw [subtreeLen, roundDownToPowerOf2, Nat.shiftLeft_eq, one_mul]
    exact shrink_pos (Nat.two_pow_pos _) _
  simp only [List.length_drop, chunkLen] at h ⊢
  omega

/-- The loop, and what is left of the input. -/
def updateRest (self : Hasher) (input : List UInt8) : Hasher :=
  let (self, input) := self.updateLoop impl input
  if input.length > 0 then
    let self := { self with chunk := self.chunk.update impl input }
    self.mergeCvStack impl self.chunk.chunkCounter
  else self

/-- `blake3_hasher_update`. -/
def update (self : Hasher) (input : List UInt8) : Hasher :=
  if input.length = 0 then self
  else if self.chunk.len > 0 then
    let take := chunkLen - self.chunk.len
    let take := if take > input.length then input.length else take
    let self := { self with chunk := self.chunk.update impl (input.take take) }
    let input := input.drop take
    if input.length > 0 then
      let chunkCv := outputChainingValue impl self.chunk.output
      let self := self.pushCv impl chunkCv self.chunk.chunkCounter
      let self :=
        { self with chunk := self.chunk.reset self.key (self.chunk.chunkCounter + 1) }
      self.updateRest impl input
    else self
  else self.updateRest impl input

/-- `blake3_hasher_reset`. -/
def reset (self : Hasher) : Hasher :=
  { self with
    chunk := self.chunk.reset self.key 0
    cvStack := [] }

end Hasher

/-! ## Output -/

/-- What `output_root_bytes` appends to `out`, from the beginning of a block on. -/
def outputBlocks (self : Output) (flags : UInt8) (out : List UInt8)
    (outputBlockCounter : UInt64) (outLen : ℕ) : List UInt8 :=
  let out :=
    if outLen / 64 ≠ 0 then
      out ++ impl.xofMany self.inputCv self.block self.blockLen outputBlockCounter flags
        (outLen / 64)
    else out
  let outputBlockCounter := outputBlockCounter + UInt64.ofNat (outLen / 64)
  -- `out_len & -64` are the whole blocks
  let outLen := outLen - outLen / 64 * 64
  if outLen ≠ 0 then
    let wideBuf := impl.compressXof self.inputCv self.block self.blockLen outputBlockCounter flags
    out ++ wideBuf.1.take outLen
  else out

def outputRootBytes (self : Output) (seek : UInt64) (outLen : ℕ) : List UInt8 :=
  if outLen = 0 then []
  else
    let flags := self.flags ||| rootFlag
    let outputBlockCounter := seek / 64
    let offsetWithinBlock := (seek % 64).toNat
    if offsetWithinBlock ≠ 0 then
      let wideBuf := impl.compressXof self.inputCv self.block self.blockLen outputBlockCounter
        flags
      let availableBytes := 64 - offsetWithinBlock
      let bytes := if outLen > availableBytes then availableBytes else outLen
      outputBlocks impl self flags ((wideBuf.1.drop offsetWithinBlock).take bytes)
        (outputBlockCounter + 1) (outLen - bytes)
    else outputBlocks impl self flags [] outputBlockCounter outLen

namespace Hasher

/-- The output that `blake3_hasher_finalize_seek` takes bytes from. -/
def finalOutput (self : Hasher) : Output :=
  let join (output : Output) (cv : Cv) : Output :=
    parentOutput (parentBlock cv (outputChainingValue impl output)) self.key self.chunk.flags
  match self.cvStack with
  | [] => self.chunk.output
  | top :: rest =>
    if self.chunk.len > 0 then (top :: rest).foldl join self.chunk.output
    else
      match rest with
      | next :: rest =>
        rest.foldl join (parentOutput (parentBlock next top) self.key self.chunk.flags)
      -- there are always at least two
      | [] => self.chunk.output

/-- `blake3_hasher_finalize_seek`. -/
def finalizeSeek (self : Hasher) (seek : UInt64) (outLen : ℕ) : List UInt8 :=
  if outLen = 0 then [] else outputRootBytes impl (self.finalOutput impl) seek outLen

/-- `blake3_hasher_finalize`. -/
def finalize (self : Hasher) (outLen : ℕ) : List UInt8 := self.finalizeSeek impl 0 outLen

end Hasher

/-! ## Keys -/

def hasherInit : Hasher := hasherInitBase iv 0

def hasherInitKeyed (key : Cv) : Hasher := hasherInitBase (loadKeyWords key) keyedHash

/-- `blake3_hasher_init_derive_key_raw`, and `blake3_hasher_init_derive_key` of the bytes of a
    string. -/
def hasherInitDeriveKeyRaw (context : List UInt8) : Hasher :=
  let contextHasher := hasherInitBase iv deriveKeyContext
  let contextHasher := contextHasher.update impl context
  let contextKey := (Bytes.zero 32).memcpy (contextHasher.finalize impl 32)
  hasherInitBase (loadKeyWords contextKey) deriveKeyMaterial

end HybridPqc.Blake3
