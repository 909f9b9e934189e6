import HybridPqc.Blake3.Chunk
import HybridPqc.Lib.LeftTree

/-!
# The tree of BLAKE3

What BLAKE3 computes, whoever computes it: the chunks of an input are the leaves of a
left-balanced tree (`treeOutput`), whose root is compressed again for each block of output
(`rootBytes`). Keyed hashing and key derivation are the same with other keys and flags.
-/

namespace HybridPqc.Blake3

/-- The outputs of the chunks of an input. -/
def chunks (key : Words) (flags : UInt8) (counter : UInt64) (xs : List UInt8) : List Output :=
  if xs = [] then []
  else
    chunkOutput counter flags key chunkStart (xs.take 1024) ::
      chunks key flags (counter + 1) (xs.drop 1024)
termination_by xs.length
decreasing_by
  rename_i h
  have := List.length_pos_iff.2 h
  rw [List.length_drop]
  omega

/-- The output of a node with the given chaining values below it. -/
def nodeOutput (key : Words) (flags : UInt8) (left right : Cv) : Output :=
  parentOutput (parentBlock left right) key flags

/-- The chaining value of a node. -/
abbrev nodeCv (key : Words) (flags : UInt8) (left right : Cv) : Cv :=
  (nodeOutput key flags left right).cv

/-- The output at the root of the tree over some leaves. -/
abbrev treeRoot (key : Words) (flags : UInt8) : List Output → Output :=
  LeftTree.root Output.cv (nodeOutput key flags)

/-- The output at the root of the tree over an input. -/
def treeOutput (key : Words) (flags : UInt8) (xs : List UInt8) : Output :=
  if xs = [] then chunkOutput 0 flags key chunkStart []
  else treeRoot key flags (chunks key flags 0 xs)

/-- The block of output with the given number. -/
def rootBlock (o : Output) (i : ℕ) : Block :=
  compressXofPortable o.inputCv o.block o.blockLen (UInt64.ofNat i) (o.flags ||| rootFlag)

/-- `n` bytes of output, from the one with the number `seek` on. -/
def rootBytes (o : Output) (seek n : ℕ) : List UInt8 :=
  (List.range' seek n).map fun i => (rootBlock o (i / 64)).1.getD (i % 64) 0

/-- The hash of an input. -/
def hash (xs : List UInt8) : Cv := ⟨rootBytes (treeOutput iv 0 xs) 0 32, by simp [rootBytes]⟩

/-! ## The leaves -/

variable {key : Words} {flags : UInt8}

@[simp] theorem chunks_nil (counter : UInt64) : chunks key flags counter [] = [] := by
  rw [chunks, if_pos rfl]

theorem chunks_of_ne_nil {counter : UInt64} {xs : List UInt8} (h : xs ≠ []) :
    chunks key flags counter xs = chunkOutput counter flags key chunkStart (xs.take 1024) ::
      chunks key flags (counter + 1) (xs.drop 1024) := by
  rw [chunks, if_neg h]

theorem length_chunks (counter : UInt64) (xs : List UInt8) :
    (chunks key flags counter xs).length = (xs.length + 1023) / 1024 := by
  induction hn : xs.length using Nat.strong_induction_on generalizing counter xs with
  | _ n ih =>
    subst hn
    by_cases h : xs = []
    · rw [h, chunks_nil]
      rfl
    · have hpos := List.length_pos_iff.2 h
      have hlt : (xs.drop 1024).length < xs.length := by
        rw [List.length_drop]
        omega
      rw [chunks_of_ne_nil h, List.length_cons, ih _ hlt _ _ rfl, List.length_drop]
      omega

theorem chunks_ne_nil {counter : UInt64} {xs : List UInt8} (h : xs ≠ []) :
    chunks key flags counter xs ≠ [] := by
  rw [chunks_of_ne_nil h]
  exact List.cons_ne_nil _ _

/-- A single chunk. -/
theorem chunks_single {counter : UInt64} {xs : List UInt8} (h : xs ≠ [])
    (hle : xs.length ≤ 1024) :
    chunks key flags counter xs = [chunkOutput counter flags key chunkStart xs] := by
  rw [chunks_of_ne_nil h, List.take_of_length_le hle, List.drop_of_length_le hle, chunks_nil]

/-- Whole chunks before others. -/
theorem chunks_append {m : ℕ} {counter : UInt64} {xs : List UInt8} (h : xs.length = 1024 * m)
    (ys : List UInt8) :
    chunks key flags counter (xs ++ ys) =
      chunks key flags counter xs ++ chunks key flags (counter + UInt64.ofNat m) ys := by
  induction m generalizing counter xs with
  | zero =>
    obtain rfl := List.length_eq_zero_iff.1 h
    rw [chunks_nil, List.nil_append, List.nil_append]
    congr 1
    exact (UInt64.add_zero counter).symm
  | succ m ih =>
    have hx : xs ≠ [] := List.length_pos_iff.1 (by omega)
    have hdrop : (xs.drop 1024).length = 1024 * m := by
      rw [List.length_drop]
      omega
    rw [chunks_of_ne_nil hx, chunks_of_ne_nil (List.append_ne_nil_of_left_ne_nil hx ys),
      List.take_append_of_le_length (by omega), List.drop_append_of_le_length (by omega),
      ih hdrop, List.cons_append, UInt64.add_assoc, UInt64.ofNat_add, UInt64.add_comm 1]
    rfl

theorem treeRoot_singleton (o : Output) : treeRoot key flags [o] = o :=
  LeftTree.root_singleton _ _ o

/-- An input of more than one chunk. -/
theorem treeOutput_of_ne_nil {xs : List UInt8} (h : xs ≠ []) :
    treeOutput key flags xs = treeRoot key flags (chunks key flags 0 xs) := if_neg h

theorem treeOutput_single {xs : List UInt8} (hle : xs.length ≤ 1024) :
    treeOutput key flags xs = chunkOutput 0 flags key chunkStart xs := by
  by_cases h : xs = []
  · rw [h, treeOutput, if_pos rfl]
  · rw [treeOutput_of_ne_nil h, chunks_single h hle, treeRoot_singleton]

/-- The chaining values of the leaves make up that of the root. -/
theorem cv_treeRoot {os : List Output} (h : os ≠ []) :
    (treeRoot key flags os).cv = LeftTree.fold (nodeCv key flags) (os.map Output.cv) :=
  LeftTree.cv_root h

/-! ## The output -/

theorem length_rootBytes (o : Output) (seek n : ℕ) : (rootBytes o seek n).length = n := by
  rw [rootBytes, List.length_map, List.length_range']

/-- Consecutive pieces of output make up a longer one. -/
theorem rootBytes_append (o : Output) (seek n m : ℕ) :
    rootBytes o seek (n + m) = rootBytes o seek n ++ rootBytes o (seek + n) m := by
  rw [rootBytes, List.range'_append_1.symm, List.map_append]
  rfl

/-- Some bytes of a block. -/
theorem rootBytes_block (o : Output) (i offset n : ℕ) (h : offset + n ≤ 64) :
    rootBytes o (64 * i + offset) n = ((rootBlock o i).1.drop offset).take n := by
  have hlen := (rootBlock o i).2
  apply List.ext_getElem
  · rw [length_rootBytes, List.length_take, List.length_drop, hlen]
    omega
  · intro j hj _
    rw [length_rootBytes] at hj
    have hdiv : (64 * i + offset + j) / 64 = i := by omega
    have hmod : (64 * i + offset + j) % 64 = offset + j := by omega
    have hbyte : (rootBlock o i).1.getD (offset + j) 0 = (rootBlock o i).1[offset + j] := by
      rw [List.getD_eq_getElem?_getD, List.getElem?_eq_getElem (by omega), Option.getD_some]
    simp only [rootBytes, List.getElem_map, List.getElem_range', Nat.one_mul, hdiv, hmod, hbyte,
      List.getElem_take, List.getElem_drop]

/-- Some blocks. -/
theorem rootBytes_blocks (o : Output) (i n : ℕ) :
    rootBytes o (64 * i) (64 * n) =
      (List.range n).flatMap fun j => (rootBlock o (i + j)).1 := by
  induction n with
  | zero => rfl
  | succ n ih =>
    have hlast := rootBytes_block o (i + n) 0 64 (le_refl _)
    rw [List.drop_zero, List.take_of_length_le (rootBlock o (i + n)).2.le, Nat.add_zero] at hlast
    rw [Nat.mul_succ, rootBytes_append, ih, ← Nat.mul_add, hlast, List.range_succ,
      List.flatMap_append, List.flatMap_singleton]

end HybridPqc.Blake3
