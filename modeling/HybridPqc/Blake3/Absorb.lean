import HybridPqc.Blake3.Hasher

/-!
# What a hasher has read

After any pieces of an input, the chunks that are complete are the leaves of the trees on
the stack (`Hasher.Reading`). A piece of any size is read into this state
(`Hasher.Absorbed.update`), and the output is that of the tree over the whole input
(`Hasher.Absorbed.finalOutput_eq`).
-/

namespace HybridPqc.Blake3

open LeftTree (Lazy Merged leaves)

variable {impl : Impl} (hi : impl.Lawful) {key : Words} {flags : UInt8}

/-- The chaining values of trees over chunks. -/
def stackOf (key : Words) (flags : UInt8) : List (List Output) → List Cv :=
  LeftTree.stack Output.cv (nodeOutput key flags)

theorem stackOf_cons (t : List Output) (ts : List (List Output)) :
    stackOf key flags (t :: ts) = (treeRoot key flags t).cv :: stackOf key flags ts := rfl

theorem length_stackOf (ts : List (List Output)) : (stackOf key flags ts).length = ts.length :=
  List.length_map _

/-! ## The stack -/

/-- Joining the trees to a last one, from the top of the stack. -/
theorem stackOf_rollup (key : Words) (flags : UInt8) {ts : List (List Output)} (h : Merged ts)
    {bs : List Output} (hb : bs ≠ [])
    (hle : ∀ u ∈ ts, bs.length ≤ u.length) :
    (stackOf key flags ts).foldl (fun o c => nodeOutput key flags c o.cv)
      (treeRoot key flags bs) = treeRoot key flags (leaves ts ++ bs) :=
  h.rollup hb hle

theorem mergeLoop_of_le {n : ℕ} {cvStack : List Cv} (h : cvStack.length ≤ n) :
    mergeLoop impl key flags n cvStack = cvStack := by
  obtain _ | ⟨top, _ | ⟨next, rest⟩⟩ := cvStack
  · rw [mergeLoop]
    simp
  · rw [mergeLoop]
    simp
  · rw [List.length_cons, List.length_cons] at h
    rw [mergeLoop, if_neg (by omega)]

include hi in
/-- Subtrees are joined until there are as many as 1 bits in the number of chunks. -/
theorem mergeLoop_spec (key : Words) (flags : UInt8) {ts : List (List Output)} (h : Lazy ts) :
    ∃ ts', Merged ts' ∧ leaves ts' = leaves ts ∧
      mergeLoop impl key flags (leaves ts).length.bitIndices.length (stackOf key flags ts) =
        stackOf key flags ts' := by
  induction hn : ts.length generalizing ts with
  | zero =>
    obtain rfl := List.length_eq_zero_iff.1 hn
    exact ⟨[], .nil, rfl, mergeLoop_of_le (Nat.zero_le _)⟩
  | succ n ih =>
    rcases h.merged_or with hm | ⟨t, u, us, rfl, heq⟩
    · exact ⟨ts, hm, rfl, mergeLoop_of_le (by rw [hm.bits, length_stackOf])⟩
    · -- the two on top have the same size
      have hjoin := h.merge heq
      have hleaves : leaves ((u ++ t) :: us) = leaves (t :: u :: us) :=
        (List.append_assoc _ _ _).symm
      obtain ⟨ts', hm, hts', hloop⟩ := ih hjoin (by simpa using hn)
      have hbits := hjoin.bits.1
      obtain ⟨k, hk⟩ : ∃ k, u.length = 2 ^ k := by
        cases h with
        | cons ht _ _ => exact ⟨_, heq ▸ ht⟩
      have hcv : (nodeOutput key flags (treeRoot key flags u).cv (treeRoot key flags t).cv).cv =
          (treeRoot key flags (u ++ t)).cv := LeftTree.cv_root_twins hk heq
      rw [hleaves] at hts' hloop hbits
      rw [List.length_cons] at hbits
      rw [stackOf_cons, ← hcv] at hloop
      refine ⟨ts', hm, hts', ?_⟩
      rw [← hloop, stackOf_cons, stackOf_cons, mergeLoop,
        if_pos (by rw [length_stackOf]; omega)]
      dsimp only
      rw [outputChainingValue_eq hi]
      rfl

namespace Hasher

/-- A hasher with the complete chunks of `done` on its stack, and `rest` in its chunk. -/
structure Reading (h : Hasher) (key : Words) (flags : UInt8) (n : ℕ) (done rest : List UInt8)
    (ts : List (List Output)) : Prop where
  key_eq : h.key = key
  chunk : h.chunk.Absorbed key flags (UInt64.ofNat n) rest
  clear : rest = [] → h.chunk = .start key flags (UInt64.ofNat n)
  length_done : done.length = 1024 * n
  leaves_eq : leaves ts = chunks key flags 0 done
  stack_eq : h.cvStack = stackOf key flags ts
  stacked : Lazy ts

variable {self : Hasher} {n : ℕ} {done rest : List UInt8} {ts : List (List Output)}

theorem Reading.length_leaves (h : self.Reading key flags n done rest ts) :
    (leaves ts).length = n := by
  rw [h.leaves_eq, length_chunks, h.length_done]
  omega

theorem Reading.flags_eq (h : self.Reading key flags n done rest ts) :
    self.chunk.flags = flags :=
  ChunkState.Took.flags_eq h.chunk

theorem Reading.counter_eq (h : self.Reading key flags n done rest ts) :
    self.chunk.chunkCounter = UInt64.ofNat n :=
  ChunkState.Took.counter_eq h.chunk

theorem popcnt_ofNat {n : ℕ} (h : n < 2 ^ 64) :
    popcnt (UInt64.ofNat n) = n.bitIndices.length := by
  rw [popcnt, UInt64.toNat_ofNat_of_lt' h]

include hi in
theorem Reading.mergeCvStack (h : self.Reading key flags n done rest ts) (hn : n < 2 ^ 64) :
    ∃ ts', Merged ts' ∧
      (self.mergeCvStack impl (UInt64.ofNat n)).Reading key flags n done rest ts' := by
  obtain ⟨ts', hm, hleaves, hloop⟩ :=
    mergeLoop_spec hi key flags h.stacked
  refine ⟨ts', hm, h.key_eq, h.chunk, h.clear, h.length_done, hleaves.trans h.leaves_eq, ?_,
    hm.lazy⟩
  rw [h.length_leaves] at hloop
  rw [Hasher.mergeCvStack, popcnt_ofNat hn, h.key_eq, h.flags_eq, h.stack_eq, ← hloop]

/-- A hasher with one more tree on its stack, the chunks of which it does not count yet. -/
structure Pushed (h : Hasher) (key : Words) (flags : UInt8) (n : ℕ) (done rest : List UInt8)
    (k : ℕ) (t : List Output) (ts : List (List Output)) : Prop where
  below : ({ h with cvStack := stackOf key flags ts } : Hasher).Reading key flags n done rest ts
  merged : Merged ts
  fits : ∀ u ∈ ts, 2 ^ k ≤ u.length
  stack_eq : h.cvStack = stackOf key flags (t :: ts)

include hi in
/-- A perfect tree is pushed, whose size divides the number of the chunks before it. -/
theorem Reading.pushCv (h : self.Reading key flags n done rest ts) (hn : n < 2 ^ 64) {k : ℕ}
    (hk : 2 ^ k ∣ n) (t : List Output) :
    ∃ ts', (self.pushCv impl (treeRoot key flags t).cv (UInt64.ofNat n)).Pushed key flags n done
      rest k t ts' := by
  obtain ⟨ts', hm, hread⟩ := h.mergeCvStack hi hn
  rw [← hread.length_leaves] at hk
  have hstack := hread.stack_eq
  refine ⟨ts', ⟨?_, hm, hm.le_of_dvd hk, congrArg _ hstack⟩⟩
  rw [← hstack]
  exact hread

/-- Once the chunks of the new tree are counted, it is one of those on the stack. -/
theorem Pushed.reading {k : ℕ} {t : List Output} (h : self.Pushed key flags n done rest k t ts)
    {taken : List UInt8} (ht : t = chunks key flags (UInt64.ofNat n) taken)
    (hlen : taken.length = 1024 * 2 ^ k) :
    ({ self with chunk := .start key flags (UInt64.ofNat (n + 2 ^ k)) } : Hasher).Reading key
      flags (n + 2 ^ k) (done ++ taken) [] (t :: ts) := by
  have htlen : t.length = 2 ^ k := by
    rw [ht, length_chunks]
    omega
  refine ⟨h.below.key_eq, ChunkState.absorbed_start, fun _ => rfl, ?_, ?_, h.stack_eq,
    .cons htlen (by rw [htlen]; exact h.fits) h.merged⟩
  · rw [List.length_append, h.below.length_done, hlen, Nat.mul_add]
  · rw [LeftTree.leaves_cons, h.below.leaves_eq, chunks_append h.below.length_done, ht,
      UInt64.zero_add]

include hi in
/-- The chunk that is complete is pushed, and the next one begins. -/
theorem Reading.pushChunk (h : self.Reading key flags n done rest ts) (hn : n < 2 ^ 64)
    (hrest : rest.length = 1024) :
    ∃ ts', (({ self.pushCv impl (outputChainingValue impl self.chunk.output)
        self.chunk.chunkCounter with
      chunk := self.chunk.reset self.key (self.chunk.chunkCounter + 1) } : Hasher)).Reading
        key flags (n + 1) (done ++ rest) [] ts' := by
  have hne : rest ≠ [] := List.length_pos_iff.1 (by omega)
  have hchunks : [self.chunk.output] = chunks key flags (UInt64.ofNat n) rest := by
    rw [chunks_single hne hrest.le, h.chunk.output_eq]
  have hreset : self.chunk.reset self.key (self.chunk.chunkCounter + 1) =
      .start key flags (UInt64.ofNat (n + 1)) := by
    rw [h.chunk.reset, h.key_eq, h.counter_eq, UInt64.ofNat_add]
    rfl
  obtain ⟨ts', hp⟩ := h.pushCv hi hn (k := 0) (one_dvd n) [self.chunk.output]
  rw [treeRoot_singleton] at hp
  rw [outputChainingValue_eq hi, hreset, h.counter_eq]
  exact ⟨_, hp.reading hchunks hrest⟩

/-! ## Subtrees -/

/-- A mask of `i` bits. -/
theorem mask_eq_zero {i : ℕ} (h : i < 64) (count : UInt64) :
    UInt64.ofNat (2 ^ i - 1) &&& count = 0 ↔ 2 ^ i ∣ count.toNat := by
  have hpos := Nat.two_pow_pos i
  have hlt : 2 ^ i < 2 ^ 64 := Nat.pow_lt_pow_right (by decide) h
  rw [← UInt64.toNat_inj, UInt64.toNat_and, UInt64.toNat_ofNat_of_lt' (by omega : _ < 2 ^ 64),
    Nat.and_comm, Nat.and_two_pow_sub_one_eq_mod, Nat.dvd_iff_mod_eq_zero]
  rfl

/-- A power of two is halved until it divides what was read before. -/
theorem shrink_spec {i : ℕ} (h : i < 64) (count : UInt64) (hge : 10 ≤ i)
    (hcount : 2 ^ 10 ∣ count.toNat) :
    ∃ j, 10 ≤ j ∧ j ≤ i ∧ shrink (2 ^ i) count = 2 ^ j ∧ 2 ^ j ∣ count.toNat := by
  induction i with
  | zero => omega
  | succ i ih =>
    by_cases hdvd : 2 ^ (i + 1) ∣ count.toNat
    · refine ⟨i + 1, hge, le_refl _, ?_, hdvd⟩
      rw [shrink, if_neg (not_not.2 ((mask_eq_zero h count).2 hdvd))]
    · have hne : i + 1 ≠ 10 := fun h10 => hdvd (h10 ▸ hcount)
      obtain ⟨j, hj, hle, heq, hjd⟩ := ih (by omega) (by omega)
      refine ⟨j, hj, by omega, ?_, hjd⟩
      rw [shrink, if_pos (mt (mask_eq_zero h count).1 hdvd), pow_succ,
        Nat.mul_div_cancel _ (by decide), heq]

/-- What is taken of the input is a perfect tree, and fits on top of the others. -/
theorem Reading.subtreeLen (h : self.Reading key flags n done rest ts) {input : List UInt8}
    (hin : 1024 < input.length) (hlt : done.length + input.length < 2 ^ 64) :
    ∃ k, self.subtreeLen input = 1024 * 2 ^ k ∧ 2 ^ k ∣ n ∧ 1024 * 2 ^ k ≤ input.length := by
  have hdone := h.length_done
  have hlog : Nat.log2 input.length < 64 := (Nat.log2_lt (by omega)).2 (by omega)
  have hge : 10 ≤ Nat.log2 input.length := (Nat.le_log2 (by omega)).2 (by omega)
  have hself := Nat.log2_self_le (n := input.length) (by omega)
  have hcount : (self.chunk.chunkCounter * 1024).toNat = n * 1024 := by
    have hn : n < 2 ^ 64 := by omega
    rw [h.counter_eq, UInt64.toNat_mul, UInt64.toNat_ofNat_of_lt' hn]
    change n * 1024 % 2 ^ 64 = n * 1024
    exact Nat.mod_eq_of_lt (by omega)
  obtain ⟨j, hj, hle, heq, hdvd⟩ := shrink_spec hlog (self.chunk.chunkCounter * 1024)
    hge (by rw [hcount]; exact Dvd.intro_left n rfl)
  obtain ⟨k, rfl⟩ : ∃ k, j = 10 + k := ⟨j - 10, by omega⟩
  have hpow : 2 ^ (10 + k) = 1024 * 2 ^ k := pow_add 2 10 k
  have hlej := Nat.pow_le_pow_right (n := 2) (by decide) hle
  rw [hcount, hpow, mul_comm n] at hdvd
  rw [hpow] at heq hlej
  refine ⟨k, ?_, Nat.dvd_of_mul_dvd_mul_left (by decide) hdvd, hlej.trans hself⟩
  rw [Hasher.subtreeLen, roundDownToPowerOf2_eq (by omega), heq]

include hi in
/-- A single chunk is pushed, -/
theorem pushSubtree_chunk {cvStack : List Cv} {input : List UInt8}
    (hlen : subtreeLen ⟨key, .start key flags (UInt64.ofNat n), cvStack⟩ input = 1024) :
    pushSubtree impl ⟨key, .start key flags (UInt64.ofNat n), cvStack⟩ input =
      { pushCv impl ⟨key, .start key flags (UInt64.ofNat n), cvStack⟩
          (chunkOutput (UInt64.ofNat n) flags key chunkStart (input.take 1024)).cv
          (UInt64.ofNat n) with
        chunk := .start key flags (UInt64.ofNat (n + 1)) } := by
  have htake : (input.take 1024).length ≤ 1024 := by
    rw [List.length_take]
    omega
  obtain ⟨hout, hcounter⟩ := ChunkState.update_start hi key flags (UInt64.ofNat n) htake
  rw [pushSubtree, hlen, if_pos (le_refl _)]
  change ({ pushCv impl _ (outputChainingValue impl
    ((ChunkState.start key flags (UInt64.ofNat n)).update impl (input.take 1024)).output)
    ((ChunkState.start key flags (UInt64.ofNat n)).update impl
      (input.take 1024)).chunkCounter with chunk := _ } : Hasher) = _
  rw [hout, hcounter, outputChainingValue_eq hi, UInt64.ofNat_add]
  rfl

/-- or the two halves of a subtree. -/
theorem pushSubtree_pair {cvStack : List Cv} {input : List UInt8} {k : ℕ}
    (hlen : subtreeLen ⟨key, .start key flags (UInt64.ofNat n), cvStack⟩ input =
      1024 * 2 ^ (k + 1)) (hlt : 2 ^ (k + 1) < 2 ^ 64) {left right : Cv}
    (hpair : compressSubtreeToParentNode impl (input.take (1024 * 2 ^ (k + 1))) key
      (UInt64.ofNat n) flags = parentBlock left right) :
    pushSubtree impl ⟨key, .start key flags (UInt64.ofNat n), cvStack⟩ input =
      { (pushCv impl ⟨key, .start key flags (UInt64.ofNat n), cvStack⟩ left
          (UInt64.ofNat n)).pushCv impl right (UInt64.ofNat (n + 2 ^ k)) with
        chunk := .start key flags (UInt64.ofNat (n + 2 ^ (k + 1))) } := by
  have hpos := Nat.two_pow_pos k
  have hdiv : 1024 * 2 ^ (k + 1) / chunkLen = 2 ^ (k + 1) := Nat.mul_div_cancel_left _ (by decide)
  have hhalf : UInt64.ofNat (2 ^ (k + 1)) / 2 = UInt64.ofNat (2 ^ k) := by
    apply UInt64.toNat_inj.1
    rw [UInt64.toNat_div, UInt64.toNat_ofNat_of_lt' hlt, UInt64.toNat_ofNat_of_lt'
      (Nat.lt_of_le_of_lt (Nat.pow_le_pow_right (by decide) (Nat.le_succ k)) hlt), pow_succ]
    exact Nat.mul_div_cancel _ (by decide)
  have hleft : leftCv (parentBlock left right) = left :=
    Subtype.ext (List.take_left' left.2)
  have hright : rightCv (parentBlock left right) = right :=
    Subtype.ext (List.drop_left' left.2)
  have hlarge : ¬1024 * 2 ^ (k + 1) ≤ chunkLen := by
    rw [pow_succ]
    simp only [chunkLen]
    omega
  rw [pushSubtree, hlen, if_neg hlarge, hdiv, hhalf]
  change ({ (pushCv impl _ (leftCv (compressSubtreeToParentNode impl _ key (UInt64.ofNat n)
    flags)) (UInt64.ofNat n)).pushCv impl (rightCv (compressSubtreeToParentNode impl _ key
      (UInt64.ofNat n) flags)) (UInt64.ofNat n + _) with chunk := _ } : Hasher) = _
  rw [hpair, hleft, hright, UInt64.ofNat_add, UInt64.ofNat_add]
  rfl

/-- The halves of a perfect tree of more than one chunk. -/
theorem halves_chunks {xs ys : List UInt8} {k : ℕ} (hx : xs.length = 1024 * 2 ^ k)
    (hy : ys.length = 1024 * 2 ^ k) (counter : UInt64) :
    LeftTree.halves (nodeCv key flags) ((chunks key flags counter (xs ++ ys)).map Output.cv) =
      ((treeRoot key flags (chunks key flags counter xs)).cv,
        (treeRoot key flags (chunks key flags (counter + UInt64.ofNat (2 ^ k)) ys)).cv) := by
  have hpos := Nat.two_pow_pos k
  have hxne : chunks key flags counter xs ≠ [] :=
    chunks_ne_nil (List.length_pos_iff.1 (by omega))
  have hyne : chunks key flags (counter + UInt64.ofNat (2 ^ k)) ys ≠ [] :=
    chunks_ne_nil (List.length_pos_iff.1 (by omega))
  rw [chunks_append hx, List.map_append, LeftTree.halves_append (k := k)
    (by rw [List.length_map, length_chunks]; omega) (by simpa using hyne)
    (by rw [List.length_map, length_chunks]; omega), cv_treeRoot hxne, cv_treeRoot hyne]

include hi in
/-- A subtree is read, from the beginning of the input. If it is more than one chunk, there are
    two trees for it on the stack. -/
theorem Reading.pushSubtree (h : self.Reading key flags n done [] ts) {input : List UInt8}
    (hin : 1024 < input.length) (hlt : done.length + input.length < 2 ^ 64) :
    ∃ m ts', 0 < m ∧ self.subtreeLen input = 1024 * m ∧ 1024 * m ≤ input.length ∧
      (self.pushSubtree impl input).Reading key flags (n + m) (done ++ input.take (1024 * m)) []
        ts' ∧ (m ≠ 1 → 2 ≤ ts'.length) := by
  have hdone := h.length_done
  have hn : n < 2 ^ 64 := by omega
  obtain ⟨k, hlen, hdvd, hle⟩ := h.subtreeLen hin hlt
  have hkpos := Nat.two_pow_pos k
  obtain ⟨key', chunk, cvStack⟩ := self
  obtain rfl : key' = key := h.key_eq
  obtain rfl : chunk = _ := h.clear rfl
  cases k with
  | zero =>
    have htake : (input.take 1024).length = 1024 := by
      rw [List.length_take]
      omega
    have hchunks : chunks key' flags (UInt64.ofNat n) (input.take 1024) = _ :=
      chunks_single (List.length_pos_iff.1 (by omega)) htake.le
    obtain ⟨ts', hp⟩ := h.pushCv hi hn (k := 0) (one_dvd n)
      [chunkOutput (UInt64.ofNat n) flags key' chunkStart (input.take 1024)]
    have hread := hp.reading hchunks.symm htake
    rw [treeRoot_singleton] at hread
    rw [pushSubtree_chunk hi hlen]
    exact ⟨1, _, Nat.one_pos, hlen, hin.le, hread, fun h1 => absurd rfl h1⟩
  | succ k =>
    have hpow : 2 ^ (k + 1) = 2 ^ k + 2 ^ k := by rw [pow_succ]; omega
    have hkpos := Nat.two_pow_pos k
    -- the two halves
    have hleft : (input.take (1024 * 2 ^ k)).length = 1024 * 2 ^ k := by
      rw [List.length_take]
      omega
    have hright : ((input.drop (1024 * 2 ^ k)).take (1024 * 2 ^ k)).length = 1024 * 2 ^ k := by
      rw [List.length_take, List.length_drop]
      omega
    have hsplit : input.take (1024 * 2 ^ (k + 1)) =
        input.take (1024 * 2 ^ k) ++ (input.drop (1024 * 2 ^ k)).take (1024 * 2 ^ k) := by
      rw [hpow, Nat.mul_add, List.take_add]
    have hlarge : chunkLen < (input.take (1024 * 2 ^ (k + 1))).length := by
      rw [List.length_take]
      simp only [chunkLen]
      omega
    have hnode := compressSubtreeToParentNode_eq hi key' flags hlarge (UInt64.ofNat n)
    rw [hsplit, halves_chunks hleft hright, ← hsplit] at hnode
    -- they are pushed one after the other
    obtain ⟨ts₁, hp₁⟩ := h.pushCv hi hn ((Nat.pow_dvd_pow 2 (Nat.le_succ k)).trans hdvd)
      (chunks key' flags (UInt64.ofNat n) (input.take (1024 * 2 ^ k)))
    have hread₁ := hp₁.reading rfl hleft
    obtain ⟨ts₂, hp₂⟩ := hread₁.pushCv hi (by omega)
      (Nat.dvd_add ((Nat.pow_dvd_pow 2 (Nat.le_succ k)).trans hdvd) (dvd_refl _))
      (chunks key' flags (UInt64.ofNat (n + 2 ^ k)) ((input.drop (1024 * 2 ^ k)).take
        (1024 * 2 ^ k)))
    have hread₂ := hp₂.reading rfl hright
    rw [List.append_assoc, ← hsplit, Nat.add_assoc, ← hpow] at hread₂
    rw [pushSubtree_pair hlen (by omega) hnode, ← UInt64.ofNat_add]
    refine ⟨2 ^ (k + 1), _, by omega, hlen, hle, hread₂, fun _ => ?_⟩
    -- the tree of the left half is still there
    have hbelow := hp₂.below.length_leaves
    rcases ts₂ with _ | ⟨t, ts₂⟩
    · simp only [LeftTree.leaves_nil, List.length_nil] at hbelow
      omega
    · simp

include hi in
/-- As much of the input as makes up subtrees is read, if there is more after it, or else all
    of it. -/
theorem Reading.updateLoop (h : self.Reading key flags n done [] ts) {input : List UInt8}
    (hlt : done.length + input.length < 2 ^ 64) :
    ∃ n' done' ts', (self.updateLoop impl input).1.Reading key flags n' done' [] ts' ∧
      done' ++ (self.updateLoop impl input).2 = done ++ input ∧
      (self.updateLoop impl input).2.length ≤ 1024 ∧
      ((self.updateLoop impl input).2 = [] → input = [] ∨ 2 ≤ ts'.length) := by
  induction hm : input.length using Nat.strong_induction_on generalizing self n done input ts with
  | _ m ih =>
    subst hm
    by_cases hin : input.length > chunkLen
    · obtain ⟨m, ts₁, hpos, hlen, hle, hread, htwo⟩ := h.pushSubtree hi hin hlt
      have hdone : (done ++ input.take (1024 * m)).length + (input.drop (1024 * m)).length =
          done.length + input.length := by
        rw [List.length_append, List.length_take, List.length_drop]
        omega
      have hshort : (input.drop (1024 * m)).length < input.length := by
        rw [List.length_drop]
        omega
      rw [Hasher.updateLoop, if_pos hin, hlen]
      by_cases hdrop : input.drop (1024 * m) = []
      · -- the last subtree was all that was left, hence more than one chunk
        have hall : input.length ≤ 1024 * m := List.drop_eq_nil_iff.1 hdrop
        simp only [chunkLen] at hin
        rw [hdrop, Hasher.updateLoop, if_neg (by simp)]
        refine ⟨n + m, _, ts₁, hread, ?_, Nat.zero_le _, fun _ => .inr (htwo (by omega))⟩
        rw [List.append_nil, List.take_of_length_le hall]
      · obtain ⟨n', done', ts', hread', happ, hrest, hnil⟩ := ih _ hshort hread (by omega) rfl
        rw [List.append_assoc, List.take_append_drop] at happ
        exact ⟨n', done', ts', hread', happ, hrest,
          fun hempty => .inr ((hnil hempty).resolve_left hdrop)⟩
    · rw [Hasher.updateLoop, if_neg hin]
      exact ⟨n, done, ts, h, rfl, Nat.not_lt.1 hin, fun hempty => .inl hempty⟩

/-! ## Whole inputs -/

/-- A hasher that has read the input `xs`. -/
def Absorbed (h : Hasher) (key : Words) (flags : UInt8) (xs : List UInt8) : Prop :=
  ∃ n done rest ts, xs = done ++ rest ∧ rest.length ≤ 1024 ∧ h.Reading key flags n done rest ts ∧
    (rest ≠ [] → Merged ts) ∧ (rest = [] → ts = [] ∨ 2 ≤ ts.length)

theorem absorbed_init (key : Words) (flags : UInt8) :
    (hasherInitBase key flags).Absorbed key flags [] :=
  ⟨0, [], [], [], rfl, Nat.zero_le _,
    ⟨rfl, ChunkState.absorbed_start, fun _ => rfl, rfl, (chunks_nil 0).symm, rfl, .nil⟩,
    fun h => absurd rfl h, fun _ => .inl rfl⟩

include hi in
theorem Reading.updateRest (h : self.Reading key flags n done [] ts) {input : List UInt8}
    (hne : input ≠ []) (hlt : done.length + input.length < 2 ^ 64) :
    (self.updateRest impl input).Absorbed key flags (done ++ input) := by
  obtain ⟨n', done', ts', hread, happ, hle, hnil⟩ := h.updateLoop hi hlt
  have hn' := hread.length_done
  have hlen := congrArg List.length happ
  rw [List.length_append, List.length_append] at hlen
  rw [Hasher.updateRest, ← happ]
  generalize self.updateLoop impl input = t at hread hle hnil hlen
  obtain ⟨self', input'⟩ := t
  dsimp only at hread hle hnil hlen ⊢
  split
  case isTrue hpos =>
    have hchunk : (self'.chunk.update impl input').Absorbed key flags (UInt64.ofNat n')
        ([] ++ input') :=
      hread.chunk.update hi (by rwa [List.length_nil, Nat.zero_add])
    have hne' : input' ≠ [] := List.length_pos_iff.1 hpos
    have hread' : ({ self' with chunk := self'.chunk.update impl input' } : Hasher).Reading key
        flags n' done' input' ts' :=
      ⟨hread.key_eq, hchunk, fun h0 => absurd h0 hne', hn', hread.leaves_eq, hread.stack_eq,
        hread.stacked⟩
    obtain ⟨ts'', hm, hread''⟩ := hread'.mergeCvStack hi (by omega)
    rw [← hread'.counter_eq] at hread''
    exact ⟨n', done', input', ts'', rfl, hle, hread'', fun _ => hm, fun h0 => absurd h0 hne'⟩
  case isFalse hpos =>
    have hnil' : input' = [] := List.length_eq_zero_iff.1 (Nat.eq_zero_of_not_pos hpos)
    subst hnil'
    exact ⟨n', done', [], ts', rfl, hle, hread, fun h0 => absurd rfl h0,
      fun _ => .inr ((hnil rfl).resolve_left hne)⟩

include hi in
/-- A piece of the input is read, wherever it begins and ends. -/
theorem Absorbed.update {xs : List UInt8} (h : self.Absorbed key flags xs) {input : List UInt8}
    (hlt : xs.length + input.length < 2 ^ 64) :
    (self.update impl input).Absorbed key flags (xs ++ input) := by
  rw [Hasher.update]
  split
  case isTrue h0 =>
    rwa [List.length_eq_zero_iff.1 h0, List.append_nil]
  case isFalse h0 =>
    have hne : input ≠ [] := mt List.length_eq_zero_iff.2 h0
    obtain ⟨n, done, rest, ts, rfl, hle, hread, hmerged, htwo⟩ := h
    have hn := hread.length_done
    have hrest := hread.chunk.len_eq
    rw [List.length_append] at hlt
    split
    case isTrue hpos =>
      have hrne : rest ≠ [] := List.length_pos_iff.1 (by omega)
      have htake : (if chunkLen - self.chunk.len > input.length then input.length
          else chunkLen - self.chunk.len) = min (1024 - rest.length) input.length := by
        rw [hrest]
        simp only [chunkLen]
        split <;> omega
      dsimp only
      rw [htake]
      generalize htk : min (1024 - rest.length) input.length = take
      have htlen : (input.take take).length = take := by
        rw [List.length_take]
        omega
      -- the chunk, after some of the input
      have hchunk : (self.chunk.update impl (input.take take)).Absorbed key flags
          (UInt64.ofNat n) (rest ++ input.take take) := hread.chunk.update hi (by omega)
      have hread' : ({ self with chunk := self.chunk.update impl (input.take take) } :
          Hasher).Reading key flags n done (rest ++ input.take take) ts :=
        ⟨hread.key_eq, hchunk,
          fun h1 => absurd h1 (List.append_ne_nil_of_left_ne_nil hrne _), hn, hread.leaves_eq,
          hread.stack_eq, hread.stacked⟩
      have happ : done ++ rest ++ input =
          done ++ (rest ++ input.take take) ++ input.drop take := by
        rw [List.append_assoc, List.append_assoc, List.append_assoc, List.take_append_drop]
      rw [happ]
      split
      case isTrue hmore =>
        rw [List.length_drop] at hmore
        obtain ⟨ts', hnext⟩ := hread'.pushChunk hi (by omega)
          (by rw [List.length_append, htlen]; omega)
        exact hnext.updateRest hi (List.length_pos_iff.1 (by rwa [List.length_drop]))
          (by simp only [List.length_append, List.length_take, List.length_drop]; omega)
      case isFalse hdone =>
        rw [List.length_eq_zero_iff.1 (Nat.eq_zero_of_not_pos hdone), List.append_nil]
        exact ⟨n, done, _, ts, rfl, by rw [List.length_append, htlen]; omega, hread',
          fun _ => hmerged hrne, fun h1 => absurd h1 (List.append_ne_nil_of_left_ne_nil hrne _)⟩
    case isFalse hpos =>
      obtain rfl : rest = [] := List.length_eq_zero_iff.1 (by omega)
      rw [List.append_nil]
      exact hread.updateRest hi hne (by omega)

/-- The stack has room for `BLAKE3_MAX_DEPTH + 1` chaining values. -/
theorem Absorbed.length_le {xs : List UInt8} (h : self.Absorbed key flags xs)
    (hlt : xs.length < 2 ^ 64) : self.cvStack.length ≤ 54 + 1 := by
  obtain ⟨n, done, rest, ts, rfl, _, hread, _⟩ := h
  rw [List.length_append, hread.length_done] at hlt
  rw [hread.stack_eq, length_stackOf]
  exact hread.stacked.length_le (by rw [hread.length_leaves]; omega)

include hi in
/-- However an input is read, the output is that of its tree. -/
theorem Absorbed.finalOutput_eq {xs : List UInt8} (h : self.Absorbed key flags xs) :
    self.finalOutput impl = treeOutput key flags xs := by
  obtain ⟨n, done, rest, ts, rfl, hle, hread, hmerged, htwo⟩ := h
  have hjoin : (fun (output : Output) (cv : Cv) => parentOutput
      (parentBlock cv (outputChainingValue impl output)) self.key self.chunk.flags) =
        fun o c => nodeOutput key flags c o.cv := by
    funext o c
    rw [outputChainingValue_eq hi, hread.key_eq, hread.flags_eq]
    rfl
  have hn := hread.length_done
  have hchunks : chunks key flags 0 (done ++ rest) = _ := chunks_append hn rest
  have hleaves := hread.length_leaves
  have hlen := hread.chunk.len_eq
  have hout := hread.chunk.output_eq
  have hstack := hread.stack_eq
  have hlazy := hread.stacked
  rw [UInt64.zero_add, ← hread.leaves_eq] at hchunks
  rw [finalOutput, hstack, hjoin, hread.key_eq, hread.flags_eq, hlen]
  rcases ts with _ | ⟨t, ts⟩
  · -- the chunk is the root
    simp only [LeftTree.leaves_nil, List.length_nil] at hleaves
    obtain rfl : done = [] := List.length_eq_zero_iff.1 (by omega)
    rw [List.nil_append, treeOutput_single hle]
    change self.chunk.output = _
    rw [hout, ← hleaves]
    rfl
  · have hpos : 0 < t.length := by
      cases hlazy with
      | cons ht _ _ => rw [ht]; exact Nat.two_pow_pos _
    have hxne : done ++ rest ≠ [] := by
      rw [LeftTree.leaves_cons, List.length_append] at hleaves
      exact List.append_ne_nil_of_left_ne_nil (List.length_pos_iff.1 (by omega)) rest
    rw [treeOutput_of_ne_nil hxne, hchunks]
    by_cases hrne : rest = []
    · -- the two subtrees on top make the first node
      rcases ts with _ | ⟨u, us⟩
      · exact absurd ((htwo hrne).resolve_left (List.cons_ne_nil _ _)) (by simp)
      · rw [hrne, chunks_nil, List.append_nil, treeRoot, ← hlazy.rollup]
        rfl
    · -- the chunk is joined to all subtrees
      have hrpos := List.length_pos_iff.2 hrne
      have hmt := hmerged hrne
      have hone : ∀ v ∈ t :: ts, ([self.chunk.output] : List Output).length ≤ v.length := by
        intro v hv
        obtain ⟨k, hk⟩ := hmt.perfect v hv
        rw [hk]
        exact Nat.two_pow_pos k
      have hroll := stackOf_rollup key flags hmt
        (List.cons_ne_nil self.chunk.output []) hone
      rw [treeRoot_singleton] at hroll
      rw [chunks_single hrne hle, ← hout, ← hroll]
      change (if rest.length > 0 then _ else _) = _
      rw [if_pos hrpos]
      rfl

end Hasher

/-! ## Output -/

include hi in
/-- Blocks of output, the last of which may be cut. -/
theorem outputBlocks_eq (o : Output) (out : List UInt8) (i outLen : ℕ) :
    outputBlocks impl o (o.flags ||| rootFlag) out (UInt64.ofNat i) outLen =
      out ++ rootBytes o (64 * i) outLen := by
  have hmany : impl.xofMany o.inputCv o.block o.blockLen (UInt64.ofNat i) (o.flags ||| rootFlag)
      (outLen / 64) = rootBytes o (64 * i) (64 * (outLen / 64)) := by
    rw [hi.xofMany_eq, rootBytes_blocks]
    simp only [xofManyLoop, rootBlock, UInt64.ofNat_add]
  have hlast : ((rootBlock o (i + outLen / 64)).1.take (outLen - outLen / 64 * 64)) =
      rootBytes o (64 * i + 64 * (outLen / 64)) (outLen - outLen / 64 * 64) := by
    have := rootBytes_block o (i + outLen / 64) 0 (outLen - outLen / 64 * 64) (by omega)
    rw [← Nat.mul_add]
    exact this.symm
  have hout : (if outLen / 64 ≠ 0 then out ++ rootBytes o (64 * i) (64 * (outLen / 64)) else out) =
      out ++ rootBytes o (64 * i) (64 * (outLen / 64)) := by
    split
    case isTrue => rfl
    case isFalse h => rw [not_not.1 h]; exact (List.append_nil out).symm
  have hsum : outLen = 64 * (outLen / 64) + (outLen - outLen / 64 * 64) := by omega
  rw [outputBlocks, hmany]
  dsimp only
  rw [hout, hi.compressXof_eq, ← UInt64.ofNat_add]
  change (if _ then _ ++ (rootBlock o (i + outLen / 64)).1.take _ else _) = _
  rw [hlast]
  conv_rhs => rw [hsum, rootBytes_append, ← List.append_assoc]
  split
  case isTrue => rfl
  case isFalse h => rw [not_not.1 h]; exact (List.append_nil _).symm

include hi in
/-- Any bytes of the output, wherever they begin and end in its blocks. -/
theorem outputRootBytes_eq (o : Output) (seek : UInt64) (outLen : ℕ) :
    outputRootBytes impl o seek outLen = rootBytes o seek.toNat outLen := by
  have hcounter : seek / 64 = UInt64.ofNat (seek.toNat / 64) := by
    apply UInt64.toNat_inj.1
    rw [UInt64.toNat_div, UInt64.toNat_ofNat_of_lt'
      (Nat.lt_of_le_of_lt (Nat.div_le_self _ _) seek.toNat_lt)]
    rfl
  have hoffset : (seek % 64).toNat = seek.toNat % 64 := UInt64.toNat_mod seek 64
  have hnext : UInt64.ofNat (seek.toNat / 64) + 1 = UInt64.ofNat (seek.toNat / 64 + 1) := by
    rw [UInt64.ofNat_add]
    rfl
  rw [outputRootBytes, hcounter, hoffset]
  generalize seek.toNat = s at hnext
  split
  case isTrue h0 => rw [h0]; rfl
  case isFalse h0 =>
    dsimp only
    split
    case isTrue hoff =>
      -- the end of the first block
      have hbytes : (if outLen > 64 - s % 64 then 64 - s % 64 else outLen) =
          min outLen (64 - s % 64) := by
        split <;> omega
      have hfirst := rootBytes_block o (s / 64) (s % 64) (min outLen (64 - s % 64))
        (by omega)
      have hs : 64 * (s / 64) + s % 64 = s := by omega
      rw [hs] at hfirst
      rw [hbytes, hnext, outputBlocks_eq hi, hi.compressXof_eq]
      change ((rootBlock o (s / 64)).1.drop _).take _ ++ _ = _
      rw [← hfirst]
      rcases Nat.le_total outLen (64 - s % 64) with hle | hge
      · rw [Nat.min_eq_left hle, Nat.sub_self]
        exact List.append_nil _
      · have hend : 64 * (s / 64 + 1) = s + (64 - s % 64) := by omega
        rw [Nat.min_eq_right hge, hend, ← rootBytes_append]
        congr 1
        omega
    case isFalse hoff =>
      have hs : 64 * (s / 64) = s := by omega
      rw [outputBlocks_eq hi, hs, List.nil_append]

end HybridPqc.Blake3
