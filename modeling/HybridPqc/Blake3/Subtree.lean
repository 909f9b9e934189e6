import HybridPqc.Blake3.Tree

/-!
# Subtrees

Many chunks at once: `blake3_compress_subtree_wide` halves its input down to as many
chunks as there are SIMD lanes, and joins the chaining values of the halves level by
level, never down to a single one. `compress_subtree_to_parent_node` goes on with the
levels until two are left.

Whatever the number of lanes, these two are the chaining values of the halves of the
left-balanced tree over the chunks (`compressSubtreeToParentNode_eq`), and the arrays in
which the levels are kept are not overrun (`compressSubtreeWide_le`).
-/

namespace HybridPqc.Blake3

variable (impl : Impl)

/-! ## Lengths -/

/-- The index of the highest bit, for a number that is not zero. -/
def highestOne (x : ℕ) : ℕ := Nat.log2 x

def roundDownToPowerOf2 (x : ℕ) : ℕ := 1 <<< highestOne (x ||| 1)

def leftSubtreeLen (inputLen : ℕ) : ℕ :=
  let fullChunks := (inputLen - 1) / chunkLen
  roundDownToPowerOf2 fullChunks * chunkLen

theorem roundDownToPowerOf2_eq {x : ℕ} (h : 0 < x) :
    roundDownToPowerOf2 x = 2 ^ Nat.log2 x := by
  have hlow := Nat.log2_self_le (n := x) (by omega)
  have hle : x ≤ x ||| 1 := Nat.left_le_or
  have hone : 1 < 2 ^ (Nat.log2 x + 1) := Nat.one_lt_two_pow (by omega)
  have hlt := Nat.or_lt_two_pow Nat.lt_log2_self hone
  have hlog : Nat.log2 (x ||| 1) = Nat.log2 x :=
    (Nat.log2_eq_iff (by omega)).2 ⟨hlow.trans hle, hlt⟩
  rw [roundDownToPowerOf2, highestOne, hlog, Nat.shiftLeft_eq, one_mul]

/-- The left subtree of more than one chunk. -/
theorem leftSubtreeLen_eq {n : ℕ} (h : chunkLen < n) :
    leftSubtreeLen n = LeftTree.leftLen ((n + 1023) / 1024) * 1024 := by
  have hchunks : (n - 1) / 1024 = (n + 1023) / 1024 - 1 := by omega
  change roundDownToPowerOf2 ((n - 1) / 1024) * 1024 = _
  rw [roundDownToPowerOf2_eq (by simp only [chunkLen] at h; omega), LeftTree.leftLen, hchunks]

theorem leftSubtreeLen_lt {n : ℕ} (h : chunkLen < n) : leftSubtreeLen n < n := by
  have := LeftTree.leftLen_lt (n := (n + 1023) / 1024) (by simp only [chunkLen] at h; omega)
  rw [leftSubtreeLen_eq h]
  omega

theorem leftSubtreeLen_pos (n : ℕ) : 0 < leftSubtreeLen n := by
  rw [leftSubtreeLen, roundDownToPowerOf2, Nat.shiftLeft_eq, one_mul]
  exact Nat.mul_pos (Nat.two_pow_pos _) (by decide)

/-! ## Levels -/

/-- The whole chunks of an input, and what is left of it. -/
def splitChunks (input : List UInt8) : List (List UInt8) × List UInt8 :=
  if input.length ≥ chunkLen then
    let (chunksArray, rest) := splitChunks (input.drop chunkLen)
    (input.take chunkLen :: chunksArray, rest)
  else ([], input)
termination_by input.length
decreasing_by simp only [List.length_drop, chunkLen] at *; omega

def compressChunksParallel (input : List UInt8) (key : Words) (chunkCounter : UInt64)
    (flags : UInt8) : List Cv :=
  let (chunksArray, rest) := splitChunks input
  let out := impl.hashMany chunksArray (chunkLen / blockLen) key chunkCounter true flags
    chunkStart chunkEnd
  if rest.length > 0 then
    let counter := chunkCounter + UInt64.ofNat chunksArray.length
    let chunkState := { chunkStateInit key flags with chunkCounter := counter }
    let chunkState := chunkState.update impl rest
    out ++ [outputChainingValue impl chunkState.output]
  else out

/-- The parent nodes of pairs of chaining values, and an odd one that is left. -/
def splitParents : List Cv → List Block × List Cv
  | left :: right :: cvs =>
    let (parentsArray, rest) := splitParents cvs
    (parentBlock left right :: parentsArray, rest)
  | cvs => ([], cvs)

def compressParentsParallel (childChainingValues : List Cv) (key : Words) (flags : UInt8) :
    List Cv :=
  let (parentsArray, rest) := splitParents childChainingValues
  let inputs := parentsArray.map (·.1)
  impl.hashMany inputs 1 key 0 false (flags ||| parentFlag) 0 0 ++ rest

/-- The array of the chaining values of two subtrees, the right ones of which are written
    `degree` places after its beginning. -/
def cvArray (degree : ℕ) (left right : List Cv) : List Cv :=
  left.take degree ++ List.replicate (degree - left.length) (Bytes.zero 32) ++ right

def compressSubtreeWide (input : List UInt8) (key : Words) (chunkCounter : UInt64)
    (flags : UInt8) : List Cv :=
  if input.length ≤ impl.simdDegree * chunkLen then
    compressChunksParallel impl input key chunkCounter flags
  else
    let leftInputLen := leftSubtreeLen input.length
    let rightInput := input.drop leftInputLen
    let rightChunkCounter := chunkCounter + UInt64.ofNat (leftInputLen / chunkLen)
    let degree :=
      if leftInputLen > chunkLen ∧ impl.simdDegree = 1 then 2 else impl.simdDegree
    let left := compressSubtreeWide (input.take leftInputLen) key chunkCounter flags
    let right := compressSubtreeWide rightInput key rightChunkCounter flags
    let cvs := cvArray degree left right
    if left.length = 1 then cvs.take 2
    else compressParentsParallel impl (cvs.take (left.length + right.length)) key flags
termination_by input.length
decreasing_by
  · rename_i h
    have hpos := impl.simdDegree_pos
    have := leftSubtreeLen_lt (n := input.length) (by simp only [chunkLen] at h ⊢; omega)
    rw [List.length_take]
    omega
  · rename_i h
    have hpos := impl.simdDegree_pos
    have := leftSubtreeLen_pos input.length
    simp only [List.length_drop, chunkLen] at h ⊢
    omega

theorem length_splitParents (cvs : List Cv) :
    (splitParents cvs).1.length = cvs.length / 2 ∧
      (splitParents cvs).2.length = cvs.length % 2 := by
  induction cvs using splitParents.induct with
  | case1 left right cvs parentsArray rest heq ih =>
    rw [splitParents]
    simp only [List.length_cons]
    omega
  | case2 cvs h =>
    obtain _ | ⟨a, _ | ⟨b, cvs⟩⟩ := cvs
    · simp [splitParents]
    · simp [splitParents]
    · exact absurd rfl (h a b cvs)

theorem length_compressParentsParallel (cvs : List Cv) (key : Words) (flags : UInt8) :
    (compressParentsParallel impl cvs key flags).length = (cvs.length + 1) / 2 := by
  have := length_splitParents cvs
  rw [compressParentsParallel]
  simp only [List.length_append, impl.length_hashMany, List.length_map]
  omega

/-- The loop of `compress_subtree_to_parent_node`. -/
def condense (cvs : List Cv) (key : Words) (flags : UInt8) : List Cv :=
  if cvs.length > 2 then condense (compressParentsParallel impl cvs key flags) key flags else cvs
termination_by cvs.length
decreasing_by rw [length_compressParentsParallel]; omega

def compressSubtreeToParentNode (input : List UInt8) (key : Words) (chunkCounter : UInt64)
    (flags : UInt8) : Block :=
  let cvs := compressSubtreeWide impl input key chunkCounter flags
  let cvs := condense impl cvs key flags
  parentBlock (cvs.getD 0 (Bytes.zero 32)) (cvs.getD 1 (Bytes.zero 32))

/-! ## What the levels are -/

section Lawful

variable {impl : Impl} (hi : impl.Lawful) {key : Words} {flags : UInt8}

theorem splitChunks_take {input : List UInt8} (h : chunkLen ≤ input.length) :
    splitChunks input = (input.take chunkLen :: (splitChunks (input.drop chunkLen)).1,
      (splitChunks (input.drop chunkLen)).2) := by
  rw [splitChunks, if_pos h]

theorem splitChunks_short {input : List UInt8} (h : input.length < chunkLen) :
    splitChunks input = ([], input) := by
  rw [splitChunks, if_neg (Nat.not_le.2 h)]

/-- The windows of an input, and what is left of it. -/
theorem splitChunks_spec (key : Words) (flags : UInt8) (counter : UInt64) (input : List UInt8) :
    (chunks key flags counter input).map Output.cv =
        hashManyPortable (splitChunks input).1 16 key counter true flags chunkStart chunkEnd ++
          (chunks key flags (counter + UInt64.ofNat (splitChunks input).1.length)
            (splitChunks input).2).map Output.cv ∧
      (splitChunks input).2.length < 1024 ∧ ∀ xs ∈ (splitChunks input).1, xs.length = 1024 := by
  induction hn : input.length using Nat.strong_induction_on generalizing counter input with
  | _ n ih =>
    subst hn
    by_cases h : chunkLen ≤ input.length
    · have hlen : (input.take 1024).length = 1024 := by
        rw [List.length_take]
        exact Nat.min_eq_left h
      have hlt : (input.drop 1024).length < input.length := by
        rw [List.length_drop]
        exact Nat.sub_lt (Nat.lt_of_lt_of_le (by decide) h) (by decide)
      have hne : input ≠ [] := List.length_pos_iff.1 (Nat.lt_of_lt_of_le (by decide) h)
      obtain ⟨hmap, hrest, hall⟩ := ih _ hlt (counter + 1) (input.drop 1024) rfl
      have hcount : counter + 1 + UInt64.ofNat (splitChunks (input.drop 1024)).1.length =
          counter + UInt64.ofNat ((splitChunks (input.drop 1024)).1.length + 1) := by
        rw [UInt64.add_assoc, UInt64.ofNat_add, UInt64.add_comm 1]
        rfl
      rw [splitChunks_take h]
      refine ⟨?_, hrest, List.forall_mem_cons.2 ⟨hlen, hall⟩⟩
      rw [chunks_of_ne_nil hne, List.map_cons, hmap, hcount, hashManyPortable,
        hashOnePortable_chunk hlen]
      rfl
    · have hshort := Nat.lt_of_not_le h
      rw [splitChunks_short hshort]
      refine ⟨?_, hshort, by simp⟩
      change _ = [] ++ (chunks key flags (counter + 0) input).map Output.cv
      rw [List.nil_append, UInt64.add_zero]

include hi in
theorem compressChunksParallel_eq (input : List UInt8) (counter : UInt64) :
    compressChunksParallel impl input key counter flags =
      (chunks key flags counter input).map Output.cv := by
  obtain ⟨hmap, hrest, hall⟩ := splitChunks_spec key flags counter input
  rw [compressChunksParallel]
  generalize splitChunks input = t at hmap hrest hall
  obtain ⟨chunksArray, rest⟩ := t
  have hmany : impl.hashMany chunksArray 16 key counter true flags chunkStart chunkEnd = _ :=
    hi.hashMany_eq (fun xs hxs => (hall xs hxs).ge) key counter true flags chunkStart chunkEnd
  dsimp only at hmap hrest ⊢
  rw [hmap, ← hmany]
  split
  case isTrue h =>
    have hout := (ChunkState.update_start hi key flags
      (counter + UInt64.ofNat chunksArray.length) hrest.le).1
    change _ ++ [outputChainingValue impl ((ChunkState.start key flags _).update impl rest).output]
      = _
    rw [hout, chunks_single (List.length_pos_iff.1 h) hrest.le, List.map_singleton,
      outputChainingValue_eq hi]
    rfl
  case isFalse h =>
    rw [List.length_eq_zero_iff.1 (Nat.eq_zero_of_not_pos h), chunks_nil, List.map_nil,
      List.append_nil]
    rfl

theorem splitParents_spec (cvs : List Cv) :
    LeftTree.parents (nodeCv key flags) cvs =
      hashManyPortable ((splitParents cvs).1.map (·.1)) 1 key 0 false (flags ||| parentFlag) 0 0 ++
        (splitParents cvs).2 := by
  induction cvs using splitParents.induct with
  | case1 left right cvs parentsArray rest heq ih =>
    rw [LeftTree.parents, ih, splitParents, List.map_cons, hashManyPortable,
      hashOnePortable_parent]
    rfl
  | case2 cvs h =>
    obtain _ | ⟨a, _ | ⟨b, cvs⟩⟩ := cvs
    · simp [splitParents, hashManyPortable]
    · simp [splitParents, hashManyPortable]
    · exact absurd rfl (h a b cvs)

include hi in
theorem compressParentsParallel_eq (cvs : List Cv) :
    compressParentsParallel impl cvs key flags = LeftTree.parents (nodeCv key flags) cvs := by
  have hblocks : ∀ xs ∈ (splitParents cvs).1.map (·.1), 64 * 1 ≤ xs.length := by
    intro xs hxs
    obtain ⟨block, _, rfl⟩ := List.mem_map.1 hxs
    exact block.2.ge
  rw [splitParents_spec, ← hi.hashMany_eq hblocks]
  rfl

/-! ## Wide subtrees -/

/-- What `blake3_compress_subtree_wide` makes of chunks with the chaining values `cs`, with
    `width` chaining values at most. -/
structure Wide (key : Words) (flags : UInt8) (width : ℕ) (cs out : List Cv) : Prop where
  fold_eq : LeftTree.fold (nodeCv key flags) out = LeftTree.fold (nodeCv key flags) cs
  halves_eq : 2 ≤ cs.length →
    LeftTree.halves (nodeCv key flags) out = LeftTree.halves (nodeCv key flags) cs
  two_le : 2 ≤ cs.length → 2 ≤ out.length
  ne_nil : out ≠ []
  le_width : out.length ≤ width
  /-- The left subtrees are perfect: they use the full width. -/
  full : ∀ k, cs.length = 2 ^ k → width ≤ cs.length → out.length = width

/-- Chunks that are not more than there are lanes. -/
theorem Wide.refl {width : ℕ} {cs : List Cv} (hne : cs ≠ []) (hle : cs.length ≤ width) :
    Wide key flags width cs cs :=
  ⟨rfl, fun _ => rfl, id, hne, hle, fun _ _ hge => Nat.le_antisymm hle hge⟩

/-- A perfect subtree that uses the full width, and one on its right. -/
theorem Wide.parents {k s : ℕ} {as bs left right : List Cv} (ha : as.length = 2 ^ k)
    (hb : bs ≠ []) (hle : bs.length ≤ 2 ^ k) (hs : 2 ^ (s + 1) ≤ as.length)
    (hl : Wide key flags (2 ^ (s + 1)) as left) (hr : Wide key flags (2 ^ (s + 1)) bs right) :
    Wide key flags (2 ^ (s + 1)) (as ++ bs)
      (LeftTree.parents (nodeCv key flags) (left ++ right)) := by
  have hfull := hl.full k ha hs
  have hpos := List.length_pos_iff.2 hr.ne_nil
  have hbpos := List.length_pos_iff.2 hb
  have hrle := hr.le_width
  have hwidth : 2 ^ (s + 1) = 2 * 2 ^ s := pow_succ' 2 s
  have hspos : 0 < 2 ^ s := Nat.two_pow_pos s
  have hlen : (left ++ right).length = 2 ^ (s + 1) + right.length := by
    rw [List.length_append, hfull]
  have hne : left ++ right ≠ [] := List.append_ne_nil_of_right_ne_nil left hr.ne_nil
  refine ⟨?_, fun _ => ?_, fun _ => ?_, LeftTree.parents_ne_nil hne, ?_, fun j hj hge => ?_⟩
  · rw [LeftTree.fold_parents hne, LeftTree.fold_append hfull hr.ne_nil hrle, hl.fold_eq,
      hr.fold_eq, LeftTree.fold_append ha hb hle]
  · rw [LeftTree.halves_parents (by omega), LeftTree.halves_append hfull hr.ne_nil hrle,
      hl.fold_eq, hr.fold_eq, LeftTree.halves_append ha hb hle]
  · rw [LeftTree.length_parents]
    omega
  · rw [LeftTree.length_parents]
    omega
  · -- a perfect tree, so that the right subtree is as large as the left one
    rw [List.length_append, ha] at hj
    have hkj : 2 * 2 ^ k ≤ 2 ^ j := LeftTree.two_mul_le (by omega)
    have hrfull := hr.full k (by omega) (by omega)
    rw [LeftTree.length_parents]
    omega

include hi in
/-- The number of lanes, and of the places for chaining values. -/
theorem Impl.Lawful.exists_width :
    ∃ s t, s ≤ 4 ∧ impl.simdDegree = 2 ^ s ∧ max (2 ^ s) 2 = 2 ^ (t + 1) := by
  obtain ⟨s, hle, hs⟩ := hi.simdDegree_eq
  cases s with
  | zero => exact ⟨0, 0, hle, hs, rfl⟩
  | succ t =>
    have := Nat.two_pow_pos t
    exact ⟨t + 1, t, hle, hs, by rw [pow_succ]; omega⟩

/-- As the left chaining values fill their places, the right ones follow them. -/
theorem cvArray_eq {degree : ℕ} {left right : List Cv} (h : left.length = degree) :
    cvArray degree left right = left ++ right := by
  rw [cvArray, ← h, List.take_length, Nat.sub_self, List.replicate_zero, List.append_nil]

include hi in
theorem compressSubtreeWide_small {input : List UInt8} (counter : UInt64)
    (h : input.length ≤ impl.simdDegree * chunkLen) :
    compressSubtreeWide impl input key counter flags =
      (chunks key flags counter input).map Output.cv := by
  rw [compressSubtreeWide, if_pos h, compressChunksParallel_eq hi]

/-- The places left for the left chaining values. -/
theorem degree_eq {t s m : ℕ} (ht : max (2 ^ s) 2 = 2 ^ (t + 1)) (hm : 1024 < m) :
    (if m > chunkLen ∧ 2 ^ s = 1 then 2 else 2 ^ s) = 2 ^ (t + 1) := by
  rw [← ht]
  split
  case isTrue h => omega
  case isFalse h =>
    have : 2 ^ s ≠ 1 := fun h1 => h ⟨hm, h1⟩
    have := Nat.two_pow_pos s
    omega

/-- More chunks than there are lanes are halved: on the left, there is a power of two of
    them, not less than there are lanes. -/
theorem compressSubtreeWide_large (key : Words) (flags : UInt8) {input : List UInt8}
    (counter : UInt64)
    (h : impl.simdDegree * chunkLen < input.length) :
    ∃ k xs ys, input = xs ++ ys ∧ xs.length = 1024 * 2 ^ k ∧ ys ≠ [] ∧
      ys.length ≤ 1024 * 2 ^ k ∧ impl.simdDegree < 2 * 2 ^ k ∧
      compressSubtreeWide impl input key counter flags =
        let left := compressSubtreeWide impl xs key counter flags
        let right := compressSubtreeWide impl ys key (counter + UInt64.ofNat (2 ^ k)) flags
        let degree := if 1024 * 2 ^ k > chunkLen ∧ impl.simdDegree = 1 then 2 else impl.simdDegree
        let cvs := cvArray degree left right
        if left.length = 1 then cvs.take 2
        else compressParentsParallel impl (cvs.take (left.length + right.length)) key flags := by
  have hpos := impl.simdDegree_pos
  have hlarge : chunkLen < input.length := by
    simp only [chunkLen] at h ⊢
    omega
  have hcount : 2 ≤ (input.length + 1023) / 1024 := by
    simp only [chunkLen] at hlarge
    omega
  obtain ⟨k, hk⟩ : ∃ k, LeftTree.leftLen ((input.length + 1023) / 1024) = 2 ^ k := ⟨_, rfl⟩
  have hlt := LeftTree.leftLen_lt hcount
  have hle := LeftTree.sub_leftLen_le hcount
  have hlen := leftSubtreeLen_eq hlarge
  have hdiv : 1024 * 2 ^ k / chunkLen = 2 ^ k := Nat.mul_div_cancel_left _ (by decide)
  rw [hk] at hlt hle
  rw [hk, mul_comm] at hlen
  refine ⟨k, input.take (1024 * 2 ^ k), input.drop (1024 * 2 ^ k),
    (List.take_append_drop _ _).symm, ?_, List.length_pos_iff.1 ?_, ?_, ?_, ?_⟩
  · rw [List.length_take]
    omega
  · rw [List.length_drop]
    omega
  · rw [List.length_drop]
    omega
  · simp only [chunkLen] at h
    omega
  · rw [compressSubtreeWide, if_neg (Nat.not_le.2 h), hlen]
    dsimp only
    rw [hdiv]

include hi in
theorem compressSubtreeWide_wide (key : Words) (flags : UInt8) {s t : ℕ}
    (hs : impl.simdDegree = 2 ^ s)
    (ht : max (2 ^ s) 2 = 2 ^ (t + 1)) {input : List UInt8} (hne : input ≠ [])
    (counter : UInt64) :
    Wide key flags (2 ^ (t + 1)) ((chunks key flags counter input).map Output.cv)
      (compressSubtreeWide impl input key counter flags) := by
  induction hn : input.length using Nat.strong_induction_on generalizing input counter with
  | _ n ih =>
    subst hn
    rcases Nat.lt_or_ge (impl.simdDegree * chunkLen) input.length with hlarge | hsmall
    · obtain ⟨k, xs, ys, rfl, hx, hy, hle, hdeg, heq⟩ :=
        compressSubtreeWide_large key flags counter hlarge
      have hspos := Nat.two_pow_pos s
      have hkpos := Nat.two_pow_pos k
      have hypos := List.length_pos_iff.2 hy
      have hsk : 2 ^ s ≤ 2 ^ k := by
        by_contra hks
        have := LeftTree.two_mul_le (Nat.lt_of_not_le hks)
        omega
      rw [List.length_append] at ih
      have hxne : xs ≠ [] := List.length_pos_iff.1 (by omega)
      have hl := ih _ (by omega) hxne counter rfl
      have hr := ih _ (by omega) hy (counter + UInt64.ofNat (2 ^ k)) rfl
      rw [heq, chunks_append hx, List.map_append]
      have hllen : ((chunks key flags counter xs).map Output.cv).length = 2 ^ k := by
        rw [List.length_map, length_chunks]
        omega
      have hrlen : ((chunks key flags (counter + UInt64.ofNat (2 ^ k)) ys).map Output.cv).length ≤
          2 ^ k := by
        rw [List.length_map, length_chunks]
        omega
      have hrne : (chunks key flags (counter + UInt64.ofNat (2 ^ k)) ys).map Output.cv ≠ [] := by
        simpa using chunks_ne_nil hy
      obtain hk1 | hk2 : 2 ^ k = 1 ∨ 1 < 2 ^ k := by omega
      · -- a chunk on either side: two chaining values, although there is a single lane
        have hs1 : 2 ^ s = 1 := by omega
        have hone := hllen.trans hk1
        rw [compressSubtreeWide_small hi counter (by simp only [chunkLen]; omega),
          compressSubtreeWide_small hi _ (by simp only [chunkLen]; omega), hk1, hs, hs1]
        dsimp only
        rw [hk1] at hrne hrlen
        rw [if_pos hone, if_neg (by decide), cvArray_eq hone,
          List.take_of_length_le (by rw [List.length_append]; omega)]
        refine .refl (List.append_ne_nil_of_right_ne_nil _ hrne) ?_
        rw [List.length_append]
        omega
      · have htpos := Nat.two_pow_pos t
        have hfull := hl.full k hllen (by omega)
        have hne1 : (compressSubtreeWide impl xs key counter flags).length ≠ 1 := by
          rw [hfull, pow_succ]
          omega
        dsimp only
        rw [hs, degree_eq ht (by omega), if_neg hne1, cvArray_eq hfull,
          List.take_of_length_le (by rw [List.length_append]), compressParentsParallel_eq hi]
        exact Wide.parents hllen hrne hrlen (by omega) hl hr
    · rw [compressSubtreeWide_small hi counter hsmall]
      refine .refl (by simpa using chunks_ne_nil hne) ?_
      rw [List.length_map, length_chunks, ← ht]
      rw [hs] at hsmall
      simp only [chunkLen] at hsmall
      omega

include hi in
/-- The array of chaining values is not overrun: it has `MAX_SIMD_DEGREE_OR_2` places. -/
theorem compressSubtreeWide_le (key : Words) (flags : UInt8) {input : List UInt8}
    (hne : input ≠ []) (counter : UInt64) :
    (compressSubtreeWide impl input key counter flags).length ≤ max impl.simdDegree 2 ∧
      max impl.simdDegree 2 ≤ 16 := by
  obtain ⟨s, t, hle, hs, ht⟩ := hi.exists_width
  have := (compressSubtreeWide_wide hi key flags hs ht hne counter).le_width
  have := Nat.pow_le_pow_right (n := 2) (by decide) hle
  rw [hs]
  omega

include hi in
/-- Level by level, down to the chaining values of the two halves. -/
theorem condense_eq {cvs : List Cv} (h : 2 ≤ cvs.length) :
    condense impl cvs key flags =
      [(LeftTree.halves (nodeCv key flags) cvs).1, (LeftTree.halves (nodeCv key flags) cvs).2] := by
  induction hn : cvs.length using Nat.strong_induction_on generalizing cvs with
  | _ n ih =>
    subst hn
    rw [condense]
    split
    case isTrue hlt =>
      have hlen : (LeftTree.parents (nodeCv key flags) cvs).length = _ :=
        LeftTree.length_parents cvs
      rw [compressParentsParallel_eq hi, ih _ (by omega) (by omega) rfl,
        LeftTree.halves_parents hlt]
    case isFalse hge =>
      obtain ⟨a, b, rfl⟩ := List.length_eq_two.1 (Nat.le_antisymm (Nat.not_lt.1 hge) h)
      rw [LeftTree.halves_pair]

include hi in
/-- The parent node is the one at the root of the tree over the chunks. -/
theorem compressSubtreeToParentNode_eq (key : Words) (flags : UInt8) {input : List UInt8}
    (h : chunkLen < input.length)
    (counter : UInt64) :
    compressSubtreeToParentNode impl input key counter flags =
      parentBlock
        (LeftTree.halves (nodeCv key flags) ((chunks key flags counter input).map Output.cv)).1
        (LeftTree.halves (nodeCv key flags)
          ((chunks key flags counter input).map Output.cv)).2 := by
  obtain ⟨s, t, _, hs, ht⟩ := hi.exists_width
  have hne : input ≠ [] := List.length_pos_iff.1 (Nat.lt_of_le_of_lt (Nat.zero_le _) h)
  have hcount : 2 ≤ ((chunks key flags counter input).map Output.cv).length := by
    simp only [chunkLen] at h
    rw [List.length_map, length_chunks]
    omega
  have hwide := compressSubtreeWide_wide hi key flags hs ht hne counter
  rw [compressSubtreeToParentNode, condense_eq hi (hwide.two_le hcount), hwide.halves_eq hcount]
  rfl

/-- **Subtrees.** Whatever the implementation and its number of lanes, the node over the two
    chaining values is the root of the left-balanced tree over the chunks, and they come
    from an array that had room for them. -/
theorem subtree_root (impl : Impl) (hi : impl.Lawful) (key : Words) (flags : UInt8)
    (counter : UInt64) (input : List UInt8) (h : chunkLen < input.length) :
    parentOutput (compressSubtreeToParentNode impl input key counter flags) key flags =
        treeRoot key flags (chunks key flags counter input) ∧
      2 ≤ (compressSubtreeWide impl input key counter flags).length ∧
      (compressSubtreeWide impl input key counter flags).length ≤ 16 := by
  obtain ⟨s, t, _, hs, ht⟩ := hi.exists_width
  have hne : input ≠ [] := List.length_pos_iff.1 (Nat.lt_of_le_of_lt (Nat.zero_le _) h)
  have hcount : 2 ≤ (chunks key flags counter input).length := by
    simp only [chunkLen] at h
    rw [length_chunks]
    omega
  have hwide := compressSubtreeWide_wide hi key flags hs ht hne counter
  obtain ⟨hle, hmax⟩ := compressSubtreeWide_le hi key flags hne counter
  refine ⟨?_, hwide.two_le (by rwa [List.length_map]), hle.trans hmax⟩
  rw [compressSubtreeToParentNode_eq hi key flags h, treeRoot, LeftTree.root_eq_halves hcount]
  rfl

theorem subtree_root_sample :
    parentOutput (compressSubtreeToParentNode .portable (List.replicate 5000 7) iv 3 0) iv 0 =
        treeRoot iv 0 (chunks iv 0 3 (List.replicate 5000 7)) ∧
      2 ≤ (compressSubtreeWide .portable (List.replicate 5000 7) iv 3 0).length ∧
      (compressSubtreeWide .portable (List.replicate 5000 7) iv 3 0).length ≤ 16 :=
  subtree_root .portable Impl.portable_lawful iv 0 3 (List.replicate 5000 7)
    (by rw [List.length_replicate]; decide)

end Lawful

end HybridPqc.Blake3
