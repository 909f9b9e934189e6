import HybridPqc.Blake3.Avx512
import HybridPqc.Blake3.Runs

/-!
# The implementation that a CPU chooses

`blake3_dispatch.c`, as it is compiled for 64-bit x86 with every instruction set: what the CPU
says of itself is made into a word of features (`detectFeatures`), which is kept for later calls
(`getCpuFeatures`), and every function of BLAKE3 that has several implementations looks at it
(`Impl.dispatch`).

* `dispatch_eq_portable`: whatever the features, the functions compute what those of
  `blake3_portable.c` do;
* `onCpu_eq`: in a program, the first call finds out what all the later ones are told;
* `run_onCpu`: a hasher answers the same on every CPU, at any point of a program;
* `cryptoBlake3KdfHasher_onCpu`: two programs on different CPUs derive the same keys.
-/

namespace HybridPqc.Blake3

/-! ## Features -/

/-- What the instructions `cpuid` and `xgetbv` answer. -/
structure Cpu where
  /-- `eax` of `cpuid(0)`: the greatest leaf. -/
  maxId : UInt32
  /-- `ecx` of `cpuid(1)`. -/
  ecx : UInt32
  xgetbv : UInt64
  /-- `ebx` of `cpuidex(7, 0)`. -/
  ebx : UInt32

namespace Cpu

def sse2 : UInt32 := (1 : UInt32) <<< 0
def ssse3 : UInt32 := (1 : UInt32) <<< 1
def sse41 : UInt32 := (1 : UInt32) <<< 2
def avx : UInt32 := (1 : UInt32) <<< 3
def avx2 : UInt32 := (1 : UInt32) <<< 4
def avx512f : UInt32 := (1 : UInt32) <<< 5
def avx512vl : UInt32 := (1 : UInt32) <<< 6

/-- `UNDEFINED`: the features are yet to be detected. -/
def undefined : UInt32 := (1 : UInt32) <<< 30

def bitSet (reg n : UInt32) : Bool := reg &&& ((1 : UInt32) <<< n) != 0

/-- A feature that is there if a bit is set. -/
def addIf (feature : UInt32) (present : Bool) (features : UInt32) : UInt32 :=
  if present then features ||| feature else features

def detectFeatures (cpu : Cpu) : UInt32 :=
  let features := sse2
  let features := addIf ssse3 (bitSet cpu.ecx 9) features
  let features := addIf sse41 (bitSet cpu.ecx 19) features
  -- the system saves the registers of SSE and AVX
  if bitSet cpu.ecx 27 ∧ cpu.xgetbv &&& 6 = 6 then
    let features := addIf avx (bitSet cpu.ecx 28) features
    if 7 ≤ cpu.maxId.toInt32 then
      let features := addIf avx2 (bitSet cpu.ebx 5) features
      if cpu.xgetbv &&& 224 = 224 then
        let features := addIf avx512vl (bitSet cpu.ebx 31) features
        addIf avx512f (bitSet cpu.ebx 16) features
      else features
    else features
  else features

/-- `get_cpu_features`, with `g_cpu_features` before and after it. -/
def getCpuFeatures (cpu : Cpu) (gCpuFeatures : UInt32) : UInt32 × UInt32 :=
  if gCpuFeatures ≠ undefined then (gCpuFeatures, gCpuFeatures)
  else (cpu.detectFeatures, cpu.detectFeatures)

/-- `g_cpu_features` after some calls. -/
def cached (cpu : Cpu) : ℕ → UInt32
  | 0 => undefined
  | calls + 1 => (cpu.getCpuFeatures (cpu.cached calls)).2

/-- The features that the next call sees. -/
def features (cpu : Cpu) (calls : ℕ) : UInt32 := (cpu.getCpuFeatures (cpu.cached calls)).1

theorem cached_eq (cpu : Cpu) (calls : ℕ) :
    cpu.cached calls = undefined ∨ cpu.cached calls = cpu.detectFeatures := by
  induction calls with
  | zero => exact .inl rfl
  | succ calls ih =>
    right
    rw [cached, getCpuFeatures]
    split_ifs with h
    · exact ih.resolve_left h
    · rfl

/-- The features stay what they are. -/
theorem features_eq (cpu : Cpu) (calls : ℕ) : cpu.features calls = cpu.detectFeatures := by
  rw [features, getCpuFeatures]
  split_ifs with h
  · exact (cpu.cached_eq calls).resolve_left h
  · rfl

end Cpu

/-! ## Dispatch -/

namespace Dispatch

open Cpu

/-- `blake3_compress_in_place`. -/
def compressInPlace (features : UInt32) : Words → Block → UInt8 → UInt64 → UInt8 → Words :=
  if features &&& avx512vl ≠ 0 then Avx512.compressInPlace
  else if features &&& sse41 ≠ 0 then Sse41.compressInPlace
  else if features &&& sse2 ≠ 0 then Sse2.compressInPlace
  else compressInPlacePortable

/-- `blake3_compress_xof`. -/
def compressXof (features : UInt32) : Words → Block → UInt8 → UInt64 → UInt8 → Block :=
  if features &&& avx512vl ≠ 0 then Avx512.compressXof
  else if features &&& sse41 ≠ 0 then Sse41.compressXof
  else if features &&& sse2 ≠ 0 then Sse2.compressXof
  else compressXofPortable

/-- `blake3_xof_many`. -/
def xofMany (features : UInt32) (cv : Words) (block : Block) (blockLen : UInt8) (counter : UInt64)
    (flags : UInt8) (outblocks : ℕ) : List UInt8 :=
  if outblocks = 0 then []
  else if features &&& avx512vl ≠ 0 then Avx512.xofMany cv block blockLen counter flags outblocks
  else xofManyLoop (compressXof features) cv block blockLen counter flags outblocks

/-- `blake3_hash_many`. -/
def hashMany (features : UInt32) : List (List UInt8) → ℕ → Words → UInt64 → Bool → UInt8 →
    UInt8 → UInt8 → List Cv :=
  if features &&& (avx512f ||| avx512vl) = avx512f ||| avx512vl then Avx512.hashMany
  else if features &&& avx2 ≠ 0 then Avx2.hashMany
  else if features &&& sse41 ≠ 0 then Sse41.hashMany
  else if features &&& sse2 ≠ 0 then Sse2.hashMany
  else hashManyPortable

/-- `blake3_simd_degree`. -/
def simdDegree (features : UInt32) : ℕ :=
  if features &&& (avx512f ||| avx512vl) = avx512f ||| avx512vl then 16
  else if features &&& avx2 ≠ 0 then 8
  else if features &&& sse41 ≠ 0 then 4
  else if features &&& sse2 ≠ 0 then 4
  else 1

theorem compressInPlace_eq (features : UInt32) :
    compressInPlace features = compressInPlacePortable := by
  rw [compressInPlace]
  split_ifs
  · exact compressInPlaceRows_eq Avx512.rowOps_lawful
  · exact compressInPlaceRows_eq Sse41.rowOps_lawful
  · exact compressInPlaceRows_eq Sse2.rowOps_lawful
  · rfl

theorem compressXof_eq (features : UInt32) : compressXof features = compressXofPortable := by
  rw [compressXof]
  split_ifs
  · exact compressXofRows_eq Avx512.rowOps_lawful
  · exact compressXofRows_eq Sse41.rowOps_lawful
  · exact compressXofRows_eq Sse2.rowOps_lawful
  · rfl

theorem xofMany_eq (features : UInt32) : xofMany features = xofManyLoop compressXofPortable := by
  funext cv block blockLen counter flags outblocks
  rw [xofMany, compressXof_eq]
  split_ifs with h0
  · rw [h0]
    rfl
  · exact Avx512.xofMany_eq cv block blockLen counter flags outblocks
  · rfl

theorem hashMany_eq (features : UInt32) : hashMany features = hashManyPortable := by
  rw [hashMany]
  split_ifs
  · funext inputs blocks key counter incrementCounter flags flagsStart flagsEnd
    exact Avx512.hashMany_eq inputs blocks key counter incrementCounter flags flagsStart flagsEnd
  · funext inputs blocks key counter incrementCounter flags flagsStart flagsEnd
    exact Avx2.hashMany_eq inputs blocks key counter incrementCounter flags flagsStart flagsEnd
  · funext inputs blocks key counter incrementCounter flags flagsStart flagsEnd
    exact Sse41.hashMany_eq inputs blocks key counter incrementCounter flags flagsStart flagsEnd
  · funext inputs blocks key counter incrementCounter flags flagsStart flagsEnd
    exact Sse2.hashMany_eq inputs blocks key counter incrementCounter flags flagsStart flagsEnd
  · rfl

theorem simdDegree_eq (features : UInt32) : ∃ k ≤ 4, simdDegree features = 2 ^ k := by
  rw [simdDegree]
  split_ifs
  · exact ⟨4, by decide, rfl⟩
  · exact ⟨3, by decide, rfl⟩
  · exact ⟨2, by decide, rfl⟩
  · exact ⟨2, by decide, rfl⟩
  · exact ⟨0, by decide, rfl⟩

theorem simdDegree_pos (features : UInt32) : 0 < simdDegree features := by
  obtain ⟨k, _, h⟩ := simdDegree_eq features
  rw [h]
  exact Nat.two_pow_pos k

end Dispatch

/-- The functions that are called where these are the features. -/
def Impl.dispatch (features : UInt32) : Impl where
  compressInPlace := Dispatch.compressInPlace features
  compressXof := Dispatch.compressXof features
  xofMany := Dispatch.xofMany features
  hashMany := Dispatch.hashMany features
  simdDegree := Dispatch.simdDegree features
  simdDegree_pos := Dispatch.simdDegree_pos features
  length_hashMany := by
    rw [Dispatch.hashMany_eq]
    exact length_hashManyPortable

/-- **Dispatch.** Whatever the features, what is computed is what `blake3_portable.c` computes,
    for any number of inputs, any number of blocks and any counter. -/
theorem dispatch_eq_portable (features : UInt32) :
    (Impl.dispatch features).compressInPlace = Impl.portable.compressInPlace ∧
      (Impl.dispatch features).compressXof = Impl.portable.compressXof ∧
      (Impl.dispatch features).xofMany = Impl.portable.xofMany ∧
      (Impl.dispatch features).hashMany = Impl.portable.hashMany :=
  ⟨Dispatch.compressInPlace_eq features, Dispatch.compressXof_eq features,
    Dispatch.xofMany_eq features, Dispatch.hashMany_eq features⟩

theorem dispatch_lawful (features : UInt32) : (Impl.dispatch features).Lawful where
  compressInPlace_eq := Dispatch.compressInPlace_eq features
  compressXof_eq := Dispatch.compressXof_eq features
  xofMany_eq cv block len counter flags outblocks := by
    change Dispatch.xofMany features cv block len counter flags outblocks = _
    rw [Dispatch.xofMany_eq]
  hashMany_eq _ key counter incrementCounter flags flagsStart flagsEnd := by
    change Dispatch.hashMany features _ _ key counter incrementCounter flags flagsStart flagsEnd = _
    rw [Dispatch.hashMany_eq]
  simdDegree_eq := Dispatch.simdDegree_eq features

/-! ## Programs on a CPU -/

/-- The implementation on a CPU, some calls after the program has started. -/
def Impl.onCpu (cpu : Cpu) (calls : ℕ) : Impl := Impl.dispatch (cpu.features calls)

theorem onCpu_lawful (cpu : Cpu) (calls : ℕ) : (Impl.onCpu cpu calls).Lawful :=
  dispatch_lawful _

/-- The first call finds out what all the later ones are told. -/
theorem onCpu_eq (cpu : Cpu) (calls : ℕ) :
    Impl.onCpu cpu calls = Impl.dispatch cpu.detectFeatures := by
  rw [Impl.onCpu, Cpu.features_eq]

/-- **Every CPU.** A hasher answers the same wherever it runs, and however often the features
    have been asked for before. -/
theorem run_onCpu (cpu : Cpu) (calls : ℕ) (key : Words) (flags : UInt8) (ops : List Hasher.Op)
    (hfits : Hasher.Fits [] ops) :
    Hasher.run (Impl.onCpu cpu calls) (hasherInitBase key flags) ops =
      Hasher.run .portable (hasherInitBase key flags) ops := by
  have habsorbed := Hasher.absorbed_init key flags
  rw [habsorbed.run_eq (onCpu_lawful cpu calls) hfits,
    habsorbed.run_eq Impl.portable_lawful hfits]

/-- A CPU with AVX2, but without AVX-512. -/
def avx2Cpu : Cpu where
  maxId := 13
  ecx := 0x18080200
  xgetbv := 7
  ebx := 0x20

example : avx2Cpu.detectFeatures = 0b11111 := by decide

theorem run_onCpu_avx2 :
    Hasher.run (Impl.onCpu avx2Cpu 2) hasherInit [.update [1], .finalizeSeek 70 3] =
      Hasher.run .portable hasherInit [.update [1], .finalizeSeek 70 3] :=
  run_onCpu avx2Cpu 2 iv 0 _ (by simp [Hasher.Fits, Hasher.absorb])

/-- **Two CPUs.** A client and a server derive the same key from the same secrets, whatever the
    instruction sets of their machines. -/
theorem cryptoBlake3KdfHasher_onCpu (client server : Cpu) (calls calls' : ℕ)
    (ikm info : List UInt8) (hlt : info.length + ikm.length < 2 ^ 64) :
    cryptoBlake3KdfHasher (Impl.onCpu client calls) ikm info =
      cryptoBlake3KdfHasher (Impl.onCpu server calls') ikm info := by
  rw [cryptoBlake3KdfHasher_eq_hash (onCpu_lawful client calls) ikm info hlt,
    cryptoBlake3KdfHasher_eq_hash (onCpu_lawful server calls') ikm info hlt]

theorem cryptoBlake3KdfHasher_onCpu_avx2 :
    cryptoBlake3KdfHasher (Impl.onCpu avx2Cpu 0) [1, 2] (cstr "info") =
      cryptoBlake3KdfHasher (Impl.onCpu { avx2Cpu with maxId := 1 } 3) [1, 2] (cstr "info") :=
  cryptoBlake3KdfHasher_onCpu avx2Cpu { avx2Cpu with maxId := 1 } 0 3 [1, 2] (cstr "info")
    (by decide)

end HybridPqc.Blake3
