import HybridPqc.Blake3.Absorb
import HybridPqc.Crypto

/-!
# Runs of a hasher

A hasher may be updated, finalized and reset any number of times and in any order. What
it answers is what the tree over the bytes since the last reset says (`Hasher.run_answers`),
and its stack is never too high (`Hasher.reached_stack`), whatever the implementation.

So the key that `crypto_blake3_kdf` derives is the hash of the label and the keying
material, which is all that its callers know of it (`cryptoBlake3Kdf_eq`).
-/

namespace HybridPqc.Blake3

variable {impl : Impl} {key : Words} {flags : UInt8}

namespace Hasher

/-! ## Operations -/

/-- What can be done with a hasher. -/
inductive Op
  | update (input : List UInt8)
  | finalizeSeek (seek : UInt64) (outLen : ℕ)
  | reset

/-- The hasher after an operation. -/
def apply (impl : Impl) (self : Hasher) : Op → Hasher
  | .update input => self.update impl input
  | .finalizeSeek .. => self
  | .reset => self.reset

/-- The answers of a hasher. -/
def run (impl : Impl) (self : Hasher) : List Op → List (List UInt8)
  | [] => []
  | .finalizeSeek seek outLen :: ops => self.finalizeSeek impl seek outLen :: run impl self ops
  | op :: ops => run impl (self.apply impl op) ops

/-- The bytes since the last reset. -/
def absorb (xs : List UInt8) : Op → List UInt8
  | .update input => xs ++ input
  | .finalizeSeek .. => xs
  | .reset => []

/-- The answers of the tree over the bytes since the last reset. -/
def answers (key : Words) (flags : UInt8) (xs : List UInt8) : List Op → List (List UInt8)
  | [] => []
  | .finalizeSeek seek outLen :: ops =>
    rootBytes (treeOutput key flags xs) seek.toNat outLen :: answers key flags xs ops
  | op :: ops => answers key flags (absorb xs op) ops

/-- Less than `2 ^ 64` bytes are read between two resets. -/
def Fits (xs : List UInt8) : List Op → Prop
  | [] => True
  | op :: ops => (absorb xs op).length < 2 ^ 64 ∧ Fits (absorb xs op) ops

variable (hi : impl.Lawful) {self : Hasher}

include hi in
theorem Absorbed.finalizeSeek_eq {xs : List UInt8} (h : self.Absorbed key flags xs)
    (seek : UInt64) (outLen : ℕ) :
    self.finalizeSeek impl seek outLen =
      rootBytes (treeOutput key flags xs) seek.toNat outLen := by
  rw [finalizeSeek]
  split
  case isTrue h0 => rw [h0]; rfl
  case isFalse => rw [h.finalOutput_eq hi, outputRootBytes_eq hi]

theorem Absorbed.reset {xs : List UInt8} (h : self.Absorbed key flags xs) :
    self.reset.Absorbed key flags [] := by
  obtain ⟨n, done, rest, ts, _, _, hread, _⟩ := h
  have hreset : self.reset = hasherInitBase key flags := by
    rw [Hasher.reset, hread.chunk.reset, hread.key_eq]
    rfl
  rw [hreset]
  exact absorbed_init key flags

include hi in
/-- Every operation keeps the state that of the bytes since the last reset. -/
theorem Absorbed.apply {xs : List UInt8} (h : self.Absorbed key flags xs) {op : Op}
    (hlt : (absorb xs op).length < 2 ^ 64) :
    (self.apply impl op).Absorbed key flags (absorb xs op) := by
  cases op with
  | update input => exact h.update hi (by rwa [absorb, List.length_append] at hlt)
  | finalizeSeek => exact h
  | reset => exact h.reset

include hi in
theorem Absorbed.run_eq {xs : List UInt8} (h : self.Absorbed key flags xs) {ops : List Op}
    (hfits : Fits xs ops) : run impl self ops = answers key flags xs ops := by
  induction ops generalizing self xs with
  | nil => rfl
  | cons op ops ih =>
    have hnext := ih (h.apply hi hfits.1) hfits.2
    cases op with
    | update input => exact hnext
    | finalizeSeek seek outLen =>
      rw [run, answers, h.finalizeSeek_eq hi]
      exact congrArg _ hnext
    | reset => exact hnext

/-- **Runs.** Whatever the operations, their order and the pieces of the input, a hasher
    answers what the tree over the bytes since the last reset says. -/
theorem run_answers (impl : Impl) (hi : impl.Lawful) (key : Words) (flags : UInt8) (ops : List Op)
    (hfits : Fits [] ops) :
    run impl (hasherInitBase key flags) ops = answers key flags [] ops :=
  (absorbed_init key flags).run_eq hi hfits

theorem run_answers_sample :
    run .portable hasherInit [.update [1], .finalizeSeek 70 3, .update [2], .reset] =
      answers iv 0 [] [.update [1], .finalizeSeek 70 3, .update [2], .reset] :=
  run_answers .portable Impl.portable_lawful iv 0 _ (by simp [Fits, absorb])

/-! ## The stack -/

include hi in
theorem Absorbed.foldl_apply {xs : List UInt8} (h : self.Absorbed key flags xs)
    (hlt : xs.length < 2 ^ 64) {ops : List Op} (hfits : Fits xs ops) :
    ∃ ys, ys.length < 2 ^ 64 ∧ (ops.foldl (Hasher.apply impl) self).Absorbed key flags ys := by
  induction ops generalizing self xs with
  | nil => exact ⟨xs, hlt, h⟩
  | cons op ops ih => exact ih (h.apply hi hfits.1) hfits.1 hfits.2

/-- **The stack.** After any operations, the chaining values on the stack fit into `cv_stack`,
    and there are two of them to begin with whenever the chunk is empty, but the stack is
    not. -/
theorem reached_stack (impl : Impl) (hi : impl.Lawful) (key : Words) (flags : UInt8)
    (ops : List Op) (hfits : Fits [] ops) (self : Hasher)
    (hself : self = ops.foldl (Hasher.apply impl) (hasherInitBase key flags)) :
    self.cvStack.length ≤ 54 + 1 ∧ self.chunk.len ≤ 1024 ∧
      (self.chunk.len = 0 → self.cvStack.length ≠ 1) := by
  obtain ⟨ys, hys, h⟩ := (absorbed_init key flags).foldl_apply hi (Nat.two_pow_pos 64) hfits
  rw [← hself] at h
  refine ⟨h.length_le hys, ?_⟩
  obtain ⟨n, done, rest, ts, rfl, hle, hread, _, htwo⟩ := h
  rw [hread.chunk.len_eq, hread.stack_eq, length_stackOf]
  refine ⟨hle, fun h0 => ?_⟩
  rcases htwo (List.length_eq_zero_iff.1 h0) with rfl | h2
  · exact Nat.zero_ne_one
  · omega

theorem reached_stack_sample :
    (hasherInit.update .portable [1]).cvStack.length ≤ 54 + 1 ∧
      (hasherInit.update .portable [1]).chunk.len ≤ 1024 ∧
      ((hasherInit.update .portable [1]).chunk.len = 0 →
        (hasherInit.update .portable [1]).cvStack.length ≠ 1) :=
  reached_stack .portable Impl.portable_lawful iv 0 [.update [1]] (by simp [Fits, absorb]) _ rfl

end Hasher

/-! ## Key derivation -/

/-- The key of `blake3_hasher_init_derive_key_raw`. -/
def contextKey (context : List UInt8) : Cv :=
  ⟨rootBytes (treeOutput iv deriveKeyContext context) 0 32, length_rootBytes _ _ _⟩

/-- **Derived keys.** The hasher for a context hashes with the hash of the context as its
    key, whatever the implementation. -/
theorem hasherInitDeriveKeyRaw_eq (impl : Impl) (hi : impl.Lawful) (context : List UInt8)
    (hlt : context.length < 2 ^ 64) :
    hasherInitDeriveKeyRaw impl context =
      hasherInitBase (loadKeyWords (contextKey context)) deriveKeyMaterial := by
  have h : ((hasherInitBase iv deriveKeyContext).update impl context).Absorbed iv
      deriveKeyContext ([] ++ context) :=
    (Hasher.absorbed_init iv deriveKeyContext).update hi (by rwa [List.length_nil, Nat.zero_add])
  have hkey : (Bytes.zero 32).memcpy (rootBytes (treeOutput iv deriveKeyContext context) 0 32) =
      contextKey context := by
    apply Subtype.ext
    have hlen := length_rootBytes (treeOutput iv deriveKeyContext context) 0 32
    rw [Bytes.memcpy_val _ hlen.le, hlen, List.drop_of_length_le (Bytes.zero 32).2.le,
      List.append_nil]
    rfl
  rw [hasherInitDeriveKeyRaw, Hasher.finalize, h.finalizeSeek_eq hi]
  change hasherInitBase (loadKeyWords ((Bytes.zero 32).memcpy (rootBytes _ 0 32))) _ = _
  rw [List.nil_append, hkey]

theorem hasherInitDeriveKeyRaw_eq_sample :
    hasherInitDeriveKeyRaw .portable (cstr "context") =
      hasherInitBase (loadKeyWords (contextKey (cstr "context"))) deriveKeyMaterial :=
  hasherInitDeriveKeyRaw_eq .portable Impl.portable_lawful (cstr "context") (by decide)

/-- `crypto_blake3_kdf`, as it calls the hasher. -/
def cryptoBlake3KdfHasher (impl : Impl) (ikm info : List UInt8) : List UInt8 :=
  let hasher := hasherInit
  let hasher := hasher.update impl info
  let hasher := hasher.update impl ikm
  hasher.finalize impl 32

theorem cryptoBlake3KdfHasher_eq_hash {impl : Impl} (hi : impl.Lawful) (ikm info : List UInt8)
    (hlt : info.length + ikm.length < 2 ^ 64) :
    cryptoBlake3KdfHasher impl ikm info = hash (info ++ ikm) := by
  have hinfo : (hasherInit.update impl info).Absorbed iv 0 ([] ++ info) :=
    (Hasher.absorbed_init iv 0).update hi (by rw [List.length_nil]; omega)
  have hikm : ((hasherInit.update impl info).update impl ikm).Absorbed iv 0
      ([] ++ info ++ ikm) := hinfo.update hi (by rwa [List.nil_append])
  rw [cryptoBlake3KdfHasher, Hasher.finalize]
  exact hikm.finalizeSeek_eq hi 0 32

/-- **Key derivation.** The key is the hash of the label and the keying material, as the
    programs take it to be. -/
theorem cryptoBlake3Kdf_eq (impl : Impl) (hi : impl.Lawful) (env : PrimEnv)
    (henv : ∀ absorbed, env (.blake3 absorbed) = hash absorbed) (ikm info : List UInt8)
    (hlt : info.length + ikm.length < 2 ^ 64) :
    ((cryptoBlake3Kdf ikm info).eval env).1 = cryptoBlake3KdfHasher impl ikm info := by
  have hrun : (cryptoBlake3Kdf ikm info).eval env = env (.blake3 (info ++ ikm)) := rfl
  rw [hrun, henv, cryptoBlake3KdfHasher_eq_hash hi ikm info hlt]

/-- Calls that are answered with the hash. -/
def hashingEnv : PrimEnv
  | .blake3 absorbed => hash absorbed
  | p => PrimEnv.sample p

theorem cryptoBlake3Kdf_eq_sample :
    ((cryptoBlake3Kdf [1, 2] (cstr "info")).eval hashingEnv).1 =
      cryptoBlake3KdfHasher .portable [1, 2] (cstr "info") :=
  cryptoBlake3Kdf_eq .portable Impl.portable_lawful hashingEnv (fun _ => rfl) [1, 2]
    (cstr "info") (by decide)

end HybridPqc.Blake3
