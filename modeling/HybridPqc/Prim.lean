import HybridPqc.Lib.Conn
import HybridPqc.Algo
import Mathlib.Algebra.Order.Ring.Nat
import Mathlib.Data.Rat.Defs

/-!
# Calls to the system and to the libraries

What the programs call: `malloc` and `free`, OpenSSL, liboqs, BLAKE3, sockets
and the clock. Their code is not part of the repository; here they are the
operations `Prim`, with their answers `Prim.Res`, so that a `Prog.Env` is one
outcome of each call. Calls that could be made twice with the same arguments
have an argument of their own to tell them apart (`Buf`, `KeyOwner`, `Clock`).

Buffers are lists of bytes of the size of the buffer; a call writing a buffer
answers with its contents after it, also when it fails.
-/

namespace HybridPqc

/-- A buffer of `n` bytes. -/
abbrev Bytes (n : ℕ) := { bs : List UInt8 // bs.length = n }

namespace Bytes

variable {n : ℕ}

/-- The buffer cleared by `memset`. -/
def zero (n : ℕ) : Bytes n := ⟨List.replicate n 0, List.length_replicate⟩

instance : Inhabited (Bytes n) := ⟨zero n⟩

/-- `memcpy` of `src` to the beginning of the buffer, never past its end. -/
def memcpy (dst : Bytes n) (src : List UInt8) : Bytes n :=
  ⟨(src ++ dst.1.drop src.length).take n, by
    have := dst.2
    simp only [List.length_take, List.length_append, List.length_drop]
    omega⟩

@[simp] theorem memcpy_val (dst : Bytes n) {src : List UInt8} (h : src.length ≤ n) :
    (dst.memcpy src).1 = src ++ dst.1.drop src.length := by
  have := dst.2
  change List.take n _ = _
  rw [List.take_of_length_le]
  simp only [List.length_append, List.length_drop]
  omega

/-- What is copied to a buffer can be read back from it. -/
theorem take_memcpy (dst : Bytes n) {src : List UInt8} (h : src.length ≤ n) :
    (dst.memcpy src).1.take src.length = src := by
  rw [memcpy_val dst h, List.take_left]

end Bytes

/-- An OpenSSL key. -/
structure EvpPkey where
  handle : ℕ
  deriving DecidableEq

/-- A KEM of liboqs: its name and its lengths, in bytes. An `int` holds those of public keys
    and of ciphertexts, and no ciphertext is empty. -/
structure OqsKem where
  name : CString
  lengthPublicKey : ℕ
  lengthSecretKey : ℕ
  lengthCiphertext : ℕ
  lengthSharedSecret : ℕ
  lengthPublicKey_lt : lengthPublicKey < 2 ^ 31
  lengthCiphertext_pos : 0 < lengthCiphertext
  lengthCiphertext_lt : lengthCiphertext < 2 ^ 31
  deriving DecidableEq

namespace OqsKem

theorem lengthPublicKey_lt_uint32 (kem : OqsKem) : kem.lengthPublicKey < 2 ^ 32 :=
  kem.lengthPublicKey_lt.trans (by decide)

theorem lengthCiphertext_lt_uint32 (kem : OqsKem) : kem.lengthCiphertext < 2 ^ 32 :=
  kem.lengthCiphertext_lt.trans (by decide)

end OqsKem

/-- A KEM with the lengths of ML-KEM-768. -/
abbrev OqsKem.mlkem768 (name : CString) : OqsKem :=
  ⟨name, 1184, 2400, 1088, 32, by decide, by decide, by decide⟩

/-- What a buffer is allocated for. -/
inductive Buf
  | publicKey
  | secretKey
  | ciphertext
  | sharedSecret
  | sharedSecretTmp
  /-- The public key decoded by a worker. -/
  | publicKeyDecoded
  | helloPacket
  | ciphertextPacket
  | base64
  deriving DecidableEq

/-- Whose key pair is generated. -/
inductive KeyOwner
  | our
  | peer
  deriving DecidableEq

/-- What a key context is made for. -/
inductive CtxUse
  | keygen (owner : KeyOwner)
  | derive
  deriving DecidableEq

/-- The NIST curves, as OpenSSL numbers them. -/
inductive Nid
  | x962Prime256v1
  | secp384r1
  deriving DecidableEq

/-- Which reading of the clock. -/
inductive Clock
  | start
  | stop
  deriving DecidableEq

/-- Which reading of a string of a message. -/
inductive StringUse
  | strlenSalt
  | decodeSalt
  | compareKdf
  deriving DecidableEq

/-- A call. -/
inductive Prim
  | malloc (buf : Buf) (size : ℕ)
  | free (buf : Buf)
  /-- Looking at a buffer that no call has filled. -/
  | contents (buf : Buf) (size : ℕ)
  /-- Reading a string that has been released. -/
  | readFreed (use : StringUse)
  | evpPkeyCtxNew (use : CtxUse)
  | evpPkeyCtxFree (use : CtxUse)
  | evpPkeyKeygenInit (owner : KeyOwner)
  | evpPkeyCtxSetEcParamgenCurveNid (owner : KeyOwner) (nid : Nid)
  | evpPkeyGenerate (owner : KeyOwner)
  | evpPkeyFree (pkey : EvpPkey)
  | evpPkeyGetRawPublicKey (pkey : EvpPkey)
  | i2dPubkey (pkey : EvpPkey)
  | evpPkeyNewRawPublicKey (raw : List UInt8)
  | d2iPubkey (der : List UInt8)
  | evpPkeyDeriveInit (privKey : EvpPkey)
  | evpPkeyDeriveSetPeer (privKey peerPub : EvpPkey)
  /-- `EVP_PKEY_derive` with a `NULL` buffer: it asks for the length. -/
  | evpPkeyDeriveLength (privKey peerPub : EvpPkey) (secretLen : ℕ)
  | evpPkeyDerive (privKey peerPub : EvpPkey) {n : ℕ} (secret : Bytes n) (secretLen : ℕ)
  | evpKdfFetch
  | evpKdfFree
  | evpKdfCtxNew
  | evpKdfCtxFree
  | evpKdfDerive (key : List UInt8) (salt info : Option (List UInt8))
  /-- BLAKE3, from `blake3_hasher_init` to `blake3_hasher_finalize`, of the bytes
      fed to the hasher in between. -/
  | blake3 (absorbed : List UInt8)
  | oqsKemNew (name : Option CString)
  | oqsKemFree (kem : OqsKem)
  | oqsKemKeypair (kem : OqsKem)
  | oqsKemEncaps (kem : OqsKem) (pk : List UInt8)
  | oqsKemDecaps (kem : OqsKem) (ct sk : List UInt8)
  | bioNewBase64 (text : CString)
  | bioNewMemBuf (text : CString)
  | bioRead (text : CString) (maxLen : ℕ)
  | bioNewMem (src : List UInt8)
  /-- What there is in a memory BIO once `src` has been written through a Base64 one. -/
  | bioGetMem (src : List UInt8)
  | bioFreeAll
  | socket
  | connect (host : CString)
  | pthreadCreate
  | nowMs (clock : Clock)

/-- The answer of a call that writes a buffer: whether it succeeds, the contents
    of the buffer after it, and the length it reports. -/
structure Derived (n : ℕ) where
  ok : Bool
  secret : Bytes n
  secretLen : ℕ

/-- The answer of `OQS_KEM_encaps`: whether it succeeds, and the contents of both
    its output buffers after it. -/
structure Encapsulated (kem : OqsKem) where
  ok : Bool
  ct : Bytes kem.lengthCiphertext
  ss : Bytes kem.lengthSharedSecret

/-- The answers: `false` and `none` stand for failures. -/
@[reducible] def Prim.Res : Prim → Type
  | malloc .. | evpPkeyCtxNew _ | evpPkeyKeygenInit _ | evpPkeyCtxSetEcParamgenCurveNid ..
  | evpPkeyDeriveInit _ | evpPkeyDeriveSetPeer .. | evpKdfFetch | evpKdfCtxNew | bioNewBase64 _
  | bioNewMemBuf _ | bioNewMem _ | socket | connect _ | pthreadCreate => Bool
  | free _ | evpPkeyCtxFree _ | evpPkeyFree _ | evpKdfFree | evpKdfCtxFree | oqsKemFree _
  | bioFreeAll => Unit
  | contents _ size => Bytes size
  | readFreed _ | bioGetMem _ => CString
  | evpPkeyGenerate _ | evpPkeyNewRawPublicKey _ | d2iPubkey _ => Option EvpPkey
  | evpPkeyGetRawPublicKey _ | i2dPubkey _ => Option (List UInt8)
  | bioRead _ maxLen => Option { bs : List UInt8 // bs.length ≤ maxLen }
  | evpPkeyDeriveLength .. => Bool × ℕ
  | evpPkeyDerive (n := n) .. => Derived n
  | evpKdfDerive .. => Option (Bytes 32)
  | blake3 _ => Bytes 32
  | oqsKemNew _ => Option OqsKem
  | oqsKemKeypair kem => Option (Bytes kem.lengthPublicKey × Bytes kem.lengthSecretKey)
  | oqsKemEncaps kem _ => Encapsulated kem
  | oqsKemDecaps kem _ _ => Option (Bytes kem.lengthSharedSecret)
  | nowMs _ => ℚ

/-- A program calling the system and the libraries. -/
abbrev Sys (α : Type) := Prog Prim Prim.Res α

/-- One outcome of every call. -/
abbrev PrimEnv := Prog.Env Prim Prim.Res

/-- An outcome of every call where none fails. Keys and secrets are all zeros, of
    the lengths of X25519 and ML-KEM-768. -/
def PrimEnv.sample : PrimEnv
  | .malloc .. | .evpPkeyCtxNew _ | .evpPkeyKeygenInit _ | .evpPkeyCtxSetEcParamgenCurveNid ..
  | .evpPkeyDeriveInit _ | .evpPkeyDeriveSetPeer .. | .evpKdfFetch | .evpKdfCtxNew
  | .bioNewBase64 _ | .bioNewMemBuf _ | .bioNewMem _ | .socket | .connect _
  | .pthreadCreate => true
  | .free _ | .evpPkeyCtxFree _ | .evpPkeyFree _ | .evpKdfFree | .evpKdfCtxFree | .oqsKemFree _
  | .bioFreeAll => ()
  | .contents .. => .zero _
  | .readFreed _ | .bioGetMem _ => []
  | .evpPkeyGenerate _ | .evpPkeyNewRawPublicKey _ | .d2iPubkey _ => some ⟨0⟩
  | .evpPkeyGetRawPublicKey _ | .i2dPubkey _ => some (List.replicate 32 0)
  | .bioRead .. => some ⟨[], Nat.zero_le _⟩
  | .evpPkeyDeriveLength .. => (true, 32)
  | .evpPkeyDerive _ _ secret _ => ⟨true, secret, 32⟩
  | .evpKdfDerive .. => some (.zero 32)
  | .blake3 _ => .zero 32
  | .oqsKemNew name => some (.mlkem768 (name.getD []))
  | .oqsKemKeypair _ => some (.zero _, .zero _)
  | .oqsKemEncaps .. => ⟨true, .zero _, .zero _⟩
  | .oqsKemDecaps .. => some (.zero _)
  | .nowMs _ => 0

/-- A single call. -/
abbrev call (p : Prim) : Sys p.Res := Prog.op p

/-- `free`, which does nothing to a null pointer. -/
def freeIf (allocated : Bool) (buf : Buf) : Sys Unit :=
  if allocated then call (.free buf) else return ()

end HybridPqc
