import HybridPqc.Lib.Ledger
import HybridPqc.JsonServer
import HybridPqc.KemCalls

/-!
# Resources

What the programs acquire and have to release: sockets, buffers, OpenSSL keys, KEMs and threads. The
ledger of the calls (`primLedger`), and what the parts common to the programs do with them.

The contexts that OpenSSL needs for a time are not followed.
-/

namespace HybridPqc

/-- A resource. -/
inductive Resource
  | socket
  | buf (buf : Buf)
  | pkey (pkey : EvpPkey)
  | kem (kem : OqsKem)
  /-- A thread made to generate a key pair, until it is joined. -/
  | thread (pqcName : Option CString)
  deriving DecidableEq

namespace Prim

/-- What a call uses. -/
def uses : Prim → List Resource
  | contents buf _ => [.buf buf]
  | evpPkeyGetRawPublicKey pkey | i2dPubkey pkey | evpPkeyDeriveInit pkey => [.pkey pkey]
  | evpPkeyDeriveSetPeer privKey peerPub | evpPkeyDeriveLength privKey peerPub _
  | evpPkeyDerive privKey peerPub .. => [.pkey privKey, .pkey peerPub]
  | oqsKemKeypair kem => [.kem kem, .buf .publicKey, .buf .secretKey]
  | oqsKemEncaps kem _ => [.kem kem, .buf .ciphertext, .buf .sharedSecret]
  | oqsKemDecaps kem .. => [.kem kem, .buf .sharedSecret, .buf .ciphertext, .buf .secretKey]
  | connect _ => [.socket]
  | _ => []

/-- What it releases. -/
def releases : Prim → Option Resource
  | free buf => some (.buf buf)
  | evpPkeyFree pkey => some (.pkey pkey)
  | oqsKemFree kem => some (.kem kem)
  | _ => none

/-- What it acquires, if it succeeds. -/
def acquires : (q : Prim) → q.Res → Multiset Resource
  | malloc buf _, ok => if ok then {.buf buf} else 0
  | evpPkeyGenerate _, pkey | evpPkeyNewRawPublicKey _, pkey | d2iPubkey _, pkey =>
    pkey.elim 0 ({.pkey ·})
  | oqsKemNew _, kem => kem.elim 0 ({.kem ·})
  | socket, ok => if ok then {.socket} else 0
  | _, _ => 0

/-- No call makes a thread that has to be joined: that is `pthread_create` with an argument. -/
theorem thread_notMem_acquires (q : Prim) (r : q.Res) (pqcName : Option CString) :
    .thread pqcName ∉ q.acquires r := by
  cases q with
  | malloc | socket | evpPkeyGenerate | evpPkeyNewRawPublicKey | d2iPubkey | oqsKemNew =>
    cases r <;> simp [acquires]
  | _ => exact Multiset.notMem_zero _

end Prim

/-- The ledger of the calls. -/
def primLedger : Ledger Prim Prim.Res Resource := ⟨Prim.uses, Prim.releases, Prim.acquires⟩

/-- The ledger of an end of a connection. -/
abbrev netLedger {B : Type} : Ledger (ConnOp B Prim) (ConnOp.Res Prim.Res) Resource :=
  primLedger.conn .socket

/-- The key, if there is one. -/
def pkeyOf (priv : Option EvpPkey) : Multiset Resource := priv.elim 0 ({.pkey ·})

/-- The key pair and the KEM, if there are any. -/
def kemOf : Option Dispatch.ServerKem → Multiset Resource
  | none => 0
  | some k => .kem k.kem ::ₘ .buf .publicKey ::ₘ {.buf .secretKey}

section Parts

variable {ok : Prog.Event Prim Prim.Res → Prop} {held : Multiset Resource} {combo : AlgoCombo}
  {priv : Option EvpPkey}

attribute [local simp] primLedger Prim.uses Prim.releases Prim.acquires Ledger.Permits Ledger.next
  Ledger.Leaves pkeyOf

@[simp] theorem pkeyOf_none : pkeyOf none = 0 := rfl

@[simp] theorem pkeyOf_some (pkey : EvpPkey) : pkeyOf (some pkey) = {.pkey pkey} := rfl

theorem keeps_malloc {buf : Buf} {size : ℕ} :
    primLedger.Keeps ok (call (.malloc buf size)) held fun room held' =>
      held' = (if room then {.buf buf} else 0) + held := by
  simp

theorem keeps_free {buf : Buf} :
    primLedger.Keeps ok (call (.free buf)) (.buf buf ::ₘ held) fun _ held' => held' = held := by
  simp

theorem keeps_oqsKemNew {pqcName : Option CString} :
    primLedger.Keeps ok (call (.oqsKemNew pqcName)) held fun kem held' =>
      held' = kem.elim 0 ({.kem ·}) + held := by
  simp

theorem keeps_oqsKemFree {kem : OqsKem} :
    primLedger.Keeps ok (call (.oqsKemFree kem)) (.kem kem ::ₘ held)
      fun _ held' => held' = held := by
  simp

theorem keeps_oqsKemKeypair {kem : OqsKem} (hkem : .kem kem ∈ held)
    (hpk : .buf .publicKey ∈ held) (hsk : .buf .secretKey ∈ held) :
    primLedger.Keeps ok (call (.oqsKemKeypair kem)) held fun _ held' => held' = held := by
  simp [hkem, hpk, hsk]

theorem keeps_freeIf {buf : Buf} {allocated : Bool} :
    primLedger.Keeps ok (freeIf allocated buf) ((if allocated then {.buf buf} else 0) + held)
      fun _ held' => held' = held := by
  cases allocated <;> simp [freeIf]

theorem keeps_cryptoGenerateKeypair {owner : KeyOwner} {curveId : Int} :
    primLedger.Keeps ok (cryptoGenerateKeypair owner curveId) held
      fun pkey held' => held' = pkeyOf pkey + held := by
  simp [cryptoGenerateKeypair]

theorem keeps_cryptoExportPub {curveId : Int} {pkey : EvpPkey} (hpkey : .pkey pkey ∈ held) :
    primLedger.Keeps ok (cryptoExportPub curveId pkey) held fun _ held' => held' = held :=
  .of_all (by simp [cryptoExportPub, hpkey]) fun _ _ => rfl

theorem keeps_cryptoLoadPub {curveId : Int} {pub : List UInt8} :
    primLedger.Keeps ok (cryptoLoadPub curveId pub) held
      fun pkey held' => held' = pkeyOf pkey + held := by
  simp [cryptoLoadPub]

theorem keeps_cryptoDeriveEcdhSecret {privKey peerPub : EvpPkey} {n : ℕ} {secret : Bytes n}
    {secretLen : ℕ} (hpriv : .pkey privKey ∈ held) (hpeer : .pkey peerPub ∈ held) :
    primLedger.Keeps ok (cryptoDeriveEcdhSecret privKey peerPub secret secretLen) held
      fun _ held' => held' = held :=
  .of_all (by simp [cryptoDeriveEcdhSecret, hpriv, hpeer]) fun _ _ => rfl

/-- The key of the peer is released with the secret derived. -/
theorem keeps_classicalSecret {curveId : Int} {pub : List UInt8}
    (hpriv : ∀ pkey ∈ priv, Resource.pkey pkey ∈ held) :
    primLedger.Keeps ok (classicalSecret curveId priv pub) held
      fun _ held' => held' = held := by
  rw [classicalSecret, Ledger.keeps_ite]
  split
  · refine keeps_cryptoLoadPub.seq fun peerPub => ?_
    cases peerPub with
    | none => simp
    | some peerPub =>
      have hderive : primLedger.Keeps ok (deriveEcdhSecret priv peerPub)
          (pkeyOf (some peerPub) + held) fun _ held' => held' = pkeyOf (some peerPub) + held := by
        cases priv with
        | none => exact rfl
        | some priv => exact keeps_cryptoDeriveEcdhSecret (by simp [hpriv]) (by simp)
      refine hderive.seq fun z => ?_
      simp
  · exact rfl

theorem keeps_freePkey {rest : Multiset Resource} :
    primLedger.Keeps ok (freePkey priv) (pkeyOf priv + rest) fun _ held' => held' = rest := by
  cases priv <;> simp [freePkey]

theorem leaves_b64DecodeTo {out : Bool} {b64 : Option CString} {maxLen : ℕ} :
    (b64DecodeTo out b64 maxLen).All (primLedger.Leaves held) := by
  rw [b64DecodeTo.eq_def]
  split
  · trivial
  · trivial
  · simp only [Prog.op_eq, Prog.call_bind, Prog.ret_bind, Prog.all_call, Prog.all_ite]
    refine ⟨by simp, fun b64Bio => ⟨by simp, fun memBio => ?_⟩⟩
    split
    · trivial
    · have hread {text : CString} {dlen : ℤ} :
          (bioRead text out dlen).All (primLedger.Leaves held) := by simp [bioRead]
      exact hread.bind fun decoded => by simp

theorem keeps_b64Decode {b64 : Option CString} {maxLen : ℕ} :
    primLedger.Keeps ok (b64Decode b64 maxLen) held fun _ held' => held' = held :=
  .of_all leaves_b64DecodeTo fun _ _ => rfl

theorem keeps_b64Encode {src : List UInt8} :
    primLedger.Keeps ok (b64Encode src) held fun text held' =>
      held' = (if text.isSome then {.buf .base64} else 0) + held := by
  simp only [b64Encode, Prog.op_eq, Prog.call_bind, Prog.ret_bind, Ledger.keeps_call]
  refine ⟨by simp, fun b64Bio _ => ⟨by simp, fun memBio _ => ?_⟩⟩
  rw [Ledger.keeps_ite]
  split
  · simp
  · simp only [Ledger.keeps_call]
    refine ⟨by simp, fun text _ => ⟨by simp, fun result _ => ?_⟩⟩
    cases result <;> simp

theorem keeps_clientKeygen :
    primLedger.Keeps ok (clientKeygen combo) held
      fun r held' => held' = r.elim 0 (fun r => pkeyOf r.1) + held := by
  rw [clientKeygen, Ledger.keeps_ite]
  split
  · refine keeps_cryptoGenerateKeypair.seq fun pkey => ?_
    cases pkey with
    | none => simp
    | some pkey =>
      refine (keeps_cryptoExportPub (by simp)).seq fun pub => ?_
      simp
  · simp

theorem keeps_deriveSessionKey {kdfType info : CString} {ikm : List UInt8}
    {salt : Option (List UInt8)} :
    primLedger.Keeps ok (deriveSessionKey kdfType ikm salt info) held
      fun _ held' => held' = held :=
  .of_all (by simp [deriveSessionKey, cryptoBlake3Kdf, cryptoHkdfSha256]) fun _ _ => rfl

end Parts

end HybridPqc
