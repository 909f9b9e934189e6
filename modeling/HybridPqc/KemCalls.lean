import HybridPqc.Json

/-!
# What makes no KEM operation

The parts of the programs that call neither `OQS_KEM_encaps` nor `OQS_KEM_decaps`:
among them, those that only call the library of the classical keys.
-/

namespace HybridPqc

/-! ## Classical keys -/

/-- A call is one to the library of the classical keys. -/
def ClassicalCall : Prim → Prop
  | .evpPkeyCtxNew _ | .evpPkeyCtxFree _ | .evpPkeyKeygenInit _
  | .evpPkeyCtxSetEcParamgenCurveNid .. | .evpPkeyGenerate _ | .evpPkeyFree _
  | .evpPkeyGetRawPublicKey _ | .i2dPubkey _ | .evpPkeyNewRawPublicKey _ | .d2iPubkey _
  | .evpPkeyDeriveInit _ | .evpPkeyDeriveSetPeer .. | .evpPkeyDeriveLength .. | .evpPkeyDerive .. =>
    True
  | _ => False

section ClassicalCall

attribute [local simp] ClassicalCall

variable {priv : Option EvpPkey}

theorem classical_cryptoGenerateKeypair {owner : KeyOwner} {curveId : Int} :
    (cryptoGenerateKeypair owner curveId).All ClassicalCall := by
  simp [cryptoGenerateKeypair]

theorem classical_cryptoExportPub {curveId : Int} {pkey : EvpPkey} :
    (cryptoExportPub curveId pkey).All ClassicalCall := by
  simp [cryptoExportPub]

theorem classical_freePkey : (freePkey priv).All ClassicalCall := by
  cases priv <;> simp [freePkey]

theorem classical_cryptoLoadPub {curveId : Int} {pub : List UInt8} :
    (cryptoLoadPub curveId pub).All ClassicalCall := by
  simp [cryptoLoadPub]

theorem classical_cryptoDeriveEcdhSecret {n : ℕ} {privKey peerPub : EvpPkey} {secret : Bytes n}
    {secretLen : ℕ} : (cryptoDeriveEcdhSecret privKey peerPub secret secretLen).All ClassicalCall := by
  simp [cryptoDeriveEcdhSecret]

theorem classical_classicalSecret {curveId : Int} {pub : List UInt8} :
    (classicalSecret curveId priv pub).All ClassicalCall := by
  have hderive : ∀ peerPub, (deriveEcdhSecret priv peerPub).All ClassicalCall := by
    cases priv with
    | none => exact fun _ => trivial
    | some priv => exact fun _ => classical_cryptoDeriveEcdhSecret
  rw [classicalSecret, Prog.all_ite]
  split
  · refine .bind classical_cryptoLoadPub fun peerPub => ?_
    cases peerPub with
    | none => trivial
    | some peerPub => exact (hderive peerPub).bind fun z => ⟨trivial, fun _ => trivial⟩
  · trivial

end ClassicalCall

/-! ## KEM operations -/

/-- A call is none of `OQS_KEM_encaps` and `OQS_KEM_decaps`. -/
def NotKem (q : Prim) : Prop :=
  (∀ kem pk, q ≠ .oqsKemEncaps kem pk) ∧ ∀ kem ct sk, q ≠ .oqsKemDecaps kem ct sk

section NotKem

variable {combo : AlgoCombo} {priv : Option EvpPkey}

theorem ClassicalCall.notKem {q : Prim} (h : ClassicalCall q) : NotKem q := by
  constructor
  · rintro kem pk rfl
    exact h
  · rintro kem ct sk rfl
    exact h

theorem all_cryptoGenerateKeypair {owner : KeyOwner} {curveId : Int} :
    (cryptoGenerateKeypair owner curveId).All NotKem :=
  classical_cryptoGenerateKeypair.mono fun _ => ClassicalCall.notKem

theorem all_cryptoExportPub {curveId : Int} {pkey : EvpPkey} :
    (cryptoExportPub curveId pkey).All NotKem :=
  classical_cryptoExportPub.mono fun _ => ClassicalCall.notKem

theorem all_freePkey : (freePkey priv).All NotKem :=
  classical_freePkey.mono fun _ => ClassicalCall.notKem

theorem all_cryptoLoadPub {curveId : Int} {pub : List UInt8} :
    (cryptoLoadPub curveId pub).All NotKem :=
  classical_cryptoLoadPub.mono fun _ => ClassicalCall.notKem

theorem all_cryptoDeriveEcdhSecret {n : ℕ} {privKey peerPub : EvpPkey} {secret : Bytes n}
    {secretLen : ℕ} : (cryptoDeriveEcdhSecret privKey peerPub secret secretLen).All NotKem :=
  classical_cryptoDeriveEcdhSecret.mono fun _ => ClassicalCall.notKem

theorem all_classicalSecret {curveId : Int} {pub : List UInt8} :
    (classicalSecret curveId priv pub).All NotKem :=
  classical_classicalSecret.mono fun _ => ClassicalCall.notKem

theorem all_freeIf {allocated : Bool} {buf : Buf} : (freeIf allocated buf).All NotKem := by
  simp [freeIf, NotKem]

theorem all_clientKeygen : (clientKeygen combo).All NotKem := by
  rw [clientKeygen, Prog.all_ite]
  split
  · refine all_cryptoGenerateKeypair.bind fun priv => ?_
    cases priv with
    | none => trivial
    | some priv => exact all_cryptoExportPub.bind fun _ => trivial
  · trivial

theorem all_deriveSessionKey {kdfType info : CString} {ikm : List UInt8}
    {salt : Option (List UInt8)} : (deriveSessionKey kdfType ikm salt info).All NotKem := by
  simp [deriveSessionKey, cryptoBlake3Kdf, cryptoHkdfSha256, NotKem]

theorem all_b64Encode {src : List UInt8} : (b64Encode src).All NotKem := by
  simp [b64Encode, NotKem]

theorem all_bioRead {text : CString} {out : Bool} {dlen : ℤ} :
    (bioRead text out dlen).All NotKem := by
  simp [bioRead, NotKem]

theorem all_b64Decode {out : Bool} {b64 : Option CString} {maxLen : ℕ} :
    (b64DecodeTo out b64 maxLen).All NotKem := by
  match b64 with
  | none => trivial
  | some [] => trivial
  | some (c :: cs) =>
    simp only [b64DecodeTo, Prog.op_eq, Prog.call_bind, Prog.ret_bind, Prog.all_call, Prog.all_ite]
    refine ⟨by simp [NotKem], fun b64Bio => ⟨by simp [NotKem], fun memBio => ?_⟩⟩
    split
    · trivial
    · exact all_bioRead.bind fun decoded => by simp [NotKem]

theorem only_sendJsonLine {obj : Json} : Conn.Only NotKem (sendJsonLine obj) := by
  simp [sendJsonLine]

theorem only_recvJsonLine : Conn.Only NotKem recvJsonLine := by
  simp only [recvJsonLine, Conn.recv_eq, Prog.call_bind, Prog.ret_bind, Conn.only_call_recv]
  intro r
  split <;> trivial

end NotKem

end HybridPqc
