import HybridPqc.Dispatch.ServerSecrets
import HybridPqc.Dispatch.ClientRun

/-!
# The messages of the binary protocol

Each end reads what the other has written: the fields of a `ClientHello`, of a
`ServerHello` and of a ciphertext, and the `Finished`.
-/

namespace HybridPqc

namespace Dispatch

variable {e : Endian} {combo : AlgoCombo} {kdfType dispatchMode : CString}

/-- A `ClientHello`, after its header. -/
def clientHelloBody (e : Endian) (kdfType dispatchMode : CString) (pub : List UInt8) : List UInt8 :=
  (ClientHelloMeta.bytes e ⟨kdfCode kdfType, dmodeCode dispatchMode, pub.length⟩) ++ pub

/-- The header of a `ClientHello`. -/
def clientHelloHeader (combo : AlgoCombo) (pub : List UInt8) : WireHeader :=
  ⟨wireMagic, wireMsgClientHello, combo.id.toNat, ClientHelloMeta.size + pub.length⟩

theorem clientHello_eq {pub : List UInt8} : clientHello e combo kdfType dispatchMode pub =
    (clientHelloHeader combo pub).bytes e ++ clientHelloBody e kdfType dispatchMode pub :=
  List.append_assoc ..

theorem kdfCode_lt : kdfCode kdfType < 2 ^ 8 := by
  rw [kdfCode]
  split <;> decide

theorem dmodeCode_lt : dmodeCode dispatchMode < 2 ^ 8 := by
  rw [dmodeCode]
  split_ifs <;> decide

variable {pub pk ct : List UInt8}

/-- The server reads the fields of a `ClientHello` as the client has written them. -/
theorem clientHelloMeta_body (hpub : pub.length ≤ maxPubKeyBytes) :
    clientHelloMeta e (clientHelloBody e kdfType dispatchMode pub) =
      ⟨kdfCode kdfType, dmodeCode dispatchMode, pub.length⟩ := by
  have hpub : pub.length < 2 ^ 16 := hpub.trans_lt (by decide)
  rw [clientHelloMeta, clientHelloBody, List.take_left' (ClientHelloMeta.length_bytes ..),
    ClientHelloMeta.ofBytes_bytes, Nat.mod_eq_of_lt kdfCode_lt, Nat.mod_eq_of_lt dmodeCode_lt,
    Nat.mod_eq_of_lt hpub]

theorem drop_clientHelloBody :
    (clientHelloBody e kdfType dispatchMode pub).drop ClientHelloMeta.size = pub :=
  List.drop_left' (ClientHelloMeta.length_bytes ..)

theorem clientHelloComplete_body (hpub : pub.length ≤ maxPubKeyBytes) :
    ClientHelloComplete e (clientHelloBody e kdfType dispatchMode pub) := by
  rw [ClientHelloComplete, clientHelloMeta_body hpub]
  simpa [clientHelloBody] using hpub

theorem clientHelloOf_body (hpub : pub.length ≤ maxPubKeyBytes) :
    clientHelloOf e (clientHelloBody e kdfType dispatchMode pub) = ⟨kdfCode kdfType, pub⟩ := by
  rw [clientHelloOf, clientHelloMeta_body hpub, drop_clientHelloBody, List.take_length]

theorem afterClientHello_body (hpub : pub.length ≤ maxPubKeyBytes) :
    afterClientHello e (clientHelloBody e kdfType dispatchMode pub) = [] := by
  rw [afterClientHello, clientHelloMeta_body hpub, drop_clientHelloBody, List.drop_length]

/-- The server takes the KDF that the client has chosen. -/
theorem kdfType_kdfCode :
    ClientHello.kdfType ⟨kdfCode kdfType, pub⟩ = cstr "blake3" ↔ kdfType = cstr "blake3" := by
  rw [ClientHello.kdfType, kdfCode]
  split_ifs with hkdf hcode
  · simp [hkdf]
  · exact absurd rfl hcode
  · rename_i hcode
    exact absurd hcode (by decide)
  · simp only [hkdf, iff_false]
    decide

/-- A `ServerHello`, after its header. -/
def serverHelloBody (e : Endian) (pub pk : List UInt8) : List UInt8 :=
  ServerHelloMeta.bytes e ⟨0, 0, pub.length, pk.length⟩ ++ (pub ++ pk)

/-- The header of a `ServerHello`. -/
def serverHelloHdr (combo : AlgoCombo) (pub pk : List UInt8) : WireHeader :=
  ⟨wireMagic, wireMsgServerHello, combo.id.toNat, ServerHelloMeta.size + pub.length + pk.length⟩

theorem serverHello_eq : serverHello e combo pub pk =
    (serverHelloHdr combo pub pk).bytes e ++ serverHelloBody e pub pk := by
  simp [serverHello, serverHelloHdr, serverHelloBody]

theorem drop_serverHello :
    (serverHello e combo pub pk).drop WireHeader.size = serverHelloBody e pub pk := by
  rw [serverHello_eq]
  exact List.drop_left' (WireHeader.length_bytes ..)

theorem afterServerHelloMeta_serverHello :
    afterServerHelloMeta (serverHello e combo pub pk) = pub ++ pk := by
  rw [afterServerHelloMeta, drop_serverHello]
  exact List.drop_left' (ServerHelloMeta.length_bytes ..)

/-- The client reads the fields of a `ServerHello` as the server has written them. -/
theorem serverHelloMeta_serverHello (hpub : pub.length ≤ maxPubKeyBytes)
    (hpk : pk.length < 2 ^ 32) :
    serverHelloMeta e (serverHello e combo pub pk) = ⟨0, 0, pub.length, pk.length⟩ := by
  have hpub : pub.length < 2 ^ 16 := hpub.trans_lt (by decide)
  rw [serverHelloMeta, drop_serverHello, serverHelloBody,
    List.take_left' (ServerHelloMeta.length_bytes ..), ServerHelloMeta.ofBytes_bytes,
    Nat.mod_eq_of_lt hpub, Nat.mod_eq_of_lt hpk]
  rfl

theorem serverHelloHeader_serverHello : serverHelloHeader e (serverHello e combo pub pk) =
    ⟨wireMagic, wireMsgServerHello, combo.id.toNat % 2 ^ 16,
      (ServerHelloMeta.size + pub.length + pk.length) % 2 ^ 32⟩ := by
  rw [serverHelloHeader, serverHello_eq, List.take_left' (WireHeader.length_bytes ..),
    WireHeader.ofBytes_bytes]
  rfl

theorem serverHelloComplete_serverHello {env : NetEnv} (hpub : pub.length ≤ maxPubKeyBytes)
    (hpk : pk.length < 2 ^ 32) (halloc : env.sys (.malloc .publicKey pk.length) = true) :
    ServerHelloComplete e env (serverHello e combo pub pk) := by
  have hmeta := @serverHelloMeta_serverHello e combo _ _ hpub hpk
  refine ⟨?_, ?_, ?_, ?_, ?_⟩
  · rw [hmeta, serverHello_eq]
    simp [serverHelloBody, Nat.add_assoc]
  · rw [serverHelloHeader_serverHello]
  · rw [serverHelloHeader_serverHello]
  · rwa [hmeta]
  · rw [hmeta]
    exact fun _ => halloc

theorem serverHelloOf_serverHello (hpub : pub.length ≤ maxPubKeyBytes) (hpk : pk.length < 2 ^ 32) :
    serverHelloOf e (serverHello e combo pub pk) =
      ⟨pub, if pk.length > 0 then some pk else none⟩ := by
  simp [serverHelloOf, afterServerPub, serverHelloMeta_serverHello hpub hpk,
    afterServerHelloMeta_serverHello]

theorem afterServerHello_serverHello (hpub : pub.length ≤ maxPubKeyBytes)
    (hpk : pk.length < 2 ^ 32) : afterServerHello e (serverHello e combo pub pk) = [] := by
  simp [afterServerHello, afterServerPub, serverHelloMeta_serverHello hpub hpk,
    afterServerHelloMeta_serverHello]

/-- The server reads the header of a ciphertext as the client has written it. -/
theorem ciphertextHeader_pqcCiphertext (hct : ct.length < 2 ^ 32) :
    ciphertextHeader e (pqcCiphertext e combo ct) =
      ⟨wireMagic, wireMsgPqcCiphertext, combo.id.toNat % 2 ^ 16, ct.length⟩ := by
  rw [ciphertextHeader, pqcCiphertext, List.take_left' (WireHeader.length_bytes ..),
    WireHeader.ofBytes_bytes, Nat.mod_eq_of_lt hct]
  rfl

theorem drop_pqcCiphertext : (pqcCiphertext e combo ct).drop WireHeader.size = ct :=
  List.drop_left' (WireHeader.length_bytes ..)

theorem ciphertextComplete_pqcCiphertext (hct : ct.length < 2 ^ 32) :
    CiphertextComplete e (pqcCiphertext e combo ct) := by
  rw [CiphertextComplete, ciphertextHeader_pqcCiphertext hct]
  simp [pqcCiphertext]

theorem ciphertextOf_pqcCiphertext (hct : ct.length < 2 ^ 32) :
    ciphertextOf e (pqcCiphertext e combo ct) = ct := by
  rw [ciphertextOf, ciphertextHeader_pqcCiphertext hct, drop_pqcCiphertext, List.take_length]

/-- The client takes the `Finished` of the server, whole. -/
theorem obs_awaitFinished_serverFinished (env : NetEnv) :
    ∃ reads, Obs.AllRead reads ∧ ReceivedFinished e reads ∧
      env.obs (serverFinished e combo) (awaitFinished e) = ⟨(), [], reads, [], false⟩ := by
  let hdr : WireHeader := ⟨wireMagic, wireMsgServerFinished, combo.id.toNat, 1⟩
  refine ⟨[(WireHeader.size, some (hdr.bytes e)), (1, some [0])], by simp, ⟨[], _, rfl, ?_⟩, ?_⟩
  · rw [WireHeader.ofBytes_bytes]
    exact ⟨rfl, rfl⟩
  · simp only [awaitFinished, Conn.recv_eq, Prog.call_bind, Prog.ret_bind, Prog.pure_eq,
      serverFinished]
    rw [ConnEnv.obs_call_recv_append _ (WireHeader.length_bytes ..)]
    simp only [WireHeader.ofBytes_bytes]
    rw [if_pos ⟨rfl, rfl⟩, ConnEnv.obs_call_recv, if_pos (by simp)]
    rfl

end Dispatch

end HybridPqc
