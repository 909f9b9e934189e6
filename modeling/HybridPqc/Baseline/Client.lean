import HybridPqc.Json

/-!
# The client of the JSON protocol

`execute_handshake_with_telemetry` of `c/client.c`. The client sends a
`ProfileSelect` and, where its profile has a classical part, a `ClientHello`;
it receives the key material of the server, computes both secrets, sends its
ciphertext, and waits for the `ServerFinished`.

With a hybrid suite, the KEM operation is made by a thread of its own, which is
joined before anything it leaves is looked at; it is made here where it is
joined. A part returns nothing where the code gives up. The strings of an object
are all read before it is deleted. The telemetry is left out, and so are the
allocations of an object being made.
-/

namespace HybridPqc

namespace Baseline

/-! ## The messages -/

/-- A salt is sent, and used. -/
abbrev UseSalt (combo : AlgoCombo) (kdfType : CString) : Prop :=
  combo.profile = profileHybrid ∧ kdfType = cstr "sha256"

/-- The `ProfileSelect`. -/
def profileSelect (combo : AlgoCombo) (kdfType : CString) (salt : List (CString × Json)) : Json :=
  .object <| [(cstr "type", .string (cstr "ProfileSelect")), (cstr "combo_id", .number combo.id),
    (cstr "kdf_type", .string kdfType)] ++ salt

/-- The `ClientHello`. -/
def clientHello (pubB64 : Option CString) : Json :=
  .object <| (cstr "type", .string (cstr "ClientHello")) :: Json.strField "c_pub" pubB64

/-- The `PQCCiphertext`. -/
def pqcCiphertext (ctB64 : Option CString) : Json :=
  .object <| (cstr "type", .string (cstr "PQCCiphertext")) :: Json.strField "ct" ctB64

/-! ## The parts of the handshake -/

/-- `client_pqc_encaps_worker`: the secret and the ciphertext. -/
def clientPqcEncapsWorker (pqcName : Option CString) (qPkB64 : CString) :
    Sys (Option (Secret × List UInt8)) := do
  match ← call (.oqsKemNew pqcName) with
  | none => return none
  | some kem =>
    let ct ← call (.malloc .ciphertext kem.lengthCiphertext)
    let ss ← call (.malloc .sharedSecret kem.lengthSharedSecret)
    let pk ← call (.malloc .publicKeyDecoded kem.lengthPublicKey)
    if !ct || !ss || !pk then
      freeIf ct .ciphertext
      freeIf ss .sharedSecret
      freeIf pk .publicKeyDecoded
      call (.oqsKemFree kem)
      return none
    match (← b64Decode qPkB64 kem.lengthPublicKey).filter (·.length = kem.lengthPublicKey) with
    | none =>
      call (.free .ciphertext)
      call (.free .sharedSecret)
      call (.free .publicKeyDecoded)
      call (.oqsKemFree kem)
      return none
    | some pk =>
      let r ← call (.oqsKemEncaps kem pk)
      if !r.ok then
        call (.free .ciphertext)
        call (.free .sharedSecret)
        call (.free .publicKeyDecoded)
        call (.oqsKemFree kem)
        return none
      call (.free .sharedSecret)
      call (.free .publicKeyDecoded)
      call (.oqsKemFree kem)
      return some (.copy r.ss.1, r.ct.1)

/-- Sending the `ProfileSelect`. -/
def sendProfileSelect (combo : AlgoCombo) (kdfType : CString) : JsonNet Unit := do
  if UseSalt combo kdfType then
    let saltB64 ← (b64Encode staticSalt : Sys _)
    sendJsonLine (profileSelect combo kdfType (Json.strField "salt" saltB64))
    (freeIf saltB64.isSome .base64 : Sys _)
  else
    sendJsonLine (profileSelect combo kdfType [(cstr "salt", .null)])

/-- Sending the `ClientHello`, for profiles that have one. -/
def sendPub (combo : AlgoCombo) (pub : List UInt8) : JsonNet Unit := do
  if combo.HasClassical then
    let pubB64 ← (b64Encode pub : Sys _)
    sendJsonLine (clientHello pubB64)
    (freeIf pubB64.isSome .base64 : Sys _)

/-- Connecting, and sending the first messages. -/
def sendClientHello (host : CString) (combo : AlgoCombo) (kdfType : CString) :
    JsonNet (Option ClientStart) := do
  if !(← Conn.sys .socket) then
    return none
  if !(← Conn.sys (.connect host)) then
    Conn.close
    return none
  let tStart ← Conn.sys (.nowMs .start)
  sendProfileSelect combo kdfType
  match ← (clientKeygen combo : Sys _) with
  | none =>
    Conn.close
    return none
  | some (priv, pub) =>
    sendPub combo pub
    return some ⟨tStart, priv⟩

/-- The classical key of the server, as its message has it: none if it is not there, or
    cannot be decoded. -/
def decodePub (resp : Json) : Sys (List UInt8) := do
  match resp.getStr "c_pub" with
  | none => return []
  | some b64 =>
    let pub ← b64Decode b64 maxPubKeyBytes
    return pub.getD []

/-- The classical secret of the client, who then needs its key no more. -/
def clientSecret (combo : AlgoCombo) (priv : Option EvpPkey) (resp : Json) : Sys Secret := do
  let srvPub ← decodePub resp
  let cSecret ← classicalSecret combo.classicalCurve priv srvPub
  freePkey priv
  return cSecret

/-- Sending the ciphertext. The client goes on if it cannot. -/
def sendCiphertext (ct : List UInt8) : JsonNet Unit := do
  let ctB64 ← (b64Encode ct : Sys _)
  sendJsonLine (pqcCiphertext ctB64)
  (freeIf ctB64.isSome .base64 : Sys _)
  Conn.sys (Prim.free .ciphertext)

/-- The end of the computation of the secrets, with a hybrid suite: the ciphertext is sent
    if there are both secrets. -/
def finishHybrid (cSecret : Secret) (out : Option (Secret × List UInt8)) :
    JsonNet ClientSecrets := do
  match out with
  | none =>
    Conn.close
    return .failed
  | some (qSecret, ct) =>
    if cSecret.len = 0 then
      Conn.sys (Prim.free .ciphertext)
      Conn.close
      return .failed
    sendCiphertext ct
    return .ok cSecret qSecret

/-- Both secrets, with a hybrid suite. -/
def hybridSecrets (combo : AlgoCombo) (priv : Option EvpPkey) (resp : Json) :
    JsonNet ClientSecrets := do
  match resp.getStr "q_pk" with
  | none =>
    freePkey priv
    Conn.close
    return .failed
  | some qPkB64 =>
    let created ← Conn.sys .pthreadCreate
    let cSecret ← (clientSecret combo priv resp : Sys _)
    let out ← (if created then clientPqcEncapsWorker combo.pqcName qPkB64 else pure none : Sys _)
    finishHybrid cSecret out

/-- The KEM secret, with a suite that has no other. Neither the buffers nor the codes of
    `b64_decode` and of `OQS_KEM_encaps` are looked at. -/
def quantumSecrets (combo : AlgoCombo) (resp : Json) : JsonNet ClientSecrets := do
  match ← Conn.sys (Prim.oqsKemNew combo.pqcName), resp.getStr "q_pk" with
  | some kem, some qPkB64 =>
    let ct ← Conn.sys (.malloc .ciphertext kem.lengthCiphertext)
    let ss ← Conn.sys (.malloc .sharedSecret kem.lengthSharedSecret)
    let pk ← Conn.sys (.malloc .publicKeyDecoded kem.lengthPublicKey)
    if !ct || !ss || !pk then
      return .crashed
    let pk ← Conn.sys (Prim.contents .publicKeyDecoded kem.lengthPublicKey)
    let decoded ← (b64Decode qPkB64 kem.lengthPublicKey : Sys _)
    let r ← Conn.sys (Prim.oqsKemEncaps kem (pk.memcpy (decoded.getD [])).1)
    sendCiphertext r.ct.1
    Conn.sys (Prim.free .sharedSecret)
    Conn.sys (Prim.free .publicKeyDecoded)
    Conn.sys (Prim.oqsKemFree kem)
    return .ok .none (.copy r.ss.1)
  | _, _ =>
    Conn.close
    return .failed

/-- The secrets, as the profile has them. -/
def clientSecrets (combo : AlgoCombo) (priv : Option EvpPkey) (resp : Json) :
    JsonNet ClientSecrets := do
  if combo.profile = profileHybrid then
    hybridSecrets combo priv resp
  else if combo.profile = profilePureClassical then
    let cSecret ← (clientSecret combo priv resp : Sys _)
    return .ok cSecret .none
  else if combo.profile = profilePureQuantum then
    quantumSecrets combo resp
  else
    return .ok .none .none

/-- The session key, the `ServerFinished`, of which nothing is kept, and the time. -/
def finishHandshake (combo : AlgoCombo) (kdfType : CString) (tStart : ℚ)
    (cSecret qSecret : Secret) : JsonNet ClientEnd := do
  let salt := if UseSalt combo kdfType then some staticSalt else none
  let key ← deriveSessionKey kdfType (ikmOf cSecret qSecret) salt combo.info
  let _ ← recvJsonLine
  let tStop ← Conn.sys (.nowMs .stop)
  Conn.close
  return .done (tStop - tStart) key

/-! ## The handshake -/

/-- `execute_handshake_with_telemetry`. -/
def executeHandshake (host : CString) (combo : AlgoCombo) (kdfType : CString) :
    JsonNet ClientEnd := do
  match ← sendClientHello host combo kdfType with
  | none => return .failed
  | some start =>
    match ← recvJsonLine with
    | none =>
      freePkey start.priv
      Conn.close
      return .failed
    | some resp =>
      match ← clientSecrets combo start.priv resp with
      | .crashed => return .crashed
      | .failed => return .failed
      | .ok cSecret qSecret => finishHandshake combo kdfType start.tStart cSecret qSecret

end Baseline

end HybridPqc
