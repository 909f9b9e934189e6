import HybridPqc.Python.Server

/-!
# The client in Python

`execute_handshake` of `core/network_client.py`. The client sends a `ProfileSelect` and,
where its profile has a classical part, a `ClientHello`; it receives the keys of the
server, computes both secrets, sends its ciphertext, and waits for the
`ServerFinished`.

An exception ends the handshake: it is left to the caller. The connection is closed
in any case.
-/

namespace HybridPqc

namespace Python

/-- How the client ends: by an exception, or with the time, and the session key, which is
    not kept. -/
inductive PyClientEnd
  | raised
  | done (elapsedMs : ℚ) (sessionKey : Bytes 32)

/-- The salt, if one is to be used. -/
def currentSalt (combo : PyCombo) (kdfType : CString) : Option (List UInt8) :=
  if combo.profile = cstr "hybrid" ∧ kdfType = cstr "sha256" then some staticSalt else none

/-! ## The parts of the handshake -/

/-- The `ProfileSelect`. -/
def setupPayload (combo : PyCombo) (kdfType : CString) (salt : Json) : Json :=
  .object [(cstr "type", .string (cstr "ProfileSelect")), (cstr "combo_id", .number combo.id),
    (cstr "kdf_type", .string kdfType), (cstr "salt", salt)]

/-- Sending the `ProfileSelect`. -/
def sendSetup (combo : PyCombo) (kdfType : CString) : PyNet Bool := do
  let salt ← (match currentSalt combo kdfType with
    | some salt => do return .string (← b64e salt)
    | none => return .null : PySys Json)
  sendJson (setupPayload combo kdfType salt)

/-- The classical key, which is sent, for profiles that have one. -/
def clientHello (combo : PyCombo) : PyNet (Option (Option EvpPkey)) := do
  if combo.HasClassical then
    let some (cPriv, cPubBytes) ← (generateClassicalKexKeypair combo.classicalName : PySys _)
      | return none
    let cPubB64 ← (b64e cPubBytes : PySys _)
    if !(← sendJson (.object [(cstr "type", .string (cstr "ClientHello")),
        (cstr "c_pub", .string cPubB64)])) then
      return none
    return some (some cPriv)
  else
    return some none

/-- The classical secret, where there is a classical key. -/
def clientClassical (combo : PyCombo) (cPriv : Option EvpPkey) (resp : Json) :
    PySys (Option (Option (List UInt8))) := do
  match cPriv with
  | some cPriv =>
    let some cPub := item resp "c_pub" | return none
    let some srvCPub ← b64d cPub | return none
    let some cSecret ← deriveClassicalKexSecret combo.classicalName cPriv srvCPub | return none
    return some (some cSecret)
  | none => return some none

/-- The KEM secret, for profiles that have one. The ciphertext is sent. -/
def clientQuantum (combo : PyCombo) (resp : Json) : PyNet (Option (Option (List UInt8))) := do
  if combo.HasKem then
    let some kem ← Conn.sys (PyPrim.keyEncapsulation combo.pqcName) | return none
    let some qPkB64 := item resp "q_pk" | return none
    let some qPk ← (b64d qPkB64 : PySys _) | return none
    let some (ct, qSecret) ← Conn.sys (PyPrim.encapSecret kem qPk) | return none
    let ctB64 ← (b64e ct.1 : PySys _)
    if !(← sendJson (.object [(cstr "type", .string (cstr "PQCCiphertext")),
        (cstr "ct", .string ctB64)])) then
      return none
    return some (some qSecret.1)
  else
    return some none

/-- The KDF that is chosen. -/
def clientKdf (combo : PyCombo) (kdfType : CString) : Kdf :=
  if kdfType = cstr "blake3" then .blake3 else .hkdfSha256 (currentSalt combo kdfType)

/-- The handshake, once connected. -/
def handshake (combo : PyCombo) (kdfType : CString) : PyNet (Option (ℚ × Bytes 32)) := do
  let wallStart ← Conn.sys (PyPrim.perfCounter .start)
  if !(← sendSetup combo kdfType) then
    return none
  let some cPriv ← clientHello combo | return none
  let some resp ← recvJson | return none
  let some cSecret ← (clientClassical combo cPriv resp : PySys _) | return none
  let some qSecret ← clientQuantum combo resp | return none
  let some sessionKey ← (deriveSessionKey (clientKdf combo kdfType) cSecret qSecret combo.info :
    PySys _) | return none
  let some _ ← recvJson | return none
  let wallStop ← Conn.sys (PyPrim.perfCounter .stop)
  return some ((wallStop - wallStart) * 1000, sessionKey)

/-- `execute_handshake`. -/
def executeHandshake (host : CString) (combo : PyCombo) (kdfType : CString) :
    PyNet PyClientEnd := do
  if !(← Conn.sys (PyPrim.createConnection host)) then
    return .raised
  let result ← handshake combo kdfType
  Conn.close
  match result with
  | none => return .raised
  | some (elapsedMs, sessionKey) => return .done elapsedMs sessionKey

end Python

end HybridPqc
