import HybridPqc.Python.Engine

/-!
# The server in Python

`handle_client_connection` of `server.py`. The server receives a `ProfileSelect` and,
where its profile has a classical part, a `ClientHello`; it sends its keys,
receives the ciphertext, and sends its `ServerFinished`.

An exception ends the handshake: it is caught, and printed. The connection is closed
in any case.
-/

namespace HybridPqc

namespace Python

/-- How the server ends: by an exception, or after the `ServerFinished`, with the session
    key derived. -/
inductive PyServerEnd
  | raised
  | finished (sessionKey : Bytes 32)

/-! ## The parts of the handshake -/

/-- What is kept of the `ProfileSelect`. -/
structure Selection where
  combo : PyCombo
  kdfChoice : Json
  clientSalt : Option (List UInt8)

/-- The salt in the `ProfileSelect`, if any. -/
def clientSalt (sel : Json) : PySys (Option (Option (List UInt8))) :=
  match (item sel "salt").filter truthy with
  | none => return some none
  | some salt => do
    let some bs ← b64d salt | return none
    return some (some bs)

/-- Reading the `ProfileSelect`. -/
def readProfileSelect (sel : Json) : PySys (Option Selection) := do
  let some comboId := item sel "combo_id" | return none
  let some combo := getComboById comboId | return none
  let kdfChoice := (item sel "kdf_type").getD (.string (cstr "sha256"))
  let some clientSalt ← clientSalt sel | return none
  return some ⟨combo, kdfChoice, clientSalt⟩

/-- The classical exchange, for profiles that have one: the secret, and the field of the
    response. -/
def serverClassical (combo : PyCombo) :
    PyNet (Option (Option (List UInt8) × List (CString × Json))) := do
  if combo.HasClassical then
    let some cliHello ← recvJson | return none
    let some cPub := item cliHello "c_pub" | return none
    let some cliCPub ← (b64d cPub : PySys _) | return none
    let some (srvCPriv, srvCPub) ← (generateClassicalKexKeypair combo.classicalName : PySys _)
      | return none
    let some cSecret ← (deriveClassicalKexSecret combo.classicalName srvCPriv cliCPub : PySys _)
      | return none
    let cPubB64 ← (b64e srvCPub : PySys _)
    return some (some cSecret, [(cstr "c_pub", .string cPubB64)])
  else
    return some (none, [])

/-- Sending the response, and the KEM exchange, for profiles that have one: the secret. -/
def serverQuantum (combo : PyCombo) (response : List (CString × Json)) :
    PyNet (Option (Option (List UInt8))) := do
  if combo.HasKem then
    let some kem ← Conn.sys (PyPrim.keyEncapsulation combo.pqcName) | return none
    let some (qPk, qSk) ← Conn.sys (PyPrim.generateKeypair kem) | return none
    let qPkB64 ← (b64e qPk.1 : PySys _)
    if !(← sendJson (.object (response ++ [(cstr "q_pk", .string qPkB64)]))) then
      return none
    let some ctMsg ← recvJson | return none
    let some ctB64 := item ctMsg "ct" | return none
    let some ct ← (b64d ctB64 : PySys _) | return none
    let some qSecret ← Conn.sys (PyPrim.decapSecret kem qSk.1 ct) | return none
    return some (some qSecret.1)
  else
    if !(← sendJson (.object response)) then
      return none
    return some none

/-- The KDF that is chosen. -/
def Selection.kdf (sel : Selection) : Kdf :=
  match sel.kdfChoice with
  | .string s => if s = cstr "blake3" then .blake3 else .hkdfSha256 sel.clientSalt
  | _ => .hkdfSha256 sel.clientSalt

/-- The session key. -/
def deriveSessionKey (kdf : Kdf) (cSecret qSecret : Option (List UInt8)) (info : List UInt8) :
    PySys (Option (Bytes 32)) :=
  match kdf with
  | .blake3 => deriveHybridSecretBlake3 cSecret qSecret info
  | .hkdfSha256 salt => deriveHybridSecretSha256 cSecret qSecret info salt

/-- The `ServerFinished`. -/
def serverFinished : Json :=
  .object [(cstr "type", .string (cstr "ServerFinished")),
    (cstr "status", .string (cstr "success"))]

/-- The session key, and the `ServerFinished`. -/
def serverFinish (sel : Selection) (cSecret qSecret : Option (List UInt8)) :
    PyNet (Option (Bytes 32)) := do
  let some sessionKey ← (deriveSessionKey sel.kdf cSecret qSecret sel.combo.info : PySys _)
    | return none
  if !(← sendJson serverFinished) then
    return none
  return some sessionKey

/-- The handshake. -/
def serve : PyNet (Option (Bytes 32)) := do
  let some sel ← recvJson | return none
  let some sel ← (readProfileSelect sel : PySys _) | return none
  let some (cSecret, response) ← serverClassical sel.combo | return none
  let some qSecret ← serverQuantum sel.combo response | return none
  serverFinish sel cSecret qSecret

/-- `handle_client_connection`. -/
def handleClientConnection : PyNet PyServerEnd := do
  let sessionKey ← serve
  Conn.close
  match sessionKey with
  | none => return .raised
  | some sessionKey => return .finished sessionKey

end Python

end HybridPqc
