import HybridPqc.Engine.Dispatch
import HybridPqc.JsonServer

/-!
# The JSON path of the server of the binary protocol

`handle_client` of `c_dispatch/server.c`, once it has not found the magic number of the
binary protocol. The name of the KDF is copied before the `ProfileSelect` is
deleted, the salt is not. Everything is made in sequence, and most failures are
passed over, leaving no secret.
-/

namespace HybridPqc

namespace Dispatch

/-- The mode of dispatch, of which the server only sends back the name. -/
inductive DispatchMode
  | auto
  | forceSequential
  | forceParallel
  deriving DecidableEq

/-- `parse_dispatch_mode`. -/
def parseDispatchMode (modeStr : Option CString) : DispatchMode :=
  if modeStr = cstr "sequential" then .forceSequential
  else if modeStr = cstr "parallel" then .forceParallel
  else .auto

/-- `dmode_str`. -/
def dmodeStr : DispatchMode → CString
  | .auto => cstr "auto"
  | .forceSequential => cstr "sequential"
  | .forceParallel => cstr "parallel"

/-- `kdf_buf`: the name is cut off where the buffer ends. -/
def kdfBuf (kdfType : Option CString) : CString :=
  match kdfType with
  | none => cstr "sha256"
  | some s => s.take 15

/-- The route, in the messages of the server, which never uses another one. -/
def routeField : CString × Json :=
  (cstr "dispatch_route", .string (routeName .sequential))

/-- The classical exchange, for profiles that have one: there is no secret if the key of
    the client cannot be loaded. -/
def recvClassicalJson (combo : AlgoCombo) (kem : Option ServerKem) :
    JsonNet (Option ServerClassical) := do
  if combo.HasClassical then
    match ← recvClientPub with
    | none =>
      (freePublicKey kem : Sys _)
      (freeSecretKey kem : Sys _)
      return none
    | some cliPub => (serverExchange combo kem cliPub : Sys _)
  else
    return some ⟨none, [], .none⟩

/-- The ciphertext and the KEM secret: there is none if the ciphertext has not the right
    length. -/
def recvCiphertextJson (k : ServerKem) : JsonNet KemOutcome := do
  match ← recvJsonLine with
  | none =>
    (freeKem k : Sys _)
    return .closed
  | some ctMsg =>
    let room ← Conn.sys (.malloc .ciphertext k.kem.lengthCiphertext)
    match ← (decodeCiphertext room k ctMsg : Sys _) with
    | none =>
      (freeIf room .ciphertext : Sys _)
      (freeKem k : Sys _)
      return .ok .none
    | some ct =>
      match ← (decapsUnchecked k ct : Sys _) with
      | none => return .crashed
      | some qSecret =>
        (freeIf room .ciphertext : Sys _)
        (freeKem k : Sys _)
        return .ok qSecret

/-- Sending the keys, and the KEM part, for profiles that have one. -/
def exchangeKeysJson (srvPub : List UInt8) (kem : Option ServerKem) : JsonNet KemOutcome := do
  match kem with
  | some k =>
    sendKeys srvPub k [routeField]
    recvCiphertextJson k
  | none =>
    sendClassicalKey srvPub [routeField]
    return .ok .none

/-- The KDF. -/
def chooseKdfJson (kdfType : CString) (salt : Option (List UInt8)) : Kdf :=
  if kdfType = cstr "blake3" then .blake3 else .hkdfSha256 salt

/-- The session key, and the `ServerFinished`. -/
def serverFinishJson (combo : AlgoCombo) (dmode : DispatchMode) (t₀ : ℚ) (kdf : Kdf)
    (cSecret qSecret : Secret) : JsonNet JsonServerEnd := do
  let ikm := ikmOf cSecret qSecret
  let key ← (kdf.derive ikm combo.info : Sys _)
  let t₁ ← Conn.sys (.nowMs .stop)
  sendJsonLine (HybridPqc.serverFinished [routeField,
    (cstr "dispatch_mode", .string (dmodeStr dmode)), (cstr "server_crypto_ms", .number (t₁ - t₀))])
  Conn.close
  return .finished kdf ikm key

/-- The handshake of a known suite, once the `ProfileSelect` is deleted. -/
def serveJson (combo : AlgoCombo) (sel : Parsed) (kdfType : CString) (saltB64 : Option CString)
    (dmode : DispatchMode) (t₀ : ℚ) : JsonNet JsonServerEnd := do
  let salt ← (decodeSalt sel saltB64 : Sys _)
  let some kem ← (serverKeygen combo : Sys _) | jsonServerClose
  let some classical ← recvClassicalJson combo kem | jsonServerClose
  match ← exchangeKeysJson classical.pub kem with
  | .crashed => return .crashed
  | .closed =>
    (freePkey classical.priv : Sys _)
    jsonServerClose
  | .ok qSecret =>
    (freePkey classical.priv : Sys _)
    serverFinishJson combo dmode t₀ (chooseKdfJson kdfType salt) classical.secret qSecret

/-- `handle_client`, from its first line. -/
def handleClientJson : JsonNet JsonServerEnd := do
  let t₀ ← Conn.sys (.nowMs .start)
  match ← recvJsonLine with
  | none => jsonServerClose
  | some sel =>
    let comboId := sel.getInt "combo_id" (-1)
    let kdfType := kdfBuf (sel.getStr "kdf_type")
    let saltB64 := sel.getStr "salt"
    let dmode := parseDispatchMode (sel.getStr "dispatch_mode")
    -- the salt is still pointed to
    let sel := Parsed.delete ⟨sel, false⟩
    match getComboById algorithmCombos comboId with
    | none => jsonServerClose
    | some combo => serveJson combo sel kdfType saltB64 dmode t₀

end Dispatch

end HybridPqc
