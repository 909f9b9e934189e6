import HybridPqc.JsonServer

/-!
# The server of the JSON protocol

`handle_client` of `c/server.c`. The server receives a `ProfileSelect`, which it deletes
before it uses the strings in it; where its profile has a classical part it
receives a `ClientHello`; it sends its keys, receives the ciphertext, and sends its
`ServerFinished`.

The KEM key pair is made by a thread of its own, which is joined before anything it
leaves is looked at; it is made here where it is joined. A part returns nothing where
the code gives up.
-/

namespace HybridPqc

open Dispatch (ServerKem ServerClassical)

namespace Baseline

/-- The classical key pair and the classical secret: every step has to succeed. -/
def serverExchange (combo : AlgoCombo) (cliPub : List UInt8) : Sys (Option ServerClassical) := do
  match ← cryptoGenerateKeypair .our combo.classicalCurve with
  | none => return none
  | some srvPriv =>
    match ← cryptoExportPub combo.classicalCurve srvPriv with
    | none =>
      call (.evpPkeyFree srvPriv)
      return none
    | some srvPub =>
      match ← cryptoLoadPub combo.classicalCurve cliPub with
      | none =>
        call (.evpPkeyFree srvPriv)
        return none
      | some peerPub =>
        let z ← cryptoDeriveEcdhSecret srvPriv peerPub (.zero maxSharedSec) maxSharedSec
        call (.evpPkeyFree peerPub)
        if z.rc ≠ 0 then
          call (.evpPkeyFree srvPriv)
          return none
        return some ⟨srvPriv, srvPub, ⟨z.secret, z.secretLen⟩⟩

/-- The classical exchange, for profiles that have one. -/
def recvClassical (combo : AlgoCombo) : JsonNet (Option ServerClassical) := do
  if combo.HasClassical then
    match ← recvClientPub with
    | none => return none
    | some cliPub => (serverExchange combo cliPub : Sys _)
  else
    return some ⟨none, [], .none⟩

/-- Whether the thread for the KEM key pair is created, for profiles that have one. -/
def spawnKeygen (combo : AlgoCombo) : Sys Bool :=
  if combo.HasKem then call .pthreadCreate else return false

/-- Joining the thread, if any: the KEM key pair, unless the thread has failed. -/
def joinKeygen (combo : AlgoCombo) (spawned : Bool) : Sys (Option (Option ServerKem)) := do
  if spawned then
    match ← pqcKeygenWorker combo.pqcName with
    | none => return none
    | some k => return some (some k)
  else
    return some none

/-- Joining the thread, if any, when nothing is to be kept of it. -/
def discardKeygen (combo : AlgoCombo) (spawned : Bool) : Sys Unit := do
  if spawned then
    match ← pqcKeygenWorker combo.pqcName with
    | none => return ()
    | some k => freeKem k

/-- The ciphertext and the KEM secret: the ciphertext has to have the right length. -/
def recvCiphertext (k : ServerKem) : JsonNet KemOutcome := do
  match ← recvJsonLine with
  | none =>
    (freeKem k : Sys _)
    return .closed
  | some ctMsg =>
    let room ← Conn.sys (.malloc .ciphertext k.kem.lengthCiphertext)
    match ← (decodeCiphertext room k ctMsg : Sys _) with
    | none =>
      (freeIf room .ciphertext : Sys _)
      (freeKem k : Sys _)
      return .closed
    | some ct =>
      match ← (decapsUnchecked k ct : Sys _) with
      | none => return .crashed
      | some qSecret =>
        (freeIf room .ciphertext : Sys _)
        (freeKem k : Sys _)
        return .ok qSecret

/-- Sending the keys, and the KEM part, for profiles that have one. The key pair is used
    even where there was no thread to make it. -/
def exchangeKeys (combo : AlgoCombo) (srvPub : List UInt8) (kem : Option ServerKem) :
    JsonNet KemOutcome := do
  if combo.HasKem then
    match kem with
    | none => return .crashed
    | some k =>
      sendKeys srvPub k []
      recvCiphertext k
  else
    sendClassicalKey srvPub []
    return .ok .none

/-- The KDF: its name is compared with `blake3` where the code chooses. -/
def chooseKdf (sel : Parsed) (kdfType : Option CString) (salt : Option (List UInt8)) :
    Sys Kdf := do
  match kdfType with
  | none => return .hkdfSha256 salt
  | some s =>
    let text ← sel.load s .compareKdf
    return if text = cstr "blake3" then .blake3 else .hkdfSha256 salt

/-- The session key, and the `ServerFinished`. -/
def serverFinish (combo : AlgoCombo) (sel : Parsed) (kdfType : Option CString)
    (salt : Option (List UInt8)) (cSecret qSecret : Secret) : JsonNet JsonServerEnd := do
  let ikm := ikmOf cSecret qSecret
  let kdf ← (chooseKdf sel kdfType salt : Sys _)
  let key ← (kdf.derive ikm combo.info : Sys _)
  sendJsonLine (serverFinished [])
  Conn.close
  return .finished kdf ikm key

/-- The handshake of a known suite, once the `ProfileSelect` is deleted. -/
def serve (combo : AlgoCombo) (sel : Parsed) (kdfType saltB64 : Option CString) :
    JsonNet JsonServerEnd := do
  let salt ← (decodeSalt sel saltB64 : Sys _)
  let spawned ← (spawnKeygen combo : Sys _)
  match ← recvClassical combo with
  | none =>
    (discardKeygen combo spawned : Sys _)
    jsonServerClose
  | some classical =>
    match ← (joinKeygen combo spawned : Sys _) with
    | none =>
      (freePkey classical.priv : Sys _)
      jsonServerClose
    | some kem =>
      match ← exchangeKeys combo classical.pub kem with
      | .crashed => return .crashed
      | .closed =>
        (freePkey classical.priv : Sys _)
        jsonServerClose
      | .ok qSecret =>
        (freePkey classical.priv : Sys _)
        serverFinish combo sel kdfType salt classical.secret qSecret

/-- `handle_client`. -/
def handleClient : JsonNet JsonServerEnd := do
  match ← recvJsonLine with
  | none => jsonServerClose
  | some sel =>
    let comboId := sel.getInt "combo_id" (-1)
    let kdfType := sel.getStr "kdf_type"
    let saltB64 := sel.getStr "salt"
    -- the strings are still pointed to
    let sel := Parsed.delete ⟨sel, false⟩
    match getComboById algorithmCombos comboId with
    | none => jsonServerClose
    | some combo => serve combo sel kdfType saltB64

end Baseline

end HybridPqc
