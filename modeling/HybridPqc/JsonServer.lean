import HybridPqc.Json
import HybridPqc.Dispatch.Server

/-!
# What the servers of the JSON protocol are made of

Parts common to `handle_client` of `c/server.c` and to the JSON path of
`handle_client` of `c_dispatch/server.c`.

A null pointer that is written to makes a server crash; so does one that is
followed.
-/

namespace HybridPqc

open Dispatch (ServerKem ServerClassical)

/-- How a server ends: a null pointer is followed, the connection is closed before the
    `ServerFinished`, or after it, with the session key derived. -/
inductive JsonServerEnd
  | crashed
  | closed
  | finished (kdf : Kdf) (ikm : List UInt8) (sessionKey : Option (Bytes 32))

/-- `close(fd); return NULL;`. -/
def jsonServerClose : JsonNet JsonServerEnd := do
  Conn.close
  return .closed

/-! ## The `ProfileSelect` -/

/-- The size of the buffer for the salt. -/
abbrev maxSalt : ℕ := 128

/-- The salt, from the pointer to its text: there is none if it is empty, or cannot be
    decoded. -/
def decodeSalt (sel : Parsed) (saltB64 : Option CString) : Sys (Option (List UInt8)) := do
  match saltB64 with
  | none => return none
  | some s =>
    let text ← sel.load s .strlenSalt
    if text.length > 0 then
      let text ← sel.load s .decodeSalt
      let salt ← b64Decode text maxSalt
      return salt.filter (·.length > 0)
    else
      return none

/-! ## The KEM key pair -/

/-- `server_pqc_keygen_worker` of `c`, and `pqc_keygen_worker` of `c_dispatch`. -/
def pqcKeygenWorker (pqcName : Option CString) : Sys (Option ServerKem) := do
  match ← call (.oqsKemNew pqcName) with
  | none => return none
  | some kem =>
    let pk ← call (.malloc .publicKey kem.lengthPublicKey)
    let sk ← call (.malloc .secretKey kem.lengthSecretKey)
    if !pk || !sk then
      freeIf pk .publicKey
      freeIf sk .secretKey
      call (.oqsKemFree kem)
      return none
    match ← call (.oqsKemKeypair kem) with
    | none =>
      call (.free .publicKey)
      call (.free .secretKey)
      call (.oqsKemFree kem)
      return none
    | some (qPk, qSk) => return some ⟨kem, qPk, qSk⟩

/-- Releasing the key pair and the KEM. -/
def freeKem (k : ServerKem) : Sys Unit := do
  call (.free .publicKey)
  call (.free .secretKey)
  call (.oqsKemFree k.kem)

/-! ## The messages -/

/-- The key of the client, as its `ClientHello` has it: none if there is no message, or no
    key in it, or it cannot be decoded. -/
def recvClientPub : JsonNet (Option (List UInt8)) := do
  match ← recvJsonLine with
  | none => return none
  | some hello =>
    let cliPub ← (b64Decode (hello.getStr "c_pub") maxPubKeyBytes : Sys _)
    return cliPub.filter (·.length > 0)

/-- The message with the keys of the server. -/
def keyMaterial (cPubB64 qPkB64 : Option CString) (more : List (CString × Json)) : Json :=
  .object (Json.strField "c_pub" cPubB64 ++ Json.strField "q_pk" qPkB64 ++ more)

/-- Sending both keys. -/
def sendKeys (srvPub : List UInt8) (k : ServerKem) (more : List (CString × Json)) :
    JsonNet Unit := do
  let cPubB64 ← (if srvPub.length > 0 then b64Encode srvPub else pure none : Sys _)
  let qPkB64 ← (b64Encode k.pk.1 : Sys _)
  sendJsonLine (keyMaterial cPubB64 qPkB64 more)
  (freeIf cPubB64.isSome .base64 : Sys _)
  (freeIf qPkB64.isSome .base64 : Sys _)

/-- Sending the classical key, for a profile without a KEM. -/
def sendClassicalKey (srvPub : List UInt8) (more : List (CString × Json)) : JsonNet Unit := do
  let cPubB64 ← (b64Encode srvPub : Sys _)
  sendJsonLine (keyMaterial cPubB64 none more)
  (freeIf cPubB64.isSome .base64 : Sys _)

/-- The ciphertext in a message, decoded to a buffer if there is one, if it has the length of
    those of the KEM. -/
def decodeCiphertext (room : Bool) (k : ServerKem) (ctMsg : Json) :
    Sys (Option (List UInt8)) := do
  let ct ← b64DecodeTo room (ctMsg.getStr "ct") k.kem.lengthCiphertext
  return ct.filter (·.length = k.kem.lengthCiphertext)

/-- Without a buffer no bytes are decoded, and a ciphertext has some. -/
theorem eq_none_of_gives_decodeCiphertext {k : ServerKem} {ctMsg : Json}
    {ok : Prog.Event Prim Prim.Res → Prop} {ct : Option (List UInt8)}
    (h : (decodeCiphertext false k ctMsg).Gives ok ct) : ct = none := by
  have hpos := k.kem.lengthCiphertext_pos
  obtain ⟨bs, hbs, rfl⟩ := (Prog.gives_bind _ _ _).1 h
  have hnothing : bs = none ∨ bs = some [] := by
    rw [b64DecodeTo.eq_def] at hbs
    split at hbs
    · exact .inr hbs.symm
    · exact .inr hbs.symm
    · simp only [Prog.op_eq, Prog.call_bind, Prog.ret_bind, Prog.gives_call, Prog.gives_ite] at hbs
      obtain ⟨b64Bio, -, memBio, -, h⟩ := hbs
      split at h
      · exact .inl h.symm
      · obtain ⟨decoded, rfl, -, -, rfl⟩ := (Prog.gives_bind _ _ _).1 h
        exact .inr rfl
  obtain rfl | rfl := hnothing
  · rfl
  · rw [Option.filter_some, if_neg]
    simpa using hpos.ne

/-- The KEM secret, if there is memory for it. The code of `OQS_KEM_decaps` is not looked
    at. -/
def decapsUnchecked (k : ServerKem) (ct : List UInt8) : Sys (Option Secret) := do
  if !(← call (.malloc .sharedSecret k.kem.lengthSharedSecret)) then
    return none
  let ss ← (do
    match ← call (.oqsKemDecaps k.kem ct k.sk.1) with
    | some ss => return ss
    | none => call (.contents .sharedSecret k.kem.lengthSharedSecret) : Sys _)
  call (.free .sharedSecret)
  return some (.copy ss.1)

/-- The outcome of the KEM part of a handshake. -/
inductive KemOutcome
  | crashed
  | closed
  | ok (qSecret : Secret)

/-- The `ServerFinished`. -/
def serverFinished (more : List (CString × Json)) : Json :=
  .object <| (cstr "type", .string (cstr "ServerFinished")) ::
    (cstr "status", .string (cstr "success")) :: more

end HybridPqc
