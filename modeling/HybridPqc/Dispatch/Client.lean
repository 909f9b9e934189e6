import HybridPqc.Lib.Handoff.Inline
import HybridPqc.Engine.Dispatch
import HybridPqc.Handshake
import HybridPqc.Dispatch.Server

/-!
# The client of the binary protocol

`execute_dispatch_handshake` of `c_dispatch/client.c`, and the worker it may have
the KEM operation made by. The client makes a classical key pair, sends its
`ClientHello`, receives the `ServerHello`, computes both secrets, sends its
ciphertext, and waits for the `Finished`, each where the profile has such a part.

The handshake is a task that uses a pool of one worker (`executeDispatchHandshake`).
With the jobs done inline, it is a program of an end of the connection
(`dispatchHandshake`).

As for the server, a part returns nothing where the code gives up. The options
of the socket and of the thread are left out.
-/

namespace HybridPqc

open Handoff

/-! ## The worker -/

/-- What a worker is told in `PQCEncapsArgs`. The raw key comes with its length. -/
structure PQCEncapsArgs where
  pqcName : Option CString
  qPkB64 : Option CString
  qPkRaw : Option (List UInt8)
  deriving DecidableEq

/-- What a worker leaves in `PQCEncapsArgs`, and in what it points to. The ciphertext
    comes with its length. -/
structure EncapsResult where
  qSecret : Secret
  ct : Option (List UInt8)
  success : Bool

/-- `PQCEncapsArgs` as the client sets it up. -/
def EncapsResult.init : EncapsResult := ⟨.none, none, false⟩

instance : Inhabited EncapsResult := ⟨.init⟩

namespace Dispatch

/-- The public key to encapsulate to, and whether it has been decoded to a buffer. -/
def encapsKey (kem : OqsKem) (p : PQCEncapsArgs) : Sys (Option (List UInt8 × Bool)) := do
  match p.qPkRaw.filter (·.length = kem.lengthPublicKey), p.qPkB64 with
  | some pk, _ => return some (pk, false)
  | none, some b64 =>
    if !(← call (.malloc .publicKeyDecoded kem.lengthPublicKey)) then
      return none
    match (← b64Decode b64 kem.lengthPublicKey).filter (·.length = kem.lengthPublicKey) with
    | some pk => return some (pk, true)
    | none =>
      call (.free .publicKeyDecoded)
      return none
  | none, none => return none

/-- `client_pqc_encaps_worker`. -/
def clientPqcEncapsWorker (p : PQCEncapsArgs) (out : EncapsResult) : Sys EncapsResult := do
  let out := { out with success := false }
  match ← call (.oqsKemNew p.pqcName) with
  | none => return out
  | some kem =>
    let ct ← call (.malloc .ciphertext kem.lengthCiphertext)
    let ss ← call (.malloc .sharedSecret kem.lengthSharedSecret)
    if !ct || !ss then
      freeIf ct .ciphertext
      freeIf ss .sharedSecret
      call (.oqsKemFree kem)
      return out
    match ← encapsKey kem p with
    | none =>
      call (.free .ciphertext)
      call (.free .sharedSecret)
      call (.oqsKemFree kem)
      return out
    | some (pk, decoded) =>
      let r ← call (.oqsKemEncaps kem pk)
      if !r.ok then
        call (.free .ciphertext)
        call (.free .sharedSecret)
        freeIf decoded .publicKeyDecoded
        call (.oqsKemFree kem)
        return out
      call (.free .sharedSecret)
      freeIf decoded .publicKeyDecoded
      call (.oqsKemFree kem)
      return ⟨⟨out.qSecret.buf.memcpy r.ss.1, kem.lengthSharedSecret⟩, some r.ct.1, true⟩

/-- A program of a thread that uses the pool of the client. -/
abbrev ClientProg (α : Type) :=
  PoolProg PQCEncapsArgs EncapsResult (ConnOp UInt8 Prim) (ConnOp.Res Prim.Res) α

/-- `client_worker_init`. -/
def clientWorkerInit : ClientProg Int := do
  if ← PoolProg.ready then
    return 0
  let created ← PoolProg.lift (Conn.sys .pthreadCreate)
  PoolProg.start created
  return if created then 0 else -1

/-- `client_worker_shutdown`. -/
def clientWorkerShutdown : ClientProg Unit := do
  if ← PoolProg.ready then
    PoolProg.stop

/-! ## The parts of the handshake -/

/-- What is received as a `ServerHello`. -/
structure ServerHello where
  srvPub : List UInt8
  pqcPk : Option (List UInt8)

/-- The code of a KDF. -/
def kdfCode (kdfType : CString) : ℕ := if kdfType = cstr "blake3" then 1 else 0

/-- The code of a dispatch mode. -/
def dmodeCode (dispatchMode : CString) : ℕ :=
  if dispatchMode = cstr "sequential" then 1 else if dispatchMode = cstr "parallel" then 2 else 0

/-- The `ClientHello`. -/
def clientHello (e : Endian) (combo : AlgoCombo) (kdfType dispatchMode : CString)
    (pub : List UInt8) : List UInt8 :=
  let chMeta : ClientHelloMeta := ⟨kdfCode kdfType, dmodeCode dispatchMode, pub.length⟩
  let hdr : WireHeader := ⟨wireMagic, wireMsgClientHello, combo.id.toNat,
    ClientHelloMeta.size + pub.length⟩
  hdr.bytes e ++ chMeta.bytes e ++ pub

/-- Connecting, and sending the `ClientHello`, in one piece. -/
def sendClientHello (e : Endian) (host : CString) (combo : AlgoCombo)
    (kdfType dispatchMode : CString) : Net (Option ClientStart) := do
  if !(← Conn.sys .socket) then
    return none
  if !(← Conn.sys (.connect host)) then
    Conn.close
    return none
  let tStart ← Conn.sys (.nowMs .start)
  match ← (clientKeygen combo : Sys _) with
  | none =>
    Conn.close
    return none
  | some (priv, pub) =>
    let pkt := clientHello e combo kdfType dispatchMode pub
    if !(← Conn.sys (.malloc .helloPacket pkt.length)) then
      freePkey priv
      Conn.close
      return none
    let sent ← Conn.send pkt
    Conn.sys (Prim.free .helloPacket)
    if !sent then
      freePkey priv
      Conn.close
      return none
    return some ⟨tStart, priv⟩

/-- The classical key in the `ServerHello`. -/
def recvSrvPub (srvPubLen : ℕ) : Net (Option (List UInt8)) :=
  if srvPubLen > 0 then
    if srvPubLen > maxPubKeyBytes then return none else Conn.recv srvPubLen
  else
    return some []

/-- The KEM key in the `ServerHello`. -/
def recvPqcPk (pqcPkLen : ℕ) : Net (Option (Option (List UInt8))) := do
  if pqcPkLen > 0 then
    if !(← Conn.sys (.malloc .publicKey pqcPkLen)) then
      return none
    match ← Conn.recv pqcPkLen with
    | none =>
      Conn.sys (Prim.free .publicKey)
      return none
    | some pk => return some (some pk)
  else
    return some none

/-- The `ServerHello`. -/
def recvServerHello (e : Endian) : Net (Option ServerHello) := do
  match ← Conn.recv WireHeader.size with
  | none => return none
  | some bs =>
    let shHdr := WireHeader.ofBytes e bs
    if shHdr.magic ≠ wireMagic ∨ shHdr.msgType ≠ wireMsgServerHello then
      return none
    match ← Conn.recv ServerHelloMeta.size with
    | none => return none
    | some bs =>
      let shMeta := ServerHelloMeta.ofBytes e bs
      match ← recvSrvPub shMeta.srvPubLen with
      | none => return none
      | some srvPub =>
        match ← recvPqcPk shMeta.pqcPkLen with
        | none => return none
        | some pqcPk => return some ⟨srvPub, pqcPk⟩

/-- The message with the ciphertext. -/
def pqcCiphertext (e : Endian) (combo : AlgoCombo) (ct : List UInt8) : List UInt8 :=
  let hdr : WireHeader := ⟨wireMagic, wireMsgPqcCiphertext, combo.id.toNat, ct.length⟩
  hdr.bytes e ++ ct

/-- Sending the ciphertext, in one piece. The client goes on if it cannot. -/
def sendCiphertext (e : Endian) (combo : AlgoCombo) (ct : List UInt8) : Net Unit := do
  let pkt := pqcCiphertext e combo ct
  if ← Conn.sys (.malloc .ciphertextPacket pkt.length) then
    let _ ← Conn.send pkt
    Conn.sys (Prim.free .ciphertextPacket)
  Conn.sys (Prim.free .ciphertext)

/-- The classical secret of the client, who then needs its key no more. -/
def clientSecret (combo : AlgoCombo) (priv : Option EvpPkey) (hello : ServerHello) :
    Sys Secret := do
  let cSecret ← classicalSecret combo.classicalCurve priv hello.srvPub
  freePkey priv
  return cSecret

/-- The end of the computation of the secrets, with a hybrid suite: the ciphertext is
    sent if there are both secrets. -/
def finishHybrid (e : Endian) (combo : AlgoCombo) (hello : ServerHello) (cSecret : Secret)
    (out : EncapsResult) : Net ClientSecrets := do
  freeIf hello.pqcPk.isSome .publicKey
  if !out.success || cSecret.len == 0 then
    freeIf out.ct.isSome .ciphertext
    Conn.close
    return .failed
  sendCiphertext e combo (out.ct.getD [])
  return .ok cSecret out.qSecret

/-- Handing the KEM operation over to the worker, which is created if need be. -/
def dispatchEncaps (route : DispatchRoute) (args : PQCEncapsArgs) : ClientProg Bool := do
  if route = .parallel then
    if !(← PoolProg.ready) then
      let _ ← clientWorkerInit
    if ← PoolProg.ready then
      PoolProg.dispatch args
      return true
  return false

/-- Both secrets, with a hybrid suite. -/
def hybridSecrets (e : Endian) (combo : AlgoCombo) (route : DispatchRoute)
    (priv : Option EvpPkey) (hello : ServerHello) : ClientProg ClientSecrets := do
  let args : PQCEncapsArgs := ⟨combo.pqcName, none, hello.pqcPk⟩
  if ← dispatchEncaps route args then
    let cSecret ← PoolProg.lift (Conn.lift (clientSecret combo priv hello))
    let out ← PoolProg.await
    PoolProg.lift (finishHybrid e combo hello cSecret out)
  else
    let out ← PoolProg.lift (Conn.lift (clientPqcEncapsWorker args .init))
    let cSecret ← PoolProg.lift (Conn.lift (clientSecret combo priv hello))
    PoolProg.lift (finishHybrid e combo hello cSecret out)

/-- The KEM secret, with a suite that has no other. Neither the buffers nor the code of
    `OQS_KEM_encaps` are looked at. -/
def quantumSecrets (e : Endian) (combo : AlgoCombo) (hello : ServerHello) :
    Net ClientSecrets := do
  match ← Conn.sys (Prim.oqsKemNew combo.pqcName), hello.pqcPk with
  | some kem, some pqcPk =>
    let ct ← Conn.sys (.malloc .ciphertext kem.lengthCiphertext)
    let ss ← Conn.sys (.malloc .sharedSecret kem.lengthSharedSecret)
    if !ct || !ss then
      return .crashed
    let r ← Conn.sys (Prim.oqsKemEncaps kem pqcPk)
    Conn.sys (Prim.free .sharedSecret)
    Conn.sys (Prim.free .publicKey)
    sendCiphertext e combo r.ct.1
    Conn.sys (Prim.oqsKemFree kem)
    return .ok .none (.copy r.ss.1)
  | _, _ =>
    freeIf hello.pqcPk.isSome .publicKey
    Conn.close
    return .failed

/-- The secrets, as the profile has them. -/
def clientSecrets (e : Endian) (combo : AlgoCombo) (route : DispatchRoute)
    (priv : Option EvpPkey) (hello : ServerHello) : ClientProg ClientSecrets := do
  if combo.profile = profileHybrid then
    hybridSecrets e combo route priv hello
  else if combo.profile = profilePureClassical then
    let cSecret ← PoolProg.lift (Conn.lift (clientSecret combo priv hello))
    return .ok cSecret .none
  else if combo.profile = profilePureQuantum then
    PoolProg.lift (quantumSecrets e combo hello)
  else
    return .ok .none .none

/-- Waiting for the `Finished`, of which nothing is kept. -/
def awaitFinished (e : Endian) : Net Unit := do
  match ← Conn.recv WireHeader.size with
  | none => return ()
  | some bs =>
    let finHdr := WireHeader.ofBytes e bs
    if finHdr.magic = wireMagic ∧ finHdr.msgType = wireMsgServerFinished then
      let _ ← Conn.recv 1

/-- The session key, the `Finished`, and the time. -/
def finishHandshake (e : Endian) (combo : AlgoCombo) (kdfType : CString) (tStart : ℚ)
    (cSecret qSecret : Secret) : Net ClientEnd := do
  let key ← deriveSessionKey kdfType (ikmOf cSecret qSecret) staticSalt combo.info
  awaitFinished e
  let tStop ← Conn.sys (.nowMs .stop)
  Conn.close
  return .done (tStop - tStart) key

/-- Giving up on the `ServerHello`. -/
def abortHandshake (priv : Option EvpPkey) : Net ClientEnd := do
  freePkey priv
  Conn.close
  return .failed

/-! ## The handshake -/

/-- `execute_dispatch_handshake`. -/
def executeDispatchHandshake (e : Endian) (host : CString) (combo : AlgoCombo)
    (kdfType dispatchMode : CString) (localRoute : DispatchRoute) : ClientProg ClientEnd := do
  match ← PoolProg.lift (sendClientHello e host combo kdfType dispatchMode) with
  | none => return .failed
  | some start =>
    match ← PoolProg.lift (recvServerHello e) with
    | none => PoolProg.lift (abortHandshake start.priv)
    | some hello =>
      match ← clientSecrets e combo localRoute start.priv hello with
      | .crashed => return .crashed
      | .failed => return .failed
      | .ok cSecret qSecret =>
        PoolProg.lift (finishHandshake e combo kdfType start.tStart cSecret qSecret)

/-- What the worker makes of a job, on the connection. -/
def encapsInline (args : PQCEncapsArgs) : Net EncapsResult :=
  Conn.lift (clientPqcEncapsWorker args .init)

/-- The handshake with the job of the worker done inline, when the pool is `ready` or
    not. -/
def dispatchHandshake (e : Endian) (host : CString) (combo : AlgoCombo)
    (kdfType dispatchMode : CString) (localRoute : DispatchRoute) (ready : Bool) :
    Net ClientEnd := do
  let r ← PoolProg.inline encapsInline
    (executeDispatchHandshake e host combo kdfType dispatchMode localRoute) ready none
  return r.1

end Dispatch

end HybridPqc
