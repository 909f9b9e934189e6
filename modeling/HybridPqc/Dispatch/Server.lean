import HybridPqc.Handshake

/-!
# The server of the binary protocol

`handle_client_binary` of `c_dispatch/server.c`, which is entered once the header
of the `ClientHello` has been read. The server receives the rest of it, makes a
KEM key pair and a classical one, sends its `ServerHello`, receives the
ciphertext, and sends its `Finished`, each where the profile has such a part.

A part (`recvClientHello` and so on) returns nothing where the code gives up:
what it has allocated is released in it, and the connection is closed after it.
What is only printed, and the options of the socket, are left out.
-/

namespace HybridPqc

namespace Dispatch

/-- How the handler ends. It keeps neither the input keying material nor the
    session key. -/
inductive ServerEnd
  | closed
  | finished (ikm : List UInt8) (sessionKey : Option (Bytes 32))

/-- What is received as a `ClientHello`, after the header. -/
structure ClientHello where
  kdfCode : ℕ
  pub : List UInt8

/-- The KEM key pair of the server. -/
structure ServerKem where
  kem : OqsKem
  pk : Bytes kem.lengthPublicKey
  sk : Bytes kem.lengthSecretKey

/-- The classical key pair of the server, and its secret. -/
structure ServerClassical where
  priv : Option EvpPkey
  pub : List UInt8
  secret : Secret

/-- `free(q_sk); if (kem) OQS_KEM_free(kem);`. -/
def freeSecretKey : Option ServerKem → Sys Unit
  | none => return ()
  | some k => do
    call (.free .secretKey)
    call (.oqsKemFree k.kem)

/-- `free(q_pk);`. -/
def freePublicKey : Option ServerKem → Sys Unit
  | none => return ()
  | some _ => call (.free .publicKey)

/-- The rest of the `ClientHello`. -/
def recvClientHello (e : Endian) : Net (Option ClientHello) := do
  match ← Conn.recv ClientHelloMeta.size with
  | none => return none
  | some bs =>
    let chMeta := ClientHelloMeta.ofBytes e bs
    if chMeta.cPubLen > 0 then
      if chMeta.cPubLen > maxPubKeyBytes then
        return none
      match ← Conn.recv chMeta.cPubLen with
      | none => return none
      | some pub => return some ⟨chMeta.kdfType, pub⟩
    else
      return some ⟨chMeta.kdfType, []⟩

/-- The KEM key pair, for profiles that have one. -/
def serverKeygen (combo : AlgoCombo) : Sys (Option (Option ServerKem)) := do
  if combo.HasKem then
    match ← call (.oqsKemNew combo.pqcName) with
    | none => return none
    | some kem =>
      let pk ← call (.malloc .publicKey kem.lengthPublicKey)
      let sk ← call (.malloc .secretKey kem.lengthSecretKey)
      let pair ← (if pk && sk then call (.oqsKemKeypair kem) else pure none : Sys (Option _))
      match pair with
      | some (qPk, qSk) => return some (some ⟨kem, qPk, qSk⟩)
      | none =>
        freeIf pk .publicKey
        freeIf sk .secretKey
        call (.oqsKemFree kem)
        return none
  else
    return some none

/-- The classical key pair and the classical secret, for profiles that have one. -/
def serverExchange (combo : AlgoCombo) (kem : Option ServerKem) (cliPub : List UInt8) :
    Sys (Option ServerClassical) := do
  if combo.HasClassical then
    match ← cryptoGenerateKeypair .our combo.classicalCurve with
    | none =>
      freePublicKey kem
      freeSecretKey kem
      return none
    | some srvPriv =>
      let srvPub ← cryptoExportPub combo.classicalCurve srvPriv
      let secret ← classicalSecret combo.classicalCurve srvPriv cliPub
      return some ⟨srvPriv, srvPub.getD [], secret⟩
  else
    return some ⟨none, [], .none⟩

/-- The public key of a KEM key pair, if there is one. -/
def kemPk : Option ServerKem → List UInt8
  | none => []
  | some k => k.pk.1

/-- The `ServerHello`. The server never routes anything to the worker pool. -/
def serverHello (e : Endian) (combo : AlgoCombo) (srvPub pqcPk : List UInt8) : List UInt8 :=
  let shMeta : ServerHelloMeta := ⟨0, 0, srvPub.length, pqcPk.length⟩
  let hdr : WireHeader := ⟨wireMagic, wireMsgServerHello, combo.id.toNat,
    ServerHelloMeta.size + srvPub.length + pqcPk.length⟩
  hdr.bytes e ++ shMeta.bytes e ++ srvPub ++ pqcPk

/-- Sending the `ServerHello`, in one piece. -/
def sendServerHello (e : Endian) (combo : AlgoCombo) (kem : Option ServerKem)
    (classical : ServerClassical) : Net (Option Unit) := do
  let pkt := serverHello e combo classical.pub (kemPk kem)
  if !(← Conn.sys (.malloc .helloPacket pkt.length)) then
    freePublicKey kem
    freeSecretKey kem
    freePkey classical.priv
    return none
  let sent ← Conn.send pkt
  Conn.sys (Prim.free .helloPacket)
  freePublicKey kem
  freePkey classical.priv
  if !sent then
    freeSecretKey kem
    return none
  return some ()

/-- The KEM secret: there is none if the ciphertext has not the length of those of
    the KEM, or if it is not decapsulated. -/
def decapsSecret (k : ServerKem) (ct : List UInt8) : Sys Secret := do
  if ct.length = k.kem.lengthCiphertext then
    let ok ← call (.malloc .sharedSecret k.kem.lengthSharedSecret)
    let ss ← (if ok then call (.oqsKemDecaps k.kem ct k.sk.1) else pure none : Sys (Option _))
    freeIf ok .sharedSecret
    return match ss with
      | some ss => .copy ss.1
      | none => .none
  else
    return .none

/-- The ciphertext, for profiles that have a KEM, and the KEM secret. -/
def recvCiphertext (e : Endian) (kem : Option ServerKem) : Net (Option Secret) := do
  match kem with
  | none => return some .none
  | some k =>
    match ← Conn.recv WireHeader.size with
    | none =>
      freeSecretKey kem
      return none
    | some bs =>
      let ctHdr := WireHeader.ofBytes e bs
      if ctHdr.magic ≠ wireMagic ∨ ctHdr.msgType ≠ wireMsgPqcCiphertext then
        freeSecretKey kem
        return none
      if !(← Conn.sys (.malloc .ciphertext ctHdr.payloadLen)) then
        freeSecretKey kem
        return none
      match ← Conn.recv ctHdr.payloadLen with
      | none =>
        Conn.sys (Prim.free .ciphertext)
        freeSecretKey kem
        return none
      | some ct =>
        let secret ← decapsSecret k ct
        Conn.sys (Prim.free .ciphertext)
        freeSecretKey kem
        return some secret

/-- The `Finished` of the server. -/
def serverFinished (e : Endian) (combo : AlgoCombo) : List UInt8 :=
  let hdr : WireHeader := ⟨wireMagic, wireMsgServerFinished, combo.id.toNat, 1⟩
  hdr.bytes e ++ [0]

/-- The name of the KDF, as the client has chosen it. -/
def ClientHello.kdfType (hello : ClientHello) : CString :=
  if hello.kdfCode = 1 then cstr "blake3" else cstr "sha256"

/-- The session key, and the `Finished`. -/
def serverFinish (e : Endian) (combo : AlgoCombo) (hello : ClientHello)
    (cSecret qSecret : Secret) : Net ServerEnd := do
  let ikm := ikmOf cSecret qSecret
  let key ← deriveSessionKey hello.kdfType ikm staticSalt combo.info
  let _ ← Conn.send (serverFinished e combo)
  Conn.close
  return .finished ikm key

/-- `close(fd); return NULL;`. -/
def serverClose : Net ServerEnd := do
  Conn.close
  return .closed

/-- `handle_client_binary`. -/
def handleClientBinary (e : Endian) (hdrFirst : WireHeader) : Net ServerEnd := do
  match getComboById algorithmCombos hdrFirst.comboId with
  | none => serverClose
  | some combo =>
    let some hello ← recvClientHello e | serverClose
    let some kem ← (serverKeygen combo : Sys _) | serverClose
    let some classical ← (serverExchange combo kem hello.pub : Sys _) | serverClose
    let some () ← sendServerHello e combo kem classical | serverClose
    let some qSecret ← recvCiphertext e kem | serverClose
    serverFinish e combo hello classical.secret qSecret

/-- The binary path of `handle_client`: the header of the `ClientHello`, then the handler. -/
def handleClientHeader (e : Endian) : Net ServerEnd := do
  match ← Conn.recv WireHeader.size with
  | none => serverClose
  | some bs => handleClientBinary e (WireHeader.ofBytes e bs)

end Dispatch

end HybridPqc
