import HybridPqc.Lib.Duplex
import HybridPqc.Dispatch.Messages

/-!
# Agreement of the binary handshake

`execute_dispatch_handshake` and `handle_client_binary` at both ends of a
connection, where no call fails (`HostWorks`, `ClassicalWorks`, `KemWorks`).

As each end reads what the other has written, the messages tell what each end
shows, one after the other (`client_runs`, `server_runs`). As nothing of the interleaving is visible in
the end (`Duplex.eq_of_stuck`), this run tells how all runs end
(`handshake_agrees`).
-/

namespace HybridPqc

/-- What the libraries compute on both hosts: the encoding of a public key, the ECDH
    secret of two keys, and the derivation functions. -/
structure CryptoLib where
  pub : EvpPkey → List UInt8
  ecdh : EvpPkey → EvpPkey → List UInt8
  hkdf : List UInt8 → Option (List UInt8) → Option (List UInt8) → Bytes 32
  blake3 : List UInt8 → Bytes 32
  length_pub : ∀ k, 0 < (pub k).length ∧ (pub k).length ≤ maxPubKeyBytes
  length_ecdh : ∀ k k', 0 < (ecdh k k').length ∧ (ecdh k k').length ≤ maxSharedSec
  ecdh_comm : ∀ k k', ecdh k k' = ecdh k' k

/-- The session key that the libraries derive. -/
def CryptoLib.sessionKey (lib : CryptoLib) (kdfType : CString) (ikm : List UInt8)
    (salt : Option (List UInt8)) (info : CString) : Bytes 32 :=
  if kdfType = cstr "blake3" then lib.blake3 (info ++ ikm)
  else lib.hkdf ikm (salt.filter (· ≠ [])) (if info = [] then none else some info)

/-- On a host, no allocation fails, nor does the derivation of a session key. -/
structure HostWorks (lib : CryptoLib) (env : PrimEnv) : Prop where
  malloc : ∀ buf size, env (.malloc buf size) = true
  kdfFetch : env .evpKdfFetch = true
  kdfCtxNew : env .evpKdfCtxNew = true
  hkdf : ∀ key salt info, env (.evpKdfDerive key salt info) = some (lib.hkdf key salt info)
  blake3 : ∀ bs, env (.blake3 bs) = lib.blake3 bs

/-- On the host with the classical key `key`, no call of OpenSSL for the key exchange with
    `peer` fails: the public key of the peer, as exported, is imported. -/
structure ClassicalWorks (lib : CryptoLib) (curveId : Int) (env : PrimEnv) (key peer : EvpPkey) :
    Prop where
  ctxNew : ∀ use, env (.evpPkeyCtxNew use) = true
  keygenInit : env (.evpPkeyKeygenInit .our) = true
  setCurve : ∀ nid, env (.evpPkeyCtxSetEcParamgenCurveNid .our nid) = true
  generate : env (.evpPkeyGenerate .our) = some key
  exportRaw : curveId = curveX25519 → env (.evpPkeyGetRawPublicKey key) = some (lib.pub key)
  exportDer : curveId ≠ curveX25519 → env (.i2dPubkey key) = some (lib.pub key)
  importRaw : curveId = curveX25519 → env (.evpPkeyNewRawPublicKey (lib.pub peer)) = some peer
  importDer : curveId ≠ curveX25519 → env (.d2iPubkey (lib.pub peer)) = some peer
  deriveInit : env (.evpPkeyDeriveInit key) = true
  setPeer : env (.evpPkeyDeriveSetPeer key peer) = true
  deriveLength : (env (.evpPkeyDeriveLength key peer maxSharedSec)).1 = true
  derive : ∃ secret, secret.1.take (lib.ecdh key peer).length = lib.ecdh key peer ∧
    env (.evpPkeyDerive key peer (.zero maxSharedSec)
      (env (.evpPkeyDeriveLength key peer maxSharedSec)).2) =
      ⟨true, secret, (lib.ecdh key peer).length⟩

/-- No call of liboqs fails: the client encapsulates `ss` to the public key of the server,
    who decapsulates it. -/
structure Dispatch.KemWorks (name : Option CString) (client server : PrimEnv) (k : ServerKem)
    (ct : Bytes k.kem.lengthCiphertext) (ss : Bytes k.kem.lengthSharedSecret) : Prop where
  newClient : client (.oqsKemNew name) = some k.kem
  newServer : server (.oqsKemNew name) = some k.kem
  keypair : server (.oqsKemKeypair k.kem) = some (k.pk, k.sk)
  encaps : client (.oqsKemEncaps k.kem k.pk.1) = ⟨true, ct, ss⟩
  decaps : server (.oqsKemDecaps k.kem ct.1 k.sk.1) = some ss
  lengthPublicKey : 0 < k.kem.lengthPublicKey
  lengthSharedSecret : k.kem.lengthSharedSecret ≤ maxSharedSec

/-! ## The calls -/

section Calls

variable {lib : CryptoLib} {env : PrimEnv} {curveId : Int} {key peer : EvpPkey}

theorem eval_deriveSessionKey (h : HostWorks lib env) {kdfType : CString} {ikm : List UInt8}
    {salt : Option (List UInt8)} {info : CString} :
    (deriveSessionKey kdfType ikm salt info).eval env =
      some (lib.sessionKey kdfType ikm salt info) := by
  simp only [deriveSessionKey, CryptoLib.sessionKey, Prog.eval_ite]
  split
  · simp [cryptoBlake3Kdf, h.blake3]
  · simp [cryptoHkdfSha256, h.kdfFetch, h.kdfCtxNew, h.hkdf]

namespace ClassicalWorks

variable (h : ClassicalWorks lib curveId env key peer)
include h

theorem eval_generate : (cryptoGenerateKeypair .our curveId).eval env = some key := by
  simp [cryptoGenerateKeypair, h.ctxNew, h.keygenInit, h.setCurve, h.generate]

theorem eval_export : (cryptoExportPub curveId key).eval env = some (lib.pub key) := by
  rw [cryptoExportPub]
  split
  · rename_i hcurve
    exact h.exportRaw hcurve
  · rename_i hcurve
    exact h.exportDer hcurve

theorem eval_load : (cryptoLoadPub curveId (lib.pub peer)).eval env = some peer := by
  rw [cryptoLoadPub]
  split
  · rename_i hcurve
    exact h.importRaw hcurve
  · rename_i hcurve
    exact h.importDer hcurve

/-- The classical secret is the ECDH secret. -/
theorem eval_classicalSecret :
    ((classicalSecret curveId (some key) (lib.pub peer)).eval env).bytes = lib.ecdh key peer ∧
      ((classicalSecret curveId (some key) (lib.pub peer)).eval env).len ≠ 0 := by
  obtain ⟨secret, hsecret, hderive⟩ := h.derive
  simp only [classicalSecret, (lib.length_pub peer).1, if_true, Prog.eval_bind, h.eval_load,
    deriveEcdhSecret, cryptoDeriveEcdhSecret, Prog.op_eq, Prog.call_bind, Prog.ret_bind,
    Prog.pure_eq, Prog.eval_call, Prog.eval_ret, h.ctxNew, h.deriveInit, h.setPeer, h.deriveLength,
    hderive, Bool.not_true, Bool.false_eq_true, if_false, Secret.bytes]
  exact ⟨hsecret, (lib.length_ecdh key peer).1.ne'⟩

end ClassicalWorks

end Calls

namespace Dispatch

variable {e : Endian} {combo : AlgoCombo} {kdfType dispatchMode : CString}

/-- The server derives with the KDF that the client has chosen. -/
theorem sessionKey_kdfCode {lib : CryptoLib} {pub ikm : List UInt8} {salt : Option (List UInt8)}
    {info : CString} : lib.sessionKey (ClientHello.kdfType ⟨kdfCode kdfType, pub⟩) ikm salt info =
      lib.sessionKey kdfType ikm salt info := by
  simp only [CryptoLib.sessionKey, kdfType_kdfCode]

/-! ## Both ends -/

section Ends

variable {lib : CryptoLib} {client server : PrimEnv} {cKey sKey : EvpPkey} {k : ServerKem}
  {ct : Bytes k.kem.lengthCiphertext} {ss : Bytes k.kem.lengthSharedSecret}

/-- The classical key of a host, where the profile has one. -/
def classicalKey (combo : AlgoCombo) (key : EvpPkey) : Option EvpPkey :=
  if combo.HasClassical then some key else none

/-- Its public key. -/
def classicalPub (lib : CryptoLib) (combo : AlgoCombo) (key : EvpPkey) : List UInt8 :=
  if combo.HasClassical then lib.pub key else []

/-- The KEM key pair, where the profile has one. -/
def kemKey (combo : AlgoCombo) (k : ServerKem) : Option ServerKem :=
  if combo.HasKem then some k else none

/-- The message with the ciphertext, where the profile has one. -/
def kemMessage (e : Endian) (combo : AlgoCombo) (ct : List UInt8) : List UInt8 :=
  if combo.HasKem then pqcCiphertext e combo ct else []

/-- The keying material that the ends agree on. -/
def agreedIkm (lib : CryptoLib) (combo : AlgoCombo) (cKey sKey : EvpPkey) (ss : List UInt8) :
    List UInt8 :=
  (if combo.HasClassical then lib.ecdh cKey sKey else []) ++ (if combo.HasKem then ss else [])

theorem length_classicalPub {key : EvpPkey} :
    (classicalPub lib combo key).length ≤ maxPubKeyBytes := by
  rw [classicalPub]
  split
  · exact (lib.length_pub key).2
  · exact Nat.zero_le _

section Keys

variable {env : PrimEnv} {key peer : EvpPkey}
  (h : combo.HasClassical → ClassicalWorks lib combo.classicalCurve env key peer)
include h

theorem generate_classicalKey : Generate env combo (classicalKey combo key) := by
  rw [classicalKey]
  split
  · rename_i hclassical
    exact ⟨hclassical, (h hclassical).eval_generate⟩
  · assumption

theorem exported_classicalKey :
    exported env combo (classicalKey combo key) = classicalPub lib combo key := by
  rw [classicalKey, classicalPub]
  split
  · rename_i hclassical
    exact congrArg (Option.getD · []) (h hclassical).eval_export
  · rfl

end Keys

/-! ### The client -/

/-- The worker encapsulates. -/
theorem eval_clientPqcEncapsWorker {name : Option CString} (hclient : HostWorks lib client)
    (hkem : KemWorks name client server k ct ss) :
    (clientPqcEncapsWorker ⟨name, none, some k.pk.1⟩ .init).eval client =
      ⟨.copy ss.1, some ct.1, true⟩ := by
  have hkey : encapsKey k.kem ⟨name, none, some k.pk.1⟩ = .ret (some (k.pk.1, false)) := by
    have hlen : k.pk.1.length = k.kem.lengthPublicKey := k.pk.2
    have hfilter : (some k.pk.1).filter (·.length = k.kem.lengthPublicKey) = some k.pk.1 := by
      simp [hlen]
    rw [encapsKey, hfilter]
    rfl
  have hlen : ss.1.length = k.kem.lengthSharedSecret := ss.2
  simp [clientPqcEncapsWorker, hclient.malloc, hkem.newClient, hkey, hkem.encaps, Secret.copy, hlen,
    EncapsResult.init, Secret.none]

theorem obs_sendCiphertext_hostWorks (hclient : HostWorks lib client) (s : List UInt8)
    (ct : List UInt8) : (ConnEnv.reliable client).obs s (sendCiphertext e combo ct) =
      ⟨(), s, [], [pqcCiphertext e combo ct], false⟩ := by
  rw [obs_sendCiphertext]
  exact congrArg (fun sent => (⟨(), s, [], sent, false⟩ : Obs UInt8 Unit))
    (if_pos (hclient.malloc ..))

/-- The secrets of the client, with each profile. -/
theorem obs_sequentialSecrets_hybrid (hprofile : combo.profile = profileHybrid)
    (hclient : HostWorks lib client)
    (hclassical : ClassicalWorks lib combo.classicalCurve client cKey sKey)
    (hkem : KemWorks combo.pqcName client server k ct ss) (s : List UInt8) :
    (ConnEnv.reliable client).obs s
        (sequentialSecrets e combo (some cKey) ⟨lib.pub sKey, some k.pk.1⟩) =
      ⟨.ok ((classicalSecret combo.classicalCurve (some cKey) (lib.pub sKey)).eval client)
        (.copy ss.1), s, [], [pqcCiphertext e combo ct.1], false⟩ := by
  have hlen := hclassical.eval_classicalSecret.2
  simp only [sequentialSecrets, if_pos hprofile, encapsInline, Conn.monadLift_eq, ConnEnv.obs_bind,
    ConnEnv.obs_lift, Obs.mk_andThen, obs_finishHybrid]
  simp only [ConnEnv.reliable, eval_clientPqcEncapsWorker hclient hkem, eval_clientSecret]
  rw [if_pos ⟨trivial, hlen⟩]
  exact congrArg (Obs.map _) (obs_sendCiphertext_hostWorks hclient s ct.1)

theorem obs_sequentialSecrets_classical (hprofile : combo.profile = profilePureClassical)
    (s : List UInt8) :
    (ConnEnv.reliable client).obs s
        (sequentialSecrets e combo (some cKey) ⟨lib.pub sKey, none⟩) =
      ⟨.ok ((classicalSecret combo.classicalCurve (some cKey) (lib.pub sKey)).eval client)
        .none, s, [], [], false⟩ := by
  simp [sequentialSecrets, hprofile, Conn.monadLift_eq, eval_clientSecret, ConnEnv.reliable,
    Obs.map]

theorem obs_sequentialSecrets_quantum (hprofile : combo.profile = profilePureQuantum)
    (hclient : HostWorks lib client) (hkem : KemWorks combo.pqcName client server k ct ss)
    (s : List UInt8) :
    (ConnEnv.reliable client).obs s (sequentialSecrets e combo none ⟨[], some k.pk.1⟩) =
      ⟨.ok .none (.copy ss.1), s, [], [pqcCiphertext e combo ct.1], false⟩ := by
  have hmalloc (buf : Buf) (size : ℕ) : (ConnEnv.reliable client : NetEnv).sys (.malloc buf size) =
    true := hclient.malloc buf size
  have hencaps : (ConnEnv.reliable client : NetEnv).sys (.oqsKemEncaps k.kem k.pk.1) =
    ⟨true, ct, ss⟩ := hkem.encaps
  rw [sequentialSecrets, if_neg (by rw [hprofile]; decide), if_neg (by rw [hprofile]; decide),
    if_pos hprofile, obs_quantumSecrets hkem.newClient rfl (hmalloc ..) (hmalloc ..), hencaps,
    obs_sendCiphertext_hostWorks hclient]
  rfl

/-- The secrets of the client, with any profile. -/
theorem obs_sequentialSecrets (hcombo : combo ∈ algorithmCombos) (hclient : HostWorks lib client)
    (hclassical : combo.HasClassical → ClassicalWorks lib combo.classicalCurve client cKey sKey)
    (hkem : combo.HasKem → KemWorks combo.pqcName client server k ct ss) (s : List UInt8) :
    ∃ cSecret qSecret, (ConnEnv.reliable client).obs s (sequentialSecrets e combo
        (classicalKey combo cKey) ⟨classicalPub lib combo sKey,
          if (kemPk (kemKey combo k)).length > 0 then some (kemPk (kemKey combo k)) else none⟩) =
        ⟨.ok cSecret qSecret, s, [], if combo.HasKem then [pqcCiphertext e combo ct.1] else [],
          false⟩ ∧
      ikmOf cSecret qSecret = agreedIkm lib combo cKey sKey ss.1 := by
  have hpk (h : combo.HasKem) : k.pk.1.length > 0 := by
    rw [k.pk.2]
    exact (hkem h).lengthPublicKey
  have hss (h : combo.HasKem) : (Secret.copy ss.1).bytes = ss.1 :=
    Secret.bytes_copy (ss.2.trans_le (hkem h).lengthSharedSecret)
  rcases profile_of_mem hcombo with hprofile | hprofile | hprofile
  · have hc : combo.HasClassical := .inl hprofile
    have hq : combo.HasKem := .inl hprofile
    -- hybrid: both secrets, one after the other
    simp only [classicalKey, classicalPub, kemKey, kemPk, if_pos hc, if_pos hq, if_pos (hpk hq)]
    refine ⟨_, _, obs_sequentialSecrets_hybrid hprofile hclient (hclassical hc) (hkem hq) s, ?_⟩
    rw [ikmOf, (hclassical hc).eval_classicalSecret.1, hss hq, agreedIkm, if_pos hc, if_pos hq]
  · have hc : combo.HasClassical := .inr hprofile
    have hq : ¬combo.HasKem := by
      rw [AlgoCombo.HasKem, hprofile]
      decide
    -- pure classical: there is no key of a KEM to take
    simp only [classicalKey, classicalPub, kemKey, kemPk, if_pos hc, if_neg hq, List.length_nil,
      gt_iff_lt, lt_irrefl, if_false]
    refine ⟨_, _, obs_sequentialSecrets_classical hprofile s, ?_⟩
    rw [ikmOf, (hclassical hc).eval_classicalSecret.1, Secret.bytes_none, agreedIkm, if_pos hc,
      if_neg hq]
  · have hc : ¬combo.HasClassical := by
      rw [AlgoCombo.HasClassical, hprofile]
      decide
    have hq : combo.HasKem := .inr hprofile
    -- pure quantum: the KEM secret alone
    simp only [classicalKey, classicalPub, kemKey, kemPk, if_neg hc, if_pos hq, if_pos (hpk hq)]
    refine ⟨_, _, obs_sequentialSecrets_quantum hprofile hclient (hkem hq) s, ?_⟩
    rw [ikmOf, Secret.bytes_none, hss hq, agreedIkm, if_neg hc, if_pos hq]

/-- The session key that the ends agree on. -/
def agreedKey (lib : CryptoLib) (combo : AlgoCombo) (kdfType : CString) (cKey sKey : EvpPkey)
    (ss : List UInt8) : Bytes 32 :=
  lib.sessionKey kdfType (agreedIkm lib combo cKey sKey ss) staticSalt combo.info

theorem finishHandshake_eq {tStart : ℚ} {cSecret qSecret : Secret} :
    finishHandshake e combo kdfType tStart cSecret qSecret = (do
      let r ← (do
        let key ← deriveSessionKey kdfType (ikmOf cSecret qSecret) staticSalt combo.info
        awaitFinished e
        let tStop ← Conn.sys (.nowMs .stop)
        return .done (tStop - tStart) key)
      Conn.close
      return r) := by
  simp only [finishHandshake, Prog.bind_assoc]
  rfl

/-- What the client does, message after message. -/
theorem client_runs (hcombo : combo ∈ algorithmCombos) (hclient : HostWorks lib client)
    (hsocket : client .socket = true) {host : CString} (hconnect : client (.connect host) = true)
    (hclassical : combo.HasClassical → ClassicalWorks lib combo.classicalCurve client cKey sKey)
    (hkem : combo.HasKem → KemWorks combo.pqcName client server k ct ss)
    (route : DispatchRoute) (ready : Bool) :
    ∃ p₁ p₂ reads reads' ms, ReceivedFinished e reads' ∧
      End.Runs client (dispatchHandshake e host combo kdfType dispatchMode route ready) [] [] []
        p₁ [] (clientHello e combo kdfType dispatchMode (classicalPub lib combo cKey)) ∧
      End.Runs client p₁
        (serverHello e combo (classicalPub lib combo sKey) (kemPk (kemKey combo k))) [] reads
        p₂ [] (kemMessage e combo ct.1) ∧
      End.Runs client p₂ (serverFinished e combo) [] reads'
        (Conn.close >>= fun _ =>
          .ret (.done ms (some (agreedKey lib combo kdfType cKey sKey ss.1)))) [] [] := by
  have hpub := @length_classicalPub combo lib sKey
  have hpk : (kemPk (kemKey combo k)).length < 2 ^ 32 := by
    rw [kemKey]
    split
    · exact k.pk.2.trans_lt k.kem.lengthPublicKey_lt_uint32
    · decide
  have hstarts : Starts e (.reliable client) combo host kdfType dispatchMode
      (classicalKey combo cKey) :=
    ⟨hsocket, hconnect, generate_classicalKey hclassical, hclient.malloc .., rfl⟩
  obtain ⟨reads, hreads, hrecv⟩ := obs_recvServerHello
    (@serverHelloComplete_serverHello e combo _ _ (.reliable client) hpub hpk (hclient.malloc ..))
  rw [serverHelloOf_serverHello hpub hpk, afterServerHello_serverHello hpub hpk] at hrecv
  obtain ⟨cSecret, qSecret, hsecrets, hikm⟩ :=
    @obs_sequentialSecrets e combo lib client server cKey sKey k ct ss hcombo hclient hclassical
      hkem []
  obtain ⟨reads', hreads', hfinished, hawait⟩ :=
    @obs_awaitFinished_serverFinished e combo (.reliable client)
  have hmessage : [] ++ (if combo.HasKem then [pqcCiphertext e combo ct.1] else []).flatten =
      kemMessage e combo ct.1 := by
    rw [kemMessage]
    split <;> simp
  -- with its job inline, a client that dispatches runs as the sequential one
  obtain ⟨⟨_, _, _⟩, rfl, hruns⟩ := @End.Runs.of_obs_map _ _ _ _ ClientEnd _ client _ Prod.fst _ _ _ []
    _ _ _ ((@obs_inline_clientSecrets _ _ _ _ route ready _ _).trans hsecrets) Obs.allRead_nil
    hmessage
  rw [dispatchHandshake_eq]
  refine ⟨?p₁, ?p₂, reads ++ [], reads', client (.nowMs .stop) - client (.nowMs .start),
    hfinished, ?start, ?secrets, ?finish⟩
  case start =>
    refine .of_obs (obs_sendClientHello hstarts) Obs.allRead_nil ?_
    simp [ConnEnv.reliable, exported_classicalKey hclassical]
  case secrets =>
    refine (End.Runs.of_obs hrecv hreads rfl).trans ?_
    exact hruns _
  case finish =>
    dsimp only
    rw [finishHandshake_eq, hikm]
    have hkey := @eval_deriveSessionKey lib client hclient kdfType
      (agreedIkm lib combo cKey sKey ss.1) (some staticSalt) combo.info
    have hobs : (ConnEnv.reliable client).obs (serverFinished e combo) (do
        let key ← deriveSessionKey kdfType (agreedIkm lib combo cKey sKey ss.1) staticSalt combo.info
        awaitFinished e
        let tStop ← Conn.sys (.nowMs .stop)
        return ClientEnd.done (tStop - client (.nowMs .start)) key) =
        ⟨.done (client (.nowMs .stop) - client (.nowMs .start))
          (some (agreedKey lib combo kdfType cKey sKey ss.1)), [], reads', [], false⟩ := by
      simp only [Conn.monadLift_eq, ConnEnv.obs_bind, ConnEnv.obs_lift, Obs.mk_andThen, hawait]
      simp only [ConnEnv.reliable, hkey, agreedKey]
      simp [Obs.andThen]
    exact .of_obs hobs hreads' rfl

/-! ### The server -/

/-- The server finds the combo of the client. -/
theorem getComboById_clientHelloHeader (hcombo : getComboById algorithmCombos combo.id = some combo)
    (pub : List UInt8) :
    getComboById algorithmCombos
      (WireHeader.ofBytes e ((clientHelloHeader combo pub).bytes e)).comboId = some combo := by
  have hid := id_lt (mem_of_getComboById hcombo)
  have hlt : combo.id.toNat < 2 ^ 16 := by omega
  rw [WireHeader.ofBytes_bytes]
  simp only [clientHelloHeader, Nat.mod_eq_of_lt hlt, Int.toNat_of_nonneg hid.1, hcombo]

theorem keygen_kemKey (hserver : HostWorks lib server)
    (hkem : combo.HasKem → KemWorks combo.pqcName client server k ct ss) :
    Keygen (.reliable server) combo (kemKey combo k) := by
  rw [kemKey]
  split
  · rename_i hq
    refine ⟨hq, ?_, hserver.malloc .., hserver.malloc ..⟩
    simp [keyPair, ConnEnv.reliable, (hkem hq).newServer, (hkem hq).keypair]
  · assumption

/-- The classical key pair of the server, and its secret. -/
def serverClassical (lib : CryptoLib) (combo : AlgoCombo) (env : PrimEnv) (cKey sKey : EvpPkey) :
    ServerClassical where
  priv := classicalKey combo sKey
  pub := classicalPub lib combo sKey
  secret := if combo.HasClassical then (classicalSecret combo.classicalCurve
    (classicalKey combo sKey) (classicalPub lib combo cKey)).eval env else .none

theorem bytes_serverClassical
    (h : combo.HasClassical → ClassicalWorks lib combo.classicalCurve server sKey cKey) :
    (serverClassical lib combo server cKey sKey).secret.bytes =
      if combo.HasClassical then lib.ecdh cKey sKey else [] := by
  simp only [serverClassical, classicalKey, classicalPub]
  split
  · rename_i hc
    rw [(h hc).eval_classicalSecret.1, lib.ecdh_comm]
  · rfl

/-- The KEM secret of the server, of what the client sends. -/
theorem obs_recvCiphertext_kemMessage (hserver : HostWorks lib server)
    (hkem : combo.HasKem → KemWorks combo.pqcName client server k ct ss) :
    ∃ qSecret reads, Obs.AllRead reads ∧
      (ConnEnv.reliable server).obs (kemMessage e combo ct.1) (recvCiphertext e (kemKey combo k)) =
        ⟨some qSecret, [], reads, [], false⟩ ∧
      qSecret.bytes = if combo.HasKem then ss.1 else [] := by
  rw [kemMessage, kemKey]
  split
  · rename_i hq
    have hct : ct.1.length < 2 ^ 32 := ct.2.trans_lt k.kem.lengthCiphertext_lt_uint32
    have hlen : ct.1.length = k.kem.lengthCiphertext := ct.2
    have hobs := @obs_recvCiphertext e (.reliable server) _ k
      (@ciphertextComplete_pqcCiphertext e combo _ hct) (hserver.malloc ..)
    have hsecret : (decapsSecret k ct.1).eval server = .copy ss.1 := by
      simp [decapsSecret, hlen, hserver.malloc, (hkem hq).decaps]
    rw [ciphertextHeader_pqcCiphertext hct, ciphertextOf_pqcCiphertext hct, drop_pqcCiphertext,
      List.drop_length] at hobs
    refine ⟨_, _, by simp, hobs, ?_⟩
    rw [ConnEnv.reliable, hsecret, Secret.bytes_copy (ss.2.trans_le (hkem hq).lengthSharedSecret)]
  · exact ⟨.none, [], Obs.allRead_nil, rfl, rfl⟩

theorem serverFinish_eq {hello : ClientHello} {cSecret qSecret : Secret} :
    serverFinish e combo hello cSecret qSecret = (do
      let key ← (do
        let key ← deriveSessionKey hello.kdfType (ikmOf cSecret qSecret) staticSalt combo.info
        let _ ← Conn.send (serverFinished e combo)
        return key)
      Conn.close
      return .finished (ikmOf cSecret qSecret) key) := by
  simp only [serverFinish, Prog.bind_assoc]
  rfl

/-- What the server does after its `ServerHello`. -/
def serverRest (e : Endian) (combo : AlgoCombo) (hello : ClientHello) (kem : Option ServerKem)
    (cSecret : Secret) : Net ServerEnd := do
  let some qSecret ← recvCiphertext e kem | serverClose
  serverFinish e combo hello cSecret qSecret

/-- The server answers a `ClientHello` with its `ServerHello`. -/
theorem server_greets (hcombo : getComboById algorithmCombos combo.id = some combo)
    (hserver : HostWorks lib server)
    (hclassical : combo.HasClassical → ClassicalWorks lib combo.classicalCurve server sKey cKey)
    (hkem : combo.HasKem → KemWorks combo.pqcName client server k ct ss) :
    ∃ reads, End.Runs server (handleClientHeader e)
      (clientHello e combo kdfType dispatchMode (classicalPub lib combo cKey)) [] reads
      (serverRest e combo ⟨kdfCode kdfType, classicalPub lib combo cKey⟩ (kemKey combo k)
        (serverClassical lib combo server cKey sKey).secret) []
      (serverHello e combo (classicalPub lib combo sKey) (kemPk (kemKey combo k))) := by
  have hpub := @length_classicalPub combo lib cKey
  obtain ⟨reads, hreads, hrecv⟩ := obs_recvClientHello (.reliable server)
    (@clientHelloComplete_body e kdfType dispatchMode _ hpub)
  rw [clientHelloOf_body hpub, afterClientHello_body hpub] at hrecv
  have hkeygen : (ConnEnv.reliable server).obs [] (Conn.lift (serverKeygen combo) : Net _) =
      ⟨some (kemKey combo k), [], [], [], false⟩ := by
    rw [ConnEnv.obs_lift, eval_serverKeygen.2 (keygen_kemKey hserver hkem)]
  have hexchange : (ConnEnv.reliable server).obs []
      (Conn.lift (serverExchange combo (kemKey combo k) (classicalPub lib combo cKey)) : Net _) =
      ⟨some (serverClassical lib combo server cKey sKey), [], [], [], false⟩ := by
    rw [ConnEnv.obs_lift, (@eval_serverExchange (.reliable server) combo _ _
      (serverClassical lib combo server cKey sKey)).2
      ⟨generate_classicalKey hclassical, (exported_classicalKey hclassical).symm, rfl⟩]
  -- the header of the `ClientHello` is read by the dispatcher, the rest by the handler
  obtain ⟨hdrReads, hhdrReads, hhdr⟩ : ∃ reads, Obs.AllRead reads ∧
      (ConnEnv.reliable server).obs
        (clientHello e combo kdfType dispatchMode (classicalPub lib combo cKey))
        (Conn.recv WireHeader.size : Net _) =
      ⟨some ((clientHelloHeader combo (classicalPub lib combo cKey)).bytes e),
        clientHelloBody e kdfType dispatchMode (classicalPub lib combo cKey), reads, [], false⟩ := by
    rw [clientHello_eq, Conn.recv_eq,
      ConnEnv.obs_call_recv_append _ (WireHeader.length_bytes ..)]
    exact ⟨_, by simp, rfl⟩
  have hsend : (ConnEnv.reliable server).obs []
      (sendServerHello e combo (kemKey combo k) (serverClassical lib combo server cKey sKey)) =
      ⟨some (), [], [],
        [serverHello e combo (classicalPub lib combo sKey) (kemPk (kemKey combo k))], false⟩ := by
    rw [obs_sendServerHello]
    exact if_pos (hserver.malloc ..)
  refine ⟨hdrReads ++ (reads ++ ([] ++ ([] ++ []))), ?_⟩
  refine (End.Runs.of_obs hhdr hhdrReads rfl).trans ?_
  dsimp only
  rw [handleClientBinary, getComboById_clientHelloHeader hcombo]
  refine (End.Runs.of_obs hrecv hreads rfl).trans ?_
  refine (End.Runs.of_obs hkeygen Obs.allRead_nil rfl).trans ?_
  refine (End.Runs.of_obs hexchange Obs.allRead_nil rfl).trans ?_
  exact .of_obs hsend Obs.allRead_nil (by simp)

/-- What the server does, message after message. -/
theorem server_runs (hcombo : getComboById algorithmCombos combo.id = some combo)
    (hserver : HostWorks lib server)
    (hclassical : combo.HasClassical → ClassicalWorks lib combo.classicalCurve server sKey cKey)
    (hkem : combo.HasKem → KemWorks combo.pqcName client server k ct ss) :
    ∃ p reads reads' ikm,
      End.Runs server (handleClientHeader e)
        (clientHello e combo kdfType dispatchMode (classicalPub lib combo cKey)) [] reads
        p [] (serverHello e combo (classicalPub lib combo sKey) (kemPk (kemKey combo k))) ∧
      End.Runs server p (kemMessage e combo ct.1) [] reads'
        (Conn.close >>= fun _ =>
          .ret (.finished ikm (some (agreedKey lib combo kdfType cKey sKey ss.1)))) []
        (serverFinished e combo) := by
  obtain ⟨reads, hgreets⟩ := @server_greets e combo kdfType dispatchMode lib client server cKey sKey
    k ct ss hcombo hserver hclassical hkem
  obtain ⟨qSecret, reads', hreads', hct, hqbytes⟩ :=
    @obs_recvCiphertext_kemMessage e combo lib client server k ct ss hserver hkem
  have hikm : ikmOf (serverClassical lib combo server cKey sKey).secret qSecret =
      agreedIkm lib combo cKey sKey ss.1 := by
    rw [ikmOf, bytes_serverClassical hclassical, hqbytes, agreedIkm]
  refine ⟨_, reads, reads' ++ [], agreedIkm lib combo cKey sKey ss.1, hgreets, ?_⟩
  have hkey := @eval_deriveSessionKey lib server hserver (ClientHello.kdfType ⟨kdfCode kdfType,
    classicalPub lib combo cKey⟩) (agreedIkm lib combo cKey sKey ss.1) (some staticSalt) combo.info
  have hobs : (ConnEnv.reliable server).obs [] (do
      let key ← deriveSessionKey (ClientHello.kdfType ⟨kdfCode kdfType,
        classicalPub lib combo cKey⟩) (agreedIkm lib combo cKey sKey ss.1) staticSalt combo.info
      let _ ← Conn.send (serverFinished e combo)
      return key) =
      ⟨some (agreedKey lib combo kdfType cKey sKey ss.1), [], [], [serverFinished e combo],
        false⟩ := by
    simp only [Conn.monadLift_eq, ConnEnv.obs_bind, ConnEnv.obs_lift, Obs.mk_andThen]
    simp only [ConnEnv.reliable, hkey, agreedKey, sessionKey_kdfCode]
    simp [Obs.wrote, Obs.map]
  refine (End.Runs.of_obs hct hreads' rfl).trans ?_
  dsimp only
  rw [serverFinish_eq, hikm]
  exact .of_obs hobs Obs.allRead_nil (by simp)

end Ends

/-! ## The handshake -/

/-- Both ends of a connection, before the handshake. -/
def handshakeStart (e : Endian) (host : CString) (combo : AlgoCombo)
    (kdfType dispatchMode : CString) (localRoute : DispatchRoute) (ready : Bool) :
    Duplex UInt8 Prim Prim Prim.Res Prim.Res ClientEnd ServerEnd where
  left := ⟨dispatchHandshake e host combo kdfType dispatchMode localRoute ready, [], false, []⟩
  right := ⟨handleClientHeader e, [], false, []⟩

/-- Both ends have returned, with the same session key; the client has received a
    `Finished`, and no byte is left. -/
structure Agreed (e : Endian) (sessionKey : Bytes 32)
    (t : Duplex UInt8 Prim Prim Prim.Res Prim.Res ClientEnd ServerEnd) : Prop where
  client : ∃ ms, t.left.prog = .ret (.done ms (some sessionKey))
  server : ∃ ikm, t.right.prog = .ret (.finished ikm (some sessionKey))
  finished : ReceivedFinished e (Conn.received t.left.trace)
  toServer : t.toRight = []
  toClient : t.toLeft = []

section Agreement

variable {lib : CryptoLib} {client server : PrimEnv} {cKey sKey : EvpPkey} {k : ServerKem}
  {ct : Bytes k.kem.lengthCiphertext} {ss : Bytes k.kem.lengthSharedSecret} {host : CString}

/-- There is an interleaving of both ends that leads to agreement: each message is
    received once it is sent. -/
theorem reaches_agreed (hcombo : getComboById algorithmCombos combo.id = some combo)
    (hclient : HostWorks lib client) (hserver : HostWorks lib server)
    (hsocket : client .socket = true) (hconnect : client (.connect host) = true)
    (hcClassical : combo.HasClassical →
      ClassicalWorks lib combo.classicalCurve client cKey sKey)
    (hsClassical : combo.HasClassical →
      ClassicalWorks lib combo.classicalCurve server sKey cKey)
    (hkem : combo.HasKem → KemWorks combo.pqcName client server k ct ss)
    (route : DispatchRoute) (ready : Bool) :
    ∃ t, Duplex.Reaches client server
        (handshakeStart e host combo kdfType dispatchMode route ready) t ∧
      Agreed e (agreedKey lib combo kdfType cKey sKey ss.1) t := by
  obtain ⟨p₁, p₂, reads, reads', ms, hfinished, hc₁, hc₂, hc₃⟩ :=
    @client_runs e combo kdfType dispatchMode lib client server cKey sKey k ct ss
      (mem_of_getComboById hcombo) hclient hsocket host hconnect hcClassical hkem route ready
  obtain ⟨q, _, _, ikm, hs₁, hs₂⟩ :=
    @server_runs e combo kdfType dispatchMode lib client server cKey sKey k ct ss hcombo hserver
      hsClassical hkem
  obtain ⟨t₁, ht₁, hsteps₁⟩ := hc₁ false []
  obtain ⟨u₁, -, hstepsₛ₁⟩ := hs₁ false []
  obtain ⟨t₂, ht₂, hsteps₂⟩ := hc₂ false ([] ++ t₁)
  obtain ⟨u₂, -, hstepsₛ₂⟩ := hs₂.close false ([] ++ u₁)
  obtain ⟨t₃, ht₃, hsteps₃⟩ := hc₃.close true ([] ++ t₁ ++ t₂)
  refine ⟨_, (Duplex.reaches_left hsteps₁).trans <| (Duplex.reaches_right hstepsₛ₁).trans <|
    (Duplex.reaches_left hsteps₂).trans <| (Duplex.reaches_right hstepsₛ₂).trans <|
    Duplex.reaches_left hsteps₃, ⟨ms, rfl⟩, ⟨ikm, rfl⟩, ?_, rfl, rfl⟩
  obtain ⟨before, hdr, rfl, hhdr⟩ := hfinished
  refine ⟨[] ++ [] ++ reads ++ before, hdr, ?_, hhdr⟩
  simp [ht₁, ht₂, ht₃]

/-- **Binary handshake agreement.** Where no call fails, and whatever the interleaving of
    both ends and the pieces in which the messages are transferred: the ends are never
    blocked on one another, they do not run forever, and once they have run to their end,
    they have agreed on a session key. -/
theorem handshake_agrees (e : Endian) (host : CString) (combo : AlgoCombo)
    (kdfType dispatchMode : CString) (localRoute : DispatchRoute) (ready : Bool)
    (hcombo : getComboById algorithmCombos combo.id = some combo)
    (hclient : HostWorks lib client) (hserver : HostWorks lib server)
    (hsocket : client .socket = true) (hconnect : client (.connect host) = true)
    (hcClassical : combo.HasClassical →
      ClassicalWorks lib combo.classicalCurve client cKey sKey)
    (hsClassical : combo.HasClassical →
      ClassicalWorks lib combo.classicalCurve server sKey cKey)
    (hkem : combo.HasKem → KemWorks combo.pqcName client server k ct ss) :
    let start := handshakeStart e host combo kdfType dispatchMode localRoute ready
    (∀ t, Duplex.Reaches client server start t → ¬t.Deadlock) ∧
      Acc (fun t s => Duplex.Step client server s t) start ∧
      ∃ sessionKey, ∀ t, Duplex.Reaches client server start t →
        (∀ u, ¬Duplex.Step client server t u) → Agreed e sessionKey t := by
  obtain ⟨final, hfinal, hagreed⟩ := @reaches_agreed e combo kdfType dispatchMode lib client server
    cKey sKey k ct ss host hcombo hclient hserver hsocket hconnect hcClassical hsClassical hkem
    localRoute ready
  obtain ⟨⟨ms, hl⟩, ⟨ikm, hr⟩, -⟩ := id hagreed
  refine ⟨fun t ht => Duplex.not_deadlock hfinal hl hr ht, Duplex.acc_step _,
    agreedKey lib combo kdfType cKey sKey ss.1, fun t ht hstuck => ?_⟩
  rwa [Duplex.eq_of_stuck hfinal (Duplex.not_step_of_ret hl hr) ht hstuck]

/-- What the libraries compute where all keys and secrets are zeros. -/
def CryptoLib.sample : CryptoLib where
  pub _ := List.replicate 32 0
  ecdh _ _ := List.replicate 32 0
  hkdf _ _ _ := .zero 32
  blake3 _ := .zero 32
  length_pub _ := by decide
  length_ecdh _ _ := by decide
  ecdh_comm _ _ := rfl

theorem hostWorks_sample : HostWorks CryptoLib.sample PrimEnv.sample :=
  ⟨fun _ _ => rfl, rfl, rfl, fun _ _ _ => rfl, fun _ => rfl⟩

theorem classicalWorks_sample :
    ClassicalWorks CryptoLib.sample curveX25519 PrimEnv.sample ⟨0⟩ ⟨0⟩ where
  ctxNew _ := rfl
  keygenInit := rfl
  setCurve _ := rfl
  generate := rfl
  exportRaw _ := rfl
  exportDer h := absurd rfl h
  importRaw _ := rfl
  importDer h := absurd rfl h
  deriveInit := rfl
  setPeer := rfl
  deriveLength := rfl
  derive := ⟨.zero _, rfl, rfl⟩

theorem kemWorks_sample : KemWorks (some oqsMlkem768Name) PrimEnv.sample PrimEnv.sample
    ⟨.mlkem768 oqsMlkem768Name, .zero _, .zero _⟩ (.zero _) (.zero _) :=
  ⟨rfl, rfl, rfl, rfl, rfl, by decide, by decide⟩

/-- A hybrid handshake with the KEM operation made by the worker. -/
theorem handshake_agrees_x25519_mlkem768 : ∃ sessionKey, ∀ t,
    Duplex.Reaches PrimEnv.sample PrimEnv.sample (handshakeStart .little (cstr "127.0.0.1")
      x25519Mlkem768 (cstr "blake3") (cstr "auto") .parallel false) t →
    (∀ u, ¬Duplex.Step PrimEnv.sample PrimEnv.sample t u) → Agreed .little sessionKey t :=
  (handshake_agrees .little (cstr "127.0.0.1") x25519Mlkem768 (cstr "blake3") (cstr "auto")
    .parallel false rfl hostWorks_sample hostWorks_sample rfl rfl (fun _ => classicalWorks_sample)
    (fun _ => classicalWorks_sample) fun _ => kemWorks_sample).2.2

end Agreement

end Dispatch

end HybridPqc
