import HybridPqc.Dispatch.Server

/-!
# The secrets of the server of the binary protocol

When `handle_client_binary` gets to its `Finished` (`GetsThrough`), and with which
secrets, for any stream of the client and any outcome of the calls.

It gets there without some of the secrets that its profile has: a key of the
client that is missing, cannot be loaded, or leads to no secret, and a ciphertext
that has another length or is not decapsulated, are passed over.
`no_success_without_secrets_iff` says exactly when it does not.
-/

namespace HybridPqc

namespace Dispatch

variable (e : Endian) (env : NetEnv) (combo : AlgoCombo) (s : List UInt8)

/-! ## What the client sends -/

/-- The rest of a `ClientHello`, as the beginning of a stream has it. -/
def clientHelloMeta : ClientHelloMeta := ClientHelloMeta.ofBytes e (s.take ClientHelloMeta.size)

theorem ofBytes_take_eq_clientHelloMeta :
    ClientHelloMeta.ofBytes e (s.take ClientHelloMeta.size) = clientHelloMeta e s := rfl

def clientHelloOf : ClientHello :=
  ⟨(clientHelloMeta e s).kdfType, (s.drop ClientHelloMeta.size).take (clientHelloMeta e s).cPubLen⟩

/-- What comes after it. -/
def afterClientHello : List UInt8 :=
  (s.drop ClientHelloMeta.size).drop (clientHelloMeta e s).cPubLen

/-- It is complete, and its key fits in the buffer. -/
def ClientHelloComplete : Prop :=
  ClientHelloMeta.size + (clientHelloMeta e s).cPubLen ≤ s.length ∧
    (clientHelloMeta e s).cPubLen ≤ maxPubKeyBytes

instance : Decidable (ClientHelloComplete e s) := inferInstanceAs (Decidable (_ ∧ _))

/-- The header of a ciphertext, as the beginning of a stream has it. -/
def ciphertextHeader : WireHeader := WireHeader.ofBytes e (s.take WireHeader.size)

theorem ofBytes_take_eq_ciphertextHeader :
    WireHeader.ofBytes e (s.take WireHeader.size) = ciphertextHeader e s := rfl

def ciphertextOf : List UInt8 := (s.drop WireHeader.size).take (ciphertextHeader e s).payloadLen

/-- It has the right header, and is complete. -/
def CiphertextComplete : Prop :=
  WireHeader.size + (ciphertextHeader e s).payloadLen ≤ s.length ∧
    (ciphertextHeader e s).magic = wireMagic ∧ (ciphertextHeader e s).msgType = wireMsgPqcCiphertext

instance : Decidable (CiphertextComplete e s) := inferInstanceAs (Decidable (_ ∧ _ ∧ _))

/-! ## What the calls answer -/

/-- The KEM key pair. -/
def keyPair : Option ServerKem := do
  let kem ← env.sys (.oqsKemNew combo.pqcName)
  let (pk, sk) ← env.sys (.oqsKemKeypair kem)
  return ⟨kem, pk, sk⟩

theorem oqsKemNew_of_keyPair {env : NetEnv} {combo : AlgoCombo} {k : ServerKem}
    (h : keyPair env combo = some k) : env.sys (.oqsKemNew combo.pqcName) = some k.kem := by
  obtain ⟨kem, hnew, h⟩ := Option.bind_eq_some_iff.1 h
  obtain ⟨pair, -, h⟩ := Option.bind_eq_some_iff.1 h
  cases h
  exact hnew

/-- There is a KEM key pair, and room for it. -/
def KeyPair (k : ServerKem) : Prop :=
  keyPair env combo = some k ∧ env.sys (.malloc .publicKey k.kem.lengthPublicKey) = true ∧
    env.sys (.malloc .secretKey k.kem.lengthSecretKey) = true

/-- The KEM key pair of a server, if its profile has one. -/
def Keygen : Option ServerKem → Prop
  | none => ¬combo.HasKem
  | some k => combo.HasKem ∧ KeyPair env combo k

/-- The `ServerHello` is sent. -/
def SendsHello (priv : Option EvpPkey) (kem : Option ServerKem) : Prop :=
  let pkt := serverHello e combo (exported env.sys combo priv) (kemPk kem)
  env.sys (.malloc .helloPacket pkt.length) = true ∧ env.send pkt = true

/-- No check makes the handler give up. -/
structure GetsThrough (kem : Option ServerKem) (priv : Option EvpPkey) : Prop where
  hello : ClientHelloComplete e s
  keygen : Keygen env combo kem
  generate : Generate env.sys combo priv
  sends : SendsHello e env combo priv kem
  ciphertext : kem ≠ none → CiphertextComplete e (afterClientHello e s) ∧
    env.sys (.malloc .ciphertext (ciphertextHeader e (afterClientHello e s)).payloadLen) = true

/-- The classical secret of the handler. -/
def serverSecret (priv : Option EvpPkey) : Secret :=
  if combo.HasClassical then
    (classicalSecret combo.classicalCurve priv (clientHelloOf e s).pub).eval env.sys
  else .none

/-- The KEM secret of the handler. -/
def serverKemSecret : Option ServerKem → Secret
  | none => .none
  | some k => (decapsSecret k (ciphertextOf e (afterClientHello e s))).eval env.sys

/-! ## The parts of the handler -/

section Parts

variable {e env combo s}

theorem obs_recvClientHello (env : NetEnv) (h : ClientHelloComplete e s) :
    ∃ reads, Obs.AllRead reads ∧ env.obs s (recvClientHello e) =
      ⟨some (clientHelloOf e s), afterClientHello e s, reads, [], false⟩ := by
  obtain ⟨hlen, hmax⟩ := h
  have hsize : ClientHelloMeta.size ≤ s.length := Nat.le_of_add_right_le hlen
  have hpub : (clientHelloMeta e s).cPubLen ≤ (s.drop ClientHelloMeta.size).length := by
    rw [List.length_drop]
    omega
  simp only [recvClientHello, Conn.recv_eq, Prog.call_bind, Prog.ret_bind, Prog.pure_eq,
    ConnEnv.obs_call_recv, ConnEnv.obs_ite, ConnEnv.obs_ret, if_pos hsize]
  rw [ofBytes_take_eq_clientHelloMeta, if_neg (Nat.not_lt.2 hmax), if_pos hpub]
  split
  · exact ⟨_, by simp, rfl⟩
  · rename_i hzero
    have hzero : (clientHelloMeta e s).cPubLen = 0 := by omega
    refine ⟨[(ClientHelloMeta.size, some (s.take ClientHelloMeta.size))], by simp, ?_⟩
    simp [Obs.recvd, clientHelloOf, afterClientHello, hzero]

theorem obs_recvClientHello_not (env : NetEnv) (h : ¬ClientHelloComplete e s) :
    (env.obs s (recvClientHello e)).val = none ∧ (env.obs s (recvClientHello e)).sent = [] := by
  simp only [recvClientHello, Conn.recv_eq, Prog.call_bind, Prog.ret_bind, Prog.pure_eq,
    ConnEnv.obs_call_recv, ConnEnv.obs_ite, ConnEnv.obs_ret, List.length_drop]
  rw [ofBytes_take_eq_clientHelloMeta]
  by_cases hsize : ClientHelloMeta.size ≤ s.length
  · rw [if_pos hsize]
    have : ¬((clientHelloMeta e s).cPubLen ≤ s.length - ClientHelloMeta.size ∧
        (clientHelloMeta e s).cPubLen ≤ maxPubKeyBytes) := fun h' =>
      h ⟨by omega, h'.2⟩
    rw [if_pos (by omega)]
    split
    · simp
    · rw [if_neg (by omega)]
      simp
  · rw [if_neg hsize]
    simp

theorem eval_serverKeygen {kem : Option ServerKem} :
    (serverKeygen combo).eval env.sys = some kem ↔ Keygen env combo kem := by
  rw [serverKeygen, Prog.eval_ite]
  split
  · rename_i hkem
    simp only [Prog.op_eq, Prog.call_bind, Prog.ret_bind, Prog.pure_eq, Prog.eval_call]
    cases hnew : env.sys (.oqsKemNew combo.pqcName) with
    | none => cases kem <;> simp [Keygen, KeyPair, keyPair, hnew, hkem]
    | some m =>
      cases hpk : env.sys (.malloc .publicKey m.lengthPublicKey) <;>
        cases hsk : env.sys (.malloc .secretKey m.lengthSecretKey) <;>
        cases hpair : env.sys (.oqsKemKeypair m) <;>
        cases kem <;>
        simp [Keygen, KeyPair, keyPair, hnew, hkem, hpk, hsk, hpair]
      all_goals
        rintro rfl
        simp [hpk, hsk]
  · rename_i hkem
    cases kem <;> simp [Keygen, hkem]

theorem eval_serverExchange {kem : Option ServerKem} {cliPub : List UInt8}
    {classical : ServerClassical} :
    (serverExchange combo kem cliPub).eval env.sys = some classical ↔
      Generate env.sys combo classical.priv ∧ classical.pub = exported env.sys combo classical.priv ∧
        classical.secret = if combo.HasClassical then
          (classicalSecret combo.classicalCurve classical.priv cliPub).eval env.sys else .none := by
  rw [serverExchange, Prog.eval_ite]
  obtain ⟨priv, pub, secret⟩ := classical
  split
  · rename_i hclassical
    simp only [Prog.eval_bind]
    cases hgen : (cryptoGenerateKeypair .our combo.classicalCurve).eval env.sys with
    | none => cases priv <;> simp [Generate, hgen, hclassical]
    | some k =>
      cases priv with
      | none => simp [Generate, hclassical]
      | some priv =>
        simp only [Generate, hgen, hclassical, exported, true_and, Prog.pure_eq,
          Prog.eval_bind, Prog.eval_ret, Option.some.injEq, ServerClassical.mk.injEq]
        constructor <;>
          rintro ⟨rfl, rfl, rfl⟩ <;>
          exact ⟨rfl, rfl, rfl⟩
  · rename_i hclassical
    cases priv <;> simp [Generate, hclassical, exported, eq_comm]

theorem obs_sendServerHello {kem : Option ServerKem} {classical : ServerClassical} :
    let pkt := serverHello e combo classical.pub (kemPk kem)
    env.obs s (sendServerHello e combo kem classical) =
      if env.sys (.malloc .helloPacket pkt.length) then
        ⟨if env.send pkt then some () else none, s, [], [pkt], false⟩
      else ⟨none, s, [], [], false⟩ := by
  intro pkt
  simp only [sendServerHello, Conn.sys_eq, Conn.send_eq, Prog.call_bind, Prog.ret_bind,
    Prog.pure_eq, Conn.monadLift_eq, ConnEnv.obs_call_sys, ConnEnv.obs_ite, ConnEnv.obs_bind,
    ConnEnv.obs_lift, ConnEnv.obs_call_send, ConnEnv.obs_ret, Obs.mk_andThen]
  change (if (!env.sys (.malloc .helloPacket pkt.length)) = true then _ else Obs.wrote pkt _) = _
  cases env.sys (.malloc .helloPacket pkt.length)
  · rfl
  · cases hsend : env.send pkt <;> simp [pkt] <;> rfl

theorem obs_recvCiphertext_none :
    env.obs s (recvCiphertext e none) = ⟨some .none, s, [], [], false⟩ := rfl

theorem obs_recvCiphertext {k : ServerKem} (h : CiphertextComplete e s)
    (halloc : env.sys (.malloc .ciphertext (ciphertextHeader e s).payloadLen) = true) :
    env.obs s (recvCiphertext e (some k)) =
      ⟨some ((decapsSecret k (ciphertextOf e s)).eval env.sys),
        (s.drop WireHeader.size).drop (ciphertextHeader e s).payloadLen,
        [(WireHeader.size, some (s.take WireHeader.size)),
          ((ciphertextHeader e s).payloadLen, some (ciphertextOf e s))], [], false⟩ := by
  obtain ⟨hlen, hmagic, htype⟩ := h
  have hsize : WireHeader.size ≤ s.length := Nat.le_of_add_right_le hlen
  have hct : (ciphertextHeader e s).payloadLen ≤ (s.drop WireHeader.size).length := by
    rw [List.length_drop]
    omega
  simp only [recvCiphertext, Conn.recv_eq, Conn.sys_eq, Prog.call_bind, Prog.ret_bind, Prog.pure_eq,
    Conn.monadLift_eq, ConnEnv.obs_call_recv, ConnEnv.obs_call_sys, ConnEnv.obs_ite,
    ConnEnv.obs_bind, ConnEnv.obs_lift, ConnEnv.obs_ret, Obs.mk_andThen, if_pos hsize]
  rw [ofBytes_take_eq_ciphertextHeader, if_neg (by simp [hmagic, htype]), halloc, if_neg (by simp),
    if_pos hct]
  rfl

theorem obs_recvCiphertext_not {k : ServerKem}
    (h : ¬(CiphertextComplete e s ∧
      env.sys (.malloc .ciphertext (ciphertextHeader e s).payloadLen) = true)) :
    (env.obs s (recvCiphertext e (some k))).val = none := by
  simp only [recvCiphertext, Conn.recv_eq, Conn.sys_eq, Prog.call_bind, Prog.ret_bind, Prog.pure_eq,
    Conn.monadLift_eq, ConnEnv.obs_call_recv, ConnEnv.obs_call_sys, ConnEnv.obs_ite,
    ConnEnv.obs_bind, ConnEnv.obs_lift, ConnEnv.obs_ret, Obs.mk_andThen]
  rw [ofBytes_take_eq_ciphertextHeader]
  by_cases hsize : WireHeader.size ≤ s.length
  · rw [if_pos hsize]
    by_cases hhdr : (ciphertextHeader e s).magic ≠ wireMagic ∨
        (ciphertextHeader e s).msgType ≠ wireMsgPqcCiphertext
    · rw [if_pos hhdr]
      rfl
    · rw [if_neg hhdr]
      cases halloc : env.sys (.malloc .ciphertext (ciphertextHeader e s).payloadLen) with
      | false => rfl
      | true =>
        have hct : ¬(ciphertextHeader e s).payloadLen ≤ (s.drop WireHeader.size).length := by
          rw [List.length_drop]
          intro hct
          push Not at hhdr
          exact h ⟨⟨by omega, hhdr⟩, halloc⟩
        rw [if_neg hct]
        rfl
  · rw [if_neg hsize]
    rfl

theorem sent_recvCiphertext (kem : Option ServerKem) :
    (env.obs s (recvCiphertext e kem)).sent = [] := by
  cases kem with
  | none => rfl
  | some k =>
    simp only [recvCiphertext, Conn.recv_eq, Conn.sys_eq, Prog.call_bind, Prog.ret_bind,
      Prog.pure_eq, Conn.monadLift_eq, ConnEnv.obs_call_recv, ConnEnv.obs_call_sys, ConnEnv.obs_ite,
      ConnEnv.obs_bind, ConnEnv.obs_lift, ConnEnv.obs_ret, Obs.mk_andThen]
    split_ifs <;> rfl

theorem obs_serverFinish {hello : ClientHello} {cSecret qSecret : Secret} :
    env.obs s (serverFinish e combo hello cSecret qSecret) =
      ⟨.finished (ikmOf cSecret qSecret) ((deriveSessionKey hello.kdfType (ikmOf cSecret qSecret)
        staticSalt combo.info).eval env.sys), s, [], [serverFinished e combo], true⟩ := by
  simp [serverFinish, Obs.wrote, Obs.shut, Conn.monadLift_eq]

theorem obs_serverClose : env.obs s serverClose = ⟨.closed, s, [], [], true⟩ := rfl

/-- The handler gets to its `Finished`. -/
theorem obs_handleClientBinary {hdr : WireHeader} {kem : Option ServerKem} {priv : Option EvpPkey}
    (hcombo : getComboById algorithmCombos hdr.comboId = some combo)
    (h : GetsThrough e env combo s kem priv) :
    let ikm := ikmOf (serverSecret e env combo s priv) (serverKemSecret e env s kem)
    ∃ reads rest, Obs.AllRead reads ∧ env.obs s (handleClientBinary e hdr) =
      ⟨.finished ikm ((deriveSessionKey (clientHelloOf e s).kdfType ikm staticSalt combo.info).eval
        env.sys), rest, reads,
        [serverHello e combo (exported env.sys combo priv) (kemPk kem), serverFinished e combo], true⟩ := by
  intro ikm
  obtain ⟨hhello, hkeygen, hgenerate, ⟨halloc, hsend⟩, hct⟩ := h
  obtain ⟨reads, hreads, hrecv⟩ := obs_recvClientHello env hhello
  have hexchange : (serverExchange combo kem (clientHelloOf e s).pub).eval env.sys =
      some ⟨priv, exported env.sys combo priv, serverSecret e env combo s priv⟩ :=
    eval_serverExchange.2 ⟨hgenerate, rfl, rfl⟩
  have hrecvct : ∃ reads' rest', Obs.AllRead reads' ∧
      env.obs (afterClientHello e s) (recvCiphertext e kem) =
        ⟨some (serverKemSecret e env s kem), rest', reads', [], false⟩ := by
    cases kem with
    | none => exact ⟨[], _, by simp, obs_recvCiphertext_none⟩
    | some k =>
      obtain ⟨hct, hallocct⟩ := hct nofun
      exact ⟨_, _, by simp, obs_recvCiphertext hct hallocct⟩
  obtain ⟨reads', rest', hreads', hrecvct⟩ := hrecvct
  simp only [handleClientBinary, hcombo, ConnEnv.obs_bind, hrecv, Conn.monadLift_eq,
    ConnEnv.obs_lift, eval_serverKeygen.2 hkeygen, hexchange, obs_sendServerHello, halloc, hsend,
    if_true, Obs.andThen, hrecvct, obs_serverFinish]
  exact ⟨_, _, by simpa using ⟨hreads, hreads'⟩, rfl⟩

/-- The type of a message. -/
def msgTypeOf (e : Endian) (pkt : List UInt8) : ℕ := (WireHeader.ofBytes e pkt).msgType

theorem msgTypeOf_serverHello {pub pk : List UInt8} :
    msgTypeOf e (serverHello e combo pub pk) = wireMsgServerHello := by
  simp only [msgTypeOf, serverHello, List.append_assoc, WireHeader.ofBytes_bytes_append]
  rfl

theorem msgTypeOf_serverFinished :
    msgTypeOf e (serverFinished e combo) = wireMsgServerFinished := by
  simp only [msgTypeOf, serverFinished, WireHeader.ofBytes_bytes_append]
  rfl

/-- Otherwise it closes before, and only the `ServerHello` may have been sent. -/
theorem obs_handleClientBinary_not {hdr : WireHeader}
    (hcombo : getComboById algorithmCombos hdr.comboId = some combo)
    (h : ∀ kem priv, ¬GetsThrough e env combo s kem priv) :
    (env.obs s (handleClientBinary e hdr)).val = .closed ∧
      ∀ pkt ∈ (env.obs s (handleClientBinary e hdr)).sent, msgTypeOf e pkt = wireMsgServerHello := by
  simp only [handleClientBinary, hcombo, ConnEnv.obs_bind]
  by_cases hhello : ClientHelloComplete e s
  · obtain ⟨reads, -, hrecv⟩ := obs_recvClientHello env hhello
    cases hkeygen : (serverKeygen combo).eval env.sys with
    | none =>
      simp only [hrecv, Conn.monadLift_eq, ConnEnv.obs_bind, ConnEnv.obs_lift, Obs.andThen, hkeygen,
        obs_serverClose]
      simp
    | some kem =>
      cases hexchange : (serverExchange combo kem (clientHelloOf e s).pub).eval env.sys with
      | none =>
        simp only [hrecv, Conn.monadLift_eq, ConnEnv.obs_bind, ConnEnv.obs_lift, Obs.andThen, hkeygen,
          hexchange, obs_serverClose]
        simp
      | some classical =>
        simp only [hrecv, Conn.monadLift_eq, ConnEnv.obs_bind, ConnEnv.obs_lift, Obs.andThen, hkeygen,
          hexchange, obs_sendServerHello]
        -- the `ServerHello` is sent, or it is not
        obtain ⟨hgenerate, hpub, -⟩ := eval_serverExchange.1 hexchange
        cases halloc : env.sys
            (.malloc .helloPacket (serverHello e combo classical.pub (kemPk kem)).length)
        · simp [obs_serverClose]
        cases hsend : env.send (serverHello e combo classical.pub (kemPk kem))
        · simp [obs_serverClose, msgTypeOf_serverHello]
        -- then the ciphertext is not received
        have hval : (env.obs (afterClientHello e s) (recvCiphertext e kem)).val = none := by
          have hnot : ¬(kem ≠ none → _ ∧ _) := fun hct =>
            h kem classical.priv ⟨hhello, eval_serverKeygen.1 hkeygen, hgenerate,
              by rw [SendsHello, ← hpub]; exact ⟨halloc, hsend⟩, hct⟩
          cases kem with
          | none => exact absurd (fun hne => absurd rfl hne) hnot
          | some k => exact obs_recvCiphertext_not fun hct => hnot fun _ => hct
        simp [hval, sent_recvCiphertext, obs_serverClose, msgTypeOf_serverHello]
  · obtain ⟨hval, hsent⟩ := obs_recvClientHello_not env hhello
    simp only [Obs.andThen, hval, hsent, obs_serverClose]
    simp

end Parts

/-! ## No success without secrets -/

/-- `crypto_derive_ecdh_secret` returns `0` on the key that the client has sent, with
    the secret `z`. -/
def Derives (z : List UInt8) : Prop :=
  ∃ priv peerPub, (cryptoGenerateKeypair .our combo.classicalCurve).eval env.sys = some priv ∧
    (clientHelloOf e s).pub ≠ [] ∧
    (cryptoLoadPub combo.classicalCurve (clientHelloOf e s).pub).eval env.sys = some peerPub ∧
    ((cryptoDeriveEcdhSecret priv peerPub (.zero maxSharedSec) maxSharedSec).eval env.sys).rc = 0 ∧
    z = ((cryptoDeriveEcdhSecret priv peerPub (.zero maxSharedSec) maxSharedSec).eval env.sys).bytes

/-- `OQS_KEM_decaps` succeeds on a ciphertext received that has the length of those
    of the KEM, with the secret `z`. -/
def Decapsulates (z : List UInt8) : Prop :=
  ∃ k, keyPair env combo = some k ∧ CiphertextComplete e (afterClientHello e s) ∧
    (ciphertextOf e (afterClientHello e s)).length = k.kem.lengthCiphertext ∧
    env.sys (.malloc .sharedSecret k.kem.lengthSharedSecret) = true ∧
    ∃ ss, env.sys (.oqsKemDecaps k.kem (ciphertextOf e (afterClientHello e s)) k.sk.1) = some ss ∧
      z = ss.1

/-- If the `Finished` is sent, all the secrets of the profile are there, and they
    are what the session key is derived from. -/
def NoSuccessWithoutSecrets (hdr : WireHeader) : Prop :=
  (∃ pkt ∈ (env.obs s (handleClientBinary e hdr)).sent, msgTypeOf e pkt = wireMsgServerFinished) →
    ∃ cSecret qSecret key,
      (env.obs s (handleClientBinary e hdr)).val = .finished (cSecret ++ qSecret) key ∧
      (if combo.HasClassical then Derives e env combo s cSecret else cSecret = []) ∧
      (if combo.HasKem then Decapsulates e env combo s qSecret else qSecret = [])

/-- The key of the client leads to a secret: it is there, it can be loaded, and every
    step of the derivation succeeds. -/
def GoodKey (priv : Option EvpPkey) : Prop :=
  (clientHelloOf e s).pub ≠ [] ∧ ∃ srvPriv peerPub, priv = some srvPriv ∧
    (cryptoLoadPub combo.classicalCurve (clientHelloOf e s).pub).eval env.sys = some peerPub ∧
    DeriveSteps env.sys srvPriv peerPub (.zero maxSharedSec) maxSharedSec

/-- The ciphertext leads to a secret: it has the length of those of the KEM, there is
    room for the secret, and it is decapsulated. -/
def GoodCiphertext (k : ServerKem) : Prop :=
  (ciphertextOf e (afterClientHello e s)).length = k.kem.lengthCiphertext ∧
    env.sys (.malloc .sharedSecret k.kem.lengthSharedSecret) = true ∧
    (env.sys (.oqsKemDecaps k.kem (ciphertextOf e (afterClientHello e s)) k.sk.1)).isSome

section Secrets

variable {e env combo s} {hdr : WireHeader} {kem : Option ServerKem} {priv : Option EvpPkey}

theorem bytes_serverSecret (hclassical : combo.HasClassical) (h : GoodKey e env combo s priv)
    (hgenerate : Generate env.sys combo priv) :
    Derives e env combo s (serverSecret e env combo s priv).bytes := by
  obtain ⟨hpub, srvPriv, peerPub, rfl, hload, hsteps⟩ := h
  refine ⟨srvPriv, peerPub, hgenerate.2, hpub, hload, eval_cryptoDeriveEcdhSecret_rc.2 hsteps, ?_⟩
  have hlen : (clientHelloOf e s).pub.length > 0 := List.length_pos_iff.2 hpub
  simp [serverSecret, classicalSecret, deriveEcdhSecret, hclassical, hlen, hload, Secret.bytes,
    Ecdh.bytes]

theorem bytes_serverKemSecret {k : ServerKem} (hkeys : keyPair env combo = some k)
    (hct : CiphertextComplete e (afterClientHello e s)) (h : GoodCiphertext e env s k)
    (hss : k.kem.lengthSharedSecret ≤ maxSharedSec) :
    Decapsulates e env combo s (serverKemSecret e env s (some k)).bytes := by
  obtain ⟨hlen, halloc, hdecaps⟩ := h
  obtain ⟨ss, hdecaps⟩ := Option.isSome_iff_exists.1 hdecaps
  refine ⟨k, hkeys, hct, hlen, halloc, ss, hdecaps, ?_⟩
  have hle : ss.1.length ≤ maxSharedSec := ss.2.trans_le hss
  simp [serverKemSecret, decapsSecret, hlen, halloc, hdecaps, Secret.bytes_copy hle]

/-- The property holds of a handler that gets to its `Finished` only if both the key
    and the ciphertext are good. -/
theorem good_of_noSuccessWithoutSecrets
    (hcombo : getComboById algorithmCombos hdr.comboId = some combo)
    (hg : GetsThrough e env combo s kem priv) (h : NoSuccessWithoutSecrets e env combo s hdr) :
    (combo.HasClassical → GoodKey e env combo s priv) ∧ ∀ k, kem = some k → GoodCiphertext e env s k := by
  obtain ⟨reads, rest, -, hobs⟩ := obs_handleClientBinary hcombo hg
  rw [NoSuccessWithoutSecrets, hobs] at h
  obtain ⟨cSecret, qSecret, key, -, hc, hq⟩ := h
    ⟨serverFinished e combo, by simp, msgTypeOf_serverFinished⟩
  refine ⟨fun hclassical => ?_, fun k hk => ?_⟩
  · rw [if_pos hclassical] at hc
    obtain ⟨srvPriv, peerPub, hgen, hpub, hload, hrc, -⟩ := hc
    cases priv with
    | none => exact absurd hclassical hg.generate
    | some p =>
      obtain rfl : srvPriv = p := Option.some.inj (hgen.symm.trans hg.generate.2)
      exact ⟨hpub, srvPriv, peerPub, rfl, hload, eval_cryptoDeriveEcdhSecret_rc.1 hrc⟩
  · subst hk
    rw [if_pos hg.keygen.1] at hq
    obtain ⟨k', hkeys, -, hlen, halloc, ss, hdecaps, -⟩ := hq
    obtain rfl : k' = k := Option.some.inj (hkeys.symm.trans hg.keygen.2.1)
    exact ⟨hlen, halloc, by rw [hdecaps]; rfl⟩

end Secrets

/-- **No success without every secret, unless the handler passes over a failure.** The
    handler meets the property exactly if it closes before its `Finished`, or else
    both the key of the client and the ciphertext lead to a secret, where the
    profile has one. -/
theorem no_success_without_secrets_iff (e : Endian) (env : NetEnv) (combo : AlgoCombo)
    (s : List UInt8) (hdr : WireHeader)
    (hcombo : getComboById algorithmCombos hdr.comboId = some combo)
    (hss : ∀ kem, env.sys (.oqsKemNew combo.pqcName) = some kem →
      kem.lengthSharedSecret ≤ maxSharedSec) :
    NoSuccessWithoutSecrets e env combo s hdr ↔
      ∀ kem priv, GetsThrough e env combo s kem priv →
        (combo.HasClassical → GoodKey e env combo s priv) ∧
          ∀ k, kem = some k → GoodCiphertext e env s k := by
  refine ⟨fun h kem priv hg => good_of_noSuccessWithoutSecrets hcombo hg h, fun h hfin => ?_⟩
  obtain ⟨pkt, hpkt, htype⟩ := hfin
  by_cases hg : ∃ kem priv, GetsThrough e env combo s kem priv
  · obtain ⟨kem, priv, hg⟩ := hg
    obtain ⟨hkey, hct⟩ := h kem priv hg
    obtain ⟨reads, rest, -, hobs⟩ := obs_handleClientBinary hcombo hg
    rw [hobs]
    refine ⟨_, _, _, rfl, ?_, ?_⟩
    · split
      · rename_i hclassical
        exact bytes_serverSecret hclassical (hkey hclassical) hg.generate
      · rename_i hclassical
        rw [serverSecret, if_neg hclassical, Secret.bytes_none]
    · cases kem with
      | none => rw [if_neg hg.keygen]; rfl
      | some k =>
        rw [if_pos hg.keygen.1]
        exact bytes_serverKemSecret hg.keygen.2.1 (hg.ciphertext nofun).1 (hct k rfl)
          (hss _ (oqsKemNew_of_keyPair hg.keygen.2.1))
  · have := (obs_handleClientBinary_not hcombo fun kem priv hk => hg ⟨kem, priv, hk⟩).2 pkt hpkt
    rw [htype] at this
    exact absurd this (by decide)

/-- A client of X25519 that sends a key. -/
theorem no_success_without_secrets_x25519 :
    NoSuccessWithoutSecrets .little .sample x25519Only [0, 0, 1, 0, 9]
      ⟨wireMagic, wireMsgClientHello, 4, 5⟩ := by
  refine (no_success_without_secrets_iff .little .sample x25519Only [0, 0, 1, 0, 9]
    ⟨wireMagic, wireMsgClientHello, 4, 5⟩ rfl fun kem h => ?_).2 fun kem priv hg => ⟨fun _ => ?_, ?_⟩
  · cases h
    decide
  · refine ⟨by decide, ⟨0⟩, ⟨0⟩, ?_, rfl, rfl, rfl, rfl, rfl, rfl⟩
    cases priv with
    | none => exact absurd (.inr rfl) hg.generate
    | some p => exact congrArg some (Option.some.inj hg.generate.2).symm
  · rintro k rfl
    exact absurd hg.keygen.1 (by decide)

/-- A client that sends no key, then an empty ciphertext, and is sent a `Finished`. -/
theorem handle_client_binary_succeeds_without_secrets :
    ¬NoSuccessWithoutSecrets .little .sample x25519Mlkem768
      ([0, 0, 0, 0] ++ [0x54, 0x4C, 0x53, 0x50, 0, 3, 0, 1, 0, 0, 0, 0])
      ⟨wireMagic, wireMsgClientHello, 1, 4⟩ := by
  intro h
  have hg : GetsThrough .little .sample x25519Mlkem768
      ([0, 0, 0, 0] ++ [0x54, 0x4C, 0x53, 0x50, 0, 3, 0, 1, 0, 0, 0, 0])
      (some ⟨.mlkem768 oqsMlkem768Name, .zero _, .zero _⟩) (some ⟨0⟩) :=
    { hello := by decide
      keygen := ⟨.inl rfl, rfl, rfl, rfl⟩
      generate := ⟨.inl rfl, rfl⟩
      sends := ⟨rfl, rfl⟩
      ciphertext := fun _ => ⟨by decide, rfl⟩ }
  exact ((good_of_noSuccessWithoutSecrets rfl hg h).1 (.inl rfl)).1 rfl

end Dispatch

end HybridPqc
