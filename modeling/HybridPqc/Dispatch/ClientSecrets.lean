import HybridPqc.Dispatch.ClientRun

/-!
# How far the client of the binary protocol gets

When the client goes on after the `ServerHello`, for any outcome of the calls
(`SecretsThere`), and so how its handshakes end:

* `ecdh_checked_iff`: when it is never further than an ECDH that has failed;
* `finished_checked_iff`: when its time is that of a handshake that has been
  finished.
-/

namespace HybridPqc

open Handoff

namespace Dispatch

variable (e : Endian) (env : NetEnv) (combo : AlgoCombo) (s : List UInt8)

/-! ## The secrets -/

/-- The KEM operation succeeds: there are a KEM, buffers, and a key of its length. -/
def Encapsulates (pqcPk : Option (List UInt8)) : Prop :=
  ∃ kem pk, env.sys (.oqsKemNew combo.pqcName) = some kem ∧
    env.sys (.malloc .ciphertext kem.lengthCiphertext) = true ∧
    env.sys (.malloc .sharedSecret kem.lengthSharedSecret) = true ∧
    pqcPk = some pk ∧ pk.length = kem.lengthPublicKey ∧
    (env.sys (.oqsKemEncaps kem pk)).ok = true

/-- There is a classical secret, as its length says. -/
def ClassicalThere (priv : Option EvpPkey) (pub : List UInt8) : Prop :=
  ∃ privKey peerPub, priv = some privKey ∧
    PeerKey env.sys combo.classicalCurve pub peerPub ∧
    ¬LeavesNothing env.sys privKey peerPub (.zero maxSharedSec) maxSharedSec

/-- There are a KEM, buffers, and a key: enough for a suite that has the KEM alone. -/
def KemThere (pqcPk : Option (List UInt8)) : Prop :=
  ∃ kem pk, env.sys (.oqsKemNew combo.pqcName) = some kem ∧ pqcPk = some pk ∧
    env.sys (.malloc .ciphertext kem.lengthCiphertext) = true ∧
    env.sys (.malloc .sharedSecret kem.lengthSharedSecret) = true

/-- What the client asks of the secrets before it goes on. -/
structure SecretsThere (priv : Option EvpPkey) (hello : ServerHello) : Prop where
  hybrid : combo.profile = profileHybrid →
    Encapsulates env combo hello.pqcPk ∧ ClassicalThere env combo priv hello.srvPub
  quantum : combo.profile = profilePureQuantum → KemThere env combo hello.pqcPk

section Secrets

variable {e env combo s} {priv : Option EvpPkey} {hello : ServerHello}

/-- A raw key is taken if it has the right length. -/
theorem eval_encapsKey {env : PrimEnv} {kem : OqsKem} {pqcPk : Option (List UInt8)} :
    (encapsKey kem ⟨combo.pqcName, none, pqcPk⟩).eval env =
      (pqcPk.filter (·.length = kem.lengthPublicKey)).map (·, false) := by
  cases pqcPk with
  | none => rfl
  | some pk => by_cases hlen : pk.length = kem.lengthPublicKey <;>
      simp [encapsKey, Option.filter, hlen]

theorem success_clientPqcEncapsWorker {pqcPk : Option (List UInt8)} :
    ((clientPqcEncapsWorker ⟨combo.pqcName, none, pqcPk⟩ .init).eval env.sys).success = true ↔
      Encapsulates env combo pqcPk := by
  simp only [clientPqcEncapsWorker, freeIf, Prog.op_eq, Prog.call_bind, Prog.ret_bind,
    Prog.pure_eq, Prog.eval_call, Encapsulates]
  cases hnew : env.sys (.oqsKemNew combo.pqcName) with
  | none => simp
  | some kem =>
    simp only [Prog.eval_call, Prog.eval_ite, Prog.eval_bind, eval_encapsKey]
    cases hct : env.sys (.malloc .ciphertext kem.lengthCiphertext)
    · simp [hct]
    cases hss : env.sys (.malloc .sharedSecret kem.lengthSharedSecret)
    · simp [hct, hss]
    cases pqcPk with
    | none => simp
    | some pk =>
      by_cases hlen : pk.length = kem.lengthPublicKey
      · cases hok : (env.sys (.oqsKemEncaps kem pk)).ok <;>
          simp [hct, hss, Option.filter, hlen, hok]
      · simp [hct, hss, Option.filter, hlen]

/-- With a hybrid suite, the client goes on if there are both secrets, -/
theorem obs_hybridSecrets (hprofile : combo.profile = profileHybrid)
    (henc : Encapsulates env combo hello.pqcPk)
    (hc : ClassicalThere env combo priv hello.srvPub) :
    ∃ cSecret qSecret sent, env.obs s (sequentialSecrets e combo priv hello) =
      ⟨.ok cSecret qSecret, s, [], sent, false⟩ := by
  obtain ⟨privKey, peerPub, rfl, hkey, hleaves⟩ := hc
  have hlen := len_classicalSecret.2 ⟨peerPub, hkey, hleaves⟩
  simp only [sequentialSecrets, if_pos hprofile, encapsInline, Conn.monadLift_eq, ConnEnv.obs_bind,
    ConnEnv.obs_lift, Obs.mk_andThen, obs_finishHybrid, eval_clientSecret]
  rw [if_pos ⟨success_clientPqcEncapsWorker.2 henc, hlen⟩, obs_sendCiphertext]
  exact ⟨_, _, _, rfl⟩

/-- and gives up otherwise. -/
theorem obs_hybridSecrets_not (hprofile : combo.profile = profileHybrid)
    (hpriv : priv.isSome) (h : ¬(Encapsulates env combo hello.pqcPk ∧
      ClassicalThere env combo priv hello.srvPub)) :
    env.obs s (sequentialSecrets e combo priv hello) = ⟨.failed, s, [], [], true⟩ := by
  obtain ⟨privKey, rfl⟩ := Option.isSome_iff_exists.1 hpriv
  simp only [sequentialSecrets, if_pos hprofile, encapsInline, Conn.monadLift_eq, ConnEnv.obs_bind,
    ConnEnv.obs_lift, Obs.mk_andThen, obs_finishHybrid, eval_clientSecret]
  refine if_neg fun hok => h ⟨success_clientPqcEncapsWorker.1 hok.1, ?_⟩
  obtain ⟨peerPub, hkey, hleaves⟩ := len_classicalSecret.1 hok.2
  exact ⟨privKey, peerPub, rfl, hkey, hleaves⟩

/-- With any suite, the client goes on if it has what it asks for, -/
theorem obs_sequentialSecrets_ok (h : SecretsThere env combo priv hello) :
    ∃ cSecret qSecret sent, env.obs s (sequentialSecrets e combo priv hello) =
      ⟨.ok cSecret qSecret, s, [], sent, false⟩ := by
  by_cases hhybrid : combo.profile = profileHybrid
  · exact obs_hybridSecrets hhybrid (h.hybrid hhybrid).1 (h.hybrid hhybrid).2
  by_cases hclassical : combo.profile = profilePureClassical
  · simp only [sequentialSecrets, if_neg hhybrid, if_pos hclassical, Conn.monadLift_eq,
      ConnEnv.obs_bind, ConnEnv.obs_lift, Obs.mk_andThen, Prog.pure_eq, ConnEnv.obs_ret]
    exact ⟨_, _, _, rfl⟩
  by_cases hquantum : combo.profile = profilePureQuantum
  · obtain ⟨kem, pk, hnew, hpk, hct, hss⟩ := h.quantum hquantum
    rw [sequentialSecrets, if_neg hhybrid, if_neg hclassical, if_pos hquantum,
      obs_quantumSecrets hnew hpk hct hss, obs_sendCiphertext]
    exact ⟨_, _, _, rfl⟩
  · rw [sequentialSecrets, if_neg hhybrid, if_neg hclassical, if_neg hquantum]
    exact ⟨_, _, _, rfl⟩

/-- and gives up otherwise. -/
theorem obs_sequentialSecrets_not (hgenerate : Generate env.sys combo priv)
    (h : ¬SecretsThere env combo priv hello) (cSecret qSecret : Secret) :
    (env.obs s (sequentialSecrets e combo priv hello)).val ≠ .ok cSecret qSecret := by
  by_cases hhybrid : combo.profile = profileHybrid
  · rw [obs_hybridSecrets_not hhybrid (isSome_of_generate hgenerate (.inl hhybrid)) fun hboth =>
      h ⟨fun _ => hboth, fun hquantum => absurd (hquantum.symm.trans hhybrid) (by decide)⟩]
    nofun
  by_cases hquantum : combo.profile = profilePureQuantum
  · rw [sequentialSecrets, if_neg hhybrid, if_neg (by rw [hquantum]; decide), if_pos hquantum]
    exact (obs_quantumSecrets_not fun kem pk hnew hpk hmalloc =>
      h ⟨fun hp => absurd hp hhybrid, fun _ => ⟨kem, pk, hnew, hpk, hmalloc⟩⟩).1 cSecret qSecret
  · exact absurd ⟨fun hp => absurd hp hhybrid, fun hp => absurd hp hquantum⟩ h

end Secrets

/-! ## The handshake -/

/-- The handshake after the `ServerHello`, in sequence. -/
def sequentialFinish (kdfType : CString) (start : ClientStart) (hello : ServerHello) :
    Net ClientEnd := do
  match ← sequentialSecrets e combo start.priv hello with
  | .crashed => return .crashed
  | .failed => return .failed
  | .ok cSecret qSecret => finishHandshake e combo kdfType start.tStart cSecret qSecret

variable (host kdfType dispatchMode : CString) (route : DispatchRoute) (ready : Bool)

/-- `crypto_derive_ecdh_secret` is called, on the key of the client and that of the
    server. -/
structure EcdhCalled (privKey peerPub : EvpPkey) : Prop where
  starts : Starts e env combo host kdfType dispatchMode (some privKey)
  hello : ServerHelloComplete e env s
  key : PeerKey env.sys combo.classicalCurve (serverHelloOf e s).srvPub peerPub

/-- The client gets to waiting for the `Finished`. -/
structure Waits (priv : Option EvpPkey) : Prop where
  starts : Starts e env combo host kdfType dispatchMode priv
  hello : ServerHelloComplete e env s
  secrets : SecretsThere env combo priv (serverHelloOf e s)

/-- `crypto_derive_ecdh_secret` is called, and returns `0`. -/
def EcdhSucceeds : Prop :=
  ∃ privKey peerPub, EcdhCalled e env combo s host kdfType dispatchMode privKey peerPub ∧
    ((cryptoDeriveEcdhSecret privKey peerPub (.zero maxSharedSec) maxSharedSec).eval env.sys).rc = 0

/-- The client gives up if it has no ECDH secret, before it sends a ciphertext. -/
def EcdhChecked : Prop :=
  ¬EcdhSucceeds e env combo s host kdfType dispatchMode →
    let o := env.obs s (dispatchHandshake e host combo kdfType dispatchMode route ready)
    o.val = .failed ∧ ∀ pkt ∈ o.sent, msgTypeOf e pkt ≠ wireMsgPqcCiphertext

/-- If the client returns a time, it has received the `Finished`. -/
def FinishedChecked : Prop :=
  let o := env.obs s (dispatchHandshake e host combo kdfType dispatchMode route ready)
  ∀ ms, o.val.ms = some ms → 0 ≤ ms → ReceivedFinished e o.received

section Handshake

variable {e env combo s} {host kdfType dispatchMode route ready} {priv : Option EvpPkey}

theorem Starts.unique {priv' : Option EvpPkey} (h : Starts e env combo host kdfType dispatchMode priv)
    (h' : Starts e env combo host kdfType dispatchMode priv') : priv = priv' :=
  generate_unique h.generate h'.generate

theorem EcdhCalled.unique {privKey privKey' peerPub peerPub' : EvpPkey}
    (h : EcdhCalled e env combo s host kdfType dispatchMode privKey peerPub)
    (h' : EcdhCalled e env combo s host kdfType dispatchMode privKey' peerPub') :
    privKey = privKey' ∧ peerPub = peerPub' :=
  ⟨Option.some.inj (h.starts.unique h'.starts),
    Option.some.inj (h.key.2.symm.trans h'.key.2)⟩

/-- The handshake of a client that gets to the `ServerHello`, -/
theorem obs_sequentialHandshake (hstarts : Starts e env combo host kdfType dispatchMode priv)
    (hhello : ServerHelloComplete e env s) :
    ∃ reads, env.obs s (sequentialHandshake e combo host kdfType dispatchMode) =
      (env.obs (afterServerHello e s) (sequentialFinish e combo kdfType
        ⟨env.sys (.nowMs .start), priv⟩ (serverHelloOf e s))).after reads
        [clientHello e combo kdfType dispatchMode (exported env.sys combo priv)] := by
  obtain ⟨reads, -, hrecv⟩ := obs_recvServerHello hhello
  refine ⟨reads, ?_⟩
  rw [sequentialHandshake, ConnEnv.obs_bind, obs_sendClientHello hstarts]
  dsimp only [Obs.andThen]
  rw [ConnEnv.obs_bind, hrecv]
  rfl

/-- and of one that does not. -/
theorem obs_sequentialHandshake_not (h : ∀ priv, Starts e env combo host kdfType dispatchMode priv →
      ¬ServerHelloComplete e env s) :
    (env.obs s (sequentialHandshake e combo host kdfType dispatchMode)).val = .failed ∧
      ∀ pkt ∈ (env.obs s (sequentialHandshake e combo host kdfType dispatchMode)).sent,
        msgTypeOf e pkt ≠ wireMsgPqcCiphertext := by
  rw [sequentialHandshake, ConnEnv.obs_bind]
  by_cases hstarts : ∃ priv, Starts e env combo host kdfType dispatchMode priv
  · obtain ⟨priv, hstarts⟩ := hstarts
    obtain ⟨hval, hsent⟩ := obs_recvServerHello_not (h priv hstarts)
    rw [obs_sendClientHello hstarts]
    simp only [Obs.andThen, ConnEnv.obs_bind, hval, hsent]
    simp [abortHandshake, Conn.monadLift_eq, Obs.andThen, msgTypeOf_clientHello, wireMsgClientHello,
      wireMsgPqcCiphertext]
  · obtain ⟨hval, hsent⟩ := obs_sendClientHello_not (s := s) fun priv hs => hstarts ⟨priv, hs⟩
    simp only [Obs.andThen, hval, Prog.pure_eq, ConnEnv.obs_ret, List.append_nil, true_and]
    intro pkt hpkt
    rw [hsent pkt hpkt]
    decide

/-- With a hybrid suite, the client gives up unless it has both secrets. -/
theorem hybridHandshake_not (hprofile : combo.profile = profileHybrid)
    (h : ∀ privKey peerPub, EcdhCalled e env combo s host kdfType dispatchMode privKey peerPub →
      Encapsulates env combo (serverHelloOf e s).pqcPk →
      LeavesNothing env.sys privKey peerPub (.zero maxSharedSec) maxSharedSec) :
    (env.obs s (sequentialHandshake e combo host kdfType dispatchMode)).val = .failed ∧
      ∀ pkt ∈ (env.obs s (sequentialHandshake e combo host kdfType dispatchMode)).sent,
        msgTypeOf e pkt ≠ wireMsgPqcCiphertext := by
  by_cases hgets : ∃ priv, Starts e env combo host kdfType dispatchMode priv ∧
      ServerHelloComplete e env s
  · obtain ⟨priv, hstarts, hhello⟩ := hgets
    obtain ⟨reads, hobs⟩ := obs_sequentialHandshake hstarts hhello
    have hnot : ¬(Encapsulates env combo (serverHelloOf e s).pqcPk ∧
        ClassicalThere env combo priv (serverHelloOf e s).srvPub) := by
      rintro ⟨henc, privKey, peerPub, rfl, hkey, hleaves⟩
      exact hleaves (h privKey peerPub ⟨hstarts, hhello, hkey⟩ henc)
    rw [hobs, sequentialFinish, ConnEnv.obs_bind, obs_hybridSecrets_not hprofile
      (isSome_of_generate hstarts.generate (.inl hprofile)) hnot]
    simp [Obs.andThen, msgTypeOf_clientHello, wireMsgClientHello, wireMsgPqcCiphertext]
  · exact obs_sequentialHandshake_not fun priv hstarts hhello => hgets ⟨priv, hstarts, hhello⟩

/-- A client that has its secrets waits for the `Finished`, and returns the time. -/
theorem sequentialHandshake_waits (h : Waits e env combo s host kdfType dispatchMode priv) :
    ∃ reads key,
      (env.obs s (sequentialHandshake e combo host kdfType dispatchMode)).val =
        .done (env.sys (.nowMs .stop) - env.sys (.nowMs .start)) key ∧
      (env.obs s (sequentialHandshake e combo host kdfType dispatchMode)).received =
        reads ++ (env.obs (afterServerHello e s) (awaitFinished e)).received := by
  obtain ⟨reads, hobs⟩ := obs_sequentialHandshake h.starts h.hello
  obtain ⟨cSecret, qSecret, sent, hsecrets⟩ :=
    @obs_sequentialSecrets_ok e env combo (afterServerHello e s) _ _ h.secrets
  rw [hobs, sequentialFinish, ConnEnv.obs_bind, hsecrets]
  simp only [Obs.andThen, obs_finishHandshake]
  exact ⟨reads, _, rfl, rfl⟩

/-- A client that has not returns none. -/
theorem sequentialHandshake_not (h : ∀ priv, ¬Waits e env combo s host kdfType dispatchMode priv)
    (ms : ℚ) (key : Option (Bytes 32)) :
    (env.obs s (sequentialHandshake e combo host kdfType dispatchMode)).val ≠ .done ms key := by
  by_cases hgets : ∃ priv, Starts e env combo host kdfType dispatchMode priv ∧
      ServerHelloComplete e env s
  · obtain ⟨priv, hstarts, hhello⟩ := hgets
    obtain ⟨reads, hobs⟩ := obs_sequentialHandshake hstarts hhello
    have hval := @obs_sequentialSecrets_not e env combo (afterServerHello e s) _ _ hstarts.generate
      fun hsecrets => h priv ⟨hstarts, hhello, hsecrets⟩
    rw [hobs, sequentialFinish, ConnEnv.obs_bind]
    generalize env.obs _ (sequentialSecrets _ _ _ _) = o at hval ⊢
    obtain ⟨secrets, rest, received, sent, closed⟩ := o
    cases secrets with
    | crashed => nofun
    | failed => nofun
    | ok cSecret qSecret => exact absurd rfl (hval cSecret qSecret)
  · rw [(obs_sequentialHandshake_not fun priv hstarts hhello => hgets ⟨priv, hstarts, hhello⟩).1]
    nofun

/-- With a hybrid suite, the client never goes on without ECDH exactly if, wherever it
    gets to the derivation and the KEM operation succeeds, the derivation succeeds or
    leaves a length of zero. -/
theorem ecdh_checked_iff (hprofile : combo.profile = profileHybrid) :
    EcdhChecked e env combo s host kdfType dispatchMode route ready ↔
      ∀ privKey peerPub, EcdhCalled e env combo s host kdfType dispatchMode privKey peerPub →
        Encapsulates env combo (serverHelloOf e s).pqcPk →
        DeriveSteps env.sys privKey peerPub (.zero maxSharedSec) maxSharedSec ∨
          LeavesNothing env.sys privKey peerPub (.zero maxSharedSec) maxSharedSec := by
  simp only [EcdhChecked, obs_dispatchHandshake]
  refine ecdh_guard_iff EcdhCalled.unique (fun hcalled henc hleaves hfailed => ?_)
    (hybridHandshake_not hprofile)
  -- both guards let the client through
  obtain ⟨reads, key, hval, -⟩ := sequentialHandshake_waits ⟨hcalled.starts, hcalled.hello,
    fun _ => ⟨henc, _, _, rfl, hcalled.key, hleaves⟩,
    fun hquantum => absurd (hquantum.symm.trans hprofile) (by decide)⟩
  rw [hval] at hfailed
  cases hfailed.1

/-- A client that returns a time has received the `Finished` exactly if, wherever it gets
    to waiting for it, the stream goes on with a good one. -/
theorem finished_checked_iff :
    FinishedChecked e env combo s host kdfType dispatchMode route ready ↔
      ∀ priv, Waits e env combo s host kdfType dispatchMode priv →
        env.sys (.nowMs .start) ≤ env.sys (.nowMs .stop) →
        FinishedGood e (afterServerHello e s) := by
  simp only [FinishedChecked, obs_dispatchHandshake]
  refine finished_guard_iff (fun hwaits => ?_) sequentialHandshake_not
  obtain ⟨reads, key, hval, hreceived⟩ := sequentialHandshake_waits hwaits
  rw [hreceived]
  exact ⟨⟨key, hval⟩, receivedFinished_iff⟩

end Handshake

end Dispatch

end HybridPqc
