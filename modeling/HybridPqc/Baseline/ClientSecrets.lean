import HybridPqc.Baseline.Client

/-!
# How far the client of the JSON protocol gets

What `execute_handshake_with_telemetry` shows, for any lines of the server and any
outcome of the calls, and so how its handshakes end:

* `ecdh_checked_iff`: when it is never further than an ECDH that has failed;
* `finished_checked_iff`: when its time is that of a handshake that has been
  finished.
-/

namespace HybridPqc

namespace Baseline

variable (env : JsonEnv) (combo : AlgoCombo) (s : List (Option Json))

/-! ## The messages -/

/-- The type of a message. -/
def lineType : List (Option Json) → Option CString
  | [some obj] => obj.getStr "type"
  | _ => none

/-- The messages are not ciphertexts. -/
def NoCiphertext (sent : List (List (Option Json))) : Prop :=
  ∀ line ∈ sent, lineType line ≠ some (cstr "PQCCiphertext")

section Messages

variable {combo} {kdfType : CString}

theorem lineType_profileSelect {salt : List (CString × Json)} :
    lineType [some (profileSelect combo kdfType salt)] = some (cstr "ProfileSelect") := rfl

theorem lineType_clientHello {pubB64 : Option CString} :
    lineType [some (clientHello pubB64)] = some (cstr "ClientHello") := rfl

@[simp] theorem noCiphertext_nil : NoCiphertext [] := nofun

theorem NoCiphertext.append {sent sent' : List (List (Option Json))} (h : NoCiphertext sent)
    (h' : NoCiphertext sent') : NoCiphertext (sent ++ sent') := by
  intro line hline
  rcases List.mem_append.1 hline with hline | hline
  · exact h line hline
  · exact h' line hline

end Messages

/-! ## The secrets -/

/-- The KEM operation succeeds: its thread is created, and there are a KEM, buffers, and a
    key of its length. -/
def Encapsulates (qPkB64 : CString) : Prop :=
  env.sys .pthreadCreate = true ∧
    ∃ kem pk, env.sys (.oqsKemNew combo.pqcName) = some kem ∧
      env.sys (.malloc .ciphertext kem.lengthCiphertext) = true ∧
      env.sys (.malloc .sharedSecret kem.lengthSharedSecret) = true ∧
      env.sys (.malloc .publicKeyDecoded kem.lengthPublicKey) = true ∧
      (b64Decode qPkB64 kem.lengthPublicKey).eval env.sys = some pk ∧
      pk.length = kem.lengthPublicKey ∧ (env.sys (.oqsKemEncaps kem pk)).ok = true

/-- The message has a key, and the KEM operation succeeds. -/
def EncapsulatesTo (resp : Json) : Prop :=
  ∃ qPkB64, resp.getStr "q_pk" = some qPkB64 ∧ Encapsulates env combo qPkB64

/-- The classical key in the message of the server. -/
def serverPub (resp : Json) : List UInt8 := (decodePub resp).eval env.sys

/-- There is a classical secret, as its length says. -/
def ClassicalThere (priv : Option EvpPkey) (resp : Json) : Prop :=
  ∃ privKey peerPub, priv = some privKey ∧
    PeerKey env.sys combo.classicalCurve (serverPub env resp) peerPub ∧
    ¬LeavesNothing env.sys privKey peerPub (.zero maxSharedSec) maxSharedSec

/-- There are a KEM, a key, and buffers: enough for a suite that has the KEM alone. -/
def KemThere (resp : Json) : Prop :=
  ∃ kem qPkB64, env.sys (.oqsKemNew combo.pqcName) = some kem ∧ resp.getStr "q_pk" = some qPkB64 ∧
    env.sys (.malloc .ciphertext kem.lengthCiphertext) = true ∧
    env.sys (.malloc .sharedSecret kem.lengthSharedSecret) = true ∧
    env.sys (.malloc .publicKeyDecoded kem.lengthPublicKey) = true

/-- What the client asks of the secrets before it goes on. -/
structure SecretsThere (priv : Option EvpPkey) (resp : Json) : Prop where
  hybrid : combo.profile = profileHybrid →
    EncapsulatesTo env combo resp ∧ ClassicalThere env combo priv resp
  quantum : combo.profile = profilePureQuantum → KemThere env combo resp

section Secrets

variable {env combo s} {priv : Option EvpPkey} {resp : Json}

theorem isSome_clientPqcEncapsWorker {qPkB64 : CString} (hcreate : env.sys .pthreadCreate = true) :
    ((clientPqcEncapsWorker combo.pqcName qPkB64).eval env.sys).isSome ↔
      Encapsulates env combo qPkB64 := by
  simp only [clientPqcEncapsWorker, freeIf, Prog.op_eq, Prog.call_bind, Prog.ret_bind,
    Prog.pure_eq, Prog.eval_call, Encapsulates, hcreate, true_and]
  cases hnew : env.sys (.oqsKemNew combo.pqcName) with
  | none => simp
  | some kem =>
    simp only [Prog.eval_call, Prog.eval_ite, Prog.eval_bind]
    cases hct : env.sys (.malloc .ciphertext kem.lengthCiphertext)
    · simp [hct]
    cases hss : env.sys (.malloc .sharedSecret kem.lengthSharedSecret)
    · simp [hct, hss]
    cases hpk : env.sys (.malloc .publicKeyDecoded kem.lengthPublicKey)
    · simp [hct, hss, hpk]
    cases hdecode : (b64Decode qPkB64 kem.lengthPublicKey).eval env.sys with
    | none => simp [hct, hss, hpk, hdecode]
    | some pk =>
      by_cases hlen : pk.length = kem.lengthPublicKey
      · cases hok : (env.sys (.oqsKemEncaps kem pk)).ok <;>
          simp [hct, hss, hpk, hdecode, Option.filter, hlen, hok]
      · simp [hct, hss, hpk, hdecode, Option.filter, hlen]

theorem eval_clientSecret :
    (clientSecret combo priv resp).eval env.sys =
      (classicalSecret combo.classicalCurve priv (serverPub env resp)).eval env.sys := by
  cases priv <;> simp [clientSecret, serverPub, freePkey]

theorem obs_sendCiphertext {ct : List UInt8} :
    env.obs s (sendCiphertext ct) =
      ⟨(), s, [], [[some (pqcCiphertext ((b64Encode ct).eval env.sys))]], false⟩ := by
  simp [sendCiphertext, Conn.monadLift_eq, obs_sendJsonLine, Obs.andThen]

/-- The ciphertext is sent if there are both secrets, -/
theorem obs_finishHybrid {cSecret : Secret} {out : Option (Secret × List UInt8)}
    (hout : out.isSome) (hlen : cSecret.len ≠ 0) :
    ∃ qSecret sent, env.obs s (finishHybrid cSecret out) =
      ⟨.ok cSecret qSecret, s, [], sent, false⟩ := by
  obtain ⟨⟨qSecret, ct⟩, rfl⟩ := Option.isSome_iff_exists.1 hout
  simp only [finishHybrid, if_neg hlen, ConnEnv.obs_bind, obs_sendCiphertext]
  exact ⟨_, _, rfl⟩

/-- and the client gives up otherwise. -/
theorem obs_finishHybrid_not {cSecret : Secret} {out : Option (Secret × List UInt8)}
    (h : ¬(out.isSome ∧ cSecret.len ≠ 0)) :
    env.obs s (finishHybrid cSecret out) = ⟨.failed, s, [], [], true⟩ := by
  cases out with
  | none => simp [finishHybrid, Obs.shut]
  | some out =>
    have hlen : cSecret.len = 0 := by simpa using h
    simp [finishHybrid, hlen, Obs.shut]

/-- The thread of the KEM operation, if it is created. -/
theorem isSome_worker {qPkB64 : CString} :
    ((if env.sys .pthreadCreate = true then clientPqcEncapsWorker combo.pqcName qPkB64
      else pure none : Sys _).eval env.sys).isSome ↔ Encapsulates env combo qPkB64 := by
  split
  · rename_i hcreate
    exact isSome_clientPqcEncapsWorker hcreate
  · rename_i hcreate
    exact ⟨nofun, fun h => absurd h.1 hcreate⟩

/-- With a hybrid suite, the client goes on if there are both secrets, -/
theorem obs_hybridSecrets (henc : EncapsulatesTo env combo resp)
    (hc : ClassicalThere env combo priv resp) :
    ∃ cSecret qSecret sent, env.obs s (hybridSecrets combo priv resp) =
      ⟨.ok cSecret qSecret, s, [], sent, false⟩ := by
  obtain ⟨qPkB64, hqPk, henc⟩ := henc
  obtain ⟨privKey, peerPub, rfl, hkey, hleaves⟩ := hc
  have hlen := len_classicalSecret.2 ⟨peerPub, hkey, hleaves⟩
  simp only [hybridSecrets, hqPk, Conn.monadLift_eq, Conn.sys_eq, Prog.call_bind, Prog.ret_bind,
    ConnEnv.obs_call_sys, ConnEnv.obs_bind, ConnEnv.obs_lift, Obs.mk_andThen, eval_clientSecret]
  obtain ⟨qSecret, sent, hobs⟩ := @obs_finishHybrid env s _ _ (isSome_worker.2 henc) hlen
  exact ⟨_, qSecret, sent, hobs⟩

/-- and gives up otherwise. -/
theorem obs_hybridSecrets_not (hpriv : priv.isSome)
    (h : ¬(EncapsulatesTo env combo resp ∧ ClassicalThere env combo priv resp)) :
    env.obs s (hybridSecrets combo priv resp) = ⟨.failed, s, [], [], true⟩ := by
  obtain ⟨privKey, rfl⟩ := Option.isSome_iff_exists.1 hpriv
  cases hqPk : resp.getStr "q_pk" with
  | none => simp [hybridSecrets, hqPk, freePkey, Conn.monadLift_eq, Obs.shut]
  | some qPkB64 =>
    simp only [hybridSecrets, hqPk, Conn.monadLift_eq, Conn.sys_eq, Prog.call_bind, Prog.ret_bind,
      ConnEnv.obs_call_sys, ConnEnv.obs_bind, ConnEnv.obs_lift, Obs.mk_andThen, eval_clientSecret]
    refine obs_finishHybrid_not fun hok => h ⟨⟨qPkB64, hqPk, isSome_worker.1 hok.1⟩, ?_⟩
    obtain ⟨peerPub, hkey, hleaves⟩ := len_classicalSecret.1 hok.2
    exact ⟨privKey, peerPub, rfl, hkey, hleaves⟩

/-- With a suite that has the KEM alone. -/
theorem obs_quantumSecrets (h : KemThere env combo resp) :
    ∃ qSecret sent, env.obs s (quantumSecrets combo resp) =
      ⟨.ok .none qSecret, s, [], sent, false⟩ := by
  obtain ⟨kem, qPkB64, hnew, hqPk, hct, hss, hpk⟩ := h
  simp only [quantumSecrets, hqPk, Conn.monadLift_eq, Conn.sys_eq, Prog.call_bind, Prog.ret_bind,
    ConnEnv.obs_call_sys, hnew, hct, hss, hpk, Bool.not_true, Bool.or_self, Bool.false_eq_true,
    if_false, ConnEnv.obs_bind, ConnEnv.obs_lift, Obs.mk_andThen, obs_sendCiphertext]
  exact ⟨_, _, rfl⟩

theorem obs_quantumSecrets_not (h : ¬KemThere env combo resp) (cSecret qSecret : Secret) :
    (env.obs s (quantumSecrets combo resp)).val ≠ .ok cSecret qSecret := by
  simp only [quantumSecrets, Conn.sys_eq, Prog.call_bind, Prog.ret_bind, ConnEnv.obs_call_sys]
  cases hnew : env.sys (.oqsKemNew combo.pqcName) with
  | none => simp
  | some kem =>
    cases hqPk : resp.getStr "q_pk" with
    | none => simp
    | some qPkB64 =>
      cases hct : env.sys (.malloc .ciphertext kem.lengthCiphertext)
      · simp [hct]
      cases hss : env.sys (.malloc .sharedSecret kem.lengthSharedSecret)
      · simp [hct, hss]
      cases hpk : env.sys (.malloc .publicKeyDecoded kem.lengthPublicKey)
      · simp [hct, hss, hpk]
      · exact absurd ⟨kem, qPkB64, hnew, hqPk, hct, hss, hpk⟩ h

/-- With any suite, the client goes on if it has what it asks for, -/
theorem obs_clientSecrets_ok (h : SecretsThere env combo priv resp) :
    ∃ cSecret qSecret sent, env.obs s (clientSecrets combo priv resp) =
      ⟨.ok cSecret qSecret, s, [], sent, false⟩ := by
  by_cases hhybrid : combo.profile = profileHybrid
  · rw [clientSecrets, if_pos hhybrid]
    exact obs_hybridSecrets (h.hybrid hhybrid).1 (h.hybrid hhybrid).2
  by_cases hclassical : combo.profile = profilePureClassical
  · simp only [clientSecrets, if_neg hhybrid, if_pos hclassical, Conn.monadLift_eq,
      ConnEnv.obs_bind, ConnEnv.obs_lift, Obs.mk_andThen, Prog.pure_eq, ConnEnv.obs_ret]
    exact ⟨_, _, _, rfl⟩
  by_cases hquantum : combo.profile = profilePureQuantum
  · rw [clientSecrets, if_neg hhybrid, if_neg hclassical, if_pos hquantum]
    obtain ⟨qSecret, sent, hobs⟩ := @obs_quantumSecrets env combo s _ (h.quantum hquantum)
    exact ⟨_, qSecret, sent, hobs⟩
  · rw [clientSecrets, if_neg hhybrid, if_neg hclassical, if_neg hquantum]
    exact ⟨_, _, _, rfl⟩

/-- and gives up otherwise. -/
theorem obs_clientSecrets_not (hgenerate : Generate env.sys combo priv)
    (h : ¬SecretsThere env combo priv resp) (cSecret qSecret : Secret) :
    (env.obs s (clientSecrets combo priv resp)).val ≠ .ok cSecret qSecret := by
  by_cases hhybrid : combo.profile = profileHybrid
  · rw [clientSecrets, if_pos hhybrid,
      obs_hybridSecrets_not (isSome_of_generate hgenerate (.inl hhybrid)) fun hboth =>
        h ⟨fun _ => hboth, fun hquantum => absurd (hquantum.symm.trans hhybrid) (by decide)⟩]
    nofun
  by_cases hquantum : combo.profile = profilePureQuantum
  · rw [clientSecrets, if_neg hhybrid, if_neg (by rw [hquantum]; decide), if_pos hquantum]
    exact obs_quantumSecrets_not
      (fun hkem => h ⟨fun hp => absurd hp hhybrid, fun _ => hkem⟩) cSecret qSecret
  · exact absurd ⟨fun hp => absurd hp hhybrid, fun hp => absurd hp hquantum⟩ h

end Secrets

/-! ## The handshake -/

/-- The handshake after the message of the server. -/
def finishFrom (kdfType : CString) (start : ClientStart) (resp : Json) : JsonNet ClientEnd := do
  match ← clientSecrets combo start.priv resp with
  | .crashed => return .crashed
  | .failed => return .failed
  | .ok cSecret qSecret => finishHandshake combo kdfType start.tStart cSecret qSecret

/-- The `ServerFinished`: an object of that type, with the status `success`. -/
def IsFinished (line : Option Json) : Prop :=
  ∃ obj, line = some obj ∧ obj.getStr "type" = some (cstr "ServerFinished") ∧
    obj.getStr "status" = some (cstr "success")

/-- It is the last thing received. -/
def ReceivedFinished (received : List (ℕ × Option (List (Option Json)))) : Prop :=
  ∃ reads line, received = reads ++ [(1, some [line])] ∧ IsFinished line

/-- A stream begins with it. -/
def FinishedGood : Prop := ∃ line rest, s = line :: rest ∧ IsFinished line

variable (host kdfType : CString)

/-- The first messages are sent. -/
structure Starts (priv : Option EvpPkey) : Prop where
  socket : env.sys .socket = true
  connect : env.sys (.connect host) = true
  generate : Generate env.sys combo priv

/-- With a hybrid suite, `crypto_derive_ecdh_secret` is called, on the key of the client
    and that in the message of the server, who has sent one for the KEM, too. -/
structure EcdhCalled (privKey peerPub : EvpPkey) : Prop where
  starts : Starts env combo host (some privKey)
  message : ∃ resp rest, s = some resp :: rest ∧ (resp.getStr "q_pk").isSome ∧
    PeerKey env.sys combo.classicalCurve (serverPub env resp) peerPub

/-- The KEM operation succeeds, on the key in the message of the server. -/
def KemSucceeds : Prop := ∃ resp rest, s = some resp :: rest ∧ EncapsulatesTo env combo resp

/-- The client gets to waiting for the `ServerFinished`. -/
structure Waits (priv : Option EvpPkey) : Prop where
  starts : Starts env combo host priv
  message : ∃ resp rest, s = some resp :: rest ∧ SecretsThere env combo priv resp

/-- `crypto_derive_ecdh_secret` is called, and returns `0`. -/
def EcdhSucceeds : Prop :=
  ∃ privKey peerPub, EcdhCalled env combo s host privKey peerPub ∧
    ((cryptoDeriveEcdhSecret privKey peerPub (.zero maxSharedSec) maxSharedSec).eval env.sys).rc = 0

/-- The client gives up if it has no ECDH secret, before it sends a ciphertext. -/
def EcdhChecked : Prop :=
  ¬EcdhSucceeds env combo s host →
    let o := env.obs s (executeHandshake host combo kdfType)
    o.val = .failed ∧ NoCiphertext o.sent

/-- If the client returns a time, it has received the `ServerFinished`. -/
def FinishedChecked : Prop :=
  let o := env.obs s (executeHandshake host combo kdfType)
  ∀ ms, o.val.ms = some ms → 0 ≤ ms → ReceivedFinished o.received

section Handshake

variable {env combo s} {host kdfType} {priv : Option EvpPkey} {resp : Json}

theorem Starts.unique {priv' : Option EvpPkey} (h : Starts env combo host priv)
    (h' : Starts env combo host priv') : priv = priv' :=
  generate_unique h.generate h'.generate

theorem EcdhCalled.unique {privKey privKey' peerPub peerPub' : EvpPkey}
    (h : EcdhCalled env combo s host privKey peerPub)
    (h' : EcdhCalled env combo s host privKey' peerPub') :
    privKey = privKey' ∧ peerPub = peerPub' := by
  obtain ⟨resp, rest, rfl, -, hkey⟩ := h.message
  obtain ⟨resp', rest', heq, -, hkey'⟩ := h'.message
  obtain ⟨⟨rfl⟩, rfl⟩ := List.cons.inj heq
  exact ⟨Option.some.inj (h.starts.unique h'.starts), Option.some.inj (hkey.2.symm.trans hkey'.2)⟩

/-- That is so if the stream goes on with it. -/
theorem receivedFinished_iff {reads : List (ℕ × Option (List (Option Json)))} :
    ReceivedFinished (reads ++ (env.obs s recvJsonLine).received) ↔ FinishedGood s := by
  cases s with
  | nil =>
    rw [obs_recvJsonLine_nil]
    refine ⟨?_, nofun⟩
    rintro ⟨reads', line, heq, -⟩
    exact absurd (List.append_inj' heq rfl).2 (by simp)
  | cons line s =>
    rw [obs_recvJsonLine_cons]
    constructor
    · rintro ⟨reads', line', heq, hline⟩
      have hlast := (List.append_inj' heq rfl).2
      simp only [List.cons.injEq, Prod.mk.injEq, Option.some.injEq, true_and, and_true] at hlast
      exact ⟨line, s, rfl, hlast ▸ hline⟩
    · rintro ⟨line', s', heq, hline⟩
      obtain ⟨rfl, rfl⟩ := List.cons.inj heq
      exact ⟨reads, line, rfl, hline⟩

/-- Neither of the first messages is a ciphertext. -/
theorem obs_sendProfileSelect :
    ∃ sent, NoCiphertext sent ∧
      env.obs s (sendProfileSelect combo kdfType) = ⟨(), s, [], sent, false⟩ := by
  rw [sendProfileSelect]
  split
  · refine ⟨[[some (profileSelect combo kdfType (Json.strField "salt"
      ((b64Encode staticSalt).eval env.sys)))]], ?_, ?_⟩
    rotate_left
    · simp only [Conn.monadLift_eq, ConnEnv.obs_bind, ConnEnv.obs_lift, Obs.mk_andThen,
        obs_sendJsonLine]
      rfl
    · simp [NoCiphertext, lineType_profileSelect]
      decide
  · refine ⟨_, ?_, obs_sendJsonLine ..⟩
    simp [NoCiphertext, lineType_profileSelect]
    decide

theorem obs_sendPub {pub : List UInt8} :
    ∃ sent, NoCiphertext sent ∧ env.obs s (sendPub combo pub) = ⟨(), s, [], sent, false⟩ := by
  rw [sendPub]
  split
  · refine ⟨[[some (clientHello ((b64Encode pub).eval env.sys))]], ?_, ?_⟩
    rotate_left
    · simp only [Conn.monadLift_eq, ConnEnv.obs_bind, ConnEnv.obs_lift, Obs.mk_andThen,
        obs_sendJsonLine]
      rfl
    · simp [NoCiphertext, lineType_clientHello]
      decide
  · exact ⟨[], nofun, rfl⟩

/-- The first messages are sent, -/
theorem obs_sendClientHello (h : Starts env combo host priv) :
    ∃ sent, NoCiphertext sent ∧ env.obs s (sendClientHello host combo kdfType) =
      ⟨some ⟨env.sys (.nowMs .start), priv⟩, s, [], sent, false⟩ := by
  obtain ⟨sent, hsent, hselect⟩ := @obs_sendProfileSelect env combo s kdfType
  obtain ⟨sent', hsent', hpub⟩ := @obs_sendPub env combo s (exported env.sys combo priv)
  refine ⟨sent ++ sent', hsent.append hsent', ?_⟩
  simp [sendClientHello, Conn.monadLift_eq, h.socket, h.connect, hselect, hpub,
    eval_clientKeygen.2 ⟨h.generate, rfl⟩, Obs.andThen]

/-- or the client gives up. -/
theorem obs_sendClientHello_not (h : ∀ priv, ¬Starts env combo host priv) :
    (env.obs s (sendClientHello host combo kdfType)).val = none ∧
      NoCiphertext (env.obs s (sendClientHello host combo kdfType)).sent := by
  cases hsocket : env.sys .socket
  · simp [sendClientHello, hsocket]
  cases hconnect : env.sys (.connect host)
  · simp [sendClientHello, hsocket, hconnect]
  obtain ⟨sent, hsent, hselect⟩ := @obs_sendProfileSelect env combo s kdfType
  cases hkeygen : (clientKeygen combo).eval env.sys with
  | none =>
    simp [sendClientHello, Conn.monadLift_eq, hsocket, hconnect, hselect, hkeygen, Obs.andThen, hsent]
  | some r => exact absurd ⟨hsocket, hconnect, (eval_clientKeygen.1 hkeygen).1⟩ (h r.1)

/-- The handshake of a client that gets a message from the server, -/
theorem obs_executeHandshake (hstarts : Starts env combo host priv) :
    ∃ sent, NoCiphertext sent ∧
      env.obs (some resp :: s) (executeHandshake host combo kdfType) =
        (env.obs s (finishFrom combo kdfType ⟨env.sys (.nowMs .start), priv⟩ resp)).after
          [(1, some [some resp])] sent := by
  obtain ⟨sent, hsent, hobs⟩ := @obs_sendClientHello env combo (some resp :: s) host kdfType _ hstarts
  refine ⟨sent, hsent, ?_⟩
  rw [executeHandshake, ConnEnv.obs_bind, hobs]
  dsimp only [Obs.andThen]
  rw [ConnEnv.obs_bind, obs_recvJsonLine_cons]
  rfl

/-- and of one that does not. -/
theorem obs_executeHandshake_not
    (h : ∀ priv, Starts env combo host priv → ∀ resp rest, s ≠ some resp :: rest) :
    (env.obs s (executeHandshake host combo kdfType)).val = .failed ∧
      NoCiphertext (env.obs s (executeHandshake host combo kdfType)).sent := by
  rw [executeHandshake, ConnEnv.obs_bind]
  by_cases hstarts : ∃ priv, Starts env combo host priv
  · obtain ⟨priv, hstarts⟩ := hstarts
    obtain ⟨sent, hsent, hobs⟩ := @obs_sendClientHello env combo s host kdfType _ hstarts
    have hrecv : (env.obs s recvJsonLine).val = none ∧ (env.obs s recvJsonLine).sent = [] := by
      match s, h priv hstarts with
      | [], _ => rw [obs_recvJsonLine_nil]; exact ⟨rfl, rfl⟩
      | none :: _, _ => rw [obs_recvJsonLine_cons]; exact ⟨rfl, rfl⟩
      | some resp :: rest, hne => exact absurd rfl (hne resp rest)
    rw [hobs]
    simp only [Obs.andThen, ConnEnv.obs_bind, hrecv.1, hrecv.2]
    simp [Conn.monadLift_eq, hsent]
  · obtain ⟨hval, hsent⟩ := @obs_sendClientHello_not env combo s host kdfType
      fun priv hs => hstarts ⟨priv, hs⟩
    simp [Obs.andThen, hval, hsent]

/-- With a hybrid suite, the client gives up unless it has both secrets. -/
theorem hybridHandshake_not (hprofile : combo.profile = profileHybrid)
    (h : ∀ privKey peerPub, EcdhCalled env combo s host privKey peerPub → KemSucceeds env combo s →
      LeavesNothing env.sys privKey peerPub (.zero maxSharedSec) maxSharedSec) :
    (env.obs s (executeHandshake host combo kdfType)).val = .failed ∧
      NoCiphertext (env.obs s (executeHandshake host combo kdfType)).sent := by
  by_cases hgets : ∃ priv resp rest, Starts env combo host priv ∧ s = some resp :: rest
  · obtain ⟨priv, resp, rest, hstarts, rfl⟩ := hgets
    obtain ⟨sent, hsent, hobs⟩ := @obs_executeHandshake env combo rest host kdfType _ resp hstarts
    have hnot : ¬(EncapsulatesTo env combo resp ∧ ClassicalThere env combo priv resp) := by
      rintro ⟨henc, privKey, peerPub, rfl, hkey, hleaves⟩
      obtain ⟨qPkB64, hqPk, -⟩ := id henc
      exact hleaves (h privKey peerPub ⟨hstarts, resp, rest, rfl, by rw [hqPk]; rfl, hkey⟩
        ⟨resp, rest, rfl, henc⟩)
    rw [hobs, finishFrom, ConnEnv.obs_bind, clientSecrets, if_pos hprofile,
      obs_hybridSecrets_not (isSome_of_generate hstarts.generate (.inl hprofile)) hnot]
    simp [Obs.andThen, hsent]
  · exact obs_executeHandshake_not fun priv hstarts resp rest heq =>
      hgets ⟨priv, resp, rest, hstarts, heq⟩

/-- What is kept of the handshake once it waits for the `ServerFinished`. -/
theorem obs_finishHandshake {tStart : ℚ} {cSecret qSecret : Secret} :
    ∃ key, env.obs s (finishHandshake combo kdfType tStart cSecret qSecret) =
      ((env.obs s recvJsonLine).map fun _ =>
        ClientEnd.done (env.sys (.nowMs .stop) - tStart) key).shut := by
  simp only [finishHandshake, Conn.monadLift_eq, ConnEnv.obs_bind, ConnEnv.obs_lift, Obs.mk_andThen]
  exact ⟨_, by simp [Obs.andThen, Obs.map, Obs.shut]; rfl⟩

/-- A client that has its secrets waits for the `ServerFinished`, and returns the time. -/
theorem executeHandshake_waits (h : Waits env combo s host priv) :
    ∃ reads key,
      (env.obs s (executeHandshake host combo kdfType)).val =
        .done (env.sys (.nowMs .stop) - env.sys (.nowMs .start)) key ∧
      (env.obs s (executeHandshake host combo kdfType)).received =
        reads ++ (env.obs s.tail recvJsonLine).received := by
  obtain ⟨resp, rest, rfl, hsecrets⟩ := h.message
  obtain ⟨sent, -, hobs⟩ := @obs_executeHandshake env combo rest host kdfType _ resp h.starts
  obtain ⟨cSecret, qSecret, sent', hsecrets⟩ := @obs_clientSecrets_ok env combo rest _ _ hsecrets
  obtain ⟨key, hfinish⟩ := @obs_finishHandshake env combo rest kdfType (env.sys (.nowMs .start))
    cSecret qSecret
  rw [hobs, finishFrom, ConnEnv.obs_bind, hsecrets]
  simp only [Obs.andThen, hfinish]
  exact ⟨[(1, some [some resp])], key, rfl, rfl⟩

/-- A client that has not returns none. -/
theorem executeHandshake_not (h : ∀ priv, ¬Waits env combo s host priv) (ms : ℚ)
    (key : Option (Bytes 32)) :
    (env.obs s (executeHandshake host combo kdfType)).val ≠ .done ms key := by
  by_cases hgets : ∃ priv resp rest, Starts env combo host priv ∧ s = some resp :: rest
  · obtain ⟨priv, resp, rest, hstarts, rfl⟩ := hgets
    obtain ⟨sent, -, hobs⟩ := @obs_executeHandshake env combo rest host kdfType _ resp hstarts
    have hval := @obs_clientSecrets_not env combo rest _ _ hstarts.generate
      fun hsecrets => h priv ⟨hstarts, resp, rest, rfl, hsecrets⟩
    rw [hobs, finishFrom, ConnEnv.obs_bind]
    generalize env.obs _ (clientSecrets _ _ _) = o at hval ⊢
    obtain ⟨secrets, rest', received, sent', closed⟩ := o
    cases secrets with
    | crashed => nofun
    | failed => nofun
    | ok cSecret qSecret => exact absurd rfl (hval cSecret qSecret)
  · rw [(obs_executeHandshake_not fun priv hstarts resp rest heq =>
      hgets ⟨priv, resp, rest, hstarts, heq⟩).1]
    nofun

/-- With a hybrid suite, the client never goes on without ECDH exactly if, wherever it
    gets to the derivation and the KEM operation succeeds, the derivation succeeds or
    leaves a length of zero. -/
theorem ecdh_checked_iff (hprofile : combo.profile = profileHybrid) :
    EcdhChecked env combo s host kdfType ↔
      ∀ privKey peerPub, EcdhCalled env combo s host privKey peerPub → KemSucceeds env combo s →
        DeriveSteps env.sys privKey peerPub (.zero maxSharedSec) maxSharedSec ∨
          LeavesNothing env.sys privKey peerPub (.zero maxSharedSec) maxSharedSec := by
  refine ecdh_guard_iff EcdhCalled.unique (fun hcalled henc hleaves hfailed => ?_)
    (hybridHandshake_not hprofile)
  -- both guards let the client through
  obtain ⟨resp, rest, rfl, -, hkey⟩ := hcalled.message
  obtain ⟨resp', rest', heq, henc⟩ := henc
  obtain ⟨⟨rfl⟩, rfl⟩ := List.cons.inj heq
  have hwaits : Waits env combo (some resp :: rest) host _ :=
    ⟨hcalled.starts, resp, rest, rfl, fun _ => ⟨henc, _, _, rfl, hkey, hleaves⟩,
      fun hquantum => absurd (hquantum.symm.trans hprofile) (by decide)⟩
  obtain ⟨reads, key, hval, -⟩ := @executeHandshake_waits _ _ _ _ kdfType _ hwaits
  exact absurd (hval.symm.trans hfailed.1) nofun

/-- A client that returns a time has received the `ServerFinished` exactly if, wherever it
    gets to waiting for it, it comes. -/
theorem finished_checked_iff :
    FinishedChecked env combo s host kdfType ↔
      ∀ priv, Waits env combo s host priv → env.sys (.nowMs .start) ≤ env.sys (.nowMs .stop) →
        FinishedGood s.tail := by
  refine finished_guard_iff (fun hwaits => ?_) executeHandshake_not
  obtain ⟨reads, key, hval, hreceived⟩ := @executeHandshake_waits _ _ _ _ kdfType _ hwaits
  simp only [hreceived]
  exact ⟨⟨key, hval⟩, receivedFinished_iff⟩

end Handshake

end Baseline

end HybridPqc
