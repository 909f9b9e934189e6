import HybridPqc.KemCalls
import HybridPqc.Clients

/-!
# The keys the clients encapsulate to

Whether the clients of both protocols only call `OQS_KEM_encaps` on a public key of
the server that is complete, and give up otherwise: exactly if the servers of the pure
quantum profiles send complete ones (`clients_check_key_iff`).
-/

namespace HybridPqc

open Handoff

/-! ## The client of the binary protocol -/

namespace Dispatch

section Only

variable {e : Endian} {combo : AlgoCombo} {priv : Option EvpPkey} {hello : ServerHello}
  {host kdfType dispatchMode : CString}

theorem only_sendClientHello :
    Conn.Only NotKem (sendClientHello e host combo kdfType dispatchMode) := by
  have hgiveUp : ∀ priv, Conn.Only NotKem
      ((freePkey priv : Sys _) >>= fun _ => do Conn.close; return none : Net (Option ClientStart)) :=
    fun priv => .bind (Conn.only_lift.2 all_freePkey) fun _ => by simp
  simp only [sendClientHello, Conn.sys_eq, Prog.call_bind, Prog.ret_bind, Conn.only_call_sys,
    Conn.only_ite]
  refine ⟨by simp [NotKem], fun socket => ?_⟩
  split
  · trivial
  refine ⟨by simp [NotKem], fun connected => ?_⟩
  split
  · simp
  refine ⟨by simp [NotKem], fun _ => .bind (Conn.only_lift.2 all_clientKeygen) ?_⟩
  rintro (_ | ⟨priv, pub⟩)
  · simp
  simp only [Conn.only_call_sys, Conn.only_ite]
  refine ⟨by simp [NotKem], fun room => ?_⟩
  split
  · exact hgiveUp priv
  simp only [Conn.send_eq, Prog.call_bind, Prog.ret_bind, Conn.only_call_send, Conn.only_call_sys,
    Conn.only_ite]
  refine fun sent => ⟨by simp [NotKem], fun _ => ?_⟩
  split
  · exact hgiveUp priv
  · trivial

theorem only_recvServerHello : Conn.Only NotKem (recvServerHello e) := by
  have hpub : ∀ n, Conn.Only NotKem (recvSrvPub n) := by simp [recvSrvPub]
  have hpk : ∀ n, Conn.Only NotKem (recvPqcPk n) := by
    simp [recvPqcPk, NotKem, Option.forall]
  simp only [recvServerHello, Conn.recv_eq, Prog.call_bind, Prog.ret_bind, Prog.pure_eq,
    Conn.only_call_recv]
  intro hdr
  cases hdr with
  | none => trivial
  | some hdr =>
    rw [Conn.only_ite]
    split
    · trivial
    rw [Conn.only_call_recv]
    intro bs
    cases bs with
    | none => trivial
    | some bs =>
      refine .bind (hpub _) fun srvPub => ?_
      cases srvPub with
      | none => trivial
      | some srvPub =>
        refine .bind (hpk _) fun pqcPk => ?_
        cases pqcPk <;> trivial

theorem only_abortHandshake : Conn.Only NotKem (abortHandshake priv) :=
  .bind (Conn.only_lift.2 all_freePkey) fun _ => by simp

theorem only_finishHandshake {tStart : ℚ} {cSecret qSecret : Secret} :
    Conn.Only NotKem (finishHandshake e combo kdfType tStart cSecret qSecret) := by
  refine .bind (Conn.only_lift.2 all_deriveSessionKey) fun _ => .bind ?_ fun _ => ?_
  · simp [awaitFinished, Option.forall]
  · simp [NotKem]

theorem all_clientSecret : (clientSecret combo priv hello).All NotKem :=
  .bind all_classicalSecret fun _ => .bind all_freePkey fun _ => trivial

theorem only_sendCiphertext {ct : List UInt8} :
    Conn.Only NotKem (sendCiphertext e combo ct) := by
  simp [sendCiphertext, NotKem]

theorem only_finishHybrid {cSecret : Secret} {out : EncapsResult} :
    Conn.Only NotKem (finishHybrid e combo hello cSecret out) := by
  refine .bind (Conn.only_lift.2 all_freeIf) fun _ => ?_
  rw [Conn.only_ite]
  split
  · exact .bind (Conn.only_lift.2 all_freeIf) fun _ => by simp
  · exact .bind only_sendCiphertext fun _ => trivial

/-- A call of `OQS_KEM_encaps` is made on a key that the message has, of the length of those
    of the KEM. -/
def EncapsOn (pqcPk : Option (List UInt8)) (q : Prim) : Prop :=
  ∀ kem pk, q = .oqsKemEncaps kem pk → pqcPk = some pk ∧ pk.length = kem.lengthPublicKey

theorem encapsOn_of_notKem {α : Type} {pqcPk : Option (List UInt8)} {p : Net α}
    (h : Conn.Only NotKem p) : Conn.Only (EncapsOn pqcPk) p :=
  h.mono fun _ hq kem pk heq => absurd heq (hq.1 kem pk)

/-- A raw key is taken as it is, if it has the right length. -/
theorem encapsKey_raw {kem : OqsKem} {pqcPk : Option (List UInt8)} :
    encapsKey kem ⟨combo.pqcName, none, pqcPk⟩ =
      .ret ((pqcPk.filter (·.length = kem.lengthPublicKey)).map (·, false)) := by
  rw [encapsKey]
  cases pqcPk.filter (·.length = kem.lengthPublicKey) <;> rfl

theorem all_clientPqcEncapsWorker {pqcPk : Option (List UInt8)} :
    (clientPqcEncapsWorker ⟨combo.pqcName, none, pqcPk⟩ .init).All (EncapsOn pqcPk) := by
  simp only [clientPqcEncapsWorker, encapsKey_raw, Prog.op_eq, Prog.call_bind, Prog.ret_bind,
    Prog.all_call]
  refine ⟨nofun, fun kem => ?_⟩
  cases kem with
  | none => trivial
  | some kem =>
    cases hpk : pqcPk.filter (·.length = kem.lengthPublicKey) with
    | none => simp [hpk, freeIf, EncapsOn]
    | some pk =>
      obtain ⟨rfl, hlen⟩ := Option.filter_eq_some_iff.1 hpk
      simp only [hpk, Option.map_some]
      simp [freeIf, EncapsOn, of_decide_eq_true hlen]

theorem only_inline_hybridSecrets {route : DispatchRoute} {ready : Bool} :
    Conn.Only (EncapsOn hello.pqcPk)
      (PoolProg.inline encapsInline (hybridSecrets e combo route priv hello) ready none) := by
  have hworker : Conn.Only (EncapsOn hello.pqcPk)
      (encapsInline ⟨combo.pqcName, none, hello.pqcPk⟩) :=
    Conn.only_lift.2 all_clientPqcEncapsWorker
  have hsecret : Conn.Only (EncapsOn hello.pqcPk) (Conn.lift (clientSecret combo priv hello)) :=
    encapsOn_of_notKem (Conn.only_lift.2 all_clientSecret)
  have hfinish : ∀ cSecret out,
      Conn.Only (EncapsOn hello.pqcPk) (finishHybrid e combo hello cSecret out) :=
    fun cSecret out => encapsOn_of_notKem only_finishHybrid
  refine inline_hybridSecrets_cases (fun k hk => ⟨nofun, hk⟩) (fun pool => ?_) fun pool => ?_
  · exact hsecret.bind fun cSecret => hworker.bind fun out =>
      (hfinish cSecret out).bind fun _ => trivial
  · exact hworker.bind fun out => hsecret.bind fun cSecret =>
      (hfinish cSecret out).bind fun _ => trivial

end Only

/-! ### Its runs -/

variable (e : Endian) (env : NetEnv) (combo : AlgoCombo) (s : List UInt8)
  (host kdfType dispatchMode : CString) (route : DispatchRoute) (ready : Bool)

/-- The key in the `ServerHello` is complete: it has come, with the length announced for
    it, which is that of the keys of the KEM. -/
structure CompleteKey (kem : OqsKem) (pk : List UInt8) : Prop where
  hello : ServerHelloComplete e env s
  announced : (serverHelloMeta e s).pqcPkLen = kem.lengthPublicKey
  received : (serverHelloOf e s).pqcPk = some pk

/-- The client only encapsulates to a complete key, and gives up before it sends a
    ciphertext if there is none. -/
structure KeyChecked : Prop where
  complete : ∀ kem pk, env.Called s
    (dispatchHandshake e host combo kdfType dispatchMode route ready) (.oqsKemEncaps kem pk) →
      CompleteKey e env s kem pk
  givesUp : (∀ kem pk, env.sys (.oqsKemNew combo.pqcName) = some kem →
    ¬CompleteKey e env s kem pk) →
      let o := env.obs s (dispatchHandshake e host combo kdfType dispatchMode route ready)
      o.val = .failed ∧ ∀ pkt ∈ o.sent, msgTypeOf e pkt ≠ wireMsgPqcCiphertext

section Runs

variable {e env combo s} {host kdfType dispatchMode route ready} {priv : Option EvpPkey}
  {kem : OqsKem} {pk : List UInt8}

/-- A key that has come has the length announced. -/
theorem length_pqcPk (h : ServerHelloComplete e env s) (hpk : (serverHelloOf e s).pqcPk = some pk) :
    pk.length = (serverHelloMeta e s).pqcPkLen := by
  have hlen := h.length
  simp only [serverHelloOf] at hpk
  split at hpk
  · cases hpk
    simp only [List.length_take, afterServerPub, afterServerHelloMeta, List.length_drop]
    omega
  · cases hpk

theorem called_dispatchHandshake :
    env.Called s (dispatchHandshake e host combo kdfType dispatchMode route ready)
        (.oqsKemEncaps kem pk) ↔
      ∃ priv, Starts e env combo host kdfType dispatchMode priv ∧ ServerHelloComplete e env s ∧
        env.Called (afterServerHello e s) (PoolProg.inline encapsInline
          (clientSecrets e combo route priv (serverHelloOf e s)) ready none)
          (.oqsKemEncaps kem pk) := by
  have hnot : ∀ {α : Type} {s : List UInt8} {p : Net α}, Conn.Only NotKem p →
      ¬env.Called s p (.oqsKemEncaps kem pk) := fun hp h => (h.of_only _ _ hp).1 kem pk rfl
  rw [dispatchHandshake_eq, ConnEnv.called_bind, or_iff_right (hnot only_sendClientHello)]
  constructor
  · intro h
    by_cases hstarts : ∃ priv, Starts e env combo host kdfType dispatchMode priv
    · obtain ⟨priv, hstarts⟩ := hstarts
      rw [obs_sendClientHello hstarts] at h
      dsimp only at h
      rw [ConnEnv.called_bind, or_iff_right (hnot only_recvServerHello)] at h
      by_cases hhello : ServerHelloComplete e env s
      · obtain ⟨reads, -, hrecv⟩ := obs_recvServerHello hhello
        rw [hrecv] at h
        dsimp only at h
        rw [ConnEnv.called_bind] at h
        rcases h with h | h
        · exact ⟨priv, hstarts, hhello, h⟩
        · -- nothing after the secrets encapsulates
          generalize (env.obs (afterServerHello e s) (PoolProg.inline encapsInline
            (clientSecrets e combo route priv (serverHelloOf e s)) ready none)).val = secrets at h
          obtain ⟨secrets, _⟩ := secrets
          cases secrets with
          | ok cSecret qSecret => exact absurd h (hnot only_finishHandshake)
          | _ => exact absurd h (hnot trivial)
      · rw [(obs_recvServerHello_not hhello).1] at h
        exact absurd h (hnot only_abortHandshake)
    · rw [(obs_sendClientHello_not fun priv h => hstarts ⟨priv, h⟩).1] at h
      exact absurd h (hnot trivial)
  · rintro ⟨priv, hstarts, hhello, h⟩
    obtain ⟨reads, -, hrecv⟩ := obs_recvServerHello hhello
    rw [obs_sendClientHello hstarts]
    dsimp only
    rw [ConnEnv.called_bind, hrecv]
    refine .inr ?_
    dsimp only
    rw [ConnEnv.called_bind]
    exact .inl h

theorem called_inline_hybridSecrets {hello : ServerHello} (hprofile : combo.profile = profileHybrid)
    (h : env.Called s (PoolProg.inline encapsInline (clientSecrets e combo route priv hello) ready
      none) (.oqsKemEncaps kem pk)) :
    hello.pqcPk = some pk ∧ pk.length = kem.lengthPublicKey := by
  rw [clientSecrets, if_pos hprofile] at h
  exact h.of_only _ _ only_inline_hybridSecrets kem pk rfl

theorem called_quantumSecrets {hello : ServerHello}
    (h : env.Called s (quantumSecrets e combo hello) (.oqsKemEncaps kem pk)) :
    env.sys (.oqsKemNew combo.pqcName) = some kem ∧ hello.pqcPk = some pk := by
  have hsend : ∀ s ct, ¬env.Called s (sendCiphertext e combo ct) (.oqsKemEncaps kem pk) :=
    fun s ct h => (h.of_only _ _ only_sendCiphertext).1 kem pk rfl
  have hfree : ∀ s allocated buf, ¬env.Called s (Conn.lift (freeIf allocated buf))
      (.oqsKemEncaps kem pk) :=
    fun s allocated buf h => (h.of_only _ _ (Conn.only_lift.2 all_freeIf)).1 kem pk rfl
  simp only [quantumSecrets, Conn.sys_eq, Prog.call_bind, Prog.ret_bind,
    ConnEnv.called_call_sys] at h
  cases hnew : env.sys (.oqsKemNew combo.pqcName) with
  | none =>
    cases hpk : hello.pqcPk <;> simp [hnew, hpk, Conn.monadLift_eq, hfree] at h
  | some kem' =>
    cases hpk : hello.pqcPk with
    | none => simp [hnew, hpk, Conn.monadLift_eq, hfree] at h
    | some pk' =>
      simp only [hnew, hpk, ConnEnv.called_call_sys, reduceCtorEq, false_or] at h
      split at h
      · exact absurd h (by simp)
      · simp only [ConnEnv.called_call_sys, ConnEnv.called_bind, hsend, reduceCtorEq, Prog.pure_eq,
          ConnEnv.not_called_ret, or_false, Prim.oqsKemEncaps.injEq] at h
        exact ⟨congrArg some h.1, congrArg some h.2⟩

/-- With a suite that has the KEM alone, the client gives up if there is no KEM, or no key, -/
theorem obs_quantumSecrets_failed {hello : ServerHello}
    (h : ∀ kem pk, env.sys (.oqsKemNew combo.pqcName) = some kem → hello.pqcPk ≠ some pk) :
    env.obs s (quantumSecrets e combo hello) = ⟨.failed, s, [], [], true⟩ := by
  simp only [quantumSecrets, Conn.sys_eq, Prog.call_bind, Prog.ret_bind, ConnEnv.obs_call_sys]
  cases hnew : env.sys (.oqsKemNew combo.pqcName) with
  | none => simp [Conn.monadLift_eq, Obs.shut]
  | some kem =>
    cases hpk : hello.pqcPk with
    | none => simp [Conn.monadLift_eq, Obs.shut]
    | some pk => exact absurd hpk (h kem pk hnew)

/-- and only then. -/
theorem val_quantumSecrets_ne_failed {hello : ServerHello}
    (hnew : env.sys (.oqsKemNew combo.pqcName) = some kem) (hpk : hello.pqcPk = some pk) :
    (env.obs s (quantumSecrets e combo hello)).val ≠ .failed := by
  simp only [quantumSecrets, Conn.sys_eq, Prog.call_bind, Prog.ret_bind, ConnEnv.obs_call_sys,
    hnew, hpk]
  cases env.sys (.malloc .ciphertext kem.lengthCiphertext) <;>
    cases env.sys (.malloc .sharedSecret kem.lengthSharedSecret) <;>
    simp [obs_sendCiphertext, Obs.andThen]

theorem key_checked_iff (hkem : combo.HasKem) :
    KeyChecked e env combo s host kdfType dispatchMode route ready ↔
      (combo.profile = profilePureQuantum → ∀ priv kem pk,
        Starts e env combo host kdfType dispatchMode priv → ServerHelloComplete e env s →
          env.sys (.oqsKemNew combo.pqcName) = some kem → (serverHelloOf e s).pqcPk = some pk →
            (serverHelloMeta e s).pqcPkLen = kem.lengthPublicKey) := by
  have hquantum : combo.profile = profilePureQuantum →
      combo.profile ≠ profileHybrid ∧ combo.profile ≠ profilePureClassical := by
    intro hprofile
    rw [hprofile]
    decide
  constructor
  · intro h hprofile priv kem pk hstarts hhello hnew hpk
    -- the client would have to give up on a key of another length, but does not fail on it
    by_contra hlen
    have hfailed := (h.givesUp fun kem' pk' hnew' hkey => hlen <| by
      obtain rfl : kem = kem' := Option.some.inj (hnew.symm.trans hnew')
      exact hkey.announced).1
    obtain ⟨reads, hobs⟩ := obs_sequentialHandshake hstarts hhello
    have hval := val_quantumSecrets_ne_failed (e := e) (s := afterServerHello e s) hnew hpk
    rw [obs_dispatchHandshake, hobs, Obs.after_val, sequentialFinish, ConnEnv.obs_bind,
      Obs.andThen_val, sequentialSecrets, if_neg (hquantum hprofile).1,
      if_neg (hquantum hprofile).2, if_pos hprofile] at hfailed
    generalize (env.obs (afterServerHello e s)
      (quantumSecrets e combo (serverHelloOf e s))).val = secrets at hval hfailed
    cases secrets with
    | crashed => cases hfailed
    | failed => exact hval rfl
    | ok cSecret qSecret =>
      rw [obs_finishHandshake] at hfailed
      cases hfailed
  · intro h
    refine ⟨fun kem pk hcalled => ?_, fun hnot => ?_⟩
    · obtain ⟨priv, hstarts, hhello, hcalled⟩ := called_dispatchHandshake.1 hcalled
      rcases hkem with hprofile | hprofile
      -- a hybrid client checks the length, a pure quantum one relies on it
      · obtain ⟨hpk, hlen⟩ := called_inline_hybridSecrets hprofile hcalled
        exact ⟨hhello, (length_pqcPk hhello hpk).symm.trans hlen, hpk⟩
      · rw [clientSecrets, if_neg (hquantum hprofile).1, if_neg (hquantum hprofile).2,
          if_pos hprofile, PoolProg.inline_lift, ConnEnv.called_bind,
          or_iff_left (by simp)] at hcalled
        obtain ⟨hnew, hpk⟩ := called_quantumSecrets hcalled
        exact ⟨hhello, h hprofile priv kem pk hstarts hhello hnew hpk, hpk⟩
    · rw [obs_dispatchHandshake]
      rcases hkem with hprofile | hprofile
      · refine hybridHandshake_not hprofile fun privKey peerPub hcalled henc => ?_
        obtain ⟨kem, pk, hnew, -, -, hpk, hlen, -⟩ := henc
        exact absurd ⟨hcalled.hello, (length_pqcPk hcalled.hello hpk).symm.trans hlen, hpk⟩
          (hnot kem pk hnew)
      · by_cases hgets : ∃ priv, Starts e env combo host kdfType dispatchMode priv ∧
          ServerHelloComplete e env s
        · obtain ⟨priv, hstarts, hhello⟩ := hgets
          obtain ⟨reads, hobs⟩ := obs_sequentialHandshake hstarts hhello
          have hfailed := obs_quantumSecrets_failed (e := e) (s := afterServerHello e s)
            fun kem pk hnew hpk => hnot kem pk hnew
              ⟨hhello, h hprofile priv kem pk hstarts hhello hnew hpk, hpk⟩
          rw [hobs, sequentialFinish, ConnEnv.obs_bind, sequentialSecrets,
            if_neg (hquantum hprofile).1, if_neg (hquantum hprofile).2, if_pos hprofile, hfailed]
          simp [Obs.andThen, msgTypeOf_clientHello, wireMsgClientHello, wireMsgPqcCiphertext]
        · exact obs_sequentialHandshake_not fun priv hstarts hhello =>
            hgets ⟨priv, hstarts, hhello⟩

end Runs

end Dispatch

/-! ## The client of the JSON protocol -/

namespace Baseline

variable (env : JsonEnv) (combo : AlgoCombo) (s : List (Option Json)) (host kdfType : CString)

/-- The key in the message of the server is complete: what it is decoded to has the length
    of the keys of the KEM. -/
def CompleteKey (kem : OqsKem) (pk : List UInt8) : Prop :=
  ∃ resp rest qPkB64, s = some resp :: rest ∧ resp.getStr "q_pk" = some qPkB64 ∧
    (b64Decode qPkB64 kem.lengthPublicKey).eval env.sys = some pk ∧
    pk.length = kem.lengthPublicKey

/-- The client only encapsulates to a complete key, and gives up before it sends a
    ciphertext if there is none. -/
structure KeyChecked : Prop where
  complete : ∀ kem pk, env.Called s (executeHandshake host combo kdfType) (.oqsKemEncaps kem pk) →
    CompleteKey env s kem pk
  givesUp : (∀ kem pk, env.sys (.oqsKemNew combo.pqcName) = some kem → ¬CompleteKey env s kem pk) →
    let o := env.obs s (executeHandshake host combo kdfType)
    o.val = .failed ∧ NoCiphertext o.sent

section Only

variable {combo} {host kdfType} {priv : Option EvpPkey} {resp : Json}

theorem only_sendClientHello : Conn.Only NotKem (sendClientHello host combo kdfType) := by
  have hselect : Conn.Only NotKem (sendProfileSelect combo kdfType) := by
    rw [sendProfileSelect, Conn.only_ite]
    split
    · exact .bind (Conn.only_lift.2 all_b64Encode) fun _ => .bind only_sendJsonLine fun _ =>
        Conn.only_lift.2 all_freeIf
    · exact only_sendJsonLine
  have hpub : ∀ pub, Conn.Only NotKem (sendPub combo pub) := by
    intro pub
    rw [sendPub, Conn.only_ite]
    split
    · exact .bind (Conn.only_lift.2 all_b64Encode) fun _ => .bind only_sendJsonLine fun _ =>
        Conn.only_lift.2 all_freeIf
    · trivial
  simp only [sendClientHello, Conn.sys_eq, Prog.call_bind, Prog.ret_bind, Conn.only_call_sys,
    Conn.only_ite]
  refine ⟨by simp [NotKem], fun socket => ?_⟩
  split
  · trivial
  refine ⟨by simp [NotKem], fun connected => ?_⟩
  split
  · simp
  refine ⟨by simp [NotKem], fun _ => .bind hselect fun _ =>
    .bind (Conn.only_lift.2 all_clientKeygen) ?_⟩
  intro keys
  cases keys with
  | none => simp
  | some keys => exact .bind (hpub keys.2) fun _ => trivial

theorem only_finishHandshake {tStart : ℚ} {cSecret qSecret : Secret} :
    Conn.Only NotKem (finishHandshake combo kdfType tStart cSecret qSecret) :=
  .bind (Conn.only_lift.2 all_deriveSessionKey) fun _ => .bind only_recvJsonLine fun _ => by
    simp [NotKem]

theorem all_clientSecret : (clientSecret combo priv resp).All NotKem := by
  refine .bind ?_ fun _ => .bind all_classicalSecret fun _ => .bind all_freePkey fun _ => trivial
  rw [decodePub]
  cases resp.getStr "c_pub" with
  | none => trivial
  | some b64 => exact all_b64Decode.bind fun _ => trivial

theorem only_sendCiphertext {ct : List UInt8} : Conn.Only NotKem (sendCiphertext ct) :=
  .bind (Conn.only_lift.2 all_b64Encode) fun _ => .bind only_sendJsonLine fun _ =>
    .bind (Conn.only_lift.2 all_freeIf) fun _ => by simp [NotKem]

theorem only_finishHybrid {cSecret : Secret} {out : Option (Secret × List UInt8)} :
    Conn.Only NotKem (finishHybrid cSecret out) := by
  cases out with
  | none => simp [finishHybrid]
  | some out =>
    simp only [finishHybrid, Conn.only_ite]
    split
    · simp [NotKem]
    · exact .bind only_sendCiphertext fun _ => trivial

end Only

/-! ### Its runs -/

section Runs

variable {env combo s} {host kdfType} {priv : Option EvpPkey} {resp : Json} {kem : OqsKem}
  {pk : List UInt8}

theorem called_executeHandshake
    (h : env.Called s (executeHandshake host combo kdfType) (.oqsKemEncaps kem pk)) :
    ∃ priv resp rest, Starts env combo host priv ∧ s = some resp :: rest ∧
      env.Called rest (clientSecrets combo priv resp) (.oqsKemEncaps kem pk) := by
  have hnot : ∀ {α : Type} {s : List (Option Json)} {p : JsonNet α}, Conn.Only NotKem p →
      ¬env.Called s p (.oqsKemEncaps kem pk) := fun hp h => (h.of_only _ _ hp).1 kem pk rfl
  rw [executeHandshake, ConnEnv.called_bind, or_iff_right (hnot only_sendClientHello)] at h
  by_cases hstarts : ∃ priv, Starts env combo host priv
  · obtain ⟨priv, hstarts⟩ := hstarts
    obtain ⟨sent, -, hobs⟩ := @obs_sendClientHello env combo s host kdfType _ hstarts
    rw [hobs] at h
    dsimp only at h
    rw [ConnEnv.called_bind, or_iff_right (hnot only_recvJsonLine)] at h
    obtain _ | ⟨_ | resp, rest⟩ := s
    · rw [obs_recvJsonLine_nil] at h
      exact absurd h (hnot (.bind (Conn.only_lift.2 all_freePkey) fun _ => by simp))
    · rw [obs_recvJsonLine_cons] at h
      exact absurd h (hnot (.bind (Conn.only_lift.2 all_freePkey) fun _ => by simp))
    · rw [obs_recvJsonLine_cons] at h
      dsimp only at h
      rw [ConnEnv.called_bind] at h
      rcases h with h | h
      · exact ⟨priv, resp, rest, hstarts, rfl, h⟩
      · -- nothing after the secrets encapsulates
        generalize (env.obs rest (clientSecrets combo priv resp)).val = secrets at h
        cases secrets with
        | ok cSecret qSecret => exact absurd h (hnot only_finishHandshake)
        | _ => exact absurd h (hnot trivial)
  · rw [(@obs_sendClientHello_not env combo s host kdfType fun priv h => hstarts ⟨priv, h⟩).1] at h
    exact absurd h (hnot trivial)

theorem called_clientPqcEncapsWorker {qPkB64 : CString}
    (h : (clientPqcEncapsWorker combo.pqcName qPkB64).Called env.sys (.oqsKemEncaps kem pk)) :
    (b64Decode qPkB64 kem.lengthPublicKey).eval env.sys = some pk ∧
      pk.length = kem.lengthPublicKey := by
  have hdecode : ∀ n, ¬(b64Decode qPkB64 n).Called env.sys (.oqsKemEncaps kem pk) :=
    fun n h => (h.of_all all_b64Decode).1 kem pk rfl
  simp only [clientPqcEncapsWorker, Prog.op_eq, Prog.call_bind, Prog.ret_bind, Prog.called_call,
    reduceCtorEq, false_or] at h
  cases hnew : env.sys (.oqsKemNew combo.pqcName) with
  | none =>
    rw [hnew] at h
    simp at h
  | some kem' =>
    rw [hnew] at h
    simp only [Prog.called_call, reduceCtorEq, false_or, Prog.called_ite, Prog.called_bind,
      hdecode] at h
    split at h
    · simp [freeIf] at h
    · cases hkey : ((b64Decode qPkB64 kem'.lengthPublicKey).eval env.sys).filter
          (·.length = kem'.lengthPublicKey) with
      | none =>
        rw [hkey] at h
        simp at h
      | some pk' =>
        obtain ⟨hpk, hlen⟩ := Option.filter_eq_some_iff.1 hkey
        rw [hkey] at h
        simp at h
        obtain ⟨rfl, rfl⟩ := h
        exact ⟨hpk, of_decide_eq_true hlen⟩

theorem called_hybridSecrets (h : env.Called s (hybridSecrets combo priv resp)
    (.oqsKemEncaps kem pk)) :
    ∃ qPkB64, resp.getStr "q_pk" = some qPkB64 ∧
      (b64Decode qPkB64 kem.lengthPublicKey).eval env.sys = some pk ∧
      pk.length = kem.lengthPublicKey := by
  have hnot : ∀ {α : Type} {s : List (Option Json)} {p : JsonNet α}, Conn.Only NotKem p →
      ¬env.Called s p (.oqsKemEncaps kem pk) := fun hp h => (h.of_only _ _ hp).1 kem pk rfl
  rw [hybridSecrets] at h
  cases hqPk : resp.getStr "q_pk" with
  | none =>
    rw [hqPk] at h
    exact absurd h (hnot (.bind (Conn.only_lift.2 all_freePkey) fun _ => by simp))
  | some qPkB64 =>
    rw [hqPk] at h
    simp only [Conn.sys_eq, Conn.monadLift_eq, Prog.call_bind, Prog.ret_bind,
      ConnEnv.called_call_sys, reduceCtorEq, false_or] at h
    rw [ConnEnv.called_bind, or_iff_right (hnot (Conn.only_lift.2 all_clientSecret)),
      ConnEnv.called_bind, or_iff_left (hnot only_finishHybrid), ConnEnv.called_lift,
      Prog.called_ite] at h
    split at h
    · exact ⟨qPkB64, rfl, called_clientPqcEncapsWorker h⟩
    · simp at h

theorem called_quantumSecrets (h : env.Called s (quantumSecrets combo resp)
    (.oqsKemEncaps kem pk)) :
    ∃ qPkB64, env.sys (.oqsKemNew combo.pqcName) = some kem ∧ resp.getStr "q_pk" = some qPkB64 ∧
      pk = ((env.sys (.contents .publicKeyDecoded kem.lengthPublicKey)).memcpy
        (((b64Decode qPkB64 kem.lengthPublicKey).eval env.sys).getD [])).1 := by
  have hsend : ∀ s ct, ¬env.Called s (sendCiphertext ct) (.oqsKemEncaps kem pk) :=
    fun s ct h => (h.of_only _ _ only_sendCiphertext).1 kem pk rfl
  have hdecode : ∀ b64 n, ¬(b64Decode b64 n).Called env.sys (.oqsKemEncaps kem pk) :=
    fun b64 n h => (h.of_all all_b64Decode).1 kem pk rfl
  simp only [quantumSecrets, Conn.sys_eq, Prog.call_bind, Prog.ret_bind,
    ConnEnv.called_call_sys, reduceCtorEq, false_or] at h
  cases hnew : env.sys (.oqsKemNew combo.pqcName) with
  | none => cases hqPk : resp.getStr "q_pk" <;> simp [hnew, hqPk] at h
  | some kem' =>
    cases hqPk : resp.getStr "q_pk" with
    | none => simp [hnew, hqPk] at h
    | some qPkB64 =>
      simp only [hnew, hqPk, ConnEnv.called_call_sys, reduceCtorEq, false_or] at h
      split at h
      · exact absurd h (by simp)
      · simp only [ConnEnv.called_call_sys, ConnEnv.called_bind, Conn.monadLift_eq,
          ConnEnv.called_lift, hdecode, hsend, reduceCtorEq, false_or, ConnEnv.obs_lift,
          Prog.pure_eq, ConnEnv.not_called_ret, or_false, Prim.oqsKemEncaps.injEq] at h
        obtain ⟨rfl, rfl⟩ := h
        exact ⟨qPkB64, rfl, rfl, rfl⟩

/-- With a suite that has the KEM alone, the client gives up if there is no KEM, or no key, -/
theorem obs_quantumSecrets_failed
    (h : ∀ kem qPkB64, env.sys (.oqsKemNew combo.pqcName) = some kem →
      resp.getStr "q_pk" ≠ some qPkB64) :
    env.obs s (quantumSecrets combo resp) = ⟨.failed, s, [], [], true⟩ := by
  simp only [quantumSecrets, Conn.sys_eq, Prog.call_bind, Prog.ret_bind, ConnEnv.obs_call_sys]
  cases hnew : env.sys (.oqsKemNew combo.pqcName) with
  | none => simp [Obs.shut]
  | some kem =>
    cases hpk : resp.getStr "q_pk" with
    | none => simp [Obs.shut]
    | some qPkB64 => exact absurd hpk (h kem qPkB64 hnew)

/-- and only then. -/
theorem val_quantumSecrets_ne_failed {qPkB64 : CString}
    (hnew : env.sys (.oqsKemNew combo.pqcName) = some kem)
    (hqPk : resp.getStr "q_pk" = some qPkB64) :
    (env.obs s (quantumSecrets combo resp)).val ≠ .failed := by
  simp only [quantumSecrets, Conn.sys_eq, Prog.call_bind, Prog.ret_bind, ConnEnv.obs_call_sys,
    hnew, hqPk]
  cases env.sys (.malloc .ciphertext kem.lengthCiphertext) <;>
    cases env.sys (.malloc .sharedSecret kem.lengthSharedSecret) <;>
    cases env.sys (.malloc .publicKeyDecoded kem.lengthPublicKey) <;>
    simp [Conn.monadLift_eq, Obs.map]

theorem key_checked_iff (hkem : combo.HasKem) :
    KeyChecked env combo s host kdfType ↔
      (combo.profile = profilePureQuantum → ∀ priv resp rest kem qPkB64,
        Starts env combo host priv → s = some resp :: rest →
          env.sys (.oqsKemNew combo.pqcName) = some kem → resp.getStr "q_pk" = some qPkB64 →
            ∃ pk, (b64Decode qPkB64 kem.lengthPublicKey).eval env.sys = some pk ∧
              pk.length = kem.lengthPublicKey) := by
  have hquantum : combo.profile = profilePureQuantum →
      combo.profile ≠ profileHybrid ∧ combo.profile ≠ profilePureClassical := by
    intro hprofile
    rw [hprofile]
    decide
  constructor
  · rintro h hprofile priv resp rest kem qPkB64 hstarts rfl hnew hqPk
    -- here too the client does not fail on what it cannot decode
    by_contra hnot
    have hfailed := (h.givesUp fun kem' pk' hnew' hkey => hnot <| by
      obtain rfl : kem = kem' := Option.some.inj (hnew.symm.trans hnew')
      obtain ⟨resp', rest', qPkB64', heq, hqPk', hdecode, hlen⟩ := hkey
      obtain ⟨⟨rfl⟩, rfl⟩ := List.cons.inj heq
      obtain rfl : qPkB64 = qPkB64' := Option.some.inj (hqPk.symm.trans hqPk')
      exact ⟨pk', hdecode, hlen⟩).1
    obtain ⟨sent, -, hobs⟩ := @obs_executeHandshake env combo rest host kdfType _ resp hstarts
    have hval := @val_quantumSecrets_ne_failed env combo rest resp kem _ hnew hqPk
    rw [hobs, Obs.after_val, finishFrom, ConnEnv.obs_bind, Obs.andThen_val, clientSecrets,
      if_neg (hquantum hprofile).1, if_neg (hquantum hprofile).2, if_pos hprofile] at hfailed
    generalize (env.obs rest (quantumSecrets combo resp)).val = secrets at hval hfailed
    cases secrets with
    | crashed => cases hfailed
    | failed => exact hval rfl
    | ok cSecret qSecret =>
      obtain ⟨key, hfinish⟩ := @obs_finishHandshake env combo
        (env.obs rest (quantumSecrets combo resp)).rest kdfType (env.sys (.nowMs .start)) cSecret
        qSecret
      simp only [hfinish] at hfailed
      cases hfailed
  · intro h
    refine ⟨fun kem pk hcalled => ?_, fun hnot => ?_⟩
    · obtain ⟨priv, resp, rest, hstarts, rfl, hsecrets⟩ := called_executeHandshake hcalled
      rcases hkem with hprofile | hprofile
      -- a hybrid client checks the key, a pure quantum one relies on it
      · rw [clientSecrets, if_pos hprofile] at hsecrets
        obtain ⟨qPkB64, hqPk, hkey⟩ := called_hybridSecrets hsecrets
        exact ⟨resp, rest, qPkB64, rfl, hqPk, hkey⟩
      · rw [clientSecrets, if_neg (hquantum hprofile).1, if_neg (hquantum hprofile).2,
          if_pos hprofile] at hsecrets
        obtain ⟨qPkB64, hnew, hqPk, rfl⟩ := called_quantumSecrets hsecrets
        obtain ⟨pk, hdecode, hlen⟩ := h hprofile priv resp rest kem qPkB64 hstarts rfl hnew hqPk
        refine ⟨resp, rest, qPkB64, rfl, hqPk, ?_, (Bytes.memcpy _ _).2⟩
        -- the whole buffer is written
        rw [hdecode, Option.getD_some, Bytes.memcpy_val _ hlen.le,
          List.drop_eq_nil_of_le (by rw [hlen, (env.sys (.contents ..)).2]), List.append_nil]
    · rcases hkem with hprofile | hprofile
      · refine hybridHandshake_not hprofile fun privKey peerPub hcalled henc => ?_
        obtain ⟨resp, rest, heq, qPkB64, hqPk, -, kem, pk, hnew, -, -, -, hdecode, hlen, -⟩ := henc
        exact absurd ⟨resp, rest, qPkB64, heq, hqPk, hdecode, hlen⟩ (hnot kem pk hnew)
      · by_cases hgets : ∃ priv resp rest, Starts env combo host priv ∧ s = some resp :: rest
        · obtain ⟨priv, resp, rest, hstarts, rfl⟩ := hgets
          obtain ⟨sent, hsent, hobs⟩ :=
            @obs_executeHandshake env combo rest host kdfType _ resp hstarts
          have hfailed := @obs_quantumSecrets_failed env combo rest resp fun kem qPkB64 hnew hqPk => by
            obtain ⟨pk, hdecode, hlen⟩ := h hprofile priv resp rest kem qPkB64 hstarts rfl hnew hqPk
            exact hnot kem pk hnew ⟨resp, rest, qPkB64, rfl, hqPk, hdecode, hlen⟩
          rw [hobs, finishFrom, ConnEnv.obs_bind, clientSecrets, if_neg (hquantum hprofile).1,
            if_neg (hquantum hprofile).2, if_pos hprofile, hfailed]
          simp [Obs.andThen, hsent]
        · exact obs_executeHandshake_not fun priv hstarts resp rest heq =>
            hgets ⟨priv, resp, rest, hstarts, heq⟩

end Runs

end Baseline

/-! ## Both clients -/

section Samples

variable {n : ℕ}

/-- A `ServerHello` with a KEM key of zeros alone. -/
def kemServerHello (n : ℕ) : List UInt8 := Dispatch.serverHello .little mlkem768Only [] (zeros n)

theorem pqcPk_kemServerHello (hpos : n > 0) (hn : n < 2 ^ 32) :
    (Dispatch.serverHelloOf .little (kemServerHello n)).pqcPk = some (zeros n) := by
  rw [kemServerHello, Dispatch.serverHelloOf_serverHello (Nat.zero_le _) (by rwa [length_zeros]),
    length_zeros, if_pos hpos]

theorem serverHelloComplete_kemServerHello (hn : n < 2 ^ 32) :
    Dispatch.ServerHelloComplete .little (.reliable (PrimEnv.zeros true)) (kemServerHello n) :=
  Dispatch.serverHelloComplete_serverHello (Nat.zero_le _) (by rwa [length_zeros]) rfl

theorem pqcPkLen_kemServerHello (hn : n < 2 ^ 32) :
    (Dispatch.serverHelloMeta .little (kemServerHello n)).pqcPkLen = n := by
  rw [kemServerHello, Dispatch.serverHelloMeta_serverHello (Nat.zero_le _) (by rwa [length_zeros]),
    length_zeros]

/-- A message with a KEM key of zeros alone. -/
def kemObject (chars : ℕ) : Json := .object [(cstr "q_pk", .string (zerosB64 chars))]

/-- The same as a line. -/
def kemLine (chars : ℕ) : List UInt8 :=
  cstr "\x7b\"q_pk\":\"" ++ zerosB64 chars ++ cstr "\"\x7d\n"

theorem jsonLines_kemLine (chars : ℕ) :
    jsonLines (fun _ => some (kemObject chars)) (kemLine chars) = [some (kemObject chars)] := by
  have hline : kemLine chars =
      (cstr "\x7b\"q_pk\":\"" ++ (zerosB64 chars ++ cstr "\"\x7d")) ++ 10 :: [] := by
    simp [kemLine, cstr]
  have htext : InLine (cstr "\x7b\"q_pk\":\"" ++ (zerosB64 chars ++ cstr "\"\x7d")) :=
    (inLine_of_all (by decide)).append ((inLine_zerosB64 _).append (inLine_of_all (by decide)))
  rw [hline, jsonLines_append _ htext]
  rfl

end Samples

end HybridPqc
