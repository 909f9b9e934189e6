import HybridPqc.Dispatch.Client
import HybridPqc.Dispatch.ServerSecrets

/-!
# The runs of the client of the binary protocol

What `execute_dispatch_handshake` shows, for any stream of the server and any outcome
of the calls. It does not show whether the KEM operation is made inline or by a
worker (`obs_dispatchHandshake`).
-/

namespace HybridPqc

open Handoff

namespace Dispatch

variable (e : Endian) (env : NetEnv) (combo : AlgoCombo) (s : List UInt8)

/-! ## Inline -/

/-- The secrets, in sequence. -/
def sequentialSecrets (priv : Option EvpPkey) (hello : ServerHello) : Net ClientSecrets := do
  if combo.profile = profileHybrid then
    let out ← encapsInline ⟨combo.pqcName, none, hello.pqcPk⟩
    let cSecret ← (clientSecret combo priv hello : Sys _)
    finishHybrid e combo hello cSecret out
  else if combo.profile = profilePureClassical then
    let cSecret ← (clientSecret combo priv hello : Sys _)
    return .ok cSecret .none
  else if combo.profile = profilePureQuantum then
    quantumSecrets e combo hello
  else
    return .ok .none .none

/-- The handshake, in sequence. -/
def sequentialHandshake (host : CString) (kdfType dispatchMode : CString) : Net ClientEnd := do
  match ← sendClientHello e host combo kdfType dispatchMode with
  | none => return .failed
  | some start =>
    match ← recvServerHello e with
    | none => abortHandshake start.priv
    | some hello =>
      match ← sequentialSecrets e combo start.priv hello with
      | .crashed => return .crashed
      | .failed => return .failed
      | .ok cSecret qSecret => finishHandshake e combo kdfType start.tStart cSecret qSecret

section Inline

variable {e env combo s} {route : DispatchRoute} {ready : Bool}

/-- Where the KEM operation is made: the pool is started if need be. -/
theorem inline_dispatchEncaps {args : PQCEncapsArgs} :
    PoolProg.inline encapsInline (dispatchEncaps route args) ready none =
      if route = .parallel then
        if ready then .ret (true, true, some args)
        else .call (.sys .pthreadCreate) fun created =>
          .ret (created, created, if created then some args else none)
      else .ret (false, ready, none) := by
  cases route with
  | sequential => simp [dispatchEncaps]
  | parallel =>
    cases ready with
    | true => simp [dispatchEncaps]
    | false =>
      simp only [dispatchEncaps, clientWorkerInit, if_true, Prog.op_eq, Prog.call_bind,
        Prog.ret_bind, Prog.pure_eq, PoolProg.inline_ready, Bool.not_false,
        Bool.false_eq_true, if_false, Conn.sys_eq, PoolProg.lift_call, PoolProg.lift_ret,
        PoolProg.inline_sys, PoolProg.inline_start, PoolProg.inline_ret, PoolProg.inline_ite]
      refine congrArg (Prog.call _) (funext fun created => ?_)
      cases created <;> rfl

/-- The hybrid secrets, the classical one first, as when a worker makes the KEM operation. -/
def classicalFirst (e : Endian) (combo : AlgoCombo) (priv : Option EvpPkey) (hello : ServerHello)
    (pool : Bool × Option PQCEncapsArgs) :
    Net (ClientSecrets × Bool × Option PQCEncapsArgs) := do
  let cSecret ← (clientSecret combo priv hello : Sys _)
  let out ← encapsInline ⟨combo.pqcName, none, hello.pqcPk⟩
  let secrets ← finishHybrid e combo hello cSecret out
  return (secrets, pool)

/-- The hybrid secrets, the KEM operation first. -/
def kemFirst (e : Endian) (combo : AlgoCombo) (priv : Option EvpPkey) (hello : ServerHello)
    (pool : Bool × Option PQCEncapsArgs) :
    Net (ClientSecrets × Bool × Option PQCEncapsArgs) := do
  let out ← encapsInline ⟨combo.pqcName, none, hello.pqcPk⟩
  let cSecret ← (clientSecret combo priv hello : Sys _)
  let secrets ← finishHybrid e combo hello cSecret out
  return (secrets, pool)

/-- The hybrid secrets are computed in one of these orders, after the creation of a thread
    in some cases. -/
theorem inline_hybridSecrets_cases {priv : Option EvpPkey} {hello : ServerHello}
    {M : Net (ClientSecrets × Bool × Option PQCEncapsArgs) → Prop}
    (hcreate : ∀ k, (∀ created, M (k created)) → M (.call (.sys .pthreadCreate) k))
    (hclassical : ∀ pool, M (classicalFirst e combo priv hello pool))
    (hkem : ∀ pool, M (kemFirst e combo priv hello pool)) :
    M (PoolProg.inline encapsInline (hybridSecrets e combo route priv hello) ready none) := by
  simp only [classicalFirst, kemFirst, Conn.monadLift_eq, Prog.pure_eq] at hclassical hkem
  simp only [hybridSecrets, PoolProg.inline_bind, inline_dispatchEncaps]
  cases route with
  | sequential =>
    simp only [if_neg (nofun : ¬DispatchRoute.sequential = .parallel), Prog.ret_bind,
      Bool.false_eq_true, if_false, PoolProg.inline_bind, PoolProg.inline_lift, Prog.bind_assoc]
    exact hkem (ready, none)
  | parallel =>
    cases ready with
    | true =>
      simp only [if_true, Prog.ret_bind, PoolProg.inline_bind, PoolProg.inline_lift, Prog.bind_assoc,
        Prog.op_eq, Prog.call_bind, PoolProg.inline_await]
      exact hclassical (true, none)
    | false =>
      simp only [if_true, Bool.false_eq_true, if_false, Prog.call_bind]
      refine hcreate _ fun created => ?_
      cases created with
      | true =>
        simp only [if_true, Prog.ret_bind, PoolProg.inline_bind, PoolProg.inline_lift,
          Prog.bind_assoc, Prog.op_eq, Prog.call_bind, PoolProg.inline_await]
        exact hclassical (true, none)
      | false =>
        simp only [Bool.false_eq_true, if_false, Prog.ret_bind, PoolProg.inline_bind,
          PoolProg.inline_lift, Prog.bind_assoc]
        exact hkem (false, none)

/-- The hybrid secrets do not show where the KEM operation is made. -/
theorem obs_inline_hybridSecrets {priv : Option EvpPkey} {hello : ServerHello} :
    (env.obs s (PoolProg.inline encapsInline (hybridSecrets e combo route priv hello) ready
      none)).map Prod.fst =
      env.obs s (finishHybrid e combo hello ((clientSecret combo priv hello).eval env.sys)
        ((clientPqcEncapsWorker ⟨combo.pqcName, none, hello.pqcPk⟩ .init).eval env.sys)) := by
  refine inline_hybridSecrets_cases (M := fun p => (env.obs s p).map Prod.fst = env.obs s _)
    (fun k hk => hk _) (fun pool => ?_) fun pool => ?_
  · simp [classicalFirst, encapsInline, Conn.monadLift_eq]
    rfl
  · simp [kemFirst, encapsInline, Conn.monadLift_eq]
    rfl

/-- The secrets do not show where the KEM operation is made. -/
theorem obs_inline_clientSecrets {priv : Option EvpPkey} {hello : ServerHello} :
    (env.obs s (PoolProg.inline encapsInline (clientSecrets e combo route priv hello) ready
      none)).map Prod.fst = env.obs s (sequentialSecrets e combo priv hello) := by
  simp only [clientSecrets, sequentialSecrets]
  split_ifs
  · rw [obs_inline_hybridSecrets]
    simp [encapsInline, Conn.monadLift_eq]
  · simp [Conn.monadLift_eq]
    rfl
  · simp
    rfl
  · rfl

/-- The handshake with the secrets inline. -/
theorem dispatchHandshake_eq {host kdfType dispatchMode : CString} :
    dispatchHandshake e host combo kdfType dispatchMode route ready = (do
      match ← sendClientHello e host combo kdfType dispatchMode with
      | none => return .failed
      | some start =>
        match ← recvServerHello e with
        | none => abortHandshake start.priv
        | some hello =>
          let secrets ←
            PoolProg.inline encapsInline (clientSecrets e combo route start.priv hello) ready none
          match secrets.1 with
          | .crashed => return .crashed
          | .failed => return .failed
          | .ok cSecret qSecret => finishHandshake e combo kdfType start.tStart cSecret qSecret) := by
  simp only [dispatchHandshake, executeDispatchHandshake, PoolProg.inline_bind,
    PoolProg.inline_lift, Prog.bind_assoc, Prog.ret_bind, Prog.pure_eq]
  refine congrArg (_ >>= ·) (funext fun start => ?_)
  obtain _ | start := start
  · rfl
  simp only [PoolProg.inline_bind, PoolProg.inline_lift, Prog.bind_assoc, Prog.ret_bind]
  refine congrArg (_ >>= ·) (funext fun hello => ?_)
  obtain _ | hello := hello
  · simp [Prog.bind_ret]
  simp only [PoolProg.inline_bind, Prog.bind_assoc]
  refine congrArg (_ >>= ·) (funext fun secrets => ?_)
  obtain ⟨secrets, ready', pending⟩ := secrets
  cases secrets <;> simp [Prog.bind_ret]

theorem obs_dispatchHandshake {host kdfType dispatchMode : CString} :
    env.obs s (dispatchHandshake e host combo kdfType dispatchMode route ready) =
      env.obs s (sequentialHandshake e combo host kdfType dispatchMode) := by
  rw [dispatchHandshake_eq, sequentialHandshake, ConnEnv.obs_bind, ConnEnv.obs_bind]
  congr 1
  funext start s
  obtain _ | start := start
  · rfl
  simp only [ConnEnv.obs_bind]
  congr 1
  funext hello s
  obtain _ | hello := hello
  · rfl
  simp only [ConnEnv.obs_bind]
  rw [← @obs_inline_clientSecrets e env combo s route ready]
  rfl

end Inline

/-! ## What the server sends -/

/-- The header of a `ServerHello`, as the beginning of a stream has it. -/
def serverHelloHeader : WireHeader := WireHeader.ofBytes e (s.take WireHeader.size)

/-- What comes after it. -/
def serverHelloMeta : ServerHelloMeta :=
  ServerHelloMeta.ofBytes e ((s.drop WireHeader.size).take ServerHelloMeta.size)

theorem ofBytes_take_eq_serverHelloHeader :
    WireHeader.ofBytes e (s.take WireHeader.size) = serverHelloHeader e s := rfl

theorem ofBytes_take_eq_serverHelloMeta :
    ServerHelloMeta.ofBytes e ((s.drop WireHeader.size).take ServerHelloMeta.size) =
      serverHelloMeta e s := rfl

def afterServerHelloMeta : List UInt8 := (s.drop WireHeader.size).drop ServerHelloMeta.size

def afterServerPub : List UInt8 := (afterServerHelloMeta s).drop (serverHelloMeta e s).srvPubLen

theorem drop_drop_eq_afterServerHelloMeta :
    (s.drop WireHeader.size).drop ServerHelloMeta.size = afterServerHelloMeta s := rfl

theorem drop_eq_afterServerPub :
    (afterServerHelloMeta s).drop (serverHelloMeta e s).srvPubLen = afterServerPub e s := rfl

/-- The keys in a `ServerHello`. -/
def serverHelloOf : ServerHello where
  srvPub := (afterServerHelloMeta s).take (serverHelloMeta e s).srvPubLen
  pqcPk := if (serverHelloMeta e s).pqcPkLen > 0 then
    some ((afterServerPub e s).take (serverHelloMeta e s).pqcPkLen) else none

def afterServerHello : List UInt8 := (afterServerPub e s).drop (serverHelloMeta e s).pqcPkLen

/-- It has the right header and is complete, its classical key fits in the buffer, and
    there is room for the other. -/
structure ServerHelloComplete : Prop where
  length : WireHeader.size + ServerHelloMeta.size + (serverHelloMeta e s).srvPubLen +
    (serverHelloMeta e s).pqcPkLen ≤ s.length
  magic : (serverHelloHeader e s).magic = wireMagic
  msgType : (serverHelloHeader e s).msgType = wireMsgServerHello
  srvPub : (serverHelloMeta e s).srvPubLen ≤ maxPubKeyBytes
  alloc : (serverHelloMeta e s).pqcPkLen > 0 →
    env.sys (.malloc .publicKey (serverHelloMeta e s).pqcPkLen) = true

/-- The `Finished`, as the beginning of a stream has it: it has the right header, it is
    complete, and its status is `0`. -/
def FinishedGood : Prop :=
  WireHeader.size + 1 ≤ s.length ∧
    (WireHeader.ofBytes e (s.take WireHeader.size)).magic = wireMagic ∧
    (WireHeader.ofBytes e (s.take WireHeader.size)).msgType = wireMsgServerFinished ∧
    (s.drop WireHeader.size).take 1 = [0]

instance : Decidable (FinishedGood e s) := inferInstanceAs (Decidable (_ ∧ _ ∧ _ ∧ _))

/-! ## The parts of the handshake -/

/-- The `ClientHello` is sent. -/
structure Starts (host kdfType dispatchMode : CString) (priv : Option EvpPkey) : Prop where
  socket : env.sys .socket = true
  connect : env.sys (.connect host) = true
  generate : Generate env.sys combo priv
  alloc : env.sys (.malloc .helloPacket
    (clientHello e combo kdfType dispatchMode (exported env.sys combo priv)).length) = true
  send : env.send (clientHello e combo kdfType dispatchMode (exported env.sys combo priv)) = true

section Parts

variable {e env combo s} {host kdfType dispatchMode : CString} {priv : Option EvpPkey}

theorem msgTypeOf_clientHello {pub : List UInt8} :
    msgTypeOf e (clientHello e combo kdfType dispatchMode pub) = wireMsgClientHello := by
  simp only [msgTypeOf, clientHello, List.append_assoc, WireHeader.ofBytes_bytes_append]
  rfl

theorem obs_sendClientHello (h : Starts e env combo host kdfType dispatchMode priv) :
    env.obs s (sendClientHello e host combo kdfType dispatchMode) =
      ⟨some ⟨env.sys (.nowMs .start), priv⟩, s, [],
        [clientHello e combo kdfType dispatchMode (exported env.sys combo priv)], false⟩ := by
  simp [sendClientHello, Conn.monadLift_eq, h.socket, h.connect,
    eval_clientKeygen.2 ⟨h.generate, rfl⟩, h.alloc, h.send, Obs.wrote]

theorem obs_sendClientHello_not (h : ∀ priv, ¬Starts e env combo host kdfType dispatchMode priv) :
    (env.obs s (sendClientHello e host combo kdfType dispatchMode)).val = none ∧
      ∀ pkt ∈ (env.obs s (sendClientHello e host combo kdfType dispatchMode)).sent,
        msgTypeOf e pkt = wireMsgClientHello := by
  cases hsocket : env.sys .socket
  · simp [sendClientHello, hsocket]
  cases hconnect : env.sys (.connect host)
  · simp [sendClientHello, hsocket, hconnect]
  cases hkeygen : (clientKeygen combo).eval env.sys with
  | none => simp [sendClientHello, Conn.monadLift_eq, hsocket, hconnect, hkeygen]
  | some r =>
    obtain ⟨priv, pub⟩ := r
    obtain ⟨hgen, rfl⟩ := eval_clientKeygen.1 hkeygen
    cases halloc : env.sys (.malloc .helloPacket
        (clientHello e combo kdfType dispatchMode (exported env.sys combo priv)).length)
    · simp [sendClientHello, Conn.monadLift_eq, hsocket, hconnect, hkeygen, halloc]
    cases hsend : env.send (clientHello e combo kdfType dispatchMode (exported env.sys combo priv))
    · simp [sendClientHello, Conn.monadLift_eq, hsocket, hconnect, hkeygen, halloc, hsend,
        msgTypeOf_clientHello]
    · exact absurd ⟨hsocket, hconnect, hgen, halloc, hsend⟩ (h priv)

theorem obs_recvSrvPub (env : NetEnv) {n : ℕ} (hmax : n ≤ maxPubKeyBytes) (hn : n ≤ s.length) :
    ∃ reads, Obs.AllRead reads ∧
      env.obs s (recvSrvPub n) = ⟨some (s.take n), s.drop n, reads, [], false⟩ := by
  rw [recvSrvPub]
  split
  · rw [if_neg (by omega), Conn.recv_eq, ConnEnv.obs_call_recv, if_pos hn]
    exact ⟨_, by simp, rfl⟩
  · obtain rfl : n = 0 := by omega
    exact ⟨[], by simp, by simp⟩

theorem obs_recvSrvPub_not (env : NetEnv) {n : ℕ} (h : ¬(n ≤ maxPubKeyBytes ∧ n ≤ s.length)) :
    (env.obs s (recvSrvPub n)).val = none := by
  rw [recvSrvPub, if_pos (by omega)]
  split
  · rfl
  · rw [Conn.recv_eq, ConnEnv.obs_call_recv, if_neg (by omega)]
    rfl

theorem sent_recvSrvPub {n : ℕ} : (env.obs s (recvSrvPub n)).sent = [] := by
  simp only [recvSrvPub, Conn.recv_eq, Prog.pure_eq, ConnEnv.obs_ite, ConnEnv.obs_call_recv,
    ConnEnv.obs_ret]
  split_ifs <;> rfl

theorem obs_recvPqcPk {n : ℕ} (hn : n ≤ s.length)
    (halloc : n > 0 → env.sys (.malloc .publicKey n) = true) :
    ∃ reads, Obs.AllRead reads ∧ env.obs s (recvPqcPk n) =
      ⟨some (if n > 0 then some (s.take n) else none), s.drop n, reads, [], false⟩ := by
  rw [recvPqcPk, ConnEnv.obs_ite]
  split
  · rename_i hpos
    simp only [Conn.recv_eq, Conn.sys_eq, Prog.call_bind, Prog.ret_bind, Prog.pure_eq,
      ConnEnv.obs_call_sys, halloc hpos, Bool.not_true, Bool.false_eq_true, if_false,
      ConnEnv.obs_call_recv, if_pos hn, ConnEnv.obs_ret]
    exact ⟨_, by simp, rfl⟩
  · obtain rfl : n = 0 := by omega
    exact ⟨[], by simp, by simp⟩

theorem obs_recvPqcPk_not {n : ℕ}
    (h : ¬(n ≤ s.length ∧ (n > 0 → env.sys (.malloc .publicKey n) = true))) :
    (env.obs s (recvPqcPk n)).val = none := by
  have hpos : n > 0 := by
    by_contra hn
    exact h ⟨by omega, fun hpos => absurd hpos hn⟩
  rw [recvPqcPk, if_pos hpos]
  simp only [Conn.recv_eq, Conn.sys_eq, Prog.call_bind, Prog.ret_bind, Prog.pure_eq,
    ConnEnv.obs_call_sys, ConnEnv.obs_ite, ConnEnv.obs_call_recv, ConnEnv.obs_ret]
  cases halloc : env.sys (.malloc .publicKey n) with
  | false => rfl
  | true =>
    rw [if_neg (by simp), if_neg fun hn => h ⟨hn, fun _ => halloc⟩]
    rfl

theorem sent_recvPqcPk {n : ℕ} : (env.obs s (recvPqcPk n)).sent = [] := by
  simp only [recvPqcPk, Conn.recv_eq, Conn.sys_eq, Prog.call_bind, Prog.ret_bind, Prog.pure_eq,
    ConnEnv.obs_ite, ConnEnv.obs_call_sys, ConnEnv.obs_call_recv, ConnEnv.obs_ret]
  split_ifs <;> rfl

theorem obs_recvServerHello (h : ServerHelloComplete e env s) :
    ∃ reads, Obs.AllRead reads ∧ env.obs s (recvServerHello e) =
      ⟨some (serverHelloOf e s), afterServerHello e s, reads, [], false⟩ := by
  have hlen := h.length
  have hhdr : WireHeader.size ≤ s.length := by omega
  have hmeta : ServerHelloMeta.size ≤ (s.drop WireHeader.size).length := by
    rw [List.length_drop]
    omega
  have hpub : (serverHelloMeta e s).srvPubLen ≤ (afterServerHelloMeta s).length := by
    rw [afterServerHelloMeta, List.length_drop, List.length_drop]
    omega
  have hpk : (serverHelloMeta e s).pqcPkLen ≤ (afterServerPub e s).length := by
    rw [afterServerPub, afterServerHelloMeta, List.length_drop, List.length_drop, List.length_drop]
    omega
  obtain ⟨reads, hreads, hrecv⟩ := obs_recvSrvPub env h.srvPub hpub
  obtain ⟨reads', hreads', hrecv'⟩ := obs_recvPqcPk hpk h.alloc
  simp only [recvServerHello, Conn.recv_eq, Prog.call_bind, Prog.ret_bind, Prog.pure_eq,
    ConnEnv.obs_call_recv, if_pos hhdr, ConnEnv.obs_ite, ConnEnv.obs_ret, if_pos hmeta,
    ConnEnv.obs_bind]
  rw [ofBytes_take_eq_serverHelloHeader, ofBytes_take_eq_serverHelloMeta,
    if_neg (by simp [h.magic, h.msgType]), drop_drop_eq_afterServerHelloMeta, hrecv]
  simp only [Obs.andThen, ConnEnv.obs_bind, drop_eq_afterServerPub, hrecv', ConnEnv.obs_ret]
  exact ⟨_, by simp [hreads, hreads'], rfl⟩

theorem obs_recvServerHello_not (h : ¬ServerHelloComplete e env s) :
    (env.obs s (recvServerHello e)).val = none ∧ (env.obs s (recvServerHello e)).sent = [] := by
  simp only [recvServerHello, Conn.recv_eq, Prog.call_bind, Prog.ret_bind, Prog.pure_eq,
    ConnEnv.obs_call_recv, ConnEnv.obs_ite, ConnEnv.obs_ret, ConnEnv.obs_bind]
  rw [ofBytes_take_eq_serverHelloHeader, ofBytes_take_eq_serverHelloMeta,
    drop_drop_eq_afterServerHelloMeta]
  by_cases hhdr : WireHeader.size ≤ s.length
  swap
  · simp [if_neg hhdr]
  rw [if_pos hhdr]
  by_cases hok : (serverHelloHeader e s).magic ≠ wireMagic ∨
      (serverHelloHeader e s).msgType ≠ wireMsgServerHello
  · simp [if_pos hok]
  rw [if_neg hok]
  by_cases hmeta : ServerHelloMeta.size ≤ (s.drop WireHeader.size).length
  swap
  · rw [if_neg hmeta]
    simp
  rw [if_pos hmeta]
  by_cases hpub : (serverHelloMeta e s).srvPubLen ≤ maxPubKeyBytes ∧
      (serverHelloMeta e s).srvPubLen ≤ (afterServerHelloMeta s).length
  swap
  · have hval := obs_recvSrvPub_not env hpub
    simp only [Obs.andThen, hval, sent_recvSrvPub]
    simp
  obtain ⟨reads, -, hrecv⟩ := obs_recvSrvPub env hpub.1 hpub.2
  have hval : (env.obs (afterServerPub e s) (recvPqcPk (serverHelloMeta e s).pqcPkLen)).val =
      none := by
    refine obs_recvPqcPk_not fun hpk => h ⟨?_, ?_, ?_, hpub.1, hpk.2⟩
    · have := hpk.1
      simp only [afterServerPub, afterServerHelloMeta, List.length_drop] at hpub hmeta this
      omega
    · exact not_not.1 fun hmagic => hok (.inl hmagic)
    · exact not_not.1 fun htype => hok (.inr htype)
  simp only [hrecv, Obs.andThen, ConnEnv.obs_bind, drop_eq_afterServerPub, hval, sent_recvPqcPk]
  simp

theorem obs_sendCiphertext {ct : List UInt8} :
    env.obs s (sendCiphertext e combo ct) =
      ⟨(), s, [], if env.sys (.malloc .ciphertextPacket (pqcCiphertext e combo ct).length) then
        [pqcCiphertext e combo ct] else [], false⟩ := by
  cases halloc : env.sys (.malloc .ciphertextPacket (pqcCiphertext e combo ct).length) <;>
    simp [sendCiphertext, halloc, Obs.wrote]

theorem eval_clientSecret {env : PrimEnv} {hello : ServerHello} :
    (clientSecret combo priv hello).eval env =
      (classicalSecret combo.classicalCurve priv hello.srvPub).eval env := by
  cases priv <;> simp [clientSecret]

theorem obs_finishHybrid {hello : ServerHello} {cSecret : Secret} {out : EncapsResult} :
    env.obs s (finishHybrid e combo hello cSecret out) =
      if out.success = true ∧ cSecret.len ≠ 0 then
        (env.obs s (sendCiphertext e combo (out.ct.getD []))).map fun _ => .ok cSecret out.qSecret
      else ⟨.failed, s, [], [], true⟩ := by
  by_cases hlen : cSecret.len = 0 <;>
    cases hsuccess : out.success <;>
    simp [finishHybrid, Conn.monadLift_eq, hlen, hsuccess, Obs.shut]

/-- With a suite that has no classical part, the secret is the one encapsulated, whether
    or not that succeeds. -/
theorem obs_quantumSecrets {hello : ServerHello} {kem : OqsKem} {pqcPk : List UInt8}
    (hnew : env.sys (.oqsKemNew combo.pqcName) = some kem) (hpk : hello.pqcPk = some pqcPk)
    (hct : env.sys (.malloc .ciphertext kem.lengthCiphertext) = true)
    (hss : env.sys (.malloc .sharedSecret kem.lengthSharedSecret) = true) :
    env.obs s (quantumSecrets e combo hello) =
      (env.obs s (sendCiphertext e combo (env.sys (.oqsKemEncaps kem pqcPk)).ct.1)).map fun _ =>
        .ok .none (.copy (env.sys (.oqsKemEncaps kem pqcPk)).ss.1) := by
  simp only [quantumSecrets, Conn.sys_eq, Prog.call_bind, Prog.ret_bind, ConnEnv.obs_call_sys, hnew,
    hpk, hct, hss]
  simp

theorem obs_quantumSecrets_not {hello : ServerHello}
    (h : ∀ kem pqcPk, env.sys (.oqsKemNew combo.pqcName) = some kem → hello.pqcPk = some pqcPk →
      ¬(env.sys (.malloc .ciphertext kem.lengthCiphertext) = true ∧
        env.sys (.malloc .sharedSecret kem.lengthSharedSecret) = true)) :
    (∀ cSecret qSecret, (env.obs s (quantumSecrets e combo hello)).val ≠ .ok cSecret qSecret) ∧
      (env.obs s (quantumSecrets e combo hello)).sent = [] := by
  cases hnew : env.sys (.oqsKemNew combo.pqcName) with
  | none => simp [quantumSecrets, Conn.monadLift_eq, hnew]
  | some kem =>
    cases hpk : hello.pqcPk with
    | none =>
      simp only [quantumSecrets, Conn.sys_eq, Prog.call_bind, Prog.ret_bind, ConnEnv.obs_call_sys,
        hpk]
      simp [Conn.monadLift_eq]
    | some pqcPk =>
      have hnot := h kem pqcPk hnew hpk
      simp only [quantumSecrets, Conn.sys_eq, Prog.call_bind, Prog.ret_bind, ConnEnv.obs_call_sys,
        hnew, hpk]
      cases hct : env.sys (.malloc .ciphertext kem.lengthCiphertext)
      · simp
      cases hss : env.sys (.malloc .sharedSecret kem.lengthSharedSecret)
      · simp
      · exact absurd ⟨hct, hss⟩ hnot

/-- What is kept of the handshake once it waits for the `Finished`. -/
theorem obs_finishHandshake {kdfType : CString} {tStart : ℚ} {cSecret qSecret : Secret} :
    env.obs s (finishHandshake e combo kdfType tStart cSecret qSecret) =
      ((env.obs s (awaitFinished e)).map fun _ => ClientEnd.done (env.sys (.nowMs .stop) - tStart)
        ((deriveSessionKey kdfType (ikmOf cSecret qSecret) staticSalt combo.info).eval
          env.sys)).shut := by
  simp [finishHandshake, Conn.monadLift_eq, Obs.andThen, Obs.map, Obs.shut]

/-- A complete `Finished` is the last thing received: a right header, and the status `0`. -/
def ReceivedFinished (e : Endian) (received : List (ℕ × Option (List UInt8))) : Prop :=
  ∃ reads hdr, received = reads ++ [(WireHeader.size, some hdr), (1, some [0])] ∧
    (WireHeader.ofBytes e hdr).magic = wireMagic ∧
    (WireHeader.ofBytes e hdr).msgType = wireMsgServerFinished

/-- That is so if the stream goes on with a good one. -/
theorem receivedFinished_iff {reads : List (ℕ × Option (List UInt8))} :
    ReceivedFinished e (reads ++ (env.obs s (awaitFinished e)).received) ↔ FinishedGood e s := by
  simp only [awaitFinished, Conn.recv_eq, Prog.call_bind, Prog.ret_bind, Prog.pure_eq,
    ConnEnv.obs_ite, ConnEnv.obs_call_recv, ConnEnv.obs_ret, ReceivedFinished, FinishedGood]
  by_cases hsize : WireHeader.size ≤ s.length
  · rw [if_pos hsize]
    by_cases hhdr : (WireHeader.ofBytes e (s.take WireHeader.size)).magic = wireMagic ∧
        (WireHeader.ofBytes e (s.take WireHeader.size)).msgType = wireMsgServerFinished
    · rw [if_pos hhdr]
      by_cases hone : 1 ≤ (s.drop WireHeader.size).length
      · rw [if_pos hone]
        rw [List.length_drop] at hone
        constructor
        · rintro ⟨reads', hdr, heq, -⟩
          have hlast := (List.append_inj' heq rfl).2
          simp only [Obs.recvd_received, List.cons.injEq, Prod.mk.injEq, Option.some.injEq,
            true_and, and_true] at hlast
          exact ⟨by omega, hhdr.1, hhdr.2, hlast.2⟩
        · rintro ⟨-, -, -, hstatus⟩
          exact ⟨reads, _, by rw [hstatus]; rfl, hhdr⟩
      · rw [if_neg hone]
        rw [List.length_drop] at hone
        refine ⟨?_, fun h => absurd h.1 (by omega)⟩
        rintro ⟨reads', hdr, heq, -⟩
        have hlast := (List.append_inj' heq rfl).2
        simp at hlast
    · rw [if_neg hhdr]
      refine ⟨?_, fun h => absurd ⟨h.2.1, h.2.2.1⟩ hhdr⟩
      rintro ⟨reads', hdr, heq, -⟩
      have hlast := congrArg List.getLast? heq
      simp at hlast
  · rw [if_neg hsize]
    refine ⟨?_, fun h => absurd h.1 (by omega)⟩
    rintro ⟨reads', hdr, heq, -⟩
    have hlast := congrArg List.getLast? heq
    simp at hlast

end Parts

end Dispatch

end HybridPqc
