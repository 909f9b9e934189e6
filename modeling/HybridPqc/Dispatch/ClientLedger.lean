import HybridPqc.Dispatch.ClientSecrets
import HybridPqc.Resources

/-!
# What the client of the binary protocol releases

What `execute_dispatch_handshake` still holds when it returns, for any stream of the server
and any outcome of the calls. The branch of the profile releases what it uses itself, not
what the server has sent besides: the client releases all it has acquired exactly if that
fits the profile (`Fits`).
-/

namespace HybridPqc

open Handoff

namespace Dispatch

/-- The KEM key received, if there is one. -/
def pkOf (pqcPk : Option (List UInt8)) : Multiset Resource :=
  if pqcPk.isSome then {.buf .publicKey} else 0

/-- The ciphertext encapsulated, if there is one. -/
def ctOf (ct : Option (List UInt8)) : Multiset Resource :=
  if ct.isSome then {.buf .ciphertext} else 0

section Parts

variable {ok : Prog.Event Prim Prim.Res → Prop} {ok' : Conn.Event UInt8 Prim Prim.Res → Prop}
  {held : Multiset Resource} {e : Endian} {combo : AlgoCombo} {priv : Option EvpPkey}

attribute [local simp] primLedger Prim.uses Prim.releases Prim.acquires Ledger.Permits Ledger.next
  Ledger.Leaves pkOf ctOf freeIf

/-! ## The worker -/

theorem keeps_encapsKey {kem : OqsKem} {args : PQCEncapsArgs} :
    primLedger.Keeps ok (encapsKey kem args) held fun r held' =>
      held' = (if (r.map Prod.snd).getD false then {.buf .publicKeyDecoded} else 0) + held := by
  unfold encapsKey
  split
  · simp
  · simp only [Prog.op_eq, Prog.call_bind, Prog.ret_bind, Ledger.keeps_call]
    refine ⟨by simp, fun allocated _ => ?_⟩
    cases allocated with
    | false => simp
    | true =>
      refine keeps_b64Decode.seq fun pk => ?_
      cases pk.filter (·.length = kem.lengthPublicKey) <;> simp
  · simp

/-- The worker keeps the ciphertext if it succeeds, and nothing else. -/
theorem keeps_clientPqcEncapsWorker {args : PQCEncapsArgs} :
    primLedger.Keeps ok (clientPqcEncapsWorker args .init) held fun out held' =>
      held' = ctOf out.ct + held ∧ (out.success = true ↔ out.ct.isSome) := by
  simp only [clientPqcEncapsWorker, Prog.op_eq, Prog.call_bind, Prog.ret_bind, Ledger.keeps_call]
  refine ⟨by simp, fun kem _ => ?_⟩
  cases kem with
  | none => simp [EncapsResult.init]
  | some kem =>
    simp only [Ledger.keeps_call]
    refine ⟨by simp, fun ct _ => ⟨by simp, fun ss _ => ?_⟩⟩
    cases ct <;>
      cases ss
    case true.true =>
      refine keeps_encapsKey.seq fun key => ?_
      rcases key with _ | ⟨pk, decoded⟩
      · simp [EncapsResult.init]
      · simp only [Ledger.keeps_call]
        refine ⟨by simp, fun r _ => ?_⟩
        cases r.ok <;> cases decoded <;> simp [EncapsResult.init]
    all_goals simp [EncapsResult.init]

/-! ## The parts of the handshake -/

theorem keeps_sendClientHello {host kdfType dispatchMode : CString} :
    netLedger.Keeps ok' (sendClientHello e host combo kdfType dispatchMode) held fun r held' =>
      held' = r.elim held fun start => .socket ::ₘ (pkeyOf start.priv + held) := by
  simp only [sendClientHello, Conn.sys_eq, Prog.call_bind, Prog.ret_bind, Ledger.keeps_call]
  refine ⟨by simp, fun socket _ => ?_⟩
  cases socket with
  | false => simp
  | true =>
    simp only [Bool.not_true, Bool.false_eq_true, if_false, Ledger.keeps_call]
    refine ⟨by simp, fun connected _ => ?_⟩
    cases connected with
    | false => simp
    | true =>
      simp only [Bool.not_true, Bool.false_eq_true, if_false, Ledger.keeps_call]
      refine ⟨by simp, fun tStart _ => ?_⟩
      refine keeps_clientKeygen.lift.seq fun r => ?_
      rcases r with _ | ⟨priv, pub⟩
      · simp
      · cases priv <;> simp [freePkey, Conn.monadLift_eq]

theorem keeps_recvSrvPub {srvPubLen : ℕ} (hsocket : .socket ∈ held) :
    netLedger.Keeps ok' (recvSrvPub srvPubLen) held fun _ held' => held' = held :=
  .of_all (by simp [recvSrvPub, hsocket]) fun _ _ => rfl

theorem keeps_recvPqcPk {pqcPkLen : ℕ} (hsocket : .socket ∈ held) :
    netLedger.Keeps ok' (recvPqcPk pqcPkLen) held fun r held' =>
      held' = r.elim 0 pkOf + held := by
  simp only [recvPqcPk, Ledger.keeps_ite]
  split
  · simp only [Conn.sys_eq, Prog.call_bind, Prog.ret_bind, Ledger.keeps_call]
    refine ⟨by simp, fun allocated _ => ?_⟩
    cases allocated with
    | false => simp
    | true =>
      simp only [Bool.not_true, Bool.false_eq_true, if_false, Conn.recv_eq, Prog.call_bind,
        Prog.ret_bind, Ledger.keeps_call]
      refine ⟨by simp [hsocket], fun pk _ => ?_⟩
      cases pk <;> simp
  · simp

theorem keeps_recvServerHello (hsocket : .socket ∈ held) :
    netLedger.Keeps ok' (recvServerHello e) held fun r held' =>
      held' = r.elim 0 (fun hello => pkOf hello.pqcPk) + held := by
  simp only [recvServerHello, Conn.recv_eq, Prog.call_bind, Prog.ret_bind, Ledger.keeps_call]
  refine ⟨by simp [hsocket], fun bs _ => ?_⟩
  cases bs with
  | none => simp
  | some bs =>
    simp only [Ledger.keeps_ite]
    split
    · simp
    · simp only [Ledger.keeps_call]
      refine ⟨by simp [hsocket], fun bs _ => ?_⟩
      cases bs with
      | none => simp
      | some bs =>
        simp only [Ledger.next, Ledger.conn_acquires_recv, Ledger.conn_releases_recv,
          Option.elim_none, zero_add]
        refine (keeps_recvSrvPub hsocket).seq fun srvPub => ?_
        cases srvPub with
        | none => simp
        | some srvPub =>
          refine (keeps_recvPqcPk hsocket).seq fun pqcPk => ?_
          cases pqcPk <;> simp

theorem keeps_abortHandshake :
    netLedger.Keeps ok' (abortHandshake priv) (.socket ::ₘ (pkeyOf priv + held)) fun r held' =>
      r = .failed ∧ held' = held := by
  cases priv <;> simp [abortHandshake, freePkey, Conn.monadLift_eq]

theorem keeps_clientSecret {hello : ServerHello} :
    primLedger.Keeps ok (clientSecret combo priv hello) (pkeyOf priv + held)
      fun _ held' => held' = held := by
  refine (keeps_classicalSecret fun pkey hpkey => ?_).bind ?_
  · cases hpkey
    simp
  · rintro cSecret _ rfl
    refine keeps_freePkey.seq fun _ => ?_
    exact rfl

theorem keeps_sendCiphertext {ct : List UInt8} (hsocket : .socket ∈ held)
    (hct : .buf .ciphertext ∈ held) :
    netLedger.Keeps ok' (sendCiphertext e combo ct) held
      fun _ held' => held' = held.erase (.buf .ciphertext) := by
  simp only [sendCiphertext, Conn.sys_eq, Prog.call_bind, Prog.ret_bind, Ledger.keeps_call]
  refine ⟨by simp, fun packet _ => ?_⟩
  cases packet <;> simp [hsocket, hct]

/-- What is held after the computation of the secrets, where `rest` is not released: the
    connection is closed if they are not there. -/
def Left (rest : Multiset Resource) : ClientSecrets → Multiset Resource → Prop
  | .crashed, _ => False
  | .failed, held => held = rest
  | .ok .., held => held = .socket ::ₘ rest

/-- With a hybrid suite, the key of the server is released in any case. -/
theorem keeps_finishHybrid {hello : ServerHello} {cSecret : Secret} {out : EncapsResult}
    (hct : out.success = true ↔ out.ct.isSome) :
    netLedger.Keeps ok' (finishHybrid e combo hello cSecret out)
      (.socket ::ₘ (pkOf hello.pqcPk + (ctOf out.ct + held))) (Left held) := by
  obtain ⟨qSecret, ct, success⟩ := out
  have hfree : netLedger.Keeps ok' (Conn.lift (freeIf hello.pqcPk.isSome .publicKey))
      (.socket ::ₘ (pkOf hello.pqcPk + (ctOf ct + held)))
      fun _ held' => held' = .socket ::ₘ (ctOf ct + held) := by
    cases hello.pqcPk <;> simp
  refine hfree.seq fun _ => ?_
  cases ct with
  | none => simp_all [Left, Conn.monadLift_eq]
  | some ct =>
    obtain rfl : success = true := by simpa using hct
    simp only [Bool.not_true, Bool.false_or, Ledger.keeps_ite, beq_iff_eq]
    split
    · simp [Left, Conn.monadLift_eq]
    · refine (keeps_sendCiphertext (by simp) (by simp)).seq fun _ => ?_
      simp [Left]

/-- Where the KEM operation is made makes no difference. -/
theorem keeps_hybridSecrets {route : DispatchRoute} {ready : Bool} {hello : ServerHello} :
    netLedger.Keeps ok'
      (PoolProg.inline encapsInline (hybridSecrets e combo route priv hello) ready none)
      (.socket ::ₘ (pkeyOf priv + (pkOf hello.pqcPk + held))) fun r => Left held r.1 := by
  refine inline_hybridSecrets_cases
    (M := fun p => netLedger.Keeps ok' p _ fun r => Left held r.1) (fun k hk => ?_) (fun pool => ?_)
    fun pool => ?_
  · simp only [Ledger.keeps_call]
    refine ⟨by simp, fun created _ => ?_⟩
    simpa using hk created
  · rw [← Multiset.add_cons]
    refine keeps_clientSecret.lift.seq fun cSecret => ?_
    refine keeps_clientPqcEncapsWorker.lift.bind ?_
    rintro out _ ⟨rfl, hct⟩
    rw [Multiset.add_cons, add_left_comm]
    exact (keeps_finishHybrid hct).bind fun _ _ h => h
  · refine keeps_clientPqcEncapsWorker.lift.bind ?_
    rintro out _ ⟨rfl, hct⟩
    rw [Multiset.add_cons, add_left_comm, ← Multiset.add_cons]
    refine keeps_clientSecret.lift.seq fun cSecret => ?_
    rw [add_left_comm]
    exact (keeps_finishHybrid hct).bind fun _ _ h => h

/-- The rest of the handshake releases the connection. -/
theorem keeps_finishHandshake {kdfType : CString} {tStart : ℚ} {cSecret qSecret : Secret} :
    netLedger.Keeps ok' (finishHandshake e combo kdfType tStart cSecret qSecret) (.socket ::ₘ held)
      fun r held' => r ≠ .crashed ∧ held' = held := by
  have hawait : netLedger.Keeps ok' (awaitFinished e) (.socket ::ₘ held)
      fun _ held' => held' = .socket ::ₘ held := by
    refine .of_all ?_ fun _ _ => rfl
    simp only [awaitFinished, Conn.recv_eq, Prog.call_bind, Prog.ret_bind, Prog.all_call]
    refine ⟨by simp, fun bs => ?_⟩
    cases bs <;> simp
  refine keeps_deriveSessionKey.lift.seq fun key => ?_
  refine hawait.seq fun _ => ?_
  simp

end Parts

/-! ## The secrets -/

section Secrets

variable (env : NetEnv) (combo : AlgoCombo)

/-- What the server sends, and what is allocated, fit the profile: with a suite that has the
    KEM alone, there are a key and the buffers, or no KEM; with a suite that has none, there is
    no key. -/
structure Fits (pqcPk : Option (List UInt8)) : Prop where
  quantum : combo.profile = profilePureQuantum →
    (env.sys (.oqsKemNew combo.pqcName)).isSome → KemThere env combo pqcPk
  other : combo.profile ≠ profileHybrid → combo.profile ≠ profilePureQuantum → pqcPk = none

/-- What is held after the computation of the secrets, if what is there fits, and if not. -/
structure Settled (fits : Prop) (r : ClientSecrets) (held : Multiset Resource) : Prop where
  fit : fits → Left 0 r held
  misfit : ¬fits → r = .crashed ∨ ∃ rest ≠ 0, Left rest r held

variable {env combo} {e : Endian} {priv : Option EvpPkey} {hello : ServerHello}

attribute [local simp] primLedger Prim.uses Prim.releases Prim.acquires Ledger.Permits Ledger.next
  pkOf freeIf

theorem keeps_quantumSecrets (hprofile : combo.profile = profilePureQuantum) :
    netLedger.Keeps env.Answers (quantumSecrets e combo hello) (.socket ::ₘ pkOf hello.pqcPk)
      (Settled (Fits env combo hello.pqcPk)) := by
  have hfit : Fits env combo hello.pqcPk ↔
      ((env.sys (.oqsKemNew combo.pqcName)).isSome → KemThere env combo hello.pqcPk) :=
    ⟨fun h => h.quantum hprofile, fun h => ⟨fun _ => h, fun _ hne => absurd hprofile hne⟩⟩
  rw [hfit]
  simp only [quantumSecrets, Conn.sys_eq, Prog.call_bind, Prog.ret_bind, Ledger.keeps_call]
  refine ⟨by simp, ?_⟩
  rintro kem rfl
  cases hnew : env.sys (.oqsKemNew combo.pqcName) with
  | none =>
    -- without the KEM the branch releases the key it was sent
    refine .mono (Q := Left 0) ?_ fun r held hleft => ⟨fun _ => hleft, fun h => absurd (by simp) h⟩
    cases hello.pqcPk <;> simp [Left, Conn.monadLift_eq]
  | some kem =>
    cases hpk : hello.pqcPk with
    | none =>
      -- without a key it returns with the KEM still held
      refine .mono (Q := Left {.kem kem}) ?_ fun r held hleft =>
        ⟨fun h => ?_, fun _ => .inr ⟨_, Multiset.singleton_ne_zero _, hleft⟩⟩
      · simp [Left, Conn.monadLift_eq]
      · obtain ⟨_, _, -, hnone, -⟩ := h rfl
        cases hnone
    | some pk =>
      simp only [Ledger.keeps_call]
      refine ⟨by simp, ?_⟩
      rintro ct rfl
      refine ⟨by simp, ?_⟩
      rintro ss rfl
      by_cases hroom : env.sys (.malloc .ciphertext kem.lengthCiphertext) = true ∧
          env.sys (.malloc .sharedSecret kem.lengthSharedSecret) = true
      · refine .mono (Q := Left 0) ?_ fun r held hleft => ⟨fun _ => hleft, fun h => absurd ?_ h⟩
        · simp only [hroom.1, hroom.2, Bool.not_true, Bool.or_self, Bool.false_eq_true, if_false,
            Ledger.keeps_call]
          refine ⟨by simp, fun r _ => ⟨by simp, fun _ _ => ⟨by simp, fun _ _ => ?_⟩⟩⟩
          refine (keeps_sendCiphertext (by simp) (by simp)).seq fun _ => ?_
          simp [Left]
        · exact fun _ => ⟨kem, pk, hnew, rfl, hroom⟩
      -- without room for the results the KEM writes to a null pointer
      · have hcrash : (!env.sys (.malloc .ciphertext kem.lengthCiphertext) ||
            !env.sys (.malloc .sharedSecret kem.lengthSharedSecret)) = true := by
          simpa [imp_iff_not_or] using hroom
        rw [if_pos hcrash]
        refine ⟨fun h => ?_, fun _ => .inl rfl⟩
        obtain ⟨kem', _, hnew', -, hroom'⟩ := h rfl
        obtain rfl : kem = kem' := Option.some.inj (hnew.symm.trans hnew')
        exact absurd hroom' hroom

/-- With a hybrid suite, anything fits. -/
theorem fits_hybrid {pqcPk : Option (List UInt8)} (hprofile : combo.profile = profileHybrid) :
    Fits env combo pqcPk :=
  ⟨fun hquantum => absurd (hprofile.symm.trans hquantum) (by decide),
    fun hne => absurd hprofile hne⟩

/-- With a suite without a KEM, a key that the server sends is not released. -/
theorem settled_ok {pqcPk : Option (List UInt8)} {cSecret qSecret : Secret}
    (hhybrid : combo.profile ≠ profileHybrid) (hquantum : combo.profile ≠ profilePureQuantum) :
    Settled (Fits env combo pqcPk) (.ok cSecret qSecret) (.socket ::ₘ pkOf pqcPk) := by
  refine ⟨fun h => ?_, fun h => .inr ⟨pkOf pqcPk, fun hpk => h ⟨fun h => absurd h hquantum, ?_⟩, rfl⟩⟩
  · rw [h.other hhybrid hquantum]
    rfl
  · cases pqcPk with
    | none => exact fun _ _ => rfl
    | some pk => simp at hpk

/-- The key of the client is released in the branch of the profile. -/
theorem keeps_clientSecrets {route : DispatchRoute} {ready : Bool}
    (hpriv : priv.isSome ↔ combo.HasClassical) :
    netLedger.Keeps env.Answers
      (PoolProg.inline encapsInline (clientSecrets e combo route priv hello) ready none)
      (.socket ::ₘ (pkeyOf priv + pkOf hello.pqcPk))
      fun r => Settled (Fits env combo hello.pqcPk) r.1 := by
  rw [clientSecrets]
  split_ifs with hhybrid hclassical hquantum
  · refine .mono ?_ fun r held hleft => ⟨fun _ => hleft, fun h => absurd (fits_hybrid hhybrid) h⟩
    simpa using @keeps_hybridSecrets _ 0 _ _ _ route ready hello
  · rw [PoolProg.inline_bind, PoolProg.inline_lift, Prog.bind_assoc, ← Multiset.add_cons]
    refine keeps_clientSecret.lift.seq fun cSecret => ?_
    exact settled_ok hhybrid (by rw [hclassical]; decide)
  -- with no classical part there is no key of the client to release
  · have hnone : priv = none := by
      rw [← Option.not_isSome_iff_eq_none, hpriv, AlgoCombo.HasClassical]
      exact fun h => h.elim hhybrid hclassical
    subst hnone
    rw [PoolProg.inline_lift, pkeyOf_none, zero_add]
    exact (keeps_quantumSecrets hquantum).bind fun _ _ h => h
  · have hnone : priv = none := by
      rw [← Option.not_isSome_iff_eq_none, hpriv, AlgoCombo.HasClassical]
      exact fun h => h.elim hhybrid hclassical
    subst hnone
    rw [pkeyOf_none, zero_add]
    exact settled_ok hhybrid hquantum

end Secrets

/-! ## The handshake -/

/-- A run of the client from what is `held` is clean: it returns, and has released all of
    that, and all it has acquired itself. -/
structure Clean (held : Multiset Resource)
    (r : Prog.Run (ConnOp UInt8 Prim) (ConnOp.Res Prim.Res) (List UInt8) ClientEnd) : Prop where
  returns : r.val ≠ .crashed
  settles : netLedger.Settles held r.trace 0

section Handshake

variable {e : Endian} {env : NetEnv} {combo : AlgoCombo} {s : List UInt8}
  {host kdfType dispatchMode : CString} {route : DispatchRoute} {ready : Bool}
  {held held' : Multiset Resource} {α : Type}

theorem clean_bind {p : Net α} {f : α → Net ClientEnd}
    (hp : netLedger.Settles held (env.run p s).trace held') :
    Clean held (env.run (p >>= f) s) ↔
      Clean held' (env.run (f (env.run p s).val) (env.run p s).world) := by
  have hval : (env.run (p >>= f) s).val =
      (env.run (f (env.run p s).val) (env.run p s).world).val := by
    rw [ConnEnv.run_bind]
  constructor
  · exact fun h => ⟨hval ▸ h.returns, (Ledger.settles_run_bind hp).1 h.settles⟩
  · exact fun h => ⟨hval ▸ h.returns, (Ledger.settles_run_bind hp).2 h.settles⟩

theorem clean_bind_of_eq {p : Net α} {f : α → Net ClientEnd} {a : α} {s' : List UInt8}
    (hp : netLedger.Settles held (env.run p s).trace held') (hval : (env.run p s).val = a)
    (hworld : (env.run p s).world = s') :
    Clean held (env.run (p >>= f) s) ↔ Clean held' (env.run (f a) s') := by
  rw [clean_bind hp, hval, hworld]

theorem clean_iff_of_keeps {p : Net ClientEnd} {P : Prop}
    (hp : netLedger.Keeps env.Answers p held fun r held' => r ≠ .crashed ∧ held' = 0 ↔ P) :
    Clean held (env.run p s) ↔ P := by
  obtain ⟨held', hsettles, hP⟩ := hp.run_conn env s
  rw [← hP]
  constructor
  · exact fun h => ⟨h.returns, hsettles.unique h.settles⟩
  · rintro ⟨hreturns, rfl⟩
    exact ⟨hreturns, hsettles⟩

/-- The rest of the handshake, once the `ServerHello` is there. -/
theorem keeps_afterServerHello {start : ClientStart} {hello : ServerHello}
    (hpriv : start.priv.isSome ↔ combo.HasClassical) :
    netLedger.Keeps env.Answers
      (do
        let secrets ←
          PoolProg.inline encapsInline (clientSecrets e combo route start.priv hello) ready none
        match secrets.1 with
        | .crashed => return .crashed
        | .failed => return .failed
        | .ok cSecret qSecret => finishHandshake e combo kdfType start.tStart cSecret qSecret)
      (.socket ::ₘ (pkeyOf start.priv + pkOf hello.pqcPk))
      fun r held => r ≠ .crashed ∧ held = 0 ↔ Fits env combo hello.pqcPk := by
  refine (keeps_clientSecrets hpriv).bind ?_
  rintro ⟨secrets, pool⟩ held hsettled
  by_cases hfits : Fits env combo hello.pqcPk
  · have hleft := hsettled.fit hfits
    cases secrets with
    | crashed => exact hleft.elim
    | failed => exact iff_of_true ⟨by simp, hleft⟩ hfits
    | ok cSecret qSecret =>
      obtain rfl : held = .socket ::ₘ 0 := hleft
      exact keeps_finishHandshake.mono fun r held h => iff_of_true h hfits
  · obtain hcrashed | ⟨rest, hrest, hleft⟩ := hsettled.misfit hfits
    · obtain rfl : secrets = .crashed := hcrashed
      exact iff_of_false (fun h => h.1 rfl) hfits
    · cases secrets with
      | crashed => exact hleft.elim
      | failed =>
        obtain rfl : held = rest := hleft
        exact iff_of_false (fun h => hrest h.2) hfits
      | ok cSecret qSecret =>
        obtain rfl : held = .socket ::ₘ rest := hleft
        exact keeps_finishHandshake.mono fun r held h =>
          iff_of_false (fun h' => hrest (h.2 ▸ h'.2)) hfits

theorem clean_of_not_starts
    (h : ¬∃ priv, Starts e env combo host kdfType dispatchMode priv) :
    Clean 0 (env.run (dispatchHandshake e host combo kdfType dispatchMode route ready) s) := by
  rw [dispatchHandshake_eq]
  obtain ⟨held, hsettles, rfl⟩ := (@keeps_sendClientHello env.Answers 0 e combo host kdfType
    dispatchMode).run_conn env s
  have hnone : (env.run (sendClientHello e host combo kdfType dispatchMode) s).val = none :=
    (obs_sendClientHello_not fun priv hstarts => h ⟨priv, hstarts⟩).1
  rw [clean_bind hsettles, hnone]
  exact ⟨by simp, rfl⟩

/-- The client that has sent its `ClientHello` goes on with a socket and its key. -/
theorem clean_starts_iff {priv : Option EvpPkey}
    (hstarts : Starts e env combo host kdfType dispatchMode priv) :
    Clean 0 (env.run (dispatchHandshake e host combo kdfType dispatchMode route ready) s) ↔
      Clean (.socket ::ₘ pkeyOf priv) (env.run (do
        match ← recvServerHello e with
        | none => abortHandshake priv
        | some hello =>
          let secrets ←
            PoolProg.inline encapsInline (clientSecrets e combo route priv hello) ready none
          match secrets.1 with
          | .crashed => return .crashed
          | .failed => return .failed
          | .ok cSecret qSecret =>
            finishHandshake e combo kdfType (env.sys (.nowMs .start)) cSecret qSecret) s) := by
  rw [dispatchHandshake_eq]
  obtain ⟨held, hsettles, rfl⟩ := (@keeps_sendClientHello env.Answers 0 e combo host kdfType
    dispatchMode).run_conn env s
  have hobs := obs_sendClientHello (s := s) hstarts
  have hval : (env.run (sendClientHello e host combo kdfType dispatchMode) s).val =
      some ⟨env.sys (.nowMs .start), priv⟩ := congrArg Obs.val hobs
  have hrest : (env.run (sendClientHello e host combo kdfType dispatchMode) s).world = s :=
    congrArg Obs.rest hobs
  rw [hval, Option.elim_some, add_zero] at hsettles
  exact clean_bind_of_eq hsettles hval hrest

theorem clean_of_not_serverHello {priv : Option EvpPkey}
    (hstarts : Starts e env combo host kdfType dispatchMode priv)
    (h : ¬ServerHelloComplete e env s) :
    Clean 0 (env.run (dispatchHandshake e host combo kdfType dispatchMode route ready) s) := by
  rw [clean_starts_iff hstarts]
  obtain ⟨held, hsettles, rfl⟩ := (@keeps_recvServerHello env.Answers (.socket ::ₘ pkeyOf priv) e
    (by simp)).run_conn env s
  have hnone : (env.run (recvServerHello e) s).val = none := (obs_recvServerHello_not h).1
  rw [clean_bind hsettles, hnone, Option.elim_none, zero_add, ← add_zero (pkeyOf priv)]
  refine (clean_iff_of_keeps (P := True) (keeps_abortHandshake.mono ?_)).2 trivial
  rintro r held ⟨rfl, rfl⟩
  simp

/-- Once it has received a `ServerHello`, the client releases all if that fits the profile. -/
theorem clean_serverHello_iff {priv : Option EvpPkey}
    (hstarts : Starts e env combo host kdfType dispatchMode priv)
    (hhello : ServerHelloComplete e env s) :
    Clean 0 (env.run (dispatchHandshake e host combo kdfType dispatchMode route ready) s) ↔
      Fits env combo (serverHelloOf e s).pqcPk := by
  rw [clean_starts_iff hstarts]
  obtain ⟨held, hsettles, rfl⟩ := (@keeps_recvServerHello env.Answers (.socket ::ₘ pkeyOf priv) e
    (by simp)).run_conn env s
  obtain ⟨reads, -, hobs⟩ := obs_recvServerHello hhello
  have hval : (env.run (recvServerHello e) s).val = some (serverHelloOf e s) :=
    congrArg Obs.val hobs
  have hpriv : priv.isSome ↔ combo.HasClassical := by
    have hgenerate := hstarts.generate
    cases priv with
    | none => exact iff_of_false (by simp) hgenerate
    | some _ => exact iff_of_true rfl hgenerate.1
  rw [clean_bind hsettles, hval, Option.elim_some, Multiset.add_cons, add_comm (pkOf _)]
  exact clean_iff_of_keeps (@keeps_afterServerHello _ _ _ _ _ _ ⟨_, priv⟩ _ hpriv)

/-- A server that sends a KEM key to a client whose suite has no KEM: the key is not released. -/
theorem client_leaks_key :
    ¬Clean 0 (NetEnv.sample.run
      (dispatchHandshake .little (cstr "127.0.0.1") x25519Only (cstr "sha256") (cstr "auto")
        .sequential false)
      (serverHello .little x25519Only [] [0])) := by
  have hstarts : Starts .little NetEnv.sample x25519Only (cstr "127.0.0.1") (cstr "sha256")
      (cstr "auto") (some ⟨0⟩) := ⟨rfl, rfl, ⟨.inr rfl, rfl⟩, rfl, rfl⟩
  have hhello : ServerHelloComplete .little NetEnv.sample (serverHello .little x25519Only [] [0]) :=
    ⟨by decide, by decide, by decide, by decide, fun _ => rfl⟩
  rw [clean_serverHello_iff hstarts hhello]
  intro hfits
  have hnone := hfits.other (by decide) (by decide)
  revert hnone
  decide

/-- **The client releases what fits.** The client returns, and releases each resource it has
    acquired exactly once, if and only if, wherever it gets to a `ServerHello`, the KEM key in it
    and the allocations of the suite fit the profile. -/
theorem client_releases_iff (e : Endian) (env : NetEnv) (combo : AlgoCombo) (s : List UInt8)
    (host kdfType dispatchMode : CString) (route : DispatchRoute) (ready : Bool) :
    Clean 0 (env.run (dispatchHandshake e host combo kdfType dispatchMode route ready) s) ↔
      ∀ priv, Starts e env combo host kdfType dispatchMode priv → ServerHelloComplete e env s →
        Fits env combo (serverHelloOf e s).pqcPk := by
  by_cases hstarts : ∃ priv, Starts e env combo host kdfType dispatchMode priv
  · obtain ⟨priv, hstarts⟩ := hstarts
    by_cases hhello : ServerHelloComplete e env s
    · rw [clean_serverHello_iff hstarts hhello]
      exact ⟨fun h _ _ _ => h, fun h => h priv hstarts hhello⟩
    · exact iff_of_true (clean_of_not_serverHello hstarts hhello) fun _ _ h => absurd h hhello
  · exact iff_of_true (clean_of_not_starts hstarts) fun priv h => absurd ⟨priv, h⟩ hstarts

end Handshake

end Dispatch

end HybridPqc
