import HybridPqc.Baseline.Server
import HybridPqc.Dispatch.ServerJson

/-!
# The runs of the servers of the JSON protocol

When each server gets to its `ServerFinished`, for any lines of the client and any outcome
of the calls other than allocations and the creation of threads
(`Baseline.Finishes`, `Dispatch.FinishesJson`).
-/

namespace HybridPqc

open Dispatch (ServerKem ServerClassical)

variable (env : JsonEnv) (combo : AlgoCombo) (s : List (Option Json))

/-! ## What the client sends -/

/-- The key of the client, in the next line. -/
def clientPub : Option (List UInt8) :=
  s.head?.join.bind fun hello =>
    ((b64Decode (hello.getStr "c_pub") maxPubKeyBytes).eval env.sys).filter (·.length > 0)

/-- What is left of the lines after the classical exchange. -/
def afterClassical : List (Option Json) := if combo.HasClassical then s.tail else s

/-- The message with the ciphertext, if any. -/
def ciphertextMessage : Option Json := (afterClassical combo s).head?.join

/-- The ciphertext in a message is decoded, and has the length of those of the KEM. -/
def CiphertextDecodes (k : ServerKem) (ctMsg : Json) : Prop :=
  ∃ ct, (b64Decode (ctMsg.getStr "ct") k.kem.lengthCiphertext).eval env.sys = some ct ∧
    ct.length = k.kem.lengthCiphertext

/-- No allocation fails, nor does the creation of a thread. -/
structure HasRoom : Prop where
  malloc : ∀ buf size, env.sys (.malloc buf size) = true
  pthreadCreate : env.sys .pthreadCreate = true

section Parts

variable {env combo s} {k : ServerKem} {srvPub : List UInt8} {more : List (CString × Json)}

theorem obs_recvJsonLine :
    ∃ reads, env.obs s recvJsonLine = ⟨s.head?.join, s.tail, reads, [], false⟩ := by
  cases s with
  | nil => exact ⟨_, obs_recvJsonLine_nil env⟩
  | cons line s => exact ⟨_, obs_recvJsonLine_cons env s line⟩

theorem obs_recvClientPub :
    ∃ reads, env.obs s recvClientPub = ⟨clientPub env s, s.tail, reads, [], false⟩ := by
  obtain ⟨reads, hobs⟩ := @obs_recvJsonLine env s
  rw [recvClientPub, ConnEnv.obs_bind, hobs, clientPub]
  cases s.head?.join with
  | none => exact ⟨_, rfl⟩
  | some hello =>
    simp only [Obs.andThen, Conn.monadLift_eq, ConnEnv.obs_bind, ConnEnv.obs_lift, Prog.pure_eq,
      ConnEnv.obs_ret]
    exact ⟨_, rfl⟩

theorem obs_sendKeys :
    ∃ sent, env.obs s (sendKeys srvPub k more) = ⟨(), s, [], sent, false⟩ := by
  simp only [sendKeys, Conn.monadLift_eq, ConnEnv.obs_bind, ConnEnv.obs_lift, Obs.mk_andThen,
    obs_sendJsonLine]
  exact ⟨_, rfl⟩

theorem obs_sendClassicalKey :
    ∃ sent, env.obs s (sendClassicalKey srvPub more) = ⟨(), s, [], sent, false⟩ := by
  simp only [sendClassicalKey, Conn.monadLift_eq, ConnEnv.obs_bind, ConnEnv.obs_lift,
    Obs.mk_andThen, obs_sendJsonLine]
  exact ⟨_, rfl⟩

theorem eval_decodeCiphertext {ctMsg : Json} :
    ((decodeCiphertext true k ctMsg).eval env.sys).isSome ↔ CiphertextDecodes env k ctMsg := by
  simp only [decodeCiphertext, Prog.eval_bind, Prog.pure_eq, Prog.eval_ret, CiphertextDecodes]
  cases (b64Decode (ctMsg.getStr "ct") k.kem.lengthCiphertext).eval env.sys with
  | none => simp
  | some ct => by_cases hlen : ct.length = k.kem.lengthCiphertext <;> simp [Option.filter, hlen]

theorem eval_decodeCiphertext_false {ctMsg : Json} :
    (decodeCiphertext false k ctMsg).eval env.sys = none := by
  have hgives : (decodeCiphertext false k ctMsg).Gives (fun _ => True)
      ((decodeCiphertext false k ctMsg).eval env.sys) := Prog.gives_eval _ fun _ => trivial
  exact eq_none_of_gives_decodeCiphertext hgives

theorem eval_decapsUnchecked (h : HasRoom env) (ct : List UInt8) :
    ∃ qSecret, (decapsUnchecked k ct).eval env.sys = some qSecret := by
  simp only [decapsUnchecked, Prog.op_eq, Prog.call_bind, Prog.ret_bind, Prog.eval_call,
    h.malloc, Bool.not_true, Bool.false_eq_true, if_false, Prog.eval_bind, Prog.pure_eq,
    Prog.eval_ret]
  exact ⟨_, rfl⟩

end Parts

theorem obs_jsonServerClose : env.obs s jsonServerClose = ⟨.closed, s, [], [], true⟩ := rfl

/-- If a server gets to its `ServerFinished`, it is with the KDF `kdf`. -/
def UsesKdf (kdf : Kdf) (o : JsonServerEnd) : Prop :=
  ∀ kdf' ikm key, o = .finished kdf' ikm key → kdf' = kdf

theorem usesKdf_finished {kdf : Kdf} {ikm : List UInt8} {key : Option (Bytes 32)} :
    UsesKdf kdf (.finished kdf ikm key) := by
  rintro kdf' ikm' key' ⟨⟩
  rfl

theorem yields_jsonServerClose {env : JsonEnv} {kdf : Kdf} :
    env.Yields jsonServerClose (UsesKdf kdf) := fun _ => nofun

/-! ## What the servers ask for -/

/-- What both servers ask for: the client sends its key, and a message that is to have
    the ciphertext; the key pairs are generated. -/
structure GoesThrough : Prop where
  classical : combo.HasClassical → ∃ cliPub srvPriv, clientPub env s = some cliPub ∧
    (cryptoGenerateKeypair .our combo.classicalCurve).eval env.sys = some srvPriv
  kem : combo.HasKem → ∃ k ctMsg, (pqcKeygenWorker combo.pqcName).eval env.sys = some k ∧
    ciphertextMessage combo s = some ctMsg

/-- The public key `srvPriv` is exported, the key of the client is loaded, and every step of
    the derivation succeeds. -/
def ExchangeWorks (cliPub : List UInt8) (srvPriv : EvpPkey) : Prop :=
  ∃ srvPub peerPub, (cryptoExportPub combo.classicalCurve srvPriv).eval env.sys = some srvPub ∧
    (cryptoLoadPub combo.classicalCurve cliPub).eval env.sys = some peerPub ∧
    DeriveSteps env.sys srvPriv peerPub (.zero maxSharedSec) maxSharedSec

/-- What only the server of `c` asks for: the classical exchange works, and the ciphertext is
    decoded and has the right length. -/
structure PassesChecks : Prop where
  classical : combo.HasClassical → ∀ cliPub srvPriv, clientPub env s = some cliPub →
    (cryptoGenerateKeypair .our combo.classicalCurve).eval env.sys = some srvPriv →
      ExchangeWorks env combo cliPub srvPriv
  kem : combo.HasKem → ∀ k ctMsg, (pqcKeygenWorker combo.pqcName).eval env.sys = some k →
    ciphertextMessage combo s = some ctMsg → CiphertextDecodes env k ctMsg

variable {env combo s}

theorem goesThrough_and_passesChecks
    (hclassical : combo.HasClassical → ∃ cliPub srvPriv, clientPub env s = some cliPub ∧
      (cryptoGenerateKeypair .our combo.classicalCurve).eval env.sys = some srvPriv ∧
      ExchangeWorks env combo cliPub srvPriv)
    (hkem : combo.HasKem → ∃ k ctMsg, (pqcKeygenWorker combo.pqcName).eval env.sys = some k ∧
      ciphertextMessage combo s = some ctMsg ∧ CiphertextDecodes env k ctMsg) :
    GoesThrough env combo s ∧ PassesChecks env combo s := by
  refine ⟨⟨fun h => ?_, fun h => ?_⟩, fun h cliPub srvPriv hpub hgen => ?_,
    fun h k ctMsg hworker hmsg => ?_⟩
  · obtain ⟨cliPub, srvPriv, hpub, hgen, -⟩ := hclassical h
    exact ⟨cliPub, srvPriv, hpub, hgen⟩
  · obtain ⟨k, ctMsg, hworker, hmsg, -⟩ := hkem h
    exact ⟨k, ctMsg, hworker, hmsg⟩
  · obtain ⟨cliPub', srvPriv', hpub', hgen', hworks⟩ := hclassical h
    obtain rfl : cliPub' = cliPub := Option.some.inj (hpub'.symm.trans hpub)
    obtain rfl : srvPriv' = srvPriv := Option.some.inj (hgen'.symm.trans hgen)
    exact hworks
  · obtain ⟨k', ctMsg', hworker', hmsg', hdecodes⟩ := hkem h
    obtain rfl : k' = k := Option.some.inj (hworker'.symm.trans hworker)
    obtain rfl : ctMsg' = ctMsg := Option.some.inj (hmsg'.symm.trans hmsg)
    exact hdecodes

/-! ## The server of `c` -/

namespace Baseline

variable {k : ServerKem} {srvPub : List UInt8}

theorem eval_serverExchange {cliPub : List UInt8} :
    ((serverExchange combo cliPub).eval env.sys).isSome ↔ ∃ srvPriv,
      (cryptoGenerateKeypair .our combo.classicalCurve).eval env.sys = some srvPriv ∧
        ExchangeWorks env combo cliPub srvPriv := by
  simp only [serverExchange, Prog.eval_bind, ExchangeWorks]
  cases hgen : (cryptoGenerateKeypair .our combo.classicalCurve).eval env.sys with
  | none => simp
  | some srvPriv =>
    simp only [Prog.eval_bind]
    cases hexport : (cryptoExportPub combo.classicalCurve srvPriv).eval env.sys with
    | none => simp [hexport]
    | some srvPub =>
      simp only [Prog.eval_bind]
      cases hload : (cryptoLoadPub combo.classicalCurve cliPub).eval env.sys with
      | none => simp
      | some peerPub =>
        have hrc := @eval_cryptoDeriveEcdhSecret_rc env.sys srvPriv peerPub _ (.zero maxSharedSec)
          maxSharedSec
        by_cases hsteps : DeriveSteps env.sys srvPriv peerPub (.zero maxSharedSec) maxSharedSec
        · simp [hexport, hrc.2 hsteps, hsteps]
        · simp [hexport, mt hrc.1 hsteps, hsteps]

theorem obs_recvClassical :
    ∃ reads, env.obs s (recvClassical combo) =
      ⟨if combo.HasClassical then
          (clientPub env s).bind fun cliPub => (serverExchange combo cliPub).eval env.sys
        else some ⟨none, [], .none⟩, afterClassical combo s, reads, [], false⟩ := by
  rw [recvClassical, ConnEnv.obs_ite, afterClassical]
  by_cases hclassical : combo.HasClassical
  · obtain ⟨reads, hobs⟩ := @obs_recvClientPub env s
    rw [if_pos hclassical, if_pos hclassical, if_pos hclassical, ConnEnv.obs_bind, hobs]
    cases clientPub env s with
    | none => exact ⟨_, rfl⟩
    | some cliPub =>
      simp only [Obs.andThen, Conn.monadLift_eq, ConnEnv.obs_lift]
      exact ⟨_, rfl⟩
  · rw [if_neg hclassical, if_neg hclassical, if_neg hclassical]
    exact ⟨[], rfl⟩

theorem isSome_recvClassical :
    (env.obs s (recvClassical combo)).val.isSome ↔ (combo.HasClassical →
      ∃ cliPub srvPriv, clientPub env s = some cliPub ∧
        (cryptoGenerateKeypair .our combo.classicalCurve).eval env.sys = some srvPriv ∧
        ExchangeWorks env combo cliPub srvPriv) := by
  obtain ⟨reads, hobs⟩ := @obs_recvClassical env combo s
  rw [hobs]
  by_cases hclassical : combo.HasClassical
  · simp only [hclassical, true_implies]
    cases clientPub env s with
    | none => simp
    | some cliPub => simpa using eval_serverExchange
  · simp [hclassical]

/-- Without a thread there is no key pair, and the code goes on. -/
theorem eval_joinKeygen :
    (joinKeygen combo ((spawnKeygen combo).eval env.sys)).eval env.sys =
      if combo.HasKem ∧ env.sys .pthreadCreate = true then
        ((pqcKeygenWorker combo.pqcName).eval env.sys).map some
      else some none := by
  have hcall : (call .pthreadCreate : Sys Bool).eval env.sys = env.sys .pthreadCreate := rfl
  rw [spawnKeygen, Prog.eval_ite, hcall, joinKeygen, Prog.eval_ite]
  by_cases hkem : combo.HasKem
  · by_cases hcreate : env.sys .pthreadCreate = true
    · rw [if_pos hkem, if_pos hcreate, if_pos ⟨hkem, hcreate⟩, Prog.eval_bind]
      cases (pqcKeygenWorker combo.pqcName).eval env.sys <;> rfl
    · rw [if_pos hkem, if_neg hcreate, if_neg fun h => hcreate h.2]
      rfl
  · rw [if_neg hkem, if_neg (mt And.left hkem)]
    rfl

theorem eval_joinKeygen_of_room (h : HasRoom env) :
    (joinKeygen combo ((spawnKeygen combo).eval env.sys)).eval env.sys =
      if combo.HasKem then ((pqcKeygenWorker combo.pqcName).eval env.sys).map some
      else some none := by
  simp only [eval_joinKeygen, h.pthreadCreate, and_true]

theorem obs_recvCiphertext (h : HasRoom env) {ctMsg : Json} (hmsg : s.head?.join = some ctMsg)
    (hct : CiphertextDecodes env k ctMsg) :
    ∃ qSecret, (env.obs s (recvCiphertext k)).val = .ok qSecret := by
  obtain ⟨reads, hobs⟩ := @obs_recvJsonLine env s
  obtain ⟨ct, hct⟩ := Option.isSome_iff_exists.1 (eval_decodeCiphertext.2 hct)
  obtain ⟨qSecret, hdecaps⟩ := @eval_decapsUnchecked env k h ct
  rw [recvCiphertext, ConnEnv.obs_bind, hobs, hmsg]
  simp only [Obs.andThen, Conn.monadLift_eq, Conn.sys_eq, Prog.call_bind, Prog.ret_bind,
    ConnEnv.obs_call_sys, h.malloc, ConnEnv.obs_bind, ConnEnv.obs_lift, hct, hdecaps]
  exact ⟨_, rfl⟩

theorem obs_recvCiphertext_not
    (hct : ∀ ctMsg, s.head?.join = some ctMsg → ¬CiphertextDecodes env k ctMsg) :
    (env.obs s (recvCiphertext k)).val = .closed := by
  obtain ⟨reads, hobs⟩ := @obs_recvJsonLine env s
  rw [recvCiphertext, ConnEnv.obs_bind, hobs]
  cases hmsg : s.head?.join with
  | none => simp [Conn.monadLift_eq, Obs.andThen]
  | some ctMsg =>
    have hnone : ∀ room, (decodeCiphertext room k ctMsg).eval env.sys = none := by
      intro room
      cases room with
      | false => exact eval_decodeCiphertext_false
      | true =>
        exact Option.not_isSome_iff_eq_none.1 fun h => hct ctMsg hmsg (eval_decodeCiphertext.1 h)
    simp [Conn.monadLift_eq, Obs.andThen, hnone]

theorem val_exchangeKeys (hkem : combo.HasKem) :
    (env.obs s (exchangeKeys combo srvPub (some k))).val = (env.obs s (recvCiphertext k)).val := by
  obtain ⟨sent, hobs⟩ := @obs_sendKeys env s k srvPub []
  rw [exchangeKeys, if_pos hkem, ConnEnv.obs_bind, hobs, Obs.andThen_val]

theorem val_exchangeKeys_not (hkem : ¬combo.HasKem) (kem : Option ServerKem) :
    (env.obs s (exchangeKeys combo srvPub kem)).val = .ok .none := by
  obtain ⟨sent, hobs⟩ := @obs_sendClassicalKey env s srvPub []
  unfold exchangeKeys
  rw [if_neg hkem, ConnEnv.obs_bind, hobs, Obs.andThen_val]
  rfl

/-! ### The run -/

section Serve

variable (env combo s) (sel : Parsed) (kdfType saltB64 : Option CString)

/-- The KDF, as it is read when the session key is derived. -/
def kdfUsed : Kdf :=
  (chooseKdf sel kdfType ((decodeSalt sel saltB64).eval env.sys)).eval env.sys

variable {env combo s sel kdfType saltB64}

theorem val_serverFinish {salt : Option (List UInt8)} {cSecret qSecret : Secret} :
    ∃ ikm key, (env.obs s (serverFinish combo sel kdfType salt cSecret qSecret)).val =
      .finished ((chooseKdf sel kdfType salt).eval env.sys) ikm key := by
  simp only [serverFinish, Conn.monadLift_eq, ConnEnv.obs_bind, ConnEnv.obs_lift, Obs.mk_andThen,
    Obs.andThen_val]
  exact ⟨_, _, rfl⟩

theorem val_serve (h : HasRoom env) (hgoes : GoesThrough env combo s)
    (hchecks : PassesChecks env combo s) :
    ∃ ikm key, (env.obs s (serve combo sel kdfType saltB64)).val =
      .finished (kdfUsed env sel kdfType saltB64) ikm key := by
  obtain ⟨reads, hrecv⟩ := @obs_recvClassical env combo s
  have hclassical : (env.obs s (recvClassical combo)).val.isSome :=
    isSome_recvClassical.2 fun hclassical => by
      obtain ⟨cliPub, srvPriv, hpub, hgen⟩ := hgoes.classical hclassical
      exact ⟨cliPub, srvPriv, hpub, hgen, hchecks.classical hclassical cliPub srvPriv hpub hgen⟩
  obtain ⟨classical, hval⟩ := Option.isSome_iff_exists.1 hclassical
  rw [hrecv] at hval
  dsimp only at hval
  rw [hval] at hrecv
  simp only [serve, Conn.monadLift_eq, ConnEnv.obs_bind, ConnEnv.obs_lift, Obs.mk_andThen, hrecv,
    Obs.andThen_val, eval_joinKeygen_of_room h]
  by_cases hkem : combo.HasKem
  · obtain ⟨k, ctMsg, hworker, hmsg⟩ := hgoes.kem hkem
    obtain ⟨qSecret, hct⟩ := @obs_recvCiphertext env (afterClassical combo s) k h ctMsg hmsg
      (hchecks.kem hkem k ctMsg hworker hmsg)
    simp only [if_pos hkem, hworker, Option.map_some, ConnEnv.obs_bind, Obs.andThen_val,
      val_exchangeKeys hkem, hct, ConnEnv.obs_lift]
    exact val_serverFinish
  · simp only [if_neg hkem, ConnEnv.obs_bind, Obs.andThen_val, val_exchangeKeys_not hkem,
      ConnEnv.obs_lift]
    exact val_serverFinish

theorem val_serve_not (h : HasRoom env)
    (hnot : ¬(GoesThrough env combo s ∧ PassesChecks env combo s)) :
    (env.obs s (serve combo sel kdfType saltB64)).val = .closed := by
  obtain ⟨reads, hrecv⟩ := @obs_recvClassical env combo s
  simp only [serve, Conn.monadLift_eq, ConnEnv.obs_bind, ConnEnv.obs_lift, Obs.mk_andThen,
    Obs.andThen_val]
  cases hval : (env.obs s (recvClassical combo)).val with
  | none => simp [obs_jsonServerClose]
  | some classical =>
    have hparts := isSome_recvClassical.1 (Option.isSome_iff_exists.2 ⟨classical, hval⟩)
    have hrest : (env.obs s (recvClassical combo)).rest = afterClassical combo s := by rw [hrecv]
    simp only [ConnEnv.obs_bind, ConnEnv.obs_lift, Obs.andThen_val, eval_joinKeygen_of_room h, hrest]
    by_cases hkem : combo.HasKem
    · cases hworker : (pqcKeygenWorker combo.pqcName).eval env.sys with
      | none =>
        simp [hkem, obs_jsonServerClose]
      | some k =>
        have hct : ∀ ctMsg, (afterClassical combo s).head?.join = some ctMsg →
            ¬CiphertextDecodes env k ctMsg := by
          refine fun ctMsg hmsg hdecodes => hnot (goesThrough_and_passesChecks hparts fun _ => ?_)
          exact ⟨k, ctMsg, hworker, hmsg, hdecodes⟩
        simp only [if_pos hkem, Option.map_some, ConnEnv.obs_bind, Obs.andThen_val,
          val_exchangeKeys hkem, obs_recvCiphertext_not hct,
          obs_jsonServerClose]
    · exact absurd (goesThrough_and_passesChecks hparts fun hk => absurd hk hkem) hnot

theorem yields_serverFinish {salt : Option (List UInt8)} {cSecret qSecret : Secret} :
    env.Yields (serverFinish combo sel kdfType salt cSecret qSecret)
      (UsesKdf ((chooseKdf sel kdfType salt).eval env.sys)) := fun s => by
  obtain ⟨ikm, key, hval⟩ := @val_serverFinish env combo s sel kdfType salt cSecret qSecret
  rw [hval]
  exact usesKdf_finished

/-- Whatever the client sends, the KDF is the one read when the session key is derived. -/
theorem yields_serve :
    env.Yields (serve combo sel kdfType saltB64) (UsesKdf (kdfUsed env sel kdfType saltB64)) := by
  refine ConnEnv.yields_lift_bind (ConnEnv.yields_lift_bind (ConnEnv.yields_bind fun classical => ?_))
  cases classical with
  | none => exact ConnEnv.yields_bind fun _ => yields_jsonServerClose
  | some classical =>
    refine ConnEnv.yields_bind fun kem => ?_
    cases kem with
    | none => exact ConnEnv.yields_bind fun _ => yields_jsonServerClose
    | some kem =>
      refine ConnEnv.yields_bind fun outcome => ?_
      cases outcome with
      | crashed => exact ConnEnv.yields_ret nofun
      | closed => exact ConnEnv.yields_bind fun _ => yields_jsonServerClose
      | ok qSecret =>
        exact ConnEnv.yields_bind fun _ => yields_serverFinish

end Serve

theorem val_handleClient_nil : (env.obs [] handleClient).val = .closed := by
  rw [handleClient, ConnEnv.obs_bind, obs_recvJsonLine_nil]
  rfl

theorem val_handleClient_none : (env.obs (none :: s) handleClient).val = .closed := by
  rw [handleClient, ConnEnv.obs_bind, obs_recvJsonLine_cons]
  rfl

theorem val_handleClient_unknown {sel : Json}
    (hcombo : getComboById algorithmCombos (sel.getInt "combo_id" (-1)) = none) :
    (env.obs (some sel :: s) handleClient).val = .closed := by
  rw [handleClient, ConnEnv.obs_bind, obs_recvJsonLine_cons, Obs.andThen_val]
  dsimp only
  rw [hcombo]
  rfl

theorem val_handleClient {sel : Json}
    (hcombo : getComboById algorithmCombos (sel.getInt "combo_id" (-1)) = some combo) :
    (env.obs (some sel :: s) handleClient).val =
      (env.obs s (serve combo (Parsed.delete ⟨sel, false⟩) (sel.getStr "kdf_type")
        (sel.getStr "salt"))).val := by
  rw [handleClient, ConnEnv.obs_bind, obs_recvJsonLine_cons, Obs.andThen_val]
  dsimp only
  rw [hcombo]

end Baseline

/-! ## The JSON path of the server of `c_dispatch` -/

namespace Dispatch

variable {k : ServerKem} {kem : Option ServerKem} {srvPub : List UInt8}

/-- The key pair is the same, be it made in sequence or by a thread. -/
theorem eval_serverKeygen_eq :
    (serverKeygen combo).eval env.sys =
      if combo.HasKem then ((pqcKeygenWorker combo.pqcName).eval env.sys).map some
      else some none := by
  rw [serverKeygen, Prog.eval_ite]
  by_cases hkem : combo.HasKem
  · rw [if_pos hkem, if_pos hkem]
    simp only [pqcKeygenWorker, Prog.op_eq, Prog.call_bind, Prog.ret_bind, Prog.pure_eq,
      Prog.eval_call]
    cases env.sys (.oqsKemNew combo.pqcName) with
    | none => rfl
    | some m =>
      simp only [Prog.eval_call]
      cases env.sys (.malloc .publicKey m.lengthPublicKey) <;>
        cases env.sys (.malloc .secretKey m.lengthSecretKey) <;>
        cases hpair : env.sys (.oqsKemKeypair m) <;>
        simp [hpair]
  · rw [if_neg hkem, if_neg hkem]
    rfl

theorem obs_recvClassicalJson :
    ∃ reads, env.obs s (recvClassicalJson combo kem) =
      ⟨if combo.HasClassical then
          (clientPub env s).bind fun cliPub => (serverExchange combo kem cliPub).eval env.sys
        else some ⟨none, [], .none⟩, afterClassical combo s, reads, [], false⟩ := by
  rw [recvClassicalJson, ConnEnv.obs_ite, afterClassical]
  by_cases hclassical : combo.HasClassical
  · obtain ⟨reads, hobs⟩ := @obs_recvClientPub env s
    rw [if_pos hclassical, if_pos hclassical, if_pos hclassical, ConnEnv.obs_bind, hobs]
    cases clientPub env s with
    | none =>
      simp only [Obs.andThen, Conn.monadLift_eq, ConnEnv.obs_bind, ConnEnv.obs_lift, Prog.pure_eq,
        ConnEnv.obs_ret]
      exact ⟨_, rfl⟩
    | some cliPub =>
      simp only [Obs.andThen, Conn.monadLift_eq, ConnEnv.obs_lift]
      exact ⟨_, rfl⟩
  · rw [if_neg hclassical, if_neg hclassical, if_neg hclassical]
    exact ⟨[], rfl⟩

theorem isSome_recvClassicalJson :
    (env.obs s (recvClassicalJson combo kem)).val.isSome ↔ (combo.HasClassical →
      ∃ cliPub srvPriv, clientPub env s = some cliPub ∧
        (cryptoGenerateKeypair .our combo.classicalCurve).eval env.sys = some srvPriv) := by
  obtain ⟨reads, hobs⟩ := @obs_recvClassicalJson env combo s kem
  rw [hobs]
  by_cases hclassical : combo.HasClassical
  · simp only [hclassical, true_implies, serverExchange, if_true, Prog.eval_bind]
    cases clientPub env s with
    | none => simp
    | some cliPub =>
      cases hgen : (cryptoGenerateKeypair .our combo.classicalCurve).eval env.sys <;> simp
  · simp [hclassical]

/-- Whatever the ciphertext is, the server goes on. -/
theorem val_recvCiphertextJson (h : HasRoom env) {ctMsg : Json}
    (hmsg : s.head?.join = some ctMsg) :
    ∃ qSecret, (env.obs s (recvCiphertextJson k)).val = .ok qSecret := by
  obtain ⟨reads, hobs⟩ := @obs_recvJsonLine env s
  rw [recvCiphertextJson, ConnEnv.obs_bind, hobs, hmsg]
  simp only [Obs.andThen, Conn.monadLift_eq, Conn.sys_eq, Prog.call_bind, Prog.ret_bind,
    ConnEnv.obs_call_sys, h.malloc, ConnEnv.obs_bind, ConnEnv.obs_lift]
  cases (decodeCiphertext true k ctMsg).eval env.sys with
  | none => exact ⟨.none, by simp [Obs.map]⟩
  | some ct =>
    obtain ⟨qSecret, hdecaps⟩ := @eval_decapsUnchecked env k h ct
    exact ⟨qSecret, by simp [hdecaps, Obs.map]⟩

theorem val_recvCiphertextJson_not (hmsg : s.head?.join = none) :
    (env.obs s (recvCiphertextJson k)).val = .closed := by
  obtain ⟨reads, hobs⟩ := @obs_recvJsonLine env s
  rw [recvCiphertextJson, ConnEnv.obs_bind, hobs, hmsg]
  simp [Conn.monadLift_eq, Obs.andThen]

theorem val_exchangeKeysJson :
    (env.obs s (exchangeKeysJson srvPub (some k))).val =
      (env.obs s (recvCiphertextJson k)).val := by
  obtain ⟨sent, hobs⟩ := @obs_sendKeys env s k srvPub [routeField]
  rw [exchangeKeysJson, ConnEnv.obs_bind, hobs, Obs.andThen_val]

theorem val_exchangeKeysJson_none :
    (env.obs s (exchangeKeysJson srvPub none)).val = .ok .none := by
  obtain ⟨sent, hobs⟩ := @obs_sendClassicalKey env s srvPub [routeField]
  rw [exchangeKeysJson, ConnEnv.obs_bind, hobs, Obs.andThen_val]
  rfl

/-! ### The run -/

section Serve

variable {sel : Parsed} {kdfType : CString} {saltB64 : Option CString} {dmode : DispatchMode}
  {t₀ : ℚ}

theorem val_serverFinishJson {kdf : Kdf} {cSecret qSecret : Secret} :
    ∃ ikm key, (env.obs s (serverFinishJson combo dmode t₀ kdf cSecret qSecret)).val =
      .finished kdf ikm key := by
  simp only [serverFinishJson, Conn.monadLift_eq, ConnEnv.obs_bind, ConnEnv.obs_lift,
    Obs.mk_andThen, Obs.andThen_val]
  exact ⟨_, _, rfl⟩

theorem val_serveJson (h : HasRoom env) (hgoes : GoesThrough env combo s) :
    ∃ ikm key, (env.obs s (serveJson combo sel kdfType saltB64 dmode t₀)).val =
      .finished (chooseKdfJson kdfType ((decodeSalt sel saltB64).eval env.sys)) ikm key := by
  have hkeygen : ∃ kem, (serverKeygen combo).eval env.sys = some kem ∧
      ∀ srvPub, ∃ qSecret, (env.obs (afterClassical combo s)
        (exchangeKeysJson srvPub kem)).val = .ok qSecret := by
    rw [eval_serverKeygen_eq]
    by_cases hkem : combo.HasKem
    · obtain ⟨k, ctMsg, hworker, hmsg⟩ := hgoes.kem hkem
      refine ⟨some k, by rw [if_pos hkem, hworker, Option.map_some], fun srvPub => ?_⟩
      rw [val_exchangeKeysJson]
      exact val_recvCiphertextJson h hmsg
    · exact ⟨none, if_neg hkem, fun srvPub => ⟨_, val_exchangeKeysJson_none⟩⟩
  obtain ⟨kem, hkeygen, hexchange⟩ := hkeygen
  obtain ⟨reads, hrecv⟩ := @obs_recvClassicalJson env combo s kem
  have hclassical := (@isSome_recvClassicalJson env combo s kem).2 hgoes.classical
  rw [hrecv] at hclassical
  obtain ⟨classical, hval⟩ := Option.isSome_iff_exists.1 hclassical
  dsimp only at hval
  rw [hval] at hrecv
  obtain ⟨qSecret, hexchange⟩ := hexchange classical.pub
  simp only [serveJson, Conn.monadLift_eq, ConnEnv.obs_bind, ConnEnv.obs_lift, Obs.mk_andThen,
    hkeygen, hrecv, Obs.andThen_val, hexchange]
  exact val_serverFinishJson

theorem val_serveJson_not (hnot : ¬GoesThrough env combo s) :
    (env.obs s (serveJson combo sel kdfType saltB64 dmode t₀)).val = .closed := by
  simp only [serveJson, Conn.monadLift_eq, ConnEnv.obs_bind, ConnEnv.obs_lift, Obs.mk_andThen]
  cases hkeygen : (serverKeygen combo).eval env.sys with
  | none => rfl
  | some kem =>
    obtain ⟨reads, hrecv⟩ := @obs_recvClassicalJson env combo s kem
    simp only [ConnEnv.obs_bind, Obs.andThen_val]
    cases hval : (env.obs s (recvClassicalJson combo kem)).val with
    | none => rfl
    | some classical =>
      have hclassical := isSome_recvClassicalJson.1 (Option.isSome_iff_exists.2 ⟨classical, hval⟩)
      rw [eval_serverKeygen_eq] at hkeygen
      by_cases hkem : combo.HasKem
      · rw [if_pos hkem, Option.map_eq_some_iff] at hkeygen
        obtain ⟨k, hworker, rfl⟩ := hkeygen
        have hmsg : (afterClassical combo s).head?.join = none := by
          by_contra hsome
          obtain ⟨ctMsg, hmsg⟩ := Option.ne_none_iff_exists'.1 hsome
          exact hnot ⟨hclassical, fun _ => ⟨k, ctMsg, hworker, hmsg⟩⟩
        have hrest : (env.obs s (recvClassicalJson combo (some k))).rest = afterClassical combo s := by
          rw [hrecv]
        simp only [ConnEnv.obs_bind, Obs.andThen_val, hrest, val_exchangeKeysJson,
          val_recvCiphertextJson_not hmsg, obs_jsonServerClose]
      · exact absurd ⟨hclassical, fun hk => absurd hk hkem⟩ hnot

theorem yields_serverFinishJson {kdf : Kdf} {cSecret qSecret : Secret} :
    env.Yields (serverFinishJson combo dmode t₀ kdf cSecret qSecret) (UsesKdf kdf) := fun s => by
  obtain ⟨ikm, key, hval⟩ := @val_serverFinishJson env combo s dmode t₀ kdf cSecret qSecret
  rw [hval]
  exact usesKdf_finished

theorem yields_serveJson :
    env.Yields (serveJson combo sel kdfType saltB64 dmode t₀)
      (UsesKdf (chooseKdfJson kdfType ((decodeSalt sel saltB64).eval env.sys))) := by
  refine ConnEnv.yields_lift_bind (ConnEnv.yields_bind fun kem => ?_)
  cases kem with
  | none => exact yields_jsonServerClose
  | some kem =>
    refine ConnEnv.yields_bind fun classical => ?_
    cases classical with
    | none => exact yields_jsonServerClose
    | some classical =>
      refine ConnEnv.yields_bind fun outcome => ?_
      cases outcome with
      | crashed => exact ConnEnv.yields_ret nofun
      | closed => exact ConnEnv.yields_bind fun _ => yields_jsonServerClose
      | ok qSecret =>
        exact ConnEnv.yields_bind fun _ => yields_serverFinishJson

end Serve

theorem val_handleClientJson_nil : (env.obs [] handleClientJson).val = .closed := by
  rw [handleClientJson, Conn.sys_eq, Prog.call_bind, ConnEnv.obs_call_sys, Prog.ret_bind,
    ConnEnv.obs_bind, obs_recvJsonLine_nil]
  rfl

theorem val_handleClientJson_none : (env.obs (none :: s) handleClientJson).val = .closed := by
  rw [handleClientJson, Conn.sys_eq, Prog.call_bind, ConnEnv.obs_call_sys, Prog.ret_bind,
    ConnEnv.obs_bind, obs_recvJsonLine_cons]
  rfl

theorem val_handleClientJson_unknown {sel : Json}
    (hcombo : getComboById algorithmCombos (sel.getInt "combo_id" (-1)) = none) :
    (env.obs (some sel :: s) handleClientJson).val = .closed := by
  rw [handleClientJson, Conn.sys_eq, Prog.call_bind, ConnEnv.obs_call_sys, Prog.ret_bind,
    ConnEnv.obs_bind, obs_recvJsonLine_cons, Obs.andThen_val]
  dsimp only
  rw [hcombo]
  rfl

theorem val_handleClientJson {sel : Json}
    (hcombo : getComboById algorithmCombos (sel.getInt "combo_id" (-1)) = some combo) :
    (env.obs (some sel :: s) handleClientJson).val =
      (env.obs s (serveJson combo (Parsed.delete ⟨sel, false⟩) (kdfBuf (sel.getStr "kdf_type"))
        (sel.getStr "salt") (parseDispatchMode (sel.getStr "dispatch_mode"))
        (env.sys (.nowMs .start)))).val := by
  rw [handleClientJson, Conn.sys_eq, Prog.call_bind, ConnEnv.obs_call_sys, Prog.ret_bind,
    ConnEnv.obs_bind, obs_recvJsonLine_cons, Obs.andThen_val]
  dsimp only
  rw [hcombo]

end Dispatch

end HybridPqc
