import HybridPqc.Baseline.ClientSecrets
import HybridPqc.Lib.Duplex
import HybridPqc.Python.Libraries

/-!
# Agreement of the JSON handshake

A client, in C (`Baseline.executeHandshake`) or in Python (`executeHandshake`), and
`handleClientConnection` at both ends of a connection, where no call fails.

Both clients send the same lines, and expect the same ones (`ClientRuns`); these are
those that the server expects, and sends (`server_runs`). Hence one run, where the lines are
received one after the other, tells how all runs end (`agrees_of_clientRuns`,
`json_handshake_agrees`).
-/

namespace HybridPqc

open Dispatch (ServerKem classicalKey classicalPub agreedIkm)

namespace Python

/-! ## The lines -/

section Lines

variable (lib : CryptoLib) (combo : AlgoCombo) (kdfType : CString) (cKey sKey : EvpPkey)

/-- A salt in a `ProfileSelect`. -/
def saltField : Option (List UInt8) → Json
  | some salt => .string (Base64.encode salt)
  | none => .null

/-- The `ProfileSelect`. -/
def selectLine : Option Json :=
  let combo := ofAlgoCombo combo
  some (setupPayload combo kdfType (saltField (currentSalt combo kdfType)))

/-- The `ClientHello`, where the profile has one. -/
def helloLines : List (Option Json) :=
  if combo.HasClassical then [some (Baseline.clientHello (Base64.encode (lib.pub cKey)))] else []

/-- The classical key of the server, where the profile has one, -/
def classicalFields : List (CString × Json) :=
  if combo.HasClassical then [(cstr "c_pub", .string (Base64.encode (lib.pub sKey)))] else []

/-- and its KEM key. -/
def kemFields (pk : List UInt8) : List (CString × Json) :=
  if combo.HasKem then [(cstr "q_pk", .string (Base64.encode pk))] else []

/-- The keys of the server. -/
def keysLine (pk : List UInt8) : Json :=
  .object (classicalFields lib combo sKey ++ kemFields combo pk)

/-- The ciphertext, where the profile has one. -/
def ciphertextLines (ct : List UInt8) : List (Option Json) :=
  if combo.HasKem then [some (Baseline.pqcCiphertext (Base64.encode ct))] else []

/-- The session key that the ends agree on. -/
def agreedKey (ss : List UInt8) : Bytes 32 :=
  lib.derive (agreedIkm lib combo cKey sKey ss) combo.info (clientKdf (ofAlgoCombo combo) kdfType)

end Lines

section Fields

variable {lib : CryptoLib} {combo : AlgoCombo} {sKey : EvpPkey} {pk : List UInt8}

theorem item_keysLine_cPub (hc : combo.HasClassical) :
    item (keysLine lib combo sKey pk) "c_pub" = some (.string (Base64.encode (lib.pub sKey))) := by
  rw [keysLine, classicalFields, if_pos hc, kemFields]
  split <;> rfl

theorem item_keysLine_qPk (hq : combo.HasKem) :
    item (keysLine lib combo sKey pk) "q_pk" = some (.string (Base64.encode pk)) := by
  rw [keysLine, classicalFields, kemFields, if_pos hq]
  split <;> rfl

theorem getStr_keysLine_cPub (hc : combo.HasClassical) :
    (keysLine lib combo sKey pk).getStr "c_pub" = some (Base64.encode (lib.pub sKey)) := by
  rw [keysLine, classicalFields, if_pos hc, kemFields]
  split <;> rfl

theorem getStr_keysLine_qPk (hq : combo.HasKem) :
    (keysLine lib combo sKey pk).getStr "q_pk" = some (Base64.encode pk) := by
  rw [keysLine, classicalFields, kemFields, if_pos hq]
  split <;> rfl

end Fields

/-! ## The secrets -/

section Secrets

variable {lib : CryptoLib} {combo : AlgoCombo} {cKey sKey : EvpPkey} {ss : List UInt8}

/-- The classical secret, where the profile has one. -/
def classicalPart (lib : CryptoLib) (combo : AlgoCombo) (cKey sKey : EvpPkey) :
    Option (List UInt8) :=
  if combo.HasClassical then some (lib.ecdh cKey sKey) else none

/-- The KEM secret, where the profile has one. -/
def kemPart (combo : AlgoCombo) (ss : List UInt8) : Option (List UInt8) :=
  if combo.HasKem then some ss else none

/-- Both are combined to the keying material of the clients in C. -/
theorem combinedInput_parts (h : combo ∈ Baseline.algorithmCombos)
    (hss : combo.HasKem → ss ≠ []) :
    combinedInput (classicalPart lib combo cKey sKey) (kemPart combo ss) =
      some (agreedIkm lib combo cKey sKey ss) := by
  have hecdh : lib.ecdh cKey sKey ≠ [] := List.length_pos_iff.1 (lib.length_ecdh cKey sKey).1
  rw [classicalPart, kemPart, agreedIkm]
  by_cases hc : combo.HasClassical <;>
    by_cases hq : combo.HasKem
  · simp [hc, hq, combinedInput, Option.filter, hecdh, hss hq]
  · simp [hc, hq, combinedInput, Option.filter, hecdh]
  · simp [hc, hq, combinedInput, Option.filter, hss hq]
  · exact absurd (hasClassical_or_hasKem h) (not_or.2 ⟨hc, hq⟩)

end Secrets

/-! ## The server -/

section Server

variable {lib : CryptoLib} {env : PyEnv} {combo : AlgoCombo} {kdfType : CString}
  {cKey sKey : EvpPkey} {s : List (Option Json)} {k : ServerKem}
  {ct : Bytes k.kem.lengthCiphertext} {ss : Bytes k.kem.lengthSharedSecret}

theorem obs_recvJson {e : ConnEnv (Option Json) PyPrim.Res} {line : Option Json} :
    e.obs (line :: s) recvJson = ⟨line, s, [(1, some [line])], [], false⟩ := by
  rw [recvJson, Conn.recv_eq, Prog.call_bind, ConnEnv.obs_call_recv, if_pos (by simp)]
  rfl

theorem obs_sendJson {obj : Json} : (ConnEnv.reliable env).obs s (sendJson obj) =
    ⟨true, s, [], [[some obj]], false⟩ := rfl

theorem eval_clientSalt_setupPayload {pcombo : PyCombo} (hdecodes : DecodesBase64 env) :
    (clientSalt (setupPayload pcombo kdfType (saltField (currentSalt pcombo kdfType)))).eval env =
      some (currentSalt pcombo kdfType) := by
  rw [currentSalt]
  split
  · have hitem : (item (setupPayload pcombo kdfType (saltField (some staticSalt)))
        "salt").filter truthy = some (.string (Base64.encode staticSalt)) := rfl
    simp [clientSalt, hitem, eval_b64d_encode hdecodes]
  · rfl

/-- The server reads a `ProfileSelect` as the client has written it. -/
theorem eval_readProfileSelect (h : combo ∈ Baseline.algorithmCombos) (hdecodes : DecodesBase64 env) :
    (readProfileSelect (setupPayload (ofAlgoCombo combo) kdfType
      (saltField (currentSalt (ofAlgoCombo combo) kdfType)))).eval env =
      some ⟨ofAlgoCombo combo, .string kdfType, currentSalt (ofAlgoCombo combo) kdfType⟩ := by
  have hid (salt : Json) : item (setupPayload (ofAlgoCombo combo) kdfType salt) "combo_id" =
    some (.number (ofAlgoCombo combo).id) := rfl
  have hkdf (salt : Json) : item (setupPayload (ofAlgoCombo combo) kdfType salt) "kdf_type" =
    some (.string kdfType) := rfl
  simp [readProfileSelect, hid, hkdf, getComboById_ofAlgoCombo h,
    eval_clientSalt_setupPayload hdecodes]

/-- The classical exchange. -/
theorem obs_serverClassical (h : combo ∈ Baseline.algorithmCombos) (hserver : PyHostWorks lib env)
    (hclassical : combo.HasClassical →
      PyClassicalWorks lib (ofAlgoCombo combo).classicalName env sKey cKey) :
    ∃ reads, Obs.AllRead reads ∧ (ConnEnv.reliable env).obs (helloLines lib combo cKey ++ s)
        (serverClassical (ofAlgoCombo combo)) =
      ⟨some (classicalPart lib combo cKey sKey, classicalFields lib combo sKey), s, reads, [],
        false⟩ := by
  simp only [serverClassical, hasClassical_ofAlgoCombo h, helloLines, classicalPart,
    classicalFields]
  by_cases hc : combo.HasClassical
  · have hname := isCurveName_ofAlgoCombo h hc
    have hitem : item (Baseline.clientHello (Base64.encode (lib.pub cKey))) "c_pub" =
      some (.string (Base64.encode (lib.pub cKey))) := rfl
    refine ⟨[(1, some [some (Baseline.clientHello (Base64.encode (lib.pub cKey)))])], by simp, ?_⟩
    have hworks := hclassical hc
    simp only [if_pos hc, List.cons_append, List.nil_append, ConnEnv.obs_bind, obs_recvJson,
      Conn.monadLift_eq, Obs.andThen, hitem, ConnEnv.obs_lift]
    simp only [ConnEnv.reliable, eval_b64d_encode hserver.decodes,
      eval_generateClassicalKexKeypair hworks hname, eval_deriveClassicalKexSecret hworks hname,
      eval_b64e hserver, ConnEnv.obs_bind, ConnEnv.obs_lift, Obs.andThen]
    rw [lib.ecdh_comm]
    rfl
  · simp only [if_neg hc]
    exact ⟨[], by simp, rfl⟩

/-- The server sends its keys, and receives the ciphertext. -/
theorem serverQuantum_runs {α : Type} (h : combo ∈ Baseline.algorithmCombos)
    (hserver : PyHostWorks lib env)
    (hkem : combo.HasKem → PyDecapsulating (ofAlgoCombo combo).pqcName env k ct ss)
    (f : Option (Option (List UInt8)) → PyNet α) :
    ∃ q reads, End.Runs env (serverQuantum (ofAlgoCombo combo) (classicalFields lib combo sKey) >>= f)
        [] [] [] q [] [some (keysLine lib combo sKey k.pk.1)] ∧
      End.Runs env q (ciphertextLines combo ct.1) [] reads (f (some (kemPart combo ss.1))) [] [] := by
  simp only [serverQuantum, hasKem_ofAlgoCombo h, keysLine, kemFields, ciphertextLines, kemPart]
  by_cases hq : combo.HasKem
  · have hdecaps := hkem hq
    have hct : item (Baseline.pqcCiphertext (Base64.encode ct.1)) "ct" =
      some (.string (Base64.encode ct.1)) := rfl
    simp only [if_pos hq, Prog.bind_assoc, Conn.monadLift_eq]
    refine ⟨?q, [(1, some [some (Baseline.pqcCiphertext (Base64.encode ct.1))])] ++ [], ?sends,
      ?receives⟩
    case sends =>
      refine .sys ?_
      rw [hdecaps.new]
      dsimp only
      rw [Prog.bind_assoc]
      refine .sys ?_
      rw [hdecaps.keypair]
      dsimp only
      rw [Prog.bind_assoc]
      refine .lift ?_
      rw [eval_b64e hserver, Prog.bind_assoc]
      exact .of_obs obs_sendJson Obs.allRead_nil rfl
    case receives =>
      simp only [Bool.not_true, Bool.false_eq_true, if_false, Prog.bind_assoc]
      refine (End.Runs.of_obs obs_recvJson (by simp) rfl).trans ?_
      dsimp only
      rw [hct]
      dsimp only
      rw [Prog.bind_assoc]
      refine .lift ?_
      rw [eval_b64d_encode hserver.decodes]
      dsimp only
      rw [Prog.bind_assoc]
      refine .sys ?_
      rw [hdecaps.decaps]
      exact .refl
  · simp only [if_neg hq, List.append_nil, Prog.bind_assoc]
    exact ⟨_, [], .of_obs obs_sendJson Obs.allRead_nil rfl, .refl⟩

/-- What is left of the server after the KEM part. -/
def afterQuantum (lib : CryptoLib) (combo : AlgoCombo) (kdfType : CString) (cKey sKey : EvpPkey)
    (qSecret : Option (Option (List UInt8))) : PyNet PyServerEnd := do
  let sessionKey ← (do
    let some qSecret := qSecret | return none
    serverFinish ⟨ofAlgoCombo combo, .string kdfType, currentSalt (ofAlgoCombo combo) kdfType⟩
      (classicalPart lib combo cKey sKey) qSecret : PyNet (Option (Bytes 32)))
  Conn.close
  match sessionKey with
  | none => return .raised
  | some sessionKey => return .finished sessionKey

/-- What the server does, line after line. -/
theorem server_runs (h : combo ∈ Baseline.algorithmCombos)
    (hserver : PyServerWorks lib (ofAlgoCombo combo) env cKey sKey k ct ss) :
    ∃ q reads reads',
      End.Runs env handleClientConnection (selectLine combo kdfType :: helloLines lib combo cKey) []
        reads q [] [some (keysLine lib combo sKey k.pk.1)] ∧
      End.Runs env q (ciphertextLines combo ct.1) [] reads'
        (Conn.close >>= fun _ =>
          .ret (.finished (agreedKey lib combo kdfType cKey sKey ss.1))) [] [some serverFinished] := by
  obtain ⟨helloReads, hhelloReads, hhello⟩ :=
    @obs_serverClassical lib env combo cKey sKey [] h hserver.works fun hc =>
      hserver.classical ((hasClassical_ofAlgoCombo h).2 hc)
  rw [List.append_nil] at hhello
  have hkem (hq : combo.HasKem) := hserver.kem ((hasKem_ofAlgoCombo h).2 hq)
  have hss (hq : combo.HasKem) : ss.1 ≠ [] := by
    rw [← List.length_pos_iff, ss.2]
    exact (hkem hq).lengthSharedSecret.1
  obtain ⟨q, ctReads, hsends, hreceives⟩ := @serverQuantum_runs lib env combo sKey k ct ss _ h
    hserver.works hkem (afterQuantum lib combo kdfType cKey sKey)
  refine ⟨q, [(1, some [selectLine combo kdfType])] ++ (helloReads ++ []), ctReads ++ [], ?_, ?_⟩
  · rw [handleClientConnection, serve]
    simp only [Prog.bind_assoc, Conn.monadLift_eq]
    refine (End.Runs.of_obs obs_recvJson (by simp) rfl).trans ?_
    rw [selectLine]
    dsimp only
    rw [Prog.bind_assoc]
    refine .lift ?_
    rw [eval_readProfileSelect h hserver.works.decodes]
    dsimp only
    rw [Prog.bind_assoc]
    refine (End.Runs.of_obs hhello hhelloReads rfl).trans ?_
    dsimp only
    rw [Prog.bind_assoc]
    exact hsends
  · refine hreceives.trans ?_
    have hkdf : Selection.kdf ⟨ofAlgoCombo combo, .string kdfType,
      currentSalt (ofAlgoCombo combo) kdfType⟩ = clientKdf (ofAlgoCombo combo) kdfType := rfl
    rw [afterQuantum, serverFinish, hkdf]
    simp only [Prog.bind_assoc, Conn.monadLift_eq]
    refine .lift ?_
    rw [eval_deriveSessionKey_works hserver.works (combinedInput_parts h hss)]
    dsimp only
    rw [Prog.bind_assoc]
    exact .of_obs obs_sendJson Obs.allRead_nil rfl

end Server

/-! ## The clients -/

section Client

variable (lib : CryptoLib) (combo : AlgoCombo) (kdfType : CString) (cKey sKey : EvpPkey)
  (k : ServerKem) (ct : Bytes k.kem.lengthCiphertext)

/-- What a client does, line after line: it sends its first lines, receives the keys of the
    server, sends its ciphertext, receives the `ServerFinished`, and returns `a`. -/
def ClientRuns {P : Type} {R : P → Type} {α : Type} (env : Prog.Env P R)
    (client : Conn (Option Json) P R α) (a : α) : Prop :=
  ∃ p p' reads reads',
    End.Runs env client [] [] [] p [] (selectLine combo kdfType :: helloLines lib combo cKey) ∧
    End.Runs env p [some (keysLine lib combo sKey k.pk.1)] [] reads p' [] (ciphertextLines combo ct.1) ∧
    End.Runs env p' [some serverFinished] [] reads' (Conn.close >>= fun _ => .ret a) [] []

end Client

/-! ### In Python -/

section PyClient

variable {lib : CryptoLib} {env : PyEnv} {combo : AlgoCombo} {kdfType : CString}
  {cKey sKey : EvpPkey} {s : List (Option Json)} {k : ServerKem}
  {ct : Bytes k.kem.lengthCiphertext} {ss : Bytes k.kem.lengthSharedSecret}

theorem obs_sendSetup (hclient : PyHostWorks lib env) :
    (ConnEnv.reliable env).obs s (sendSetup (ofAlgoCombo combo) kdfType) =
      ⟨true, s, [], [[selectLine combo kdfType]], false⟩ := by
  rw [sendSetup, selectLine]
  cases currentSalt (ofAlgoCombo combo) kdfType with
  | none => rfl
  | some salt =>
    simp only [Conn.monadLift_eq, ConnEnv.obs_bind, ConnEnv.obs_lift, Obs.mk_andThen, obs_sendJson,
      Prog.eval_bind, Prog.pure_eq, Prog.eval_ret]
    simp only [ConnEnv.reliable, eval_b64e hclient, saltField]

theorem obs_clientHello (h : combo ∈ Baseline.algorithmCombos) (hclient : PyHostWorks lib env)
    (hclassical : combo.HasClassical →
      PyClassicalWorks lib (ofAlgoCombo combo).classicalName env cKey sKey) :
    (ConnEnv.reliable env).obs s (clientHello (ofAlgoCombo combo)) =
      ⟨some (classicalKey combo cKey), s, [], (helloLines lib combo cKey).map ([·]), false⟩ := by
  simp only [clientHello, hasClassical_ofAlgoCombo h, helloLines, classicalKey]
  by_cases hc : combo.HasClassical
  · simp only [if_pos hc, Conn.monadLift_eq, ConnEnv.obs_bind, ConnEnv.obs_lift, Obs.mk_andThen]
    simp only [ConnEnv.reliable,
      eval_generateClassicalKexKeypair (hclassical hc) (isCurveName_ofAlgoCombo h hc),
      ConnEnv.obs_bind, ConnEnv.obs_lift, Obs.mk_andThen, eval_b64e hclient]
    rfl
  · simp only [if_neg hc]
    rfl

theorem eval_clientClassical (h : combo ∈ Baseline.algorithmCombos) (hclient : PyHostWorks lib env)
    (hclassical : combo.HasClassical →
      PyClassicalWorks lib (ofAlgoCombo combo).classicalName env cKey sKey) :
    (clientClassical (ofAlgoCombo combo) (classicalKey combo cKey)
      (keysLine lib combo sKey k.pk.1)).eval env = some (classicalPart lib combo cKey sKey) := by
  rw [classicalKey, classicalPart]
  by_cases hc : combo.HasClassical
  · simp [hc, clientClassical, item_keysLine_cPub hc, eval_b64d_encode hclient.decodes,
      eval_deriveClassicalKexSecret (hclassical hc) (isCurveName_ofAlgoCombo h hc)]
  · simp [hc, clientClassical]

theorem obs_clientQuantum (h : combo ∈ Baseline.algorithmCombos) (hclient : PyHostWorks lib env)
    (hkem : combo.HasKem → PyEncapsulating (ofAlgoCombo combo).pqcName env k ct ss) :
    (ConnEnv.reliable env).obs s (clientQuantum (ofAlgoCombo combo) (keysLine lib combo sKey k.pk.1)) =
      ⟨some (kemPart combo ss.1), s, [], (ciphertextLines combo ct.1).map ([·]), false⟩ := by
  simp only [clientQuantum, hasKem_ofAlgoCombo h, ciphertextLines, kemPart]
  by_cases hq : combo.HasKem
  · have henc := hkem hq
    have hnew : (ConnEnv.reliable env : ConnEnv (Option Json) _).sys
      (.keyEncapsulation (ofAlgoCombo combo).pqcName) = some k.kem := henc.new
    have hencaps : (ConnEnv.reliable env : ConnEnv (Option Json) _).sys
      (.encapSecret k.kem k.pk.1) = some (ct, ss) := henc.encaps
    simp only [if_pos hq, Conn.monadLift_eq, Conn.sys_eq, Prog.call_bind, Prog.ret_bind,
      ConnEnv.obs_call_sys, hnew, item_keysLine_qPk hq, ConnEnv.obs_bind, ConnEnv.obs_lift,
      Obs.mk_andThen]
    have hdecode := @eval_b64d_encode env k.pk.1 hclient.decodes
    have hencode := @eval_b64e lib env ct.1 hclient
    simp only [ConnEnv.reliable] at hencaps ⊢
    simp only [hdecode, ConnEnv.obs_call_sys, hencaps, ConnEnv.obs_bind, ConnEnv.obs_lift,
      Obs.mk_andThen, hencode]
    rfl
  · simp only [if_neg hq]
    rfl

/-- The client in Python. -/
theorem clientRuns_executeHandshake {host : CString} (h : combo ∈ Baseline.algorithmCombos)
    (hclient : PyClientWorks lib (ofAlgoCombo combo) env cKey sKey k ct ss host)
    (hss : combo.HasKem → ss.1 ≠ []) :
    ∃ ms, ClientRuns lib combo kdfType cKey sKey k ct env
      (executeHandshake host (ofAlgoCombo combo) kdfType)
      (.done ms (agreedKey lib combo kdfType cKey sKey ss.1)) := by
  have hclassical (hc : combo.HasClassical) :=
    hclient.classical ((hasClassical_ofAlgoCombo h).2 hc)
  have hkem (hq : combo.HasKem) := hclient.kem ((hasKem_ofAlgoCombo h).2 hq)
  refine ⟨(env (.perfCounter .stop) - env (.perfCounter .start)) * 1000, ?p, ?p',
    [(1, some [some (keysLine lib combo sKey k.pk.1)])] ++ [], [(1, some [some serverFinished])],
    ?start, ?secrets, ?finish⟩
  case start =>
    rw [executeHandshake]
    refine .sys ?_
    simp only [hclient.connect, Bool.not_true, Bool.false_eq_true, if_false]
    rw [handshake]
    simp only [Prog.bind_assoc, Conn.monadLift_eq]
    refine .sys ?_
    refine (End.Runs.of_obs (obs_sendSetup hclient.works) Obs.allRead_nil rfl).trans ?_
    simp only [Bool.not_true, Bool.false_eq_true, if_false, Prog.bind_assoc]
    refine .of_obs (obs_clientHello h hclient.works hclassical) Obs.allRead_nil ?_
    exact congrArg (selectLine combo kdfType :: ·) (List.flatMap_singleton' _)
  case secrets =>
    dsimp only
    rw [Prog.bind_assoc]
    refine (End.Runs.of_obs obs_recvJson (by simp) rfl).trans ?_
    dsimp only
    rw [Prog.bind_assoc]
    refine .lift ?_
    rw [eval_clientClassical h hclient.works hclassical]
    dsimp only
    rw [Prog.bind_assoc]
    refine .of_obs (obs_clientQuantum h hclient.works hkem) Obs.allRead_nil ?_
    exact List.flatMap_singleton' _
  case finish =>
    dsimp only
    rw [Prog.bind_assoc]
    refine .lift ?_
    rw [eval_deriveSessionKey_works hclient.works (combinedInput_parts h hss)]
    dsimp only
    rw [Prog.bind_assoc]
    refine (End.Runs.of_obs obs_recvJson (by simp) rfl).trans ?_
    exact .sys .refl

end PyClient

/-! ### In C -/

section Client

variable {lib : CryptoLib} {env : PrimEnv} {combo : AlgoCombo} {kdfType : CString}
  {cKey sKey : EvpPkey} {s : List (Option Json)} {k : ServerKem}
  {ct : Bytes k.kem.lengthCiphertext} {ss : Bytes k.kem.lengthSharedSecret} {host : CString}

theorem obs_sendProfileSelect_works (h : combo ∈ Baseline.algorithmCombos)
    (hworks : HostWorks lib env) (hcodes : CodesBase64 env) :
    (ConnEnv.reliable env).obs s (Baseline.sendProfileSelect combo kdfType) =
      ⟨(), s, [], [[selectLine combo kdfType]], false⟩ := by
  rw [Baseline.sendProfileSelect, selectLine, currentSalt_ofAlgoCombo h]
  split
  · have hencode := @eval_b64Encode lib env staticSalt hworks hcodes (by decide)
    simp only [Conn.monadLift_eq, ConnEnv.obs_bind, ConnEnv.obs_lift, Obs.mk_andThen,
      obs_sendJsonLine]
    simp only [ConnEnv.reliable, hencode]
    rfl
  · exact obs_sendJsonLine _ _ _

theorem obs_sendPub_works (hworks : HostWorks lib env) (hcodes : CodesBase64 env) :
    (ConnEnv.reliable env).obs s (Baseline.sendPub combo (classicalPub lib combo cKey)) =
      ⟨(), s, [], (helloLines lib combo cKey).map ([·]), false⟩ := by
  rw [Baseline.sendPub, classicalPub, helloLines]
  split
  · have hencode := @eval_b64Encode lib env (lib.pub cKey) hworks hcodes
      ((lib.length_pub cKey).2.trans_lt (by decide))
    simp only [Conn.monadLift_eq, ConnEnv.obs_bind, ConnEnv.obs_lift, Obs.mk_andThen,
      obs_sendJsonLine]
    simp only [ConnEnv.reliable, hencode]
    rfl
  · rfl

theorem obs_sendCiphertext_works (hworks : HostWorks lib env) (hcodes : CodesBase64 env)
    (hq : combo.HasKem) : (ConnEnv.reliable env).obs s (Baseline.sendCiphertext ct.1) =
      ⟨(), s, [], (ciphertextLines combo ct.1).map ([·]), false⟩ := by
  have hencode := @eval_b64Encode lib env ct.1 hworks hcodes
    (ct.2.trans_lt k.kem.lengthCiphertext_lt)
  rw [Baseline.obs_sendCiphertext, ciphertextLines, if_pos hq]
  simp only [ConnEnv.reliable, hencode]
  rfl

/-- The classical secret is the ECDH secret. -/
theorem eval_clientSecret_works (hcodes : CodesBase64 env)
    (hclassical : ClassicalWorks lib combo.classicalCurve env cKey sKey) (hc : combo.HasClassical) :
    ((Baseline.clientSecret combo (some cKey) (keysLine lib combo sKey k.pk.1)).eval env).bytes =
        lib.ecdh cKey sKey ∧
      ((Baseline.clientSecret combo (some cKey) (keysLine lib combo sKey k.pk.1)).eval env).len ≠ 0 := by
  have hpub : (Baseline.decodePub (keysLine lib combo sKey k.pk.1)).eval env = lib.pub sKey := by
    simp [Baseline.decodePub, getStr_keysLine_cPub hc,
      eval_b64Decode_encode hcodes (lib.length_pub sKey).2 (by decide)]
  have heval : (Baseline.clientSecret combo (some cKey) (keysLine lib combo sKey k.pk.1)).eval env =
      (classicalSecret combo.classicalCurve (some cKey) (lib.pub sKey)).eval env := by
    simp [Baseline.clientSecret, hpub, freePkey]
  rw [heval]
  exact hclassical.eval_classicalSecret

/-- The worker encapsulates. -/
theorem eval_clientPqcEncapsWorker_works (hworks : HostWorks lib env) (hcodes : CodesBase64 env)
    (hkem : Encapsulating combo.pqcName env k ct ss) :
    (Baseline.clientPqcEncapsWorker combo.pqcName (Base64.encode k.pk.1)).eval env =
      some (.copy ss.1, ct.1) := by
  have hlen : k.pk.1.length = k.kem.lengthPublicKey := k.pk.2
  have hdecode := @eval_b64Decode_encode env k.pk.1 _ hcodes hlen.le k.kem.lengthPublicKey_lt
  simp [Baseline.clientPqcEncapsWorker, hkem.new, hworks.malloc, hdecode, hlen, hkem.encaps,
    Option.filter]

theorem obs_finishHybrid_works (hworks : HostWorks lib env) (hcodes : CodesBase64 env)
    (hq : combo.HasKem) {cSecret qSecret : Secret} (hlen : cSecret.len ≠ 0) :
    (ConnEnv.reliable env).obs s (Baseline.finishHybrid cSecret (some (qSecret, ct.1))) =
      ⟨.ok cSecret qSecret, s, [], (ciphertextLines combo ct.1).map ([·]), false⟩ := by
  simp only [Baseline.finishHybrid, if_neg hlen, ConnEnv.obs_bind,
    obs_sendCiphertext_works hworks hcodes hq, Obs.andThen]
  simp

/-- The secrets of the client, with each profile. -/
theorem obs_hybridSecrets_works (hc : combo.HasClassical) (hq : combo.HasKem)
    (hclient : ClientWorks lib combo env cKey sKey k ct ss host) :
    (ConnEnv.reliable env).obs s
        (Baseline.hybridSecrets combo (some cKey) (keysLine lib combo sKey k.pk.1)) =
      ⟨.ok ((Baseline.clientSecret combo (some cKey) (keysLine lib combo sKey k.pk.1)).eval env)
        (.copy ss.1), s, [], (ciphertextLines combo ct.1).map ([·]), false⟩ := by
  have hlen := (@eval_clientSecret_works lib env combo cKey sKey k hclient.codes
    (hclient.classical hc) hc).2
  have hworker : (Baseline.clientPqcEncapsWorker combo.pqcName (Base64.encode k.pk.1)).eval
      (ConnEnv.reliable env : JsonEnv).sys = some (.copy ss.1, ct.1) :=
    eval_clientPqcEncapsWorker_works hclient.works hclient.codes (hclient.kem hq)
  have hcreate : (ConnEnv.reliable env : JsonEnv).sys .pthreadCreate = true := hclient.pthreadCreate
  simp only [Baseline.hybridSecrets, getStr_keysLine_qPk hq, Conn.sys_eq, Prog.call_bind,
    Prog.ret_bind, ConnEnv.obs_call_sys, hcreate, if_true, Conn.monadLift_eq, ConnEnv.obs_bind,
    ConnEnv.obs_lift, Obs.mk_andThen, hworker]
  exact obs_finishHybrid_works hclient.works hclient.codes hq hlen

theorem obs_quantumSecrets_works (hq : combo.HasKem)
    (hclient : ClientWorks lib combo env cKey sKey k ct ss host) :
    (ConnEnv.reliable env).obs s (Baseline.quantumSecrets combo (keysLine lib combo sKey k.pk.1)) =
      ⟨.ok .none (.copy ss.1), s, [], (ciphertextLines combo ct.1).map ([·]), false⟩ := by
  have hlen : k.pk.1.length = k.kem.lengthPublicKey := k.pk.2
  have hdecode : (b64Decode (Base64.encode k.pk.1) k.kem.lengthPublicKey).eval
      (ConnEnv.reliable env : JsonEnv).sys = some k.pk.1 :=
    eval_b64Decode_encode hclient.codes hlen.le k.kem.lengthPublicKey_lt
  have hpk (buf : Bytes k.kem.lengthPublicKey) : (buf.memcpy k.pk.1).1 = k.pk.1 := by
    rw [Bytes.memcpy_val buf hlen.le, hlen, List.drop_eq_nil_of_le buf.2.le, List.append_nil]
  have hnew : (ConnEnv.reliable env : JsonEnv).sys (.oqsKemNew combo.pqcName) = some k.kem :=
    (hclient.kem hq).new
  have hencaps (buf : Bytes k.kem.lengthPublicKey) :
      (ConnEnv.reliable env : JsonEnv).sys (.oqsKemEncaps k.kem (buf.memcpy k.pk.1).1) =
        ⟨true, ct, ss⟩ := by
    rw [hpk]
    exact (hclient.kem hq).encaps
  have hmalloc (buf : Buf) (size : ℕ) : (ConnEnv.reliable env : JsonEnv).sys (.malloc buf size) =
    true := hclient.works.malloc buf size
  simp only [Baseline.quantumSecrets, getStr_keysLine_qPk hq, Conn.sys_eq, Prog.call_bind,
    Prog.ret_bind, ConnEnv.obs_call_sys, hnew, hmalloc, Bool.not_true, Bool.or_self,
    Bool.false_eq_true, if_false, Conn.monadLift_eq, ConnEnv.obs_bind, ConnEnv.obs_lift,
    Obs.mk_andThen, hdecode, Option.getD_some, hencaps]
  rw [obs_sendCiphertext_works hclient.works hclient.codes hq]
  simp [Obs.andThen]

/-- The secrets of the client, with any profile. -/
theorem obs_clientSecrets_works (h : combo ∈ Baseline.algorithmCombos)
    (hclient : ClientWorks lib combo env cKey sKey k ct ss host)
    (hss : combo.HasKem → ss.1.length ≤ maxSharedSec) :
    ∃ cSecret qSecret, (ConnEnv.reliable env).obs s (Baseline.clientSecrets combo
        (classicalKey combo cKey) (keysLine lib combo sKey k.pk.1)) =
      ⟨.ok cSecret qSecret, s, [], (ciphertextLines combo ct.1).map ([·]), false⟩ ∧
      ikmOf cSecret qSecret = agreedIkm lib combo cKey sKey ss.1 := by
  rcases profile_of_mem h with hprofile | hprofile | hprofile
  · have hc : combo.HasClassical := .inl hprofile
    have hq : combo.HasKem := .inl hprofile
    rw [Baseline.clientSecrets, if_pos hprofile, classicalKey, if_pos hc]
    refine ⟨_, _, obs_hybridSecrets_works hc hq hclient, ?_⟩
    rw [ikmOf, (eval_clientSecret_works hclient.codes (hclient.classical hc) hc).1,
      Secret.bytes_copy (hss hq), agreedIkm, if_pos hc, if_pos hq]
  · have hc : combo.HasClassical := .inr hprofile
    have hq : ¬combo.HasKem := by
      rw [AlgoCombo.HasKem, hprofile]
      decide
    rw [Baseline.clientSecrets, if_neg (by rw [hprofile]; decide), if_pos hprofile, classicalKey,
      if_pos hc, ciphertextLines, if_neg hq]
    refine ⟨(Baseline.clientSecret combo (some cKey) (keysLine lib combo sKey k.pk.1)).eval env,
      .none, by simp [Conn.monadLift_eq, ConnEnv.reliable, Obs.andThen], ?_⟩
    rw [ikmOf, (eval_clientSecret_works hclient.codes (hclient.classical hc) hc).1,
      Secret.bytes_none, agreedIkm, if_pos hc, if_neg hq]
  · have hc : ¬combo.HasClassical := by
      rw [AlgoCombo.HasClassical, hprofile]
      decide
    have hq : combo.HasKem := .inr hprofile
    rw [Baseline.clientSecrets, if_neg (by rw [hprofile]; decide),
      if_neg (by rw [hprofile]; decide), if_pos hprofile]
    refine ⟨_, _, obs_quantumSecrets_works hq hclient, ?_⟩
    rw [ikmOf, Secret.bytes_none, Secret.bytes_copy (hss hq), agreedIkm, if_neg hc, if_pos hq]

theorem finishHandshake_eq {tStart : ℚ} {cSecret qSecret : Secret} :
    Baseline.finishHandshake combo kdfType tStart cSecret qSecret = (do
      let r ← (do
        let salt := if Baseline.UseSalt combo kdfType then some staticSalt else none
        let key ← HybridPqc.deriveSessionKey kdfType (ikmOf cSecret qSecret) salt combo.info
        let _ ← recvJsonLine
        let tStop ← Conn.sys (.nowMs .stop)
        return .done (tStop - tStart) key)
      Conn.close
      return r) := by
  simp only [Baseline.finishHandshake, Prog.bind_assoc]
  rfl

/-- The client in C. -/
theorem clientRuns_baseline (h : combo ∈ Baseline.algorithmCombos)
    (hclient : ClientWorks lib combo env cKey sKey k ct ss host)
    (hss : combo.HasKem → ss.1.length ≤ maxSharedSec) :
    ∃ ms, ClientRuns lib combo kdfType cKey sKey k ct env
      (Baseline.executeHandshake host combo kdfType)
      (.done ms (some (agreedKey lib combo kdfType cKey sKey ss.1))) := by
  have hkeygen : (clientKeygen combo).eval env =
      some (classicalKey combo cKey, classicalPub lib combo cKey) :=
    eval_clientKeygen.2 ⟨Dispatch.generate_classicalKey hclient.classical,
      (Dispatch.exported_classicalKey hclient.classical).symm⟩
  obtain ⟨cSecret, qSecret, hsecrets, hikm⟩ :=
    @obs_clientSecrets_works lib env combo cKey sKey [] k ct ss host h hclient hss
  refine ⟨env (.nowMs .stop) - env (.nowMs .start), ?p, ?p',
    [(1, some [some (keysLine lib combo sKey k.pk.1)])] ++ [], [(1, some [some serverFinished])],
    ?start, ?secrets, ?finish⟩
  case start =>
    rw [Baseline.executeHandshake, Baseline.sendClientHello]
    simp only [Prog.bind_assoc, Conn.monadLift_eq]
    refine .sys ?_
    simp only [hclient.socket, Bool.not_true, Bool.false_eq_true, if_false, Prog.bind_assoc]
    refine .sys ?_
    simp only [hclient.connect, Bool.not_true, Bool.false_eq_true, if_false, Prog.bind_assoc]
    refine .sys ?_
    refine (End.Runs.of_obs (obs_sendProfileSelect_works h hclient.works hclient.codes)
      Obs.allRead_nil rfl).trans ?_
    refine .lift ?_
    rw [hkeygen]
    dsimp only
    rw [Prog.bind_assoc]
    refine .of_obs (obs_sendPub_works hclient.works hclient.codes) Obs.allRead_nil ?_
    exact congrArg (selectLine combo kdfType :: ·) (List.flatMap_singleton' _)
  case secrets =>
    dsimp only [Prog.ret_bind, Prog.pure_eq]
    refine (End.Runs.of_obs (obs_recvJsonLine_cons _ _ _) (by simp) rfl).trans ?_
    dsimp only
    refine .of_obs hsecrets Obs.allRead_nil ?_
    exact List.flatMap_singleton' _
  case finish =>
    dsimp only
    rw [finishHandshake_eq, hikm]
    have hkey := @eval_deriveSessionKey lib env hclient.works kdfType
      (agreedIkm lib combo cKey sKey ss.1)
      (if Baseline.UseSalt combo kdfType then some staticSalt else none) combo.info
    rw [sessionKey_eq_derive h] at hkey
    simp only [Prog.bind_assoc, Conn.monadLift_eq]
    refine .lift ?_
    rw [hkey]
    refine (End.Runs.of_obs (obs_recvJsonLine_cons _ _ _) (by simp) rfl).trans ?_
    exact .sys .refl

end Client

/-! ## The handshake -/

section Handshake

variable {P : Type} {R : P → Type} {α : Type} {lib : CryptoLib} {env : Prog.Env P R} {server : PyEnv}
  {client : Conn (Option Json) P R α} {combo : AlgoCombo} {kdfType : CString}
  {cKey sKey : EvpPkey} {k : ServerKem} {ct : Bytes k.kem.lengthCiphertext}
  {ss : Bytes k.kem.lengthSharedSecret}

/-- Both ends of a connection, before the handshake. -/
def handshakeStart (client : Conn (Option Json) P R α) :
    Duplex (Option Json) P PyPrim R PyPrim.Res α PyServerEnd where
  left := ⟨client, [], false, []⟩
  right := ⟨handleClientConnection, [], false, []⟩

/-- Both ends have returned, the client with `a`, the server with a session key; and no line
    is left. -/
structure Agreed (a : α) (sessionKey : Bytes 32)
    (t : Duplex (Option Json) P PyPrim R PyPrim.Res α PyServerEnd) : Prop where
  client : t.left.prog = .ret a
  server : t.right.prog = .ret (.finished sessionKey)
  toServer : t.toRight = []
  toClient : t.toLeft = []

/-- Whatever the interleaving of both ends: they are never blocked on one another, they do not
    run forever, and once they have run to their end, they have agreed. -/
structure Agrees (env : Prog.Env P R) (server : PyEnv) (client : Conn (Option Json) P R α) (a : α)
    (sessionKey : Bytes 32) : Prop where
  not_deadlock : ∀ t, Duplex.Reaches env server (handshakeStart client) t → ¬t.Deadlock
  acc : Acc (fun t s => Duplex.Step env server s t) (handshakeStart client)
  agreed : ∀ t, Duplex.Reaches env server (handshakeStart client) t →
    (∀ u, ¬Duplex.Step env server t u) → Agreed a sessionKey t

/-- There is an interleaving of both ends that leads to agreement: each line is received once
    it is sent. -/
theorem reaches_agreed {a : α} (h : combo ∈ Baseline.algorithmCombos)
    (hserver : PyServerWorks lib (ofAlgoCombo combo) server cKey sKey k ct ss)
    (hclient : ClientRuns lib combo kdfType cKey sKey k ct env client a) :
    ∃ t, Duplex.Reaches env server (handshakeStart client) t ∧
      Agreed a (agreedKey lib combo kdfType cKey sKey ss.1) t := by
  obtain ⟨p, p', _, _, hc₁, hc₂, hc₃⟩ := hclient
  obtain ⟨q, _, _, hs₁, hs₂⟩ := @server_runs lib server combo kdfType cKey sKey k ct ss h hserver
  obtain ⟨t₁, -, hsteps₁⟩ := hc₁ false []
  obtain ⟨u₁, -, hstepsₛ₁⟩ := hs₁ false []
  obtain ⟨t₂, -, hsteps₂⟩ := hc₂ false ([] ++ t₁)
  obtain ⟨u₂, -, hstepsₛ₂⟩ := hs₂.close false ([] ++ u₁)
  obtain ⟨t₃, -, hsteps₃⟩ := hc₃.close true ([] ++ t₁ ++ t₂)
  exact ⟨_, (Duplex.reaches_left hsteps₁).trans <| (Duplex.reaches_right hstepsₛ₁).trans <|
    (Duplex.reaches_left hsteps₂).trans <| (Duplex.reaches_right hstepsₛ₂).trans <|
    Duplex.reaches_left hsteps₃, rfl, rfl, rfl, rfl⟩

theorem agrees_of_clientRuns {a : α} (h : combo ∈ Baseline.algorithmCombos)
    (hserver : PyServerWorks lib (ofAlgoCombo combo) server cKey sKey k ct ss)
    (hclient : ClientRuns lib combo kdfType cKey sKey k ct env client a) :
    Agrees env server client a (agreedKey lib combo kdfType cKey sKey ss.1) := by
  obtain ⟨final, hfinal, hagreed⟩ := reaches_agreed h hserver hclient
  refine ⟨fun t ht => Duplex.not_deadlock hfinal hagreed.client hagreed.server ht,
    Duplex.acc_step _, fun t ht hstuck => ?_⟩
  rwa [Duplex.eq_of_stuck hfinal (Duplex.not_step_of_ret hagreed.client hagreed.server) ht hstuck]

/-- **Agreement across languages.** With any suite of `config/algorithms.py`, the server and
    a client, in C or in Python, agree on a session key. -/
theorem json_handshake_agrees {pcombo : PyCombo} (hpcombo : pcombo ∈ algorithmCombos)
    (hcombo : HybridPqc.getComboById Baseline.algorithmCombos pcombo.id = some combo)
    (kdfType host : CString) (hserver : PyServerWorks lib pcombo server cKey sKey k ct ss) :
    let sessionKey := agreedKey lib combo kdfType cKey sKey ss.1
    (∀ client : PrimEnv, ClientWorks lib combo client cKey sKey k ct ss host →
      ∃ ms, Agrees client server (Baseline.executeHandshake host combo kdfType)
        (.done ms (some sessionKey)) sessionKey) ∧
    ∀ client : PyEnv, PyClientWorks lib pcombo client cKey sKey k ct ss host →
      ∃ ms, Agrees client server (executeHandshake host pcombo kdfType)
        (.done ms sessionKey) sessionKey := by
  have h := mem_of_getComboById hcombo
  obtain rfl := ofAlgoCombo_of_id hpcombo hcombo
  have hss (hq : combo.HasKem) : 0 < ss.1.length ∧ ss.1.length ≤ maxSharedSec := by
    rw [ss.2]
    exact (hserver.kem ((hasKem_ofAlgoCombo h).2 hq)).lengthSharedSecret
  refine ⟨fun client hclient => ?_, fun client hclient => ?_⟩
  · obtain ⟨ms, hruns⟩ := clientRuns_baseline h hclient fun hq => (hss hq).2
    exact ⟨ms, agrees_of_clientRuns h hserver hruns⟩
  · obtain ⟨ms, hruns⟩ := clientRuns_executeHandshake h hclient fun hq =>
      List.length_pos_iff.1 (hss hq).1
    exact ⟨ms, agrees_of_clientRuns h hserver hruns⟩

/-- An outcome of every call where texts are encoded and decoded, and none fails. -/
def codingEnv : PrimEnv
  | .bioGetMem src => Base64.encode src
  | p => PrimEnv.decoding p

theorem hostWorks_sample : PyHostWorks Dispatch.CryptoLib.sample PyEnv.sample :=
  ⟨fun _ _ _ => rfl, fun _ => rfl, fun _ => rfl, decodesBase64_sample⟩

theorem classicalWorks_sample :
    PyClassicalWorks Dispatch.CryptoLib.sample (some (cstr "X25519")) PyEnv.sample ⟨0⟩ ⟨0⟩ where
  generateRaw _ := rfl
  generateEc h := absurd rfl h
  exportRaw _ := rfl
  exportDer h := absurd rfl h
  importRaw _ := rfl
  importDer h := absurd rfl h
  exchangeRaw _ := rfl
  exchangeEc h := absurd rfl h

theorem codesBase64_codingEnv : CodesBase64 codingEnv :=
  ⟨readsBase64_decoding, fun _ => ⟨rfl, rfl⟩, fun _ => rfl, fun _ => rfl⟩

theorem clientWorks_codingEnv (host : CString) :
    ClientWorks Dispatch.CryptoLib.sample x25519Mlkem768 codingEnv ⟨0⟩ ⟨0⟩ decodingKem (.zero _) (.zero _)
      host where
  works := ⟨fun _ _ => rfl, rfl, rfl, fun _ _ _ => rfl, fun _ => rfl⟩
  codes := codesBase64_codingEnv
  socket := rfl
  connect := rfl
  pthreadCreate := rfl
  classical _ :=
    { Dispatch.classicalWorks_sample with }
  kem _ := ⟨rfl, rfl⟩

/-- A hybrid handshake, with a salt. -/
theorem json_handshake_agrees_x25519_mlkem768 :
    let key := agreedKey Dispatch.CryptoLib.sample x25519Mlkem768 (cstr "sha256") ⟨0⟩ ⟨0⟩
      (Bytes.zero decodingKem.kem.lengthSharedSecret).1
    (∃ ms, Agrees codingEnv PyEnv.sample
      (Baseline.executeHandshake (cstr "127.0.0.1") x25519Mlkem768 (cstr "sha256"))
      (.done ms (some key)) key) ∧
    ∃ ms, Agrees PyEnv.sample PyEnv.sample
      (executeHandshake (cstr "127.0.0.1") (ofAlgoCombo x25519Mlkem768) (cstr "sha256"))
      (.done ms key) key := by
  have hserver : PyServerWorks Dispatch.CryptoLib.sample (ofAlgoCombo x25519Mlkem768) PyEnv.sample ⟨0⟩ ⟨0⟩
      decodingKem (.zero _) (.zero _) :=
    ⟨hostWorks_sample, fun _ => classicalWorks_sample,
      fun _ => ⟨rfl, rfl, rfl, by decide⟩⟩
  have hagrees := json_handshake_agrees (by decide) rfl (cstr "sha256") (cstr "127.0.0.1") hserver
  exact ⟨hagrees.1 _ (clientWorks_codingEnv _), hagrees.2 _
    ⟨hostWorks_sample, rfl, fun _ => classicalWorks_sample, fun _ => ⟨rfl, rfl⟩⟩⟩

end Handshake

end Python

end HybridPqc
