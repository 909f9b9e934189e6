import HybridPqc.Baseline.Worker
import HybridPqc.JsonServerRuns

/-!
# What the server of the JSON protocol releases

`handle_client` of `c/server.c` and its keygen worker, however they interleave
(`Threaded.Reachable`). The worker is a resource of the handler until it is joined, and
hands the key pair and the KEM over if it has made them (`forkLedger`).

The handler always gets to its end. It has then joined its worker and released all, unless it
has followed a null pointer (`keeps_handleClient`): it does where the worker cannot be
created, and where there is no memory for the ciphertext or for the KEM secret
(`val_handleClient_crashed`).
-/

namespace HybridPqc

open Dispatch (ServerKem ServerClassical)

namespace Baseline

namespace Threaded

/-! ## The handler and its worker -/

/-- The handler, somewhere in its run, with its worker. -/
abbrev State :=
  Fork.State (Option CString) (UseOp (ConnOp (Option Json) Prim) Resource)
    (UseOp.Res (ConnOp.Res Prim.Res)) (UseOp Prim Resource) (UseOp.Res Prim.Res)
    (Option ServerKem) (List (Option Json)) JsonServerEnd

/-- Steps of the handler and of its worker, given the outcome of every call. -/
abbrev Steps (env : JsonEnv) : State → State → Prop :=
  Fork.Steps (UseOp.handler env.handler) (fun _ => env.sys .pthreadCreate) serverPqcKeygenWorker
    (UseOp.env env.sys)

/-- The handler at its beginning, with the lines of the client. -/
def start (s : List (Option Json)) : State := .init handleClient s

/-- The handler alone: the worker runs where it is joined. -/
abbrev alone (env : JsonEnv) : Prog.Handler ForkNetOp ForkNetOp.Res (List (Option Json)) :=
  Fork.handler (UseOp.handler env.handler) (fun _ => env.sys .pthreadCreate)
    serverPqcKeygenWorker (UseOp.env env.sys)

/-- The handler ends as it does with the worker where it is joined. -/
theorem val_run {α : Type} (env : JsonEnv) (p : ForkNet α) (s : List (Option Json)) :
    (p.run (alone env) s).val = (env.run (inline p) s).val := by
  refine (Prog.run_subst (fun o w => ?_) p s).1.symm
  cases o with
  | op o =>
    cases o with
    | op o => exact ⟨rfl, rfl⟩
    | use r => exact ⟨rfl, rfl⟩
  | fork pqcName => exact ⟨rfl, rfl⟩
  | join pqcName =>
    have hrun := env.run_lift w (pqcKeygenWorker pqcName)
    refine ⟨(congrArg Prog.Run.val hrun).trans ?_, congrArg Prog.Run.world hrun⟩
    rw [← erase_serverPqcKeygenWorker, UseOp.eval_erase]
    rfl

/-! ## Ledgers -/

/-- The ledger of the handler. -/
abbrev forkLedger : Ledger ForkNetOp ForkNetOp.Res Resource :=
  netLedger.withUses.fork .thread kemOf

/-- Only creating the worker acquires it, and only joining it releases it. -/
theorem tokens_thread :
    Fork.Tokens (netLedger (B := Option Json)).withUses Resource.thread kemOf where
  injective := fun _ _ h => Resource.thread.inj h
  releases o x h := by
    cases o with
    | op o =>
      cases o with
      | sys q => cases q <;> cases h
      | _ => cases h
    | use r => cases h
  acquires o r x h := by
    cases o with
    | op o =>
      cases o with
      | sys q => exact q.thread_notMem_acquires r x h
      | _ => exact absurd h (Multiset.notMem_zero _)
    | use _ => exact absurd h (Multiset.notMem_zero _)
  gives kem x h := by
    cases kem <;> simp [kemOf] at h

section Keeps

variable {ok : Prog.Event Prim Prim.Res → Prop} {ok' : Conn.Event (Option Json) Prim Prim.Res → Prop}
  {α : Type} {held rest : Multiset Resource} {combo : AlgoCombo} {k : ServerKem} {srvPub : List UInt8}

attribute [local simp] primLedger Prim.uses Prim.releases Prim.acquires Ledger.Permits Ledger.next
  Ledger.Leaves freeIf use Conn.monadLift_eq

/-! ### Parts that leave the worker alone -/

theorem keeps_recvJsonLine (hsocket : .socket ∈ held) :
    netLedger.Keeps ok' recvJsonLine held fun _ held' => held' = held := by
  refine .of_all ?_ fun _ _ => rfl
  simp only [recvJsonLine, Conn.recv_eq, Prog.call_bind, Prog.ret_bind, Prog.all_call]
  refine ⟨by simp [hsocket], fun r => ?_⟩
  split <;> trivial

theorem keeps_sendJsonLine {obj : Json} (hsocket : .socket ∈ held) :
    netLedger.Keeps ok' (sendJsonLine obj) held fun _ held' => held' = held := by
  simp [sendJsonLine, hsocket]

theorem keeps_load {sel : Parsed} {text : CString} {use : StringUse} :
    primLedger.Keeps ok (sel.load text use) held fun _ held' => held' = held := by
  refine .of_all ?_ fun _ _ => rfl
  rw [Parsed.load]
  split <;> simp

theorem keeps_decodeSalt {sel : Parsed} {saltB64 : Option CString} :
    primLedger.Keeps ok (decodeSalt sel saltB64) held fun _ held' => held' = held := by
  cases saltB64 with
  | none => exact rfl
  | some text =>
    refine keeps_load.bind ?_
    rintro text' _ rfl
    rw [Ledger.keeps_ite]
    split
    · refine keeps_load.bind ?_
      rintro text'' _ rfl
      refine keeps_b64Decode.seq fun salt => ?_
      exact rfl
    · exact rfl

theorem keeps_serverExchange {cliPub : List UInt8} :
    primLedger.Keeps ok (serverExchange combo cliPub) held fun r held' =>
      held' = r.elim 0 (fun c => pkeyOf c.priv) + held := by
  refine keeps_cryptoGenerateKeypair.seq fun srvPriv => ?_
  cases srvPriv with
  | none => simp
  | some srvPriv =>
    refine (keeps_cryptoExportPub (by simp)).seq fun srvPub => ?_
    cases srvPub with
    | none => simp
    | some srvPub =>
      refine keeps_cryptoLoadPub.seq fun peerPub => ?_
      cases peerPub with
      | none => simp
      | some peerPub =>
        refine (keeps_cryptoDeriveEcdhSecret (by simp) (by simp)).seq fun z => ?_
        simp only [Prog.op_eq, Prog.call_bind, Prog.ret_bind, Ledger.keeps_call]
        refine ⟨by simp, fun _ _ => ?_⟩
        have hswap := Multiset.cons_swap (Resource.pkey srvPriv) (.pkey peerPub) held
        rw [Ledger.keeps_ite]
        split <;> simp [hswap]

/-- The key of the server is held after the classical exchange, if it succeeds. -/
theorem keeps_recvClassical (hsocket : .socket ∈ held) :
    netLedger.Keeps ok' (recvClassical combo) held fun r held' =>
      held' = r.elim 0 (fun c => pkeyOf c.priv) + held := by
  rw [recvClassical, Ledger.keeps_ite]
  split
  · have hpub : netLedger.Keeps ok' recvClientPub held fun _ held' => held' = held := by
      refine (keeps_recvJsonLine hsocket).seq fun hello => ?_
      cases hello with
      | none => exact rfl
      | some hello =>
        refine keeps_b64Decode.lift.seq fun cliPub => ?_
        exact rfl
    refine hpub.seq fun cliPub => ?_
    cases cliPub with
    | none => simp
    | some cliPub => exact keeps_serverExchange.lift
  · simp

theorem keeps_freeKem :
    primLedger.Keeps ok (freeKem k) (kemOf (some k) + held) fun _ held' => held' = held := by
  simp [freeKem, kemOf]

/-- The texts of both keys are released. -/
theorem keeps_sendKeys {more : List (CString × Json)} (hsocket : .socket ∈ held) :
    netLedger.Keeps ok' (sendKeys srvPub k more) held fun _ held' => held' = held := by
  have hcPub : primLedger.Keeps (fun ev => ok' (Conn.ofSys ev))
      (if srvPub.length > 0 then b64Encode srvPub else pure none) held
      fun text held' => held' = (if text.isSome then {.buf .base64} else 0) + held := by
    rw [Ledger.keeps_ite]
    split
    · exact keeps_b64Encode
    · simp
  refine hcPub.lift.seq fun cPubB64 => ?_
  refine keeps_b64Encode.lift.seq fun qPkB64 => ?_
  refine (keeps_sendJsonLine (by simp [hsocket])).seq fun _ => ?_
  cases cPubB64 <;>
    cases qPkB64 <;>
      simp

theorem keeps_sendClassicalKey {more : List (CString × Json)} (hsocket : .socket ∈ held) :
    netLedger.Keeps ok' (sendClassicalKey srvPub more) held fun _ held' => held' = held := by
  refine keeps_b64Encode.lift.seq fun cPubB64 => ?_
  refine (keeps_sendJsonLine (by simp [hsocket])).seq fun _ => ?_
  cases cPubB64 <;> simp

/-- A ciphertext is decoded to a buffer. -/
theorem keeps_decodeCiphertext {room : Bool} {ctMsg : Json} :
    primLedger.Keeps ok (decodeCiphertext room k ctMsg) held fun ct held' =>
      held' = held ∧ (ct.isSome → room = true) := by
  refine .of_all (leaves_b64DecodeTo.bind fun ct => trivial) fun ct hct => ⟨rfl, fun hsome => ?_⟩
  cases room with
  | false => simp [eq_none_of_gives_decodeCiphertext hct] at hsome
  | true => rfl

theorem keeps_chooseKdf {sel : Parsed} {kdfType : Option CString} {salt : Option (List UInt8)} :
    primLedger.Keeps ok (chooseKdf sel kdfType salt) held fun _ held' => held' = held := by
  cases kdfType with
  | none => exact rfl
  | some text =>
    refine keeps_load.bind ?_
    rintro text' _ rfl
    exact rfl

theorem keeps_derive {kdf : Kdf} {ikm : List UInt8} {info : CString} :
    primLedger.Keeps ok (kdf.derive ikm info) held fun _ held' => held' = held := by
  refine .of_all ?_ fun _ _ => rfl
  cases kdf <;> simp [Kdf.derive, cryptoBlake3Kdf, cryptoHkdfSha256]

/-! ### Parts with the worker -/

/-- The worker, if there is one. -/
def threadOf (combo : AlgoCombo) (spawned : Bool) : Multiset Resource :=
  if spawned then {.thread combo.pqcName} else 0

theorem keeps_net {p : JsonNet α} {Q : α → Multiset Resource → Prop}
    (hp : netLedger.Keeps (fun _ => True) p held Q) :
    forkLedger.Keeps (fun _ => True) (net p) held Q := hp.withUses.fork

theorem keeps_sys {p : Sys α} {Q : α → Multiset Resource → Prop}
    (hp : primLedger.Keeps (fun _ => True) p held Q) :
    forkLedger.Keeps (fun _ => True) (sys p) held Q := keeps_net hp.lift

/-- Only profiles that have a KEM have a worker. -/
theorem keeps_spawnKeygen :
    forkLedger.Keeps (fun _ => True) (spawnKeygen combo) held fun spawned held' =>
      held' = threadOf combo spawned + held ∧ (spawned → combo.HasKem) := by
  rw [spawnKeygen, Ledger.keeps_ite]
  split
  case isTrue hkem => simp [threadOf, hkem]
  case isFalse => simp [threadOf]

/-- The key pair and the KEM are handed over where the worker is joined. -/
theorem keeps_joinKeygen {spawned : Bool} (hspawned : spawned → combo.HasKem) :
    forkLedger.Keeps (fun _ => True) (joinKeygen combo spawned) (threadOf combo spawned + held)
      fun r held' => held' = r.elim 0 kemOf + held ∧
        ∀ k, r = some (some k) → combo.HasKem := by
  cases spawned with
  | false => simp [joinKeygen, threadOf, kemOf]
  | true =>
    simp only [joinKeygen, if_true, pthreadJoin, Prog.op_eq, Prog.call_bind, Prog.ret_bind,
      Ledger.keeps_call]
    refine ⟨by simp [threadOf], fun kem _ => ?_⟩
    cases kem <;> simp [threadOf, kemOf, hspawned rfl]

theorem keeps_discardKeygen {spawned : Bool} :
    forkLedger.Keeps (fun _ => True) (discardKeygen combo spawned)
      (threadOf combo spawned + held) fun _ held' => held' = held := by
  cases spawned with
  | false => simp [discardKeygen, threadOf]
  | true =>
    simp only [discardKeygen, if_true, pthreadJoin, Prog.op_eq, Prog.call_bind, Prog.ret_bind,
      Ledger.keeps_call]
    refine ⟨by simp [threadOf], fun kem _ => ?_⟩
    cases kem with
    | none => simp [threadOf, kemOf]
    | some k =>
      have hfree := @keeps_freeKem (fun _ => True) held k
      simpa [threadOf] using keeps_sys hfree

theorem keeps_use {r : Resource} (hr : r ∈ held) :
    forkLedger.Keeps (fun _ => True) (use r) held fun _ held' => held' = held :=
  (Ledger.keeps_use hr).fork

theorem keeps_oqsKemDecaps {ct : List UInt8} (hkem : .kem k.kem ∈ held)
    (hsk : .buf .secretKey ∈ held) (hct : .buf .ciphertext ∈ held)
    (hss : .buf .sharedSecret ∈ held) :
    primLedger.Keeps ok (oqsKemDecaps k ct) held fun _ held' => held' = held := by
  simp only [oqsKemDecaps, Prog.op_eq, Prog.call_bind, Prog.ret_bind, Ledger.keeps_call]
  refine ⟨by simp [hkem, hsk, hct, hss], fun ss _ => ?_⟩
  cases ss <;> simp [hss]

theorem keeps_decapsUnchecked {ct : List UInt8} (hkem : .kem k.kem ∈ held)
    (hsk : .buf .secretKey ∈ held) (hct : .buf .ciphertext ∈ held) :
    forkLedger.Keeps (fun _ => True) (decapsUnchecked k ct) held fun _ held' => held' = held := by
  refine (keeps_use hkem).seq fun _ => ?_
  refine (keeps_sys keeps_malloc).seq fun room => ?_
  cases room with
  | false => simp
  | true =>
    simp only [Bool.not_true, Bool.false_eq_true, if_false, if_true, Multiset.singleton_add]
    refine (keeps_sys (keeps_oqsKemDecaps (by simp [hkem]) (by simp [hsk]) (by simp [hct])
      (by simp))).seq fun ss => ?_
    refine (keeps_use (Multiset.mem_cons_of_mem hkem)).seq fun _ => ?_
    refine (keeps_use (Multiset.mem_cons_self _ _)).seq fun _ => ?_
    refine (keeps_sys keeps_free).seq fun _ => ?_
    exact rfl

/-- What is held after the KEM part, unless a null pointer has been followed. -/
def Leaves (rest : Multiset Resource) : KemOutcome → Multiset Resource → Prop
  | .crashed, held => .socket ∈ held
  | _, held => held = rest

theorem keeps_recvCiphertext (hsocket : .socket ∈ held) :
    forkLedger.Keeps (fun _ => True) (recvCiphertext k) (kemOf (some k) + held)
      (Leaves held) := by
  refine (keeps_net (keeps_recvJsonLine (by simp [hsocket]))).seq fun ctMsg => ?_
  cases ctMsg with
  | none =>
    refine (keeps_sys keeps_freeKem).seq fun _ => ?_
    exact rfl
  | some ctMsg =>
    refine (keeps_use (by simp [kemOf])).seq fun _ => ?_
    refine (keeps_sys keeps_malloc).seq fun room => ?_
    have hroom : ∀ {held}, forkLedger.Keeps (fun _ => True)
        (if room then use (.buf .ciphertext) else pure ())
        ((if room then {.buf .ciphertext} else 0) + held) fun _ held' =>
          held' = (if room then {.buf .ciphertext} else 0) + held := by
      cases room <;> simp
    refine (keeps_use (by simp [kemOf])).seq fun _ => ?_
    refine hroom.seq fun _ => ?_
    refine (keeps_sys keeps_decodeCiphertext).bind ?_
    rintro ct _ ⟨rfl, hroom⟩
    refine (keeps_use (by simp [kemOf])).seq fun _ => ?_
    cases ct with
    | none =>
      refine (keeps_sys keeps_freeIf).seq fun _ => ?_
      refine (keeps_sys keeps_freeKem).seq fun _ => ?_
      exact rfl
    | some ct =>
      obtain rfl := hroom rfl
      refine (keeps_decapsUnchecked (by simp [kemOf]) (by simp [kemOf]) (by simp)).seq
        fun qSecret => ?_
      cases qSecret with
      | none => simp [Leaves, hsocket]
      | some qSecret =>
        refine (keeps_sys keeps_freeIf).seq fun _ => ?_
        refine (keeps_sys keeps_freeKem).seq fun _ => ?_
        exact rfl

theorem keeps_exchangeKeys {kem : Option ServerKem} (hsocket : .socket ∈ held)
    (hkem : ∀ k, kem = some k → combo.HasKem) :
    forkLedger.Keeps (fun _ => True) (exchangeKeys combo srvPub kem) (kemOf kem + held)
      (Leaves held) := by
  unfold exchangeKeys
  rw [Ledger.keeps_ite]
  split
  case isTrue =>
    cases kem with
    | none => simpa [Leaves, kemOf] using hsocket
    | some k =>
      refine (keeps_use (by simp [kemOf])).seq fun _ => ?_
      refine (keeps_use (by simp [kemOf])).seq fun _ => ?_
      refine (keeps_net (keeps_sendKeys (by simp [hsocket]))).seq fun _ => ?_
      exact keeps_recvCiphertext hsocket
  case isFalse hnot =>
    cases kem with
    | none =>
      refine (keeps_net (keeps_sendClassicalKey (by simp [hsocket]))).seq fun _ => ?_
      exact zero_add held
    | some k => exact absurd (hkem k rfl) hnot

/-- What is held in the end, unless a null pointer has been followed. -/
def Released : JsonServerEnd → Multiset Resource → Prop
  | .crashed, held => .socket ∈ held
  | _, held => held = 0

theorem keeps_jsonServerClose :
    forkLedger.Keeps (fun _ => True) (net jsonServerClose) {.socket} Released := by
  refine keeps_net ?_
  simp [jsonServerClose, Released]

theorem keeps_serverFinish {sel : Parsed} {kdfType : Option CString} {salt : Option (List UInt8)}
    {cSecret qSecret : Secret} :
    forkLedger.Keeps (fun _ => True)
      (net (serverFinish combo sel kdfType salt cSecret qSecret)) {.socket} Released := by
  refine keeps_net (keeps_chooseKdf.lift.bind ?_)
  rintro kdf _ rfl
  refine keeps_derive.lift.seq fun key => ?_
  refine (keeps_sendJsonLine (by simp)).seq fun _ => ?_
  simp [Released]

theorem keeps_serve {sel : Parsed} {kdfType saltB64 : Option CString} :
    forkLedger.Keeps (fun _ => True) (serve combo sel kdfType saltB64) {.socket} Released := by
  refine (keeps_sys keeps_decodeSalt).seq fun salt => ?_
  refine keeps_spawnKeygen.bind ?_
  rintro spawned _ ⟨rfl, hspawned⟩
  refine (keeps_net (keeps_recvClassical (by simp))).seq fun classical => ?_
  cases classical with
  | none =>
    -- the exchange has failed, but the worker is joined before the handler returns
    rw [Option.elim_none, zero_add]
    refine keeps_discardKeygen.seq fun _ => ?_
    exact keeps_jsonServerClose
  | some classical =>
    rw [Option.elim_some, add_left_comm]
    refine (keeps_joinKeygen hspawned).bind ?_
    rintro kem _ ⟨rfl, hkem⟩
    cases kem with
    | none =>
      rw [Option.elim_none, zero_add]
      refine (keeps_sys keeps_freePkey).seq fun _ => ?_
      exact keeps_jsonServerClose
    | some kem =>
      refine (keeps_exchangeKeys (by simp) fun k hk => hkem k (congrArg some hk)).bind ?_
      rintro outcome held' hleaves
      cases outcome with
      | crashed => exact hleaves
      | closed =>
        obtain rfl : held' = _ := hleaves
        refine (keeps_sys keeps_freePkey).seq fun _ => ?_
        exact keeps_jsonServerClose
      | ok qSecret =>
        obtain rfl : held' = _ := hleaves
        refine (keeps_sys keeps_freePkey).seq fun _ => ?_
        exact keeps_serverFinish

/-- The handler joins its worker, and releases the socket and all it acquires, unless it follows
    a null pointer. -/
theorem keeps_handleClient :
    forkLedger.Keeps (fun _ => True) handleClient {.socket} Released := by
  refine (keeps_net (keeps_recvJsonLine (by simp))).seq fun sel => ?_
  cases sel with
  | none => exact keeps_jsonServerClose
  | some sel =>
    dsimp only
    cases getComboById algorithmCombos (sel.getInt "combo_id" (-1)) with
    | none => exact keeps_jsonServerClose
    | some combo => exact keeps_serve

/-- The worker leaves the key pair and the KEM, or nothing. -/
theorem keeps_serverPqcKeygenWorker
    {ok : Prog.Event (UseOp Prim Resource) (UseOp.Res Prim.Res) → Prop}
    {pqcName : Option CString} :
    primLedger.withUses.Keeps ok (serverPqcKeygenWorker pqcName) held
      fun kem held' => held' = kemOf kem + held := by
  refine keeps_oqsKemNew.withUses.seq fun kem => ?_
  cases kem with
  | none => simp [kemOf]
  | some kem =>
    refine (Ledger.keeps_use (by simp)).seq fun _ => ?_
    refine keeps_malloc.withUses.seq fun pk => ?_
    refine (Ledger.keeps_use (by simp)).seq fun _ => ?_
    refine keeps_malloc.withUses.seq fun sk => ?_
    rw [Ledger.keeps_ite]
    split
    -- one of the buffers is missing, and the other one is released
    · rw [add_left_comm]
      refine keeps_freeIf.withUses.seq fun _ => ?_
      refine keeps_freeIf.withUses.seq fun _ => ?_
      refine keeps_oqsKemFree.withUses.seq fun _ => ?_
      simp [kemOf]
    case isFalse hroom =>
      obtain ⟨rfl, rfl⟩ : pk = true ∧ sk = true := by simpa using hroom
      refine (keeps_oqsKemKeypair (by simp) (by simp) (by simp)).withUses.seq fun pair => ?_
      cases pair with
      | none =>
        simp only [Option.elim_some, if_true, Multiset.singleton_add]
        rw [Multiset.cons_swap]
        refine keeps_free.withUses.seq fun _ => ?_
        refine keeps_free.withUses.seq fun _ => ?_
        refine keeps_oqsKemFree.withUses.seq fun _ => ?_
        simp [kemOf]
      | some pair => simp [kemOf]

end Keeps

end Threaded

end Baseline

end HybridPqc
