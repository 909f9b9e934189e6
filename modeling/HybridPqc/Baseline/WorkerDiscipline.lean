import HybridPqc.Baseline.ServerLedger
import HybridPqc.JsonServers

/-!
# The keygen worker of the server of the JSON protocol

When `handle_client` of `c/server.c` follows a null pointer (`val_handleClient_crashed`), and
so when it does not join its worker and release all, each once (`worker_disciplined_iff`).
-/

namespace HybridPqc

open Dispatch (ServerKem ServerClassical)

namespace Baseline

/-! ## Null pointers -/

section Null

variable (env : JsonEnv) (combo : AlgoCombo) (s : List (Option Json))

/-- The suite that the client asks for, in its first line. -/
def selectedCombo : Option AlgoCombo :=
  s.head?.join.bind fun sel => getComboById algorithmCombos (sel.getInt "combo_id" (-1))

/-- The classical exchange succeeds, if the profile has one. -/
def ClassicalWorks : Prop :=
  combo.HasClassical → ∃ cliPub srvPriv, clientPub env s = some cliPub ∧
    (cryptoGenerateKeypair .our combo.classicalCurve).eval env.sys = some srvPriv ∧
    ExchangeWorks env combo cliPub srvPriv

/-- If there is memory for the ciphertext, there is for the KEM secret. -/
def DecapsRoom (k : ServerKem) : Prop :=
  env.sys (.malloc .ciphertext k.kem.lengthCiphertext) = true →
    env.sys (.malloc .sharedSecret k.kem.lengthSharedSecret) = true

/-- No null pointer is followed: with a profile that has a KEM, once the classical exchange has
    succeeded, the worker has been created, and, if it has made the key pair and the client
    sends a ciphertext of the right length, for which there is memory, there is memory for the
    KEM secret. -/
def NeverNull : Prop :=
  ∀ combo, selectedCombo s = some combo → combo.HasKem → ClassicalWorks env combo s.tail →
    env.sys .pthreadCreate = true ∧
      ∀ k ctMsg, (pqcKeygenWorker combo.pqcName).eval env.sys = some k →
        ciphertextMessage combo s.tail = some ctMsg → CiphertextDecodes env k ctMsg →
          DecapsRoom env k

variable {env combo s} {k : ServerKem} {srvPub : List UInt8} {kem : Option ServerKem}

theorem isSome_decapsUnchecked {ct : List UInt8} :
    ((decapsUnchecked k ct).eval env.sys).isSome ↔
      env.sys (.malloc .sharedSecret k.kem.lengthSharedSecret) = true := by
  simp only [decapsUnchecked, Prog.op_eq, Prog.call_bind, Prog.ret_bind, Prog.eval_call]
  cases env.sys (.malloc .sharedSecret k.kem.lengthSharedSecret) <;> simp

theorem val_recvCiphertext_crashed :
    (env.obs s (recvCiphertext k)).val = .crashed ↔
      ∃ ctMsg, s.head?.join = some ctMsg ∧ CiphertextDecodes env k ctMsg ∧ ¬DecapsRoom env k := by
  by_cases hct : ∀ ctMsg, s.head?.join = some ctMsg → ¬CiphertextDecodes env k ctMsg
  · rw [obs_recvCiphertext_not hct]
    refine iff_of_false (by simp) ?_
    rintro ⟨ctMsg, hmsg, hdecodes, -⟩
    exact hct ctMsg hmsg hdecodes
  · push Not at hct
    obtain ⟨ctMsg, hmsg, hdecodes⟩ := hct
    obtain ⟨reads, hobs⟩ := @obs_recvJsonLine env s
    obtain ⟨ct, hdecode⟩ := Option.isSome_iff_exists.1 (eval_decodeCiphertext.2 hdecodes)
    have hiff : (env.obs s (recvCiphertext k)).val = .crashed ↔ ¬DecapsRoom env k := by
      rw [recvCiphertext, ConnEnv.obs_bind, hobs, hmsg]
      simp only [Obs.andThen, Conn.monadLift_eq, Conn.sys_eq, Prog.call_bind, Prog.ret_bind,
        ConnEnv.obs_call_sys, ConnEnv.obs_bind, ConnEnv.obs_lift, DecapsRoom,
        ← @isSome_decapsUnchecked env k ct]
      cases env.sys (.malloc .ciphertext k.kem.lengthCiphertext) with
      -- nothing is decoded to a null pointer
      | false => simp [eval_decodeCiphertext_false, Obs.map]
      | true =>
        cases hdecaps : (decapsUnchecked k ct).eval env.sys with
        | none => simp [hdecode, hdecaps]
        | some qSecret => simp [hdecode, hdecaps, Obs.map]
    rw [hiff]
    constructor
    · exact fun hroom => ⟨ctMsg, hmsg, hdecodes, hroom⟩
    · rintro ⟨_, _, _, hroom⟩
      exact hroom

theorem val_serverFinish_ne {sel : Parsed} {kdfType : Option CString}
    {salt : Option (List UInt8)} {cSecret qSecret : Secret} :
    (env.obs s (serverFinish combo sel kdfType salt cSecret qSecret)).val ≠ .crashed := by
  obtain ⟨ikm, key, hval⟩ := @val_serverFinish env combo s sel kdfType salt cSecret qSecret
  simp [hval]

theorem val_serve_crashed {sel : Parsed} {kdfType saltB64 : Option CString} :
    (env.obs s (serve combo sel kdfType saltB64)).val = .crashed ↔
      ¬(combo.HasKem → ClassicalWorks env combo s → env.sys .pthreadCreate = true ∧
        ∀ k ctMsg, (pqcKeygenWorker combo.pqcName).eval env.sys = some k →
          ciphertextMessage combo s = some ctMsg → CiphertextDecodes env k ctMsg →
            DecapsRoom env k) := by
  obtain ⟨reads, hrecv⟩ := @obs_recvClassical env combo s
  have hworks : (env.obs s (recvClassical combo)).val.isSome ↔ ClassicalWorks env combo s :=
    isSome_recvClassical
  have hrest : (env.obs s (recvClassical combo)).rest = afterClassical combo s := by rw [hrecv]
  simp only [serve, Conn.monadLift_eq, ConnEnv.obs_bind, ConnEnv.obs_lift, Obs.mk_andThen,
    Obs.andThen_val, hrest]
  cases hval : (env.obs s (recvClassical combo)).val with
  | none =>
    have hfails : ¬ClassicalWorks env combo s := by
      rw [← hworks, hval]
      simp
    simp [obs_jsonServerClose, hfails]
  | some classical =>
    have hpasses : ClassicalWorks env combo s := by
      rw [← hworks, hval]
      rfl
    simp only [ConnEnv.obs_bind, ConnEnv.obs_lift, Obs.andThen_val, eval_joinKeygen]
    by_cases hkem : combo.HasKem
    · by_cases hcreate : env.sys .pthreadCreate = true
      · rw [if_pos ⟨hkem, hcreate⟩]
        -- the worker is there: the null pointer can only be a buffer of the decapsulation
        cases hworker : (pqcKeygenWorker combo.pqcName).eval env.sys with
        | none => simp [obs_jsonServerClose, hpasses, hcreate]
        | some k =>
          have hcrashed := @val_recvCiphertext_crashed env (afterClassical combo s) k
          have hsafe : (env.obs (afterClassical combo s) (recvCiphertext k)).val ≠ .crashed →
              ∀ k' ctMsg, some k = some k' → ciphertextMessage combo s = some ctMsg →
                CiphertextDecodes env k' ctMsg → DecapsRoom env k' := by
            rintro hne _ ctMsg ⟨⟩ hmsg hdecodes
            by_contra hroom
            exact hne (hcrashed.2 ⟨ctMsg, hmsg, hdecodes, hroom⟩)
          simp only [Option.map_some, ConnEnv.obs_bind, Obs.andThen_val, val_exchangeKeys hkem]
          cases hout : (env.obs (afterClassical combo s) (recvCiphertext k)).val with
          | crashed =>
            obtain ⟨ctMsg, hmsg, hdecodes, hroom⟩ := hcrashed.1 hout
            exact iff_of_true rfl fun h => hroom ((h hkem hpasses).2 k ctMsg rfl hmsg hdecodes)
          | closed =>
            refine iff_of_false (by simp [obs_jsonServerClose]) (not_not.2 fun _ _ => ?_)
            exact ⟨hcreate, hsafe (by simp [hout])⟩
          | ok qSecret =>
            simp only [ConnEnv.obs_bind, ConnEnv.obs_lift, Obs.andThen_val]
            refine iff_of_false val_serverFinish_ne (not_not.2 fun _ _ => ?_)
            exact ⟨hcreate, hsafe (by simp [hout])⟩
      -- the worker is not created, and its results are read all the same
      · rw [if_neg fun h => hcreate h.2]
        refine iff_of_true ?_ fun h => hcreate (h hkem hpasses).1
        simp [exchangeKeys, hkem]
    -- without a KEM there is no worker
    · rw [if_neg fun h => hkem h.1]
      simp only [ConnEnv.obs_bind, Obs.andThen_val, val_exchangeKeys_not hkem, ConnEnv.obs_lift]
      exact iff_of_false val_serverFinish_ne (not_not.2 fun h => absurd h hkem)

theorem val_handleClient_crashed :
    (env.obs s handleClient).val = .crashed ↔ ¬NeverNull env s := by
  cases s with
  | nil =>
    rw [val_handleClient_nil]
    refine iff_of_false (by simp) (not_not.2 fun combo hcombo => ?_)
    cases hcombo
  | cons line s =>
    cases line with
    | none =>
      rw [val_handleClient_none]
      refine iff_of_false (by simp) (not_not.2 fun combo hcombo => ?_)
      cases hcombo
    | some sel =>
      have hselected : selectedCombo (some sel :: s) =
          getComboById algorithmCombos (sel.getInt "combo_id" (-1)) := rfl
      cases hcombo : getComboById algorithmCombos (sel.getInt "combo_id" (-1)) with
      | none =>
        rw [val_handleClient_unknown hcombo]
        refine iff_of_false (by simp) (not_not.2 fun combo hsome => ?_)
        rw [hselected, hcombo] at hsome
        cases hsome
      | some combo =>
        rw [val_handleClient hcombo, val_serve_crashed, NeverNull, hselected, hcombo]
        simp

end Null

namespace Threaded

/-! ## The key material -/

/-- What is sent needs a key pair that has been handed over. -/
def pairLedger : Ledger ForkNetOp ForkNetOp.Res Unit where
  uses
    | .op (.op (.send _)) => [()]
    | _ => []
  releases _ := none
  acquires
    | .join _, some _ => {()}
    | _, _ => 0

section Pair

variable {α : Type} {held : Multiset Unit} {combo : AlgoCombo}

/-- With a key pair, anything may be sent. -/
theorem keeps_of_mem {p : ForkNet α} (hheld : () ∈ held) :
    pairLedger.Keeps (fun _ => True) p held fun _ _ => True := by
  induction p generalizing held with
  | ret a => trivial
  | call o k ih =>
    refine ⟨⟨fun _ _ => hheld, by simp [pairLedger]⟩, fun r _ => ih r ?_⟩
    exact Multiset.mem_add.2 (.inr hheld)

/-- So may nothing be. -/
theorem keeps_of_silent {p : ForkNet α} (hp : p.All fun o => pairLedger.uses o = []) :
    pairLedger.Keeps (fun _ => True) p held fun _ _ => True := by
  induction p generalizing held with
  | ret a => trivial
  | call o k ih =>
    refine ⟨⟨?_, by simp [pairLedger]⟩, fun r _ => ih r (hp.2 r)⟩
    simp [hp.1]

/-- An operation that sends nothing. -/
def Silent (o : ConnOp (Option Json) Prim) : Prop := ∀ bs, o ≠ .send bs

theorem silent_net {p : JsonNet α} (hp : p.All Silent) :
    (net p).All fun o => pairLedger.uses o = [] := by
  induction p with
  | ret a => trivial
  | call o k ih =>
    refine ⟨?_, fun r => ih r (hp.2 r)⟩
    cases o with
    | send bs => exact absurd rfl (hp.1 bs)
    | _ => rfl

theorem silent_lift (p : Sys α) : (Conn.lift p : JsonNet α).All Silent :=
  Conn.all_lift (by simp [Silent])

theorem silent_sys (p : Sys α) : (sys p).All fun o => pairLedger.uses o = [] :=
  silent_net (silent_lift p)

theorem silent_recvClassical :
    (net (recvClassical combo)).All fun o => pairLedger.uses o = [] := by
  refine silent_net ?_
  have hline : recvJsonLine.All Silent := by
    simp only [recvJsonLine, Conn.recv_eq, Prog.call_bind, Prog.ret_bind, Prog.all_call]
    refine ⟨by simp [Silent], fun r => ?_⟩
    split <;> trivial
  rw [recvClassical, Prog.all_ite]
  split
  · have hpub : recvClientPub.All Silent := by
      refine hline.bind fun hello => ?_
      cases hello with
      | none => trivial
      | some hello => exact (silent_lift _).bind fun _ => trivial
    refine hpub.bind fun cliPub => ?_
    cases cliPub with
    | none => trivial
    | some cliPub => exact silent_lift _
  · trivial

theorem silent_jsonServerClose :
    (net jsonServerClose).All fun o => pairLedger.uses o = [] :=
  silent_net ⟨by simp [Silent], fun _ => trivial⟩

theorem silent_discardKeygen {spawned : Bool} :
    (discardKeygen combo spawned).All fun o => pairLedger.uses o = [] := by
  cases spawned with
  | false => trivial
  | true =>
    refine ⟨rfl, fun kem => ?_⟩
    cases kem with
    | none => trivial
    | some k => exact silent_sys _

theorem silent_spawnKeygen : (spawnKeygen combo).All fun o => pairLedger.uses o = [] := by
  rw [spawnKeygen, Prog.all_ite]
  split
  · exact ⟨rfl, fun _ => trivial⟩
  · trivial

/-- Once the worker is joined, there is the key pair it has left. -/
theorem keeps_joinKeygen_pair {spawned : Bool} :
    pairLedger.Keeps (fun _ => True) (joinKeygen combo spawned) held fun r held' =>
      ∀ k, r = some (some k) → () ∈ held' := by
  cases spawned with
  | false => simp [joinKeygen]
  | true =>
    refine ⟨⟨by simp [pairLedger], by simp [pairLedger]⟩, fun kem _ => ?_⟩
    cases kem with
    | none =>
      refine fun k hk => ?_
      cases hk
    | some k =>
      refine fun _ _ => Multiset.mem_add.2 (.inl ?_)
      simp [pairLedger]

/-- Only joining a worker that has succeeded hands a key pair over. -/
theorem eq_join_of_acquires {ev : Prog.Event ForkNetOp ForkNetOp.Res}
    (h : () ∈ pairLedger.acquires ev.1 ev.2) : ∃ pqcName k, ev = ⟨.join pqcName, some k⟩ := by
  obtain ⟨o, r⟩ := ev
  cases o with
  | op o => exact absurd h (Multiset.notMem_zero _)
  | fork x => exact absurd h (Multiset.notMem_zero _)
  | join pqcName =>
    cases r with
    | none => exact absurd h (Multiset.notMem_zero _)
    | some k => exact ⟨pqcName, k, rfl⟩

/-- With a profile that has a KEM, nothing is sent unless a key pair has been handed over. -/
theorem keeps_serve_pair (hkem : combo.HasKem) {sel : Parsed} {kdfType saltB64 : Option CString} :
    pairLedger.Keeps (fun _ => True) (serve combo sel kdfType saltB64) held fun _ _ => True := by
  refine (keeps_of_silent (silent_sys _)).bind fun salt held₁ _ => ?_
  refine (keeps_of_silent silent_spawnKeygen).bind fun spawned held₂ _ => ?_
  refine (keeps_of_silent silent_recvClassical).bind fun classical held₃ _ => ?_
  cases classical with
  | none => exact keeps_of_silent (silent_discardKeygen.bind fun _ => silent_jsonServerClose)
  | some classical =>
    refine keeps_joinKeygen_pair.bind fun kem held₄ hpair => ?_
    cases kem with
    | none => exact keeps_of_silent ((silent_sys _).bind fun _ => silent_jsonServerClose)
    | some kem =>
      cases kem with
      | none => simp [exchangeKeys, hkem]
      | some k => exact keeps_of_mem (hpair k rfl)

end Pair

/-! ## The discipline -/

/-- How the handler is to end, whatever the lines of the client: it has joined its worker; it has
    used and released only what it held, the KEM key pair once it was handed over by a worker
    that had succeeded, and holds nothing; a worker has left nothing else; and it has sent
    nothing if its profile needs a key pair and it has got none. -/
structure Disciplined (s : List (Option Json)) (t : State) : Prop where
  joined : t.threads = 0
  released : forkLedger.Settles {.socket} t.trace 0
  worker : ∀ th ∈ t.joined, ∃ kem, ⟨.join th.arg, kem⟩ ∈ t.trace ∧
    primLedger.withUses.Settles 0 th.trace (kemOf kem)
  silent : ∀ combo, selectedCombo s = some combo → combo.HasKem →
    (∀ pqcName k, ⟨.join pqcName, some k⟩ ∉ t.trace) →
      ∀ bs sent, ⟨.op (.op (.send bs)), sent⟩ ∉ t.trace

section Disciplined

variable {env : JsonEnv} {s : List (Option Json)} {t : State} {r : JsonServerEnd}

/-- The handler ends as it does alone. -/
theorem end_eq (ht : Steps env (start s) t) (hmain : t.main = .ret r) :
    r = (env.obs s Baseline.handleClient).val := by
  obtain ⟨hval, -⟩ := Fork.Reachable.run_eq ht hmain
  rw [val_run, inline_handleClient] at hval
  exact hval

theorem settles_trace (ht : Steps env (start s) t) (hmain : t.main = .ret r) :
    ∃ held, forkLedger.Settles {.socket} t.trace held ∧ Released r held := by
  obtain ⟨hval, htrace⟩ := Fork.Reachable.run_eq ht hmain
  rw [hval, htrace]
  exact keeps_handleClient.run (fun _ _ => trivial) s

theorem worker_trace (ht : Steps env (start s) t) {th} (hth : th ∈ t.joined) :
    ∃ kem, ⟨.join th.arg, kem⟩ ∈ t.trace ∧
      primLedger.withUses.Settles 0 th.trace (kemOf kem) := by
  obtain ⟨hmem, htrace⟩ := Fork.Reachable.joined_run ht hth
  refine ⟨_, hmem, ?_⟩
  have hkeeps := @keeps_serverPqcKeygenWorker 0 (fun _ => True) th.arg
  obtain ⟨held, hsettles, heq⟩ := hkeeps.run (h := fun o w => (UseOp.env env.sys o, w))
    (fun _ _ => trivial) ()
  rw [heq, add_zero] at hsettles
  rw [htrace]
  exact hsettles

theorem trace_handleClient {sel : Json} {combo : AlgoCombo}
    (hcombo : getComboById algorithmCombos (sel.getInt "combo_id" (-1)) = some combo) :
    (handleClient.run (alone env) (some sel :: s)).trace =
      ⟨.op (.op (.recv 1)), some [some sel]⟩ ::
        ((serve combo (Parsed.delete ⟨sel, false⟩) (sel.getStr "kdf_type")
          (sel.getStr "salt")).run (alone env) s).trace := by
  have hline : (net recvJsonLine).run (alone env) (some sel :: s) =
      ⟨some sel, s, [⟨.op (.op (.recv 1)), some [some sel]⟩]⟩ := rfl
  rw [handleClient, Prog.run_bind, hline]
  dsimp only
  rw [hcombo]
  rfl

/-- Nothing is sent with a profile that has a KEM, if there is no key pair. -/
theorem silent_trace (ht : Steps env (start s) t) (hmain : t.main = .ret r) {combo : AlgoCombo}
    (hcombo : selectedCombo s = some combo) (hkem : combo.HasKem)
    (hnone : ∀ pqcName k, ⟨.join pqcName, some k⟩ ∉ t.trace) (bs : List (Option Json))
    (sent : Bool) : ⟨.op (.op (.send bs)), sent⟩ ∉ t.trace := by
  rw [selectedCombo, Option.bind_eq_some_iff] at hcombo
  obtain ⟨sel, hline, hcombo⟩ := hcombo
  obtain ⟨s', rfl⟩ : ∃ s', s = some sel :: s' := by
    cases s with
    | nil => cases hline
    | cons line s =>
      obtain rfl : line = some sel := hline
      exact ⟨s, rfl⟩
  have htrace := (Fork.Reachable.run_eq ht hmain).2
  rw [trace_handleClient hcombo] at htrace
  obtain ⟨held, hsettles, -⟩ := (@keeps_serve_pair 0 combo hkem (Parsed.delete ⟨sel, false⟩)
    (sel.getStr "kdf_type") (sel.getStr "salt")).run (h := alone env) (fun _ _ => trivial) s'
  intro hsend
  rw [htrace] at hsend hnone
  have hsend := (List.mem_cons.1 hsend).resolve_left (by simp)
  rcases hsettles.mem_of_uses hsend (k := ()) (by simp [pairLedger]) with hmem | ⟨ev, hev, hmem⟩
  · exact absurd hmem (Multiset.notMem_zero _)
  · obtain ⟨pqcName, k, rfl⟩ := eq_join_of_acquires hmem
    exact hnone pqcName k (List.mem_cons_of_mem _ hev)

theorem disciplined_iff (ht : Steps env (start s) t) (hmain : t.main = .ret r) :
    Disciplined s t ↔ NeverNull env s := by
  obtain ⟨held, hsettles, hreleased⟩ := settles_trace ht hmain
  have hcrashed : r = .crashed ↔ ¬NeverNull env s := by
    rw [end_eq ht hmain]
    exact val_handleClient_crashed
  constructor
  · intro hdisc
    by_contra hnull
    obtain rfl := hcrashed.2 hnull
    -- the socket is still held
    obtain rfl := hsettles.unique hdisc.released
    exact absurd hreleased (Multiset.notMem_zero _)
  · intro hnull
    have hne : r ≠ .crashed := fun h => hcrashed.1 h hnull
    have hzero : ∀ held, Released r held → held = 0 := by
      intro held hheld
      cases r with
      | crashed => exact absurd rfl hne
      | closed => exact hheld
      | finished => exact hheld
    obtain rfl := hzero held hreleased
    have hkept := Fork.Reachable.kept tokens_thread (by simp) keeps_handleClient ht
    refine ⟨hkept.threads_eq_zero hmain fun held hheld x => ?_, hsettles, fun th => worker_trace ht,
      fun combo hcombo hkem hnone => silent_trace ht hmain hcombo hkem hnone⟩
    rw [hzero held hheld]
    exact Multiset.notMem_zero _

end Disciplined

/-- **The keygen worker.** However the handler and its worker interleave, the handler gets to its
    end. It has then joined the worker and released all, each once, exactly if it has followed no
    null pointer. -/
theorem worker_disciplined_iff (env : JsonEnv) (s : List (Option Json)) (t : State)
    (ht : Steps env (start s) t) :
    (∃ t' r, Steps env t t' ∧ t'.main = .ret r) ∧
      ∀ r, t.main = .ret r → (Disciplined s t ↔ NeverNull env s) := by
  have hkept := Fork.Reachable.kept tokens_thread (by simp) keeps_handleClient ht
  exact ⟨hkept.can_finish tokens_thread, fun r hmain => disciplined_iff ht hmain⟩

/-- A client that asks for ML-KEM-768 alone, and sends nothing else. -/
def asksMlkem768 : List (Option Json) := [some (HybridPqc.profileSelect 6 none none)]

/-- A handshake with ML-KEM-768 where no call fails: the worker is joined, and all is released. -/
theorem worker_disciplined_sample :
    ∃ t, Steps (.reliable PrimEnv.sample) (start asksMlkem768) t ∧
      Disciplined asksMlkem768 t := by
  have hnull : NeverNull (.reliable PrimEnv.sample) asksMlkem768 :=
    fun _ _ _ _ => ⟨rfl, fun _ _ _ _ _ _ => rfl⟩
  obtain ⟨⟨t, r, hsteps, hmain⟩, -⟩ := worker_disciplined_iff (.reliable PrimEnv.sample)
    asksMlkem768 (start asksMlkem768) .refl
  exact ⟨t, hsteps, ((worker_disciplined_iff _ _ t hsteps).2 r hmain).2 hnull⟩

/-- No call fails, but no thread is created. -/
def noThreads : PrimEnv
  | .pthreadCreate => false
  | q => PrimEnv.sample q

/-- There the handler goes on, and reads the length of a public key that nobody has made. -/
theorem worker_not_created :
    ∃ t, Steps (.reliable noThreads) (start asksMlkem768) t ∧
      t.main = .ret .crashed ∧ ¬Disciplined asksMlkem768 t := by
  have hnull : ¬NeverNull (.reliable noThreads) asksMlkem768 := by
    intro h
    have hcreated := (h mlkem768Only rfl (by decide) fun hc => absurd hc (by decide)).1
    cases hcreated
  have hkept := Fork.Reachable.kept tokens_thread (by simp) keeps_handleClient
    (.refl : Steps (.reliable noThreads) (start asksMlkem768) _)
  obtain ⟨t, r, hsteps, hmain⟩ := hkept.can_finish tokens_thread
  have hcrashed : r = .crashed := by
    rw [end_eq hsteps hmain]
    exact val_handleClient_crashed.2 hnull
  exact ⟨t, hsteps, hcrashed ▸ hmain, mt (disciplined_iff hsteps hmain).1 hnull⟩

end Threaded

end Baseline

end HybridPqc
