import HybridPqc.KemCalls
import HybridPqc.Dispatch.ClientRun

/-!
# The routes of the client

`c_dispatch/client.c` has a persistent worker for the encapsulation. It is an
instance of `Handoff`: a job is the `PQCEncapsArgs` of a call of
`execute_dispatch_handshake`, the slot is `g_client_worker.args`, with what it
points to, and the outcome of a run of the worker is that of the library calls it
makes. The steps are those of the code:

* the worker (`client_worker_loop`): `lock`, `check`, `wait`, `leave` are its
  inner loop, after which it tests `shutdown` and takes the pointer before it
  releases the mutex (`Fetch.underLock`); `begin` and `work` are
  `client_pqc_encaps_worker`; `lockDone`, `mark`, `notify` and `unlock` are the
  end of the loop;
* a caller: `postLock` to `postUnlock` are the dispatch of
  `execute_dispatch_handshake`, `overlap` is the derivation of the classical
  secret, `joinLock` to `joinUnlock` are the wait for the worker, and `collect`
  looks at what it has left; `initMem` to `initSet` are `client_worker_init`,
  `shutLock` to `shutReset` are `client_worker_shutdown`.

A thread makes any calls, in any interleaving with the worker (`ClientTask`). The
route of a handshake does not show (`client_routes_agree`).
-/

namespace HybridPqc

open Handoff

namespace Dispatch

/-! ## The pool -/

/-- `args`: null, or the structure of a caller, with what a worker has left in it. -/
abbrev ClientSlot := Option (PQCEncapsArgs × EncapsResult)

/-- The pool of the client. -/
def clientPool : Pool PQCEncapsArgs ClientSlot (Option PQCEncapsArgs) EncapsResult PrimEnv where
  blank := none
  post args _ := some (args, .init)
  desc := some
  read slot := slot.map Prod.fst
  clear slot := slot.map fun p => (p.1, { p.2 with success := false })
  store env args slot :=
    match args with
    | none => slot
    | some args => slot.map fun p => (p.1, (clientPqcEncapsWorker args p.2).eval env)
  collect slot := (slot.map Prod.snd).getD .init
  result env args := (clientPqcEncapsWorker args .init).eval env
  read_post _ _ := rfl
  collect_store _ _ _ := rfl

/-- The steps `begin` and `work` of the worker are `client_pqc_encaps_worker`, unless
    `args` is null. -/
theorem store_clear_eq_clientPqcEncapsWorker (env : PrimEnv) (slot : ClientSlot) :
    clientPool.store env (clientPool.read slot) (clientPool.clear slot) =
      slot.map fun p => (p.1, (clientPqcEncapsWorker p.1 p.2).eval env) := by
  cases slot <;> rfl

/-! ## The calls of a thread -/

/-- The arguments of a handshake, but for the route. -/
structure HandshakeArgs where
  e : Endian
  host : CString
  combo : AlgoCombo
  kdfType : CString
  dispatchMode : CString

/-- A call of a thread. -/
inductive ClientCall
  | init
  | shutdown
  | handshake (args : HandshakeArgs) (route : DispatchRoute)

/-- What a call returns. -/
inductive ClientReturn
  | init (rc : Int)
  | shutdown
  | handshake (o : ClientEnd)

/-- The program of a call. -/
def ClientCall.prog : ClientCall → ClientProg ClientReturn
  | .init => do return .init (← clientWorkerInit)
  | .shutdown => do clientWorkerShutdown; return .shutdown
  | .handshake args route => do
    return .handshake (← executeDispatchHandshake args.e args.host args.combo args.kdfType
      args.dispatchMode route)

/-- A call of a thread, with the answers to its operations and the stream of the
    server. -/
structure ClientTask where
  env : NetEnv
  input : List UInt8
  call : ClientCall

def ClientTask.task (t : ClientTask) : ConnWorld UInt8 Prim.Res × ClientProg ClientReturn :=
  (⟨t.env, t.input, []⟩, t.call.prog)

/-- A thread that makes calls of the client. -/
abbrev ClientThread :=
  Thread PQCEncapsArgs ClientSlot (Option PQCEncapsArgs) EncapsResult (ConnOp UInt8 Prim)
    (ConnOp.Res Prim.Res) (ConnWorld UInt8 Prim.Res) ClientReturn

/-- The states of a thread that makes the given calls, and of the pool. -/
abbrev ClientReachable (oracle : ℕ → PrimEnv) (calls : List ClientTask) : ClientThread → Prop :=
  ThreadReachable ConnWorld.handler clientPool .underLock oracle (calls.map ClientTask.task)

/-- Steps of a thread and of the worker. -/
abbrev ClientSteps (oracle : ℕ → PrimEnv) : ClientThread → ClientThread → Prop :=
  ThreadSteps ConnWorld.handler clientPool .underLock oracle

/-! ## Safety -/

/-- Releasing the KEM key of the server, to which the arguments of a job point. -/
def FreesKey (o : ConnOp UInt8 Prim) : Prop := o = .sys (.free .publicKey)

section Safety

variable {oracle : ℕ → PrimEnv} {a : Alone (ConnWorld UInt8 Prim.Res) PQCEncapsArgs}

/-- The classical secret is computed without releasing the KEM key. -/
theorem keepsKey_clientSecret {combo : AlgoCombo} {priv : Option EvpPkey} {hello : ServerHello} :
    (Conn.lift (clientSecret combo priv hello) : Net Secret).All fun o => ¬FreesKey o := by
  have hclassical : (clientSecret combo priv hello).All ClassicalCall :=
    .bind classical_classicalSecret fun _ => .bind classical_freePkey fun _ => trivial
  refine Prog.All.mono (Conn.only_lift.2 hclassical) fun o ho => ?_
  rintro rfl
  exact ho

/-- Whether a job is dispatched, and the pool: it is started if need be. -/
theorem along_dispatchEncaps {route : DispatchRoute} {args : PQCEncapsArgs}
    {φ : Alone (ConnWorld UInt8 Prim.Res) PQCEncapsArgs →
      PoolOp PQCEncapsArgs (ConnOp UInt8 Prim) → Prop}
    {Q : Bool → Alone (ConnWorld UInt8 Prim.Res) PQCEncapsArgs → Prop}
    (hφ : ∀ a' o, a'.pending = none → Guard FreesKey a' o → o ≠ .await → φ a' o)
    (hinline : ∀ ready, Q false { a with ready := ready, pending := none })
    (hdispatched : route = .parallel →
      Q true ⟨a.world, true, a.posted + 1, some (a.posted, args)⟩)
    (ha : a.pending = none) :
    (dispatchEncaps route args).Along (Alone.handler ConnWorld.handler clientPool oracle) φ Q a := by
  obtain ⟨⟨env, input, sent⟩, ready, posted, pending⟩ := a
  obtain rfl : pending = none := ha
  cases route with
  | sequential => exact hinline ready
  | parallel =>
    have hready : ∀ ready, φ ⟨⟨env, input, sent⟩, ready, posted, none⟩ .ready :=
      fun ready => hφ _ _ rfl trivial (by simp)
    have hpost : φ ⟨⟨env, input, sent⟩, true, posted, none⟩ (.dispatch args) :=
      hφ _ _ rfl ⟨rfl, rfl⟩ (by simp)
    cases ready with
    | true =>
      simp only [dispatchEncaps, if_true, Prog.op_eq, Prog.call_bind, Prog.ret_bind, Prog.pure_eq,
        Prog.along_call, Alone.handler, Bool.not_true, Bool.false_eq_true, if_false, Prog.along_ret]
      exact ⟨hready true, hready true, hpost, hdispatched rfl⟩
    | false =>
      have hsys : φ ⟨⟨env, input, sent⟩, false, posted, none⟩ (.sys (.sys .pthreadCreate)) :=
        hφ _ _ rfl (fun _ => rfl) (by simp)
      have hstart : ∀ created, φ ⟨⟨env, input, sent⟩, false, posted, none⟩ (.start created) :=
        fun created => hφ _ _ rfl ⟨rfl, rfl⟩ (by simp)
      simp only [dispatchEncaps, clientWorkerInit, if_true, Prog.op_eq, Prog.call_bind,
        Prog.ret_bind, Prog.pure_eq, Prog.along_call, Alone.handler, Bool.not_false,
        Bool.false_eq_true, if_false, Conn.sys_eq, PoolProg.lift_call, PoolProg.lift_ret,
        ConnWorld.handler, ConnOp.writes, List.append_nil, ConnEnv.handler]
      refine ⟨hready _, hready _, hsys, hstart _, hready _, ?_⟩
      cases env.sys .pthreadCreate with
      | true => exact ⟨hpost, hdispatched rfl⟩
      | false => exact hinline false

/-- The hybrid secrets: the KEM key is only released once the worker is done. -/
theorem safe_hybridSecrets {e : Endian} {combo : AlgoCombo} {route : DispatchRoute}
    {priv : Option EvpPkey} {hello : ServerHello} (ha : a.pending = none) :
    Safe ConnWorld.handler clientPool oracle FreesKey (hybridSecrets e combo route priv hello) a := by
  rw [Safe, hybridSecrets, Prog.along_bind]
  refine along_dispatchEncaps (fun _ _ _ ho _ => ho) (fun ready => ?_) (fun _ => ?_) ha
  · simp only [Bool.false_eq_true, if_false, Prog.along_bind]
    rw [along_lift _ _ _ (.inl rfl), along_lift _ _ _ (.inl rfl), along_lift _ _ _ (.inl rfl)]
  · simp only [if_true, Prog.along_bind]
    rw [along_lift _ _ _ (.inr keepsKey_clientSecret)]
    simp only [Prog.op_eq, Prog.along_call, Prog.along_ret, Alone.handler]
    rw [along_lift _ _ _ (.inl rfl)]
    exact ⟨⟨rfl, by simp⟩, rfl⟩

/-- A condition along a handshake, given what it is along the computation of the secrets. -/
theorem along_executeDispatchHandshake {e : Endian} {host : CString} {combo : AlgoCombo}
    {kdfType dispatchMode : CString} {route : DispatchRoute}
    {φ : Alone (ConnWorld UInt8 Prim.Res) PQCEncapsArgs →
      PoolOp PQCEncapsArgs (ConnOp UInt8 Prim) → Prop}
    (hφ : ∀ a' o, a'.pending = none → φ a' (.sys o))
    (hsecrets : ∀ priv hello w, w.env = a.world.env →
      (hybridSecrets e combo route priv hello).Along
        (Alone.handler ConnWorld.handler clientPool oracle) φ (fun _ a' => a'.pending = none)
        { a with world := w })
    (ha : a.pending = none) :
    (executeDispatchHandshake e host combo kdfType dispatchMode route).Along
      (Alone.handler ConnWorld.handler clientPool oracle) φ (fun _ a' => a'.pending = none) a := by
  have hlift {β : Type} (p : Net β) {Q : β → Alone (ConnWorld UInt8 Prim.Res) PQCEncapsArgs → Prop}
      {a' : Alone (ConnWorld UInt8 Prim.Res) PQCEncapsArgs} (ha' : a'.pending = none)
      (hQ : ∀ v w, w.env = a'.world.env → Q v { a' with world := w }) :
      (PoolProg.lift p : ClientProg β).Along (Alone.handler ConnWorld.handler clientPool oracle) φ Q
        a' :=
    (along_lift_iff _ _ _ (Prog.all_of_forall (fun o w => hφ { a' with world := w } o ha') p)).2
      (hQ _ _ (ConnWorld.env_run p _))
  rw [executeDispatchHandshake, Prog.along_bind]
  refine hlift _ ha fun start w hw => ?_
  obtain _ | start := start
  · exact ha
  rw [Prog.along_bind]
  refine hlift _ ha fun hello w' hw' => ?_
  obtain _ | hello := hello
  · exact hlift _ ha fun _ _ _ => ha
  rw [Prog.along_bind]
  refine Prog.Along.mono (Q := fun _ a' => a'.pending = none) ?_ fun secrets a' ha' => ?_
  · rw [clientSecrets]
    split_ifs
    · exact hsecrets _ _ _ (hw'.trans hw)
    · rw [Prog.along_bind]
      exact hlift _ ha fun _ _ _ => ha
    · exact hlift _ ha fun _ _ _ => ha
    · exact ha
  · -- what comes after the secrets does not use the pool
    cases secrets with
    | crashed => exact ha'
    | failed => exact ha'
    | ok cSecret qSecret => exact hlift _ ha' fun _ _ _ => ha'

/-- The calls of the client are safe. -/
theorem safe_call (call : ClientCall) (ha : a.pending = none) :
    Safe ConnWorld.handler clientPool oracle FreesKey call.prog a := by
  cases call with
  | init =>
    cases hready : a.ready <;>
      simp [Safe, ClientCall.prog, clientWorkerInit, Alone.handler, Guard, hready, ha, FreesKey]
  | shutdown =>
    cases hready : a.ready <;>
      simp [Safe, ClientCall.prog, clientWorkerShutdown, Alone.handler, Guard, hready, ha]
  | handshake args route =>
    rw [Safe, ClientCall.prog, Prog.along_bind]
    exact along_executeDispatchHandshake (fun _ _ h _ => h) (fun _ _ _ _ => safe_hybridSecrets ha) ha

/-- The calls of a thread are safe, one after the other. -/
theorem safeAll_calls (tasks : List ClientTask) (ready : Bool) (posted : ℕ) :
    SafeAll ConnWorld.handler clientPool oracle FreesKey (tasks.map ClientTask.task) ready
      posted := by
  induction tasks generalizing ready posted with
  | nil => trivial
  | cons t ts ih => exact ⟨safe_call t.call rfl, ih ..⟩

end Safety

/-! ## Transparency -/

/-- The encapsulation has the outcome on the worker that it has inline. -/
def SameEncaps (worker env : PrimEnv) (combo : AlgoCombo) : Prop :=
  ∀ pk, (clientPqcEncapsWorker ⟨combo.pqcName, none, pk⟩ .init).eval worker =
    (clientPqcEncapsWorker ⟨combo.pqcName, none, pk⟩ .init).eval env

section Transparency

variable {oracle : ℕ → PrimEnv} {a : Alone (ConnWorld UInt8 Prim.Res) PQCEncapsArgs}
  {route : DispatchRoute}

/-- The result of a job of the worker is that of the inline encapsulation. -/
theorem inlines_hybridSecrets {e : Endian} {combo : AlgoCombo} {priv : Option EvpPkey}
    {hello : ServerHello} (ha : a.pending = none)
    (hsame : route = .parallel → SameEncaps (oracle a.posted) a.world.env.sys combo) :
    (hybridSecrets e combo route priv hello).Along (Alone.handler ConnWorld.handler clientPool oracle)
      (Inlines ConnWorld.handler clientPool oracle encapsInline) (fun _ a' => a'.pending = none)
      a := by
  have hlift {β : Type} (p : Net β) {Q : β → Alone (ConnWorld UInt8 Prim.Res) PQCEncapsArgs → Prop}
      (a' : Alone (ConnWorld UInt8 Prim.Res) PQCEncapsArgs) :
      (PoolProg.lift p : ClientProg β).Along (Alone.handler ConnWorld.handler clientPool oracle)
        (Inlines ConnWorld.handler clientPool oracle encapsInline) Q a' ↔
        Q (p.run ConnWorld.handler a'.world).val
          { a' with world := (p.run ConnWorld.handler a'.world).world } :=
    along_lift_iff _ _ _ (Prog.all_of_forall (fun _ _ => trivial) p)
  rw [hybridSecrets, Prog.along_bind]
  refine along_dispatchEncaps (fun a' o _ _ ho => ?_) (fun ready => ?_) (fun hroute => ?_) ha
  · cases o with
    | await => exact absurd rfl ho
    | _ => trivial
  · simp only [Bool.false_eq_true, if_false, Prog.along_bind, hlift]
  · simp only [if_true, Prog.along_bind, hlift, Prog.op_eq, Prog.along_call, Prog.along_ret,
      Alone.handler]
    refine ⟨?_, trivial⟩
    rintro t j ⟨⟩
    rw [ConnWorld.run_eq, ConnWorld.run_eq, encapsInline, ConnEnv.obs_lift]
    exact ⟨(hsame hroute hello.pqcPk).symm, by simp⟩

/-- A handshake shows what it does in sequence, by its route or not. -/
theorem run_handshake {args : HandshakeArgs} (ha : a.pending = none)
    (hsame : route = .parallel → SameEncaps (oracle a.posted) a.world.env.sys args.combo) :
    let r := (ClientCall.handshake args route).prog.run
      (Alone.handler ConnWorld.handler clientPool oracle) a
    let o := a.world.env.obs a.world.input (sequentialHandshake args.e args.combo args.host
      args.kdfType args.dispatchMode)
    r.val = .handshake o.val ∧ r.world.world.sent = a.world.sent ++ o.sent := by
  have halong : (executeDispatchHandshake args.e args.host args.combo args.kdfType
      args.dispatchMode route).Along (Alone.handler ConnWorld.handler clientPool oracle)
      (Inlines ConnWorld.handler clientPool oracle encapsInline) (fun _ a' => a'.pending = none) a :=
    along_executeDispatchHandshake (fun _ _ _ => trivial)
      (fun priv hello w hw => inlines_hybridSecrets ha fun hroute => hw ▸ hsame hroute) ha
  obtain ⟨hval, hworld⟩ := run_inline (halong.mono fun _ _ _ => trivial)
  rw [ha, Option.map_none, ConnWorld.run_eq] at hval hworld
  -- the task alone shows what the handshake with its job inline does
  have hobs : (a.world.env.obs a.world.input (PoolProg.inline encapsInline
      (executeDispatchHandshake args.e args.host args.combo args.kdfType args.dispatchMode route)
        a.ready none)).map Prod.fst =
      a.world.env.obs a.world.input (sequentialHandshake args.e args.combo args.host args.kdfType
        args.dispatchMode) := by
    rw [← @obs_dispatchHandshake args.e a.world.env args.combo a.world.input route a.ready,
      dispatchHandshake, ConnEnv.obs_bind]
    exact (Obs.andThen_ret _ _).symm
  rw [← hobs, ClientCall.prog, Prog.run_bind]
  exact ⟨congrArg ClientReturn.handshake (congrArg Prod.fst hval).symm,
    congrArg ConnWorld.sent hworld.symm⟩

end Transparency

/-- A thread that makes some calls, then a last one: before it, and once it has returned. -/
structure LastCall (oracle : ℕ → PrimEnv) (history : List ClientTask) (last : ClientTask)
    (t t' : ClientThread) : Prop where
  reachable : ClientReachable oracle (history ++ [last]) t
  before : t.current = none ∧ t.todo = [last.task]
  steps : ClientSteps oracle t t'
  returned : t'.current = none ∧ t'.todo = []

/-- The handshake a thread ends with shows what it does in sequence. -/
theorem LastCall.handshake {oracle : ℕ → PrimEnv} {history : List ClientTask} {env : NetEnv}
    {input : List UInt8} {args : HandshakeArgs} {route : DispatchRoute} {t t' : ClientThread}
    (h : LastCall oracle history ⟨env, input, .handshake args route⟩ t t')
    (hsame : route = .parallel → SameEncaps (oracle t.pool.posted.length) env.sys args.combo) :
    let o := env.obs input (sequentialHandshake args.e args.combo args.host args.kdfType
      args.dispatchMode)
    ∃ r, t'.done = t.done ++ [r] ∧ r.val = .handshake o.val ∧ r.world.sent = o.sent := by
  intro o
  rw [h.reachable.done_eq_append h.steps h.before.1 h.returned.1 h.returned.2, h.before.2]
  let a : Alone (ConnWorld UInt8 Prim.Res) PQCEncapsArgs :=
    ⟨⟨env, input, []⟩, t.pool.ready, t.pool.posted.length, none⟩
  obtain ⟨hval, hsent⟩ := @run_handshake oracle a route args rfl hsame
  exact ⟨_, rfl, hval, hsent⟩

/-- The worker processes every job dispatched once, in order, and has finished with all of
    them whenever a KEM key is about to be released or a call to return, and between calls. -/
structure HandedOver (t : ClientThread) : Prop where
  once : t.pool.runs.length ≤ t.pool.posted.length ∧
    ∀ k args, k < t.pool.runs.length → t.pool.posted[k]? = some ((), args) →
      t.pool.runs[k]? = some (k, some args)
  finished : t.Exclusive FreesKey →
    t.pool.worker.touches = false ∧ t.pool.runs.length = t.pool.posted.length

theorem handedOver {oracle : ℕ → PrimEnv} {calls : List ClientTask} {t : ClientThread}
    (ht : ClientReachable oracle calls t) : HandedOver t where
  once := by
    have hhistory := (ht.inv FreesKey).inv.history
    exact ⟨hhistory.runs_le, fun k args hk hp => hhistory.runs k ((), args) hk hp⟩
  finished := ht.at_rest (safeAll_calls ..)

/-- **The route of a client does not show.** In every state of a run of one thread, in any
    interleaving with the worker, every job dispatched is processed once, before the KEM key
    it points to is released and before its call returns, and all calls can return.

    After any calls, a handshake in parallel writes what a handshake in sequence does, and
    returns the same, with the same session key, if its operations have the same outcomes. -/
theorem client_routes_agree (oracle oracle' : ℕ → PrimEnv) :
    (∀ calls t, ClientReachable oracle calls t →
      HandedOver t ∧ ∃ s ds, ClientSteps oracle t ⟨s, none, [], ds⟩) ∧
    ∀ history history' args env input t t' u u',
      LastCall oracle history ⟨env, input, .handshake args .parallel⟩ t t' →
      LastCall oracle' history' ⟨env, input, .handshake args .sequential⟩ u u' →
      SameEncaps (oracle t.pool.posted.length) env.sys args.combo →
      ∃ r r', t'.done = t.done ++ [r] ∧ u'.done = u.done ++ [r'] ∧ r.val = r'.val ∧
        r.world.sent = r'.world.sent := by
  refine ⟨fun calls t ht => ⟨handedOver ht, ht.can_finish (safeAll_calls ..)⟩, ?_⟩
  intro history history' args env input t t' u u' hpar hseq hsame
  obtain ⟨r, hdone, hval, hsent⟩ := hpar.handshake fun _ => hsame
  obtain ⟨r', hdone', hval', hsent'⟩ := hseq.handshake nofun
  exact ⟨r, r', hdone, hdone', hval.trans hval'.symm, hsent.trans hsent'.symm⟩

/-- A handshake with a server that sends the keys of a hybrid suite, by both routes. -/
theorem client_routes_agree_x25519_mlkem768 :
    let args : HandshakeArgs := ⟨.little, cstr "127.0.0.1", x25519Mlkem768, cstr "blake3", cstr "auto"⟩
    let input := serverHello .little x25519Mlkem768 (List.replicate 32 0) (List.replicate 1184 0)
    ∃ t t' u u' : ClientThread,
      LastCall (fun _ => .sample) [] ⟨.sample, input, .handshake args .parallel⟩ t t' ∧
      LastCall (fun _ => .sample) [] ⟨.sample, input, .handshake args .sequential⟩ u u' ∧
      HandedOver t' ∧ ∃ r r', t'.done = t.done ++ [r] ∧ u'.done = u.done ++ [r'] ∧ r.val = r'.val ∧
        r.world.sent = r'.world.sent := by
  intro args input
  obtain ⟨hover, hagree⟩ := client_routes_agree (fun _ => .sample) (fun _ => .sample)
  have hlast (route : DispatchRoute) : ∃ t', LastCall (fun _ => .sample) []
      ⟨.sample, input, .handshake args route⟩
      ⟨.init clientPool, none, [ClientTask.task ⟨.sample, input, .handshake args route⟩], []⟩ t' := by
    obtain ⟨-, s, ds, hsteps⟩ := hover [⟨.sample, input, .handshake args route⟩] _ .init
    exact ⟨_, .init, ⟨rfl, rfl⟩, hsteps, rfl, rfl⟩
  obtain ⟨t', hpar⟩ := hlast .parallel
  obtain ⟨u', hseq⟩ := hlast .sequential
  exact ⟨_, t', _, u', hpar, hseq, (hover _ _ (hpar.reachable.steps hpar.steps)).1,
    hagree [] [] args .sample input _ t' _ u' hpar hseq fun _ => rfl⟩

end Dispatch

end HybridPqc
