import HybridPqc.Lib.Handoff.Thread
import HybridPqc.Engine.Pool

/-!
# Routing

`c_dispatch/src/dispatcher.c`, and what it routes to: `execute_sequential`, or
`execute_parallel_optimized`, which has the KEM operation made by the worker pool
(`EngineProg`). A thread makes any calls of the engine, in any interleaving with
the worker (`EngineCall`).

The route does not show in the result (`dispatch_execute_transparent`): the
router sends no suite to the pool for which the guard of the parallel path
differs from that of the sequential one, and the worker leaves the secret the
inline operation would leave.
-/

namespace HybridPqc

open Handoff

/-- What the router knows of the host. -/
structure HostProfile where
  isVirtualized : Int
  logicalCores : Int
  deriving DecidableEq

/-- Where a suite is executed. -/
inductive DispatchRoute
  | sequential
  | parallel
  deriving DecidableEq

/-- `route_name`. -/
def routeName : DispatchRoute → CString
  | .sequential => cstr "Sequential"
  | .parallel => cstr "Parallel"

/-- `adaptive_dispatch`. -/
def adaptiveDispatch (hp : HostProfile) (combo : AlgoCombo) : DispatchRoute :=
  -- Rule 1: nothing to overlap
  if combo.profile ≠ profileHybrid ∨ combo.pqcAlg = pqcNone ∨ combo.classicalCurve = curveNone then
    .sequential
  -- Rule 2: few cores
  else if hp.logicalCores ≤ 1 then
    .sequential
  else if hp.isVirtualized ≠ 0 ∧ hp.logicalCores ≤ 2 then
    .sequential
  -- Rule 3: a light suite
  else if combo.classicalCurve = curveX25519 ∧ combo.pqcAlg = pqcMlkem768 then
    .sequential
  -- Rule 4: enough cores
  else if hp.logicalCores ≥ 2 then
    .parallel
  else
    .sequential

/-- Only hybrid suites with both parts are executed in parallel. -/
theorem adaptiveDispatch_parallel {hp : HostProfile} {combo : AlgoCombo}
    (h : adaptiveDispatch hp combo = .parallel) :
    combo.profile = profileHybrid ∧ combo.pqcAlg ≠ pqcNone ∧ combo.classicalCurve ≠ curveNone := by
  by_cases hrule : combo.profile ≠ profileHybrid ∨ combo.pqcAlg = pqcNone ∨
      combo.classicalCurve = curveNone
  · rw [adaptiveDispatch, if_pos hrule] at h
    cases h
  · simpa [not_or] using hrule

/-! ## The calls of the engine -/

/-- A program of a thread that uses the pool of the engine. -/
abbrev EngineProg (α : Type) := PoolProg KemJob KemResult Prim Prim.Res α

/-- `engine_init`. -/
def engineInit : EngineProg Int := do
  if ← PoolProg.ready then
    return 0
  let created ← PoolProg.lift (call .pthreadCreate)
  PoolProg.start created
  return if created then 0 else -1

/-- `engine_shutdown`. -/
def engineShutdown : EngineProg Unit := do
  if ← PoolProg.ready then
    PoolProg.stop

/-- `execute_parallel_optimized`, which leaves the result of its caller alone if
    the engine is not initialised. -/
def executeParallelOptimized (combo : AlgoCombo) (role : HandshakeRole)
    (result : SharedCryptoResult) : EngineProg (Int × SharedCryptoResult) := do
  if !(← PoolProg.ready) then
    return (-1, result)
  let result := SharedCryptoResult.zero
  if combo.pqcAlg = pqcNone ∨ combo.classicalCurve = curveNone then
    PoolProg.lift (executeSequential combo role)
  else
    PoolProg.dispatch ⟨combo.pqcName, role⟩
    let result ← PoolProg.lift (result.ecdh combo)
    let kem ← PoolProg.await
    let result := { result with
      kemSharedSecret := kem.kemSharedSecret, kemSharedSecretLen := kem.kemSharedSecretLen
      kemOk := kem.kemOk }
    return (if result.ecdhOk && result.kemOk then 0 else -1, result)

/-- `dispatch_execute`. -/
def dispatchExecute (hp : HostProfile) (combo : AlgoCombo) (role : HandshakeRole)
    (result : SharedCryptoResult) : EngineProg (Int × SharedCryptoResult) :=
  match adaptiveDispatch hp combo with
  | .parallel => executeParallelOptimized combo role result
  | .sequential => PoolProg.lift (executeSequential combo role)

/-- A call of the engine. -/
inductive EngineCall
  | init
  | shutdown
  | sequential (combo : AlgoCombo) (role : HandshakeRole)
  | parallel (combo : AlgoCombo) (role : HandshakeRole)
  | dispatch (hp : HostProfile) (combo : AlgoCombo) (role : HandshakeRole)

/-- The program of a call, given the result of its caller, with the code it
    returns and what it leaves in the result. -/
def EngineCall.prog (result : SharedCryptoResult) :
    EngineCall → EngineProg (Int × SharedCryptoResult)
  | .init => do return (← engineInit, result)
  | .shutdown => do engineShutdown; return (0, result)
  | .sequential combo role => PoolProg.lift (executeSequential combo role)
  | .parallel combo role => executeParallelOptimized combo role result
  | .dispatch hp combo role => dispatchExecute hp combo role result

/-- A call of a thread: what its library calls answer, the call, and the result of
    its caller. -/
structure EngineTask where
  env : PrimEnv
  call : EngineCall
  result : SharedCryptoResult

def EngineTask.task (t : EngineTask) : PrimEnv × EngineProg (Int × SharedCryptoResult) :=
  (t.env, t.call.prog t.result)

/-- Two calls return the same: the same code, and, if it is `0`, the same result. -/
def SameResult (x y : Int × SharedCryptoResult) : Prop := x.1 = y.1 ∧ (x.1 = 0 → x.2 = y.2)

/-- A thread that makes calls of the engine. -/
abbrev EngineThread :=
  Thread KemJob WorkerPool KemJob KemResult Prim Prim.Res PrimEnv (Int × SharedCryptoResult)

/-- The answers to a thread alone. -/
abbrev engineAlone (oracle : ℕ → PrimEnv) :
    Prog.Handler (PoolOp KemJob Prim) (PoolOp.Res KemJob KemResult Prim.Res) (Alone PrimEnv KemJob) :=
  Alone.handler Prog.envHandler enginePool oracle

section Calls

variable {oracle : ℕ → PrimEnv} {a : Alone PrimEnv KemJob}

/-- No call of the engine is exclusive. -/
theorem safe_call (call : EngineCall) (result : SharedCryptoResult) (ha : a.pending = none) :
    Safe Prog.envHandler enginePool oracle (fun _ => False) (call.prog result) a := by
  have hseq : ∀ combo role, Safe Prog.envHandler enginePool oracle (fun _ => False)
      (PoolProg.lift (executeSequential combo role)) a := fun combo role =>
    (along_lift _ _ _ (.inl ha)).mpr ha
  have hpar : ∀ combo role, Safe Prog.envHandler enginePool oracle (fun _ => False)
      (executeParallelOptimized combo role result) a := by
    intro combo role
    cases hready : a.ready with
    | false => simp [Safe, executeParallelOptimized, Alone.handler, Guard, hready, ha]
    | true =>
      by_cases hguard : combo.pqcAlg = pqcNone ∨ combo.classicalCurve = curveNone
      · simpa [Safe, executeParallelOptimized, Alone.handler, Guard, hready, hguard] using
          hseq combo role
      · have hx : (SharedCryptoResult.zero.ecdh combo).All fun _ => ¬False :=
          Prog.all_of_forall (fun _ => id) _
        simp [Safe, executeParallelOptimized, Alone.handler, Guard, hready, hguard, ha,
          along_lift _ _ _ (.inr hx)]
  cases call with
  | init =>
    cases hready : a.ready <;>
      simp [Safe, EngineCall.prog, engineInit, Alone.handler, Guard, hready, ha]
  | shutdown =>
    cases hready : a.ready <;>
      simp [Safe, EngineCall.prog, engineShutdown, Alone.handler, Guard, hready, ha]
  | sequential combo role => exact hseq combo role
  | parallel combo role => exact hpar combo role
  | dispatch hp combo role =>
    rw [EngineCall.prog, dispatchExecute]
    cases adaptiveDispatch hp combo
    · exact hseq combo role
    · exact hpar combo role

/-- The calls of a thread are safe, one after the other. -/
theorem safeAll_calls (tasks : List EngineTask) (ready : Bool) (posted : ℕ) :
    SafeAll Prog.envHandler enginePool oracle (fun _ => False) (tasks.map EngineTask.task) ready
      posted := by
  induction tasks generalizing ready posted with
  | nil => trivial
  | cons t ts ih => exact ⟨safe_call t.call t.result rfl, ih ..⟩

/-- A hybrid suite in parallel: the classical operation here, the KEM operation
    on the worker. -/
theorem run_executeParallelOptimized_hybrid {combo : AlgoCombo} {role : HandshakeRole}
    {result : SharedCryptoResult} (hready : a.ready = true) (hpqc : combo.pqcAlg ≠ pqcNone)
    (hcurve : combo.classicalCurve ≠ curveNone) :
    ((executeParallelOptimized combo role result).run (engineAlone oracle) a).val =
      let result := (SharedCryptoResult.zero.ecdh combo).eval a.world
      let result := result.setKem ((kemSecret combo.pqcName role).eval (oracle a.posted))
      (if result.ecdhOk && result.kemOk then 0 else -1, result) := by
  have hguard : ¬(combo.pqcAlg = pqcNone ∨ combo.classicalCurve = curveNone) :=
    fun h => h.elim hpqc hcurve
  simp only [executeParallelOptimized, if_neg hguard, Prog.op_eq, Prog.call_bind, Prog.ret_bind,
    Prog.pure_eq, Prog.run_call, Alone.handler, hready, Bool.not_true, Bool.false_eq_true, if_false,
    Prog.run_bind, run_lift, Prog.run_envHandler, Prog.run_ret]
  have hres : enginePool.result (oracle a.posted) ⟨combo.pqcName, role⟩ = _ :=
    KemJob.result_eq (oracle a.posted) ⟨combo.pqcName, role⟩
  simp only [hres, SharedCryptoResult.eval_ecdh]
  cases (kemSecret combo.pqcName role).eval (oracle a.posted) <;> rfl

/-- The parallel execution returns what the sequential one does, if the
    operations have the outcomes they have there. -/
theorem run_executeParallelOptimized {env : PrimEnv} {combo : AlgoCombo} {role : HandshakeRole}
    {result : SharedCryptoResult} (hready : a.ready = true)
    (hclassical : ¬(combo.profile = profilePureClassical ∨ combo.pqcAlg = pqcNone))
    (hquantum : ¬(combo.profile = profilePureQuantum ∨ combo.classicalCurve = curveNone))
    (hecdh : (performEcdh combo.classicalCurve (.zero 48) 0).eval a.world =
      (performEcdh combo.classicalCurve (.zero 48) 0).eval env)
    (hkem : (kemSecret combo.pqcName role).eval (oracle a.posted) =
      (kemSecret combo.pqcName role).eval env) :
    SameResult ((executeParallelOptimized combo role result).run (engineAlone oracle) a).val
      ((executeSequential combo role).eval env) := by
  rw [run_executeParallelOptimized_hybrid hready (fun h => hclassical (.inr h))
      fun h => hquantum (.inr h),
    eval_executeSequential_hybrid hclassical hquantum, hkem,
    SharedCryptoResult.eval_ecdh_congr hecdh]
  generalize (SharedCryptoResult.zero.ecdh combo).eval env = z
  generalize (kemSecret combo.pqcName role).eval env = ss
  cases hok : z.ecdhOk <;> cases ss <;> simp [SameResult, SharedCryptoResult.setKem, hok]

end Calls

/-! ## Transparency -/

/-- Where the KEM operation is made: inline, or on the worker. -/
def DispatchRoute.kemEnv (route : DispatchRoute) (env worker : PrimEnv) : PrimEnv :=
  match route with
  | .sequential => env
  | .parallel => worker

variable {oracle : ℕ → PrimEnv}

/-- The router, from a pool that is started. -/
theorem run_dispatchExecute {hp : HostProfile} {combo : AlgoCombo} {role : HandshakeRole}
    {result : SharedCryptoResult} {a : Alone PrimEnv KemJob} {env : PrimEnv} (hready : a.ready = true)
    (hecdh : (performEcdh combo.classicalCurve (.zero 48) 0).eval a.world =
      (performEcdh combo.classicalCurve (.zero 48) 0).eval env)
    (hkem : (kemSecret combo.pqcName role).eval
        ((adaptiveDispatch hp combo).kemEnv a.world (oracle a.posted)) =
      (kemSecret combo.pqcName role).eval env) :
    SameResult ((dispatchExecute hp combo role result).run (engineAlone oracle) a).val
      ((executeSequential combo role).eval env) := by
  rw [dispatchExecute]
  cases hroute : adaptiveDispatch hp combo with
  | sequential =>
    rw [hroute, DispatchRoute.kemEnv] at hkem
    rw [run_lift, Prog.run_envHandler, eval_executeSequential_congr hecdh hkem]
    exact ⟨rfl, fun _ => rfl⟩
  | parallel =>
    rw [hroute, DispatchRoute.kemEnv] at hkem
    obtain ⟨hprofile, hpqc, hcurve⟩ := adaptiveDispatch_parallel hroute
    refine run_executeParallelOptimized hready ?_ ?_ hecdh hkem
    · rw [hprofile]
      exact fun h => h.elim (by decide) hpqc
    · rw [hprofile]
      exact fun h => h.elim (by decide) hcurve

/-- The states of a thread that makes the given calls, and of the pool. -/
abbrev EngineReachable (oracle : ℕ → PrimEnv) (calls : List EngineTask) : EngineThread → Prop :=
  ThreadReachable Prog.envHandler enginePool .inPlace oracle (calls.map EngineTask.task)

/-- Steps of a thread and of the worker. -/
abbrev EngineSteps (oracle : ℕ → PrimEnv) : EngineThread → EngineThread → Prop :=
  ThreadSteps Prog.envHandler enginePool .inPlace oracle

/-- A thread can initialise the engine, and go on. -/
theorem reachable_init (calls : List EngineTask) : ∃ t,
    EngineReachable oracle (⟨.sample, .init, .zero⟩ :: calls) t ∧ t.current = none ∧
      t.todo = calls.map EngineTask.task ∧ t.pool.ready = true := by
  -- what is left of the call after it has found that there is no pool
  let start (created : Bool) : EngineProg (Int × SharedCryptoResult) :=
    .call (.start created) fun _ => .ret (if created then 0 else -1, .zero)
  have hready : EngineSteps oracle
      ⟨.init enginePool, some ⟨engineInit >>= fun rc => pure (rc, .zero), .sample, []⟩,
        calls.map EngineTask.task, []⟩
      ⟨.init enginePool, some ⟨.call (.sys .pthreadCreate) start, .sample, [⟨.ready, false⟩]⟩,
        calls.map EngineTask.task, []⟩ := .single .ready
  have hsys : EngineSteps oracle _
      ⟨.init enginePool, some ⟨start true, .sample, [⟨.ready, false⟩, ⟨.sys .pthreadCreate, true⟩]⟩,
        calls.map EngineTask.task, []⟩ := hready.tail .sys
  obtain ⟨s, hidle, hs, -, (hstart : EngineSteps oracle _ _)⟩ :=
    threadSteps_start (.init enginePool) rfl rfl rfl
  have hinit : EngineSteps oracle _ _ := .head .begin ((hsys.trans hstart).tail (.finish hidle))
  exact ⟨_, ThreadReachable.steps .init hinit, rfl, rfl, hs⟩

/-- **Routing is transparent.** After any history of calls of the engine that
    leaves it initialised, a call of the router returns, however it interleaves
    with the worker. If its operations have the outcomes they have in an
    execution in sequence, it returns the code of that execution, and, if it is
    `0`, its result. -/
theorem dispatch_execute_transparent (oracle : ℕ → PrimEnv) (history : List EngineTask)
    (hp : HostProfile) (combo : AlgoCombo) (role : HandshakeRole) (result : SharedCryptoResult)
    (env seqEnv : PrimEnv) (t t' : EngineThread)
    (ht : EngineReachable oracle
      (history ++ [(⟨env, .dispatch hp combo role, result⟩ : EngineTask)]) t)
    (hcurrent : t.current = none)
    (htodo : t.todo = [EngineTask.task ⟨env, .dispatch hp combo role, result⟩])
    (hinit : t.pool.ready = true)
    (hecdh : (performEcdh combo.classicalCurve (.zero 48) 0).eval env =
      (performEcdh combo.classicalCurve (.zero 48) 0).eval seqEnv)
    (hkem : (kemSecret combo.pqcName role).eval
        ((adaptiveDispatch hp combo).kemEnv env (oracle t.pool.posted.length)) =
      (kemSecret combo.pqcName role).eval seqEnv)
    (hsteps : EngineSteps oracle t t') :
    (∃ s ds, EngineSteps oracle t' ⟨s, none, [], ds⟩) ∧
      (t'.current = none → t'.todo = [] → ∃ r, t'.done = t.done ++ [r] ∧
        SameResult r.val ((executeSequential combo role).eval seqEnv)) := by
  refine ⟨(ht.steps hsteps).can_finish (safeAll_calls _ _ _), fun hcurrent' htodo' => ?_⟩
  rw [ht.done_eq_append hsteps hcurrent hcurrent' htodo', htodo, hinit]
  exact ⟨_, rfl, run_dispatchExecute rfl hecdh hkem⟩

/-- A call that is executed in parallel, right after `engine_init`. -/
theorem dispatch_execute_transparent_parallel :
    adaptiveDispatch ⟨0, 4⟩ p384Mlkem1024 = .parallel ∧
    ∃ t t' : EngineThread, EngineSteps (fun _ => .sample) t t' ∧ t.todo.length = 1 ∧
      t'.todo = [] ∧ ∃ r, t'.done = t.done ++ [r] ∧
        SameResult r.val ((executeSequential p384Mlkem1024 .server).eval PrimEnv.sample) := by
  refine ⟨by decide, ?_⟩
  obtain ⟨t, ht, hcurrent, htodo, hinit⟩ := reachable_init
    [(⟨.sample, .dispatch ⟨0, 4⟩ p384Mlkem1024 .server, .zero⟩ : EngineTask)]
  obtain ⟨s, ds, (hsteps : EngineSteps (fun _ => .sample) t _)⟩ :=
    ht.can_finish (safeAll_calls _ _ _)
  obtain ⟨-, hdone⟩ := dispatch_execute_transparent (fun _ => .sample)
    [(⟨.sample, .init, .zero⟩ : EngineTask)] ⟨0, 4⟩ p384Mlkem1024 .server .zero .sample .sample t _ ht
    hcurrent htodo hinit rfl rfl hsteps
  exact ⟨t, _, hsteps, by rw [htodo]; rfl, rfl, hdone rfl rfl⟩

end HybridPqc
