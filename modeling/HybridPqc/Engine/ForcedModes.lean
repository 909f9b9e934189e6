import HybridPqc.Engine.Dispatch
import HybridPqc.KemCalls

/-!
# Forced modes

The benchmarks call `execute_sequential` and `execute_parallel_optimized` directly, on
descriptors of their own. The former looks at the profile and at the algorithms, the latter at
the algorithms only, although it means to leave all profiles that are not hybrid to the former.

So they agree, in what they return and in the operations they make, but for a pure profile with
both algorithms whose own operation succeeds (`forced_modes_agree_iff`).
-/

namespace HybridPqc

open Handoff

/-! ## Operations -/

/-- An operation of a suite. -/
inductive Operation
  | ecdh
  | kem (name : Option CString)
  deriving DecidableEq

namespace Operation

/-- The operation that begins with a call. -/
def begins : Prim → Option Operation
  | .evpPkeyCtxNew (.keygen .our) => some .ecdh
  | .oqsKemNew name => some (.kem name)
  | _ => none

/-- The operation that begins with a call of a thread of the engine: the worker makes that of
    a job. -/
def poolBegins : PoolOp KemJob Prim → Option Operation
  | .dispatch job => some (.kem job.pqcName)
  | .sys q => begins q
  | _ => none

end Operation

/-- A call belongs to an operation that has begun. -/
def Operation.Begun (q : Prim) : Prop := begins q = none

open Operation

/-- The operations made in the run of a program, in turn. -/
def operations {α : Type} (env : PrimEnv) (p : Sys α) : List Operation :=
  (p.exec env).trace.filterMap fun ev => begins ev.1

/-- The operations made in the run of a task of the engine. -/
def poolOperations {α : Type} (r : TaskRun KemJob KemResult Prim Prim.Res PrimEnv α) :
    List Operation :=
  r.trace.filterMap fun ev => poolBegins ev.1

section Operations

variable {env : PrimEnv} {α β : Type}

@[simp] theorem operations_ret (a : α) : operations env (.ret a : Sys α) = [] := rfl

@[simp] theorem operations_bind (p : Sys α) (f : α → Sys β) :
    operations env (p >>= f) = operations env p ++ operations env (f (p.eval env)) := by
  simp [operations, Prog.exec, Prog.eval, List.filterMap_append]

@[simp] theorem operations_ite {c : Prop} [Decidable c] (p q : Sys α) :
    operations env (if c then p else q) = if c then operations env p else operations env q :=
  apply_ite (operations env) c p q

/-- A program with no call that begins an operation makes none. -/
theorem operations_eq_nil {p : Sys α} (h : p.All Begun) :
    operations env p = [] :=
  List.filterMap_eq_nil_iff.2 (Prog.all_run h _ _)

/-- A program that begins an operation, and no other one. -/
theorem operations_call {q : Prim} {k : q.Res → Sys α} {o : Operation} (hq : begins q = some o)
    (hk : ∀ r, (k r).All Begun) : operations env (.call q k) = [o] := by
  rw [operations, Prog.exec, Prog.run_call, List.filterMap_cons, hq]
  exact congrArg (o :: ·) (operations_eq_nil (hk _))

attribute [local simp] begins Begun

theorem begun_cryptoGenerateKeypair {curveId : Int} :
    (cryptoGenerateKeypair .peer curveId).All Begun := by
  simp [cryptoGenerateKeypair]

theorem begun_cryptoDeriveEcdhSecret {privKey peerPub : EvpPkey} {n : ℕ} {secret : Bytes n}
    {secretLen : ℕ} :
    (cryptoDeriveEcdhSecret privKey peerPub secret secretLen).All Begun := by
  simp [cryptoDeriveEcdhSecret]

theorem begun_freeIf {allocated : Bool} {buf : Buf} : (freeIf allocated buf).All Begun := by
  simp [freeIf]

theorem begun_kemAgree {kem : OqsKem} {role : HandshakeRole} :
    (kemAgree kem role).All Begun := by
  simp only [kemAgree, Prog.op_eq, Prog.call_bind, Prog.ret_bind, Prog.all_call]
  refine ⟨by simp, ?_⟩
  rintro (_ | ⟨pk, sk⟩)
  · trivial
  · cases role <;> simp

/-- `perform_ecdh` begins with its own key. -/
theorem operations_performEcdh {curveId : Int} {secret : Bytes 48} {secretLen : ℕ} :
    operations env (performEcdh curveId secret secretLen) = [.ecdh] := by
  have hour : operations env (cryptoGenerateKeypair .our curveId) = [.ecdh] := by
    simp only [cryptoGenerateKeypair, Prog.op_eq, Prog.call_bind, Prog.ret_bind]
    refine operations_call rfl fun r => ?_
    cases r <;> simp
  rw [performEcdh, operations_bind, hour]
  refine congrArg (Operation.ecdh :: ·)
    (operations_eq_nil (begun_cryptoGenerateKeypair.bind fun peerKey => ?_))
  rcases (cryptoGenerateKeypair .our curveId).eval env with _ | ourKey <;>
    rcases peerKey with _ | peerKey
  · trivial
  · simp
  · simp
  · exact begun_cryptoDeriveEcdhSecret.bind fun z => by simp

/-- The KEM operation begins with the KEM of the name. -/
theorem operations_kemSecret {name : Option CString} {role : HandshakeRole} :
    operations env (kemSecret name role) = [.kem name] := by
  simp only [kemSecret, Prog.op_eq, Prog.call_bind, Prog.ret_bind]
  refine operations_call rfl ?_
  rintro (_ | kem)
  · trivial
  · simp only [Prog.all_call]
    refine ⟨by simp, fun pk => ⟨by simp, fun sk => ⟨by simp, fun ct => ⟨by simp, fun ss => ?_⟩⟩⟩⟩
    refine Prog.All.bind ?_ fun secret => .bind begun_freeIf fun _ => .bind begun_freeIf fun _ =>
      .bind begun_freeIf fun _ => .bind begun_freeIf fun _ => by simp
    split
    · exact begun_kemAgree
    · trivial

end Operations

/-! ## Sequential execution -/

/-- The operations succeed. -/
def EcdhSucceeds (env : PrimEnv) (combo : AlgoCombo) : Prop :=
  ((performEcdh combo.classicalCurve (.zero 48) 0).eval env).rc = 0

def KemSucceeds (env : PrimEnv) (combo : AlgoCombo) (role : HandshakeRole) : Prop :=
  ((kemSecret combo.pqcName role).eval env).isSome

section Sequential

variable {env : PrimEnv} {combo : AlgoCombo} {role : HandshakeRole} {result : SharedCryptoResult}

theorem ecdhOk_iff : ((SharedCryptoResult.zero.ecdh combo).eval env).ecdhOk = true ↔
    EcdhSucceeds env combo := by
  simp [EcdhSucceeds, SharedCryptoResult.zero]

theorem operations_ecdh : operations env (result.ecdh combo) = [.ecdh] := by
  rw [SharedCryptoResult.ecdh, operations_bind, operations_performEcdh]
  rfl

theorem operations_kem : operations env (result.kem combo role) = [.kem combo.pqcName] := by
  rw [SharedCryptoResult.kem, operations_bind, performKemLocal, operations_bind,
    operations_kemSecret]
  cases (kemSecret combo.pqcName role).eval env <;> rfl

/-- The operations that `execute_sequential` makes, if they succeed: those of the profile. -/
theorem operations_executeSequential (hecdh : EcdhSucceeds env combo) :
    operations env (executeSequential combo role) =
      if combo.profile = profilePureClassical ∨ combo.pqcAlg = pqcNone then [.ecdh]
      else if combo.profile = profilePureQuantum ∨ combo.classicalCurve = curveNone then
        [.kem combo.pqcName]
      else [.ecdh, .kem combo.pqcName] := by
  have hok := ecdhOk_iff.2 hecdh
  simp only [executeSequential, operations_ite, operations_bind, operations_ecdh, operations_kem,
    hok, Prog.pure_eq, operations_ret]
  rfl

end Sequential

/-! ## Parallel execution -/

/-- Where `execute_parallel_optimized` has the KEM operation made. -/
def forcedKemEnv (combo : AlgoCombo) (env worker : PrimEnv) : PrimEnv :=
  if combo.pqcAlg = pqcNone ∨ combo.classicalCurve = curveNone then env else worker

@[simp] theorem forcedKemEnv_self {combo : AlgoCombo} {env : PrimEnv} :
    forcedKemEnv combo env env = env :=
  ite_self env

/-- A run in parallel agrees with an execution in sequence: it makes the same operations, if all
    of them succeed, and returns the same. -/
structure ModesAgree (env : PrimEnv) (combo : AlgoCombo) (role : HandshakeRole)
    (r : TaskRun KemJob KemResult Prim Prim.Res PrimEnv (Int × SharedCryptoResult)) : Prop where
  operations_iff : EcdhSucceeds env combo → KemSucceeds env combo role →
    ∀ o, o ∈ poolOperations r ↔ o ∈ operations env (executeSequential combo role)
  result : SameResult r.val ((executeSequential combo role).eval env)

/-- A pure profile with both algorithms, whose own operation succeeds. -/
def Overlooked (env : PrimEnv) (combo : AlgoCombo) (role : HandshakeRole) : Prop :=
  combo.pqcAlg ≠ pqcNone ∧ combo.classicalCurve ≠ curveNone ∧
    (combo.profile = profilePureClassical ∧ EcdhSucceeds env combo ∨
      combo.profile = profilePureQuantum ∧ KemSucceeds env combo role)

section Parallel

variable {oracle : ℕ → PrimEnv} {a : Alone PrimEnv KemJob} {env : PrimEnv} {combo : AlgoCombo}
  {role : HandshakeRole} {result : SharedCryptoResult}

/-- What a thread gets of a call in parallel, and the calls it makes. -/
def parallelRun (oracle : ℕ → PrimEnv) (a : Alone PrimEnv KemJob) (combo : AlgoCombo)
    (role : HandshakeRole) (result : SharedCryptoResult) :
    TaskRun KemJob KemResult Prim Prim.Res PrimEnv (Int × SharedCryptoResult) :=
  let r := (executeParallelOptimized combo role result).run (engineAlone oracle) a
  ⟨r.val, r.world.world, r.trace⟩

/-- The operations of a program that does not use the pool. -/
theorem filterMap_ofSys (t : List (Prog.Event Prim Prim.Res)) :
    (t.map PoolProg.ofSys : List (Prog.Event _ (PoolOp.Res KemJob KemResult Prim.Res))).filterMap
        (fun ev => poolBegins ev.1) = t.filterMap fun ev => begins ev.1 := by
  rw [List.filterMap_map]
  rfl

/-- Without one of the algorithms, the execution is that in sequence. -/
theorem parallelRun_fallback (hready : a.ready = true)
    (hguard : combo.pqcAlg = pqcNone ∨ combo.classicalCurve = curveNone) :
    (parallelRun oracle a combo role result).val = (executeSequential combo role).eval a.world ∧
      poolOperations (parallelRun oracle a combo role result) =
        operations a.world (executeSequential combo role) := by
  simp only [parallelRun, executeParallelOptimized, if_pos hguard, Prog.op_eq, Prog.call_bind,
    Prog.ret_bind, Prog.run_call, Alone.handler, hready, Bool.not_true, Bool.false_eq_true, if_false,
    run_lift, Prog.run_envHandler, poolOperations, true_and]
  exact filterMap_ofSys _

/-- With both, the KEM operation is made by the worker, and the classical one here. -/
theorem poolOperations_parallelRun (hready : a.ready = true) (hpqc : combo.pqcAlg ≠ pqcNone)
    (hcurve : combo.classicalCurve ≠ curveNone) :
    poolOperations (parallelRun oracle a combo role result) = [.kem combo.pqcName, .ecdh] := by
  have hguard : ¬(combo.pqcAlg = pqcNone ∨ combo.classicalCurve = curveNone) :=
    fun h => h.elim hpqc hcurve
  simp only [parallelRun, executeParallelOptimized, if_neg hguard, Prog.op_eq, Prog.call_bind,
    Prog.ret_bind, Prog.pure_eq, Prog.run_call, Alone.handler, hready, Bool.not_true,
    Bool.false_eq_true, if_false, Prog.run_bind, run_lift, Prog.run_envHandler, Prog.run_ret,
    poolOperations, List.filterMap_cons, List.filterMap_append, filterMap_ofSys, List.filterMap_nil]
  exact congrArg (fun os => Operation.kem combo.pqcName :: (os ++ []))
    (@operations_ecdh a.world combo .zero)

/-- Both operations against the classical one: the same only if that fails, as the KEM operation
    has no result there. -/
theorem sameResult_classical {z : SharedCryptoResult} {ss : Option (List UInt8)}
    (hz : z.kemOk = false) :
    SameResult (if (z.setKem ss).ecdhOk && (z.setKem ss).kemOk then 0 else -1, z.setKem ss)
      (if z.ecdhOk then 0 else -1, z) ↔ z.ecdhOk = false := by
  cases hok : z.ecdhOk with
  | false => cases ss <;> simp [SameResult, SharedCryptoResult.setKem, hok]
  | true =>
    cases ss with
    | none => simp [SameResult, SharedCryptoResult.setKem]
    | some ss =>
      refine iff_of_false (fun h => ?_) Bool.true_eq_false.mp
      have heq : z.setKem (some ss) = z := h.2 (by simp [SharedCryptoResult.setKem, hok])
      have hkem := congrArg SharedCryptoResult.kemOk heq
      rw [hz] at hkem
      cases hkem

/-- Both operations against the KEM operation: the same only if that fails, as the classical one
    has no result there. -/
theorem sameResult_quantum {z : SharedCryptoResult} {ss : Option (List UInt8)} :
    SameResult (if (z.setKem ss).ecdhOk && (z.setKem ss).kemOk then 0 else -1, z.setKem ss)
      (if (SharedCryptoResult.zero.setKem ss).kemOk then 0 else -1,
        SharedCryptoResult.zero.setKem ss) ↔ ss = none := by
  cases ss with
  | none => simp [SameResult, SharedCryptoResult.setKem]
  | some ss =>
    refine iff_of_false (fun h => ?_) (Option.some_ne_none ss)
    cases hok : z.ecdhOk with
    | false => simp [SameResult, SharedCryptoResult.setKem, hok] at h
    | true =>
      have heq : z.setKem (some ss) = SharedCryptoResult.zero.setKem (some ss) :=
        h.2 (by simp [SharedCryptoResult.setKem, hok])
      have hecdh : z.ecdhOk = false := congrArg SharedCryptoResult.ecdhOk heq
      rw [hok] at hecdh
      cases hecdh

/-- With both algorithms, the execution in parallel returns what that in sequence does, but for a
    pure profile whose own operation succeeds. -/
theorem sameResult_parallelRun_iff (hready : a.ready = true) (hpqc : combo.pqcAlg ≠ pqcNone)
    (hcurve : combo.classicalCurve ≠ curveNone)
    (hecdh : (performEcdh combo.classicalCurve (.zero 48) 0).eval a.world =
      (performEcdh combo.classicalCurve (.zero 48) 0).eval env)
    (hkem : (kemSecret combo.pqcName role).eval (oracle a.posted) =
      (kemSecret combo.pqcName role).eval env) :
    SameResult (parallelRun oracle a combo role result).val
        ((executeSequential combo role).eval env) ↔ ¬Overlooked env combo role := by
  by_cases hclassical : combo.profile = profilePureClassical ∨ combo.pqcAlg = pqcNone
  · have hprofile := hclassical.resolve_right hpqc
    have hne : ¬profilePureClassical = profilePureQuantum := by decide
    rw [parallelRun, run_executeParallelOptimized_hybrid hready hpqc hcurve,
      SharedCryptoResult.eval_ecdh_congr hecdh, hkem, eval_executeSequential_classical hclassical]
    refine (sameResult_classical (by simp [SharedCryptoResult.zero])).trans ?_
    simp [Overlooked, hprofile, hne, hpqc, hcurve, ← ecdhOk_iff]
  · by_cases hquantum : combo.profile = profilePureQuantum ∨ combo.classicalCurve = curveNone
    · have hprofile := hquantum.resolve_right hcurve
      have hne : ¬profilePureQuantum = profilePureClassical := by decide
      rw [parallelRun, run_executeParallelOptimized_hybrid hready hpqc hcurve, hkem,
        eval_executeSequential_quantum hclassical hquantum]
      refine sameResult_quantum.trans ?_
      simp [Overlooked, hprofile, hne, hpqc, hcurve, KemSucceeds]
    · refine iff_of_true (run_executeParallelOptimized hready hclassical hquantum hecdh hkem) ?_
      rintro ⟨-, -, ⟨hprofile, -⟩ | ⟨hprofile, -⟩⟩
      · exact hclassical (.inl hprofile)
      · exact hquantum (.inl hprofile)

/-- The modes agree, unless the pure profile is overlooked. -/
theorem modesAgree_parallelRun_iff (hready : a.ready = true)
    (hecdh : (performEcdh combo.classicalCurve (.zero 48) 0).eval a.world =
      (performEcdh combo.classicalCurve (.zero 48) 0).eval env)
    (hkem : (kemSecret combo.pqcName role).eval
        (forcedKemEnv combo a.world (oracle a.posted)) =
      (kemSecret combo.pqcName role).eval env) :
    ModesAgree env combo role (parallelRun oracle a combo role result) ↔
      ¬Overlooked env combo role := by
  by_cases hguard : combo.pqcAlg = pqcNone ∨ combo.classicalCurve = curveNone
  · rw [forcedKemEnv, if_pos hguard] at hkem
    obtain ⟨hval, hops⟩ := @parallelRun_fallback oracle a combo role result hready hguard
    refine iff_of_true ⟨fun hecdh' _ o => ?_, ?_⟩ fun h => hguard.elim h.1 h.2.1
    · have hworld : EcdhSucceeds a.world combo := by rwa [EcdhSucceeds, hecdh]
      rw [hops, operations_executeSequential hworld, operations_executeSequential hecdh']
    · rw [hval, eval_executeSequential_congr hecdh hkem]
      exact ⟨rfl, fun _ => rfl⟩
  · rw [forcedKemEnv, if_neg hguard] at hkem
    obtain ⟨hpqc, hcurve⟩ := not_or.1 hguard
    have hops := @poolOperations_parallelRun oracle a combo role result hready hpqc hcurve
    have hsame := @sameResult_parallelRun_iff oracle a env combo role result hready hpqc hcurve
      hecdh hkem
    refine ⟨fun h => hsame.1 h.result, fun h => ⟨fun hecdh' hkem' o => ?_, hsame.2 h⟩⟩
    have hclassical : ¬(combo.profile = profilePureClassical ∨ combo.pqcAlg = pqcNone) :=
      fun hor => hor.elim (fun hp => h ⟨hpqc, hcurve, .inl ⟨hp, hecdh'⟩⟩) hpqc
    have hquantum : ¬(combo.profile = profilePureQuantum ∨ combo.classicalCurve = curveNone) :=
      fun hor => hor.elim (fun hp => h ⟨hpqc, hcurve, .inr ⟨hp, hkem'⟩⟩) hcurve
    rw [hops, operations_executeSequential hecdh', if_neg hclassical, if_neg hquantum]
    simp [or_comm]

end Parallel

/-! ## Agreement -/

/-- A thread can call `execute_parallel_optimized` right after `engine_init`, and gets what it gets
    alone. -/
theorem exists_parallelRun (combo : AlgoCombo) (role : HandshakeRole) :
    ∃ t t' : EngineThread, EngineReachable (fun _ => .sample)
        [⟨.sample, .init, .zero⟩, ⟨.sample, .parallel combo role, .zero⟩] t ∧
      t.current = none ∧ t.todo = [EngineTask.task ⟨.sample, .parallel combo role, .zero⟩] ∧
      t.pool.ready = true ∧ EngineSteps (fun _ => .sample) t t' ∧ t'.current = none ∧
      t'.todo = [] ∧ t'.done = t.done ++
        [parallelRun (fun _ => .sample) ⟨.sample, true, t.pool.posted.length, none⟩ combo role
          .zero] := by
  obtain ⟨t, ht, hcurrent, htodo, hinit⟩ := reachable_init
    [(⟨.sample, .parallel combo role, .zero⟩ : EngineTask)]
  obtain ⟨s, ds, (hsteps : EngineSteps (fun _ => .sample) t _)⟩ :=
    ht.can_finish (safeAll_calls _ _ _)
  refine ⟨t, _, ht, hcurrent, htodo, hinit, hsteps, rfl, rfl, ?_⟩
  rw [ht.done_eq_append hsteps hcurrent rfl rfl, htodo, hinit]
  rfl

/-- A pure classical descriptor with a KEM. -/
def x25519WithKem : AlgoCombo :=
  { x25519Mlkem768 with profile := profilePureClassical }

/-- In parallel, the KEM operation of the pure classical descriptor is made, and its result is
    returned. -/
theorem forced_modes_disagree :
    ∃ t t' : EngineThread, EngineReachable (fun _ => .sample)
        [⟨.sample, .init, .zero⟩, ⟨.sample, .parallel x25519WithKem .server, .zero⟩] t ∧
      t.current = none ∧
      t.todo = [EngineTask.task ⟨.sample, .parallel x25519WithKem .server, .zero⟩] ∧
      t.pool.ready = true ∧ EngineSteps (fun _ => .sample) t t' ∧ t'.current = none ∧
      t'.todo = [] ∧ ∃ r, t'.done = t.done ++ [r] ∧
        ¬ModesAgree PrimEnv.sample x25519WithKem .server r := by
  obtain ⟨t, t', ht, hcurrent, htodo, hinit, hsteps, hcurrent', htodo', hdone⟩ :=
    exists_parallelRun x25519WithKem .server
  have hoverlooked : Overlooked .sample x25519WithKem .server := by
    refine ⟨by decide, by decide, .inl ⟨rfl, ?_⟩⟩
    rw [EcdhSucceeds]
    decide
  refine ⟨t, t', ht, hcurrent, htodo, hinit, hsteps, hcurrent', htodo', _, hdone, fun hagree => ?_⟩
  have hiff := @modesAgree_parallelRun_iff (fun _ => .sample)
    ⟨.sample, true, t.pool.posted.length, none⟩ .sample x25519WithKem .server .zero rfl rfl
    (by rw [forcedKemEnv_self])
  exact hiff.1 hagree hoverlooked

/-- **Forced modes.** After any history of calls of the engine that leaves it initialised, a call
    of `execute_parallel_optimized` returns, on every descriptor, however it interleaves with the
    worker. It agrees with `execute_sequential` on the same outcomes of the operations exactly if
    the descriptor is not a pure one with both algorithms whose own operation succeeds. -/
theorem forced_modes_agree_iff (oracle : ℕ → PrimEnv) (history : List EngineTask)
    (combo : AlgoCombo) (role : HandshakeRole) (result : SharedCryptoResult) (env seqEnv : PrimEnv)
    (t t' : EngineThread)
    (ht : EngineReachable oracle
      (history ++ [(⟨env, .parallel combo role, result⟩ : EngineTask)]) t)
    (hcurrent : t.current = none)
    (htodo : t.todo = [EngineTask.task ⟨env, .parallel combo role, result⟩])
    (hinit : t.pool.ready = true)
    (hecdh : (performEcdh combo.classicalCurve (.zero 48) 0).eval env =
      (performEcdh combo.classicalCurve (.zero 48) 0).eval seqEnv)
    (hkem : (kemSecret combo.pqcName role).eval
        (forcedKemEnv combo env (oracle t.pool.posted.length)) =
      (kemSecret combo.pqcName role).eval seqEnv)
    (hsteps : EngineSteps oracle t t') :
    (∃ s ds, EngineSteps oracle t' ⟨s, none, [], ds⟩) ∧
      (t'.current = none → t'.todo = [] → ∃ r, t'.done = t.done ++ [r] ∧
        (ModesAgree seqEnv combo role r ↔ ¬Overlooked seqEnv combo role)) := by
  refine ⟨(ht.steps hsteps).can_finish (safeAll_calls _ _ _), fun hcurrent' htodo' => ?_⟩
  rw [ht.done_eq_append hsteps hcurrent hcurrent' htodo', htodo, hinit]
  exact ⟨_, rfl, @modesAgree_parallelRun_iff _ _ _ _ _ result rfl hecdh hkem⟩

/-- A hybrid descriptor, right after `engine_init`. -/
theorem forced_modes_agree_hybrid :
    ∃ t t' : EngineThread, EngineSteps (fun _ => .sample) t t' ∧ t.todo.length = 1 ∧
      t'.todo = [] ∧ ∃ r, t'.done = t.done ++ [r] ∧
        ModesAgree PrimEnv.sample x25519Mlkem768 .server r := by
  obtain ⟨t, t', ht, hcurrent, htodo, hinit, hsteps, hcurrent', htodo', -⟩ :=
    exists_parallelRun x25519Mlkem768 .server
  obtain ⟨-, hdone⟩ := forced_modes_agree_iff (fun _ => .sample)
    [(⟨.sample, .init, .zero⟩ : EngineTask)] x25519Mlkem768 .server .zero .sample .sample t t' ht
    hcurrent htodo hinit rfl (by rw [forcedKemEnv_self]) hsteps
  obtain ⟨r, hr, hiff⟩ := hdone hcurrent' htodo'
  refine ⟨t, t', hsteps, by rw [htodo]; rfl, htodo', r, hr, hiff.2 ?_⟩
  rintro ⟨-, -, ⟨hprofile, -⟩ | ⟨hprofile, -⟩⟩
  · exact absurd hprofile (by decide)
  · exact absurd hprofile (by decide)

end HybridPqc
