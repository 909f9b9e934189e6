import HybridPqc.Lib.Handoff.Thread

/-!
# Doing jobs inline

A task using a pool, as a program that does not: a job is done by a given program
where its result is awaited (`PoolProg.inline`). It runs as the task does alone,
if the program makes of every job what the pool makes of it (`run_inline`).
-/

namespace Handoff

variable {Job Slot Desc Out O P W α β : Type} {R : P → Type} [Inhabited Out]

namespace PoolProg

/-- The task with its jobs done inline, when the pool is `ready` or not, and a job may
    have been dispatched: what it returns, and where it leaves the pool. -/
def inline (body : Job → Prog P R Out) :
    PoolProg Job Out P R α → Bool → Option Job → Prog P R (α × Bool × Option Job)
  | .ret a, ready, pending => .ret (a, ready, pending)
  | .call .ready k, ready, pending => inline body (k ready) ready pending
  | .call (.start created) k, _, pending => inline body (k ()) created pending
  | .call .stop k, _, pending => inline body (k ()) false pending
  | .call (.dispatch j) k, ready, _ => inline body (k ()) ready (some j)
  | .call .await k, ready, some j => body j >>= fun out => inline body (k out) ready none
  | .call .await k, ready, none => inline body (k default) ready none
  | .call (.sys p) k, ready, pending => .call p fun r => inline body (k r) ready pending

section

variable (body : Job → Prog P R Out) (ready : Bool) (pending : Option Job)

@[simp] theorem inline_ret (a : α) :
    inline body (.ret a : PoolProg Job Out P R α) ready pending = .ret (a, ready, pending) := rfl

@[simp] theorem inline_ready (k : Bool → PoolProg Job Out P R α) :
    inline body (.call .ready k : PoolProg Job Out P R α) ready pending =
      inline body (k ready) ready pending := rfl

@[simp] theorem inline_start (created : Bool) (k : Unit → PoolProg Job Out P R α) :
    inline body (.call (.start created) k : PoolProg Job Out P R α) ready pending =
      inline body (k ()) created pending := rfl

@[simp] theorem inline_stop (k : Unit → PoolProg Job Out P R α) :
    inline body (.call .stop k : PoolProg Job Out P R α) ready pending =
      inline body (k ()) false pending := rfl

@[simp] theorem inline_dispatch (j : Job) (k : Unit → PoolProg Job Out P R α) :
    inline body (.call (.dispatch j) k : PoolProg Job Out P R α) ready pending =
      inline body (k ()) ready (some j) := rfl

@[simp] theorem inline_await (j : Job) (k : Out → PoolProg Job Out P R α) :
    inline body (.call .await k : PoolProg Job Out P R α) ready (some j) =
      body j >>= fun out => inline body (k out) ready none := rfl

@[simp] theorem inline_sys (p : P) (k : R p → PoolProg Job Out P R α) :
    inline body (.call (.sys p) k : PoolProg Job Out P R α) ready pending =
      .call p fun r => inline body (k r) ready pending := rfl

@[simp] theorem inline_bind (p : PoolProg Job Out P R α) (f : α → PoolProg Job Out P R β) :
    inline body (p >>= f) ready pending =
      inline body p ready pending >>= fun a => inline body (f a.1) a.2.1 a.2.2 := by
  induction p generalizing ready pending with
  | ret a => rfl
  | call o k ih =>
    cases o with
    | await =>
      cases pending with
      | none => exact ih ..
      | some j =>
        rw [Prog.call_bind, inline_await, inline_await, Prog.bind_assoc]
        exact congrArg (body j >>= ·) (funext fun out => ih ..)
    | sys p => exact congrArg (Prog.call p) (funext fun r => ih ..)
    | _ => exact ih ..

@[simp] theorem inline_ite {c : Prop} [Decidable c] (p q : PoolProg Job Out P R α) :
    inline body (if c then p else q) ready pending =
      if c then inline body p ready pending else inline body q ready pending := by
  split <;> rfl

/-- A program that does not use the pool is left as it is. -/
@[simp] theorem inline_lift (p : Prog P R α) :
    inline body (lift p : PoolProg Job Out P R α) ready pending =
      p >>= fun a => .ret (a, ready, pending) := by
  induction p with
  | ret a => rfl
  | call o k ih => exact congrArg (Prog.call o) (funext fun r => ih ..)

end

end PoolProg

/-- The program makes of a job that is awaited what the pool makes of it. -/
def Inlines (h : Prog.Handler P R W) (pool : Pool Job Slot Desc Out O) (oracle : ℕ → O)
    (body : Job → Prog P R Out) (a : Alone W Job) : PoolOp Job P → Prop
  | .await => ∀ t j, a.pending = some (t, j) →
      ((body j).run h a.world).val = pool.result (oracle t) j ∧
        ((body j).run h a.world).world = a.world
  | _ => True

/-- A task alone runs as it does with its jobs done inline. -/
theorem run_inline {h : Prog.Handler P R W} {pool : Pool Job Slot Desc Out O} {oracle : ℕ → O}
    {body : Job → Prog P R Out} {p : PoolProg Job Out P R α} {a : Alone W Job}
    (hp : p.Along (Alone.handler h pool oracle) (Inlines h pool oracle body) (fun _ _ => True) a) :
    ((PoolProg.inline body p a.ready (a.pending.map Prod.snd)).run h a.world).val =
        ((p.run (Alone.handler h pool oracle) a).val,
          (p.run (Alone.handler h pool oracle) a).world.ready,
          (p.run (Alone.handler h pool oracle) a).world.pending.map Prod.snd) ∧
      ((PoolProg.inline body p a.ready (a.pending.map Prod.snd)).run h a.world).world =
        (p.run (Alone.handler h pool oracle) a).world.world := by
  induction p generalizing a with
  | ret v => exact ⟨rfl, rfl⟩
  | call o k ih =>
    obtain ⟨ho, hp⟩ := hp
    cases o with
    | await =>
      cases hpend : a.pending with
      | none =>
        have := ih _ hp
        simp only [Alone.handler, hpend] at this
        simpa [PoolProg.inline, Alone.handler, hpend] using this
      | some tj =>
        obtain ⟨hval, hworld⟩ := ho tj.1 tj.2 hpend
        have := ih _ hp
        simp only [Alone.handler, hpend] at this
        simpa [Alone.handler, hpend, hval, hworld] using this
    | _ => exact ih _ hp

end Handoff
