import HybridPqc.Lib.Handoff.Progress

/-!
# A thread that uses a pool

A thread runs tasks, one after the other. A task is a program that, besides
other calls, starts and stops the pool, dispatches a job and awaits its result
(`PoolOp`). Each of these calls takes the steps of a caller of the pool, in any
interleaving with those of the worker (`ThreadStep`).

The thread does not notice that there is a worker: it gets what it would get if
every job were done when its result is awaited (`Alone.handler`). This is
`ThreadReachable.done_eq`: the runs of the tasks are those of the tasks alone.

A task is *safe* if it only dispatches to a pool that is started, awaits what it
has dispatched, and so on (`Guard`). A thread of safe tasks can always get to
the end of them (`ThreadReachable.can_finish`). Some calls of a task may have to
be *exclusive*, i.e., not made while a job is dispatched: the worker is at rest
then (`ThreadReachable.at_rest`).
-/

namespace Handoff

variable {Job Slot Desc Out O P W α : Type} {R : P → Type}

/-- The calls of a thread using a pool. -/
inductive PoolOp (Job P : Type)
  /-- Has the pool been started? -/
  | ready
  /-- Start the pool, its worker being created or not. -/
  | start (created : Bool)
  | stop
  | dispatch (j : Job)
  | await
  /-- Any other call. -/
  | sys (p : P)

/-- The answers to the calls. -/
@[reducible] def PoolOp.Res (Job Out : Type) (R : P → Type) : PoolOp Job P → Type
  | ready => Bool
  | start _ | stop | dispatch _ => Unit
  | await => Out
  | sys p => R p

/-- A program using a pool. -/
abbrev PoolProg (Job Out P : Type) (R : P → Type) (α : Type) :=
  Prog (PoolOp Job P) (PoolOp.Res Job Out R) α

namespace PoolProg

variable {β : Type}

abbrev ready : PoolProg Job Out P R Bool := Prog.op PoolOp.ready

abbrev start (created : Bool) : PoolProg Job Out P R Unit := Prog.op (PoolOp.start created)

abbrev stop : PoolProg Job Out P R Unit := Prog.op PoolOp.stop

abbrev dispatch (j : Job) : PoolProg Job Out P R Unit := Prog.op (PoolOp.dispatch j)

abbrev await : PoolProg Job Out P R Out := Prog.op PoolOp.await

/-- A program that does not use the pool, as a task. -/
def lift (p : Prog P R α) : PoolProg Job Out P R α := p.subst fun o => .op (.sys o)

instance : MonadLift (Prog P R) (Prog (PoolOp Job P) (PoolOp.Res Job Out R)) := ⟨lift⟩

@[simp] theorem monadLift_eq (p : Prog P R α) :
    (monadLift p : Prog (PoolOp Job P) (PoolOp.Res Job Out R) α) = lift p := rfl

@[simp] theorem lift_ret (a : α) : (lift (.ret a) : PoolProg Job Out P R α) = .ret a := rfl

@[simp] theorem lift_call (o : P) (k : R o → Prog P R α) :
    (lift (.call o k) : PoolProg Job Out P R α) = .call (.sys o) fun r => lift (k r) := rfl

@[simp] theorem lift_bind (p : Prog P R α) (f : α → Prog P R β) :
    (lift (p >>= f) : PoolProg Job Out P R β) = lift p >>= fun a => lift (f a) :=
  Prog.subst_bind _ p f

/-- An event of a program that does not use the pool, as one of a task. -/
def ofSys (ev : Prog.Event P R) : Prog.Event (PoolOp Job P) (PoolOp.Res Job Out R) :=
  ⟨.sys ev.1, ev.2⟩

end PoolProg

/-! ## Tasks alone -/

/-- The world of a task alone: whether the pool is started, how many jobs have
    been dispatched, and the one that is to be awaited, if any. -/
structure Alone (W Job : Type) where
  world : W
  ready : Bool
  posted : ℕ
  pending : Option (ℕ × Job)

section Alone

variable [Inhabited Out] (h : Prog.Handler P R W) (pool : Pool Job Slot Desc Out O)
  (oracle : ℕ → O)

/-- The answers to a task alone: a job is done when its result is awaited. -/
def Alone.handler : Prog.Handler (PoolOp Job P) (PoolOp.Res Job Out R) (Alone W Job)
  | .ready, a => (a.ready, a)
  | .start created, a => ((), { a with ready := created })
  | .stop, a => ((), { a with ready := false })
  | .dispatch j, a => ((), { a with posted := a.posted + 1, pending := some (a.posted, j) })
  | .await, a =>
    (match a.pending with
      | some (t, j) => pool.result (oracle t) j
      | none => default, { a with pending := none })
  | .sys p, a => ((h p a.world).1, { a with world := (h p a.world).2 })

/-- A run of a task. -/
abbrev TaskRun (Job Out P : Type) (R : P → Type) (W α : Type) :=
  Prog.Run (PoolOp Job P) (PoolOp.Res Job Out R) W α

/-- The runs of tasks alone, each from its world, when the pool is `ready` or not
    and `posted` jobs have been dispatched. -/
def runAlone : List (W × PoolProg Job Out P R α) → Bool → ℕ → List (TaskRun Job Out P R W α)
  | [], _, _ => []
  | (w, p) :: tasks, ready, posted =>
    let r := p.run (Alone.handler h pool oracle) ⟨w, ready, posted, none⟩
    ⟨r.val, r.world.world, r.trace⟩ :: runAlone tasks r.world.ready r.world.posted

/-- What a call of a task requires. The calls `excl` are exclusive. -/
def Guard (excl : P → Prop) (a : Alone W Job) : PoolOp Job P → Prop
  | .ready => True
  | .start _ => a.ready = false ∧ a.pending = none
  | .stop | .dispatch _ => a.ready = true ∧ a.pending = none
  | .await => a.ready = true ∧ a.pending ≠ none
  | .sys p => excl p → a.pending = none

/-- A task that meets the requirements, and ends with nothing to await. -/
def Safe (excl : P → Prop) (p : PoolProg Job Out P R α) (a : Alone W Job) : Prop :=
  p.Along (Alone.handler h pool oracle) (Guard excl) (fun _ a' => a'.pending = none) a

/-- A program that does not use the pool runs as it does by itself. -/
@[simp] theorem run_lift (p : Prog P R α) (a : Alone W Job) :
    (PoolProg.lift p : PoolProg Job Out P R α).run (Alone.handler h pool oracle) a =
      ⟨(p.run h a.world).val, { a with world := (p.run h a.world).world },
        (p.run h a.world).trace.map PoolProg.ofSys⟩ := by
  induction p generalizing a with
  | ret v => rfl
  | call o k ih =>
    rw [PoolProg.lift_call, Prog.run_call, ih]
    rfl

/-- A condition along a program that does not use the pool, if its calls meet it
    whatever the world. -/
theorem along_lift_iff {φ : Alone W Job → PoolOp Job P → Prop} {Q : α → Alone W Job → Prop}
    {p : Prog P R α} {a : Alone W Job}
    (hφ : p.All fun o => ∀ w, φ { a with world := w } (.sys o)) :
    (PoolProg.lift p : PoolProg Job Out P R α).Along (Alone.handler h pool oracle) φ Q a ↔
      Q (p.run h a.world).val { a with world := (p.run h a.world).world } := by
  induction p generalizing a with
  | ret v => rfl
  | call o k ih =>
    rw [PoolProg.lift_call, Prog.along_call, Prog.run_call]
    exact (and_iff_right (hφ.1 a.world)).trans (ih _ (hφ.2 _))

/-- A program that does not use the pool may run anywhere, but for exclusive calls. -/
theorem along_lift {excl : P → Prop} {Q : α → Alone W Job → Prop} {p : Prog P R α}
    {a : Alone W Job} (hx : a.pending = none ∨ p.All fun o => ¬excl o) :
    (PoolProg.lift p : PoolProg Job Out P R α).Along (Alone.handler h pool oracle) (Guard excl) Q a ↔
      Q (p.run h a.world).val { a with world := (p.run h a.world).world } := by
  refine along_lift_iff h pool oracle ?_
  obtain ha | hx := hx
  · exact Prog.all_of_forall (fun _ _ _ => ha) p
  · exact hx.mono fun o ho _ hexcl => absurd hexcl ho

/-- Tasks that are safe, one after the other. -/
def SafeAll (excl : P → Prop) : List (W × PoolProg Job Out P R α) → Bool → ℕ → Prop
  | [], _, _ => True
  | (w, p) :: tasks, ready, posted =>
    Safe h pool oracle excl p ⟨w, ready, posted, none⟩ ∧
      let r := p.run (Alone.handler h pool oracle) ⟨w, ready, posted, none⟩
      SafeAll excl tasks r.world.ready r.world.posted

end Alone

/-! ## The thread and the worker -/

/-- A task under way: what is left of its program, its world, and its trace. -/
structure Current (Job Out P : Type) (R : P → Type) (W α : Type) where
  prog : PoolProg Job Out P R α
  world : W
  trace : List (Prog.Event (PoolOp Job P) (PoolOp.Res Job Out R))

/-- A thread and the pool it uses. -/
structure Thread (Job Slot Desc Out P : Type) (R : P → Type) (W α : Type) where
  pool : State Unit Job Slot Desc Out
  current : Option (Current Job Out P R W α)
  todo : List (W × PoolProg Job Out P R α)
  done : List (TaskRun Job Out P R W α)

/-- Where the caller is in the course of a call. -/
def During (o : PoolOp Job P) : Caller Job → Prop
  | .postLock j | .post j | .flags _ j | .signal _ j | .postUnlock _ j => o = .dispatch j
  | .joinLock .. | .joinCheck .. | .joinWait .. | .joinWoken .. | .joinUnlock .. | .collect .. =>
      o = .await
  | .initMem | .initCreate => ∃ created, o = .start created
  | .initSet => o = .start true
  | .shutLock | .shutSet | .shutSignal | .shutUnlock | .shutJoin | .shutReset => o = .stop
  | .idle | .overlap .. => False

/-- The caller is not in the course of any call. -/
def Caller.outside : Caller Job → Bool
  | .idle | .overlap .. => true
  | _ => false

/-- The answer of a call that takes the steps of a caller, given the pool after it. -/
inductive Answer (s : State Unit Job Slot Desc Out) :
    (o : PoolOp Job P) → PoolOp.Res Job Out R o → Prop
  | start {created} : s.ready = created → Answer s (.start created) ()
  | stop : Answer s .stop ()
  | dispatch {j} : Answer s (.dispatch j) ()
  | await {r} : s.returned.getLast? = some r → Answer s .await r.out

section Steps

variable (h : Prog.Handler P R W) (pool : Pool Job Slot Desc Out O) (fetch : Fetch)
  (oracle : ℕ → O)

/-- A step of the thread or of the worker. -/
inductive ThreadStep : Thread Job Slot Desc Out P R W α → Thread Job Slot Desc Out P R W α → Prop
  | worker {s s'} {c : Option (Current Job Out P R W α)} {ts ds} :
      WorkerStep pool fetch oracle s s' → ThreadStep ⟨s, c, ts, ds⟩ ⟨s', c, ts, ds⟩
  | notify {s s'} {c : Option (Current Job Out P R W α)} {ts ds} :
      NotifyStep s s' → ThreadStep ⟨s, c, ts, ds⟩ ⟨s', c, ts, ds⟩
  /-- The next task begins. -/
  | begin {s w} {p : PoolProg Job Out P R α} {ts ds} :
      ThreadStep ⟨s, none, (w, p) :: ts, ds⟩ ⟨s, some ⟨p, w, []⟩, ts, ds⟩
  /-- The task ends. -/
  | finish {s a w tr} {ts : List (W × PoolProg Job Out P R α)} {ds} : s.caller () = .idle →
      ThreadStep ⟨s, some ⟨.ret a, w, tr⟩, ts, ds⟩ ⟨s, none, ts, ds ++ [⟨a, w, tr⟩]⟩
  | sys {s p} {k : R p → PoolProg Job Out P R α} {w tr ts ds} :
      ThreadStep ⟨s, some ⟨.call (.sys p) k, w, tr⟩, ts, ds⟩
        ⟨s, some ⟨k (h p w).1, (h p w).2, tr ++ [⟨.sys p, (h p w).1⟩]⟩, ts, ds⟩
  | ready {s} {k : Bool → PoolProg Job Out P R α} {w tr ts ds} :
      ThreadStep ⟨s, some ⟨.call .ready k, w, tr⟩, ts, ds⟩
        ⟨s, some ⟨k s.ready, w, tr ++ [⟨.ready, s.ready⟩]⟩, ts, ds⟩
  /-- A call takes a step. -/
  | go {s s' o} {k : PoolOp.Res Job Out R o → PoolProg Job Out P R α} {w tr ts ds} :
      CallerStep pool () s s' → During o (s'.caller ()) →
      ThreadStep ⟨s, some ⟨.call o k, w, tr⟩, ts, ds⟩ ⟨s', some ⟨.call o k, w, tr⟩, ts, ds⟩
  /-- A call takes its last step. -/
  | back {s s' o r} {k : PoolOp.Res Job Out R o → PoolProg Job Out P R α} {w tr ts ds} :
      During o (s.caller ()) → CallerStep pool () s s' → (s'.caller ()).outside = true →
      Answer s' o r →
      ThreadStep ⟨s, some ⟨.call o k, w, tr⟩, ts, ds⟩
        ⟨s', some ⟨k r, w, tr ++ [⟨o, r⟩]⟩, ts, ds⟩

/-- The states of a thread with the given tasks, and of its pool. -/
inductive ThreadReachable (tasks : List (W × PoolProg Job Out P R α)) :
    Thread Job Slot Desc Out P R W α → Prop
  | init : ThreadReachable tasks ⟨State.init pool, none, tasks, []⟩
  | step {s s'} : ThreadReachable tasks s → ThreadStep h pool fetch oracle s s' →
      ThreadReachable tasks s'

end Steps

/-! ## The thread does as if it were alone -/

/-- The job the caller has dispatched and is to await. -/
def Caller.pending : Caller Job → Option (ℕ × Job)
  | .overlap t j | .joinLock t j | .joinCheck t j | .joinWait t j | .joinWoken t j
  | .joinUnlock t j | .collect t j => some (t, j)
  | _ => none

/-- The caller has posted a job, and is not done with dispatching it. -/
def Caller.posting : Caller Job → Bool
  | .flags .. | .signal .. | .postUnlock .. => true
  | _ => false

/-- The pool is as the thread alone imagines it. -/
structure Matches (s : State Unit Job Slot Desc Out) (a : Alone W Job) : Prop where
  ready : a.ready = s.ready
  posted : a.posted + (s.caller ()).posting.toNat = s.posted.length
  pending : a.pending = (s.caller ()).pending

/-- The caller is in the course of the next call of the program, or of none. -/
def Doing (p : PoolProg Job Out P R α) (c : Caller Job) : Prop :=
  c.outside = true ∨ ∃ o k, p = .call o k ∧ During o c

section Refinement

variable {h : Prog.Handler P R W} {pool : Pool Job Slot Desc Out O} {fetch : Fetch}
  {oracle : ℕ → O} {s s' : State Unit Job Slot Desc Out} {a : Alone W Job} {o : PoolOp Job P}

theorem Matches.worker_step (hm : Matches s a) (hs : WorkerStep pool fetch oracle s s') :
    Matches s' a := by
  obtain ⟨hcaller, hready, -, hposted, -⟩ := hs.frame
  exact ⟨by rw [hready]; exact hm.ready, by rw [hcaller, hposted]; exact hm.posted,
    by rw [hcaller]; exact hm.pending⟩

theorem Matches.notify_step (hm : Matches s a) (hs : NotifyStep s s') : Matches s' a := by
  cases hs with
  | one hw hc =>
    refine ⟨hm.ready, ?_, ?_⟩
    · have := hm.posted
      rw [hc] at this
      simpa [State.move, Caller.posting] using this
    · have := hm.pending
      rw [hc] at this
      simpa [State.move, Caller.pending] using this
  | nobody => exact ⟨hm.ready, hm.posted, hm.pending⟩

theorem Doing.notify_step {p : PoolProg Job Out P R α} (hd : Doing p (s.caller ()))
    (hs : NotifyStep s s') : Doing p (s'.caller ()) := by
  cases hs with
  | one hw hc =>
    rw [hc] at hd
    obtain hd | ⟨o, k, hp, ho⟩ := hd
    · cases hd
    · refine .inr ⟨o, k, hp, ?_⟩
      simpa [State.move, During] using ho
  | nobody => exact hd

/-- A thread at the end of a program is outside of any call. -/
theorem Doing.outside_ret {v : α} {c : Caller Job} (hd : Doing (.ret v : PoolProg Job Out P R α) c) :
    c.outside = true := by
  obtain hd | ⟨o, k, hp, -⟩ := hd
  · exact hd
  · cases hp

/-- So is one about to make a call that is no step of a caller. -/
theorem Doing.outside_call {k : PoolOp.Res Job Out R o → PoolProg Job Out P R α} {c : Caller Job}
    (hd : Doing (.call o k) c) (ho : ¬During o c) : c.outside = true := by
  obtain hd | ⟨o', k', hp, ho'⟩ := hd
  · exact hd
  · cases hp
    exact absurd ho' ho

theorem not_during_sys {p : P} {c : Caller Job} : ¬During (.sys p) c := by
  cases c <;> simp [During]

theorem not_during_ready {c : Caller Job} : ¬During (.ready : PoolOp Job P) c := by
  cases c <;> simp [During]

/-- A caller outside of any call, with nothing to await, is idle. -/
theorem Caller.idle_of_outside {c : Caller Job} (hout : c.outside = true)
    (hnone : c.pending = none) : c = .idle := by
  revert hout hnone
  cases c <;> simp [Caller.outside, Caller.pending]

/-- A step within a call is not noticed. -/
theorem Matches.go (hm : Matches s a) (hs : CallerStep pool () s s')
    (ho : During o (s'.caller ())) : Matches s' a := by
  obtain ⟨h1, h2, h3⟩ := hm
  cases hs <;> constructor <;>
    simp_all [During, Caller.posting, Caller.pending, State.wake] <;> simp_all [State.move]

/-- A call that is allowed takes its first step. -/
theorem Matches.enter {excl : P → Prop} (hm : Matches s a)
    (hout : (s.caller ()).outside = true) (hg : Guard excl a o) (hr : o ≠ .ready)
    (hs : ∀ p, o ≠ .sys p) :
    ∃ s', CallerStep pool () s s' ∧ During o (s'.caller ()) := by
  obtain ⟨h1, -, h3⟩ := hm
  have hidle : a.pending = none → s.caller () = .idle := by
    intro hnone
    rw [h3] at hnone
    revert hout hnone
    cases s.caller () <;> simp [Caller.outside, Caller.pending]
  cases o with
  | ready => exact absurd rfl hr
  | sys p => exact absurd rfl (hs p)
  | start created => exact ⟨_, .callInit (hidle hg.2) (h1 ▸ hg.1), by simp [During]⟩
  | stop => exact ⟨_, .callShutdown (hidle hg.2) (h1 ▸ hg.1), by simp [During]⟩
  | dispatch j =>
    have hs : CallerStep pool () s (s.move () (.postLock j)) := .callPost (hidle hg.2) (h1 ▸ hg.1)
    exact ⟨_, hs, by simp [During]⟩
  | await =>
    cases hc : s.caller () with
    | overlap t j => exact ⟨_, .callJoin hc, by simp [During]⟩
    | idle =>
      rw [hc] at h3
      exact absurd h3 hg.2
    | _ =>
      rw [hc] at hout
      cases hout

/-- A step within a call does not leave it, or is its last one. -/
theorem CallerStep.during (hs : CallerStep pool () s s') (ho : During o (s.caller ()))
    (hcreate : s.caller () ≠ .initCreate) :
    During o (s'.caller ()) ∨ (s'.caller ()).outside = true ∧
      ∃ r : PoolOp.Res Job Out R o, Answer s' o r := by
  cases hs with
  | postUnlock hc =>
    rw [hc] at ho
    cases ho
    exact .inr ⟨by simp [Caller.outside], (), .dispatch⟩
  | collect hc =>
    rw [hc] at ho
    cases ho
    exact .inr ⟨by simp [Caller.outside], _, .await List.getLast?_concat⟩
  | initCreate hc => exact absurd hc hcreate
  | initFail hc => exact absurd hc hcreate
  | initSet hc =>
    rw [hc] at ho
    cases ho
    exact .inr ⟨by simp [Caller.outside], (), .start rfl⟩
  | shutReset hc =>
    rw [hc] at ho
    cases ho
    exact .inr ⟨by simp [Caller.outside], (), .stop⟩
  | _ => exact .inl (by simp_all [During, State.wake])

variable [Inhabited Out]

/-- The answer of a call is the one given to the thread alone. -/
theorem Matches.back {r : PoolOp.Res Job Out R o} (hi : Inv pool oracle s ()) (hm : Matches s a)
    (hs : CallerStep pool () s s') (ho : During o (s.caller ()))
    (hout : (s'.caller ()).outside = true) (hr : Answer s' o r) :
    r = (Alone.handler h pool oracle o a).1 ∧ Matches s' (Alone.handler h pool oracle o a).2 ∧
      (Alone.handler h pool oracle o a).2.world = a.world := by
  have hmode := hi.mode
  have hfacts := hi.facts
  have hi' := hi.caller_step hs
  obtain ⟨h1, h2, h3⟩ := hm
  cases hs with
  -- the job posted is the next one of the thread alone, which awaits it now
  | @postUnlock t j hc =>
    rw [hc] at hmode ho h2
    obtain ⟨-, hlen, -⟩ := hmode
    cases ho
    have ht : a.posted = t := by
      simp only [Caller.posting, Bool.toNat_true] at h2
      omega
    cases hr
    refine ⟨rfl, ⟨h1, ?_, ?_⟩, rfl⟩
    · simpa [Alone.handler, ht, State.move, Caller.posting] using hlen
    · simp [Alone.handler, ht, Caller.pending]
  -- the result is that of the job, as the history says
  | @collect t j hc =>
    rw [hc] at ho h2 h3
    cases ho
    cases hr with
    | await hlast =>
      simp only [List.getLast?_concat, Option.some.injEq] at hlast
      subst hlast
      have hret := (hi'.history.returned _ (List.mem_append_right _ List.mem_cons_self)).2.2.2
      refine ⟨?_, ⟨h1, ?_, ?_⟩, rfl⟩
      · simpa [Alone.handler, h3, Caller.pending] using hret
      · simpa [Alone.handler, Caller.posting, State.move] using h2
      · simp [Alone.handler, Caller.pending]
  | initFail hc =>
    rw [hc] at ho h2 h3 hfacts
    obtain ⟨created, rfl⟩ := ho
    cases hr with
    | start hready =>
      refine ⟨rfl, ⟨hready.symm, ?_, ?_⟩, rfl⟩
      · simpa [Alone.handler, Caller.posting, State.move] using h2
      · simpa [Alone.handler, Caller.pending] using h3
  | initSet hc =>
    rw [hc] at ho h2 h3
    cases ho
    cases hr with
    | start hready =>
      refine ⟨rfl, ⟨rfl, ?_, ?_⟩, rfl⟩
      · simpa [Alone.handler, Caller.posting, State.move] using h2
      · simpa [Alone.handler, Caller.pending] using h3
  | shutReset hc =>
    rw [hc] at ho h2 h3
    cases ho
    cases hr
    refine ⟨rfl, ⟨rfl, ?_, ?_⟩, rfl⟩
    · simpa [Alone.handler, Caller.posting, State.move] using h2
    · simpa [Alone.handler, Caller.pending] using h3
  | _ => simp_all [Caller.outside, During, State.wake]

variable (h pool oracle)

/-- What is left to run of the tasks: what the thread alone would still do. -/
def Rest (excl : P → Prop) (c : Option (Current Job Out P R W α))
    (todo : List (W × PoolProg Job Out P R α)) (s : State Unit Job Slot Desc Out)
    (rest : List (TaskRun Job Out P R W α)) (safe : Prop) : Prop :=
  match c with
  | none => s.caller () = .idle ∧ rest = runAlone h pool oracle todo s.ready s.posted.length ∧
      (safe → SafeAll h pool oracle excl todo s.ready s.posted.length)
  | some c => Doing c.prog (s.caller ()) ∧ ∃ a : Alone W Job, Matches s a ∧ a.world = c.world ∧
      let r := c.prog.run (Alone.handler h pool oracle) a
      rest = ⟨r.val, r.world.world, c.trace ++ r.trace⟩ ::
        runAlone h pool oracle todo r.world.ready r.world.posted ∧
      (safe → Safe h pool oracle excl c.prog a ∧
        SafeAll h pool oracle excl todo r.world.ready r.world.posted)

variable {h pool oracle}

/-- The invariant of a thread: it has done some of the runs of the tasks alone,
    and is to do the rest. -/
structure ThreadInv (h : Prog.Handler P R W) (pool : Pool Job Slot Desc Out O) (oracle : ℕ → O)
    (excl : P → Prop) (tasks : List (W × PoolProg Job Out P R α))
    (s : Thread Job Slot Desc Out P R W α) : Prop where
  inv : Inv pool oracle s.pool ()
  rest : ∃ rest, runAlone h pool oracle tasks false 0 = s.done ++ rest ∧
    Rest h pool oracle excl s.current s.todo s.pool rest (SafeAll h pool oracle excl tasks false 0)

theorem ThreadInv.step {excl : P → Prop} {tasks : List (W × PoolProg Job Out P R α)}
    {t t' : Thread Job Slot Desc Out P R W α} (hi : ThreadInv h pool oracle excl tasks t)
    (hs : ThreadStep h pool fetch oracle t t') : ThreadInv h pool oracle excl tasks t' := by
  obtain ⟨hinv, rest, hrun, hrest⟩ := hi
  cases hs with
  -- the worker and its signals do not concern the run alone
  | @worker s s' c ts ds hw =>
    refine ⟨hinv.worker_step hw, rest, hrun, ?_⟩
    obtain ⟨hcaller, hready, -, hposted, -⟩ := hw.frame
    cases c with
    | none =>
      simp only [Rest, hcaller, hready, hposted] at hrest ⊢
      exact hrest
    | some c =>
      obtain ⟨hd, a, hm, hrest⟩ := hrest
      exact ⟨hcaller ▸ hd, a, hm.worker_step hw, hrest⟩
  | @notify s s' c ts ds hn =>
    refine ⟨hinv.notify_step hn, rest, hrun, ?_⟩
    cases c with
    | none =>
      cases hn with
      | one hw hc =>
        rw [hrest.1] at hc
        cases hc
      | nobody => exact hrest
    | some c =>
      obtain ⟨hd, a, hm, hrest⟩ := hrest
      exact ⟨hd.notify_step hn, a, hm.notify_step hn, hrest⟩
  | @begin s w p ts ds =>
    obtain ⟨(hidle : s.caller () = .idle), hrest, hsafe⟩ := hrest
    refine ⟨hinv, rest, hrun, .inl ?_, ⟨w, s.ready, s.posted.length, none⟩, ⟨rfl, ?_, ?_⟩, rfl, ?_,
      hsafe⟩
    · simp only [hidle, Caller.outside]
    · simp [hidle, Caller.posting]
    · simp [hidle, Caller.pending]
    · rw [hrest, runAlone]
      rfl
  -- the run that ends is the next one of those alone
  | @finish s v w tr ts ds hidle =>
    obtain ⟨-, a, hm, hw, hrest, hsafe⟩ := hrest
    have hlen : a.posted = s.posted.length := by
      simpa [hidle, Caller.posting] using hm.posted
    refine ⟨hinv, _, ?_, hidle, rfl, ?_⟩
    · rw [hrun, hrest, List.append_assoc, Prog.run_ret, hm.ready, hlen, hw, List.append_nil]
      rfl
    · intro h'
      have := (hsafe h').2
      rwa [Prog.run_ret, hm.ready, hlen] at this
  -- calls that are no steps of a caller are answered as alone
  | @sys s p k w tr ts ds =>
    obtain ⟨hd, a, hm, rfl, hrest, hsafe⟩ := hrest
    have hout := hd.outside_call not_during_sys
    refine ⟨hinv, rest, hrun, .inl hout, { a with world := (h p a.world).2 },
      ⟨hm.ready, hm.posted, hm.pending⟩, rfl, ?_, fun h' => ?_⟩
    · rw [hrest, Prog.run_call, List.append_assoc]
      rfl
    · exact ⟨(hsafe h').1.2, (hsafe h').2⟩
  | @ready s k w tr ts ds =>
    obtain ⟨hd, a, hm, rfl, hrest, hsafe⟩ := hrest
    have hout := hd.outside_call not_during_ready
    refine ⟨hinv, rest, hrun, .inl hout, a, hm, rfl, ?_, fun h' => ?_⟩
    · rw [hrest, Prog.run_call, List.append_assoc, ← hm.ready]
      rfl
    · rw [← hm.ready]
      exact ⟨(hsafe h').1.2, (hsafe h').2⟩
  -- the others are, once they return
  | @go s s' o k w tr ts ds hc ho =>
    obtain ⟨-, a, hm, hrest⟩ := hrest
    exact ⟨hinv.caller_step hc, rest, hrun, .inr ⟨o, k, rfl, ho⟩, a, hm.go hc ho, hrest⟩
  | @back s s' o r k w tr ts ds ho hc hout hr =>
    obtain ⟨-, a, hm, rfl, hrest, hsafe⟩ := hrest
    obtain ⟨hreq, hm', hw'⟩ := hm.back hinv hc ho hout hr
    refine ⟨hinv.caller_step hc, rest, hrun, .inl hout, _, hm', hw', ?_, fun h' => ?_⟩
    · rw [hrest, Prog.run_call, List.append_assoc, hreq]
      rfl
    · rw [hreq]
      exact ⟨(hsafe h').1.2, (hsafe h').2⟩

theorem ThreadReachable.inv (excl : P → Prop) {tasks : List (W × PoolProg Job Out P R α)}
    {t : Thread Job Slot Desc Out P R W α} (ht : ThreadReachable h pool fetch oracle tasks t) :
    ThreadInv h pool oracle excl tasks t := by
  induction ht with
  | init => exact ⟨inv_init (), _, rfl, rfl, rfl, id⟩
  | step _ hs ih => exact ih.step hs

/-- Between tasks, what is left to run are the tasks left, from the pool as it is. -/
theorem ThreadReachable.runAlone_eq {tasks : List (W × PoolProg Job Out P R α)}
    {t : Thread Job Slot Desc Out P R W α} (ht : ThreadReachable h pool fetch oracle tasks t)
    (hc : t.current = none) : runAlone h pool oracle tasks false 0 =
      t.done ++ runAlone h pool oracle t.todo t.pool.ready t.pool.posted.length := by
  obtain ⟨-, rest, hrun, hrest⟩ := ht.inv fun _ => True
  simp only [Rest, hc] at hrest
  rw [hrun, hrest.2.1]

/-- A thread that has nothing left to do has run all its tasks. -/
theorem ThreadReachable.done_eq {tasks : List (W × PoolProg Job Out P R α)}
    {t : Thread Job Slot Desc Out P R W α} (ht : ThreadReachable h pool fetch oracle tasks t)
    (hc : t.current = none) (htodo : t.todo = []) :
    t.done = runAlone h pool oracle tasks false 0 := by
  rw [ht.runAlone_eq hc, htodo, runAlone, List.append_nil]

/-- The thread makes an exclusive call, is at the end of a task, or between tasks. -/
def Thread.Exclusive (excl : P → Prop) (t : Thread Job Slot Desc Out P R W α) : Prop :=
  match t.current with
  | none => True
  | some ⟨.ret _, _, _⟩ => True
  | some ⟨.call (.sys p) _, _, _⟩ => excl p
  | some _ => False

/-- The worker does not look at the slot then, and has run every job. -/
theorem ThreadReachable.at_rest {excl : P → Prop} {tasks : List (W × PoolProg Job Out P R α)}
    {t : Thread Job Slot Desc Out P R W α} (ht : ThreadReachable h pool fetch oracle tasks t)
    (hsafe : SafeAll h pool oracle excl tasks false 0) (hat : t.Exclusive excl) :
    t.pool.worker.touches = false ∧ t.pool.runs.length = t.pool.posted.length := by
  obtain ⟨hinv, rest, -, hrest⟩ := ht.inv excl
  have hidle : t.pool.caller () = .idle := by
    -- a thread that awaits nothing is outside of any call of the pool, and so idle
    have hout {a : Alone W Job} (hm : Matches t.pool a) (hnone : a.pending = none)
        (hd : (t.pool.caller ()).outside = true) : t.pool.caller () = .idle :=
      Caller.idle_of_outside hd (hm.pending.symm.trans hnone)
    obtain ⟨s, current, todo, done⟩ := t
    obtain _ | ⟨_ | ⟨o, k⟩, w, tr⟩ := current
    · exact hrest.1
    · obtain ⟨hd, a, hm, -, -, hs⟩ := hrest
      exact hout hm (hs hsafe).1 hd.outside_ret
    · cases o with
      | sys p =>
        obtain ⟨hd, a, hm, -, -, hs⟩ := hrest
        exact hout hm ((hs hsafe).1.1 hat) (hd.outside_call not_during_sys)
      | _ => exact hat.elim
  exact ⟨hinv.not_touching_of_idle hidle, hinv.all_run_of_idle hidle⟩

/-! ## A thread of safe tasks can get to the end of them -/

/-- Steps of a thread. -/
abbrev ThreadSteps (h : Prog.Handler P R W) (pool : Pool Job Slot Desc Out O) (fetch : Fetch)
    (oracle : ℕ → O) :
    Thread Job Slot Desc Out P R W α → Thread Job Slot Desc Out P R W α → Prop :=
  Relation.ReflTransGen (ThreadStep h pool fetch oracle)

/-- A call that has begun can return. -/
theorem ThreadInv.can_return {excl : P → Prop} {tasks : List (W × PoolProg Job Out P R α)}
    {k : PoolOp.Res Job Out R o → PoolProg Job Out P R α} {w : W}
    {tr : List (Prog.Event (PoolOp Job P) (PoolOp.Res Job Out R))}
    {ts : List (W × PoolProg Job Out P R α)} {ds : List (TaskRun Job Out P R W α)}
    (hi : ThreadInv h pool oracle excl tasks ⟨s, some ⟨.call o k, w, tr⟩, ts, ds⟩)
    (ho : During o (s.caller ())) :
    ∃ s' r, ThreadSteps h pool fetch oracle ⟨s, some ⟨.call o k, w, tr⟩, ts, ds⟩
      ⟨s', some ⟨k r, w, tr ++ [⟨o, r⟩]⟩, ts, ds⟩ := by
  generalize hn : s.rank () = n
  induction n using Nat.strongRecOn generalizing s with
  | ind n ih =>
    subst hn
    have hinv : Inv pool oracle s () := hi.inv
    -- the outcome of creating the worker is the one the call asks for
    by_cases hcreate : s.caller () = .initCreate
    · have hmode := hinv.mode
      have hfacts := hinv.facts
      rw [hcreate] at ho hmode hfacts
      obtain ⟨created, rfl⟩ := ho
      cases created with
      | false =>
        exact ⟨_, (), .single (.back (by rw [hcreate]; exact ⟨false, rfl⟩) (.initFail hcreate)
          (by simp [Caller.outside]) (.start hfacts.1))⟩
      | true =>
        have h₁ : CallerStep pool () s { s.move () .initSet with worker := .start } :=
          .initCreate hcreate hmode
        exact ⟨_, (), .head (.go h₁ (by simp [During])) (.single (.back (by simp [During])
          (.initSet (by simp)) (by simp [Caller.outside]) (.start rfl)))⟩
    · have hbusy : s.caller () ≠ .idle := fun hc => by rw [hc] at ho; exact ho
      obtain ⟨s₁, (hstep : Step pool fetch oracle s s₁), hi₁, hlt⟩ := hinv.progress hbusy
      cases hstep with
      | worker hw =>
        have hts : ThreadStep h pool fetch oracle ⟨s, some ⟨.call o k, w, tr⟩, ts, ds⟩
            ⟨s₁, some ⟨.call o k, w, tr⟩, ts, ds⟩ := .worker hw
        obtain ⟨s', r, hsteps⟩ := ih _ hlt (hi.step hts) (by rw [hw.frame.1]; exact ho) rfl
        exact ⟨s', r, .head hts hsteps⟩
      | notify hn =>
        have hts : ThreadStep h pool fetch oracle ⟨s, some ⟨.call o k, w, tr⟩, ts, ds⟩
            ⟨s₁, some ⟨.call o k, w, tr⟩, ts, ds⟩ := .notify hn
        have ho₁ : During o (s₁.caller ()) := by
          have hd : Doing (.call o k) (s.caller ()) := .inr ⟨o, k, rfl, ho⟩
          obtain hd | ⟨o', k', hp, ho'⟩ := hd.notify_step hn
          · cases hn with
            | one hw hc => simp [State.move, Caller.outside] at hd
            | nobody => exact ho
          · cases hp
            exact ho'
        obtain ⟨s', r, hsteps⟩ := ih _ hlt (hi.step hts) ho₁ rfl
        exact ⟨s', r, .head hts hsteps⟩
      | caller i hc =>
        obtain ho₁ | ⟨hout, r, hr⟩ := CallerStep.during hc ho hcreate
        · have hts : ThreadStep h pool fetch oracle ⟨s, some ⟨.call o k, w, tr⟩, ts, ds⟩
            ⟨s₁, some ⟨.call o k, w, tr⟩, ts, ds⟩ := .go hc ho₁
          obtain ⟨s', r, hsteps⟩ := ih _ hlt (hi.step hts) ho₁ rfl
          exact ⟨s', r, .head hts hsteps⟩
        · exact ⟨s₁, r, .single (.back ho hc hout hr)⟩

omit [Inhabited Out] in
theorem ThreadReachable.steps {tasks : List (W × PoolProg Job Out P R α)}
    {t t' : Thread Job Slot Desc Out P R W α} (ht : ThreadReachable h pool fetch oracle tasks t)
    (hs : ThreadSteps h pool fetch oracle t t') : ThreadReachable h pool fetch oracle tasks t' := by
  induction hs with
  | refl => exact ht
  | tail _ hs ih => exact ih.step hs

omit [Inhabited Out] in
/-- A thread that is not using the pool can start it. -/
theorem threadSteps_start (s : State Unit Job Slot Desc Out)
    {k : PoolOp.Res Job Out R (.start true) → PoolProg Job Out P R α} {w : W}
    {tr : List (Prog.Event (PoolOp Job P) (PoolOp.Res Job Out R))}
    {ts : List (W × PoolProg Job Out P R α)} {ds : List (TaskRun Job Out P R W α)}
    (hidle : s.caller () = .idle) (hready : s.ready = false) (hoff : s.worker = .off) :
    ∃ s', s'.caller () = .idle ∧ s'.ready = true ∧ s'.posted = s.posted ∧
      ThreadSteps h pool fetch oracle ⟨s, some ⟨.call (.start true) k, w, tr⟩, ts, ds⟩
        ⟨s', some ⟨k (), w, tr ++ [⟨.start true, ()⟩]⟩, ts, ds⟩ := by
  have during {c : Caller Job} (hc : c = .initMem ∨ c = .initCreate ∨ c = .initSet) :
      During (PoolOp.start true : PoolOp Job P) c := by
    obtain rfl | rfl | rfl := hc <;> simp [During]
  refine ⟨_, ?_, ?_, ?_, .head (.go (.callInit hidle hready) (during ?_))
    (.head (.go (.initMem ?_) (during ?_)) (.head (.go (.initCreate ?_ ?_) (during ?_))
      (.single (.back (during ?_) (.initSet ?_) ?_ (.start ?_)))))⟩
  all_goals simp [State.move, Caller.outside, hoff]

/-- From between tasks on, a thread runs the tasks left, from the pool as it is. -/
theorem ThreadReachable.done_eq_append {tasks : List (W × PoolProg Job Out P R α)}
    {t t' : Thread Job Slot Desc Out P R W α} (ht : ThreadReachable h pool fetch oracle tasks t)
    (hs : ThreadSteps h pool fetch oracle t t') (hc : t.current = none) (hc' : t'.current = none)
    (htodo' : t'.todo = []) :
    t'.done = t.done ++ runAlone h pool oracle t.todo t.pool.ready t.pool.posted.length :=
  ((ht.steps hs).done_eq hc' htodo').trans (ht.runAlone_eq hc)

theorem ThreadInv.steps {excl : P → Prop} {tasks : List (W × PoolProg Job Out P R α)}
    {t t' : Thread Job Slot Desc Out P R W α} (hi : ThreadInv h pool oracle excl tasks t)
    (hs : ThreadSteps h pool fetch oracle t t') : ThreadInv h pool oracle excl tasks t' := by
  induction hs with
  | refl => exact hi
  | tail _ hs ih => exact ih.step hs

/-- A safe task can get to its end: by induction on what is left of it. -/
theorem ThreadInv.can_end {excl : P → Prop} {tasks : List (W × PoolProg Job Out P R α)}
    (hsafe : SafeAll h pool oracle excl tasks false 0) {p : PoolProg Job Out P R α} {w : W}
    {tr : List (Prog.Event (PoolOp Job P) (PoolOp.Res Job Out R))}
    {ts : List (W × PoolProg Job Out P R α)} {ds : List (TaskRun Job Out P R W α)}
    (hi : ThreadInv h pool oracle excl tasks ⟨s, some ⟨p, w, tr⟩, ts, ds⟩) :
    ∃ s' v w' tr', ThreadSteps h pool fetch oracle ⟨s, some ⟨p, w, tr⟩, ts, ds⟩
      ⟨s', some ⟨.ret v, w', tr'⟩, ts, ds⟩ := by
  induction p generalizing s w tr with
  | ret v => exact ⟨s, v, w, tr, .refl⟩
  | call o k ih =>
    -- the call returns, then the rest of the task gets to its end
    have hgo : ∀ {s₁ : State Unit Job Slot Desc Out}, During o (s₁.caller ()) →
        ThreadSteps h pool fetch oracle ⟨s, some ⟨.call o k, w, tr⟩, ts, ds⟩
          ⟨s₁, some ⟨.call o k, w, tr⟩, ts, ds⟩ →
        ∃ s' v w' tr', ThreadSteps h pool fetch oracle ⟨s, some ⟨.call o k, w, tr⟩, ts, ds⟩
          ⟨s', some ⟨.ret v, w', tr'⟩, ts, ds⟩ := by
      intro s₁ ho hs₁
      obtain ⟨s₂, r, (hs₂ : ThreadSteps h pool fetch oracle _ _)⟩ := (hi.steps hs₁).can_return ho
      obtain ⟨s', v, w', tr', hs'⟩ := ih r (hi.steps (hs₁.trans hs₂))
      exact ⟨s', v, w', tr', hs₁.trans (hs₂.trans hs')⟩
    obtain ⟨-, rest, -, hd, a, hm, -, -, hs⟩ := id hi
    obtain hout | ⟨o', k', hp, ho⟩ := hd
    · have hg := (hs hsafe).1.1
      cases o with
      | ready =>
        have hstep : ThreadStep h pool fetch oracle ⟨s, some ⟨.call .ready k, w, tr⟩, ts, ds⟩
            ⟨s, some ⟨k s.ready, w, tr ++ [⟨.ready, s.ready⟩]⟩, ts, ds⟩ := .ready
        obtain ⟨s', v, w', tr', hs'⟩ := ih _ (hi.step hstep)
        exact ⟨s', v, w', tr', .head hstep hs'⟩
      | sys p =>
        have hstep : ThreadStep h pool fetch oracle ⟨s, some ⟨.call (.sys p) k, w, tr⟩, ts, ds⟩
            ⟨s, some ⟨k (h p w).1, (h p w).2, tr ++ [⟨.sys p, (h p w).1⟩]⟩, ts, ds⟩ := .sys
        obtain ⟨s', v, w', tr', hs'⟩ := ih _ (hi.step hstep)
        exact ⟨s', v, w', tr', .head hstep hs'⟩
      -- the others take the steps of a caller
      | start _ | stop | dispatch _ | await =>
        obtain ⟨s₁, (hc : CallerStep pool () s s₁), ho⟩ := hm.enter hout hg nofun nofun
        exact hgo ho (.single (.go hc ho))
    · cases hp
      exact hgo ho .refl

/-- The safe task under way can finish. -/
theorem ThreadInv.can_finish_current {excl : P → Prop} {tasks : List (W × PoolProg Job Out P R α)}
    (hsafe : SafeAll h pool oracle excl tasks false 0)
    {c : Option (Current Job Out P R W α)} {ts : List (W × PoolProg Job Out P R α)}
    {ds : List (TaskRun Job Out P R W α)}
    (hi : ThreadInv h pool oracle excl tasks ⟨s, c, ts, ds⟩) :
    ∃ s' ds', ThreadSteps h pool fetch oracle ⟨s, c, ts, ds⟩ ⟨s', none, ts, ds'⟩ := by
  obtain _ | ⟨p, w, tr⟩ := c
  · exact ⟨s, ds, .refl⟩
  · obtain ⟨s₁, v, w', tr', (hs₁ : ThreadSteps h pool fetch oracle _ _)⟩ := hi.can_end hsafe
    obtain ⟨-, rest, -, hd, a, hm, -, -, hs⟩ := hi.steps hs₁
    have hidle : s₁.caller () = .idle :=
      Caller.idle_of_outside hd.outside_ret (hm.pending.symm.trans (hs hsafe).1)
    exact ⟨s₁, _, hs₁.tail (.finish hidle)⟩

/-- Then the tasks left can: by induction on them. -/
theorem ThreadInv.can_finish {excl : P → Prop} {tasks : List (W × PoolProg Job Out P R α)}
    (hsafe : SafeAll h pool oracle excl tasks false 0)
    {c : Option (Current Job Out P R W α)} {ts : List (W × PoolProg Job Out P R α)}
    {ds : List (TaskRun Job Out P R W α)}
    (hi : ThreadInv h pool oracle excl tasks ⟨s, c, ts, ds⟩) :
    ∃ s' ds', ThreadSteps h pool fetch oracle ⟨s, c, ts, ds⟩ ⟨s', none, [], ds'⟩ := by
  induction ts generalizing s c ds with
  | nil => exact hi.can_finish_current hsafe
  | cons wp ts ih =>
    obtain ⟨s₁, ds₁, (hs₁ : ThreadSteps h pool fetch oracle _ _)⟩ := hi.can_finish_current hsafe
    have hbegin : ThreadStep h pool fetch oracle ⟨s₁, none, wp :: ts, ds₁⟩
        ⟨s₁, some ⟨wp.2, wp.1, []⟩, ts, ds₁⟩ := .begin
    obtain ⟨s', ds', hs'⟩ := ih (hi.steps (hs₁.tail hbegin))
    exact ⟨s', ds', hs₁.trans (.head hbegin hs')⟩

/-- A thread of safe tasks can always get to the end of them. -/
theorem ThreadReachable.can_finish {excl : P → Prop} {tasks : List (W × PoolProg Job Out P R α)}
    {t : Thread Job Slot Desc Out P R W α} (ht : ThreadReachable h pool fetch oracle tasks t)
    (hsafe : SafeAll h pool oracle excl tasks false 0) :
    ∃ s ds, ThreadSteps h pool fetch oracle t ⟨s, none, [], ds⟩ :=
  (ht.inv excl).can_finish hsafe

end Refinement

end Handoff
