import HybridPqc.Lib.Ledger

/-!
# Uses of resources

A program that reads and writes its memory uses resources without calling any operation.
It is written with these uses (`UseOp`), kept in its ledger (`Ledger.withUses`); without
them it is a program as before (`UseOp.erase`), that runs in the same way
(`UseOp.run_erase`).
-/

/-- The operations of programs that also use resources themselves. -/
inductive UseOp (Op K : Type) : Type
  | op (o : Op)
  | use (k : K)

/-- The answers to them. -/
@[reducible] def UseOp.Res {Op K : Type} (R : Op → Type) : UseOp Op K → Type
  | .op o => R o
  | .use _ => Unit

variable {Op : Type} {Res : Op → Type} {K W α β : Type}

namespace UseOp

/-- A program that uses nothing itself. -/
def lift (p : Prog Op Res α) : Prog (UseOp Op K) (UseOp.Res Res) α :=
  p.subst fun o => Prog.op (.op o)

instance : MonadLift (Prog Op Res) (Prog (UseOp Op K) (UseOp.Res Res)) := ⟨lift⟩

/-- The program without its uses. -/
def erase (p : Prog (UseOp Op K) (UseOp.Res Res) α) : Prog Op Res α :=
  p.subst fun
    | .op o => Prog.op o
    | .use _ => pure ()

/-- The answers to a program with uses. -/
def handler (h : Prog.Handler Op Res W) : Prog.Handler (UseOp Op K) (UseOp.Res Res) W
  | .op o, w => h o w
  | .use _, w => ((), w)

@[simp] theorem lift_ret (a : α) :
    (lift (.ret a) : Prog (UseOp Op K) (UseOp.Res Res) α) = .ret a := rfl

@[simp] theorem lift_call (o : Op) (k : Res o → Prog Op Res α) :
    (lift (.call o k) : Prog (UseOp Op K) (UseOp.Res Res) α) = .call (.op o) fun r => lift (k r) :=
  rfl

@[simp] theorem erase_ret (a : α) :
    erase (.ret a : Prog (UseOp Op K) (UseOp.Res Res) α) = .ret a := rfl

@[simp] theorem erase_call_op (o : Op) (k : Res o → Prog (UseOp Op K) (UseOp.Res Res) α) :
    erase (.call (.op o) k) = .call o fun r => erase (k r) := rfl

@[simp] theorem erase_call_use (x : K) (k : Unit → Prog (UseOp Op K) (UseOp.Res Res) α) :
    erase (.call (.use x) k) = erase (k ()) := rfl

@[simp] theorem erase_bind (p : Prog (UseOp Op K) (UseOp.Res Res) α)
    (f : α → Prog (UseOp Op K) (UseOp.Res Res) β) :
    erase (p >>= f) = erase p >>= fun a => erase (f a) :=
  Prog.subst_bind _ p f

@[simp] theorem erase_ite {c : Prop} [Decidable c] (p q : Prog (UseOp Op K) (UseOp.Res Res) α) :
    erase (if c then p else q) = if c then erase p else erase q := apply_ite erase c p q

@[simp] theorem erase_lift (p : Prog Op Res α) :
    erase (lift p : Prog (UseOp Op K) (UseOp.Res Res) α) = p := by
  induction p with
  | ret a => rfl
  | call o k ih => exact congrArg (Prog.call o) (funext ih)

/-- The answers to a program with uses, if they are fixed. -/
def env (e : Prog.Env Op Res) : Prog.Env (UseOp Op K) (UseOp.Res Res)
  | .op o => e o
  | .use _ => ()

theorem eval_erase (p : Prog (UseOp Op K) (UseOp.Res Res) α) (e : Prog.Env Op Res) :
    (erase p).eval e = p.eval (env e) := by
  induction p with
  | ret a => rfl
  | call o k ih =>
    cases o with
    | op o => exact ih _
    | use x => exact ih ()

/-- The call that an event is, if it is one. -/
def called : Prog.Event (UseOp Op K) (UseOp.Res Res) → Option (Prog.Event Op Res)
  | ⟨.op o, r⟩ => some ⟨o, r⟩
  | ⟨.use _, _⟩ => none

/-- The run of a program with uses is that without them, but for its uses. -/
theorem run_erase (p : Prog (UseOp Op K) (UseOp.Res Res) α) (h : Prog.Handler Op Res W) (w : W) :
    (erase p).run h w = ⟨(p.run (handler h) w).val, (p.run (handler h) w).world,
      (p.run (handler h) w).trace.filterMap called⟩ := by
  induction p generalizing w with
  | ret a => rfl
  | call o k ih =>
    cases o with
    | op o =>
      rw [erase_call_op, Prog.run_call, ih]
      rfl
    | use x =>
      rw [erase_call_use, ih]
      rfl

end UseOp

/-- The ledger of programs with uses. -/
def Ledger.withUses (l : Ledger Op Res K) : Ledger (UseOp Op K) (UseOp.Res Res) K where
  uses
    | .op o => l.uses o
    | .use k => [k]
  releases
    | .op o => l.releases o
    | .use _ => none
  acquires
    | .op o, r => l.acquires o r
    | .use _, _ => 0

namespace Ledger

variable {l : Ledger Op Res K}

@[simp] theorem withUses_uses_op (o : Op) : l.withUses.uses (.op o) = l.uses o := rfl
@[simp] theorem withUses_uses_use (k : K) : l.withUses.uses (.use k) = [k] := rfl
@[simp] theorem withUses_releases_op (o : Op) : l.withUses.releases (.op o) = l.releases o := rfl
@[simp] theorem withUses_releases_use (k : K) : l.withUses.releases (.use k) = none := rfl
@[simp] theorem withUses_acquires_op (o : Op) (r : Res o) :
    l.withUses.acquires (.op o) r = l.acquires o r := rfl
@[simp] theorem withUses_acquires_use (k : K) (r : Unit) :
    l.withUses.acquires (.use k) r = 0 := rfl

theorem keeps_use [DecidableEq K] {held : Multiset K}
    {ok : Prog.Event (UseOp Op K) (UseOp.Res Res) → Prop} {k : K} (hk : k ∈ held) :
    l.withUses.Keeps ok (Prog.op (UseOp.use k)) held fun _ held' => held' = held := by
  simp [Permits, next, hk]

/-- A program that uses nothing itself keeps the ledger as before. -/
theorem Keeps.withUses [DecidableEq K] {held : Multiset K}
    {ok : Prog.Event (UseOp Op K) (UseOp.Res Res) → Prop} {Q : α → Multiset K → Prop}
    {p : Prog Op Res α} (hp : l.Keeps (fun ev => ok ⟨.op ev.1, ev.2⟩) p held Q) :
    l.withUses.Keeps ok (UseOp.lift p) held Q :=
  hp.subst fun _ _ ho => ⟨ho, fun _ hr => ⟨hr, rfl⟩⟩

/-- The calls of a trace settle as the trace does. -/
theorem Settles.called [DecidableEq K] {held held' : Multiset K}
    {t : List (Prog.Event (UseOp Op K) (UseOp.Res Res))} (ht : l.withUses.Settles held t held') :
    l.Settles held (t.filterMap UseOp.called) held' := by
  induction t generalizing held with
  | nil => exact ht
  | cons ev t ih =>
    obtain ⟨hpermits, ht⟩ := ht
    rcases ev with ⟨o | k, r⟩
    · exact ⟨hpermits, ih ht⟩
    · have hnext : l.withUses.next held ⟨.use k, r⟩ = held := zero_add held
      rw [hnext] at ht
      exact ih ht

end Ledger
