import Mathlib.Init

/-!
# Programs over operations

A program is a tree of *operations*: it either returns, or calls an operation
and goes on with its answer. It fixes no meaning for the operations, so that
one text of a program may be read in several ways:

* `Prog.run`: alone, against a *handler* answering every operation from a state
  of the world, and recording the *trace*, i.e., the operations called in turn,
  with their answers;
* `Prog.eval`: alone, against an *environment*, i.e., fixed answers;
* `Prog.subst`: as a program over other operations, every operation being
  replaced with a program;
* one operation at a time, by a system of which it is a part.

`Prog.All` says that all the operations of a program, whatever their answers,
satisfy a predicate, and so that those of its traces do (`all_run`);
`Prog.Along`, that those of one run do, given the state they are called in.
-/

/-- A program over the operations `Op`, each with answers in `Res`, returning
    an `α`. -/
inductive Prog (Op : Type) (Res : Op → Type) (α : Type) : Type
  | ret (a : α)
  | call (o : Op) (k : Res o → Prog Op Res α)

namespace Prog

variable {Op Op' : Type} {Res : Op → Type} {Res' : Op' → Type} {W α β γ : Type}

/-- Sequencing. -/
def bind : Prog Op Res α → (α → Prog Op Res β) → Prog Op Res β
  | ret a, f => f a
  | call o k, f => call o fun r => (k r).bind f

instance : Monad (Prog Op Res) where
  pure := ret
  bind := bind

/-- The program calling a single operation. -/
def op (o : Op) : Prog Op Res (Res o) := call o ret

/-- A program calling operations is put in the form of a tree. -/
@[simp] theorem op_eq (o : Op) : (op o : Prog Op Res (Res o)) = call o ret := rfl

@[simp] theorem pure_eq (a : α) : (pure a : Prog Op Res α) = ret a := rfl

@[simp] theorem ret_bind (a : α) (f : α → Prog Op Res β) : (ret a >>= f) = f a := rfl

@[simp] theorem call_bind (o : Op) (k : Res o → Prog Op Res α) (f : α → Prog Op Res β) :
    (call o k >>= f) = call o fun r => k r >>= f := rfl

theorem bind_ret (p : Prog Op Res α) : p >>= ret = p := by
  induction p with
  | ret a => rfl
  | call o k ih => rw [call_bind, funext ih]

theorem bind_assoc (p : Prog Op Res α) (f : α → Prog Op Res β) (g : β → Prog Op Res γ) :
    p >>= f >>= g = p >>= fun a => f a >>= g := by
  induction p with
  | ret a => rfl
  | call o k ih => rw [call_bind, call_bind, call_bind, funext ih]

instance : LawfulMonad (Prog Op Res) :=
  .mk' (Prog Op Res) bind_ret (fun _ _ => rfl) bind_assoc

/-! ## Runs -/

/-- An operation called, with its answer. -/
abbrev Event (Op : Type) (Res : Op → Type) := (o : Op) × Res o

/-- How the world, in a state in `W`, answers an operation. -/
abbrev Handler (Op : Type) (Res : Op → Type) (W : Type) := (o : Op) → W → Res o × W

/-- A run: the value returned, the final state of the world, and the operations
    called in turn. -/
structure Run (Op : Type) (Res : Op → Type) (W α : Type) where
  val : α
  world : W
  trace : List (Event Op Res)

/-- The run of a program from the state `w` of the world. -/
def run (h : Handler Op Res W) : Prog Op Res α → W → Run Op Res W α
  | ret a, w => ⟨a, w, []⟩
  | call o k, w =>
    let r := (k (h o w).1).run h (h o w).2
    ⟨r.val, r.world, ⟨o, (h o w).1⟩ :: r.trace⟩

section Run

variable (h : Handler Op Res W) (w : W)

@[simp] theorem run_ret (a : α) : (ret a : Prog Op Res α).run h w = ⟨a, w, []⟩ := rfl

@[simp] theorem run_call (o : Op) (k : Res o → Prog Op Res α) :
    (call o k).run h w =
      ⟨((k (h o w).1).run h (h o w).2).val, ((k (h o w).1).run h (h o w).2).world,
        ⟨o, (h o w).1⟩ :: ((k (h o w).1).run h (h o w).2).trace⟩ := rfl

/-- A sequence runs its first part, then the rest from where it ends. -/
@[simp] theorem run_bind (p : Prog Op Res α) (f : α → Prog Op Res β) :
    (p >>= f).run h w =
      ⟨((f (p.run h w).val).run h (p.run h w).world).val,
        ((f (p.run h w).val).run h (p.run h w).world).world,
        (p.run h w).trace ++ ((f (p.run h w).val).run h (p.run h w).world).trace⟩ := by
  induction p generalizing w with
  | ret a => rfl
  | call o k ih => simp [ih]

end Run

/-! ## Fixed answers -/

/-- Fixed answers to the operations. -/
abbrev Env (Op : Type) (Res : Op → Type) := (o : Op) → Res o

/-- The run of a program whose operations have fixed answers. -/
def exec (e : Env Op Res) (p : Prog Op Res α) : Run Op Res Unit α :=
  p.run (fun o w => (e o, w)) ()

/-- The value of a program whose operations have fixed answers. -/
def eval (e : Env Op Res) (p : Prog Op Res α) : α := (p.exec e).val

section Eval

variable (e : Env Op Res)

@[simp] theorem eval_ret (a : α) : (ret a : Prog Op Res α).eval e = a := rfl

@[simp] theorem eval_call (o : Op) (k : Res o → Prog Op Res α) :
    (call o k).eval e = (k (e o)).eval e := rfl

@[simp] theorem eval_ite {c : Prop} [Decidable c] (p q : Prog Op Res α) :
    (if c then p else q).eval e = if c then p.eval e else q.eval e := apply_ite (eval e) c p q

@[simp] theorem eval_bind (p : Prog Op Res α) (f : α → Prog Op Res β) :
    (p >>= f).eval e = (f (p.eval e)).eval e := by
  simp [eval, exec]

/-- Answers read from the world. -/
def envHandler : Handler Op Res (Env Op Res) := fun o e => (e o, e)

@[simp] theorem run_envHandler (p : Prog Op Res α) :
    p.run envHandler e = ⟨p.eval e, e, (p.exec e).trace⟩ := by
  induction p with
  | ret a => rfl
  | call o k ih =>
    rw [run_call]
    exact congrArg
      (fun r : Run Op Res (Env Op Res) α => (⟨r.val, r.world, ⟨o, e o⟩ :: r.trace⟩ : Run ..))
      (ih (e o))

end Eval

/-! ## Substitution -/

/-- The program with every operation `o` replaced with the program `f o`. -/
def subst (f : (o : Op) → Prog Op' Res' (Res o)) : Prog Op Res α → Prog Op' Res' α
  | ret a => ret a
  | call o k => f o >>= fun r => (k r).subst f

section Subst

variable (f : (o : Op) → Prog Op' Res' (Res o))

@[simp] theorem subst_ret (a : α) : (ret a : Prog Op Res α).subst f = ret a := rfl

@[simp] theorem subst_call (o : Op) (k : Res o → Prog Op Res α) :
    (call o k).subst f = f o >>= fun r => (k r).subst f := rfl

@[simp] theorem subst_bind (p : Prog Op Res α) (g : α → Prog Op Res β) :
    (p >>= g).subst f = p.subst f >>= fun a => (g a).subst f := by
  induction p with
  | ret a => rfl
  | call o k ih => simp only [call_bind, subst_call, ih, bind_assoc]

/-- A run ends as before, if what replaces each operation ends as the operation does. -/
theorem run_subst {f : (o : Op) → Prog Op' Res' (Res o)} {h : Handler Op Res W}
    {h' : Handler Op' Res' W}
    (hf : ∀ o w, ((f o).run h' w).val = (h o w).1 ∧ ((f o).run h' w).world = (h o w).2)
    (p : Prog Op Res α) (w : W) :
    ((p.subst f).run h' w).val = (p.run h w).val ∧
      ((p.subst f).run h' w).world = (p.run h w).world := by
  induction p generalizing w with
  | ret a => exact ⟨rfl, rfl⟩
  | call o k ih =>
    obtain ⟨hval, hworld⟩ := hf o w
    rw [subst_call, run_bind, run_call]
    dsimp only
    rw [hval, hworld]
    exact ih _ _

end Subst

/-! ## Operations on all branches -/

/-- All the operations of a program, whatever their answers, satisfy `φ`. -/
def All (φ : Op → Prop) : Prog Op Res α → Prop
  | ret _ => True
  | call o k => φ o ∧ ∀ r, (k r).All φ

section All

variable {φ : Op → Prop}

@[simp] theorem all_ret (a : α) : (ret a : Prog Op Res α).All φ := trivial

@[simp] theorem all_call (o : Op) (k : Res o → Prog Op Res α) :
    (call o k).All φ ↔ φ o ∧ ∀ r, (k r).All φ := Iff.rfl

@[simp] theorem all_ite {c : Prop} [Decidable c] (p q : Prog Op Res α) :
    (if c then p else q).All φ ↔ if c then p.All φ else q.All φ := by
  split <;> rfl

theorem All.bind {p : Prog Op Res α} {f : α → Prog Op Res β} (hp : p.All φ)
    (hf : ∀ a, (f a).All φ) : (p >>= f).All φ := by
  induction p with
  | ret a => exact hf a
  | call o k ih => exact ⟨hp.1, fun r => ih r (hp.2 r)⟩

theorem All.mono {ψ : Op → Prop} {p : Prog Op Res α} (hp : p.All φ) (h : ∀ o, φ o → ψ o) :
    p.All ψ := by
  induction p with
  | ret a => trivial
  | call o k ih => exact ⟨h o hp.1, fun r => ih r (hp.2 r)⟩

theorem all_of_forall (hφ : ∀ o, φ o) (p : Prog Op Res α) : p.All φ := by
  induction p with
  | ret a => trivial
  | call o k ih => exact ⟨hφ o, ih⟩

/-- The operations of a run satisfy what all those of the program do. -/
theorem all_run {p : Prog Op Res α} (hp : p.All φ) (h : Handler Op Res W) (w : W) :
    ∀ ev ∈ (p.run h w).trace, φ ev.1 := by
  induction p generalizing w with
  | ret a => exact fun _ hev => absurd hev List.not_mem_nil
  | call o k ih =>
    intro ev hev
    rcases List.mem_cons.1 hev with rfl | hev
    · exact hp.1
    · exact ih _ (hp.2 _) _ ev hev

end All

/-! ## Any answers -/

/-- A program may return `a`, if all answers that satisfy `ok` are possible. -/
def Gives (ok : Event Op Res → Prop) : Prog Op Res α → α → Prop
  | ret b, a => b = a
  | call o k, a => ∃ r, ok ⟨o, r⟩ ∧ (k r).Gives ok a

section Gives

variable {ok : Event Op Res → Prop}

@[simp] theorem gives_ret (a b : α) : (ret b : Prog Op Res α).Gives ok a ↔ b = a := Iff.rfl

@[simp] theorem gives_call (o : Op) (k : Res o → Prog Op Res α) (a : α) :
    (call o k).Gives ok a ↔ ∃ r, ok ⟨o, r⟩ ∧ (k r).Gives ok a := Iff.rfl

@[simp] theorem gives_bind (p : Prog Op Res α) (f : α → Prog Op Res β) (b : β) :
    (p >>= f).Gives ok b ↔ ∃ a, p.Gives ok a ∧ (f a).Gives ok b := by
  induction p with
  | ret a => simp
  | call o k ih =>
    simp only [call_bind, gives_call, ih]
    constructor
    · rintro ⟨r, hr, a, hk, hf⟩
      exact ⟨a, ⟨r, hr, hk⟩, hf⟩
    · rintro ⟨a, ⟨r, hr, hk⟩, hf⟩
      exact ⟨r, hr, a, hk, hf⟩

@[simp] theorem gives_ite {c : Prop} [Decidable c] (p q : Prog Op Res α) (a : α) :
    (if c then p else q).Gives ok a ↔ if c then p.Gives ok a else q.Gives ok a := by
  split <;> rfl

/-- What it returns against an environment, it may return. -/
theorem gives_eval (p : Prog Op Res α) {e : Env Op Res} (he : ∀ o, ok ⟨o, e o⟩) :
    p.Gives ok (p.eval e) := by
  induction p with
  | ret a => rfl
  | call o k ih => exact ⟨e o, he o, ih _⟩

end Gives

/-! ## Operations of a run -/

/-- An operation is called in the run of a program whose operations have fixed answers. -/
def Called (e : Env Op Res) (p : Prog Op Res α) (o : Op) : Prop :=
  ∃ ev ∈ (p.exec e).trace, ev.1 = o

section Called

variable {e : Env Op Res} {o : Op}

@[simp] theorem not_called_ret (a : α) : ¬(ret a : Prog Op Res α).Called e o := by
  simp [Called, exec]

@[simp] theorem called_call (o' : Op) (k : Res o' → Prog Op Res α) :
    (call o' k).Called e o ↔ o' = o ∨ (k (e o')).Called e o := by
  simp [Called, exec]

@[simp] theorem called_bind (p : Prog Op Res α) (f : α → Prog Op Res β) :
    (p >>= f).Called e o ↔ p.Called e o ∨ (f (p.eval e)).Called e o := by
  simp [Called, exec, eval, or_and_right, exists_or]

@[simp] theorem called_ite {c : Prop} [Decidable c] (p q : Prog Op Res α) :
    (if c then p else q).Called e o ↔ if c then p.Called e o else q.Called e o := by
  split <;> rfl

/-- The operations of a run are among those of the program. -/
theorem Called.of_all {φ : Op → Prop} {p : Prog Op Res α} (h : p.Called e o) (hp : p.All φ) :
    φ o := by
  obtain ⟨ev, hev, rfl⟩ := h
  exact all_run hp _ _ ev hev

end Called

/-! ## Conditions along a run -/

/-- Along the run from `w`, every operation is called in a state of the world
    satisfying `φ`, and the value and the final state satisfy `Q`. -/
def Along (h : Handler Op Res W) (φ : W → Op → Prop) (Q : α → W → Prop) :
    Prog Op Res α → W → Prop
  | ret a, w => Q a w
  | call o k, w => φ w o ∧ (k (h o w).1).Along h φ Q (h o w).2

section Along

variable {h : Handler Op Res W} {φ : W → Op → Prop} {w : W}

@[simp] theorem along_ret {Q : α → W → Prop} (a : α) :
    (ret a : Prog Op Res α).Along h φ Q w ↔ Q a w := Iff.rfl

@[simp] theorem along_call {Q : α → W → Prop} (o : Op) (k : Res o → Prog Op Res α) :
    (call o k).Along h φ Q w ↔ φ w o ∧ (k (h o w).1).Along h φ Q (h o w).2 := Iff.rfl

/-- A sequence satisfies a condition along its first part, then along the rest. -/
@[simp] theorem along_bind {Q : β → W → Prop} (p : Prog Op Res α) (f : α → Prog Op Res β) :
    (p >>= f).Along h φ Q w ↔ p.Along h φ (fun a w' => (f a).Along h φ Q w') w := by
  induction p generalizing w with
  | ret a => rfl
  | call o k ih => exact and_congr_right fun _ => ih _

theorem Along.mono {Q Q' : α → W → Prop} {p : Prog Op Res α} (hp : p.Along h φ Q w)
    (hQ : ∀ a w', Q a w' → Q' a w') : p.Along h φ Q' w := by
  induction p generalizing w with
  | ret a => exact hQ _ _ hp
  | call o k ih => exact ⟨hp.1, ih _ hp.2⟩

end Along

end Prog
