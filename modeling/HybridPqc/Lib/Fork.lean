import HybridPqc.Lib.Ledger
import Mathlib.Logic.Relation

/-!
# Forking threads and joining them

A program may fork a thread, which runs a program of its own given an argument, and join
it, which gives what it has returned (`ForkOp`). In between, all go on at their own pace
(`Fork.Step`). The answers to the threads are fixed, so that how they interleave makes no
difference (`Reachable.run_eq`): the program runs as if every thread ran where it is
joined (`Fork.handler`).

In the ledger of such a program (`Ledger.fork`) a thread is a resource itself, acquired
where it is forked and released where it is joined; what it returns with is handed over
to the program there. A program that keeps this ledger

* can always get to its end, as the threads it joins get to theirs
  (`Reachable.can_finish`);
* has joined all its threads if it holds none in the end (`Reachable.threads_eq_zero`).
-/

/-- The operations of a program that forks threads, each with an argument, and joins the
    threads forked with it. -/
inductive ForkOp (X Op : Type) : Type
  | op (o : Op)
  | fork (x : X)
  | join (x : X)

/-- The answers to them: whether there is a thread, and what it returns. -/
@[reducible] def ForkOp.Res {X Op : Type} (R : Op → Type) (A : Type) : ForkOp X Op → Type
  | .op o => R o
  | .fork _ => Bool
  | .join _ => A

variable {X Op P A W α β K : Type} {Res : Op → Type} {R : P → Type}

namespace Fork

/-- An event of a program with threads. -/
abbrev Event (X : Type) (Op : Type) (Res : Op → Type) (A : Type) :=
  Prog.Event (ForkOp X Op) (ForkOp.Res Res A)

/-- A program without threads, as one with threads. -/
def lift (p : Prog Op Res α) : Prog (ForkOp X Op) (ForkOp.Res Res A) α :=
  p.subst fun o => Prog.op (.op o)

@[simp] theorem lift_ret (a : α) :
    (lift (.ret a) : Prog (ForkOp X Op) (ForkOp.Res Res A) α) = .ret a := rfl

@[simp] theorem lift_call (o : Op) (k : Res o → Prog Op Res α) :
    (lift (.call o k) : Prog (ForkOp X Op) (ForkOp.Res Res A) α) =
      .call (.op o) fun r => lift (k r) := rfl

/-! ## The system -/

/-- A thread: its argument, what it has done, and what is left of its program. -/
structure Thread (X P : Type) (R : P → Type) (A : Type) where
  arg : X
  trace : List (Prog.Event P R)
  rest : Prog P R A

/-- The state of a program and its threads, with the threads it has joined. -/
structure State (X Op : Type) (Res : Op → Type) (P : Type) (R : P → Type) (A W α : Type) where
  main : Prog (ForkOp X Op) (ForkOp.Res Res A) α
  world : W
  trace : List (Event X Op Res A)
  threads : Multiset (Thread X P R A)
  joined : List (Thread X P R A)

section System

variable (h : Prog.Handler Op Res W) (created : X → Bool) (body : X → Prog P R A)
  (env : Prog.Env P R)

/-- A step of the program, or of one of its threads. -/
inductive Step : State X Op Res P R A W α → State X Op Res P R A W α → Prop
  | op {s o k} : s.main = .call (.op o) k →
      Step s { s with
        main := k (h o s.world).1
        world := (h o s.world).2
        trace := s.trace ++ [⟨.op o, (h o s.world).1⟩] }
  | fork {s x k} : s.main = .call (.fork x) k →
      Step s { s with
        main := k (created x)
        trace := s.trace ++ [⟨.fork x, created x⟩]
        threads := if created x then ⟨x, [], body x⟩ ::ₘ s.threads else s.threads }
  | join {s x k t a threads} : s.main = .call (.join x) k →
      s.threads = ⟨x, t, .ret a⟩ ::ₘ threads →
      Step s { s with
        main := k a
        trace := s.trace ++ [⟨.join x, a⟩]
        threads
        joined := s.joined ++ [⟨x, t, .ret a⟩] }
  | thread {s x t o k threads} : s.threads = ⟨x, t, .call o k⟩ ::ₘ threads →
      Step s { s with threads := ⟨x, t ++ [⟨o, env o⟩], k (env o)⟩ ::ₘ threads }

/-- Any number of steps. -/
abbrev Steps : State X Op Res P R A W α → State X Op Res P R A W α → Prop :=
  Relation.ReflTransGen (Step h created body env)

/-- A program about to start. -/
def State.init (p : Prog (ForkOp X Op) (ForkOp.Res Res A) α) (w : W) :
    State X Op Res P R A W α :=
  ⟨p, w, [], 0, []⟩

/-- The states that a program gets to. -/
abbrev Reachable (p : Prog (ForkOp X Op) (ForkOp.Res Res A) α) (w : W) :
    State X Op Res P R A W α → Prop :=
  Steps h created body env (.init p w)

/-- The program alone: a thread runs where it is joined. -/
def handler : Prog.Handler (ForkOp X Op) (ForkOp.Res Res A) W
  | .op o, w => h o w
  | .fork x, w => (created x, w)
  | .join x, w => ((body x).eval env, w)

/-! ## Interleaving -/

/-- A thread is somewhere in the run of its body. -/
def Thread.Runs (th : Thread X P R A) : Prop :=
  th.rest.eval env = (body th.arg).eval env ∧
    th.trace ++ (th.rest.exec env).trace = ((body th.arg).exec env).trace

/-- A program is somewhere in its run alone, as its threads are in theirs. -/
structure Inv (p : Prog (ForkOp X Op) (ForkOp.Res Res A) α) (w : W)
    (s : State X Op Res P R A W α) : Prop where
  val : (s.main.run (handler h created body env) s.world).val =
    (p.run (handler h created body env) w).val
  trace : s.trace ++ (s.main.run (handler h created body env) s.world).trace =
    (p.run (handler h created body env) w).trace
  threads : ∀ th ∈ s.threads, th.Runs body env
  joined : ∀ th ∈ s.joined, th.Runs body env ∧
    ∃ a, th.rest = .ret a ∧ ⟨.join th.arg, a⟩ ∈ s.trace

variable {h created body env} {p : Prog (ForkOp X Op) (ForkOp.Res Res A) α} {w : W}
  {s s' : State X Op Res P R A W α}

theorem Thread.runs_init (x : X) : (⟨x, [], body x⟩ : Thread X P R A).Runs body env := ⟨rfl, rfl⟩

theorem Thread.Runs.step {x : X} {t : List (Prog.Event P R)} {o : P} {k : R o → Prog P R A}
    (hth : (⟨x, t, .call o k⟩ : Thread X P R A).Runs body env) :
    (⟨x, t ++ [⟨o, env o⟩], k (env o)⟩ : Thread X P R A).Runs body env := by
  obtain ⟨hval, htrace⟩ := hth
  refine ⟨hval, Eq.trans ?_ htrace⟩
  rw [List.append_assoc]
  rfl

theorem inv_init : Inv h created body env p w (.init p w) where
  val := rfl
  trace := rfl
  threads _ hth := absurd hth (Multiset.notMem_zero _)
  joined _ hth := absurd hth List.not_mem_nil

theorem joined_append {t t' : List (Event X Op Res A)} {ths : List (Thread X P R A)}
    (hjoined : ∀ th ∈ ths, th.Runs body env ∧ ∃ a, th.rest = .ret a ∧ ⟨.join th.arg, a⟩ ∈ t) :
    ∀ th ∈ ths, th.Runs body env ∧ ∃ a, th.rest = .ret a ∧ ⟨.join th.arg, a⟩ ∈ t ++ t' := by
  intro th hth
  obtain ⟨hruns, a, hrest, hmem⟩ := hjoined th hth
  exact ⟨hruns, a, hrest, List.mem_append_left t' hmem⟩

theorem Inv.step (hs : Inv h created body env p w s) (hstep : Step h created body env s s') :
    Inv h created body env p w s' := by
  obtain ⟨hval, htrace, hthreads, hjoined⟩ := hs
  cases hstep with
  | op hmain =>
    rw [hmain] at hval htrace
    exact ⟨hval, by rw [List.append_assoc]; exact htrace, hthreads, joined_append hjoined⟩
  | @fork x k hmain =>
    rw [hmain] at hval htrace
    refine ⟨hval, by rw [List.append_assoc]; exact htrace, fun th hth => ?_,
      joined_append hjoined⟩
    dsimp only at hth
    split at hth
    · rcases Multiset.mem_cons.1 hth with rfl | hth
      · exact Thread.runs_init x
      · exact hthreads th hth
    · exact hthreads th hth
  | @join x k t a threads hmain heq =>
    rw [heq, Multiset.forall_mem_cons] at hthreads
    obtain ⟨hth, hthreads⟩ := hthreads
    -- the answer is what the body returns
    obtain rfl : a = (body x).eval env := hth.1
    rw [hmain] at hval htrace
    refine ⟨hval, by rw [List.append_assoc]; exact htrace, hthreads, fun th hmem => ?_⟩
    rcases List.mem_append.1 hmem with hmem | hmem
    · exact joined_append hjoined th hmem
    · obtain rfl := List.mem_singleton.1 hmem
      exact ⟨hth, _, rfl, by simp⟩
  | thread heq =>
    rw [heq, Multiset.forall_mem_cons] at hthreads
    refine ⟨hval, htrace, fun th hth => ?_, hjoined⟩
    rcases Multiset.mem_cons.1 hth with rfl | hth
    · exact hthreads.1.step
    · exact hthreads.2 th hth

theorem Reachable.inv (hs : Reachable h created body env p w s) :
    Inv h created body env p w s := by
  induction hs with
  | refl => exact inv_init
  | tail _ hstep ih => exact ih.step hstep

/-- However the threads interleave, the program runs as it does alone. -/
theorem Reachable.run_eq (hs : Reachable h created body env p w s) {a : α}
    (hmain : s.main = .ret a) :
    a = (p.run (handler h created body env) w).val ∧
      s.trace = (p.run (handler h created body env) w).trace := by
  obtain ⟨hval, htrace, -, -⟩ := hs.inv
  rw [hmain] at hval htrace
  exact ⟨hval, (List.append_nil _).symm.trans htrace⟩

/-- A thread that is joined has run its body, and given what that returns. -/
theorem Reachable.joined_run (hs : Reachable h created body env p w s) {th : Thread X P R A}
    (hth : th ∈ s.joined) :
    ⟨.join th.arg, (body th.arg).eval env⟩ ∈ s.trace ∧
      th.trace = ((body th.arg).exec env).trace := by
  obtain ⟨⟨hval, htrace⟩, a, hrest, hmem⟩ := hs.inv.joined th hth
  rw [hrest] at hval htrace
  obtain rfl : a = (body th.arg).eval env := hval
  exact ⟨hmem, (List.append_nil _).symm.trans htrace⟩

end System

end Fork

/-! ## Ledgers -/

namespace Ledger

/-- The ledger of a program with threads: those are resources, and `gives` is what is
    handed over where they are joined. -/
def fork (l : Ledger Op Res K) (thread : X → K) (gives : A → Multiset K) :
    Ledger (ForkOp X Op) (ForkOp.Res Res A) K where
  uses
    | .op o => l.uses o
    | _ => []
  releases
    | .op o => l.releases o
    | .fork _ => none
    | .join x => some (thread x)
  acquires
    | .op o, r => l.acquires o r
    | .fork x, created => if created then {thread x} else 0
    | .join _, a => gives a

variable {l : Ledger Op Res K} {thread : X → K} {gives : A → Multiset K} (o : Op) (x : X)

@[simp] theorem fork_uses_op : (l.fork thread gives).uses (.op o) = l.uses o := rfl
@[simp] theorem fork_uses_fork : (l.fork thread gives).uses (.fork x) = [] := rfl
@[simp] theorem fork_uses_join : (l.fork thread gives).uses (.join x) = [] := rfl

@[simp] theorem fork_releases_op : (l.fork thread gives).releases (.op o) = l.releases o := rfl
@[simp] theorem fork_releases_fork : (l.fork thread gives).releases (.fork x) = none := rfl
@[simp] theorem fork_releases_join :
    (l.fork thread gives).releases (.join x) = some (thread x) := rfl

@[simp] theorem fork_acquires_op (r : Res o) :
    (l.fork thread gives).acquires (.op o) r = l.acquires o r := rfl
@[simp] theorem fork_acquires_fork (created : Bool) :
    (l.fork thread gives).acquires (.fork x) created = if created then {thread x} else 0 := rfl
@[simp] theorem fork_acquires_join (a : A) :
    (l.fork thread gives).acquires (.join x) a = gives a := rfl

variable [DecidableEq K]

/-- A program without threads keeps the ledger as before. -/
theorem Keeps.fork {ok : Fork.Event X Op Res A → Prop} {held : Multiset K}
    {Q : α → Multiset K → Prop} {p : Prog Op Res α}
    (hp : l.Keeps (fun ev => ok ⟨.op ev.1, ev.2⟩) p held Q) :
    (l.fork thread gives).Keeps ok (Fork.lift p) held Q :=
  hp.subst fun _ _ ho => ⟨ho, fun _ hr => ⟨hr, rfl⟩⟩

end Ledger

namespace Fork

/-- Only a fork acquires a thread, and only a join releases it. -/
structure Tokens (l : Ledger Op Res K) (thread : X → K) (gives : A → Multiset K) : Prop where
  injective : Function.Injective thread
  releases : ∀ o x, l.releases o ≠ some (thread x)
  acquires : ∀ o r x, thread x ∉ l.acquires o r
  gives : ∀ a x, thread x ∉ gives a

section Kept

variable [DecidableEq K] (l : Ledger Op Res K) (thread : X → K) (gives : A → Multiset K)
  (Q : α → Multiset K → Prop)

/-- What is left of a program keeps the ledger, from its threads and what else is held. -/
def Kept (s : State X Op Res P R A W α) : Prop :=
  ∃ rest, (∀ x, thread x ∉ rest) ∧ (l.fork thread gives).Keeps (fun _ => True) s.main
    (s.threads.map (fun th => thread th.arg) + rest) Q

variable {l thread gives Q} {h : Prog.Handler Op Res W} {created : X → Bool}
  {body : X → Prog P R A} {env : Prog.Env P R} {p : Prog (ForkOp X Op) (ForkOp.Res Res A) α}
  {w : W} {s s' : State X Op Res P R A W α}

theorem Kept.step (htok : Tokens l thread gives) (hs : Kept l thread gives Q s)
    (hstep : Step h created body env s s') : Kept l thread gives Q s' := by
  obtain ⟨rest, hrest, hkeeps⟩ := hs
  cases hstep with
  | @op o k hmain =>
    rw [hmain, Ledger.keeps_call] at hkeeps
    have hnext := hkeeps.2 (h o s.world).1 trivial
    simp only [Ledger.next, Ledger.fork_releases_op, Ledger.fork_acquires_op] at hnext
    cases hrel : l.releases o with
    | none =>
      rw [hrel, Option.elim_none, add_left_comm] at hnext
      refine ⟨_, fun x hx => ?_, hnext⟩
      rcases Multiset.mem_add.1 hx with hx | hx
      · exact htok.acquires o _ x hx
      · exact hrest x hx
    | some r =>
      -- what is released is no thread, and so among the rest
      have hr : r ∉ s.threads.map fun th => thread th.arg := by
        rintro hmem
        obtain ⟨th, -, rfl⟩ := Multiset.mem_map.1 hmem
        exact htok.releases o _ hrel
      rw [hrel, Option.elim_some, Multiset.erase_add_right_neg _ hr, add_left_comm] at hnext
      refine ⟨_, fun x hx => ?_, hnext⟩
      rcases Multiset.mem_add.1 hx with hx | hx
      · exact htok.acquires o _ x hx
      · exact hrest x (Multiset.mem_of_mem_erase hx)
  | @fork x k hmain =>
    rw [hmain, Ledger.keeps_call] at hkeeps
    -- a thread that is created is held from now on
    have hnext := hkeeps.2 (created x) trivial
    refine ⟨rest, hrest, ?_⟩
    cases hcreated : created x <;> simpa [Ledger.next, hcreated] using hnext
  | @join x k t a threads hmain heq =>
    rw [hmain, heq, Ledger.keeps_call] at hkeeps
    -- the thread joined is given up for what it hands over
    have hnext := hkeeps.2 a trivial
    simp only [Ledger.next, Ledger.fork_releases_join, Ledger.fork_acquires_join,
      Option.elim_some, Multiset.map_cons, Multiset.cons_add, Multiset.erase_cons_head] at hnext
    rw [add_left_comm] at hnext
    refine ⟨_, fun y hy => ?_, hnext⟩
    rcases Multiset.mem_add.1 hy with hy | hy
    · exact htok.gives a y hy
    · exact hrest y hy
  | thread heq =>
    rw [heq, Multiset.map_cons] at hkeeps
    exact ⟨rest, hrest, by simpa using hkeeps⟩

theorem Kept.steps (htok : Tokens l thread gives) (hs : Kept l thread gives Q s)
    (hsteps : Steps h created body env s s') : Kept l thread gives Q s' := by
  induction hsteps with
  | refl => exact hs
  | tail _ hstep ih => exact ih.step htok hstep

theorem Reachable.kept (htok : Tokens l thread gives) {held : Multiset K}
    (hheld : ∀ x, thread x ∉ held)
    (hp : (l.fork thread gives).Keeps (fun _ => True) p held Q)
    (hs : Reachable h created body env p w s) : Kept l thread gives Q s :=
  Kept.steps htok ⟨held, hheld, by simpa [State.init] using hp⟩ hs

/-- A program has joined all its threads if it holds none in the end. -/
theorem Kept.threads_eq_zero (hs : Kept l thread gives Q s) {a : α} (hmain : s.main = .ret a)
    (hQ : ∀ held, Q a held → ∀ x, thread x ∉ held) : s.threads = 0 := by
  obtain ⟨rest, -, hkeeps⟩ := hs
  rw [hmain, Ledger.keeps_ret] at hkeeps
  refine Multiset.eq_zero_of_forall_notMem fun th hth => hQ _ hkeeps th.arg ?_
  exact Multiset.mem_add.2 (.inl (Multiset.mem_map_of_mem _ hth))

/-- A thread gets to its end. -/
theorem steps_thread {x : X} {q : Prog P R A} {t : List (Prog.Event P R)}
    {threads : Multiset (Thread X P R A)} (hth : s.threads = ⟨x, t, q⟩ ::ₘ threads) :
    ∃ s' t' a, Steps h created body env s s' ∧ s'.main = s.main ∧
      s'.threads = ⟨x, t', .ret a⟩ ::ₘ threads := by
  induction q generalizing s t with
  | ret a => exact ⟨s, t, a, .refl, rfl, hth⟩
  | call o k ih =>
    obtain ⟨s', t', a, hsteps, hmain, hthreads⟩ := ih (env o)
      (s := { s with threads := ⟨x, t ++ [⟨o, env o⟩], k (env o)⟩ ::ₘ threads }) rfl
    exact ⟨s', t', a, .head (.thread hth) hsteps, hmain, hthreads⟩

/-- A program that keeps the ledger can always get to its end. -/
theorem Kept.can_finish (htok : Tokens l thread gives) (hs : Kept l thread gives Q s) :
    ∃ s' a, Steps h created body env s s' ∧ s'.main = .ret a := by
  obtain ⟨m, hm⟩ : ∃ m, s.main = m := ⟨_, rfl⟩
  induction m generalizing s with
  | ret a => exact ⟨s, a, .refl, hm⟩
  | call o k ih =>
    have hgo : ∀ {s₁ s₂ : State X Op Res P R A W α} (r), Kept l thread gives Q s₁ →
        Step h created body env s₁ s₂ → s₂.main = k r →
        ∃ s' a, Steps h created body env s₁ s' ∧ s'.main = .ret a := by
      intro s₁ s₂ r hs₁ hstep hmain
      obtain ⟨s', a, hsteps, hret⟩ := ih r (hs₁.step htok hstep) hmain
      exact ⟨s', a, .head hstep hsteps, hret⟩
    cases o with
    | op o => exact hgo _ hs (.op hm) rfl
    | fork x => exact hgo _ hs (.fork hm) rfl
    | join x =>
      -- the thread to join is there, as it is held
      have hkept := hs
      obtain ⟨rest, hrest, hkeeps⟩ := hkept
      rw [hm, Ledger.keeps_call] at hkeeps
      have hheld := hkeeps.1.2 (thread x) rfl
      rcases Multiset.mem_add.1 hheld with hmem | hmem
      · obtain ⟨⟨y, t, q⟩, hth, harg⟩ := Multiset.mem_map.1 hmem
        obtain rfl : y = x := htok.injective harg
        obtain ⟨threads, hthreads⟩ := Multiset.exists_cons_of_mem hth
        obtain ⟨s₁, t', a, hsteps, hmain, hdone⟩ := steps_thread hthreads
        obtain ⟨s', b, hsteps', hret⟩ :=
          hgo a (hs.steps htok hsteps) (.join (hmain.trans hm) hdone) rfl
        exact ⟨s', b, hsteps.trans hsteps', hret⟩
      · exact absurd hmem (hrest x)

end Kept

end Fork
