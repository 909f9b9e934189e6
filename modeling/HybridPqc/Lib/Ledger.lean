import HybridPqc.Lib.Conn
import Mathlib.Algebra.Order.Group.Multiset

/-!
# Ledgers

An operation may use resources, release one, and acquire some, as its answer says. A
*ledger* tells which, and so which resources are held after a trace:

* `Ledger.Settles`: a trace uses and releases only what is held, and leaves what is held
  in the end. It releases what it acquires, but for what it leaves (`Settles.conserve`);
* `Ledger.Keeps`: that is so of all traces of a program, whatever the answers, and it
  returns with resources that satisfy a postcondition.

`Keeps` has a rule for each way to build a program, and says what a run leaves
(`Keeps.run`).
-/

variable {Op Op' : Type} {Res : Op → Type} {Res' : Op' → Type} {K W α β : Type}

/-- What operations do with resources in `K`. -/
structure Ledger (Op : Type) (Res : Op → Type) (K : Type) where
  /-- What an operation uses. -/
  uses : Op → List K
  /-- What it releases, if anything. -/
  releases : Op → Option K
  /-- What it acquires, given its answer. -/
  acquires : (o : Op) → Res o → Multiset K

namespace Ledger

/-! ## Connections -/

section Conn

variable {B P : Type} {R : P → Type}

/-- The ledger of an end of a connection, which is a resource itself. -/
def conn (l : Ledger P R K) (socket : K) : Ledger (ConnOp B P) (ConnOp.Res R) K where
  uses
    | .recv _ | .send _ => [socket]
    | .close => []
    | .sys p => l.uses p
  releases
    | .close => some socket
    | .sys p => l.releases p
    | _ => none
  acquires
    | .sys p, r => l.acquires p r
    | _, _ => 0

variable {l : Ledger P R K} {socket : K} (n : ℕ) (bs : List B) (p : P)

@[simp] theorem conn_uses_recv : (l.conn socket).uses (.recv n : ConnOp B P) = [socket] := rfl
@[simp] theorem conn_uses_send : (l.conn socket).uses (.send bs : ConnOp B P) = [socket] := rfl
@[simp] theorem conn_uses_close : (l.conn socket).uses (.close : ConnOp B P) = [] := rfl
@[simp] theorem conn_uses_sys : (l.conn socket).uses (.sys p : ConnOp B P) = l.uses p := rfl

@[simp] theorem conn_releases_recv : (l.conn socket).releases (.recv n : ConnOp B P) = none := rfl
@[simp] theorem conn_releases_send : (l.conn socket).releases (.send bs : ConnOp B P) = none := rfl
@[simp] theorem conn_releases_close :
    (l.conn socket).releases (.close : ConnOp B P) = some socket := rfl
@[simp] theorem conn_releases_sys :
    (l.conn socket).releases (.sys p : ConnOp B P) = l.releases p := rfl

@[simp] theorem conn_acquires_recv (r : Option (List B)) :
    (l.conn socket).acquires (.recv n : ConnOp B P) r = 0 := rfl
@[simp] theorem conn_acquires_send (r : Bool) :
    (l.conn socket).acquires (.send bs : ConnOp B P) r = 0 := rfl
@[simp] theorem conn_acquires_close (r : Unit) :
    (l.conn socket).acquires (.close : ConnOp B P) r = 0 := rfl
@[simp] theorem conn_acquires_sys (r : R p) :
    (l.conn socket).acquires (.sys p : ConnOp B P) r = l.acquires p r := rfl

end Conn

/-! ## What is held -/

variable [DecidableEq K] (l : Ledger Op Res K)

/-- What an operation uses and releases is held. -/
def Permits (held : Multiset K) (o : Op) : Prop :=
  (∀ k ∈ l.uses o, k ∈ held) ∧ ∀ k ∈ l.releases o, k ∈ held

/-- What is held after an event. -/
def next (held : Multiset K) (ev : Prog.Event Op Res) : Multiset K :=
  l.acquires ev.1 ev.2 + (l.releases ev.1).elim held held.erase

/-! ## Traces -/

/-- A trace uses and releases only what is held, `held` before it, and `held'` is held
    after it. -/
def Settles : Multiset K → List (Prog.Event Op Res) → Multiset K → Prop
  | held, [], held' => held = held'
  | held, ev :: t, held' => l.Permits held ev.1 ∧ Settles (l.next held ev) t held'

/-- What a trace acquires, with multiplicity. -/
def acquired (t : List (Prog.Event Op Res)) : Multiset K :=
  (t.map fun ev => l.acquires ev.1 ev.2).sum

/-- What a trace releases, with multiplicity. -/
def released (t : List (Prog.Event Op Res)) : Multiset K :=
  (t.map fun ev => (l.releases ev.1).elim 0 ({·})).sum

section Settles

variable {l} {held held' held'' : Multiset K} {t t' : List (Prog.Event Op Res)}

@[simp] theorem settles_nil : l.Settles held [] held' ↔ held = held' := Iff.rfl

@[simp] theorem settles_cons {ev : Prog.Event Op Res} :
    l.Settles held (ev :: t) held' ↔ l.Permits held ev.1 ∧ l.Settles (l.next held ev) t held' :=
  Iff.rfl

theorem settles_append :
    l.Settles held (t ++ t') held'' ↔
      ∃ held', l.Settles held t held' ∧ l.Settles held' t' held'' := by
  induction t generalizing held with
  | nil => simp
  | cons ev t ih => simp [ih, and_assoc]

/-- What is held after a trace. -/
theorem Settles.unique (h : l.Settles held t held') (h' : l.Settles held t held'') :
    held' = held'' := by
  induction t generalizing held with
  | nil => exact Eq.trans (Eq.symm h) h'
  | cons ev t ih => exact ih h.2 h'.2

/-- What a trace uses is held before it, or acquired in it. -/
theorem Settles.mem_of_uses (h : l.Settles held t held') {ev : Prog.Event Op Res} (hev : ev ∈ t)
    {k : K} (hk : k ∈ l.uses ev.1) : k ∈ held ∨ ∃ ev ∈ t, k ∈ l.acquires ev.1 ev.2 := by
  induction t generalizing held with
  | nil => exact absurd hev List.not_mem_nil
  | cons ev' t ih =>
    obtain ⟨⟨huses, -⟩, ht⟩ := h
    rcases List.mem_cons.1 hev with rfl | hev
    · exact .inl (huses k hk)
    · rcases ih ht hev with hmem | ⟨ev'', hev'', hmem⟩
      · rcases Multiset.mem_add.1 hmem with hmem | hmem
        · exact .inr ⟨ev', List.mem_cons_self, hmem⟩
        · refine .inl ?_
          cases hrel : l.releases ev'.1 with
          | none => rwa [hrel] at hmem
          | some r =>
            rw [hrel] at hmem
            exact Multiset.mem_of_mem_erase hmem
      · exact .inr ⟨ev'', List.mem_cons_of_mem _ hev'', hmem⟩

/-- A trace releases what is held before it and what it acquires, but for what is held after
    it. -/
theorem Settles.conserve (h : l.Settles held t held') :
    held + l.acquired t = l.released t + held' := by
  induction t generalizing held with
  | nil =>
    obtain rfl : held = held' := h
    simp [acquired, released]
  | cons ev t ih =>
    obtain ⟨⟨-, hreleases⟩, ht⟩ := h
    have ih := ih ht
    simp only [acquired, released, List.map_cons, List.sum_cons, next] at ih ⊢
    cases hrel : l.releases ev.1 with
    | none =>
      rw [hrel, Option.elim_none] at ih
      rw [Option.elim_none, zero_add, ← ih, add_left_comm, add_assoc]
    | some k =>
      have hk : {k} + held.erase k = held :=
        (Multiset.singleton_add ..).trans (Multiset.cons_erase (hreleases k hrel))
      rw [hrel, Option.elim_some] at ih
      rw [Option.elim_some, add_assoc, ← ih, add_comm _ (held.erase k), add_assoc,
        ← add_assoc ({k} : Multiset K), hk]

end Settles

/-! ## Programs -/

/-- Every operation of a program uses and releases only what is held, whatever the
    answers that satisfy `ok`, and what it returns and what is held then satisfy `Q`. -/
def Keeps (ok : Prog.Event Op Res → Prop) :
    Prog Op Res α → Multiset K → (α → Multiset K → Prop) → Prop
  | .ret a, held, Q => Q a held
  | .call o k, held, Q =>
    l.Permits held o ∧ ∀ r, ok ⟨o, r⟩ → Keeps ok (k r) (l.next held ⟨o, r⟩) Q

section Keeps

variable {l} {ok : Prog.Event Op Res → Prop} {p : Prog Op Res α} {f : α → Prog Op Res β}
  {held : Multiset K} {Q Q' : α → Multiset K → Prop} {R : β → Multiset K → Prop}

@[simp] theorem keeps_ret (a : α) : l.Keeps ok (.ret a) held Q ↔ Q a held := Iff.rfl

@[simp] theorem keeps_call (o : Op) (k : Res o → Prog Op Res α) :
    l.Keeps ok (.call o k) held Q ↔
      l.Permits held o ∧ ∀ r, ok ⟨o, r⟩ → l.Keeps ok (k r) (l.next held ⟨o, r⟩) Q := Iff.rfl

@[simp] theorem keeps_ite {c : Prop} [Decidable c] (p q : Prog Op Res α) :
    l.Keeps ok (if c then p else q) held Q ↔
      if c then l.Keeps ok p held Q else l.Keeps ok q held Q := by
  split <;> rfl

theorem keeps_bind : l.Keeps ok (p >>= f) held R ↔
    l.Keeps ok p held fun a held' => l.Keeps ok (f a) held' R := by
  induction p generalizing held with
  | ret a => rfl
  | call o k ih => exact and_congr_right fun _ => forall₂_congr fun _ _ => ih _

theorem Keeps.mono (hp : l.Keeps ok p held Q) (hQ : ∀ a held', Q a held' → Q' a held') :
    l.Keeps ok p held Q' := by
  induction p generalizing held with
  | ret a => exact hQ _ _ hp
  | call o k ih => exact ⟨hp.1, fun r hr => ih r (hp.2 r hr)⟩

/-- A sequence keeps a ledger if its first part does, and the rest does from what it leaves. -/
theorem Keeps.bind (hp : l.Keeps ok p held Q)
    (hf : ∀ a held', Q a held' → l.Keeps ok (f a) held' R) : l.Keeps ok (p >>= f) held R :=
  keeps_bind.2 (hp.mono hf)

/-- A sequence whose first part leaves `g a` where it returns `a`. -/
theorem Keeps.seq {g : α → Multiset K} (hp : l.Keeps ok p held fun a held' => held' = g a)
    (hf : ∀ a, l.Keeps ok (f a) (g a) R) : l.Keeps ok (p >>= f) held R := by
  refine hp.bind fun a held' h => ?_
  rw [h]
  exact hf a

/-- An operation uses only what is held, and leaves it. -/
def Leaves (l : Ledger Op Res K) (held : Multiset K) (o : Op) : Prop :=
  (∀ k ∈ l.uses o, k ∈ held) ∧ l.releases o = none ∧ ∀ r, l.acquires o r = 0

/-- A program all of whose operations leave what is held leaves it, whatever it may return. -/
theorem Keeps.of_all (hp : p.All (l.Leaves held)) (hQ : ∀ a, p.Gives ok a → Q a held) :
    l.Keeps ok p held Q := by
  induction p with
  | ret a => exact hQ a rfl
  | call o k ih =>
    obtain ⟨⟨huses, hreleases, hacquires⟩, hk⟩ := hp
    refine ⟨⟨huses, by simp [hreleases]⟩, fun r hr => ?_⟩
    have hnext : l.next held ⟨o, r⟩ = held := by simp [next, hreleases, hacquires]
    rw [hnext]
    exact ih r (hk r) fun a ha => hQ a ⟨r, hr, ha⟩

/-- What a run leaves, if all its answers satisfy `ok`. -/
theorem Keeps.run (hp : l.Keeps ok p held Q) {h : Prog.Handler Op Res W}
    (hok : ∀ o w, ok ⟨o, (h o w).1⟩) (w : W) :
    ∃ held', l.Settles held (p.run h w).trace held' ∧ Q (p.run h w).val held' := by
  induction p generalizing held w with
  | ret a => exact ⟨held, rfl, hp⟩
  | call o k ih =>
    obtain ⟨held', hsettles, hQ⟩ := ih _ (hp.2 _ (hok o w)) (h o w).2
    exact ⟨held', ⟨hp.1, hsettles⟩, hQ⟩

/-- What a run of a sequence leaves, given what that of its first part does. -/
theorem settles_run_bind {held' held'' : Multiset K} {h : Prog.Handler Op Res W} {w : W}
    (hp : l.Settles held (p.run h w).trace held') :
    l.Settles held ((p >>= f).run h w).trace held'' ↔
      l.Settles held' ((f (p.run h w).val).run h (p.run h w).world).trace held'' := by
  rw [Prog.run_bind, settles_append]
  constructor
  · rintro ⟨held₁, hp', hf⟩
    rwa [← hp'.unique hp]
  · exact fun hf => ⟨held', hp, hf⟩

/-- A program over other operations keeps their ledger, if what replaces each operation
    does with them what the operation does. -/
theorem Keeps.subst {l' : Ledger Op' Res' K} {ok' : Prog.Event Op' Res' → Prop}
    {g : (o : Op) → Prog Op' Res' (Res o)}
    (hg : ∀ o held, l.Permits held o →
      l'.Keeps ok' (g o) held fun r held' => ok ⟨o, r⟩ ∧ held' = l.next held ⟨o, r⟩)
    (hp : l.Keeps ok p held Q) : l'.Keeps ok' (p.subst g) held Q := by
  induction p generalizing held with
  | ret a => exact hp
  | call o k ih =>
    refine (hg o held hp.1).bind ?_
    rintro r _ ⟨hr, rfl⟩
    exact ih r (hp.2 r hr)

/-- A program calling only the system keeps the ledger of the connection, as it keeps that of
    the system. -/
theorem Keeps.lift {B P : Type} {R : P → Type} {l : Ledger P R K} {socket : K}
    {held : Multiset K} {ok : Conn.Event B P R → Prop} {Q : α → Multiset K → Prop}
    {p : Prog P R α} (hp : l.Keeps (fun ev => ok (Conn.ofSys ev)) p held Q) :
    (l.conn socket).Keeps ok (Conn.lift p) held Q :=
  hp.subst fun _ _ ho => ⟨ho, fun _ hr => ⟨hr, rfl⟩⟩

end Keeps

end Ledger

/-! ## Connections with fixed answers -/

section Answers

variable {B P : Type} {R : P → Type} (e : ConnEnv B R)

/-- The answers of the system are those of `e`. -/
def ConnEnv.Answers : Conn.Event B P R → Prop
  | ⟨.sys p, r⟩ => r = e.sys p
  | _ => True

theorem ConnEnv.answers_handler (o : ConnOp B P) (s : List B) :
    e.Answers ⟨o, (e.handler o s).1⟩ := by
  cases o <;> simp [Answers, handler]

/-- What a run of an end of a connection leaves. -/
theorem Ledger.Keeps.run_conn [DecidableEq K] {l : Ledger (ConnOp B P) (ConnOp.Res R) K}
    {p : Conn B P R α} {held : Multiset K} {Q : α → Multiset K → Prop}
    (hp : l.Keeps e.Answers p held Q) (s : List B) :
    ∃ held', l.Settles held (e.run p s).trace held' ∧ Q (e.run p s).val held' :=
  hp.run e.answers_handler s

end Answers
