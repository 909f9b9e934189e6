import HybridPqc.Lib.Prog
import Mathlib.Data.List.Basic

/-!
# Programs on a connection

The operations of one end of a connection: reading and writing exactly a number
of symbols, closing, and the calls to the rest of the system. A program calling
only the latter is lifted to one on the connection (`Conn.lift`).

Alone, an end of the connection reads a given input (`ConnEnv.handler`): a
read past its end fails, as after the peer has closed. The answers to the other
operations are fixed (`ConnEnv`).
-/

/-- The operations of an end of a connection exchanging symbols in `B`. -/
inductive ConnOp (B P : Type) : Type
  /-- Read exactly `n` symbols. -/
  | recv (n : ℕ)
  /-- Write all of `bs`. -/
  | send (bs : List B)
  /-- Close the connection. -/
  | close
  /-- Any other call to the system. -/
  | sys (p : P)

namespace ConnOp

variable {B P : Type}

/-- The answers to the operations: the symbols read, unless the read fails;
    whether the write succeeds. -/
@[reducible] def Res (R : P → Type) : ConnOp B P → Type
  | recv _ => Option (List B)
  | send _ => Bool
  | close => Unit
  | sys p => R p

end ConnOp

/-- A program of an end of a connection. -/
abbrev Conn (B P : Type) (R : P → Type) (α : Type) := Prog (ConnOp B P) (ConnOp.Res R) α

namespace Conn

variable {B P : Type} {R : P → Type} {α β : Type}

/-- An event of an end of a connection. -/
abbrev Event (B P : Type) (R : P → Type) := Prog.Event (ConnOp B P) (ConnOp.Res R)

def recv (n : ℕ) : Conn B P R (Option (List B)) := Prog.op (ConnOp.recv n)

def send (bs : List B) : Conn B P R Bool := Prog.op (ConnOp.send bs)

def close : Conn B P R Unit := Prog.op ConnOp.close

def sys (p : P) : Conn B P R (R p) := Prog.op (ConnOp.sys p)

@[simp] theorem recv_eq (n : ℕ) : (recv n : Conn B P R _) = .call (.recv n) .ret := rfl
@[simp] theorem send_eq (bs : List B) : (send bs : Conn B P R _) = .call (.send bs) .ret := rfl
@[simp] theorem close_eq : (close : Conn B P R _) = .call .close .ret := rfl
@[simp] theorem sys_eq (p : P) : (sys p : Conn B P R _) = .call (.sys p) .ret := rfl

/-- A program calling only the system, on the connection. -/
def lift (p : Prog P R α) : Conn B P R α := p.subst sys

instance : MonadLift (Prog P R) (Prog (ConnOp B P) (ConnOp.Res R)) := ⟨lift⟩

/-- An event of the system, on the connection. -/
def ofSys (ev : Prog.Event P R) : Event B P R := ⟨.sys ev.1, ev.2⟩

@[simp] theorem lift_ret (a : α) : (lift (.ret a) : Conn B P R α) = .ret a := rfl

@[simp] theorem lift_call (p : P) (k : R p → Prog P R α) :
    (lift (.call p k) : Conn B P R α) = .call (.sys p) fun r => lift (k r) := rfl

@[simp] theorem lift_bind (p : Prog P R α) (f : α → Prog P R β) :
    (lift (p >>= f) : Conn B P R β) = lift p >>= fun a => lift (f a) :=
  Prog.subst_bind _ p f

theorem monadLift_eq (p : Prog P R α) :
    (monadLift p : Prog (ConnOp B P) (ConnOp.Res R) α) = lift p := rfl

/-! ## Calls on all branches -/

/-- The calls to the system of a program, whatever the answers, satisfy `φ`. -/
def Only (φ : P → Prop) (p : Conn B P R α) : Prop :=
  Prog.All (fun | .sys q => φ q | _ => True) p

section Only

variable {φ : P → Prop}

@[simp] theorem only_ret (a : α) : Only φ (.ret a : Conn B P R α) := trivial

@[simp] theorem only_call_recv (n : ℕ) (k : Option (List B) → Conn B P R α) :
    Only φ (.call (.recv n) k) ↔ ∀ r, Only φ (k r) := by simp [Only]

@[simp] theorem only_call_send (bs : List B) (k : Bool → Conn B P R α) :
    Only φ (.call (.send bs) k) ↔ ∀ r, Only φ (k r) := by simp [Only]

@[simp] theorem only_call_close (k : Unit → Conn B P R α) :
    Only φ (.call .close k) ↔ Only φ (k ()) :=
  ⟨fun h => h.2 (), fun h => ⟨trivial, fun _ => h⟩⟩

@[simp] theorem only_call_sys (p : P) (k : R p → Conn B P R α) :
    Only φ (.call (.sys p) k) ↔ φ p ∧ ∀ r, Only φ (k r) := Iff.rfl

theorem Only.bind {p : Conn B P R α} {f : α → Conn B P R β} (hp : Only φ p)
    (hf : ∀ a, Only φ (f a)) : Only φ (p >>= f) := Prog.All.bind hp hf

theorem Only.mono {ψ : P → Prop} {p : Conn B P R α} (hp : Only φ p) (h : ∀ q, φ q → ψ q) :
    Only ψ p := Prog.All.mono hp fun o ho => by
  cases o with
  | sys q => exact h q ho
  | _ => trivial

@[simp] theorem only_ite {c : Prop} [Decidable c] (p q : Conn B P R α) :
    Only φ (if c then p else q) ↔ if c then Only φ p else Only φ q := Prog.all_ite p q

/-- A program calling only the system satisfies what all calls to the system do. -/
theorem all_lift {φ : ConnOp B P → Prop} {p : Prog P R α} (hφ : ∀ q, φ (.sys q)) :
    Prog.All φ (lift p : Conn B P R α) := by
  induction p with
  | ret a => trivial
  | call q k ih => exact ⟨hφ q, ih⟩

@[simp] theorem only_lift {p : Prog P R α} : Only φ (lift p : Conn B P R α) ↔ p.All φ := by
  induction p with
  | ret a => exact ⟨fun _ => trivial, fun _ => trivial⟩
  | call o k ih => exact and_congr_right fun _ => forall_congr' ih

end Only

/-! ## Observing a trace -/

/-- The reads of a trace: how much is asked for, and what is read. -/
def received (t : List (Event B P R)) : List (ℕ × Option (List B)) :=
  t.filterMap fun
    | ⟨.recv n, r⟩ => some (n, r)
    | _ => none

/-- The writes of a trace. -/
def sent (t : List (Event B P R)) : List (List B) :=
  t.filterMap fun
    | ⟨.send bs, _⟩ => some bs
    | _ => none

/-- The calls to the system of a trace. -/
def calls (t : List (Event B P R)) : List (Prog.Event P R) :=
  t.filterMap fun
    | ⟨.sys p, r⟩ => some ⟨p, r⟩
    | _ => none

/-- Whether the connection is closed in a trace. -/
def closes (t : List (Event B P R)) : Bool :=
  t.any fun
    | ⟨.close, _⟩ => true
    | _ => false

section Observe

variable (t t' : List (Event B P R))

@[simp] theorem closes_nil : closes ([] : List (Event B P R)) = false := rfl

@[simp] theorem closes_append : closes (t ++ t') = (closes t || closes t') := List.any_append

@[simp] theorem closes_recv (n : ℕ) (r : Option (List B)) :
    closes (⟨.recv n, r⟩ :: t) = closes t := rfl
@[simp] theorem closes_send (bs : List B) (r : Bool) :
    closes (⟨.send bs, r⟩ :: t) = closes t := rfl
@[simp] theorem closes_close (r : Unit) : closes (⟨.close, r⟩ :: t) = true := rfl
@[simp] theorem closes_sys (p : P) (r : R p) : closes (⟨.sys p, r⟩ :: t) = closes t := rfl

@[simp] theorem closes_map_ofSys (l : List (Prog.Event P R)) :
    closes (l.map ofSys : List (Event B P R)) = false := by
  induction l with
  | nil => rfl
  | cons _ _ ih => exact ih

theorem ne_close_of_closes {t : List (Event B P R)} (h : closes t = false) :
    ∀ ev ∈ t, ev.1 ≠ .close := by
  rintro ⟨o, r⟩ hev rfl
  have hcloses : closes t = true := List.any_eq_true.2 ⟨_, hev, rfl⟩
  rw [h] at hcloses
  cases hcloses

@[simp] theorem received_nil : received ([] : List (Event B P R)) = [] := rfl
@[simp] theorem sent_nil : sent ([] : List (Event B P R)) = [] := rfl
@[simp] theorem calls_nil : calls ([] : List (Event B P R)) = [] := rfl

@[simp] theorem received_append : received (t ++ t') = received t ++ received t' :=
  List.filterMap_append ..

@[simp] theorem sent_append : sent (t ++ t') = sent t ++ sent t' := List.filterMap_append ..

@[simp] theorem calls_append : calls (t ++ t') = calls t ++ calls t' := List.filterMap_append ..

@[simp] theorem received_recv (n : ℕ) (r : Option (List B)) :
    received (⟨.recv n, r⟩ :: t) = (n, r) :: received t := rfl
@[simp] theorem received_send (bs : List B) (r : Bool) :
    received (⟨.send bs, r⟩ :: t) = received t := rfl
@[simp] theorem received_close (r : Unit) : received (⟨.close, r⟩ :: t) = received t := rfl
@[simp] theorem received_sys (p : P) (r : R p) : received (⟨.sys p, r⟩ :: t) = received t := rfl

@[simp] theorem sent_recv (n : ℕ) (r : Option (List B)) :
    sent (⟨.recv n, r⟩ :: t) = sent t := rfl
@[simp] theorem sent_send (bs : List B) (r : Bool) :
    sent (⟨.send bs, r⟩ :: t) = bs :: sent t := rfl
@[simp] theorem sent_close (r : Unit) : sent (⟨.close, r⟩ :: t) = sent t := rfl
@[simp] theorem sent_sys (p : P) (r : R p) : sent (⟨.sys p, r⟩ :: t) = sent t := rfl

@[simp] theorem calls_recv (n : ℕ) (r : Option (List B)) :
    calls (⟨.recv n, r⟩ :: t) = calls t := rfl
@[simp] theorem calls_send (bs : List B) (r : Bool) :
    calls (⟨.send bs, r⟩ :: t) = calls t := rfl
@[simp] theorem calls_close (r : Unit) : calls (⟨.close, r⟩ :: t) = calls t := rfl
@[simp] theorem calls_sys (p : P) (r : R p) :
    calls (⟨.sys p, r⟩ :: t) = ⟨p, r⟩ :: calls t := rfl

@[simp] theorem received_map_ofSys (l : List (Prog.Event P R)) :
    received (l.map ofSys : List (Event B P R)) = [] := by
  induction l with
  | nil => rfl
  | cons _ _ ih => exact ih

@[simp] theorem sent_map_ofSys (l : List (Prog.Event P R)) :
    sent (l.map ofSys : List (Event B P R)) = [] := by
  induction l with
  | nil => rfl
  | cons _ _ ih => exact ih

@[simp] theorem calls_map_ofSys (l : List (Prog.Event P R)) :
    calls (l.map ofSys : List (Event B P R)) = l := by
  induction l with
  | nil => rfl
  | cons _ _ ih => exact congrArg (_ :: ·) ih

end Observe

end Conn

/-! ## An end of the connection alone -/

/-- The fixed answers to the operations other than reading. -/
structure ConnEnv (B : Type) {P : Type} (R : P → Type) where
  sys : Prog.Env P R
  send : List B → Bool

namespace ConnEnv

variable {B P : Type} {R : P → Type} {α : Type}

/-- Answers where writing never fails. -/
def reliable (env : Prog.Env P R) : ConnEnv B R := ⟨env, fun _ => true⟩

variable (e : ConnEnv B R)

/-- Reading from the input `s`: a read past its end consumes it, and fails. -/
def handler : Prog.Handler (ConnOp B P) (ConnOp.Res R) (List B)
  | .recv n, s => if n ≤ s.length then (some (s.take n), s.drop n) else (none, [])
  | .send bs, s => (e.send bs, s)
  | .close, s => ((), s)
  | .sys p, s => (e.sys p, s)

/-- The run of an end of the connection on the input `s`. -/
def run (p : Conn B P R α) (s : List B) :
    Prog.Run (ConnOp B P) (ConnOp.Res R) (List B) α :=
  Prog.run e.handler p s

section Run

variable (s : List B)

@[simp] theorem run_ret (a : α) : e.run (.ret a : Conn B P R α) s = ⟨a, s, []⟩ := rfl

@[simp] theorem run_bind {β : Type} (p : Conn B P R α) (f : α → Conn B P R β) :
    e.run (p >>= f) s =
      ⟨(e.run (f (e.run p s).val) (e.run p s).world).val,
        (e.run (f (e.run p s).val) (e.run p s).world).world,
        (e.run p s).trace ++ (e.run (f (e.run p s).val) (e.run p s).world).trace⟩ :=
  Prog.run_bind ..

@[simp] theorem run_ite {c : Prop} [Decidable c] (p q : Conn B P R α) :
    e.run (if c then p else q) s = if c then e.run p s else e.run q s :=
  apply_ite (e.run · s) c p q

theorem run_call_recv {n : ℕ} {k : Option (List B) → Conn B P R α} (hn : n ≤ s.length) :
    e.run (.call (.recv n) k) s =
      ⟨(e.run (k (some (s.take n))) (s.drop n)).val,
        (e.run (k (some (s.take n))) (s.drop n)).world,
        ⟨.recv n, some (s.take n)⟩ :: (e.run (k (some (s.take n))) (s.drop n)).trace⟩ := by
  simp [run, handler, hn]

theorem run_call_recv_eof {n : ℕ} {k : Option (List B) → Conn B P R α} (hn : ¬n ≤ s.length) :
    e.run (.call (.recv n) k) s =
      ⟨(e.run (k none) []).val, (e.run (k none) []).world,
        ⟨.recv n, none⟩ :: (e.run (k none) []).trace⟩ := by
  simp [run, handler, hn]

@[simp] theorem run_call_send (bs : List B) (k : Bool → Conn B P R α) :
    e.run (.call (.send bs) k) s =
      ⟨(e.run (k (e.send bs)) s).val, (e.run (k (e.send bs)) s).world,
        ⟨.send bs, e.send bs⟩ :: (e.run (k (e.send bs)) s).trace⟩ := rfl

@[simp] theorem run_call_close (k : Unit → Conn B P R α) :
    e.run (.call .close k) s =
      ⟨(e.run (k ()) s).val, (e.run (k ()) s).world, ⟨.close, ()⟩ :: (e.run (k ()) s).trace⟩ := rfl

@[simp] theorem run_call_sys (p : P) (k : R p → Conn B P R α) :
    e.run (.call (.sys p) k) s =
      ⟨(e.run (k (e.sys p)) s).val, (e.run (k (e.sys p)) s).world,
        ⟨.sys p, e.sys p⟩ :: (e.run (k (e.sys p)) s).trace⟩ := rfl

/-- A program calling only the system leaves the input. -/
@[simp] theorem run_lift (p : Prog P R α) :
    e.run (Conn.lift p) s = ⟨p.eval e.sys, s, (p.exec e.sys).trace.map Conn.ofSys⟩ := by
  induction p with
  | ret a => rfl
  | call o k ih =>
    rw [Conn.lift_call, run_call_sys, ih]
    rfl

end Run

end ConnEnv

/-! ## What a run shows -/

/-- What a run of an end of a connection shows: the value it returns, what it leaves
    of its input, its reads and its writes, and whether it has closed. -/
@[ext]
structure Obs (B α : Type) where
  val : α
  rest : List B
  received : List (ℕ × Option (List B)) := []
  sent : List (List B) := []
  closed : Bool := false

namespace Obs

variable {B α β γ : Type}

/-- No read has failed. -/
def AllRead (rs : List (ℕ × Option (List B))) : Prop := ∀ r ∈ rs, r.2.isSome

@[simp] theorem allRead_nil : AllRead ([] : List (ℕ × Option (List B))) := by simp [AllRead]

@[simp] theorem allRead_cons {r : ℕ × Option (List B)} {rs : List (ℕ × Option (List B))} :
    AllRead (r :: rs) ↔ r.2.isSome ∧ AllRead rs := by simp [AllRead]

@[simp] theorem allRead_append {rs rs' : List (ℕ × Option (List B))} :
    AllRead (rs ++ rs') ↔ AllRead rs ∧ AllRead rs' := by
  simp [AllRead, or_imp, forall_and]

/-- What is shown after a read. -/
def recvd (n : ℕ) (r : Option (List B)) (o : Obs B α) : Obs B α :=
  { o with received := (n, r) :: o.received }

/-- What is shown after a write. -/
def wrote (bs : List B) (o : Obs B α) : Obs B α := { o with sent := bs :: o.sent }

/-- What is shown after closing. -/
def shut (o : Obs B α) : Obs B α := { o with closed := true }

/-- What is shown after a part of a run that reads `rs` and writes `ws`. -/
def after (rs : List (ℕ × Option (List B))) (ws : List (List B)) (o : Obs B α) : Obs B α :=
  { o with received := rs ++ o.received, sent := ws ++ o.sent }

/-- What is shown, but for the value. -/
def map (f : α → β) (o : Obs B α) : Obs B β := { o with val := f o.val }

/-- What two parts of a run show. -/
def andThen (o : Obs B α) (f : α → List B → Obs B β) : Obs B β where
  val := (f o.val o.rest).val
  rest := (f o.val o.rest).rest
  received := o.received ++ (f o.val o.rest).received
  sent := o.sent ++ (f o.val o.rest).sent
  closed := o.closed || (f o.val o.rest).closed

section

variable (n : ℕ) (r : Option (List B)) (bs : List B) (o : Obs B α) (f : α → List B → Obs B β)

@[simp] theorem recvd_val : (o.recvd n r).val = o.val := rfl
@[simp] theorem recvd_rest : (o.recvd n r).rest = o.rest := rfl
@[simp] theorem recvd_received : (o.recvd n r).received = (n, r) :: o.received := rfl
@[simp] theorem recvd_sent : (o.recvd n r).sent = o.sent := rfl
@[simp] theorem recvd_closed : (o.recvd n r).closed = o.closed := rfl

@[simp] theorem wrote_val : (o.wrote bs).val = o.val := rfl
@[simp] theorem wrote_rest : (o.wrote bs).rest = o.rest := rfl
@[simp] theorem wrote_received : (o.wrote bs).received = o.received := rfl
@[simp] theorem wrote_sent : (o.wrote bs).sent = bs :: o.sent := rfl
@[simp] theorem wrote_closed : (o.wrote bs).closed = o.closed := rfl

@[simp] theorem shut_val : o.shut.val = o.val := rfl
@[simp] theorem shut_rest : o.shut.rest = o.rest := rfl
@[simp] theorem shut_received : o.shut.received = o.received := rfl
@[simp] theorem shut_sent : o.shut.sent = o.sent := rfl
@[simp] theorem shut_closed : o.shut.closed = true := rfl

@[simp] theorem after_val (rs : List (ℕ × Option (List B))) (ws : List (List B)) :
    (o.after rs ws).val = o.val := rfl
@[simp] theorem after_received (rs : List (ℕ × Option (List B))) (ws : List (List B)) :
    (o.after rs ws).received = rs ++ o.received := rfl
@[simp] theorem after_sent (rs : List (ℕ × Option (List B))) (ws : List (List B)) :
    (o.after rs ws).sent = ws ++ o.sent := rfl

@[simp] theorem andThen_val : (o.andThen f).val = (f o.val o.rest).val := rfl
@[simp] theorem andThen_rest : (o.andThen f).rest = (f o.val o.rest).rest := rfl
@[simp] theorem andThen_received :
    (o.andThen f).received = o.received ++ (f o.val o.rest).received := rfl
@[simp] theorem andThen_sent : (o.andThen f).sent = o.sent ++ (f o.val o.rest).sent := rfl
@[simp] theorem andThen_closed : (o.andThen f).closed = (o.closed || (f o.val o.rest).closed) := rfl

@[simp] theorem andThen_ret (g : α → β) :
    o.andThen (fun a s => ⟨g a, s, [], [], false⟩) = o.map g := by
  simp [andThen, map]

@[simp] theorem mk_andThen (a : α) (s : List B) :
    (⟨a, s, [], [], false⟩ : Obs B α).andThen f = f a s := rfl

@[simp] theorem recvd_andThen : (o.recvd n r).andThen f = (o.andThen f).recvd n r := rfl
@[simp] theorem wrote_andThen : (o.wrote bs).andThen f = (o.andThen f).wrote bs := rfl
@[simp] theorem shut_andThen : o.shut.andThen f = (o.andThen f).shut := rfl

end

end Obs

namespace ConnEnv

variable {B P : Type} {R : P → Type} {α β : Type} (e : ConnEnv B R) (s : List B)

/-- What the run of an end of the connection on the input `s` shows. -/
def obs (p : Conn B P R α) : Obs B α where
  val := (e.run p s).val
  rest := (e.run p s).world
  received := Conn.received (e.run p s).trace
  sent := Conn.sent (e.run p s).trace
  closed := Conn.closes (e.run p s).trace

@[simp] theorem obs_ret (a : α) : e.obs s (.ret a : Conn B P R α) = ⟨a, s, [], [], false⟩ := rfl

@[simp] theorem obs_bind (p : Conn B P R α) (f : α → Conn B P R β) :
    e.obs s (p >>= f) = (e.obs s p).andThen fun a s' => e.obs s' (f a) := by
  ext1 <;> simp [obs]

@[simp] theorem obs_ite {c : Prop} [Decidable c] (p q : Conn B P R α) :
    e.obs s (if c then p else q) = if c then e.obs s p else e.obs s q :=
  apply_ite (e.obs s) c p q

/-- A read: it is given what is there, or fails. -/
theorem obs_call_recv (n : ℕ) (k : Option (List B) → Conn B P R α) :
    e.obs s (.call (.recv n) k) =
      if n ≤ s.length then (e.obs (s.drop n) (k (some (s.take n)))).recvd n (some (s.take n))
      else (e.obs [] (k none)).recvd n none := by
  split
  · rename_i h
    ext1 <;> simp [obs, run_call_recv _ _ h]
  · rename_i h
    ext1 <;> simp [obs, run_call_recv_eof _ _ h]

/-- A read of what is there. -/
theorem obs_call_recv_append {n : ℕ} {k : Option (List B) → Conn B P R α} {x : List B}
    (hx : x.length = n) (y : List B) :
    e.obs (x ++ y) (.call (.recv n) k) = (e.obs y (k (some x))).recvd n (some x) := by
  subst hx
  rw [obs_call_recv, if_pos (by simp), List.take_left, List.drop_left]

@[simp] theorem obs_call_send (bs : List B) (k : Bool → Conn B P R α) :
    e.obs s (.call (.send bs) k) = (e.obs s (k (e.send bs))).wrote bs := rfl

@[simp] theorem obs_call_close (k : Unit → Conn B P R α) :
    e.obs s (.call .close k) = (e.obs s (k ())).shut := rfl

@[simp] theorem obs_call_sys (p : P) (k : R p → Conn B P R α) :
    e.obs s (.call (.sys p) k) = e.obs s (k (e.sys p)) := rfl

@[simp] theorem obs_lift (p : Prog P R α) :
    e.obs s (Conn.lift p) = ⟨p.eval e.sys, s, [], [], false⟩ := by
  ext1 <;> simp [obs]

/-- A match on the outcome of a part of a program. -/
@[simp] theorem obs_optionMatch {γ : Type} (o : Option γ) (p : Conn B P R α)
    (q : γ → Conn B P R α) :
    e.obs s (match o with | none => p | some c => q c) =
      match o with | none => e.obs s p | some c => e.obs s (q c) := by
  cases o <;> rfl

/-! ### Properties of what is returned -/

/-- Whatever the input, what is returned satisfies `φ`. -/
def Yields (p : Conn B P R α) (φ : α → Prop) : Prop := ∀ s, φ (e.obs s p).val

section Yields

variable {e} {φ : β → Prop}

theorem yields_ret {b : β} (h : φ b) : e.Yields (.ret b : Conn B P R β) φ := fun _ => h

theorem yields_bind {p : Conn B P R α} {f : α → Conn B P R β} (h : ∀ a, e.Yields (f a) φ) :
    e.Yields (p >>= f) φ := fun s => by
  rw [obs_bind, Obs.andThen_val]
  exact h _ _

/-- What comes after calls to the system is only asked for their outcome. -/
theorem yields_lift_bind {p : Prog P R α} {f : α → Conn B P R β}
    (h : e.Yields (f (p.eval e.sys)) φ) : e.Yields (Conn.lift p >>= f) φ := fun s => by
  rw [obs_bind, obs_lift]
  exact h s

end Yields

/-! ### Calls to the system -/

/-- The calls to the system of the run of an end of the connection on the input `s`. -/
def calls (p : Conn B P R α) : List (Prog.Event P R) := Conn.calls (e.run p s).trace

section Calls

@[simp] theorem calls_ret (a : α) : e.calls s (.ret a : Conn B P R α) = [] := rfl

@[simp] theorem calls_bind (p : Conn B P R α) (f : α → Conn B P R β) :
    e.calls s (p >>= f) = e.calls s p ++ e.calls (e.obs s p).rest (f (e.obs s p).val) := by
  simp [calls, obs]

@[simp] theorem calls_ite {c : Prop} [Decidable c] (p q : Conn B P R α) :
    e.calls s (if c then p else q) = if c then e.calls s p else e.calls s q :=
  apply_ite (e.calls s) c p q

@[simp] theorem calls_call_send (bs : List B) (k : Bool → Conn B P R α) :
    e.calls s (.call (.send bs) k) = e.calls s (k (e.send bs)) := rfl

@[simp] theorem calls_call_close (k : Unit → Conn B P R α) :
    e.calls s (.call .close k) = e.calls s (k ()) := rfl

@[simp] theorem calls_call_sys (p : P) (k : R p → Conn B P R α) :
    e.calls s (.call (.sys p) k) = ⟨p, e.sys p⟩ :: e.calls s (k (e.sys p)) := rfl

@[simp] theorem calls_lift (p : Prog P R α) : e.calls s (Conn.lift p) = (p.exec e.sys).trace := by
  simp [calls]

/-- A call is made in the run of an end of the connection on the input `s`. -/
def Called (p : Conn B P R α) (q : P) : Prop := ∃ ev ∈ e.calls s p, ev.1 = q

variable {q : P}

@[simp] theorem not_called_ret (a : α) : ¬e.Called s (.ret a : Conn B P R α) q := by simp [Called]

@[simp] theorem called_bind (p : Conn B P R α) (f : α → Conn B P R β) :
    e.Called s (p >>= f) q ↔
      e.Called s p q ∨ e.Called (e.obs s p).rest (f (e.obs s p).val) q := by
  simp [Called, or_and_right, exists_or]

@[simp] theorem called_call_send (bs : List B) (k : Bool → Conn B P R α) :
    e.Called s (.call (.send bs) k) q ↔ e.Called s (k (e.send bs)) q := Iff.rfl

@[simp] theorem called_call_close (k : Unit → Conn B P R α) :
    e.Called s (.call .close k) q ↔ e.Called s (k ()) q := Iff.rfl

@[simp] theorem called_call_sys (p : P) (k : R p → Conn B P R α) :
    e.Called s (.call (.sys p) k) q ↔ p = q ∨ e.Called s (k (e.sys p)) q := by
  simp [Called]

@[simp] theorem called_ite {c : Prop} [Decidable c] (p p' : Conn B P R α) :
    e.Called s (if c then p else p') q ↔ if c then e.Called s p q else e.Called s p' q := by
  split <;> rfl

@[simp] theorem called_lift (p : Prog P R α) : e.Called s (Conn.lift p) q ↔ p.Called e.sys q := by
  rw [Called, calls_lift, Prog.Called]

/-- The calls of a run are among those of the program. -/
theorem Called.of_only {φ : P → Prop} {p : Conn B P R α} (h : e.Called s p q)
    (hp : Conn.Only φ p) : φ q := by
  obtain ⟨⟨q, r⟩, hev, rfl⟩ := h
  obtain ⟨⟨o, r'⟩, hmem, heq⟩ := List.mem_filterMap.1 hev
  have ho := Prog.all_run hp e.handler s _ hmem
  cases o with
  | sys p =>
    cases heq
    exact ho
  | _ => cases heq

end Calls

end ConnEnv

/-! ## Connections, one after the other -/

/-- The world of an end of a connection: the answers to its operations, what is left
    of its input, and what it has written. -/
structure ConnWorld (B : Type) {P : Type} (R : P → Type) where
  env : ConnEnv B R
  input : List B
  sent : List (List B)

/-- What an operation writes. -/
def ConnOp.writes {B P : Type} : ConnOp B P → List (List B)
  | .send bs => [bs]
  | _ => []

namespace ConnWorld

variable {B P : Type} {R : P → Type} {α : Type}

/-- The answers to an end of a connection, from its world. -/
def handler : Prog.Handler (ConnOp B P) (ConnOp.Res R) (ConnWorld B R) := fun o w =>
  ((w.env.handler o w.input).1,
    ⟨w.env, (w.env.handler o w.input).2, w.sent ++ o.writes⟩)

/-- The run of an end of a connection, in its world. -/
theorem run_eq (p : Conn B P R α) (w : ConnWorld B R) :
    Prog.run handler p w = ⟨(w.env.obs w.input p).val,
      ⟨w.env, (w.env.obs w.input p).rest, w.sent ++ (w.env.obs w.input p).sent⟩,
      (w.env.run p w.input).trace⟩ := by
  induction p generalizing w with
  | ret a => simp
  | call o k ih =>
    rw [Prog.run_call, ih]
    cases o <;> simp [handler, ConnOp.writes, ConnEnv.obs, ConnEnv.run]

/-- The answers to the operations stay. -/
theorem env_run (p : Conn B P R α) (w : ConnWorld B R) : (Prog.run handler p w).world.env = w.env := by
  rw [run_eq]

end ConnWorld
