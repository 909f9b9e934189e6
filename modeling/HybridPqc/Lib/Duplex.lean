import HybridPqc.Lib.Conn
import Mathlib.Logic.Relation
import Mathlib.Order.GameAdd

/-!
# Two programs on a reliable connection

The two ends of a connection, each running a program, exchange symbols through
two unbounded channels, in any interleaving. A transfer takes place in pieces:
a write moves any nonempty part of what is left to the channel, a read moves any
nonempty part of what is there and asked for. A read fails once the peer has
closed and the channel is empty; the ends do not fail otherwise, and use their
end of the connection no more after closing it.

Nothing of that choice is visible in the end (as for Kahn's process networks):

* steps of different ends commute, and two pieces of the same transfer are the
  beginnings of one another (`Step.diamond`), so that a system that *can* reach
  a state where nothing moves always can, whatever it has done
  (`reaches_of_reaches_stuck`), and reaches no other one;
* a system never moves forever (`acc_step`).

Hence a single run, e.g., one alternating between runs of the ends alone
(`ConnEnv.steps_run`), tells how all runs end.
-/

open Relation

variable {B P Q : Type} {R : P → Type} {S : Q → Type} {α β γ : Type}

/-! ## One end -/

/-- An end of a connection: what is left of its program, the symbols its current
    transfer has moved so far, whether it has closed, and what it has done. -/
@[ext]
structure End (B P : Type) (R : P → Type) (α : Type) where
  prog : Conn B P R α
  moved : List B := []
  closed : Bool := false
  trace : List (Conn.Event B P R) := []

namespace End

/-- A step of an end with the incoming symbols `i`, when its peer has closed or
    not: `Step env c e i e' i' w` leaves `i'` of `i`, and writes `w`. -/
inductive Step (env : Prog.Env P R) (c : Bool) :
    End B P R α → List B → End B P R α → List B → List B → Prop
  | write {bs} {k : Bool → Conn B P R α} {moved now later t i} :
      bs = moved ++ now ++ later → now ≠ [] →
      Step env c ⟨.call (.send bs) k, moved, false, t⟩ i
        ⟨.call (.send bs) k, moved ++ now, false, t⟩ i now
  | sent {bs} {k : Bool → Conn B P R α} {t i} :
      Step env c ⟨.call (.send bs) k, bs, false, t⟩ i
        ⟨k true, [], false, t ++ [⟨.send bs, true⟩]⟩ i []
  | sendClosed {bs} {k : Bool → Conn B P R α} {moved t i} :
      Step env c ⟨.call (.send bs) k, moved, true, t⟩ i
        ⟨k false, [], true, t ++ [⟨.send bs, false⟩]⟩ i []
  | read {n} {k : Option (List B) → Conn B P R α} {moved now t i i'} :
      i = now ++ i' → now ≠ [] → moved.length + now.length ≤ n →
      Step env c ⟨.call (.recv n) k, moved, false, t⟩ i
        ⟨.call (.recv n) k, moved ++ now, false, t⟩ i' []
  | received {n} {k : Option (List B) → Conn B P R α} {moved t i} : moved.length = n →
      Step env c ⟨.call (.recv n) k, moved, false, t⟩ i
        ⟨k (some moved), [], false, t ++ [⟨.recv n, some moved⟩]⟩ i []
  | eof {n} {k : Option (List B) → Conn B P R α} {moved t} : moved.length < n → c = true →
      Step env c ⟨.call (.recv n) k, moved, false, t⟩ []
        ⟨k none, [], false, t ++ [⟨.recv n, none⟩]⟩ [] []
  | recvClosed {n} {k : Option (List B) → Conn B P R α} {moved t i} :
      Step env c ⟨.call (.recv n) k, moved, true, t⟩ i
        ⟨k none, [], true, t ++ [⟨.recv n, none⟩]⟩ i []
  | close {k : Unit → Conn B P R α} {moved cl t i} :
      Step env c ⟨.call .close k, moved, cl, t⟩ i ⟨k (), [], true, t ++ [⟨.close, ()⟩]⟩ i []
  | sys {p} {k : R p → Conn B P R α} {moved cl t i} :
      Step env c ⟨.call (.sys p) k, moved, cl, t⟩ i
        ⟨k (env p), [], cl, t ++ [⟨.sys p, env p⟩]⟩ i []

/-- An end is blocked in a read: it waits for symbols, of which there are none. -/
def Blocked (e : End B P R α) (i : List B) : Prop :=
  ∃ n k, e.prog = .call (.recv n) k ∧ e.moved.length < n ∧ i = []

namespace Step

variable {env : Prog.Env P R} {c c' : Bool} {e e' e₁ e₂ : End B P R α}
  {i i' i₁ i₂ w w₁ w₂ : List B}

/-- An end only writes while it is open. -/
theorem closed_eq_false (h : Step env c e i e' i' w) (hw : w ≠ []) : e.closed = false := by
  cases h <;> first | rfl | exact absurd rfl hw

/-- A closed end stays closed. -/
theorem closed_of_closed (h : Step env c e i e' i' w) (hc : e.closed = true) :
    e'.closed = true := by
  cases h <;> first | exact hc | rfl

/-- More symbols coming in, unless the peer has closed, do not matter to a step;
    nor does the peer closing. -/
theorem frame (h : Step env c e i e' i' w) (hc : c = true → c' = true) {suf : List B}
    (hs : suf ≠ [] → c = false) : Step env c' e (i ++ suf) e' (i' ++ suf) w := by
  cases h with
  | write hb hn => exact .write hb hn
  | sent => exact .sent
  | sendClosed => exact .sendClosed
  | read hi hn hl => exact .read (by rw [hi, List.append_assoc]) hn hl
  | received hl => exact .received hl
  | eof hl hcl =>
    obtain rfl : suf = [] := by
      by_contra hne
      rw [hs hne] at hcl
      exact Bool.false_ne_true hcl
    exact .eof hl (hc hcl)
  | recvClosed => exact .recvClosed
  | close => exact .close
  | sys => exact .sys

/-- Two pieces of the same list are the beginnings of one another. -/
theorem pieces {x₁ x₂ y₁ y₂ : List B} (h : x₁ ++ y₁ = x₂ ++ y₂) :
    x₁ = x₂ ∨ (∃ z, z ≠ [] ∧ x₂ = x₁ ++ z ∧ y₁ = z ++ y₂) ∨
      ∃ z, z ≠ [] ∧ x₁ = x₂ ++ z ∧ y₂ = z ++ y₁ := by
  rcases List.append_eq_append_iff.1 h with ⟨z, hx, hy⟩ | ⟨z, hx, hy⟩
  · rcases eq_or_ne z [] with rfl | hz
    · exact .inl (by simpa using hx.symm)
    · exact .inr (.inl ⟨z, hz, hx, hy⟩)
  · rcases eq_or_ne z [] with rfl | hz
    · exact .inl (by simpa using hx)
    · exact .inr (.inr ⟨z, hz, hx, hy⟩)

/-- A finished transfer has no piece left. -/
theorem eq_nil_of_finished {x y z : List B} (h : x = x ++ y ++ z) : y = [] := by
  have := congrArg List.length h
  simp only [List.length_append] at this
  exact List.eq_nil_of_length_eq_zero (by omega)

/-- Two steps of an end are the same, or one is the beginning of the other. -/
theorem diamond (h₁ : Step env c e i e₁ i₁ w₁) (h₂ : Step env c e i e₂ i₂ w₂) :
    (e₁ = e₂ ∧ i₁ = i₂ ∧ w₁ = w₂) ∨ (∃ w, Step env c e₁ i₁ e₂ i₂ w ∧ w₂ = w₁ ++ w) ∨
      ∃ w, Step env c e₂ i₂ e₁ i₁ w ∧ w₁ = w₂ ++ w := by
  cases h₁ with
  | @write bs _ moved _ later _ _ hb hn =>
    cases h₂ with
    | @write _ _ _ _ later₂ _ _ hb₂ hn₂ =>
      -- two pieces of one message: the shorter one begins the longer one
      have h : w₁ ++ later = w₂ ++ later₂ := by
        rw [hb, List.append_assoc, List.append_assoc] at hb₂
        exact List.append_cancel_left hb₂
      rcases pieces h with rfl | ⟨z, hz, rfl, rfl⟩ | ⟨z, hz, rfl, rfl⟩
      · exact .inl ⟨rfl, rfl, rfl⟩
      · have hb' : bs = moved ++ w₁ ++ z ++ later₂ := by simpa using hb
        refine .inr (.inl ⟨z, ?_, rfl⟩)
        rw [← List.append_assoc]
        exact .write hb' hz
      · have hb' : bs = moved ++ w₂ ++ z ++ later := by simpa using hb₂
        refine .inr (.inr ⟨z, ?_, rfl⟩)
        rw [← List.append_assoc]
        exact .write hb' hz
    | sent => exact absurd (eq_nil_of_finished hb) hn
  | sent =>
    cases h₂ with
    | write hb hn => exact absurd (eq_nil_of_finished hb) hn
    | sent => exact .inl ⟨rfl, rfl, rfl⟩
  | @read n k moved now t _ _ hi hn hl =>
    cases h₂ with
    | @read _ _ _ now₂ _ _ _ hi₂ hn₂ hl₂ =>
      -- two pieces of one stream, likewise
      rcases pieces (hi.symm.trans hi₂) with rfl | ⟨z, hz, rfl, rfl⟩ | ⟨z, hz, rfl, rfl⟩
      · exact .inl ⟨rfl, List.append_cancel_left (hi.symm.trans hi₂), rfl⟩
      · refine .inr (.inl ⟨[], ?_, rfl⟩)
        rw [← List.append_assoc]
        exact .read rfl hz (by simpa [Nat.add_assoc] using hl₂)
      · refine .inr (.inr ⟨[], ?_, rfl⟩)
        rw [← List.append_assoc]
        exact .read rfl hz (by simpa [Nat.add_assoc] using hl)
    | received hl₂ =>
      have := List.length_pos_iff.2 hn
      omega
    | eof => exact absurd (List.append_eq_nil_iff.1 hi.symm).1 hn
  | received hl =>
    cases h₂ with
    | read _ hn hl₂ =>
      have := List.length_pos_iff.2 hn
      omega
    | received => exact .inl ⟨rfl, rfl, rfl⟩
    | eof hl₂ => omega
  | eof hl hc =>
    cases h₂ with
    | read hi hn => exact absurd (List.append_eq_nil_iff.1 hi.symm).1 hn
    | received hl₂ => omega
    | eof => exact .inl ⟨rfl, rfl, rfl⟩
  | sendClosed => cases h₂; exact .inl ⟨rfl, rfl, rfl⟩
  | recvClosed => cases h₂; exact .inl ⟨rfl, rfl, rfl⟩
  | close => cases h₂; exact .inl ⟨rfl, rfl, rfl⟩
  | sys => cases h₂; exact .inl ⟨rfl, rfl, rfl⟩

end Step

/-- A step of an end, whatever its peer does. -/
def Moves (env : Prog.Env P R) (e' e : End B P R α) : Prop :=
  ∃ c i i' w, Step env c e i e' i' w

/-- An end does not step forever: by induction on its program, and, within a
    transfer, on what is left of it. -/
theorem acc_moves (env : Prog.Env P R) (p : Conn B P R α) (moved : List B) (cl : Bool)
    (t : List (Conn.Event B P R)) : Acc (Moves env) ⟨p, moved, cl, t⟩ := by
  induction p generalizing moved cl t with
  | ret a => exact ⟨_, fun _ ⟨_, _, _, _, h⟩ => nomatch h⟩
  | call o k ih =>
    cases o with
    | recv n =>
      generalize hl : n - moved.length = l
      induction l using Nat.strong_induction_on generalizing moved cl t with
      | _ l ihl =>
        refine ⟨_, fun e' ⟨c, i, i', w, h⟩ => ?_⟩
        cases h with
        | @read _ _ _ now _ _ _ _ hn hle =>
          have := List.length_pos_iff.2 hn
          exact ihl (n - (moved ++ now).length) (by rw [List.length_append]; omega) _ _ _ rfl
        | _ => exact ih ..
    | send bs =>
      generalize hl : bs.length - moved.length = l
      induction l using Nat.strong_induction_on generalizing moved cl t with
      | _ l ihl =>
        refine ⟨_, fun e' ⟨c, i, i', w, h⟩ => ?_⟩
        cases h with
        | write hb hn =>
          have := List.length_pos_iff.2 hn
          have hle := congrArg List.length hb
          simp only [List.length_append] at hle
          exact ihl (bs.length - (moved ++ w).length)
            (by rw [List.length_append]; omega) _ _ _ rfl
        | _ => exact ih ..
    | close => exact ⟨_, fun _ ⟨_, _, _, _, h⟩ => by cases h; exact ih ..⟩
    | sys p => exact ⟨_, fun _ ⟨_, _, _, _, h⟩ => by cases h; exact ih ..⟩

end End

/-! ## Both ends -/

/-- The state of both ends, with the symbols on their way. -/
@[ext]
structure Duplex (B P Q : Type) (R : P → Type) (S : Q → Type) (α β : Type) where
  left : End B P R α
  right : End B Q S β
  toRight : List B := []
  toLeft : List B := []

namespace Duplex

section Steps

variable (envL : Prog.Env P R) (envR : Prog.Env Q S)

/-- A step of one of the ends. -/
inductive Step : Duplex B P Q R S α β → Duplex B P Q R S α β → Prop
  | left {l r l' w} {o i i' : List B} : End.Step envL r.closed l i l' i' w →
      Step ⟨l, r, o, i⟩ ⟨l', r, o ++ w, i'⟩
  | right {l r r' w} {o i o' : List B} : End.Step envR l.closed r o r' o' w →
      Step ⟨l, r, o, i⟩ ⟨l, r', o', i ++ w⟩

/-- The states reached. -/
abbrev Reaches : Duplex B P Q R S α β → Duplex B P Q R S α β → Prop :=
  ReflTransGen (Step envL envR)

/-- Both ends are blocked in a read, waiting for one another. -/
def Deadlock (s : Duplex B P Q R S α β) : Prop :=
  s.left.Blocked s.toLeft ∧ s.right.Blocked s.toRight ∧
    s.left.closed = false ∧ s.right.closed = false

variable {envL envR} {s t t₁ t₂ f : Duplex B P Q R S α β}

/-- Two steps of the system lead to states from which steps lead to the same one. -/
theorem Step.diamond (h₁ : Step envL envR s t₁) (h₂ : Step envL envR s t₂) :
    ∃ u, ReflGen (Step envL envR) t₁ u ∧ ReflGen (Step envL envR) t₂ u := by
  -- Steps of different ends: each end steps as before, in the channels as the
  -- other one leaves them.
  have cross : ∀ {l l' : End B P R α} {r r' : End B Q S β} {o i o' i' w w' : List B},
      End.Step envL r.closed l i l' i' w → End.Step envR l.closed r o r' o' w' →
      Step envL envR ⟨l', r, o ++ w, i'⟩ ⟨l', r', o' ++ w, i' ++ w'⟩ ∧
        Step envL envR ⟨l, r', o', i ++ w'⟩ ⟨l', r', o' ++ w, i' ++ w'⟩ :=
    fun hl hr => ⟨.right (hr.frame hl.closed_of_closed hl.closed_eq_false),
      .left (hl.frame hr.closed_of_closed hr.closed_eq_false)⟩
  cases h₁ with
  | left hl =>
    cases h₂ with
    | left hl₂ =>
      rcases hl.diamond hl₂ with ⟨rfl, rfl, rfl⟩ | ⟨w, h, rfl⟩ | ⟨w, h, rfl⟩
      · exact ⟨_, .refl, .refl⟩
      · exact ⟨_, .single (List.append_assoc .. ▸ Step.left h), .refl⟩
      · exact ⟨_, .refl, .single (List.append_assoc .. ▸ Step.left h)⟩
    | right hr => exact ⟨_, .single (cross hl hr).1, .single (cross hl hr).2⟩
  | right hr =>
    cases h₂ with
    | left hl => exact ⟨_, .single (cross hl hr).2, .single (cross hl hr).1⟩
    | right hr₂ =>
      rcases hr.diamond hr₂ with ⟨rfl, rfl, rfl⟩ | ⟨w, h, rfl⟩ | ⟨w, h, rfl⟩
      · exact ⟨_, .refl, .refl⟩
      · exact ⟨_, .single (List.append_assoc .. ▸ Step.right h), .refl⟩
      · exact ⟨_, .refl, .single (List.append_assoc .. ▸ Step.right h)⟩

/-- A system that can reach a state where nothing moves can do so from wherever
    it gets. -/
theorem reaches_of_reaches_stuck (hf : Reaches envL envR s f)
    (hstuck : ∀ u, ¬Step envL envR f u) (ht : Reaches envL envR s t) :
    Reaches envL envR t f := by
  obtain ⟨u, hu, hfu⟩ := church_rosser (fun _ _ _ h₁ h₂ =>
    (h₁.diamond h₂).imp fun _ h => ⟨h.1, h.2.to_reflTransGen⟩) ht hf
  rcases ReflTransGen.cases_head hfu with rfl | ⟨v, hv, _⟩
  · exact hu
  · exact absurd hv (hstuck v)

/-- A system that can reach a state where nothing moves reaches no other one. -/
theorem eq_of_stuck (hf : Reaches envL envR s f) (hstuck : ∀ u, ¬Step envL envR f u)
    (ht : Reaches envL envR s t) (hts : ∀ u, ¬Step envL envR t u) : t = f := by
  rcases ReflTransGen.cases_head (reaches_of_reaches_stuck hf hstuck ht) with rfl | ⟨v, hv, _⟩
  · rfl
  · exact absurd hv (hts v)

/-- A system does not step forever. -/
theorem acc_step (s : Duplex B P Q R S α β) : Acc (fun t s => Step envL envR s t) s := by
  have hl := End.acc_moves envL s.left.prog s.left.moved s.left.closed s.left.trace
  have hr := End.acc_moves envR s.right.prog s.right.moved s.right.closed s.right.trace
  refine Subrelation.accessible (fun {t s} h => ?_)
    (InvImage.accessible (fun s : Duplex B P Q R S α β => (s.left, s.right))
      (Acc.prod_gameAdd hl hr))
  cases h with
  | left h => exact .fst ⟨_, _, _, _, h⟩
  | right h => exact .snd ⟨_, _, _, _, h⟩

/-- Ends that have returned step no more. -/
theorem not_step_of_ret {a : α} {b : β} (hl : s.left.prog = .ret a) (hr : s.right.prog = .ret b)
    (u : Duplex B P Q R S α β) : ¬Step envL envR s u := by
  rintro (h | h)
  · cases h <;> simp at hl
  · cases h <;> simp at hr

/-- Nothing moves in a deadlock. -/
theorem not_step_of_deadlock (h : t.Deadlock) (u : Duplex B P Q R S α β) :
    ¬Step envL envR t u := by
  obtain ⟨⟨n, k, hl, hm, hi⟩, ⟨n', k', hr, hm', hi'⟩, hcl, hcr⟩ := h
  rintro (h | h)
  · cases h <;> simp_all
  · cases h <;> simp_all

/-- A system that can reach a state where both ends have returned never
    deadlocks. -/
theorem not_deadlock {a : α} {b : β} (hf : Reaches envL envR s f) (hl : f.left.prog = .ret a)
    (hr : f.right.prog = .ret b) (ht : Reaches envL envR s t) : ¬t.Deadlock := fun h => by
  have := eq_of_stuck hf (not_step_of_ret hl hr) ht (not_step_of_deadlock h)
  obtain ⟨⟨n, k, hp, _⟩, _⟩ := h
  rw [this, hl] at hp
  cases hp

end Steps

end Duplex

/-! ## Running one end alone -/

namespace End

variable (env : Prog.Env P R)

/-- The steps of an end alone, its peer doing nothing, with the incoming and the
    outgoing symbols. -/
inductive Steps (c : Bool) :
    End B P R α → List B → List B → End B P R α → List B → List B → Prop
  | refl {e i o} : Steps c e i o e i o
  | head {e e' e'' i i' i'' o o'' w} : Step env c e i e' i' w →
      Steps c e' i' (o ++ w) e'' i'' o'' → Steps c e i o e'' i'' o''

variable {env} {c : Bool}

/-- A step writing nothing. -/
theorem Steps.silent {e e' : End B P R α} {i i' o : List B} (h : Step env c e i e' i' []) :
    Steps env c e i o e' i' o :=
  .head h (by rw [List.append_nil]; exact .refl)

theorem Steps.trans {e e' e'' : End B P R α} {i i' i'' o o' o'' : List B}
    (h : Steps env c e i o e' i' o') (h' : Steps env c e' i' o' e'' i'' o'') :
    Steps env c e i o e'' i'' o'' := by
  induction h with
  | refl => exact h'
  | head hs _ ih => exact .head hs (ih h')

/-- A read of what is there, in at most one piece. -/
theorem Steps.recv {n : ℕ} {k : Option (List B) → Conn B P R α} {i o : List B}
    {t : List (Conn.Event B P R)} (hn : n ≤ i.length) :
    Steps env c ⟨.call (.recv n) k, [], false, t⟩ i o
      ⟨k (some (i.take n)), [], false, t ++ [⟨.recv n, some (i.take n)⟩]⟩ (i.drop n) o := by
  have hl : (i.take n).length = n := by simpa using hn
  by_cases h0 : i.take n = []
  · rw [h0] at hl ⊢
    have hd : i.drop n = i := by
      have := List.take_append_drop n i
      rwa [h0, List.nil_append] at this
    rw [hd]
    exact .silent (.received hl)
  · have hle : ([] : List B).length + (i.take n).length ≤ n := by simp
    exact (Steps.silent (.read (List.take_append_drop n i).symm h0 hle)).trans
      (.silent (.received hl))

/-- A write, in at most one piece. -/
theorem Steps.send {bs : List B} {k : Bool → Conn B P R α} {i o : List B}
    {t : List (Conn.Event B P R)} :
    Steps env c ⟨.call (.send bs) k, [], false, t⟩ i o
      ⟨k true, [], false, t ++ [⟨.send bs, true⟩]⟩ i (o ++ bs) := by
  have hlast : Steps env c ⟨.call (.send bs) k, bs, false, t⟩ i (o ++ bs)
      ⟨k true, [], false, t ++ [⟨.send bs, true⟩]⟩ i (o ++ bs) := .silent .sent
  by_cases h0 : bs = []
  · subst h0
    rwa [List.append_nil] at hlast ⊢
  · have hbs : bs = [] ++ bs ++ [] := by simp
    exact .head (.write hbs h0) hlast

/-- The run of an end of a connection that does not close it, and whose reads all
    succeed, as steps of that end. -/
theorem steps_run (p : Conn B P R α) (k : α → Conn B P R β) (i o : List B)
    (t : List (Conn.Event B P R))
    (hr : ∀ r ∈ Conn.received ((ConnEnv.reliable env).run p i).trace, r.2.isSome)
    (hc : ∀ ev ∈ ((ConnEnv.reliable env).run p i).trace, ev.1 ≠ .close) :
    Steps env c ⟨p >>= k, [], false, t⟩ i o
      ⟨k ((ConnEnv.reliable env).run p i).val, [], false,
        t ++ ((ConnEnv.reliable env).run p i).trace⟩
      ((ConnEnv.reliable env).run p i).world
      (o ++ (Conn.sent ((ConnEnv.reliable env).run p i).trace).flatten) := by
  induction p generalizing i o t with
  | ret a => simpa using .refl
  | call op k' ih =>
    cases op with
    | recv n =>
      by_cases hn : n ≤ i.length
      · rw [ConnEnv.run_call_recv _ _ hn] at hr hc ⊢
        have := ih _ (i.drop n) o (t ++ [⟨.recv n, some (i.take n)⟩])
          (fun r h => hr r (List.mem_cons_of_mem _ h)) fun ev h => hc ev (List.mem_cons_of_mem _ h)
        rw [List.append_assoc] at this
        exact (Steps.recv hn).trans this
      · rw [ConnEnv.run_call_recv_eof _ _ hn] at hr
        exact absurd (hr _ List.mem_cons_self) Bool.false_ne_true
    | send bs =>
      have := ih true i (o ++ bs) (t ++ [⟨.send bs, true⟩]) hr
        fun ev h => hc ev (List.mem_cons_of_mem _ h)
      rw [List.append_assoc, List.append_assoc] at this
      exact Steps.send.trans this
    | close => exact absurd rfl (hc _ List.mem_cons_self)
    | sys p =>
      have := ih (env p) i o (t ++ [⟨.sys p, env p⟩]) hr
        fun ev h => hc ev (List.mem_cons_of_mem _ h)
      rw [List.append_assoc] at this
      exact (Steps.silent .sys).trans this

/-- The program `p` of an open end, alone with the incoming symbols `i` and the outgoing
    ones `o`, gets to `p'`, whatever its peer does, its reads being `reads`. -/
def Runs (env : Prog.Env P R) (p : Conn B P R α) (i o : List B) (reads : List (ℕ × Option (List B)))
    (p' : Conn B P R α) (i' o' : List B) : Prop :=
  ∀ c t, ∃ t', Conn.received t' = reads ∧
    Steps env c ⟨p, [], false, t⟩ i o ⟨p', [], false, t ++ t'⟩ i' o'

theorem Runs.refl {p : Conn B P R α} {i o : List B} : Runs env p i o [] p i o := fun _ _ =>
  ⟨[], rfl, by rw [List.append_nil]; exact .refl⟩

theorem Runs.trans {p p' p'' : Conn B P R α} {i i' i'' o o' o'' : List B}
    {reads reads' : List (ℕ × Option (List B))} (h : Runs env p i o reads p' i' o')
    (h' : Runs env p' i' o' reads' p'' i'' o'') : Runs env p i o (reads ++ reads') p'' i'' o'' := by
  intro c t
  obtain ⟨t₁, ht₁, h₁⟩ := h c t
  obtain ⟨t₂, ht₂, h₂⟩ := h' c (t ++ t₁)
  refine ⟨t₁ ++ t₂, by rw [Conn.received_append, ht₁, ht₂], h₁.trans ?_⟩
  rwa [List.append_assoc] at h₂

/-- What a run of an end alone shows is what it does with a peer. -/
theorem runs_obs (p : Conn B P R α) (k : α → Conn B P R β) (i o : List B)
    (hr : Obs.AllRead ((ConnEnv.reliable env).obs i p).received)
    (hc : ((ConnEnv.reliable env).obs i p).closed = false) :
    Runs env (p >>= k) i o ((ConnEnv.reliable env).obs i p).received
      (k ((ConnEnv.reliable env).obs i p).val) ((ConnEnv.reliable env).obs i p).rest
      (o ++ ((ConnEnv.reliable env).obs i p).sent.flatten) :=
  fun _ t => ⟨_, rfl, steps_run p k i o t hr (Conn.ne_close_of_closes hc)⟩

/-- The same, given what it shows. -/
theorem Runs.of_obs {p : Conn B P R α} {k : α → Conn B P R β} {a : α} {i rest o o' : List B}
    {reads : List (ℕ × Option (List B))} {sent : List (List B)}
    (h : (ConnEnv.reliable env).obs i p = ⟨a, rest, reads, sent, false⟩) (hr : Obs.AllRead reads)
    (ho : o ++ sent.flatten = o') : Runs env (p >>= k) i o reads (k a) rest o' := by
  have := runs_obs p k i o (by rwa [h]) (by rw [h])
  rwa [h, ho] at this

/-- The same, given what it shows but for a part of its value. -/
theorem Runs.of_obs_map {p : Conn B P R α} {f : α → γ} {c : γ} {i rest o o' : List B}
    {reads : List (ℕ × Option (List B))} {sent : List (List B)}
    (h : ((ConnEnv.reliable env).obs i p).map f = ⟨c, rest, reads, sent, false⟩)
    (hr : Obs.AllRead reads) (ho : o ++ sent.flatten = o') :
    ∃ a, f a = c ∧ ∀ k : α → Conn B P R β, Runs env (p >>= k) i o reads (k a) rest o' := by
  generalize hp : (ConnEnv.reliable env).obs i p = obs at h
  obtain ⟨a, rest', reads', sent', closed⟩ := obs
  cases h
  exact ⟨a, rfl, fun k => .of_obs hp hr ho⟩

/-- A call to the system. -/
theorem Runs.sys {op : P} {k : R op → Conn B P R β} {p' : Conn B P R β} {i i' o o' : List B}
    {reads : List (ℕ × Option (List B))} (h : Runs env (k (env op)) i o reads p' i' o') :
    Runs env (Conn.sys op >>= k) i o reads p' i' o' :=
  (Runs.of_obs (p := Conn.sys op) rfl Obs.allRead_nil (List.append_nil o)).trans h

/-- Calls to the system. -/
theorem Runs.lift {p : Prog P R α} {k : α → Conn B P R β} {p' : Conn B P R β} {i i' o o' : List B}
    {reads : List (ℕ × Option (List B))} (h : Runs env (k (p.eval env)) i o reads p' i' o') :
    Runs env (Conn.lift p >>= k) i o reads p' i' o' :=
  (Runs.of_obs (ConnEnv.obs_lift ..) Obs.allRead_nil (List.append_nil o)).trans h

/-- An end that closes and returns. -/
theorem Runs.close {p : Conn B P R α} {a : α} {i i' o o' : List B}
    {reads : List (ℕ × Option (List B))}
    (h : Runs env p i o reads (Conn.close >>= fun _ => .ret a) i' o') (c : Bool)
    (t : List (Conn.Event B P R)) :
    ∃ t', Conn.received t' = reads ∧
      Steps env c ⟨p, [], false, t⟩ i o ⟨.ret a, [], true, t ++ t'⟩ i' o' := by
  obtain ⟨t', ht', hsteps⟩ := h c t
  refine ⟨t' ++ [⟨.close, ()⟩], by simpa using ht', ?_⟩
  rw [← List.append_assoc]
  exact hsteps.trans (.silent .close)

end End

namespace Duplex

variable {envL : Prog.Env P R} {envR : Prog.Env Q S}

/-- The left end runs alone. -/
theorem reaches_left {l l' : End B P R α} {r : End B Q S β} {i i' o o' : List B}
    (h : l.Steps envL r.closed i o l' i' o') : Reaches envL envR ⟨l, r, o, i⟩ ⟨l', r, o', i'⟩ := by
  induction h with
  | refl => exact .refl
  | head hs _ ih => exact .head (.left hs) ih

/-- The right end runs alone. -/
theorem reaches_right {l : End B P R α} {r r' : End B Q S β} {i i' o o' : List B}
    (h : r.Steps envR l.closed i o r' i' o') : Reaches envL envR ⟨l, r, i, o⟩ ⟨l, r', i', o'⟩ := by
  induction h with
  | refl => exact .refl
  | head hs _ ih => exact .head (.right hs) ih

end Duplex
