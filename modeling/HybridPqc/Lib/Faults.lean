import HybridPqc.Lib.Duplex

/-!
# Two programs on a connection that fails

The two ends of a connection, where any call may fail: a write, after any part of it, a
read, before it is finished, and the rest of the system, which may answer anything. A
predicate `ok` tells which answers an end gets.

Each end is looked at alone, with all the symbols it has taken and put on the
connection: what an end takes is the beginning of what the other one has put
(`Duplex.Faults.runs`). Hence the ends only wait for one another if each, alone,
can get to waiting for more than what the other puts (`End.Stalls`, `not_deadlock_of_stalls`).
-/

open Relation

variable {B P Q : Type} {R : P → Type} {S : Q → Type} {α β : Type}

namespace End

/-- A step of an end that takes the symbols `i` and puts `o`. -/
inductive Fault (ok : Conn.Event B P R → Prop) :
    End B P R α → List B → List B → End B P R α → Prop
  | write {bs} {k : Bool → Conn B P R α} {moved now later t} :
      bs = moved ++ now ++ later → now ≠ [] →
      Fault ok ⟨.call (.send bs) k, moved, false, t⟩ [] now
        ⟨.call (.send bs) k, moved ++ now, false, t⟩
  | sent {bs} {k : Bool → Conn B P R α} {t} :
      Fault ok ⟨.call (.send bs) k, bs, false, t⟩ [] []
        ⟨k true, [], false, t ++ [⟨.send bs, true⟩]⟩
  | sendFails {bs} {k : Bool → Conn B P R α} {moved cl t} : cl = true ∨ ok ⟨.send bs, false⟩ →
      Fault ok ⟨.call (.send bs) k, moved, cl, t⟩ [] []
        ⟨k false, [], cl, t ++ [⟨.send bs, false⟩]⟩
  | read {n} {k : Option (List B) → Conn B P R α} {moved now t} :
      now ≠ [] → moved.length + now.length ≤ n →
      Fault ok ⟨.call (.recv n) k, moved, false, t⟩ now []
        ⟨.call (.recv n) k, moved ++ now, false, t⟩
  | received {n} {k : Option (List B) → Conn B P R α} {moved t} : moved.length = n →
      Fault ok ⟨.call (.recv n) k, moved, false, t⟩ [] []
        ⟨k (some moved), [], false, t ++ [⟨.recv n, some moved⟩]⟩
  | recvFails {n} {k : Option (List B) → Conn B P R α} {moved cl t} :
      cl = true ∨ moved.length < n →
      Fault ok ⟨.call (.recv n) k, moved, cl, t⟩ [] []
        ⟨k none, [], cl, t ++ [⟨.recv n, none⟩]⟩
  | close {k : Unit → Conn B P R α} {moved cl t} :
      Fault ok ⟨.call .close k, moved, cl, t⟩ [] [] ⟨k (), [], true, t ++ [⟨.close, ()⟩]⟩
  | sys {p} {r : R p} {k : R p → Conn B P R α} {moved cl t} : ok ⟨.sys p, r⟩ →
      Fault ok ⟨.call (.sys p) k, moved, cl, t⟩ [] [] ⟨k r, [], cl, t ++ [⟨.sys p, r⟩]⟩

/-- Steps of an end, with all the symbols it takes and puts. -/
inductive FaultRun (ok : Conn.Event B P R → Prop) :
    End B P R α → List B → List B → End B P R α → Prop
  | refl {e} : FaultRun ok e [] [] e
  | head {e e' e'' i i' o o'} : Fault ok e i o e' → FaultRun ok e' i' o' e'' →
      FaultRun ok e (i ++ i') (o ++ o') e''

variable {ok : Conn.Event B P R → Prop} {e e' e'' : End B P R α} {i i' o o' : List B}

theorem FaultRun.snoc (h : FaultRun ok e i o e') (hstep : Fault ok e' i' o' e'') :
    FaultRun ok e (i ++ i') (o ++ o') e'' := by
  induction h with
  | refl => simpa using FaultRun.head hstep .refl
  | head hs _ ih =>
    rw [List.append_assoc, List.append_assoc]
    exact .head hs (ih hstep)

/-- A step of an end on a connection that does not fail. -/
theorem Step.fault {env : Prog.Env P R} {c : Bool} (h : Step env c e i e' i' o)
    (hok : ∀ p, ok ⟨.sys p, env p⟩) : ∃ taken, i = taken ++ i' ∧ Fault ok e taken o e' := by
  cases h with
  | write hb hn => exact ⟨[], rfl, .write hb hn⟩
  | sent => exact ⟨[], rfl, .sent⟩
  | sendClosed => exact ⟨[], rfl, .sendFails (.inl rfl)⟩
  | read hi hn hl => exact ⟨_, hi, .read hn hl⟩
  | received hl => exact ⟨[], rfl, .received hl⟩
  | eof hl => exact ⟨[], rfl, .recvFails (.inr hl)⟩
  | recvClosed => exact ⟨[], rfl, .recvFails (.inl rfl)⟩
  | close => exact ⟨[], rfl, .close⟩
  | sys => exact ⟨[], rfl, .sys (hok _)⟩

theorem Fault.closed_of_closed (h : Fault ok e i o e') (hc : e.closed = true) :
    e'.closed = true := by
  cases h <;> first | exact hc | rfl

theorem FaultRun.closed_of_closed (h : FaultRun ok e i o e') (hc : e.closed = true) :
    e'.closed = true := by
  induction h with
  | refl => exact hc
  | head hs _ ih => exact ih (hs.closed_of_closed hc)

end End

/-! ## Waiting -/

namespace Conn

/-- A program may return `a` having taken the symbols `i` and put `o`, the connection
    being open. -/
def Returns (ok : Conn.Event B P R → Prop) : Conn B P R α → List B → List B → α → Prop
  | .ret b, i, o, a => i = [] ∧ o = [] ∧ b = a
  | .call (.recv n) k, i, o, a =>
    (n ≤ i.length ∧ Returns ok (k (some (i.take n))) (i.drop n) o a) ∨
      ∃ j i', i = j ++ i' ∧ Returns ok (k none) i' o a
  | .call (.send bs) k, i, o, a =>
    (∃ o', o = bs ++ o' ∧ Returns ok (k true) i o' a) ∨
      ok ⟨.send bs, false⟩ ∧ ∃ part o', o = part ++ o' ∧ Returns ok (k false) i o' a
  | .call .close _, _, _, _ => False
  | .call (.sys p) k, i, o, a => ∃ r, ok ⟨.sys p, r⟩ ∧ Returns ok (k r) i o a

/-- A program may get to waiting for more than the symbols `i`, having put `o`, the
    connection being open. -/
def Stalls (ok : Conn.Event B P R → Prop) : Conn B P R α → List B → List B → Prop
  | .ret _, _, _ => False
  | .call (.recv n) k, i, o =>
    (i.length < n ∧ o = []) ∨ (n ≤ i.length ∧ Stalls ok (k (some (i.take n))) (i.drop n) o) ∨
      ∃ j i', i = j ++ i' ∧ Stalls ok (k none) i' o
  | .call (.send bs) k, i, o =>
    (∃ o', o = bs ++ o' ∧ Stalls ok (k true) i o') ∨
      ok ⟨.send bs, false⟩ ∧ ∃ part o', o = part ++ o' ∧ Stalls ok (k false) i o'
  | .call .close _, _, _ => False
  | .call (.sys p) k, i, o => ∃ r, ok ⟨.sys p, r⟩ ∧ Stalls ok (k r) i o

section Rules

variable {ok : Conn.Event B P R → Prop} {i o : List B} {a : α} {b : β}

@[simp] theorem returns_ret {c : α} :
    Returns ok (.ret c : Conn B P R α) i o a ↔ i = [] ∧ o = [] ∧ c = a := Iff.rfl

@[simp] theorem returns_call_recv {n : ℕ} {k : Option (List B) → Conn B P R α} :
    Returns ok (.call (.recv n) k) i o a ↔
      (n ≤ i.length ∧ Returns ok (k (some (i.take n))) (i.drop n) o a) ∨
        ∃ j i', i = j ++ i' ∧ Returns ok (k none) i' o a := Iff.rfl

@[simp] theorem returns_call_send {bs : List B} {k : Bool → Conn B P R α} :
    Returns ok (.call (.send bs) k) i o a ↔
      (∃ o', o = bs ++ o' ∧ Returns ok (k true) i o' a) ∨
        ok ⟨.send bs, false⟩ ∧ ∃ part o', o = part ++ o' ∧ Returns ok (k false) i o' a := Iff.rfl

@[simp] theorem not_returns_call_close {k : Unit → Conn B P R α} :
    ¬Returns ok (.call .close k) i o a := id

@[simp] theorem returns_call_sys {p : P} {k : R p → Conn B P R α} :
    Returns ok (.call (.sys p) k) i o a ↔ ∃ r, ok ⟨.sys p, r⟩ ∧ Returns ok (k r) i o a := Iff.rfl

@[simp] theorem not_stalls_ret {c : α} : ¬Stalls ok (.ret c : Conn B P R α) i o := id

theorem not_returns_ret {c : α} (h : c ≠ a) : ¬Returns ok (.ret c : Conn B P R α) i o a :=
  fun hret => h hret.2.2

@[simp] theorem stalls_call_recv {n : ℕ} {k : Option (List B) → Conn B P R α} :
    Stalls ok (.call (.recv n) k) i o ↔
      (i.length < n ∧ o = []) ∨ (n ≤ i.length ∧ Stalls ok (k (some (i.take n))) (i.drop n) o) ∨
        ∃ j i', i = j ++ i' ∧ Stalls ok (k none) i' o := Iff.rfl

@[simp] theorem stalls_call_send {bs : List B} {k : Bool → Conn B P R α} :
    Stalls ok (.call (.send bs) k) i o ↔
      (∃ o', o = bs ++ o' ∧ Stalls ok (k true) i o') ∨
        ok ⟨.send bs, false⟩ ∧ ∃ part o', o = part ++ o' ∧ Stalls ok (k false) i o' := Iff.rfl

@[simp] theorem not_stalls_call_close {k : Unit → Conn B P R α} :
    ¬Stalls ok (.call .close k) i o := id

@[simp] theorem stalls_call_sys {p : P} {k : R p → Conn B P R α} :
    Stalls ok (.call (.sys p) k) i o ↔ ∃ r, ok ⟨.sys p, r⟩ ∧ Stalls ok (k r) i o := Iff.rfl

/-- A program returns once its parts have. -/
theorem Returns.of_bind {p : Conn B P R α} {f : α → Conn B P R β}
    (h : Returns ok (p >>= f) i o b) :
    ∃ a i₁ i₂ o₁ o₂, i = i₁ ++ i₂ ∧ o = o₁ ++ o₂ ∧ Returns ok p i₁ o₁ a ∧
      Returns ok (f a) i₂ o₂ b := by
  induction p generalizing i o with
  | ret a => exact ⟨a, [], i, [], o, rfl, rfl, ⟨rfl, rfl, rfl⟩, h⟩
  | call op k ih =>
    cases op with
    | recv n =>
      rcases h with ⟨hn, h⟩ | ⟨j, i', rfl, h⟩
      · obtain ⟨a, i₁, i₂, o₁, o₂, hi, ho, hp, hf⟩ := ih _ h
        -- the first part takes what is read here before what it takes itself
        refine ⟨a, i.take n ++ i₁, i₂, o₁, o₂, ?_, ho, .inl ?_, hf⟩
        · rw [List.append_assoc, ← hi, List.take_append_drop]
        · have hlen : (i.take n).length = n := List.length_take_of_le hn
          refine ⟨by rw [List.length_append, hlen]; omega, ?_⟩
          rwa [List.take_left' hlen, List.drop_left' hlen]
      · obtain ⟨a, i₁, i₂, o₁, o₂, rfl, ho, hp, hf⟩ := ih _ h
        exact ⟨a, j ++ i₁, i₂, o₁, o₂, (List.append_assoc ..).symm, ho, .inr ⟨j, i₁, rfl, hp⟩, hf⟩
    | send bs =>
      rcases h with ⟨o', rfl, h⟩ | ⟨hok, part, o', rfl, h⟩
      · obtain ⟨a, i₁, i₂, o₁, o₂, hi, rfl, hp, hf⟩ := ih _ h
        exact ⟨a, i₁, i₂, bs ++ o₁, o₂, hi, (List.append_assoc ..).symm, .inl ⟨o₁, rfl, hp⟩, hf⟩
      · obtain ⟨a, i₁, i₂, o₁, o₂, hi, rfl, hp, hf⟩ := ih _ h
        exact ⟨a, i₁, i₂, part ++ o₁, o₂, hi, (List.append_assoc ..).symm,
          .inr ⟨hok, part, o₁, rfl, hp⟩, hf⟩
    | close => exact absurd h not_returns_call_close
    | sys p =>
      obtain ⟨r, hr, h⟩ := h
      obtain ⟨a, i₁, i₂, o₁, o₂, hi, ho, hp, hf⟩ := ih _ h
      exact ⟨a, i₁, i₂, o₁, o₂, hi, ho, ⟨r, hr, hp⟩, hf⟩

/-- A program waits in one of its parts, those before having returned. -/
theorem Stalls.of_bind {p : Conn B P R α} {f : α → Conn B P R β} (h : Stalls ok (p >>= f) i o) :
    Stalls ok p i o ∨ ∃ a i₁ i₂ o₁ o₂, i = i₁ ++ i₂ ∧ o = o₁ ++ o₂ ∧ Returns ok p i₁ o₁ a ∧
      Stalls ok (f a) i₂ o₂ := by
  induction p generalizing i o with
  | ret a => exact .inr ⟨a, [], i, [], o, rfl, rfl, ⟨rfl, rfl, rfl⟩, h⟩
  | call op k ih =>
    cases op with
    | recv n =>
      rcases h with hn | ⟨hn, h⟩ | ⟨j, i', rfl, h⟩
      · exact .inl (.inl hn)
      · rcases ih _ h with hp | ⟨a, i₁, i₂, o₁, o₂, hi, ho, hp, hf⟩
        · exact .inl (.inr (.inl ⟨hn, hp⟩))
        -- the first part takes what is read here before what it takes itself
        refine .inr ⟨a, i.take n ++ i₁, i₂, o₁, o₂, ?_, ho, .inl ?_, hf⟩
        · rw [List.append_assoc, ← hi, List.take_append_drop]
        · have hlen : (i.take n).length = n := List.length_take_of_le hn
          refine ⟨by rw [List.length_append, hlen]; omega, ?_⟩
          rwa [List.take_left' hlen, List.drop_left' hlen]
      · rcases ih _ h with hp | ⟨a, i₁, i₂, o₁, o₂, rfl, ho, hp, hf⟩
        · exact .inl (.inr (.inr ⟨j, i', rfl, hp⟩))
        exact .inr ⟨a, j ++ i₁, i₂, o₁, o₂, (List.append_assoc ..).symm, ho,
          .inr ⟨j, i₁, rfl, hp⟩, hf⟩
    | send bs =>
      rcases h with ⟨o', rfl, h⟩ | ⟨hok, part, o', rfl, h⟩
      · rcases ih _ h with hp | ⟨a, i₁, i₂, o₁, o₂, hi, rfl, hp, hf⟩
        · exact .inl (.inl ⟨o', rfl, hp⟩)
        exact .inr ⟨a, i₁, i₂, bs ++ o₁, o₂, hi, (List.append_assoc ..).symm,
          .inl ⟨o₁, rfl, hp⟩, hf⟩
      · rcases ih _ h with hp | ⟨a, i₁, i₂, o₁, o₂, hi, rfl, hp, hf⟩
        · exact .inl (.inr ⟨hok, part, o', rfl, hp⟩)
        exact .inr ⟨a, i₁, i₂, part ++ o₁, o₂, hi, (List.append_assoc ..).symm,
          .inr ⟨hok, part, o₁, rfl, hp⟩, hf⟩
    | close => exact absurd h not_stalls_call_close
    | sys p =>
      obtain ⟨r, hr, h⟩ := h
      rcases ih _ h with hp | ⟨a, i₁, i₂, o₁, o₂, hi, ho, hp, hf⟩
      · exact .inl ⟨r, hr, hp⟩
      exact .inr ⟨a, i₁, i₂, o₁, o₂, hi, ho, ⟨r, hr, hp⟩, hf⟩

/-- The calls to the system alone take and put nothing. -/
theorem Returns.of_lift {p : Prog P R α} (h : Returns ok (lift p) i o a) :
    i = [] ∧ o = [] ∧ p.Gives (fun ev => ok ⟨.sys ev.1, ev.2⟩) a := by
  induction p with
  | ret b => exact h
  | call p k ih =>
    obtain ⟨r, hr, h⟩ := h
    obtain ⟨hi, ho, hk⟩ := ih _ h
    exact ⟨hi, ho, r, hr, hk⟩

@[simp] theorem not_stalls_lift {p : Prog P R α} : ¬Stalls ok (lift p : Conn B P R α) i o := by
  induction p with
  | ret b => exact id
  | call p k ih =>
    rintro ⟨r, -, h⟩
    exact ih _ h

/-- A program that waits in a read or after it, but not after one that fails. -/
theorem Stalls.of_recv {n : ℕ} {k : Option (List B) → Conn B P R α}
    (h : Stalls ok (.call (.recv n) k) i o) (hnone : ∀ i o, ¬Stalls ok (k none) i o) :
    (i.length < n ∧ o = []) ∨
      ∃ bs i', bs.length = n ∧ i = bs ++ i' ∧ Stalls ok (k (some bs)) i' o := by
  rcases h with h | ⟨hn, h⟩ | ⟨j, i', -, h⟩
  · exact .inl h
  · exact .inr ⟨_, _, List.length_take_of_le hn, (List.take_append_drop n i).symm, h⟩
  · exact absurd h (hnone _ _)

/-- A program that returns after a read, but not after one that fails. -/
theorem Returns.of_recv {n : ℕ} {k : Option (List B) → Conn B P R α}
    (h : Returns ok (.call (.recv n) k) i o a) (hnone : ∀ i o, ¬Returns ok (k none) i o a) :
    ∃ bs i', bs.length = n ∧ i = bs ++ i' ∧ Returns ok (k (some bs)) i' o a := by
  rcases h with ⟨hn, h⟩ | ⟨j, i', -, h⟩
  · exact ⟨_, _, List.length_take_of_le hn, (List.take_append_drop n i).symm, h⟩
  · exact absurd h (hnone _ _)

/-- As `Stalls.of_recv`, for a program that stops where its read fails. -/
theorem Stalls.of_recv_ret {n : ℕ} {k : Option (List B) → Conn B P R α}
    (h : Stalls ok (.call (.recv n) k) i o) (hnone : k none = .ret a) :
    (i.length < n ∧ o = []) ∨
      ∃ bs i', bs.length = n ∧ i = bs ++ i' ∧ Stalls ok (k (some bs)) i' o := by
  refine h.of_recv fun i o => ?_
  rw [hnone]
  exact not_stalls_ret

/-- As `Returns.of_recv`, for a program that returns another value where its read fails. -/
theorem Returns.of_recv_ret {n : ℕ} {k : Option (List B) → Conn B P R α} {c : α}
    (h : Returns ok (.call (.recv n) k) i o a) (hnone : k none = .ret c) (hc : c ≠ a) :
    ∃ bs i', bs.length = n ∧ i = bs ++ i' ∧ Returns ok (k (some bs)) i' o a := by
  refine h.of_recv fun i o => ?_
  rw [hnone]
  exact not_returns_ret hc

theorem Returns.of_lift_bind {p : Prog P R α} {f : α → Conn B P R β}
    (h : Returns ok (lift p >>= f) i o b) :
    ∃ a, p.Gives (fun ev => ok ⟨.sys ev.1, ev.2⟩) a ∧ Returns ok (f a) i o b := by
  obtain ⟨a, i₁, i₂, o₁, o₂, rfl, rfl, hp, hf⟩ := h.of_bind
  obtain ⟨rfl, rfl, ha⟩ := hp.of_lift
  exact ⟨a, ha, hf⟩

theorem Stalls.of_lift_bind {p : Prog P R α} {f : α → Conn B P R β}
    (h : Stalls ok (lift p >>= f) i o) :
    ∃ a, p.Gives (fun ev => ok ⟨.sys ev.1, ev.2⟩) a ∧ Stalls ok (f a) i o := by
  rcases h.of_bind with hp | ⟨a, i₁, i₂, o₁, o₂, rfl, rfl, hp, hf⟩
  · exact absurd hp not_stalls_lift
  · obtain ⟨rfl, rfl, ha⟩ := hp.of_lift
    exact ⟨a, ha, hf⟩

/-- A program calling only the system reads nothing. -/
theorem ne_recv_lift {p : Prog P R α} :
    Prog.All (fun op => ∀ n, op ≠ .recv n) (lift p : Conn B P R α) := all_lift (by simp)

/-- A program that reads nothing waits for nothing. -/
theorem not_stalls_of_all {p : Conn B P R α} (h : Prog.All (fun op => ∀ n, op ≠ .recv n) p) :
    ¬Stalls ok p i o := by
  induction p generalizing i o with
  | ret a => exact id
  | call op k ih =>
    cases op with
    | recv n => exact absurd rfl (h.1 n)
    | send bs =>
      rintro (⟨o', -, hk⟩ | ⟨-, part, o', -, hk⟩)
      · exact ih _ (h.2 _) hk
      · exact ih _ (h.2 _) hk
    | close => exact id
    | sys p =>
      rintro ⟨r, -, hk⟩
      exact ih _ (h.2 r) hk

end Rules

end Conn

namespace End

variable {ok : Conn.Event B P R → Prop} {e e' : End B P R α} {i o : List B}

/-- What an end has taken for the read that it makes. -/
def taken (e : End B P R α) : List B :=
  match e.prog with
  | .call (.recv _) _ => e.moved
  | _ => []

/-- What an end has put of what it writes. -/
def put (e : End B P R α) : List B :=
  match e.prog with
  | .call (.send _) _ => e.moved
  | _ => []

@[simp] theorem taken_nil {p : Conn B P R α} {cl : Bool} {t : List (Conn.Event B P R)} :
    (⟨p, [], cl, t⟩ : End B P R α).taken = [] := by
  rw [taken]
  split <;> rfl

@[simp] theorem put_nil {p : Conn B P R α} {cl : Bool} {t : List (Conn.Event B P R)} :
    (⟨p, [], cl, t⟩ : End B P R α).put = [] := by
  rw [put]
  split <;> rfl

/-- An end that gets to waiting, while it is open, stalls. -/
theorem FaultRun.stalls (h : FaultRun ok e i o e') (hb : e'.Blocked [])
    (hopen : e'.closed = false) : Conn.Stalls ok e.prog (e.taken ++ i) (e.put ++ o) := by
  induction h with
  | @refl e =>
    obtain ⟨n, k, hp, hlen, -⟩ := hb
    obtain ⟨prog, moved, cl, t⟩ := e
    subst hp
    exact .inl ⟨by simpa [taken] using hlen, rfl⟩
  | head hs hrun ih =>
    have h := ih hb hopen
    have hcl := mt hs.closed_of_closed fun hc => by
      rw [hrun.closed_of_closed hc] at hopen
      cases hopen
    cases hs with
    | write hb hn => simpa [taken, put, List.append_assoc] using h
    | sent =>
      rw [taken_nil, put_nil] at h
      exact .inl ⟨_, rfl, h⟩
    | sendFails hf =>
      rw [taken_nil, put_nil] at h
      exact .inr ⟨hf.resolve_left hcl, _, _, rfl, h⟩
    | read hn hl => simpa [taken, put, List.append_assoc] using h
    | @received n k moved t hl =>
      rw [taken_nil, put_nil] at h
      refine .inr (.inl ⟨?_, ?_⟩)
      · simp [taken, hl]
      · simpa [taken, put, ← hl] using h
    | recvFails hf =>
      rw [taken_nil, put_nil] at h
      exact .inr (.inr ⟨_, _, rfl, h⟩)
    | close => exact absurd (hrun.closed_of_closed rfl) (by rw [hopen]; exact Bool.false_ne_true)
    | sys hr =>
      rw [taken_nil, put_nil] at h
      exact ⟨_, hr, h⟩

end End

/-! ## Returning -/

namespace Conn

/-- Unless the program closes the connection, what it returns satisfies `φ`. -/
def UnlessClosed (ok : Conn.Event B P R → Prop) (φ : α → Prop) : Conn B P R α → Prop
  | .ret a => φ a
  | .call (.recv _) k => ∀ r, UnlessClosed ok φ (k r)
  | .call (.send _) k => ∀ r, UnlessClosed ok φ (k r)
  | .call .close _ => True
  | .call (.sys p) k => ∀ r, ok ⟨.sys p, r⟩ → UnlessClosed ok φ (k r)

section UnlessClosed

variable {ok : Conn.Event B P R → Prop} {φ : α → Prop} {ψ : β → Prop}

@[simp] theorem unlessClosed_ret {a : α} : UnlessClosed ok φ (.ret a) ↔ φ a := Iff.rfl

@[simp] theorem unlessClosed_call_recv {n : ℕ} {k : Option (List B) → Conn B P R α} :
    UnlessClosed ok φ (.call (.recv n) k) ↔ ∀ r, UnlessClosed ok φ (k r) := Iff.rfl

@[simp] theorem unlessClosed_call_send {bs : List B} {k : Bool → Conn B P R α} :
    UnlessClosed ok φ (.call (.send bs) k) ↔ ∀ r, UnlessClosed ok φ (k r) := Iff.rfl

@[simp] theorem unlessClosed_call_close {k : Unit → Conn B P R α} :
    UnlessClosed ok φ (.call .close k) := trivial

@[simp] theorem unlessClosed_call_sys {p : P} {k : R p → Conn B P R α} :
    UnlessClosed ok φ (.call (.sys p) k) ↔ ∀ r, ok ⟨.sys p, r⟩ → UnlessClosed ok φ (k r) := Iff.rfl

@[simp] theorem unlessClosed_bind {p : Conn B P R α} {f : α → Conn B P R β} :
    UnlessClosed ok ψ (p >>= f) ↔ UnlessClosed ok (fun a => UnlessClosed ok ψ (f a)) p := by
  induction p with
  | ret a => rfl
  | call op k ih =>
    cases op with
    | close => exact Iff.rfl
    | sys p => exact forall₂_congr fun r _ => ih r
    | _ => exact forall_congr' ih

theorem unlessClosed_of_forall {p : Conn B P R α} (h : ∀ a, φ a) : UnlessClosed ok φ p := by
  induction p with
  | ret a => exact h a
  | call op k ih =>
    cases op with
    | close => trivial
    | sys p => exact fun r _ => ih r
    | _ => exact fun r => ih r

/-- What comes after a part closes the connection, whatever that part returns. -/
theorem UnlessClosed.after {p : Conn B P R α} {f : α → Conn B P R β}
    (h : ∀ a, UnlessClosed ok ψ (f a)) : UnlessClosed ok ψ (p >>= f) :=
  unlessClosed_bind.2 (unlessClosed_of_forall h)

@[simp] theorem unlessClosed_ite {c : Prop} [Decidable c] {p q : Conn B P R α} :
    UnlessClosed ok φ (if c then p else q) ↔
      if c then UnlessClosed ok φ p else UnlessClosed ok φ q := by
  split <;> rfl

@[simp] theorem unlessClosed_lift {p : Prog P R α} :
    UnlessClosed ok φ (lift p : Conn B P R α) ↔
      ∀ a, p.Gives (fun ev => ok ⟨.sys ev.1, ev.2⟩) a → φ a := by
  induction p with
  | ret b => simp
  | call p k ih =>
    simp only [lift_call, unlessClosed_call_sys, ih, Prog.gives_call]
    constructor
    · rintro h a ⟨r, hr, ha⟩
      exact h r hr a ha
    · exact fun h r hr a ha => h a ⟨r, hr, ha⟩

theorem UnlessClosed.mono {φ' : α → Prop} {p : Conn B P R α} (hp : UnlessClosed ok φ p)
    (h : ∀ a, φ a → φ' a) : UnlessClosed ok φ' p := by
  induction p with
  | ret a => exact h a hp
  | call op k ih =>
    cases op with
    | close => trivial
    | sys p => exact fun r hr => ih r (hp r hr)
    | _ => exact fun r => ih r (hp r)

end UnlessClosed

end Conn

namespace End

/-- An end that has returned has closed, or returned what it may. -/
theorem FaultRun.closed_or {ok : Conn.Event B P R → Prop} {φ : α → Prop} {e e' : End B P R α}
    {i o : List B} {a : α} (h : FaultRun ok e i o e') (hret : e'.prog = .ret a)
    (hp : Conn.UnlessClosed ok φ e.prog) : e'.closed = true ∨ φ a := by
  induction h with
  | refl =>
    rw [hret] at hp
    exact .inr hp
  | head hs hrun ih =>
    cases hs with
    | write => exact ih hret hp
    | sent => exact ih hret (hp _)
    | sendFails => exact ih hret (hp _)
    | read => exact ih hret hp
    | received => exact ih hret (hp _)
    | recvFails => exact ih hret (hp _)
    | close => exact .inl (hrun.closed_of_closed rfl)
    | sys hr => exact ih hret (hp _ hr)

end End

/-! ## Both ends -/

namespace Duplex

variable (okL : Conn.Event B P R → Prop) (okR : Conn.Event B Q S → Prop)

/-- A step of one of the ends, when calls may fail. -/
inductive Fault : Duplex B P Q R S α β → Duplex B P Q R S α β → Prop
  | left {l r l' w} {o taken i : List B} : End.Fault okL l taken w l' →
      Fault ⟨l, r, o, taken ++ i⟩ ⟨l', r, o ++ w, i⟩
  | right {l r r' w} {o taken i : List B} : End.Fault okR r taken w r' →
      Fault ⟨l, r, taken ++ o, i⟩ ⟨l, r', o, i ++ w⟩

/-- The states reached when calls may fail. -/
abbrev Faults : Duplex B P Q R S α β → Duplex B P Q R S α β → Prop :=
  ReflTransGen (Fault okL okR)

variable {okL okR} {p : Conn B P R α} {q : Conn B Q S β} {s : Duplex B P Q R S α β}

/-- Each end runs alone, and takes what the other one has put, but for what is on its way. -/
theorem Faults.runs (h : Faults okL okR ⟨⟨p, [], false, []⟩, ⟨q, [], false, []⟩, [], []⟩ s) :
    ∃ i o, End.FaultRun okL ⟨p, [], false, []⟩ i (o ++ s.toRight) s.left ∧
      End.FaultRun okR ⟨q, [], false, []⟩ o (i ++ s.toLeft) s.right := by
  induction h with
  | refl => exact ⟨[], [], .refl, .refl⟩
  | tail _ hs ih =>
    obtain ⟨i, o, hl, hr⟩ := ih
    cases hs with
    | @left _ _ _ w toRight taken toLeft hs =>
      refine ⟨i ++ taken, o, ?_, ?_⟩
      · simpa only [List.append_assoc] using hl.snoc hs
      · simpa only [List.append_assoc] using hr
    | @right _ _ _ w toRight taken toLeft hs =>
      refine ⟨i, o ++ taken, ?_, ?_⟩
      · simpa only [List.append_assoc] using hl
      · simpa only [List.append_assoc] using hr.snoc hs

/-- The ends never wait for one another, if each, alone, never gets to waiting for more than
    what the other one puts before it gets to waiting. -/
theorem not_deadlock_of_stalls (hstalls : ∀ i o, p.Stalls okL i o → ¬q.Stalls okR o i)
    (h : Faults okL okR ⟨⟨p, [], false, []⟩, ⟨q, [], false, []⟩, [], []⟩ s) : ¬s.Deadlock := by
  rintro ⟨hl, hr, hopenL, hopenR⟩
  obtain ⟨i, o, hrunL, hrunR⟩ := h.runs
  have htoLeft : s.toLeft = [] := hl.choose_spec.choose_spec.2.2
  have htoRight : s.toRight = [] := hr.choose_spec.choose_spec.2.2
  rw [htoRight, List.append_nil] at hrunL
  rw [htoLeft, List.append_nil] at hrunR
  rw [htoLeft] at hl
  rw [htoRight] at hr
  exact hstalls i o (by simpa using hrunL.stalls hl hopenL) (by simpa using hrunR.stalls hr hopenR)

/-- A step on a connection that does not fail. -/
theorem Step.fault {envL : Prog.Env P R} {envR : Prog.Env Q S} {t : Duplex B P Q R S α β}
    (h : Step envL envR s t) (hokL : ∀ p, okL ⟨.sys p, envL p⟩) (hokR : ∀ p, okR ⟨.sys p, envR p⟩) :
    Fault okL okR s t := by
  cases h with
  | left hs =>
    obtain ⟨taken, rfl, h⟩ := hs.fault hokL
    exact .left h
  | right hs =>
    obtain ⟨taken, rfl, h⟩ := hs.fault hokR
    exact .right h

theorem Reaches.faults {envL : Prog.Env P R} {envR : Prog.Env Q S} {t : Duplex B P Q R S α β}
    (h : Reaches envL envR s t) (hokL : ∀ p, okL ⟨.sys p, envL p⟩)
    (hokR : ∀ p, okR ⟨.sys p, envR p⟩) : Faults okL okR s t :=
  ReflTransGen.mono (fun _ _ hs => hs.fault hokL hokR) _ _ h

end Duplex
