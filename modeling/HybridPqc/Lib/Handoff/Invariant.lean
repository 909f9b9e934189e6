import HybridPqc.Lib.Handoff.Machine

/-!
# The invariant of a solo hand-over

In a solo run (`SoloReachable.inv`):

* the worker works on every job posted, once, in order (`History.runs`), and the
  result collected is that of the job posted (`History.returned`);
* the slot is never used by a caller and the worker at once
  (`Inv.not_touching_both`);
* no caller waits for the worker while the worker waits for it
  (`Inv.not_waiting_both`).

The invariant is about one caller `i`, the busy one if there is one: all others
are idle. Where the caller is tells what it expects of the worker
(`Caller.mode`) and what it knows itself (`Facts`). A step of the worker keeps
every mode (`Quiet.step`, `Pending.step`, `Closing.step`); a step of the caller
changes the mode, and rarely anything else.
-/

namespace Handoff

variable {ι Job Slot Desc Out O : Type}

/-- The worker is between jobs, in its loop or before it. -/
def Worker.quiet : Worker Desc → Bool
  | .start | .lock | .check | .waiting | .woken => true
  | _ => false

/-- The worker has the mutex. -/
def Worker.holds : Worker Desc → Bool
  | .check | .leave | .mark | .notify | .unlock => true
  | _ => false

/-- The caller has the mutex. -/
def Caller.holds : Caller Job → Bool
  | .post _ | .flags .. | .signal .. | .postUnlock .. | .joinCheck .. | .joinUnlock ..
  | .shutSet | .shutSignal | .shutUnlock => true
  | _ => false

/-- The job of a caller, once posted. -/
def Caller.job : Caller Job → Option (ℕ × Job)
  | .flags t j | .signal t j | .postUnlock t j | .overlap t j | .joinLock t j | .joinCheck t j
  | .joinWait t j | .joinWoken t j | .joinUnlock t j | .collect t j => some (t, j)
  | _ => none

/-- What a caller expects of the worker. -/
inductive Mode (Job : Type)
  /-- There is none. -/
  | off
  /-- It waits for something to do. -/
  | quiet
  /-- It has a job, but for the signal to wake up if `unsignalled`. -/
  | pending (unsignalled : Bool) (t : ℕ) (j : Job)
  /-- It is to exit, but for the signal to wake up if `unsignalled`. -/
  | closing (unsignalled : Bool)

/-- What a caller expects of the worker of a pool that is `ready` or not. -/
def Caller.mode (ready : Bool) : Caller Job → Mode Job
  | .idle => if ready then .quiet else .off
  | .postLock _ | .post _ | .flags .. | .joinUnlock .. | .collect .. | .initSet | .shutLock
  | .shutSet => .quiet
  | .signal t j => .pending true t j
  | .postUnlock t j | .overlap t j | .joinLock t j | .joinCheck t j | .joinWait t j
  | .joinWoken t j => .pending false t j
  | .initMem | .initCreate | .shutReset => .off
  | .shutSignal => .closing true
  | .shutUnlock | .shutJoin => .closing false

theorem Caller.job_of_mode {c : Caller Job} {r u : Bool} {t : ℕ} {j : Job}
    (h : c.mode r = .pending u t j) : c.job = some (t, j) := by
  cases c <;> cases r <;> simp_all [Caller.mode, Caller.job]

section Invariant

variable (pool : Pool Job Slot Desc Out O) (oracle : ℕ → O) (s : State ι Job Slot Desc Out)

/-- There is nothing to do. -/
def Quiet : Prop := s.hasWork = false ∧ s.shutdown = false ∧ s.worker.quiet = true

/-- The job `t` is in the slot, and the worker has not run it. -/
def Posted (t : ℕ) (j : Job) : Prop :=
  s.runs.length = t ∧ ∃ s₀, s.slot = pool.post j s₀

/-- The slot holds the result of the job `t`, which the worker has run. -/
def Solved (t : ℕ) (j : Job) : Prop :=
  s.runs.length = t + 1 ∧
    ∃ s₀, s.slot = pool.store (oracle t) (pool.desc j) (pool.clear (pool.post j s₀))

/-- The job `t` is still to be done. -/
def Todo (t : ℕ) (j : Job) : Prop :=
  s.hasWork = true ∧ s.workDone = false ∧ Posted pool s t j

/-- The job `t` is done. -/
def Done (t : ℕ) (j : Job) : Prop :=
  s.hasWork = false ∧ s.workDone = true ∧ Solved pool oracle s t j

/-- The job `t` has been handed over, but for the signal to the worker if
    `unsignalled`: what the worker makes of it. -/
def Pending (unsignalled : Bool) (t : ℕ) (j : Job) : Prop :=
  s.shutdown = false ∧ t + 1 = s.posted.length ∧
  match s.worker with
  | .off | .exited => False
  | .start | .lock | .check | .woken => Todo pool s t j ∨ Done pool oracle s t j
  | .waiting => (unsignalled = true ∧ Todo pool s t j) ∨ Done pool oracle s t j
  | .leave | .decide | .begin none => Todo pool s t j
  | .begin (some (t', d)) => t' = t ∧ d = pool.desc j ∧ Todo pool s t j
  | .work t' d => t' = t ∧ d = pool.desc j ∧ s.hasWork = true ∧ s.workDone = false ∧
      s.runs.length = t ∧ ∃ s₀, s.slot = pool.clear (pool.post j s₀)
  | .lockDone | .mark => s.hasWork = true ∧ s.workDone = false ∧ Solved pool oracle s t j
  | .notify | .unlock => Done pool oracle s t j

/-- The pool shuts down, but for the signal to the worker if `unsignalled`. -/
def Closing (unsignalled : Bool) : Prop :=
  s.shutdown = true ∧ s.hasWork = false ∧
  match s.worker with
  | .start | .lock | .check | .woken | .leave | .decide | .exited => True
  | .waiting => unsignalled = true
  | _ => False

/-- The worker is as expected. -/
def Mode.Holds : Mode Job → Prop
  | .off => s.worker = .off
  | .quiet => Quiet s
  | .pending u t j => Pending pool oracle s u t j
  | .closing u => Closing s u

/-- What a caller knows, from where it is. -/
def Facts : Caller Job → Prop
  | .idle => True
  | .flags t j => s.ready = true ∧ t + 1 = s.posted.length ∧ Posted pool s t j
  | .joinWait _ _ => s.ready = true ∧ (s.workDone = true → s.worker = .notify)
  | .joinUnlock t j | .collect t j =>
      s.ready = true ∧ t + 1 = s.posted.length ∧ Solved pool oracle s t j
  | .initMem | .initSet => s.ready = false
  | .initCreate => s.ready = false ∧ s.hasWork = false ∧ s.shutdown = false
  | _ => s.ready = true

/-- The history: the `k`-th run of the worker is on the `k`-th job posted, and
    every result collected is the one of the job posted, each collected once. -/
structure History : Prop where
  runs_le : s.runs.length ≤ s.posted.length
  runs : ∀ (k : ℕ) (p : ι × Job), k < s.runs.length → s.posted[k]? = some p →
    s.runs[k]? = some (k, pool.desc p.2)
  returned : ∀ r ∈ s.returned, s.posted[r.ticket]? = some (r.caller, r.job) ∧
    r.runs = r.ticket + 1 ∧ r.runs ≤ s.runs.length ∧ r.out = pool.result (oracle r.ticket) r.job
  once : s.returned.Pairwise fun r r' => r.ticket < r'.ticket

/-- The mutex is with the thread that has it. -/
structure Mutex (i : ι) : Prop where
  worker : s.worker.holds = true ↔ s.mutex = some none
  caller : (s.caller i).holds = true ↔ s.mutex = some (some i)
  other : ∀ k, s.mutex = some (some k) → k = i

/-- The invariant, with `i` the busy caller, if there is one. -/
structure Inv (i : ι) : Prop where
  others : ∀ k, k ≠ i → s.caller k = .idle
  mutex : Mutex s i
  mode : ((s.caller i).mode s.ready).Holds pool oracle s
  facts : Facts pool oracle s (s.caller i)
  /-- The job of the busy caller is its own, and has not been collected. -/
  job : ∀ t j, (s.caller i).job = some (t, j) → s.posted[t]? = some (i, j) ∧
    ∀ r ∈ s.returned, r.ticket < t
  all_run : (s.caller i).job = none → s.runs.length = s.posted.length
  history : History pool oracle s

end Invariant

section Preservation

variable {pool : Pool Job Slot Desc Out O} {fetch : Fetch} {oracle : ℕ → O} {i : ι}
  {s s' : State ι Job Slot Desc Out}

/-- What a step of the worker does not change. -/
theorem WorkerStep.frame (h : WorkerStep pool fetch oracle s s') :
    s'.caller = s.caller ∧ s'.ready = s.ready ∧ s'.shutdown = s.shutdown ∧
      s'.posted = s.posted ∧ s'.returned = s.returned := by
  cases h <;> exact ⟨rfl, rfl, rfl, rfl, rfl⟩

/-- The worker runs nothing but the job it has. -/
theorem WorkerStep.runs_eq (h : WorkerStep pool fetch oracle s s') :
    s'.runs = s.runs ∨ ∃ t d, s.worker = .work t d ∧ s'.runs = s.runs ++ [(t, d)] := by
  cases h with
  | @work t d hw => exact .inr ⟨t, d, hw, rfl⟩
  | _ => exact .inl rfl

/-- A worker with nothing to do does nothing. -/
theorem Quiet.step (hq : Quiet s) (h : WorkerStep pool fetch oracle s s') :
    Quiet s' ∧ s'.slot = s.slot ∧ s'.runs = s.runs := by
  obtain ⟨hasWork, shutdown, worker⟩ := hq
  cases h <;> simp_all [Quiet, Worker.quiet]

/-- A worker that is to exit does nothing else. -/
theorem Closing.step {u : Bool} (hc : Closing s u) (h : WorkerStep pool fetch oracle s s') :
    Closing s' u ∧ s'.slot = s.slot ∧ s'.runs = s.runs := by
  obtain ⟨shutdown, hasWork, worker⟩ := hc
  cases h <;> simp_all [Closing]

/-- A worker that has a job does it. -/
theorem Pending.step {u : Bool} {t : ℕ} {j : Job} (hp : Pending pool oracle s u t j)
    (h : WorkerStep pool fetch oracle s s') : Pending pool oracle s' u t j := by
  obtain ⟨shutdown, ticket, worker⟩ := hp
  have hcur : s.current = t := by simp [State.current]; omega
  cases h with
  | begin hw =>
    rename_i job
    obtain _ | ⟨t', d⟩ := job
    · rw [hw] at worker
      obtain ⟨h1, h2, h3, s₀, h4⟩ := worker
      refine ⟨shutdown, ticket, hcur, ?_, h1, h2, h3, s₀, ?_⟩
      · simp [h4, pool.read_post]
      · simp [h4]
    · rw [hw] at worker
      obtain ⟨ht, hd, h1, h2, h3, s₀, h4⟩ := worker
      exact ⟨shutdown, ticket, ht, hd, h1, h2, h3, s₀, by simp [h4]⟩
  | work hw =>
    rw [hw] at worker
    obtain ⟨ht, hd, h1, h2, h3, s₀, h4⟩ := worker
    refine ⟨shutdown, ticket, h1, h2, ?_, s₀, ?_⟩
    · simp [h3]
    · simp [h3, h4, hd]
  | takeUnderLock _ hw =>
    rw [hw] at worker
    obtain ⟨h1, h2, h3, s₀, h4⟩ := worker
    exact ⟨shutdown, ticket, hcur, by simp [h4, pool.read_post], h1, h2, h3, s₀, h4⟩
  | mark hw =>
    rw [hw] at worker
    exact ⟨shutdown, ticket, rfl, rfl, worker.2.2⟩
  | spurious hw =>
    rw [hw] at worker
    exact ⟨shutdown, ticket, worker.imp And.right id⟩
  | _ => simp_all [Pending, Todo, Done, Posted, Solved]

theorem History.of_eq (h : History pool oracle s) (hp : s'.posted = s.posted)
    (hr : s'.runs = s.runs) (hret : s'.returned = s.returned) : History pool oracle s' where
  runs_le := by rw [hp, hr]; exact h.runs_le
  runs := by rw [hp, hr]; exact h.runs
  returned := by rw [hp, hr, hret]; exact h.returned
  once := by rw [hret]; exact h.once

/-- The worker runs the next job. -/
theorem History.run {k : ι} {t : ℕ} {j : Job} (h : History pool oracle s)
    (hpost : s.posted[t]? = some (k, j)) (ht : s.runs.length = t) (hp : s'.posted = s.posted)
    (hr : s'.runs = s.runs ++ [(t, pool.desc j)]) (hret : s'.returned = s.returned) :
    History pool oracle s' where
  runs_le := by
    have := (List.getElem?_eq_some_iff.mp hpost).1
    rw [hp, hr, List.length_append, List.length_singleton]
    omega
  runs := by
    intro n p hn hpn
    rw [hp] at hpn
    rw [hr, List.length_append, List.length_singleton] at hn
    rcases Nat.lt_or_ge n s.runs.length with hlt | hge
    · rw [hr, List.getElem?_append_left hlt]
      exact h.runs n p hlt hpn
    · have : n = t := by omega
      subst this
      rw [hpost] at hpn
      cases hpn
      rw [hr, ← ht, List.getElem?_concat_length, ht]
  returned := by
    intro r hmem
    rw [hret] at hmem
    obtain ⟨h1, h2, h3, h4⟩ := h.returned r hmem
    exact ⟨by rw [hp]; exact h1, h2, by rw [hr, List.length_append]; omega, h4⟩
  once := by rw [hret]; exact h.once

/-- A job is posted. -/
theorem History.post {p : ι × Job} (h : History pool oracle s) (hp : s'.posted = s.posted ++ [p])
    (hr : s'.runs = s.runs) (hret : s'.returned = s.returned) : History pool oracle s' where
  runs_le := by rw [hp, hr, List.length_append]; exact Nat.le_trans h.runs_le (Nat.le_add_right ..)
  runs := by
    intro n q hn hq
    rw [hr] at hn ⊢
    rw [hp, List.getElem?_append_left (Nat.lt_of_lt_of_le hn h.runs_le)] at hq
    exact h.runs n q hn hq
  returned := by
    intro r hmem
    rw [hret] at hmem
    obtain ⟨h1, h2, h3, h4⟩ := h.returned r hmem
    refine ⟨?_, h2, by rw [hr]; exact h3, h4⟩
    rw [hp, List.getElem?_append_left (List.getElem?_eq_some_iff.mp h1).1]
    exact h1
  once := by rw [hret]; exact h.once

/-- A result is collected. -/
theorem History.collect {k : ι} {t : ℕ} {j : Job} (h : History pool oracle s)
    (hpost : s.posted[t]? = some (k, j)) (hnew : ∀ r ∈ s.returned, r.ticket < t)
    (hs : Solved pool oracle s t j) (hp : s'.posted = s.posted) (hr : s'.runs = s.runs)
    (hret : s'.returned = s.returned ++ [⟨k, t, j, s.runs.length, pool.collect s.slot⟩]) :
    History pool oracle s' where
  runs_le := by rw [hp, hr]; exact h.runs_le
  runs := by rw [hp, hr]; exact h.runs
  returned := by
    intro r hmem
    rw [hret, List.mem_append, List.mem_singleton] at hmem
    rw [hp, hr]
    rcases hmem with hold | rfl
    · exact h.returned r hold
    · obtain ⟨hlen, s₀, hslot⟩ := hs
      exact ⟨hpost, hlen, Nat.le_refl _, by rw [hslot, pool.collect_store]⟩
  once := by
    rw [hret, List.pairwise_append]
    refine ⟨h.once, List.pairwise_singleton .., fun r hmem r' hnew' => ?_⟩
    rw [List.mem_singleton] at hnew'
    subst hnew'
    exact hnew r hmem

/-- A pool that is not started. -/
theorem inv_init (i : ι) : Inv pool oracle (State.init pool) i where
  others _ _ := rfl
  mutex := ⟨⟨nofun, nofun⟩, ⟨nofun, nofun⟩, nofun⟩
  mode := rfl
  facts := trivial
  job := nofun
  all_run _ := rfl
  history := ⟨Nat.le_refl _, nofun, nofun, .nil⟩

/-- When nobody is busy, every job posted has been run. -/
theorem Inv.all_run_of_idle {i : ι} (hi : Inv pool oracle s i) (h : s.caller i = .idle) :
    s.runs.length = s.posted.length :=
  hi.all_run (by rw [h]; rfl)

/-- The mutex is free if neither the worker nor the busy caller has it. -/
theorem Mutex.free {i : ι} (hm : Mutex s i) (hw : s.worker.holds = false)
    (hc : (s.caller i).holds = false) : s.mutex = none := by
  rcases hmx : s.mutex with _ | _ | k
  · rfl
  · rw [hm.worker.mpr hmx] at hw
    cases hw
  · rw [hm.caller.mpr (hm.other k hmx ▸ hmx)] at hc
    cases hc

/-! ### Steps of the worker -/

theorem Mutex.worker_step (hm : Mutex s i) (h : WorkerStep pool fetch oracle s s') :
    Mutex s' i := by
  obtain ⟨hw, hc, ho⟩ := hm
  cases h <;> constructor <;> simp_all [Worker.holds]

theorem Facts.worker_step {c : Caller Job} (hf : Facts pool oracle s c)
    (hm : (c.mode s.ready).Holds pool oracle s) (h : WorkerStep pool fetch oracle s s') :
    Facts pool oracle s' c := by
  obtain ⟨-, hready, -, hposted, -⟩ := h.frame
  cases c with
  | flags t j =>
    obtain ⟨h1, h2, h3⟩ := hf
    obtain ⟨-, hslot, hruns⟩ := Quiet.step hm h
    exact ⟨hready ▸ h1, by rw [hposted]; exact h2, by rw [Posted, hslot, hruns]; exact h3⟩
  | joinUnlock t j | collect t j =>
    obtain ⟨h1, h2, h3⟩ := hf
    obtain ⟨-, hslot, hruns⟩ := Quiet.step hm h
    exact ⟨hready ▸ h1, by rw [hposted]; exact h2, by rw [Solved, hslot, hruns]; exact h3⟩
  | joinWait t j =>
    obtain ⟨h1, h2⟩ := hf
    refine ⟨hready ▸ h1, fun hdone => ?_⟩
    cases h <;> simp_all
  | initCreate =>
    have hoff : s.worker = .off := hm
    cases h <;> simp_all
  | idle => trivial
  | _ => exact hready.trans hf

theorem Inv.worker_step (hi : Inv pool oracle s i) (h : WorkerStep pool fetch oracle s s') :
    Inv pool oracle s' i := by
  obtain ⟨hcaller, hready, -, hposted, hret⟩ := h.frame
  have hmode : ((s.caller i).mode s.ready).Holds pool oracle s := hi.mode
  -- outside of a pending job the worker runs nothing
  have hruns : (s.caller i).job = none → s'.runs = s.runs := by
    intro hjob
    rcases hm : (s.caller i).mode s.ready with _ | _ | ⟨u, t, j⟩ | u <;> rw [hm] at hmode
    · obtain heq | ⟨t, d, hw, -⟩ := h.runs_eq
      · exact heq
      · exact absurd (hw.symm.trans hmode) nofun
    · exact (Quiet.step hmode h).2.2
    · rw [Caller.job_of_mode hm] at hjob
      cases hjob
    · exact (Closing.step hmode h).2.2
  refine ⟨fun k hk => by rw [hcaller]; exact hi.others k hk, hi.mutex.worker_step h, ?_, ?_, ?_,
    ?_, ?_⟩
  · rw [hcaller, hready]
    rcases hm : (s.caller i).mode s.ready with _ | _ | ⟨u, t, j⟩ | u <;> rw [hm] at hmode
    · have hoff : s.worker = .off := hmode
      cases h <;> simp_all
    · exact (Quiet.step hmode h).1
    · exact Pending.step hmode h
    · exact (Closing.step hmode h).1
  · rw [hcaller]
    exact hi.facts.worker_step hmode h
  · intro t j hjob
    rw [hcaller] at hjob
    rw [hposted, hret]
    exact hi.job t j hjob
  · intro hjob
    rw [hcaller] at hjob
    rw [hruns hjob, hposted]
    exact hi.all_run hjob
  · obtain heq | ⟨t, d, hw, hr⟩ := h.runs_eq
    · exact hi.history.of_eq hposted heq hret
    · rcases hm : (s.caller i).mode s.ready with _ | _ | ⟨u, t', j⟩ | u <;> rw [hm] at hmode
      · exact absurd (hw.symm.trans hmode) nofun
      · exact absurd hmode.2.2 (by simp [hw, Worker.quiet])
      · obtain ⟨-, -, hp⟩ := hmode
        rw [hw] at hp
        obtain ⟨rfl, rfl, -, -, hlen, -⟩ := hp
        exact hi.history.run (hi.job t j (Caller.job_of_mode hm)).1 hlen hposted hr hret
      · exact absurd hmode.2.2 (by simp [hw])

/-! ### Steps of the caller -/

@[simp] theorem Worker.holds_signalled (w : Worker Desc) : w.signalled.holds = w.holds := by
  cases w <;> rfl

/-- The signal reaches the worker. -/
theorem Pending.wake {t : ℕ} {j : Job} (h : Pending pool oracle s true t j) :
    Pending pool oracle s.wake false t j := by
  obtain ⟨h1, h2, h3⟩ := h
  refine ⟨h1, h2, ?_⟩
  simp only [State.wake]
  cases hw : s.worker with
  | waiting =>
    rw [hw] at h3
    exact h3.imp And.right id
  | begin job =>
    rw [hw] at h3
    cases job <;> exact h3
  | _ =>
    rw [hw] at h3
    exact h3

theorem Closing.wake (h : Closing s true) : Closing s.wake false := by
  obtain ⟨h1, h2, h3⟩ := h
  refine ⟨h1, h2, ?_⟩
  simp only [State.wake]
  cases hw : s.worker <;> rw [hw] at h3 <;> first | exact h3 | exact trivial

/-- A caller that has the mutex, and knows that the work is done, knows the result. -/
theorem Pending.done {t : ℕ} {j : Job} (h : Pending pool oracle s false t j)
    (hdone : s.workDone = true) (hw : s.worker.holds = false) :
    Quiet s ∧ t + 1 = s.posted.length ∧ Solved pool oracle s t j := by
  obtain ⟨h1, h2, h3⟩ := h
  refine and_left_comm.mp ⟨h2, ?_⟩
  cases hws : s.worker with
  | begin job => cases job <;> simp_all [Todo]
  | _ => simp_all [Quiet, Worker.quiet, Worker.holds, Todo, Done]

/-- A job just posted, once the flags are set, is pending. -/
theorem Quiet.pending {t : ℕ} {j : Job} (h : Quiet s) (ht : t + 1 = s.posted.length)
    (hp : Posted pool s t j) :
    Pending pool oracle { s with workDone := false, hasWork := true } true t j := by
  obtain ⟨-, h2, h3⟩ := h
  refine ⟨h2, ht, ?_⟩
  revert h3
  cases hws : s.worker <;> simp_all [Worker.quiet, Todo, Posted]

theorem Quiet.closing (h : Quiet s) : Closing { s with shutdown := true } true := by
  obtain ⟨h1, -, h3⟩ := h
  refine ⟨rfl, h1, ?_⟩
  revert h3
  cases hws : s.worker <;> simp_all [Worker.quiet]

/-- Threads that move on, with or without the mutex. -/
theorem Mutex.of_holds (hm : Mutex s i) (hmutex : s'.mutex = s.mutex)
    (hw : s'.worker.holds = s.worker.holds) (hc : (s'.caller i).holds = (s.caller i).holds) :
    Mutex s' i where
  worker := by rw [hmutex, hw]; exact hm.worker
  caller := by rw [hmutex, hc]; exact hm.caller
  other := by rw [hmutex]; exact hm.other

variable [DecidableEq ι]

@[simp] theorem State.move_caller_self (c : Caller Job) : (s.move i c).caller i = c :=
  Function.update_self ..

theorem State.move_caller_of_ne {k : ι} (hk : k ≠ i) (c : Caller Job) :
    (s.move i c).caller k = s.caller k :=
  Function.update_of_ne hk ..

theorem Mutex.caller_step (hm : Mutex s i)
    (hoff : s.caller i = .initMem ∨ s.caller i = .initCreate → s.worker = .off)
    (h : CallerStep pool i s s') : Mutex s' i := by
  cases h with
  | signal hc | shutSignal hc =>
    refine hm.of_holds rfl (Worker.holds_signalled _) ?_
    rw [State.wake, State.move_caller_self, hc]
    rfl
  | _ =>
    obtain ⟨hw, hc, ho⟩ := hm
    constructor <;> simp_all [Caller.holds, Worker.holds] <;> simp_all [State.move]

/-- A step of the busy caller from `c₀` to `c` that leaves the history alone. -/
theorem Inv.moved {c₀ c : Caller Job} (hi : Inv pool oracle s i) (hc : s.caller i = c₀)
    (hcaller : s'.caller = Function.update s.caller i c) (hp : s'.posted = s.posted)
    (hr : s'.runs = s.runs) (hret : s'.returned = s.returned) (hjob : c.job = c₀.job)
    (hmutex : Mutex s' i)
    (hstep : (c₀.mode s.ready).Holds pool oracle s → Facts pool oracle s c₀ →
      (c.mode s'.ready).Holds pool oracle s' ∧ Facts pool oracle s' c) : Inv pool oracle s' i := by
  have hci : s'.caller i = c := by rw [hcaller, Function.update_self]
  subst hc
  obtain ⟨hmode, hfacts⟩ := hstep hi.mode hi.facts
  refine ⟨fun k hk => ?_, hmutex, by rwa [hci], by rwa [hci], ?_, ?_, hi.history.of_eq hp hr hret⟩
  · rw [hcaller, Function.update_of_ne hk]
    exact hi.others k hk
  · intro t j h
    rw [hci, hjob] at h
    rw [hp, hret]
    exact hi.job t j h
  · intro h
    rw [hci, hjob] at h
    rw [hr, hp]
    exact hi.all_run h

theorem Inv.caller_step (hi : Inv pool oracle s i) (h : CallerStep pool i s s') :
    Inv pool oracle s' i := by
  have hm' : Mutex s' i := by
    have hmode := hi.mode
    refine hi.mutex.caller_step (fun hc => ?_) h
    obtain hc | hc := hc <;> rw [hc] at hmode <;> exact hmode
  have hself : ∀ c, (s.move i c).caller i = c := fun c => State.move_caller_self c
  cases h with
  -- most steps change neither the mode nor the facts
  | postLock hc | postUnlock hc | callJoin hc | joinLock hc | joinRelock hc | joinUnlock hc
  | shutLock hc | shutUnlock hc =>
    exact hi.moved hc rfl rfl rfl rfl rfl hm' And.intro
  | callPost hc hready | callInit hc hready | callShutdown hc hready =>
    refine hi.moved hc rfl rfl rfl rfl rfl hm' fun hmode _ => ?_
    rw [hready] at hmode
    exact ⟨hmode, hready⟩
  -- the job is in the slot, but the worker is not told yet
  | @post j hc =>
    have hmode := hi.mode
    have hfacts := hi.facts
    rw [hc] at hmode hfacts
    have hlen := hi.all_run (by rw [hc]; rfl)
    refine ⟨fun k hk => ?_, hm', ?_, ?_, ?_, ?_, hi.history.post rfl rfl rfl⟩
    · exact (State.move_caller_of_ne hk _).trans (hi.others k hk)
    · simp only [hself]
      exact hmode
    · simp only [hself]
      exact ⟨hfacts, by simp, hlen, s.slot, rfl⟩
    · simp only [hself]
      intro t j' h
      cases h
      refine ⟨by simp, fun r hr => ?_⟩
      exact (List.getElem?_eq_some_iff.mp (hi.history.returned r hr).1).1
    · simp only [hself]
      exact nofun
  -- with the flags set, the quiet worker becomes one that has a job
  | flags hc =>
    refine hi.moved hc rfl rfl rfl rfl rfl hm' fun hmode hfacts => ?_
    obtain ⟨hready, ht, hposted⟩ := hfacts
    exact ⟨Quiet.pending hmode ht hposted, hready⟩
  | signal hc =>
    refine hi.moved hc rfl rfl rfl rfl rfl hm' fun hmode hfacts => ?_
    exact ⟨Pending.wake hmode, hfacts⟩
  | joinSpurious hc =>
    refine hi.moved hc rfl rfl rfl rfl rfl hm' fun hmode hfacts => ?_
    exact ⟨hmode, hfacts.1⟩
  | joinWait hc hdone =>
    refine hi.moved hc rfl rfl rfl rfl rfl hm' fun hmode hfacts => ⟨hmode, hfacts, fun h => ?_⟩
    exact absurd (hdone.symm.trans h) nofun
  -- the caller has the mutex, so the worker that is done has left it
  | joinLeave hc hdone =>
    have hfree : s.worker.holds = false := by
      have hmine := hi.mutex.caller.mp (by rw [hc]; rfl)
      rw [← Bool.not_eq_true, hi.mutex.worker, hmine]
      exact nofun
    refine hi.moved hc rfl rfl rfl rfl rfl hm' fun hmode hfacts => ?_
    obtain ⟨hquiet, ht, hs⟩ := Pending.done hmode hdone hfree
    exact ⟨hquiet, hfacts, ht, hs⟩
  | @collect t j hc =>
    have hmode := hi.mode
    have hfacts := hi.facts
    rw [hc] at hmode hfacts
    obtain ⟨hready, ht, hs⟩ := hfacts
    obtain ⟨hpost, hnew⟩ := hi.job t j (by rw [hc]; rfl)
    refine ⟨fun k hk => ?_, hm', ?_, ?_, ?_, ?_, hi.history.collect hpost hnew hs rfl rfl rfl⟩
    · exact (State.move_caller_of_ne hk _).trans (hi.others k hk)
    · simp only [hself]
      change (Caller.mode s.ready .idle).Holds pool oracle s
      rw [hready]
      exact hmode
    · simp only [hself]
      exact trivial
    · simp only [hself]
      exact nofun
    · intro _
      exact hs.1.trans ht
  | initMem hc =>
    refine hi.moved hc rfl rfl rfl rfl rfl hm' fun hmode hfacts => ?_
    exact ⟨hmode, hfacts, rfl, rfl⟩
  | initCreate hc hoff =>
    refine hi.moved hc rfl rfl rfl rfl rfl hm' fun _ hfacts => ?_
    obtain ⟨hready, hw, hs⟩ := hfacts
    exact ⟨⟨hw, hs, rfl⟩, hready⟩
  | initFail hc =>
    refine hi.moved hc rfl rfl rfl rfl rfl hm' fun hmode hfacts => ⟨?_, trivial⟩
    change (Caller.mode s.ready .idle).Holds pool oracle s
    rw [hfacts.1]
    exact hmode
  | initSet hc | shutReset hc =>
    exact hi.moved hc rfl rfl rfl rfl rfl hm' fun hmode _ => ⟨hmode, trivial⟩
  -- the quiet worker becomes one that is to exit
  | shutSet hc =>
    refine hi.moved hc rfl rfl rfl rfl rfl hm' fun hmode hfacts => ?_
    exact ⟨Quiet.closing hmode, hfacts⟩
  | shutSignal hc =>
    refine hi.moved hc rfl rfl rfl rfl rfl hm' fun hmode hfacts => ?_
    exact ⟨Closing.wake hmode, hfacts⟩
  | shutJoin hc hexit =>
    exact hi.moved hc rfl rfl rfl rfl rfl hm' fun _ hfacts => ⟨rfl, hfacts⟩

/-! ### Steps of a run -/

theorem Inv.notify_step (hi : Inv pool oracle s i) (h : NotifyStep s s') :
    Inv pool oracle s' i := by
  cases h with
  | @one k t j hw hc =>
    obtain rfl : k = i := by
      by_contra hne
      rw [hi.others k hne] at hc
      cases hc
    refine hi.moved hc rfl rfl rfl rfl rfl (hi.mutex.of_holds rfl ?_ ?_) fun hmode hfacts => ?_
    · rw [hw]
      rfl
    · rw [State.move_caller_self, hc]
      rfl
    · obtain ⟨h1, h2, h3⟩ := hmode
      rw [hw] at h3
      exact ⟨⟨h1, h2, h3⟩, hfacts.1⟩
  | nobody hw hnone =>
    refine ⟨hi.others, hi.mutex.of_holds rfl (by rw [hw]; rfl) rfl, ?_, ?_, hi.job, hi.all_run,
      hi.history.of_eq rfl rfl rfl⟩
    · have hmode := hi.mode
      change ((s.caller i).mode s.ready).Holds pool oracle _
      revert hmode
      rcases (s.caller i).mode s.ready with _ | _ | ⟨u, t, j⟩ | u <;> intro hmode
      · exact absurd (hw.symm.trans hmode) nofun
      · exact absurd hmode.2.2 (by simp [hw, Worker.quiet])
      · obtain ⟨h1, h2, h3⟩ := hmode
        rw [hw] at h3
        exact ⟨h1, h2, h3⟩
      · exact absurd hmode.2.2 (by simp [hw])
    · have hfacts := hi.facts
      change Facts pool oracle _ (s.caller i)
      revert hfacts
      cases hc : s.caller i with
      | joinWait t j => exact absurd hc (hnone i t j)
      | _ => exact id

/-- Nobody being busy, anybody may be next. -/
theorem Inv.change (hi : Inv pool oracle s i) (hidle : s.caller i = .idle) (k : ι) :
    Inv pool oracle s k := by
  have hall : ∀ m, s.caller m = .idle := fun m => by
    by_cases hm : m = i
    · rw [hm, hidle]
    · exact hi.others m hm
  have hfree : ∀ m, s.mutex ≠ some (some m) := fun m hm => by
    have := hi.mutex.caller.mpr (hi.mutex.other m hm ▸ hm)
    rw [hidle] at this
    cases this
  have heq : s.caller k = s.caller i := by rw [hall k, hidle]
  refine ⟨fun m _ => hall m, ⟨hi.mutex.worker, ?_, fun m hm => absurd hm (hfree m)⟩,
    heq ▸ hi.mode, heq ▸ hi.facts, ?_, heq ▸ hi.all_run, hi.history⟩
  · rw [hall k]
    exact ⟨nofun, fun h => absurd h (hfree k)⟩
  · rw [hall k]
    exact nofun

theorem CallerStep.others (h : CallerStep pool i s s') {k : ι} (hk : k ≠ i) :
    s'.caller k = s.caller k := by
  cases h <;> exact State.move_caller_of_ne hk _

/-- A caller that starts is busy. -/
theorem CallerStep.busy (h : CallerStep pool i s s') (hidle : s.caller i = .idle) :
    s'.caller i ≠ .idle := by
  cases h <;> simp_all

theorem Inv.step (hi : Inv pool oracle s i) (h : Step pool fetch oracle s s') (hsolo : Solo s') :
    ∃ k, Inv pool oracle s' k := by
  cases h with
  | worker h => exact ⟨i, hi.worker_step h⟩
  | notify h => exact ⟨i, hi.notify_step h⟩
  | caller k h =>
    by_cases hk : k = i
    · subst hk
      exact ⟨k, hi.caller_step h⟩
    · have hbusy := h.busy (hi.others k hk)
      have hidle : s.caller i = .idle := by
        rw [← h.others (Ne.symm hk)]
        by_contra hne
        exact hk (hsolo k i hbusy hne)
      exact ⟨k, (hi.change hidle k).caller_step h⟩

theorem Inv.solo (hi : Inv pool oracle s i) : Solo s := by
  have hall : ∀ m, s.caller m ≠ .idle → m = i := fun m hm => by
    by_contra hne
    exact hm (hi.others m hne)
  intro m k hm hk
  rw [hall m hm, hall k hk]

end Preservation

/-! ## Solo runs -/

section Runs

variable {pool : Pool Job Slot Desc Out O} {fetch : Fetch} {oracle : ℕ → O}
  {s : State ι Job Slot Desc Out}

theorem SoloReachable.inv [DecidableEq ι] [Nonempty ι] (h : SoloReachable pool fetch oracle s) :
    ∃ i, Inv pool oracle s i := by
  induction h with
  | init => exact (inferInstance : Nonempty ι).elim fun i => ⟨i, inv_init i⟩
  | step _ hstep hsolo ih =>
    obtain ⟨i, hi⟩ := ih
    exact hi.step hstep hsolo

/-! ## What the invariant says -/

/-- The caller reads or writes the slot. -/
def Caller.touches : Caller Job → Bool
  | .post _ | .collect .. | .initMem => true
  | _ => false

/-- The worker reads or writes the slot. -/
def Worker.touches : Worker Desc → Bool
  | .leave | .begin _ | .work .. => true
  | _ => false

/-- A caller waits for the worker. -/
def Caller.waits : Caller Job → Bool
  | .joinWait .. | .shutJoin => true
  | _ => false

/-- The slot is never used by a caller and the worker at once. -/
theorem Inv.not_touching_both {i : ι} (hi : Inv pool oracle s i) (k : ι)
    (h : (s.caller k).touches = true) : s.worker.touches = false := by
  by_cases hk : k = i
  · subst hk
    have hmode := hi.mode
    revert h hmode
    cases s.caller k <;> simp [Caller.touches, Caller.mode, Mode.Holds, Quiet]
    all_goals cases s.worker <;> simp [Worker.touches, Worker.quiet]
  · rw [hi.others k hk] at h
    cases h

/-- When nobody is busy, the worker does not use the slot. -/
theorem Inv.not_touching_of_idle {i : ι} (hi : Inv pool oracle s i) (h : s.caller i = .idle) :
    s.worker.touches = false := by
  have hmode := hi.mode
  rw [h] at hmode
  cases hr : s.ready with
  | false =>
    rw [hr] at hmode
    rw [show s.worker = .off from hmode]
    rfl
  | true =>
    rw [hr] at hmode
    have hq : s.worker.quiet = true := hmode.2.2
    revert hq
    cases s.worker <;> simp [Worker.touches, Worker.quiet]

/-- No caller waits for the worker while the worker waits for it. -/
theorem Inv.not_waiting_both {i : ι} (hi : Inv pool oracle s i) (k : ι)
    (h : (s.caller k).waits = true) : s.worker ≠ .waiting := by
  intro hw
  by_cases hk : k = i
  · subst hk
    have hmode := hi.mode
    have hfacts := hi.facts
    cases hc : s.caller k with
    | joinWait t j =>
      rw [hc] at hmode hfacts
      obtain ⟨-, -, hp⟩ := hmode
      rw [hw] at hp
      obtain ⟨hno, -⟩ | ⟨-, hdone, -⟩ := hp
      · cases hno
      · exact absurd (hw.symm.trans (hfacts.2 hdone)) nofun
    | shutJoin =>
      rw [hc] at hmode
      exact absurd hmode.2.2 (by simp [hw])
    | _ =>
      rw [hc] at h
      cases h
  · rw [hi.others k hk] at h
    cases h

end Runs

end Handoff
