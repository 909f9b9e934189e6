import HybridPqc.Lib.Handoff.Invariant
import Mathlib.Logic.Relation

/-!
# A busy caller can finish

In a solo run the busy caller is never stuck: from any state there is a way for
it to get to its end (`SoloReachable.can_finish`). The way is to let the caller
move when it can, and the worker otherwise; `State.rank` gets smaller with
every step of it.
-/

namespace Handoff

variable {ι Job Slot Desc Out O : Type}

section Runs

variable [DecidableEq ι] {pool : Pool Job Slot Desc Out O} {fetch : Fetch} {oracle : ℕ → O}
  {s s' : State ι Job Slot Desc Out}

/-- How far the worker is from waiting for work. -/
def Worker.rank (busy : Bool) : Worker Desc → ℕ
  | .start => if busy then 14 else 0
  | .lock | .waiting | .woken => if busy then 13 else 0
  | .check => if busy then 12 else 3
  | .leave => 11
  | .decide => 10
  | .begin _ => 9
  | .work .. => 8
  | .lockDone => 7
  | .mark => 6
  | .notify => 5
  | .unlock => 4
  | .off | .exited => 0

/-- How far a caller is from being done. -/
def Caller.rank : Caller Job → ℕ
  | .idle => 0
  | .collect .. | .initSet | .shutReset => 1000
  | .joinUnlock .. | .initCreate | .shutJoin => 2000
  | .joinWait .. => 3000
  | .joinCheck .. => 3001
  | .joinWoken .. | .joinLock .. => 3002
  | .initMem | .shutUnlock | .overlap .. => 3003
  | .postUnlock .. => 3004
  | .signal .. | .shutSignal => 4000
  | .flags .. | .shutSet => 5000
  | .post _ | .shutLock => 6000
  | .postLock _ => 7000

/-- How far the pool is from being done with the caller `i`. -/
def State.rank (s : State ι Job Slot Desc Out) (i : ι) : ℕ :=
  (s.caller i).rank + 20 * s.worker.rank (s.hasWork || s.shutdown)

theorem Worker.rank_le (busy : Bool) (w : Worker Desc) : w.rank busy ≤ 14 := by
  cases w <;> cases busy <;> simp [Worker.rank]

/-- The worker moves on, if it has the mutex or could have it, and has work to do. -/
theorem Inv.worker_progress {i : ι} (hi : Inv pool oracle s i)
    (hoff : s.worker ≠ .off ∧ s.worker ≠ .exited ∧ s.worker ≠ .waiting)
    (hfree : s.worker.holds = true ∨ s.mutex = none ∧ (s.hasWork || s.shutdown) = true)
    (hunlock : s.worker = .unlock → (s.hasWork || s.shutdown) = false) :
    ∃ s', (WorkerStep pool fetch oracle s s' ∨ NotifyStep s s') ∧ s'.rank i < s.rank i := by
  cases hw : s.worker with
  -- these wait for another thread
  | off | exited | waiting => simp [hw] at hoff
  | start =>
    refine ⟨_, .inl (.start hw), ?_⟩
    simp_all [State.rank, Worker.rank, Worker.holds]
  | lock =>
    have hmx : s.mutex = none := by simp_all [Worker.holds]
    refine ⟨_, .inl (.lock hw hmx), ?_⟩
    simp_all [State.rank, Worker.rank, Worker.holds]
  | woken =>
    have hmx : s.mutex = none := by simp_all [Worker.holds]
    refine ⟨_, .inl (.relock hw hmx), ?_⟩
    simp_all [State.rank, Worker.rank, Worker.holds]
  | check =>
    -- with work to do it leaves the loop, without it waits
    by_cases hbusy : (s.hasWork || s.shutdown) = true
    · refine ⟨_, .inl (.leave hw hbusy), ?_⟩
      simp [State.rank, Worker.rank, hw, hbusy]
    · obtain ⟨h1, h2⟩ : s.hasWork = false ∧ s.shutdown = false := by simpa using hbusy
      refine ⟨_, .inl (.wait hw h1 h2), ?_⟩
      simp [State.rank, Worker.rank, hw, h1, h2]
  | leave =>
    cases fetch with
    | inPlace =>
      refine ⟨_, .inl (.release rfl hw), ?_⟩
      simp [State.rank, Worker.rank, hw]
    | underLock =>
      cases hsh : s.shutdown with
      | false =>
        refine ⟨_, .inl (.takeUnderLock rfl hw hsh), ?_⟩
        simp [State.rank, Worker.rank, hw]
      | true =>
        refine ⟨_, .inl (.exitUnderLock rfl hw hsh), ?_⟩
        simp [State.rank, Worker.rank, hw]
  | decide =>
    cases hsh : s.shutdown with
    | false =>
      refine ⟨_, .inl (.stay hw hsh), ?_⟩
      simp [State.rank, Worker.rank, hw]
    | true =>
      refine ⟨_, .inl (.exitInPlace hw hsh), ?_⟩
      simp [State.rank, Worker.rank, hw]
  | begin job =>
    refine ⟨_, .inl (.begin hw), ?_⟩
    simp [State.rank, Worker.rank, hw]
  | work t d =>
    refine ⟨_, .inl (.work hw), ?_⟩
    simp [State.rank, Worker.rank, hw]
  | lockDone =>
    have hmx : s.mutex = none := by simp_all [Worker.holds]
    refine ⟨_, .inl (.lockDone hw hmx), ?_⟩
    simp [State.rank, Worker.rank, hw]
  | mark =>
    refine ⟨_, .inl (.mark hw), ?_⟩
    simp [State.rank, Worker.rank, hw]
  | notify =>
    by_cases hex : ∃ k t j, s.caller k = .joinWait t j
    · obtain ⟨k, t, j, hc⟩ := hex
      obtain rfl : k = i := by
        by_contra hne
        rw [hi.others k hne] at hc
        cases hc
      refine ⟨_, .inr (.one hw hc), ?_⟩
      simp [State.rank, Worker.rank, Caller.rank, hw, hc]
    · refine ⟨_, .inr (.nobody hw fun k t j hc => hex ⟨k, t, j, hc⟩), ?_⟩
      simp [State.rank, Worker.rank, hw]
  | unlock =>
    refine ⟨_, .inl (.unlock hw), ?_⟩
    simp [State.rank, Worker.rank, hw, hunlock hw]

/-- So does the run. -/
theorem Inv.worker_progress_step {i : ι} (hi : Inv pool oracle s i)
    (h : ∃ s', (WorkerStep pool fetch oracle s s' ∨ NotifyStep s s') ∧ s'.rank i < s.rank i) :
    ∃ s', Step pool fetch oracle s s' ∧ Inv pool oracle s' i ∧ s'.rank i < s.rank i := by
  obtain ⟨s', h | h, hlt⟩ := h
  · exact ⟨s', .worker h, hi.worker_step h, hlt⟩
  · exact ⟨s', .notify h, hi.notify_step h, hlt⟩

/-- As long as a caller is busy, some thread can bring it closer to its end. -/
theorem Inv.progress {i : ι} (hi : Inv pool oracle s i) (hbusy : s.caller i ≠ .idle) :
    ∃ s', Step pool fetch oracle s s' ∧ Inv pool oracle s' i ∧ s'.rank i < s.rank i := by
  have hmode := hi.mode
  have hfacts := hi.facts
  -- the worker signals back with no work left
  have hunlock : s.worker = .unlock → (s.hasWork || s.shutdown) = false := by
    intro hw
    revert hmode
    rcases (s.caller i).mode s.ready with _ | _ | ⟨u, t, j⟩ | u <;>
      simp_all [Mode.Holds, Quiet, Pending, Closing, Done, Worker.quiet]
  by_cases hhold : s.worker.holds = true
  · refine hi.worker_progress_step (hi.worker_progress ?_ (.inl hhold) hunlock)
    refine ⟨?_, ?_, ?_⟩ <;> intro h <;> rw [h] at hhold <;> cases hhold
  · have hhold : s.worker.holds = false := by simpa using hhold
    have hfree := hi.mutex.free hhold
    -- a caller's step counts for more than anything the worker may do after it,
    have hjump : ∀ {s'}, CallerStep pool i s s' →
        (s'.caller i).rank + 300 ≤ (s.caller i).rank →
        ∃ s', Step pool fetch oracle s s' ∧ Inv pool oracle s' i ∧ s'.rank i < s.rank i := by
      intro s' h hlt
      have := Worker.rank_le (s'.hasWork || s'.shutdown) s'.worker
      exact ⟨s', .caller i h, hi.caller_step h, by rw [State.rank, State.rank]; omega⟩
    -- or else does not concern the worker
    have hmove : ∀ {s'}, CallerStep pool i s s' → (s'.caller i).rank < (s.caller i).rank →
        s'.worker = s.worker → (s'.hasWork || s'.shutdown) = (s.hasWork || s.shutdown) →
        ∃ s', Step pool fetch oracle s s' ∧ Inv pool oracle s' i ∧ s'.rank i < s.rank i := by
      intro s' h hlt hw hb
      exact ⟨s', .caller i h, hi.caller_step h, by rw [State.rank, State.rank, hw, hb]; omega⟩
    cases hc : s.caller i with
    | idle => exact absurd hc hbusy
    | postLock j => exact hjump (.postLock hc (hfree (by rw [hc]; rfl))) (by simp [hc, Caller.rank])
    | post j => exact hjump (.post hc) (by simp [hc, Caller.rank])
    | flags t j => exact hjump (.flags hc) (by simp [hc, Caller.rank])
    | signal t j => exact hjump (.signal hc) (by simp [hc, Caller.rank, State.wake])
    | postUnlock t j => exact hmove (.postUnlock hc) (by simp [hc, Caller.rank]) rfl rfl
    | overlap t j => exact hmove (.callJoin hc) (by simp [hc, Caller.rank]) rfl rfl
    | joinLock t j =>
      exact hmove (.joinLock hc (hfree (by rw [hc]; rfl))) (by simp [hc, Caller.rank]) rfl rfl
    | joinCheck t j =>
      cases hdone : s.workDone with
      | false => exact hmove (.joinWait hc hdone) (by simp [hc, Caller.rank]) rfl rfl
      | true => exact hjump (.joinLeave hc hdone) (by simp [hc, Caller.rank])
    -- the caller waits for the worker, which has the job still to do
    | joinWait t j =>
      rw [hc] at hmode hfacts
      obtain ⟨-, -, hp⟩ := hmode
      refine hi.worker_progress_step
        (hi.worker_progress ?_ (.inr ⟨hfree (by rw [hc]; rfl), ?_⟩) hunlock)
      · have hnot := hi.not_waiting_both i (by rw [hc]; rfl)
        cases hw : s.worker <;> simp_all
      · have hdone : s.workDone = false := by
          by_contra hdone
          rw [hfacts.2 (by simpa using hdone)] at hhold
          cases hhold
        cases hw : s.worker with
        | begin job => cases job <;> simp_all [Todo]
        | _ => simp_all [Todo, Done]
    | joinWoken t j =>
      exact hmove (.joinRelock hc (hfree (by rw [hc]; rfl))) (by simp [hc, Caller.rank]) rfl rfl
    | joinUnlock t j => exact hjump (.joinUnlock hc) (by simp [hc, Caller.rank])
    | collect t j => exact hjump (.collect hc) (by simp [hc, Caller.rank])
    | initMem => exact hjump (.initMem hc) (by simp [hc, Caller.rank])
    | initCreate =>
      rw [hc] at hmode
      exact hjump (.initCreate hc hmode) (by simp [hc, Caller.rank])
    | initSet => exact hjump (.initSet hc) (by simp [hc, Caller.rank])
    | shutLock => exact hjump (.shutLock hc (hfree (by rw [hc]; rfl))) (by simp [hc, Caller.rank])
    | shutSet => exact hjump (.shutSet hc) (by simp [hc, Caller.rank])
    | shutSignal => exact hjump (.shutSignal hc) (by simp [hc, Caller.rank, State.wake])
    | shutUnlock => exact hjump (.shutUnlock hc) (by simp [hc, Caller.rank])
    -- or for its end, which it has been told of
    | shutJoin =>
      rw [hc] at hmode
      by_cases hexit : s.worker = .exited
      · exact hjump (.shutJoin hc hexit) (by simp [hc, Caller.rank])
      · refine hi.worker_progress_step
          (hi.worker_progress ?_ (.inr ⟨hfree (by rw [hc]; rfl), ?_⟩) hunlock)
        · have hnot := hi.not_waiting_both i (by rw [hc]; rfl)
          refine ⟨fun hw => ?_, hexit, hnot⟩
          exact absurd hmode.2.2 (by simp [hw])
        · rw [hmode.1, Bool.or_true]
    | shutReset => exact hjump (.shutReset hc) (by simp [hc, Caller.rank])

/-- From any state of a solo run, the busy caller can run to its end. -/
theorem SoloReachable.can_finish {i : ι} (h : SoloReachable pool fetch oracle s)
    (hi : Inv pool oracle s i) :
    ∃ s', SoloReachable pool fetch oracle s' ∧ Relation.ReflTransGen (Step pool fetch oracle) s s' ∧
      Inv pool oracle s' i ∧ s'.caller i = .idle := by
  generalize hn : s.rank i = n
  induction n using Nat.strongRecOn generalizing s with
  | ind n ih =>
    by_cases hbusy : s.caller i = .idle
    · exact ⟨s, h, .refl, hi, hbusy⟩
    · obtain ⟨s₁, (hstep : Step pool fetch oracle s s₁), hi₁, hlt⟩ := hi.progress hbusy
      obtain ⟨s', h', hsteps, hi', hidle⟩ := ih _ (hn ▸ hlt) (h.step hstep hi₁.solo) hi₁ rfl
      exact ⟨s', h', .head hstep hsteps, hi', hidle⟩

/-! ## Uninterrupted calls

What a caller or the worker does if no other thread moves in the meantime. -/

/-- Steps of a run. -/
abbrev Steps (pool : Pool Job Slot Desc Out O) (fetch : Fetch) (oracle : ℕ → O) :
    State ι Job Slot Desc Out → State ι Job Slot Desc Out → Prop :=
  Relation.ReflTransGen (Step pool fetch oracle)

theorem Reachable.steps (h : Reachable pool fetch oracle s) (hs : Steps pool fetch oracle s s') :
    Reachable pool fetch oracle s' := by
  induction hs with
  | refl => exact h
  | tail _ hs ih => exact ih.step hs

/-- A step of the caller `i`, or of the worker, that no other caller waits for. -/
inductive StepOf (pool : Pool Job Slot Desc Out O) (fetch : Fetch) (oracle : ℕ → O) (i : ι) :
    State ι Job Slot Desc Out → State ι Job Slot Desc Out → Prop
  | worker {u u'} : WorkerStep pool fetch oracle u u' → StepOf pool fetch oracle i u u'
  | nobody {u} : u.worker = .notify → (∀ k t j, u.caller k ≠ .joinWait t j) →
      StepOf pool fetch oracle i u { u with worker := .unlock }
  | caller {u u'} : CallerStep pool i u u' → StepOf pool fetch oracle i u u'

theorem StepOf.step {i : ι} (h : StepOf pool fetch oracle i s s') : Step pool fetch oracle s s' := by
  cases h with
  | worker h => exact .worker h
  | nobody hw hnone => exact .notify (.nobody hw hnone)
  | caller h => exact .caller i h

theorem StepOf.others {i k : ι} (h : StepOf pool fetch oracle i s s') (hk : k ≠ i) :
    s'.caller k = s.caller k := by
  cases h with
  | worker h => rw [h.frame.1]
  | nobody => rfl
  | caller h => exact h.others hk

/-- Steps of the caller `i` and the worker. -/
abbrev StepsOf (pool : Pool Job Slot Desc Out O) (fetch : Fetch) (oracle : ℕ → O) (i : ι) :
    State ι Job Slot Desc Out → State ι Job Slot Desc Out → Prop :=
  Relation.ReflTransGen (StepOf pool fetch oracle i)

theorem StepsOf.steps {i : ι} (h : StepsOf pool fetch oracle i s s') :
    Steps pool fetch oracle s s' := by
  induction h with
  | refl => exact .refl
  | tail _ hs ih => exact ih.tail hs.step

omit [DecidableEq ι] in
theorem solo_of_others {i : ι} (h : ∀ k, k ≠ i → s.caller k = .idle) : Solo s := by
  have heq : ∀ k, s.caller k ≠ .idle → k = i := fun k hk => by
    by_contra hne
    exact hk (h k hne)
  exact fun k m hk hm => (heq k hk).trans (heq m hm).symm

/-- A run of a single caller is solo. -/
theorem SoloReachable.stepsOf {i : ι} (h : SoloReachable pool fetch oracle s)
    (hs : StepsOf pool fetch oracle i s s') (hidle : ∀ k, k ≠ i → s.caller k = .idle) :
    SoloReachable pool fetch oracle s' ∧ ∀ k, k ≠ i → s'.caller k = .idle := by
  induction hs with
  | refl => exact ⟨h, hidle⟩
  | tail _ hs ih =>
    obtain ⟨h, hidle⟩ := ih
    have hidle' := fun k (hk : k ≠ i) => (hs.others hk).trans (hidle k hk)
    exact ⟨h.step hs.step (solo_of_others hidle'), hidle'⟩

variable {t : ℕ} {j : Job} {ready hasWork workDone : Bool} {mutex : Option (Option ι)}
  {slot : Slot} {worker : Worker Desc} {caller : ι → Caller Job} {posted : List (ι × Job)}
  {runs : List (ℕ × Desc)} {returned : List (Returned ι Job Out)}

/-- A caller starts the pool. -/
theorem steps_start (i : ι) {shutdown : Bool} (hc : caller i = .idle) :
    StepsOf pool fetch oracle i
    ⟨false, mutex, hasWork, workDone, shutdown, slot, .off, caller, posted, runs, returned⟩
    ⟨true, none, false, false, false, pool.blank, .start, Function.update caller i .idle, posted,
      runs, returned⟩ := by
  refine .head (.caller (.callInit hc rfl)) ?_
  dsimp only [State.move]
  refine .head (.caller (.initMem (Function.update_self ..))) ?_
  dsimp only [State.move]
  refine .head (.caller (.initCreate (Function.update_self ..) rfl)) ?_
  dsimp only [State.move]
  refine .head (.caller (.initSet (Function.update_self ..))) ?_
  simp only [State.move, Function.update_idem]
  exact .refl

/-- A caller dispatches a job to a worker that does not wait. -/
theorem steps_dispatch (i : ι) (j : Job) {shutdown : Bool} (hc : caller i = .idle)
    (hw : worker.signalled = worker) : StepsOf pool fetch oracle i
    ⟨true, none, hasWork, workDone, shutdown, slot, worker, caller, posted, runs, returned⟩
    ⟨true, none, true, false, shutdown, pool.post j slot, worker,
      Function.update caller i (.overlap posted.length j), posted ++ [(i, j)], runs, returned⟩ := by
  refine .head (.caller (@CallerStep.callPost _ _ _ _ _ _ _ _ _ _ j hc rfl)) ?_
  dsimp only [State.move]
  refine .head (.caller (.postLock (Function.update_self ..) rfl)) ?_
  dsimp only [State.move]
  refine .head (.caller (.post (Function.update_self ..))) ?_
  dsimp only [State.move]
  refine .head (.caller (.flags (Function.update_self ..))) ?_
  dsimp only [State.move]
  refine .head (.caller (.signal (Function.update_self ..))) ?_
  dsimp only [State.move, State.wake]
  refine .head (.caller (.postUnlock (Function.update_self ..))) ?_
  simp only [State.move, Function.update_idem, hw]
  exact .refl

/-- The worker does the job it reads in place, and nobody waits for it. -/
theorem steps_work (i : ι) (hnobody : ∀ k t j, caller k ≠ .joinWait t j) :
    StepsOf pool .inPlace oracle i
    ⟨ready, none, true, workDone, false, slot, .lock, caller, posted, runs, returned⟩
    ⟨ready, none, false, true, false,
      pool.store (oracle runs.length) (pool.read slot) (pool.clear slot), .lock, caller, posted,
      runs ++ [(posted.length - 1, pool.read slot)], returned⟩ := by
  refine .head (.worker (.lock rfl rfl)) ?_
  refine .head (.worker (.leave rfl rfl)) ?_
  refine .head (.worker (.release rfl rfl)) ?_
  refine .head (.worker (.stay rfl rfl)) ?_
  refine .head (.worker (.begin rfl)) ?_
  refine .head (.worker (.work rfl)) ?_
  refine .head (.worker (.lockDone rfl rfl)) ?_
  refine .head (.worker (.mark rfl)) ?_
  refine .head (.nobody rfl hnobody) ?_
  exact .single (.worker (.unlock rfl))

/-- A caller collects the result, the worker being done. -/
theorem steps_await (i : ι) {shutdown : Bool} (hc : caller i = .overlap t j) :
    StepsOf pool fetch oracle i
    ⟨ready, none, hasWork, true, shutdown, slot, worker, caller, posted, runs, returned⟩
    ⟨ready, none, hasWork, true, shutdown, slot, worker, Function.update caller i .idle, posted,
      runs, returned ++ [⟨i, t, j, runs.length, pool.collect slot⟩]⟩ := by
  refine .head (.caller (.callJoin hc)) ?_
  dsimp only [State.move]
  refine .head (.caller (.joinLock (Function.update_self ..) rfl)) ?_
  dsimp only [State.move]
  refine .head (.caller (.joinLeave (Function.update_self ..) rfl)) ?_
  dsimp only [State.move]
  refine .head (.caller (.joinUnlock (Function.update_self ..))) ?_
  dsimp only [State.move]
  refine .head (.caller (.collect (Function.update_self ..))) ?_
  simp only [State.move, Function.update_idem]
  exact .refl

end Runs

end Handoff
