import HybridPqc.Lib.Prog
import Mathlib.Data.List.Basic
import Mathlib.Logic.Relation
import Mathlib.Logic.Function.Basic

/-!
# Handing jobs over to a worker

Threads (the *callers*) hand jobs over to a persistent worker thread through one
shared slot, a mutex, two condition variables and three flags:

* a caller posts its job in the slot, sets `hasWork`, clears `workDone` and
  signals the worker, all under the mutex; it then goes on with something else,
  and in the end waits for `workDone` and collects the result from the slot,
  without the mutex;
* the worker waits for `hasWork` or `shutdown`, takes the job, works on it
  without the mutex, then sets `workDone`, clears `hasWork` and signals back;
* the pool is started (the slot is blanked, the flags are cleared, the worker is
  created) and shut down (`shutdown` is set, the worker is joined).

A worker takes the job `underLock`, before it releases the mutex, or reads it
`inPlace` from the slot once it has. Waits may wake up for no reason, and the
worker may be late to start. What the worker makes of its `n`-th job may depend
on an outcome `oracle n`.

A run is *solo* if no two callers are ever busy at once (as when there is only
one).
-/

namespace Handoff

variable {ι Job Slot Desc Out O : Type}

/-- What is in a pool: the contents of the slot, and what is made of jobs. -/
structure Pool (Job Slot Desc Out O : Type) where
  /-- The slot of a pool just started. -/
  blank : Slot
  /-- Posting a job. -/
  post : Job → Slot → Slot
  /-- What the worker needs to know of a job. -/
  desc : Job → Desc
  /-- Reading it from the slot. -/
  read : Slot → Desc
  /-- The worker clearing the result. -/
  clear : Slot → Slot
  /-- The worker storing the result of its work, with the given outcome. -/
  store : O → Desc → Slot → Slot
  /-- Collecting the result. -/
  collect : Slot → Out
  /-- The result of a job, with the given outcome of the work on it. -/
  result : O → Job → Out
  read_post : ∀ j s, read (post j s) = desc j
  collect_store : ∀ o j s, collect (store o (desc j) (clear (post j s))) = result o j

/-- When the worker reads its job. -/
inductive Fetch
  | underLock
  | inPlace

/-- Where the worker is. -/
inductive Worker (Desc : Type)
  /-- There is none. -/
  | off
  /-- Created, not in its loop yet. -/
  | start
  /-- About to lock the mutex. -/
  | lock
  /-- Testing the flags, with the mutex. -/
  | check
  /-- Waiting to be woken. -/
  | waiting
  /-- Woken, about to lock the mutex again. -/
  | woken
  /-- Out of the wait, with the mutex. -/
  | leave
  /-- Without the mutex, about to test `shutdown`. -/
  | decide
  /-- About to work on a job, with what it knows of it. -/
  | begin (job : Option (ℕ × Desc))
  /-- Working on a job. -/
  | work (t : ℕ) (d : Desc)
  /-- Done, about to lock the mutex. -/
  | lockDone
  /-- About to set the flags, with the mutex. -/
  | mark
  /-- About to signal back, with the mutex. -/
  | notify
  /-- About to release the mutex. -/
  | unlock
  | exited

/-- Where the worker is once it has been signalled. -/
def Worker.signalled : Worker Desc → Worker Desc
  | .waiting => .woken
  | w => w

/-- Where a caller is. -/
inductive Caller (Job : Type)
  | idle
  /-- About to lock the mutex, to post a job. -/
  | postLock (j : Job)
  /-- About to write the slot, with the mutex. -/
  | post (j : Job)
  /-- About to set the flags, with the mutex. -/
  | flags (t : ℕ) (j : Job)
  /-- About to signal the worker, with the mutex. -/
  | signal (t : ℕ) (j : Job)
  /-- About to release the mutex. -/
  | postUnlock (t : ℕ) (j : Job)
  /-- Doing something else in the meantime. -/
  | overlap (t : ℕ) (j : Job)
  /-- About to lock the mutex, to wait. -/
  | joinLock (t : ℕ) (j : Job)
  /-- Testing `workDone`, with the mutex. -/
  | joinCheck (t : ℕ) (j : Job)
  /-- Waiting to be woken. -/
  | joinWait (t : ℕ) (j : Job)
  /-- Woken, about to lock the mutex again. -/
  | joinWoken (t : ℕ) (j : Job)
  /-- About to release the mutex. -/
  | joinUnlock (t : ℕ) (j : Job)
  /-- About to collect the result. -/
  | collect (t : ℕ) (j : Job)
  /-- About to blank the pool. -/
  | initMem
  /-- About to create the worker. -/
  | initCreate
  /-- About to mark the pool as started. -/
  | initSet
  /-- About to lock the mutex, to shut down. -/
  | shutLock
  /-- About to set `shutdown`, with the mutex. -/
  | shutSet
  /-- About to signal the worker, with the mutex. -/
  | shutSignal
  /-- About to release the mutex. -/
  | shutUnlock
  /-- Joining the worker. -/
  | shutJoin
  /-- About to mark the pool as not started. -/
  | shutReset

/-- A result collected: by whom, for which job, how many runs the worker had
    finished, and the result. -/
structure Returned (ι Job Out : Type) where
  caller : ι
  ticket : ℕ
  job : Job
  runs : ℕ
  out : Out

/-- The state of the pool and its threads, with their history: the jobs posted
    (numbered from `0`), the runs of the worker, each with the number of the job
    in the slot when it was read, and the results collected. -/
structure State (ι Job Slot Desc Out : Type) where
  ready : Bool
  mutex : Option (Option ι)
  hasWork : Bool
  workDone : Bool
  shutdown : Bool
  slot : Slot
  worker : Worker Desc
  caller : ι → Caller Job
  posted : List (ι × Job)
  runs : List (ℕ × Desc)
  returned : List (Returned ι Job Out)

/-- The pool before it is started. -/
def State.init (pool : Pool Job Slot Desc Out O) : State ι Job Slot Desc Out where
  ready := false
  mutex := none
  hasWork := false
  workDone := false
  shutdown := false
  slot := pool.blank
  worker := .off
  caller _ := .idle
  posted := []
  runs := []
  returned := []

namespace State

/-- The state once the caller `i` has moved. -/
def move [DecidableEq ι] (s : State ι Job Slot Desc Out) (i : ι) (c : Caller Job) :
    State ι Job Slot Desc Out :=
  { s with caller := Function.update s.caller i c }

/-- The number of the job in the slot. -/
def current (s : State ι Job Slot Desc Out) : ℕ := s.posted.length - 1

/-- Signalling the worker wakes it up if it waits. -/
def wake (s : State ι Job Slot Desc Out) : State ι Job Slot Desc Out :=
  { s with worker := s.worker.signalled }

end State

section Steps

variable (pool : Pool Job Slot Desc Out O) (fetch : Fetch) (oracle : ℕ → O)

/-- A step of the worker. -/
inductive WorkerStep : State ι Job Slot Desc Out → State ι Job Slot Desc Out → Prop
  | start {s} : s.worker = .start → WorkerStep s { s with worker := .lock }
  | lock {s} : s.worker = .lock → s.mutex = none →
      WorkerStep s { s with worker := .check, mutex := some none }
  | wait {s} : s.worker = .check → s.hasWork = false → s.shutdown = false →
      WorkerStep s { s with worker := .waiting, mutex := none }
  | spurious {s} : s.worker = .waiting → WorkerStep s { s with worker := .woken }
  | relock {s} : s.worker = .woken → s.mutex = none →
      WorkerStep s { s with worker := .check, mutex := some none }
  | leave {s} : s.worker = .check → (s.hasWork || s.shutdown) = true →
      WorkerStep s { s with worker := .leave }
  | exitUnderLock {s} : fetch = .underLock → s.worker = .leave → s.shutdown = true →
      WorkerStep s { s with worker := .exited, mutex := none }
  | takeUnderLock {s} : fetch = .underLock → s.worker = .leave → s.shutdown = false →
      WorkerStep s { s with
        worker := .begin (some (s.current, pool.read s.slot)), mutex := none }
  | release {s} : fetch = .inPlace → s.worker = .leave →
      WorkerStep s { s with worker := .decide, mutex := none }
  | exitInPlace {s} : s.worker = .decide → s.shutdown = true →
      WorkerStep s { s with worker := .exited }
  | stay {s} : s.worker = .decide → s.shutdown = false →
      WorkerStep s { s with worker := .begin none }
  | begin {s job} : s.worker = .begin job →
      WorkerStep s { s with
        worker := .work (job.getD (s.current, pool.read s.slot)).1
          (job.getD (s.current, pool.read s.slot)).2
        slot := pool.clear s.slot }
  | work {s t d} : s.worker = .work t d →
      WorkerStep s { s with
        worker := .lockDone
        slot := pool.store (oracle s.runs.length) d s.slot
        runs := s.runs ++ [(t, d)] }
  | lockDone {s} : s.worker = .lockDone → s.mutex = none →
      WorkerStep s { s with worker := .mark, mutex := some none }
  | mark {s} : s.worker = .mark →
      WorkerStep s { s with worker := .notify, workDone := true, hasWork := false }
  | unlock {s} : s.worker = .unlock →
      WorkerStep s { s with worker := .lock, mutex := none }

variable [DecidableEq ι]

/-- The worker signals back: one of the callers waiting, if any, wakes up. -/
inductive NotifyStep : State ι Job Slot Desc Out → State ι Job Slot Desc Out → Prop
  | one {s i t j} : s.worker = .notify → s.caller i = .joinWait t j →
      NotifyStep s { s.move i (.joinWoken t j) with worker := .unlock }
  | nobody {s} : s.worker = .notify → (∀ i t j, s.caller i ≠ .joinWait t j) →
      NotifyStep s { s with worker := .unlock }

/-- A step of the caller `i`. -/
inductive CallerStep (i : ι) : State ι Job Slot Desc Out → State ι Job Slot Desc Out → Prop
  | callPost {s j} : s.caller i = .idle → s.ready = true → CallerStep i s (s.move i (.postLock j))
  | postLock {s j} : s.caller i = .postLock j → s.mutex = none →
      CallerStep i s { s.move i (.post j) with mutex := some (some i) }
  | post {s j} : s.caller i = .post j →
      CallerStep i s { s.move i (.flags s.posted.length j) with
        slot := pool.post j s.slot, posted := s.posted ++ [(i, j)] }
  | flags {s t j} : s.caller i = .flags t j →
      CallerStep i s { s.move i (.signal t j) with workDone := false, hasWork := true }
  | signal {s t j} : s.caller i = .signal t j → CallerStep i s (s.move i (.postUnlock t j)).wake
  | postUnlock {s t j} : s.caller i = .postUnlock t j →
      CallerStep i s { s.move i (.overlap t j) with mutex := none }
  | callJoin {s t j} : s.caller i = .overlap t j → CallerStep i s (s.move i (.joinLock t j))
  | joinLock {s t j} : s.caller i = .joinLock t j → s.mutex = none →
      CallerStep i s { s.move i (.joinCheck t j) with mutex := some (some i) }
  | joinWait {s t j} : s.caller i = .joinCheck t j → s.workDone = false →
      CallerStep i s { s.move i (.joinWait t j) with mutex := none }
  | joinSpurious {s t j} : s.caller i = .joinWait t j → CallerStep i s (s.move i (.joinWoken t j))
  | joinRelock {s t j} : s.caller i = .joinWoken t j → s.mutex = none →
      CallerStep i s { s.move i (.joinCheck t j) with mutex := some (some i) }
  | joinLeave {s t j} : s.caller i = .joinCheck t j → s.workDone = true →
      CallerStep i s (s.move i (.joinUnlock t j))
  | joinUnlock {s t j} : s.caller i = .joinUnlock t j →
      CallerStep i s { s.move i (.collect t j) with mutex := none }
  | collect {s t j} : s.caller i = .collect t j →
      CallerStep i s { s.move i .idle with
        returned := s.returned ++ [⟨i, t, j, s.runs.length, pool.collect s.slot⟩] }
  | callInit {s} : s.caller i = .idle → s.ready = false → CallerStep i s (s.move i .initMem)
  | initMem {s} : s.caller i = .initMem →
      CallerStep i s { s.move i .initCreate with
        slot := pool.blank, mutex := none, hasWork := false, workDone := false, shutdown := false }
  | initCreate {s} : s.caller i = .initCreate → s.worker = .off →
      CallerStep i s { s.move i .initSet with worker := .start }
  | initFail {s} : s.caller i = .initCreate → CallerStep i s (s.move i .idle)
  | initSet {s} : s.caller i = .initSet → CallerStep i s { s.move i .idle with ready := true }
  | callShutdown {s} : s.caller i = .idle → s.ready = true → CallerStep i s (s.move i .shutLock)
  | shutLock {s} : s.caller i = .shutLock → s.mutex = none →
      CallerStep i s { s.move i .shutSet with mutex := some (some i) }
  | shutSet {s} : s.caller i = .shutSet →
      CallerStep i s { s.move i .shutSignal with shutdown := true }
  | shutSignal {s} : s.caller i = .shutSignal → CallerStep i s (s.move i .shutUnlock).wake
  | shutUnlock {s} : s.caller i = .shutUnlock →
      CallerStep i s { s.move i .shutJoin with mutex := none }
  | shutJoin {s} : s.caller i = .shutJoin → s.worker = .exited →
      CallerStep i s { s.move i .shutReset with worker := .off }
  | shutReset {s} : s.caller i = .shutReset →
      CallerStep i s { s.move i .idle with ready := false }

/-- A step of any thread. -/
inductive Step : State ι Job Slot Desc Out → State ι Job Slot Desc Out → Prop
  | worker {s s'} : WorkerStep pool fetch oracle s s' → Step s s'
  | notify {s s'} : NotifyStep s s' → Step s s'
  | caller {s s'} (i : ι) : CallerStep pool i s s' → Step s s'

end Steps

/-! ## Runs -/

/-- At most one caller is busy. -/
def Solo (s : State ι Job Slot Desc Out) : Prop :=
  ∀ i k, s.caller i ≠ .idle → s.caller k ≠ .idle → i = k

section Runs

variable [DecidableEq ι] (pool : Pool Job Slot Desc Out O) (fetch : Fetch) (oracle : ℕ → O)

/-- The states of the runs of a pool and its callers, from when it is not started. -/
inductive Reachable : State ι Job Slot Desc Out → Prop
  | init : Reachable (State.init pool)
  | step {s s'} : Reachable s → Step pool fetch oracle s s' → Reachable s'

/-- The states of the runs in which no two callers are ever busy at once. -/
inductive SoloReachable : State ι Job Slot Desc Out → Prop
  | init : SoloReachable (State.init pool)
  | step {s s'} : SoloReachable s → Step pool fetch oracle s s' → Solo s' → SoloReachable s'

variable {pool fetch oracle} {s : State ι Job Slot Desc Out}

theorem SoloReachable.reachable (h : SoloReachable pool fetch oracle s) :
    Reachable pool fetch oracle s := by
  induction h with
  | init => exact .init
  | step _ hstep _ ih => exact ih.step hstep

/-- A single caller is never busy with another. -/
theorem Reachable.solo [Subsingleton ι] (h : Reachable pool fetch oracle s) :
    SoloReachable pool fetch oracle s := by
  induction h with
  | init => exact .init
  | step _ hstep ih => exact ih.step hstep fun _ _ _ _ => Subsingleton.elim ..

end Runs

end Handoff
