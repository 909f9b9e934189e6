import Mathlib.Data.Finset.Dedup
import Mathlib.Data.Finset.Basic

/-!
# Hardware telemetry

The sessions of `c/src/hw_telemetry.c`, with their seven descriptors, where a negative number is
that of a counter that could not be opened. A call is seen as the system calls that it makes.

`hw_telemetry_cleanup` sets the whole session to zero, and zero is a descriptor. Only
`hw_telemetry_start` looks at `is_active`, so that a call to stop or to clean up after that
touches the standard input. Between `hw_telemetry_init` and `hw_telemetry_cleanup`, a session
touches its own descriptors only (`owned_iff`).
-/

namespace HybridPqc

namespace Telemetry

/-- The counters, each with a type and a configuration of `perf_event_open`. The last level cache
    falls back to the misses of all caches. -/
inductive Counter
  | cpuCycles
  | instructions
  | l1dReadMiss
  | llReadMiss
  | cacheMisses
  | contextSwitches
  | cpuMigrations
  | pageFaults
  deriving DecidableEq

/-- The requests made by `ioctl`. -/
inductive Request
  | reset
  | enable
  | disable
  deriving DecidableEq

/-- `HWTelemetrySession`. -/
structure Session where
  fdCycles : Int
  fdInstructions : Int
  fdL1Miss : Int
  fdL2Miss : Int
  fdContextSwitches : Int
  fdCpuMigrations : Int
  fdPageFaults : Int
  isActive : Bool
  deriving DecidableEq

namespace Session

/-- The descriptors, in the order they are used in. -/
def fds (sess : Session) : List Int :=
  [sess.fdCycles, sess.fdInstructions, sess.fdL1Miss, sess.fdL2Miss, sess.fdContextSwitches,
    sess.fdCpuMigrations, sess.fdPageFaults]

/-- `memset(sess, 0, sizeof(*sess))`. -/
def zero : Session := ⟨0, 0, 0, 0, 0, 0, 0, false⟩

end Session

/-- A system call, with its result, where this is a descriptor. -/
inductive Syscall
  | perfEventOpen (counter : Counter) (fd : Int)
  | ioctl (fd : Int) (request : Request)
  | read (fd : Int)
  | close (fd : Int)
  deriving DecidableEq

/-- The results of `perf_event_open` during a call. -/
abbrev Opens := Counter → Int

/-- What is done on the descriptors that are not negative. -/
def onOpen (fds : List Int) (calls : Int → List Syscall) : List Syscall :=
  fds.flatMap fun fd => if 0 ≤ fd then calls fd else []

/-- `hw_telemetry_init`. -/
def hwTelemetryInit (opens : Opens) : Session × List Syscall :=
  let fallsBack := opens .llReadMiss < 0
  ({ fdCycles := opens .cpuCycles
     fdInstructions := opens .instructions
     fdL1Miss := opens .l1dReadMiss
     fdL2Miss := if fallsBack then opens .cacheMisses else opens .llReadMiss
     fdContextSwitches := opens .contextSwitches
     fdCpuMigrations := opens .cpuMigrations
     fdPageFaults := opens .pageFaults
     isActive := true },
    let counters : List Counter := [.cpuCycles, .instructions, .l1dReadMiss, .llReadMiss] ++
      (if fallsBack then [.cacheMisses] else []) ++
        [.contextSwitches, .cpuMigrations, .pageFaults]
    counters.map fun counter => .perfEventOpen counter (opens counter))

/-- `hw_telemetry_start`. -/
def hwTelemetryStart (sess : Session) : List Syscall :=
  if sess.isActive then onOpen sess.fds fun fd => [.ioctl fd .reset, .ioctl fd .enable] else []

/-- `hw_telemetry_stop`, which does nothing without a place for the result. -/
def hwTelemetryStop (sess : Session) (res : Bool) : List Syscall :=
  if res then onOpen sess.fds fun fd => [.ioctl fd .disable, .read fd] else []

/-- `hw_telemetry_cleanup`. -/
def hwTelemetryCleanup (sess : Session) : Session × List Syscall :=
  (.zero, onOpen sess.fds fun fd => [.close fd])

/-! ## Sequences of calls -/

/-- A call on a session. -/
inductive Call
  | init (opens : Opens)
  | start
  | stop (res : Bool)
  | cleanup

/-- The session after a call, and the system calls made. -/
def step (sess : Session) : Call → Session × List Syscall
  | .init opens => hwTelemetryInit opens
  | .start => (sess, hwTelemetryStart sess)
  | .stop res => (sess, hwTelemetryStop sess res)
  | .cleanup => hwTelemetryCleanup sess

/-- The descriptors that are open after a system call. -/
def Syscall.after (live : Finset Int) : Syscall → Finset Int
  | .perfEventOpen _ fd => if 0 ≤ fd then insert fd live else live
  | .close fd => live.erase fd
  | _ => live

/-- A system call is applied to an open descriptor. -/
def Syscall.Owned (live : Finset Int) : Syscall → Prop
  | .perfEventOpen _ _ => True
  | .ioctl fd _ | .read fd | .close fd => fd ∈ live

/-- So are all those of a list, in turn. -/
def OwnedAll (live : Finset Int) : List Syscall → Prop
  | [] => True
  | call :: calls => call.Owned live ∧ OwnedAll (call.after live) calls

/-- The descriptors of the latest `init` that are open after a call, of those that are open
    before. -/
def Call.after (sess : Session) (live : Finset Int) : Call → Finset Int
  | .init opens => (hwTelemetryInit opens).2.foldl Syscall.after ∅
  | call => (step sess call).2.foldl Syscall.after live

/-- All the system calls of a sequence of calls are applied to open descriptors of the latest
    `init`. -/
def Owned (sess : Session) (live : Finset Int) : List Call → Prop
  | [] => True
  | call :: calls =>
    OwnedAll live (step sess call).2 ∧ Owned (step sess call).1 (call.after sess live) calls

/-- The descriptors opened by an `init`. -/
def opened (opens : Opens) : List Int := (hwTelemetryInit opens).1.fds.filter (0 ≤ ·)

/-- A session is stopped and cleaned up only between an `init` and the next `cleanup`, which
    closes distinct descriptors. -/
def Paired : Option Opens → List Call → Prop
  | _, [] => True
  | _, .init opens :: calls => Paired (some opens) calls
  | opens, .start :: calls => Paired opens calls
  | opens, .stop res :: calls => (res → opens.isSome) ∧ Paired opens calls
  | some opens, .cleanup :: calls => (opened opens).Nodup ∧ Paired none calls
  | none, .cleanup :: _ => False

/-! ## One call -/

section OnOpen

variable {live : Finset Int} {fds : List Int} {calls : Int → List Syscall}

theorem ownedAll_append (l l' : List Syscall) :
    OwnedAll live (l ++ l') ↔ OwnedAll live l ∧ OwnedAll (l.foldl Syscall.after live) l' := by
  induction l generalizing live with
  | nil => exact (and_iff_right trivial).symm
  | cons call l ih => rw [List.cons_append, OwnedAll, OwnedAll, ih, List.foldl_cons, and_assoc]

theorem onOpen_cons (fd : Int) :
    onOpen (fd :: fds) calls = (if 0 ≤ fd then calls fd else []) ++ onOpen fds calls :=
  List.flatMap_cons

/-- Calls that open and close nothing are applied to the open descriptors. -/
theorem ownedAll_onOpen (hlive : ∀ fd live, (calls fd).foldl Syscall.after live = live)
    (howned : ∀ fd live, OwnedAll live (calls fd) ↔ fd ∈ live) :
    (OwnedAll live (onOpen fds calls) ↔ ∀ fd ∈ fds, 0 ≤ fd → fd ∈ live) ∧
      (onOpen fds calls).foldl Syscall.after live = live := by
  induction fds with
  | nil => simp [onOpen, OwnedAll]
  | cons fd fds ih =>
    rw [onOpen_cons, ownedAll_append, List.foldl_append]
    split_ifs with hfd
    · rw [hlive, ih.1, ih.2, howned]
      simp [hfd]
    · rw [List.foldl_nil, ih.1, ih.2]
      simp [OwnedAll, hfd]

/-- Distinct descriptors that are open are closed. -/
theorem ownedAll_close :
    (OwnedAll live (onOpen fds fun fd => [.close fd]) ↔
      (fds.filter (0 ≤ ·)).Nodup ∧ ∀ fd ∈ fds, 0 ≤ fd → fd ∈ live) ∧
      (onOpen fds fun fd => [.close fd]).foldl Syscall.after live =
        live \ (fds.filter (0 ≤ ·)).toFinset := by
  induction fds generalizing live with
  | nil => simp [onOpen, OwnedAll]
  | cons fd fds ih =>
    rw [onOpen_cons, ownedAll_append, List.foldl_append]
    split_ifs with hfd
    · rw [List.foldl_cons, List.foldl_nil, ih.1, ih.2, Syscall.after]
      constructor
      · simp only [OwnedAll, Syscall.Owned, and_true, Finset.mem_erase, List.filter_cons, hfd,
          decide_true, ↓reduceIte, List.nodup_cons, List.mem_filter,
          List.forall_mem_cons]
        grind
      · ext x
        simp only [Finset.mem_sdiff, Finset.mem_erase, List.mem_toFinset, List.filter_cons, hfd,
          decide_true, ↓reduceIte, List.mem_cons]
        grind
    · rw [List.foldl_nil, ih.1, ih.2]
      simp [OwnedAll, hfd]

end OnOpen

section Init

variable (opens : Opens)

theorem ownedAll_open (live : Finset Int) (counters : List Counter) :
    OwnedAll live (counters.map fun counter => .perfEventOpen counter (opens counter)) := by
  induction counters generalizing live with
  | nil => trivial
  | cons counter counters ih => exact ⟨trivial, ih _⟩

theorem mem_foldl_open (live : Finset Int) (counters : List Counter) (fd : Int) :
    fd ∈ (counters.map fun counter => .perfEventOpen counter (opens counter)).foldl
        Syscall.after live ↔
      fd ∈ live ∨ 0 ≤ fd ∧ ∃ counter ∈ counters, opens counter = fd := by
  induction counters generalizing live with
  | nil => simp
  | cons counter counters ih =>
    rw [List.map_cons, List.foldl_cons, ih, Syscall.after]
    split_ifs with hfd
    · simp only [Finset.mem_insert, List.mem_cons]
      grind
    · simp only [List.mem_cons]
      grind

/-- An `init` opens the descriptors that it stores. -/
theorem foldl_init :
    (hwTelemetryInit opens).2.foldl Syscall.after ∅ = (opened opens).toFinset := by
  ext fd
  rw [hwTelemetryInit, mem_foldl_open, List.mem_toFinset, opened, List.mem_filter]
  by_cases hfalls : opens .llReadMiss < 0
  · simp [hwTelemetryInit, Session.fds, hfalls]
    grind
  · simp [hwTelemetryInit, Session.fds, hfalls]
    grind

end Init

/-! ## All calls -/

/-- A session after a `cleanup`, or after the latest `init`, and its open descriptors. -/
def sessionOf : Option Opens → Session
  | some opens => (hwTelemetryInit opens).1
  | none => .zero

def liveOf : Option Opens → Finset Int
  | some opens => (opened opens).toFinset
  | none => ∅

section Calls

variable {o : Option Opens} {opens : Opens}

/-- The descriptors of a session are open. -/
theorem mem_liveOf : ∀ fd ∈ (sessionOf (some opens)).fds, 0 ≤ fd → fd ∈ liveOf (some opens) := by
  intro fd hmem hfd
  exact List.mem_toFinset.2 (List.mem_filter.2 ⟨hmem, decide_eq_true hfd⟩)

/-- After a `cleanup`, the session has the descriptor of the standard input, which is not one
    of its own. -/
theorem not_mem_liveOf : ¬∀ fd ∈ (sessionOf none).fds, 0 ≤ fd → fd ∈ liveOf none := by
  decide

theorem ownedAll_start :
    OwnedAll (liveOf o) (hwTelemetryStart (sessionOf o)) ∧
      (hwTelemetryStart (sessionOf o)).foldl Syscall.after (liveOf o) = liveOf o := by
  rcases o with _ | opens
  · exact ⟨trivial, rfl⟩
  · obtain ⟨howned, hafter⟩ := @ownedAll_onOpen (liveOf (some opens))
      (sessionOf (some opens)).fds (fun fd => [.ioctl fd .reset, .ioctl fd .enable])
      (fun _ _ => rfl) (fun _ _ => by simp [OwnedAll, Syscall.Owned, Syscall.after])
    exact ⟨howned.2 mem_liveOf, hafter⟩

theorem ownedAll_stop (res : Bool) :
    (OwnedAll (liveOf o) (hwTelemetryStop (sessionOf o) res) ↔ (res → o.isSome)) ∧
      (hwTelemetryStop (sessionOf o) res).foldl Syscall.after (liveOf o) = liveOf o := by
  rcases res with _ | _
  · simp [hwTelemetryStop, OwnedAll]
  · obtain ⟨howned, hafter⟩ := @ownedAll_onOpen (liveOf o) (sessionOf o).fds
      (fun fd => [.ioctl fd .disable, .read fd]) (fun _ _ => rfl)
      (fun _ _ => by simp [OwnedAll, Syscall.Owned, Syscall.after])
    refine ⟨howned.trans ?_, hafter⟩
    rcases o with _ | opens
    · exact iff_of_false not_mem_liveOf (by simp)
    · exact iff_of_true mem_liveOf (by simp)

theorem ownedAll_cleanup :
    (OwnedAll (liveOf (some opens)) (hwTelemetryCleanup (sessionOf (some opens))).2 ↔
      (opened opens).Nodup) ∧
      (hwTelemetryCleanup (sessionOf (some opens))).2.foldl Syscall.after (liveOf (some opens)) =
        liveOf none := by
  obtain ⟨howned, hafter⟩ := @ownedAll_close (liveOf (some opens)) (sessionOf (some opens)).fds
  exact ⟨howned.trans (and_iff_left mem_liveOf), hafter.trans (Finset.sdiff_self _)⟩

theorem not_ownedAll_cleanup :
    ¬OwnedAll (liveOf none) (hwTelemetryCleanup (sessionOf none)).2 := fun h =>
  not_mem_liveOf (ownedAll_close.1.1 h).2

/-- A session in either state owns what it touches exactly if its calls are paired. -/
theorem owned_sessionOf_iff (calls : List Call) :
    Owned (sessionOf o) (liveOf o) calls ↔ Paired o calls := by
  induction calls generalizing o with
  | nil => cases o <;> exact Iff.rfl
  | cons call calls ih =>
    cases call with
    | init opens =>
      have howned : OwnedAll (liveOf o) (hwTelemetryInit opens).2 := ownedAll_open opens _ _
      simp only [Owned, step, howned, true_and, Call.after, foldl_init]
      exact (ih (o := some opens)).trans (by cases o <;> rfl)
    | start =>
      obtain ⟨howned, hafter⟩ := ownedAll_start (o := o)
      simp only [Owned, step, howned, true_and, Call.after, hafter, ih]
      cases o <;> rfl
    | stop res =>
      obtain ⟨howned, hafter⟩ := ownedAll_stop (o := o) res
      simp only [Owned, step, howned, Call.after, hafter, ih]
      cases o <;> rfl
    | cleanup =>
      rcases o with _ | opens
      · exact iff_of_false (fun h => not_ownedAll_cleanup h.1) id
      · obtain ⟨howned, hafter⟩ := @ownedAll_cleanup opens
        simp only [Owned, step, howned, Call.after, hafter]
        exact and_congr_right fun _ => ih (o := none)

end Calls

/-- **A session touches its own descriptors only**, exactly if it is stopped and cleaned up only
    after an `init` that no `cleanup` has followed yet. -/
theorem owned_iff (sess : Session) (opens : Opens) (calls : List Call) :
    Owned sess ∅ (.init opens :: calls) ↔ Paired none (.init opens :: calls) := by
  have howned : OwnedAll ∅ (hwTelemetryInit opens).2 := ownedAll_open opens _ _
  simp only [Owned, step, howned, true_and, Call.after, foldl_init]
  exact owned_sessionOf_iff (o := some opens) calls

/-- A second `cleanup` closes the standard input, where no counter is open at all. -/
theorem cleanup_twice : ¬∀ (sess : Session) (opens : Opens) (calls : List Call),
    Owned sess ∅ (.init opens :: calls) := by
  intro h
  have htwice := h .zero (fun _ => -1) [.cleanup, .cleanup]
  have hmem : (0 : Int) ∈ (∅ : Finset Int) := htwice.2.2.1.1
  exact absurd hmem (Finset.notMem_empty 0)

end Telemetry

end HybridPqc
