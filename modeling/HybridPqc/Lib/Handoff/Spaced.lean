import HybridPqc.Lib.Handoff.Progress

/-!
# Callers that overlap

Callers may overlap, as long as none posts a job over that of another one: from where a
caller posts a job to where it collects the result, no other caller posts one. Others may
call in the meantime, and wait for the mutex, or even have it. Only a caller that starts
the pool or shuts it down is alone (`Spaced`).

The callers that are about to post a job do not matter to the pool. Without them
(`State.settle`), a spaced run is a solo run of the same history
(`SpacedReachable.settle`).
-/

namespace Handoff

variable {ι Job Slot Desc Out O : Type}

/-- The caller starts the pool, or shuts it down. -/
def Caller.alone : Caller Job → Bool
  | .initMem | .initCreate | .initSet | .shutLock | .shutSet | .shutSignal | .shutUnlock
  | .shutJoin | .shutReset => true
  | _ => false

/-- No two callers have posted a job and not collected its result, and one that starts the
    pool, or shuts it down, is the only one busy. -/
structure Spaced (s : State ι Job Slot Desc Out) : Prop where
  posted : ∀ i k, (s.caller i).job.isSome → (s.caller k).job.isSome → i = k
  alone : ∀ i k, (s.caller i).alone → s.caller k ≠ .idle → i = k

section Runs

variable [DecidableEq ι] (pool : Pool Job Slot Desc Out O) (fetch : Fetch) (oracle : ℕ → O)

/-- The states of the runs in which no job is posted over another one. -/
inductive SpacedReachable : State ι Job Slot Desc Out → Prop
  | init : SpacedReachable (State.init pool)
  | step {s s'} : SpacedReachable s → Step pool fetch oracle s s' → Spaced s' → SpacedReachable s'

end Runs

/-! ## Without those about to post -/

/-- The caller has the mutex, and is about to write the slot. -/
def Caller.writes : Caller Job → Bool
  | .post _ => true
  | _ => false

/-- The caller, as if it had not been about to post a job. -/
def Caller.settle : Caller Job → Caller Job
  | .postLock _ | .post _ => .idle
  | c => c

namespace State

variable (s : State ι Job Slot Desc Out)

/-- The mutex, if those about to post did not have it. -/
def settledMutex : Option (Option ι) :=
  match s.mutex with
  | some (some k) => if (s.caller k).writes then none else some (some k)
  | m => m

/-- The state, as if nobody had been about to post a job. -/
def settle : State ι Job Slot Desc Out :=
  { s with caller := Caller.settle ∘ s.caller, mutex := s.settledMutex }

end State

section Settle

variable {pool : Pool Job Slot Desc Out O} {fetch : Fetch} {oracle : ℕ → O} {i : ι}
  {s s' : State ι Job Slot Desc Out}

theorem Caller.settle_eq_idle {c : Caller Job} (hjob : c.job.isSome = false)
    (halone : c.alone = false) : c.settle = .idle := by
  revert hjob halone
  cases c <;> simp [job, alone, settle]

theorem State.settledMutex_of_none (h : s.mutex = none) : s.settledMutex = none := by
  rw [settledMutex, h]

theorem State.mutex_of_settledMutex {x : Option ι} (h : s.settledMutex = some x) :
    s.mutex = some x := by
  rw [settledMutex] at h
  split at h
  · split_ifs at h
    simp [*]
  · exact h

/-- Of a spaced state, at most one caller is left busy. -/
theorem Spaced.solo (h : Spaced s) : Solo s.settle := by
  have hbusy {k : ι} (hk : (s.caller k).settle ≠ .idle) :
      s.caller k ≠ .idle ∧ ((s.caller k).job.isSome ∨ (s.caller k).alone) := by
    refine ⟨fun hidle => hk (by rw [hidle]; rfl), ?_⟩
    by_contra hnot
    rw [not_or, Bool.not_eq_true, Bool.not_eq_true] at hnot
    exact hk (Caller.settle_eq_idle hnot.1 hnot.2)
  intro i k hi hk
  obtain ⟨hi, hjob | halone⟩ := hbusy hi
  · obtain ⟨-, hjob' | halone⟩ := hbusy hk
    · exact h.posted i k hjob hjob'
    · exact (h.alone k i halone hi).symm
  · exact h.alone i k halone (hbusy hk).1

/-- The worker does not notice. -/
theorem WorkerStep.settle (h : WorkerStep pool fetch oracle s s') :
    WorkerStep pool fetch oracle s.settle s'.settle := by
  cases h with
  | start hw => exact .start hw
  | lock hw hm => exact .lock hw (State.settledMutex_of_none hm)
  | wait hw h₁ h₂ => exact .wait hw h₁ h₂
  | spurious hw => exact .spurious hw
  | relock hw hm => exact .relock hw (State.settledMutex_of_none hm)
  | leave hw h₁ => exact .leave hw h₁
  | exitUnderLock hf hw h₁ => exact .exitUnderLock hf hw h₁
  | takeUnderLock hf hw h₁ => exact .takeUnderLock hf hw h₁
  | release hf hw => exact .release hf hw
  | exitInPlace hw h₁ => exact .exitInPlace hw h₁
  | stay hw h₁ => exact .stay hw h₁
  | begin hw => exact .begin hw
  | work hw => exact .work hw
  | lockDone hw hm => exact .lockDone hw (State.settledMutex_of_none hm)
  | mark hw => exact .mark hw
  | unlock hw => exact .unlock hw

variable [DecidableEq ι]

theorem State.settledMutex_of_moved {c : Caller Job}
    (hcaller : s'.caller = Function.update s.caller i c) (hmutex : s'.mutex = s.mutex)
    (hwrites : c.writes = (s.caller i).writes) : s'.settledMutex = s.settledMutex := by
  rw [settledMutex, settledMutex, hmutex, hcaller]
  split
  · rename_i k _
    by_cases hk : k = i
    · rw [hk, Function.update_self, hwrites]
    · rw [Function.update_of_ne hk]
  · rfl

/-- A caller that is left out moves without notice. -/
theorem State.settle_eq {c : Caller Job} (hcaller : s'.caller = Function.update s.caller i c)
    (hidle : c.settle = (s.caller i).settle) (hmutex : s'.settledMutex = s.settledMutex)
    (hrest : { s' with caller := s.caller, mutex := s.mutex } = s) : s'.settle = s.settle := by
  have hsettle : Caller.settle ∘ s'.caller = Caller.settle ∘ s.caller := by
    rw [hcaller, Function.comp_update, hidle]
    exact Function.update_eq_self i _
  conv_rhs => rw [← hrest]
  rw [settle, hsettle, hmutex]
  rfl

/-- A step of a caller, left alone. -/
theorem CallerStep.settle_of {u : State ι Job Slot Desc Out} (h : CallerStep pool i s.settle u)
    (hcaller : Caller.settle ∘ s'.caller = u.caller) (hmutex : s'.settledMutex = u.mutex)
    (hrest : { s' with caller := u.caller, mutex := u.mutex } = u) :
    CallerStep pool i s.settle s'.settle := by
  have hsettle : s'.settle = u := by rw [State.settle, hcaller, hmutex, hrest]
  rwa [hsettle]

/-- A caller about to post is not noticed, and the others move as they do. -/
theorem CallerStep.settle (h : CallerStep pool i s s') (hpost : (s.caller i).writes = false) :
    CallerStep pool i s.settle s'.settle ∨ s'.settle = s.settle := by
  have hidle {c : Caller Job} (hc : s.caller i = c) : (s.settle).caller i = c.settle :=
    congrArg Caller.settle hc
  have hsame {u : State ι Job Slot Desc Out} {c : Caller Job}
      (hcaller : u.caller = Function.update s.caller i c) (hmutex : u.mutex = s.mutex)
      (hc : c.writes = false) : u.settledMutex = s.settledMutex :=
    State.settledMutex_of_moved hcaller hmutex (hc.trans hpost.symm)
  have hfree {u : State ι Job Slot Desc Out} {c : Caller Job}
      (hcaller : u.caller = Function.update s.caller i c) (hmutex : u.mutex = some (some i))
      (hc : c.writes = false) : u.settledMutex = some (some i) := by
    rw [State.settledMutex, hmutex]
    simp [hcaller, hc]
  cases h with
  | callPost hc =>
    exact .inr (State.settle_eq rfl (by rw [hc]; rfl) (hsame rfl rfl rfl) rfl)
  | postLock hc hm =>
    refine .inr (State.settle_eq rfl (by rw [hc]; rfl) ?_ rfl)
    rw [State.settledMutex_of_none hm]
    simp [State.settledMutex, State.move, Caller.writes]
  | post hc =>
    rw [hc] at hpost
    cases hpost
  | flags hc =>
    exact .inl (.settle_of (.flags (hidle hc)) (Function.comp_update ..) (hsame rfl rfl rfl) rfl)
  | signal hc =>
    exact .inl (.settle_of (.signal (hidle hc)) (Function.comp_update ..) (hsame rfl rfl rfl) rfl)
  | postUnlock hc =>
    exact .inl (.settle_of (.postUnlock (hidle hc)) (Function.comp_update ..) rfl rfl)
  | callJoin hc =>
    exact .inl (.settle_of (.callJoin (hidle hc)) (Function.comp_update ..) (hsame rfl rfl rfl) rfl)
  | joinLock hc hm =>
    exact .inl (.settle_of (.joinLock (hidle hc) (State.settledMutex_of_none hm))
      (Function.comp_update ..) (hfree rfl rfl rfl) rfl)
  | joinWait hc hdone =>
    exact .inl (.settle_of (.joinWait (hidle hc) hdone) (Function.comp_update ..) rfl rfl)
  | joinSpurious hc =>
    exact .inl (.settle_of (.joinSpurious (hidle hc)) (Function.comp_update ..)
      (hsame rfl rfl rfl) rfl)
  | joinRelock hc hm =>
    exact .inl (.settle_of (.joinRelock (hidle hc) (State.settledMutex_of_none hm))
      (Function.comp_update ..) (hfree rfl rfl rfl) rfl)
  | joinLeave hc hdone =>
    exact .inl (.settle_of (.joinLeave (hidle hc) hdone) (Function.comp_update ..)
      (hsame rfl rfl rfl) rfl)
  | joinUnlock hc =>
    exact .inl (.settle_of (.joinUnlock (hidle hc)) (Function.comp_update ..) rfl rfl)
  | collect hc =>
    exact .inl (.settle_of (.collect (hidle hc)) (Function.comp_update ..) (hsame rfl rfl rfl) rfl)
  | callInit hc hready =>
    exact .inl (.settle_of (.callInit (hidle hc) hready) (Function.comp_update ..)
      (hsame rfl rfl rfl) rfl)
  | initMem hc =>
    exact .inl (.settle_of (.initMem (hidle hc)) (Function.comp_update ..) rfl rfl)
  | initCreate hc hoff =>
    exact .inl (.settle_of (.initCreate (hidle hc) hoff) (Function.comp_update ..)
      (hsame rfl rfl rfl) rfl)
  | initFail hc =>
    exact .inl (.settle_of (.initFail (hidle hc)) (Function.comp_update ..) (hsame rfl rfl rfl) rfl)
  | initSet hc =>
    exact .inl (.settle_of (.initSet (hidle hc)) (Function.comp_update ..) (hsame rfl rfl rfl) rfl)
  | callShutdown hc hready =>
    exact .inl (.settle_of (.callShutdown (hidle hc) hready) (Function.comp_update ..)
      (hsame rfl rfl rfl) rfl)
  | shutLock hc hm =>
    exact .inl (.settle_of (.shutLock (hidle hc) (State.settledMutex_of_none hm))
      (Function.comp_update ..) (hfree rfl rfl rfl) rfl)
  | shutSet hc =>
    exact .inl (.settle_of (.shutSet (hidle hc)) (Function.comp_update ..) (hsame rfl rfl rfl) rfl)
  | shutSignal hc =>
    exact .inl (.settle_of (.shutSignal (hidle hc)) (Function.comp_update ..)
      (hsame rfl rfl rfl) rfl)
  | shutUnlock hc =>
    exact .inl (.settle_of (.shutUnlock (hidle hc)) (Function.comp_update ..) rfl rfl)
  | shutJoin hc hexit =>
    exact .inl (.settle_of (.shutJoin (hidle hc) hexit) (Function.comp_update ..)
      (hsame rfl rfl rfl) rfl)
  | shutReset hc =>
    exact .inl (.settle_of (.shutReset (hidle hc)) (Function.comp_update ..) (hsame rfl rfl rfl) rfl)

/-- The worker signals back to those who wait. -/
theorem NotifyStep.settle (h : NotifyStep s s') : NotifyStep s.settle s'.settle := by
  cases h with
  | @one k t j hw hc =>
    have hcaller : Caller.settle ∘ Function.update s.caller k (.joinWoken t j) =
        Function.update (Caller.settle ∘ s.caller) k (.joinWoken t j) := Function.comp_update ..
    have hmutex : (s.move k (.joinWoken t j)).settledMutex = s.settledMutex :=
      State.settledMutex_of_moved rfl rfl (by rw [hc]; rfl)
    have hsettle : State.settle { s.move k (.joinWoken t j) with worker := .unlock } =
        { s.settle.move k (.joinWoken t j) with worker := .unlock } := by
      simp only [State.settle, State.move, hcaller]
      exact congrArg (fun m => { s with
        worker := .unlock
        caller := Function.update (Caller.settle ∘ s.caller) k (.joinWoken t j)
        mutex := m }) hmutex
    rw [hsettle]
    exact .one hw (congrArg Caller.settle hc)
  | nobody hw hnone =>
    refine .nobody hw fun k t j hk => hnone k t j ?_
    change (s.caller k).settle = .joinWait t j at hk
    cases hc : s.caller k <;> rw [hc] at hk <;> first | exact hk | cases hk

/-- What is known of those about to post: they have the mutex, and the pool is started. -/
structure Waiting (s : State ι Job Slot Desc Out) : Prop where
  mutex : ∀ k j, s.caller k = .post j → s.mutex = some (some k)
  ready : ∀ k j, s.caller k = .postLock j ∨ s.caller k = .post j → s.ready = true

/-- Where a caller has posted, those who have not moved are idle or left out. -/
theorem Spaced.settle_others {t : ℕ} {k : ι} {j : Job} (h : Spaced s')
    (hcaller : s'.caller = Function.update s.caller i (.flags t j)) (hk : k ≠ i) :
    s.settle.caller k = .idle := by
  have hsame : s'.caller k = s.caller k := by rw [hcaller, Function.update_of_ne hk]
  have hposted : s'.caller i = .flags t j := by rw [hcaller, Function.update_self]
  refine Caller.settle_eq_idle ?_ ?_
  · rw [Bool.eq_false_iff]
    intro hjob
    exact hk (h.posted k i (by rwa [hsame]) (by rw [hposted]; rfl))
  · rw [Bool.eq_false_iff]
    intro halone
    exact hk (h.alone k i (by rwa [hsame]) (by rw [hposted]; nofun))

/-- A job is posted as by a caller that has just come. -/
theorem SoloReachable.post {j : Job} (h : SoloReachable pool fetch oracle s.settle)
    (hw : Waiting s) (hc : s.caller i = .post j)
    (hspaced : Spaced { s.move i (.flags s.posted.length j) with
      slot := pool.post j s.slot, posted := s.posted ++ [(i, j)] }) :
    SoloReachable pool fetch oracle (State.settle { s.move i (.flags s.posted.length j) with
      slot := pool.post j s.slot, posted := s.posted ++ [(i, j)] }) := by
  have hmutex := hw.mutex i j hc
  have hsettled : s.settledMutex = none := by simp [State.settledMutex, hmutex, hc, Caller.writes]
  have hothers (k : ι) (hk : k ≠ i) : s.settle.caller k = .idle :=
    hspaced.settle_others rfl hk
  have hidle : s.settle.caller i = .idle := congrArg Caller.settle hc
  -- it comes,
  have h₁ := h.step (.caller i (@CallerStep.callPost _ _ _ _ _ _ pool _ _ _ j hidle
      (hw.ready i j (.inr hc)))) (solo_of_others (i := i) fun k hk =>
    (State.move_caller_of_ne hk _).trans (hothers k hk))
  -- locks the mutex,
  have h₂ := h₁.step (.caller i (.postLock (State.move_caller_self _) hsettled))
    (solo_of_others (i := i) fun k hk => (State.move_caller_of_ne hk _).trans
      ((State.move_caller_of_ne hk _).trans (hothers k hk)))
  -- and posts the job
  have h₃ := h₂.step (.caller i (.post (State.move_caller_self _)))
    (solo_of_others (i := i) fun k hk => (State.move_caller_of_ne hk _).trans
      ((State.move_caller_of_ne hk _).trans ((State.move_caller_of_ne hk _).trans (hothers k hk))))
  have hcaller : Caller.settle ∘ Function.update s.caller i (.flags s.posted.length j) =
      Function.update (Caller.settle ∘ s.caller) i (.flags s.posted.length j) :=
    Function.comp_update ..
  simp only [State.move, Function.update_idem, State.settle] at h₃
  simpa [State.settle, State.settledMutex, State.move, hcaller, hmutex, Caller.writes] using h₃

/-! ## Those about to post have the mutex -/

omit [DecidableEq ι] in
theorem WorkerStep.mutex_eq (h : WorkerStep pool fetch oracle s s') :
    s'.mutex = s.mutex ∨ s.mutex = none ∨ s.worker.holds = true := by
  cases h <;> simp_all [Worker.holds]

theorem CallerStep.mutex_eq (h : CallerStep pool i s s') :
    s'.mutex = s.mutex ∨ s.mutex = none ∨ (s.caller i).holds = true ∨ s.caller i = .initMem := by
  cases h <;> simp_all [Caller.holds, State.move, State.wake]

theorem CallerStep.ready_eq (h : CallerStep pool i s s') :
    s'.ready = s.ready ∨ (s.caller i).alone = true := by
  cases h <;> simp_all [Caller.alone, State.move, State.wake]

theorem CallerStep.mutex_of_post {j : Job} (h : CallerStep pool i s s')
    (hc : s'.caller i = .post j) : s'.mutex = some (some i) := by
  cases h <;> simp_all [State.wake]

theorem CallerStep.ready_of_waits (h : CallerStep pool i s s')
    (hc : ∃ j, s'.caller i = .postLock j ∨ s'.caller i = .post j) :
    s'.ready = true ∨ s'.ready = s.ready ∧ ∃ j, s.caller i = .postLock j := by
  cases h <;> simp_all [State.move, State.wake]

/-- Nobody else takes the mutex from a caller about to post. -/
theorem Inv.not_holds {m k : ι} {j : Job} (hi : Inv pool oracle s.settle m) (hw : Waiting s)
    (hk : s.caller k = .post j) :
    s.worker.holds = false ∧ ∀ l, l ≠ k → (s.caller l).holds = false := by
  have hmutex := hw.mutex k j hk
  constructor
  · rw [Bool.eq_false_iff]
    intro hholds
    have hheld := State.mutex_of_settledMutex (hi.mutex.worker.1 hholds)
    rw [hmutex] at hheld
    cases hheld
  · intro l hl
    rw [Bool.eq_false_iff]
    intro hholds
    -- a caller that is not left out has the mutex in the solo run, too
    obtain ⟨j', hc⟩ | hsettle :
        (∃ j', s.caller l = .post j') ∨ (s.settle.caller l).holds = true := by
      change _ ∨ (s.caller l).settle.holds = true
      revert hholds
      cases s.caller l <;> simp [Caller.holds, Caller.settle]
    · have hheld := hw.mutex l j' hc
      rw [hmutex] at hheld
      exact hl (Option.some.inj (Option.some.inj hheld)).symm
    · by_cases hlm : l = m
      · rw [hlm] at hsettle
        have hheld := State.mutex_of_settledMutex (hi.mutex.caller.1 hsettle)
        rw [hmutex] at hheld
        exact hl (hlm.trans (Option.some.inj (Option.some.inj hheld)).symm)
      · rw [hi.others l hlm] at hsettle
        cases hsettle

theorem Waiting.worker_step (hw : Waiting s) {m : ι} (hi : Inv pool oracle s.settle m)
    (h : WorkerStep pool fetch oracle s s') : Waiting s' := by
  obtain ⟨hcaller, hready, -⟩ := h.frame
  refine ⟨fun k j hk => ?_, fun k j hk => ?_⟩
  · rw [hcaller] at hk
    have hmutex := hw.mutex k j hk
    obtain heq | hnone | hholds := h.mutex_eq
    · rwa [heq]
    · rw [hnone] at hmutex
      cases hmutex
    · rw [(hi.not_holds hw hk).1] at hholds
      cases hholds
  · rw [hcaller] at hk
    rw [hready]
    exact hw.ready k j hk

theorem Waiting.notify_step (hw : Waiting s) (h : NotifyStep s s') : Waiting s' := by
  cases h with
  | @one i t j hwork hc =>
    have hne {k : ι} {c : Caller Job} (hk : (s.move i (.joinWoken t j)).caller k = c)
        (hcne : c ≠ .joinWoken t j) : s.caller k = c := by
      by_cases hki : k = i
      · rw [hki, State.move_caller_self] at hk
        exact absurd hk.symm hcne
      · rwa [State.move_caller_of_ne hki] at hk
    exact ⟨fun k j hk => hw.mutex k j (hne hk nofun), fun k j hk => hw.ready k j
      (hk.imp (hne · nofun) (hne · nofun))⟩
  | nobody => exact ⟨hw.mutex, hw.ready⟩

theorem Waiting.caller_step (hw : Waiting s) (hspaced : Spaced s) {m : ι}
    (hi : Inv pool oracle s.settle m) (h : CallerStep pool i s s') : Waiting s' := by
  refine ⟨fun k j hk => ?_, fun k j hk => ?_⟩
  · by_cases hki : k = i
    · subst hki
      exact h.mutex_of_post hk
    · rw [h.others hki] at hk
      have hmutex := hw.mutex k j hk
      obtain heq | hnone | hholds | hinit := h.mutex_eq
      · rwa [heq]
      · rw [hnone] at hmutex
        cases hmutex
      · rw [(hi.not_holds hw hk).2 i (Ne.symm hki)] at hholds
        cases hholds
      · refine absurd (hspaced.alone i k (by rw [hinit]; rfl) ?_) (Ne.symm hki)
        rw [hk]
        nofun
  · by_cases hki : k = i
    · subst hki
      obtain hready | ⟨hready, j', hj'⟩ := h.ready_of_waits ⟨j, hk⟩
      · exact hready
      · rw [hready]
        exact hw.ready k j' (.inl hj')
    · rw [h.others hki] at hk
      obtain heq | halone := h.ready_eq
      · rw [heq]
        exact hw.ready k j hk
      · refine absurd (hspaced.alone i k halone ?_) (Ne.symm hki)
        obtain hk | hk := hk <;> rw [hk] <;> nofun

theorem Waiting.step (hw : Waiting s) (hspaced : Spaced s) {m : ι}
    (hi : Inv pool oracle s.settle m) (h : Step pool fetch oracle s s') : Waiting s' := by
  cases h with
  | worker h => exact hw.worker_step hi h
  | notify h => exact hw.notify_step h
  | caller i h => exact hw.caller_step hspaced hi h

/-- **A spaced run is a solo run**, without those about to post. -/
theorem SpacedReachable.settle [Nonempty ι] (h : SpacedReachable pool fetch oracle s) :
    SoloReachable pool fetch oracle s.settle ∧ Spaced s ∧ Waiting s := by
  induction h with
  | init => exact ⟨.init, ⟨nofun, nofun⟩, ⟨nofun, nofun⟩⟩
  | @step s s' _ hstep hspaced ih =>
    obtain ⟨hsolo, hbefore, hw⟩ := ih
    obtain ⟨m, hi⟩ := hsolo.inv
    refine ⟨?_, hspaced, hw.step hbefore hi hstep⟩
    cases hstep with
    | worker h => exact hsolo.step (.worker h.settle) hspaced.solo
    | notify h => exact hsolo.step (.notify h.settle) hspaced.solo
    | caller i h =>
      cases hpost : (s.caller i).writes with
      | false =>
        obtain h | heq := h.settle hpost
        · exact hsolo.step (.caller i h) hspaced.solo
        · rwa [heq]
      | true =>
        cases hc : s.caller i with
        | post j =>
          cases h with
          | post hc' =>
            cases hc.symm.trans hc'
            exact hsolo.post hw hc hspaced
          | _ => simp_all
        | _ =>
          rw [hc] at hpost
          cases hpost

/-- A solo run is spaced. -/
theorem SoloReachable.spaced (h : SoloReachable pool fetch oracle s) :
    SpacedReachable pool fetch oracle s := by
  induction h with
  | init => exact .init
  | step _ hstep hsolo ih =>
    refine ih.step hstep ⟨fun i k hi hk => hsolo i k ?_ ?_, fun i k hi hk => hsolo i k ?_ hk⟩
    · intro hidle
      rw [hidle] at hi
      cases hi
    · intro hidle
      rw [hidle] at hk
      cases hk
    · intro hidle
      rw [hidle] at hi
      cases hi

end Settle

end Handoff
