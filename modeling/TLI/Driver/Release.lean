import TLI.Driver.Handshake

/-!
# Release — when the coordinator of a phase leaves its second spin loop

After `util::running = true` the coordinator spins until some worker clears the flag.  Only the
worker that reaches the end of its window before it has seen the flag cleared does so: the exit
`if (run_failed) return nullptr;` leaves the flag as it is.

The safe phases are those in which some worker cannot take that exit.
-/

namespace TLI
namespace Handshake

open Transition

variable {N : Nat}

/-- Every worker has returned and `running` is still set. -/
def State.Spinning (s : State N) : Prop :=
  (∀ w, (s.worker w).pc = .returned) ∧ s.running = true

/-! ## The moves of a worker and of the coordinator -/

/-- The atomic steps of `DoOpsCoreLoop`, one constructor for each branch taken. -/
inductive WorkerMove (P : Phase N) (w : Fin N) (s : State N) : State N → Prop
  | announce (pc : (s.worker w).pc = .announce) :
      WorkerMove P w s ({ s with readyThreads := s.readyThreads + 1 }.setWorker w
        { s.worker w with pc := .wait })
  | spin (pc : (s.worker w).pc = .wait) (clear : s.running = false) : WorkerMove P w s s
  | enter (pc : (s.worker w).pc = .wait) (set : s.running = true) :
      WorkerMove P w s (s.setWorker w
        { s.worker w with pc := .loopHead, idx := P.start w, flag := false })
  | start (pc : (s.worker w).pc = .loopHead) (inside : (s.worker w).idx < P.limit w) :
      WorkerMove P w s (s.setWorker w { s.worker w with pc := .execute })
  | notice (pc : (s.worker w).pc = .loopHead) (inside : (s.worker w).idx < P.limit w)
      (clear : s.running = false) :
      WorkerMove P w s (s.setWorker w
        { s.worker w with
          pc := .execute, flag := true, opCnt := (s.worker w).idx - P.start w })
  | exhaust (pc : (s.worker w).pc = .loopHead) (outside : P.limit w ≤ (s.worker w).idx) :
      WorkerMove P w s (s.setWorker w { s.worker w with pc := .finish })
  | execute (pc : (s.worker w).pc = .execute) :
      WorkerMove P w s ({ s with runFailed := s.runFailed || P.fails w (s.worker w).idx }.setWorker w
        { s.worker w with pc := .checkFailed })
  | abort (pc : (s.worker w).pc = .checkFailed) (failed : s.runFailed = true) :
      WorkerMove P w s (s.setWorker w { s.worker w with pc := .returned })
  | advance (pc : (s.worker w).pc = .checkFailed) :
      WorkerMove P w s (s.setWorker w
        { s.worker w with pc := .loopHead, idx := (s.worker w).idx + 1 })
  | leave (pc : (s.worker w).pc = .finish) (flag : (s.worker w).flag = true) :
      WorkerMove P w s (s.setWorker w { s.worker w with pc := .returned })
  | release (pc : (s.worker w).pc = .finish) :
      WorkerMove P w s ({ s with running := false }.setWorker w
        { s.worker w with pc := .returned, opCnt := P.limit w - P.start w })

theorem workerMove_of_step {P : Phase N} {w : Fin N} {s t : State N}
    (h : workerStep P w s = some t) : WorkerMove P w s t := by
  unfold workerStep at h
  cases hpc : (s.worker w).pc with
  | notCreated => simp [hpc] at h
  | returned => simp [hpc] at h
  | announce =>
      simp only [hpc, Option.some.injEq] at h
      exact h ▸ .announce hpc
  | wait =>
      simp only [hpc] at h
      split at h <;> rename_i hrun <;> simp only [Option.some.injEq] at h
      · exact h ▸ .enter hpc hrun
      · exact h ▸ .spin hpc (by simpa using hrun)
  | loopHead =>
      simp only [hpc] at h
      split at h
      · rename_i hinside
        split at h <;> rename_i hclear <;> simp only [Option.some.injEq] at h
        · simp only [Bool.and_eq_true, Bool.not_eq_true'] at hclear
          exact h ▸ .notice hpc hinside hclear.1
        · exact h ▸ .start hpc hinside
      · rename_i houtside
        simp only [Option.some.injEq] at h
        exact h ▸ .exhaust hpc (Nat.not_lt.1 houtside)
  | execute =>
      simp only [hpc, Option.some.injEq] at h
      exact h ▸ .execute hpc
  | checkFailed =>
      simp only [hpc] at h
      split at h <;> rename_i hfailed <;> simp only [Option.some.injEq] at h
      · exact h ▸ .abort hpc hfailed
      · exact h ▸ .advance hpc
  | finish =>
      simp only [hpc] at h
      split at h <;> rename_i hflag <;> simp only [Option.some.injEq] at h
      · exact h ▸ .leave hpc hflag
      · exact h ▸ .release hpc

/-- The atomic steps of `DoOps` and `runMultithread`, up to what they do to the workers. -/
inductive CoordMove (s : State N) : State N → Prop
  | clear (coord : s.coord = .clearRunning) :
      CoordMove s { s with running := false, coord := .clearReady }
  | reset (coord : s.coord = .clearReady) :
      CoordMove s { s with readyThreads := 0, coord := .create 0 }
  | create (w : Fin N) (coord : s.coord = .create w) :
      CoordMove s { s.setWorker w { s.worker w with pc := .announce } with
        coord := .create (w + 1) }
  | prepare (c : CoordPc) (before : ¬ s.coord.Started) (prepared : s.coord ≠ .clearRunning)
      (after : ¬ c.Started) (kept : c ≠ .clearRunning) : CoordMove s { s with coord := c }
  | set (coord : s.coord = .setRunning) :
      CoordMove s { s with running := true, coord := .waitStopped }
  | await (c : CoordPc) (before : s.coord.Started) (after : c.Started) :
      CoordMove s { s with coord := c }

theorem coordMove_of_step {s t : State N} (h : coordStep s = some t) : CoordMove s t := by
  unfold coordStep at h
  cases hc : s.coord with
  | clearRunning =>
      simp only [hc, Option.some.injEq] at h
      exact h ▸ .clear hc
  | clearReady =>
      simp only [hc, Option.some.injEq] at h
      exact h ▸ .reset hc
  | create k =>
      simp only [hc] at h
      split at h <;> simp only [Option.some.injEq] at h
      · rename_i hk
        exact h ▸ .create ⟨k, hk⟩ hc
      · exact h ▸ .prepare .waitReady (by simp [hc, CoordPc.Started]) (by simp [hc])
          (by simp [CoordPc.Started]) (by simp)
  | waitReady =>
      simp only [hc] at h
      split at h <;> simp only [Option.some.injEq] at h
      · have hsame : { s with coord := .waitReady } = s := by rw [← hc]
        exact h ▸ hsame ▸ .prepare .waitReady (by simp [CoordPc.Started]) (by simp)
          (by simp [CoordPc.Started]) (by simp)
      · exact h ▸ .prepare .setRunning (by simp [hc, CoordPc.Started]) (by simp [hc])
          (by simp [CoordPc.Started]) (by simp)
  | setRunning =>
      simp only [hc, Option.some.injEq] at h
      exact h ▸ .set hc
  | waitStopped =>
      simp only [hc] at h
      split at h <;> simp only [Option.some.injEq] at h
      · have hsame : { s with coord := .waitStopped } = s := by rw [← hc]
        exact h ▸ hsame ▸ .await .waitStopped (by simp [CoordPc.Started]) trivial
      · exact h ▸ .await (.join 0) (by simp [hc, CoordPc.Started]) trivial
  | join k =>
      simp only [hc] at h
      split at h
      · split at h <;> simp only [Option.some.injEq, reduceCtorEq] at h
        exact h ▸ .await (.join (k + 1)) (by simp [hc, CoordPc.Started]) trivial
      · simp only [Option.some.injEq] at h
        exact h ▸ .await .done (by simp [hc, CoordPc.Started]) trivial
  | done => simp [hc] at h

/-! ## What every reachable state satisfies -/

/-- The index of a worker stays inside its window while an operation is under way. -/
def Worker.InWindow (P : Phase N) (w : Fin N) (x : Worker) : Prop :=
  match x.pc with
  | .loopHead => P.start w ≤ x.idx
  | .execute | .checkFailed => P.start w ≤ x.idx ∧ x.idx < P.limit w
  | _ => True

/-- Facts that need no assumption on the phase. -/
structure Bounded (P : Phase N) (s : State N) : Prop where
  window : ∀ w, (s.worker w).InWindow P w
  failed : s.runFailed = true → ∃ w, P.HasFailure w

theorem Bounded.workerMove {P : Phase N} {w : Fin N} {s t : State N} (h : Bounded P s)
    (hmove : WorkerMove P w s t) : Bounded P t := by
  have hw := h.window w
  cases hmove with
  | announce => exact ⟨forall_setWorker h.window trivial, h.failed⟩
  | spin => exact h
  | enter => exact ⟨forall_setWorker h.window (le_refl (P.start w)), h.failed⟩
  | start pc inside =>
      simp only [Worker.InWindow, pc] at hw
      exact ⟨forall_setWorker h.window ⟨hw, inside⟩, h.failed⟩
  | notice pc inside =>
      simp only [Worker.InWindow, pc] at hw
      exact ⟨forall_setWorker h.window ⟨hw, inside⟩, h.failed⟩
  | exhaust => exact ⟨forall_setWorker h.window trivial, h.failed⟩
  | execute pc =>
      simp only [Worker.InWindow, pc] at hw
      refine ⟨forall_setWorker (Q := fun v x => x.InWindow P v) h.window hw, fun hfailed => ?_⟩
      rcases Bool.or_eq_true_iff.1 hfailed with hbefore | hnow
      · exact h.failed hbefore
      · exact ⟨w, _, hw.1, hw.2, hnow⟩
  | abort => exact ⟨forall_setWorker h.window trivial, h.failed⟩
  | advance pc =>
      simp only [Worker.InWindow, pc] at hw
      exact ⟨forall_setWorker h.window (Nat.le_succ_of_le hw.1), h.failed⟩
  | leave => exact ⟨forall_setWorker h.window trivial, h.failed⟩
  | release => exact ⟨forall_setWorker h.window trivial, h.failed⟩

theorem Bounded.coordMove {P : Phase N} {s t : State N} (h : Bounded P s)
    (hmove : CoordMove s t) : Bounded P t := by
  cases hmove with
  | create w => exact ⟨forall_setWorker h.window trivial, h.failed⟩
  | _ => exact ⟨h.window, h.failed⟩

/-- Until the coordinator sets `running`, the flag is clear and no worker gets past the wait. -/
structure Gate (s : State N) : Prop where
  fresh : s.coord = .clearRunning → ∀ w, (s.worker w).pc = .notCreated
  clear : ¬ s.coord.Started → s.coord ≠ .clearRunning → s.running = false
  waiting : ¬ s.coord.Started → ∀ w, (s.worker w).BeforeLoop

/-- A worker that has left the wait proves that the coordinator has set `running`. -/
theorem Gate.started {s : State N} (h : Gate s) {w : Fin N} (hw : ¬ (s.worker w).BeforeLoop) :
    s.coord.Started := by
  by_contra hnot
  exact hw (h.waiting hnot w)

/-- So does the flag itself, once some worker exists. -/
theorem Gate.started_of_running {s : State N} (h : Gate s) (hrun : s.running = true) {w : Fin N}
    (hw : (s.worker w).pc ≠ .notCreated) : s.coord.Started := by
  by_contra hnot
  by_cases hc : s.coord = .clearRunning
  · exact hw (h.fresh hc w)
  · simp [h.clear hnot hc] at hrun

theorem Gate.of_started {s : State N} (h : s.coord.Started) : Gate s :=
  ⟨fun hc => by simp [hc, CoordPc.Started] at h, fun hnot => absurd h hnot,
    fun hnot => absurd h hnot⟩

theorem Gate.workerMove {P : Phase N} {w : Fin N} {s t : State N} (h : Gate s)
    (hmove : WorkerMove P w s t) : Gate t := by
  cases hmove with
  | announce pc =>
      refine ⟨fun hc => ?_, h.clear, fun hnot => ?_⟩
      · simp [h.fresh hc w] at pc
      · exact forall_setWorker (Q := fun _ x => x.BeforeLoop) (h.waiting hnot) (.inr (.inr rfl))
  | spin => exact h
  | enter pc set => exact .of_started (h.started_of_running set (w := w) (by simp [pc]))
  | start pc => exact .of_started (h.started (w := w) (by simp [Worker.BeforeLoop, pc]))
  | notice pc => exact .of_started (h.started (w := w) (by simp [Worker.BeforeLoop, pc]))
  | exhaust pc => exact .of_started (h.started (w := w) (by simp [Worker.BeforeLoop, pc]))
  | execute pc => exact .of_started (h.started (w := w) (by simp [Worker.BeforeLoop, pc]))
  | abort pc => exact .of_started (h.started (w := w) (by simp [Worker.BeforeLoop, pc]))
  | advance pc => exact .of_started (h.started (w := w) (by simp [Worker.BeforeLoop, pc]))
  | leave pc => exact .of_started (h.started (w := w) (by simp [Worker.BeforeLoop, pc]))
  | release pc => exact .of_started (h.started (w := w) (by simp [Worker.BeforeLoop, pc]))

theorem Gate.coordMove {s t : State N} (h : Gate s) (hmove : CoordMove s t) : Gate t := by
  cases hmove with
  | clear coord =>
      exact ⟨fun hc => by simp at hc, fun _ _ => rfl, fun _ w => .inl (h.fresh coord w)⟩
  | reset coord =>
      have hnot : ¬ s.coord.Started := by simp [coord, CoordPc.Started]
      exact ⟨fun hc => by simp at hc, fun _ _ => h.clear hnot (by simp [coord]),
        fun _ => h.waiting hnot⟩
  | create w coord =>
      have hnot : ¬ s.coord.Started := by simp [coord, CoordPc.Started]
      refine ⟨fun hc => by simp at hc, fun _ _ => h.clear hnot (by simp [coord]), fun _ => ?_⟩
      exact forall_setWorker (Q := fun _ x => x.BeforeLoop) (h.waiting hnot) (.inr (.inl rfl))
  | prepare c before prepared after kept =>
      exact ⟨fun hc => absurd hc kept, fun _ _ => h.clear before prepared,
        fun _ => h.waiting before⟩
  | set => exact .of_started trivial
  | await c before after => exact .of_started after

/-! ## A worker that cannot abort clears the flag -/

/-- Past the wait, worker `v` has not returned and not seen the flag cleared while it is set. -/
def Cleared (v : Fin N) (s : State N) : Prop :=
  ¬ (s.worker v).BeforeLoop → ((s.worker v).flag = true ∨ (s.worker v).pc = .returned) →
    s.running = false

/-- A move of another worker can only clear the flag. -/
theorem Cleared.setWorker {s t : State N} {v w : Fin N} {x : Worker} (h : Cleared v s)
    (hrun : s.running = false → t.running = false) (ht : t.worker = (s.setWorker w x).worker)
    (hx : v = w → ¬ x.BeforeLoop → (x.flag = true ∨ x.pc = .returned) → t.running = false) :
    Cleared v t := by
  intro hbefore hdone
  rw [ht] at hbefore hdone
  by_cases hv : v = w
  · subst hv
    simp only [State.setWorker_self] at hbefore hdone
    exact hx rfl hbefore hdone
  · rw [State.setWorker_of_ne s x hv] at hbefore hdone
    exact hrun (h hbefore hdone)

/-- So can a move that stays in the loop without touching the local flag. -/
theorem Cleared.keepFlag {s t : State N} {v w : Fin N} {x : Worker} (h : Cleared v s)
    (hrun : t.running = s.running) (ht : t.worker = (s.setWorker w x).worker)
    (hpc : ¬ (s.worker w).BeforeLoop) (hx : x.pc ≠ .returned)
    (hflag : x.flag = (s.worker w).flag) : Cleared v t := by
  refine h.setWorker (fun hs => hrun.trans hs) ht fun hv _ hdone => ?_
  subst hv
  rcases hdone with hset | hret
  · exact hrun.trans (h hpc (.inl (hflag.symm.trans hset)))
  · exact absurd hret hx

theorem Cleared.workerMove {P : Phase N} {v w : Fin N} {s t : State N} (h : Cleared v s)
    (hsafe : (s.worker v).pc = .checkFailed → s.runFailed = false)
    (hmove : WorkerMove P w s t) : Cleared v t := by
  cases hmove with
  | announce => exact h.setWorker id rfl fun _ hbefore => absurd (.inr (.inr rfl)) hbefore
  | spin => exact h
  | enter => exact h.setWorker id rfl fun _ _ hdone => by simp at hdone
  | start pc => exact h.keepFlag rfl rfl (by simp [Worker.BeforeLoop, pc]) (by simp) rfl
  | notice pc inside clear => exact h.setWorker id rfl fun _ _ _ => clear
  | exhaust pc => exact h.keepFlag rfl rfl (by simp [Worker.BeforeLoop, pc]) (by simp) rfl
  | execute pc => exact h.keepFlag rfl rfl (by simp [Worker.BeforeLoop, pc]) (by simp) rfl
  | abort pc failed =>
      refine h.setWorker id rfl fun hv _ _ => ?_
      subst hv
      simp [hsafe pc] at failed
  | advance pc => exact h.keepFlag rfl rfl (by simp [Worker.BeforeLoop, pc]) (by simp) rfl
  | leave pc flag =>
      refine h.setWorker id rfl fun hv _ _ => ?_
      subst hv
      exact h (by simp [Worker.BeforeLoop, pc]) (.inl flag)
  | release => exact h.setWorker (fun _ => rfl) rfl fun _ _ _ => rfl

theorem Cleared.coordMove {v : Fin N} {s t : State N} (h : Cleared v s) (hgate : Gate s)
    (hmove : CoordMove s t) : Cleared v t := by
  cases hmove with
  | clear => exact fun _ _ => rfl
  | reset => exact h
  | create w => exact h.setWorker id rfl fun _ hbefore => absurd (.inr (.inl rfl)) hbefore
  | prepare => exact h
  | set coord =>
      have hnot : ¬ s.coord.Started := by simp [coord, CoordPc.Started]
      exact fun hbefore => absurd (hgate.waiting hnot v) hbefore
  | await => exact h

/-- The invariant of a phase in which worker `v` never leaves through `run_failed`. -/
structure Released (P : Phase N) (v : Fin N) (s : State N) : Prop where
  bounded : Bounded P s
  gate : Gate s
  cleared : Cleared v s

/-- Either nothing is executed in the window of `v`, or no operation of the phase fails. -/
def Phase.NeverAborts (P : Phase N) (v : Fin N) : Prop :=
  P.limit v ≤ P.start v ∨ ∀ w, ¬ P.HasFailure w

theorem Bounded.not_failed {P : Phase N} {v : Fin N} {s : State N} (h : Bounded P s)
    (hv : P.NeverAborts v) (hpc : (s.worker v).pc = .checkFailed) : s.runFailed = false := by
  cases hfailed : s.runFailed with
  | false => rfl
  | true =>
      rcases hv with hempty | hnone
      · have hwindow := h.window v
        simp only [Worker.InWindow, hpc] at hwindow
        omega
      · rcases h.failed hfailed with ⟨w, hw⟩
        exact absurd hw (hnone w)

theorem released_of_reachable {P : Phase N} {v : Fin N} (hv : P.NeverAborts v) {s : State N}
    (h : (system P).Reachable s) : Released P v s := by
  refine h.invariant (fun s hs => ?_) ?_
  · refine ⟨⟨fun w => ?_, fun hfailed => ?_⟩, ⟨fun _ => hs.worker, fun _ hc => ?_, fun _ w => ?_⟩, ?_⟩
    · simp [Worker.InWindow, hs.worker w]
    · simp [hs.runFailed] at hfailed
    · exact absurd hs.coord hc
    · exact .inl (hs.worker w)
    · exact fun hbefore => absurd (.inl (hs.worker v)) hbefore
  · intro a s t hs hstep
    cases a with
    | coordinator =>
        have hmove := coordMove_of_step hstep
        exact ⟨hs.bounded.coordMove hmove, hs.gate.coordMove hmove,
          hs.cleared.coordMove hs.gate hmove⟩
    | worker w =>
        have hmove := workerMove_of_step hstep
        exact ⟨hs.bounded.workerMove hmove, hs.gate.workerMove hmove,
          hs.cleared.workerMove (hs.bounded.not_failed hv) hmove⟩

/-! ## A failing operation leaves the flag set -/

/-- The worker is about to enter its loop or through with it. -/
def Worker.Parked (x : Worker) : Prop :=
  x.pc = .wait ∨ x.pc = .returned

/-- Both flags are set and no worker is inside its loop. -/
structure Failing (s : State N) : Prop where
  running : s.running = true
  runFailed : s.runFailed = true
  worker : ∀ w, (s.worker w).Parked

/-- Once `run_failed` is set, a worker with a nonempty window executes one operation and returns. -/
theorem Failing.steps_abort {P : Phase N} {w : Fin N} (hw : P.start w < P.limit w) {s : State N}
    (h : Failing s) :
    ∃ t, (system P).Steps s t ∧ Failing t ∧ (t.worker w).pc = .returned ∧
      ∀ v, (s.worker v).pc = .returned → (t.worker v).pc = .returned := by
  rcases h.worker w with hwait | hret
  · let x : Worker := { s.worker w with pc := .loopHead, idx := P.start w, flag := false }
    have henter : (system P).step (.worker w) s = some (s.setWorker w x) := by
      simp [system, step, workerStep, hwait, h.running, x]
    have hstart : (system P).step (.worker w) (s.setWorker w x) =
        some (s.setWorker w { x with pc := .execute }) := by
      simp [system, step, workerStep, hw, h.running, State.setWorker, x]
    have hexec : (system P).step (.worker w) (s.setWorker w { x with pc := .execute }) =
        some (s.setWorker w { x with pc := .checkFailed }) := by
      simp [system, step, workerStep, h.runFailed, State.setWorker, x]
    have habort : (system P).step (.worker w) (s.setWorker w { x with pc := .checkFailed }) =
        some (s.setWorker w { x with pc := .returned }) := by
      simp [system, step, workerStep, h.runFailed, State.setWorker, x]
    refine ⟨_, (((System.Steps.single henter).tail hstart).tail hexec).tail habort, ?_, by simp, ?_⟩
    · exact ⟨h.running, h.runFailed, forall_setWorker (Q := fun _ x => x.Parked) h.worker (.inr rfl)⟩
    · intro v hv
      by_cases hvw : v = w
      · simp [hvw]
      · rwa [State.setWorker_of_ne s _ hvw]
  · exact ⟨s, .refl s, h, hret, fun _ hv => hv⟩

/-- The workers `k, k + 1, …` abort one after the other. -/
theorem Failing.steps_spinning {P : Phase N} (hw : ∀ w, P.start w < P.limit w) (m : Nat) :
    ∀ s : State N, ∀ k, k + m = N → Failing s →
      (∀ w : Fin N, w.val < k → (s.worker w).pc = .returned) →
        ∃ t, (system P).Steps s t ∧ t.Spinning := by
  induction m with
  | zero =>
      intro s k hk h hret
      exact ⟨s, .refl s, fun w => hret w (by omega), h.running⟩
  | succ m ih =>
      intro s k hk h hret
      have hlt : k < N := by omega
      rcases h.steps_abort (hw ⟨k, hlt⟩) with ⟨t, hrun, ht, hnow, hkeep⟩
      have hret' : ∀ w : Fin N, w.val < k + 1 → (t.worker w).pc = .returned := by
        intro w hwk
        rcases Nat.lt_succ_iff_lt_or_eq.1 hwk with hbefore | heq
        · exact hkeep w (hret w hbefore)
        · have hw : w = ⟨k, hlt⟩ := Fin.ext heq
          exact hw ▸ hnow
      rcases ih t (k + 1) (by omega) ht hret' with ⟨u, hrest, hu⟩
      exact ⟨u, hrun.trans hrest, hu⟩

/-- A worker that runs alone up to its first failing operation aborts with the flag still set. -/
theorem exists_failing {P : Phase N} {w : Fin N} (hfail : P.HasFailure w) :
    ∃ s, (system P).Reachable s ∧ Failing s := by
  classical
  -- The first failing operation of the window.
  have hfirst := Nat.find_spec hfail
  have hmin := fun i => Nat.find_min (m := i) hfail
  generalize Nat.find hfail = b at hfirst hmin
  rcases hfirst with ⟨hstart, hlimit, hb⟩
  have hnone : ∀ i, P.start w ≤ i → i < b → P.fails w i = false := by
    intro i hi hlt
    cases hf : P.fails w i with
    | false => rfl
    | true => exact absurd ⟨hi, by omega, hf⟩ (hmin i hlt)
  rcases exists_allWaiting P with ⟨s, hreach, hs⟩
  let x : Worker := { s.worker w with pc := .loopHead, idx := P.start w, flag := false }
  have henter : (system P).step (.worker w) s = some (s.setWorker w x) := by
    simp [system, step, workerStep, hs.worker w, hs.running, x]
  rcases steps_loop hs.running hs.runFailed hlimit.le hnone (b - P.start w) (P.start w)
    (s.setWorker w x) rfl (le_refl _) ⟨x, rfl, rfl, rfl, rfl⟩ with
    ⟨t, hloop, y, rfl, hpc, hidx, hflag⟩
  have hidx : y.idx = b := hidx.trans (Nat.max_eq_right hstart)
  have hexec : (system P).step (.worker w) (s.setWorker w y) =
      some (s.setWorker w { y with pc := .execute }) := by
    simp [system, step, workerStep, hpc, hidx, hlimit, hs.running, State.setWorker]
  have hcheck : (system P).step (.worker w) (s.setWorker w { y with pc := .execute }) =
      some ({ s with runFailed := true }.setWorker w { y with pc := .checkFailed }) := by
    simp [system, step, workerStep, hidx, hb, State.setWorker]
  have habort : (system P).step (.worker w)
      ({ s with runFailed := true }.setWorker w { y with pc := .checkFailed }) =
        some ({ s with runFailed := true }.setWorker w { y with pc := .returned }) := by
    simp [system, step, workerStep, State.setWorker]
  refine ⟨_, hreach.steps
    (((((System.Steps.single henter).trans hloop).tail hexec).tail hcheck).tail habort), ?_⟩
  refine ⟨hs.running, rfl, ?_⟩
  exact forall_setWorker (s := { s with runFailed := true }) (Q := fun _ x => x.Parked)
    (fun v => .inl (hs.worker v)) (.inr rfl)

theorem exists_spinning {P : Phase N} (hw : ∀ w, P.start w < P.limit w) {w : Fin N}
    (hfail : P.HasFailure w) : ∃ s, (system P).Reachable s ∧ s.Spinning := by
  rcases exists_failing hfail with ⟨s, hreach, hs⟩
  rcases hs.steps_spinning hw N s 0 (by omega) (fun v hv => absurd hv (Nat.not_lt_zero _)) with
    ⟨t, hrun, ht⟩
  exact ⟨t, hreach.steps hrun, ht⟩

/-- Without workers nobody clears the flag. -/
theorem exists_spinning_of_no_worker (P : Phase 0) :
    ∃ s, (system P).Reachable s ∧ s.Spinning := by
  rcases exists_allWaiting P with ⟨s, hreach, hs⟩
  exact ⟨s, hreach, fun w => w.elim0, hs.running⟩

/-- The coordinator is released in every run exactly when some worker executes nothing, or there
is a worker and no operation of the phase sets `run_failed`. -/
theorem not_spinning_iff (P : Phase N) :
    (∀ s, (system P).Reachable s → ¬ s.Spinning) ↔
      (∃ w, P.limit w ≤ P.start w) ∨ (0 < N ∧ ∀ w, ¬ P.HasFailure w) := by
  constructor
  · intro hsafe
    by_contra hcond
    rcases not_or.1 hcond with ⟨hfull, hsome⟩
    have hw : ∀ w, P.start w < P.limit w := fun w => Nat.not_le.1 fun hle => hfull ⟨w, hle⟩
    have hspin : ∃ s, (system P).Reachable s ∧ s.Spinning := by
      cases N with
      | zero => exact exists_spinning_of_no_worker P
      | succ n =>
          have : ∃ w, P.HasFailure w := by
            by_contra hnone
            exact hsome ⟨Nat.succ_pos n, fun w hf => hnone ⟨w, hf⟩⟩
          rcases this with ⟨w, hfail⟩
          exact exists_spinning hw hfail
    rcases hspin with ⟨s, hreach, hs⟩
    exact hsafe s hreach hs
  · rintro hcond s hreach ⟨hret, hrun⟩
    have hsome : ∃ v, P.NeverAborts v := by
      rcases hcond with ⟨v, hempty⟩ | ⟨hN, hnone⟩
      · exact ⟨v, .inl hempty⟩
      · exact ⟨⟨0, hN⟩, .inr hnone⟩
    rcases hsome with ⟨v, hv⟩
    have hinv := released_of_reachable hv hreach
    have hclear := hinv.cleared (by simp [Worker.BeforeLoop, hret v]) (.inr (hret v))
    simp [hrun] at hclear

/-- Two workers with one operation each, the first of which fails: both return, the flag stays. -/
theorem exists_spinning_two_workers :
    ∃ s : State 2,
      (system { start := fun _ => 0, limit := fun _ => 1
                fails := fun w _ => decide (w = 0) }).Reachable s ∧ s.Spinning :=
  exists_spinning (w := 0) (fun _ => Nat.zero_lt_one) ⟨0, le_refl _, Nat.zero_lt_one, rfl⟩

end Handshake
end TLI
