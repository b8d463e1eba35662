import Mathlib.Logic.Function.Basic
import Mathlib.Data.Fintype.Basic
import TLI.Library.Transition

/-!
# Handshake — how `DoOps` starts and stops its worker threads

`Benchmark::DoOps` clears `running` and `ready_threads`, `runMultithread` creates the workers,
waits until every worker has announced itself, sets `running` and spins until some worker clears
it again, then joins them.  Each worker runs `DoOpsCoreLoop`.

One transition is one atomic read or write of a shared variable (`running`, `ready_threads`,
`run_failed`), together with the thread-local work before the next one.
-/

namespace TLI
namespace Handshake

open Transition

/-- What one phase hands to its workers: the window `[start, limit)` of each worker, and which
operations make the verify branch or the default branch set `run_failed`. -/
structure Phase (N : Nat) where
  start : Fin N → Nat
  limit : Fin N → Nat
  fails : Fin N → Nat → Bool

/-! ## States -/

/-- Where a worker stands in `DoOpsCoreLoop`. -/
inductive WorkerPc
  | notCreated
  | announce
  | wait
  | loopHead
  | execute
  | checkFailed
  | finish
  | returned
  deriving DecidableEq, Repr

structure Worker where
  pc : WorkerPc
  idx : Nat
  flag : Bool
  opCnt : Nat
  deriving DecidableEq, Repr

/-- Where the coordinator stands in `DoOps` and `runMultithread`. -/
inductive CoordPc
  | clearRunning
  | clearReady
  | create (worker : Nat)
  | waitReady
  | setRunning
  | waitStopped
  | join (worker : Nat)
  | done
  deriving DecidableEq, Repr

structure State (N : Nat) where
  running : Bool
  readyThreads : Nat
  runFailed : Bool
  coord : CoordPc
  worker : Fin N → Worker

/-- The agents of a phase. -/
inductive Agent (N : Nat)
  | coordinator
  | worker (w : Fin N)

variable {N : Nat}

def State.setWorker (s : State N) (w : Fin N) (x : Worker) : State N :=
  { s with worker := Function.update s.worker w x }

@[simp] theorem State.setWorker_running (s : State N) (w : Fin N) (x : Worker) :
    (s.setWorker w x).running = s.running := rfl

@[simp] theorem State.setWorker_readyThreads (s : State N) (w : Fin N) (x : Worker) :
    (s.setWorker w x).readyThreads = s.readyThreads := rfl

@[simp] theorem State.setWorker_runFailed (s : State N) (w : Fin N) (x : Worker) :
    (s.setWorker w x).runFailed = s.runFailed := rfl

@[simp] theorem State.setWorker_coord (s : State N) (w : Fin N) (x : Worker) :
    (s.setWorker w x).coord = s.coord := rfl

@[simp] theorem State.setWorker_self (s : State N) (w : Fin N) (x : Worker) :
    (s.setWorker w x).worker w = x := by
  simp [State.setWorker]

theorem State.setWorker_of_ne (s : State N) {w v : Fin N} (x : Worker) (h : v ≠ w) :
    (s.setWorker w x).worker v = s.worker v := by
  simp [State.setWorker, Function.update_of_ne h]

/-- Replacing one worker keeps a fact about every worker that the new one satisfies. -/
theorem forall_setWorker {s : State N} {Q : Fin N → Worker → Prop} (hs : ∀ v, Q v (s.worker v))
    {w : Fin N} {x : Worker} (hx : Q w x) (v : Fin N) : Q v ((s.setWorker w x).worker v) := by
  by_cases hv : v = w
  · subst hv
    simpa using hx
  · rw [State.setWorker_of_ne s x hv]
    exact hs v

/-! ## Steps -/

/-- One atomic step of `DoOpsCoreLoop` in worker `w`. -/
def workerStep (P : Phase N) (w : Fin N) (s : State N) : Option (State N) :=
  let x := s.worker w
  match x.pc with
  | .notCreated => none
  | .announce =>
      -- `util::ready_threads++`
      some ({ s with readyThreads := s.readyThreads + 1 }.setWorker w { x with pc := .wait })
  | .wait =>
      -- `while (!util::running);`
      if s.running then
        some (s.setWorker w { x with pc := .loopHead, idx := P.start w, flag := false })
      else
        some s
  | .loopHead =>
      if x.idx < P.limit w then
        -- `if (!util::running && !flag)`
        if !s.running && !x.flag then
          some (s.setWorker w { x with pc := .execute, flag := true, opCnt := x.idx - P.start w })
        else
          some (s.setWorker w { x with pc := .execute })
      else
        some (s.setWorker w { x with pc := .finish })
  | .execute =>
      some ({ s with runFailed := s.runFailed || P.fails w x.idx }.setWorker w
        { x with pc := .checkFailed })
  | .checkFailed =>
      -- `if (run_failed) return nullptr;`
      if s.runFailed then
        some (s.setWorker w { x with pc := .returned })
      else
        some (s.setWorker w { x with pc := .loopHead, idx := x.idx + 1 })
  | .finish =>
      -- `if (!flag) { util::running = false; op_cnt = limit - start; }`
      if x.flag then
        some (s.setWorker w { x with pc := .returned })
      else
        some ({ s with running := false }.setWorker w
          { x with pc := .returned, opCnt := P.limit w - P.start w })
  | .returned => none

/-- One atomic step of the coordinator. -/
def coordStep (s : State N) : Option (State N) :=
  match s.coord with
  | .clearRunning => some { s with running := false, coord := .clearReady }
  | .clearReady => some { s with readyThreads := 0, coord := .create 0 }
  | .create k =>
      if h : k < N then
        some { s.setWorker ⟨k, h⟩ { s.worker ⟨k, h⟩ with pc := .announce } with
          coord := .create (k + 1) }
      else
        some { s with coord := .waitReady }
  | .waitReady =>
      -- `while (util::ready_threads < num_workers_) sleep(1);`
      if s.readyThreads < N then some s else some { s with coord := .setRunning }
  | .setRunning => some { s with running := true, coord := .waitStopped }
  | .waitStopped =>
      -- `while (util::running);`
      if s.running then some s else some { s with coord := .join 0 }
  | .join k =>
      if h : k < N then
        if (s.worker ⟨k, h⟩).pc = .returned then some { s with coord := .join (k + 1) } else none
      else
        some { s with coord := .done }
  | .done => none

def step (P : Phase N) : Agent N → State N → Option (State N)
  | .coordinator => coordStep
  | .worker w => workerStep P w

/-- Before a phase no worker exists and no failure is recorded; `running` and `ready_threads` hold
whatever the phase before left there. -/
structure Initial (s : State N) : Prop where
  coord : s.coord = .clearRunning
  runFailed : s.runFailed = false
  worker : ∀ w, (s.worker w).pc = .notCreated

def system (P : Phase N) : System (State N) (Agent N) where
  Init := Initial
  step := step P

/-! ## The property -/

/-- The coordinator has executed `util::running = true`. -/
def CoordPc.Started : CoordPc → Prop
  | .waitStopped => True
  | .join _ => True
  | .done => True
  | _ => False

/-- The worker has not left `while (!util::running)` yet. -/
def Worker.BeforeLoop (x : Worker) : Prop :=
  x.pc = .notCreated ∨ x.pc = .announce ∨ x.pc = .wait

/-- `running` was set and cleared again while some worker still waits for it to be set. -/
def State.Stranded (s : State N) : Prop :=
  s.coord.Started ∧ s.running = false ∧ ∃ w, (s.worker w).BeforeLoop

/-- The worker's window contains an operation that sets `run_failed`. -/
def Phase.HasFailure (P : Phase N) (w : Fin N) : Prop :=
  ∃ i, P.start w ≤ i ∧ i < P.limit w ∧ P.fails w i = true

/-! ## A worker with a failing operation never clears `running` -/

/-- What a worker knows about the operations it has executed. -/
def Worker.Sound (P : Phase N) (w : Fin N) (runFailed : Bool) (x : Worker) : Prop :=
  match x.pc with
  | .loopHead | .execute => P.start w ≤ x.idx ∧ ∀ i, P.start w ≤ i → i < x.idx → P.fails w i = false
  | .checkFailed =>
      P.start w ≤ x.idx ∧ (∀ i, P.start w ≤ i → i < x.idx → P.fails w i = false) ∧
        (P.fails w x.idx = true → runFailed = true)
  | .finish => ∀ i, P.start w ≤ i → i < P.limit w → P.fails w i = false
  | _ => True

theorem Worker.Sound.mono {P : Phase N} {w : Fin N} {b c : Bool} {x : Worker}
    (hbc : b = true → c = true) (h : x.Sound P w b) : x.Sound P w c := by
  unfold Worker.Sound at *
  split <;> simp_all

/-- The invariant of a phase in which no worker can finish its window. -/
structure Inv (P : Phase N) (s : State N) : Prop where
  sound : ∀ w, (s.worker w).Sound P w s.runFailed
  running : s.coord.Started → s.running = true

theorem Inv.of_initial {P : Phase N} {s : State N} (h : Initial s) : Inv P s := by
  constructor
  · intro w
    simp [Worker.Sound, h.worker w]
  · intro hstarted
    simp [h.coord, CoordPc.Started] at hstarted

/-- A step that only moves worker `w` keeps what every other worker knows. -/
theorem sound_setWorker {P : Phase N} {s : State N} {w : Fin N} {x : Worker} {b : Bool}
    (hs : ∀ v, (s.worker v).Sound P v s.runFailed) (hb : s.runFailed = true → b = true)
    (hx : x.Sound P w b) (v : Fin N) : ((s.setWorker w x).worker v).Sound P v b :=
  forall_setWorker (Q := fun v x => x.Sound P v b) (fun v => (hs v).mono hb) hx v

theorem Inv.workerStep {P : Phase N} (hfail : ∀ w, P.HasFailure w) {s t : State N} {w : Fin N}
    (h : Inv P s) (hstep : workerStep P w s = some t) : Inv P t := by
  have hw := h.sound w
  unfold Handshake.workerStep at hstep
  cases hpc : (s.worker w).pc with
  | notCreated => simp [hpc] at hstep
  | returned => simp [hpc] at hstep
  | announce =>
      simp only [hpc, Option.some.injEq] at hstep
      subst hstep
      exact ⟨sound_setWorker h.sound id (by simp [Worker.Sound]), h.running⟩
  | wait =>
      simp only [hpc] at hstep
      split at hstep <;> simp only [Option.some.injEq] at hstep <;> subst hstep
      · refine ⟨sound_setWorker h.sound id ?_, h.running⟩
        refine ⟨le_refl _, fun i hi hlt => ?_⟩
        exact absurd hi (Nat.not_le.2 hlt)
      · exact h
  | loopHead =>
      have hidx : P.start w ≤ (s.worker w).idx ∧
          ∀ i, P.start w ≤ i → i < (s.worker w).idx → P.fails w i = false := by
        simpa [Worker.Sound, hpc] using hw
      simp only [hpc] at hstep
      split at hstep
      · split at hstep <;> simp only [Option.some.injEq] at hstep <;> subst hstep <;>
          exact ⟨sound_setWorker h.sound id hidx, h.running⟩
      · rename_i hlimit
        simp only [Option.some.injEq] at hstep
        subst hstep
        refine ⟨sound_setWorker h.sound id ?_, h.running⟩
        intro i hi hlt
        exact hidx.2 i hi (by omega)
  | execute =>
      have hidx : P.start w ≤ (s.worker w).idx ∧
          ∀ i, P.start w ≤ i → i < (s.worker w).idx → P.fails w i = false := by
        simpa [Worker.Sound, hpc] using hw
      simp only [hpc, Option.some.injEq] at hstep
      subst hstep
      refine ⟨?_, h.running⟩
      intro v
      refine sound_setWorker (s := { s with runFailed := s.runFailed || P.fails w _ })
        (fun v => (h.sound v).mono (by simp +contextual)) id ?_ v
      exact ⟨hidx.1, hidx.2, fun hf => by simp [hf]⟩
  | checkFailed =>
      have hidx : P.start w ≤ (s.worker w).idx ∧
          (∀ i, P.start w ≤ i → i < (s.worker w).idx → P.fails w i = false) ∧
            (P.fails w (s.worker w).idx = true → s.runFailed = true) := by
        simpa [Worker.Sound, hpc] using hw
      simp only [hpc] at hstep
      split at hstep <;> simp only [Option.some.injEq] at hstep <;> subst hstep
      · exact ⟨sound_setWorker h.sound id (by simp [Worker.Sound]), h.running⟩
      · rename_i hok
        refine ⟨sound_setWorker h.sound id ⟨by simp; omega, fun i hi hlt => ?_⟩, h.running⟩
        by_cases heq : i = (s.worker w).idx
        · cases hf : P.fails w i with
          | false => rfl
          | true => exact absurd (hidx.2.2 (heq ▸ hf)) hok
        · exact hidx.2.1 i hi (by simp at hlt; omega)
  | finish =>
      -- No failing operation was met, against `hfail`.
      have hnone : ∀ i, P.start w ≤ i → i < P.limit w → P.fails w i = false := by
        simpa [Worker.Sound, hpc] using hw
      rcases hfail w with ⟨i, hi, hlt, hf⟩
      simp [hnone i hi hlt] at hf

theorem Inv.coordStep {P : Phase N} {s t : State N} (h : Inv P s)
    (hstep : coordStep s = some t) : Inv P t := by
  unfold Handshake.coordStep at hstep
  cases hc : s.coord with
  | clearRunning =>
      simp only [hc, Option.some.injEq] at hstep
      subst hstep
      exact ⟨h.sound, by simp [CoordPc.Started]⟩
  | clearReady =>
      simp only [hc, Option.some.injEq] at hstep
      subst hstep
      exact ⟨h.sound, by simp [CoordPc.Started]⟩
  | create k =>
      simp only [hc] at hstep
      split at hstep <;> simp only [Option.some.injEq] at hstep <;> subst hstep
      · exact ⟨sound_setWorker h.sound id (by simp [Worker.Sound]), by simp [CoordPc.Started]⟩
      · exact ⟨h.sound, by simp [CoordPc.Started]⟩
  | waitReady =>
      simp only [hc] at hstep
      split at hstep <;> simp only [Option.some.injEq] at hstep <;> subst hstep
      · exact h
      · exact ⟨h.sound, by simp [CoordPc.Started]⟩
  | setRunning =>
      simp only [hc, Option.some.injEq] at hstep
      subst hstep
      exact ⟨h.sound, fun _ => rfl⟩
  | waitStopped =>
      have hrun : s.running = true := h.running (by simp [hc, CoordPc.Started])
      simp only [hc, hrun, if_true, Option.some.injEq] at hstep
      subst hstep
      exact h
  | join k =>
      have hrun : s.running = true := h.running (by simp [hc, CoordPc.Started])
      simp only [hc] at hstep
      split at hstep
      · split at hstep
        · simp only [Option.some.injEq] at hstep
          subst hstep
          exact ⟨h.sound, fun _ => hrun⟩
        · simp at hstep
      · simp only [Option.some.injEq] at hstep
        subst hstep
        exact ⟨h.sound, fun _ => hrun⟩
  | done => simp [hc] at hstep

/-- If every window holds a failing operation, the flag stays set once it is set. -/
theorem inv_of_reachable {P : Phase N} (hfail : ∀ w, P.HasFailure w) {s : State N}
    (h : (system P).Reachable s) : Inv P s := by
  refine h.invariant (fun s hs => .of_initial hs) ?_
  intro a s t hs hstep
  cases a with
  | coordinator => exact hs.coordStep hstep
  | worker w => exact hs.workerStep hfail hstep

/-! ## A fast worker strands the others -/

/-- Every worker is created and announced, none has looked at `running` yet. -/
structure AllWaiting (s : State N) : Prop where
  coord : s.coord = .waitStopped
  running : s.running = true
  runFailed : s.runFailed = false
  worker : ∀ w, (s.worker w).pc = .wait

/-- The coordinator creates the workers `k, k + 1, …`; no worker moves meanwhile. -/
theorem steps_create (P : Phase N) (m : Nat) :
    ∀ s : State N, ∀ k, k + m = N → s.coord = .create k →
      (∀ w, w.val < k → (s.worker w).pc = .announce) →
        ∃ t, (system P).Steps s t ∧ t.coord = .waitReady ∧ t.readyThreads = s.readyThreads ∧
          t.runFailed = s.runFailed ∧ ∀ w, (t.worker w).pc = .announce := by
  induction m with
  | zero =>
      intro s k hk hc hw
      have hstep : (system P).step .coordinator s = some { s with coord := .waitReady } := by
        have hge : ¬ k < N := by omega
        simp [system, step, coordStep, hc, hge]
      exact ⟨_, .single hstep, rfl, rfl, rfl, fun w => hw w (by omega)⟩
  | succ m ih =>
      intro s k hk hc hw
      have hlt : k < N := by omega
      let s' : State N :=
        { s.setWorker ⟨k, hlt⟩ { s.worker ⟨k, hlt⟩ with pc := .announce } with
          coord := .create (k + 1) }
      have hstep : (system P).step .coordinator s = some s' := by
        simp [system, step, coordStep, hc, hlt, s']
      have hw' : ∀ w, w.val < k + 1 → (s'.worker w).pc = .announce := by
        intro w hlt'
        by_cases hwk : w = ⟨k, hlt⟩
        · subst hwk
          simp [s', State.setWorker]
        · have hne : w.val ≠ k := fun h => hwk (Fin.ext h)
          simpa [s', State.setWorker, Function.update_of_ne hwk] using hw w (by omega)
      rcases ih s' (k + 1) (by omega) rfl hw' with ⟨t, hrun, hcoord, hready, hfailed, hann⟩
      exact ⟨t, (System.Steps.single hstep).trans hrun, hcoord, hready, hfailed, hann⟩

/-- The workers `k, k + 1, …` announce themselves one after the other. -/
theorem steps_announce (P : Phase N) (m : Nat) :
    ∀ s : State N, ∀ k, k + m = N → s.readyThreads = k →
      (∀ w : Fin N, (s.worker w).pc = if w.val < k then .wait else .announce) →
        ∃ t, (system P).Steps s t ∧ t.coord = s.coord ∧ t.readyThreads = N ∧
          t.runFailed = s.runFailed ∧ ∀ w, (t.worker w).pc = .wait := by
  induction m with
  | zero =>
      intro s k hk hready hw
      refine ⟨s, .refl s, rfl, by omega, rfl, fun w => ?_⟩
      have hlt : w.val < k := by omega
      simpa [hlt] using hw w
  | succ m ih =>
      intro s k hk hready hw
      have hlt : k < N := by omega
      let v : Fin N := ⟨k, hlt⟩
      let s' : State N :=
        { s with readyThreads := s.readyThreads + 1 }.setWorker v { s.worker v with pc := .wait }
      have hv : (s.worker v).pc = .announce := by
        simpa [v] using hw v
      have hstep : (system P).step (.worker v) s = some s' := by
        simp [system, step, workerStep, hv, s']
      have hw' : ∀ w : Fin N, (s'.worker w).pc = if w.val < k + 1 then .wait else .announce := by
        intro w
        by_cases hwv : w = v
        · subst hwv
          simp [s', v]
        · have hne : w.val ≠ k := fun h => hwv (Fin.ext h)
          have hiff : w.val < k + 1 ↔ w.val < k := by omega
          simpa [s', State.setWorker, Function.update_of_ne hwv, hiff] using hw w
      rcases ih s' (k + 1) (by omega) (by simp [s', hready]) hw' with
        ⟨t, hrun, hcoord, hready', hfailed, hwait⟩
      exact ⟨t, (System.Steps.single hstep).trans hrun, hcoord, hready', hfailed, hwait⟩

/-- The phase can reach the point where `running` was just set and every worker still waits. -/
theorem exists_allWaiting (P : Phase N) :
    ∃ s, (system P).Reachable s ∧ AllWaiting s := by
  let s₀ : State N :=
    { running := false, readyThreads := 0, runFailed := false, coord := .clearRunning
      worker := fun _ => { pc := .notCreated, idx := 0, flag := false, opCnt := 0 } }
  have hinit : (system P).Reachable s₀ :=
    .init ⟨rfl, rfl, fun _ => rfl⟩
  let s₁ : State N := { s₀ with coord := .create 0 }
  have hclear : (system P).Steps s₀ s₁ :=
    (System.Steps.single (a := .coordinator) (t := { s₀ with coord := .clearReady }) rfl).tail
      (a := .coordinator) rfl
  rcases steps_create P N s₁ 0 (by omega) rfl (fun w hw => absurd hw (Nat.not_lt_zero _)) with
    ⟨s₂, hcreate, hcoord₂, hready₂, hfailed₂, hann₂⟩
  rcases steps_announce P N s₂ 0 (by omega) hready₂ (by simpa using hann₂) with
    ⟨s₃, hannounce, hcoord₃, hready₃, hfailed₃, hwait₃⟩
  have hc₃ : s₃.coord = .waitReady := hcoord₃.trans hcoord₂
  have hset : (system P).Steps s₃ { s₃ with running := true, coord := .waitStopped } := by
    refine (System.Steps.single (a := .coordinator)
      (t := { s₃ with coord := .setRunning }) ?_).tail (a := .coordinator) rfl
    simp [system, step, coordStep, hc₃, hready₃]
  refine ⟨_, hinit.steps (((hclear.trans hcreate).trans hannounce).trans hset), ?_⟩
  exact ⟨rfl, rfl, by rw [hfailed₃, hfailed₂], hwait₃⟩

/-- Everything outside worker `w` is as in `s`, and `w` stands at the loop head before `i`. -/
def AtLoopHead (s : State N) (w : Fin N) (i : Nat) (t : State N) : Prop :=
  ∃ x : Worker, t = s.setWorker w x ∧ x.pc = .loopHead ∧ x.idx = i ∧ x.flag = false

/-- While `running` is set, a worker alone runs through operations that succeed, up to `b`. -/
theorem steps_loop {P : Phase N} {w : Fin N} {s : State N} (hrun : s.running = true)
    (hok : s.runFailed = false) {b : Nat} (hb : b ≤ P.limit w)
    (hnone : ∀ i, P.start w ≤ i → i < b → P.fails w i = false) (m : Nat) :
    ∀ i t, b - i = m → P.start w ≤ i → AtLoopHead s w i t →
      ∃ t', (system P).Steps t t' ∧ AtLoopHead s w (max i b) t' := by
  induction m with
  | zero =>
      intro i t hi _ ht
      have hmax : max i b = i := Nat.max_eq_left (by omega)
      exact ⟨t, .refl t, hmax.symm ▸ ht⟩
  | succ m ih =>
      intro i t hi hstart ht
      rcases ht with ⟨x, rfl, hpc, hidx, hflag⟩
      have hlt : i < b := by omega
      have hlimit : i < P.limit w := Nat.lt_of_lt_of_le hlt hb
      have hexec : (system P).step (.worker w) (s.setWorker w x) =
          some (s.setWorker w { x with pc := .execute }) := by
        simp [system, step, workerStep, hpc, hidx, hlimit, hrun, State.setWorker]
      have hcheck : (system P).step (.worker w) (s.setWorker w { x with pc := .execute }) =
          some (s.setWorker w { x with pc := .checkFailed }) := by
        simp [system, step, workerStep, hidx, hnone i hstart hlt, State.setWorker]
      have hnext : (system P).step (.worker w) (s.setWorker w { x with pc := .checkFailed }) =
          some (s.setWorker w { x with pc := .loopHead, idx := i + 1 }) := by
        simp [system, step, workerStep, hidx, hok, State.setWorker]
      have hhead : AtLoopHead s w (i + 1)
          (s.setWorker w { x with pc := .loopHead, idx := i + 1 }) :=
        ⟨_, rfl, rfl, rfl, hflag⟩
      rcases ih (i + 1) _ (by omega) (by omega) hhead with ⟨t', hrest, ht'⟩
      have hmax : max (i + 1) b = max i b := by omega
      exact ⟨t', (((System.Steps.single hexec).tail hcheck).tail hnext).trans hrest, hmax ▸ ht'⟩

/-- A worker that meets no failing operation clears `running` while the others still wait. -/
theorem exists_stranded {P : Phase N} {w v : Fin N} (hv : v ≠ w)
    (hnone : ¬ P.HasFailure w) : ∃ s, (system P).Reachable s ∧ s.Stranded := by
  have hok : ∀ i, P.start w ≤ i → i < P.limit w → P.fails w i = false := by
    intro i hi hlt
    cases hf : P.fails w i with
    | false => rfl
    | true => exact absurd ⟨i, hi, hlt, hf⟩ hnone
  rcases exists_allWaiting P with ⟨s, hreach, hs⟩
  let x : Worker := { s.worker w with pc := .loopHead, idx := P.start w, flag := false }
  have hleave : (system P).step (.worker w) s = some (s.setWorker w x) := by
    simp [system, step, workerStep, hs.worker w, hs.running, x]
  rcases steps_loop hs.running hs.runFailed (le_refl _) hok (P.limit w - P.start w) (P.start w)
    (s.setWorker w x) rfl (le_refl _) ⟨x, rfl, rfl, rfl, rfl⟩ with
    ⟨t, hloop, y, rfl, hpc, hidx, hflag⟩
  have hexit : (system P).step (.worker w) (s.setWorker w y) =
      some (s.setWorker w { y with pc := .finish }) := by
    have hge : ¬ y.idx < P.limit w := Nat.not_lt.2 (hidx ▸ Nat.le_max_right _ _)
    simp [system, step, workerStep, hpc, hge, State.setWorker]
  have hclear : (system P).step (.worker w) (s.setWorker w { y with pc := .finish }) =
      some ({ s with running := false }.setWorker w
        { y with pc := .returned, opCnt := P.limit w - P.start w }) := by
    simp [system, step, workerStep, hflag, State.setWorker]
  refine ⟨_, hreach.steps ((((System.Steps.single hleave).trans hloop).tail hexit).tail hclear), ?_⟩
  refine ⟨by simp [hs.coord, CoordPc.Started], rfl, v, ?_⟩
  rw [State.setWorker_of_ne _ _ hv]
  exact .inr (.inr (hs.worker v))

/-- With at least two workers, the handshake strands no worker exactly when no worker can get
through its window: each window contains an operation that sets `run_failed`. -/
theorem not_stranded_iff_hasFailure (P : Phase N) (hN : 2 ≤ N) :
    (∀ s, (system P).Reachable s → ¬ s.Stranded) ↔ ∀ w, P.HasFailure w := by
  constructor
  · intro hsafe w
    by_contra hnone
    have : Nontrivial (Fin N) := Fin.nontrivial_iff_two_le.2 hN
    rcases exists_ne w with ⟨v, hv⟩
    rcases exists_stranded hv hnone with ⟨s, hreach, hs⟩
    exact hsafe s hreach hs
  · rintro hfail s hreach ⟨hstarted, hclear, _⟩
    have hrun : s.running = true := (inv_of_reachable hfail hreach).running hstarted
    simp [hrun] at hclear

/-- Two workers whose first operation fails: the flag is never cleared behind anyone's back. -/
theorem not_stranded_two_failing :
    ¬ ∃ s : State 2,
      (system { start := fun _ => 0, limit := fun _ => 1, fails := fun _ _ => true }).Reachable s ∧
        s.Stranded := by
  rintro ⟨s, hreach, hstranded⟩
  exact (not_stranded_iff_hasFailure
    { start := fun _ => 0, limit := fun _ => 1, fails := fun _ _ => true } (by decide)).2
    (fun _ => ⟨0, le_refl _, Nat.zero_lt_one, rfl⟩) s hreach hstranded

/-- Two workers with one ordinary operation each: the first one done strands the other. -/
theorem exists_stranded_two_workers :
    ∃ s : State 2,
      (system { start := fun _ => 0, limit := fun _ => 1, fails := fun _ _ => false }).Reachable s ∧
        s.Stranded := by
  have hne : (1 : Fin 2) ≠ 0 := by decide
  refine exists_stranded hne ?_
  rintro ⟨i, _, _, hf⟩
  simp at hf

end Handshake
end TLI
