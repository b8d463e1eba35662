import Mathlib.Logic.Relation
import Mathlib.Algebra.BigOperators.Group.Finset.Basic

/-!
# Transition — asynchronous systems, their runs and their invariants

A system is a set of agents that take turns on one shared state.  An agent's step is a partial
function, so a schedule is nothing but the order in which the agents are picked:

* `System.Steps s t` — some schedule leads from `s` to `t`;
* `System.Reachable t` — some schedule leads to `t` from an initial state;
* `System.Reachable.invariant` — the induction rule every safety statement uses;
* `System.Run` — a run with its number of steps, by some of the agents only.

The second half specialises this to threads that run straight-line programs over a store to which
operations only add.  There the schedule is irrelevant: a reachable store is the initial store plus
the contributions of the executed prefixes (`exists_executed`).
-/

namespace TLI
namespace Transition

/-- Agents `ι` acting one atomic step at a time on a shared state `σ`. -/
structure System (σ ι : Type*) where
  Init : σ → Prop
  step : ι → σ → Option σ

namespace System

variable {σ ι : Type*} {S : System σ ι} {s t u : σ} {a : ι}

def Next (S : System σ ι) (s t : σ) : Prop :=
  ∃ a, S.step a s = some t

def Steps (S : System σ ι) : σ → σ → Prop :=
  Relation.ReflTransGen S.Next

def Reachable (S : System σ ι) (t : σ) : Prop :=
  ∃ s, S.Init s ∧ S.Steps s t

theorem Steps.refl (s : σ) : S.Steps s s :=
  Relation.ReflTransGen.refl

theorem Steps.single (h : S.step a s = some t) : S.Steps s t :=
  Relation.ReflTransGen.single ⟨a, h⟩

theorem Steps.trans (h₁ : S.Steps s t) (h₂ : S.Steps t u) : S.Steps s u :=
  Relation.ReflTransGen.trans h₁ h₂

theorem Steps.tail (h₁ : S.Steps s t) (h₂ : S.step a t = some u) : S.Steps s u :=
  h₁.trans (.single h₂)

theorem Reachable.init (h : S.Init s) : S.Reachable s :=
  ⟨s, h, .refl s⟩

theorem Reachable.steps (hs : S.Reachable s) (h : S.Steps s t) : S.Reachable t := by
  rcases hs with ⟨s₀, h₀, hrun⟩
  exact ⟨s₀, h₀, hrun.trans h⟩

/-- What one step of any agent preserves, every run preserves. -/
theorem Steps.invariant {Inv : σ → Prop}
    (hstep : ∀ a s t, Inv s → S.step a s = some t → Inv t)
    (h : S.Steps s t) (hs : Inv s) : Inv t := by
  induction h with
  | refl => exact hs
  | tail _ hnext ih =>
      rcases hnext with ⟨a, ha⟩
      exact hstep a _ _ ih ha

theorem Reachable.invariant {Inv : σ → Prop}
    (hinit : ∀ s, S.Init s → Inv s)
    (hstep : ∀ a s t, Inv s → S.step a s = some t → Inv t)
    (h : S.Reachable t) : Inv t := by
  rcases h with ⟨s, hs, hrun⟩
  exact hrun.invariant hstep (hinit s hs)

/-- A run of `n` steps, all of them by agents that `may` act. -/
inductive Run (S : System σ ι) (may : ι → Prop) : Nat → σ → σ → Prop
  | refl (s : σ) : Run S may 0 s s
  | tail {n : Nat} {s t u : σ} {a : ι} :
      Run S may n s t → may a → S.step a t = some u → Run S may (n + 1) s u

/-- What a step preserves while there is room for it, every run that is short enough preserves. -/
theorem Run.invariant {may : ι → Prop} (Inv : Nat → σ → Prop) (bound : Nat) {m n : Nat}
    (hstep : ∀ a b s t, b < bound → may a → Inv b s → S.step a s = some t → Inv (b + 1) t)
    (h : S.Run may n s t) (hbound : m + n ≤ bound) (hs : Inv m s) : Inv (m + n) t := by
  induction h with
  | refl => exact hs
  | tail _ hmay ha ih => exact hstep _ _ _ _ hbound hmay (ih (Nat.le_of_succ_le hbound) hs) ha

theorem Run.mono {may may' : ι → Prop} {n : Nat} (hmay : ∀ a, may a → may' a)
    (h : S.Run may n s t) : S.Run may' n s t := by
  induction h with
  | refl => exact .refl _
  | tail _ ha hnext ih => exact ih.tail (hmay _ ha) hnext

/-- The state that a schedule leads to. -/
def exec (S : System σ ι) : List ι → σ → Option σ
  | [], s => some s
  | a :: as, s => (S.step a s).bind (S.exec as)

theorem Run.head {may : ι → Prop} {n : Nat} (hmay : may a) (ha : S.step a s = some t)
    (h : S.Run may n t u) : S.Run may (n + 1) s u := by
  induction h with
  | refl => exact (Run.refl s).tail hmay ha
  | tail _ hmay' hnext ih => exact (ih ha).tail hmay' hnext

theorem Run.trans {may : ι → Prop} {m n : Nat} (h₁ : S.Run may m s t) (h₂ : S.Run may n t u) :
    S.Run may (m + n) s u := by
  induction h₂ with
  | refl => exact h₁
  | tail _ hmay hnext ih => exact (ih h₁).tail hmay hnext

theorem Run.of_exec {may : ι → Prop} {as : List ι} (hmay : ∀ a ∈ as, may a)
    (h : S.exec as s = some t) : S.Run may as.length s t := by
  induction as generalizing s with
  | nil =>
      obtain rfl := Option.some.inj h
      exact .refl _
  | cons a as ih =>
      obtain ⟨u, hu, hrest⟩ := Option.bind_eq_some_iff.1 h
      exact (ih (fun b hb => hmay b (List.mem_cons_of_mem _ hb)) hrest).head
        (hmay a List.mem_cons_self) hu

theorem Run.exists_of_exec (S : System σ ι) (may : ι → Prop) (as : List ι) (s : σ) {p : σ → Bool}
    (hmay : ∀ a ∈ as, may a) (h : (S.exec as s).any p = true) :
    ∃ t, S.Run may as.length s t ∧ p t = true := by
  obtain ⟨t, ht, hp⟩ := (Option.any_eq_true ..).1 h
  exact ⟨t, .of_exec hmay ht, hp⟩

theorem Run.steps {may : ι → Prop} {n : Nat} (h : S.Run may n s t) : S.Steps s t := by
  induction h with
  | refl => exact .refl _
  | tail _ _ hnext ih => exact ih.tail hnext

end System

/-! ## Threads with straight-line programs -/

section Programs

variable {ι Op M : Type*}

/-- What each thread still has to execute, and the store they share. -/
structure Config (ι Op M : Type*) where
  remaining : ι → List Op
  store : M

variable [DecidableEq ι] [AddCommMonoid M]

/-- Thread `i` executes its next operation; the store grows by that operation's contribution. -/
def threadStep (contrib : Op → M) (i : ι) (c : Config ι Op M) : Option (Config ι Op M) :=
  match c.remaining i with
  | [] => none
  | op :: rest =>
      some { remaining := Function.update c.remaining i rest
             store := c.store + contrib op }

/-- All interleavings of the programs `prog`, started on the store `init`. -/
def threads (contrib : Op → M) (prog : ι → List Op) (init : M) : System (Config ι Op M) ι where
  Init c := c.remaining = prog ∧ c.store = init
  step := threadStep contrib

variable [Fintype ι]

/-- The executed prefixes `done` account for the configuration `c`. -/
structure Executed (contrib : Op → M) (prog : ι → List Op) (init : M)
    (done : ι → List Op) (c : Config ι Op M) : Prop where
  split : ∀ i, prog i = done i ++ c.remaining i
  store : c.store = init + ∑ i, ((done i).map contrib).sum

variable {contrib : Op → M} {prog : ι → List Op} {init : M} {c : Config ι Op M}

/-- Appending to one thread's executed prefix adds exactly that contribution to the total. -/
theorem sum_update_append (done : ι → List Op) (i : ι) (op : Op) :
    ∑ j, ((Function.update done i (done i ++ [op]) j).map contrib).sum =
      ∑ j, ((done j).map contrib).sum + contrib op := by
  have hi : i ∈ (Finset.univ : Finset ι) := Finset.mem_univ i
  have hrest :
      ∑ j ∈ Finset.univ.erase i, ((Function.update done i (done i ++ [op]) j).map contrib).sum =
        ∑ j ∈ Finset.univ.erase i, ((done j).map contrib).sum := by
    refine Finset.sum_congr rfl fun j hj => ?_
    rw [Function.update_of_ne (Finset.ne_of_mem_erase hj)]
  rw [← Finset.sum_erase_add _ _ hi, ← Finset.sum_erase_add _ (fun j => ((done j).map contrib).sum) hi,
    hrest]
  simp [add_assoc]

theorem Executed.step {done : ι → List Op} (h : Executed contrib prog init done c)
    {i : ι} {op : Op} {rest : List Op} (hi : c.remaining i = op :: rest) :
    Executed contrib prog init (Function.update done i (done i ++ [op]))
      { remaining := Function.update c.remaining i rest, store := c.store + contrib op } := by
  constructor
  · intro j
    by_cases hj : j = i
    · subst hj
      simp [h.split j, hi]
    · simp [Function.update_of_ne hj, h.split j]
  · simp only
    rw [sum_update_append, h.store, add_assoc]

/-- Every reachable configuration is accounted for by executed prefixes. -/
theorem exists_executed (h : (threads contrib prog init).Reachable c) :
    ∃ done, Executed contrib prog init done c := by
  refine @System.Reachable.invariant _ _ (threads contrib prog init) c
    (fun c => ∃ done, Executed contrib prog init done c) ?_ ?_ h
  · rintro c ⟨hrem, hstore⟩
    refine ⟨fun _ => [], ?_, ?_⟩
    · simp [hrem]
    · simp [hstore]
  · rintro i c c' ⟨done, hdone⟩ hstep
    cases hrem : c.remaining i with
    | nil =>
        simp [threads, threadStep, hrem] at hstep
    | cons op rest =>
        have hc' : { remaining := Function.update c.remaining i rest
                     store := c.store + contrib op } = c' := by
          simpa [threads, threadStep, hrem] using hstep
        subst hc'
        exact ⟨_, hdone.step hrem⟩

omit [Fintype ι] in
/-- One thread can always run alone through any part of its program. -/
theorem reachable_advance {i : ι} :
    ∀ {ops rest : List Op} {c : Config ι Op M},
      (threads contrib prog init).Reachable c → c.remaining i = ops ++ rest →
        (threads contrib prog init).Reachable
          { remaining := Function.update c.remaining i rest
            store := c.store + (ops.map contrib).sum } := by
  intro ops
  induction ops with
  | nil =>
      intro rest c hc hrem
      have hsame : Function.update c.remaining i rest = c.remaining := by
        rw [← List.nil_append rest, ← hrem, Function.update_eq_self]
      simpa [hsame] using hc
  | cons op ops ih =>
      intro rest c hc hrem
      have hstep : (threads contrib prog init).step i c =
          some { remaining := Function.update c.remaining i (ops ++ rest)
                 store := c.store + contrib op } := by
        simp [threads, threadStep, hrem]
      have hrem' : Function.update c.remaining i (ops ++ rest) i = ops ++ rest :=
        Function.update_self _ _ _
      have hnext := ih (hc.steps (.single hstep)) hrem'
      simpa [add_assoc] using hnext

end Programs

end Transition
end TLI
