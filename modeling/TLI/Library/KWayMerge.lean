import Mathlib.Data.List.Perm.Basic
import Mathlib.Order.Lattice

/-!
# KWayMerge — sorted runs merged through a queue of their heads

A cursor stands in a run; `next` moves it on, or ends the run.  The queue holds one cursor of each
run that is left.  A step takes the cursor of the smallest rank out and puts its successor in.
If the runs ascend, the cursors come out in ascending order, each once.
-/

namespace TLI
namespace KWayMerge

open List

variable {γ L : Type*} [LinearOrder L] {rank : γ → L}

/-! ## The queue -/

/-- An entry of the smallest rank, the first one in the list, and the others. -/
def pop (rank : γ → L) : List γ → Option (γ × List γ)
  | [] => none
  | c :: queue =>
      match pop rank queue with
      | none => some (c, [])
      | some (d, rest) => if rank c ≤ rank d then some (c, d :: rest) else some (d, c :: rest)

theorem pop_eq_none {queue : List γ} (h : pop rank queue = none) : queue = [] := by
  cases queue with
  | nil => rfl
  | cons c queue =>
      rw [pop] at h
      split at h
      · cases h
      · split at h <;> cases h

theorem pop_spec {c : γ} {queue rest : List γ} (h : pop rank queue = some (c, rest)) :
    c :: rest ~ queue ∧ ∀ d ∈ queue, rank c ≤ rank d := by
  induction queue generalizing c rest with
  | nil => cases h
  | cons e queue ih =>
      rw [pop] at h
      split at h
      · rename_i hnone
        cases h
        rw [pop_eq_none hnone]
        exact ⟨Perm.refl _, fun d hd => by rw [mem_singleton.1 hd]⟩
      · rename_i d others hsome
        obtain ⟨hperm, hmin⟩ := ih hsome
        split at h
        · rename_i hle
          cases h
          refine ⟨hperm.cons _, fun x hx => ?_⟩
          rcases mem_cons.1 hx with rfl | hx
          · exact le_rfl
          · exact hle.trans (hmin x hx)
        · rename_i hlt
          cases h
          refine ⟨(Perm.swap _ _ _).trans (hperm.cons _), fun x hx => ?_⟩
          rcases mem_cons.1 hx with rfl | hx
          · exact (not_le.1 hlt).le
          · exact hmin x hx

/-! ## Draining the queue -/

variable {next : γ → Option γ}

/-- The cursors that leave the queue, one step after another. -/
inductive Drains (rank : γ → L) (next : γ → Option γ) : List γ → List γ → Prop
  | nil : Drains rank next [] []
  | step {queue rest out : List γ} {c : γ} : pop rank queue = some (c, rest) →
      Drains rank next ((next c).toList ++ rest) out → Drains rank next queue (c :: out)

/-- `run c` lists the cursors from `c` to the end of its run. -/
structure Runs (next : γ → Option γ) (valid : γ → Prop) (run : γ → List γ) : Prop where
  run_eq : ∀ c, valid c → run c = c :: (next c).toList.flatMap run
  valid_next : ∀ c d, valid c → next c = some d → valid d

variable {valid : γ → Prop} {run : γ → List γ}

/-- One step takes one cursor out of the runs that are left. -/
theorem Runs.flatMap_step (h : Runs next valid run) {c : γ} {queue rest : List γ}
    (hvalid : ∀ d ∈ queue, valid d) (hpop : pop rank queue = some (c, rest)) :
    queue.flatMap run ~ c :: ((next c).toList ++ rest).flatMap run := by
  have hperm := (pop_spec hpop).1
  have hc : valid c := hvalid c (hperm.subset mem_cons_self)
  have hsplit : (c :: rest).flatMap run = c :: ((next c).toList ++ rest).flatMap run := by
    rw [flatMap_cons, h.run_eq c hc, flatMap_append, cons_append]
  rw [← hsplit]
  exact hperm.symm.flatMap_right run

theorem Runs.valid_step (h : Runs next valid run) {c : γ} {queue rest : List γ}
    (hvalid : ∀ d ∈ queue, valid d) (hpop : pop rank queue = some (c, rest)) :
    ∀ d ∈ (next c).toList ++ rest, valid d := by
  have hperm := (pop_spec hpop).1
  intro d hd
  rcases mem_append.1 hd with hnext | hrest
  · exact h.valid_next c d (hvalid c (hperm.subset mem_cons_self)) (Option.mem_toList.1 hnext)
  · exact hvalid d (hperm.subset (mem_cons_of_mem c hrest))

/-- The cursor that leaves the queue is the smallest of all runs. -/
theorem Runs.rank_le (h : Runs next valid run) {c : γ} {queue rest : List γ}
    (hvalid : ∀ d ∈ queue, valid d) (hpop : pop rank queue = some (c, rest))
    (hsorted : ∀ d ∈ queue, (run d).Pairwise fun x y => rank x ≤ rank y) :
    ∀ x ∈ queue.flatMap run, rank c ≤ rank x := by
  intro x hx
  obtain ⟨d, hd, hxd⟩ := mem_flatMap.1 hx
  have hcd := (pop_spec hpop).2 d hd
  have hrun := hsorted d hd
  rw [h.run_eq d (hvalid d hd)] at hxd hrun
  rcases mem_cons.1 hxd with rfl | hxd
  · exact hcd
  · exact hcd.trans ((pairwise_cons.1 hrun).1 x hxd)

/-- The run of the successor ascends as well. -/
theorem Runs.sorted_step (h : Runs next valid run) {c : γ} {queue rest : List γ}
    (hvalid : ∀ d ∈ queue, valid d) (hpop : pop rank queue = some (c, rest))
    (hsorted : ∀ d ∈ queue, (run d).Pairwise fun x y => rank x ≤ rank y) :
    ∀ d ∈ (next c).toList ++ rest, (run d).Pairwise fun x y => rank x ≤ rank y := by
  have hperm := (pop_spec hpop).1
  have hc := hperm.subset mem_cons_self
  intro d hd
  rcases mem_append.1 hd with hnext | hrest
  · have hrun := hsorted c hc
    rw [h.run_eq c (hvalid c hc), Option.mem_toList.1 hnext] at hrun
    simpa using (pairwise_cons.1 hrun).2
  · exact hsorted d (hperm.subset (mem_cons_of_mem c hrest))

/-- Every queue of ascending runs drains; the cursors come out in order, each once. -/
theorem Runs.exists_drains (h : Runs next valid run) {queue : List γ}
    (hvalid : ∀ d ∈ queue, valid d)
    (hsorted : ∀ d ∈ queue, (run d).Pairwise fun x y => rank x ≤ rank y) :
    ∃ out, Drains rank next queue out ∧ out ~ queue.flatMap run ∧
      out.Pairwise fun x y => rank x ≤ rank y := by
  induction hn : (queue.flatMap run).length generalizing queue with
  | zero =>
      cases queue with
      | nil => exact ⟨[], .nil, Perm.refl _, Pairwise.nil⟩
      | cons c queue =>
          rw [flatMap_cons, h.run_eq c (hvalid c mem_cons_self)] at hn
          cases hn
  | succ n ih =>
      cases hpop : pop rank queue with
      | none =>
          rw [pop_eq_none hpop] at hn
          cases hn
      | some popped =>
          obtain ⟨c, rest⟩ := popped
          have hperm := h.flatMap_step hvalid hpop
          have hlen := hperm.length_eq
          rw [hn, length_cons] at hlen
          obtain ⟨out, hdrains, hout, hascends⟩ := ih (h.valid_step hvalid hpop)
            (h.sorted_step hvalid hpop hsorted) (Nat.succ.inj hlen).symm
          refine ⟨c :: out, .step hpop hdrains, (hout.cons c).trans hperm.symm,
            pairwise_cons.2 ⟨fun x hx => ?_, hascends⟩⟩
          refine h.rank_le hvalid hpop hsorted x (hperm.symm.subset ?_)
          exact mem_cons_of_mem c (hout.subset hx)

/-- A cursor of a strictly smaller rank than all others leaves first. -/
theorem Drains.eq_cons {queue out : List γ} {c : γ} (h : Drains rank next queue out)
    (hc : c ∈ queue) (hmin : ∀ d ∈ queue, d = c ∨ rank c < rank d) :
    ∃ rest out', pop rank queue = some (c, rest) ∧ out = c :: out' ∧
      Drains rank next ((next c).toList ++ rest) out' := by
  cases h with
  | nil => cases hc
  | step hpop hdrains =>
      rename_i rest out' d
      obtain ⟨hperm, hle⟩ := pop_spec hpop
      rcases hmin d (hperm.subset mem_cons_self) with rfl | hlt
      · exact ⟨rest, out', hpop, rfl, hdrains⟩
      · exact absurd (hle c hc) (not_le.2 hlt)

end KWayMerge
end TLI
