import Mathlib.Data.Nat.Notation
import Mathlib.Order.Nat

/-!
# Fuel — computations that return once they are given enough fuel

`f fuel = none` means that the run was cut off.  `Returns f a` says that every run with enough fuel
ends with the result `a`.
-/

namespace TLI

variable {α β : Type*}

def Returns (f : Nat → Option α) (a : α) : Prop :=
  ∃ bound, ∀ fuel, bound ≤ fuel → f fuel = some a

namespace Returns

theorem unique {f : Nat → Option α} {a b : α} (ha : Returns f a) (hb : Returns f b) : a = b := by
  rcases ha with ⟨n, hn⟩
  rcases hb with ⟨m, hm⟩
  have hsame := (hn (max n m) (le_max_left n m)).symm.trans (hm (max n m) (le_max_right n m))
  exact Option.some.inj hsame

theorem const (a : α) : Returns (fun _ => some a) a :=
  ⟨0, fun _ _ => rfl⟩

/-- A run may spend one unit of fuel before it goes on. -/
theorem of_succ {f g : Nat → Option α} {a : α} (hg : Returns g a)
    (h : ∀ fuel, f (fuel + 1) = g fuel) : Returns f a := by
  rcases hg with ⟨n, hn⟩
  refine ⟨n + 1, fun fuel hfuel => ?_⟩
  obtain ⟨fuel, rfl⟩ := Nat.exists_eq_succ_of_ne_zero (by omega : fuel ≠ 0)
  rw [h, hn fuel (by omega)]

theorem map {f : Nat → Option α} {a : α} (g : α → β) (hf : Returns f a) :
    Returns (fun fuel => (f fuel).map g) (g a) := by
  rcases hf with ⟨n, hn⟩
  exact ⟨n, fun fuel hfuel => by simp only [hn fuel hfuel, Option.map_some]⟩

theorem congr {f g : Nat → Option α} {a : α} (hf : Returns f a) (h : ∀ fuel, g fuel = f fuel) :
    Returns g a := by
  rcases hf with ⟨n, hn⟩
  exact ⟨n, fun fuel hfuel => by rw [h, hn fuel hfuel]⟩

/-- Enough fuel for every element of a list is enough for the list. -/
theorem mapM {γ : Type*} {f : γ → Nat → Option α} {g : γ → α} :
    ∀ {xs : List γ}, (∀ x ∈ xs, Returns (f x) (g x)) →
      Returns (fun fuel => xs.mapM fun x => f x fuel) (xs.map g) := by
  intro xs
  induction xs with
  | nil => exact fun _ => ⟨0, fun _ _ => rfl⟩
  | cons x xs ih =>
      intro h
      obtain ⟨n, hn⟩ := h x List.mem_cons_self
      obtain ⟨m, hm⟩ := ih fun y hy => h y (List.mem_cons_of_mem x hy)
      refine ⟨max n m, fun fuel hfuel => ?_⟩
      simp only [List.mapM_cons, hn fuel ((le_max_left n m).trans hfuel),
        hm fuel ((le_max_right n m).trans hfuel), List.map_cons]
      rfl

end Returns

end TLI
