import Mathlib.Algebra.BigOperators.Group.List.Basic
import TLI.Competitors.LIPP.Ordered
import TLI.Library.Multimap

/-!
# Range — what a range query sums up

`RangeQuery` adds up the values from the lower bound on until a key is above the upper one.  Below a
root with more than one item that is the sum over the interval.
-/

namespace TLI
namespace LIPP

open List Multimap

variable {K : Type} [LinearOrder K]

/-- `while (it != end() && it->comp.data.key <= upper_key) { result += value; ++it; }`, for so many
turns. -/
def sumValues {M : Type} (fuel : Nat) (upperKey : K) :
    Nat → Iterator M K UInt64 → UInt64 → Option UInt64
  | 0, _, _ => none
  | turns + 1, it, result =>
      match it.it with
      | none => some result
      | some ptr => do
          let p ← ptr.data?
          if p.1 ≤ upperKey then do
            let it' ← advanceStack fuel it.stack
            sumValues fuel upperKey turns it' (result + p.2)
          else
            some result

/-- `RangeQuery` -/
def rangeQuery (F : LinearModels K) (fuel : Nat) (root : Item F.Model K UInt64)
    (lowerKey upperKey : K) : Option UInt64 := do
  let it ← lowerBound F fuel lowerKey root []
  sumValues fuel upperKey fuel it 0

/-- The sum over the pairs up to the upper key. -/
def sumUpTo (upperKey : K) (ps : List (K × UInt64)) : UInt64 :=
  ((ps.takeWhile fun p => decide (p.1 ≤ upperKey)).map Prod.snd).sum

theorem sumUpTo_cons (upperKey : K) (p : K × UInt64) (ps : List (K × UInt64)) :
    sumUpTo upperKey (p :: ps) = if p.1 ≤ upperKey then p.2 + sumUpTo upperKey ps else 0 := by
  rw [sumUpTo, takeWhile_cons]
  by_cases hle : p.1 ≤ upperKey
  · rw [if_pos (decide_eq_true hle), if_pos hle, map_cons, sum_cons, sumUpTo]
  · rw [if_neg fun h => hle (of_decide_eq_true h), if_neg hle, map_nil, sum_nil]

/-- The loop adds up what the iterator enumerates, up to the upper key. -/
theorem sumValues_spec {M : Type} (upperKey : K) {it : Iterator M K UInt64}
    {ps : List (K × UInt64)} (h : Enumerates it ps) :
    ∃ bound, ∀ fuel, bound ≤ fuel → ∀ turns, bound ≤ turns → ∀ result,
      sumValues fuel upperKey turns it result = some (result + sumUpTo upperKey ps) := by
  induction h with
  | done null =>
      refine ⟨1, fun fuel _ turns hturns result => ?_⟩
      obtain ⟨turns, rfl⟩ := Nat.exists_eq_succ_of_ne_zero (by omega : turns ≠ 0)
      rw [sumValues, null]
      exact congrArg some (add_zero result).symm
  | @next it it' ptr p ps points data returns rest ih =>
      obtain ⟨n, hn⟩ := returns
      obtain ⟨m, hm⟩ := ih
      refine ⟨max n m + 1, fun fuel hfuel turns hturns result => ?_⟩
      obtain ⟨turns, rfl⟩ := Nat.exists_eq_succ_of_ne_zero (by omega : turns ≠ 0)
      have hadvance := hn fuel (by omega)
      rw [sumValues, points, sumUpTo_cons]
      simp only [data, Option.bind_eq_bind, Option.bind_some, hadvance]
      by_cases hle : p.1 ≤ upperKey
      · rw [if_pos hle, if_pos hle, hm fuel (by omega) turns (by omega), add_assoc]
      · rw [if_neg hle, if_neg hle, add_zero]

variable {F : LinearModels K}

/-- Below a root with more than one item a range query returns the sum over its interval. -/
theorem rangeQuery_sums (hmono : ∀ model n, Monotone (predictPos F model n))
    {root : Item F.Model K UInt64} {stored : List (K × UInt64)} (h : Reachable F root stored)
    (hmany : 1 < root.numItems) (lowerKey upperKey : K) :
    Returns (fun fuel => rangeQuery F fuel root lowerKey upperKey)
      (rangeSum lowerKey upperKey (stored : Multimap K UInt64)) := by
  have hsound := h.sound hmono
  have hsorted : Sorted (pairs root) := (hsound.wf.sorted hmono).imp fun hlt => hlt.le
  obtain ⟨it, ⟨n, hn⟩, hleads⟩ :=
    lowerBound_spec hmono lowerKey hsound.wf (hsound.padded_of_lt hmany) .nil
  rw [append_nil] at hleads
  obtain ⟨m, hm⟩ := sumValues_spec upperKey (enumerates_of_leads _ hleads)
  have hsum : rangeSum lowerKey upperKey (stored : Multimap K UInt64) =
      sumUpTo upperKey ((pairs root).filter fun p => decide (lowerKey ≤ p.1)) := by
    rw [← Multiset.coe_eq_coe.2 hsound.perm, rangeSum_coe_of_sorted hsorted,
      dropWhile_eq_filter_of_sorted hsorted, sumUpTo]
  refine ⟨max n m, fun fuel hfuel => ?_⟩
  have hquery : rangeQuery F fuel root lowerKey upperKey = sumValues fuel upperKey fuel it 0 :=
    congrArg (fun it => it.bind fun it => sumValues fuel upperKey fuel it 0) (hn fuel (by omega))
  rw [hsum, ← zero_add (sumUpTo _ _)]
  exact hquery.trans (hm fuel (by omega) fuel (by omega) 0)

theorem rangeQuery_sums_fiveKeys :
    ∃ root, fiveKeys = some root ∧
      Returns (fun fuel => rangeQuery rationalModels fuel root 20 25) 11 := by
  obtain ⟨root, hroot, hmany, hreachable⟩ := reachable_fiveKeys
  have hreturns := rangeQuery_sums rationalModels_monotone hreachable hmany 20 25
  have hsum : rangeSum 20 25 (([(21, 4), (22, 5), (10, 1), (20, 2), (30, 3)] :
      List (UInt64 × UInt64)) : Multimap UInt64 UInt64) = 11 := by
    decide
  exact ⟨root, hroot, hsum ▸ hreturns⟩

end LIPP
end TLI
