import Mathlib.Algebra.Order.Ring.Int
import Mathlib.Order.RelClasses
import TLI.Searches.Model

/-!
# Comparator — the search classes under a comparator other than `operator<`

`BranchingBinarySearch` and `LinearSearch` return the boundary of any predicate that splits the
window.  `ExponentialSearch` gallops with the caller's comparator and leaves a bracket around the
boundary, but finishes with a binary search under `operator<`.  The classes are therefore
interchangeable for a comparator exactly if it orders the stored keys against the lookup key as
`operator<` does.
-/

namespace TLI
namespace Searches

open PartitionPoint

variable {before : Int → Bool} {first last start l r t : Int}

/-! ## Halving -/

namespace BranchingBinarySearch

theorem halving_boundary (len : Nat) :
    ∀ first, Splits before first (first + len) →
      Boundary before first (first + len) (bound_ before first len) := by
  induction len using Nat.strongRecOn with
  | ind len ih =>
      intro first hs
      rw [bound_]
      by_cases hlen : 0 < len
      · have hhalf : len / 2 < len := Nat.div_lt_self hlen (by decide)
        simp only [hlen, if_true]
        cases hm : before (first + (len / 2 : Nat)) with
        | true =>
            have hend : first + (len / 2 : Nat) + 1 + (len - len / 2 - 1 : Nat) = first + len := by
              omega
            have hrest := ih (len - len / 2 - 1) (by omega) (first + (len / 2 : Nat) + 1)
              (hs.mono (by omega) (le_of_eq hend))
            rw [hend] at hrest
            simpa using hs.boundary_right hm (by omega) hrest
        | false =>
            have hrest := ih (len / 2) hhalf first (hs.mono (le_refl first) (by omega))
            simpa using hs.boundary_left (.inr hm) (by omega) hrest
      · have hzero : len = 0 := Nat.eq_zero_of_not_pos hlen
        subst hzero
        simpa using Boundary.empty before first

/-- Only the values of `before` inside the window matter. -/
theorem halving_congr {before' : Int → Bool} (len : Nat) :
    ∀ first : Int, (∀ i, first ≤ i → i < first + len → before' i = before i) →
      bound_ before' first len = bound_ before first len := by
  induction len using Nat.strongRecOn with
  | ind len ih =>
      intro first heq
      rw [bound_, bound_]
      by_cases hlen : 0 < len
      · have hhalf : len / 2 < len := Nat.div_lt_self hlen (by decide)
        simp only [hlen, if_true]
        rw [heq (first + (len / 2 : Nat)) (by omega) (by omega),
          ih (len - len / 2 - 1) (by omega) _ fun i hi hlt => heq i (by omega) (by omega),
          ih (len / 2) hhalf _ fun i hi hlt => heq i hi (by omega)]
      · simp [hlen]

theorem bound_boundary (hs : Splits before first last) (hfirst : first ≤ start)
    (hlast : start ≤ last) : Boundary before first last (bound before first last start) := by
  rw [bound]
  by_cases hstart : start ≠ last ∧ before start = true
  · rw [if_pos hstart]
    have hlt : start < last := lt_of_le_of_ne hlast hstart.1
    have hend : start + 1 + ((last - (start + 1)).toNat : Int) = last := by omega
    have hrest := halving_boundary (last - (start + 1)).toNat (start + 1)
      (hs.mono (by omega) (le_of_eq hend))
    rw [hend] at hrest
    exact hs.boundary_right hstart.2 hfirst hrest
  · rw [if_neg hstart]
    have hend : first + ((start - first).toNat : Int) = start := by omega
    have hrest := halving_boundary (start - first).toNat first
      (hs.mono (le_refl first) (hend.le.trans hlast))
    rw [hend] at hrest
    refine hs.boundary_left ?_ hlast hrest
    by_cases heq : start = last
    · exact .inl heq
    · exact .inr (by simpa [heq] using hstart)

theorem bound_congr {before' : Int → Bool} (hfirst : first ≤ start) (hlast : start ≤ last)
    (heq : ∀ i, first ≤ i → i < last → before' i = before i) :
    bound before' first last start = bound before first last start := by
  rw [bound, bound]
  by_cases hend : start = last
  · subst hend
    simp only [ne_eq, not_true_eq_false, false_and, if_false]
    exact halving_congr _ _ fun i hi hlt => heq i hi (by omega)
  · rw [heq start hfirst (lt_of_le_of_ne hlast hend)]
    rw [halving_congr (start - first).toNat first fun i hi hlt => heq i hi (by omega),
      halving_congr (last - (start + 1)).toNat (start + 1) fun i hi hlt =>
        heq i (by omega) (by omega)]

end BranchingBinarySearch

/-! ## Scanning -/

namespace LinearSearch

theorem scanUp_boundary (n : Nat) :
    ∀ it, Splits before it (it + n) → Boundary before it (it + n) (scanUp before n it) := by
  induction n with
  | zero =>
      intro it _
      simpa [scanUp] using Boundary.empty before it
  | succ n ih =>
      intro it hs
      rw [scanUp]
      have hend : it + 1 + (n : Int) = it + (n + 1 : Nat) := by omega
      cases hit : before it with
      | true =>
          have hrest := ih (it + 1) (hs.mono (by omega) (le_of_eq hend))
          rw [hend] at hrest
          simpa using hs.boundary_right hit (le_refl it) hrest
      | false =>
          simpa using hs.boundary_left (.inr hit) (by omega) (.empty before it)

/-- The position behind the last one, from `it` down, at which `before` holds. -/
def downResult (before : Int → Bool) (n : Nat) (it : Int) : Int :=
  if before (scanDown before n it) then scanDown before n it + 1 else scanDown before n it

theorem downResult_boundary (n : Nat) :
    ∀ it, Splits before (it - n) it → (n = 0 → before it = false) →
      Boundary before (it - n) it (downResult before n it) := by
  induction n with
  | zero =>
      intro it _ hit
      simpa [downResult, scanDown, hit rfl] using Boundary.empty before it
  | succ n ih =>
      intro it hs _
      cases hprev : before (it - 1) with
      | true =>
          have hresult : downResult before (n + 1) it = it := by
            simp [downResult, scanDown, hprev]
          rw [hresult]
          refine hs.boundary_right hprev (by omega) ?_
          simpa using Boundary.empty before it
      | false =>
          have hresult : downResult before (n + 1) it = downResult before n (it - 1) := by
            simp [downResult, scanDown, hprev]
          have hfirst : it - 1 - (n : Int) = it - (n + 1 : Nat) := by omega
          have hrest := ih (it - 1) (hs.mono (le_of_eq hfirst.symm) (by omega)) fun _ => hprev
          rw [hresult, ← hfirst]
          rw [← hfirst] at hs
          exact hs.boundary_left (.inr hprev) (by omega) hrest

theorem bound_boundary (hs : Splits before first last) (hfirst : first ≤ start)
    (hlast : start ≤ last) : Boundary before first last (bound before first last start) := by
  rw [bound]
  by_cases hempty : first = last
  · subst hempty
    simpa using Boundary.empty before first
  rw [if_neg hempty]
  by_cases hstart : start ≠ last ∧ before start = true
  · rw [if_pos hstart]
    have hlt : start < last := lt_of_le_of_ne hlast hstart.1
    have hend : start + 1 + ((last - (start + 1)).toNat : Int) = last := by omega
    have hrest := scanUp_boundary (last - (start + 1)).toNat (start + 1)
      (hs.mono (by omega) (le_of_eq hend))
    rw [hend] at hrest
    exact hs.boundary_right hstart.2 hfirst hrest
  · rw [if_neg hstart]
    have hnot : start ≠ last → before start = false := by simpa using hstart
    have hend : start - ((start - first).toNat : Int) = first := by omega
    have hzero : (start - first).toNat = 0 → before start = false :=
      fun hz => hnot (by omega)
    have hrest := downResult_boundary (start - first).toNat start
      (hend.symm ▸ hs.mono (le_refl first) hlast) hzero
    rw [hend] at hrest
    refine hs.boundary_left ?_ hlast hrest
    by_cases heq : start = last
    · exact .inl heq
    · exact .inr (hnot heq)

end LinearSearch

/-! ## Galloping -/

namespace ExponentialSearch

theorem gallopUp_bracket {size : Nat} (hsize : 2 * (size : Int) ≤ last - start)
    (hfirst : first ≤ start) (step : Nat) (l r : Int) (hl : l = start + 2 ^ step - 1)
    (hr : r = l + 2 ^ step) (hbefore : before l = true) (hlast : l < last) :
    Bracket before first last ((gallopUp before size step l r).2.1 + 1)
      (if size < (gallopUp before size step l r).1 then last
        else (gallopUp before size step l r).2.2) := by
  fun_induction gallopUp before size step l r with
  | case1 step l r h _ ih =>
      have hbound : (2 : Int) ^ step ≤ size := by exact_mod_cast h.1
      exact ih (by rw [pow_succ]; omega) rfl h.2 (by omega)
  | case2 step l r h =>
      have hpos : (0 : Int) < 2 ^ step := pow_pos (by decide) step
      have hleft : before (l + 1 - 1) = true := by rwa [Int.add_sub_cancel]
      by_cases hend : size < 2 ^ step
      · simp only [hend, if_true]
        exact ⟨by omega, by omega, le_refl last, .inr hleft, .inl rfl⟩
      · have hbound : (2 : Int) ^ step ≤ size := by exact_mod_cast Nat.not_lt.1 hend
        have hright : before r = false := by simpa [Nat.not_lt.1 hend] using h
        simp only [hend, if_false]
        exact ⟨by omega, by omega, by omega, .inr hleft, .inr hright⟩

theorem gallopDown_bracket {size : Nat} (hsize : 2 * (size : Int) ≤ start - first + 1)
    (hlast : start ≤ last) (step : Nat) (l r : Int) (hr : r = start + 1 - 2 ^ step)
    (hl : l = r - 2 ^ step) (hright : r = last ∨ before r = false) (hfirst : first ≤ r) :
    Bracket before first last
      (if size < (gallopDown before size step l r).1 then first
        else (gallopDown before size step l r).2.1 + 1)
      (gallopDown before size step l r).2.2 := by
  fun_induction gallopDown before size step l r with
  | case1 step l r h _ ih =>
      have hbound : (2 : Int) ^ step ≤ size := by exact_mod_cast h.1
      exact ih (by rw [pow_succ]; omega) rfl (.inr h.2) (by omega)
  | case2 step l r h =>
      have hpos : (0 : Int) < 2 ^ step := pow_pos (by decide) step
      by_cases hend : size < 2 ^ step
      · simp only [hend, if_true]
        exact ⟨le_refl first, hfirst, by omega, .inl rfl, hright⟩
      · have hbound : (2 : Int) ^ step ≤ size := by exact_mod_cast Nat.not_lt.1 hend
        have hleft : before l = true := by simpa [Nat.not_lt.1 hend] using h
        have hleft : before (l + 1 - 1) = true := by rwa [Int.add_sub_cancel]
        simp only [hend, if_false]
        exact ⟨by omega, by omega, by omega, .inr hleft, hright⟩

theorem bracket_spec (hfirst : first ≤ start) (hlast : start ≤ last) :
    Bracket before first last (bracket before first last start).1
      (bracket before first last start).2 := by
  rw [bracket]
  by_cases hstart : start ≠ last ∧ before start = true
  · rw [if_pos hstart]
    have hlt : start < last := lt_of_le_of_ne hlast hstart.1
    exact gallopUp_bracket (by omega) hfirst 0 start (start + 1) (by simp) (by simp) hstart.2 hlt
  · rw [if_neg hstart]
    have hright : start = last ∨ before start = false := by
      by_cases heq : start = last
      · exact .inl heq
      · exact .inr (by simpa [heq] using hstart)
    exact gallopDown_bracket (by omega) hlast 0 (start - 1) start (by simp) (by simp) hright hfirst

theorem bound_boundary {beforeDefault : Int → Bool} (hs : Splits before first last)
    (hsame : ∀ i, first ≤ i → i < last → beforeDefault i = before i) (hfirst : first ≤ start)
    (hlast : start ≤ last) :
    Boundary before first last (bound before beforeDefault first last start) := by
  rw [bound]
  by_cases hempty : first = last
  · subst hempty
    simpa using Boundary.empty before first
  rw [if_neg hempty]
  have hb : Bracket before first last _ _ := bracket_spec hfirst hlast
  generalize bracket before first last start = lr at hb ⊢
  rcases lr with ⟨l, r⟩
  simp only at hb ⊢
  rw [BranchingBinarySearch.bound_congr (le_refl l) hb.le fun i hi hlt =>
    hsame i (hb.first_le.trans hi) (lt_of_lt_of_le hlt hb.le_last)]
  refine hs.boundary_of_bracket hb ?_
  exact BranchingBinarySearch.bound_boundary (hs.mono hb.first_le hb.le_last) (le_refl l) hb.le

end ExponentialSearch

/-! ## Sorted windows -/

variable {K : Type*} {less : K → K → Bool} {at_ : Int → K} {lookup_key : K}

/-- The window is sorted under `less`. -/
def SortedWindow (less : K → K → Bool) (at_ : Int → K) (first last : Int) : Prop :=
  ∀ i j, first ≤ i → i ≤ j → j < last → less (at_ j) (at_ i) = false

section StrictWeakOrder

variable [IsStrictWeakOrder K fun x y => less x y = true]

/-- What lies below the key keeps doing so when it is replaced by something not above it. -/
theorem less_of_not_less {x y : K} (hxy : less y x = false) (hy : less y lookup_key = true) :
    less x lookup_key = true := by
  have htrans := IsTrans.trans (r := fun x y => less x y = true)
  by_contra hx
  have hyx : ¬ less y x = true := by simp [hxy]
  have hxy' : ¬ less x y = true := fun h => hx (htrans _ _ _ h hy)
  have hkx : ¬ less lookup_key x = true := fun h => hyx (htrans _ _ _ hy h)
  -- Incomparable to both, `x` would make `y` incomparable to the key.
  exact ((inferInstance : IsStrictWeakOrder K fun x y => less x y = true).incomp_trans y x lookup_key
    ⟨hyx, hxy'⟩ ⟨hx, hkx⟩).1 hy

/-- What lies above the key keeps doing so when it is replaced by something not below it. -/
theorem less_of_not_less_right {x y : K} (hxy : less y x = false)
    (hx : less lookup_key x = true) : less lookup_key y = true := by
  have htrans := IsTrans.trans (r := fun x y => less x y = true)
  by_contra hy
  have hyx : ¬ less y x = true := by simp [hxy]
  have hxy' : ¬ less x y = true := fun h => hy (htrans _ _ _ hx h)
  have hyk : ¬ less y lookup_key = true := fun h => hyx (htrans _ _ _ h hx)
  exact ((inferInstance : IsStrictWeakOrder K fun x y => less x y = true).incomp_trans lookup_key y x
    ⟨hy, hyk⟩ ⟨hyx, hxy'⟩).1 hx

theorem SortedWindow.splits_lower (h : SortedWindow less at_ first last) :
    Splits (beforeLower less at_ lookup_key) first last :=
  fun i j hi hij hj hb => less_of_not_less (h i j hi hij hj) hb

theorem SortedWindow.splits_upper (h : SortedWindow less at_ first last) :
    Splits (beforeUpper less at_ lookup_key) first last := by
  intro i j hi hij hj hb
  simp only [beforeUpper, Bool.not_eq_true'] at hb ⊢
  cases hbi : less lookup_key (at_ i) with
  | false => rfl
  | true =>
      have hbj := less_of_not_less_right (h i j hi hij hj) hbi
      rw [hb] at hbj
      exact hbj.symm

end StrictWeakOrder

/-- All searches return the lower bound, and the upper bound, under `less`. -/
structure Interchangeable [LT K] [DecidableLT K] (less : K → K → Bool) (at_ : Int → K)
    (lookup_key : K) (first last start : Int) : Prop where
  branching_lower : Boundary (beforeLower less at_ lookup_key) first last
    (BranchingBinarySearch.lower_bound less at_ lookup_key first last start)
  branching_upper : Boundary (beforeUpper less at_ lookup_key) first last
    (BranchingBinarySearch.upper_bound less at_ lookup_key first last start)
  linear_lower : Boundary (beforeLower less at_ lookup_key) first last
    (LinearSearch.lower_bound less at_ lookup_key first last start)
  linear_upper : Boundary (beforeUpper less at_ lookup_key) first last
    (LinearSearch.upper_bound less at_ lookup_key first last start)
  exponential_lower : Boundary (beforeLower less at_ lookup_key) first last
    (ExponentialSearch.lower_bound less at_ lookup_key first last start)
  exponential_upper : Boundary (beforeUpper less at_ lookup_key) first last
    (ExponentialSearch.upper_bound less at_ lookup_key first last start)

/-- The comparator orders `x` against the key as `operator<` does. -/
def OrdersLikeDefault [LT K] (less : K → K → Bool) (lookup_key x : K) : Prop :=
  (less x lookup_key = true ↔ x < lookup_key) ∧ (less lookup_key x = true ↔ lookup_key < x)

theorem interchangeable [LT K] [DecidableLT K] [IsStrictWeakOrder K fun x y => less x y = true]
    (h : SortedWindow less at_ first last) (hfirst : first ≤ start) (hlast : start ≤ last)
    (hlike : ∀ i, first ≤ i → i < last → OrdersLikeDefault less lookup_key (at_ i)) :
    Interchangeable less at_ lookup_key first last start where
  branching_lower := BranchingBinarySearch.bound_boundary h.splits_lower hfirst hlast
  branching_upper := BranchingBinarySearch.bound_boundary h.splits_upper hfirst hlast
  linear_lower := LinearSearch.bound_boundary h.splits_lower hfirst hlast
  linear_upper := LinearSearch.bound_boundary h.splits_upper hfirst hlast
  exponential_lower := by
    refine ExponentialSearch.bound_boundary h.splits_lower (fun i hi hlt => ?_) hfirst hlast
    rw [beforeLower, beforeLower, defaultLess, Bool.eq_iff_iff, decide_eq_true_iff]
    exact (hlike i hi hlt).1.symm
  exponential_upper := by
    refine ExponentialSearch.bound_boundary h.splits_upper (fun i hi hlt => ?_) hfirst hlast
    rw [beforeUpper, beforeUpper, defaultLess, Bool.not_eq_eq_eq_not, Bool.not_not,
      Bool.eq_iff_iff, decide_eq_true_iff]
    exact (hlike i hi hlt).2.symm

/-! ## Three equal elements tell the two comparators apart -/

/-- Galloping up from the first of three elements leaves the third to the binary search. -/
theorem bound_const_up : ExponentialSearch.bound (fun _ => true) (fun _ => false) 0 3 0 = 2 := by
  decide +kernel

/-- Galloping down from the third leaves the first. -/
theorem bound_const_down : ExponentialSearch.bound (fun _ => false) (fun _ => true) 0 3 2 = 1 := by
  decide +kernel

theorem boundary_const {b : Bool} (h : Boundary (fun _ => b) 0 3 t) : t = if b then 3 else 0 := by
  cases b with
  | false =>
      have hfull : Boundary (fun _ => false) 0 3 0 :=
        ⟨by decide, by decide, fun i hi hlt => absurd hlt (not_lt.2 hi), fun _ _ _ => rfl⟩
      exact h.unique hfull
  | true =>
      have hfull : Boundary (fun _ => true) 0 3 3 :=
        ⟨by decide, by decide, fun _ _ _ => rfl, fun i hi hlt => absurd hlt (not_lt.2 hi)⟩
      exact h.unique hfull

theorem default_eq_of_const {b d : Bool}
    (hup : Boundary (fun _ => b) 0 3 (ExponentialSearch.bound (fun _ => b) (fun _ => d) 0 3 0))
    (hdown : Boundary (fun _ => b) 0 3 (ExponentialSearch.bound (fun _ => b) (fun _ => d) 0 3 2)) :
    d = b := by
  cases b <;> cases d
  · rfl
  · have hwrong := boundary_const hdown
    rw [bound_const_down] at hwrong
    simp at hwrong
  · have hwrong := boundary_const hup
    rw [bound_const_up] at hwrong
    simp at hwrong
  · rfl

/-- The search classes are interchangeable on all windows over `keys` exactly when the comparator
orders every one of these keys against the lookup key as `operator<` does. -/
theorem interchangeable_iff [LT K] [DecidableLT K] (less : K → K → Bool)
    [IsStrictWeakOrder K fun x y => less x y = true] (keys : Set K) (lookup_key : K) :
    (∀ (at_ : Int → K) (first last start : Int), first ≤ start → start ≤ last →
      (∀ i, first ≤ i → i < last → at_ i ∈ keys) → SortedWindow less at_ first last →
        Interchangeable less at_ lookup_key first last start) ↔
      ∀ x ∈ keys, OrdersLikeDefault less lookup_key x := by
  constructor
  · intro hall x hx
    have hirrefl : less x x = false := by
      have hnot := Std.Irrefl.irrefl (r := fun x y => less x y = true) x
      simpa using hnot
    have hsorted : SortedWindow less (fun _ => x) 0 3 := fun _ _ _ _ _ => hirrefl
    have hup := hall (fun _ => x) 0 3 0 (by decide) (by decide) (fun _ _ _ => hx) hsorted
    have hdown := hall (fun _ => x) 0 3 2 (by decide) (by decide) (fun _ _ _ => hx) hsorted
    have hlower : defaultLess x lookup_key = less x lookup_key :=
      default_eq_of_const hup.exponential_lower hdown.exponential_lower
    have hupper : (!defaultLess lookup_key x) = !less lookup_key x :=
      default_eq_of_const hup.exponential_upper hdown.exponential_upper
    constructor
    · rw [← hlower, defaultLess, decide_eq_true_iff]
    · rw [Bool.not_inj_iff] at hupper
      rw [← hupper, defaultLess, decide_eq_true_iff]
  · intro hlike at_ first last start hfirst hlast hmem hsorted
    exact interchangeable hsorted hfirst hlast fun i hi hlt => hlike _ (hmem i hi hlt)

/-- A comparator of the upper bytes only, as callers that compare a slice of the key pass it. -/
def sliceLess (x y : UInt64) : Bool :=
  decide (x / 256 < y / 256)

instance sliceLess_isStrictWeakOrder : IsStrictWeakOrder UInt64 fun x y => sliceLess x y = true where
  irrefl x := by simp [sliceLess]
  trans x y z hxy hyz := by
    simp only [sliceLess, decide_eq_true_iff, UInt64.lt_iff_toNat_lt] at *
    omega
  incomp_trans x y z hxy hyz := by
    simp only [sliceLess, decide_eq_true_iff, UInt64.lt_iff_toNat_lt] at *
    omega

/-- The keys 700 and 3, of which only the second has a slice below that of the lookup key. -/
def twoSlices (i : Int) : UInt64 :=
  if i < 1 then 3 else 700

/-- Keys whose slice differs from that of the lookup key. -/
theorem interchangeable_sliceLess : Interchangeable sliceLess twoSlices 256 0 2 1 := by
  refine (interchangeable_iff sliceLess {3, 700} 256).2 ?_ twoSlices 0 2 1 (by decide) (by decide)
    (fun i _ _ => ?_) fun i j _ hij _ => ?_
  · rintro x (rfl | rfl) <;> exact ⟨by decide, by decide⟩
  · rw [twoSlices]
    split
    · exact Or.inl rfl
    · exact Or.inr rfl
  · simp only [twoSlices]
    split <;> split <;> first | decide | omega

/-- Keys 3, 3, 3 and the lookup key 5 have the same slice. -/
theorem not_interchangeable_sliceLess :
    SortedWindow sliceLess (fun _ => 3) 0 3 ∧ ¬ Interchangeable sliceLess (fun _ => 3) 5 0 3 2 := by
  refine ⟨fun i j _ _ _ => by simp [sliceLess], fun h => ?_⟩
  have hlower : Boundary (fun _ => false) 0 3
      (ExponentialSearch.bound (fun _ => false) (fun _ => true) 0 3 2) := h.exponential_lower
  have hwrong := boundary_const hlower
  rw [bound_const_down] at hwrong
  simp at hwrong

end Searches
end TLI
