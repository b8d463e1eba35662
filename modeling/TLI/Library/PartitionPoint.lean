import Mathlib.Order.Basic
import Mathlib.Data.Int.Order.Basic

/-!
# PartitionPoint — where a predicate on positions turns false

A window is a half-open interval `[first, last)` of positions.  If the positions at which `before`
holds come first, the window has exactly one boundary: everything in front of it satisfies
`before`, nothing from it on does.  Lower and upper bounds in a sorted sequence are boundaries.
-/

namespace TLI
namespace PartitionPoint

variable {before : Int → Bool} {first last l r s t : Int}

/-- In `[first, last)` the positions at which `before` holds come first. -/
def Splits (before : Int → Bool) (first last : Int) : Prop :=
  ∀ i j, first ≤ i → i ≤ j → j < last → before j = true → before i = true

/-- `t` is the position of `[first, last]` at which `before` turns false. -/
structure Boundary (before : Int → Bool) (first last t : Int) : Prop where
  first_le : first ≤ t
  le_last : t ≤ last
  before_of_lt : ∀ i, first ≤ i → i < t → before i = true
  not_before_of_le : ∀ i, t ≤ i → i < last → before i = false

theorem Splits.mono (h : Splits before first last) (hl : first ≤ l) (hr : r ≤ last) :
    Splits before l r :=
  fun i j hi hij hj => h i j (hl.trans hi) hij (lt_of_lt_of_le hj hr)

/-- A position at which `before` fails has only such positions behind it. -/
theorem Splits.not_before (h : Splits before first last) {m i : Int} (hm : before m = false)
    (hfirst : first ≤ m) (hi : m ≤ i) (hlast : i < last) : before i = false := by
  cases hb : before i with
  | false => rfl
  | true =>
      have htrue := h m i hfirst hi hlast hb
      rw [hm] at htrue
      exact htrue.symm

theorem Boundary.unique (hs : Boundary before first last s) (ht : Boundary before first last t) :
    s = t := by
  rcases lt_trichotomy s t with hlt | heq | hlt
  · have hyes := ht.before_of_lt s hs.first_le hlt
    have hno := hs.not_before_of_le s (le_refl s) (lt_of_lt_of_le hlt ht.le_last)
    rw [hyes] at hno
    cases hno
  · exact heq
  · have hyes := hs.before_of_lt t ht.first_le hlt
    have hno := ht.not_before_of_le t (le_refl t) (lt_of_lt_of_le hlt hs.le_last)
    rw [hyes] at hno
    cases hno

theorem Boundary.empty (before : Int → Bool) (first : Int) : Boundary before first first first :=
  ⟨le_refl _, le_refl _, fun _ hi hlt => absurd hlt (not_lt.2 hi),
    fun _ hi hlt => absurd hlt (not_lt.2 hi)⟩

/-- A part `[l, r)` of the window whose ends are known to lie on either side of the boundary. -/
structure Bracket (before : Int → Bool) (first last l r : Int) : Prop where
  first_le : first ≤ l
  le : l ≤ r
  le_last : r ≤ last
  left_before : l = first ∨ before (l - 1) = true
  right_not_before : r = last ∨ before r = false

/-- The boundary of a bracket is the boundary of the window. -/
theorem Splits.boundary_of_bracket (hs : Splits before first last)
    (hb : Bracket before first last l r) (h : Boundary before l r t) :
    Boundary before first last t := by
  refine ⟨hb.first_le.trans h.first_le, h.le_last.trans hb.le_last, fun i hi hlt => ?_,
    fun i hi hlt => ?_⟩
  · rcases lt_or_ge i l with hil | hli
    · rcases hb.left_before with rfl | hbefore
      · exact absurd hi (not_le.2 hil)
      · refine hs i (l - 1) hi (Int.le_sub_one_of_lt hil) ?_ hbefore
        exact (Int.sub_one_lt_of_le hb.le).trans_le hb.le_last
    · exact h.before_of_lt i hli hlt
  · rcases lt_or_ge i r with hir | hri
    · exact h.not_before_of_le i hi hir
    · rcases hb.right_not_before with rfl | hafter
      · exact absurd hlt (not_lt.2 hri)
      · exact hs.not_before hafter (hb.first_le.trans hb.le) hri hlt

/-- Past a position at which `before` holds. -/
theorem Splits.boundary_right (hs : Splits before first last) {m : Int} (hm : before m = true)
    (hfirst : first ≤ m) (h : Boundary before (m + 1) last t) : Boundary before first last t := by
  have hleft : before (m + 1 - 1) = true := by rwa [Int.add_sub_cancel]
  have hle := h.first_le.trans h.le_last
  exact hs.boundary_of_bracket ⟨by omega, hle, le_refl last, .inr hleft, .inl rfl⟩ h

/-- In front of the end or of a position at which it fails. -/
theorem Splits.boundary_left (hs : Splits before first last) {m : Int}
    (hm : m = last ∨ before m = false) (hlast : m ≤ last) (h : Boundary before first m t) :
    Boundary before first last t :=
  hs.boundary_of_bracket ⟨le_refl first, h.first_le.trans h.le_last, hlast, .inl rfl, hm⟩ h

/-- The boundary is as far from the front as there are positions at which `before` holds. -/
theorem Splits.boundary_count (n : Nat) (hs : Splits before first (first + n)) :
    Boundary before first (first + n)
      (first + ((List.range n).countP fun (i : Nat) => before (first + i) : Nat)) := by
  induction n with
  | zero => simpa using Boundary.empty before first
  | succ n ih =>
      have hprev := ih (hs.mono (le_refl first) (by omega))
      rw [List.range_succ, List.countP_append, List.countP_singleton]
      generalize hcount : (List.range n).countP (fun (i : Nat) => before (first + i)) = c at hprev
      have hle : c ≤ n := by simpa using hprev.le_last
      cases hlast : before (first + n) with
      | true =>
          -- Nothing in front of a position that satisfies `before` fails it.
          have hfull : c = n := by
            by_contra hne
            have hno := hprev.not_before_of_le (first + c) (le_refl _) (by omega)
            rw [hs (first + c) (first + n) (by omega) (by omega) (by omega) hlast] at hno
            cases hno
          subst hfull
          refine ⟨by omega, by simp, fun i hi hlt => ?_, fun i hi hlt => ?_⟩
          · exact hs i (first + c) hi (by simp at hlt; omega) (by omega) hlast
          · simp at hi
            omega
      | false =>
          simp only [Bool.false_eq_true, if_false, Nat.add_zero]
          exact hs.boundary_left (.inr hlast) (by omega) hprev

end PartitionPoint
end TLI
