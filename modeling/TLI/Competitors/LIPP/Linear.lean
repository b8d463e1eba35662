import Mathlib.Algebra.Order.Field.Basic
import Mathlib.Algebra.Order.Field.Rat
import Mathlib.Algebra.Order.Floor.Semiring
import Mathlib.Data.Rat.Cast.Order
import TLI.Competitors.LIPP.Model

/-!
# Linear — the models of `lipp.h` in exact arithmetic

A line that does not descend predicts positions that do not descend.  With rational numbers in place
of floating-point ones, the models of `build_tree_two` and `build_tree_bulk_fmcd` are such lines.
-/

namespace TLI
namespace LIPP

theorem monotone_predictPos {K : Type} [LinearOrder K] {F : LinearModels K} {model : F.Model}
    (h : Monotone (F.predictDouble model)) (numItems : Nat) :
    Monotone (predictPos F model numItems) := by
  intro key key' hle
  have hv := h hle
  rw [predictPos, predictPos]
  generalize F.predictDouble model key = v at hv
  generalize F.predictDouble model key' = w at hv
  by_cases hw : 1073741823 < w
  · rw [if_pos hw]
    split
    · exact le_rfl
    · split
      · exact Nat.zero_le _
      · exact Nat.min_le_left _ _
  · rw [if_neg hw, if_neg fun hlt => hw (hlt.trans_le hv)]
    by_cases hneg : v < 0
    · rw [if_pos hneg]
      exact Nat.zero_le _
    · rw [if_neg hneg, if_neg fun hlt => hneg (hv.trans_lt hlt)]
      exact min_le_min_left _ (Nat.floor_mono hv)

/-- `LinearModel<T>`, with the slope that is asserted not to be negative. -/
structure LinearModel where
  a : ℚ
  b : ℚ
  a_nonneg : 0 ≤ a

def LinearModel.predictDouble (model : LinearModel) (key : UInt64) : ℚ :=
  model.a * key.toNat + model.b

/-- The model with this slope through a point; `none` if `RT_ASSERT(a >= 0)` fails. -/
def LinearModel.through (a key target : ℚ) : Option LinearModel :=
  if h : 0 ≤ a then some ⟨a, target - a * key, h⟩ else none

section

variable (keys : List UInt64)

/-- The key at a position, as a number. -/
def keyAt (i : Nat) : ℚ :=
  ((keys[i]?.getD 0).toNat : ℚ)

def fmcdUt (L D : Nat) : ℚ :=
  (keyAt keys (keys.length - 1 - D) - keyAt keys D) / ((L : ℚ) - 2) + 1 / 1000000

/-- `while (i + D < size && keys[i + D] - keys[i] >= Ut) i ++;` -/
def fmcdAdvance (Ut : ℚ) (D : Nat) : Nat → Nat → Nat
  | 0, i => i
  | n + 1, i =>
      if i + D < keys.length ∧ Ut ≤ keyAt keys (i + D) - keyAt keys i then
        fmcdAdvance Ut D n (i + 1)
      else i

/-- The outer loop of the FMCD method: the final `D`. -/
def fmcdConflicts (L : Nat) : Nat → Nat → Nat → Option Nat
  | 0, _, D => some D
  | n + 1, i, D =>
      if i < keys.length - 1 - D then
        let i := fmcdAdvance keys (fmcdUt keys L D) D keys.length i
        if keys.length ≤ i + D then some D
        else if keys.length < (D + 1) * 3 then some (D + 1)
        else if D + 1 ≤ keys.length - 1 - (D + 1) then fmcdConflicts L n i (D + 1)
        else none
      else some D

/-- The model of `build_tree_bulk_fmcd`. -/
def fmcdModel : Option LinearModel := do
  let size := keys.length
  let gap := computeGapCount size + 1
  let L := size * gap
  let D ← if 1 ≤ size - 1 - 1 then fmcdConflicts keys L size 0 1 else none
  if D * 3 ≤ size then
    -- fmcd_success_times
    let a := 1 / fmcdUt keys L D
    LinearModel.through a ((keyAt keys (size - 1 - D) + keyAt keys D) / 2) (L / 2)
  else
    -- fmcd_broken_times
    let mid1Pos := (size - 1) / 3
    let mid2Pos := (size - 1) * 2 / 3
    if mid1Pos < mid2Pos ∧ mid2Pos < size - 1 then
      let mid1Key := (keyAt keys mid1Pos + keyAt keys (mid1Pos + 1)) / 2
      let mid2Key := (keyAt keys mid2Pos + keyAt keys (mid2Pos + 1)) / 2
      let mid1Target := (mid1Pos * gap + gap / 2 : Nat)
      let mid2Target := (mid2Pos * gap + gap / 2 : Nat)
      LinearModel.through (((mid2Target : ℚ) - mid1Target) / (mid2Key - mid1Key)) mid1Key mid1Target
    else none

end

/-- The models over 64-bit keys, in exact arithmetic. -/
def rationalModels : LinearModels UInt64 where
  Model := LinearModel
  predictDouble := LinearModel.predictDouble
  zero := ⟨0, 0, le_rfl⟩
  two key1 key2 :=
    LinearModel.through (((8 * 2 / 3 : Nat) - (8 / 3 : Nat) : ℚ) / (key2 - key1).toNat) key1.toNat
      (8 / 3 : Nat)
  bulk := fmcdModel

theorem rationalModels_monotone (model : rationalModels.Model) (numItems : Nat) :
    Monotone (predictPos rationalModels model numItems) := by
  refine monotone_predictPos (fun key key' hle => ?_) numItems
  have hle : (key.toNat : ℚ) ≤ key'.toNat := Nat.cast_le.2 (UInt64.le_iff_toNat_le.1 hle)
  exact add_le_add_left (mul_le_mul_of_nonneg_left hle model.a_nonneg) model.b

end LIPP
end TLI
