import Mathlib.Data.Rat.Floor

/-!
# Truncation — fractions converted to integers

`truncate` rounds towards zero, as a conversion to an integer type does.  The bounds of a rounded
fraction `a / b * c` are stated as inequalities between products.
-/

namespace TLI
namespace Rounding

def truncate (x : ℚ) : Int :=
  if 0 ≤ x then ⌊x⌋ else ⌈x⌉

theorem truncate_mem {x : ℚ} {m : Int} (hx : 0 ≤ x) (hm : x ≤ m) :
    0 ≤ truncate x ∧ truncate x ≤ m := by
  rw [truncate, if_pos hx]
  exact ⟨Int.floor_nonneg.2 hx, Int.floor_le_iff.2 (hm.trans_lt (by simp))⟩

theorem truncate_nonpos {x : ℚ} (hx : x ≤ 0) : truncate x ≤ 0 := by
  rw [truncate]
  split
  · exact Int.floor_le_iff.2 (hx.trans_lt (by simp))
  · exact Int.ceil_le.2 (by simpa using hx)

theorem lt_truncate_iff {x : ℚ} {m : Int} (hx : x ≤ 0) : m < truncate x ↔ (m : ℚ) < x := by
  rw [truncate]
  split
  · rename_i hx'
    rw [le_antisymm hx hx', Int.floor_zero, Int.cast_lt_zero]
  · exact Int.lt_ceil

variable {a b c m : Int}

theorem ceil_le_iff (hb : 0 < b) : ⌈(a : ℚ) / b * c⌉ ≤ m ↔ a * c ≤ m * b := by
  have hb' : (0 : ℚ) < b := Int.cast_pos.2 hb
  rw [Int.ceil_le, div_mul_eq_mul_div, div_le_iff₀ hb']
  exact_mod_cast Iff.rfl

theorem ceil_nonneg (ha : 0 ≤ a) (hb : 0 ≤ b) (hc : 0 ≤ c) : 0 ≤ ⌈(a : ℚ) / b * c⌉ := by
  have ha' : (0 : ℚ) ≤ a := Int.cast_nonneg ha
  have hb' : (0 : ℚ) ≤ b := Int.cast_nonneg hb
  have hc' : (0 : ℚ) ≤ c := Int.cast_nonneg hc
  exact Int.ceil_nonneg (mul_nonneg (div_nonneg ha' hb') hc')

/-- A part of a whole is not larger. -/
theorem truncate_part (ha : 0 ≤ a) (hab : a ≤ b) (hb : 0 < b) (hc : 0 ≤ c) :
    0 ≤ truncate ((a : ℚ) / b * c) ∧ truncate ((a : ℚ) / b * c) ≤ c := by
  have ha' : (0 : ℚ) ≤ a := Int.cast_nonneg ha
  have hb' : (0 : ℚ) < b := Int.cast_pos.2 hb
  have hc' : (0 : ℚ) ≤ c := Int.cast_nonneg hc
  refine truncate_mem (mul_nonneg (div_nonneg ha' hb'.le) hc') (mul_le_of_le_one_left hc' ?_)
  rw [div_le_one hb']
  exact_mod_cast hab

theorem lt_truncate_neg_iff (ha : a ≤ 0) (hb : 0 < b) (hc : 0 ≤ c) :
    m < truncate ((a : ℚ) / b * c) ↔ m * b < a * c := by
  have ha' : (a : ℚ) ≤ 0 := Int.cast_nonpos.2 ha
  have hb' : (0 : ℚ) < b := Int.cast_pos.2 hb
  have hc' : (0 : ℚ) ≤ c := Int.cast_nonneg hc
  have hpart := mul_nonpos_of_nonpos_of_nonneg (div_nonpos_of_nonpos_of_nonneg ha' hb'.le) hc'
  rw [lt_truncate_iff hpart, div_mul_eq_mul_div, lt_div_iff₀ hb']
  exact_mod_cast Iff.rfl

theorem truncate_neg_nonpos (ha : a ≤ 0) (hb : 0 < b) (hc : 0 ≤ c) :
    truncate ((a : ℚ) / b * c) ≤ 0 := by
  have ha' : (a : ℚ) ≤ 0 := Int.cast_nonpos.2 ha
  have hb' : (0 : ℚ) < b := Int.cast_pos.2 hb
  have hc' : (0 : ℚ) ≤ c := Int.cast_nonneg hc
  exact truncate_nonpos
    (mul_nonpos_of_nonpos_of_nonneg (div_nonpos_of_nonpos_of_nonneg ha' hb'.le) hc')

end Rounding
end TLI
