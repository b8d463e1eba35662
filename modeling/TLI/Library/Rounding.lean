import Mathlib.Algebra.Order.Field.Rat
import Mathlib.Data.Int.Log
import Mathlib.Data.Rat.Floor
import Mathlib.Tactic.Linarith
import Mathlib.Tactic.NormNum
import Mathlib.Tactic.Ring

/-!
# Rounding — floating-point rounding of nonnegative rationals

`roundTo p x` is the number of `p` significant binary digits that is nearest to `x`, with ties to
the even one, as IEEE arithmetic rounds where the exponent stays in range.  It is monotone, leaves
alone what has `p` digits, and commutes with powers of two.
-/

namespace TLI
namespace Rounding

/-! ## To an integer -/

/-- The nearest integer; of two that are equally near, the even one. -/
def roundEven (x : ℚ) : Int :=
  if x - ⌊x⌋ < 1 / 2 then ⌊x⌋
  else if 1 / 2 < x - ⌊x⌋ then ⌊x⌋ + 1
  else if ⌊x⌋ % 2 = 0 then ⌊x⌋ else ⌊x⌋ + 1

theorem roundEven_bounds (x : ℚ) : ⌊x⌋ ≤ roundEven x ∧ roundEven x ≤ ⌊x⌋ + 1 := by
  rw [roundEven]
  split
  · omega
  · split
    · omega
    · split <;> omega

theorem roundEven_intCast (n : Int) : roundEven n = n := by
  rw [roundEven, Int.floor_intCast, sub_self, if_pos (by norm_num)]

theorem roundEven_mono {x y : ℚ} (h : x ≤ y) : roundEven x ≤ roundEven y := by
  have hx := roundEven_bounds x
  have hy := roundEven_bounds y
  rcases lt_or_eq_of_le (Int.floor_le_floor h) with hlt | heq
  · omega
  · -- Between the same integers the fractions are in order.
    have hfrac : x - ⌊y⌋ ≤ y - ⌊y⌋ := sub_le_sub_right h _
    rw [roundEven, roundEven, heq]
    by_cases hlow : y - ⌊y⌋ < 1 / 2
    · rw [if_pos hlow, if_pos (lt_of_le_of_lt hfrac hlow)]
    · rw [if_neg hlow]
      by_cases hhigh : 1 / 2 < y - ⌊y⌋
      · rw [if_pos hhigh]
        split
        · omega
        · split
          · exact le_refl _
          · split <;> omega
      · rw [if_neg hhigh]
        split
        · split <;> omega
        · rw [if_neg fun hx => hhigh (lt_of_lt_of_le hx hfrac)]

/-! ## To significant digits -/

/-- The exponent of the last of `p` significant digits. -/
def lastPlace (p : Nat) (x : ℚ) : Int :=
  Int.log 2 x - (p - 1)

/-- The nearest number of `p` significant binary digits. -/
def roundTo (p : Nat) (x : ℚ) : ℚ :=
  roundEven (x / 2 ^ lastPlace p x) * 2 ^ lastPlace p x

theorem zpow_two_pos (k : Int) : (0 : ℚ) < 2 ^ k :=
  zpow_pos two_pos k

theorem log_mul_two_zpow {x : ℚ} (h : 0 < x) (k : Int) :
    Int.log 2 (x * 2 ^ k) = Int.log 2 x + k := by
  have hpos : 0 < x * 2 ^ k := mul_pos h (zpow_two_pos k)
  have hiff : ∀ i : Int, i ≤ Int.log 2 (x * 2 ^ k) ↔ i ≤ Int.log 2 x + k := by
    intro i
    have hsplit : (2 : ℚ) ^ i = 2 ^ (i - k) * 2 ^ k := by
      rw [← zpow_add₀ two_ne_zero, sub_add_cancel]
    have hleft := Int.zpow_le_iff_le_log (R := ℚ) (b := 2) one_lt_two (x := i) hpos
    have hright := Int.zpow_le_iff_le_log (R := ℚ) (b := 2) one_lt_two (x := i - k) h
    rw [Nat.cast_ofNat] at hleft hright
    rw [← hleft, hsplit, mul_le_mul_iff_left₀ (zpow_two_pos k), hright]
    omega
  exact le_antisymm ((hiff _).1 (le_refl _)) ((hiff _).2 (le_refl _))

@[simp] theorem roundTo_zero (p : Nat) : roundTo p 0 = 0 := by
  have hzero := roundEven_intCast 0
  rw [Int.cast_zero] at hzero
  rw [roundTo, zero_div, hzero, Int.cast_zero, zero_mul]

theorem roundTo_mul_two_zpow {p : Nat} {x : ℚ} (h : 0 ≤ x) (k : Int) :
    roundTo p (x * 2 ^ k) = roundTo p x * 2 ^ k := by
  rcases eq_or_lt_of_le h with rfl | hpos
  · rw [zero_mul, roundTo_zero, zero_mul]
  · have hplace : lastPlace p (x * 2 ^ k) = lastPlace p x + k := by
      rw [lastPlace, lastPlace, log_mul_two_zpow hpos]
      ring
    rw [roundTo, hplace, zpow_add₀ two_ne_zero, mul_div_mul_right _ _ (zpow_two_pos k).ne', roundTo,
      mul_assoc]

variable {p : Nat} {x y : ℚ}

/-- In units of the last place a number has `p` digits. -/
theorem digits_bounds (h : 0 < x) :
    (2 : ℚ) ^ ((p : Int) - 1) ≤ x / 2 ^ lastPlace p x ∧ x / 2 ^ lastPlace p x < 2 ^ (p : Int) := by
  have hlow := Int.zpow_log_le_self (b := 2) one_lt_two h
  have hhigh := Int.lt_zpow_succ_log_self (b := 2) one_lt_two x
  rw [Nat.cast_ofNat] at hlow hhigh
  rw [le_div_iff₀ (zpow_two_pos _), div_lt_iff₀ (zpow_two_pos _), ← zpow_add₀ two_ne_zero,
    ← zpow_add₀ two_ne_zero, lastPlace]
  ring_nf at hlow hhigh ⊢
  exact ⟨hlow, hhigh⟩

theorem roundEven_two_pow (n : Nat) : roundEven (2 ^ (n : Int)) = 2 ^ n := by
  have hcast : (2 : ℚ) ^ (n : Int) = ((2 ^ n : Int) : ℚ) := by
    rw [zpow_natCast]
    push_cast
    rfl
  rw [hcast, roundEven_intCast]

/-- A rounded number lies between the powers of two around the number. -/
theorem roundTo_bounds (hp : 0 < p) (h : 0 < x) :
    (2 : ℚ) ^ Int.log 2 x ≤ roundTo p x ∧ roundTo p x ≤ 2 ^ (Int.log 2 x + 1) := by
  obtain ⟨q, rfl⟩ := Nat.exists_eq_succ_of_ne_zero hp.ne'
  obtain ⟨hlow, hhigh⟩ := digits_bounds (p := q + 1) h
  have hround := roundEven_mono hlow
  have hround' := roundEven_mono hhigh.le
  rw [Nat.cast_add, Nat.cast_one, add_sub_cancel_right, roundEven_two_pow] at hround
  rw [roundEven_two_pow] at hround'
  have hpos := (zpow_two_pos (lastPlace (q + 1) x)).le
  constructor
  · calc (2 : ℚ) ^ Int.log 2 x = ((2 ^ q : Int) : ℚ) * 2 ^ lastPlace (q + 1) x := by
          rw [lastPlace]
          push_cast
          rw [← zpow_natCast, ← zpow_add₀ two_ne_zero]
          congr 1
          ring
      _ ≤ roundTo (q + 1) x := mul_le_mul_of_nonneg_right (Int.cast_le.2 hround) hpos
  · calc roundTo (q + 1) x ≤ ((2 ^ (q + 1) : Int) : ℚ) * 2 ^ lastPlace (q + 1) x :=
          mul_le_mul_of_nonneg_right (Int.cast_le.2 hround') hpos
      _ = 2 ^ (Int.log 2 x + 1) := by
          rw [lastPlace]
          push_cast
          rw [← zpow_natCast, ← zpow_add₀ two_ne_zero]
          congr 1
          push_cast
          ring

theorem roundTo_nonneg (hp : 0 < p) (h : 0 ≤ x) : 0 ≤ roundTo p x := by
  rcases eq_or_lt_of_le h with rfl | hpos
  · rw [roundTo_zero]
  · exact (zpow_two_pos _).le.trans (roundTo_bounds hp hpos).1

theorem roundTo_mono (hp : 0 < p) (hx : 0 ≤ x) (h : x ≤ y) : roundTo p x ≤ roundTo p y := by
  rcases eq_or_lt_of_le hx with rfl | hpos
  · rw [roundTo_zero]
    exact roundTo_nonneg hp h
  · rcases eq_or_lt_of_le (Int.log_mono_right (b := 2) hpos h) with heq | hlt
    · have hplace : lastPlace p x = lastPlace p y := by rw [lastPlace, lastPlace, heq]
      rw [roundTo, roundTo, hplace]
      refine mul_le_mul_of_nonneg_right (Int.cast_le.2 (roundEven_mono ?_)) (zpow_two_pos _).le
      exact div_le_div_of_nonneg_right h (zpow_two_pos _).le
    · calc roundTo p x ≤ 2 ^ (Int.log 2 x + 1) := (roundTo_bounds hp hpos).2
        _ ≤ 2 ^ Int.log 2 y := zpow_le_zpow_right₀ one_le_two hlt
        _ ≤ roundTo p y := (roundTo_bounds hp (lt_of_lt_of_le hpos h)).1

/-- Integers of at most `p` digits are not rounded. -/
theorem roundTo_natCast (hp : 0 < p) {n : Nat} (h : n ≤ 2 ^ p) : roundTo p n = n := by
  rcases Nat.eq_zero_or_pos n with rfl | hpos
  · rw [Nat.cast_zero, roundTo_zero]
  · obtain ⟨m, hm⟩ : ∃ m : Int, (n : ℚ) / 2 ^ lastPlace p n = m := by
      have hlog : Int.log 2 (n : ℚ) = Nat.log 2 n := Int.log_natCast 2 n
      rcases Nat.lt_or_eq_of_le h with hlt | rfl
      · -- The last place is not behind the point.
        have hle : Nat.log 2 n < p := Nat.log_lt_of_lt_pow hpos.ne' hlt
        refine ⟨((n * 2 ^ (p - 1 - Nat.log 2 n) : Nat) : Int), ?_⟩
        have hplace : lastPlace p n = -((p - 1 - Nat.log 2 n : Nat) : Int) := by
          rw [lastPlace, hlog]
          omega
        rw [hplace, zpow_neg, div_inv_eq_mul, zpow_natCast]
        push_cast
        rfl
      · obtain ⟨q, rfl⟩ := Nat.exists_eq_succ_of_ne_zero hp.ne'
        refine ⟨((2 ^ q : Nat) : Int), ?_⟩
        have hplace : lastPlace (q + 1) ((2 ^ (q + 1) : Nat) : ℚ) = 1 := by
          rw [lastPlace, hlog, Nat.log_pow one_lt_two]
          omega
        rw [hplace, zpow_one]
        push_cast
        rw [pow_succ, mul_div_cancel_right₀ _ two_ne_zero]
    rw [roundTo, hm, roundEven_intCast, ← hm, div_mul_cancel₀ _ (zpow_two_pos _).ne']

/-- Rounding again changes nothing. -/
theorem roundTo_roundTo (hp : 0 < p) (h : 0 ≤ x) : roundTo p (roundTo p x) = roundTo p x := by
  rcases eq_or_lt_of_le h with rfl | hpos
  · rw [roundTo_zero, roundTo_zero]
  · obtain ⟨n, hn, hle⟩ : ∃ n : Nat, roundEven (x / 2 ^ lastPlace p x) = n ∧ n ≤ 2 ^ p := by
      have hlow := roundEven_mono (div_nonneg h (zpow_two_pos (lastPlace p x)).le)
      have hhigh := roundEven_mono (digits_bounds (p := p) hpos).2.le
      have hzero := roundEven_intCast 0
      rw [Int.cast_zero] at hzero
      rw [hzero] at hlow
      rw [roundEven_two_pow] at hhigh
      refine ⟨_, (Int.toNat_of_nonneg hlow).symm, ?_⟩
      rw [Int.toNat_le]
      exact_mod_cast hhigh
    have hdigits : roundTo p x = n * 2 ^ lastPlace p x := by
      rw [roundTo, hn, Int.cast_natCast]
    rw [hdigits, roundTo_mul_two_zpow (Nat.cast_nonneg n), roundTo_natCast hp hle]

end Rounding
end TLI
