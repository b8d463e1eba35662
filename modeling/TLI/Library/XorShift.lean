import Mathlib.Logic.Function.Iterate

/-!
# XorShift — words mixed with their own shifts

* `Additive` — maps of words that respect exclusive or, such as the shifts.
* `mix f` — a word and its image under `f`, combined by exclusive or.  If `f` is additive and some
  power of it is zero, no two words have the same mix (`mix_injective`).
* `LowZero n` — the lowest `n` bits are zero.  A left shift keeps them apart from the others, a
  right shift brings the next ones down.
-/

namespace TLI
namespace XorShift

open Function

variable {w : Nat}

/-! ## Additive maps -/

def Additive (f : BitVec w → BitVec w) : Prop :=
  ∀ x y, f (x ^^^ y) = f x ^^^ f y

def mix (f : BitVec w → BitVec w) (x : BitVec w) : BitVec w :=
  x ^^^ f x

theorem additive_shiftLeft (k : Nat) : Additive fun x : BitVec w => x <<< k :=
  fun x y => BitVec.shiftLeft_xor_distrib x y k

theorem additive_shiftRight (k : Nat) : Additive fun x : BitVec w => x >>> k :=
  fun x y => BitVec.ushiftRight_xor_distrib x y k

section

variable {f g : BitVec w → BitVec w}

theorem Additive.comp (hf : Additive f) (hg : Additive g) : Additive fun x => f (g x) := by
  intro x y
  change f (g (x ^^^ y)) = f (g x) ^^^ f (g y)
  rw [hg, hf]

theorem Additive.mix (hf : Additive f) : Additive (mix f) := by
  intro x y
  rw [XorShift.mix, hf, XorShift.mix, XorShift.mix]
  calc x ^^^ y ^^^ (f x ^^^ f y) = x ^^^ (y ^^^ f x) ^^^ f y := by
        rw [← BitVec.xor_assoc, ← BitVec.xor_assoc]
    _ = x ^^^ f x ^^^ (y ^^^ f y) := by
        rw [BitVec.xor_comm y, ← BitVec.xor_assoc, BitVec.xor_assoc]

/-- An additive map is injective if only zero is mapped to zero. -/
theorem Additive.injective (hf : Additive f) (hker : ∀ x, f x = 0#w → x = 0#w) : Injective f := by
  intro x y heq
  have hzero : f (x ^^^ y) = 0#w := by
    rw [hf, heq, BitVec.xor_self]
  have hxor := hker _ hzero
  calc x = x ^^^ y ^^^ y := by rw [BitVec.xor_assoc, BitVec.xor_self, BitVec.xor_zero]
    _ = y := by rw [hxor, BitVec.zero_xor]

/-- What the mix maps to zero is a fixed point of `f`, and so of all its powers. -/
theorem mix_injective (hf : Additive f) {n : Nat} (hnil : ∀ x, f^[n] x = 0#w) :
    Injective (mix f) := by
  refine hf.mix.injective fun x hx => ?_
  have hfixed : f x = x := by
    calc f x = x ^^^ (x ^^^ f x) := by rw [← BitVec.xor_assoc, BitVec.xor_self, BitVec.zero_xor]
      _ = x := by rw [show x ^^^ f x = 0#w from hx, BitVec.xor_zero]
  exact (iterate_fixed hfixed n).symm.trans (hnil x)

end

/-! ## Shifts -/

theorem iterate_shiftLeft (k n : Nat) (x : BitVec w) :
    (fun x : BitVec w => x <<< k)^[n] x = x <<< (k * n) := by
  induction n generalizing x with
  | zero => rw [iterate_zero_apply, Nat.mul_zero, BitVec.shiftLeft_zero]
  | succ n ih => rw [iterate_succ_apply, ih, ← BitVec.shiftLeft_add, Nat.mul_succ, Nat.add_comm]

theorem iterate_shiftRight (k n : Nat) (x : BitVec w) :
    (fun x : BitVec w => x >>> k)^[n] x = x >>> (k * n) := by
  induction n generalizing x with
  | zero => rw [iterate_zero_apply, Nat.mul_zero, BitVec.ushiftRight_zero]
  | succ n ih => rw [iterate_succ_apply, ih, ← BitVec.shiftRight_add, Nat.mul_succ, Nat.add_comm]

theorem mix_shiftLeft_injective {k : Nat} (hk : 0 < k) :
    Injective (mix fun x : BitVec w => x <<< k) := by
  refine mix_injective (additive_shiftLeft k) (n := w) fun x => ?_
  rw [iterate_shiftLeft]
  exact BitVec.shiftLeft_eq_zero (Nat.le_mul_of_pos_left w hk)

theorem mix_shiftRight_injective {k : Nat} (hk : 0 < k) :
    Injective (mix fun x : BitVec w => x >>> k) := by
  refine mix_injective (additive_shiftRight k) (n := w) fun x => ?_
  rw [iterate_shiftRight]
  exact BitVec.ushiftRight_eq_zero (Nat.le_mul_of_pos_left w hk)

/-! ## The lowest bits -/

def LowZero (n : Nat) (x : BitVec w) : Prop :=
  ∀ i, i < n → x.getLsbD i = false

theorem LowZero.eq_zero {n : Nat} {x : BitVec w} (h : LowZero n x) (hn : w ≤ n) : x = 0#w :=
  BitVec.eq_of_getLsbD_eq fun i hi => (h i (Nat.lt_of_lt_of_le hi hn)).trans BitVec.getLsbD_zero.symm

/-- The lowest bit that is set stays where it is. -/
theorem lowZero_of_mix_shiftLeft {k n : Nat} (hk : 0 < k) {x : BitVec w}
    (h : LowZero n (mix (fun x => x <<< k) x)) : LowZero n x := by
  intro i
  induction i using Nat.strongRecOn with
  | ind i ih =>
      intro hi
      have hbit := h i hi
      rw [mix, BitVec.getLsbD_xor, BitVec.getLsbD_shiftLeft] at hbit
      by_cases hik : i < k
      · rw [decide_eq_true hik] at hbit
        simpa using hbit
      · rw [ih (i - k) (by omega) (by omega)] at hbit
        simpa using hbit

/-- The bits behind the zeros come down to them. -/
theorem LowZero.of_mix_shiftRight {k n : Nat} (hk : k ≤ n) {x : BitVec w} (h : LowZero n x)
    (hmix : LowZero n (mix (fun x => x >>> k) x)) : LowZero (n + k) x := by
  intro i hi
  by_cases hin : i < n
  · exact h i hin
  · have hbit := hmix (i - k) (by omega)
    rw [mix, BitVec.getLsbD_xor, BitVec.getLsbD_ushiftRight, h (i - k) (by omega),
      Bool.false_xor, Nat.add_sub_cancel' (by omega)] at hbit
    exact hbit

end XorShift
end TLI
