import Mathlib.Order.Defs.LinearOrder
import Mathlib.Order.BoundedOrder.Basic
import Mathlib.Data.UInt

/-!
# MachineInt — fixed-width unsigned integers

Core Lean orders `UInt8`, `UInt32` and `UInt64` by value; the instances below package this as
`LinearOrder`, together with the largest value as `⊤`.  Where the code computes with `unsigned`
lengths and positions that are kept as natural numbers, `unsignedSub` is the subtraction that wraps.
-/

namespace TLI

instance instLinearOrderUInt8 : LinearOrder UInt8 where
  le_refl := UInt8.le_refl
  le_trans _ _ _ := UInt8.le_trans
  lt_iff_le_not_ge := fun a b => by
    simp only [UInt8.lt_iff_toNat_lt, UInt8.le_iff_toNat_le]; omega
  le_antisymm _ _ := UInt8.le_antisymm
  le_total := UInt8.le_total
  toDecidableLE := inferInstance
  toDecidableLT := inferInstance

instance instLinearOrderUInt32 : LinearOrder UInt32 where
  le_refl := UInt32.le_refl
  le_trans _ _ _ := UInt32.le_trans
  lt_iff_le_not_ge := fun a b => by
    simp only [UInt32.lt_iff_toNat_lt, UInt32.le_iff_toNat_le]; omega
  le_antisymm _ _ := UInt32.le_antisymm
  le_total := UInt32.le_total
  toDecidableLE := inferInstance
  toDecidableLT := inferInstance

instance instLinearOrderUInt64 : LinearOrder UInt64 where
  le_refl := UInt64.le_refl
  le_trans _ _ _ := UInt64.le_trans
  lt_iff_le_not_ge := fun a b => by
    simp only [UInt64.lt_iff_toNat_lt, UInt64.le_iff_toNat_le]; omega
  le_antisymm _ _ := UInt64.le_antisymm
  le_total := UInt64.le_total
  toDecidableLE := inferInstance
  toDecidableLT := inferInstance

instance instOrderTopUInt32 : OrderTop UInt32 where
  top := 0xFFFFFFFF
  le_top := fun a => by
    have := a.toNat_lt
    simp only [UInt32.le_iff_toNat_le, UInt32.reduceToNat]; omega

instance instOrderTopUInt64 : OrderTop UInt64 where
  top := 0xFFFFFFFFFFFFFFFF
  le_top := fun a => by
    have := a.toNat_lt
    simp only [UInt64.le_iff_toNat_le, UInt64.reduceToNat]; omega

/-- `a - b` on 32-bit unsigned integers. -/
def unsignedSub (a b : Nat) : Nat :=
  (a + 2 ^ 32 - b % 2 ^ 32) % 2 ^ 32

theorem unsignedSub_eq {a b : Nat} (hb : b ≤ a) (ha : a < 2 ^ 32) : unsignedSub a b = a - b := by
  rw [unsignedSub]
  omega

end TLI
