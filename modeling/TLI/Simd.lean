import TLI.Library.MachineInt

/-!
# Simd — the vector comparisons of `util.h`, lane by lane

AVX2 compares signed integers only.  `util.h` derives the unsigned comparisons: 32-bit lanes from
the unsigned maximum, 64-bit lanes from the signed comparison of the values with flipped top bits.
A vector is the list of its lanes, a comparison mask the list of its lanes' truth values.
-/

namespace TLI
namespace Simd

/-! ## 32-bit lanes -/

/-- `_mm256_cmpeq_epi32(_mm256_max_epu32(a, b), a)` -/
def cmpge_epu32 (a b : UInt32) : Bool :=
  decide (max a b = a)

def cmple_epu32 (a b : UInt32) : Bool :=
  cmpge_epu32 b a

/-- `_mm256_xor_si256(_mm256_cmple_epu32(a, b), _mm256_set1_epi32(-1))` -/
def cmpgt_epu32 (a b : UInt32) : Bool :=
  !cmple_epu32 a b

theorem cmpgt_epu32_eq (a b : UInt32) : cmpgt_epu32 a b = decide (b < a) := by
  rw [cmpgt_epu32, cmple_epu32, cmpge_epu32, ← decide_not]
  exact decide_eq_decide.2 (by rw [max_eq_left_iff, not_le])

def cmplt_epu32 (a b : UInt32) : Bool :=
  cmpgt_epu32 b a

theorem cmpge_epu32_eq (a b : UInt32) : cmpge_epu32 a b = decide (b ≤ a) :=
  decide_eq_decide.2 max_eq_left_iff

theorem cmple_epu32_eq (a b : UInt32) : cmple_epu32 a b = decide (a ≤ b) :=
  cmpge_epu32_eq b a

theorem cmplt_epu32_eq (a b : UInt32) : cmplt_epu32 a b = decide (a < b) :=
  cmpgt_epu32_eq b a

/-! ## 64-bit lanes -/

def highBit : UInt64 := 0x8000000000000000

/-- `_mm256_cmpgt_epi64` -/
def cmpgt_epi64 (a b : UInt64) : Bool :=
  decide (b.toInt64 < a.toInt64)

def cmpgt_epu64 (a b : UInt64) : Bool :=
  cmpgt_epi64 (a ^^^ highBit) (b ^^^ highBit)

/-- Flipping the top bit moves the unsigned values to the signed ones in order. -/
theorem toInt_xor_highBit (a : UInt64) :
    (a ^^^ highBit).toInt64.toInt = (a.toNat : Int) - 2 ^ 63 := by
  have hlt := a.toNat_lt
  have hxor : (a ^^^ highBit).toNat = a.toNat ^^^ 2 ^ 63 := by
    rw [UInt64.toNat_xor]
    rfl
  have hlow : (a.toNat ^^^ 2 ^ 63) % 2 ^ 63 = a.toNat % 2 ^ 63 := by
    rw [Nat.xor_mod_two_pow, Nat.mod_self, Nat.xor_zero]
  have hhigh : (a.toNat ^^^ 2 ^ 63) / 2 ^ 63 = (a.toNat / 2 ^ 63) ^^^ 1 := by
    rw [Nat.xor_div_two_pow, Nat.div_self (Nat.two_pow_pos 63)]
  have htop : a.toNat / 2 ^ 63 = 0 ∧ (a.toNat / 2 ^ 63) ^^^ 1 = 1 ∨
      a.toNat / 2 ^ 63 = 1 ∧ (a.toNat / 2 ^ 63) ^^^ 1 = 0 := by
    rcases (by omega : a.toNat / 2 ^ 63 = 0 ∨ a.toNat / 2 ^ 63 = 1) with h | h
    · exact Or.inl ⟨h, by rw [h]; rfl⟩
    · exact Or.inr ⟨h, by rw [h]; rfl⟩
  have htoInt : (a ^^^ highBit).toInt64.toInt = (a ^^^ highBit).toBitVec.toInt := rfl
  rw [htoInt, BitVec.toInt_eq_toNat_cond, UInt64.toNat_toBitVec, hxor]
  split <;> omega

theorem cmpgt_epu64_eq (a b : UInt64) : cmpgt_epu64 a b = decide (b < a) := by
  rw [cmpgt_epu64, cmpgt_epi64]
  refine decide_eq_decide.2 ?_
  rw [Int64.lt_iff_toInt_lt, toInt_xor_highBit, toInt_xor_highBit, UInt64.lt_iff_toNat_lt]
  omega

def cmplt_epu64 (a b : UInt64) : Bool :=
  cmpgt_epu64 b a

def cmpge_epu64 (a b : UInt64) : Bool :=
  !cmplt_epu64 a b

def cmple_epu64 (a b : UInt64) : Bool :=
  cmpge_epu64 b a

theorem cmplt_epu64_eq (a b : UInt64) : cmplt_epu64 a b = decide (a < b) :=
  cmpgt_epu64_eq b a

theorem cmpge_epu64_eq (a b : UInt64) : cmpge_epu64 a b = decide (b ≤ a) := by
  rw [cmpge_epu64, cmplt_epu64_eq, ← decide_not]
  exact decide_eq_decide.2 not_lt

theorem cmple_epu64_eq (a b : UInt64) : cmple_epu64 a b = decide (a ≤ b) :=
  cmpge_epu64_eq b a

/-! ## Masks -/

/-- A 64-bit lane as two lanes of half the width. -/
def halves (lanes : List Bool) : List Bool :=
  lanes.flatMap fun lane => [lane, lane]

/-- `_mm256_packs_epi32` and `_mm256_packs_epi16` on masks: the lower 128 bits of both operands
come first, at half the lane width. -/
def packs (a b : List Bool) : List Bool :=
  a.take (a.length / 2) ++ b.take (b.length / 2) ++
    (a.drop (a.length / 2) ++ b.drop (b.length / 2))

/-- `_mm256_movemask_ps`, `_pd` and `_epi8`: bit `k` is the truth value of lane `k`. -/
def movemask : List Bool → Nat
  | [] => 0
  | lane :: lanes => lane.toNat + 2 * movemask lanes

/-- `__builtin_popcount` -/
def popcount (bits : Nat) : Nat :=
  (List.range 32).countP bits.testBit

/-- `__builtin_ctz` -/
def ctz (bits : Nat) : Nat :=
  ((List.range 32).find? bits.testBit).getD 32

/-! ## Counting lanes -/

open List

theorem packs_perm (a b : List Bool) : packs a b ~ a ++ b := by
  have hmove : b.take (b.length / 2) ++ (a.drop (a.length / 2) ++ b.drop (b.length / 2)) ~
      a.drop (a.length / 2) ++ b := by
    have hswap : b.take (b.length / 2) ++ a.drop (a.length / 2) ~
        a.drop (a.length / 2) ++ b.take (b.length / 2) := perm_append_comm
    have hmove := hswap.append_right (b.drop (b.length / 2))
    rwa [append_assoc, append_assoc, take_append_drop] at hmove
  calc
    packs a b = a.take (a.length / 2) ++ (b.take (b.length / 2) ++
        (a.drop (a.length / 2) ++ b.drop (b.length / 2))) := append_assoc _ _ _
    _ ~ a.take (a.length / 2) ++ (a.drop (a.length / 2) ++ b) := hmove.append_left _
    _ = a ++ b := by rw [← append_assoc, take_append_drop]

theorem movemask_lt (lanes : List Bool) : movemask lanes < 2 ^ lanes.length := by
  induction lanes with
  | nil => exact Nat.one_pos
  | cons lane lanes ih =>
      have hbit := Bool.toNat_le lane
      rw [movemask, length_cons, Nat.pow_succ]
      omega

theorem testBit_movemask (lanes : List Bool) :
    ∀ k, (movemask lanes).testBit k = lanes.getD k false := by
  induction lanes with
  | nil =>
      intro k
      rw [movemask, Nat.zero_testBit, getD_nil]
  | cons lane lanes ih =>
      intro k
      have hbit := Bool.toNat_le lane
      cases k with
      | zero =>
          rw [movemask, Nat.testBit_zero, getD_cons_zero, Nat.add_mul_mod_self_left]
          cases lane <;> rfl
      | succ k =>
          have hhalf : (lane.toNat + 2 * movemask lanes) / 2 = movemask lanes := by omega
          rw [movemask, Nat.testBit_succ, hhalf, getD_cons_succ, ih]

/-- The number of bits set is the number of lanes that are true. -/
theorem popcount_movemask {lanes : List Bool} (h : lanes.length ≤ 32) :
    popcount (movemask lanes) = lanes.count true := by
  have hcount : ∀ (lanes : List Bool) n, lanes.length ≤ n →
      (range n).countP (fun k => lanes.getD k false) = lanes.count true := by
    intro lanes
    induction lanes with
    | nil =>
        intro n _
        rw [count_nil, countP_eq_zero]
        intro k _
        simp
    | cons lane lanes ih =>
        intro n hn
        rw [length_cons] at hn
        obtain ⟨n, rfl⟩ := Nat.exists_eq_succ_of_ne_zero (by omega : n ≠ 0)
        rw [range_succ_eq_map, countP_cons, countP_map, count_cons]
        have hrest := ih n (by omega)
        simp only [Function.comp_def, getD_cons_succ, getD_cons_zero]
        rw [hrest]
        cases lane <;> rfl
  rw [popcount, ← hcount lanes 32 h]
  exact countP_congr fun k _ => by rw [testBit_movemask]

/-- All bits are set if all lanes are true. -/
theorem movemask_eq_full_iff (lanes : List Bool) :
    movemask lanes = 2 ^ lanes.length - 1 ↔ lanes.count true = lanes.length := by
  induction lanes with
  | nil => exact iff_of_true rfl rfl
  | cons lane lanes ih =>
      have hlt := movemask_lt lanes
      have hle := count_le_length (a := true) (l := lanes)
      rw [movemask, length_cons, Nat.pow_succ, count_cons]
      cases lane with
      | false =>
          simp only [Bool.toNat_false, beq_iff_eq, Bool.false_eq_true, if_false]
          omega
      | true =>
          simp only [Bool.toNat_true, beq_iff_eq, if_true]
          omega

end Simd
end TLI
