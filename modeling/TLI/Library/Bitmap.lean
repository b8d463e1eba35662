import Mathlib.Algebra.Group.Nat.Defs
import Mathlib.Data.List.Basic
import Mathlib.Order.Nat

/-!
# Bitmap — sets of positions as arrays of bytes

Position `pos` is bit `pos % 8` of byte `pos / 8`.  A set is enumerated byte by byte: a cursor is
the index of a byte together with the bits of this byte that are still to come.  `At` says which
positions a cursor has passed, `At.next` what it finds next.
-/

namespace TLI
namespace Bitmap

open List

/-- `(bits[pos / 8] >> (pos % 8)) & 1` -/
def get (bits : Nat → UInt8) (pos : Nat) : Bool :=
  (bits (pos / 8)).toNat.testBit (pos % 8)

/-- `uint8_t(1 << i)` -/
def mask (i : Nat) : UInt8 :=
  UInt8.ofNat (1 <<< i)

/-- `bits[pos / 8] |= 1 << (pos % 8)` -/
def set (bits : Nat → UInt8) (pos : Nat) (i : Nat) : UInt8 :=
  if i = pos / 8 then bits i ||| mask (pos % 8) else bits i

/-- `bits[pos / 8] &= ~uint8_t(1 << (pos % 8))` -/
def clear (bits : Nat → UInt8) (pos : Nat) (i : Nat) : UInt8 :=
  if i = pos / 8 then bits i &&& ~~~ mask (pos % 8) else bits i

/-! ## Bits of a byte -/

theorem toNat_mask {i : Nat} (hi : i < 8) : (mask i).toNat = 2 ^ i := by
  have hlt : 2 ^ i < 2 ^ 8 := Nat.pow_lt_pow_right (by decide) hi
  rw [mask, Nat.one_shiftLeft, UInt8.toNat_ofNat_of_lt' hlt]

theorem testBit_mask {i : Nat} (hi : i < 8) (j : Nat) :
    (mask i).toNat.testBit j = decide (i = j) := by
  rw [toNat_mask hi, Nat.testBit_two_pow]

theorem testBit_not (b : UInt8) {j : Nat} (hj : j < 8) :
    (~~~ b).toNat.testBit j = !b.toNat.testBit j := by
  rw [UInt8.toNat_not, Nat.sub_sub, Nat.add_comm 1, show UInt8.size = 2 ^ 8 from rfl,
    Nat.testBit_two_pow_sub_succ b.toNat_lt, decide_eq_true hj, Bool.true_and]

/-- `~(b | ((1 << (j + 1)) - 1))`: the bits behind bit `j` that are not set. -/
theorem testBit_not_or_low (b : UInt8) {j : Nat} (hj : j < 8) {i : Nat} (hi : i < 8) :
    (~~~ (b ||| UInt8.ofNat (1 <<< (j + 1) - 1))).toNat.testBit i =
      (decide (j < i) && !b.toNat.testBit i) := by
  have hlt : 2 ^ (j + 1) - 1 < 2 ^ 8 := by
    have hle : 2 ^ (j + 1) ≤ 2 ^ 8 := Nat.pow_le_pow_right (by decide) (by omega)
    have hpos := Nat.two_pow_pos (j + 1)
    omega
  rw [testBit_not _ hi, UInt8.toNat_or, Nat.testBit_or, Nat.one_shiftLeft,
    UInt8.toNat_ofNat_of_lt' hlt, Nat.testBit_two_pow_sub_one, Bool.not_or, Bool.and_comm,
    ← decide_not]
  congr 1
  exact decide_eq_decide.2 (by omega)

theorem testBit_sub_two_pow {x n : Nat} (hn : x.testBit n = true) (j : Nat) :
    (x - 2 ^ n).testBit j = (x.testBit j && decide (n ≠ j)) := by
  -- what is above the bit, and what is below it
  obtain ⟨high, low, hlow, rfl⟩ : ∃ high low, low < 2 ^ n ∧
      x = 2 ^ (n + 1) * high + (2 ^ n + low) := by
    refine ⟨x / 2 ^ (n + 1), x % 2 ^ n, Nat.mod_lt _ (Nat.two_pow_pos n), ?_⟩
    have hbit : x / 2 ^ n % 2 = 1 := by
      rw [Nat.testBit_eq_decide_div_mod_eq] at hn
      exact of_decide_eq_true hn
    have hsplit := Nat.div_add_mod x (2 ^ n)
    have hhalf := Nat.div_add_mod (x / 2 ^ n) 2
    rw [Nat.div_div_eq_div_mul, ← Nat.pow_succ, hbit] at hhalf
    calc x = 2 ^ n * (x / 2 ^ n) + x % 2 ^ n := hsplit.symm
      _ = 2 ^ n * (2 * (x / 2 ^ (n + 1)) + 1) + x % 2 ^ n := by rw [hhalf]
      _ = 2 ^ (n + 1) * (x / 2 ^ (n + 1)) + (2 ^ n + x % 2 ^ n) := by
        rw [Nat.mul_add, Nat.mul_one, ← Nat.mul_assoc, ← Nat.pow_succ, Nat.add_assoc]
  have hhalf : 2 ^ n + low < 2 ^ (n + 1) := by
    rw [Nat.pow_succ]
    omega
  have hsub : 2 ^ (n + 1) * high + (2 ^ n + low) - 2 ^ n = 2 ^ (n + 1) * high + low := by omega
  rw [hsub, Nat.testBit_two_pow_mul_add _ (by omega), Nat.testBit_two_pow_mul_add _ hhalf]
  rcases Nat.lt_trichotomy j n with hj | rfl | hj
  · rw [if_pos (by omega), if_pos (by omega), Nat.testBit_two_pow_add_gt hj,
      decide_eq_true (by omega), Bool.and_true]
  · rw [if_pos (Nat.lt_succ_self j), Nat.testBit_lt_two_pow hlow, decide_eq_false (by simp),
      Bool.and_false]
  · rw [if_neg (by omega), if_neg (by omega), decide_eq_true (by omega), Bool.and_true]

/-- `word -= 1 << i`, for a bit that is set. -/
theorem testBit_sub_mask {word : UInt8} {i : Nat} (hi : i < 8)
    (hbit : word.toNat.testBit i = true) (j : Nat) :
    (word - mask i).toNat.testBit j = (word.toNat.testBit j && decide (i ≠ j)) := by
  have hle : mask i ≤ word := by
    rw [UInt8.le_iff_toNat_le, toNat_mask hi]
    exact Nat.ge_two_pow_of_testBit hbit
  rw [UInt8.toNat_sub_of_le _ _ hle, toNat_mask hi, testBit_sub_two_pow hbit]

/-- A byte that is not zero has a bit. -/
theorem exists_testBit {word : UInt8} (h : word ≠ 0) : ∃ i < 8, word.toNat.testBit i = true := by
  have hne : word.toNat ≠ 0 := fun hzero => h (UInt8.toNat_inj.1 hzero)
  obtain ⟨i, hi⟩ := Nat.exists_testBit_of_ne_zero hne
  refine ⟨i, ?_, hi⟩
  by_contra hlarge
  have hzero := Nat.testBit_lt_two_pow (Nat.lt_of_lt_of_le word.toNat_lt
    (Nat.pow_le_pow_right (by decide : 0 < 2) (not_lt.1 hlarge)))
  rw [hzero] at hi
  cases hi

/-! ## Updates -/

variable {bits : Nat → UInt8}

theorem get_add (bits : Nat → UInt8) (i : Nat) {j : Nat} (hj : j < 8) :
    get bits (8 * i + j) = (bits i).toNat.testBit j := by
  rw [get, Nat.mul_add_div (by decide), Nat.div_eq_of_lt hj, Nat.add_zero, Nat.mul_add_mod,
    Nat.mod_eq_of_lt hj]

theorem get_set (bits : Nat → UInt8) (pos p : Nat) :
    get (set bits pos) p = (decide (p = pos) || get bits p) := by
  rw [get, get, set]
  split
  · rename_i hbyte
    rw [UInt8.toNat_or, Nat.testBit_or, testBit_mask (Nat.mod_lt _ (by decide)), Bool.or_comm]
    congr 1
    exact decide_eq_decide.2 (by omega)
  · rename_i hbyte
    rw [decide_eq_false (by rintro rfl; exact hbyte rfl), Bool.false_or]

theorem get_clear (bits : Nat → UInt8) (pos p : Nat) :
    get (clear bits pos) p = (!decide (p = pos) && get bits p) := by
  rw [get, get, clear]
  split
  · rename_i hbyte
    rw [UInt8.toNat_and, Nat.testBit_and, testBit_not _ (Nat.mod_lt _ (by decide)),
      testBit_mask (Nat.mod_lt _ (by decide)), Bool.and_comm]
    congr 2
    exact decide_eq_decide.2 (by omega)
  · rename_i hbyte
    rw [decide_eq_false (by rintro rfl; exact hbyte rfl), Bool.not_false, Bool.true_and]

theorem get_not (bits : Nat → UInt8) (p : Nat) : get (fun i => ~~~ bits i) p = !get bits p :=
  testBit_not _ (Nat.mod_lt _ (by decide))

theorem get_full (p : Nat) : get (fun _ => 0xff) p = true := by
  have hfull : ∀ j < 8, (0xff : UInt8).toNat.testBit j = true := by decide
  exact hfull _ (Nat.mod_lt _ (by decide))

theorem get_empty (p : Nat) : get (fun _ => 0) p = false :=
  Nat.zero_testBit _

/-! ## Cursors -/

/-- `while (!word && index + 1 < size) { index ++; word = bits[index]; }`, where `left` bytes are
left. -/
def nextWord (bits : Nat → UInt8) : Nat → Nat → UInt8 → Nat × UInt8
  | 0, index, word => (index, word)
  | left + 1, index, word =>
      if word = 0 then nextWord bits left (index + 1) (bits (index + 1)) else (index, word)

/-- The cursor has passed the positions below `p`. -/
structure At (bits : Nat → UInt8) (p index : Nat) (word : UInt8) : Prop where
  lower : 8 * index ≤ p
  upper : p ≤ 8 * (index + 1)
  word_bit : ∀ j < 8, word.toNat.testBit j = (decide (p ≤ 8 * index + j) && get bits (8 * index + j))

theorem at_zero (bits : Nat → UInt8) (index : Nat) : At bits (8 * index) index (bits index) where
  lower := le_rfl
  upper := by omega
  word_bit j hj := by
    rw [get_add bits index hj, decide_eq_true (by omega), Bool.true_and]

/-- The cursor behind a position. -/
theorem at_behind (bits : Nat → UInt8) (pos : Nat) :
    At (fun i => ~~~ bits i) (pos + 1) (pos / 8)
      (~~~ (bits (pos / 8) ||| UInt8.ofNat (1 <<< (pos % 8 + 1) - 1))) where
  lower := by omega
  upper := by omega
  word_bit j hj := by
    rw [testBit_not_or_low _ (Nat.mod_lt _ (by decide)) hj, get_add _ _ hj, testBit_not _ hj]
    congr 1
    exact decide_eq_decide.2 (by omega)

/-- A byte without bits leads on to the next one. -/
theorem At.skip {p index : Nat} (h : At bits p index 0) :
    (∀ q, p ≤ q → q < 8 * (index + 1) → get bits q = false) ∧
      At bits (8 * (index + 1)) (index + 1) (bits (index + 1)) := by
  refine ⟨fun q hq hlt => ?_, at_zero bits (index + 1)⟩
  have hbit := h.word_bit (q - 8 * index) (by have := h.lower; omega)
  have hq' : 8 * index + (q - 8 * index) = q := by have := h.lower; omega
  rw [hq', decide_eq_true hq, Bool.true_and] at hbit
  exact hbit.symm.trans (Nat.zero_testBit _)

/-- The next byte with bits is found unless there are none. -/
theorem At.nextWord {p : Nat} : ∀ (left : Nat) {index : Nat} {word : UInt8}, At bits p index word →
    ∃ p', p ≤ p' ∧ (∀ q, p ≤ q → q < p' → get bits q = false) ∧
      At bits p' (nextWord bits left index word).1 (nextWord bits left index word).2 ∧
      (nextWord bits left index word).1 ≤ index + left ∧
      ((nextWord bits left index word).2 = 0 →
        ∀ q, p ≤ q → q < 8 * (index + left + 1) → get bits q = false) := by
  intro left
  induction left generalizing p with
  | zero =>
      intro index word h
      refine ⟨p, le_rfl, fun q hq hlt => by omega, h, le_rfl, fun hzero => ?_⟩
      have hword : word = 0 := hzero
      exact (hword ▸ h).skip.1
  | succ left ih =>
      intro index word h
      rw [Bitmap.nextWord]
      split
      · rename_i hzero
        obtain ⟨hnone, hat⟩ := (hzero ▸ h).skip
        obtain ⟨p', hle, hbetween, hat', hindex, hrest⟩ := ih hat
        have hupper := h.upper
        refine ⟨p', by omega, fun q hq hlt => ?_, hat', by omega, fun hword q hq hlt => ?_⟩
        · rcases Nat.lt_or_ge q (8 * (index + 1)) with hin | hout
          · exact hnone q hq hin
          · exact hbetween q hout hlt
        · rcases Nat.lt_or_ge q (8 * (index + 1)) with hin | hout
          · exact hnone q hq hin
          · exact hrest hword q hout (by omega)
      · rename_i hword
        exact ⟨p, le_rfl, fun q hq hlt => by omega, h, by omega, fun hzero => absurd hzero hword⟩

/-- The lowest bit of the cursor is the next position, and the cursor passes it. -/
theorem At.pass {p index : Nat} {word : UInt8} (h : At bits p index word) {j : Nat} (hj : j < 8)
    (hbit : word.toNat.testBit j = true) (hlow : ∀ i < j, word.toNat.testBit i = false) :
    p ≤ 8 * index + j ∧ get bits (8 * index + j) = true ∧
      (∀ q, p ≤ q → q < 8 * index + j → get bits q = false) ∧
      At bits (8 * index + j + 1) index (word - mask j) := by
  have hlower := h.lower
  have hfound := h.word_bit j hj
  rw [hbit, eq_comm, Bool.and_eq_true, decide_eq_true_eq] at hfound
  refine ⟨hfound.1, hfound.2, fun q hq hlt => ?_, ⟨by omega, by omega, fun i hi => ?_⟩⟩
  · have hpassed := h.word_bit (q - 8 * index) (by omega)
    have hq' : 8 * index + (q - 8 * index) = q := by omega
    rw [hlow _ (by omega), hq', decide_eq_true hq, Bool.true_and] at hpassed
    exact hpassed.symm
  · rw [testBit_sub_mask hj hbit, h.word_bit i hi]
    rcases Nat.lt_trichotomy i j with hij | rfl | hij
    · have hnot := h.word_bit i hi
      rw [hlow i hij] at hnot
      rw [← hnot, Bool.false_and, decide_eq_false (by omega), Bool.false_and]
    · rw [decide_eq_false (not_not_intro rfl), Bool.and_false, decide_eq_false (by omega),
        Bool.false_and]
    · rw [decide_eq_true (by omega : j ≠ i), Bool.and_true, decide_eq_true (by omega),
        decide_eq_true (by omega)]

/-! ## Lists over positions -/

/-- Positions that contribute nothing are skipped. -/
theorem flatMap_skip {α : Type*} {f : Nat → List α} {p q n : Nat} (hpq : p ≤ q)
    (hnil : ∀ i, p ≤ i → i < q → f i = []) :
    (range' p (n - p)).flatMap f = (range' q (n - q)).flatMap f := by
  induction q, hpq using Nat.le_induction with
  | base => rfl
  | succ q hpq ih =>
      rw [ih fun i hi hlt => hnil i hi (by omega)]
      rcases Nat.lt_or_ge q n with hlt | hge
      · rw [show n - q = n - (q + 1) + 1 by omega, range'_succ, flatMap_cons,
          hnil q hpq (Nat.lt_succ_self q), nil_append]
      · rw [show n - q = 0 by omega, show n - (q + 1) = 0 by omega, range'_zero, range'_zero]

theorem flatMap_cons_of_lt {α : Type*} (f : Nat → List α) {q n : Nat} (h : q < n) :
    (range' q (n - q)).flatMap f = f q ++ (range' (q + 1) (n - (q + 1))).flatMap f := by
  rw [show n - q = n - (q + 1) + 1 by omega, range'_succ, flatMap_cons]

/-- What one position contributes is added to the list. -/
theorem flatMap_range_perm {α : Type*} {f g : Nat → List α} {pos : Nat} {added : List α}
    (hne : ∀ i, i ≠ pos → g i = f i) (hperm : g pos ~ added ++ f pos) :
    ∀ {n}, pos < n → (range n).flatMap g ~ added ++ (range n).flatMap f := by
  intro n
  induction n with
  | zero => exact fun h => absurd h (Nat.not_lt_zero pos)
  | succ n ih =>
      intro hpos
      simp only [range_succ, flatMap_append, flatMap_singleton]
      rcases Nat.lt_or_eq_of_le (Nat.le_of_lt_succ hpos) with hlt | rfl
      · rw [hne n (by omega), ← append_assoc]
        exact (ih hlt).append_right _
      · have hfront : (range pos).flatMap g = (range pos).flatMap f :=
          flatMap_congr fun i hi => hne i (Nat.ne_of_lt (List.mem_range.1 hi))
        rw [hfront, ← append_assoc]
        calc (range pos).flatMap f ++ g pos
            ~ (range pos).flatMap f ++ (added ++ f pos) := hperm.append_left _
          _ = (range pos).flatMap f ++ added ++ f pos := (append_assoc _ _ _).symm
          _ ~ added ++ (range pos).flatMap f ++ f pos := perm_append_comm.append_right _

end Bitmap
end TLI
