import Mathlib.Algebra.BigOperators.Group.Finset.Basic
import Mathlib.Data.Nat.Log
import Mathlib.Order.Monotone.Basic
import TLI.Library.Loop

/-!
# BlockedTree — implicit search trees laid out in blocks

A perfect binary search tree over a segment `[i, i + 2 ^ m)` of a sorted sequence is determined by
the segment: node `c` of level `l` separates at `separator i m l c`.  `descend` follows the
comparisons with a query from the root and returns the node reached after some levels.

Such a tree is stored level by level in blocks: block level `k` starts at tree level `k * step` and
holds one block for each of the `2 ^ (k * step)` nodes there.  Blocks are again stored in blocks,
down to single slots.  This file has one builder (`storeBlocks`), one search (`searchBlocks`) and
one description of the result (`Blocked`) for every stage, with one lemma for each:

* `storeBlocks_spec` — if the inner builder stores its blocks, the outer one stores its tree;
* `searchBlocks_eq` — if the inner search descends through its blocks, the outer one descends
  through its tree.
-/

namespace TLI
namespace BlockedTree

open Loop

/-! ## Descending an implicit tree -/

section Descend

variable {K : Type*} [LinearOrder K]

/-- The position that node `c` of level `l` compares with. -/
def separator (i m l c : Nat) : Nat :=
  i + c * 2 ^ (m - l) + (2 ^ (m - l - 1) - 1)

/-- The node reached after some levels. -/
def descend (L : Nat → K) (q : K) (i m : Nat) : Nat → Nat
  | 0 => 0
  | l + 1 =>
      2 * descend L q i m l + if L (separator i m l (descend L q i m l)) < q then 1 else 0

variable {L : Nat → K} {q : K}

theorem descend_lt (i m : Nat) : ∀ l, descend L q i m l < 2 ^ l := by
  intro l
  induction l with
  | zero => simp [descend]
  | succ l ih =>
      unfold descend
      rw [Nat.pow_succ]
      split <;> omega

/-- A node of a subtree separates where the corresponding node of the whole tree does. -/
theorem separator_subtree {i m g l b c : Nat} (h : g + l ≤ m) :
    separator (i + b * 2 ^ (m - g)) (m - g) l c = separator i m (g + l) (b * 2 ^ l + c) := by
  have hpow : 2 ^ (m - g) = 2 ^ l * 2 ^ (m - (g + l)) := by
    rw [← Nat.pow_add]
    congr 1
    omega
  have hsub : m - g - l = m - (g + l) := by omega
  simp only [separator, hsub]
  rw [hpow, Nat.add_mul, Nat.mul_assoc]
  omega

/-- In-order positions: node `c` of level `l` is number `(2 * c + 1) * 2 ^ (d - 1 - l)` among the
separators of the first `d` levels. -/
theorem separator_le_separator {i m d l c l' c' : Nat} (hd : d ≤ m) (hl : l < d) (hl' : l' < d)
    (h : (2 * c + 1) * 2 ^ (d - 1 - l) ≤ (2 * c' + 1) * 2 ^ (d - 1 - l')) :
    separator i m l c ≤ separator i m l' c' := by
  have hpos : ∀ l c, l < d →
      separator i m l c + 1 = i + (2 * c + 1) * 2 ^ (d - 1 - l) * 2 ^ (m - d) := by
    intro l c hl
    have hexp : 2 ^ (d - 1 - l) * 2 ^ (m - d) = 2 ^ (m - l - 1) := by
      rw [← Nat.pow_add]
      congr 1
      omega
    have hpow : 2 ^ (m - l) = 2 * 2 ^ (m - l - 1) := by
      rw [← Nat.pow_succ']
      congr 1
      omega
    have hone := Nat.two_pow_pos (m - l - 1)
    rw [Nat.mul_assoc, hexp, separator, hpow, Nat.add_mul, Nat.one_mul, Nat.mul_comm 2 c,
      Nat.mul_assoc]
    omega
  have hle := Nat.mul_le_mul_right (2 ^ (m - d)) h
  have hl₁ := hpos l c hl
  have hl₂ := hpos l' c' hl'
  omega

/-- Descending further is descending through the subtree that was reached. -/
theorem descend_add {i m g : Nat} :
    ∀ l, g + l ≤ m → descend L q i m (g + l) =
      descend L q i m g * 2 ^ l +
        descend L q (i + descend L q i m g * 2 ^ (m - g)) (m - g) l := by
  intro l
  induction l with
  | zero => intro _; simp [descend]
  | succ l ih =>
      intro h
      have hstep := ih (by omega)
      have hsep := separator_subtree (i := i) (b := descend L q i m g)
        (c := descend L q (i + descend L q i m g * 2 ^ (m - g)) (m - g) l) (h := (by omega : g + l ≤ m))
      rw [← Nat.add_assoc]
      simp only [descend]
      rw [hsep, ← hstep, hstep, Nat.pow_succ, ← Nat.mul_assoc]
      omega

/-- In a sorted sequence the node reached separates the positions below the query from the rest. -/
theorem descend_spec (hL : Monotone L) {m : Nat} :
    ∀ l, l ≤ m →
      (∀ x, x < descend L q 0 m l * 2 ^ (m - l) → L x < q) ∧
        ∀ x, (descend L q 0 m l + 1) * 2 ^ (m - l) ≤ x + 1 → x + 1 < 2 ^ m → q ≤ L x := by
  intro l
  induction l with
  | zero =>
      intro _
      refine ⟨fun x hx => by simp [descend] at hx, fun x hx hx' => ?_⟩
      simp only [descend, Nat.zero_add, Nat.one_mul, Nat.sub_zero] at hx
      omega
  | succ l ih =>
      intro hl
      obtain ⟨hbelow, habove⟩ := ih (by omega)
      generalize hp : descend L q 0 m l = p at hbelow habove
      have hpow : 2 ^ (m - l) = 2 * 2 ^ (m - (l + 1)) := by
        rw [← Nat.pow_succ']
        congr 1
        omega
      have hpos : 0 < 2 ^ (m - (l + 1)) := Nat.two_pow_pos _
      -- The separator is the last position of the left half.
      have hsep : separator 0 m l p = (2 * p + 1) * 2 ^ (m - (l + 1)) - 1 := by
        have hsub : m - l - 1 = m - (l + 1) := by omega
        simp only [separator, hsub, hpow]
        rw [Nat.add_mul, Nat.one_mul, Nat.mul_comm 2 p, Nat.mul_assoc]
        omega
      rw [hpow] at hbelow habove
      unfold descend
      rw [hp, hsep]
      split
      · rename_i hlt
        refine ⟨fun x hx => (hL ?_).trans_lt hlt, fun x hx => habove x (le_trans ?_ hx)⟩
        · omega
        · rw [← Nat.mul_assoc]
          exact Nat.mul_le_mul_right _ (by omega)
      · rename_i hge
        rw [not_lt] at hge
        refine ⟨fun x hx => hbelow x (lt_of_lt_of_le hx ?_), fun x hx _ => hge.trans (hL ?_)⟩
        · rw [← Nat.mul_assoc]
          exact Nat.mul_le_mul_right _ (by omega)
        · rw [Nat.add_zero] at hx
          omega

end Descend

/-! ## Levels of blocks -/

/-- The number of block levels: the turns of `for (level = 0; level < levels; level += step)`. -/
def rounds (step levels : Nat) : Nat :=
  (levels + step - 1) / step

theorem lt_rounds_iff {step levels k : Nat} (hstep : 0 < step) :
    k < rounds step levels ↔ k * step < levels := by
  rw [rounds, Nat.lt_iff_add_one_le, Nat.le_div_iff_mul_le hstep, Nat.add_mul]
  omega

/-- The number of tree levels in the blocks that start at `level`. -/
def blockDepth (step levels level : Nat) : Nat :=
  min step (levels - level)

/-- The number of slots in front of block level `k`, when a block at `level` has `size level`. -/
def blockBase (step : Nat) (size : Nat → Nat) : Nat → Nat
  | 0 => 0
  | k + 1 => blockBase step size k + 2 ^ (k * step) * size (k * step)

theorem blockBase_mono {step : Nat} {size : Nat → Nat} {k n : Nat} (h : k ≤ n) :
    blockBase step size k ≤ blockBase step size n := by
  induction h with
  | refl => exact le_rfl
  | step _ ih => exact ih.trans (Nat.le_add_right _ _)

/-- A block ends before the slots of the next block level begin. -/
theorem block_end_le {step : Nat} (size : Nat → Nat) {k n b : Nat} (hk : k < n)
    (hb : b < 2 ^ (k * step)) :
    blockBase step size k + b * size (k * step) + size (k * step) ≤ blockBase step size n := by
  have hlevel : (b + 1) * size (k * step) ≤ 2 ^ (k * step) * size (k * step) :=
    Nat.mul_le_mul_right _ hb
  have hnext : blockBase step size (k + 1) ≤ blockBase step size n := blockBase_mono hk
  rw [Nat.add_mul, Nat.one_mul] at hlevel
  simp only [blockBase] at hnext
  omega

/-- After `k` block levels the tree has been descended `k * step` levels, or to the bottom. -/
theorem min_succ_mul {step levels k : Nat} (hk : k * step < levels) :
    min ((k + 1) * step) levels = k * step + blockDepth step levels (k * step) := by
  rw [blockDepth, Nat.add_mul, Nat.one_mul]
  omega

/-! ## Memory -/

/-- Slots that were written, and what they hold. -/
abbrev Mem (K : Type*) := Nat → Option K

/-- Only slots in `[a, b)` differ. -/
def Frame {K : Type*} (v v' : Mem K) (a b : Nat) : Prop :=
  ∀ x, x < a ∨ b ≤ x → v' x = v x

theorem Frame.refl {K : Type*} (v : Mem K) (a b : Nat) : Frame v v a b :=
  fun _ _ => rfl

theorem Frame.trans {K : Type*} {v v' v'' : Mem K} {a b a' b' c d : Nat} (h : Frame v v' a b)
    (h' : Frame v' v'' a' b') (hca : c ≤ a) (hbd : b ≤ d) (hca' : c ≤ a') (hbd' : b' ≤ d) :
    Frame v v'' c d := by
  intro x hx
  rw [h' x (by omega), h x (by omega)]

theorem Frame.mono {K : Type*} {v v' : Mem K} {a b c d : Nat} (h : Frame v v' a b)
    (hca : c ≤ a) (hbd : b ≤ d) : Frame v v' c d :=
  fun x hx => h x (by omega)

/-! ## Building -/

/-- Store a tree over `[i, j)` block level by block level; `inner level i j` stores one block. -/
def storeBlocks {σ : Type*} (step levels : Nat) (inner : Nat → Nat → Nat → σ → σ) (i j : Nat) :
    σ → σ :=
  repeatFor
    (fun k =>
      let chunk := (j - i) / 2 ^ (k * step)
      repeatFor (fun cl => inner (k * step) (i + cl * chunk) (i + (cl + 1) * chunk))
        (2 ^ (k * step)))
    (rounds step levels)

section Build

variable {K : Type*}

/-- `P level v a i m`: the slots from `a` on hold a block that starts at `level` of its tree and is
itself a tree over `[i, i + 2 ^ m)`.  `Blocked` says so for all blocks of a tree. -/
def Blocked (step levels : Nat) (size : Nat → Nat)
    (P : Nat → Mem K → Nat → Nat → Nat → Prop) (v : Mem K) (a i m : Nat) : Prop :=
  ∀ k, k < rounds step levels → ∀ b, b < 2 ^ (k * step) →
    P (k * step) v (a + (blockBase step size k + b * size (k * step)))
      (i + b * 2 ^ (m - k * step)) (m - k * step)

/-- What is asked of an inner builder: it fills `size level` slots and touches no other. -/
structure Stores (levels : Nat) (size : Nat → Nat) (P : Nat → Mem K → Nat → Nat → Nat → Prop)
    (inner : Nat → Nat → Nat → Mem K × Nat → Mem K × Nat) : Prop where
  store : ∀ level v a i m, level < levels → levels ≤ level + m →
    ∃ v', inner level i (i + 2 ^ m) (v, a) = (v', a + size level) ∧
      Frame v v' a (a + size level) ∧ P level v' a i m
  congr : ∀ level v v' a i m, (∀ x, a ≤ x → x < a + size level → v' x = v x) →
    P level v a i m → P level v' a i m

variable {step levels : Nat} {size : Nat → Nat} {P : Nat → Mem K → Nat → Nat → Nat → Prop}
  {inner : Nat → Nat → Nat → Mem K × Nat → Mem K × Nat}

/-- One block level. -/
theorem repeatFor_inner_spec (h : Stores levels size P inner) {level m : Nat}
    (hlevel : level < levels) (hm : levels ≤ level + m) (v : Mem K) (a i : Nat) :
    ∀ n, ∃ v', repeatFor (fun cl => inner level (i + cl * 2 ^ m) (i + (cl + 1) * 2 ^ m)) n (v, a) =
        (v', a + n * size level) ∧
      Frame v v' a (a + n * size level) ∧
      ∀ b, b < n → P level v' (a + b * size level) (i + b * 2 ^ m) m := by
  intro n
  induction n with
  | zero => exact ⟨v, by simp [repeatFor], Frame.refl _ _ _, by simp⟩
  | succ n ih =>
      obtain ⟨v₁, hrun₁, hframe₁, hP₁⟩ := ih
      obtain ⟨v₂, hrun₂, hframe₂, hP₂⟩ :=
        h.store level v₁ (a + n * size level) (i + n * 2 ^ m) m hlevel hm
      have hend : i + (n + 1) * 2 ^ m = i + n * 2 ^ m + 2 ^ m := by
        rw [Nat.add_mul, Nat.one_mul, Nat.add_assoc]
      have hsize : a + (n + 1) * size level = a + n * size level + size level := by
        rw [Nat.add_mul, Nat.one_mul, Nat.add_assoc]
      refine ⟨v₂, ?_, ?_, ?_⟩
      · simp only [repeatFor]
        rw [hrun₁, hend, hrun₂, hsize]
      · exact hframe₁.trans hframe₂ le_rfl (by omega) (by omega) (by omega)
      · intro b hb
        rcases Nat.lt_succ_iff_lt_or_eq.1 hb with hb | rfl
        · -- An earlier block lies in front of the slots written last.
          have hbn : (b + 1) * size level ≤ n * size level := Nat.mul_le_mul_right _ hb
          rw [Nat.add_mul, Nat.one_mul] at hbn
          exact h.congr level v₁ v₂ _ _ _ (fun x _ hx => hframe₂ x (by omega)) (hP₁ b hb)
        · exact hP₂

/-- If the inner builder stores its blocks, the outer one stores its tree. -/
theorem storeBlocks_spec (h : Stores levels size P inner) (hstep : 0 < step) {m : Nat}
    (hm : levels ≤ m) (v : Mem K) (a i : Nat) :
    ∃ v', storeBlocks step levels inner i (i + 2 ^ m) (v, a) =
        (v', a + blockBase step size (rounds step levels)) ∧
      Frame v v' a (a + blockBase step size (rounds step levels)) ∧
      Blocked step levels size P v' a i m := by
  suffices hrounds : ∀ n, n ≤ rounds step levels →
      ∃ v', repeatFor (fun k =>
            let chunk := (i + 2 ^ m - i) / 2 ^ (k * step)
            repeatFor (fun cl => inner (k * step) (i + cl * chunk) (i + (cl + 1) * chunk))
              (2 ^ (k * step))) n (v, a) = (v', a + blockBase step size n) ∧
        Frame v v' a (a + blockBase step size n) ∧
        ∀ k, k < n → ∀ b, b < 2 ^ (k * step) →
          P (k * step) v' (a + (blockBase step size k + b * size (k * step)))
            (i + b * 2 ^ (m - k * step)) (m - k * step) from
    hrounds _ le_rfl
  intro n
  induction n with
  | zero => exact fun _ => ⟨v, by simp [repeatFor, blockBase], Frame.refl _ _ _, by simp⟩
  | succ n ih =>
      intro hn
      obtain ⟨v₁, hrun₁, hframe₁, hP₁⟩ := ih (by omega)
      have hlevel : n * step < levels := (lt_rounds_iff hstep).1 hn
      have hchunk : (i + 2 ^ m - i) / 2 ^ (n * step) = 2 ^ (m - n * step) := by
        rw [Nat.add_sub_cancel_left, Nat.pow_div (by omega) (by decide)]
      -- The next round stores one block for each node of its level, behind the rounds before.
      obtain ⟨v₂, hrun₂, hframe₂, hP₂⟩ :=
        repeatFor_inner_spec h hlevel (m := m - n * step) (by omega) v₁
          (a + blockBase step size n) i (2 ^ (n * step))
      have hend : a + blockBase step size n + 2 ^ (n * step) * size (n * step) =
          a + blockBase step size (n + 1) := by
        rw [blockBase, Nat.add_assoc]
      rw [hend] at hrun₂ hframe₂
      refine ⟨v₂, ?_, ?_, ?_⟩
      · simp only [repeatFor] at hrun₁ ⊢
        rw [hrun₁, hchunk, hrun₂]
      · exact hframe₁.trans hframe₂ le_rfl (by simp only [blockBase]; omega) (by omega) le_rfl
      · intro k hk b hb
        rcases Nat.lt_succ_iff_lt_or_eq.1 hk with hk | rfl
        -- Earlier blocks are not touched again.
        · have hle := block_end_le size hk hb
          exact h.congr _ v₁ v₂ _ _ _ (fun x _ hx => hframe₂ x (by omega)) (hP₁ k hk b hb)
        · rw [← Nat.add_assoc]
          exact hP₂ b hb

theorem Blocked.congr (h : Stores levels size P inner) {v v' : Mem K} {a i m n : Nat}
    (hn : blockBase step size (rounds step levels) ≤ n)
    (hsame : ∀ x, a ≤ x → x < a + n → v' x = v x) (hv : Blocked step levels size P v a i m) :
    Blocked step levels size P v' a i m := by
  intro k hk b hb
  have hle := block_end_le size hk hb
  exact h.congr _ v v' _ _ _ (fun x _ hx => hsame x (by omega) (by omega)) (hv k hk b hb)

end Build

/-! ## Searching -/

/-- Descend from block to block; `inner level a` descends through the block at address `a`.  The
state is the address of the current block level and the node reached. -/
def searchBlocks (step levels : Nat) (size : Nat → Nat) (inner : Nat → Nat → Option Nat)
    (a : Nat) : Option Nat :=
  (repeatForM
    (fun k (s : Nat × Nat) => do
      let child ← inner (k * step) (s.1 + s.2 * size (k * step))
      return (s.1 + 2 ^ (k * step) * size (k * step),
        s.2 * 2 ^ blockDepth step levels (k * step) + child))
    (rounds step levels) (a, 0)).map Prod.snd

/-- If the inner search descends through its blocks, the outer one descends through its tree. -/
theorem searchBlocks_eq {K : Type*} [LinearOrder K] {L : Nat → K} {q : K} {step levels : Nat}
    {size : Nat → Nat} {inner : Nat → Nat → Option Nat} {a i m : Nat} (hstep : 0 < step)
    (hm : levels ≤ m)
    (h : ∀ k, k < rounds step levels → ∀ b, b < 2 ^ (k * step) →
      inner (k * step) (a + (blockBase step size k + b * size (k * step))) =
        some (descend L q (i + b * 2 ^ (m - k * step)) (m - k * step)
          (blockDepth step levels (k * step)))) :
    searchBlocks step levels size inner a = some (descend L q i m levels) := by
  suffices hrounds : ∀ n, n ≤ rounds step levels →
      repeatForM (fun k (s : Nat × Nat) => do
          let child ← inner (k * step) (s.1 + s.2 * size (k * step))
          return (s.1 + 2 ^ (k * step) * size (k * step),
            s.2 * 2 ^ blockDepth step levels (k * step) + child)) n (a, 0) =
        some (a + blockBase step size n, descend L q i m (min (n * step) levels)) by
    have hlast : min (rounds step levels * step) levels = levels := by
      have := (lt_rounds_iff hstep).not.1 (lt_irrefl (rounds step levels))
      omega
    rw [searchBlocks, hrounds _ le_rfl, hlast]
    rfl
  intro n
  induction n with
  | zero => intro _; simp [repeatForM, blockBase, descend]
  | succ n ih =>
      intro hn
      have hlevel : n * step < levels := (lt_rounds_iff hstep).1 hn
      have hmin : min (n * step) levels = n * step := by omega
      have hdepth : n * step + blockDepth step levels (n * step) ≤ m := by
        rw [blockDepth]
        omega
      have hinner := h n hn (descend L q i m (n * step)) (descend_lt i m _)
      rw [repeatForM, ih (by omega), hmin, min_succ_mul hlevel, descend_add _ hdepth]
      simp only [Option.bind_some, Option.bind_eq_bind, Nat.add_assoc, hinner, Option.pure_def,
        blockBase]

end BlockedTree
end TLI
