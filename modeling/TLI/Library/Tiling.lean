import Mathlib.Algebra.GroupWithZero.Nat
import Mathlib.Data.List.Chain
import Mathlib.Data.List.TakeWhile

/-!
# Tiling — intervals that follow one another, and sequences of two kinds in runs

`Tiles a ws b` says that the half-open intervals `ws` follow one another without gap or overlap from
`a` to `b`.  Consecutive windows of a vector are such a tiling, and so are buffers laid out one
behind the other.

`Runs n ks` says that the Booleans `ks` are at most `n` times a run of `true` and a run of `false`,
any of which may be empty.
-/

namespace TLI
namespace Tiling

/-! ## Intervals -/

/-- The intervals lead from the first bound to the second. -/
inductive Tiles : Nat → List (Nat × Nat) → Nat → Prop
  | nil (a : Nat) : Tiles a [] a
  | cons {a m b : Nat} {ws : List (Nat × Nat)} (hle : a ≤ m) (hrest : Tiles m ws b) :
      Tiles a ((a, m) :: ws) b

/-- The positions of an interval, in order. -/
def positions (w : Nat × Nat) : List Nat :=
  List.range' w.1 (w.2 - w.1)

theorem mem_positions {w : Nat × Nat} {x : Nat} : x ∈ positions w ↔ w.1 ≤ x ∧ x < w.2 := by
  rw [positions, List.mem_range'_1]
  omega

namespace Tiles

variable {a b : Nat} {ws : List (Nat × Nat)}

theorem le (h : Tiles a ws b) : a ≤ b := by
  induction h with
  | nil a => exact le_refl a
  | cons hle _ ih => exact hle.trans ih

/-- Read one after the other, the intervals give every position once and in order. -/
theorem flatMap_positions (h : Tiles a ws b) : ws.flatMap positions = List.range' a (b - a) := by
  induction h with
  | nil a => simp
  | @cons a m b ws hle hrest ih =>
      have hrest := hrest.le
      calc ((a, m) :: ws).flatMap positions
          = List.range' a (m - a) ++ List.range' m (b - m) := by
            rw [List.flatMap_cons, ih, positions]
        _ = List.range' a (m - a) ++ List.range' (a + (m - a)) (b - m) := by
            rw [Nat.add_sub_cancel' hle]
        _ = List.range' a (b - a) := by
            rw [List.range'_append_1]
            congr 1
            omega

theorem bounds (h : Tiles a ws b) : ∀ w ∈ ws, a ≤ w.1 ∧ w.1 ≤ w.2 ∧ w.2 ≤ b := by
  induction h with
  | nil a => simp
  | cons hle hrest ih =>
      intro w hw
      rcases List.mem_cons.1 hw with rfl | hw
      · exact ⟨le_refl _, hle, hrest.le⟩
      · obtain ⟨hfirst, hw', hlast⟩ := ih w hw
        exact ⟨hle.trans hfirst, hw', hlast⟩

/-- No two intervals share a position. -/
theorem pairwise_disjoint (h : Tiles a ws b) : (ws.map positions).Pairwise List.Disjoint := by
  induction h with
  | nil a => exact List.Pairwise.nil
  | cons hle hrest ih =>
      refine List.Pairwise.cons ?_ ih
      intro ps hps x hx hx'
      obtain ⟨w, hw, rfl⟩ := List.mem_map.1 hps
      have hfirst := (hrest.bounds w hw).1
      exact absurd ((mem_positions.1 hx').1) (not_le.2 ((mem_positions.1 hx).2.trans_le hfirst))

/-- The lengths add up. -/
theorem sum_lengths (h : Tiles a ws b) : (ws.map fun w => w.2 - w.1).sum = b - a := by
  induction h with
  | nil a => simp
  | cons hle hrest ih =>
      have hrest := hrest.le
      rw [List.map_cons, List.sum_cons, ih]
      omega

end Tiles

/-- Neighbouring bounds of a nondecreasing sequence. -/
theorem tiles_zip {a : Nat} {bs : List Nat} (h : (a :: bs).IsChain (· ≤ ·)) :
    Tiles a ((a :: bs).zip bs) ((a :: bs).getLast (List.cons_ne_nil a bs)) := by
  induction bs generalizing a with
  | nil => exact Tiles.nil a
  | cons m bs ih =>
      have hcons := List.isChain_cons_cons.1 h
      rw [List.getLast_cons (List.cons_ne_nil m bs)]
      exact Tiles.cons hcons.1 (ih hcons.2)

/-! ## Runs of two kinds -/

/-- At most `n` times a run of `true` and then a run of `false`. -/
def Runs : Nat → List Bool → Prop
  | 0, ks => ks = []
  | n + 1, ks => Runs n ((ks.dropWhile id).dropWhile not)

theorem dropWhile_suffix_dropWhile {α : Type*} (p : α → Bool) {xs ys : List α} (h : xs <:+ ys) :
    xs.dropWhile p <:+ ys.dropWhile p := by
  induction ys with
  | nil =>
      obtain rfl := List.suffix_nil.1 h
      exact List.suffix_refl _
  | cons y ys ih =>
      rcases List.suffix_cons_iff.1 h with rfl | h
      · exact List.suffix_refl _
      · rw [List.dropWhile_cons]
        split
        · exact ih h
        · exact (List.dropWhile_suffix p).trans (h.trans (List.suffix_cons y ys))

theorem Runs.suffix : ∀ {n : Nat} {ks ks' : List Bool}, Runs n ks' → ks <:+ ks' → Runs n ks
  | 0, ks, ks', h, hsuffix => by
      subst h
      exact List.suffix_nil.1 hsuffix
  | n + 1, _, _, h, hsuffix => by
      have hdrop := dropWhile_suffix_dropWhile not (dropWhile_suffix_dropWhile id hsuffix)
      exact Runs.suffix (n := n) h hdrop

/-- One run of each kind in front. -/
theorem Runs.block {n : Nat} {ks : List Bool} (h : Runs n ks) (a b : Nat) :
    Runs (n + 1) (List.replicate a true ++ List.replicate b false ++ ks) := by
  refine h.suffix ?_
  rw [List.append_assoc, List.dropWhile_append_of_pos (by simp)]
  cases b with
  | zero => exact (List.dropWhile_suffix not).trans (List.dropWhile_suffix id)
  | succ b =>
      rw [List.replicate_succ, List.cons_append, List.dropWhile_cons_of_neg (by simp),
        List.dropWhile_cons_of_pos (by simp), List.dropWhile_append_of_pos (by simp)]
      exact List.dropWhile_suffix not

/-- A run of `true` in front joins the first one. -/
theorem Runs.prepend {n : Nat} {ks : List Bool} (h : Runs (n + 1) ks) (a : Nat) :
    Runs (n + 1) (List.replicate a true ++ ks) := by
  rw [Runs, List.dropWhile_append_of_pos (by simp)]
  exact h

/-- `n` times a run of `true` and then a run of `false`, none of which is empty. -/
def FullRuns : Nat → List Bool → Prop
  | 0, _ => True
  | n + 1, ks => ks.head? = some true ∧ (ks.dropWhile id).head? = some false ∧
      FullRuns n ((ks.dropWhile id).dropWhile not)

/-- There are no more runs than that. -/
theorem Runs.not_fullRuns {n : Nat} : ∀ {ks : List Bool}, Runs n ks → ¬ FullRuns (n + 1) ks := by
  induction n with
  | zero =>
      rintro ks rfl ⟨hhead, -⟩
      cases hhead
  | succ n ih => exact fun h hfull => ih h hfull.2.2

theorem dropWhile_replicate_true (a : Nat) (ks : List Bool) :
    (List.replicate a true ++ ks).dropWhile id = ks.dropWhile id :=
  List.dropWhile_append_of_pos (by simp)

/-- With one run of each kind in front, there is one more. -/
theorem fullRuns_block_iff {n a b : Nat} {ks : List Bool} (h : Runs n ks) :
    FullRuns (n + 1) (List.replicate a true ++ List.replicate b false ++ ks) ↔
      0 < a ∧ 0 < b ∧ FullRuns n ks := by
  rw [List.append_assoc]
  cases b with
  | zero =>
      -- The inserts in front join the first run behind them, if there is one.
      refine ⟨fun hfull => absurd hfull ?_, fun hfull => absurd hfull.2.1 (lt_irrefl 0)⟩
      rw [List.replicate_zero, List.nil_append]
      cases n with
      | zero =>
          rw [show ks = [] from h, List.append_nil]
          rintro ⟨-, hfalse, -⟩
          have hnil := dropWhile_replicate_true a []
          rw [List.append_nil] at hnil
          rw [hnil] at hfalse
          cases hfalse
      | succ n => exact (h.prepend a).not_fullRuns
  | succ b =>
      have hdrop : (List.replicate a true ++ (List.replicate (b + 1) false ++ ks)).dropWhile id =
          List.replicate (b + 1) false ++ ks := by
        rw [dropWhile_replicate_true, List.replicate_succ, List.cons_append,
          List.dropWhile_cons_of_neg (by simp)]
      have hrest : (List.replicate (b + 1) false ++ ks).dropWhile not = ks.dropWhile not :=
        List.dropWhile_append_of_pos (by simp)
      rw [FullRuns, hdrop, hrest]
      have hhead : (List.replicate a true ++ (List.replicate (b + 1) false ++ ks)).head? =
          some true ↔ 0 < a := by
        cases a with
        | zero => simp [List.replicate_succ]
        | succ a => simp [List.replicate_succ]
      rw [hhead]
      have htail : FullRuns n (ks.dropWhile not) ↔ FullRuns n ks := by
        cases n with
        | zero => exact Iff.rfl
        | succ n =>
            cases ks with
            | nil => exact Iff.rfl
            | cons k ks =>
                cases k with
                | true => exact Iff.rfl
                | false =>
                    refine ⟨fun hfull => ?_, fun hfull => nomatch hfull.1⟩
                    exact absurd hfull (Runs.not_fullRuns h)
      rw [htail]
      constructor
      · exact fun hfull => ⟨hfull.1, Nat.succ_pos b, hfull.2.2⟩
      · exact fun hfull => ⟨hfull.1, by simp [List.replicate_succ], hfull.2.2⟩

end Tiling
end TLI
