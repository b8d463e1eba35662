import Mathlib.Algebra.Order.Field.Rat
import Mathlib.Algebra.Order.Floor.Ring
import Mathlib.Data.Rat.Floor
import TLI.Library.Fuel
import TLI.Library.MachineInt
import TLI.Searches.Comparator

/-!
# Interpolation — `InterpolationSearch`

Each turn probes the position that divides the window as the lookup key divides the interval of
keys.  The position is computed in `double`; all that matters is that it does not leave the window.
-/

namespace TLI
namespace Searches

open PartitionPoint

/-- Rounding to `double`: monotone, and exact on the integers of up to 53 bits. -/
structure DoubleRounding where
  round : ℚ → ℚ
  mono : Monotone round
  exact : ∀ m : ℕ, m ≤ 2 ^ 53 → round m = m

/-- Arithmetic that happens not to round. -/
def DoubleRounding.unrounded : DoubleRounding where
  round := id
  mono := monotone_id
  exact _ _ := rfl

variable {at_ : Int → UInt64} {lookup_key : UInt64} {first last start : Int}

/-- The window `[first, last)` is sorted under `operator<`. -/
def Ascending (at_ : Int → UInt64) (first last : Int) : Prop :=
  ∀ i j, first ≤ i → i ≤ j → j < last → at_ i ≤ at_ j

theorem Ascending.mono {l r : Int} (h : Ascending at_ first last) (hl : first ≤ l)
    (hr : r ≤ last) : Ascending at_ l r :=
  fun i j hi hij hj => h i j (hl.trans hi) hij (lt_of_lt_of_le hj hr)

theorem Ascending.splits (h : Ascending at_ first last) :
    Splits (beforeLower defaultLess at_ lookup_key) first last := by
  intro i j hi hij hj hb
  simp only [beforeLower, defaultLess, decide_eq_true_iff] at hb ⊢
  exact lt_of_le_of_lt (h i j hi hij hj) hb

theorem before_iff (i : Int) :
    beforeLower defaultLess at_ lookup_key i = true ↔ at_ i < lookup_key := by
  rw [beforeLower, defaultLess, decide_eq_true_iff]

theorem not_before_iff (i : Int) :
    beforeLower defaultLess at_ lookup_key i = false ↔ lookup_key ≤ at_ i := by
  rw [beforeLower, defaultLess, decide_eq_false_iff_not, not_lt]

namespace InterpolationSearch

/-- `rel_position * std::distance(first, last)`, truncated, with
`rel_position = (double)(lookup_key - at(first)) / (double)(at(last) - at(first))`. -/
def mid_offset (D : DoubleRounding) (at_first at_last lookup_key : UInt64) (distance : Nat) : Nat :=
  let rel_position :=
    D.round (D.round (lookup_key - at_first).toNat / D.round (at_last - at_first).toNat)
  ⌊D.round (rel_position * D.round distance)⌋.toNat

/-- `while (mid != first && at(mid) == lookup_key) --mid;` with `n` positions down to `first`. -/
def scanBack (at_ : Int → UInt64) (lookup_key : UInt64) : Nat → Int → Int
  | 0, mid => mid
  | n + 1, mid => if at_ mid = lookup_key then scanBack at_ lookup_key n (mid - 1) else mid

/-- The loop of `lower_bound_`; `last` is the last position of the window. -/
def lowerLoop (D : DoubleRounding) (at_ : Int → UInt64) (lookup_key : UInt64) :
    Nat → Int → Int → Option Int
  | 0, _, _ => none
  | fuel + 1, first, last =>
      if at_ first < at_ last ∧ at_ first < lookup_key ∧ ¬ at_ last < lookup_key then
        let mid := first + mid_offset D (at_ first) (at_ last) lookup_key (last - first).toNat
        if at_ mid < lookup_key then lowerLoop D at_ lookup_key fuel (mid + 1) last
        else if lookup_key < at_ mid then lowerLoop D at_ lookup_key fuel first (mid - 1)
        else
          let mid := scanBack at_ lookup_key (mid - first).toNat mid
          some (if at_ mid < lookup_key then mid + 1 else mid)
      else some (if ¬ at_ first < lookup_key then first else last + 1)

def lower_bound_ (D : DoubleRounding) (at_ : Int → UInt64) (lookup_key : UInt64) (fuel : Nat)
    (first last : Int) : Option Int :=
  if first = last then some first else lowerLoop D at_ lookup_key fuel first (last - 1)

def lower_bound (D : DoubleRounding) (at_ : Int → UInt64) (lookup_key : UInt64) (fuel : Nat)
    (first last start : Int) : Option Int :=
  if start ≠ last ∧ at_ start < lookup_key then
    lower_bound_ D at_ lookup_key fuel (start + 1) last
  else lower_bound_ D at_ lookup_key fuel first start

/-! ## The probe stays inside the window -/

theorem mid_offset_le (D : DoubleRounding) {at_first at_last lookup_key : UInt64} {distance : Nat}
    (hlt : at_first < at_last) (hfirst : at_first ≤ lookup_key) (hlast : lookup_key ≤ at_last)
    (hdistance : distance ≤ 2 ^ 53) :
    mid_offset D at_first at_last lookup_key distance ≤ distance := by
  have hsub : (lookup_key - at_first).toNat ≤ (at_last - at_first).toNat := by
    rw [UInt64.toNat_sub_of_le _ _ hfirst, UInt64.toNat_sub_of_le _ _ hlt.le]
    exact Nat.sub_le_sub_right hlast _
  have hpos : 1 ≤ (at_last - at_first).toNat := by
    rw [UInt64.toNat_sub_of_le _ _ hlt.le]
    exact Nat.sub_pos_of_lt hlt
  have hone : D.round (1 : ℕ) = 1 := by
    rw [D.exact 1 (by decide)]
    exact Nat.cast_one
  have hden : (0 : ℚ) < D.round (at_last - at_first).toNat := by
    have hmono := D.mono (Nat.cast_le.2 hpos : ((1 : ℕ) : ℚ) ≤ (at_last - at_first).toNat)
    rw [hone] at hmono
    exact lt_of_lt_of_le one_pos hmono
  have hnum := D.mono (Nat.cast_le.2 hsub :
    ((lookup_key - at_first).toNat : ℚ) ≤ (at_last - at_first).toNat)
  -- Rounding is monotone and keeps one.
  have hratio : D.round (D.round (lookup_key - at_first).toNat /
      D.round (at_last - at_first).toNat) ≤ 1 := by
    calc
      _ ≤ D.round (1 : ℕ) := D.mono (by rw [Nat.cast_one]; exact (div_le_one hden).2 hnum)
      _ = 1 := hone
  have hprod : D.round (D.round (D.round (lookup_key - at_first).toNat /
      D.round (at_last - at_first).toNat) * D.round distance) ≤ distance := by
    have hnonneg : (0 : ℚ) ≤ D.round distance := by
      rw [D.exact distance hdistance]
      exact Nat.cast_nonneg distance
    calc
      _ ≤ D.round (distance : ℕ) := by
        refine D.mono ?_
        have hmul := mul_le_mul_of_nonneg_right hratio hnonneg
        rw [one_mul] at hmul
        exact hmul.trans_eq (D.exact distance hdistance)
      _ = distance := D.exact distance hdistance
  rw [mid_offset, Int.toNat_le]
  exact_mod_cast (Int.floor_le _).trans hprod

/-! ## The loop finds the lower bound -/

/-- Among equal keys the search steps back to the first one. -/
theorem scanBack_boundary (n : Nat) :
    ∀ mid, Ascending at_ (mid - n) (mid + 1) → at_ mid = lookup_key →
      at_ (mid - n) < lookup_key →
        Boundary (beforeLower defaultLess at_ lookup_key) (mid - n) (mid + 1)
          (if at_ (scanBack at_ lookup_key n mid) < lookup_key
            then scanBack at_ lookup_key n mid + 1 else scanBack at_ lookup_key n mid) := by
  induction n with
  | zero =>
      intro mid _ hmid hfirst
      have hsame : at_ (mid - (0 : Nat)) = lookup_key := by simpa using hmid
      exact absurd hfirst (by rw [hsame]; exact lt_irrefl _)
  | succ n ih =>
      intro mid hsort hmid hfirst
      have hbase : mid - 1 - (n : Int) = mid - (n + 1 : Nat) := by omega
      rw [scanBack, if_pos hmid]
      have hprev : at_ (mid - 1) ≤ lookup_key := by
        rw [← hmid]
        exact hsort (mid - 1) mid (by omega) (by omega) (by omega)
      have hmid' : beforeLower defaultLess at_ lookup_key mid = false :=
        (not_before_iff mid).2 hmid.ge
      rcases lt_or_eq_of_le hprev with hlt | heq
      · -- The key in front of `mid` is smaller, so `mid` is the first of the equal ones.
        have hstay : scanBack at_ lookup_key n (mid - 1) = mid - 1 := by
          cases n with
          | zero => rfl
          | succ n => rw [scanBack, if_neg hlt.ne]
        rw [hstay, if_pos hlt, Int.sub_add_cancel]
        refine hsort.splits.boundary_left (.inr hmid') (by omega) ?_
        refine (hsort.mono (le_refl _) (by omega)).splits.boundary_right ((before_iff _).2 hlt)
          (by omega) ?_
        rw [Int.sub_add_cancel]
        exact .empty _ mid
      · rw [← hbase] at hsort hfirst ⊢
        have hrest := ih (mid - 1) (hsort.mono (le_refl _) (by omega)) heq hfirst
        rw [Int.sub_add_cancel] at hrest
        exact hsort.splits.boundary_left (.inr hmid') (by omega) hrest

theorem lowerLoop_boundary (D : DoubleRounding) (lookup_key : UInt64) (fuel : Nat) :
    ∀ first last, Ascending at_ first (last + 1) → first ≤ last → (last - first).toNat ≤ 2 ^ 53 →
      (last - first).toNat < fuel →
        ∃ t, lowerLoop D at_ lookup_key fuel first last = some t ∧
          Boundary (beforeLower defaultLess at_ lookup_key) first (last + 1) t := by
  induction fuel with
  | zero =>
      intro first last _ _ _ hfuel
      exact absurd hfuel (Nat.not_lt_zero _)
  | succ fuel ih =>
      intro first last hsort hle hsize hfuel
      rw [lowerLoop]
      by_cases hloop : at_ first < at_ last ∧ at_ first < lookup_key ∧ ¬ at_ last < lookup_key
      · rw [if_pos hloop]
        rcases hloop with ⟨hends, hfirst, hlast⟩
        have hoffset := mid_offset_le D hends hfirst.le (not_lt.1 hlast) hsize
        generalize mid_offset D _ _ _ _ = offset at hoffset
        simp only
        generalize hmid : first + (offset : Int) = mid
        have hrange : first ≤ mid ∧ mid ≤ last := by omega
        by_cases hlow : at_ mid < lookup_key
        · have hne : mid ≠ last := fun heq => hlast (heq ▸ hlow)
          rcases ih (mid + 1) last (hsort.mono (by omega) (le_refl _)) (by omega) (by omega)
            (by omega) with ⟨t, ht, hb⟩
          refine ⟨t, by rw [if_pos hlow, ht], ?_⟩
          exact hsort.splits.boundary_right ((before_iff mid).2 hlow) hrange.1 hb
        · rw [if_neg hlow]
          by_cases hhigh : lookup_key < at_ mid
          · have hne : first ≠ mid := fun heq => hlow (heq ▸ hfirst)
            rcases ih first (mid - 1) (hsort.mono (le_refl _) (by omega)) (by omega) (by omega)
              (by omega) with ⟨t, ht, hb⟩
            refine ⟨t, by rw [if_pos hhigh, ht], ?_⟩
            rw [Int.sub_add_cancel] at hb
            exact hsort.splits.boundary_left (.inr ((not_before_iff mid).2 hhigh.le)) (by omega) hb
          · have heq : at_ mid = lookup_key := le_antisymm (not_lt.1 hhigh) (not_lt.1 hlow)
            rw [if_neg hhigh]
            refine ⟨_, rfl, ?_⟩
            have hbase : mid - ((mid - first).toNat : Int) = first := by omega
            have hback := scanBack_boundary (mid - first).toNat mid
              (by rw [hbase]; exact hsort.mono (le_refl _) (by omega)) heq (by rwa [hbase])
            rw [hbase] at hback
            by_cases hend : mid = last
            · rwa [hend] at hback ⊢
            · have hnext : beforeLower defaultLess at_ lookup_key (mid + 1) = false := by
                refine (not_before_iff _).2 ?_
                rw [← heq]
                exact hsort mid (mid + 1) hrange.1 (by omega) (by omega)
              exact hsort.splits.boundary_left (.inr hnext) (by omega) hback
      · rw [if_neg hloop]
        refine ⟨_, rfl, ?_⟩
        by_cases hfirst : at_ first < lookup_key
        · -- The loop ended because the last key is smaller as well.
          have hlast : at_ last < lookup_key := by
            by_contra hnot
            exact hloop ⟨lt_of_lt_of_le hfirst (not_lt.1 hnot), hfirst, hnot⟩
          rw [if_neg (not_not.2 hfirst)]
          exact hsort.splits.boundary_right ((before_iff last).2 hlast) hle (.empty _ _)
        · rw [if_pos hfirst]
          exact hsort.splits.boundary_left (.inr ((not_before_iff first).2 (not_lt.1 hfirst)))
            (by omega) (.empty _ first)

theorem window_returns (D : DoubleRounding) (lookup_key : UInt64)
    (hsort : Ascending at_ first last) (hle : first ≤ last) (hsize : (last - first).toNat ≤ 2 ^ 53) :
    ∃ t, Returns (fun fuel => lower_bound_ D at_ lookup_key fuel first last) t ∧
      Boundary (beforeLower defaultLess at_ lookup_key) first last t := by
  by_cases hempty : first = last
  · subst hempty
    refine ⟨first, (Returns.const first).congr fun fuel => ?_, .empty _ first⟩
    rw [lower_bound_, if_pos rfl]
  · have hrun := fun fuel => lowerLoop_boundary D lookup_key fuel first (last - 1)
      (by rwa [Int.sub_add_cancel]) (by omega) (by omega)
    rw [Int.sub_add_cancel] at hrun
    rcases hrun ((last - first).toNat + 1) (by omega) with ⟨t, _, hb⟩
    refine ⟨t, ⟨(last - first).toNat + 1, fun fuel hfuel => ?_⟩, hb⟩
    rcases hrun fuel (by omega) with ⟨t', ht', hb'⟩
    change lower_bound_ D at_ lookup_key fuel first last = some t
    rw [lower_bound_, if_neg hempty, ht', hb'.unique hb]

theorem lower_bound_returns (D : DoubleRounding) (lookup_key : UInt64)
    (hsort : Ascending at_ first last) (hsize : (last - first).toNat ≤ 2 ^ 53)
    (hfirst : first ≤ start) (hlast : start ≤ last) :
    ∃ t, Returns (fun fuel => lower_bound D at_ lookup_key fuel first last start) t ∧
      Boundary (beforeLower defaultLess at_ lookup_key) first last t := by
  by_cases hstart : start ≠ last ∧ at_ start < lookup_key
  · have hlt : start < last := lt_of_le_of_ne hlast hstart.1
    rcases window_returns D lookup_key (hsort.mono (l := start + 1) (by omega)
      (le_refl last)) (by omega) (by omega) with ⟨t, ht, hb⟩
    refine ⟨t, ht.congr fun fuel => by rw [lower_bound, if_pos hstart], ?_⟩
    exact hsort.splits.boundary_right ((before_iff start).2 hstart.2) hfirst hb
  · rcases window_returns D lookup_key (hsort.mono (le_refl first) hlast) hfirst
      (by omega) with ⟨t, ht, hb⟩
    refine ⟨t, ht.congr fun fuel => by rw [lower_bound, if_neg hstart], ?_⟩
    refine hsort.splits.boundary_left ?_ hlast hb
    by_cases heq : start = last
    · exact .inl heq
    · exact .inr ((not_before_iff start).2 (not_lt.1 fun hlt => hstart ⟨heq, hlt⟩))

end InterpolationSearch

end Searches
end TLI
