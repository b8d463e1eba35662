import TLI.Searches.Interpolation
import TLI.Simd

/-!
# LinearAVX — the vectorised linear search over `uint64_t` keys

`scan_avx` looks at sixteen elements per turn with four 32-byte loads and counts the lanes in which
the comparison holds.  It finds the keys through the address of the element, not through `at`: the
parameter `load` is what the 32 bytes behind an iterator hold.  Windows of fewer than sixteen
elements are left to `LinearSearch`.
-/

namespace TLI
namespace Searches

open PartitionPoint Simd

namespace LinearAVX

/-- The bits `res` of the four comparisons of one turn. -/
def turnMask (load : Int → List UInt64) (cmp : UInt64 → Bool) (it₀ it₁ it₂ it₃ : Int) : Nat :=
  let lanes := fun it => halves ((load it).map cmp)
  movemask (packs (packs (lanes it₀) (lanes it₁)) (packs (lanes it₂) (lanes it₃)))

/-- `while (i <= n)` with `n / 16` turns to go.  The result is `move_it`, and `res` after a break. -/
def scanLoop (direction : Bool) (load : Int → List UInt64) (cmp : UInt64 → Bool) :
    Nat → Int → Int × Option Nat
  | 0, move_it => (move_it, none)
  | turns + 1, move_it =>
      if direction then
        let res := turnMask load cmp move_it (move_it + 4) (move_it + 8) (move_it + 12)
        if res ≠ 0xffffffff then (move_it + 16, some res)
        else scanLoop direction load cmp turns (move_it + 16)
      else
        let res := turnMask load cmp (move_it - 4) (move_it - 8) (move_it - 12) (move_it - 16)
        if res ≠ 0xffffffff then (move_it - 16, some res)
        else scanLoop direction load cmp turns (move_it - 16)

def scan_avx (direction : Bool) (func_search : Int → Int → Int → Int) (load : Int → List UInt64)
    (cmp : UInt64 → Bool) (move_it end_ : Int) : Int :=
  let n := (if direction then end_ - move_it else move_it - end_).toNat
  match scanLoop direction load cmp (n / 16) move_it with
  | (it, some res) =>
      let delta := 16 - popcount res / 2
      if direction then it - delta else it + delta
  | (it, none) => if direction then func_search it end_ it else func_search end_ it it

def lower_bound (load : Int → List UInt64) (less : UInt64 → UInt64 → Bool) (at_ : Int → UInt64)
    (lookup_key : UInt64) (first last start : Int) : Int :=
  if first = last then first
  else if start ≠ last ∧ at_ start < lookup_key then
    scan_avx true (LinearSearch.lower_bound less at_ lookup_key) load
      (fun lane => cmplt_epu64 lane lookup_key) (start + 1) last
  else
    scan_avx false (LinearSearch.lower_bound less at_ lookup_key) load
      (fun lane => cmpge_epu64 lane lookup_key) start first

/-! ## Short windows -/

variable {load : Int → List UInt64} {at_ : Int → UInt64} {lookup_key : UInt64}
  {first last start : Int} {func_search : Int → Int → Int → Int} {cmp : UInt64 → Bool}

theorem scan_avx_up_short (h : last - start < 16) :
    scan_avx true func_search load cmp start last = func_search start last start := by
  have hturns : (last - start).toNat / 16 = 0 := by omega
  simp [scan_avx, hturns, scanLoop]

theorem scan_avx_down_short (h : start - first < 16) :
    scan_avx false func_search load cmp start first = func_search first start start := by
  have hturns : (start - first).toNat / 16 = 0 := by omega
  simp [scan_avx, hturns, scanLoop]

/-- With fewer than sixteen elements on either side of the start no vector is loaded. -/
theorem lower_bound_boundary (hsort : Ascending at_ first last) (hfirst : first ≤ start)
    (hlast : start ≤ last) (hup : last - (start + 1) < 16) (hdown : start - first < 16) :
    Boundary (beforeLower defaultLess at_ lookup_key) first last
      (lower_bound load defaultLess at_ lookup_key first last start) := by
  rw [lower_bound]
  by_cases hempty : first = last
  · subst hempty
    simpa using Boundary.empty _ first
  rw [if_neg hempty]
  by_cases hstart : start ≠ last ∧ at_ start < lookup_key
  · have hlt : start < last := lt_of_le_of_ne hlast hstart.1
    rw [if_pos hstart, scan_avx_up_short hup]
    refine hsort.splits.boundary_right ((before_iff start).2 hstart.2) hfirst ?_
    exact LinearSearch.bound_boundary (hsort.mono (by omega) (le_refl last)).splits (le_refl _)
      (by omega)
  · rw [if_neg hstart, scan_avx_down_short hdown]
    refine hsort.splits.boundary_left ?_ hlast (LinearSearch.bound_boundary
      (hsort.mono (le_refl first) hlast).splits hfirst (le_refl start))
    by_cases heq : start = last
    · exact .inl heq
    · exact .inr ((not_before_iff start).2 (not_lt.1 fun hlt => hstart ⟨heq, hlt⟩))

/-! ## One full turn over records -/

/-- Eight of the sixteen lanes of a turn hold keys; if the comparison holds in the other eight and
not in these, the turn ends the loop in its middle. -/
theorem turnMask_records {it₀ it₁ it₂ it₃ : Int} {a b : Bool} (hab : a ≠ b)
    (h₀ : (load it₀).map cmp = [a, b, a, b]) (h₁ : (load it₁).map cmp = [a, b, a, b])
    (h₂ : (load it₂).map cmp = [a, b, a, b]) (h₃ : (load it₃).map cmp = [a, b, a, b]) :
    turnMask load cmp it₀ it₁ it₂ it₃ ≠ 0xffffffff ∧
      popcount (turnMask load cmp it₀ it₁ it₂ it₃) = 16 := by
  rw [turnMask]
  simp only [h₀, h₁, h₂, h₃]
  cases a <;> cases b
  · exact absurd rfl hab
  · decide +kernel
  · decide +kernel
  · exact absurd rfl hab

theorem scan_avx_up_break {move_it : Int} {a b : Bool} (hlong : 16 ≤ last - move_it) (hab : a ≠ b)
    (h₀ : (load move_it).map cmp = [a, b, a, b]) (h₁ : (load (move_it + 4)).map cmp = [a, b, a, b])
    (h₂ : (load (move_it + 8)).map cmp = [a, b, a, b])
    (h₃ : (load (move_it + 12)).map cmp = [a, b, a, b]) :
    scan_avx true func_search load cmp move_it last = move_it + 8 := by
  obtain ⟨turns, hturns⟩ : ∃ turns, (last - move_it).toNat / 16 = turns + 1 :=
    ⟨(last - move_it).toNat / 16 - 1, by omega⟩
  have hmask := turnMask_records hab h₀ h₁ h₂ h₃
  simp only [scan_avx, if_true, hturns, scanLoop, hmask.1, ne_eq, not_false_eq_true, hmask.2]
  omega

theorem scan_avx_down_break {move_it : Int} {a b : Bool} (hlong : 16 ≤ move_it - first)
    (hab : a ≠ b) (h₀ : (load (move_it - 4)).map cmp = [a, b, a, b])
    (h₁ : (load (move_it - 8)).map cmp = [a, b, a, b])
    (h₂ : (load (move_it - 12)).map cmp = [a, b, a, b])
    (h₃ : (load (move_it - 16)).map cmp = [a, b, a, b]) :
    scan_avx false func_search load cmp move_it first = move_it - 8 := by
  obtain ⟨turns, hturns⟩ : ∃ turns, (move_it - first).toNat / 16 = turns + 1 :=
    ⟨(move_it - first).toNat / 16 - 1, by omega⟩
  have hmask := turnMask_records hab h₀ h₁ h₂ h₃
  simp only [scan_avx, Bool.false_eq_true, if_false, hturns, scanLoop, hmask.1, ne_eq,
    not_false_eq_true, if_true, hmask.2]
  omega

end LinearAVX

end Searches
end TLI
