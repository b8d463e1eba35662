import TLI.Searches.Dereference
import TLI.Searches.LinearAVX

/-!
# VectorScan — `LinearAVX` for both key widths, in memory that ends with the window

A turn loads four vectors.  Packing their comparison masks permutes the lanes, which does not matter
for the number of lanes that hold; in a sorted block that number is the distance of the boundary
from one end of the block.  The checked search loads whole vectors from the window only.
-/

namespace TLI
namespace Searches

open List PartitionPoint Simd

namespace LinearAVX

/-- How 256 bits hold keys: their number, and how many 32-bit lanes each of them takes. -/
structure Shape where
  keys : Nat
  parts : Nat
  fills : keys * parts = 8

/-- Vectors of `uint32_t`. -/
def epi32 : Shape := ⟨8, 1, rfl⟩

/-- Vectors of `uint64_t`. -/
def epi64 : Shape := ⟨4, 2, rfl⟩

/-- The keys that one turn compares. -/
def Shape.block (shape : Shape) : Nat :=
  4 * shape.keys

variable {K : Type*}

/-- The keys at `n` consecutive positions. -/
def keysAt (at_ : Int → K) (it : Int) (n : Nat) : List K :=
  (range n).map fun (i : Nat) => at_ (it + i)

/-- `_mm256_loadu_si256((__m256i *)(&*it))` where only the window may be loaded. -/
def loadu? (shape : Shape) (at_ : Int → K) (first last it : Int) : Option (List K) :=
  if first ≤ it ∧ it + shape.keys ≤ last then some (keysAt at_ it shape.keys) else none

/-- The comparison mask of a vector as 32-bit lanes. -/
def lanes (shape : Shape) (cmp : K → Bool) (keys : List K) : List Bool :=
  keys.flatMap fun key => replicate shape.parts (cmp key)

/-- `res` of one turn. -/
def turnMask? (shape : Shape) (load? : Int → Option (List K)) (cmp : K → Bool)
    (it₀ it₁ it₂ it₃ : Int) : Option Nat :=
  (load? it₀).bind fun v₀ => (load? it₁).bind fun v₁ =>
    (load? it₂).bind fun v₂ => (load? it₃).map fun v₃ =>
      movemask (packs (packs (lanes shape cmp v₀) (lanes shape cmp v₁))
        (packs (lanes shape cmp v₂) (lanes shape cmp v₃)))

/-- `while (i <= n)`; the result is `move_it`, and `res` after a break. -/
def scanLoop? (shape : Shape) (direction : Bool) (load? : Int → Option (List K)) (cmp : K → Bool) :
    Nat → Int → Option (Int × Option Nat)
  | 0, move_it => some (move_it, none)
  | turns + 1, move_it =>
      let keys : Int := shape.keys
      if direction then
        (turnMask? shape load? cmp move_it (move_it + keys) (move_it + 2 * keys)
            (move_it + 3 * keys)).bind fun res =>
          if res ≠ 0xffffffff then some (move_it + 4 * keys, some res)
          else scanLoop? shape direction load? cmp turns (move_it + 4 * keys)
      else
        (turnMask? shape load? cmp (move_it - keys) (move_it - 2 * keys) (move_it - 3 * keys)
            (move_it - 4 * keys)).bind fun res =>
          if res ≠ 0xffffffff then some (move_it - 4 * keys, some res)
          else scanLoop? shape direction load? cmp turns (move_it - 4 * keys)

/-- What follows the loop: the cursor is corrected, or the rest is searched. -/
def finish? (shape : Shape) (direction : Bool) (func_search? : Int → Int → Int → Option Int)
    (end_ : Int) (result : Int × Option Nat) : Option Int :=
  match result.2 with
  | some res =>
      let delta := shape.block - popcount res / shape.parts
      some (if direction then result.1 - delta else result.1 + delta)
  | none =>
      if direction then func_search? result.1 end_ result.1
      else func_search? end_ result.1 result.1

def scan_avx? (shape : Shape) (direction : Bool) (func_search? : Int → Int → Int → Option Int)
    (load? : Int → Option (List K)) (cmp : K → Bool) (move_it end_ : Int) : Option Int :=
  let n := (if direction then end_ - move_it else move_it - end_).toNat
  (scanLoop? shape direction load? cmp (n / shape.block) move_it).bind
    (finish? shape direction func_search? end_)

/-- Both searches: `before` is the scalar test of the start, `cmpUp` and `cmpDown` are the vector
comparisons with the lookup key on either side of it. -/
def bound? (shape : Shape) (before cmpUp cmpDown : K → Bool)
    (func_search? : Int → Int → Int → Option Int) (load? : Int → Option (List K))
    (at_ : Int → Option K) (first last start : Int) : Option Int :=
  if first = last then some first
  else if start = last then scan_avx? shape false func_search? load? cmpDown start first
  else
    (at_ start).bind fun key =>
      if before key then scan_avx? shape true func_search? load? cmpUp (start + 1) last
      else scan_avx? shape false func_search? load? cmpDown start first

/-- `LinearAVX<uint32_t>::lower_bound` -/
def lower_bound_uint32? (at_ : Int → UInt32) (lookup_key : UInt32) (first last start : Int) :
    Option Int :=
  bound? epi32 (fun key => decide (key < lookup_key)) (fun lane => cmplt_epu32 lane lookup_key)
    (fun lane => cmpge_epu32 lane lookup_key)
    (LinearSearch.lower_bound? defaultLess (deref at_ first last) lookup_key)
    (loadu? epi32 at_ first last) (deref at_ first last) first last start

/-- `LinearAVX<uint32_t>::upper_bound` -/
def upper_bound_uint32? (at_ : Int → UInt32) (lookup_key : UInt32) (first last start : Int) :
    Option Int :=
  bound? epi32 (fun key => !decide (lookup_key < key)) (fun lane => cmple_epu32 lane lookup_key)
    (fun lane => cmpgt_epu32 lane lookup_key)
    (LinearSearch.upper_bound? defaultLess (deref at_ first last) lookup_key)
    (loadu? epi32 at_ first last) (deref at_ first last) first last start

/-- `LinearAVX<uint64_t>::lower_bound` -/
def lower_bound_uint64? (at_ : Int → UInt64) (lookup_key : UInt64) (first last start : Int) :
    Option Int :=
  bound? epi64 (fun key => decide (key < lookup_key)) (fun lane => cmplt_epu64 lane lookup_key)
    (fun lane => cmpge_epu64 lane lookup_key)
    (LinearSearch.lower_bound? defaultLess (deref at_ first last) lookup_key)
    (loadu? epi64 at_ first last) (deref at_ first last) first last start

/-- `LinearAVX<uint64_t>::upper_bound` -/
def upper_bound_uint64? (at_ : Int → UInt64) (lookup_key : UInt64) (first last start : Int) :
    Option Int :=
  bound? epi64 (fun key => !decide (lookup_key < key)) (fun lane => cmple_epu64 lane lookup_key)
    (fun lane => cmpgt_epu64 lane lookup_key)
    (LinearSearch.upper_bound? defaultLess (deref at_ first last) lookup_key)
    (loadu? epi64 at_ first last) (deref at_ first last) first last start

variable {shape : Shape} {at_ : Int → K} {cmp : K → Bool} {l r : Int}

/-! ## One turn -/

theorem Shape.parts_pos (shape : Shape) : 0 < shape.parts := by
  have hfills := shape.fills
  refine Nat.pos_of_ne_zero fun hzero => ?_
  rw [hzero, Nat.mul_zero] at hfills
  cases hfills

theorem Shape.keys_pos (shape : Shape) : 0 < shape.keys := by
  have hfills := shape.fills
  refine Nat.pos_of_ne_zero fun hzero => ?_
  rw [hzero, Nat.zero_mul] at hfills
  cases hfills

theorem length_keysAt (at_ : Int → K) (it : Int) (n : Nat) : (keysAt at_ it n).length = n := by
  rw [keysAt, length_map, length_range]

theorem keysAt_add (at_ : Int → K) (it : Int) (n m : Nat) :
    keysAt at_ it (n + m) = keysAt at_ it n ++ keysAt at_ (it + n) m := by
  rw [keysAt, keysAt, keysAt, range_add, map_append, map_map]
  congr 1
  refine map_congr_left fun i _ => ?_
  rw [Function.comp_apply, Nat.cast_add, Int.add_assoc]

theorem count_lanes (shape : Shape) (cmp : K → Bool) (keys : List K) :
    (lanes shape cmp keys).count true = shape.parts * keys.countP cmp := by
  induction keys with
  | nil => rfl
  | cons key keys ih =>
      rw [lanes, flatMap_cons, count_append, ← lanes, ih, countP_cons, count_replicate]
      cases cmp key with
      | true => simp [Nat.mul_add, Nat.add_comm]
      | false => simp

theorem length_lanes (shape : Shape) (cmp : K → Bool) (keys : List K) :
    (lanes shape cmp keys).length = keys.length * shape.parts := by
  rw [lanes, length_flatMap]
  simp

theorem lanes_epi64 (cmp : UInt64 → Bool) (keys : List UInt64) :
    lanes epi64 cmp keys = halves (keys.map cmp) := by
  rw [halves, flatMap_map]
  rfl

/-- The four vectors of a turn hold the keys of a block in some order of the vectors. -/
theorem turnMask_spec {load? : Int → Option (List K)} {it₀ it₁ it₂ it₃ : Int} {keys : List K}
    {v₀ v₁ v₂ v₃ : List K} (h₀ : load? it₀ = some v₀) (h₁ : load? it₁ = some v₁)
    (h₂ : load? it₂ = some v₂) (h₃ : load? it₃ = some v₃)
    (hperm : v₀ ++ v₁ ++ (v₂ ++ v₃) ~ keys) (hlength : keys.length = shape.block) :
    ∃ res, turnMask? shape load? cmp it₀ it₁ it₂ it₃ = some res ∧
      popcount res / shape.parts = keys.countP cmp ∧
      (res = 0xffffffff ↔ keys.countP cmp = shape.block) := by
  refine ⟨movemask (packs (packs (lanes shape cmp v₀) (lanes shape cmp v₁))
    (packs (lanes shape cmp v₂) (lanes shape cmp v₃))), by rw [turnMask?, h₀, h₁, h₂, h₃]; rfl, ?_⟩
  have hpacked : packs (packs (lanes shape cmp v₀) (lanes shape cmp v₁))
      (packs (lanes shape cmp v₂) (lanes shape cmp v₃)) ~ lanes shape cmp keys := by
    have hall : packs (packs (lanes shape cmp v₀) (lanes shape cmp v₁))
        (packs (lanes shape cmp v₂) (lanes shape cmp v₃)) ~
          lanes shape cmp (v₀ ++ v₁ ++ (v₂ ++ v₃)) := by
      rw [lanes, lanes, lanes, lanes, lanes, flatMap_append, flatMap_append, flatMap_append]
      exact (packs_perm _ _).trans ((packs_perm _ _).append (packs_perm _ _))
    exact hall.trans (hperm.flatMap_right _)
  generalize packs (packs (lanes shape cmp v₀) (lanes shape cmp v₁))
    (packs (lanes shape cmp v₂) (lanes shape cmp v₃)) = mask at hpacked
  have hcount : mask.count true = shape.parts * keys.countP cmp := by
    rw [hpacked.count_eq, count_lanes]
  have hbits : mask.length = 32 := by
    rw [hpacked.length_eq, length_lanes, hlength, Shape.block, Nat.mul_assoc, shape.fills]
  have hblock : shape.parts * shape.block = 32 := by
    rw [Shape.block, Nat.mul_left_comm, Nat.mul_comm shape.parts, shape.fills]
  refine ⟨?_, ?_⟩
  · rw [popcount_movemask hbits.le, hcount, Nat.mul_div_cancel_left _ shape.parts_pos]
  · have hfull := movemask_eq_full_iff mask
    rw [hcount, hbits] at hfull
    refine hfull.trans ?_
    rw [← hblock, Nat.mul_left_cancel_iff shape.parts_pos]

theorem loadu_eq {it : Int} (hl : l ≤ it) (hr : it + shape.keys ≤ r) :
    loadu? shape at_ l r it = some (keysAt at_ it shape.keys) :=
  if_pos ⟨hl, hr⟩

theorem countP_keysAt {test : Int → Bool} (hcmp : ∀ i, l ≤ i → i < r → cmp (at_ i) = test i)
    {it : Int} {n : Nat} (hl : l ≤ it) (hr : it + n ≤ r) :
    (keysAt at_ it n).countP cmp = (range n).countP fun (i : Nat) => test (it + i) := by
  rw [keysAt, countP_map]
  refine countP_congr fun i hi => ?_
  rw [mem_range] at hi
  rw [Function.comp_apply, hcmp _ (by omega) (by omega)]

theorem countP_not {α : Type*} (p : α → Bool) (xs : List α) :
    xs.countP (fun x => !p x) = xs.length - xs.countP p := by
  have hsum := length_eq_countP_add_countP p (l := xs)
  simp only [Bool.not_eq_true, Bool.decide_eq_false] at hsum
  omega

theorem turnMask_up (shape : Shape) (at_ : Int → K) (cmp : K → Bool) {it : Int} (hl : l ≤ it)
    (hr : it + shape.block ≤ r) :
    ∃ res, turnMask? shape (loadu? shape at_ l r) cmp it (it + shape.keys) (it + 2 * shape.keys)
        (it + 3 * shape.keys) = some res ∧
      popcount res / shape.parts = (keysAt at_ it shape.block).countP cmp ∧
      (res = 0xffffffff ↔ (keysAt at_ it shape.block).countP cmp = shape.block) := by
  have hblock : shape.block = shape.keys + shape.keys + (shape.keys + shape.keys) := by
    rw [Shape.block]
    omega
  have hr' : it + 4 * (shape.keys : Int) ≤ r := by omega
  refine turnMask_spec (loadu_eq hl (by omega)) (loadu_eq (by omega) (by omega))
    (loadu_eq (by omega) (by omega)) (loadu_eq (by omega) (by omega)) (.of_eq ?_)
    (length_keysAt _ _ _)
  rw [hblock, keysAt_add, keysAt_add, keysAt_add]
  congr 3 <;> omega

theorem turnMask_down (shape : Shape) (at_ : Int → K) (cmp : K → Bool) {it : Int}
    (hl : l ≤ it - shape.block) (hr : it ≤ r) :
    ∃ res, turnMask? shape (loadu? shape at_ l r) cmp (it - shape.keys) (it - 2 * shape.keys)
        (it - 3 * shape.keys) (it - 4 * shape.keys) = some res ∧
      popcount res / shape.parts = (keysAt at_ (it - shape.block) shape.block).countP cmp ∧
      (res = 0xffffffff ↔
        (keysAt at_ (it - shape.block) shape.block).countP cmp = shape.block) := by
  have hblock : shape.block = shape.keys + shape.keys + (shape.keys + shape.keys) := by
    rw [Shape.block]
    omega
  have hl' : l ≤ it - 4 * (shape.keys : Int) := by omega
  refine turnMask_spec (loadu_eq (by omega) (by omega)) (loadu_eq (by omega) (by omega))
    (loadu_eq (by omega) (by omega)) (loadu_eq hl' (by omega)) ?_ (length_keysAt _ _ _)
  have hkeys : keysAt at_ (it - shape.block) shape.block =
      keysAt at_ (it - 4 * shape.keys) shape.keys ++ keysAt at_ (it - 3 * shape.keys) shape.keys ++
        (keysAt at_ (it - 2 * shape.keys) shape.keys ++ keysAt at_ (it - shape.keys) shape.keys) := by
    rw [hblock, keysAt_add, keysAt_add, keysAt_add]
    congr 3 <;> omega
  rw [hkeys]
  exact perm_append_comm.trans (perm_append_comm.append perm_append_comm)

/-! ## The loop -/

section Loop

variable (shape) {before : Int → Bool} (hs : Splits before l r)
  (func_search? : Int → Int → Int → Option Int) {end_ : Int}

include hs

theorem scan_up_boundary (hcmp : ∀ i, l ≤ i → i < r → cmp (at_ i) = before i) (hend : end_ ≤ r)
    (hsearch : ∀ it, l ≤ it → it ≤ end_ →
      ∃ t, func_search? it end_ it = some t ∧ Boundary before it end_ t) (turns : Nat) :
    ∀ move_it, l ≤ move_it → move_it + (turns * shape.block : Nat) ≤ end_ →
      ∃ t, (scanLoop? shape true (loadu? shape at_ l r) cmp turns move_it).bind
          (finish? shape true func_search? end_) = some t ∧ Boundary before move_it end_ t := by
  induction turns with
  | zero =>
      intro move_it hl hr
      exact hsearch move_it hl (by omega)
  | succ turns ih =>
      intro move_it hl hr
      rw [Nat.succ_mul] at hr
      have hblock : (shape.block : Int) = 4 * shape.keys := by
        rw [Shape.block]
        omega
      have hinside := hs.mono hl hend
      obtain ⟨res, hres, hcount, hfull⟩ := turnMask_up shape at_ cmp hl
        (by omega : move_it + shape.block ≤ r)
      rw [countP_keysAt hcmp hl (by omega)] at hcount hfull
      have hturn : Splits before move_it (move_it + shape.block) := hs.mono hl (by omega)
      have hbound := hturn.boundary_count shape.block
      generalize (range shape.block).countP (fun (i : Nat) => before (move_it + i)) = c at *
      have hle : c ≤ shape.block := by simpa using hbound.le_last
      rw [scanLoop?, if_pos rfl, hres, Option.bind_some]
      -- A mask that is not full has found the boundary; a full one leaves it to the later turns.
      by_cases hbreak : res ≠ 0xffffffff
      · have hlt : c ≠ shape.block := fun heq => hbreak (hfull.2 heq)
        have hafter := hbound.not_before_of_le _ (le_refl _) (by omega)
        refine ⟨move_it + c, ?_, hinside.boundary_left (.inr hafter) (by omega) ?_⟩
        · rw [if_pos hbreak, Option.bind_some, finish?]
          simp only [hcount, if_true]
          congr 1
          omega
        · exact ⟨by omega, le_refl _, hbound.before_of_lt, fun i hi hlt => absurd hlt (not_lt.2 hi)⟩
      · obtain ⟨t, ht, hb⟩ := ih (move_it + 4 * shape.keys) (by omega) (by omega)
        rw [if_neg hbreak]
        refine ⟨t, ht, ?_⟩
        have hall : c = shape.block := hfull.1 (not_not.1 hbreak)
        have hlast : before (move_it + 4 * shape.keys - 1) = true :=
          hbound.before_of_lt _ (by have := shape.keys_pos; omega) (by omega)
        refine hinside.boundary_right hlast (by have := shape.keys_pos; omega) ?_
        rwa [Int.sub_add_cancel]

theorem scan_down_boundary (hcmp : ∀ i, l ≤ i → i < r → cmp (at_ i) = !before i) (hend : l ≤ end_)
    (hsearch : ∀ it, end_ ≤ it → it ≤ r →
      ∃ t, func_search? end_ it it = some t ∧ Boundary before end_ it t) (turns : Nat) :
    ∀ move_it, move_it ≤ r → end_ + (turns * shape.block : Nat) ≤ move_it →
      ∃ t, (scanLoop? shape false (loadu? shape at_ l r) cmp turns move_it).bind
          (finish? shape false func_search? end_) = some t ∧ Boundary before end_ move_it t := by
  induction turns with
  | zero =>
      intro move_it hr hl
      exact hsearch move_it (by omega) hr
  | succ turns ih =>
      intro move_it hr hl
      rw [Nat.succ_mul] at hl
      have hblock : (shape.block : Int) = 4 * shape.keys := by
        rw [Shape.block]
        omega
      have hinside := hs.mono hend hr
      obtain ⟨res, hres, hcount, hfull⟩ := turnMask_down shape at_ cmp
        (by omega : l ≤ move_it - shape.block) hr
      rw [countP_keysAt hcmp (by omega) (by omega), countP_not, length_range] at hcount hfull
      have hbound := (hs.mono (l := move_it - shape.block) (r := move_it - shape.block + shape.block)
        (by omega) (by omega)).boundary_count shape.block
      generalize (range shape.block).countP
        (fun (i : Nat) => before (move_it - shape.block + i)) = c at *
      have hle : c ≤ shape.block := by
        have hlast := hbound.le_last
        omega
      rw [scanLoop?, if_neg Bool.false_ne_true, hres, Option.bind_some]
      -- A mask that is not full has found the boundary; a full one leaves it to the later turns.
      by_cases hbreak : res ≠ 0xffffffff
      · have hpos : c ≠ 0 := fun heq => hbreak (hfull.2 (by omega))
        refine ⟨move_it - shape.block + c, ?_, ?_⟩
        · rw [if_pos hbreak, Option.bind_some, finish?]
          simp only [hcount, Bool.false_eq_true, if_false]
          congr 1
          omega
        · have hprev := hbound.before_of_lt (move_it - shape.block + c - 1) (by omega) (by omega)
          refine hinside.boundary_right hprev (by omega) ?_
          rw [Int.sub_add_cancel]
          exact ⟨le_refl _, by omega, fun i hi hlt => absurd hlt (not_lt.2 hi),
            fun i hi hlt => hbound.not_before_of_le i hi (by omega)⟩
      · obtain ⟨t, ht, hb⟩ := ih (move_it - 4 * shape.keys) (by omega) (by omega)
        rw [if_neg hbreak]
        have hpos := shape.keys_pos
        have hnone : c = 0 := by
          have hall := hfull.1 (not_not.1 hbreak)
          omega
        have hfirst : before (move_it - 4 * shape.keys) = false :=
          hbound.not_before_of_le _ (by omega) (by omega)
        exact ⟨t, ht, hinside.boundary_left (.inr hfirst) (by omega) hb⟩

end Loop

/-! ## Agreement with `LinearSearch` -/

variable {first last start : Int}

theorem linear_returns {before? : Int → Option Bool} {before : Int → Bool}
    (hs : Splits before first last) (hreads : Reads before? before first last)
    (hfirst : first ≤ start) (hlast : start ≤ last) :
    ∃ t, LinearSearch.bound? before? first last start = some t ∧ Boundary before first last t :=
  ⟨_, LinearSearch.bound_reads hreads hfirst hlast, LinearSearch.bound_boundary hs hfirst hlast⟩

theorem bound_returns (shape : Shape) (before : K → Bool) {before? : Int → Option Bool}
    {cmpUp cmpDown : K → Bool}
    (hs : Splits (fun i => before (at_ i)) first last)
    (hreads : Reads before? (fun i => before (at_ i)) first last)
    (hup : ∀ key, cmpUp key = before key) (hdown : ∀ key, cmpDown key = !before key)
    (hfirst : first ≤ start) (hlast : start ≤ last) :
    ∃ t, bound? shape before cmpUp cmpDown (LinearSearch.bound? before?)
        (loadu? shape at_ first last) (deref at_ first last) first last start = some t ∧
      Boundary (fun i => before (at_ i)) first last t := by
  rw [bound?]
  by_cases hempty : first = last
  · subst hempty
    exact ⟨first, if_pos rfl, .empty _ first⟩
  rw [if_neg hempty]
  -- The scan to the left, when the start is not in front of the boundary.
  have hleft : start = last ∨ before (at_ start) = false →
      ∃ t, scan_avx? shape false (LinearSearch.bound? before?) (loadu? shape at_ first last) cmpDown
          start first = some t ∧ Boundary (fun i => before (at_ i)) first last t := by
    intro hstart
    have hturns := Nat.div_mul_le_self (start - first).toNat shape.block
    obtain ⟨t, ht, hb⟩ := scan_down_boundary shape hs
      (LinearSearch.bound? before?) (fun i _ _ => hdown (at_ i)) (le_refl first)
      (fun it hl hr => linear_returns (hs.mono (le_refl first) hr) (hreads.mono (le_refl first) hr) hl
        (le_refl it)) ((start - first).toNat / shape.block) start hlast (by omega)
    exact ⟨t, ht, hs.boundary_left hstart hlast hb⟩
  by_cases heq : start = last
  · rw [if_pos heq]
    exact hleft (.inl heq)
  · have hlt : start < last := lt_of_le_of_ne hlast heq
    rw [if_neg heq, deref_eq hfirst hlt, Option.bind_some]
    cases hbefore : before (at_ start) with
    | false => exact hleft (.inr hbefore)
    | true =>
        have hturns := Nat.div_mul_le_self (last - (start + 1)).toNat shape.block
        obtain ⟨t, ht, hb⟩ := scan_up_boundary shape hs
          (LinearSearch.bound? before?) (fun i _ _ => hup (at_ i)) (le_refl last)
          (fun it hl hr => linear_returns (hs.mono hl (le_refl last)) (hreads.mono hl (le_refl last))
            (le_refl it) hr) ((last - (start + 1)).toNat / shape.block) (start + 1) (by omega)
          (by omega)
        exact ⟨t, ht, hs.boundary_right (m := start) hbefore hfirst hb⟩

/-- Loading and reading only inside the window, the vectorised searches return what `LinearSearch`
returns. -/
structure AgreesWithLinear [LinearOrder K]
    (lower_bound? upper_bound? : (Int → K) → K → Int → Int → Int → Option Int) (at_ : Int → K)
    (lookup_key : K) (first last start : Int) : Prop where
  lower : lower_bound? at_ lookup_key first last start =
    some (LinearSearch.lower_bound defaultLess at_ lookup_key first last start)
  upper : upper_bound? at_ lookup_key first last start =
    some (LinearSearch.upper_bound defaultLess at_ lookup_key first last start)

theorem agrees_of_comparisons [LinearOrder K] (shape : Shape) {at_ : Int → K} {lookup_key : K}
    {lt ge le gt : K → Bool} (hlt : ∀ key, lt key = decide (key < lookup_key))
    (hge : ∀ key, ge key = decide (lookup_key ≤ key))
    (hle : ∀ key, le key = decide (key ≤ lookup_key))
    (hgt : ∀ key, gt key = decide (lookup_key < key))
    (hsort : SortedWindow defaultLess at_ first last) (hfirst : first ≤ start)
    (hlast : start ≤ last) :
    bound? shape (fun key => decide (key < lookup_key)) lt ge
        (LinearSearch.lower_bound? defaultLess (deref at_ first last) lookup_key)
        (loadu? shape at_ first last) (deref at_ first last) first last start =
      some (LinearSearch.lower_bound defaultLess at_ lookup_key first last start) ∧
    bound? shape (fun key => !decide (lookup_key < key)) le gt
        (LinearSearch.upper_bound? defaultLess (deref at_ first last) lookup_key)
        (loadu? shape at_ first last) (deref at_ first last) first last start =
      some (LinearSearch.upper_bound defaultLess at_ lookup_key first last start) := by
  constructor
  · obtain ⟨t, ht, hb⟩ := bound_returns shape (fun key => decide (key < lookup_key))
      hsort.splits_lower
      (reads_lower defaultLess at_ lookup_key first last) hlt
      (fun key => (hge key).trans (by rw [← decide_not, decide_eq_decide, not_lt])) hfirst hlast
    have hsplits : Splits (beforeLower defaultLess at_ lookup_key) first last := hsort.splits_lower
    have hlinear := LinearSearch.bound_boundary hsplits hfirst hlast
    exact ht.trans (congrArg some (hb.unique hlinear))
  · obtain ⟨t, ht, hb⟩ := bound_returns shape (fun key => !decide (lookup_key < key))
      hsort.splits_upper
      (reads_upper defaultLess at_ lookup_key first last)
      (fun key => (hle key).trans (by rw [← decide_not, decide_eq_decide, not_lt]))
      (fun key => (hgt key).trans (Bool.not_not _).symm) hfirst hlast
    have hsplits : Splits (beforeUpper defaultLess at_ lookup_key) first last := hsort.splits_upper
    have hlinear := LinearSearch.bound_boundary hsplits hfirst hlast
    exact ht.trans (congrArg some (hb.unique hlinear))

/-- For both widths, all windows, keys and starts. -/
theorem agreesWithLinear :
    (∀ (at_ : Int → UInt32) (lookup_key : UInt32) (first last start : Int),
      SortedWindow defaultLess at_ first last → first ≤ start → start ≤ last →
        AgreesWithLinear lower_bound_uint32? upper_bound_uint32? at_ lookup_key first last start) ∧
    ∀ (at_ : Int → UInt64) (lookup_key : UInt64) (first last start : Int),
      SortedWindow defaultLess at_ first last → first ≤ start → start ≤ last →
        AgreesWithLinear lower_bound_uint64? upper_bound_uint64? at_ lookup_key first last start := by
  constructor
  · intro at_ lookup_key first last start hsort hfirst hlast
    obtain ⟨hlower, hupper⟩ := agrees_of_comparisons epi32
      (fun key => cmplt_epu32_eq key lookup_key) (fun key => cmpge_epu32_eq key lookup_key)
      (fun key => cmple_epu32_eq key lookup_key) (fun key => cmpgt_epu32_eq key lookup_key) hsort
      hfirst hlast
    exact ⟨hlower, hupper⟩
  · intro at_ lookup_key first last start hsort hfirst hlast
    obtain ⟨hlower, hupper⟩ := agrees_of_comparisons epi64
      (fun key => cmplt_epu64_eq key lookup_key) (fun key => cmpge_epu64_eq key lookup_key)
      (fun key => cmple_epu64_eq key lookup_key) (fun key => cmpgt_epu64_eq key lookup_key) hsort
      hfirst hlast
    exact ⟨hlower, hupper⟩

/-- Keys that reach the top bit in the middle of the window. -/
def steep (i : Int) : UInt64 :=
  if i < 20 then 5 else 0x8000000000000000

theorem agreesWithLinear_steep :
    AgreesWithLinear lower_bound_uint64? upper_bound_uint64? steep 0x8000000000000000 0 50 49 := by
  refine agreesWithLinear.2 steep 0x8000000000000000 0 50 49 (fun i j _ hij _ => ?_) (by decide)
    (by decide)
  rw [defaultLess, decide_eq_false_iff_not, not_lt, steep, steep]
  split <;> split
  · exact le_rfl
  · decide
  · omega
  · exact le_rfl

/-! ## The unchecked loop -/

/-- Where its loads are inside the window, the checked loop over `uint64_t` keys is the unchecked
one. -/
theorem scanLoop_eq {load? : Int → Option (List UInt64)} {load : Int → List UInt64}
    (hload : ∀ {it keys}, load? it = some keys → load it = keys) {cmp : UInt64 → Bool}
    {direction : Bool} (turns : Nat) :
    ∀ {move_it result}, scanLoop? epi64 direction load? cmp turns move_it = some result →
      scanLoop direction load cmp turns move_it = result := by
  have hturn : ∀ {it₀ it₁ it₂ it₃ res}, turnMask? epi64 load? cmp it₀ it₁ it₂ it₃ = some res →
      turnMask load cmp it₀ it₁ it₂ it₃ = res := by
    intro it₀ it₁ it₂ it₃ res h
    simp only [turnMask?, Option.bind_eq_some_iff, Option.map_eq_some_iff] at h
    obtain ⟨v₀, h₀, v₁, h₁, v₂, h₂, v₃, h₃, rfl⟩ := h
    simp only [turnMask, hload h₀, hload h₁, hload h₂, hload h₃, lanes_epi64]
  induction turns with
  | zero => exact fun h => Option.some.inj h
  | succ turns ih =>
      intro move_it result h
      rw [scanLoop?] at h
      rw [scanLoop]
      cases direction with
      | true =>
          rw [if_pos rfl] at h ⊢
          obtain ⟨res, hres, h⟩ := Option.bind_eq_some_iff.1 h
          have hmask : turnMask load cmp move_it (move_it + 4) (move_it + 8) (move_it + 12) = res :=
            hturn hres
          rw [hmask]
          by_cases hbreak : res ≠ 0xffffffff
          · rw [if_pos hbreak] at h ⊢
            exact Option.some.inj h
          · rw [if_neg hbreak] at h ⊢
            exact ih h
      | false =>
          rw [if_neg Bool.false_ne_true] at h ⊢
          obtain ⟨res, hres, h⟩ := Option.bind_eq_some_iff.1 h
          have hmask : turnMask load cmp (move_it - 4) (move_it - 8) (move_it - 12) (move_it - 16) =
            res := hturn hres
          rw [hmask]
          by_cases hbreak : res ≠ 0xffffffff
          · rw [if_pos hbreak] at h ⊢
            exact Option.some.inj h
          · rw [if_neg hbreak] at h ⊢
            exact ih h

end LinearAVX

end Searches
end TLI
