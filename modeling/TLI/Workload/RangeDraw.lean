import TLI.Library.Rounding
import TLI.Workload.Sound

/-!
# RangeDraw — where a range query that is drawn from the data begins

The lower key of a range query is drawn in single precision between the smallest key and the key
`max_num + 1` places in front of the end, from which `max_num` steps stay inside the data.  Rounding
may carry the drawn key past that key, and then the upper key is read behind the end.  Whether it
does is a matter of these two keys (`staysInside_iff_topValue`).
-/

namespace TLI
namespace Workload

open List Multimap Rounding

/-! ## The drawn key -/

/-- The key types that are numbers. -/
class UnsignedKey (K : Type) [LinearOrder K] where
  bits : Nat
  toNat : K → Nat
  ofNat : Nat → K
  toNat_lt : ∀ key, toNat key < 2 ^ bits
  toNat_ofNat : ∀ {n}, n < 2 ^ bits → toNat (ofNat n) = n
  lt_iff : ∀ {a b : K}, a < b ↔ toNat a < toNat b

instance unsignedKeyUInt32 : UnsignedKey UInt32 where
  bits := 32
  toNat := UInt32.toNat
  ofNat := UInt32.ofNat
  toNat_lt := UInt32.toNat_lt
  toNat_ofNat := UInt32.toNat_ofNat_of_lt'
  lt_iff := UInt32.lt_iff_toNat_lt

instance unsignedKeyUInt64 : UnsignedKey UInt64 where
  bits := 64
  toNat := UInt64.toNat
  ofNat := UInt64.ofNat
  toNat_lt := UInt64.toNat_lt
  toNat_ofNat := UInt64.toNat_ofNat_of_lt'
  lt_iff := UInt64.lt_iff_toNat_lt

open UnsignedKey

/-- Rounding to `float`. -/
def single (x : ℚ) : ℚ :=
  roundTo 24 x

/-- `ScaleFactor()` for an output of the generator. -/
def scaleFactor (r : UInt32) : ℚ :=
  single (single r.toNat / single (2 ^ 32 - 1 : Nat))

/-- `(ScaleFactor() * (max_key - min_key)) + min_key` as a `float`. -/
def drawnValue (r : UInt32) (minKey maxKey : Nat) : ℚ :=
  single (single (scaleFactor r * single (maxKey - minKey : Nat)) + single minKey)

variable {K : Type} [LinearOrder K] [UnsignedKey K]

/-- The drawn key: the value is truncated; one that does not fit the key type has no key. -/
def scaleKey? (r : UInt32) (minKey maxKey : K) : Option K :=
  let value := ⌊drawnValue r (toNat minKey) (toNat maxKey)⌋.toNat
  if value < 2 ^ bits K then some (ofNat value) else none

/-- Whatever is drawn, the upper key of the range query is read inside the data. -/
def StaysInside (xs : List (K × UInt64)) : Prop :=
  ∃ minKey maxKey, xs.head? = some minKey ∧ xs[xs.length - maxNum - 1]? = some maxKey ∧
    ∀ r steps, steps ≤ maxNum →
      ∃ loKey, scaleKey? r minKey.1 maxKey.1 = some loKey ∧
        ∃ range, scanRange loKey steps xs = some range

/-! ## The largest drawn key -/

theorem single_nonneg {x : ℚ} (h : 0 ≤ x) : 0 ≤ single x :=
  roundTo_nonneg (by decide) h

theorem single_mono {x y : ℚ} (hx : 0 ≤ x) (h : x ≤ y) : single x ≤ single y :=
  roundTo_mono (by decide) hx h

theorem single_single {x : ℚ} (h : 0 ≤ x) : single (single x) = single x :=
  roundTo_roundTo (by decide) h

theorem single_natCast {n : Nat} (h : n ≤ 2 ^ 24) : single n = n :=
  roundTo_natCast (by decide) h

theorem single_max_pos : 0 < single (2 ^ 32 - 1 : Nat) := by
  decide +kernel

/-- `ScaleFactor()` lies between zero and one. -/
theorem scaleFactor_bounds (r : UInt32) : 0 ≤ scaleFactor r ∧ scaleFactor r ≤ 1 := by
  have hnonneg : 0 ≤ single r.toNat := single_nonneg (Nat.cast_nonneg _)
  have hle : single r.toNat ≤ single (2 ^ 32 - 1 : Nat) := by
    refine single_mono (Nat.cast_nonneg _) (Nat.cast_le.2 ?_)
    have hlt := r.toNat_lt
    omega
  have hone : single 1 = 1 := by
    have hexact := single_natCast (n := 1) (by decide)
    rwa [Nat.cast_one] at hexact
  refine ⟨single_nonneg (div_nonneg hnonneg single_max_pos.le), ?_⟩
  calc scaleFactor r ≤ single 1 :=
        single_mono (div_nonneg hnonneg single_max_pos.le) ((div_le_one single_max_pos).2 hle)
    _ = 1 := hone

/-- The largest output of the generator gives one. -/
theorem scaleFactor_max : scaleFactor 0xFFFFFFFF = 1 := by
  decide +kernel

/-- The sum of the rounded span and the rounded smallest key. -/
def topValue (minKey maxKey : Nat) : ℚ :=
  single (single (maxKey - minKey : Nat) + single minKey)

theorem drawnValue_max (minKey maxKey : Nat) :
    drawnValue 0xFFFFFFFF minKey maxKey = topValue minKey maxKey := by
  rw [drawnValue, scaleFactor_max, one_mul, single_single (Nat.cast_nonneg _), topValue]

theorem drawnValue_bounds (r : UInt32) (minKey maxKey : Nat) :
    0 ≤ drawnValue r minKey maxKey ∧ drawnValue r minKey maxKey ≤ topValue minKey maxKey := by
  obtain ⟨hnonneg, hone⟩ := scaleFactor_bounds r
  have hspan : 0 ≤ single (maxKey - minKey : Nat) := single_nonneg (Nat.cast_nonneg _)
  have hmin : 0 ≤ single minKey := single_nonneg (Nat.cast_nonneg _)
  have hscaled := mul_nonneg hnonneg hspan
  have hproduct : single (scaleFactor r * single (maxKey - minKey : Nat)) ≤
      single (maxKey - minKey : Nat) := by
    calc single (scaleFactor r * single (maxKey - minKey : Nat))
        ≤ single (single (maxKey - minKey : Nat)) :=
          single_mono hscaled (mul_le_of_le_one_left hspan hone)
      _ = single (maxKey - minKey : Nat) := single_single (Nat.cast_nonneg _)
  have hsum := add_nonneg (single_nonneg hscaled) hmin
  exact ⟨single_nonneg hsum, single_mono hsum (add_le_add_left hproduct _)⟩

/-- Keys of at most 24 bits are not rounded. -/
theorem topValue_of_small {minKey maxKey : Nat} (hle : minKey ≤ maxKey) (h : maxKey ≤ 2 ^ 24) :
    topValue minKey maxKey = maxKey := by
  rw [topValue, single_natCast (by omega), single_natCast (by omega), ← Nat.cast_add,
    Nat.sub_add_cancel hle, single_natCast h]

/-! ## The position of the drawn key -/

omit [UnsignedKey K] in
theorem scanRange_iff (loKey : K) (steps : Nat) (xs : List (K × UInt64)) :
    (∃ range, scanRange loKey steps xs = some range) ↔
      steps < (xs.dropWhile fun p => decide (p.1 < loKey)).length := by
  constructor
  · rintro ⟨range, hscan⟩
    obtain ⟨hi, hhi, -⟩ := Option.bind_eq_some_iff.1 hscan
    exact (List.getElem?_eq_some_iff.1 hhi).1
  · intro hlt
    exact ⟨_, by rw [scanRange, List.getElem?_eq_getElem hlt]; rfl⟩

omit [UnsignedKey K] in
/-- In sorted data the steps from the drawn key stay inside if and only if it is not above the key
`max_num + 1` places in front of the end. -/
theorem steps_lt_iff {xs : List (K × UInt64)} (hsorted : Sorted xs) (hlen : maxNum < xs.length)
    {maxKey : K × UInt64} (hmax : xs[xs.length - maxNum - 1]? = some maxKey) (loKey : K) :
    maxNum < (xs.dropWhile fun p => decide (p.1 < loKey)).length ↔ loKey ≤ maxKey.1 := by
  obtain ⟨hin, rfl⟩ := List.getElem?_eq_some_iff.1 hmax
  rw [dropWhile_eq_drop_findIdx_not, length_drop]
  constructor
  · intro hlt
    by_contra habove
    have hpast : xs.length - maxNum - 1 < xs.findIdx fun p => !decide (p.1 < loKey) := by
      refine lt_findIdx_of_not hin fun j hj => ?_
      have hle : xs[j].1 ≤ (xs[xs.length - maxNum - 1]).1 := by
        rcases Nat.eq_or_lt_of_le hj with rfl | hj
        · exact le_refl _
        · exact pairwise_iff_getElem.1 hsorted j _ (by omega) hin hj
      simpa using lt_of_le_of_lt hle (not_le.1 habove)
    omega
  · intro hle
    have hfront : xs.findIdx (fun p => !decide (p.1 < loKey)) ≤ xs.length - maxNum - 1 := by
      by_contra hlt
      have hnot := not_of_lt_findIdx (not_le.1 hlt)
      simp only [Bool.not_eq_false', decide_eq_true_eq] at hnot
      exact absurd hle (not_le.2 hnot)
    omega

/-- A range query stays inside the data exactly if single precision does not carry the sum of the
span and the smallest key past the key that the span ends at. -/
theorem staysInside_iff_topValue {xs : List (K × UInt64)} (hsorted : Sorted xs)
    (hlen : maxNum < xs.length) {minKey maxKey : K × UInt64} (hmin : xs.head? = some minKey)
    (hmax : xs[xs.length - maxNum - 1]? = some maxKey) :
    StaysInside xs ↔ topValue (toNat minKey.1) (toNat maxKey.1) < toNat maxKey.1 + 1 := by
  constructor
  · rintro ⟨minKey', maxKey', hmin', hmax', hall⟩
    cases hmin.symm.trans hmin'
    cases hmax.symm.trans hmax'
    obtain ⟨loKey, hdraw, hscan⟩ := hall 0xFFFFFFFF maxNum (le_refl _)
    rw [scanRange_iff, steps_lt_iff hsorted hlen hmax] at hscan
    rw [scaleKey?, drawnValue_max, Option.ite_none_right_eq_some] at hdraw
    obtain ⟨hfits, hkey⟩ := hdraw
    cases hkey
    have hvalue := mt lt_iff.2 (not_lt.2 hscan)
    rw [toNat_ofNat hfits, not_lt, Int.toNat_le] at hvalue
    have hfloor := Int.floor_lt.1 (Int.lt_add_one_iff.2 hvalue)
    exact_mod_cast hfloor
  · intro htop
    refine ⟨minKey, maxKey, hmin, hmax, fun r steps hsteps => ?_⟩
    obtain ⟨hnonneg, hle⟩ := drawnValue_bounds r (toNat minKey.1) (toNat maxKey.1)
    have hvalue : ⌊drawnValue r (toNat minKey.1) (toNat maxKey.1)⌋.toNat ≤ toNat maxKey.1 := by
      rw [Int.toNat_le]
      refine Int.lt_add_one_iff.1 (Int.floor_lt.2 ?_)
      exact_mod_cast lt_of_le_of_lt hle htop
    have hfits := lt_of_le_of_lt hvalue (toNat_lt maxKey.1)
    refine ⟨_, if_pos hfits, (scanRange_iff _ _ _).2 (lt_of_le_of_lt hsteps ?_)⟩
    rw [steps_lt_iff hsorted hlen hmax]
    refine not_lt.1 fun hlt => ?_
    rw [lt_iff, toNat_ofNat hfits] at hlt
    omega

/-- A turn of the generator that draws from such data comes to an end. -/
theorem rangeAttempt_returns {R : DrawRules K} {isInsert : Bool} {M : Model K}
    (hstring : R.isString = false)
    (hscale : ∀ {r minKey maxKey key}, scaleKey? r minKey maxKey = some key →
      R.scaleKey r minKey maxKey = key)
    (hsteps : ∀ r, R.steps r ≤ maxNum) (hlen : maxNum < (M.searched isInsert).length)
    (h : StaysInside (M.searched isInsert)) (op : Operation K) (r r' : UInt32)
    (tape : List UInt32) :
    ∃ result, rangeAttempt R isInsert M op (r :: r' :: tape) = some (result, tape) := by
  obtain ⟨minKey, maxKey, hmin, hmax, hall⟩ := h
  obtain ⟨loKey, hdraw, range, hscan⟩ := hall r (R.steps r') (hsteps r')
  have hkey := hscale hdraw
  have hfinish : ∃ result, (if range.2.2 > maxNum || range.2.2 < minNum then pure none
      else pure (some { op with loKey := loKey, hiKey := range.1, result := range.2.1 }) :
        Gen (Option (Operation K))) tape = some (result, tape) := by
    split
    · exact ⟨_, rfl⟩
    · exact ⟨_, rfl⟩
  obtain ⟨result, hresult⟩ := hfinish
  refine ⟨result, ?_⟩
  unfold rangeAttempt
  refine Gen.bind_eq_some.2 ⟨minKey, _, Gen.lift_eq_some.2 ⟨hmin, rfl⟩, ?_⟩
  rw [if_neg (not_le.2 hlen)]
  refine Gen.bind_eq_some.2 ⟨maxKey, _, Gen.lift_eq_some.2 ⟨hmax, rfl⟩, ?_⟩
  rw [hstring, if_neg Bool.false_ne_true]
  refine Gen.bind_eq_some.2 ⟨loKey, r' :: tape, Gen.map_eq_some.2 ⟨r, rfl, hkey⟩, ?_⟩
  beta_reduce
  rw [Bool.false_and, if_neg Bool.false_ne_true]
  refine Gen.bind_eq_some.2 ⟨r', tape, rfl, ?_⟩
  exact Gen.bind_eq_some.2 ⟨range, tape, Gen.lift_eq_some.2 ⟨hscan, rfl⟩, hresult⟩

/-! ## The first keys that are rounded -/

/-- The even keys from 1000 to 1220. -/
def smallData : List (UInt64 × UInt64) :=
  (List.range 111).map fun i => (UInt64.ofNat (1000 + 2 * i), 0)

theorem staysInside_smallData : StaysInside smallData := by
  have hmin : smallData.head? = some (1000, 0) := rfl
  have hmax : smallData[smallData.length - maxNum - 1]? = some (1020, 0) := by decide
  refine (staysInside_iff_topValue ?_ (by decide) hmin hmax).2 ?_
  · unfold Sorted
    decide +kernel
  · rw [topValue_of_small (by decide) (by decide)]
    exact lt_add_one _

/-- The key `2^24 + 3` is rounded up to the next one, which only a hundred pairs have. -/
def roundedData : List (UInt64 × UInt64) :=
  (0, 0) :: (16777219, 1) :: replicate 100 (16777220, 2)

theorem not_staysInside_roundedData :
    Sorted roundedData ∧ maxNum < roundedData.length ∧ ¬ StaysInside roundedData := by
  refine ⟨?_, by decide, ?_⟩
  · unfold Sorted
    decide +kernel
  rintro ⟨minKey, maxKey, hmin, hmax, hall⟩
  cases hmin
  cases hmax
  obtain ⟨loKey, hdraw, range, hscan⟩ := hall 0xFFFFFFFF 100 (le_refl _)
  have hkey : scaleKey? 0xFFFFFFFF (0 : UInt64) 16777219 = some 16777220 := by decide +kernel
  cases hkey.symm.trans hdraw
  have hnone : scanRange (16777220 : UInt64) 100 roundedData = none := by decide +kernel
  cases hnone.symm.trans hscan

end Workload
end TLI
