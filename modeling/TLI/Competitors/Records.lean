import TLI.Library.LowerBound
import TLI.Searches.Interpolation
import TLI.Util

/-!
# Records — competitors that keep the bulk-loaded vector and answer with positions in it

`data_` is the vector of records.  A lookup searches the lower bound of the key and reports its
position; a range query adds up the values from there on.
-/

namespace TLI
namespace Records

open LowerBound PartitionPoint Searches

/-! ## The loops over `data_` -/

variable {K : Type*} [LinearOrder K]

/-- `it == data_.end() || it->key != lookup_key ? OVERFLOW : it - data_.begin()` -/
def position (data : List (KeyValue K)) (lookup_key : K) (it : Nat) : Nat :=
  match data[it]? with
  | none => Util.OVERFLOW
  | some kv => if kv.key ≠ lookup_key then Util.OVERFLOW else it

/-- `while (it != data_.end() && it->key <= upper_key) { result += it->value; ++it; }` -/
def sumUpTo (upper_key : K) : List (KeyValue K) → UInt64 → UInt64
  | [], result => result
  | kv :: rest, result =>
      if kv.key ≤ upper_key then sumUpTo upper_key rest (result + kv.value) else result

/-- The lower-bound index of a key. -/
def lb (data : List (KeyValue K)) (key : K) : Nat :=
  (front KeyValue.key key data).length

theorem lb_le (data : List (KeyValue K)) (key : K) : lb data key ≤ data.length :=
  length_front_le _ _ _

theorem sumUpTo_eq (upper_key : K) (xs : List (KeyValue K)) :
    ∀ result, sumUpTo upper_key xs result =
      result + ((xs.takeWhile fun kv => decide (kv.key ≤ upper_key)).map KeyValue.value).sum := by
  induction xs with
  | nil => intro result; simp [sumUpTo]
  | cons kv xs ih =>
      intro result
      by_cases hkv : kv.key ≤ upper_key
      · simp [sumUpTo, hkv, ih, add_assoc]
      · simp [sumUpTo, hkv]

/-- The sum from the lower bound on is the sum of the values in the interval. -/
theorem sumUpTo_drop_lb {data : List (KeyValue K)} (hsort : Ascends KeyValue.key data) (l u : K) :
    sumUpTo u (data.drop (lb data l)) 0 = Multimap.rangeSum l u (pairs data) := by
  have hpairs : Multimap.Sorted (data.map KeyValue.toPair) := List.pairwise_map.2 hsort
  rw [pairs, Multimap.rangeSum_coe_of_sorted hpairs, List.dropWhile_map, List.takeWhile_map,
    List.map_map, sumUpTo_eq, zero_add, lb, drop_length_front]
  rfl

/-! ## Positions as iterators -/

/-- `it->key`, for an iterator inside `data_`. -/
def keyAt [Inhabited K] (data : List (KeyValue K)) (it : Int) : K :=
  ((data[it.toNat]?).map KeyValue.key).getD default

/-- `it->value` -/
def valueAt (data : List (KeyValue K)) (it : Int) : UInt64 :=
  ((data[it.toNat]?).map KeyValue.value).getD 0

omit [LinearOrder K] in
theorem keyAt_of_lt [Inhabited K] {data : List (KeyValue K)} {i : Nat} (h : i < data.length) :
    keyAt data i = data[i].key := by
  simp [keyAt, h]

theorem lt_of_lt_lb [Inhabited K] {data : List (KeyValue K)} {key : K} {i : Nat}
    (h : i < lb data key) : keyAt data i < key := by
  have hlt : i < data.length := Nat.lt_of_lt_of_le h (lb_le data key)
  rw [keyAt_of_lt hlt]
  exact lt_of_lt_length_front h hlt

theorem le_of_lb_le [Inhabited K] {data : List (KeyValue K)} (hsort : Ascends KeyValue.key data)
    {key : K} {i : Nat} (h : lb data key ≤ i) (hi : i < data.length) : key ≤ keyAt data i := by
  rw [keyAt_of_lt hi]
  exact le_of_length_front_le hsort h hi

theorem keyAt_mono [Inhabited K] {data : List (KeyValue K)} (hsort : Ascends KeyValue.key data)
    {i j : Nat} (hij : i ≤ j) (hj : j < data.length) : keyAt data i ≤ keyAt data j := by
  rw [keyAt_of_lt (hij.trans_lt hj), keyAt_of_lt hj]
  exact hsort.getElem_le hij _ hj

theorem ascending_keyAt {data : List (KeyValue UInt64)} (hsort : Ascends KeyValue.key data) :
    Ascending (keyAt data) 0 data.length := by
  intro i j hi hij hj
  obtain ⟨i, rfl⟩ := Int.eq_ofNat_of_zero_le hi
  obtain ⟨j, rfl⟩ := Int.eq_ofNat_of_zero_le (hi.trans hij)
  exact keyAt_mono hsort (by exact_mod_cast hij) (by exact_mod_cast hj)

/-- The lower-bound index is the boundary between the keys below and the others, in every window
around it. -/
theorem boundary_lb {data : List (KeyValue UInt64)} (hsort : Ascends KeyValue.key data)
    (key : UInt64) {first last : Int} (hzero : 0 ≤ first) (hfirst : first ≤ lb data key)
    (hlast : (lb data key : Int) ≤ last) (hend : last ≤ data.length) :
    Boundary (beforeLower defaultLess (keyAt data) key) first last (lb data key) := by
  refine ⟨hfirst, hlast, fun i hi hlt => ?_, fun i hi hlt => ?_⟩
  · obtain ⟨i, rfl⟩ := Int.eq_ofNat_of_zero_le (hzero.trans hi)
    exact (before_iff _).2 (lt_of_lt_lb (by exact_mod_cast hlt))
  · obtain ⟨i, rfl⟩ := Int.eq_ofNat_of_zero_le ((hzero.trans hfirst).trans hi)
    exact (not_before_iff _).2 (le_of_lb_le hsort (by exact_mod_cast hi)
      (by exact_mod_cast lt_of_lt_of_le hlt hend))

end Records
end TLI
