import Mathlib.Algebra.Group.Int.Defs
import Mathlib.Algebra.Group.Nat.Defs
import TLI.Library.PartitionPoint

/-!
# Searches — the search classes of `searches/`

An iterator is a position; `at` reads the key at a position, `less` compares two keys.  In every
class `lower_bound` and `upper_bound` are the same loop and differ only in the test that moves the
search to the right: `less(at(it), lookup_key)` and `!less(lookup_key, at(it))`.
-/

namespace TLI
namespace Searches

variable {K : Type*}

/-- `less(at(it), lookup_key)` -/
def beforeLower (less : K → K → Bool) (at_ : Int → K) (lookup_key : K) (it : Int) : Bool :=
  less (at_ it) lookup_key

/-- `!less(lookup_key, at(it))` -/
def beforeUpper (less : K → K → Bool) (at_ : Int → K) (lookup_key : K) (it : Int) : Bool :=
  !less lookup_key (at_ it)

/-- The default comparator, `key1 < key2`. -/
def defaultLess [LT K] [DecidableLT K] (key1 key2 : K) : Bool :=
  decide (key1 < key2)

/-! ## `BranchingBinarySearch` -/

namespace BranchingBinarySearch

/-- The halving loop of `lower_bound_` and `upper_bound_`. -/
def bound_ (before : Int → Bool) (first : Int) (len : Nat) : Int :=
  if 0 < len then
    let half := len / 2
    let middle := first + half
    if before middle then bound_ before (middle + 1) (len - half - 1) else bound_ before first half
  else first
termination_by len

/-- Whatever the test says, the loop stays in the window. -/
theorem halving_range (before : Int → Bool) (first : Int) (len : Nat) :
    first ≤ bound_ before first len ∧ bound_ before first len ≤ first + len := by
  induction len using Nat.strongRecOn generalizing first with
  | ind len ih =>
      rw [bound_]
      by_cases hlen : 0 < len
      · have hright := ih (len - len / 2 - 1) (by omega) (first + (len / 2 : Nat) + 1)
        have hleft := ih (len / 2) (by omega) first
        simp only [hlen, if_true]
        split <;> omega
      · simp only [hlen, if_false]
        omega

def bound (before : Int → Bool) (first last start : Int) : Int :=
  if start ≠ last ∧ before start = true then
    bound_ before (start + 1) (last - (start + 1)).toNat
  else
    bound_ before first (start - first).toNat

def lower_bound (less : K → K → Bool) (at_ : Int → K) (lookup_key : K) : Int → Int → Int → Int :=
  bound (beforeLower less at_ lookup_key)

def upper_bound (less : K → K → Bool) (at_ : Int → K) (lookup_key : K) : Int → Int → Int → Int :=
  bound (beforeUpper less at_ lookup_key)

end BranchingBinarySearch

/-! ## `LinearSearch` -/

namespace LinearSearch

/-- `while (it != last && before(it)) ++it;` with `n` positions left up to `last`. -/
def scanUp (before : Int → Bool) : Nat → Int → Int
  | 0, it => it
  | n + 1, it => if before it then scanUp before n (it + 1) else it

/-- `while (it != first) { --it; if (before(it)) break; }` with `n` positions down to `first`. -/
def scanDown (before : Int → Bool) : Nat → Int → Int
  | 0, it => it
  | n + 1, it => if before (it - 1) then it - 1 else scanDown before n (it - 1)

def bound (before : Int → Bool) (first last start : Int) : Int :=
  if first = last then first
  else if start ≠ last ∧ before start = true then
    scanUp before (last - (start + 1)).toNat (start + 1)
  else
    let it := scanDown before (start - first).toNat start
    if before it then it + 1 else it

def lower_bound (less : K → K → Bool) (at_ : Int → K) (lookup_key : K) : Int → Int → Int → Int :=
  bound (beforeLower less at_ lookup_key)

def upper_bound (less : K → K → Bool) (at_ : Int → K) (lookup_key : K) : Int → Int → Int → Int :=
  bound (beforeUpper less at_ lookup_key)

end LinearSearch

/-! ## `ExponentialSearch` -/

namespace ExponentialSearch

/-- `while (bound <= size && before(r)) { bound <<= 1; l = r; r += bound; }`; `bound` is
`1 << step`.  The result is the last `bound`, `l` and `r`. -/
def gallopUp (before : Int → Bool) (size : Nat) (step : Nat) (l r : Int) : Nat × Int × Int :=
  if h : 2 ^ step ≤ size ∧ before r = true then
    have : step < size := Nat.lt_of_lt_of_le Nat.lt_two_pow_self h.1
    gallopUp before size (step + 1) r (r + 2 ^ (step + 1))
  else (2 ^ step, l, r)
termination_by size - step

/-- `while (bound <= size && !before(l)) { bound <<= 1; r = l; l -= bound; }` -/
def gallopDown (before : Int → Bool) (size : Nat) (step : Nat) (l r : Int) : Nat × Int × Int :=
  if h : 2 ^ step ≤ size ∧ before l = false then
    have : step < size := Nat.lt_of_lt_of_le Nat.lt_two_pow_self h.1
    gallopDown before size (step + 1) (l - 2 ^ (step + 1)) l
  else (2 ^ step, l, r)
termination_by size - step

/-- The bracket that galloping leaves for the binary search. -/
def bracket (before : Int → Bool) (first last start : Int) : Int × Int :=
  if start ≠ last ∧ before start = true then
    let size := (last - start).toNat / 2
    let (bound, l, r) := gallopUp before size 0 start (start + 1)
    (l + 1, if size < bound then last else r)
  else
    let size := ((start - first).toNat + 1) / 2
    let (bound, l, r) := gallopDown before size 0 (start - 1) start
    (if size < bound then first else l + 1, r)

/-- `beforeDefault` is the test of the final binary search: its call passes `at` but not `less`. -/
def bound (before beforeDefault : Int → Bool) (first last start : Int) : Int :=
  if first = last then first
  else
    let (l, r) := bracket before first last start
    BranchingBinarySearch.bound beforeDefault l r l

def lower_bound [LT K] [DecidableLT K] (less : K → K → Bool) (at_ : Int → K) (lookup_key : K) :
    Int → Int → Int → Int :=
  bound (beforeLower less at_ lookup_key) (beforeLower defaultLess at_ lookup_key)

def upper_bound [LT K] [DecidableLT K] (less : K → K → Bool) (at_ : Int → K) (lookup_key : K) :
    Int → Int → Int → Int :=
  bound (beforeUpper less at_ lookup_key) (beforeUpper defaultLess at_ lookup_key)

end ExponentialSearch

end Searches
end TLI
