import TLI.Searches.Comparator

/-!
# Dereference — searches that must not leave their window

The searches of `Searches/Model.lean` once more, with a memory that only answers inside the window:
a search that dereferences an iterator outside it has no result.  Where the window contains all that
a search looks at, its result is that of the unchecked search.
-/

namespace TLI
namespace Searches

open PartitionPoint

variable {K : Type*}

/-- `at(it)` where only the iterators of the window may be dereferenced. -/
def deref (at_ : Int → K) (first last it : Int) : Option K :=
  if first ≤ it ∧ it < last then some (at_ it) else none

/-- `less(at(it), lookup_key)` -/
def beforeLower? (less : K → K → Bool) (at_ : Int → Option K) (lookup_key : K) (it : Int) :
    Option Bool :=
  (at_ it).map fun key => less key lookup_key

/-- `!less(lookup_key, at(it))` -/
def beforeUpper? (less : K → K → Bool) (at_ : Int → Option K) (lookup_key : K) (it : Int) :
    Option Bool :=
  (at_ it).map fun key => !less lookup_key key

/-- Inside the window the checked test has the value of the unchecked one. -/
def Reads (before? : Int → Option Bool) (before : Int → Bool) (first last : Int) : Prop :=
  ∀ i, first ≤ i → i < last → before? i = some (before i)

variable {before? : Int → Option Bool} {before : Int → Bool} {first last start l r : Int}

theorem Reads.mono (h : Reads before? before first last) (hl : first ≤ l) (hr : r ≤ last) :
    Reads before? before l r :=
  fun i hi hlt => h i (hl.trans hi) (lt_of_lt_of_le hlt hr)

theorem deref_eq {at_ : Int → K} {it : Int} (hfirst : first ≤ it) (hlast : it < last) :
    deref at_ first last it = some (at_ it) :=
  if_pos ⟨hfirst, hlast⟩

theorem reads_lower (less : K → K → Bool) (at_ : Int → K) (lookup_key : K) (first last : Int) :
    Reads (beforeLower? less (deref at_ first last) lookup_key) (beforeLower less at_ lookup_key)
      first last := by
  intro i hi hlt
  rw [beforeLower?, deref_eq hi hlt, Option.map_some, beforeLower]

theorem reads_upper (less : K → K → Bool) (at_ : Int → K) (lookup_key : K) (first last : Int) :
    Reads (beforeUpper? less (deref at_ first last) lookup_key) (beforeUpper less at_ lookup_key)
      first last := by
  intro i hi hlt
  rw [beforeUpper?, deref_eq hi hlt, Option.map_some, beforeUpper]

instance defaultLess_isStrictWeakOrder [LinearOrder K] :
    IsStrictWeakOrder K fun x y => defaultLess x y = true where
  irrefl x := by simp [defaultLess]
  trans x y z hxy hyz := by
    rw [defaultLess, decide_eq_true_eq] at *
    exact hxy.trans hyz
  incomp_trans x y z hxy hyz := by
    simp only [defaultLess, decide_eq_true_eq, not_lt] at *
    exact ⟨hyz.1.trans hxy.1, hxy.2.trans hyz.2⟩

/-! ## `BranchingBinarySearch` -/

namespace BranchingBinarySearch

def bound_? (before? : Int → Option Bool) (first : Int) (len : Nat) : Option Int :=
  if 0 < len then
    let half := len / 2
    let middle := first + half
    (before? middle).bind fun before =>
      if before then bound_? before? (middle + 1) (len - half - 1) else bound_? before? first half
  else some first
termination_by len

def bound? (before? : Int → Option Bool) (first last start : Int) : Option Int :=
  if start = last then bound_? before? first (start - first).toNat
  else
    (before? start).bind fun before =>
      if before then bound_? before? (start + 1) (last - (start + 1)).toNat
      else bound_? before? first (start - first).toNat

theorem halving_reads (len : Nat) :
    ∀ first : Int, Reads before? before first (first + len) →
      bound_? before? first len = some (bound_ before first len) := by
  induction len using Nat.strongRecOn with
  | ind len ih =>
      intro first hreads
      rw [bound_?, bound_]
      by_cases hlen : 0 < len
      · have hhalf : len / 2 < len := Nat.div_lt_self hlen (by decide)
        simp only [hlen, if_true]
        rw [hreads (first + (len / 2 : Nat)) (by omega) (by omega), Option.bind_some]
        cases before (first + (len / 2 : Nat)) with
        | true =>
            exact ih (len - len / 2 - 1) (by omega) _ (hreads.mono (by omega) (by omega))
        | false => exact ih (len / 2) hhalf _ (hreads.mono (le_refl first) (by omega))
      · rw [if_neg hlen, if_neg hlen]

theorem bound_reads (hreads : Reads before? before first last) (hfirst : first ≤ start)
    (hlast : start ≤ last) :
    bound? before? first last start = some (bound before first last start) := by
  have hleft := halving_reads (start - first).toNat first (hreads.mono (le_refl first) (by omega))
  rw [bound?, bound]
  by_cases heq : start = last
  · rw [if_pos heq, if_neg fun h => h.1 heq, hleft]
  · rw [if_neg heq, hreads start hfirst (by omega), Option.bind_some]
    cases hb : before start with
    | true =>
        rw [if_pos rfl, if_pos ⟨heq, rfl⟩]
        exact halving_reads _ _ (hreads.mono (by omega) (by omega))
    | false => rw [if_neg Bool.false_ne_true, if_neg fun h => Bool.false_ne_true h.2, hleft]

end BranchingBinarySearch

/-! ## `LinearSearch` -/

namespace LinearSearch

def scanUp? (before? : Int → Option Bool) : Nat → Int → Option Int
  | 0, it => some it
  | n + 1, it => (before? it).bind fun before => if before then scanUp? before? n (it + 1) else some it

def scanDown? (before? : Int → Option Bool) : Nat → Int → Option Int
  | 0, it => some it
  | n + 1, it =>
      (before? (it - 1)).bind fun before =>
        if before then some (it - 1) else scanDown? before? n (it - 1)

/-- The scan down and the test of the position that it stops at. -/
def searchDown? (before? : Int → Option Bool) (first start : Int) : Option Int :=
  (scanDown? before? (start - first).toNat start).bind fun it =>
    (before? it).map fun before => if before then it + 1 else it

def bound? (before? : Int → Option Bool) (first last start : Int) : Option Int :=
  if first = last then some first
  else if start = last then searchDown? before? first start
  else
    (before? start).bind fun before =>
      if before then scanUp? before? (last - (start + 1)).toNat (start + 1)
      else searchDown? before? first start

def lower_bound? (less : K → K → Bool) (at_ : Int → Option K) (lookup_key : K) :
    Int → Int → Int → Option Int :=
  bound? (beforeLower? less at_ lookup_key)

def upper_bound? (less : K → K → Bool) (at_ : Int → Option K) (lookup_key : K) :
    Int → Int → Int → Option Int :=
  bound? (beforeUpper? less at_ lookup_key)

theorem scanUp_reads (n : Nat) :
    ∀ it : Int, Reads before? before it (it + n) → scanUp? before? n it =
      some (scanUp before n it) := by
  induction n with
  | zero => exact fun _ _ => rfl
  | succ n ih =>
      intro it hreads
      rw [scanUp?, scanUp, hreads it (le_refl it) (by omega), Option.bind_some]
      cases before it with
      | true => exact ih (it + 1) (hreads.mono (by omega) (by omega))
      | false => rfl

theorem scanDown_reads (n : Nat) :
    ∀ it : Int, Reads before? before (it - n) it →
      scanDown? before? n it = some (scanDown before n it) := by
  induction n with
  | zero => exact fun _ _ => rfl
  | succ n ih =>
      intro it hreads
      rw [scanDown?, scanDown, hreads (it - 1) (by omega) (by omega), Option.bind_some]
      cases before (it - 1) with
      | true => rfl
      | false => exact ih (it - 1) (hreads.mono (by omega) (by omega))

theorem scanDown_range (before : Int → Bool) (n : Nat) :
    ∀ it : Int, it - n ≤ scanDown before n it ∧ scanDown before n it ≤ it ∧
      (0 < n → scanDown before n it < it) := by
  induction n with
  | zero => exact fun it => ⟨by rw [scanDown]; omega, le_refl it, fun h => absurd h (lt_irrefl 0)⟩
  | succ n ih =>
      intro it
      rw [scanDown]
      split
      · omega
      · have hrest := ih (it - 1)
        omega

theorem searchDown_reads (hreads : Reads before? before first last) (hempty : first < last)
    (hfirst : first ≤ start) (hlast : start ≤ last) :
    searchDown? before? first start =
      some (if before (scanDown before (start - first).toNat start)
        then scanDown before (start - first).toNat start + 1
        else scanDown before (start - first).toNat start) := by
  have hrange := scanDown_range before (start - first).toNat start
  rw [searchDown?, scanDown_reads _ _ (hreads.mono (by omega) hlast), Option.bind_some,
    hreads _ (by omega) (by omega), Option.map_some]

theorem bound_reads (hreads : Reads before? before first last) (hfirst : first ≤ start)
    (hlast : start ≤ last) :
    bound? before? first last start = some (bound before first last start) := by
  rw [bound?, bound]
  by_cases hempty : first = last
  · rw [if_pos hempty, if_pos hempty]
  have hdown := searchDown_reads hreads (by omega) hfirst hlast
  rw [if_neg hempty, if_neg hempty]
  by_cases heq : start = last
  · rw [if_pos heq, if_neg fun h => h.1 heq, hdown]
  · rw [if_neg heq, hreads start hfirst (by omega), Option.bind_some]
    cases hb : before start with
    | true =>
        rw [if_pos rfl, if_pos ⟨heq, rfl⟩]
        exact scanUp_reads _ _ (hreads.mono (by omega) (by omega))
    | false => rw [if_neg Bool.false_ne_true, if_neg fun h => Bool.false_ne_true h.2, hdown]

end LinearSearch

/-! ## `ExponentialSearch` -/

namespace ExponentialSearch

def gallopUp? (before? : Int → Option Bool) (size : Nat) (step : Nat) (l r : Int) :
    Option (Nat × Int × Int) :=
  if h : 2 ^ step ≤ size then
    have : step < size := Nat.lt_of_lt_of_le Nat.lt_two_pow_self h
    (before? r).bind fun before =>
      if before then gallopUp? before? size (step + 1) r (r + 2 ^ (step + 1))
      else some (2 ^ step, l, r)
  else some (2 ^ step, l, r)
termination_by size - step

def gallopDown? (before? : Int → Option Bool) (size : Nat) (step : Nat) (l r : Int) :
    Option (Nat × Int × Int) :=
  if h : 2 ^ step ≤ size then
    have : step < size := Nat.lt_of_lt_of_le Nat.lt_two_pow_self h
    (before? l).bind fun before =>
      if before then some (2 ^ step, l, r)
      else gallopDown? before? size (step + 1) (l - 2 ^ (step + 1)) l
  else some (2 ^ step, l, r)
termination_by size - step

/-- The bracket above a start at which the test holds. -/
def bracketUp? (before? : Int → Option Bool) (last start : Int) : Option (Int × Int) :=
  let size := (last - start).toNat / 2
  (gallopUp? before? size 0 start (start + 1)).map fun result =>
    (result.2.1 + 1, if size < result.1 then last else result.2.2)

/-- The bracket below a start at which it fails. -/
def bracketDown? (before? : Int → Option Bool) (first start : Int) : Option (Int × Int) :=
  let size := ((start - first).toNat + 1) / 2
  (gallopDown? before? size 0 (start - 1) start).map fun result =>
    (if size < result.1 then first else result.2.1 + 1, result.2.2)

def bracket? (before? : Int → Option Bool) (first last start : Int) : Option (Int × Int) :=
  if start = last then bracketDown? before? first start
  else
    (before? start).bind fun before =>
      if before then bracketUp? before? last start else bracketDown? before? first start

def bound? (before? beforeDefault? : Int → Option Bool) (first last start : Int) : Option Int :=
  if first = last then some first
  else
    (bracket? before? first last start).bind fun lr =>
      BranchingBinarySearch.bound? beforeDefault? lr.1 lr.2 lr.1

def lower_bound? [LT K] [DecidableLT K] (less : K → K → Bool) (at_ : Int → Option K)
    (lookup_key : K) : Int → Int → Int → Option Int :=
  bound? (beforeLower? less at_ lookup_key) (beforeLower? defaultLess at_ lookup_key)

def upper_bound? [LT K] [DecidableLT K] (less : K → K → Bool) (at_ : Int → Option K)
    (lookup_key : K) : Int → Int → Int → Option Int :=
  bound? (beforeUpper? less at_ lookup_key) (beforeUpper? defaultLess at_ lookup_key)

/-- Every step up is at most half the distance between the start and the end. -/
theorem gallopUp_reads (start : Int) (size : Nat) (hreads : Reads before? before first last)
    (hsize : 2 * (size : Int) ≤ last - start) (hfirst : first ≤ start) (step : Nat) (l r : Int)
    (hr : r = start + 2 ^ (step + 1) - 1) :
    gallopUp? before? size step l r = some (gallopUp before size step l r) := by
  fun_induction gallopUp before size step l r with
  | case1 step l r h _ ih =>
      have hpos : (0 : Int) < 2 ^ step := pow_pos (by decide) step
      have hbound : (2 : Int) ^ step ≤ size := by exact_mod_cast h.1
      rw [pow_succ] at hr
      rw [gallopUp?, dif_pos h.1, hreads r (by omega) (by omega), Option.bind_some, if_pos h.2]
      exact ih (by rw [pow_succ, pow_succ]; omega)
  | case2 step l r h =>
      rw [gallopUp?]
      by_cases hstep : 2 ^ step ≤ size
      · have hpos : (0 : Int) < 2 ^ step := pow_pos (by decide) step
        have hbound : (2 : Int) ^ step ≤ size := by exact_mod_cast hstep
        rw [pow_succ] at hr
        rw [dif_pos hstep, hreads r (by omega) (by omega), Option.bind_some,
          if_neg fun hb => h ⟨hstep, hb⟩]
      · rw [dif_neg hstep]

theorem gallopDown_reads (start : Int) (size : Nat) (hreads : Reads before? before first last)
    (hsize : 2 * (size : Int) ≤ start - first + 1) (hlast : start ≤ last) (step : Nat) (l r : Int)
    (hl : l = start + 1 - 2 ^ (step + 1)) :
    gallopDown? before? size step l r = some (gallopDown before size step l r) := by
  fun_induction gallopDown before size step l r with
  | case1 step l r h _ ih =>
      have hpos : (0 : Int) < 2 ^ step := pow_pos (by decide) step
      have hbound : (2 : Int) ^ step ≤ size := by exact_mod_cast h.1
      rw [pow_succ] at hl
      rw [gallopDown?, dif_pos h.1, hreads l (by omega) (by omega), Option.bind_some, h.2,
        if_neg Bool.false_ne_true]
      exact ih (by rw [pow_succ, pow_succ]; omega)
  | case2 step l r h =>
      rw [gallopDown?]
      by_cases hstep : 2 ^ step ≤ size
      · have hpos : (0 : Int) < 2 ^ step := pow_pos (by decide) step
        have hbound : (2 : Int) ^ step ≤ size := by exact_mod_cast hstep
        have hbefore : before l = true := by simpa [hstep] using h
        rw [pow_succ] at hl
        rw [dif_pos hstep, hreads l (by omega) (by omega), Option.bind_some, if_pos hbefore]
      · rw [dif_neg hstep]

theorem bracket_reads (hreads : Reads before? before first last) (hfirst : first ≤ start)
    (hlast : start ≤ last) :
    bracket? before? first last start = some (bracket before first last start) := by
  have hdown := gallopDown_reads start (((start - first).toNat + 1) / 2) hreads (by omega)
    hlast 0 (start - 1) start (by rw [Nat.zero_add, pow_one]; omega)
  rw [bracket?, bracket]
  by_cases heq : start = last
  · rw [if_pos heq, if_neg fun h => h.1 heq, bracketDown?, hdown, Option.map_some]
  · rw [if_neg heq, hreads start hfirst (by omega), Option.bind_some]
    cases hb : before start with
    | true =>
        have hup := gallopUp_reads start ((last - start).toNat / 2) hreads (by omega)
          hfirst 0 start (start + 1) (by rw [Nat.zero_add, pow_one]; omega)
        rw [if_pos rfl, if_pos ⟨heq, rfl⟩, bracketUp?, hup, Option.map_some]
    | false =>
        rw [if_neg Bool.false_ne_true, if_neg fun h => Bool.false_ne_true h.2, bracketDown?, hdown,
          Option.map_some]

theorem bound_reads {beforeDefault? : Int → Option Bool} {beforeDefault : Int → Bool}
    (hreads : Reads before? before first last)
    (hdefault : Reads beforeDefault? beforeDefault first last) (hfirst : first ≤ start)
    (hlast : start ≤ last) :
    bound? before? beforeDefault? first last start =
      some (bound before beforeDefault first last start) := by
  rw [bound?, bound]
  by_cases hempty : first = last
  · rw [if_pos hempty, if_pos hempty]
  have hbracket : Bracket before first last _ _ := bracket_spec hfirst hlast
  rw [if_neg hempty, if_neg hempty, bracket_reads hreads hfirst hlast, Option.bind_some]
  exact BranchingBinarySearch.bound_reads (hdefault.mono hbracket.first_le hbracket.le_last)
    (le_refl _) hbracket.le

/-- Reading only inside the window, both searches return the bound. -/
structure Exact [LT K] [DecidableLT K] (at_ : Int → K) (lookup_key : K) (first last start : Int) :
    Prop where
  lower : ∃ t, lower_bound? defaultLess (deref at_ first last) lookup_key first last start = some t ∧
    Boundary (beforeLower defaultLess at_ lookup_key) first last t
  upper : ∃ t, upper_bound? defaultLess (deref at_ first last) lookup_key first last start = some t ∧
    Boundary (beforeUpper defaultLess at_ lookup_key) first last t

theorem exact_of_sorted [LT K] [DecidableLT K] [IsStrictWeakOrder K fun x y => defaultLess x y = true]
    {at_ : Int → K} (h : SortedWindow defaultLess at_ first last) (lookup_key : K)
    (hfirst : first ≤ start) (hlast : start ≤ last) : Exact at_ lookup_key first last start where
  lower := ⟨_, bound_reads (reads_lower _ at_ _ _ _) (reads_lower _ at_ _ _ _) hfirst hlast,
    bound_boundary h.splits_lower (fun _ _ _ => rfl) hfirst hlast⟩
  upper := ⟨_, bound_reads (reads_upper _ at_ _ _ _) (reads_upper _ at_ _ _ _) hfirst hlast,
    bound_boundary h.splits_upper (fun _ _ _ => rfl) hfirst hlast⟩

/-- The even numbers, each of them twice. -/
def evens (i : Int) : Int :=
  2 * (i / 2)

/-- From the end of a window of seven elements down to a key that occurs twice. -/
theorem exact_evens : Exact evens 2 0 7 7 := by
  refine exact_of_sorted (fun i j _ hij _ => ?_) 2 (by decide) (by decide)
  rw [defaultLess, decide_eq_false_iff_not, not_lt, evens, evens]
  omega

end ExponentialSearch

end Searches
end TLI
