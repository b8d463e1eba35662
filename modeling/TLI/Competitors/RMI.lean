import TLI.Competitors.Records
import TLI.Searches.LinearAVX

/-!
# RMI — `RMI_B`, a learned guess and a search around it

The generated function `RMI_FUNC` returns a guess and an error bound for each key.  `RMI_B` clamps
the window around the guess to `data_` and hands it to its search class, with a projection to the
key of a record.  `LinearAVX` does not use the projection: a 32-byte load at a record reads two keys
and the two values behind them.
-/

namespace TLI
namespace RMI

open LowerBound PartitionPoint Records Searches Simd

/-! ## Model -/

inductive SearchClass
  | branchingBinarySearch
  | linearSearch
  | exponentialSearch
  | interpolationSearch
  | linearAVX
  deriving DecidableEq, Repr

/-- The generated function: the guess, and the error it writes through its pointer. -/
abbrev RmiFunc := UInt64 → UInt64 × UInt64

/-- `_mm256_loadu_si256` at a record: keys and values alternate, eight bytes each. -/
def load (data : List (KeyValue UInt64)) (it : Int) : List UInt64 :=
  [keyAt data it, valueAt data it, keyAt data (it + 1), valueAt data (it + 1)]

def SearchClass.lower_bound (D : DoubleRounding) (data : List (KeyValue UInt64))
    (lookup_key : UInt64) (fuel : Nat) (first last start : Int) : SearchClass → Option Int
  | .branchingBinarySearch =>
      some (BranchingBinarySearch.lower_bound defaultLess (keyAt data) lookup_key first last start)
  | .linearSearch =>
      some (LinearSearch.lower_bound defaultLess (keyAt data) lookup_key first last start)
  | .exponentialSearch =>
      some (ExponentialSearch.lower_bound defaultLess (keyAt data) lookup_key first last start)
  | .interpolationSearch =>
      InterpolationSearch.lower_bound D (keyAt data) lookup_key fuel first last start
  | .linearAVX =>
      some (LinearAVX.lower_bound (load data) defaultLess (keyAt data) lookup_key first last start)

/-- `guess < error ? 0 : guess - error` -/
def windowStart (guess error : UInt64) : UInt64 :=
  if guess < error then 0 else guess - error

/-- `guess + error >= data_.size() ? data_.size() : guess + error`, the sum modulo `2^64`. -/
def windowStop (size : Nat) (guess error : UInt64) : Nat :=
  if size ≤ (guess + error).toNat then size else (guess + error).toNat

/-- The search both queries start with. -/
def search (C : SearchClass) (D : DoubleRounding) (rmi : RmiFunc) (data : List (KeyValue UInt64))
    (lookup_key : UInt64) (fuel : Nat) : Option Int :=
  let (guess, error) := rmi lookup_key
  C.lower_bound D data lookup_key fuel (windowStart guess error).toNat
    (windowStop data.length guess error) guess.toNat

def EqualityLookup (C : SearchClass) (D : DoubleRounding) (rmi : RmiFunc)
    (data : List (KeyValue UInt64)) (lookup_key : UInt64) (fuel : Nat) : Option Nat :=
  (search C D rmi data lookup_key fuel).map fun it => position data lookup_key it.toNat

def RangeQuery (C : SearchClass) (D : DoubleRounding) (rmi : RmiFunc)
    (data : List (KeyValue UInt64)) (lower_key upper_key : UInt64) (fuel : Nat) : Option UInt64 :=
  (search C D rmi data lower_key fuel).map fun it => sumUpTo upper_key (data.drop it.toNat) 0

/-- The search class, a template parameter, plays no part. -/
def applicable (_ : SearchClass) (_unique _range_query insert multithread : Bool)
    (ops_filename : String) : Bool :=
  !insert && !decide ("books_200M_uint32".toList <:+: ops_filename.toList) && !multithread

/-! ## The property -/

/-- What the generated function promises about a key.  It clamps its predictions to the data, so
the error is far from wrapping around. -/
structure Sound (data : List (KeyValue UInt64)) (key : UInt64) (guess error : UInt64) : Prop where
  guess_le : guess.toNat ≤ data.length
  above : lb data key ≤ guess.toNat + error.toNat
  below : guess.toNat ≤ lb data key + error.toNat
  noWrap : guess.toNat + error.toNat < 2 ^ 64

/-- Both queries return, with the lower-bound position if it holds the key and with the sum of the
values in the interval. -/
structure Exact (C : SearchClass) (D : DoubleRounding) (rmi : RmiFunc)
    (data : List (KeyValue UInt64)) (key : UInt64) : Prop where
  lookup : Returns (EqualityLookup C D rmi data key) (position data key (lb data key))
  range : ∀ upper_key,
    Returns (RangeQuery C D rmi data key upper_key) (Multimap.rangeSum key upper_key (pairs data))

/-- On neither side of the guess does the window hold the sixteen elements of a vector turn. -/
def ShortWindow (size : Nat) (guess error : UInt64) : Prop :=
  min guess.toNat error.toNat < 16 ∧ min size (guess.toNat + error.toNat) ≤ guess.toNat + 16

/-! ## Exact windows -/

theorem toNat_windowStart (guess error : UInt64) :
    (windowStart guess error).toNat = guess.toNat - error.toNat := by
  rw [windowStart]
  split
  · rename_i hlt
    rw [UInt64.lt_iff_toNat_lt] at hlt
    rw [Nat.sub_eq_zero_of_le hlt.le]
    rfl
  · rename_i hge
    rw [UInt64.toNat_sub_of_le _ _ (not_lt.1 hge)]

theorem windowStop_eq {size : Nat} {guess error : UInt64}
    (h : guess.toNat + error.toNat < 2 ^ 64) :
    windowStop size guess error = min size (guess.toNat + error.toNat) := by
  rw [windowStop, UInt64.toNat_add, Nat.mod_eq_of_lt h]
  split
  · rename_i hle
    rw [Nat.min_eq_left hle]
  · rename_i hlt
    rw [Nat.min_eq_right (Nat.le_of_not_le hlt)]

section Search

variable {C : SearchClass} {D : DoubleRounding} {rmi : RmiFunc} {data : List (KeyValue UInt64)}
  {key : UInt64}

/-- Every class finds the lower bound of a window that is sorted and contains the start; the
vectorised one as long as it leaves the work to `LinearSearch`. -/
theorem SearchClass.lower_bound_returns {first last : Int} (C : SearchClass) (D : DoubleRounding)
    (key : UInt64) (start : Int) (hsort : Ascending (keyAt data) first last)
    (hfirst : first ≤ start) (hlast : start ≤ last)
    (hsize : C = .interpolationSearch → (last - first).toNat ≤ 2 ^ 53)
    (hshort : C = .linearAVX → start - first < 16 ∧ last - (start + 1) < 16) :
    ∃ t, Returns (fun fuel => C.lower_bound D data key fuel first last start) t ∧
      Boundary (beforeLower defaultLess (keyAt data) key) first last t := by
  cases C with
  | branchingBinarySearch =>
      exact ⟨_, .const _, BranchingBinarySearch.bound_boundary hsort.splits hfirst hlast⟩
  | linearSearch => exact ⟨_, .const _, LinearSearch.bound_boundary hsort.splits hfirst hlast⟩
  | exponentialSearch =>
      exact ⟨_, .const _, ExponentialSearch.bound_boundary hsort.splits (fun _ _ _ => rfl) hfirst
        hlast⟩
  | interpolationSearch =>
      exact InterpolationSearch.lower_bound_returns D key hsort (hsize rfl) hfirst hlast
  | linearAVX =>
      exact ⟨_, .const _, LinearAVX.lower_bound_boundary hsort hfirst hlast (hshort rfl).2
        (hshort rfl).1⟩

theorem search_returns {guess error : UInt64} (hsort : Ascends KeyValue.key data)
    (hsound : Sound data key guess error) (hrmi : rmi key = (guess, error))
    (hsize : C = .interpolationSearch → data.length ≤ 2 ^ 53)
    (hshort : C = .linearAVX → ShortWindow data.length guess error) :
    Returns (search C D rmi data key) (lb data key) := by
  have hlb := lb_le data key
  have hstart := toNat_windowStart guess error
  have hstop : windowStop data.length guess error = _ := windowStop_eq hsound.noWrap
  rcases hsound with ⟨hguess, habove, hbelow, -⟩
  have hle : windowStop data.length guess error ≤ data.length := by omega
  rcases C.lower_bound_returns D key guess.toNat
    ((ascending_keyAt hsort).mono (Int.natCast_nonneg (windowStart guess error).toNat)
      (Int.ofNat_le.2 hle))
    (by omega) (by omega) (fun hC => by have := hsize hC; omega)
    (fun hC => by rcases hshort hC with ⟨hdown, hup⟩; omega) with ⟨t, ht, hb⟩
  have hwindow : Boundary _ (windowStart guess error).toNat (windowStop data.length guess error) _ :=
    boundary_lb hsort key (Int.natCast_nonneg _) (by omega) (by omega) (by omega)
  rw [hwindow.unique hb]
  exact ht.congr fun fuel => by rw [search, hrmi]

theorem exact_of_search (hsort : Ascends KeyValue.key data)
    (h : Returns (search C D rmi data key) (lb data key)) : Exact C D rmi data key := by
  refine ⟨h.map _, fun upper_key => ?_⟩
  have hsum := h.map fun it => sumUpTo upper_key (data.drop it.toNat) 0
  rw [Int.toNat_natCast, sumUpTo_drop_lb hsort] at hsum
  exact hsum

end Search

/-! ## A full vector turn goes wrong -/

/-- `t` records with key 1 and the others with key 2, all with the value 0. -/
def stepData (size t : Nat) : List (KeyValue UInt64) :=
  List.replicate t { key := 1, value := 0 } ++ List.replicate (size - t) { key := 2, value := 0 }

theorem length_stepData {size t : Nat} (h : t ≤ size) : (stepData size t).length = size := by
  simp [stepData, h]

theorem stepData_ascends (size t : Nat) : Ascends KeyValue.key (stepData size t) := by
  refine List.pairwise_append.2 ⟨?_, ?_, ?_⟩
  · exact List.pairwise_replicate_of_refl
  · exact List.pairwise_replicate_of_refl
  · intro x hx y hy
    rw [List.eq_of_mem_replicate hx, List.eq_of_mem_replicate hy]
    decide

theorem stepData_low (size t : Nat) {i : Nat} (h : i < t) : (stepData size t)[i]? = some ⟨1, 0⟩ := by
  rw [stepData, List.getElem?_append_left (by simpa using h)]
  simp [h]

theorem stepData_high (size t : Nat) {i : Nat} (h : t ≤ i) (hi : i < size) :
    (stepData size t)[i]? = some ⟨2, 0⟩ := by
  rw [stepData, List.getElem?_append_right (by simpa using h)]
  simp [List.getElem?_replicate]
  omega

theorem lb_stepData (size t : Nat) : lb (stepData size t) 2 = t := by
  have hlow : ∀ x ∈ List.replicate t (⟨1, 0⟩ : KeyValue UInt64), x.key < 2 := by
    intro x hx
    rw [List.eq_of_mem_replicate hx]
    decide
  rw [lb, stepData, front_append_of_lt hlow]
  cases size - t <;> simp [front, List.replicate_succ]

/-- The lanes of a load among the records with key 2. -/
theorem load_stepData (size t : Nat) (it : Int) (cmp : UInt64 → Bool) (hlow : (t : Int) ≤ it)
    (hhigh : it + 1 < size) :
    (load (stepData size t) it).map cmp = [cmp 2, cmp 0, cmp 2, cmp 0] := by
  have h₀ := stepData_high size t (i := it.toNat) (by omega) (by omega)
  have h₁ := stepData_high size t (i := (it + 1).toNat) (by omega) (by omega)
  simp [load, keyAt, valueAt, h₀, h₁]

/-- A full turn upwards from behind the guess stops eight records too late. -/
theorem lower_bound_up {size guess stop : Nat} {first : Int} (hfirst : first ≤ guess)
    (hstop : guess + 17 ≤ stop) (hsize : stop ≤ size) :
    LinearAVX.lower_bound (load (stepData size (guess + 1))) defaultLess
      (keyAt (stepData size (guess + 1))) 2 first stop guess = guess + 9 := by
  have hguess : keyAt (stepData size (guess + 1)) guess = 1 := by
    simp [keyAt, stepData_low size (guess + 1) (Nat.lt_succ_self guess)]
  have hstart : (guess : Int) ≠ stop ∧ keyAt (stepData size (guess + 1)) guess < 2 :=
    ⟨by omega, by rw [hguess]; decide⟩
  rw [LinearAVX.lower_bound, if_neg (by omega), if_pos hstart]
  have hlanes := fun it => load_stepData size (guess + 1) it fun lane => cmplt_epu64 lane 2
  rw [LinearAVX.scan_avx_up_break (by omega) (by decide) (hlanes _ (by omega) (by omega))
    (hlanes _ (by omega) (by omega)) (hlanes _ (by omega) (by omega))
    (hlanes _ (by omega) (by omega))]
  omega

/-- A full turn downwards from the guess stops eight records too late as well. -/
theorem lower_bound_down {size guess stop : Nat} {first : Int} (hfirst : first + 16 ≤ guess)
    (hpos : 0 ≤ first) (hguess : guess ≤ stop) (hsize : stop ≤ size) :
    LinearAVX.lower_bound (load (stepData size (guess - 16))) defaultLess
      (keyAt (stepData size (guess - 16))) 2 first stop guess = guess - 8 := by
  have hstart : ¬ ((guess : Int) ≠ stop ∧ keyAt (stepData size (guess - 16)) guess < 2) := by
    rintro ⟨hne, hlt⟩
    have hhigh := stepData_high size (guess - 16) (i := guess) (by omega) (by omega)
    simp [keyAt, hhigh] at hlt
  rw [LinearAVX.lower_bound, if_neg (by omega), if_neg hstart]
  have hlanes := fun it => load_stepData size (guess - 16) it fun lane => cmpge_epu64 lane 2
  rw [LinearAVX.scan_avx_down_break (by omega) (by decide) (hlanes _ (by omega) (by omega))
    (hlanes _ (by omega) (by omega)) (hlanes _ (by omega) (by omega))
    (hlanes _ (by omega) (by omega))]

/-! ## The search classes for which `RMI_B` is exact -/

/-- A generated function that is exact for every key but one. -/
def guessing (data : List (KeyValue UInt64)) (key guess error : UInt64) : RmiFunc := fun k =>
  if k = key then (guess, error) else (UInt64.ofNat (lb data k), 0)

theorem sound_guessing {data : List (KeyValue UInt64)} {key guess error : UInt64}
    (hsize : data.length < 2 ^ 64) (h : Sound data key guess error) (k : UInt64) :
    Sound data k (guessing data key guess error k).1 (guessing data key guess error k).2 := by
  by_cases hk : k = key
  · rwa [hk, guessing, if_pos rfl]
  · rw [guessing, if_neg hk]
    have hle := lb_le data k
    have hguess : (UInt64.ofNat (lb data k)).toNat = lb data k :=
      UInt64.toNat_ofNat_of_lt' (hle.trans_lt hsize)
    constructor <;> simp only [hguess, UInt64.toNat_zero] <;> omega

/-- A search that stops at another record with the same key is noticed by the lookup. -/
theorem not_exact_of_search {C : SearchClass} {D : DoubleRounding} {rmi : RmiFunc} {size t : Nat}
    (ht : t < size) {m : Nat} (hm : m < size) (htm : t < m)
    (h : Returns (search C D rmi (stepData size t) 2) (m : Int)) :
    ¬ Exact C D rmi (stepData size t) 2 := by
  intro hexact
  have hsame := hexact.lookup.unique (h.map _)
  rw [lb_stepData, position, position, Int.toNat_natCast, stepData_high size t (le_refl t) ht,
    stepData_high size t htm.le hm] at hsame
  simp at hsame
  omega

theorem exists_not_exact (D : DoubleRounding) {size : Nat} {guess error : UInt64}
    (hguess : guess.toNat ≤ size) (hwrap : guess.toNat + error.toNat < 2 ^ 64)
    (hlong : ¬ ShortWindow size guess error) :
    ∃ t, t < size ∧ Sound (stepData size t) 2 guess error ∧
      ∀ rmi : RmiFunc, rmi 2 = (guess, error) → ¬ Exact .linearAVX D rmi (stepData size t) 2 := by
  have hstart := toNat_windowStart guess error
  have hstop : windowStop size guess error = _ := windowStop_eq hwrap
  by_cases hdown : min guess.toNat error.toNat < 16
  · -- Upwards: the key first occurs right behind the guess.
    have hup : guess.toNat + 17 ≤ min size (guess.toNat + error.toNat) := by
      by_contra hnot
      exact hlong ⟨hdown, by omega⟩
    have hlen : (stepData size (guess.toNat + 1)).length = size := length_stepData (by omega)
    refine ⟨guess.toNat + 1, by omega, ⟨by omega, ?_, ?_, hwrap⟩, fun rmi hrmi => ?_⟩
    · rw [lb_stepData]
      omega
    · rw [lb_stepData]
      omega
    · refine not_exact_of_search (m := guess.toNat + 9) (by omega) (by omega) (by omega) ?_
      refine (Returns.const _).congr fun fuel => ?_
      rw [search, hrmi]
      simp only [SearchClass.lower_bound, hlen]
      rw [lower_bound_up (by omega) (by omega) (by omega)]
      rfl
  · -- Downwards: the key first occurs sixteen records in front of the guess.
    have hlen : (stepData size (guess.toNat - 16)).length = size := length_stepData (by omega)
    refine ⟨guess.toNat - 16, by omega, ⟨by omega, ?_, ?_, hwrap⟩, fun rmi hrmi => ?_⟩
    · rw [lb_stepData]
      omega
    · rw [lb_stepData]
      omega
    · refine not_exact_of_search (m := guess.toNat - 8) (by omega) (by omega) (by omega) ?_
      refine (Returns.const _).congr fun fuel => ?_
      rw [search, hrmi]
      simp only [SearchClass.lower_bound, hlen]
      rw [lower_bound_down (by omega) (by omega) (by omega) (by omega), Option.some.injEq]
      omega

/-- For data of `size` records and a key with this guess and error, a search class that
`applicable` accepts is exact exactly when it is not `LinearAVX`, or leaves the window to
`LinearSearch`. -/
theorem exact_iff (C : SearchClass) (D : DoubleRounding) {size : Nat} {guess error : UInt64}
    (hguess : guess.toNat ≤ size) (hwrap : guess.toNat + error.toNat < 2 ^ 64)
    (hsize : size < 2 ^ 64) (hdouble : C = .interpolationSearch → size ≤ 2 ^ 53) :
    ((∃ unique range_query insert multithread ops_filename,
        applicable C unique range_query insert multithread ops_filename = true) →
      ∀ (rmi : RmiFunc) (data : List (KeyValue UInt64)), data.length = size →
        Ascends KeyValue.key data → (∀ k, Sound data k (rmi k).1 (rmi k).2) →
          ∀ key, rmi key = (guess, error) → Exact C D rmi data key) ↔
      (C = .linearAVX → ShortWindow size guess error) := by
  constructor
  · rintro hexact rfl
    by_contra hlong
    rcases exists_not_exact D hguess hwrap hlong with ⟨t, ht, hsound, hnot⟩
    have hlen := length_stepData ht.le
    refine hnot (guessing (stepData size t) 2 guess error) (if_pos rfl) ?_
    refine hexact ⟨false, false, false, false, "", by decide⟩ _ _ hlen (stepData_ascends size t) ?_
      2 (if_pos rfl)
    exact sound_guessing (hlen.symm ▸ hsize) hsound
  · rintro hshort - rmi data rfl hsort hsound key hrmi
    have hkey := hsound key
    rw [hrmi] at hkey
    exact exact_of_search hsort (search_returns hsort hkey hrmi hdouble hshort)

/-- The keys `1, …, 20` with the value 0. -/
def twentyRecords : List (KeyValue UInt64) :=
  (List.range 20).map fun i => { key := UInt64.ofNat (i + 1), value := 0 }

/-- A guess in the middle that is off by at most five: key 13 stands at position 12. -/
theorem exact_linearAVX_short :
    Exact .linearAVX .unrounded (guessing twentyRecords 13 10 5) twentyRecords 13 := by
  have hshort := (exact_iff .linearAVX .unrounded (show (10 : UInt64).toNat ≤ 20 by decide)
    (show (10 : UInt64).toNat + (5 : UInt64).toNat < 2 ^ 64 by decide) (by decide) (by decide)).2
    fun _ => ⟨by decide, by decide⟩
  refine hshort ⟨true, true, false, false, "", by decide⟩ _ twentyRecords rfl ?_
    (sound_guessing (by decide) ⟨by decide, by decide, by decide, by decide⟩) 13 (if_pos rfl)
  unfold Ascends
  decide

/-- The keys `1, …, 40` with the value 0. -/
def fortyRecords : List (KeyValue UInt64) :=
  (List.range 40).map fun i => { key := UInt64.ofNat (i + 1), value := 0 }

/-- Key 2 at position 1, guessed at position 0 with an error of 40: `LinearAVX` stops at position 9,
and the lookup of the stored key fails. -/
theorem not_exact_fortyRecords :
    applicable .linearAVX true true false false "" = true ∧ Ascends KeyValue.key fortyRecords ∧
      (∀ k, Sound fortyRecords k (guessing fortyRecords 2 0 40 k).1
        (guessing fortyRecords 2 0 40 k).2) ∧
      ¬ Exact .linearAVX .unrounded (guessing fortyRecords 2 0 40) fortyRecords 2 := by
  refine ⟨by decide, by unfold Ascends; decide, sound_guessing (by decide) ?_, fun hexact => ?_⟩
  · exact ⟨by decide, by decide, by decide, by decide⟩
  · have hstop : LinearAVX.lower_bound (load fortyRecords) defaultLess (keyAt fortyRecords) 2 0 40 0 =
        9 := by decide +kernel
    have hsearch : Returns (search .linearAVX .unrounded (guessing fortyRecords 2 0 40) fortyRecords
        2) 9 := (Returns.const (9 : Int)).congr fun fuel => congrArg some hstop
    have hsame := hexact.lookup.unique (hsearch.map _)
    exact absurd hsame (by decide)

end RMI
end TLI
