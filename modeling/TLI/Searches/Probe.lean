import TLI.Searches.Dereference
import TLI.Searches.Interpolation

/-!
# Probe — `InterpolationSearch` wherever it probes

The interpolation decides only which position of the window a turn looks at.  Here that choice is
left open: a `Probe` is any function that stays inside the window.  The searches return the bounds
for every probe, and the loop ends because a turn that does not return drops the position it looked
at.
-/

namespace TLI
namespace Searches

open PartitionPoint

namespace InterpolationSearch

/-- A choice of `mid_offset` for every turn and every window. -/
structure Probe where
  mid_offset : Nat → Int → Int → Nat
  le_distance : ∀ turn first last, mid_offset turn first last ≤ (last - first).toNat

variable {K : Type*} [LinearOrder K]

/-- `while (mid != first && at(mid) == lookup_key) --mid;` with `n` positions down to `first`. -/
def scanBack? (at_ : Int → Option K) (lookup_key : K) : Nat → Int → Option Int
  | 0, mid => some mid
  | n + 1, mid =>
      (at_ mid).bind fun key =>
        if key = lookup_key then scanBack? at_ lookup_key n (mid - 1) else some mid

/-- `while (mid != last && at(mid) == lookup_key) ++mid;` with `n` positions up to `last`. -/
def scanForward? (at_ : Int → Option K) (lookup_key : K) : Nat → Int → Option Int
  | 0, mid => some mid
  | n + 1, mid =>
      (at_ mid).bind fun key =>
        if key = lookup_key then scanForward? at_ lookup_key n (mid + 1) else some mid

/-- What `lower_bound_` returns from an equal key at `mid`. -/
def foundLower? (at_ : Int → Option K) (lookup_key : K) (first _ mid : Int) : Option Int :=
  (scanBack? at_ lookup_key (mid - first).toNat mid).bind fun mid =>
    (at_ mid).map fun key => if key < lookup_key then mid + 1 else mid

/-- What `upper_bound_` returns from an equal key at `mid`. -/
def foundUpper? (at_ : Int → Option K) (lookup_key : K) (_ last mid : Int) : Option Int :=
  scanForward? at_ lookup_key (last + 1 - mid).toNat mid

/-- The loop of `lower_bound_` and `upper_bound_`, which differ in the test of a key and in what
they do with an equal one. -/
def loop? (probe : Probe) (before : K → Bool) (found? : Int → Int → Int → Option Int)
    (at_ : Int → Option K) (lookup_key : K) : Nat → Nat → Int → Int → Option Int
  | 0, _, _, _ => none
  | fuel + 1, turn, first, last =>
      (at_ first).bind fun firstKey =>
        (at_ last).bind fun lastKey =>
          if firstKey < lastKey ∧ before firstKey = true ∧ before lastKey = false then
            let mid := first + probe.mid_offset turn first last
            (at_ mid).bind fun midKey =>
              if midKey < lookup_key then
                loop? probe before found? at_ lookup_key fuel (turn + 1) (mid + 1) last
              else if lookup_key < midKey then
                loop? probe before found? at_ lookup_key fuel (turn + 1) first (mid - 1)
              else found? first last mid
          else some (if before firstKey then last + 1 else first)

def bound_? (probe : Probe) (before : K → Bool) (found? : Int → Int → Int → Option Int)
    (at_ : Int → Option K) (lookup_key : K) (fuel : Nat) (first last : Int) : Option Int :=
  if first = last then some first
  else loop? probe before found? at_ lookup_key fuel 0 first (last - 1)

def bound? (probe : Probe) (before : K → Bool) (found? : Int → Int → Int → Option Int)
    (at_ : Int → Option K) (lookup_key : K) (fuel : Nat) (first last start : Int) : Option Int :=
  if start = last then bound_? probe before found? at_ lookup_key fuel first start
  else
    (at_ start).bind fun key =>
      if before key then bound_? probe before found? at_ lookup_key fuel (start + 1) last
      else bound_? probe before found? at_ lookup_key fuel first start

def lower_bound? (probe : Probe) (at_ : Int → Option K) (lookup_key : K) :
    Nat → Int → Int → Int → Option Int :=
  bound? probe (fun key => decide (key < lookup_key)) (foundLower? at_ lookup_key) at_ lookup_key

def upper_bound? (probe : Probe) (at_ : Int → Option K) (lookup_key : K) :
    Nat → Int → Int → Int → Option Int :=
  bound? probe (fun key => !decide (lookup_key < key)) (foundUpper? at_ lookup_key) at_ lookup_key

variable {at_ : Int → K} {lookup_key : K} {first last start l r mid : Int}

/-! ## Among equal keys -/

theorem scanBack_spec (at_ : Int → K) (lookup_key : K) (l r : Int) (n : Nat) :
    ∀ mid, l ≤ mid - n → mid < r → at_ (mid - n) ≠ lookup_key →
      ∃ m, scanBack? (deref at_ l r) lookup_key n mid = some m ∧ mid - n ≤ m ∧ m ≤ mid ∧
        at_ m ≠ lookup_key ∧ ∀ i, m < i → i ≤ mid → at_ i = lookup_key := by
  induction n with
  | zero =>
      intro mid _ _ hne
      rw [Int.natCast_zero, Int.sub_zero] at hne
      exact ⟨mid, rfl, by omega, le_refl mid, hne, fun i hi hle => absurd hi (not_lt.2 hle)⟩
  | succ n ih =>
      intro mid hl hr hne
      rw [scanBack?, deref_eq (by omega) hr, Option.bind_some]
      by_cases heq : at_ mid = lookup_key
      · have hbase : mid - 1 - (n : Int) = mid - (n + 1 : Nat) := by omega
        obtain ⟨m, hscan, hlow, hhigh, hm, hequal⟩ := ih (mid - 1) (by omega) (by omega)
          (by rwa [hbase])
        refine ⟨m, by rw [if_pos heq, hscan], by omega, by omega, hm, fun i hi hle => ?_⟩
        rcases eq_or_lt_of_le hle with rfl | hlt
        · exact heq
        · exact hequal i hi (by omega)
      · exact ⟨mid, if_neg heq, by omega, le_refl mid, heq,
          fun i hi hle => absurd hi (not_lt.2 hle)⟩

theorem scanForward_spec (at_ : Int → K) (lookup_key : K) (l r : Int) (n : Nat) :
    ∀ mid, l ≤ mid → mid + n ≤ r →
      ∃ m, scanForward? (deref at_ l r) lookup_key n mid = some m ∧ mid ≤ m ∧ m ≤ mid + n ∧
        (m < mid + n → at_ m ≠ lookup_key) ∧ ∀ i, mid ≤ i → i < m → at_ i = lookup_key := by
  induction n with
  | zero =>
      intro mid _ _
      exact ⟨mid, rfl, le_refl mid, by omega, fun h => absurd h (by omega),
        fun i hi hlt => absurd hlt (not_lt.2 hi)⟩
  | succ n ih =>
      intro mid hl hr
      rw [scanForward?, deref_eq hl (by omega), Option.bind_some]
      by_cases heq : at_ mid = lookup_key
      · obtain ⟨m, hscan, hlow, hhigh, hm, hequal⟩ := ih (mid + 1) (by omega) (by omega)
        refine ⟨m, by rw [if_pos heq, hscan], by omega, by omega, fun hlt => hm (by omega),
          fun i hi hlt => ?_⟩
        rcases eq_or_lt_of_le hi with rfl | hgt
        · exact heq
        · exact hequal i (by omega) hlt
      · exact ⟨mid, if_neg heq, le_refl mid, by omega, fun _ => heq,
          fun i hi hlt => absurd hlt (not_lt.2 hi)⟩

/-- From an equal key between two positions that the test tells apart, a search returns the
boundary. -/
def Finds (at_ : Int → K) (lookup_key : K) (l r : Int) (before : K → Bool)
    (found? : Int → Int → Int → Option Int) : Prop :=
  ∀ first last mid, l ≤ first → first ≤ mid → mid ≤ last → last < r → before (at_ first) = true →
    at_ mid = lookup_key → ∃ t, found? first last mid = some t ∧
      Boundary (fun i => before (at_ i)) first (last + 1) t

theorem le_of_sorted (h : SortedWindow defaultLess at_ l r) {i j : Int} (hi : l ≤ i) (hij : i ≤ j)
    (hj : j < r) : at_ i ≤ at_ j := by
  have hless := h i j hi hij hj
  rwa [defaultLess, decide_eq_false_iff_not, not_lt] at hless

theorem finds_lower (h : SortedWindow defaultLess at_ l r) :
    Finds at_ lookup_key l r (fun key => decide (key < lookup_key))
      (foundLower? (deref at_ l r) lookup_key) := by
  intro first last mid hl hfirst hlast hr hbefore hmid
  rw [decide_eq_true_eq] at hbefore
  have hbase : mid - ((mid - first).toNat : Int) = first := by omega
  obtain ⟨m, hscan, hlow, hhigh, hm, hequal⟩ := scanBack_spec at_ lookup_key l r
    (mid - first).toNat mid (by omega) (by omega)
    (by rw [hbase]; exact hbefore.ne)
  have hlt : at_ m < lookup_key :=
    lt_of_le_of_ne (hmid ▸ le_of_sorted h (by omega) hhigh (by omega)) hm
  refine ⟨m + 1, ?_, by omega, ?_, fun i hi hlt' => ?_, fun i hi hlt' => ?_⟩
  · rw [foundLower?, hscan, Option.bind_some, deref_eq (by omega) (by omega), Option.map_some,
      if_pos hlt]
  · have hne : m ≠ mid := fun heq => hm (heq ▸ hmid)
    omega
  · exact decide_eq_true (lt_of_le_of_lt (le_of_sorted h (by omega) (by omega) (by omega)) hlt)
  · have hfirst : at_ (m + 1) = lookup_key := by
      have hne : m ≠ mid := fun heq => hm (heq ▸ hmid)
      exact hequal (m + 1) (by omega) (by omega)
    exact decide_eq_false (not_lt.2 (hfirst ▸ le_of_sorted h (by omega) hi (by omega)))

theorem finds_upper (h : SortedWindow defaultLess at_ l r) :
    Finds at_ lookup_key l r (fun key => !decide (lookup_key < key))
      (foundUpper? (deref at_ l r) lookup_key) := by
  intro first last mid hl hfirst hlast hr _ hmid
  obtain ⟨m, hscan, hlow, hhigh, hm, hequal⟩ := scanForward_spec at_ lookup_key l r
    (last + 1 - mid).toNat mid (by omega) (by omega)
  refine ⟨m, hscan, by omega, by omega, fun i hi hlt => ?_, fun i hi hlt => ?_⟩
  · have hle : at_ i ≤ lookup_key := by
      rcases le_total mid i with hge | hle
      · exact (hequal i hge hlt).le
      · exact hmid ▸ le_of_sorted h (by omega) hle (by omega)
    simpa using hle
  · have hlt : lookup_key < at_ m :=
      lt_of_le_of_ne (hmid ▸ le_of_sorted h (by omega) hlow (by omega)) (hm (by omega)).symm
    simpa using lt_of_lt_of_le hlt (le_of_sorted h (by omega) hi (by omega))

/-! ## The loop -/

/-- The test holds below the lookup key and fails above it. -/
structure Separates (lookup_key : K) (before : K → Bool) : Prop where
  of_lt : ∀ key, key < lookup_key → before key = true
  of_gt : ∀ key, lookup_key < key → before key = false

theorem Separates.splits {before : K → Bool} (h : Separates lookup_key before)
    (hsort : SortedWindow defaultLess at_ l r) : Splits (fun i => before (at_ i)) l r := by
  intro i j hi hij hj hbefore
  rcases eq_or_lt_of_le (le_of_sorted hsort hi hij hj) with heq | hlt
  · exact (congrArg before heq).trans hbefore
  · refine h.of_lt _ (lt_of_lt_of_le hlt (not_lt.1 fun hgt => ?_))
    exact Bool.false_ne_true ((h.of_gt _ hgt).symm.trans hbefore)

variable {before : K → Bool} {found? : Int → Int → Int → Option Int} (probe : Probe)
  (hsort : SortedWindow defaultLess at_ l r) (hseparates : Separates lookup_key before)
  (hfound : Finds at_ lookup_key l r before found?)

include hsort hseparates hfound

theorem loop_boundary (fuel : Nat) :
    ∀ turn first last, l ≤ first → first ≤ last → last < r → (last - first).toNat < fuel →
      ∃ t, loop? probe before found? (deref at_ l r) lookup_key fuel turn first last = some t ∧
        Boundary (fun i => before (at_ i)) first (last + 1) t := by
  induction fuel with
  | zero =>
      intro turn first last _ _ _ hfuel
      exact absurd hfuel (Nat.not_lt_zero _)
  | succ fuel ih =>
      intro turn first last hl hle hr hfuel
      have hinside := (hseparates.splits hsort).mono hl (Int.add_one_le_of_lt hr)
      rw [loop?, deref_eq hl (by omega), Option.bind_some, deref_eq (by omega) hr, Option.bind_some]
      by_cases hloop : at_ first < at_ last ∧ before (at_ first) = true ∧ before (at_ last) = false
      · rw [if_pos hloop]
        obtain ⟨-, hfirst, hlast⟩ := hloop
        have hoffset := probe.le_distance turn first last
        generalize probe.mid_offset turn first last = offset at hoffset
        simp only
        generalize hmid : first + (offset : Int) = mid
        rw [deref_eq (by omega) (by omega), Option.bind_some]
        by_cases hlow : at_ mid < lookup_key
        · have hbefore := hseparates.of_lt _ hlow
          have hne : mid ≠ last := fun heq => by rw [heq, hlast] at hbefore; cases hbefore
          obtain ⟨t, ht, hb⟩ := ih (turn + 1) (mid + 1) last (by omega) (by omega) hr (by omega)
          exact ⟨t, by rw [if_pos hlow, ht], hinside.boundary_right hbefore (by omega) hb⟩
        · rw [if_neg hlow]
          by_cases hhigh : lookup_key < at_ mid
          · have hafter := hseparates.of_gt _ hhigh
            have hne : first ≠ mid := fun heq => by rw [← heq, hfirst] at hafter; cases hafter
            obtain ⟨t, ht, hb⟩ := ih (turn + 1) first (mid - 1) hl (by omega) (by omega) (by omega)
            rw [Int.sub_add_cancel] at hb
            exact ⟨t, by rw [if_pos hhigh, ht], hinside.boundary_left (.inr hafter) (by omega) hb⟩
          · rw [if_neg hhigh]
            exact hfound first last mid hl (by omega) (by omega) hr hfirst
              (le_antisymm (not_lt.1 hhigh) (not_lt.1 hlow))
      · rw [if_neg hloop]
        refine ⟨_, rfl, ?_⟩
        cases hfirst : before (at_ first) with
        | false => exact hinside.boundary_left (.inr hfirst) (by omega) (.empty _ first)
        | true =>
            -- The loop ended because the test holds at the last position as well.
            have hlast : before (at_ last) = true := by
              by_contra hnot
              rw [Bool.not_eq_true] at hnot
              refine hloop ⟨lt_of_le_of_ne (le_of_sorted hsort hl hle hr) fun heq => ?_, hfirst, hnot⟩
              rw [heq, hnot] at hfirst
              cases hfirst
            exact hinside.boundary_right (m := last) hlast hle (.empty _ _)

theorem bound_returns_within (hl : l ≤ first) (hle : first ≤ last) (hr : last ≤ r) :
    ∃ t, Returns (fun fuel =>
        bound_? probe before found? (deref at_ l r) lookup_key fuel first last) t ∧
      Boundary (fun i => before (at_ i)) first last t := by
  by_cases hempty : first = last
  · subst hempty
    refine ⟨first, (Returns.const first).congr fun fuel => ?_, .empty _ first⟩
    rw [bound_?, if_pos rfl]
  · have hrun := fun fuel => loop_boundary probe hsort hseparates hfound fuel 0 first (last - 1) hl
      (by omega) (by omega)
    rw [Int.sub_add_cancel] at hrun
    obtain ⟨t, -, hb⟩ := hrun ((last - first).toNat + 1) (by omega)
    refine ⟨t, ⟨(last - first).toNat + 1, fun fuel hfuel => ?_⟩, hb⟩
    obtain ⟨t', ht', hb'⟩ := hrun fuel (by omega)
    change bound_? probe before found? (deref at_ l r) lookup_key fuel first last = some t
    rw [bound_?, if_neg hempty, ht', hb'.unique hb]

theorem bound_returns (hl : l ≤ start) (hr : start ≤ r) :
    ∃ t, Returns (fun fuel =>
        bound? probe before found? (deref at_ l r) lookup_key fuel l r start) t ∧
      Boundary (fun i => before (at_ i)) l r t := by
  have hsplits := hseparates.splits hsort
  have hleft : start = r ∨ before (at_ start) = false → ∃ t, Returns (fun fuel =>
      bound_? probe before found? (deref at_ l r) lookup_key fuel l start) t ∧
        Boundary (fun i => before (at_ i)) l r t := by
    intro hstart
    obtain ⟨t, ht, hb⟩ := bound_returns_within probe hsort hseparates hfound (le_refl l) hl hr
    exact ⟨t, ht, hsplits.boundary_left hstart hr hb⟩
  simp only [bound?]
  by_cases heq : start = r
  · simp only [if_pos heq]
    exact hleft (.inl heq)
  · simp only [if_neg heq, deref_eq hl (lt_of_le_of_ne hr heq), Option.bind_some]
    cases hb : before (at_ start) with
    | true =>
        obtain ⟨t, ht, hbound⟩ := bound_returns_within probe hsort hseparates hfound
          (by omega : l ≤ start + 1) (by omega : start + 1 ≤ r) (le_refl r)
        exact ⟨t, ht, hsplits.boundary_right (m := start) hb hl hbound⟩
    | false => exact hleft (.inr hb)

omit hsort hseparates hfound

/-- Wherever it probes, reading only inside the window, each search returns its bound. -/
structure Exact (probe : Probe) (at_ : Int → K) (lookup_key : K) (first last start : Int) : Prop where
  lower : ∃ t, Returns (fun fuel =>
      lower_bound? probe (deref at_ first last) lookup_key fuel first last start) t ∧
    Boundary (beforeLower defaultLess at_ lookup_key) first last t
  upper : ∃ t, Returns (fun fuel =>
      upper_bound? probe (deref at_ first last) lookup_key fuel first last start) t ∧
    Boundary (beforeUpper defaultLess at_ lookup_key) first last t

theorem separates_lower (lookup_key : K) :
    Separates lookup_key fun key => decide (key < lookup_key) :=
  ⟨fun _ hlt => decide_eq_true hlt, fun _ hgt => decide_eq_false hgt.not_gt⟩

theorem separates_upper (lookup_key : K) :
    Separates lookup_key fun key => !decide (lookup_key < key) :=
  ⟨fun _ hlt => by simpa using hlt.le, fun _ hgt => by simpa using hgt⟩

theorem exact_of_probe (probe : Probe) (hsort : SortedWindow defaultLess at_ first last)
    (lookup_key : K) (hfirst : first ≤ start) (hlast : start ≤ last) :
    Exact probe at_ lookup_key first last start where
  lower := bound_returns probe hsort (separates_lower lookup_key) (finds_lower hsort) hfirst hlast
  upper := bound_returns probe hsort (separates_upper lookup_key) (finds_upper hsort) hfirst hlast

/-- A search that always probes the last position of the window. -/
def Probe.greedy : Probe where
  mid_offset _ first last := (last - first).toNat
  le_distance _ _ _ := le_refl _

/-- Keys 0, 0, 2, 2 and so on. -/
def pairs (i : Int) : UInt64 :=
  UInt64.ofNat (2 * (i / 2).toNat)

theorem exact_greedy : Exact .greedy pairs 2 0 7 3 := by
  refine exact_of_probe .greedy (fun i j _ hij hj => ?_) 2 (by decide) (by decide)
  rw [defaultLess, decide_eq_false_iff_not, not_lt, pairs, pairs, UInt64.le_iff_toNat_le,
    UInt64.toNat_ofNat', UInt64.toNat_ofNat', Nat.mod_eq_of_lt (by omega), Nat.mod_eq_of_lt (by omega)]
  omega

/-! ## The estimate of the code -/

/-- The probe that interpolates in `double` arithmetic. -/
def Probe.interpolated (D : DoubleRounding) (at_ : Int → UInt64) (lookup_key : UInt64) : Probe where
  mid_offset _ first last :=
    min (InterpolationSearch.mid_offset D (at_ first) (at_ last) lookup_key (last - first).toNat)
      (last - first).toNat
  le_distance _ _ _ := min_le_right _ _

section Interpolated

variable {at_ : Int → UInt64} {lookup_key : UInt64}

theorem scanBack_reads (at_ : Int → UInt64) (lookup_key : UInt64) (l r : Int) (n : Nat) :
    ∀ mid, l ≤ mid - n → mid < r →
      scanBack? (deref at_ l r) lookup_key n mid = some (scanBack at_ lookup_key n mid) ∧
        mid - n ≤ scanBack at_ lookup_key n mid ∧ scanBack at_ lookup_key n mid ≤ mid := by
  induction n with
  | zero => exact fun mid _ _ => ⟨rfl, by rw [scanBack]; omega, le_refl mid⟩
  | succ n ih =>
      intro mid hl hr
      rw [scanBack?, scanBack, deref_eq (by omega) hr, Option.bind_some]
      split
      · have hrest := ih (mid - 1) (by omega) (by omega)
        exact ⟨hrest.1, by omega, by omega⟩
      · exact ⟨rfl, by omega, le_refl mid⟩

/-- In a window of at most `2^53` elements the loop of the code is the loop with this probe. -/
theorem lowerLoop_eq_loop (D : DoubleRounding) (hsize : (r - l).toNat ≤ 2 ^ 53) (fuel : Nat) :
    ∀ turn first last, l ≤ first → first ≤ last → last < r →
      loop? (.interpolated D at_ lookup_key) (fun key => decide (key < lookup_key))
          (foundLower? (deref at_ l r) lookup_key) (deref at_ l r) lookup_key fuel turn first last =
        lowerLoop D at_ lookup_key fuel first last := by
  induction fuel with
  | zero => exact fun _ _ _ _ _ _ => rfl
  | succ fuel ih =>
      intro turn first last hl hle hr
      simp only [loop?, lowerLoop, deref_eq hl (lt_of_le_of_lt hle hr), deref_eq (hl.trans hle) hr,
        Option.bind_some, decide_eq_true_eq, decide_eq_false_iff_not]
      by_cases hloop : at_ first < at_ last ∧ at_ first < lookup_key ∧ ¬ at_ last < lookup_key
      · rw [if_pos hloop, if_pos hloop]
        obtain ⟨hends, hfirst, hlast⟩ := hloop
        have hoffset := mid_offset_le D hends hfirst.le (not_lt.1 hlast)
          (by omega : (last - first).toNat ≤ 2 ^ 53)
        have hprobe : (Probe.interpolated D at_ lookup_key).mid_offset turn first last = _ :=
          min_eq_left hoffset
        rw [hprobe]
        generalize mid_offset D _ _ _ _ = offset at hoffset
        generalize hmid : first + (offset : Int) = mid
        rw [deref_eq (by omega) (by omega), Option.bind_some]
        by_cases hlow : at_ mid < lookup_key
        · have hne : mid ≠ last := fun heq => hlast (heq ▸ hlow)
          rw [if_pos hlow, if_pos hlow, ih _ _ _ (by omega) (by omega) hr]
        · rw [if_neg hlow, if_neg hlow]
          by_cases hhigh : lookup_key < at_ mid
          · have hne : first ≠ mid := fun heq => hlow (heq ▸ hfirst)
            rw [if_pos hhigh, if_pos hhigh, ih _ _ _ hl (by omega) (by omega)]
          · have hscan := scanBack_reads at_ lookup_key l r (mid - first).toNat mid (by omega)
              (by omega)
            rw [if_neg hhigh, if_neg hhigh, foundLower?, hscan.1, Option.bind_some,
              deref_eq (by omega) (by omega), Option.map_some]
      · rw [if_neg hloop, if_neg hloop]
        by_cases hfirst : at_ first < lookup_key
        · rw [if_pos hfirst, if_neg (not_not.2 hfirst)]
        · rw [if_neg hfirst, if_pos hfirst]

theorem lower_bound_eq (D : DoubleRounding) (hsize : (last - first).toNat ≤ 2 ^ 53)
    (hfirst : first ≤ start) (hlast : start ≤ last) (fuel : Nat) :
    lower_bound? (.interpolated D at_ lookup_key) (deref at_ first last) lookup_key fuel first last
        start = lower_bound D at_ lookup_key fuel first last start := by
  have hinner : ∀ l r, first ≤ l → l ≤ r → r ≤ last →
      bound_? (.interpolated D at_ lookup_key) (fun key => decide (key < lookup_key))
          (foundLower? (deref at_ first last) lookup_key) (deref at_ first last) lookup_key fuel l r =
        lower_bound_ D at_ lookup_key fuel l r := by
    intro l r hl hle hr
    rw [bound_?, lower_bound_]
    by_cases hempty : l = r
    · rw [if_pos hempty, if_pos hempty]
    · rw [if_neg hempty, if_neg hempty]
      exact lowerLoop_eq_loop D hsize fuel 0 l (r - 1) hl (by omega) (by omega)
  rw [lower_bound?, bound?, lower_bound]
  by_cases heq : start = last
  · rw [if_pos heq, if_neg fun h => h.1 heq, hinner first start (le_refl first) hfirst hlast]
  · have hlt : start < last := lt_of_le_of_ne hlast heq
    rw [if_neg heq, deref_eq hfirst hlt, Option.bind_some]
    by_cases hkey : at_ start < lookup_key
    · rw [decide_eq_true hkey, if_pos rfl, if_pos ⟨heq, hkey⟩]
      exact hinner (start + 1) last (by omega) (by omega) (le_refl last)
    · rw [decide_eq_false hkey, if_neg Bool.false_ne_true, if_neg fun h => hkey h.2]
      exact hinner first start (le_refl first) hfirst hlast

end Interpolated

end InterpolationSearch

end Searches
end TLI
