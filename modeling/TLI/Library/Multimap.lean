import Mathlib.Algebra.BigOperators.Group.Finset.Basic
import Mathlib.Algebra.BigOperators.Group.Multiset.Basic
import Mathlib.Algebra.Order.BigOperators.Group.Multiset
import Mathlib.Data.List.Sort
import Mathlib.Order.Basic

/-!
# Multimap — ordered multimaps as multisets of pairs, and sorted lists that represent them

The abstract object is a multiset of key/value pairs.  What an ordered index is asked about it:

* `Multimap.Contains` — is some pair stored under this key?
* `Multimap.rangeSum`, `Multimap.rangeCount` — the sum of the values, and the number of pairs, with
  a key in a closed interval.

A list sorted by key represents its multiset.  The scan that skips the pairs below the lower key
and stops at the first pair above the upper one then visits exactly the interval
(`inRange_coe_of_sorted`).
-/

namespace TLI

abbrev Multimap (K V : Type*) := Multiset (K × V)

namespace Multimap

variable {K V : Type*} [LinearOrder K]

/-! ## The abstract queries -/

def Contains (m : Multimap K V) (k : K) : Prop :=
  ∃ v, (k, v) ∈ m

/-- The pairs with a key in `[lo, hi]`. -/
def inRange (lo hi : K) (m : Multimap K V) : Multimap K V :=
  m.filter fun p => lo ≤ p.1 ∧ p.1 ≤ hi

def rangeSum [AddCommMonoid V] (lo hi : K) (m : Multimap K V) : V :=
  ((inRange lo hi m).map Prod.snd).sum

def rangeCount (lo hi : K) (m : Multimap K V) : Nat :=
  (inRange lo hi m).card

omit [LinearOrder K] in
theorem Contains.mono {m m' : Multimap K V} (h : m ≤ m') {k : K} (hk : m.Contains k) :
    m'.Contains k := by
  rcases hk with ⟨v, hv⟩
  exact ⟨v, Multiset.mem_of_le h hv⟩

@[simp] theorem inRange_add (lo hi : K) (m m' : Multimap K V) :
    inRange lo hi (m + m') = inRange lo hi m + inRange lo hi m' :=
  Multiset.filter_add _ _ _

@[simp] theorem rangeSum_zero [AddCommMonoid V] (lo hi : K) :
    rangeSum lo hi (0 : Multimap K V) = 0 := by
  simp [rangeSum, inRange]

@[simp] theorem rangeSum_add [AddCommMonoid V] (lo hi : K) (m m' : Multimap K V) :
    rangeSum lo hi (m + m') = rangeSum lo hi m + rangeSum lo hi m' := by
  simp [rangeSum]

theorem rangeSum_singleton [AddCommMonoid V] (lo hi : K) (p : K × V) :
    rangeSum lo hi ({p} : Multimap K V) = if lo ≤ p.1 ∧ p.1 ≤ hi then p.2 else 0 := by
  by_cases h : lo ≤ p.1 ∧ p.1 ≤ hi
  · simp [rangeSum, inRange, Multiset.filter_singleton, h]
  · simp only [rangeSum, inRange, Multiset.filter_singleton, h, if_false]
    simp

/-- Only the pairs from the lower key on count. -/
theorem rangeSum_filter_le [AddCommMonoid V] (lo hi : K) (m : Multimap K V) :
    rangeSum lo hi (m.filter fun p => lo ≤ p.1) = rangeSum lo hi m := by
  have hfilter : inRange lo hi (m.filter fun p => lo ≤ p.1) = inRange lo hi m := by
    rw [inRange, Multiset.filter_filter, inRange]
    refine Multiset.filter_congr fun p _ => ?_
    exact ⟨fun h => h.1, fun h => ⟨h, h.1⟩⟩
  rw [rangeSum, hfilter, rangeSum]

theorem rangeSum_sum_eq_zero [AddCommMonoid V] {ι : Type*} {lo hi : K} {s : Finset ι}
    {f : ι → Multimap K V} (h : ∀ j ∈ s, rangeSum lo hi (f j) = 0) :
    rangeSum lo hi (∑ j ∈ s, f j) = 0 := by
  refine Finset.sum_induction f (fun m => rangeSum lo hi m = 0) ?_ (rangeSum_zero lo hi) h
  intro m m' hm hm'
  rw [rangeSum_add, hm, hm', add_zero]

theorem rangeCount_mono {lo hi : K} {m m' : Multimap K V} (h : m ≤ m') :
    rangeCount lo hi m ≤ rangeCount lo hi m' :=
  Multiset.card_le_card (Multiset.filter_le_filter _ h)

/-! ## Sorted lists -/

/-- The list is sorted by key; pairs with equal keys may stand in any order. -/
def Sorted (xs : List (K × V)) : Prop :=
  xs.Pairwise fun p q => p.1 ≤ q.1

theorem Sorted.dropWhile {xs : List (K × V)} (h : Sorted xs) (p : K × V → Bool) :
    Sorted (xs.dropWhile p) :=
  h.sublist (List.dropWhile_sublist p)

/-- Skipping the leading keys below `lo` skips all of them. -/
theorem dropWhile_eq_filter_of_sorted {xs : List (K × V)} (h : Sorted xs) (lo : K) :
    xs.dropWhile (fun p => decide (p.1 < lo)) = xs.filter fun p => decide (lo ≤ p.1) := by
  induction xs with
  | nil => rfl
  | cons p xs ih =>
      have hcons := List.pairwise_cons.1 h
      by_cases hp : p.1 < lo
      · simp [hp, ih hcons.2]
      · have hall : ∀ q ∈ p :: xs, lo ≤ q.1 := by
          intro q hq
          rcases List.mem_cons.1 hq with rfl | hq
          · exact not_lt.1 hp
          · exact (not_lt.1 hp).trans (hcons.1 q hq)
        rw [List.filter_eq_self.2 (by simpa using hall)]
        simp [hp]

/-- Stopping at the first key above `hi` keeps exactly the keys up to `hi`. -/
theorem takeWhile_eq_filter_of_sorted {xs : List (K × V)} (h : Sorted xs) (hi : K) :
    xs.takeWhile (fun p => decide (p.1 ≤ hi)) = xs.filter fun p => decide (p.1 ≤ hi) := by
  induction xs with
  | nil => rfl
  | cons p xs ih =>
      have hcons := List.pairwise_cons.1 h
      by_cases hp : p.1 ≤ hi
      · simp [hp, ih hcons.2]
      · have hnone : ∀ q ∈ p :: xs, ¬ q.1 ≤ hi := by
          intro q hq
          rcases List.mem_cons.1 hq with rfl | hq
          · exact hp
          · exact fun hle => hp ((hcons.1 q hq).trans hle)
        rw [List.filter_eq_nil_iff.2 (by simpa using hnone)]
        simp [hp]

/-- The scan of a sorted list between two keys visits exactly the interval. -/
theorem inRange_coe_of_sorted {xs : List (K × V)} (h : Sorted xs) (lo hi : K) :
    inRange lo hi (xs : Multimap K V) =
      (((xs.dropWhile fun p => decide (p.1 < lo)).takeWhile fun p => decide (p.1 ≤ hi) :
        List (K × V)) : Multimap K V) := by
  rw [takeWhile_eq_filter_of_sorted (h.dropWhile _), dropWhile_eq_filter_of_sorted h,
    List.filter_filter]
  simp [inRange, Bool.and_comm]

theorem rangeSum_coe_of_sorted [AddCommMonoid V] {xs : List (K × V)} (h : Sorted xs) (lo hi : K) :
    rangeSum lo hi (xs : Multimap K V) =
      (((xs.dropWhile fun p => decide (p.1 < lo)).takeWhile fun p => decide (p.1 ≤ hi)).map
        Prod.snd).sum := by
  rw [rangeSum, inRange_coe_of_sorted h, Multiset.map_coe, Multiset.sum_coe]

theorem rangeCount_coe_of_sorted {xs : List (K × V)} (h : Sorted xs) (lo hi : K) :
    rangeCount lo hi (xs : Multimap K V) =
      ((xs.dropWhile fun p => decide (p.1 < lo)).takeWhile fun p => decide (p.1 ≤ hi)).length := by
  rw [rangeCount, inRange_coe_of_sorted h, Multiset.coe_card]

/-- A sorted list contains a key exactly when the first pair not below it carries that key. -/
theorem contains_coe_iff_of_sorted {xs : List (K × V)} (h : Sorted xs) (k : K) :
    Contains (xs : Multimap K V) k ↔
      ∃ p ∈ (xs.dropWhile fun p => decide (p.1 < k)).head?, p.1 = k := by
  constructor
  · rintro ⟨v, hv⟩
    have hmem : (k, v) ∈ xs.dropWhile (fun p => decide (p.1 < k)) := by
      rw [dropWhile_eq_filter_of_sorted h]
      exact List.mem_filter.2 ⟨hv, by simp⟩
    cases hd : xs.dropWhile (fun p => decide (p.1 < k)) with
    | nil => simp [hd] at hmem
    | cons p rest =>
        refine ⟨p, by simp, le_antisymm ?_ ?_⟩
        · have hsorted := h.dropWhile (fun p => decide (p.1 < k))
          rw [hd] at hsorted hmem
          rcases List.mem_cons.1 hmem with heq | hrest
          · exact le_of_eq (by rw [← heq])
          · exact (List.pairwise_cons.1 hsorted).1 _ hrest
        · have hp : p ∈ xs.filter (fun p => decide (k ≤ p.1)) := by
            rw [← dropWhile_eq_filter_of_sorted h, hd]
            exact List.mem_cons_self
          simpa using (List.mem_filter.1 hp).2
  · rintro ⟨p, hp, rfl⟩
    refine ⟨p.2, ?_⟩
    exact (List.dropWhile_sublist _).subset (List.mem_of_mem_head? hp)

/-! ## Neighbours in a sorted list -/

theorem Sorted.head_le {xs : List (K × V)} (h : Sorted xs) {p x : K × V}
    (hhead : xs.head? = some p) (hx : x ∈ xs) : p.1 ≤ x.1 := by
  obtain ⟨rest, rfl⟩ := List.head?_eq_some_iff.1 hhead
  rcases List.mem_cons.1 hx with rfl | hx
  · exact le_refl _
  · exact (List.pairwise_cons.1 h).1 x hx

/-- A key is not above the lower one of two neighbours or not below the upper one. -/
theorem Sorted.neighbours {xs : List (K × V)} (h : Sorted xs) {p q : K × V}
    (hpq : (p, q) ∈ xs.zip xs.tail) {x : K × V} (hx : x ∈ xs) : x.1 ≤ p.1 ∨ q.1 ≤ x.1 := by
  induction xs with
  | nil => exact absurd hx List.not_mem_nil
  | cons y xs ih =>
      have hcons := List.pairwise_cons.1 h
      cases xs with
      | nil => exact absurd hpq List.not_mem_nil
      | cons z xs =>
          rcases List.mem_cons.1 hpq with heq | hbehind
          · cases heq
            rcases List.mem_cons.1 hx with rfl | hx
            · exact Or.inl (le_refl _)
            · rcases List.mem_cons.1 hx with rfl | hx
              · exact Or.inr (le_refl _)
              · exact Or.inr ((List.pairwise_cons.1 hcons.2).1 x hx)
          · rcases List.mem_cons.1 hx with rfl | hx
            · exact Or.inl (hcons.1 p (List.of_mem_zip hbehind).1)
            · exact ih hcons.2 hbehind hx

/-- A key between the first and the last one that is absent has a neighbour on either side. -/
theorem exists_neighbours {xs : List (K × V)} {key : K} (habsent : ∀ x ∈ xs, x.1 ≠ key) :
    ∀ {minKey maxKey : K × V}, xs.head? = some minKey → xs.getLast? = some maxKey →
      minKey.1 < key → key < maxKey.1 → ∃ pq ∈ xs.zip xs.tail, pq.1.1 < key ∧ key < pq.2.1 := by
  induction xs with
  | nil => exact fun hmin => (nomatch hmin)
  | cons p xs ih =>
      intro minKey maxKey hmin hmax hlo hhi
      cases hmin
      cases xs with
      | nil =>
          cases hmax
          exact absurd (hlo.trans hhi) (lt_irrefl _)
      | cons q xs =>
          rcases lt_or_gt_of_ne (habsent q (List.mem_cons_of_mem _ List.mem_cons_self)) with hq | hq
          · obtain ⟨pq, hpq, hkey⟩ := ih (fun x hx => habsent x (List.mem_cons_of_mem _ hx)) rfl hmax
              hq hhi
            exact ⟨pq, List.mem_cons_of_mem _ hpq, hkey⟩
          · exact ⟨(p, q), List.mem_cons_self, hlo, hq⟩

/-! ## Inserting into a sorted list -/

/-- Insert a pair behind the pairs whose key is not larger. -/
def emplace (p : K × V) (xs : List (K × V)) : List (K × V) :=
  (xs.takeWhile fun q => decide (q.1 ≤ p.1)) ++ p :: xs.dropWhile fun q => decide (q.1 ≤ p.1)

theorem emplace_perm (p : K × V) (xs : List (K × V)) : (emplace p xs).Perm (p :: xs) := by
  have h := @List.perm_middle _ p (xs.takeWhile fun q => decide (q.1 ≤ p.1))
    (xs.dropWhile fun q => decide (q.1 ≤ p.1))
  rwa [List.takeWhile_append_dropWhile] at h

theorem coe_emplace (p : K × V) (xs : List (K × V)) :
    ((emplace p xs : List (K × V)) : Multimap K V) = p ::ₘ (xs : Multimap K V) :=
  Multiset.coe_eq_coe.2 (emplace_perm p xs)

theorem Sorted.emplace {xs : List (K × V)} (h : Sorted xs) (p : K × V) :
    Sorted (emplace p xs) := by
  induction xs with
  | nil => simp [Multimap.emplace, Sorted]
  | cons q xs ih =>
      have hcons := List.pairwise_cons.1 h
      by_cases hq : q.1 ≤ p.1
      · have heq : Multimap.emplace p (q :: xs) = q :: Multimap.emplace p xs := by
          simp [Multimap.emplace, hq]
        rw [heq]
        refine List.pairwise_cons.2 ⟨fun r hr => ?_, ih hcons.2⟩
        rcases List.mem_cons.1 ((emplace_perm p xs).subset hr) with rfl | hr
        · exact hq
        · exact hcons.1 r hr
      · have heq : Multimap.emplace p (q :: xs) = p :: q :: xs := by
          simp [Multimap.emplace, hq]
        rw [heq]
        refine List.pairwise_cons.2 ⟨fun r hr => ?_, h⟩
        have hpq : p.1 ≤ q.1 := le_of_lt (not_le.1 hq)
        rcases List.mem_cons.1 hr with rfl | hr
        · exact hpq
        · exact hpq.trans (hcons.1 r hr)

/-- Inserting pairs one by one keeps the list sorted and adds them to the multiset. -/
theorem sorted_foldl_emplace (ps : List (K × V)) :
    ∀ {xs : List (K × V)}, Sorted xs → Sorted (ps.foldl (fun xs p => emplace p xs) xs) := by
  induction ps with
  | nil => exact fun h => h
  | cons p ps ih => exact fun h => ih (h.emplace p)

theorem coe_foldl_emplace (ps : List (K × V)) :
    ∀ xs : List (K × V), ((ps.foldl (fun xs p => emplace p xs) xs : List (K × V)) : Multimap K V) =
      (xs : Multimap K V) + (ps : Multimap K V) := by
  induction ps with
  | nil => simp
  | cons p ps ih =>
      intro xs
      rw [List.foldl_cons, ih, coe_emplace, ← Multiset.cons_coe p ps, Multiset.cons_add,
        Multiset.add_cons]

end Multimap
end TLI
