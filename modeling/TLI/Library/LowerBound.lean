import Mathlib.Data.List.InsertIdx
import Mathlib.Data.List.TakeWhile
import Mathlib.Order.Lattice

/-!
# LowerBound — insertion at the lower bound of a key, in parts of a sequence

A sequence is ordered by a key function `f`.  `insertLower f x xs` puts `x` in front of the first
element whose key is not smaller.  In a sequence of several parts, insertion takes place in the
first part that reaches the key.
-/

namespace TLI
namespace LowerBound

open List

variable {α K : Type*} [LinearOrder K] {f : α → K}

/-- Sorted by key; elements with equal keys may stand in any order. -/
def Ascends (f : α → K) (xs : List α) : Prop :=
  xs.Pairwise fun x y => f x ≤ f y

/-- The elements in front of the lower bound, and those from it on. -/
def front (f : α → K) (k : K) (xs : List α) : List α :=
  xs.takeWhile fun x => decide (f x < k)

def back (f : α → K) (k : K) (xs : List α) : List α :=
  xs.dropWhile fun x => decide (f x < k)

def insertLower (f : α → K) (x : α) (xs : List α) : List α :=
  front f (f x) xs ++ x :: back f (f x) xs

theorem front_append_back (f : α → K) (k : K) (xs : List α) : front f k xs ++ back f k xs = xs :=
  takeWhile_append_dropWhile

theorem lt_of_mem_front {k : K} {xs : List α} {x : α} (h : x ∈ front f k xs) : f x < k := by
  simpa using mem_takeWhile_imp h

/-- The lower bound of a key, as a position. -/
theorem findIdx_eq_length_front (f : α → K) (k : K) (xs : List α) :
    (xs.map f).findIdx (fun y => decide (k ≤ y)) = (front f k xs).length := by
  induction xs with
  | nil => rfl
  | cons x xs ih =>
      rw [map_cons, findIdx_cons, front, takeWhile_cons]
      by_cases hx : k ≤ f x
      · simp [hx, not_lt.2 hx]
      · rw [front] at ih
        simp [hx, not_le.1 hx, ih]

theorem insertIdx_append (x : α) (xs ys : List α) :
    (xs ++ ys).insertIdx xs.length x = xs ++ x :: ys := by
  induction xs with
  | nil => rfl
  | cons y xs ih => rw [length_cons, cons_append, insertIdx_succ_cons, ih, cons_append]

theorem insertIdx_append_of_ge (x : α) {xs ys : List α} {n : Nat} (h : xs.length ≤ n) :
    (xs ++ ys).insertIdx n x = xs ++ ys.insertIdx (n - xs.length) x := by
  induction xs generalizing n with
  | nil => rfl
  | cons y xs ih =>
      rw [length_cons] at h ⊢
      obtain ⟨n, rfl⟩ := Nat.exists_eq_add_of_le' (Nat.le_trans (Nat.le_add_left 1 _) h)
      rw [cons_append, insertIdx_succ_cons, ih (Nat.le_of_succ_le_succ h), Nat.add_sub_add_right,
        cons_append]

theorem insertIdx_append_of_le (x : α) {xs ys : List α} {n : Nat} (h : n ≤ xs.length) :
    (xs ++ ys).insertIdx n x = xs.insertIdx n x ++ ys := by
  induction xs generalizing n with
  | nil =>
      rw [length_nil, Nat.le_zero] at h
      subst h
      rfl
  | cons y xs ih =>
      cases n with
      | zero => rfl
      | succ n =>
          rw [cons_append, insertIdx_succ_cons, ih (Nat.le_of_succ_le_succ h), insertIdx_succ_cons,
            cons_append]

/-- Insertion in front of the last element keeps it. -/
theorem getLast?_insertIdx (x : α) {xs : List α} {n : Nat} (h : n < xs.length) :
    (xs.insertIdx n x).getLast? = xs.getLast? := by
  rw [getLast?_eq_getElem?, getLast?_eq_getElem?, length_insertIdx_of_le_length h.le,
    Nat.add_sub_cancel, getElem?_insertIdx_of_gt h]

theorem insertIdx_length_front (x : α) (xs : List α) :
    xs.insertIdx (front f (f x) xs).length x = insertLower f x xs := by
  have hsplit := insertIdx_append x (front f (f x) xs) (back f (f x) xs)
  rwa [front_append_back] at hsplit

theorem insertLower_perm (x : α) (xs : List α) : insertLower f x xs ~ x :: xs := by
  refine perm_middle.trans ?_
  rw [front_append_back]

/-- From the lower bound on, no key is smaller. -/
theorem le_of_mem_back {k : K} {xs : List α} (h : Ascends f xs) {x : α} (hx : x ∈ back f k xs) :
    k ≤ f x := by
  cases hback : back f k xs with
  | nil =>
      rw [hback] at hx
      cases hx
  | cons y ys =>
      have hhead : ¬ f y < k := by
        have hnot := head_dropWhile_not (fun x => decide (f x < k)) (l := xs)
          (by rw [show xs.dropWhile _ = back f k xs from rfl, hback]; exact cons_ne_nil _ _)
        simpa [show xs.dropWhile (fun x => decide (f x < k)) = y :: ys from hback] using hnot
      have hsorted : Ascends f (y :: ys) := hback ▸ h.sublist (dropWhile_sublist _)
      rw [hback] at hx
      rcases mem_cons.1 hx with rfl | hx
      · exact not_lt.1 hhead
      · exact (not_lt.1 hhead).trans ((pairwise_cons.1 hsorted).1 x hx)

theorem drop_length_front (f : α → K) (k : K) (xs : List α) :
    xs.drop (front f k xs).length = back f k xs := by
  calc
    xs.drop (front f k xs).length
        = (front f k xs ++ back f k xs).drop (front f k xs).length := by rw [front_append_back]
    _ = back f k xs := drop_left

theorem length_front_le (f : α → K) (k : K) (xs : List α) : (front f k xs).length ≤ xs.length :=
  (takeWhile_sublist _).length_le

theorem lt_of_lt_length_front {k : K} {xs : List α} {i : Nat} (h : i < (front f k xs).length)
    (hi : i < xs.length) : f xs[i] < k := by
  have hget : (front f k xs ++ back f k xs)[i]? = some xs[i] := by
    rw [front_append_back, getElem?_eq_getElem hi]
  rw [getElem?_append_left h] at hget
  exact lt_of_mem_front (mem_of_getElem? hget)

theorem le_of_length_front_le {k : K} {xs : List α} (hsort : Ascends f xs) {i : Nat}
    (h : (front f k xs).length ≤ i) (hi : i < xs.length) : k ≤ f xs[i] := by
  have hget : (back f k xs)[i - (front f k xs).length]? = some xs[i] := by
    rw [← drop_length_front, getElem?_drop, Nat.add_sub_cancel' h, getElem?_eq_getElem hi]
  exact le_of_mem_back hsort (mem_of_getElem? hget)

theorem Ascends.getElem_le {xs : List α} (hsort : Ascends f xs) {i j : Nat} (hij : i ≤ j)
    (hi : i < xs.length) (hj : j < xs.length) : f xs[i] ≤ f xs[j] := by
  rcases Nat.lt_or_eq_of_le hij with hlt | rfl
  · exact pairwise_iff_getElem.1 hsort i j hi hj hlt
  · exact le_refl _

/-- From the lower bound on stand exactly the elements whose key is not smaller. -/
theorem back_eq_filter {k : K} {xs : List α} (hsort : Ascends f xs) :
    back f k xs = xs.filter fun x => decide (k ≤ f x) := by
  have hfront : (front f k xs).filter (fun x => decide (k ≤ f x)) = [] :=
    filter_eq_nil_iff.2 fun x hx => by simp [lt_of_mem_front hx]
  have hback : (back f k xs).filter (fun x => decide (k ≤ f x)) = back f k xs :=
    filter_eq_self.2 fun x hx => decide_eq_true (le_of_mem_back hsort hx)
  calc
    back f k xs = (front f k xs ++ back f k xs).filter fun x => decide (k ≤ f x) := by
        rw [filter_append, hfront, hback, nil_append]
    _ = xs.filter fun x => decide (k ≤ f x) := by rw [front_append_back]

theorem insertLower_ascends {x : α} {xs : List α} (h : Ascends f xs) :
    Ascends f (insertLower f x xs) := by
  have hparts : Ascends f (front f (f x) xs ++ back f (f x) xs) := by rwa [front_append_back]
  rw [Ascends, pairwise_append] at hparts
  refine pairwise_append.2 ⟨hparts.1, pairwise_cons.2 ⟨fun y hy => le_of_mem_back h hy,
    hparts.2.1⟩, fun y hy z hz => ?_⟩
  rcases mem_cons.1 hz with rfl | hz
  · exact (lt_of_mem_front hy).le
  · exact hparts.2.2 y hy z hz

/-! ## Sequences of parts -/

/-- A part with only smaller keys is passed. -/
theorem front_append_of_lt {k : K} {xs ys : List α} (h : ∀ x, x ∈ xs → f x < k) :
    front f k (xs ++ ys) = xs ++ front f k ys :=
  takeWhile_append_of_pos fun x hx => decide_eq_true (h x hx)

theorem back_append_of_lt {k : K} {xs ys : List α} (h : ∀ x, x ∈ xs → f x < k) :
    back f k (xs ++ ys) = back f k ys :=
  dropWhile_append_of_pos fun x hx => decide_eq_true (h x hx)

theorem insertLower_append_of_lt {x : α} {xs ys : List α} (h : ∀ y, y ∈ xs → f y < f x) :
    insertLower f x (xs ++ ys) = xs ++ insertLower f x ys := by
  rw [insertLower, front_append_of_lt h, back_append_of_lt h, append_assoc, insertLower]

/-- A part that reaches the key holds the lower bound. -/
theorem parts_append_of_le {k : K} {xs ys : List α} (h : ∃ x, x ∈ xs ∧ k ≤ f x) :
    front f k (xs ++ ys) = front f k xs ∧ back f k (xs ++ ys) = back f k xs ++ ys := by
  induction xs with
  | nil =>
      obtain ⟨x, hx, -⟩ := h
      cases hx
  | cons y xs ih =>
      by_cases hy : f y < k
      · have hrest : ∃ x, x ∈ xs ∧ k ≤ f x := by
          obtain ⟨x, hx, hle⟩ := h
          rcases mem_cons.1 hx with rfl | hx
          · exact absurd hy (not_lt.2 hle)
          · exact ⟨x, hx, hle⟩
        simp only [front, back, cons_append, takeWhile_cons, dropWhile_cons, hy, decide_true,
          if_true] at ih ⊢
        exact ⟨by rw [(ih hrest).1], (ih hrest).2⟩
      · simp [front, back, hy]

theorem insertLower_append_of_le {x : α} {xs ys : List α} (h : ∃ y, y ∈ xs ∧ f x ≤ f y) :
    insertLower f x (xs ++ ys) = insertLower f x xs ++ ys := by
  rw [insertLower, (parts_append_of_le h).1, (parts_append_of_le h).2, insertLower, append_assoc,
    cons_append]

/-- Insertion in front of an element that reaches the key keeps the last element. -/
theorem getLast?_insertLower {x : α} {xs : List α} (h : ∃ y, y ∈ xs ∧ f x ≤ f y) :
    (insertLower f x xs).getLast? = xs.getLast? := by
  have hne : back f (f x) xs ≠ [] := by
    intro hnil
    obtain ⟨y, hy, hle⟩ := h
    rw [← front_append_back f (f x) xs, hnil, append_nil] at hy
    exact absurd (lt_of_mem_front hy) (not_lt.2 hle)
  conv_rhs => rw [← front_append_back f (f x) xs]
  rw [insertLower, getLast?_append, getLast?_append, getLast?_cons_of_ne_nil hne]

end LowerBound
end TLI
