import TLI.Library.LowerBound

/-!
# EraseFirst — removal of the first element with a key, in parts of a sequence

A sequence is ordered by a key function `f`.  In a sorted one the first element with the key stands
at the lower bound; in a sequence of several parts, it is removed from the first part that has it.
Removal until none is left keeps the elements with other keys.
-/

namespace TLI
namespace LowerBound

open List

variable {α K : Type*} [LinearOrder K] {f : α → K} {k : K} {xs ys : List α}

/-- The sequence has an element with the key. -/
def HasKey (f : α → K) (k : K) (xs : List α) : Prop :=
  ∃ x, x ∈ xs ∧ f x = k

def eraseFirst (f : α → K) (k : K) (xs : List α) : List α :=
  xs.eraseP fun x => decide (f x = k)

theorem eraseFirst_sublist (f : α → K) (k : K) (xs : List α) : eraseFirst f k xs <+ xs :=
  eraseP_sublist

theorem Ascends.eraseFirst (h : Ascends f xs) : Ascends f (eraseFirst f k xs) :=
  h.sublist (eraseFirst_sublist f k xs)

theorem eraseFirst_of_not_hasKey (h : ¬ HasKey f k xs) : eraseFirst f k xs = xs :=
  eraseP_of_forall_not fun x hx => by simpa using fun hkey => h ⟨x, hx, hkey⟩

theorem eraseFirst_cons_self {x : α} (h : f x = k) (xs : List α) :
    eraseFirst f k (x :: xs) = xs :=
  eraseP_cons_of_pos (p := fun y => decide (f y = k)) (decide_eq_true h)

theorem eraseFirst_append_of_hasKey (h : HasKey f k xs) (ys : List α) :
    eraseFirst f k (xs ++ ys) = eraseFirst f k xs ++ ys := by
  obtain ⟨x, hx, hkey⟩ := h
  exact eraseP_append_left (p := fun y => decide (f y = k)) (decide_eq_true hkey) ys hx

theorem eraseFirst_append_of_not_hasKey (h : ¬ HasKey f k xs) (ys : List α) :
    eraseFirst f k (xs ++ ys) = xs ++ eraseFirst f k ys :=
  eraseP_append_right ys fun x hx => by simpa using fun hkey => h ⟨x, hx, hkey⟩

/-- In a sorted sequence the element stands at the lower bound. -/
theorem HasKey.exists_split (h : HasKey f k xs) (hsorted : Ascends f xs) :
    ∃ x rest, xs = front f k xs ++ x :: rest ∧ f x = k ∧
      eraseFirst f k xs = front f k xs ++ rest := by
  have hfront : ¬ HasKey f k (front f k xs) := fun ⟨x, hx, hkey⟩ =>
    (lt_of_mem_front hx).ne hkey
  have hsplit := front_append_back f k xs
  obtain ⟨x, hx, hkey⟩ := h
  have hback : x ∈ back f k xs := by
    rw [← hsplit] at hx
    exact (mem_append.1 hx).resolve_left fun hmem => hfront ⟨x, hmem, hkey⟩
  cases hcons : back f k xs with
  | nil => exact absurd (hcons ▸ hback) not_mem_nil
  | cons y rest =>
      have hle : k ≤ f y := le_of_mem_back hsorted (hcons ▸ mem_cons_self)
      have hge : f y ≤ k := by
        have hsorted' : Ascends f (y :: rest) := hcons ▸ hsorted.sublist (dropWhile_sublist _)
        rcases mem_cons.1 (hcons ▸ hback : x ∈ y :: rest) with rfl | hrest
        · exact hkey.le
        · exact ((pairwise_cons.1 hsorted').1 x hrest).trans hkey.le
      have hy : f y = k := le_antisymm hge hle
      rw [hcons] at hsplit
      refine ⟨y, rest, hsplit.symm, hy, ?_⟩
      calc
        eraseFirst f k xs
            = eraseFirst f k (front f k xs ++ y :: rest) := by rw [hsplit]
        _ = front f k xs ++ eraseFirst f k (y :: rest) :=
            eraseFirst_append_of_not_hasKey hfront _
        _ = front f k xs ++ rest := by rw [eraseFirst_cons_self hy]

/-- Removal until none is left. -/
theorem filter_eraseFirst (f : α → K) (k : K) (xs : List α) :
    (eraseFirst f k xs).filter (fun x => decide (f x ≠ k)) =
      xs.filter fun x => decide (f x ≠ k) := by
  induction xs with
  | nil => rfl
  | cons x xs ih =>
      by_cases hkey : f x = k
      · rw [eraseFirst_cons_self hkey, filter_cons_of_neg (by simpa)]
      · rw [eraseFirst, eraseP_cons_of_neg (by simpa), filter_cons_of_pos (by simpa),
          filter_cons_of_pos (by simpa)]
        exact congrArg _ ih

theorem HasKey.countP_eraseFirst (h : HasKey f k xs) :
    (eraseFirst f k xs).countP (fun x => decide (f x = k)) + 1 =
      xs.countP fun x => decide (f x = k) := by
  obtain ⟨x, hx, hkey⟩ := h
  obtain ⟨y, before, after, -, hy, heq, herase⟩ :=
    exists_of_eraseP (p := fun x => decide (f x = k)) hx (decide_eq_true hkey)
  have hcons : (y :: after).countP (fun x => decide (f x = k)) =
      (after.countP fun x => decide (f x = k)) + 1 := countP_cons_of_pos hy
  rw [eraseFirst, herase, heq, countP_append, countP_append, hcons, Nat.add_assoc]

theorem filter_of_not_hasKey (h : ¬ HasKey f k xs) :
    xs.filter (fun x => decide (f x ≠ k)) = xs :=
  filter_eq_self.2 fun x hx => decide_eq_true fun hkey => h ⟨x, hx, hkey⟩

theorem countP_of_not_hasKey (h : ¬ HasKey f k xs) :
    (xs.countP fun x => decide (f x = k)) = 0 :=
  countP_eq_zero.2 fun x hx => by simpa using fun hkey => h ⟨x, hx, hkey⟩

omit [LinearOrder K] in
theorem hasKey_append : HasKey f k (xs ++ ys) ↔ HasKey f k xs ∨ HasKey f k ys := by
  simp only [HasKey, mem_append, or_and_right, exists_or]

end LowerBound
end TLI
