import Mathlib.Data.List.Lex
import Mathlib.Order.Lattice

/-!
# Lexicographic — words in lexicographic order, none of them a prefix of another

Two words that are no prefixes of each other part at a first letter, and that letter decides how
they compare.
-/

namespace TLI
namespace Lexicographic

open List

variable {α : Type*}

/-- Neither word is a proper prefix of the other. -/
def PrefixFree (s t : List α) : Prop :=
  s <+: t ∨ t <+: s → s = t

theorem PrefixFree.symm {s t : List α} (h : PrefixFree s t) : PrefixFree t s :=
  fun hst => (h hst.symm).symm

/-- Where two words part. -/
structure Parts (front s t : List α) (a b : α) : Prop where
  left : front ++ [a] <+: s
  right : front ++ [b] <+: t
  ne : a ≠ b

theorem Parts.symm {front s t : List α} {a b : α} (h : Parts front s t a b) :
    Parts front t s b a :=
  ⟨h.right, h.left, h.ne.symm⟩

/-- Words that part are no prefixes of each other. -/
theorem Parts.not_initial {front s t : List α} {a b : α} (h : Parts front s t a b) :
    ¬ s <+: t := by
  intro hst
  have hsame : front ++ [a] = front ++ [b] :=
    (prefix_of_prefix_length_le (h.left.trans hst) h.right (by simp)).eq_of_length (by simp)
  exact h.ne (by simpa using hsame)

theorem Parts.words_ne {front s t : List α} {a b : α} (h : Parts front s t a b) : s ≠ t :=
  fun heq => h.not_initial (heq ▸ prefix_refl s)

theorem Parts.prefixFree {front s t : List α} {a b : α} (h : Parts front s t a b) :
    PrefixFree s t :=
  fun hst => (hst.elim h.not_initial h.symm.not_initial).elim

/-- Different words that are no prefixes of each other part behind every common prefix. -/
theorem exists_parts : ∀ {front s t : List α}, front <+: s → front <+: t → PrefixFree s t →
    s ≠ t → ∃ more a b, Parts (front ++ more) s t a b := by
  have hwords : ∀ {s t : List α}, PrefixFree s t → s ≠ t → ∃ more a b, Parts more s t a b := by
    intro s
    induction s with
    | nil => exact fun hfree hne => absurd (hfree (Or.inl (prefix_append [] _))) hne
    | cons a s ih =>
        intro t hfree hne
        cases t with
        | nil => exact absurd (hfree (Or.inr (prefix_append [] _))) hne
        | cons b t =>
            by_cases hab : a = b
            · subst hab
              have hfree' : PrefixFree s t := fun h =>
                (cons_inj_right a).1 (hfree (h.imp (prefix_cons_inj a).2 (prefix_cons_inj a).2))
              obtain ⟨more, x, y, hparts⟩ := ih hfree' fun h => hne (h ▸ rfl)
              exact ⟨a :: more, x, y, (prefix_cons_inj a).2 hparts.left,
                (prefix_cons_inj a).2 hparts.right, hparts.ne⟩
            · exact ⟨[], a, b, ⟨s, rfl⟩, ⟨t, rfl⟩, hab⟩
  rintro front s t ⟨s, rfl⟩ ⟨t, rfl⟩ hfree hne
  have hfree' : PrefixFree s t := fun h =>
    append_cancel_left (hfree (h.imp (prefix_append_right_inj front).2
      (prefix_append_right_inj front).2))
  obtain ⟨more, a, b, hparts⟩ := hwords hfree' fun h => hne (h ▸ rfl)
  refine ⟨more, a, b, ?_, ?_, hparts.ne⟩
  · rw [append_assoc]
    exact (prefix_append_right_inj front).2 hparts.left
  · rw [append_assoc]
    exact (prefix_append_right_inj front).2 hparts.right

/-- A word that goes on behind a prefix has a next letter. -/
theorem exists_next {front s : List α} (h : front <+: s) (hshort : ¬ s <+: front) :
    ∃ a, front ++ [a] <+: s := by
  obtain ⟨rest, rfl⟩ := h
  cases rest with
  | nil => exact absurd (by simp) hshort
  | cons a rest => exact ⟨a, rest, by rw [append_assoc]; rfl⟩

/-- The first letter that differs decides. -/
theorem Parts.lt [LinearOrder α] {front s t : List α} {a b : α} (h : Parts front s t a b)
    (hab : a < b) : s < t := by
  obtain ⟨s', rfl⟩ := h.left
  obtain ⟨t', rfl⟩ := h.right
  rw [append_assoc, append_assoc]
  exact Lex.append_left _ (Lex.rel hab) front

theorem le_of_initial [LinearOrder α] {s t : List α} (h : s <+: t) : s ≤ t := by
  obtain ⟨rest, rfl⟩ := h
  cases rest with
  | nil => rw [append_nil]
  | cons b rest =>
      have hlt : s ++ [] < s ++ b :: rest := Lex.append_left _ Lex.nil s
      rw [append_nil] at hlt
      exact hlt.le

/-- Unless the smaller word is a prefix of the larger, what follows them does not matter. -/
theorem append_lt_append [LinearOrder α] {s t : List α} (hlt : s < t) (hpre : ¬ s <+: t)
    (x y : List α) : s ++ x < t ++ y := by
  have hfree : PrefixFree s t := fun h =>
    (h.elim hpre fun h => absurd hlt (not_lt.2 (le_of_initial h))).elim
  obtain ⟨front, a, b, hparts⟩ :=
    exists_parts (prefix_append [] _) (prefix_append [] _) hfree (ne_of_lt hlt)
  have hab : a < b := by
    rcases lt_or_gt_of_ne hparts.ne with hab | hba
    · exact hab
    · exact absurd hlt (lt_asymm (hparts.symm.lt hba))
  have hparts' : Parts ([] ++ front) (s ++ x) (t ++ y) a b :=
    ⟨hparts.left.trans (prefix_append s x), hparts.right.trans (prefix_append t y), hparts.ne⟩
  exact hparts'.lt hab

end Lexicographic
end TLI
