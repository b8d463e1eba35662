import Mathlib.Data.List.Infix
import Mathlib.Data.List.TakeWhile

/-!
# TextSearch — leftmost matches of a few simple patterns

`search m s` is the match that a regular-expression search returns: the one that `m` finds at the
first position of `s` where it finds any.  The patterns are a literal text, a number with a unit
(`\d+unit`) and a decimal fraction with a unit (`\d+\.\d*unit`).  Where a run of digits is followed
by a unit that does not begin with a digit, the greedy match is the only one, so the matchers need
no backtracking.

A text that is put together from parts with a separator is searched part by part.
-/

namespace TLI
namespace TextSearch

variable {α : Type*}

/-- The leftmost match of a pattern; `m` tries the pattern at the front of a text. -/
def search (m : List Char → Option α) : List Char → Option α
  | [] => m []
  | c :: s =>
      match m (c :: s) with
      | some a => some a
      | none => search m s

/-- The rest of the text behind `pat`. -/
def literal (pat s : List Char) : Option (List Char) :=
  if pat.isPrefixOf s then some (s.drop pat.length) else none

/-- The digits of `(\d+)unit`. -/
def number (unit s : List Char) : Option (List Char) :=
  let digits := s.takeWhile Char.isDigit
  if digits ≠ [] ∧ unit.isPrefixOf (s.dropWhile Char.isDigit) then some digits else none

/-- The digits in front of and behind the point of `(\d+\.\d*)unit`. -/
def decimal (unit s : List Char) : Option (List Char × List Char) :=
  match s.dropWhile Char.isDigit with
  | '.' :: t =>
      let digits := s.takeWhile Char.isDigit
      if digits ≠ [] ∧ unit.isPrefixOf (t.dropWhile Char.isDigit) then
        some (digits, t.takeWhile Char.isDigit)
      else none
  | _ => none

/-! ## Searching part by part -/

variable {m : List Char → Option α} {pre rest s pat unit int frac digits : List Char} {c : Char}

theorem search_hit {a : α} (h : m s = some a) : search m s = some a := by
  cases s with
  | nil => exact h
  | cons c s => rw [search, h]

/-- Nothing matches from inside the part on, whatever follows its separator. -/
def Misses (m : List Char → Option α) (c : Char) (pre : List Char) : Prop :=
  ∀ x rest, x <:+ pre → m (x ++ c :: rest) = none

theorem Misses.cons {d : Char} (h : Misses m c pre)
    (hhead : ∀ rest, m (d :: pre ++ c :: rest) = none) : Misses m c (d :: pre) := by
  intro x rest hx
  rcases List.suffix_cons_iff.1 hx with rfl | hx
  · exact hhead rest
  · exact h x rest hx

/-- A part without a match is passed together with its separator. -/
theorem Misses.search (h : Misses m c pre) : search m (pre ++ c :: rest) = search m rest := by
  induction pre with
  | nil =>
      have hhead := h [] rest (List.suffix_refl _)
      rw [List.nil_append] at hhead ⊢
      rw [TextSearch.search, hhead]
  | cons d pre ih =>
      have hhead := h (d :: pre) rest (List.suffix_refl _)
      rw [List.cons_append] at hhead ⊢
      rw [TextSearch.search, hhead]
      exact ih fun x rest hx => h x rest (hx.trans (List.suffix_cons d pre))

/-- The parts behind the first one, each with the separator in front. -/
def join (c : Char) (parts : List (List Char)) : List Char :=
  parts.flatMap fun part => c :: part

/-- The search finds the first part that matches. -/
theorem search_join {a : α} {parts parts' : List (List Char)} {part : List Char}
    (hpre : Misses m c pre) (hparts : ∀ p ∈ parts, Misses m c p)
    (hpart : m (part ++ join c parts') = some a) :
    search m (pre ++ join c (parts ++ part :: parts')) = some a := by
  induction parts generalizing pre with
  | nil =>
      have hjoin : join c ([] ++ part :: parts') = c :: (part ++ join c parts') := rfl
      rw [hjoin, hpre.search]
      exact search_hit hpart
  | cons p parts ih =>
      have hjoin : join c (p :: parts ++ part :: parts') =
          c :: (p ++ join c (parts ++ part :: parts')) := rfl
      rw [hjoin, hpre.search]
      exact ih (hparts p List.mem_cons_self) fun q hq => hparts q (List.mem_cons_of_mem p hq)

/-- The search fails if nothing matches in any part. -/
theorem search_join_eq_none {parts : List (List Char)} (hpre : Misses m c pre)
    (hparts : ∀ p ∈ parts, Misses m c p)
    (hend : ∀ p ∈ pre :: parts, ∀ x, x <:+ p → m x = none) :
    search m (pre ++ join c parts) = none := by
  induction parts generalizing pre with
  | nil =>
      have hpre := hend pre List.mem_cons_self
      rw [show join c [] = [] from rfl, List.append_nil]
      clear hend hparts
      induction pre with
      | nil => exact hpre [] (List.suffix_refl _)
      | cons d pre ih =>
          rw [search, hpre (d :: pre) (List.suffix_refl _)]
          exact ih (fun x rest hx => ‹Misses m c (d :: pre)› x rest
            (hx.trans (List.suffix_cons d pre)))
            fun x hx => hpre x (hx.trans (List.suffix_cons d pre))
  | cons p parts ih =>
      have hjoin : join c (p :: parts) = c :: (p ++ join c parts) := rfl
      rw [hjoin, hpre.search]
      exact ih (hparts p List.mem_cons_self) (fun q hq => hparts q (List.mem_cons_of_mem p hq))
        fun q hq => hend q (List.mem_cons_of_mem pre hq)

/-! ## Literal texts -/

theorem literal_isSome : (literal pat s).isSome ↔ pat <+: s := by
  rw [literal]
  split
  · rename_i h
    exact iff_of_true rfl (List.isPrefixOf_iff_prefix.1 h)
  · rename_i h
    exact iff_of_false (by simp) fun hp => h (List.isPrefixOf_iff_prefix.2 hp)

/-- A search for a literal text tells whether the text occurs. -/
theorem search_literal_isSome : (search (literal pat) s).isSome ↔ pat <:+: s := by
  induction s with
  | nil => rw [search, literal_isSome, List.prefix_nil, List.infix_nil]
  | cons c s ih =>
      rw [search, List.infix_cons_iff, ← literal_isSome, ← ih]
      cases literal pat (c :: s) <;> simp

/-- What begins in a part and has no separator in it ends in the part. -/
theorem prefix_of_prefix_append_cons (hc : c ∉ pat) (h : pat <+: pre ++ c :: rest) :
    pat <+: pre := by
  rcases List.prefix_or_prefix_of_prefix h (List.prefix_append pre (c :: rest)) with h' | h'
  · exact h'
  · obtain ⟨t, rfl⟩ := h'
    cases t with
    | nil => simp
    | cons d t =>
        have hd := (List.cons_prefix_cons.1 ((List.prefix_append_right_inj pre).1 h)).1
        exact absurd (by simp [hd]) hc

/-- A text without the separator occurs where one of the parts has it. -/
theorem infix_join {parts : List (List Char)} (hc : c ∉ pat) (hne : pat ≠ []) :
    pat <:+: pre ++ join c parts ↔ ∃ p ∈ pre :: parts, pat <:+: p := by
  induction parts generalizing pre with
  | nil => simp [join]
  | cons p parts ih =>
      have hjoin : join c (p :: parts) = c :: (p ++ join c parts) := rfl
      have hsplit : pat <:+: pre ++ c :: (p ++ join c parts) ↔
          pat <:+: pre ∨ pat <:+: p ++ join c parts := by
        obtain ⟨d, pat', rfl⟩ := List.exists_cons_of_ne_nil hne
        have hhead : ¬ d :: pat' <+: c :: (p ++ join c parts) := fun h =>
          hc (by simp [(List.cons_prefix_cons.1 h).1])
        rw [List.infix_append_iff_ne_nil, List.infix_cons_iff, or_iff_right hhead]
        refine or_congr_right (or_iff_left ?_)
        rintro ⟨l₁, l₂, _, hl₂, heq, _, hpre₂⟩
        obtain ⟨e, l₂', rfl⟩ := List.exists_cons_of_ne_nil hl₂
        rw [(List.cons_prefix_cons.1 hpre₂).1] at heq
        exact hc (by simp [heq])
      rw [hjoin, hsplit, ih]
      simp

/-- A text whose first character is not in the front part occurs behind it. -/
theorem infix_append_of_head {d : Char} (hd : d ∉ pre) (h : d :: pat <:+: pre ++ rest) :
    d :: pat <:+: rest := by
  rcases List.infix_append_iff_ne_nil.1 h with h | h | ⟨l₁, l₂, hne, _, heq, hpre, _⟩
  · exact absurd (h.subset List.mem_cons_self) hd
  · exact h
  · obtain ⟨e, l₁', rfl⟩ := List.exists_cons_of_ne_nil hne
    have he : d = e := (List.cons_eq_cons.1 heq).1
    exact absurd (hpre.subset (he ▸ List.mem_cons_self)) hd

/-! ## Numbers -/

theorem dropWhile_append_cons (x : List Char) (hc : c.isDigit = false) :
    (x ++ c :: rest).dropWhile Char.isDigit = x.dropWhile Char.isDigit ++ c :: rest := by
  rw [List.dropWhile_append, List.dropWhile_cons, hc]
  cases hx : x.dropWhile Char.isDigit with
  | nil => simp
  | cons => simp

theorem number_eq_none (h : ¬ unit <+: s.dropWhile Char.isDigit) : number unit s = none := by
  rw [number, if_neg fun hand => h (List.isPrefixOf_iff_prefix.1 hand.2)]

/-- A part without the unit has no number with it. -/
theorem number_misses (hc : c.isDigit = false) (hunit : c ∉ unit) (h : ¬ unit <:+: pre) :
    Misses (number unit) c pre := by
  intro x rest hx
  refine number_eq_none fun hprefix => h ?_
  rw [dropWhile_append_cons x hc] at hprefix
  have hinfix := (prefix_of_prefix_append_cons hunit hprefix).isInfix
  exact hinfix.trans ((List.dropWhile_suffix _).trans hx).isInfix

theorem number_eq_none_of_not_infix (h : ¬ unit <:+: s) : number unit s = none :=
  number_eq_none fun hfront => h (hfront.isInfix.trans (List.dropWhile_suffix _).isInfix)

/-- The text does not begin with a digit. -/
def NoDigit (s : List Char) : Prop :=
  ∀ d ∈ s.head?, d.isDigit = false

theorem span_digits (hdigits : ∀ d ∈ digits, d.isDigit = true) (hrest : NoDigit rest) :
    (digits ++ rest).takeWhile Char.isDigit = digits ∧
      (digits ++ rest).dropWhile Char.isDigit = rest := by
  rw [List.takeWhile_append_of_pos hdigits, List.dropWhile_append_of_pos hdigits]
  cases rest with
  | nil => simp
  | cons d rest =>
      have hd : d.isDigit = false := hrest d rfl
      simp [hd]

theorem number_append (hdigits : ∀ d ∈ digits, d.isDigit = true) (hne : digits ≠ [])
    (hrest : NoDigit (unit ++ rest)) : number unit (digits ++ (unit ++ rest)) = some digits := by
  obtain ⟨htake, hdrop⟩ := span_digits hdigits hrest
  rw [number, htake, hdrop, if_pos ⟨hne, List.isPrefixOf_iff_prefix.2 (List.prefix_append _ _)⟩]

/-! ## Decimal fractions -/

theorem decimal_append (hint : ∀ d ∈ int, d.isDigit = true) (hfrac : ∀ d ∈ frac, d.isDigit = true)
    (hrest : NoDigit rest) :
    decimal unit (int ++ '.' :: (frac ++ rest)) =
      if int ≠ [] ∧ unit.isPrefixOf rest then some (int, frac) else none := by
  have hpoint : NoDigit ('.' :: (frac ++ rest)) := by
    intro d hd
    rw [← Option.some.inj hd]
    rfl
  obtain ⟨htake, hdrop⟩ := span_digits hint hpoint
  obtain ⟨htake', hdrop'⟩ := span_digits hfrac hrest
  rw [decimal, hdrop]
  simp only [htake, htake', hdrop']

theorem decimal_eq_none (h : (s.dropWhile Char.isDigit).head? ≠ some '.') :
    decimal unit s = none := by
  rw [decimal]
  split
  · rename_i t heq
    exact absurd (by rw [heq]; rfl) h
  · rfl

/-- A part without a point has no decimal fraction. -/
theorem decimal_misses (hc : c.isDigit = false) (hpoint : c ≠ '.') (h : '.' ∉ pre) :
    Misses (decimal unit) c pre := by
  intro x rest hx
  refine decimal_eq_none fun hhead => ?_
  rw [dropWhile_append_cons x hc] at hhead
  cases hdrop : x.dropWhile Char.isDigit with
  | nil =>
      rw [hdrop] at hhead
      exact hpoint (Option.some.inj hhead)
  | cons d t =>
      rw [hdrop] at hhead
      have hd : d = '.' := Option.some.inj hhead
      have hmem : d ∈ x.dropWhile Char.isDigit := by rw [hdrop]; exact List.mem_cons_self
      exact h (hd ▸ hx.subset ((List.dropWhile_suffix _).subset hmem))

/-- A decimal fraction with another unit is passed. -/
theorem decimal_misses_unit {unit' : List Char} (hc : c.isDigit = false) (hpoint : c ≠ '.')
    (hint : ∀ d ∈ int, d.isDigit = true) (hfrac : ∀ d ∈ frac, d.isDigit = true)
    (hunit' : NoDigit unit') (hne : unit' ≠ []) (hnotin : '.' ∉ unit')
    (hother : ∀ rest, ¬ unit <+: unit' ++ c :: rest) :
    Misses (decimal unit) c (int ++ '.' :: (frac ++ unit')) := by
  have hmiss : ∀ int : List Char, (∀ d ∈ int, d.isDigit = true) → ∀ rest,
      decimal unit (int ++ '.' :: (frac ++ unit') ++ c :: rest) = none := by
    intro int hint rest
    have hhead : NoDigit (unit' ++ c :: rest) := by
      intro d hd
      rw [List.head?_append_of_ne_nil _ hne] at hd
      exact hunit' d hd
    have hunit : ¬ unit.isPrefixOf (unit' ++ c :: rest) = true := fun h =>
      hother rest (List.isPrefixOf_iff_prefix.1 h)
    have happend := @decimal_append _ unit int frac hint hfrac hhead
    rw [if_neg fun hand => hunit hand.2] at happend
    simpa using happend
  induction int with
  | nil =>
      -- From the point on there is no second point.
      have hrest : '.' ∉ frac ++ unit' := by
        rw [List.mem_append, not_or]
        exact ⟨fun hmem => absurd (hfrac '.' hmem) (by decide), hnotin⟩
      exact (decimal_misses hc hpoint hrest).cons fun rest => hmiss [] hint rest
  | cons d int ih =>
      exact (ih fun e he => hint e (List.mem_cons_of_mem d he)).cons fun rest =>
        hmiss (d :: int) hint rest

end TextSearch
end TLI
