import TLI.Competitors.DynamicPGM.Iterate

/-!
# Levels — the levels of an index after an update

What the vectors and static indexes are after one level is replaced, after the levels behind the
buffer are emptied, after a level is added, and after the first empty level is filled.
-/

namespace TLI
namespace DynamicPGM

open List

variable {K V : Type}

namespace DynamicPGMIndex

variable {P : Template K V} {s : DynamicPGMIndex P}

/-! ## Replacing a level -/

/-- One vector for every level in use, one index for every level from the first indexed one on. -/
structure Sized (s : DynamicPGMIndex P) : Prop where
  data : min_level + s.data.length = s.used_levels
  pgm : s.pgm.length = s.used_levels - MinIndexedLevel

section Update

variable (s : DynamicPGMIndex P) (level i : Nat) (items : List (Item K V)) (index : P.PGMType)

@[simp] theorem used_setLevel : (s.setLevel level items).used_levels = s.used_levels := rfl

@[simp] theorem pgm_setLevel : (s.setLevel level items).pgm = s.pgm := rfl

@[simp] theorem length_data_setLevel : (s.setLevel level items).data.length = s.data.length :=
  length_set

@[simp] theorem used_setPgm : (s.setPgm level index).used_levels = s.used_levels := by
  rw [setPgm]
  split <;> rfl

@[simp] theorem data_setPgm : (s.setPgm level index).data = s.data := by
  rw [setPgm]
  split <;> rfl

@[simp] theorem length_pgm_setPgm : (s.setPgm level index).pgm.length = s.pgm.length := by
  rw [setPgm]
  split
  · exact length_set
  · rfl

@[simp] theorem get_level_setPgm : (s.setPgm level index).get_level i = s.get_level i := by
  rw [get_level, data_setPgm, get_level]

@[simp] theorem get_pgm_setLevel : (s.setLevel level items).get_pgm i = s.get_pgm i := rfl

theorem get_level_setLevel_self (h : level - min_level < s.data.length) :
    (s.setLevel level items).get_level level = items := by
  simp [get_level, setLevel, h]

theorem get_level_setLevel_of_ne (h : level - min_level ≠ i - min_level) :
    (s.setLevel level items).get_level i = s.get_level i := by
  simp [get_level, setLevel, getElem?_set_ne h]

/-- A level without a vector counts as empty, so emptying works on every level. -/
theorem get_level_setLevel_nil (h : level - min_level = i - min_level) :
    (s.setLevel level []).get_level i = [] := by
  rcases Nat.lt_or_ge (i - min_level) s.data.length with hlt | hge
  · simp [get_level, setLevel, h, hlt]
  · simp [get_level, setLevel, h, set_eq_of_length_le hge, getElem?_eq_none hge]

theorem get_pgm_setPgm_self (hlevel : MinIndexedLevel ≤ level)
    (h : level - MinIndexedLevel < s.pgm.length) :
    (s.setPgm level index).get_pgm level = index := by
  simp [get_pgm, setPgm, hlevel, h]

theorem get_pgm_setPgm_of_lt (hlt : level < i) :
    (s.setPgm level index).get_pgm i = s.get_pgm i := by
  by_cases hlevel : MinIndexedLevel ≤ level
  · have hne : level - MinIndexedLevel ≠ i - MinIndexedLevel := by omega
    simp [get_pgm, setPgm, hlevel, getElem?_set_ne hne]
  · simp [setPgm, hlevel]

end Update

/-- The levels behind the buffer, `n` of them, have been emptied. -/
def emptied (s : DynamicPGMIndex P) (n : Nat) : DynamicPGMIndex P :=
  Loop.repeatFor (fun k t =>
    (t.setLevel (1 + min_level + k) []).setPgm (1 + min_level + k) P.empty) n s

section Emptied

variable (s : DynamicPGMIndex P) (n : Nat)

theorem emptied_succ : s.emptied (n + 1) =
    ((s.emptied n).setLevel (1 + min_level + n) []).setPgm (1 + min_level + n) P.empty := rfl

@[simp] theorem used_emptied : (s.emptied n).used_levels = s.used_levels := by
  induction n with
  | zero => rfl
  | succ n ih => rw [emptied_succ, used_setPgm, used_setLevel, ih]

@[simp] theorem length_data_emptied : (s.emptied n).data.length = s.data.length := by
  induction n with
  | zero => rfl
  | succ n ih => rw [emptied_succ, data_setPgm, length_data_setLevel, ih]

@[simp] theorem length_pgm_emptied : (s.emptied n).pgm.length = s.pgm.length := by
  induction n with
  | zero => rfl
  | succ n ih => rw [emptied_succ, length_pgm_setPgm, pgm_setLevel, ih]

theorem get_level_emptied_of_lt {i : Nat} (hi : min_level < i) (hlt : i < 1 + min_level + n) :
    (s.emptied n).get_level i = [] := by
  induction n with
  | zero => omega
  | succ n ih =>
      rw [emptied_succ, get_level_setPgm]
      by_cases heq : i = 1 + min_level + n
      · exact get_level_setLevel_nil _ _ _ (by rw [heq])
      · rw [get_level_setLevel_of_ne _ _ _ _ (by omega)]
        exact ih (by omega)

theorem get_level_emptied_of_ge {i : Nat} (h : i ≤ min_level ∨ 1 + min_level + n ≤ i) :
    (s.emptied n).get_level i = s.get_level i := by
  induction n with
  | zero => rfl
  | succ n ih =>
      rw [emptied_succ, get_level_setPgm, get_level_setLevel_of_ne _ _ _ _ (by omega)]
      exact ih (by omega)

theorem get_pgm_emptied {i : Nat} (h : 1 + min_level + n ≤ i) :
    (s.emptied n).get_pgm i = s.get_pgm i := by
  induction n with
  | zero => rfl
  | succ n ih =>
      rw [emptied_succ, get_pgm_setPgm_of_lt _ _ _ _ (by omega), get_pgm_setLevel]
      exact ih (by omega)

end Emptied

/-- The items of the first `n` levels behind the buffer. -/
def levelItems (s : DynamicPGMIndex P) (n : Nat) : List (Item K V) :=
  (List.range' (1 + min_level) n).flatMap s.get_level

theorem levelItems_succ (s : DynamicPGMIndex P) (n : Nat) :
    s.levelItems (n + 1) = s.levelItems n ++ s.get_level (1 + min_level + n) := by
  rw [levelItems, range'_1_concat, flatMap_append, flatMap_singleton, levelItems]

theorem length_levelItems_mono (s : DynamicPGMIndex P) {k n : Nat} (h : k ≤ n) :
    (s.levelItems k).length ≤ (s.levelItems n).length := by
  induction h with
  | refl => exact le_rfl
  | step _ ih =>
      rw [levelItems_succ, length_append]
      exact ih.trans (Nat.le_add_right _ _)

/-! ## A level more -/

section AddLevel

theorem get_level_addLevel (s : DynamicPGMIndex P) (i l : Nat) :
    (s.addLevel i).get_level l = s.get_level l := by
  simp only [get_level, addLevel, getD_eq_getElem?_getD]
  rcases Nat.lt_or_ge (l - min_level) s.data.length with hlt | hge
  · rw [getElem?_append_left hlt]
  · rw [getElem?_append_right hge, getElem?_eq_none hge]
    cases l - min_level - s.data.length <;> rfl

theorem get_pgm_addLevel (s : DynamicPGMIndex P) (i l : Nat) :
    (s.addLevel i).get_pgm l = s.get_pgm l := by
  simp only [get_pgm, addLevel, getD_eq_getElem?_getD]
  split
  · rcases Nat.lt_or_ge (l - MinIndexedLevel) s.pgm.length with hlt | hge
    · rw [getElem?_append_left hlt]
    · rw [getElem?_append_right hge, getElem?_eq_none hge]
      cases l - MinIndexedLevel - s.pgm.length <;> rfl
  · rfl

theorem Sized.addLevel (h : Sized s) : Sized (s.addLevel s.used_levels) := by
  have hdata := h.data
  have hpgm := h.pgm
  refine ⟨?_, ?_⟩
  · simp only [DynamicPGMIndex.addLevel, length_append, length_singleton]
    omega
  · simp only [DynamicPGMIndex.addLevel]
    split
    · rw [length_append, length_singleton]
      omega
    · omega

/-- A level past the last one is empty. -/
theorem Sized.get_level_of_ge (h : Sized s) {i : Nat} (hi : s.used_levels ≤ i) :
    s.get_level i = [] := by
  have hdata := h.data
  rw [get_level, getD_eq_getElem?_getD, getElem?_eq_none (by omega)]
  rfl

end AddLevel

/-- The levels as `pairwise_logarithmic_merge` finds them: a new target level has been added. -/
def withTarget (s : DynamicPGMIndex P) (i : Nat) : DynamicPGMIndex P :=
  if i = s.used_levels then s.addLevel i else s

theorem get_level_withTarget (s : DynamicPGMIndex P) (i l : Nat) :
    (s.withTarget i).get_level l = s.get_level l := by
  rw [withTarget]
  split
  · exact get_level_addLevel s i l
  · rfl

theorem get_pgm_withTarget (s : DynamicPGMIndex P) (i l : Nat) :
    (s.withTarget i).get_pgm l = s.get_pgm l := by
  rw [withTarget]
  split
  · exact get_pgm_addLevel s i l
  · rfl

theorem Sized.withTarget (h : Sized s) (i : Nat) : Sized (s.withTarget i) := by
  rw [DynamicPGMIndex.withTarget]
  split
  · rename_i heq
    rw [heq]
    exact h.addLevel
  · exact h

theorem used_withTarget {i : Nat} (hi : i ≤ s.used_levels) :
    (s.withTarget i).used_levels = max s.used_levels (i + 1) := by
  rw [withTarget]
  split
  · rename_i heq
    rw [heq, addLevel]
    exact (Nat.max_eq_right (Nat.le_succ _)).symm
  · omega

/-! ## Filling the target level -/

/-- The cascade fills the first empty level. -/
def filled (s : DynamicPGMIndex P) (n : Nat) (items : List (Item K V)) : DynamicPGMIndex P :=
  (((s.emptied n).setLevel min_level []).setLevel (1 + min_level + n) items).setPgm
    (1 + min_level + n) (P.build items)

section Filled

variable {n : Nat} {items : List (Item K V)}

theorem used_filled : (s.filled n items).used_levels = s.used_levels := by
  rw [filled, used_setPgm, used_setLevel, used_setLevel, used_emptied]

theorem Sized.filled (h : Sized s) : Sized (s.filled n items) := by
  refine ⟨?_, ?_⟩
  · rw [DynamicPGMIndex.filled, data_setPgm, length_data_setLevel, length_data_setLevel,
      length_data_emptied, used_setPgm, used_setLevel, used_setLevel, used_emptied]
    exact h.data
  · rw [DynamicPGMIndex.filled, length_pgm_setPgm, pgm_setLevel, pgm_setLevel, length_pgm_emptied,
      used_setPgm, used_setLevel, used_setLevel, used_emptied]
    exact h.pgm

theorem get_level_filled_self (h : Sized s) (hn : 1 + min_level + n < s.used_levels) :
    (s.filled n items).get_level (1 + min_level + n) = items := by
  have hdata := h.data
  rw [filled, get_level_setPgm]
  refine get_level_setLevel_self _ _ _ ?_
  rw [length_data_setLevel, length_data_emptied]
  omega

theorem get_level_filled_of_lt {i : Nat} (hi : i < 1 + min_level + n) :
    (s.filled n items).get_level i = [] := by
  rw [filled, get_level_setPgm, get_level_setLevel_of_ne _ _ _ _ (by omega)]
  by_cases hzero : i ≤ min_level
  · exact get_level_setLevel_nil _ _ _ (by omega)
  · rw [get_level_setLevel_of_ne _ _ _ _ (by omega)]
    exact get_level_emptied_of_lt _ _ (by omega) hi

theorem get_level_filled_of_gt {i : Nat} (hi : 1 + min_level + n < i) :
    (s.filled n items).get_level i = s.get_level i := by
  rw [filled, get_level_setPgm, get_level_setLevel_of_ne _ _ _ _ (by omega),
    get_level_setLevel_of_ne _ _ _ _ (by omega)]
  exact get_level_emptied_of_ge _ _ (.inr hi.le)

theorem get_pgm_filled_self (h : Sized s) (hn : 1 + min_level + n < s.used_levels)
    (hindexed : MinIndexedLevel ≤ 1 + min_level + n) :
    (s.filled n items).get_pgm (1 + min_level + n) = P.build items := by
  have hpgm := h.pgm
  refine get_pgm_setPgm_self _ _ _ hindexed ?_
  rw [pgm_setLevel, pgm_setLevel, length_pgm_emptied]
  omega

theorem get_pgm_filled_of_gt {i : Nat} (hi : 1 + min_level + n < i) :
    (s.filled n items).get_pgm i = s.get_pgm i := by
  rw [filled, get_pgm_setPgm_of_lt _ _ _ _ hi, get_pgm_setLevel, get_pgm_setLevel]
  exact get_pgm_emptied _ _ hi.le

end Filled


/-! ## What is stored -/

section Stored

theorem stored_split {n : Nat} (h : 1 + min_level + n ≤ s.used_levels) :
    s.stored = s.get_level min_level ++ (s.levelItems n ++
      (List.range' (1 + min_level + n) (s.used_levels - (1 + min_level + n))).flatMap
        s.get_level) := by
  have hcount : s.used_levels - min_level = 1 + (n + (s.used_levels - (1 + min_level + n))) := by
    omega
  have hfirst : List.range' min_level 1 = [min_level] := rfl
  rw [stored, hcount, ← range'_append_1, ← range'_append_1, hfirst, Nat.add_comm min_level 1,
    flatMap_append, flatMap_append, flatMap_singleton, levelItems]

theorem stored_withTarget (h : Sized s) (i : Nat) : (s.withTarget i).stored = s.stored := by
  have hlevels : (s.withTarget i).get_level = s.get_level :=
    funext fun l => get_level_withTarget s i l
  have hdata := h.data
  rw [stored, stored, hlevels, withTarget]
  split
  · have hcount : s.used_levels + 1 - min_level = s.used_levels - min_level + 1 := by omega
    have hlast : min_level + (s.used_levels - min_level) = s.used_levels := by omega
    rw [addLevel, hcount, range'_1_concat, flatMap_append, flatMap_singleton, hlast,
      h.get_level_of_ge le_rfl, append_nil]
  · rfl

/-- Filling the target moves the buffer and the levels in front of it there. -/
theorem stored_filled (h : Sized s) {n : Nat} (items : List (Item K V))
    (hn : 1 + min_level + n < s.used_levels) (hempty : s.get_level (1 + min_level + n) = []) :
    s.stored = s.get_level min_level ++ s.levelItems n ++
        (List.range' (1 + min_level + n + 1) (s.used_levels - (1 + min_level + n + 1))).flatMap
          s.get_level ∧
      (s.filled n items).stored = items ++
        (List.range' (1 + min_level + n + 1) (s.used_levels - (1 + min_level + n + 1))).flatMap
          s.get_level := by
  have hcount : s.used_levels - (1 + min_level + n) =
      s.used_levels - (1 + min_level + n + 1) + 1 := by omega
  constructor
  · rw [stored_split hn.le, hcount, range'_succ, flatMap_cons, hempty, nil_append, append_assoc]
  · have hnone : (s.filled n items).levelItems n = [] := by
      refine flatMap_eq_nil_iff.2 fun l hl => get_level_filled_of_lt ?_
      rw [mem_range'_1] at hl
      exact hl.2
    rw [stored_split (s := s.filled n items) (n := n) (by rw [used_filled]; exact hn.le),
      get_level_filled_of_lt (by omega), hnone, used_filled, hcount, range'_succ, flatMap_cons,
      get_level_filled_self h hn, nil_append, nil_append]
    refine congrArg (items ++ ·) (flatMap_congr fun l hl => get_level_filled_of_gt ?_)
    rw [mem_range'_1] at hl
    omega

theorem stored_buffered (h : Sized s) (hused : 1 + min_level < s.used_levels)
    (items : List (Item K V)) :
    ∃ others, s.stored = s.get_level min_level ++ others ∧
      (s.setLevel min_level items).stored = items ++ others := by
  have hdata := h.data
  refine ⟨_, stored_split (n := 0) hused.le, ?_⟩
  rw [stored_split (s := s.setLevel min_level items) (n := 0) hused.le,
    get_level_setLevel_self _ _ _ (by omega)]
  refine congrArg (items ++ ·) (congrArg₂ _ rfl (flatMap_congr fun l hl => ?_))
  rw [mem_range'_1] at hl
  exact get_level_setLevel_of_ne _ _ _ _ (by omega)

end Stored


end DynamicPGMIndex
end DynamicPGM
end TLI
