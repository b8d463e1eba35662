import TLI.Competitors.DynamicPGM.Levels

/-!
# Cascade — the levels behind the buffer merged one after another

Two temporary vectors change places from turn to turn.  Of two items with one key `merge` keeps one,
so a cascade is a permutation of its parts exactly when they share no key.
-/

namespace TLI
namespace DynamicPGM

open List LowerBound

variable {K V : Type} [LinearOrder K]

namespace DynamicPGMIndex

variable {P : Template K V} {s : DynamicPGMIndex P}

/-! ## `merge` -/

/-- No key occurs in both lists. -/
def KeysDisjoint (xs ys : List (Item K V)) : Prop :=
  ∀ x ∈ xs, ∀ y ∈ ys, x.key ≠ y.key

theorem mem_of_mem_merge {skip : Bool} {xs ys : List (Item K V)} {z : Item K V} :
    z ∈ merge skip xs ys → z ∈ xs ∨ z ∈ ys := by
  fun_induction merge skip xs ys with
  | case1 ys => exact .inr
  | case2 xs => exact .inl
  | case3 x xs y ys hlt ih =>
      intro hz
      rcases mem_cons.1 hz with rfl | hz
      · exact .inr mem_cons_self
      · exact (ih hz).imp_right (mem_cons_of_mem y)
  | case4 x xs y ys hge hlt ih =>
      intro hz
      rcases mem_cons.1 hz with rfl | hz
      · exact .inl mem_cons_self
      · exact (ih hz).imp_left (mem_cons_of_mem x)
  | case5 x xs y ys hge hge' hskip ih =>
      exact fun hz => (ih hz).imp (mem_cons_of_mem x) (mem_cons_of_mem y)
  | case6 x xs y ys hge hge' hskip ih =>
      intro hz
      rcases mem_cons.1 hz with rfl | hz
      · exact .inl mem_cons_self
      · exact (ih hz).imp (mem_cons_of_mem x) (mem_cons_of_mem y)

theorem length_merge_le (skip : Bool) (xs ys : List (Item K V)) :
    (merge skip xs ys).length ≤ xs.length + ys.length := by
  fun_induction merge skip xs ys with
  | case1 ys => exact Nat.le_add_left _ _
  | case2 xs => exact Nat.le_add_right _ _
  | _ =>
      simp only [length_cons] at *
      omega

/-- Without a common key nothing is dropped. -/
theorem merge_perm (skip : Bool) {xs ys : List (Item K V)} :
    KeysDisjoint xs ys → merge skip xs ys ~ xs ++ ys := by
  fun_induction merge skip xs ys with
  | case1 ys => exact fun _ => Perm.refl ys
  | case2 xs => exact fun _ => by rw [append_nil]
  | case3 x xs y ys hlt ih =>
      intro hdisj
      refine ((ih fun a ha b hb => hdisj a ha b (mem_cons_of_mem y hb)).cons y).trans ?_
      exact perm_middle.symm
  | case4 x xs y ys hge hlt ih =>
      intro hdisj
      exact (ih fun a ha b hb => hdisj a (mem_cons_of_mem x ha) b hb).cons x
  | case5 x xs y ys hge hge' _ _ =>
      intro hdisj
      have heq := le_antisymm (not_lt.1 hge) (not_lt.1 hge')
      exact absurd heq (hdisj x mem_cons_self y mem_cons_self)
  | case6 x xs y ys hge hge' _ _ =>
      intro hdisj
      have heq := le_antisymm (not_lt.1 hge) (not_lt.1 hge')
      exact absurd heq (hdisj x mem_cons_self y mem_cons_self)

theorem merge_ascends (skip : Bool) {xs ys : List (Item K V)} :
    Ascends Item.key xs → Ascends Item.key ys → Ascends Item.key (merge skip xs ys) := by
  fun_induction merge skip xs ys with
  | case1 ys => exact fun _ hys => hys
  | case2 xs => exact fun hxs _ => hxs
  | case3 x xs y ys hlt ih =>
      intro hxs hys
      have hcons := pairwise_cons.1 hys
      refine pairwise_cons.2 ⟨fun z hz => ?_, ih hxs hcons.2⟩
      rcases mem_of_mem_merge hz with hz | hz
      · rcases mem_cons.1 hz with rfl | hz
        · exact hlt.le
        · exact hlt.le.trans ((pairwise_cons.1 hxs).1 z hz)
      · exact hcons.1 z hz
  | case4 x xs y ys hge hlt ih =>
      intro hxs hys
      have hcons := pairwise_cons.1 hxs
      refine pairwise_cons.2 ⟨fun z hz => ?_, ih hcons.2 hys⟩
      rcases mem_of_mem_merge hz with hz | hz
      · exact hcons.1 z hz
      · rcases mem_cons.1 hz with rfl | hz
        · exact hlt.le
        · exact hlt.le.trans ((pairwise_cons.1 hys).1 z hz)
  | case5 x xs y ys hge hge' hskip ih =>
      exact fun hxs hys => ih (pairwise_cons.1 hxs).2 (pairwise_cons.1 hys).2
  | case6 x xs y ys hge hge' hskip ih =>
      intro hxs hys
      have hcons := pairwise_cons.1 hxs
      have hcons' := pairwise_cons.1 hys
      refine pairwise_cons.2 ⟨fun z hz => ?_, ih hcons.2 hcons'.2⟩
      rcases mem_of_mem_merge hz with hz | hz
      · exact hcons.1 z hz
      · exact (not_lt.1 hge).trans (hcons'.1 z hz)

/-- Two sorted lists with a common key lose an item. -/
theorem length_merge_lt (skip : Bool) {xs ys : List (Item K V)} :
    Ascends Item.key xs → Ascends Item.key ys → (∃ x ∈ xs, ∃ y ∈ ys, x.key = y.key) →
      (merge skip xs ys).length < xs.length + ys.length := by
  fun_induction merge skip xs ys with
  | case1 ys =>
      rintro _ _ ⟨x, hx, -⟩
      cases hx
  | case2 xs =>
      rintro _ _ ⟨x, -, y, hy, -⟩
      cases hy
  -- In the cases that keep one item the common key is still to come; the last two drop an item.
  | case3 x xs y ys hlt ih =>
      rintro hxs hys ⟨a, ha, b, hb, heq⟩
      have hle : x.key ≤ a.key := by
        rcases mem_cons.1 ha with rfl | ha
        · exact le_rfl
        · exact (pairwise_cons.1 hxs).1 a ha
      rcases mem_cons.1 hb with rfl | hb
      · exact absurd (heq ▸ hle) (not_le.2 hlt)
      · have := ih hxs (pairwise_cons.1 hys).2 ⟨a, ha, b, hb, heq⟩
        simp only [length_cons] at this ⊢
        omega
  | case4 x xs y ys hge hlt ih =>
      rintro hxs hys ⟨a, ha, b, hb, heq⟩
      have hle : y.key ≤ b.key := by
        rcases mem_cons.1 hb with rfl | hb
        · exact le_rfl
        · exact (pairwise_cons.1 hys).1 b hb
      rcases mem_cons.1 ha with rfl | ha
      · exact absurd (heq ▸ hle) (not_le.2 hlt)
      · have := ih (pairwise_cons.1 hxs).2 hys ⟨a, ha, b, hb, heq⟩
        simp only [length_cons] at this ⊢
        omega
  | case5 x xs y ys hge hge' hskip ih =>
      intro _ _ _
      have := length_merge_le skip xs ys
      simp only [length_cons]
      omega
  | case6 x xs y ys hge hge' hskip ih =>
      intro _ _ _
      have := length_merge_le skip xs ys
      simp only [length_cons]
      omega

/-! ## Buffers -/

omit [LinearOrder K] in
theorem Buffer.write_eq {buffer : Buffer K V} {items : List (Item K V)}
    (h : items.length ≤ buffer.length) :
    ∃ buffer' : Buffer K V, buffer.write items = some buffer' ∧ buffer'.length = buffer.length ∧
      buffer'.read items.length = some items := by
  refine ⟨items.map some ++ buffer.drop items.length, if_pos h, ?_, ?_⟩
  · rw [length_append, length_map, length_drop]
    omega
  · have htake : (items.map some ++ buffer.drop items.length).take items.length = items.map some :=
      take_left' (length_map _)
    rw [Buffer.read, htake, if_pos (by rw [length_append, length_map]; omega), mapM_map]
    exact (mapM_pure (f := id)).trans (by rw [map_id]; rfl)

/-! ## The cascade -/

/-- The first `n` levels behind the buffer merged into `first`, one after another. -/
def cascade (s : DynamicPGMIndex P) (first : List (Item K V)) : Nat → List (Item K V)
  | 0 => first
  | n + 1 => merge (1 + min_level + n == s.used_levels - 1) (cascade s first n)
      (s.get_level (1 + min_level + n))

theorem length_cascade_le (first : List (Item K V)) (n : Nat) :
    (s.cascade first n).length ≤ first.length + (s.levelItems n).length := by
  induction n with
  | zero => exact Nat.le_add_right _ _
  | succ n ih =>
      have hmerge := length_merge_le (1 + min_level + n == s.used_levels - 1) (s.cascade first n)
        (s.get_level (1 + min_level + n))
      rw [cascade, levelItems_succ, length_append]
      omega

theorem cascade_subset (first : List (Item K V)) (n : Nat) :
    s.cascade first n ⊆ first ++ s.levelItems n := by
  induction n with
  | zero => exact subset_append_left _ _
  | succ n ih =>
      intro x hx
      rw [levelItems_succ, ← append_assoc]
      rcases mem_of_mem_merge hx with hx | hx
      · exact mem_append_left _ (ih hx)
      · exact mem_append_right _ hx

theorem cascade_ascends {first : List (Item K V)} (hfirst : Ascends Item.key first)
    (hsorted : ∀ i, Ascends Item.key (s.get_level i)) (n : Nat) :
    Ascends Item.key (s.cascade first n) := by
  induction n with
  | zero => exact hfirst
  | succ n ih => exact merge_ascends _ ih (hsorted _)

/-- The parts of a cascade share no key. -/
def PartsDisjoint (s : DynamicPGMIndex P) (first : List (Item K V)) (n : Nat) : Prop :=
  ∀ k, k < n → KeysDisjoint (first ++ s.levelItems k) (s.get_level (1 + min_level + k))

theorem cascade_perm {first : List (Item K V)} (n : Nat) (hdisj : s.PartsDisjoint first n) :
    s.cascade first n ~ first ++ s.levelItems n := by
  induction n with
  | zero =>
      rw [levelItems, range'_zero, flatMap_nil, append_nil]
      exact Perm.refl _
  | succ n ih =>
      have hperm := ih fun k hk => hdisj k (by omega)
      have hnow : KeysDisjoint (s.cascade first n) (s.get_level (1 + min_level + n)) :=
        fun x hx => hdisj n (Nat.lt_succ_self n) x (hperm.subset hx)
      rw [levelItems_succ, ← append_assoc]
      exact (merge_perm _ hnow).trans (hperm.append_right _)

/-- A cascade over parts that share a key is too short. -/
theorem length_cascade_lt {first : List (Item K V)} (hfirst : Ascends Item.key first)
    (hsorted : ∀ i, Ascends Item.key (s.get_level i)) (n : Nat)
    (hshare : ¬ s.PartsDisjoint first n) :
    (s.cascade first n).length < first.length + (s.levelItems n).length := by
  induction n with
  | zero => exact absurd (fun k hk => absurd hk (Nat.not_lt_zero k)) hshare
  | succ n ih =>
      have hmerge := length_merge_le (1 + min_level + n == s.used_levels - 1) (s.cascade first n)
        (s.get_level (1 + min_level + n))
      rw [cascade, levelItems_succ, length_append]
      by_cases hbefore : s.PartsDisjoint first n
      · have hperm := cascade_perm n hbefore
        have hnow : ¬ KeysDisjoint (first ++ s.levelItems n) (s.get_level (1 + min_level + n)) := by
          intro hnow
          refine hshare fun k hk => ?_
          rcases Nat.lt_succ_iff_lt_or_eq.1 hk with hk | rfl
          · exact hbefore k hk
          · exact hnow
        simp only [KeysDisjoint, not_forall, not_not] at hnow
        obtain ⟨x, hx, y, hy, heq⟩ := hnow
        have hlt := length_merge_lt (1 + min_level + n == s.used_levels - 1)
          (cascade_ascends hfirst hsorted n) (hsorted (1 + min_level + n))
          ⟨x, hperm.symm.subset hx, y, hy, heq⟩
        have hlen := length_cascade_le (s := s) first n
        omega
      · have hlt := ih hbefore
        omega

/-- What has been merged after `n` turns stands in the buffer that the next turn reads. -/
structure Cascades (s : DynamicPGMIndex P) (first : List (Item K V)) (mod size_hint n : Nat)
    (m : Merging P) : Prop where
  index : m.index = s.emptied n
  actual_size : m.actual_size = (s.cascade first n).length
  size_a : size_hint ≤ m.tmp_a.length
  size_b : size_hint ≤ m.tmp_b.length
  read : (if alternate mod (1 + min_level + n) then m.tmp_a else m.tmp_b).read m.actual_size =
    some (s.cascade first n)

/-- The two buffers change places from turn to turn. -/
theorem alternate_succ {mod i : Nat} (hmod : mod < 2) (hi : min_level ≤ i) :
    alternate mod (i + 1) = !alternate mod i := by
  rw [Bool.eq_iff_iff]
  simp only [alternate, beq_iff_eq, Bool.not_eq_true', beq_eq_false_iff_ne]
  omega

theorem Cascades.step {first : List (Item K V)} {mod size_hint n : Nat} {m : Merging P}
    (h : Cascades s first mod size_hint n m) (hmod : mod < 2)
    (hsize : (s.cascade first (n + 1)).length ≤ size_hint) :
    ∃ m', mergeLevel mod (1 + min_level + n) m = some m' ∧
      Cascades s first mod size_hint (n + 1) m' := by
  have hlevel : m.index.get_level (1 + min_level + n) = s.get_level (1 + min_level + n) := by
    rw [h.index, get_level_emptied_of_ge _ _ (.inr le_rfl)]
  have hused : m.index.used_levels = s.used_levels := by rw [h.index, used_emptied]
  have hflip := alternate_succ hmod (Nat.le_add_left min_level 1 |>.trans (Nat.le_add_right _ n))
  have hindex : (m.index.setLevel (1 + min_level + n) []).setPgm (1 + min_level + n) P.empty =
      s.emptied (n + 1) := by rw [h.index, emptied_succ]
  have hread := h.read
  simp only [mergeLevel, hread, Option.bind_some, hlevel, hused, hindex]
  rw [show merge (1 + min_level + n == s.used_levels - 1) (s.cascade first n)
    (s.get_level (1 + min_level + n)) = s.cascade first (n + 1) from rfl]
  cases halt : alternate mod (1 + min_level + n) with
  | true =>
      obtain ⟨tmp_b, hwrite, hlen, hread'⟩ := Buffer.write_eq (hsize.trans h.size_b)
      refine ⟨⟨s.emptied (n + 1), m.tmp_a, tmp_b, (s.cascade first (n + 1)).length⟩, ?_, rfl, rfl,
        h.size_a, hlen ▸ h.size_b, ?_⟩
      · rw [if_pos rfl, hwrite, Option.map_some]
      rw [← Nat.add_assoc, hflip, halt]
      exact hread'
  | false =>
      obtain ⟨tmp_a, hwrite, hlen, hread'⟩ := Buffer.write_eq (hsize.trans h.size_a)
      refine ⟨⟨s.emptied (n + 1), tmp_a, m.tmp_b, (s.cascade first (n + 1)).length⟩, ?_, rfl, rfl,
        hlen ▸ h.size_a, h.size_b, ?_⟩
      · rw [if_neg Bool.false_ne_true, hwrite, Option.map_some]
      rw [← Nat.add_assoc, hflip, halt]
      exact hread'

theorem Cascades.run {first : List (Item K V)} {mod size_hint : Nat} {m : Merging P}
    (h : Cascades s first mod size_hint 0 m) (hmod : mod < 2) (n : Nat)
    (hsize : ∀ k, k ≤ n → (s.cascade first k).length ≤ size_hint) :
    ∃ m', Loop.repeatForM (fun k => mergeLevel mod (1 + min_level + k)) n m = some m' ∧
      Cascades s first mod size_hint n m' := by
  induction n with
  | zero => exact ⟨m, rfl, h⟩
  | succ n ih =>
      obtain ⟨m', hrun, hcascades⟩ := ih fun k hk => hsize k (by omega)
      obtain ⟨m'', hstep, hcascades'⟩ := hcascades.step hmod (hsize (n + 1) le_rfl)
      refine ⟨m'', ?_, hcascades'⟩
      rw [Loop.repeatForM, hrun, Option.bind_some, hstep]

/-- The new item and the buffer are written where the first turn reads. -/
theorem exists_start {first : List (Item K V)} {size_hint n : Nat}
    (hfirst : first.length = 2 ^ (1 + min_level)) (hsize : first.length ≤ size_hint) :
    ∃ m : Merging P, Cascades s first (n % 2) size_hint 0 m ∧
      (if n % 2 ≠ 0 then
        (Buffer.write (List.replicate size_hint none) first).map fun tmp_a =>
          ({ index := s, tmp_a, tmp_b := List.replicate size_hint none,
             actual_size := 2 ^ (1 + min_level) } : Merging P)
      else
        (Buffer.write (List.replicate size_hint none) first).map fun tmp_b =>
          { index := s, tmp_a := List.replicate size_hint none, tmp_b,
            actual_size := 2 ^ (1 + min_level) }) = some m := by
  have hlen : (List.replicate size_hint (none : Option (Item K V))).length = size_hint :=
    length_replicate
  obtain ⟨tmp, hwrite, hlen', hread⟩ := Buffer.write_eq (hsize.trans hlen.ge)
  have hsize' : size_hint ≤ tmp.length := hlen'.ge.trans' hlen.ge
  rw [hwrite]
  rcases Nat.mod_two_eq_zero_or_one n with hmod | hmod
  · refine ⟨⟨s, List.replicate size_hint none, tmp, 2 ^ (1 + min_level)⟩,
      ⟨rfl, hfirst.symm, hlen.ge, hsize', ?_⟩, by simp [hmod]⟩
    have halt : alternate (n % 2) (1 + min_level + 0) = false := by rw [hmod]; decide
    rw [halt, ← hfirst]
    exact hread
  · refine ⟨⟨s, tmp, List.replicate size_hint none, 2 ^ (1 + min_level)⟩,
      ⟨rfl, hfirst.symm, hsize', hlen.ge, ?_⟩, by simp [hmod]⟩
    have halt : alternate (n % 2) (1 + min_level + 0) = true := by rw [hmod]; decide
    rw [halt, ← hfirst]
    exact hread

/-- An empty target level receives the cascade; the last turn leaves it in `tmp_b`. -/
theorem merge_into_empty {new_item : Item K V} {size_hint insertion_point n : Nat}
    (hempty : s.get_level (1 + min_level + n) = [])
    (hfirst : ((s.get_level min_level).insertIdx insertion_point new_item).length =
      2 ^ (1 + min_level))
    (hsize : 2 ^ (1 + min_level) + (s.levelItems n).length ≤ size_hint) :
    s.pairwise_logarithmic_merge new_item (min_level + n) size_hint insertion_point =
      some (s.filled n
        (s.cascade ((s.get_level min_level).insertIdx insertion_point new_item) n)) := by
  have htarget : min_level + n + 1 = 1 + min_level + n := by omega
  have hturns : min_level + n - min_level = n := by omega
  have hmod : n % 2 < 2 := Nat.mod_lt _ (by decide)
  simp only [pairwise_logarithmic_merge, htarget, hturns, hempty, isEmpty_nil, if_true, length_nil,
    Nat.add_zero]
  generalize hf : (s.get_level min_level).insertIdx insertion_point new_item = first at hfirst ⊢
  have hcap : ∀ k, k ≤ n → (s.cascade first k).length ≤ size_hint := by
    intro k hk
    have hlen := length_cascade_le (s := s) first k
    have hmono := length_levelItems_mono s hk
    omega
  obtain ⟨m, hstart, heq⟩ := exists_start (P := P) (s := s) (n := n) hfirst (hcap 0 (Nat.zero_le n))
  obtain ⟨m', hrun, hend⟩ := hstart.run hmod n hcap
  have halt : alternate (n % 2) (1 + min_level + n) = false := by
    simp only [alternate, beq_eq_false_iff_ne]
    omega
  have hread := hend.read
  rw [halt, if_neg Bool.false_ne_true] at hread
  rw [heq, Option.bind_some, hrun, Option.bind_some, replaceTarget, hread, Option.map_some,
    hend.index, filled]

end DynamicPGMIndex
end DynamicPGM
end TLI
