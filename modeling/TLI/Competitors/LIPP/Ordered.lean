import TLI.Competitors.LIPP.Insert
import TLI.Competitors.LIPP.Iterate
import TLI.Competitors.LIPP.Linear

/-!
# Ordered — iterating from a key on

`lower_bound` and the calls of `++` behind it enumerate the stored pairs from a key on exactly if
the root has more than one item.  The bits behind the only item of a root of `build_tree_none` are
zero, so the iterator takes them for items that are occupied and never comes to its end.
-/

namespace TLI
namespace LIPP

open Bitmap List

variable {K V : Type} [LinearOrder K]

/-- The roots that `LIPP()`, `bulk_load` and `insert` lead to, with the pairs that were stored. -/
inductive Reachable (F : LinearModels K) : Item F.Model K V → List (K × V) → Prop
  | init : Reachable F (buildTreeNone F) []
  | bulkLoad {root root' : Item F.Model K V} {stored xs : List (K × V)} {fuel : Nat}
      (before : Reachable F root stored) (increasing : xs.Pairwise fun p q => p.1 < q.1)
      (returns : bulkLoad F fuel xs = some root') : Reachable F root' xs
  | insert {root root' : Item F.Model K V} {stored : List (K × V)} {fuel : Nat} {key : K}
    {value : V}
      (before : Reachable F root stored) (new : ∀ p ∈ stored, p.1 ≠ key)
      (returns : insertTree F fuel root key value = some root') :
      Reachable F root' ((key, value) :: stored)

/-- The pairs that an iterator and the calls of `++` behind it point to; every one of them is read
from an item that is there. -/
inductive Enumerates {M : Type} : Iterator M K V → List (K × V) → Prop
  | done {it : Iterator M K V} (null : it.it = none) : Enumerates it []
  | next {it it' : Iterator M K V} {ptr : Pointer M K V} {p : K × V} {ps : List (K × V)}
      (points : it.it = some ptr) (data : ptr.data? = some p)
      (returns : Returns (fun fuel => advanceStack fuel it.stack) it') (rest : Enumerates it' ps) :
      Enumerates it (p :: ps)

/-- The stored pairs from the key on are enumerated in key order, and then the iterator is `end()`.
No call reads an item that is not there. -/
def Exact (F : LinearModels K) (root : Item F.Model K V) (stored : List (K × V)) (key : K) : Prop :=
  ∃ it ps, Returns (fun fuel => lowerBound F fuel key root []) it ∧ Enumerates it ps ∧
    (ps.Pairwise fun p q => p.1 < q.1) ∧ ∀ p, p ∈ ps ↔ p ∈ stored ∧ key ≤ p.1

variable {F : LinearModels K}

theorem Reachable.sound (hmono : ∀ model n, Monotone (predictPos F model n))
    {root : Item F.Model K V} {stored : List (K × V)} (h : Reachable F root stored) :
    Sound root stored := by
  induction h with
  | init => exact sound_buildTreeNone
  | bulkLoad before increasing returns ih => exact bulkLoad_sound hmono increasing returns
  | insert before new returns ih => exact insertTree_sound hmono ih returns

/-! ## Roots with more than one item -/

omit [LinearOrder K] in
theorem enumerates_of_leads (ps : List (K × V)) :
    ∀ {it : Iterator F.Model K V}, Leads it ps → Enumerates it ps := by
  induction ps with
  | nil => exact fun h => .done h
  | cons p ps ih =>
      rintro it ⟨ptr, hptr, hdata, hstack⟩
      obtain ⟨it', hreturns, hleads⟩ := advanceStack_spec hstack
      exact .next hptr hdata hreturns (ih hleads)

theorem Sound.exact (hmono : ∀ model n, Monotone (predictPos F model n))
    {root : Item F.Model K V} {stored : List (K × V)} (h : Sound root stored)
    (hpadded : root.Padded) (key : K) : Exact F root stored key := by
  obtain ⟨it, hreturns, hleads⟩ := lowerBound_spec hmono key h.wf hpadded .nil
  rw [append_nil] at hleads
  refine ⟨it, _, hreturns, enumerates_of_leads _ hleads, (h.wf.sorted hmono).filter _, fun p => ?_⟩
  rw [mem_filter, h.perm.mem_iff, decide_eq_true_eq]

/-! ## Roots with one item -/

section

variable {M : Type} {node : Node M} {items : Nat → Item M K V}

/-- The iterator points to something that is not an item, or will do so once the tuples above the
root are used up. -/
def Strays (node : Node M) (items : Nat → Item M K V) (it : Iterator M K V) : Prop :=
  ∃ ptr, it.it = some ptr ∧
    (ptr.data? = none ∨ ∃ stack, it.stack = stack ++ [tupleBehind node items 0])

omit [LinearOrder K] in
/-- Behind the only item the bitmap leads on. -/
theorem advanceStack_bare (hbare : (Item.child node items).Bare) (fuel : Nat)
    (stack : List (StackTuple M K V)) :
    ∃ it, advanceStack (fuel + 1) (tupleBehind node items 0 :: stack) = some it ∧
      Strays node items it := by
  obtain ⟨hone, hbits⟩ := hbare
  have hnext : (tupleBehind node items 0).bitmapNext1 =
      (0, ~~~ (node.noneBitmap 0 ||| UInt8.ofNat (1 <<< (0 % 8 + 1) - 1))) := by
    simp only [StackTuple.bitmapNext1, tupleBehind, hone]
    rfl
  have hbit : ∀ i < 8, (tupleBehind node items 0).bitmapNext1.2.toNat.testBit i =
    decide (0 < i) := by
    intro i hi
    rw [hnext, testBit_not_or_low _ (by decide) hi]
    by_cases hpos : 0 < i
    · rw [← get_add _ 0 hi, (hbits _ (by omega) (by omega)).1, Bool.not_false, Bool.and_true]
    · rw [decide_eq_false hpos, Bool.false_and]
  have hword : (tupleBehind node items 0).bitmapNext1.2 ≠ 0 := by
    intro hzero
    have hfirst := hbit 1 (by decide)
    rw [hzero] at hfirst
    cases hfirst
  obtain ⟨hlt, hset, hlow⟩ := bitmapNext_spec hword
  have hnewI : (tupleBehind node items 0).newI = 1 := by
    rw [hbit _ hlt, decide_eq_true_eq] at hset
    rcases Nat.lt_or_eq_of_le hset with hgt | heq
    · have hfirst := hlow 1 hgt
      rw [hbit 1 (by decide)] at hfirst
      cases hfirst
    · rw [StackTuple.newI, ← heq, hnext, Nat.zero_mul]
  have hchild : get (tupleBehind node items 0).node.childBitmap
      (tupleBehind node items 0).newI = false := by
    rw [hnewI]
    exact (hbits 1 (by decide) (by decide)).2
  refine ⟨_, advanceStack_data hword hchild fuel stack, _, rfl, Or.inl ?_⟩
  rw [hnewI, Pointer.data?, item?, if_neg (by simp [tupleBehind, hone])]
  rfl

omit [LinearOrder K] in
theorem advanceStack_strays (hbare : (Item.child node items).Bare) :
    ∀ {fuel stack it}, advanceStack fuel (stack ++ [tupleBehind node items 0]) = some it →
      Strays node items it := by
  intro fuel
  induction fuel with
  | zero =>
      intro stack it h
      cases h
  | succ fuel ih =>
      intro stack it h
      cases stack with
      | nil =>
          obtain ⟨it', hit, hstrays⟩ := advanceStack_bare hbare fuel []
          cases hit.symm.trans h
          exact hstrays
      | cons tuple stack =>
          rw [cons_append] at h
          by_cases hword : tuple.bitmapNext1.2 = 0
          · rw [advanceStack_drop hword] at h
            exact ih h
          · cases hchild : get tuple.node.childBitmap tuple.newI with
            | false =>
                rw [advanceStack_data hword hchild] at h
                cases h
                exact ⟨_, rfl, Or.inr ⟨tuple.pass :: stack, rfl⟩⟩
            | true =>
                obtain ⟨node', items', hitem⟩ := advanceStack_of_child hword hchild h
                rw [advanceStack_child hword hchild hitem] at h
                rw [← cons_append, ← cons_append] at h
                exact ih h

omit [LinearOrder K] in
/-- An iterator that strays is never at its end. -/
theorem not_enumerates (hbare : (Item.child node items).Bare) {it : Iterator M K V}
    {ps : List (K × V)} (h : Enumerates it ps) : ¬ Strays node items it := by
  induction h with
  | done null =>
      rintro ⟨ptr, hptr, -⟩
      cases null.symm.trans hptr
  | next points data returns rest ih =>
      rintro ⟨ptr, hptr, hnone | ⟨stack, hstack⟩⟩
      · cases points.symm.trans hptr
        cases data.symm.trans hnone
      · obtain ⟨bound, hbound⟩ := returns
        have hadvance := hbound bound le_rfl
        rw [hstack] at hadvance
        exact ih (advanceStack_strays hbare hadvance)

end

/-- `lower_bound` pushes a node and goes on with a child, or with `++`, or it is done. -/
theorem lowerBound_cases {fuel : Nat} {key : K} {node : Node F.Model}
    {items : Nat → Item F.Model K V} {stack : List (StackTuple F.Model K V)}
    {it : Iterator F.Model K V} (h : lowerBound F fuel key (.child node items) stack = some it) :
    let pos := predictPos F node.model node.numItems key
    lowerBound F fuel key (items pos) (tupleBehind node items pos :: stack) = some it ∨
      advanceStack fuel (tupleBehind node items pos :: stack) = some it ∨
        ∃ ptr, it = ⟨tupleBehind node items pos :: stack, some ptr⟩ := by
  rw [lowerBound] at h
  dsimp only at h ⊢
  split at h
  · rw [Option.ite_none_right_eq_some] at h
    exact Or.inl h.2
  · split at h
    · exact Or.inr (Or.inl h)
    · obtain ⟨p, -, h⟩ := Option.bind_eq_some_iff.1 h
      split at h
      · cases h
        exact Or.inr (Or.inr ⟨_, rfl⟩)
      · exact Or.inr (Or.inl h)

theorem lowerBound_strays {node : Node F.Model} {items : Nat → Item F.Model K V}
    (hbare : (Item.child node items).Bare) {fuel : Nat} {key : K} {t : Item F.Model K V} :
    ∀ {stack it}, lowerBound F fuel key t (stack ++ [tupleBehind node items 0]) = some it →
      Strays node items it := by
  induction t with
  | unused => exact fun h => by cases h
  | data key value => exact fun h => by cases h
  | child node' items' ih =>
      intro stack it h
      have hcases := lowerBound_cases h
      dsimp only at hcases
      rw [← cons_append] at hcases
      rcases hcases with h | h | ⟨ptr, rfl⟩
      · exact ih _ h
      · exact advanceStack_strays hbare h
      · exact ⟨ptr, rfl, Or.inr ⟨_, rfl⟩⟩

theorem not_exact_of_bare {root : Item F.Model K V} {stored : List (K × V)} (hbare : root.Bare)
    (key : K) : ¬ Exact F root stored key := by
  cases root with
  | unused => exact hbare.elim
  | data key value => exact hbare.elim
  | child node items =>
      rintro ⟨it, ps, ⟨bound, hbound⟩, henum, -, -⟩
      have hpos : predictPos F node.model node.numItems key = 0 := by
        have hlt := predictPos_lt F node.model (hbare.1 ▸ Nat.one_pos) key
        have hone := hbare.1
        omega
      have hcases := lowerBound_cases (hbound bound le_rfl)
      dsimp only at hcases
      rw [hpos, ← nil_append [tupleBehind node items 0]] at hcases
      refine not_enumerates hbare henum ?_
      rcases hcases with h | h | ⟨ptr, rfl⟩
      · exact lowerBound_strays hbare h
      · exact advanceStack_strays hbare h
      · exact ⟨ptr, rfl, Or.inr ⟨[], rfl⟩⟩

/-! ## Every state -/

/-- The iteration from a key on is exact if and only if the root has more than one item. -/
theorem exact_iff_numItems (hmono : ∀ model n, Monotone (predictPos F model n))
    {root : Item F.Model K V} {stored : List (K × V)} (h : Reachable F root stored) (key : K) :
    Exact F root stored key ↔ 1 < root.numItems := by
  have hsound := h.sound hmono
  constructor
  · intro hexact
    rcases hsound.shape with hbare | ⟨-, hmany⟩
    · exact absurd hexact (not_exact_of_bare hbare key)
    · exact hmany
  · exact fun hmany => hsound.exact hmono (hsound.padded_of_lt hmany) key

/-- Three keys are loaded in bulk, and two more go to the item of one of them. -/
def fiveKeys : Option (Item LinearModel UInt64 UInt64) := do
  let root ← bulkLoad rationalModels 2 [(10, 1), (20, 2), (30, 3)]
  let root ← insertTree rationalModels 2 root 22 5
  insertTree rationalModels 2 root 21 4

theorem reachable_fiveKeys :
    ∃ root, fiveKeys = some root ∧ 1 < root.numItems ∧
      Reachable rationalModels root [(21, 4), (22, 5), (10, 1), (20, 2), (30, 3)] := by
  have hitems : fiveKeys.map Item.numItems = some 18 := by decide +kernel
  obtain ⟨root, hroot, hmany⟩ := Option.map_eq_some_iff.1 hitems
  obtain ⟨first, hfirst, h⟩ := Option.bind_eq_some_iff.1 hroot
  obtain ⟨second, hsecond, hthird⟩ := Option.bind_eq_some_iff.1 h
  exact ⟨root, hroot, hmany ▸ by decide, ((Reachable.init.bulkLoad (by decide) hfirst).insert
    (by simp) hsecond).insert (by simp) hthird⟩

theorem exact_fiveKeys :
    ∃ root, fiveKeys = some root ∧
      Exact rationalModels root [(21, 4), (22, 5), (10, 1), (20, 2), (30, 3)] 21 := by
  obtain ⟨root, hroot, hmany, hreachable⟩ := reachable_fiveKeys
  exact ⟨root, hroot, (exact_iff_numItems rationalModels_monotone hreachable 21).2 hmany⟩

/-- `LIPP()`, before any key is stored. -/
theorem not_exact_empty :
    (∀ model n, Monotone (predictPos rationalModels model n)) ∧
      Reachable (V := UInt64) rationalModels (buildTreeNone rationalModels) [] ∧
      ¬ Exact (V := UInt64) rationalModels (buildTreeNone rationalModels) [] 0 :=
  ⟨rationalModels_monotone, .init, not_exact_of_bare bare_buildTreeNone 0⟩

end LIPP
end TLI
