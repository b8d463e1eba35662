import Mathlib.Data.List.TakeWhile
import TLI.Competitors.LIPP.Invariant
import TLI.Library.Traverse

/-!
# Build — the trees that are built from two keys or in bulk

* `Filled` — a node under construction, and the pairs that were written to it.
* `Built` — a finished tree, and the pairs it was built from.

A new node starts with both bitmaps saying that nothing is there, also behind the last item, and
pairs are only ever written to empty items.
-/

namespace TLI
namespace LIPP

open Bitmap List

variable {K V : Type} {F : LinearModels K}

/-! ## Nodes under construction -/

/-- The node `start`, to which the pairs were written. -/
structure Filled (start : Node F.Model) (t : Node F.Model × (Nat → Item F.Model K V))
    (xs : List (K × V)) : Prop where
  numItems : t.1.numItems = start.numItems
  model : t.1.model = start.model
  size : t.1.size = start.size
  slots : SlotsOK t.1 t.2
  padded : t.1.Padded
  perm : pairs (.child t.1 t.2) ~ xs

/-- The position of a key in the node. -/
abbrev posIn (start : Node F.Model) (key : K) : Nat :=
  predictPos F start.model start.numItems key

theorem filled_newNode (size numItems : Nat) (model : F.Model) :
    Filled (V := V) (newNode size numItems model) (newNode size numItems model, fun _ => .unused)
      [] where
  numItems := rfl
  model := rfl
  size := rfl
  slots := fun i _ => .none (get_full i) (get_empty i)
  padded := fun i _ => get_full i
  perm := Perm.of_eq (flatMap_eq_nil_iff.2 fun i _ =>
    (slot_of_none (get_full i) : slot (newNode size numItems model) (fun _ => .unused) i = []))

namespace Filled

variable {start : Node F.Model} {t : Node F.Model × (Nat → Item F.Model K V)}
  {xs ys : List (K × V)}

theorem congr (h : Filled start t xs) (hperm : xs ~ ys) : Filled start t ys :=
  { h with perm := h.perm.trans hperm }

/-- A position that no pair was written to is empty. -/
theorem vacant (h : Filled start t xs) {pos : Nat} (hpos : pos < start.numItems)
    (hne : ∀ p ∈ xs, posIn start p.1 ≠ pos) : get t.1.noneBitmap pos = true := by
  by_contra hoccupied
  have hpos' : pos < t.1.numItems := h.numItems ▸ hpos
  obtain ⟨p, hp⟩ := exists_mem_of_ne_nil _
    (h.slots.slot_ne_nil hpos' (Bool.eq_false_of_not_eq_true hoccupied))
  have hpredict := h.slots.predict hpos' hp
  rw [h.model, h.numItems] at hpredict
  exact hne p (h.perm.subset (mem_pairs_child.2 ⟨pos, hpos', hp⟩)) hpredict

/-- An empty item is written to. -/
theorem write (h : Filled start t xs) {pos : Nat} (hpos : pos < start.numItems)
    (hvacant : get t.1.noneBitmap pos = true) {node : Node F.Model} {item : Item F.Model K V}
    (hsame : SameBut pos t.1 node) (hsize : node.size = t.1.size)
    (hslot : SlotOK (posIn start) pos (get node.noneBitmap pos) (get node.childBitmap pos) item
      (WF F item)) (hoccupied : get node.noneBitmap pos = false) :
    Filled start (node, Function.update t.2 pos item) (pairs item ++ xs) where
  numItems := hsame.numItems.trans h.numItems
  model := hsame.model.trans h.model
  size := hsize.trans h.size
  slots := by
    refine h.slots.update hsame ?_
    rw [h.model, h.numItems]
    exact hslot
  padded := by
    intro i hi
    rw [hsame.numItems.trans h.numItems] at hi
    rw [hsame.noneBitmap i (by omega)]
    exact h.padded i (h.numItems ▸ hi)
  perm := by
    refine (hsame.pairs_perm (h.numItems ▸ hpos) ?_).trans (h.perm.append_left _)
    rw [slot_update hoccupied, slot_of_none hvacant, append_nil]

theorem putData (h : Filled start t xs) {pos : Nat} (hpos : pos < start.numItems)
    (hvacant : get t.1.noneBitmap pos = true) {p : K × V} (hp : posIn start p.1 = pos) :
    Filled start (putData pos p t) (p :: xs) := by
  have hoccupied : get (clear t.1.noneBitmap pos) pos = false := by
    rw [get_clear, decide_eq_true rfl, Bool.not_true, Bool.false_and]
  have hchild : get t.1.childBitmap pos = false := by
    cases h.slots pos (h.numItems ▸ hpos) with
    | none hnone hchild => exact hchild
    | data hnone hchild key value hitem hpredict => exact hchild
    | child hnone hchild hwf hpadded hnonempty hpredict =>
        exact absurd (hvacant.symm.trans hnone) Bool.true_eq_false_eq_False
  refine h.write hpos hvacant ⟨rfl, rfl, fun i hi => ?_, fun i hi => rfl⟩ rfl
    (.data hoccupied hchild p.1 p.2 rfl hp) hoccupied
  rw [get_clear, decide_eq_false hi, Bool.not_false, Bool.true_and]

theorem putChild (h : Filled start t xs) {pos : Nat} (hpos : pos < start.numItems)
    (hvacant : get t.1.noneBitmap pos = true) {child : Item F.Model K V} (hwf : WF F child)
    (hpadded : child.Padded) (hnonempty : pairs child ≠ [])
    (hpredict : ∀ p ∈ pairs child, posIn start p.1 = pos) :
    Filled start (putChild pos child t) (pairs child ++ xs) := by
  have hoccupied : get (clear t.1.noneBitmap pos) pos = false := by
    rw [get_clear, decide_eq_true rfl, Bool.not_true, Bool.false_and]
  have hchild : get (Bitmap.set t.1.childBitmap pos) pos = true := by
    rw [get_set, decide_eq_true rfl, Bool.true_or]
  refine h.write hpos hvacant ⟨rfl, rfl, fun i hi => ?_, fun i hi => ?_⟩ rfl
    (.child hoccupied hchild hwf hpadded hnonempty hpredict) hoccupied
  · rw [get_clear, decide_eq_false hi, Bool.not_false, Bool.true_and]
  · rw [get_set, decide_eq_false hi, Bool.false_or]

end Filled

/-! ## Finished trees -/

def Item.numItems {M : Type} : Item M K V → Nat
  | .child node _ => node.numItems
  | _ => 0

/-- A tree with these pairs, whose bitmaps are in order also behind the last item. -/
structure Built (t : Item F.Model K V) (xs : List (K × V)) : Prop where
  wf : WF F t
  padded : t.Padded
  numItems : 1 < t.numItems
  perm : pairs t ~ xs

theorem Filled.built {start : Node F.Model} {t : Node F.Model × (Nat → Item F.Model K V)}
    {xs : List (K × V)} (h : Filled start t xs) (hsize : start.size = xs.length)
    (hmany : 1 < start.numItems) : Built (.child t.1 t.2) xs where
  wf := by
    refine ⟨?_, ?_, h.slots⟩
    · rw [h.numItems]
      omega
    · rw [h.size, hsize, h.perm.length_eq]
  padded := h.padded
  numItems := by
    rw [Item.numItems, h.numItems]
    exact hmany
  perm := h.perm

theorem Filled.placeNew {start : Node F.Model} {t t' : Node F.Model × (Nat → Item F.Model K V)}
    {xs : List (K × V)} (h : Filled start t xs) (hpos : 0 < start.numItems) {p : K × V}
    (hplace : placeNew F p t = some t') : Filled start t' (p :: xs) := by
  rw [LIPP.placeNew, Option.ite_none_right_eq_some, h.model, h.numItems] at hplace
  obtain ⟨hvacant, hput⟩ := hplace
  cases hput
  exact h.putData (predictPos_lt F _ hpos _) hvacant rfl

variable [LinearOrder K]

theorem buildOrdered_built {p q : K × V} {t : Item F.Model K V}
    (h : buildOrdered F p q = some t) : Built t [p, q] := by
  rw [buildOrdered, Option.ite_none_right_eq_some] at h
  obtain ⟨-, h⟩ := h
  obtain ⟨model, -, h⟩ := Option.bind_eq_some_iff.1 h
  obtain ⟨t₁, hfirst, h⟩ := Option.bind_eq_some_iff.1 h
  obtain ⟨t₂, hsecond, h⟩ := Option.bind_eq_some_iff.1 h
  cases h
  have hitems : 1 < (newNode 2 8 model).numItems := (by decide : 1 < 8)
  have hfilled := ((filled_newNode 2 8 model).placeNew (Nat.lt_of_succ_lt hitems) hfirst).placeNew
    (Nat.lt_of_succ_lt hitems) hsecond
  exact (hfilled.congr (Perm.swap p q [])).built rfl hitems

theorem buildTreeTwo_built {p q : K × V} {t : Item F.Model K V}
    (h : buildTreeTwo F p q = some t) : Built t [p, q] := by
  rw [buildTreeTwo] at h
  split at h
  · have hbuilt := buildOrdered_built h
    exact { hbuilt with perm := hbuilt.perm.trans (Perm.swap p q []) }
  · exact buildOrdered_built h

/-! ## Bulk building -/

omit [LinearOrder K] in
/-- Behind the run at the front, positions that do not descend are different. -/
theorem ne_of_mem_dropWhile {f : K × V → Nat} {c : Nat} {xs : List (K × V)}
    (hsorted : xs.Pairwise fun p q => f p ≤ f q) (hle : ∀ p ∈ xs, c ≤ f p) {q : K × V}
    (hq : q ∈ xs.dropWhile fun p => decide (f p = c)) : f q ≠ c := by
  induction xs with
  | nil => cases hq
  | cons p xs ih =>
      obtain ⟨hfirst, hsorted⟩ := pairwise_cons.1 hsorted
      rw [dropWhile_cons] at hq
      split at hq
      · exact ih hsorted (fun r hr => hle r (mem_cons_of_mem p hr)) hq
      · rename_i hne
        have hlt := lt_of_le_of_ne (hle p mem_cons_self) fun heq => hne (decide_eq_true heq.symm)
        rcases mem_cons.1 hq with rfl | hq
        · exact hlt.ne'
        · exact (lt_of_lt_of_le hlt (hfirst q hq)).ne'

/-- Items of one predicted position stand together: the ones behind a run are predicted elsewhere. -/
theorem posIn_run (hmono : ∀ model n, Monotone (predictPos F model n)) (start : Node F.Model)
    {p : K × V} {xs : List (K × V)} (hsorted : (p :: xs).Pairwise fun p q => p.1 < q.1) :
    (∀ q ∈ p :: xs.takeWhile fun q => decide (posIn start q.1 = posIn start p.1),
        posIn start q.1 = posIn start p.1) ∧
      ∀ q ∈ xs.dropWhile fun q => decide (posIn start q.1 = posIn start p.1),
        posIn start q.1 ≠ posIn start p.1 := by
  obtain ⟨hfirst, hrest⟩ := pairwise_cons.1 hsorted
  constructor
  · intro q hq
    rcases mem_cons.1 hq with rfl | hq
    · rfl
    · have hsame := mem_takeWhile_imp hq
      exact of_decide_eq_true hsame
  · intro q hq
    refine ne_of_mem_dropWhile (f := fun q => posIn start q.1) ?_ ?_ hq
    · exact hrest.imp fun hlt => hmono _ _ hlt.le
    · exact fun q hq => hmono _ _ (hfirst q hq).le

/-- The loop of `build_tree_bulk` writes every pair, each run of keys to one item. -/
theorem fillItems_filled (hmono : ∀ model n, Monotone (predictPos F model n))
    {build : List (K × V) → Option (Item F.Model K V)}
    (hbuild : ∀ xs t, (xs.Pairwise fun p q => p.1 < q.1) → build xs = some t → Built t xs)
    {start : Node F.Model} (hpos : 0 < start.numItems) :
    ∀ n {xs done : List (K × V)} {t t' : Node F.Model × (Nat → Item F.Model K V)}, xs.length ≤ n →
      (xs.Pairwise fun p q => p.1 < q.1) →
      (∀ p ∈ done, ∀ q ∈ xs, posIn start p.1 ≠ posIn start q.1) → Filled start t done →
      fillItems F build n xs t = some t' → Filled start t' (xs ++ done) := by
  -- Induction on the number of items that are left, one run a turn.
  intro n
  induction n with
  | zero =>
      intro xs done t t' hlen _ _ h hfill
      cases hfill
      rwa [length_eq_zero_iff.1 (Nat.le_zero.1 hlen), nil_append]
  | succ n ih =>
      intro xs done t t' hlen hsorted hapart h hfill
      cases xs with
      | nil =>
          cases hfill
          exact h
      | cons p xs =>
          rw [fillItems, h.model, h.numItems] at hfill
          obtain ⟨hpredict, hbehind⟩ := posIn_run hmono start hsorted
          generalize hsame : (fun q : K × V =>
            decide (posIn start q.1 = posIn start p.1)) = same at hfill hpredict hbehind
          have hsplit : xs.takeWhile same ++ xs.dropWhile same = xs := takeWhile_append_dropWhile
          have hin := predictPos_lt F start.model hpos p.1
          have hvacant := h.vacant hin fun q hq => hapart q hq p mem_cons_self
          have hlen' : (xs.dropWhile same).length ≤ n := by
            have hle := (dropWhile_sublist same (l := xs)).length_le
            rw [length_cons] at hlen
            omega
          have hsorted' := (pairwise_cons.1 hsorted).2.sublist (dropWhile_sublist same)
          have hapart' : ∀ q ∈ done, ∀ r ∈ xs.dropWhile same, posIn start q.1 ≠ posIn start r.1 :=
            fun q hq r hr =>
              hapart q hq r (mem_cons_of_mem p ((dropWhile_sublist same).subset hr))
          split at hfill
          · rename_i hsingle
            have hput := h.putData hin hvacant (p := p) rfl
            have hfilled := ih hlen' hsorted' (fun q hq r hr => ?_) hput hfill
            · refine hfilled.congr ?_
              rw [hsingle, nil_append] at hsplit
              rw [hsplit]
              exact perm_middle
            · rcases mem_cons.1 hq with rfl | hq
              · exact (hbehind r hr).symm
              · exact hapart' q hq r hr
          · obtain ⟨child, hchild, hfill⟩ := Option.bind_eq_some_iff.1 hfill
            have hrun : (p :: xs.takeWhile same).Pairwise fun p q => p.1 < q.1 :=
              hsorted.sublist ((takeWhile_sublist same).cons_cons p)
            have hbuilt := hbuild _ _ hrun hchild
            have hput := h.putChild hin hvacant hbuilt.wf hbuilt.padded
              (fun hnil => cons_ne_nil _ _ (nil_perm.1 (hnil ▸ hbuilt.perm)))
              fun q hq => hpredict q (hbuilt.perm.subset hq)
            have hfilled := ih hlen' hsorted' (fun q hq r hr => ?_)
              (hput.congr (hbuilt.perm.append_right done)) hfill
            · refine hfilled.congr ?_
              calc xs.dropWhile same ++ (p :: xs.takeWhile same ++ done)
                  = xs.dropWhile same ++ (p :: xs.takeWhile same) ++ done :=
                    (append_assoc _ _ _).symm
                _ ~ p :: xs.takeWhile same ++ xs.dropWhile same ++ done :=
                    perm_append_comm.append_right done
                _ = p :: xs ++ done := by rw [cons_append, hsplit]
            · rcases mem_append.1 hq with hq | hq
              · rw [hpredict q hq]
                exact (hbehind r hr).symm
              · exact hapart' q hq r hr

theorem buildTreeBulk_built (hmono : ∀ model n, Monotone (predictPos F model n)) :
    ∀ fuel (xs : List (K × V)) t, (xs.Pairwise fun p q => p.1 < q.1) →
      buildTreeBulk F fuel xs = some t → Built t xs := by
  intro fuel
  induction fuel with
  | zero =>
      intro xs t _ h
      cases h
  | succ fuel ih =>
      intro xs t hsorted h
      match xs, h with
      | [], h => cases h
      | [p], h => cases h
      | [p, q], h => exact buildTreeTwo_built h
      | p :: q :: r :: rest, h =>
          generalize hxs : p :: q :: r :: rest = xs at hsorted
          rw [buildTreeBulk, hxs] at h
          obtain ⟨model, -, h⟩ := Option.bind_eq_some_iff.1 h
          obtain ⟨t', hfill, h⟩ := Option.bind_eq_some_iff.1 h
          cases h
          have hmany : 1 < xs.length * (computeGapCount xs.length + 1) := by
            have hlen : 3 ≤ xs.length := by
              rw [← hxs]
              simp
            exact lt_of_lt_of_le (by omega) (Nat.le_mul_of_pos_right _ (Nat.succ_pos _))
          have hfilled := fillItems_filled hmono ih (Nat.lt_of_succ_lt hmany) xs.length le_rfl
            hsorted (fun p hp => absurd hp not_mem_nil) (filled_newNode xs.length _ model) hfill
          rw [append_nil] at hfilled
          exact hfilled.built rfl hmany

/-! ## Scanning -/

omit [LinearOrder K] in
/-- `scan_and_destory_tree` collects the pairs. -/
theorem scanTree_eq {t : Item F.Model K V} : WF F t → scanTree t = some (pairs t) := by
  induction t with
  | unused => exact fun h => h.elim
  | data key value => exact fun h => h.elim
  | child node items ih =>
      rintro ⟨hpos, hsize, hslots⟩
      rw [scanTree, mapM_eq_some_map (g := slot node items)]
      · exact if_pos hsize.symm
      intro i hi
      cases hslots i (List.mem_range.1 hi) with
      | none hnone hchild => rw [slot_of_none hnone, if_pos hnone]
      | data hnone hchild key value hitem hpredict =>
          rw [slot_of_some hnone, hnone, hchild, hitem]
          rfl
      | child hnone hchild hwf hpadded hnonempty hpredict =>
          rw [slot_of_some hnone, hnone, hchild, ← ih i hwf]
          rfl

end LIPP
end TLI
