import Mathlib.Data.List.Perm.Basic
import Mathlib.Order.Basic
import TLI.Competitors.LIPP.Model

/-!
# Invariant — well-formed trees and the pairs they hold

* `pairs` — the pairs below an item, in the order of the items.
* `SlotOK` — an item is empty, holds a pair, or holds a node, and its keys are predicted there.
* `WF` — a node all of whose items are in order, and that knows its size.
* `Padded` — the bits behind the last item say that nothing is there.

Predictions ascend, so a well-formed tree holds its keys in order.
-/

namespace TLI
namespace LIPP

open Bitmap List

variable {K V : Type}

/-! ## Predictions -/

theorem predictPos_lt (F : LinearModels K) (model : F.Model) {numItems : Nat} (h : 0 < numItems)
    (key : K) : predictPos F model numItems key < numItems := by
  rw [predictPos]
  split
  · exact Nat.sub_lt h Nat.one_pos
  · split
    · exact h
    · exact lt_of_le_of_lt (Nat.min_le_left _ _) (Nat.sub_lt h Nat.one_pos)

/-! ## Pairs -/

def pairs {M : Type} : Item M K V → List (K × V)
  | .unused => []
  | .data key value => [(key, value)]
  | .child node items =>
      (List.range node.numItems).flatMap fun i =>
        if get node.noneBitmap i then [] else pairs (items i)

variable {M : Type}

/-- The pairs below an item of a node. -/
def slot (node : Node M) (items : Nat → Item M K V) (i : Nat) : List (K × V) :=
  if get node.noneBitmap i then [] else pairs (items i)

theorem pairs_child (node : Node M) (items : Nat → Item M K V) :
    pairs (.child node items) = (List.range node.numItems).flatMap (slot node items) := rfl

theorem slot_of_none {node : Node M} {items : Nat → Item M K V} {i : Nat}
    (h : get node.noneBitmap i = true) : slot node items i = [] :=
  if_pos h

theorem slot_of_some {node : Node M} {items : Nat → Item M K V} {i : Nat}
    (h : get node.noneBitmap i = false) : slot node items i = pairs (items i) :=
  if_neg (by rw [h]; exact Bool.false_ne_true)

theorem slot_update {node : Node M} {items : Nat → Item M K V} {pos : Nat} {item : Item M K V}
    (h : get node.noneBitmap pos = false) :
    slot node (Function.update items pos item) pos = pairs item := by
  rw [slot_of_some h, Function.update_self]

theorem mem_pairs_child {node : Node M} {items : Nat → Item M K V} {p : K × V} :
    p ∈ pairs (.child node items) ↔ ∃ i, i < node.numItems ∧ p ∈ slot node items i := by
  rw [pairs_child, mem_flatMap]
  simp only [List.mem_range]

/-! ## Well-formed nodes -/

/-- The bits behind the last item say that nothing is there. -/
def Node.Padded (node : Node M) : Prop :=
  ∀ i, node.numItems ≤ i → get node.noneBitmap i = true

def Item.Padded : Item M K V → Prop
  | .child node _ => node.Padded
  | _ => False

/-- One item, whose keys are predicted at position `i`. -/
inductive SlotOK (predict : K → Nat) (i : Nat) (isNone isChild : Bool) (item : Item M K V)
    (wf : Prop) : Prop
  | none (hnone : isNone = true) (hchild : isChild = false)
  | data (hnone : isNone = false) (hchild : isChild = false) (key : K) (value : V)
      (hitem : item = .data key value) (hpredict : predict key = i)
  | child (hnone : isNone = false) (hchild : isChild = true) (hwf : wf) (hpadded : item.Padded)
      (hnonempty : pairs item ≠ []) (hpredict : ∀ p ∈ pairs item, predict p.1 = i)

variable (F : LinearModels K)

def WF : Item F.Model K V → Prop
  | .unused => False
  | .data _ _ => False
  | .child node items =>
      0 < node.numItems ∧ node.size = (pairs (.child node items)).length ∧
        ∀ i, i < node.numItems →
          SlotOK (predictPos F node.model node.numItems) i (get node.noneBitmap i)
            (get node.childBitmap i) (items i) (WF (items i))

variable {F}

/-- The items of a node are in order. -/
def SlotsOK (node : Node F.Model) (items : Nat → Item F.Model K V) : Prop :=
  ∀ i, i < node.numItems →
    SlotOK (predictPos F node.model node.numItems) i (get node.noneBitmap i)
      (get node.childBitmap i) (items i) (WF F (items i))

theorem WF.node {t : Item F.Model K V} (h : WF F t) :
    ∃ node items, t = .child node items ∧ 0 < node.numItems ∧
      node.size = (pairs (.child node items)).length ∧ SlotsOK node items := by
  cases t with
  | unused => exact h.elim
  | data key value => exact h.elim
  | child node items => exact ⟨node, items, rfl, h⟩

variable {node : Node F.Model} {items : Nat → Item F.Model K V}

/-- Every key is below the item that it is predicted at. -/
theorem SlotsOK.predict (h : SlotsOK node items) {i : Nat} (hi : i < node.numItems) {p : K × V}
    (hp : p ∈ slot node items i) : predictPos F node.model node.numItems p.1 = i := by
  cases h i hi with
  | none hnone hchild =>
      rw [slot_of_none hnone] at hp
      exact absurd hp not_mem_nil
  | data hnone hchild key value hitem hpredict =>
      rw [slot_of_some hnone, hitem, pairs, mem_singleton] at hp
      rw [hp]
      exact hpredict
  | child hnone hchild hwf hpadded hnonempty hpredict =>
      rw [slot_of_some hnone] at hp
      exact hpredict p hp

theorem SlotsOK.slot_ne_nil (h : SlotsOK node items) {i : Nat} (hi : i < node.numItems)
    (hoccupied : get node.noneBitmap i = false) : slot node items i ≠ [] := by
  rw [slot_of_some hoccupied]
  cases h i hi with
  | none hnone hchild => exact absurd (hnone.symm.trans hoccupied) Bool.true_eq_false_eq_False
  | data hnone hchild key value hitem hpredict =>
      rw [hitem]
      exact cons_ne_nil _ _
  | child hnone hchild hwf hpadded hnonempty hpredict => exact hnonempty

/-- A key is stored below the item that it is predicted at, or not at all. -/
theorem SlotsOK.mem_slot (h : SlotsOK node items) {p : K × V}
    (hp : p ∈ pairs (.child node items)) :
    p ∈ slot node items (predictPos F node.model node.numItems p.1) := by
  obtain ⟨i, hi, hslot⟩ := mem_pairs_child.1 hp
  rwa [h.predict hi hslot]

/-- The pairs of a well-formed tree ascend. -/
theorem WF.sorted [LinearOrder K] (hmono : ∀ model n, Monotone (predictPos F model n))
    {t : Item F.Model K V} : WF F t → (pairs t).Pairwise fun p q => p.1 < q.1 := by
  induction t with
  | unused => exact fun h => h.elim
  | data key value => exact fun h => h.elim
  | child node items ih =>
      rintro ⟨hpos, hsize, hslots⟩
      have hok : SlotsOK node items := hslots
      rw [pairs_child, pairwise_flatMap]
      constructor
      · intro i hi
        cases hslots i (List.mem_range.1 hi) with
        | none hnone hchild =>
            rw [slot_of_none hnone]
            exact .nil
        | data hnone hchild key value hitem hpredict =>
            rw [slot_of_some hnone, hitem]
            exact pairwise_singleton _ _
        | child hnone hchild hwf hpadded hnonempty hpredict =>
            rw [slot_of_some hnone]
            exact ih i hwf
      · -- of two keys at different positions the one in front is smaller
        refine pairwise_lt_range.imp_of_mem fun {i j} hi hj hij p hp q hq => ?_
        refine lt_of_not_ge fun hle => ?_
        have hpos := hmono node.model node.numItems hle
        rw [hok.predict (List.mem_range.1 hi) hp, hok.predict (List.mem_range.1 hj) hq] at hpos
        omega

/-! ## One item is replaced -/

/-- Another node with the same model, whose bitmaps differ only at one position. -/
structure SameBut {M : Type} (pos : Nat) (node node' : Node M) : Prop where
  model : node'.model = node.model
  numItems : node'.numItems = node.numItems
  noneBitmap : ∀ i, i ≠ pos → get node'.noneBitmap i = get node.noneBitmap i
  childBitmap : ∀ i, i ≠ pos → get node'.childBitmap i = get node.childBitmap i

variable {pos : Nat} {node' : Node F.Model} {item : Item F.Model K V}

theorem SameBut.slot_eq (h : SameBut pos node node') {i : Nat} (hi : i ≠ pos) :
    slot node' (Function.update items pos item) i = slot node items i := by
  rw [slot, slot, h.noneBitmap i hi, Function.update_of_ne hi]

theorem SlotsOK.update (h : SlotsOK node items) (hsame : SameBut pos node node')
    (hslot : SlotOK (predictPos F node.model node.numItems) pos (get node'.noneBitmap pos)
      (get node'.childBitmap pos) item (WF F item)) :
    SlotsOK node' (Function.update items pos item) := by
  intro i hi
  rw [hsame.numItems] at hi
  rw [hsame.model, hsame.numItems]
  by_cases hne : i = pos
  · rw [hne, Function.update_self]
    exact hslot
  · rw [hsame.noneBitmap i hne, hsame.childBitmap i hne, Function.update_of_ne hne]
    exact h i hi

/-- The pairs change only below the item that is replaced. -/
theorem SameBut.pairs_perm (hsame : SameBut pos node node') (hpos : pos < node.numItems)
    {added : List (K × V)}
    (hslot : slot node' (Function.update items pos item) pos ~ added ++ slot node items pos) :
    pairs (.child node' (Function.update items pos item)) ~ added ++ pairs (.child node items) := by
  rw [pairs_child, pairs_child, hsame.numItems]
  exact flatMap_range_perm (fun i hi => hsame.slot_eq hi) hslot hpos

end LIPP
end TLI
