import TLI.Competitors.ART.Shape
import TLI.Competitors.ART.Shrink

/-!
# Stock — the children that a layout has at least

A node grows when its layout is full and shrinks when few children are left.  In between a `Node16`
has at least four children, a `Node48` more than twelve and a `Node256` more than thirty-seven.

Trees grow within these bounds (`growing_kept`), and the removal of a child keeps them.
-/

namespace TLI
namespace ART

open Loop List

def Kept : NodeType → Nat → Prop
  | .NodeType4, _ => True
  | .NodeType16, count => 4 ≤ count
  | .NodeType48, count => 12 < count
  | .NodeType256, count => 37 < count

abbrev Stocked : Node → Prop :=
  Shaped Kept

theorem growing_kept : Growing Kept := by
  refine ⟨fun count => ?_, fun {type count} h _ => ?_⟩
  · rw [NodeType.smallest]
    split_ifs
    · exact trivial
    · exact (by omega : 4 ≤ count)
    · exact (by omega : 12 < count)
    · exact (by omega : 37 < count)
  · cases type with
    | NodeType4 => exact trivial
    | NodeType16 => exact Nat.le_succ_of_le h
    | NodeType48 => exact Nat.lt_succ_of_lt h
    | NodeType256 => exact Nat.lt_succ_of_lt h

/-! ## Removal of a child -/

theorem slots_removeAt {p : Node → Prop} {child : Nat → Node} (hslots : ∀ s, p (child s))
    (pos count : Nat) : ∀ s, p (removeAt child pos count s) := by
  intro s
  rw [removeAt]
  split
  · exact hslots s
  · split
    · exact hslots (s + 1)
    · exact hslots s

theorem IsInner.count_eq {hdr : Header} {lay : Layout} {child : Nat → Node} {path : List UInt8}
    {kids : List (UInt8 × Node)} (h : IsInner (.inner hdr lay child) path kids) :
    hdr.count = kids.length := by
  obtain ⟨hdr', lay', child', heq, -, hok, hperm⟩ := h
  cases heq
  rw [← hperm.length_eq, children, length_map, hok.length_eq]

theorem oneWay_stocked {n : Node} (h : Stocked n) (hdr : Header) (b : UInt8) :
    Stocked (oneWay hdr b n) := by
  cases h with
  | null => exact .null
  | leaf e => exact .leaf e
  | inner hkept hslots => exact .inner hkept hslots

/-- The count of a smaller layout is the number of the children moved to it. -/
theorem eraseChild_stocked {hdr : Header} {lay : Layout} {child : Nat → Node} {path : List UInt8}
    {b : UInt8} {s : Nat} {others : List (UInt8 × Node)} (hkept : Kept lay.type hdr.count)
    (hslots : ∀ s, Stocked (child s)) (hinner : IsInner (eraseChild hdr lay child b s) path others)
    (hcount : others.length + 1 = hdr.count) : Stocked (eraseChild hdr lay child b s) := by
  have hleft : hdr.decrement.count = others.length := by
    rw [Header.decrement, ← hcount, Nat.add_sub_cancel]
  cases lay with
  | node4 key =>
      rw [eraseChild, eraseNode4]
      split
      · exact oneWay_stocked (slots_removeAt hslots _ _ 0) _ _
      · exact .inner trivial (slots_removeAt hslots _ _)
  | node16 key =>
      rw [eraseChild, eraseNode16]
      split
      · exact .inner trivial (slots_copyOf (slots_removeAt hslots _ _) .null _)
      · rename_i hshrink
        have hmore : 4 ≤ hdr.count := hkept
        have hkept : 4 ≤ hdr.decrement.count := by omega
        exact .inner hkept (slots_removeAt hslots _ _)
  | node48 childIndex =>
      have hmore : 12 < hdr.count := hkept
      have hcleared := slots_update hslots .null (childIndex b)
      rw [eraseChild, eraseNode48] at hinner ⊢
      dsimp only at hinner ⊢
      split at hinner
      · rename_i hshrink
        rw [if_pos hshrink]
        refine .inner ?_ ?_
        -- The smaller node counts what the loop moved.
        · rw [Layout.type, Kept, hinner.count_eq]
          omega
        · refine repeatFor_invariant (fun new : Packed => ∀ s, Stocked (new.child s))
            (fun _ => .null) (fun b new hnew => ?_) 256
          split
          · exact slots_update hnew (hcleared _) _
          · exact hnew
      · rename_i hshrink
        rw [if_neg hshrink]
        exact .inner (show 12 < hdr.decrement.count by omega) hcleared
  | node256 =>
      have hmore : 37 < hdr.count := hkept
      have hcleared := slots_update hslots .null b.toNat
      rw [eraseChild, eraseNode256] at hinner ⊢
      dsimp only at hinner ⊢
      split at hinner
      · rename_i hshrink
        rw [if_pos hshrink]
        refine .inner ?_ ?_
        · rw [Layout.type, Kept, hinner.count_eq]
          omega
        · refine repeatFor_invariant (fun new : Indexed => ∀ s, Stocked (new.child s))
            (fun _ => .null) (fun b new hnew => ?_) 256
          split
          · exact slots_update hnew (hcleared _) _
          · exact hnew
      · rename_i hshrink
        rw [if_neg hshrink]
        exact .inner (show 37 < hdr.decrement.count by omega) hcleared

end ART
end TLI
