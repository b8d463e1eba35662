import Mathlib.Data.List.GetD
import TLI.Competitors.ART.Model
import TLI.Library.Traverse

/-!
# Shape — the layouts of a tree and the numbers of children they hold

`Shaped fits n` says that every inner node below `n` has a layout that `fits` its number of
children.  Bulk loading chooses the smallest layout, and insertion keeps the layout of a node that
has room or goes on to the smallest.  So both keep every `fits` that allows the smallest layouts and
growth within a layout (`Growing`).

The nodes in slots that are no longer in use are included.
-/

namespace TLI
namespace ART

open Loop List

inductive NodeType
  | NodeType4
  | NodeType16
  | NodeType48
  | NodeType256
  deriving DecidableEq, Repr

def Layout.type : Layout → NodeType
  | .node4 _ => .NodeType4
  | .node16 _ => .NodeType16
  | .node48 _ => .NodeType48
  | .node256 => .NodeType256

/-- The smallest layout for a number of children. -/
def NodeType.smallest (count : Nat) : NodeType :=
  if count ≤ 4 then .NodeType4
  else if count ≤ 16 then .NodeType16
  else if count ≤ 48 then .NodeType48
  else .NodeType256

def NodeType.HasRoom (count : Nat) : NodeType → Prop
  | .NodeType4 => count < 4
  | .NodeType16 => count < 16
  | .NodeType48 => count < 48
  | .NodeType256 => True

structure Growing (fits : NodeType → Nat → Prop) : Prop where
  smallest : ∀ count, fits (.smallest count) count
  keep : ∀ {type count}, fits type count → type.HasRoom count → fits type (count + 1)

theorem Growing.of_smallest {fits : NodeType → Nat → Prop} (h : Growing fits) {type : NodeType}
    {count : Nat} (hsmallest : NodeType.smallest count = type) : fits type count :=
  hsmallest ▸ h.smallest count

inductive Shaped (fits : NodeType → Nat → Prop) : Node → Prop
  | null : Shaped fits .null
  | leaf (e : Element) : Shaped fits (.leaf e)
  | inner {hdr : Header} {lay : Layout} {child : Nat → Node} (hfits : fits lay.type hdr.count)
      (hslots : ∀ s, Shaped fits (child s)) : Shaped fits (.inner hdr lay child)

/-! ## Slots -/

section Slots

variable {p : Node → Prop} {child : Nat → Node} {c : Node}

theorem slots_update (hslots : ∀ s, p (child s)) (hc : p c) (pos : Nat) :
    ∀ s, p (Function.update child pos c s) :=
  (Function.forall_update_iff child fun _ n => p n).2 ⟨hc, fun s _ => hslots s⟩

theorem slots_insertAt (hslots : ∀ s, p (child s)) (hc : p c) (pos count : Nat) :
    ∀ s, p (insertAt child pos count c s) := by
  intro s
  rw [insertAt]
  split
  · exact hslots s
  · split
    · exact hc
    · split
      · exact hslots (s - 1)
      · exact hslots s

theorem slots_copyOf (hslots : ∀ s, p (child s)) (hc : p c) (count : Nat) :
    ∀ s, p (copyOf child count c s) := by
  intro s
  rw [copyOf]
  split
  · exact hslots s
  · exact hc

theorem slots_getD {kids : List Node} (hkids : ∀ n ∈ kids, p n) (hc : p c) :
    ∀ s, p (kids.getD s c) := by
  intro s
  rcases Nat.lt_or_ge s kids.length with hs | hs
  · rw [getD_eq_getElem _ _ hs]
    exact hkids _ (getElem_mem hs)
  · rw [getD_eq_default _ _ hs]
    exact hc

end Slots

/-! ## Insertion -/

namespace NodeType

variable {count : Nat}

theorem smallest_of_le_four (h : count ≤ 4) : smallest count = .NodeType4 :=
  if_pos h

theorem smallest_of_le_sixteen (h : 4 < count) (h' : count ≤ 16) : smallest count = .NodeType16 := by
  rw [smallest, if_neg (Nat.not_le.2 h), if_pos h']

theorem smallest_of_le_fortyeight (h : 16 < count) (h' : count ≤ 48) :
    smallest count = .NodeType48 := by
  rw [smallest, if_neg (by omega), if_neg (Nat.not_le.2 h), if_pos h']

theorem smallest_of_gt (h : 48 < count) : smallest count = .NodeType256 := by
  rw [smallest, if_neg (by omega), if_neg (by omega), if_neg (Nat.not_le.2 h)]

end NodeType

section Insertion

variable {fits : NodeType → Nat → Prop} {hdr : Header} {child : Nat → Node} {c : Node}

theorem insertNode256_shaped (hroom : fits .NodeType256 (hdr.count + 1))
    (hslots : ∀ s, Shaped fits (child s)) (hc : Shaped fits c) (b : UInt8) :
    Shaped fits (insertNode256 hdr child b c) :=
  .inner hroom (slots_update hslots hc _)

variable (hfits : Growing fits)
include hfits

theorem insertNode48_shaped (hmin : 16 ≤ hdr.count ∨ fits .NodeType48 hdr.count)
    (hslots : ∀ s, Shaped fits (child s)) (hc : Shaped fits c) (childIndex : UInt8 → Nat)
    (b : UInt8) : Shaped fits (insertNode48 hdr childIndex child b c) := by
  rw [insertNode48]
  split
  · rename_i hroom
    refine .inner (hmin.elim (fun hmin => ?_) fun hmin => hfits.keep hmin hroom)
      (slots_update hslots hc _)
    exact hfits.of_smallest (NodeType.smallest_of_le_fortyeight (Nat.lt_succ_of_le hmin) hroom)
  · rename_i hfull
    have hgrown : fits .NodeType256 ((copyPrefix hdr).count + 1) :=
      hfits.of_smallest (NodeType.smallest_of_gt (Nat.lt_succ_of_le (not_lt.1 hfull)))
    refine insertNode256_shaped hgrown (fun s => ?_) hc b
    split
    · exact hslots _
    · exact .null

theorem insertNode16_shaped (hmin : 4 ≤ hdr.count ∨ fits .NodeType16 hdr.count)
    (hslots : ∀ s, Shaped fits (child s)) (hc : Shaped fits c) (key : Nat → UInt8) (b : UInt8) :
    Shaped fits (insertNode16 hdr key child b c) := by
  rw [insertNode16]
  split
  · rename_i hroom
    refine .inner (hmin.elim (fun hmin => ?_) fun hmin => hfits.keep hmin hroom)
      (slots_insertAt hslots hc _ _)
    exact hfits.of_smallest (NodeType.smallest_of_le_sixteen (Nat.lt_succ_of_le hmin) hroom)
  · rename_i hfull
    have hgrown : 16 ≤ (copyPrefix hdr).count := not_lt.1 hfull
    exact insertNode48_shaped hfits (.inl hgrown) (slots_copyOf hslots .null _) hc _ b

theorem insertNode4_shaped (hslots : ∀ s, Shaped fits (child s)) (hc : Shaped fits c)
    (key : Nat → UInt8) (b : UInt8) : Shaped fits (insertNode4 hdr key child b c) := by
  rw [insertNode4]
  split
  · rename_i hroom
    refine .inner ?_ (slots_insertAt hslots hc _ _)
    exact hfits.of_smallest (NodeType.smallest_of_le_four (Nat.succ_le_of_lt hroom))
  · rename_i hfull
    have hgrown : 4 ≤ (copyPrefix hdr).count := not_lt.1 hfull
    exact insertNode16_shaped hfits (.inl hgrown) (slots_copyOf hslots .null _) hc _ b

theorem insertChild_shaped {lay : Layout} (hlay : fits lay.type hdr.count)
    (hslots : ∀ s, Shaped fits (child s)) (hc : Shaped fits c) (b : UInt8) :
    Shaped fits (insertChild hdr lay child b c) := by
  cases lay with
  | node4 key => exact insertNode4_shaped hfits hslots hc key b
  | node16 key => exact insertNode16_shaped hfits (.inr hlay) hslots hc key b
  | node48 childIndex => exact insertNode48_shaped hfits (.inr hlay) hslots hc childIndex b
  | node256 => exact insertNode256_shaped (hfits.keep hlay trivial) hslots hc b

theorem newNode4_shaped {n m : Node} (hn : Shaped fits n) (hm : Shaped fits m) (prefixLength : Nat)
    (prefixBytes : Nat → UInt8) (b b' : UInt8) :
    Shaped fits (newNode4 prefixLength prefixBytes b n b' m) := by
  rw [newNode4, insertNode4, if_pos (Nat.zero_lt_succ 3)]
  exact insertNode4_shaped hfits (slots_insertAt (fun _ => .null) hn _ _) hm _ b'

theorem Shaped.insert {n : Node} (h : Shaped fits n) (key : Nat → UInt8) (keyLength : Nat)
    (value : Element) : ∀ depth, Shaped fits (insert key keyLength value n depth) := by
  induction h with
  | null => exact fun _ => .leaf value
  | leaf e => exact fun _ => newNode4_shaped hfits (.leaf e) (.leaf value) _ _ _ _
  | @inner hdr lay child hlay hslots ih =>
      intro depth
      -- The rest of a node whose prefix is broken up keeps its children.
      have hrest : ∀ hdr' : Header, hdr'.count = hdr.count → Shaped fits (.inner hdr' lay child) :=
        fun hdr' hcount => .inner (hcount ▸ hlay) hslots
      rw [ART.insert]
      dsimp only
      split
      · split
        · refine newNode4_shaped hfits (hrest _ ?_) (.leaf value) _ _ _ _
          rfl
        · refine newNode4_shaped hfits (hrest _ ?_) (.leaf value) _ _ _ _
          rfl
      · split
        · split
          · exact .inner hlay (slots_update hslots (ih _ _) _)
          · exact insertChild_shaped hfits hlay hslots (.leaf value) _
        · exact insertChild_shaped hfits hlay hslots (.leaf value) _

/-! ## Bulk loading -/

theorem bulkNode_shaped {kids : List Node} (h : ∀ n ∈ kids, Shaped fits n) (hdr : Header)
    (bytes : List UInt8) : Shaped fits (bulkNode hdr bytes kids) := by
  have hslots : ∀ s, Shaped fits (kids.getD s .null) := slots_getD h .null
  rw [bulkNode]
  split
  · rename_i h4
    exact .inner (hfits.of_smallest (NodeType.smallest_of_le_four h4)) hslots
  · rename_i h4
    split
    · rename_i h16
      exact .inner (hfits.of_smallest (NodeType.smallest_of_le_sixteen (not_le.1 h4) h16)) hslots
    · rename_i h16
      split
      · rename_i h48
        exact .inner (hfits.of_smallest (NodeType.smallest_of_le_fortyeight (not_le.1 h16) h48)) hslots
      · rename_i h48
        refine .inner (hfits.of_smallest (NodeType.smallest_of_gt (not_le.1 h48))) ?_
        exact repeatFor_invariant (fun slots : Nat → Node => ∀ s, Shaped fits (slots s))
          (fun _ => .null) (fun i slots hs => slots_update hs (hslots i) _) _

theorem bulk_insert_shaped (fuel : Nat) :
    ∀ {xs : List Element} {depth curDepth : Nat} {n : Node},
      bulk_insert fuel xs depth curDepth = some n → Shaped fits n := by
  induction fuel with
  | zero =>
      intro xs depth curDepth n h
      cases h
  | succ fuel ih =>
      intro xs depth curDepth n h
      match xs with
      | [] =>
          cases h
          exact .null
      | [e] =>
          cases h
          exact .leaf e
      | e :: f :: rest =>
          rw [bulk_insert] at h
          split at h
          · exact ih h
          · obtain ⟨kids, hkids, rfl⟩ := Option.map_eq_some_iff.1 h
            refine bulkNode_shaped hfits (fun n hn => ?_) _ _
            obtain ⟨part, -, hpart⟩ := exists_of_mem_mapM hkids hn
            exact ih hpart

end Insertion

end ART
end TLI
