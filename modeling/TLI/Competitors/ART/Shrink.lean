import TLI.Competitors.ART.Invariant

/-!
# Shrink — removal of a child, in place and with shrinking

The counterpart of `insertChild`: `eraseChild` closes the gap, moves the children to a smaller
layout when few are left, and puts the last child of a `Node4` in its place.

`eraseChild_isInner` removes one child from a node with at least three, whichever layout the node
had, except for a `Node16` with four: the new `Node4` gets a count of four for three children.
-/

namespace TLI
namespace ART

open Loop List

/-! ## Model -/

def Header.decrement (hdr : Header) : Header :=
  { hdr with count := hdr.count - 1 }

/-- The two `memmove`s that close the gap at `pos` in an array with `count` entries. -/
def removeAt {α : Type} (a : Nat → α) (pos count i : Nat) : α :=
  if i < pos then a i else if i + 1 < count then a (i + 1) else a i

/-- Concatenate prefixes, and store the concatenated prefix in the child's header. -/
def concatenate (hdr chdr : Header) (keyByte : UInt8) : Header :=
  let (prefixBytes, l1) :=
    if hdr.prefixLength < maxPrefixLength then
      (Function.update hdr.prefixBytes hdr.prefixLength keyByte, hdr.prefixLength + 1)
    else (hdr.prefixBytes, hdr.prefixLength)
  let (prefixBytes, l1) :=
    if l1 < maxPrefixLength then
      let l2 := min chdr.prefixLength (maxPrefixLength - l1)
      (fun i => if l1 ≤ i ∧ i < l1 + l2 then chdr.prefixBytes (i - l1) else prefixBytes i, l1 + l2)
    else (prefixBytes, l1)
  { chdr with
    prefixLength := chdr.prefixLength + (hdr.prefixLength + 1)
    prefixBytes := fun i =>
      if i < min l1 maxPrefixLength then prefixBytes i else chdr.prefixBytes i }

/-- Get rid of one-way node: its only child takes its place. -/
def oneWay (hdr : Header) (keyByte : UInt8) (c : Node) : Node :=
  match c with
  | .inner chdr clay cchild => .inner (concatenate hdr chdr keyByte) clay cchild
  | c => c

def eraseNode4 (hdr : Header) (key : Nat → UInt8) (child : Nat → Node) (pos : Nat) : Node :=
  let key := removeAt key pos hdr.count
  let child := removeAt child pos hdr.count
  if hdr.decrement.count = 1 then oneWay hdr (key 0) (child 0)
  else .inner hdr.decrement (.node4 key) child

def eraseNode16 (hdr : Header) (key : Nat → UInt8) (child : Nat → Node) (pos : Nat) : Node :=
  let key := removeAt key pos hdr.count
  let child := removeAt child pos hdr.count
  if hdr.decrement.count = 3 then
    -- Shrink to Node4
    .inner { copyPrefix hdr with count := 4 } (.node4 (copyOf key 4 0)) (copyOf child 4 .null)
  else .inner hdr.decrement (.node16 key) child

/-- The arrays of a new `Node16` that children are put into, and its `count`. -/
structure Packed where
  key : Nat → UInt8
  child : Nat → Node
  count : Nat

def Packed.push (new : Packed) (b : UInt8) (c : Node) : Packed where
  key := Function.update new.key new.count b
  child := Function.update new.child new.count c
  count := new.count + 1

def eraseNode48 (hdr : Header) (childIndex : UInt8 → Nat) (child : Nat → Node) (keyByte : UInt8) :
    Node :=
  let child := Function.update child (childIndex keyByte) .null
  let childIndex := Function.update childIndex keyByte emptyMarker
  if hdr.decrement.count = 12 then
    -- Shrink to Node16
    let new := repeatFor (fun b new =>
      if childIndex (UInt8.ofNat b) ≠ emptyMarker then
        new.push (UInt8.ofNat b) (child (childIndex (UInt8.ofNat b)))
      else new) 256 { key := fun _ => 0, child := fun _ => .null, count := 0 : Packed }
    .inner { copyPrefix hdr with count := new.count } (.node16 new.key) new.child
  else .inner hdr.decrement (.node48 childIndex) child

/-- The arrays of a new `Node48` that children are put into, and its `count`. -/
structure Indexed where
  childIndex : UInt8 → Nat
  child : Nat → Node
  count : Nat

def Indexed.push (new : Indexed) (b : UInt8) (c : Node) : Indexed where
  childIndex := Function.update new.childIndex b new.count
  child := Function.update new.child new.count c
  count := new.count + 1

def eraseNode256 (hdr : Header) (child : Nat → Node) (keyByte : UInt8) : Node :=
  let child := Function.update child keyByte.toNat .null
  if hdr.decrement.count = 37 then
    -- Shrink to Node48
    let new := repeatFor (fun b new =>
      if (child b).present then new.push (UInt8.ofNat b) (child b) else new) 256
      { childIndex := fun _ => emptyMarker, child := fun _ => .null, count := 0 : Indexed }
    .inner { copyPrefix hdr with count := new.count } (.node48 new.childIndex) new.child
  else .inner hdr.decrement .node256 child

/-- Delete leaf from inner node; `pos` is the slot of the leaf. -/
def eraseChild (hdr : Header) (lay : Layout) (child : Nat → Node) (keyByte : UInt8) (pos : Nat) :
    Node :=
  match lay with
  | .node4 key => eraseNode4 hdr key child pos
  | .node16 key => eraseNode16 hdr key child pos
  | .node48 childIndex => eraseNode48 hdr childIndex child keyByte
  | .node256 => eraseNode256 hdr child keyByte

namespace Header

variable {hdr : Header} {path : List UInt8}

theorem Stores.decrement (h : hdr.Stores path) : hdr.decrement.Stores path :=
  ⟨h.length_eq, h.byte_eq⟩

theorem Stores.withCount (h : hdr.Stores path) (count : Nat) :
    Stores { ART.copyPrefix hdr with count := count } path :=
  ⟨h.copyPrefix.length_eq, h.copyPrefix.byte_eq⟩

end Header

/-! ## Removal from the arrays of a Node4 or Node16 -/

theorem removeAt_of_lt {α : Type} {a : Nat → α} {pos count i : Nat} (h : i < pos) :
    removeAt a pos count i = a i :=
  if_pos h

theorem removeAt_of_le {α : Type} {a : Nat → α} {pos count i : Nat} (h : pos ≤ i)
    (hi : i + 1 < count) : removeAt a pos count i = a (i + 1) := by
  rw [removeAt, if_neg (Nat.not_lt.2 h), if_pos hi]

/-- The entry at `pos` is gone, the others stay in order. -/
theorem map_removeAt {α : Type} (a : Nat → α) {pos count : Nat} (hpos : pos < count) :
    a pos :: (range (count - 1)).map (removeAt a pos count) ~ (range count).map a := by
  have hfront : (range' 0 pos).map (removeAt a pos count) = (range' 0 pos).map a :=
    map_congr_left fun i hi => removeAt_of_lt (by rw [mem_range'_1] at hi; omega)
  have hback : (range' pos (count - 1 - pos)).map (removeAt a pos count) =
      (range' (pos + 1) (count - 1 - pos)).map a := by
    rw [range'_succ_left, map_map]
    exact map_congr_left fun i hi => by
      rw [mem_range'_1] at hi
      exact removeAt_of_le hi.1 (by omega)
  have hsplit : range' 0 count = range' 0 pos ++ pos :: range' (pos + 1) (count - 1 - pos) := by
    rw [range'_split hpos.le, ← range'_succ]
    congr 2
    omega
  rw [range_eq_range', range_eq_range', range'_split (by omega : pos ≤ count - 1), map_append,
    hfront, hback, hsplit, map_append, map_cons]
  exact perm_middle.symm

theorem ascending_removeAt {key : Nat → UInt8} {count : Nat} (hasc : Ascending key count)
    (pos : Nat) : Ascending (removeAt key pos count) (count - 1) := by
  intro i j hij hj
  rcases Nat.lt_or_ge i pos with hi | hi
  · rw [removeAt_of_lt hi]
    rcases Nat.lt_or_ge j pos with hj' | hj'
    · rw [removeAt_of_lt hj']
      exact hasc i j hij (by omega)
    · rw [removeAt_of_le hj' (by omega)]
      exact hasc i (j + 1) (by omega) (by omega)
  · rw [removeAt_of_le hi (by omega), removeAt_of_le (by omega) (by omega)]
    exact hasc (i + 1) (j + 1) (by omega) (by omega)

theorem forall_removeAt {α : Type} {p : α → Prop} {a : Nat → α} {count : Nat}
    (ha : ∀ i, i < count → p (a i)) (pos : Nat) :
    ∀ i, i < count - 1 → p (removeAt a pos count i) := by
  intro i hi
  rcases Nat.lt_or_ge i pos with hlt | hge
  · rw [removeAt_of_lt hlt]
    exact ha i (by omega)
  · rw [removeAt_of_le hge (by omega)]
    exact ha (i + 1) (by omega)

/-- Keys and children are moved alike. -/
theorem removeAt_pair {α β : Type} (a : Nat → α) (b : Nat → β) (pos count i : Nat) :
    (removeAt a pos count i, removeAt b pos count i) =
      removeAt (fun i => (a i, b i)) pos count i := by
  simp only [removeAt]
  split
  · rfl
  · split <;> rfl

theorem children_removeAt (key : Nat → UInt8) (child : Nat → Node) {pos count : Nat}
    (hpos : pos < count) :
    (key pos, child pos) :: (range (count - 1)).map
        (fun i => (removeAt key pos count i, removeAt child pos count i)) ~
      (range count).map fun i => (key i, child i) := by
  simp only [removeAt_pair]
  exact map_removeAt (fun i => (key i, child i)) hpos

/-! ## Concatenation of prefixes -/

/-- The header of the last child keeps the path of both nodes with the byte between them. -/
theorem concatenate_stores {hdr chdr : Header} {path cpath : List UInt8} (b : UInt8)
    (h : hdr.Stores path) (hc : chdr.Stores cpath) :
    (concatenate hdr chdr b).Stores (path ++ [b] ++ cpath) := by
  have hlength : (path ++ [b] ++ cpath).length = cpath.length + (path.length + 1) := by
    simp only [length_append, length_singleton]
    omega
  have hfront : ∀ i, i < path.length → byteAt (path ++ [b] ++ cpath) i = byteAt path i := by
    intro i hi
    rw [append_assoc, byteAt_of_initial (prefix_append path _) hi]
  have hmid : byteAt (path ++ [b] ++ cpath) path.length = b := byteAt_length (prefix_append _ _)
  have hback : ∀ i, path.length + 1 ≤ i →
      byteAt (path ++ [b] ++ cpath) i = byteAt cpath (i - (path.length + 1)) := by
    intro i hi
    obtain ⟨j, rfl⟩ := Nat.exists_eq_add_of_le hi
    rw [Nat.add_sub_cancel_left]
    simpa only [length_append, length_singleton] using @byteAt_append (path ++ [b]) cpath j
  have hmin : maxPrefixLength = 8 := rfl
  refine ⟨?_, fun i hi hmax => ?_⟩
  · rw [concatenate]
    simp only [h.length_eq, hc.length_eq, hlength]
  · rw [hlength] at hi
    rw [concatenate, h.length_eq, hc.length_eq]
    by_cases hshort : path.length < maxPrefixLength
    · rw [if_pos hshort]
      dsimp only
      by_cases hroom : path.length + 1 < maxPrefixLength
      · -- The child's prefix follows as far as there is room.
        rw [if_pos hroom]
        dsimp only
        rw [if_pos (by omega)]
        rcases Nat.lt_trichotomy i path.length with hlt | rfl | hgt
        · rw [if_neg (by omega), Function.update_of_ne (by omega), h.byte_eq i hlt hmax, hfront i hlt]
        · rw [if_neg (by omega), Function.update_self, hmid]
        · rw [if_pos (by omega), hc.byte_eq _ (by omega) (by omega), hback i hgt]
      · rw [if_neg hroom]
        dsimp only
        rw [if_pos (by omega)]
        rcases Nat.lt_or_ge i path.length with hlt | hge
        · rw [Function.update_of_ne (by omega), h.byte_eq i hlt hmax, hfront i hlt]
        · obtain rfl : i = path.length := by omega
          rw [Function.update_self, hmid]
    · -- Only the node's own prefix is stored.
      rw [if_neg hshort]
      dsimp only
      rw [if_neg hshort]
      dsimp only
      rw [if_pos (by omega), h.byte_eq i (by omega) hmax, hfront i (by omega)]

/-! ## Packing children into a smaller node -/

/-- A loop that packs the children of some bytes leaves them in order, in front of empty slots. -/
theorem pack_spec (kid : Nat → Option Node) (n : Nat) :
    let new := repeatFor (fun b (new : Packed) => (kid b).elim new (new.push (UInt8.ofNat b))) n
      { key := fun _ => 0, child := fun _ => .null, count := 0 }
    ((range new.count).map fun i => (new.key i, new.child i)) =
        (range n).filterMap (fun b => (kid b).map (Prod.mk (UInt8.ofNat b))) ∧
      ∀ i, new.count ≤ i → new.child i = .null := by
  induction n with
  | zero => exact ⟨rfl, fun _ _ => rfl⟩
  | succ n ih =>
      intro new
      obtain ⟨hpairs, hfree⟩ := ih
      rw [range_succ, filterMap_append, ← hpairs]
      generalize hold : repeatFor (fun b (new : Packed) =>
        (kid b).elim new (new.push (UInt8.ofNat b))) n
        { key := fun _ => 0, child := fun _ => .null, count := 0 } = old at hpairs hfree ⊢
      have hnew : new = (kid n).elim old (old.push (UInt8.ofNat n)) := by
        rw [← hold]
        rfl
      clear_value new
      cases hkid : kid n with
      | none =>
          rw [hkid] at hnew
          subst hnew
          refine ⟨?_, hfree⟩
          simp [hkid]
      | some c =>
          rw [hkid] at hnew
          subst hnew
          refine ⟨?_, fun i hi => ?_⟩
          · simp only [Option.elim, Packed.push]
            rw [range_succ, map_append, map_singleton, Function.update_self, Function.update_self]
            congr 1
            · refine map_congr_left fun i hi => ?_
              have hne : i ≠ old.count := (mem_range.1 hi).ne
              rw [Function.update_of_ne hne, Function.update_of_ne hne]
            · simp [hkid]
          · have hi : old.count + 1 ≤ i := hi
            exact (Function.update_of_ne (by omega) _ _).trans (hfree i (by omega))

/-- The same loop with an index in place of the key array. -/
theorem index_eq (kid : Nat → Option Node) (n : Nat) :
    let new := repeatFor (fun b (new : Packed) => (kid b).elim new (new.push (UInt8.ofNat b))) n
      { key := fun _ => 0, child := fun _ => .null, count := 0 }
    repeatFor (fun b (new : Indexed) => (kid b).elim new (new.push (UInt8.ofNat b))) n
        { childIndex := fun _ => emptyMarker, child := fun _ => .null, count := 0 } =
      { childIndex := indexOf new.key new.count, child := new.child, count := new.count } := by
  induction n with
  | zero => rfl
  | succ n ih =>
      intro new
      generalize hold : repeatFor (fun b (new : Packed) =>
        (kid b).elim new (new.push (UInt8.ofNat b))) n
        { key := fun _ => 0, child := fun _ => .null, count := 0 } = old at ih
      have hnew : new = (kid n).elim old (old.push (UInt8.ofNat n)) := by
        rw [← hold]
        rfl
      clear_value new
      rw [repeatFor, ih]
      cases hkid : kid n with
      | none =>
          rw [hkid] at hnew
          rw [hnew]
          rfl
      | some c =>
          rw [hkid] at hnew
          rw [hnew]
          simp only [Option.elim, Indexed.push, Packed.push, Indexed.mk.injEq, and_true]
          rw [indexOf, indexOf, repeatFor, Function.update_self]
          congr 1
          refine repeatFor_congr _ _ fun i hi => ?_
          rw [Function.update_of_ne hi.ne]

/-- The children of a node whose positions are key bytes. -/
theorem children_bytes {count : Nat} {lay : Layout} {child : Nat → Node}
    (hlimit : limit count lay = 256) {kid : Nat → Option Node}
    (hkid : ∀ b, b < 256 → (entryAt lay (presentIn child) b).map (fun bs => (bs.1, child bs.2)) =
      (kid b).map (Prod.mk (UInt8.ofNat b))) :
    children count lay child = (range 256).filterMap fun b => (kid b).map (Prod.mk (UInt8.ofNat b)) := by
  rw [children, entries, entriesFrom, hlimit, map_filterMap, range_eq_range']
  refine filterMap_congr fun b hb => ?_
  rw [mem_range'_1] at hb
  exact hkid b (by omega)

/-- The packed arrays hold the children that the node had. -/
theorem packed_arrays {new : Packed} {kids : List (UInt8 × Node)}
    (hpairs : ((range new.count).map fun i => (new.key i, new.child i)) = kids)
    (hsorted : kids.Pairwise fun x y => x.1 < y.1)
    (hpresent : ∀ bn, bn ∈ kids → bn.2.present = true) :
    new.count = kids.length ∧ Ascending new.key new.count ∧
      ∀ i, i < new.count → presentIn new.child i = true := by
  subst hpairs
  refine ⟨by simp, ?_, fun i hi => hpresent _ (mem_map.2 ⟨i, mem_range.2 hi, rfl⟩)⟩
  intro i j hij hj
  have h := pairwise_iff_getElem.1 hsorted i j (by simpa using hij.trans hj) (by simpa using hj) hij
  simpa using h

/-! ## Removal of a child -/

/-- A slot is emptied and the byte that leads to it is forgotten. -/
theorem children_erased {count count' : Nat} {lay lay' : Layout} {child : Nat → Node} {b : UInt8}
    {s : Nat}
    (hentries : entries count lay (presentIn child) ~
      (b, s) :: entries count' lay' (presentIn (Function.update child s .null)))
    (hne : ∀ b' s', (b', s') ∈ entries count' lay' (presentIn (Function.update child s .null)) →
      s' ≠ s) :
    children count lay child ~ (b, child s) :: children count' lay' (Function.update child s .null) := by
  have hback : Function.update (Function.update child s .null) s (child s) = child := by
    rw [Function.update_idem, Function.update_eq_self]
  have h : children count lay (Function.update (Function.update child s .null) s (child s)) ~
      (b, child s) :: children count' lay' (Function.update child s .null) :=
    children_update (by rwa [hback]) hne
  rwa [hback] at h

theorem eraseNode4_isInner {hdr : Header} {key : Nat → UInt8} {child : Nat → Node}
    {path : List UInt8} {pos : Nat} (hstores : hdr.Stores path)
    (hok : LayoutOK hdr.count (.node4 key) (presentIn child)) (hpos : pos < hdr.count)
    (hcount : 3 ≤ hdr.count) :
    ∃ others, children hdr.count (.node4 key) child ~ (key pos, child pos) :: others ∧
      IsInner (eraseNode4 hdr key child pos) path others := by
  obtain ⟨hroom, hasc, hused⟩ := layoutOK_node4.1 hok
  rw [children_node4]
  refine ⟨_, (children_removeAt key child hpos).symm, ?_⟩
  have hone : ¬ hdr.decrement.count = 1 := (by omega : ¬ hdr.count - 1 = 1)
  rw [eraseNode4]
  simp only [if_neg hone]
  refine ⟨_, _, _, rfl, hstores.decrement, layoutOK_node4.2
    ⟨(Nat.sub_le _ _).trans hroom, ascending_removeAt hasc pos, ?_⟩, ?_⟩
  · exact forall_removeAt (p := fun n : Node => n.present = true) hused pos
  · rw [children_node4]
    exact Perm.refl _

theorem eraseNode16_isInner {hdr : Header} {key : Nat → UInt8} {child : Nat → Node}
    {path : List UInt8} {pos : Nat} (hstores : hdr.Stores path)
    (hok : LayoutOK hdr.count (.node16 key) (presentIn child)) (hpos : pos < hdr.count)
    (hcount : hdr.count ≠ 4) :
    ∃ others, children hdr.count (.node16 key) child ~ (key pos, child pos) :: others ∧
      IsInner (eraseNode16 hdr key child pos) path others := by
  obtain ⟨hroom, hasc, hused⟩ := layoutOK_node16.1 hok
  rw [children_node16]
  refine ⟨_, (children_removeAt key child hpos).symm, ?_⟩
  have hthree : ¬ hdr.decrement.count = 3 := (by omega : ¬ hdr.count - 1 = 3)
  rw [eraseNode16]
  simp only [if_neg hthree]
  refine ⟨_, _, _, rfl, hstores.decrement, layoutOK_node16.2
    ⟨(Nat.sub_le _ _).trans hroom, ascending_removeAt hasc pos, ?_⟩, ?_⟩
  · exact forall_removeAt (p := fun n : Node => n.present = true) hused pos
  · rw [children_node16]
    exact Perm.refl _

/-- The children of a `Node48` without the one behind a byte. -/
theorem layoutOK_erased48 {count : Nat} {childIndex : UInt8 → Nat} {child : Nat → Node} {b : UInt8}
    {s : Nat} (hok : LayoutOK count (.node48 childIndex) (presentIn child))
    (hmem : (b, s) ∈ entries count (.node48 childIndex) (presentIn child)) :
    LayoutOK (count - 1) (.node48 (Function.update childIndex b emptyMarker))
        (presentIn (Function.update child s .null)) ∧
      children count (.node48 childIndex) child ~ (b, child s) :: children (count - 1)
        (.node48 (Function.update childIndex b emptyMarker)) (Function.update child s .null) := by
  obtain ⟨hs, hne⟩ := mem_entries_node48.1 hmem
  have hother : ∀ b', b' ≠ b → Function.update childIndex b emptyMarker b' = childIndex b' :=
    fun b' hb' => Function.update_of_ne hb' _ _
  have hslot : ∀ b', b' ≠ b → childIndex b' ≠ emptyMarker → childIndex b' ≠ s := by
    intro b' hb' hne' heq
    exact hb' (hok.byte_unique (mem_entries_node48.2 ⟨heq, hne⟩) hmem)
  -- Seen backwards, the byte gets its slot.
  have hback : Function.update (Function.update childIndex b emptyMarker) b s = childIndex := by
    rw [Function.update_idem, ← hs, Function.update_eq_self]
  have hentries : entries count
        (.node48 (Function.update (Function.update childIndex b emptyMarker) b s))
        (presentIn child) ~
      (b, s) :: entries (count - 1) (.node48 (Function.update childIndex b emptyMarker))
        (presentIn (Function.update child s .null)) :=
    entries_node48_update (Function.update_self _ _ _) hne
  rw [hback] at hentries
  have hfree : ∀ b' s', (b', s') ∈ entries (count - 1)
      (.node48 (Function.update childIndex b emptyMarker))
      (presentIn (Function.update child s .null)) → s' ≠ s := by
    intro b' s' hmem'
    obtain ⟨hs', hne'⟩ := mem_entries_node48.1 hmem'
    by_cases hb' : b' = b
    · rw [hb', Function.update_self] at hs'
      exact absurd hs'.symm hne'
    · rw [hother b' hb'] at hs'
      rw [← hs'] at hne' ⊢
      exact hslot b' hb' hne'
  refine ⟨layoutOK_node48 ?_ ?_ ?_ ?_ ?_, children_erased hentries hfree⟩
  · have hlength := hentries.length_eq
    rw [hok.length_eq, length_cons] at hlength
    omega
  · intro b'
    by_cases hb' : b' = b
    · rw [hb', Function.update_self]
    · rw [hother b' hb']
      exact hok.room.1 b'
  · intro b₁ b₂ heq hne₁
    by_cases h₁ : b₁ = b <;> by_cases h₂ : b₂ = b
    · rw [h₁, h₂]
    · rw [h₁, Function.update_self] at hne₁
      exact absurd rfl hne₁
    · rw [heq, h₂, Function.update_self] at hne₁
      exact absurd rfl hne₁
    · rw [hother b₁ h₁] at heq hne₁
      rw [hother b₂ h₂] at heq
      exact hok.byte_unique (mem_entries_node48.2 ⟨rfl, hne₁⟩)
        (mem_entries_node48.2 ⟨heq.symm, hne₁⟩)
  · intro b' hne'
    by_cases hb' : b' = b
    · rw [hb', Function.update_self] at hne'
      exact absurd rfl hne'
    · rw [hother b' hb'] at hne' ⊢
      rw [presentIn_update, Function.update_of_ne (hslot b' hb' hne')]
      exact hok.used b' _ (mem_entries_node48.2 ⟨rfl, hne'⟩)
  · intro s' hs' hpresent
    rw [presentIn_update] at hpresent
    by_cases hss : s' = s
    · rw [hss, Function.update_self] at hpresent
      cases hpresent
    · rw [Function.update_of_ne hss] at hpresent
      obtain ⟨b', rfl⟩ := hok.room.2 s' hs' hpresent
      exact ⟨b', hother b' fun hb' => hss (by rw [hb', hs])⟩

/-- Every child of a node is there. -/
theorem present_of_mem_children {count : Nat} {lay : Layout} {child : Nat → Node}
    (hok : LayoutOK count lay (presentIn child)) :
    ∀ bn, bn ∈ children count lay child → bn.2.present = true := by
  intro bn hbn
  obtain ⟨⟨b, s⟩, hs, rfl⟩ := mem_map.1 hbn
  exact hok.used b s hs

theorem eraseNode48_isInner {hdr : Header} {childIndex : UInt8 → Nat} {child : Nat → Node}
    {path : List UInt8} {b : UInt8} {s : Nat} (hstores : hdr.Stores path)
    (hok : LayoutOK hdr.count (.node48 childIndex) (presentIn child))
    (hmem : (b, s) ∈ entries hdr.count (.node48 childIndex) (presentIn child)) :
    ∃ others, children hdr.count (.node48 childIndex) child ~ (b, child s) :: others ∧
      IsInner (eraseNode48 hdr childIndex child b) path others := by
  obtain ⟨hok', hperm⟩ := layoutOK_erased48 hok hmem
  obtain ⟨hs, -⟩ := mem_entries_node48.1 hmem
  refine ⟨_, hperm, ?_⟩
  rw [eraseNode48, hs]
  generalize Function.update childIndex b emptyMarker = childIndex' at hok' ⊢
  generalize Function.update child s .null = child' at hok' ⊢
  dsimp only
  split
  · -- Shrink to Node16
    rename_i htwelve
    have htwelve : hdr.count - 1 = 12 := htwelve
    let kid := fun b => if childIndex' (UInt8.ofNat b) ≠ emptyMarker then
      some (child' (childIndex' (UInt8.ofNat b))) else none
    have hbody : (fun b (new : Packed) => if childIndex' (UInt8.ofNat b) ≠ emptyMarker then
          new.push (UInt8.ofNat b) (child' (childIndex' (UInt8.ofNat b))) else new) =
        fun b new => (kid b).elim new (new.push (UInt8.ofNat b)) := by
      funext b new
      simp only [kid]
      split <;> rfl
    have hpack := (pack_spec kid 256).1
    have hchildren : children (hdr.count - 1) (.node48 childIndex') child' = (range 256).filterMap
        fun b => (kid b).map (Prod.mk (UInt8.ofNat b)) := by
      refine children_bytes rfl fun b _ => ?_
      simp only [entryAt, kid]
      split <;> rfl
    simp only [hbody]
    rw [← hchildren] at hpack
    generalize repeatFor (fun b (new : Packed) => (kid b).elim new (new.push (UInt8.ofNat b))) 256
      { key := fun _ => 0, child := fun _ => .null, count := 0 } = new at hpack ⊢
    obtain ⟨hcount, hasc, hused⟩ := packed_arrays hpack hok'.children_sorted
      (present_of_mem_children hok')
    rw [children, length_map, hok'.length_eq, htwelve] at hcount
    refine ⟨_, _, _, rfl, hstores.withCount _, layoutOK_node16.2 ⟨?_, hasc, hused⟩, ?_⟩
    · exact (by omega : new.count ≤ 16)
    · rw [children_node16]
      exact Perm.of_eq hpack
  · exact ⟨_, _, _, rfl, hstores.decrement, hok', Perm.refl _⟩

/-- The children of a `Node256` without the one behind a byte. -/
theorem layoutOK_erased256 {count : Nat} {child : Nat → Node} {b : UInt8} {s : Nat}
    (hok : LayoutOK count .node256 (presentIn child))
    (hmem : (b, s) ∈ entries count .node256 (presentIn child)) :
    LayoutOK (count - 1) .node256 (presentIn (Function.update child s .null)) ∧
      children count .node256 child ~
        (b, child s) :: children (count - 1) .node256 (Function.update child s .null) := by
  obtain ⟨hpresent, hs⟩ := mem_entries_node256.1 hmem
  have hiff : ∀ b' s', (b', s') ∈ entries (count - 1) .node256
      (presentIn (Function.update child s .null)) ↔
        (b', s') ∈ entries count .node256 (presentIn child) ∧ s' ≠ s := by
    intro b' s'
    rw [mem_entries_node256, mem_entries_node256, presentIn_update]
    by_cases hss : s' = s
    · rw [hss, Function.update_self]
      exact iff_of_false (fun h => Bool.noConfusion h.1) fun h => h.2 rfl
    · rw [Function.update_of_ne hss, and_iff_left hss]
  have hentries : entries count .node256 (presentIn child) ~
      (b, s) :: entries (count - 1) .node256 (presentIn (Function.update child s .null)) := by
    refine (perm_ext_iff_of_nodup (nodup_of_sorted hok.sorted) (nodup_cons.2
      ⟨fun hb => ((hiff b s).1 hb).2 rfl, nodup_of_sorted (sorted_node256 _ _)⟩)).2 ?_
    rintro ⟨b', s'⟩
    rw [mem_cons, hiff, Prod.mk.injEq]
    by_cases hss : s' = s
    · subst hss
      exact ⟨fun h => .inl ⟨hok.byte_unique h hmem, rfl⟩,
        fun h => h.elim (fun h => h.1 ▸ hmem) fun h => absurd rfl h.2⟩
    · refine ⟨fun h => .inr ⟨h, hss⟩, fun h => h.elim (fun h => absurd h.2 hss) fun h => h.1⟩
  refine ⟨layoutOK_node256 ?_, children_erased hentries fun b' s' h => ((hiff b' s').1 h).2⟩
  have hlength := hentries.length_eq
  rw [hok.length_eq, length_cons] at hlength
  omega

theorem eraseNode256_isInner {hdr : Header} {child : Nat → Node} {path : List UInt8} {b : UInt8}
    {s : Nat} (hstores : hdr.Stores path) (hok : LayoutOK hdr.count .node256 (presentIn child))
    (hmem : (b, s) ∈ entries hdr.count .node256 (presentIn child)) :
    ∃ others, children hdr.count .node256 child ~ (b, child s) :: others ∧
      IsInner (eraseNode256 hdr child b) path others := by
  obtain ⟨hok', hperm⟩ := layoutOK_erased256 hok hmem
  obtain ⟨-, hs⟩ := mem_entries_node256.1 hmem
  refine ⟨_, hperm, ?_⟩
  rw [eraseNode256, ← hs]
  generalize Function.update child s .null = child' at hok' ⊢
  dsimp only
  split
  · -- Shrink to Node48
    rename_i hleft
    have hleft : hdr.count - 1 = 37 := hleft
    let kid := fun b => if (child' b).present then some (child' b) else none
    have hbody : (fun b (new : Indexed) => if (child' b).present = true then
          new.push (UInt8.ofNat b) (child' b) else new) =
        fun b new => (kid b).elim new (new.push (UInt8.ofNat b)) := by
      funext b new
      simp only [kid]
      split <;> rfl
    have hpack := pack_spec kid 256
    have hchildren : children (hdr.count - 1) .node256 child' = (range 256).filterMap
        fun b => (kid b).map (Prod.mk (UInt8.ofNat b)) := by
      refine children_bytes rfl fun b _ => ?_
      simp only [kid]
      by_cases hb : (child' b).present = true <;> simp [entryAt, presentIn, hb]
    simp only [hbody, index_eq]
    rw [← hchildren] at hpack
    generalize repeatFor (fun b (new : Packed) => (kid b).elim new (new.push (UInt8.ofNat b))) 256
      { key := fun _ => 0, child := fun _ => .null, count := 0 } = new at hpack ⊢
    obtain ⟨hpairs, hfree⟩ := hpack
    obtain ⟨hcount, hasc, hused⟩ := packed_arrays hpairs hok'.children_sorted
      (present_of_mem_children hok')
    rw [children, length_map, hok'.length_eq, hleft] at hcount
    obtain ⟨hok48, hperm48⟩ := layoutOK_indexOf hasc (by omega) hused fun i hi => by
      rw [presentIn, hfree i hi]
      rfl
    exact ⟨_, _, _, rfl, hstores.withCount _, hok48, hperm48.trans (Perm.of_eq hpairs)⟩
  · exact ⟨_, _, _, rfl, hstores.decrement, hok', Perm.refl _⟩

/-- Whatever layout a node has, the child is removed from its children, unless that leaves three in
a `Node16`. -/
theorem eraseChild_isInner {hdr : Header} {lay : Layout} {child : Nat → Node} {path : List UInt8}
    {b : UInt8} {s : Nat} (hstores : hdr.Stores path)
    (hok : LayoutOK hdr.count lay (presentIn child))
    (hmem : (b, s) ∈ entries hdr.count lay (presentIn child)) (hcount : 3 ≤ hdr.count)
    (hfour : ∀ key, lay = .node16 key → hdr.count ≠ 4) :
    ∃ others, children hdr.count lay child ~ (b, child s) :: others ∧
      IsInner (eraseChild hdr lay child b s) path others := by
  cases lay with
  | node4 key =>
      rw [entries_node4, mem_slots] at hmem
      rw [← hmem.2]
      exact eraseNode4_isInner hstores hok hmem.1 hcount
  | node16 key =>
      rw [entries_node16, mem_slots] at hmem
      rw [← hmem.2]
      exact eraseNode16_isInner hstores hok hmem.1 (hfour key rfl)
  | node48 childIndex => exact eraseNode48_isInner hstores hok hmem
  | node256 => exact eraseNode256_isInner hstores hok hmem

/-- Of two children the other one takes the place of the node. -/
theorem eraseNode4_pair {hdr : Header} (key : Nat → UInt8) (child : Nat → Node) {pos : Nat}
    (hcount : hdr.count = 2) (hpos : pos < 2) :
    ∃ b c, children hdr.count (.node4 key) child ~ [(key pos, child pos), (b, c)] ∧
      eraseNode4 hdr key child pos = oneWay hdr b c := by
  have hone : hdr.decrement.count = 1 := (by omega : hdr.count - 1 = 1)
  have hperm := (children_removeAt key child (hcount ▸ hpos)).symm
  rw [hcount] at hperm
  refine ⟨removeAt key pos hdr.count 0, removeAt child pos hdr.count 0, ?_, ?_⟩
  · rw [children_node4, hcount]
    exact hperm
  · rw [eraseNode4]
    simp only [if_pos hone]

end ART
end TLI
