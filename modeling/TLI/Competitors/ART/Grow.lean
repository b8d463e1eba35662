import TLI.Competitors.ART.Layout

/-!
# Grow — insertion of a child, in place and with growth

* `Stores` — a header keeps a compressed path: its length and its first eight bytes.
* `IsInner` — a node is an inner node with a given path and given children, in any order.

`insertChild_isInner` adds one child to these, whichever layout the node had and whichever it gets.
-/

namespace TLI
namespace ART

open Loop Simd List

structure Header.Stores (hdr : Header) (path : List UInt8) : Prop where
  length_eq : hdr.prefixLength = path.length
  byte_eq : ∀ i, i < path.length → i < maxPrefixLength → hdr.prefixBytes i = byteAt path i

/-- An inner node with the compressed path `path` and the children `kids`. -/
def IsInner (n : Node) (path : List UInt8) (kids : List (UInt8 × Node)) : Prop :=
  ∃ hdr lay child, n = .inner hdr lay child ∧ hdr.Stores path ∧
    LayoutOK hdr.count lay (presentIn child) ∧ children hdr.count lay child ~ kids

theorem IsInner.perm {n : Node} {path : List UInt8} {kids kids' : List (UInt8 × Node)}
    (h : IsInner n path kids) (hperm : kids ~ kids') : IsInner n path kids' := by
  obtain ⟨hdr, lay, child, rfl, hstores, hok, hkids⟩ := h
  exact ⟨hdr, lay, child, rfl, hstores, hok, hkids.trans hperm⟩

namespace Header

variable {hdr : Header} {path : List UInt8}

theorem Stores.increment (h : hdr.Stores path) : hdr.increment.Stores path :=
  ⟨h.length_eq, h.byte_eq⟩

theorem Stores.copyPrefix (h : hdr.Stores path) : (copyPrefix hdr).Stores path := by
  refine ⟨h.length_eq, fun i hi hmax => ?_⟩
  rw [← h.byte_eq i hi hmax]
  exact if_pos (lt_min (h.length_eq ▸ hi) hmax)

end Header

/-! ## The promises of the four layouts -/

theorem layoutOK_node4 {count : Nat} {key : Nat → UInt8} {present : Nat → Bool} :
    LayoutOK count (.node4 key) present ↔
      count ≤ 4 ∧ Ascending key count ∧ ∀ i, i < count → present i = true := by
  constructor
  · intro h
    have hasc := h.sorted
    have hused := h.used
    rw [entries_node4] at hasc hused
    exact ⟨h.room, sorted_slots.1 hasc, fun i hi => hused (key i) i (mem_slots.2 ⟨hi, rfl⟩)⟩
  · rintro ⟨hroom, hasc, hused⟩
    refine ⟨?_, ?_, ?_, ?_, hroom⟩ <;> rw [entries_node4]
    · exact sorted_slots.2 hasc
    · simpa [Function.comp_def] using nodup_range
    · simp
    · exact fun b s hmem => hused s (mem_slots.1 hmem).1

theorem layoutOK_node16 {count : Nat} {key : Nat → UInt8} {present : Nat → Bool} :
    LayoutOK count (.node16 key) present ↔
      count ≤ 16 ∧ Ascending key count ∧ ∀ i, i < count → present i = true := by
  constructor
  · intro h
    have hasc := h.sorted
    have hused := h.used
    rw [entries_node16] at hasc hused
    exact ⟨h.room, sorted_slots.1 hasc, fun i hi => hused (key i) i (mem_slots.2 ⟨hi, rfl⟩)⟩
  · rintro ⟨hroom, hasc, hused⟩
    refine ⟨?_, ?_, ?_, ?_, hroom⟩ <;> rw [entries_node16]
    · exact sorted_slots.2 hasc
    · simpa [Function.comp_def] using nodup_range
    · simp
    · exact fun b s hmem => hused s (mem_slots.1 hmem).1

theorem nodup_of_sorted {es : List (UInt8 × Nat)} (h : (es.map Prod.fst).Pairwise (· < ·)) :
    es.Nodup :=
  .of_map Prod.fst (h.imp fun hlt => ne_of_lt hlt)

/-- What is left to show of a `Node48`. -/
theorem layoutOK_node48 {count : Nat} {childIndex : UInt8 → Nat} {present : Nat → Bool}
    (hlength : (entries count (.node48 childIndex) present).length = count)
    (hle : ∀ b, childIndex b ≤ emptyMarker)
    (hinj : ∀ b c, childIndex b = childIndex c → childIndex b ≠ emptyMarker → b = c)
    (hused : ∀ b, childIndex b ≠ emptyMarker → present (childIndex b) = true)
    (hfree : ∀ s, s < 48 → present s = true → ∃ b, childIndex b = s) :
    LayoutOK count (.node48 childIndex) present := by
  have hsorted := sorted_node48 count childIndex present
  refine ⟨hsorted, (nodup_of_sorted hsorted).map_on ?_, hlength, ?_, hle, hfree⟩
  · rintro ⟨b, s⟩ hb ⟨c, t⟩ hc rfl
    rw [mem_entries_node48] at hb hc
    have hbc := hinj b c (hb.1.trans hc.1.symm) (hb.1 ▸ hb.2)
    rw [hbc]
  · intro b s hmem
    rw [mem_entries_node48] at hmem
    exact hmem.1 ▸ hused b (hmem.1 ▸ hmem.2)

theorem layoutOK_node256 {count : Nat} {present : Nat → Bool}
    (hlength : (entries count .node256 present).length = count) :
    LayoutOK count .node256 present := by
  have hsorted := sorted_node256 count present
  refine ⟨hsorted, (nodup_of_sorted hsorted).map_on ?_, hlength, ?_, trivial⟩
  · rintro ⟨b, s⟩ hb ⟨c, t⟩ hc rfl
    rw [mem_entries_node256] at hb hc
    rw [UInt8.toNat_inj.1 (hb.2.symm.trans hc.2)]
  · exact fun b s hmem => (mem_entries_node256.1 hmem).1

/-! ## Insertion into the arrays of a Node4 or Node16 -/

theorem children_node4 (count : Nat) (key : Nat → UInt8) (child : Nat → Node) :
    children count (.node4 key) child = (range count).map fun i => (key i, child i) := by
  rw [children, entries_node4, map_map]
  rfl

theorem children_node16 (count : Nat) (key : Nat → UInt8) (child : Nat → Node) :
    children count (.node16 key) child = (range count).map fun i => (key i, child i) :=
  children_node4 count key child

theorem insertAt_of_lt {α : Type} {a : Nat → α} {pos count i : Nat} {x : α} (h : i < pos) :
    insertAt a pos count x i = a i :=
  if_pos h

theorem insertAt_self {α : Type} {a : Nat → α} {pos count : Nat} {x : α} :
    insertAt a pos count x pos = x := by
  rw [insertAt, if_neg (Nat.lt_irrefl pos), if_pos rfl]

theorem insertAt_succ {α : Type} {a : Nat → α} {pos count i : Nat} {x : α} (h : pos ≤ i)
    (hi : i < count) : insertAt a pos count x (i + 1) = a i := by
  rw [insertAt, if_neg (by omega), if_neg (by omega), if_pos (by omega), Nat.add_sub_cancel]

theorem map_insertAt {α : Type} (a : Nat → α) {pos count : Nat} (hpos : pos ≤ count) (x : α) :
    (range (count + 1)).map (insertAt a pos count x) ~ x :: (range count).map a := by
  have hfront : (range' 0 pos).map (insertAt a pos count x) = (range' 0 pos).map a :=
    map_congr_left fun i hi => insertAt_of_lt (by rw [mem_range'_1] at hi; omega)
  have hback : (range' (pos + 1) (count - pos)).map (insertAt a pos count x) =
      (range' pos (count - pos)).map a := by
    rw [range'_succ_left, map_map]
    exact map_congr_left fun i hi => by
      rw [mem_range'_1] at hi
      exact insertAt_succ hi.1 (by omega)
  rw [range_eq_range', range_eq_range', range'_split (Nat.le_succ_of_le hpos),
    Nat.succ_sub hpos, range'_succ, map_append, map_cons, insertAt_self, hfront, hback,
    range'_split hpos, map_append]
  exact perm_middle

/-- The bytes stay in order when a fresh one is put where the scan stopped. -/
theorem ascending_insertAt {key : Nat → UInt8} {count : Nat} (hasc : Ascending key count)
    {b : UInt8} (hfresh : ∀ i, i < count → key i ≠ b) {pos : Nat} (hpos : pos ≤ count)
    (hsep : ∀ i, i < count → (key i < b ↔ i < pos)) :
    Ascending (insertAt key pos count b) (count + 1) := by
  have hgt : ∀ i, pos ≤ i → i < count → b < key i := fun i hge hi =>
    lt_of_le_of_ne (not_lt.1 fun hlt => absurd ((hsep i hi).1 hlt) (by omega)) (hfresh i hi).symm
  intro i j hij hj
  rcases Nat.lt_trichotomy i pos with hi | rfl | hi
  · rw [insertAt_of_lt hi]
    rcases Nat.lt_trichotomy j pos with hj' | rfl | hj'
    · rw [insertAt_of_lt hj']
      exact hasc i j hij (by omega)
    · rw [insertAt_self]
      exact (hsep i (by omega)).2 hi
    · obtain ⟨j, rfl⟩ := Nat.exists_eq_succ_of_ne_zero (by omega : j ≠ 0)
      rw [insertAt_succ (by omega) (by omega)]
      exact lt_trans ((hsep i (by omega)).2 hi) (hgt j (by omega) (by omega))
  · obtain ⟨j, rfl⟩ := Nat.exists_eq_succ_of_ne_zero (by omega : j ≠ 0)
    rw [insertAt_self, insertAt_succ (by omega) (by omega)]
    exact hgt j (by omega) (by omega)
  · obtain ⟨i, rfl⟩ := Nat.exists_eq_succ_of_ne_zero (by omega : i ≠ 0)
    obtain ⟨j, rfl⟩ := Nat.exists_eq_succ_of_ne_zero (by omega : j ≠ 0)
    rw [insertAt_succ (by omega) (by omega), insertAt_succ (by omega) (by omega)]
    exact hasc i j (by omega) (by omega)

/-- The slots stay in use. -/
theorem forall_insertAt {α : Type} {p : α → Prop} {a : Nat → α} {pos count : Nat} {x : α}
    (ha : ∀ i, i < count → p (a i)) (hx : p x) (hpos : pos ≤ count) :
    ∀ i, i < count + 1 → p (insertAt a pos count x i) := by
  intro i hi
  rcases Nat.lt_trichotomy i pos with h | rfl | h
  · rw [insertAt_of_lt h]
    exact ha i (by omega)
  · rwa [insertAt_self]
  · obtain ⟨i, rfl⟩ := Nat.exists_eq_succ_of_ne_zero (by omega : i ≠ 0)
    rw [insertAt_succ (by omega) (by omega)]
    exact ha i (by omega)

/-- Keys and children are moved alike. -/
theorem insertAt_pair {α β : Type} (a : Nat → α) (b : Nat → β) (pos count : Nat) (x : α) (y : β)
    (i : Nat) :
    (insertAt a pos count x i, insertAt b pos count y i) =
      insertAt (fun i => (a i, b i)) pos count (x, y) i := by
  simp only [insertAt]
  split
  · rfl
  · split
    · rfl
    · split <;> rfl

theorem children_insertAt {key : Nat → UInt8} {child : Nat → Node} {pos count : Nat} (b : UInt8)
    (c : Node) (hpos : pos ≤ count) :
    (range (count + 1)).map
        (fun i => (insertAt key pos count b i, insertAt child pos count c i)) ~
      (b, c) :: (range count).map fun i => (key i, child i) := by
  simp only [insertAt_pair]
  exact map_insertAt _ hpos _

/-! ## Insertion with growth -/

/-- The byte of a new child is not among the bytes of the children. -/
def Fresh (b : UInt8) (kids : List (UInt8 × Node)) : Prop :=
  ∀ bn, bn ∈ kids → bn.1 ≠ b

theorem children_update {count count' : Nat} {lay lay' : Layout} {child : Nat → Node} {b : UInt8}
    {s : Nat} {c : Node}
    (hentries : entries count' lay' (presentIn (Function.update child s c)) ~
      (b, s) :: entries count lay (presentIn child))
    (hne : ∀ b' s', (b', s') ∈ entries count lay (presentIn child) → s' ≠ s) :
    children count' lay' (Function.update child s c) ~ (b, c) :: children count lay child := by
  refine (hentries.map _).trans ?_
  rw [map_cons, Function.update_self, children]
  refine Perm.cons _ (Perm.of_eq (map_congr_left fun bs hbs => ?_))
  rw [Function.update_of_ne (hne bs.1 bs.2 hbs)]

theorem presentIn_update (child : Nat → Node) (s : Nat) (c : Node) :
    presentIn (Function.update child s c) = Function.update (presentIn child) s c.present := by
  funext t
  by_cases ht : t = s
  · rw [ht, presentIn, Function.update_self, Function.update_self]
  · rw [presentIn, Function.update_of_ne ht, Function.update_of_ne ht, presentIn]

theorem insertNode256_isInner {hdr : Header} {child : Nat → Node} {path : List UInt8} {b : UInt8}
    {c : Node} (hstores : hdr.Stores path) (hok : LayoutOK hdr.count .node256 (presentIn child))
    (hfresh : Fresh b (children hdr.count .node256 child)) (hc : c.present = true) :
    IsInner (insertNode256 hdr child b c) path ((b, c) :: children hdr.count .node256 child) := by
  have habsent : (b, b.toNat) ∉ entries hdr.count .node256 (presentIn child) := fun hmem =>
    hfresh (b, child b.toNat) (mem_map.2 ⟨_, hmem, rfl⟩) rfl
  have hsorted := sorted_node256 (hdr.count + 1) (presentIn (Function.update child b.toNat c))
  have hentries : entries (hdr.count + 1) .node256 (presentIn (Function.update child b.toNat c)) ~
      (b, b.toNat) :: entries hdr.count .node256 (presentIn child) := by
    refine (perm_ext_iff_of_nodup (nodup_of_sorted hsorted)
      (nodup_cons.2 ⟨habsent, nodup_of_sorted hok.sorted⟩)).2 ?_
    rintro ⟨b', s⟩
    rw [mem_cons, mem_entries_node256, mem_entries_node256, presentIn_update, Prod.mk.injEq]
    by_cases hs : s = b.toNat
    · rw [hs, Function.update_self, UInt8.toNat_inj, eq_comm (a := b)]
      simp only [hc, true_and, and_true]
      exact ⟨Or.inl, fun h => h.elim id And.right⟩
    · rw [Function.update_of_ne hs]
      simp only [hs, and_false, false_or]
  refine ⟨_, _, _, rfl, hstores.increment, layoutOK_node256 ?_, children_update hentries ?_⟩
  · exact hentries.length_eq.trans (congrArg Nat.succ hok.length_eq)
  · intro b' s hmem hs
    rw [mem_entries_node256] at hmem
    exact habsent (mem_entries_node256.2 ⟨hs ▸ hmem.1, rfl⟩)

/-- A `Node48` that is not full has a free slot. -/
theorem exists_free_slot {count : Nat} {childIndex : UInt8 → Nat} {present : Nat → Bool}
    (hok : LayoutOK count (.node48 childIndex) present) (hcount : count < 48) :
    ∃ s, s < 48 ∧ present s = false := by
  by_contra hfull
  have hall : range 48 ⊆ (entries count (.node48 childIndex) present).map Prod.snd := by
    intro s hs
    rw [mem_range] at hs
    have hpresent : present s = true := by
      by_contra hfalse
      exact hfull ⟨s, hs, by simpa using hfalse⟩
    obtain ⟨b, rfl⟩ := hok.room.2 s hs hpresent
    exact mem_map.2 ⟨(b, childIndex b), mem_entries_node48.2 ⟨rfl, Nat.ne_of_lt hs⟩, rfl⟩
  have hle := (nodup_range.subperm hall).length_le
  rw [length_map, hok.length_eq, length_range] at hle
  omega

/-- The slot a new child of a `Node48` is put into. -/
def freeSlot (count : Nat) (child : Nat → Node) : Nat :=
  if (child count).present then scan (fun pos => !(child pos).present) 48 0 else count

theorem freeSlot_spec {count : Nat} {childIndex : UInt8 → Nat} {child : Nat → Node}
    (hok : LayoutOK count (.node48 childIndex) (presentIn child)) (hcount : count < 48) :
    freeSlot count child < 48 ∧ presentIn child (freeSlot count child) = false := by
  rw [freeSlot]
  split
  · obtain ⟨s, hs, hfree⟩ := exists_free_slot hok hcount
    have hlt : scan (fun pos => !(child pos).present) 48 0 < 48 := by
      by_contra hge
      have hbefore := scan_before (fun pos => !(child pos).present) 48 0 s (Nat.zero_le s)
        (by omega)
      rw [presentIn] at hfree
      rw [hfree] at hbefore
      cases hbefore
    have hstop := scan_stop (fun pos => !(child pos).present) 48 0 (by omega)
    exact ⟨hlt, by simpa [presentIn] using hstop⟩
  · rename_i habsent
    exact ⟨hcount, by simpa [presentIn] using habsent⟩

/-- A byte without a child gets a slot. -/
theorem entries_node48_update {count count' : Nat} {childIndex : UInt8 → Nat}
    {present present' : Nat → Bool} {b : UInt8} {s : Nat} (hb : childIndex b = emptyMarker)
    (hs : s ≠ emptyMarker) :
    entries count' (.node48 (Function.update childIndex b s)) present' ~
      (b, s) :: entries count (.node48 childIndex) present := by
  refine (perm_ext_iff_of_nodup (nodup_of_sorted (sorted_node48 _ _ _)) (nodup_cons.2
    ⟨fun hmem => ?_, nodup_of_sorted (sorted_node48 _ _ _)⟩)).2 ?_
  · exact hs ((mem_entries_node48.1 hmem).1.symm.trans hb)
  · rintro ⟨b', s'⟩
    rw [mem_cons, mem_entries_node48, mem_entries_node48, Prod.mk.injEq]
    by_cases hb' : b' = b
    · rw [hb', Function.update_self, hb, eq_comm (a := s)]
      refine ⟨fun h => Or.inl ⟨rfl, h.1⟩, fun h => ?_⟩
      rcases h with ⟨-, rfl⟩ | ⟨rfl, hne⟩
      · exact ⟨rfl, hs⟩
      · exact absurd rfl hne
    · rw [Function.update_of_ne hb']
      simp only [hb', false_and, false_or]

/-- A free slot is used for a byte without a child. -/
theorem layoutOK_inserted48 {count : Nat} {childIndex : UInt8 → Nat} {child : Nat → Node} {b : UInt8}
    {pos : Nat} {c : Node} (hok : LayoutOK count (.node48 childIndex) (presentIn child))
    (hb : childIndex b = emptyMarker) (hpos : pos < 48) (hslot : ∀ b', childIndex b' ≠ pos)
    (hc : c.present = true) :
    LayoutOK (count + 1) (.node48 (Function.update childIndex b pos))
      (presentIn (Function.update child pos c)) := by
  have hentries : entries (count + 1) (.node48 (Function.update childIndex b pos))
        (presentIn (Function.update child pos c)) ~
      (b, pos) :: entries count (.node48 childIndex) (presentIn child) :=
    entries_node48_update hb (Nat.ne_of_lt hpos)
  have hother : ∀ b', b' ≠ b →
      Function.update childIndex b pos b' = childIndex b' := fun b' hne =>
    Function.update_of_ne hne _ _
  refine layoutOK_node48 ?_ ?_ ?_ ?_ ?_
  · exact hentries.length_eq.trans (congrArg Nat.succ hok.length_eq)
  · intro b'
    by_cases hb' : b' = b
    · rw [hb', Function.update_self]
      exact Nat.le_of_lt hpos
    · rw [hother b' hb']
      exact hok.room.1 b'
  · intro b₁ b₂ heq hne
    -- Only the new byte leads to the new slot.
    by_cases h₁ : b₁ = b <;> by_cases h₂ : b₂ = b
    · rw [h₁, h₂]
    · rw [h₁, Function.update_self, hother b₂ h₂] at heq
      exact absurd heq.symm (hslot b₂)
    · rw [h₂, Function.update_self, hother b₁ h₁] at heq
      exact absurd heq (hslot b₁)
    · rw [hother b₁ h₁] at heq hne
      rw [hother b₂ h₂] at heq
      exact hok.byte_unique (mem_entries_node48.2 ⟨rfl, hne⟩)
        (mem_entries_node48.2 ⟨heq.symm, hne⟩)
  · intro b' hne
    rw [presentIn_update]
    by_cases hb' : b' = b
    · rw [hb', Function.update_self, Function.update_self, hc]
    · rw [hother b' hb'] at hne ⊢
      rw [Function.update_of_ne (hslot b')]
      exact hok.used b' _ (mem_entries_node48.2 ⟨rfl, hne⟩)
  · intro s hs hpresent
    rw [presentIn_update] at hpresent
    by_cases hs' : s = pos
    · exact ⟨b, by rw [hs', Function.update_self]⟩
    · rw [Function.update_of_ne hs'] at hpresent
      obtain ⟨b', rfl⟩ := hok.room.2 s hs hpresent
      refine ⟨b', hother b' fun hb' => ?_⟩
      rw [hb', hb] at hs
      exact absurd hs (Nat.lt_irrefl 48)

theorem insertNode48_of_lt {hdr : Header} {childIndex : UInt8 → Nat} {child : Nat → Node}
    {path : List UInt8} {b : UInt8} {c : Node} (hstores : hdr.Stores path)
    (hok : LayoutOK hdr.count (.node48 childIndex) (presentIn child))
    (hfresh : Fresh b (children hdr.count (.node48 childIndex) child)) (hc : c.present = true)
    (hcount : hdr.count < 48) :
    IsInner (insertNode48 hdr childIndex child b c) path
      ((b, c) :: children hdr.count (.node48 childIndex) child) := by
  obtain ⟨hpos, hfree⟩ := freeSlot_spec hok hcount
  rw [insertNode48, if_pos hcount]
  change IsInner (.inner hdr.increment
    (.node48 (Function.update childIndex b (freeSlot hdr.count child)))
    (Function.update child (freeSlot hdr.count child) c)) _ _
  generalize freeSlot hdr.count child = pos at hpos hfree
  have hb : childIndex b = emptyMarker := by
    by_contra hne
    exact hfresh (b, child (childIndex b))
      (mem_map.2 ⟨(b, childIndex b), mem_entries_node48.2 ⟨rfl, hne⟩, rfl⟩) rfl
  -- No byte leads to the free slot.
  have hslot : ∀ b', childIndex b' ≠ pos := by
    intro b' heq
    have hused := hok.used b' pos (mem_entries_node48.2 ⟨heq, Nat.ne_of_lt hpos⟩)
    rw [hused] at hfree
    cases hfree
  refine ⟨_, _, _, rfl, hstores.increment, layoutOK_inserted48 hok hb hpos hslot hc,
    children_update (entries_node48_update hb (Nat.ne_of_lt hpos)) fun b' s hmem hs => ?_⟩
  exact hslot b' (hs ▸ (mem_entries_node48.1 hmem).1)

/-! ## Growth -/

/-- The slots of a `Node256` that takes the children of a `Node48`. -/
def spread (childIndex : UInt8 → Nat) (child : Nat → Node) (i : Nat) : Node :=
  if i < 256 ∧ childIndex (UInt8.ofNat i) ≠ 48 then child (childIndex (UInt8.ofNat i)) else .null

theorem presentIn_spread {count : Nat} {childIndex : UInt8 → Nat} {child : Nat → Node}
    (hok : LayoutOK count (.node48 childIndex) (presentIn child)) {i : Nat} (hi : i < 256) :
    presentIn (spread childIndex child) i = decide (childIndex (UInt8.ofNat i) ≠ emptyMarker) := by
  rw [presentIn, spread]
  split
  · rename_i h
    rw [decide_eq_true (show _ ≠ emptyMarker from h.2)]
    exact hok.used (UInt8.ofNat i) _ (mem_entries_node48.2 ⟨rfl, h.2⟩)
  · rename_i h
    exact (decide_eq_false fun hne => h ⟨hi, hne⟩).symm

/-- Growth to a `Node256` keeps the children. -/
theorem children_spread {count : Nat} {childIndex : UInt8 → Nat} {child : Nat → Node}
    (hok : LayoutOK count (.node48 childIndex) (presentIn child)) :
    children count .node256 (spread childIndex child) =
      children count (.node48 childIndex) child := by
  rw [children, children, entries, entries, entriesFrom, entriesFrom, map_filterMap,
    map_filterMap]
  refine filterMap_congr fun i hi => ?_
  have hi : i < 256 := by
    rw [mem_range'_1] at hi
    exact hi.2
  simp only [entryAt, presentIn_spread hok hi]
  by_cases hne : childIndex (UInt8.ofNat i) = emptyMarker
  · simp [hne]
  · have hslot : spread childIndex child i = child (childIndex (UInt8.ofNat i)) :=
      if_pos ⟨hi, hne⟩
    simp [hne, hslot]

theorem insertNode48_isInner {hdr : Header} {childIndex : UInt8 → Nat} {child : Nat → Node}
    {path : List UInt8} {b : UInt8} {c : Node} (hstores : hdr.Stores path)
    (hok : LayoutOK hdr.count (.node48 childIndex) (presentIn child))
    (hfresh : Fresh b (children hdr.count (.node48 childIndex) child)) (hc : c.present = true) :
    IsInner (insertNode48 hdr childIndex child b c) path
      ((b, c) :: children hdr.count (.node48 childIndex) child) := by
  by_cases hcount : hdr.count < 48
  · exact insertNode48_of_lt hstores hok hfresh hc hcount
  · have hchildren := children_spread hok
    have hlength : (entries hdr.count .node256 (presentIn (spread childIndex child))).length =
        hdr.count := by
      have h := congrArg List.length hchildren
      rwa [children, children, length_map, length_map, hok.length_eq] at h
    rw [insertNode48, if_neg hcount, ← hchildren]
    rw [← hchildren] at hfresh
    exact @insertNode256_isInner (copyPrefix hdr) _ _ _ _ hstores.copyPrefix
      (layoutOK_node256 hlength) hfresh hc

theorem Ascending.ne {key : Nat → UInt8} {count : Nat} (hasc : Ascending key count) (i j : Nat)
    (hij : i < j) (hj : j < count) : key i ≠ key j :=
  ne_of_lt (hasc i j hij hj)

/-- The index of a key leads to the slot of the key. -/
theorem indexOf_eq_iff {key : Nat → UInt8} {count : Nat} (hasc : Ascending key count)
    (hcount : count ≤ 48) {b : UInt8} {s : Nat} :
    indexOf key count b = s ∧ s ≠ emptyMarker ↔ s < count ∧ key s = b := by
  have hspec := repeatFor_update key (fun i => i) (fun _ => emptyMarker) b hasc.ne
  constructor
  · rintro ⟨rfl, hne⟩
    by_cases hmem : ∃ i, i < count ∧ key i = b
    · obtain ⟨i, hi, hkey⟩ := hmem
      rw [indexOf, hspec.1 i hi hkey]
      exact ⟨hi, hkey⟩
    · exact absurd (hspec.2 fun i hi heq => hmem ⟨i, hi, heq⟩) hne
  · rintro ⟨hs, hkey⟩
    exact ⟨hspec.1 s hs hkey, Nat.ne_of_lt (Nat.lt_of_lt_of_le hs hcount)⟩

/-- A `Node48` over the arrays of a smaller node. -/
theorem layoutOK_indexOf {key : Nat → UInt8} {count : Nat} {child : Nat → Node}
    (hasc : Ascending key count) (hcount : count ≤ 48)
    (hused : ∀ i, i < count → presentIn child i = true)
    (hfree : ∀ i, count ≤ i → presentIn child i = false) :
    LayoutOK count (.node48 (indexOf key count)) (presentIn child) ∧
      children count (.node48 (indexOf key count)) child ~
        (range count).map fun i => (key i, child i) := by
  have hentries : entries count (.node48 (indexOf key count)) (presentIn child) ~
      (range count).map fun i => (key i, i) := by
    refine (perm_ext_iff_of_nodup (nodup_of_sorted (sorted_node48 _ _ _))
      (nodup_of_sorted (sorted_slots.2 hasc))).2 ?_
    rintro ⟨b, s⟩
    rw [mem_entries_node48, mem_slots, indexOf_eq_iff hasc hcount]
  have hslot : ∀ b, indexOf key count b ≠ emptyMarker →
      indexOf key count b < count ∧ key (indexOf key count b) = b := fun b hne =>
    (indexOf_eq_iff hasc hcount).1 ⟨rfl, hne⟩
  refine ⟨layoutOK_node48 ?_ ?_ ?_ ?_ ?_, ?_⟩
  · rw [hentries.length_eq, length_map, length_range]
  · intro b
    by_cases hne : indexOf key count b = emptyMarker
    · exact Nat.le_of_eq hne
    · exact Nat.le_trans (Nat.le_of_lt (hslot b hne).1) hcount
  · intro b c heq hne
    rw [← (hslot b hne).2, heq, (hslot c (heq ▸ hne)).2]
  · exact fun b hne => hused _ (hslot b hne).1
  · intro s hs hpresent
    have hlt : s < count := by
      by_contra hge
      rw [hfree s (Nat.not_lt.1 hge)] at hpresent
      cases hpresent
    exact ⟨key s, ((indexOf_eq_iff hasc hcount).2 ⟨hlt, rfl⟩).1⟩
  · refine (hentries.map _).trans (Perm.of_eq ?_)
    rw [map_map]
    rfl

theorem presentIn_copyOf {child : Nat → Node} {count i : Nat} :
    presentIn (copyOf child count .null) i = (decide (i < count) && presentIn child i) := by
  rw [presentIn, copyOf]
  split
  · rename_i h
    rw [decide_eq_true h, Bool.true_and, presentIn]
  · rename_i h
    rw [decide_eq_false h, Bool.false_and]
    rfl

theorem map_copyOf {α β : Type} (f : α → Nat → β) (a : Nat → α) (count : Nat) (default : α) :
    ((range count).map fun i => f (copyOf a count default i) i) =
      (range count).map fun i => f (a i) i := by
  refine map_congr_left fun i hi => ?_
  rw [copyOf, if_pos (mem_range.1 hi)]

theorem insertNode16_isInner {hdr : Header} {key : Nat → UInt8} {child : Nat → Node}
    {path : List UInt8} {b : UInt8} {c : Node} (hstores : hdr.Stores path)
    (hok : LayoutOK hdr.count (.node16 key) (presentIn child))
    (hfresh : Fresh b (children hdr.count (.node16 key) child)) (hc : c.present = true) :
    IsInner (insertNode16 hdr key child b c) path
      ((b, c) :: children hdr.count (.node16 key) child) := by
  obtain ⟨hroom, hasc, hused⟩ := layoutOK_node16.1 hok
  rw [children_node16] at hfresh ⊢
  have hne : ∀ i, i < hdr.count → key i ≠ b := fun i hi =>
    hfresh (key i, child i) (mem_map.2 ⟨i, mem_range.2 hi, rfl⟩)
  rw [insertNode16]
  split
  · rename_i hcount
    -- There is room: the comparison mask gives the position.
    obtain ⟨pos, hscan, hpos, hsep⟩ := scan_key hasc b
    have hbits := bitfield_scan hroom (fun k => cmpge_epu8 k b) key
    have hpos' : (if bitfield (fun k => cmpge_epu8 k b) key hdr.count ≠ 0 then
        ctz (bitfield (fun k => cmpge_epu8 k b) key hdr.count) else hdr.count) = pos := by
      simp only [cmpge_epu8_eq, hscan] at hbits ⊢
      rcases hbits with ⟨hend, hzero⟩ | ⟨-, hnz, hctz⟩
      · rw [if_neg (not_not.2 hzero), hend]
      · rw [if_pos hnz, hctz]
    simp only [hpos']
    refine ⟨_, _, _, rfl, hstores.increment, layoutOK_node16.2 ⟨hcount, ?_, ?_⟩, ?_⟩
    · exact ascending_insertAt hasc hne hpos hsep
    · exact forall_insertAt (p := fun n : Node => n.present = true) hused hc hpos
    · rw [children_node16]
      exact children_insertAt b c hpos
  · rename_i hcount
    -- The node is full, so its children move to a `Node48` that takes the new one.
    have hfull : hdr.count = 16 := by omega
    have hused' : ∀ i, i < hdr.count → presentIn (copyOf child hdr.count .null) i = true := by
      intro i hi
      rw [presentIn_copyOf, hused i hi, decide_eq_true hi]
      rfl
    obtain ⟨hok48, hperm⟩ := layoutOK_indexOf hasc (by omega) hused'
      (fun i hi => by rw [presentIn_copyOf, decide_eq_false (by omega), Bool.false_and])
    rw [map_copyOf (fun n i => (key i, n))] at hperm
    refine (@insertNode48_isInner (copyPrefix hdr) _ _ _ _ _ hstores.copyPrefix hok48 ?_ hc).perm
      (hperm.cons _)
    exact fun bn hbn => hfresh bn (hperm.mem_iff.1 hbn)

theorem insertNode4_isInner {hdr : Header} {key : Nat → UInt8} {child : Nat → Node}
    {path : List UInt8} {b : UInt8} {c : Node} (hstores : hdr.Stores path)
    (hok : LayoutOK hdr.count (.node4 key) (presentIn child))
    (hfresh : Fresh b (children hdr.count (.node4 key) child)) (hc : c.present = true) :
    IsInner (insertNode4 hdr key child b c) path
      ((b, c) :: children hdr.count (.node4 key) child) := by
  obtain ⟨hroom, hasc, hused⟩ := layoutOK_node4.1 hok
  rw [children_node4] at hfresh ⊢
  have hne : ∀ i, i < hdr.count → key i ≠ b := fun i hi =>
    hfresh (key i, child i) (mem_map.2 ⟨i, mem_range.2 hi, rfl⟩)
  rw [insertNode4]
  split
  · rename_i hcount
    obtain ⟨pos, hscan, hpos, hsep⟩ := scan_key hasc b
    simp only [hscan]
    refine ⟨_, _, _, rfl, hstores.increment, layoutOK_node4.2 ⟨hcount, ?_, ?_⟩, ?_⟩
    · exact ascending_insertAt hasc hne hpos hsep
    · exact forall_insertAt (p := fun n : Node => n.present = true) hused hc hpos
    · rw [children_node4]
      exact children_insertAt b c hpos
  · have hok16 : LayoutOK hdr.count (.node16 (copyOf key hdr.count 0))
        (presentIn (copyOf child hdr.count .null)) := by
      refine layoutOK_node16.2 ⟨by omega, fun i j hij hj => ?_, fun i hi => ?_⟩
      · rw [copyOf, copyOf, if_pos hj, if_pos (by omega)]
        exact hasc i j hij hj
      · rw [presentIn_copyOf, decide_eq_true hi, Bool.true_and]
        exact hused i hi
    have hsame : children hdr.count (.node16 (copyOf key hdr.count 0))
        (copyOf child hdr.count .null) = (range hdr.count).map fun i => (key i, child i) := by
      rw [children_node16]
      refine map_congr_left fun i hi => ?_
      rw [copyOf, copyOf, if_pos (mem_range.1 hi), if_pos (mem_range.1 hi)]
    rw [← hsame] at hfresh ⊢
    exact @insertNode16_isInner (copyPrefix hdr) _ _ _ _ _ hstores.copyPrefix hok16 hfresh hc

/-- Whatever layout a node has, a child with a fresh byte is added to its children. -/
theorem insertChild_isInner {hdr : Header} {lay : Layout} {child : Nat → Node} {path : List UInt8}
    {b : UInt8} {c : Node} (hstores : hdr.Stores path)
    (hok : LayoutOK hdr.count lay (presentIn child))
    (hfresh : Fresh b (children hdr.count lay child)) (hc : c.present = true) :
    IsInner (insertChild hdr lay child b c) path ((b, c) :: children hdr.count lay child) := by
  cases lay with
  | node4 key => exact insertNode4_isInner hstores hok hfresh hc
  | node16 key => exact insertNode16_isInner hstores hok hfresh hc
  | node48 childIndex => exact insertNode48_isInner hstores hok hfresh hc
  | node256 => exact insertNode256_isInner hstores hok hfresh hc

/-! ## Replacement of a child -/

/-- A child replaced in its slot; the others stay. -/
theorem replaceChild_isInner {hdr : Header} {lay : Layout} {child : Nat → Node}
    {path : List UInt8} {b : UInt8} {s : Nat} {c : Node} (hstores : hdr.Stores path)
    (hok : LayoutOK hdr.count lay (presentIn child))
    (hmem : (b, s) ∈ entries hdr.count lay (presentIn child)) (hc : c.present = true) :
    ∃ others, children hdr.count lay child ~ (b, child s) :: others ∧
      IsInner (.inner hdr lay (Function.update child s c)) path ((b, c) :: others) := by
  have hpresent : presentIn (Function.update child s c) = presentIn child := by
    rw [presentIn_update, hc, ← hok.used b s hmem, Function.update_eq_self]
  obtain ⟨front, back, hsplit⟩ := append_of_mem hmem
  have hperm : entries hdr.count lay (presentIn child) ~ (b, s) :: (front ++ back) :=
    hsplit ▸ perm_middle
  have hslots : s ∉ (front ++ back).map Prod.snd := by
    have hnodup := (hperm.map Prod.snd).nodup_iff.1 hok.slots
    exact (nodup_cons.1 hnodup).1
  refine ⟨(front ++ back).map fun bs : UInt8 × Nat => (bs.1, child bs.2), hperm.map _, ?_⟩
  refine ⟨hdr, lay, _, rfl, hstores, by rwa [hpresent], ?_⟩
  rw [children, hpresent]
  refine (hperm.map _).trans ?_
  rw [map_cons, Function.update_self]
  refine Perm.cons _ (Perm.of_eq (map_congr_left fun bs hbs => ?_))
  rw [Function.update_of_ne fun heq => hslots (mem_map.2 ⟨bs, hbs, heq⟩)]

/-! ## Nodes made at once -/

theorem newNode4_isInner {path : List UInt8} {prefixBytes : Nat → UInt8}
    (hbytes : ∀ i, i < path.length → i < maxPrefixLength → prefixBytes i = byteAt path i)
    {b₁ b₂ : UInt8} {c₁ c₂ : Node} (hne : b₁ ≠ b₂) (hc₁ : c₁.present = true)
    (hc₂ : c₂.present = true) :
    IsInner (newNode4 path.length prefixBytes b₁ c₁ b₂ c₂) path [(b₂, c₂), (b₁, c₁)] := by
  generalize hhdr : Header.mk path.length 0
    (copyOf prefixBytes (min path.length maxPrefixLength) 0) = hdr
  have hstores : hdr.Stores path := by
    subst hhdr
    refine ⟨rfl, fun i hi hmax => ?_⟩
    rw [← hbytes i hi hmax]
    exact if_pos (lt_min hi hmax)
  have hcount : hdr.count = 0 := by rw [← hhdr]
  have hempty : LayoutOK hdr.count (.node4 fun _ => 0) (presentIn fun _ => .null) :=
    layoutOK_node4.2 ⟨by omega, fun i j _ hj => by omega, fun i hi => by omega⟩
  have hnone : children hdr.count (.node4 fun _ => 0) (fun _ => .null) = [] := by
    rw [children_node4, hcount]
    rfl
  have hfirst := insertNode4_isInner (b := b₁) (c := c₁) hstores hempty
    (by rw [hnone]; exact fun _ h => absurd h not_mem_nil) hc₁
  rw [hnone] at hfirst
  rw [newNode4]
  simp only [hhdr]
  rw [insertNode4, if_pos (by omega)] at hfirst ⊢
  obtain ⟨hdr', lay', child', heq, hstores', hok', hperm⟩ := hfirst
  injection heq with hhdr' hlay' hchild'
  subst hhdr' hlay' hchild'
  have hsecond := insertNode4_isInner (b := b₂) (c := c₂) hstores' hok'
    (fun bn hbn => by
      rw [mem_singleton.1 (hperm.mem_iff.1 hbn)]
      exact hne) hc₂
  exact hsecond.perm (hperm.cons _)

/-- The arrays of a new node that bulk loading has filled. -/
theorem getD_pairs {bytes : List UInt8} {kids : List Node} (hlength : bytes.length = kids.length) :
    ((range kids.length).map fun i => (bytes.getD i 0, kids.getD i .null)) = bytes.zip kids := by
  refine ext_getElem (by simp [hlength]) fun i hi _ => ?_
  rw [length_map, length_range] at hi
  simp [getD_eq_getElem?_getD, hi, hlength]

/-- The slots of a `Node256` that bulk loading has filled. -/
def fillSlots (key : Nat → UInt8) (child : Nat → Node) (count : Nat) : Nat → Node :=
  repeatFor (fun i slots => Function.update slots (key i).toNat (child i)) count fun _ => .null

theorem layoutOK_fillSlots {key : Nat → UInt8} {child : Nat → Node} {count : Nat}
    (hasc : Ascending key count) (hused : ∀ i, i < count → presentIn child i = true) :
    LayoutOK count .node256 (presentIn (fillSlots key child count)) ∧
      children count .node256 (fillSlots key child count) ~
        (range count).map fun i => (key i, child i) := by
  have hspec := fun s => repeatFor_update (fun i => (key i).toNat) child
    (fun _ => Node.null) s fun i j hij hj heq => hasc.ne i j hij hj (UInt8.toNat_inj.1 heq)
  have hslot : ∀ i, i < count → fillSlots key child count (key i).toNat = child i :=
    fun i hi => (hspec _).1 i hi rfl
  have hnodup : ((range count).map fun i => (key i, (key i).toNat)).Nodup := by
    have hkeys := sorted_slots.2 hasc
    rw [map_map] at hkeys
    refine nodup_of_sorted ?_
    rwa [map_map]
  have hentries : entries count .node256 (presentIn (fillSlots key child count)) ~
      (range count).map fun i => (key i, (key i).toNat) := by
    refine (perm_ext_iff_of_nodup (nodup_of_sorted (sorted_node256 _ _)) hnodup).2 ?_
    rintro ⟨b, s⟩
    rw [mem_entries_node256, mem_map]
    constructor
    · rintro ⟨hpresent, rfl⟩
      by_cases hmem : ∃ i, i < count ∧ key i = b
      · obtain ⟨i, hi, rfl⟩ := hmem
        exact ⟨i, mem_range.2 hi, rfl⟩
      · have hnull : fillSlots key child count b.toNat = .null := (hspec _).2 fun i hi heq =>
          hmem ⟨i, hi, UInt8.toNat_inj.1 heq⟩
        rw [presentIn, hnull] at hpresent
        cases hpresent
    · rintro ⟨i, hi, heq⟩
      cases heq
      refine ⟨?_, rfl⟩
      rw [presentIn, hslot i (mem_range.1 hi)]
      exact hused i (mem_range.1 hi)
  refine ⟨layoutOK_node256 (by rw [hentries.length_eq, length_map, length_range]), ?_⟩
  refine (hentries.map _).trans (Perm.of_eq ?_)
  rw [map_map]
  refine map_congr_left fun i hi => ?_
  rw [Function.comp_apply, hslot i (mem_range.1 hi)]

theorem bulkNode_isInner {hdr : Header} {path : List UInt8} {bytes : List UInt8}
    {kids : List Node} (hstores : hdr.Stores path) (hcount : hdr.count = kids.length)
    (hlength : bytes.length = kids.length) (hsorted : bytes.Pairwise (· < ·))
    (hpresent : ∀ n, n ∈ kids → n.present = true) :
    IsInner (bulkNode hdr bytes kids) path (bytes.zip kids) := by
  have hasc : Ascending (fun i => bytes.getD i 0) hdr.count := by
    intro i j hij hj
    have h := pairwise_iff_getElem.1 hsorted i j (by omega) (by omega) hij
    simpa [getD_eq_getElem?_getD, show i < bytes.length by omega, show j < bytes.length by omega]
      using h
  have hused : ∀ i, i < hdr.count → presentIn (fun i => kids.getD i .null) i = true := by
    intro i hi
    have hi' : i < kids.length := by omega
    have h := hpresent kids[i] (getElem_mem hi')
    simpa [presentIn, getD_eq_getElem?_getD, hi'] using h
  have hfree : ∀ i, hdr.count ≤ i → presentIn (fun i => kids.getD i .null) i = false := by
    intro i hi
    have hi' : kids.length ≤ i := by omega
    simp [presentIn, getD_eq_getElem?_getD, hi', Node.present]
  have hpairs := getD_pairs hlength
  rw [← hcount] at hpairs
  rw [bulkNode]
  split
  · exact ⟨_, _, _, rfl, hstores, layoutOK_node4.2 ⟨by assumption, hasc, hused⟩,
      Perm.of_eq ((children_node4 _ _ _).trans hpairs)⟩
  · split
    · exact ⟨_, _, _, rfl, hstores, layoutOK_node16.2 ⟨by assumption, hasc, hused⟩,
        Perm.of_eq ((children_node16 _ _ _).trans hpairs)⟩
    · split
      · obtain ⟨hok, hperm⟩ := layoutOK_indexOf hasc (by assumption) hused hfree
        exact ⟨_, _, _, rfl, hstores, hok, hperm.trans (Perm.of_eq hpairs)⟩
      · obtain ⟨hok, hperm⟩ := layoutOK_fillSlots hasc hused
        exact ⟨_, _, _, rfl, hstores, hok, hperm.trans (Perm.of_eq hpairs)⟩

end ART
end TLI
