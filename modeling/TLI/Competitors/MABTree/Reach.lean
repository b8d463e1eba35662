import TLI.Competitors.MABTree.Calls
import TLI.Competitors.MABTree.Map

/-!
# Reach — the computations on the way of a key

In a `Steady` tree the operations compute nothing undefined exactly if

* the key is within reach of the nodes on its way that lack a separator on one side;
* no half of a leaf that is split holds equal keys alone.

Leaves below an inner node hold different keys (`Wide`), so separators increase, and the split of an
inner node needs no condition.
-/

namespace TLI
namespace MABTree

open List LowerBound

/-- The slot numbers of the code are kept in an `unsigned short`. -/
def Traits.Short (t : Traits) : Prop :=
  t.leafslotmax < 2 ^ 16 ∧ t.innerslotmax < 2 ^ 16

/-! ## The conditions -/

/-- Where the way of a key runs along an edge, the key is within reach. -/
def KeyInReach (t : Traits) (tree : Tree UInt64) (key : UInt64) : Prop :=
  ∀ v ∈ tree.visits key, v.lo_key = none ∨ v.hi_key = none →
    WithinReach t v.slotkey v.midp_err key

/-- Neither half of a full leaf holds equal keys alone. -/
def HalvesDiffer (t : Traits) (slotkey : List UInt64) : Prop :=
  slotkey.length = t.leafslotmax →
    EndsDiffer (slotkey.take (slotkey.length / 2)) ∧ EndsDiffer (slotkey.drop (slotkey.length / 2))

/-- If the leaf for a key is full, its halves hold different keys. -/
def LeafSplits (t : Traits) (tree : Tree UInt64) (key : UInt64) : Prop :=
  ∀ v, (tree.visits key).getLast? = some v → HalvesDiffer t v.slotkey

def Request.Meets (t : Traits) (tree : Tree UInt64) : Request → Prop
  | .find key => KeyInReach t tree key
  | .insert kv => KeyInReach t tree kv.key ∧ LeafSplits t tree kv.key

/-- Every request meets its condition in the tree that it finds. -/
def RunMeets (p : Params UInt64) (tree : Tree UInt64) : List Request → Prop
  | [] => True
  | request :: requests =>
      request.Meets p.traits tree ∧
        ∀ tree', request.apply p tree = some tree' → RunMeets p tree' requests

/-- No leaf gets two or more equal keys alone. -/
def PartsDiffer (t : Traits) (data : List (KeyValue UInt64)) : Prop :=
  ∀ items ∈ parts (num_parts data.length t.leafslotmax) data,
    EndsDiffer (items.map KeyValue.key)

def AllMeet (p : Params UInt64) (data : List (KeyValue UInt64)) (requests : List Request) : Prop :=
  PartsDiffer p.traits data ∧ ∀ tree, bulk_load p data = some tree → RunMeets p tree requests

/-! ## The invariant -/

/-- A leaf with two different keys. -/
def Wide (leaf : Leaf UInt64) : Prop :=
  ∃ kv ∈ leaf.slots, ∃ kv' ∈ leaf.slots, kv.key < kv'.key

def Leaf.Bounded (leaf : Leaf UInt64) : Prop :=
  MidpBounded leaf.midp_err leaf.slots.length

/-- The error at the middle is bounded in all inner nodes. -/
def InnerBounded : (level : Nat) → Node UInt64 level → Prop
  | 0, _ => True
  | level + 1, inner =>
      MidpBounded inner.midp_err inner.slotkey.length ∧
        ∀ c ∈ inner.childid, InnerBounded level c

/-- What a node satisfies while the computations are defined. -/
structure Steady (st : Store UInt64) (level : Nat) (n : Node UInt64 level) : Prop where
  inner : InnerBounded level n
  leaves : ∀ id ∈ leafIds level n, (st.leaf id).Bounded
  wide : level = 0 ∨ ∀ id ∈ leafIds level n, Wide (st.leaf id)

def Tree.Steady (tree : Tree UInt64) : Prop :=
  ∀ level n, tree.root = some ⟨level, n⟩ → MABTree.Steady tree.store level n

theorem Steady.child {st : Store UInt64} {level : Nat} {inner : Inner UInt64 (Node UInt64 level)}
    (h : Steady st (level + 1) inner) {c : Node UInt64 level} (hc : c ∈ inner.childid) :
    Steady st level c := by
  have hsub : ∀ id ∈ leafIds level c, id ∈ leafIds (level + 1) inner :=
    fun id hid => mem_flatMap.2 ⟨c, hc, hid⟩
  refine ⟨h.inner.2 c hc, fun id hid => h.leaves id (hsub id hid), .inr fun id hid => ?_⟩
  exact h.wide.resolve_left (Nat.succ_ne_zero level) id (hsub id hid)

/-! ## Separators -/

section Separators

variable {t : Traits} {st : Store UInt64} {level : Nat}

/-- A node over wide leaves holds a key below its largest one. -/
theorem exists_lt_maxKey {c : Node UInt64 level} {k : UInt64} (hwf : WF t st level c)
    (hsorted : Ascends KeyValue.key (contents st level c))
    (hwide : ∀ id ∈ leafIds level c, Wide (st.leaf id)) (hmax : maxKey st level c = some k) :
    ∃ x ∈ contents st level c, x.key < k := by
  obtain ⟨y, hy⟩ := exists_mem_of_ne_nil _ hwf.contents_ne_nil
  obtain ⟨id, hid, -⟩ := mem_flatMap.1 hy
  obtain ⟨kv, hkv, kv', hkv', hlt⟩ := hwide id hid
  have hmem : ∀ x ∈ (st.leaf id).slots, x ∈ contents st level c :=
    fun x hx => mem_flatMap.2 ⟨id, hid, hx⟩
  exact ⟨kv, hmem kv hkv, hlt.trans_le (le_of_maxKey hmax hsorted (hmem kv' hkv'))⟩

theorem separators_increase : ∀ {kids : List (Node UInt64 level)} {keys : List UInt64},
    Separated st level keys kids → (∀ c ∈ kids, WF t st level c) →
      Ascends KeyValue.key (kids.flatMap (contents st level)) →
        (∀ c ∈ kids, ∀ id ∈ leafIds level c, Wide (st.leaf id)) → keys.Pairwise (· < ·)
  | [], keys, h, _, _, _ => by
      rw [map_eq_nil_iff.1 h]
      exact Pairwise.nil
  | [c], keys, h, _, _, _ => by
      rw [map_eq_nil_iff.1 h]
      exact Pairwise.nil
  | c :: d :: kids, keys, h, hwf, hsorted, hwide => by
      obtain ⟨k, keys, rfl, hmax, hrest⟩ := separated_cons h
      obtain ⟨x, hx, rfl⟩ := Option.map_eq_some_iff.1 hmax
      rw [flatMap_cons] at hsorted
      obtain ⟨-, htail, hacross⟩ := pairwise_append.1 hsorted
      refine pairwise_cons.2 ⟨fun k' hk' => ?_, separators_increase hrest
        (fun c hc => hwf c (mem_cons_of_mem _ hc)) htail
        fun c hc => hwide c (mem_cons_of_mem _ hc)⟩
      -- The child in front of the later separator holds a smaller key behind the first one.
      have hmem : some k' ∈ keys.map some := mem_map_of_mem hk'
      rw [show keys.map some = _ from hrest] at hmem
      obtain ⟨c', hc', hmax'⟩ := mem_map.1 hmem
      have hc'' := dropLast_subset _ hc'
      obtain ⟨before, after, hsplit⟩ := append_of_mem hc''
      have hsorted' : Ascends KeyValue.key (contents st level c') := by
        rw [hsplit, flatMap_append, flatMap_cons] at htail
        exact (pairwise_append.1 (pairwise_append.1 htail).2.1).1
      obtain ⟨y, hy, hlt⟩ := exists_lt_maxKey (hwf c' (mem_cons_of_mem _ hc'')) hsorted'
        (hwide c' (mem_cons_of_mem _ hc'')) hmax'
      exact (hacross x (mem_of_getLast? hx) y (mem_flatMap.2 ⟨c', hc'', hy⟩)).trans_lt hlt

theorem Steady.increasing {inner : Inner UInt64 (Node UInt64 level)}
    (h : Steady st (level + 1) inner) (hwf : WF t st (level + 1) inner)
    (hsorted : Ascends KeyValue.key (contents st (level + 1) inner)) :
    inner.slotkey.Pairwise (· < ·) := by
  rw [contents_inner] at hsorted
  have hwide := h.wide.resolve_left (Nat.succ_ne_zero level)
  exact separators_increase hwf.2.2.1 hwf.2.2.2 hsorted
    fun c hc id hid => hwide id (mem_flatMap.2 ⟨c, hc, hid⟩)

/-- The key in front of a selected child is smaller than the key that selects it. -/
theorem child_lo_lt {slotkey : List UInt64} {key lo : UInt64}
    (h : child_lo slotkey (slotkey.findIdx fun k => decide (key ≤ k)) = some lo) : lo < key := by
  rw [child_lo, Option.ite_none_right_eq_some] at h
  obtain ⟨hpos, hlo⟩ := h
  obtain ⟨hlt, rfl⟩ := List.getElem?_eq_some_iff.1 hlo
  have hbefore := not_of_lt_findIdx (Nat.sub_lt hpos Nat.one_pos)
  simpa using hbefore

theorem le_child_hi {slotkey : List UInt64} {key hi : UInt64}
    (h : child_hi slotkey (slotkey.findIdx fun k => decide (key ≤ k)) = some hi) : key ≤ hi := by
  rw [child_hi, Option.ite_none_right_eq_some] at h
  obtain ⟨hlt, hhi⟩ := h
  obtain ⟨hlt', rfl⟩ := List.getElem?_eq_some_iff.1 hhi
  simpa using findIdx_getElem (w := hlt)

end Separators

/-! ## The way of a key -/

section Descent

variable {p : Params UInt64} {st : Store UInt64}

/-- The child that is selected, where the model of the search and the way of the key agree. -/
theorem exists_selected {level : Nat} {inner : Inner UInt64 (Node UInt64 level)}
    (hready : Ready p.traits st (level + 1) inner) (key : UInt64)
    (lo_key hi_key : Option UInt64) :
    ∃ child ∈ inner.childid,
      inner.childid[inner.slotkey.findIdx fun k => decide (key ≤ k)]? = some child ∧
        find_lower_inner p inner key lo_key hi_key =
          inner.slotkey.findIdx fun k => decide (key ≤ k) := by
  obtain ⟨before, child, after, haround, hslot⟩ :=
    exists_child p hready.wf hready.sorted key lo_key hi_key
  have hsorted := hready.sorted
  rw [contents_inner] at hsorted
  have hfind := find_lower_inner_eq p (hready.wf.2.2.1.sorted hsorted) key lo_key hi_key
  refine ⟨child, haround.eq ▸ mem_append_right _ mem_cons_self, ?_, hfind⟩
  rw [← hfind, hslot, haround.eq, getElem?_append_right le_rfl, Nat.sub_self]
  rfl

theorem length_slotkey (leaf : Leaf UInt64) : leaf.slotkey.length = leaf.slots.length :=
  length_map _

theorem descend_calls_safe_iff (hexact : Exact p.arithmetic) (hshort : p.traits.Short)
    (key : UInt64) : ∀ {level : Nat} {n : Node UInt64 level} {lo_key hi_key : Option UInt64},
      Ready p.traits st level n → Steady st level n → (∀ lo, lo_key = some lo → lo < key) →
        (∀ hi, hi_key = some hi → key ≤ hi) →
          ((∀ c ∈ descend_calls p st key level n lo_key hi_key, c.Safe) ↔
            ∀ v ∈ visits st key level n lo_key hi_key, v.lo_key = none ∨ v.hi_key = none →
              WithinReach p.traits v.slotkey v.midp_err key)
  | 0, id, lo_key, hi_key, hready, hsteady, hlo, hhi => by
      rw [descend_calls, visits, forall_mem_singleton]
      have hlength := length_slotkey (st.leaf id)
      have hbounded := hsteady.leaves id mem_cons_self
      rw [Leaf.Bounded, ← hlength] at hbounded
      refine predict_calls_safe_iff hexact ?_ hbounded hlo hhi
      exact hlength ▸ lt_of_le_of_lt hready.wf.2 hshort.1
  | level + 1, inner, lo_key, hi_key, hready, hsteady, hlo, hhi => by
      obtain ⟨child, hchild, hget, hfind⟩ := exists_selected hready key lo_key hi_key
      rw [descend_calls, visits]
      simp only [hfind, hget]
      rw [forall_mem_append, forall_mem_cons]
      refine and_congr (predict_calls_safe_iff hexact ?_ hsteady.inner.1 hlo hhi) ?_
      · exact lt_of_le_of_lt hready.wf.2.1 hshort.2
      · exact descend_calls_safe_iff hexact hshort key (hready.child hchild) (hsteady.child hchild)
          (fun lo => child_lo_lt) fun hi => le_child_hi

/-! ## Splits -/

theorem split_leaf_calls_safe_iff {slotkey : List UInt64} (hsorted : slotkey.Pairwise (· ≤ ·))
    (hlength : slotkey.length < 2 ^ 16) :
    (∀ c ∈ split_leaf_calls slotkey, c.Safe) ↔
      EndsDiffer (slotkey.take (slotkey.length / 2)) ∧
        EndsDiffer (slotkey.drop (slotkey.length / 2)) := by
  rw [split_leaf_calls, forall_mem_append]
  refine and_congr (midp_calls_safe_iff (hsorted.sublist (take_sublist _ _)) ?_)
    (midp_calls_safe_iff (hsorted.sublist (drop_sublist _ _)) ?_)
  · rw [length_take]
    omega
  · rw [length_drop]
    omega

theorem increasing_le {slotkey : List UInt64} (h : slotkey.Pairwise (· < ·)) :
    slotkey.Pairwise (· ≤ ·) :=
  h.imp fun hlt => le_of_lt hlt

theorem split_inner_calls_safe {slotkey : List UInt64} (hincreasing : slotkey.Pairwise (· < ·))
    (hlength : slotkey.length < 2 ^ 16) (addslot : Nat) :
    ∀ c ∈ split_inner_calls slotkey addslot, c.Safe := by
  have hpart : ∀ keys, keys <+ slotkey → ∀ c ∈ midp_calls keys, c.Safe := fun keys hsub =>
    (midp_calls_safe_iff (increasing_le (hincreasing.sublist hsub))
      (lt_of_le_of_lt hsub.length_le hlength)).2 (.of_increasing (hincreasing.sublist hsub))
  rw [split_inner_calls, forall_mem_append]
  exact ⟨hpart _ (take_sublist _ _), hpart _ (drop_sublist _ _)⟩

theorem visits_ne_nil (st : Store UInt64) (key : UInt64) {level : Nat} (n : Node UInt64 level)
    (lo_key hi_key : Option UInt64) : visits st key level n lo_key hi_key ≠ [] := by
  cases level <;> exact cons_ne_nil _ _

theorem insert_descend_calls_safe_iff (hexact : Exact p.arithmetic) (hshort : p.traits.Short)
    (kv : KeyValue UInt64) :
    ∀ {level : Nat} {n : Node UInt64 level} {lo_key hi_key : Option UInt64},
      Ready p.traits st level n → Steady st level n → (∀ lo, lo_key = some lo → lo < kv.key) →
        (∀ hi, hi_key = some hi → kv.key ≤ hi) →
          ((∀ c ∈ insert_descend_calls p kv level n lo_key hi_key st, c.Safe) ↔
            (∀ v ∈ visits st kv.key level n lo_key hi_key, v.lo_key = none ∨ v.hi_key = none →
              WithinReach p.traits v.slotkey v.midp_err kv.key) ∧
            ∀ v, (visits st kv.key level n lo_key hi_key).getLast? = some v →
              HalvesDiffer p.traits v.slotkey)
  | 0, id, lo_key, hi_key, hready, hsteady, hlo, hhi => by
      have hlength := length_slotkey (st.leaf id)
      have hmax := hready.wf.2
      have hsorted := hready.sorted
      rw [contents, leafIds, Store.items, flatMap_singleton] at hsorted
      rw [insert_descend_calls, forall_mem_append]
      refine and_congr (descend_calls_safe_iff hexact hshort kv.key hready hsteady hlo hhi) ?_
      rw [visits, getLast?_singleton]
      simp only [Option.some.injEq, forall_eq', HalvesDiffer, hlength]
      split
      · rename_i hfull
        rw [← hlength, imp_iff_right (hlength.trans hfull)]
        exact split_leaf_calls_safe_iff (pairwise_map.2 hsorted)
          (hlength ▸ lt_of_le_of_lt hmax hshort.1)
      · rename_i hroom
        exact iff_of_true (fun c hc => absurd hc not_mem_nil) fun h => absurd h hroom
  | level + 1, inner, lo_key, hi_key, hready, hsteady, hlo, hhi => by
      obtain ⟨child, hchild, hget, hfind⟩ := exists_selected hready kv.key lo_key hi_key
      have hlength : inner.slotkey.length < 2 ^ 16 := lt_of_le_of_lt hready.wf.2.1 hshort.2
      have hsplit := split_inner_calls_safe (hsteady.increasing hready.wf hready.sorted) hlength
        (inner.slotkey.findIdx fun k => decide (kv.key ≤ k))
      rw [insert_descend_calls, visits]
      simp only [hfind, hget]
      rw [forall_mem_append, forall_mem_append, forall_mem_cons, and_assoc,
        getLast?_cons_of_ne_nil (visits_ne_nil _ _ _ _ _)]
      refine and_congr (predict_calls_safe_iff hexact hlength hsteady.inner.1 hlo hhi) ?_
      -- A split of this node is safe, so only the way down is left.
      rw [insert_descend_calls_safe_iff hexact hshort kv (hready.child hchild)
        (hsteady.child hchild) (fun lo => child_lo_lt) fun hi => le_child_hi, and_iff_left]
      intro c hc
      split at hc
      · split at hc
        · exact hsplit c hc
        · exact absurd hc not_mem_nil
      · exact absurd hc not_mem_nil

end Descent

end MABTree
end TLI
