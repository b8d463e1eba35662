import TLI.Competitors.MABTree.Growth
import TLI.Library.Traverse

/-!
# Levels — bulk loading computes nothing undefined behind its leaves

The only condition is on the leaves: no leaf gets two or more equal keys alone.  A chain of several
leaves gives each one two items at least, hence different keys, and then the keys of every level of
inner nodes increase (`SteadyLayer`).
-/

namespace TLI
namespace MABTree

open List LowerBound

/-! ## Parts -/

section Parts

variable {α : Type}

theorem le_length_of_mem_parts {min : Nat} : ∀ {k : Nat} {xs : List α}, min * k ≤ xs.length →
    ∀ part ∈ parts k xs, min ≤ part.length
  | 0, _, _, part, hpart => absurd hpart not_mem_nil
  | k + 1, xs, h, part, hpart => by
      have hmin : min ≤ xs.length / (k + 1) := (Nat.le_div_iff_mul_le k.succ_pos).2 h
      have hlow := Nat.div_mul_le_self xs.length (k + 1)
      have hrest : min * k ≤ xs.length / (k + 1) * k := Nat.mul_le_mul_right k hmin
      rw [Nat.mul_succ] at hlow
      rw [parts] at hpart
      rcases mem_cons.1 hpart with rfl | hpart
      · rw [length_take]
        omega
      · exact le_length_of_mem_parts (by rw [length_drop]; omega) part hpart

/-- Where there are several parts, each one has several items. -/
theorem two_le_length_of_mem_parts {max : Nat} {xs : List α} (hmax : 8 ≤ max)
    (hparts : 2 ≤ num_parts xs.length max) :
    ∀ part ∈ parts (num_parts xs.length max) xs, 2 ≤ part.length := by
  refine le_length_of_mem_parts ?_
  have hlow := Nat.div_mul_le_self (xs.length + max - 1) max
  rw [← num_parts] at hlow
  obtain ⟨k, hk⟩ := Nat.exists_eq_add_of_le hparts
  rw [hk, Nat.add_mul] at hlow
  have hrest : k * 8 ≤ k * max := Nat.mul_le_mul_left k hmax
  omega

theorem sublist_of_mem_parts {max : Nat} (hmax : 0 < max) {xs part : List α}
    (hpart : part ∈ parts (num_parts xs.length max) xs) : part <+ xs := by
  have hsub := sublist_flatten_of_mem hpart
  rwa [(parts_num_parts hmax xs).1] at hsub

end Parts

/-! ## Levels of inner nodes -/

section Layers

variable {p : Params UInt64} {t : Traits} {st : Store UInt64} {level : Nat}
  {nodes : List (Node UInt64 level × UInt64)}

/-- A level of nodes over leaves with different keys. -/
structure SteadyLayer (t : Traits) (st : Store UInt64) (level : Nat)
    (nodes : List (Node UInt64 level × UInt64)) : Prop where
  layer : Layer t st level nodes
  sorted : Ascends KeyValue.key (st.items (layerIds level nodes))
  inner : ∀ node ∈ nodes, InnerBounded level node.1
  leaves : ∀ id ∈ layerIds level nodes, (st.leaf id).Bounded ∧ Wide (st.leaf id)

namespace SteadyLayer

theorem sublist (h : SteadyLayer t st level nodes) {part : List (Node UInt64 level × UInt64)}
    (hsub : part <+ nodes) : SteadyLayer t st level part := by
  have hids : layerIds level part <+ layerIds level nodes := hsub.flatMap _
  exact ⟨fun node hnode => h.layer node (hsub.subset hnode), h.sorted.sublist (hids.flatMap _),
    fun node hnode => h.inner node (hsub.subset hnode), fun id hid => h.leaves id (hids.subset hid)⟩

theorem steady (h : SteadyLayer t st level nodes) {node : Node UInt64 level × UInt64}
    (hnode : node ∈ nodes) : Steady st level node.1 := by
  have hids : ∀ id ∈ leafIds level node.1, id ∈ layerIds level nodes := fun id hid =>
    mem_flatMap.2 ⟨node, hnode, hid⟩
  exact ⟨h.inner node hnode, fun id hid => (h.leaves id (hids id hid)).1,
    .inr fun id hid => (h.leaves id (hids id hid)).2⟩

/-- The keys of an inner node over the nodes of the level. -/
theorem increasing (h : SteadyLayer t st level nodes) :
    (nodes.dropLast.map Prod.snd).Pairwise (· < ·) := by
  have hsorted := h.sorted
  rw [layerIds, ← flatMap_map, items_flatMap_leafIds] at hsorted
  have hwf : ∀ c ∈ nodes.map Prod.fst, WF t st level c := by
    intro c hc
    obtain ⟨node, hnode, rfl⟩ := mem_map.1 hc
    exact (h.layer node hnode).1
  refine separators_increase ?_ hwf hsorted fun c hc id hid => ?_
  · rw [Separated, ← map_dropLast, map_map, map_map]
    exact map_congr_left fun node hnode => (h.layer node (dropLast_subset _ hnode)).2.symm
  · obtain ⟨node, hnode, rfl⟩ := mem_map.1 hc
    exact (h.leaves id (mem_flatMap.2 ⟨node, hnode, hid⟩)).2

theorem make_inner (h : SteadyLayer p.traits st level nodes) (hexact : Exact p.arithmetic)
    (hlength : nodes.length ≤ 2 ^ 16) {node : Node UInt64 (level + 1) × UInt64}
    (hmake : make_inner p nodes = some node) : InnerBounded (level + 1) node.1 := by
  rw [MABTree.make_inner] at hmake
  simp only [Option.bind_eq_bind, Option.bind_eq_some_iff, Option.pure_def,
    Option.some.injEq] at hmake
  obtain ⟨last, hlast, rfl⟩ := hmake
  have hpos : 0 < nodes.length := length_pos_of_mem (mem_of_getLast? hlast)
  refine ⟨compute_midp_err_bounded hexact (increasing_le h.increasing) ?_
    (.of_increasing h.increasing), fun c hc => ?_⟩
  · rw [length_map, length_dropLast]
    omega
  · obtain ⟨node, hnode, rfl⟩ := mem_map.1 hc
    exact h.inner node hnode

theorem build_level (h : SteadyLayer p.traits st level nodes) (hexact : Exact p.arithmetic)
    (hshort : p.traits.Short) :
    (∀ c ∈ build_level_calls p nodes, c.Safe) ∧
      ∃ parents, MABTree.build_level p nodes = some parents ∧
        parents.length = num_parts nodes.length (p.traits.innerslotmax + 1) ∧
          SteadyLayer p.traits st (level + 1) parents := by
  have hmax : 0 < p.traits.innerslotmax + 1 := Nat.succ_pos _
  have hmax' := hshort.2
  have hpart : ∀ part ∈ parts (num_parts nodes.length (p.traits.innerslotmax + 1)) nodes,
      SteadyLayer p.traits st level part ∧ part.length ≤ p.traits.innerslotmax + 1 :=
    fun part hmem => ⟨h.sublist (sublist_of_mem_parts hmax hmem),
      ((parts_num_parts hmax nodes).2 part hmem).2⟩
  obtain ⟨parents, hparents, hcount, hlayer, hids⟩ := build_level_spec p h.layer
  refine ⟨?_, parents, hparents, hcount, hlayer, hids ▸ h.sorted, fun node hnode => ?_,
    hids ▸ h.leaves⟩
  · rw [build_level_calls]
    intro c hc
    obtain ⟨part, hmem, hc⟩ := mem_flatMap.1 hc
    obtain ⟨hsteady, hlength⟩ := hpart part hmem
    refine (midp_calls_safe_iff (increasing_le hsteady.increasing) ?_).2
      (.of_increasing hsteady.increasing) c hc
    rw [length_map, length_dropLast]
    omega
  · obtain ⟨part, hmem, hmake⟩ := exists_of_mem_mapM hparents hnode
    obtain ⟨hsteady, hlength⟩ := hpart part hmem
    exact hsteady.make_inner hexact (by omega) hmake

theorem build_levels (hexact : Exact p.arithmetic) (hshort : p.traits.Short) :
    ∀ (fuel : Nat) {level : Nat} {nodes : List (Node UInt64 level × UInt64)},
      SteadyLayer p.traits st level nodes → nodes ≠ [] →
        (∀ c ∈ build_levels_calls p fuel level nodes, c.Safe) ∧
          ∀ top n, MABTree.build_levels p fuel level nodes = some ⟨top, n⟩ → Steady st top n
  | _, _, [], _, hne => absurd rfl hne
  | fuel, level, [node], h, _ => by
      have hcalls : build_levels_calls p fuel level [node] = [] := by
        cases fuel <;> rfl
      rw [hcalls, build_levels_one]
      refine ⟨fun c hc => absurd hc not_mem_nil, fun top n heq => ?_⟩
      cases heq
      exact h.steady mem_cons_self
  | 0, _, _ :: _ :: _, _, _ =>
      ⟨fun c hc => absurd hc not_mem_nil, fun top n heq => absurd heq (Option.some_ne_none _).symm⟩
  | fuel + 1, level, a :: b :: nodes, h, _ => by
      obtain ⟨hcalls, parents, hparents, hcount, hparents_steady⟩ := h.build_level hexact hshort
      have hpos := (num_parts_lt (Nat.le_add_left 2 nodes.length) (two_le_children p.traits)).1
      obtain ⟨habove, hroot⟩ := build_levels hexact hshort fuel hparents_steady
        (length_pos_iff.1 (hcount ▸ hpos))
      simp only [build_levels_calls, MABTree.build_levels, hparents, Option.bind_eq_bind,
        Option.bind_some, forall_mem_append]
      exact ⟨⟨hcalls, habove⟩, hroot⟩

end SteadyLayer

end Layers

/-! ## The whole load -/

section Load

variable {p : Params UInt64} {st : Store UInt64}

/-- The error at the middle of each leaf is the one of its keys. -/
def Computed (p : Params UInt64) (st : Store UInt64) : Prop :=
  ∀ x, (st.leaf x).midp_err = compute_midp_err p (st.leaf x).slotkey

theorem leaf_link_last (st : Store UInt64) (id x : LeafId) :
    ((st.link_last id).leaf x).midp_err = (st.leaf x).midp_err ∧
      ((st.link_last id).leaf x).slots = (st.leaf x).slots := by
  rw [Store.link_last]
  split
  · rename_i tail _
    by_cases hx : x = tail
    · subst hx
      have hself := Store.leaf_set_self st x { st.leaf x with nextleaf := some id }
      exact ⟨(congrArg Leaf.midp_err hself :), (congrArg Leaf.slots hself :)⟩
    · exact ⟨congrArg Leaf.midp_err (Store.leaf_set_of_ne st hx _),
        congrArg Leaf.slots (Store.leaf_set_of_ne st hx _)⟩
  · exact ⟨rfl, rfl⟩

theorem Computed.append_leaf (h : Computed p st) (items : List (KeyValue UInt64)) :
    Computed p (append_leaf p st items) := by
  intro x
  rw [MABTree.append_leaf]
  obtain ⟨hmidp, hslots⟩ := leaf_link_last (st.allocate_leaf.2.set st.next
    ⟨compute_midp_err p (items.map KeyValue.key), items, st.tailleaf, none⟩) st.next x
  refine hmidp.trans ?_
  rw [Leaf.slotkey]
  refine Eq.trans ?_ (congrArg (fun slots => compute_midp_err p (slots.map KeyValue.key)) hslots.symm)
  by_cases hx : x = st.next
  · subst hx
    rw [Store.leaf_set_self]
  · rw [Store.leaf_set_of_ne _ hx, leaf_allocate_leaf_of_ne st hx]
    exact h x

theorem computed_foldl (p : Params UInt64) (ps : List (List (KeyValue UInt64))) :
    Computed p (ps.foldl (append_leaf p) Tree.empty.store) := by
  have hfold : ∀ (ps : List (List (KeyValue UInt64))) (st : Store UInt64), Computed p st →
      Computed p (ps.foldl (append_leaf p) st) := by
    intro ps
    induction ps with
    | nil => exact fun st h => h
    | cons items ps ih => exact fun st h => ih _ (h.append_leaf items)
  exact hfold ps _ fun x => rfl

variable {data : List (KeyValue UInt64)}

theorem part_sorted (t : Traits) (hsorted : Ascends KeyValue.key data)
    {items : List (KeyValue UInt64)}
    (hitems : items ∈ parts (num_parts data.length t.leafslotmax) data) :
    Ascends KeyValue.key items ∧ items.length ≤ t.leafslotmax := by
  have hmax : 0 < t.leafslotmax := Nat.lt_of_lt_of_le (by decide) t.leafslotmax_ge
  exact ⟨hsorted.sublist (sublist_of_mem_parts hmax hitems),
    ((parts_num_parts hmax data).2 items hitems).2⟩

theorem leaf_calls_safe_iff {t : Traits} (hshort : t.Short) (hsorted : Ascends KeyValue.key data) :
    (∀ c ∈ (parts (num_parts data.length t.leafslotmax) data).flatMap fun items =>
      midp_calls (items.map KeyValue.key), c.Safe) ↔ PartsDiffer t data := by
  rw [forall_mem_flatMap, PartsDiffer]
  refine forall₂_congr fun items hitems => ?_
  obtain ⟨hascends, hlength⟩ := part_sorted t hsorted hitems
  exact midp_calls_safe_iff (pairwise_map.2 hascends)
    (by rw [length_map]; exact lt_of_le_of_lt hlength hshort.1)

/-- The leaves of the chain are a level to build inner nodes over. -/
theorem Chain.steadyLayer {t : Traits} {ids : List LeafId} (hchain : Chain st ids)
    (hwf : ∀ id ∈ ids, WF t st 0 id) (hsorted : Ascends KeyValue.key (st.items ids))
    (hleaves : ∀ id ∈ ids, (st.leaf id).Bounded ∧ Wide (st.leaf id)) :
    ∃ leaves, read_chain st ids.length ids.head? = some leaves ∧ leaves.length = ids.length ∧
      SteadyLayer t st 0 leaves := by
  obtain ⟨leaves, hread, hlayer, hids, hcount⟩ :=
    read_chain_spec hchain ids (nil_append ids).symm hwf
  exact ⟨leaves, hread, hcount, hlayer, hids ▸ hsorted, fun _ _ => trivial, hids ▸ hleaves⟩

theorem bulk_load_defined (hexact : Exact p.arithmetic) (hshort : p.traits.Short)
    (hsorted : Ascends KeyValue.key data) (hdiffer : PartsDiffer p.traits data) :
    (∀ c ∈ bulk_load_calls p data, c.Safe) ∧
      ∀ tree, bulk_load p data = some tree → tree.Steady := by
  have hleaf_calls := (leaf_calls_safe_iff hshort hsorted).2 hdiffer
  have hlength := length_parts (num_parts data.length p.traits.leafslotmax) data
  obtain ⟨hflatten, hparts⟩ := parts_num_parts
    (Nat.lt_of_lt_of_le (by decide) p.traits.leafslotmax_ge) data
  obtain ⟨ids, hchain, hslots, -⟩ := foldl_append_leaf p
    (parts (num_parts data.length p.traits.leafslotmax) data) chain_empty
  have hcomputed := computed_foldl p (parts (num_parts data.length p.traits.leafslotmax) data)
  rw [nil_append] at hchain
  rw [bulk_load_calls, bulk_load]
  generalize (parts (num_parts data.length p.traits.leafslotmax) data).foldl (append_leaf p)
    Tree.empty.store = st at hchain hslots hcomputed ⊢
  have hitems : st.items ids = data := by
    rw [Store.items, flatMap_def, hslots, hflatten]
  have hpart : ∀ id ∈ ids, (st.leaf id).slots ∈
      parts (num_parts data.length p.traits.leafslotmax) data := fun id hid =>
    hslots ▸ mem_map_of_mem hid
  have hbounded : ∀ id ∈ ids, (st.leaf id).Bounded := by
    intro id hid
    obtain ⟨hascends, hle⟩ := part_sorted p.traits hsorted (hpart id hid)
    exact bounded_of_ends hexact (hcomputed id) hascends (lt_of_le_of_lt hle hshort.1)
      (hdiffer _ (hpart id hid))
  rw [← hslots, length_map] at hlength
  have hhead := hchain.head
  have htail := hchain.tail
  rw [forall_mem_append, and_assoc]
  refine ⟨hleaf_calls, ?_⟩
  -- No leaf, one leaf as the root, or a chain that inner nodes are built over.
  rcases ids with _ | ⟨id, _ | ⟨id', rest⟩⟩
  · simp only [hhead, head?_nil]
    refine ⟨fun c hc => absurd hc not_mem_nil, fun tree heq level n hroot => ?_⟩
    cases heq
    cases hroot
  · simp only [hhead, head?_cons, htail, getLast?_singleton, if_true]
    refine ⟨fun c hc => absurd hc not_mem_nil, fun tree heq level n hroot => ?_⟩
    cases heq
    cases hroot
    exact ⟨trivial, hbounded, .inl rfl⟩
  · have hne := hchain.tail_ne
    have htwo : 2 ≤ num_parts data.length p.traits.leafslotmax :=
      hlength ▸ Nat.le_add_left 2 rest.length
    have hwide : ∀ x ∈ id :: id' :: rest, Wide (st.leaf x) := fun x hx =>
      wide_of_ends (part_sorted p.traits hsorted (hpart x hx)).1
        (two_le_length_of_mem_parts p.traits.leafslotmax_ge htwo _ (hpart x hx))
        (hdiffer _ (hpart x hx))
    obtain ⟨leaves, hleaves, hcount, hlayer⟩ := hchain.steadyLayer (t := p.traits)
      (fun x hx => hparts _ (hpart x hx)) (hitems ▸ hsorted)
      fun x hx => ⟨hbounded x hx, hwide x hx⟩
    obtain ⟨hcalls, nodes, hnodes, hnodes_length, hnodes_steady⟩ := hlayer.build_level hexact hshort
    have hpos := (num_parts_lt (hcount ▸ Nat.le_add_left 2 rest.length : 2 ≤ leaves.length)
      (two_le_children p.traits)).1
    obtain ⟨habove, hroot⟩ := SteadyLayer.build_levels hexact hshort
      (num_parts data.length p.traits.leafslotmax) hnodes_steady
      (length_pos_iff.1 (hnodes_length ▸ hpos))
    rw [hlength] at hleaves
    simp only [hhead, head?_cons] at hleaves ⊢
    rw [if_neg hne, if_neg hne]
    simp only [hleaves, hnodes, Option.bind_eq_bind, Option.bind_some, forall_mem_append]
    refine ⟨⟨hcalls, habove⟩, fun tree heq level n hroot' => ?_⟩
    obtain ⟨⟨top, m⟩, hlevels, heq⟩ := Option.bind_eq_some_iff.1 heq
    cases heq
    cases hroot'
    exact hroot level n hlevels

/-- Bulk loading computes nothing undefined exactly if no leaf gets equal keys alone. -/
theorem bulk_load_calls_safe_iff (hexact : Exact p.arithmetic) (hshort : p.traits.Short)
    (hsorted : Ascends KeyValue.key data) :
    (∀ c ∈ bulk_load_calls p data, c.Safe) ↔ PartsDiffer p.traits data := by
  refine ⟨fun h => ?_, fun h => (bulk_load_defined hexact hshort hsorted h).1⟩
  rw [bulk_load_calls, forall_mem_append] at h
  exact (leaf_calls_safe_iff hshort hsorted).1 h.1

end Load

end MABTree
end TLI
