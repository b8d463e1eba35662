import TLI.Competitors.MABTree.Leaf

/-!
# BulkLoad — a tree over a sorted sequence, level by level

The items are cut into parts of nearly the same size, one for each leaf, and so are the nodes of
each level.  No part is empty and none is too large; every level has fewer nodes than the one below,
until there is a single root.
-/

namespace TLI
namespace MABTree

open List LowerBound

/-! ## Parts of a sequence -/

section Parts

variable {α : Type}

theorem length_parts : ∀ (k : Nat) (xs : List α), (parts k xs).length = k
  | 0, _ => rfl
  | k + 1, xs => by rw [parts, length_cons, length_parts k]

/-- The next part of `k + 1` is neither empty nor too large, and so are the others. -/
theorem part_bounds {len k max : Nat} (hle : k + 1 ≤ len) (hmax : len ≤ (k + 1) * max) :
    (0 < len / (k + 1) ∧ len / (k + 1) ≤ max) ∧
      k ≤ len - len / (k + 1) ∧ len - len / (k + 1) ≤ k * max := by
  have hpos : 0 < len / (k + 1) := Nat.div_pos hle (Nat.succ_pos k)
  have hpart : len / (k + 1) ≤ max := Nat.div_le_of_le_mul hmax
  have hlow : len / (k + 1) * (k + 1) ≤ len := Nat.div_mul_le_self len (k + 1)
  have hhigh : len < (k + 1) * (len / (k + 1) + 1) := Nat.lt_mul_div_succ len (Nat.succ_pos k)
  generalize len / (k + 1) = part at hpos hpart hlow hhigh ⊢
  rw [Nat.mul_succ] at hlow
  rw [Nat.succ_mul] at hmax hhigh
  refine ⟨⟨hpos, hpart⟩, ?_, ?_⟩
  · have hrest : k ≤ part * k := Nat.le_mul_of_pos_left k hpos
    omega
  · rcases Nat.eq_or_lt_of_le hpart with rfl | hlt
    · omega
    · have hrest : k * (part + 1) ≤ k * max := Nat.mul_le_mul_left k hlt
      omega

theorem parts_spec {max : Nat} : ∀ {k : Nat} {xs : List α}, k ≤ xs.length →
    xs.length ≤ k * max → (parts k xs).flatten = xs ∧
      ∀ part, part ∈ parts k xs → part ≠ [] ∧ part.length ≤ max
  | 0, xs, _, hmax => by
      rw [Nat.zero_mul, Nat.le_zero, length_eq_zero_iff] at hmax
      subst hmax
      exact ⟨rfl, fun part hpart => (not_mem_nil hpart).elim⟩
  | k + 1, xs, hle, hmax => by
      obtain ⟨⟨hpos, hpart⟩, hrest, hrest_max⟩ := part_bounds hle hmax
      rw [← length_drop] at hrest hrest_max
      obtain ⟨hflatten, hparts⟩ := parts_spec hrest hrest_max
      rw [parts, flatten_cons, hflatten, take_append_drop]
      refine ⟨rfl, fun part hmem => ?_⟩
      rcases mem_cons.1 hmem with rfl | hmem
      · rw [← length_pos_iff, length_take]
        have hlen := Nat.div_le_self xs.length (k + 1)
        omega
      · exact hparts part hmem

theorem num_parts_spec {items max : Nat} (hmax : 0 < max) :
    num_parts items max ≤ items ∧ items ≤ num_parts items max * max := by
  rw [num_parts]
  have hhigh := Nat.lt_mul_div_succ (items + max - 1) hmax
  have hlow := Nat.mul_div_le (items + max - 1) max
  rw [Nat.mul_succ] at hhigh
  rw [Nat.mul_comm ((items + max - 1) / max)]
  refine ⟨?_, by omega⟩
  rcases Nat.eq_zero_or_pos items with rfl | hitems
  · rw [Nat.div_eq_of_lt (by omega)]
  · obtain ⟨items, rfl⟩ := Nat.exists_eq_add_one.2 hitems
    obtain ⟨max, rfl⟩ := Nat.exists_eq_add_one.2 hmax
    refine Nat.div_le_of_le_mul ?_
    rw [Nat.succ_mul, Nat.mul_succ]
    omega

theorem parts_num_parts {max : Nat} (hmax : 0 < max) (xs : List α) :
    (parts (num_parts xs.length max) xs).flatten = xs ∧
      ∀ part, part ∈ parts (num_parts xs.length max) xs → part ≠ [] ∧ part.length ≤ max :=
  parts_spec (num_parts_spec hmax).1 (num_parts_spec hmax).2

/-- Two items or more are cut into fewer parts. -/
theorem num_parts_lt {items max : Nat} (hitems : 2 ≤ items) (hmax : 2 ≤ max) :
    0 < num_parts items max ∧ num_parts items max < items := by
  obtain ⟨items, rfl⟩ := Nat.exists_eq_add_of_le' hitems
  obtain ⟨max, rfl⟩ := Nat.exists_eq_add_of_le' hmax
  refine ⟨Nat.div_pos (by omega) (by omega), Nat.div_lt_of_lt_mul ?_⟩
  rw [Nat.add_mul, Nat.mul_add]
  omega

theorem two_le_children (t : Traits) : 2 ≤ t.innerslotmax + 1 := by
  have hmax := t.innerslotmax_ge
  omega

end Parts

/-! ## Leaves -/

section Leaves

variable {K : Type}

theorem link_last_of_none {st : Store K} (h : st.tailleaf = none) (id : LeafId) :
    st.link_last id = { st with headleaf := some id, tailleaf := some id } := by
  rw [Store.link_last, h]

theorem link_last_of_some {st : Store K} {tail : LeafId} (h : st.tailleaf = some tail)
    (id : LeafId) : st.link_last id =
      { st.set tail { st.leaf tail with nextleaf := some id } with tailleaf := some id } := by
  rw [Store.link_last, h]

/-- A new last leaf is linked like the second half of the old one. -/
theorem spliced_link_last {st : Store K} {tail : LeafId} {leaf : Leaf K} (hne : tail ≠ st.next)
    (hnext : (st.leaf tail).nextleaf = none)
    (hlinks : leaf.prevleaf = some tail ∧ leaf.nextleaf = none) :
    Spliced st { (st.allocate_leaf.2.set st.next leaf).set tail
      { (st.allocate_leaf.2.set st.next leaf).leaf tail with nextleaf := some st.next } with
        tailleaf := some st.next } tail st.next := by
  have hold : ∀ x, x ≠ st.next → (st.allocate_leaf.2.set st.next leaf).leaf x = st.leaf x := by
    intro x hx
    rw [Store.leaf_set_of_ne _ hx, leaf_allocate_leaf_of_ne st hx]
  have hother : ∀ x, x ≠ tail → x ≠ st.next → ((st.allocate_leaf.2.set st.next leaf).set tail
      { (st.allocate_leaf.2.set st.next leaf).leaf tail with nextleaf := some st.next }).leaf x =
        st.leaf x := by
    intro x hx hx'
    rw [Store.leaf_set_of_ne _ hx, hold x hx']
  refine ⟨rfl, (if_pos hnext).symm, rfl, rfl, ?_, ?_, ?_, ?_, fun x hx hx' => ?_,
    fun x hx hx' => ?_⟩
  · exact (congrArg Leaf.prevleaf (Store.leaf_set_self _ tail _)).trans
      (congrArg Leaf.prevleaf (hold tail hne) :)
  · exact congrArg Leaf.nextleaf (Store.leaf_set_self _ tail _)
  · exact (congrArg Leaf.prevleaf (Store.leaf_set_of_ne _ hne.symm _)).trans
      ((congrArg Leaf.prevleaf (Store.leaf_set_self _ st.next leaf)).trans hlinks.1)
  · exact (congrArg Leaf.nextleaf (Store.leaf_set_of_ne _ hne.symm _)).trans
      ((congrArg Leaf.nextleaf (Store.leaf_set_self _ st.next leaf)).trans
        (hlinks.2.trans hnext.symm))
  · rw [hnext, if_neg (by simp)]
    exact congrArg Leaf.prevleaf (hother x hx hx')
  · exact congrArg Leaf.nextleaf (hother x hx hx')

theorem chain_empty : Chain (Tree.empty (K := K)).store [] :=
  ⟨rfl, rfl, fun before id after heq => by simp at heq, nodup_nil, fun id hid => by cases hid⟩

variable [LinearOrder K]

theorem append_leaf_spec (p : Params K) {st : Store K} {ids : List LeafId} (h : Chain st ids)
    (items : List (KeyValue K)) :
    Chain (append_leaf p st items) (ids ++ [st.next]) ∧
      ((append_leaf p st items).leaf st.next).slots = items ∧
        ∀ x, x ≠ st.next → ((append_leaf p st items).leaf x).slots = (st.leaf x).slots := by
  have htail := h.tail
  obtain ⟨leaf, heq, hslots, hprev, hnext⟩ : ∃ leaf,
      append_leaf p st items = (st.allocate_leaf.2.set st.next leaf).link_last st.next ∧
        leaf.slots = items ∧ leaf.prevleaf = st.tailleaf ∧ leaf.nextleaf = none :=
    ⟨_, rfl, rfl, rfl, rfl⟩
  have hnew : (st.allocate_leaf.2.set st.next leaf).leaf st.next = leaf :=
    Store.leaf_set_self _ _ _
  have hold : ∀ x, x ≠ st.next → (st.allocate_leaf.2.set st.next leaf).leaf x = st.leaf x := by
    intro x hx
    rw [Store.leaf_set_of_ne _ hx, leaf_allocate_leaf_of_ne st hx]
  have hlast : (st.allocate_leaf.2.set st.next leaf).tailleaf = st.tailleaf := rfl
  rw [htail] at hprev hlast
  rw [heq]
  rcases eq_nil_or_concat' ids with rfl | ⟨before, tail, rfl⟩
  · rw [link_last_of_none hlast]
    refine ⟨chain_singleton rfl rfl ?_ (Nat.lt_succ_self _), ?_, fun x hx => ?_⟩
    · exact ⟨(congrArg Leaf.prevleaf hnew).trans hprev, (congrArg Leaf.nextleaf hnew).trans hnext⟩
    · exact (congrArg Leaf.slots hnew).trans hslots
    · exact congrArg Leaf.slots (hold x hx)
  · rw [getLast?_concat] at hprev hlast
    have hne : tail ≠ st.next :=
      Nat.ne_of_lt (h.allocated tail (mem_append_right before mem_cons_self))
    have hspliced := spliced_link_last hne (h.linked before tail [] rfl).2 ⟨hprev, hnext⟩
    have hchain := hspliced.chain h (mem_append_right before mem_cons_self)
    rw [graft_split h.nodup] at hchain
    rw [link_last_of_some hlast]
    refine ⟨by simpa using hchain, ?_, fun x hx => ?_⟩
    · exact (congrArg Leaf.slots (Store.leaf_set_of_ne _ hne.symm _)).trans
        ((congrArg Leaf.slots hnew).trans hslots)
    · by_cases hx' : x = tail
      · subst hx'
        exact (congrArg Leaf.slots (Store.leaf_set_self _ x _)).trans
          (congrArg Leaf.slots (hold x hx) :)
      · exact (congrArg Leaf.slots (Store.leaf_set_of_ne _ hx' _)).trans
          (congrArg Leaf.slots (hold x hx))

/-- The leaves of several parts. -/
theorem foldl_append_leaf (p : Params K) (ps : List (List (KeyValue K))) :
    ∀ {st : Store K} {ids : List LeafId}, Chain st ids →
      ∃ ids', Chain (ps.foldl (append_leaf p) st) (ids ++ ids') ∧
        ids'.map (fun id => ((ps.foldl (append_leaf p) st).leaf id).slots) = ps ∧
          ∀ x, x < st.next →
            ((ps.foldl (append_leaf p) st).leaf x).slots = (st.leaf x).slots := by
  induction ps with
  | nil => exact fun {st ids} h => ⟨[], by rwa [append_nil], rfl, fun x _ => rfl⟩
  | cons part ps ih =>
      intro st ids h
      obtain ⟨hchain, hslots, hold⟩ := append_leaf_spec p h part
      obtain ⟨ids', hchain', hslots', hold'⟩ := ih hchain
      have hnext : st.next < (append_leaf p st part).next :=
        hchain.allocated st.next (mem_append_right ids mem_cons_self)
      refine ⟨st.next :: ids', ?_, ?_, fun x hx => ?_⟩
      · rw [append_assoc, singleton_append] at hchain'
        exact hchain'
      · rw [foldl_cons, map_cons, hslots', hold' st.next hnext, hslots]
      · rw [foldl_cons, hold' x (hx.trans hnext), hold x (Nat.ne_of_lt hx)]

end Leaves

/-! ## Levels of inner nodes -/

section Levels

variable {K : Type} {t : Traits} {st : Store K} {level : Nat}

/-- A level of well-formed nodes with their largest keys. -/
def Layer (t : Traits) (st : Store K) (level : Nat) (nodes : List (Node K level × K)) : Prop :=
  ∀ node, node ∈ nodes → WF t st level node.1 ∧ maxKey st level node.1 = some node.2

def layerIds (level : Nat) (nodes : List (Node K level × K)) : List LeafId :=
  nodes.flatMap fun node => leafIds level node.1

variable [LinearOrder K]

theorem make_inner_spec (p : Params K) {children : List (Node K level × K)}
    (h : Layer p.traits st level children) (hne : children ≠ [])
    (hlength : children.length ≤ p.traits.innerslotmax + 1) :
    ∃ node, make_inner p children = some node ∧
      (WF p.traits st (level + 1) node.1 ∧ maxKey st (level + 1) node.1 = some node.2) ∧
        leafIds (level + 1) node.1 = layerIds level children := by
  obtain ⟨others, last, rfl⟩ := (eq_nil_or_concat' children).resolve_left hne
  rw [length_append, length_singleton, Nat.add_le_add_iff_right] at hlength
  have hlast := h last (mem_append_right others mem_cons_self)
  refine ⟨_, by simp only [make_inner, getLast?_concat, dropLast_concat]; rfl,
    ⟨⟨?_, ?_, ?_, ?_⟩, ?_⟩, ?_⟩
  · simp
  · simpa using hlength
  · change (others.map Prod.snd).map some =
      ((others ++ [last]).map Prod.fst).dropLast.map (maxKey st level)
    rw [map_append, map_singleton, dropLast_concat, map_map, map_map]
    exact map_congr_left fun node hnode => (h node (mem_append_left _ hnode)).2.symm
  · intro c hc
    obtain ⟨node, hnode, rfl⟩ := mem_map.1 hc
    exact (h node hnode).1
  · have hkids : (others ++ [last]).map Prod.fst = others.map Prod.fst ++ [last.1] := map_append
    rw [maxKey_inner hkids hlast.1, hlast.2]
  · rw [leafIds, layerIds, flatMap_map]

theorem mapM_make_inner (p : Params K) (ps : List (List (Node K level × K)))
    (h : ∀ part, part ∈ ps → Layer p.traits st level part ∧ part ≠ [] ∧
      part.length ≤ p.traits.innerslotmax + 1) :
    ∃ nodes, ps.mapM (make_inner p) = some nodes ∧ nodes.length = ps.length ∧
      Layer p.traits st (level + 1) nodes ∧
        layerIds (level + 1) nodes = layerIds level ps.flatten := by
  induction ps with
  | nil => exact ⟨[], rfl, rfl, fun node hnode => (not_mem_nil hnode).elim, rfl⟩
  | cons part ps ih =>
      obtain ⟨hlayer, hne, hlength⟩ := h part mem_cons_self
      obtain ⟨node, hnode, hspec, hids⟩ := make_inner_spec p hlayer hne hlength
      obtain ⟨nodes, hnodes, hlength', hlayer', hids'⟩ := ih fun q hq =>
        h q (mem_cons_of_mem part hq)
      refine ⟨node :: nodes, ?_, by rw [length_cons, length_cons, hlength'],
        fun x hx => ?_, ?_⟩
      · rw [mapM_cons, hnode, hnodes]
        rfl
      · rcases mem_cons.1 hx with rfl | hx
        · exact hspec
        · exact hlayer' x hx
      · rw [layerIds, flatMap_cons, hids, flatten_cons, layerIds, layerIds, flatMap_append]
        exact congrArg _ hids'

theorem build_level_spec (p : Params K) {nodes : List (Node K level × K)}
    (h : Layer p.traits st level nodes) :
    ∃ parents, build_level p nodes = some parents ∧
      parents.length = num_parts nodes.length (p.traits.innerslotmax + 1) ∧
        Layer p.traits st (level + 1) parents ∧
          layerIds (level + 1) parents = layerIds level nodes := by
  obtain ⟨hflatten, hparts⟩ := parts_num_parts (Nat.succ_pos p.traits.innerslotmax) nodes
  obtain ⟨parents, hparents, hlength, hlayer, hids⟩ := mapM_make_inner p _ fun part hpart =>
    ⟨fun node hnode => h node (hflatten ▸ mem_flatten.2 ⟨part, hpart, hnode⟩), hparts part hpart⟩
  rw [length_parts] at hlength
  rw [hflatten] at hids
  exact ⟨parents, hparents, hlength, hlayer, hids⟩

theorem build_levels_one (p : Params K) (fuel : Nat) (node : Node K level × K) :
    build_levels p fuel level [node] = some ⟨level, node.1⟩ := by
  cases fuel <;> rfl

theorem Layer.build_levels_one {p : Params K} {node : Node K level × K}
    (h : Layer p.traits st level [node]) (fuel : Nat) :
    ∃ top n, build_levels p fuel level [node] = some ⟨top, n⟩ ∧ WF p.traits st top n ∧
      leafIds top n = layerIds level [node] :=
  ⟨level, node.1, MABTree.build_levels_one p fuel node, (h node mem_cons_self).1,
    (flatMap_singleton _ _).symm⟩

/-- Every level has fewer nodes, so the levels end with a root. -/
theorem build_levels_spec (p : Params K) : ∀ {fuel level : Nat} {nodes : List (Node K level × K)},
    Layer p.traits st level nodes → nodes ≠ [] → nodes.length ≤ fuel + 1 →
      ∃ top n, build_levels p fuel level nodes = some ⟨top, n⟩ ∧ WF p.traits st top n ∧
        leafIds top n = layerIds level nodes
  | _, _, [], _, hne, _ => absurd rfl hne
  | fuel, _, [node], h, _, _ => h.build_levels_one fuel
  | 0, _, a :: b :: nodes, _, _, hlength => by
      rw [length_cons, length_cons] at hlength
      omega
  | fuel + 1, level, a :: b :: nodes, h, _, hlength => by
      obtain ⟨parents, hparents, hcount, hlayer, hids⟩ := build_level_spec p h
      have htwo : 2 ≤ (a :: b :: nodes).length := Nat.le_add_left 2 nodes.length
      obtain ⟨hpos, hlt⟩ := num_parts_lt htwo (two_le_children p.traits)
      have hfuel : parents.length ≤ fuel + 1 := by omega
      obtain ⟨top, n, hroot, hwf, hleaves⟩ :=
        build_levels_spec p hlayer (length_pos_iff.1 (by omega)) hfuel
      refine ⟨top, n, ?_, hwf, hleaves.trans hids⟩
      simp only [build_levels, hparents, Option.bind_eq_bind, Option.bind_some]
      exact hroot

end Levels

/-! ## The whole load -/

section Load

variable {K : Type}

/-- Leaves are different, so a longer chain does not end with its first one. -/
theorem Chain.tail_ne {st : Store K} {id id' : LeafId} {rest : List LeafId}
    (h : Chain st (id :: id' :: rest)) : st.tailleaf ≠ some id := by
  rw [h.tail, getLast?_cons_cons]
  intro hlast
  exact (nodup_cons.1 h.nodup).1 (mem_of_getLast? hlast)

/-- The chain, read from the first leaf on, gives each leaf with its largest key. -/
theorem read_chain_spec {t : Traits} {st : Store K} {ids : List LeafId} (hchain : Chain st ids)
    (rest : List LeafId) : ∀ {before : List LeafId}, ids = before ++ rest →
      (∀ id, id ∈ rest → WF t st 0 id) →
        ∃ leaves, read_chain st rest.length rest.head? = some leaves ∧ Layer t st 0 leaves ∧
          layerIds 0 leaves = rest ∧ leaves.length = rest.length := by
  induction rest with
  | nil => exact fun _ _ => ⟨[], rfl, fun node hnode => (not_mem_nil hnode).elim, rfl, rfl⟩
  | cons id rest ih =>
      intro before heq hwf
      obtain ⟨leaves, hleaves, hlayer, hids, hlength⟩ := ih (heq.trans (append_cons before id rest))
        fun x hx => hwf x (mem_cons_of_mem id hx)
      have hid := hwf id mem_cons_self
      obtain ⟨last, hlast⟩ := Option.isSome_iff_exists.1 (getLast?_isSome.2 hid.1)
      refine ⟨(id, last.key) :: leaves, ?_, fun node hnode => ?_, ?_, ?_⟩
      · rw [length_cons, head?_cons, read_chain, hlast, (hchain.linked before id rest heq).2,
          hleaves]
        rfl
      · rcases mem_cons.1 hnode with rfl | hnode
        · refine ⟨hid, ?_⟩
          rw [maxKey, contents, leafIds, Store.items, flatMap_singleton, hlast, Option.map_some]
        · exact hlayer node hnode
      · exact congrArg (id :: ·) hids
      · rw [length_cons, length_cons, hlength]

variable [LinearOrder K]

theorem bulk_load_spec (p : Params K) {data : List (KeyValue K)}
    (hsorted : Ascends KeyValue.key data) :
    ∃ tree, bulk_load p data = some tree ∧ Holds p.traits tree data := by
  have hmax : 0 < p.traits.leafslotmax := Nat.lt_of_lt_of_le (by decide) p.traits.leafslotmax_ge
  obtain ⟨hflatten, hparts⟩ := parts_num_parts hmax data
  have hlength := length_parts (num_parts data.length p.traits.leafslotmax) data
  obtain ⟨ids, hchain, hslots, -⟩ := foldl_append_leaf p
    (parts (num_parts data.length p.traits.leafslotmax) data) chain_empty
  rw [nil_append] at hchain
  rw [bulk_load]
  generalize (parts (num_parts data.length p.traits.leafslotmax) data).foldl (append_leaf p)
    Tree.empty.store = st at hchain hslots ⊢
  have hitems : st.items ids = data := by
    rw [Store.items, flatMap_def, hslots, hflatten]
  have hwf : ∀ id, id ∈ ids → WF p.traits st 0 id := fun id hid =>
    hparts _ (hslots ▸ mem_map_of_mem hid)
  rw [← hslots, length_map] at hlength
  have hhead := hchain.head
  have htail := hchain.tail
  -- No leaf, one leaf as the root, or a chain that inner nodes are built over.
  rcases ids with _ | ⟨id, _ | ⟨id', rest⟩⟩
  · refine ⟨⟨none, st⟩, ?_, ⟨hchain, hitems, hsorted, fun level n hroot => by cases hroot⟩⟩
    simp only [hhead, head?_nil]
    rfl
  · refine ⟨⟨some ⟨0, id⟩, st⟩, ?_, ⟨hchain, hitems, hsorted, fun level n hroot => ?_⟩⟩
    · simp only [hhead, head?_cons]
      exact if_pos htail
    · cases hroot
      exact hwf id mem_cons_self
  · have hne := hchain.tail_ne
    obtain ⟨leaves, hleaves, hlayer, hids, hcount⟩ := read_chain_spec hchain
      (id :: id' :: rest) (nil_append _).symm hwf
    obtain ⟨nodes, hnodes, hnodes_length, hnodes_layer, hnodes_ids⟩ := build_level_spec p hlayer
    have htwo : 2 ≤ leaves.length := hcount ▸ Nat.le_add_left 2 rest.length
    obtain ⟨hpos, hlt⟩ := num_parts_lt htwo (two_le_children p.traits)
    have hfuel : nodes.length ≤ (id :: id' :: rest).length + 1 := by omega
    obtain ⟨top, n, hroot, hwf_root, hleafIds⟩ :=
      build_levels_spec p hnodes_layer (length_pos_iff.1 (by omega)) hfuel
    rw [hnodes_ids, hids] at hleafIds
    have hroot_leaves : (⟨some ⟨top, n⟩, st⟩ : Tree K).leaves = id :: id' :: rest := hleafIds
    refine ⟨⟨some ⟨top, n⟩, st⟩, ?_, ⟨hroot_leaves ▸ hchain, hroot_leaves ▸ hitems, hsorted,
      fun level m hroot => ?_⟩⟩
    · simp only [← hlength, hhead, head?_cons] at hleaves ⊢
      rw [if_neg hne]
      simp only [hleaves, hnodes, hroot, Option.bind_eq_bind, Option.bind_some]
      rfl
    · cases hroot
      exact hwf_root

end Load

end MABTree
end TLI
