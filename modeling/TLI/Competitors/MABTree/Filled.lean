import TLI.Competitors.MABTree.Erase
import TLI.Competitors.MABTree.Levels

/-!
# Filled — no node below the root underflows

`Filled` is what `verify_node` asserts of the nodes below one.
-/

namespace TLI
namespace MABTree

open List LowerBound

variable {K : Type}

/-- Below the node, at least the minimal number of slots is used. -/
def Filled (t : Traits) (st : Store K) : (level : Nat) → Node K level → Prop
  | 0, _ => True
  | level + 1, inner =>
      ∀ c, c ∈ inner.childid → t.minslots level ≤ slotuse st level c ∧ Filled t st level c

section Basics

variable {t : Traits} {st st' : Store K}

theorem Traits.minslots_bounds (t : Traits) (level : Nat) : 4 ≤ t.minslots level := by
  have hleaf := t.leafslotmax_ge
  have hinner := t.innerslotmax_ge
  cases level
  · exact (Nat.le_div_iff_mul_le (by decide)).2 hleaf
  · exact (Nat.le_div_iff_mul_le (by decide)).2 hinner

theorem slotuse_congr {level : Nat} {n : Node K level}
    (hsame : ∀ id, id ∈ leafIds level n → (st'.leaf id).slots = (st.leaf id).slots) :
    slotuse st' level n = slotuse st level n := by
  cases level with
  | zero => exact congrArg length (hsame n mem_cons_self)
  | succ level => rfl

theorem Filled.congr : ∀ {level : Nat} {n : Node K level}, Filled t st level n →
    (∀ id, id ∈ leafIds level n → (st'.leaf id).slots = (st.leaf id).slots) →
      Filled t st' level n
  | 0, _, _, _ => trivial
  | level + 1, inner, h, hsame => fun c hc => by
      have hchild : ∀ id, id ∈ leafIds level c → (st'.leaf id).slots = (st.leaf id).slots :=
        fun id hid => hsame id (mem_flatMap.2 ⟨c, hc, hid⟩)
      rw [slotuse_congr hchild]
      exact ⟨(h c hc).1, (h c hc).2.congr hchild⟩

end Basics

/-! ## Nodes that are kept -/

section Kept

variable {t : Traits} {st st' : Store K} {level : Nat} {kids : List (Node K level)}

theorem Kept.contents_eq (h : Kept st st' level kids) :
    kids.flatMap (contents st' level) = kids.flatMap (contents st level) := by
  rw [← items_flatMap_leafIds, ← items_flatMap_leafIds]
  exact Store.items_congr h

theorem Kept.child (h : Kept st st' level kids) {c : Node K level} (hc : c ∈ kids) :
    ∀ id, id ∈ leafIds level c → (st'.leaf id).slots = (st.leaf id).slots :=
  fun id hid => h id (mem_flatMap.2 ⟨c, hc, hid⟩)

theorem Kept.separated (h : Kept st st' level kids) {keys : List K}
    (hsep : Separated st level keys kids) : Separated st' level keys kids := by
  rw [Separated, show keys.map some = _ from hsep]
  exact map_congr_left fun c hc => (h.maxKey_eq (dropLast_subset _ hc)).symm

/-- Siblings that are kept stay as they have to be. -/
theorem Kept.sound (h : Kept st st' level kids) {inner : Inner K (Node K level)}
    (hwf : WF t st (level + 1) inner) (hfilled : Filled t st (level + 1) inner)
    (hsub : ∀ c, c ∈ kids → c ∈ inner.childid) : ∀ c, c ∈ kids → WF t st' level c ∧
      t.minslots level ≤ slotuse st' level c ∧ Filled t st' level c := by
  intro c hc
  rw [slotuse_congr (h.child hc)]
  exact ⟨(hwf.2.2.2 c (hsub c hc)).congr (h.child hc), (hfilled c (hsub c hc)).1,
    (hfilled c (hsub c hc)).2.congr (h.child hc)⟩

end Kept

/-! ## Insertion -/

section Insert

variable [LinearOrder K] {t : Traits} {st st' : Store K} {level : Nat}

/-- A node has no fewer slots in use, or is split into halves that do not underflow. -/
structure Grown (t : Traits) (st' : Store K) (level : Nat) (slots : Nat) (n' : Node K level)
    (added : Added K (Node K level)) : Prop where
  filled : Filled t st' level n'
  slotuse_le : added = none → slots ≤ slotuse st' level n'
  halves : ∀ k m, added = some (k, m) → t.minslots level ≤ slotuse st' level n' ∧
    t.minslots level ≤ slotuse st' level m ∧ Filled t st' level m

omit [LinearOrder K] in
theorem length_put (st : Store K) (id x : LeafId) (slot : Nat) (kv : KeyValue K) :
    (st.leaf x).slots.length ≤ ((st.put id slot kv).leaf x).slots.length := by
  rw [Store.put]
  by_cases hx : x = id
  · subst hx
    rw [Store.leaf_set_self]
    exact length_le_length_insertIdx
  · rw [Store.leaf_set_of_ne st hx]

theorem insert_leaf_grown (p : Params K) {id : LeafId} {kv : KeyValue K} {lo_key hi_key : Option K}
    (hid : id < st.next) {added : Added K LeafId}
    (h : insert_leaf p st id kv lo_key hi_key = some (added, st')) :
    Grown p.traits st' 0 (slotuse st 0 id) id added := by
  have hmin : p.traits.minslots 0 = p.traits.leafslotmax / 2 := rfl
  have hmax := p.traits.leafslotmax_ge
  unfold insert_leaf at h
  generalize find_lower_leaf p (st.leaf id) kv.key lo_key hi_key = slot at h
  by_cases hfull : (st.leaf id).slots.length = p.traits.leafslotmax
  · obtain ⟨last, st₁, hsplit, hhalved, -⟩ := split_leaf_node_spec p (Nat.ne_of_lt hid)
      (show 2 ≤ (st.leaf id).slots.length by omega)
    have hleft : (st₁.leaf id).slots.length = (st.leaf id).slots.length / 2 := by
      rw [hhalved.left, length_take]
      omega
    have hright : (st₁.leaf st.next).slots.length =
        (st.leaf id).slots.length - (st.leaf id).slots.length / 2 := by
      rw [hhalved.right, length_drop]
    simp only [if_pos hfull, hsplit, Option.bind_eq_bind, Option.bind_some] at h
    obtain ⟨k, id', i, heq, hst⟩ : ∃ k id' i,
        added = some (k, st.next) ∧ st' = st₁.put id' i kv := by
      split at h
      · cases h
        exact ⟨_, _, _, rfl, rfl⟩
      · cases h
        exact ⟨_, _, _, rfl, rfl⟩
    subst heq hst
    refine ⟨trivial, fun hnone => (by cases hnone), fun k' m hm => ?_⟩
    cases hm
    have hput := length_put st₁ id' id i kv
    have hput' := length_put st₁ id' st.next i kv
    simp only [slotuse]
    exact ⟨by omega, by omega, trivial⟩
  · simp only [if_neg hfull, Option.pure_def, Option.some.injEq, Prod.mk.injEq] at h
    obtain ⟨rfl, rfl⟩ := h
    exact ⟨trivial, fun _ => length_put st id id slot kv, fun k m hm => (by cases hm)⟩

/-- Both halves of a full inner node use enough slots, whatever branch places the new key. -/
theorem insert_child_min {α : Type} (p : Params K) {inner left right : Inner K α} {slot : Nat}
    {newkey splitkey : K} {newchild : α} (hfull : inner.slotkey.length = p.traits.innerslotmax)
    (hslot : slot ≤ inner.slotkey.length)
    (h : insert_child p inner slot newkey newchild = some (left, some (splitkey, right))) :
    p.traits.mininnerslots ≤ left.slotkey.length ∧
      p.traits.mininnerslots ≤ right.slotkey.length := by
  have hmin : p.traits.mininnerslots = p.traits.innerslotmax / 2 := rfl
  have hmax := p.traits.innerslotmax_ge
  have hmid := split_mid_lt slot (show 0 < inner.slotkey.length by omega)
  have hsplit_mid : split_mid inner.slotkey.length slot =
      if slot ≤ inner.slotkey.length / 2 ∧
          inner.slotkey.length / 2 > inner.slotkey.length - (inner.slotkey.length / 2 + 1) then
        inner.slotkey.length / 2 - 1 else inner.slotkey.length / 2 := rfl
  obtain ⟨newkey', hget⟩ : ∃ k, inner.slotkey[split_mid inner.slotkey.length slot]? = some k :=
    ⟨_, getElem?_eq_getElem hmid⟩
  simp only [insert_child, if_pos hfull, split_inner_node, hget, Option.bind_eq_bind,
    Option.bind_some, Option.pure_def, length_take, length_drop] at h
  generalize split_mid inner.slotkey.length slot = mid at h hmid hsplit_mid
  have hlengths : (inner.slotkey.take mid).length = mid ∧
      (inner.slotkey.drop (mid + 1)).length = inner.slotkey.length - (mid + 1) := by
    rw [length_take, length_drop]
    omega
  by_cases hspecial : slot = min mid inner.slotkey.length + 1 ∧
      min mid inner.slotkey.length < inner.slotkey.length - (mid + 1)
  · -- The split key goes to the left node, the right one keeps its keys.
    rw [if_pos hspecial] at h
    cases hhead : (inner.childid.drop (mid + 1)).head? with
    | none =>
        rw [hhead] at h
        cases h
    | some first =>
        rw [hhead] at h
        cases h
        simp only [length_append, length_singleton]
        split at hsplit_mid <;> omega
  · rw [if_neg hspecial] at h
    by_cases hge : slot ≥ min mid inner.slotkey.length + 1
    · rw [if_pos hge] at h
      cases h
      simp only [Inner.put, length_insertIdx]
      split at hsplit_mid <;> split <;> omega
    · rw [if_neg hge] at h
      cases h
      simp only [Inner.put, length_insertIdx]
      split at hsplit_mid <;> split <;> omega

theorem insert_child_grown (p : Params K) (node : Inner K (Node K level)) {slot : Nat} {newkey : K}
    {newchild : Node K level} (hkids : node.childid.length = node.slotkey.length + 1)
    (hslot : slot ≤ node.slotkey.length)
    (hall : ∀ c, c ∈ newchild :: node.childid →
      p.traits.minslots level ≤ slotuse st' level c ∧ Filled p.traits st' level c)
    {n' : Inner K (Node K level)} {added : Added K (Inner K (Node K level))}
    (h : insert_child p node slot newkey newchild = some (n', added)) :
    Grown p.traits st' (level + 1) node.slotkey.length n' added := by
  have hall' : ∀ c, c ∈ node.childid.insertIdx (slot + 1) newchild →
      p.traits.minslots level ≤ slotuse st' level c ∧ Filled p.traits st' level c := fun c hc =>
    hall c (mem_cons.2 (eq_or_mem_of_mem_insertIdx hc))
  by_cases hfull : node.slotkey.length = p.traits.innerslotmax
  · obtain ⟨left, splitkey, right, hchild, hcut⟩ :=
      insert_child_full p slot newkey newchild hfull hkids
    obtain ⟨hleft, hright⟩ := insert_child_min p hfull hslot hchild
    rw [hchild] at h
    cases h
    refine ⟨fun c hc => hall' c ?_, fun hnone => (by cases hnone), fun k m hm => ?_⟩
    · exact hcut.kids ▸ mem_append_left _ hc
    · cases hm
      exact ⟨hleft, hright, fun c hc => hall' c (hcut.kids ▸ mem_append_right _ hc)⟩
  · rw [insert_child, if_neg hfull] at h
    cases h
    exact ⟨hall', fun _ => length_le_length_insertIdx, fun k m hm => (by cases hm)⟩

/-- The siblings of the child that an insertion changes. -/
theorem Inserted.kept_around {inner : Inner K (Node K level)} {kv : KeyValue K} {id : LeafId}
    {fresh : Option LeafId} {before after : List (Node K level)} {c c' : Node K level}
    {added : Added K (Node K level)} (h : Inserted t st st' level c c' kv added id fresh)
    (hready : Ready t st (level + 1) inner) (heq : inner.childid = before ++ c :: after) :
    Kept st st' level before ∧ Kept st st' level after := by
  have hleaves : leafIds (level + 1) inner = before.flatMap (leafIds level) ++
      (leafIds level c ++ after.flatMap (leafIds level)) := by
    rw [leafIds, heq, flatMap_append, flatMap_cons]
  have hnodup := hready.nodup
  have halloc := hready.allocated
  rw [hleaves] at hnodup halloc
  obtain ⟨-, hnodup', hbefore⟩ := nodup_append.1 hnodup
  constructor
  · refine h.touches.kept (fun hmem => ?_) fun x hx => halloc x (mem_append_left _ hx)
    exact hbefore id hmem id (mem_append_left _ h.mem) rfl
  · refine h.touches.kept (fun hmem => ?_) fun x hx =>
      halloc x (mem_append_right _ (mem_append_right _ hx))
    exact (nodup_append.1 hnodup').2.2 id h.mem id hmem rfl

theorem insert_descend_grown (p : Params K) (kv : KeyValue K) : ∀ {level : Nat}
    {n : Node K level} {lo_key hi_key : Option K} {n' : Node K level}
    {added : Added K (Node K level)} {st' : Store K}, Ready p.traits st level n →
      Filled p.traits st level n →
        insert_descend p kv level n lo_key hi_key st = some (n', added, st') →
          Grown p.traits st' level (slotuse st level n) n' added
  | 0, id, lo_key, hi_key, n', added, st', h, _, hinsert => by
      rw [insert_descend] at hinsert
      cases hleaf : insert_leaf p st id kv lo_key hi_key with
      | none =>
          rw [hleaf] at hinsert
          cases hinsert
      | some result =>
          rw [hleaf] at hinsert
          cases hinsert
          exact insert_leaf_grown p (h.allocated id mem_cons_self) hleaf
  | level + 1, inner, lo_key, hi_key, n', added, st', h, hfilled, hinsert => by
      obtain ⟨before, c, after, haround, hslot⟩ :=
        exists_child p h.wf h.sorted kv.key lo_key hi_key
      have hc : c ∈ inner.childid := haround.eq ▸ mem_append_right _ mem_cons_self
      have hget : inner.childid[before.length]? = some c := by simp [haround.eq]
      have hlength := h.wf.2.2.1.length_eq h.wf.1
      obtain ⟨c', added', st₁, id, fresh, hchild, hspec⟩ := insert_descend_spec p kv
        (child_lo inner.slotkey before.length) (child_hi inner.slotkey before.length) (h.child hc)
      have hgrown := insert_descend_grown p kv (h.child hc) (hfilled c hc).2 hchild
      obtain ⟨hkept, hkept'⟩ := hspec.kept_around h haround.eq
      have hall : p.traits.minslots level ≤ slotuse st₁ level c' → ∀ x, x ∈ before ++ c' :: after →
          p.traits.minslots level ≤ slotuse st₁ level x ∧ Filled p.traits st₁ level x := by
        intro hmin x hx
        rcases mem_append.1 hx with hx | hx
        · exact (hkept.sound h.wf hfilled (fun y hy => haround.eq ▸ mem_append_left _ hy) x hx).2
        rcases mem_cons.1 hx with rfl | hx
        · exact ⟨hmin, hgrown.filled⟩
        · exact (hkept'.sound h.wf hfilled (fun y hy => haround.eq ▸ mem_append_right _
            (mem_cons_of_mem c hy)) x hx).2
      have hset : inner.childid.set before.length c' = before ++ c' :: after := by
        simp [haround.eq]
      simp only [insert_descend, hslot, hget, hchild, hset, Option.bind_eq_bind,
        Option.bind_some] at hinsert
      cases added' with
      | none =>
          -- The child has no fewer slots in use than before.
          cases hinsert
          have hmin := (hfilled c hc).1.trans (hgrown.slotuse_le rfl)
          exact ⟨hall hmin, fun _ => le_rfl, fun k m hm => (by cases hm)⟩
      | some km =>
          obtain ⟨k, m⟩ := km
          obtain ⟨hmin, hmin', hfilled'⟩ := hgrown.halves k m rfl
          simp only [Option.bind_eq_some_iff, Option.pure_def, Option.some.injEq,
            Prod.mk.injEq] at hinsert
          obtain ⟨⟨node, added₁⟩, hput, rfl, rfl, rfl⟩ := hinsert
          rw [haround.eq, length_append, length_cons] at hlength
          refine insert_child_grown p ⟨inner.midp_err, inner.slotkey, before ++ c' :: after⟩ ?_ ?_
            (fun x hx => ?_) hput
          · rw [length_append, length_cons]
            exact hlength
          · change before.length ≤ inner.slotkey.length
            omega
          · rcases mem_cons.1 hx with rfl | hx
            · exact ⟨hmin', hfilled'⟩
            · exact hall hmin x hx

end Insert

/-! ## Bulk loading -/

/-- Two parts or more are at least half full. -/
theorem num_parts_share {items max : Nat} (hmax : 0 < max) (htwo : 2 ≤ num_parts items max) :
    (max + 1) / 2 * num_parts items max ≤ items := by
  have hlow : num_parts items max * max ≤ items + max - 1 := Nat.div_mul_le_self _ _
  obtain ⟨k, hk⟩ := Nat.exists_eq_add_of_le' htwo
  have hhalf : (max + 1) / 2 ≤ max := by omega
  have hrest : (max + 1) / 2 * k ≤ max * k := Nat.mul_le_mul_right k hhalf
  rw [hk] at hlow ⊢
  rw [Nat.add_mul, Nat.mul_comm k] at hlow
  rw [Nat.mul_add]
  omega

section Load

variable {t : Traits} {st : Store K} {level : Nat}

/-- A level of nodes, none of which underflows unless it is the only one. -/
structure FilledLayer (t : Traits) (st : Store K) (level : Nat) (nodes : List (Node K level × K)) :
    Prop where
  filled : ∀ node, node ∈ nodes → Filled t st level node.1
  pos : ∀ node, node ∈ nodes → 0 < slotuse st level node.1
  min_le : 2 ≤ nodes.length → ∀ node, node ∈ nodes → t.minslots level ≤ slotuse st level node.1

variable [LinearOrder K]

theorem make_inner_filled (p : Params K) {children : List (Node K level × K)}
    (h : ∀ child, child ∈ children →
      t.minslots level ≤ slotuse st level child.1 ∧ Filled t st level child.1)
    {node : Inner K (Node K level) × K} (hnode : make_inner p children = some node) :
    Filled t st (level + 1) node.1 ∧ slotuse st (level + 1) node.1 + 1 = children.length := by
  rw [make_inner] at hnode
  cases hlast : children.getLast? with
  | none =>
      rw [hlast] at hnode
      cases hnode
  | some last =>
      rw [hlast] at hnode
      cases hnode
      have hpos := length_pos_iff.2 (ne_nil_of_mem (mem_of_getLast? hlast))
      refine ⟨fun c hc => ?_, ?_⟩
      · obtain ⟨child, hchild, rfl⟩ := mem_map.1 hc
        exact h child hchild
      · simp only [slotuse, length_map, length_dropLast]
        omega

/-- Each node of a level is made of one part. -/
theorem mem_mapM_make_inner (p : Params K) {ps : List (List (Node K level × K))}
    {nodes : List (Inner K (Node K level) × K)} (h : ps.mapM (make_inner p) = some nodes) :
    nodes.length = ps.length ∧
      ∀ node, node ∈ nodes → ∃ part, part ∈ ps ∧ make_inner p part = some node := by
  have hmap := mapM_eq_some_iff.1 h
  have hlength := congrArg length hmap
  rw [length_map, length_map] at hlength
  refine ⟨hlength.symm, fun node hnode => mem_map.1 ?_⟩
  rw [hmap]
  exact mem_map_of_mem hnode

theorem build_level_filled (p : Params K) {nodes : List (Node K level × K)}
    (h : FilledLayer p.traits st level nodes) (htwo : 2 ≤ nodes.length)
    {parents : List (Inner K (Node K level) × K)} (hparents : build_level p nodes = some parents) :
    FilledLayer p.traits st (level + 1) parents ∧ parents ≠ [] := by
  have hmin : p.traits.minslots (level + 1) = p.traits.innerslotmax / 2 := rfl
  obtain ⟨hflatten, hparts⟩ := parts_num_parts (Nat.succ_pos p.traits.innerslotmax) nodes
  obtain ⟨hlength, hmem⟩ := mem_mapM_make_inner p hparents
  rw [length_parts] at hlength
  obtain ⟨hpos, -⟩ := num_parts_lt htwo (two_le_children p.traits)
  have hnode : ∀ parent, parent ∈ parents → ∃ part,
      part ∈ parts (num_parts nodes.length (p.traits.innerslotmax + 1)) nodes ∧
        Filled p.traits st (level + 1) parent.1 ∧
          slotuse st (level + 1) parent.1 + 1 = part.length := by
    intro parent hparent
    obtain ⟨part, hpart, hinner⟩ := hmem parent hparent
    have hsub : ∀ child, child ∈ part → child ∈ nodes := fun child hchild =>
      hflatten ▸ mem_flatten.2 ⟨part, hpart, hchild⟩
    exact ⟨part, hpart, make_inner_filled p (fun child hchild =>
      ⟨h.min_le htwo child (hsub child hchild), h.filled child (hsub child hchild)⟩) hinner⟩
  -- Two parents or more have their share of the children; a single one has all of them.
  have hshare : 2 ≤ parents.length → ∀ parent, parent ∈ parents →
      p.traits.innerslotmax / 2 ≤ slotuse st (level + 1) parent.1 := by
    intro hcount parent hparent
    obtain ⟨part, hpart, -, huse⟩ := hnode parent hparent
    have hle := le_length_of_mem_parts
      (num_parts_share (Nat.succ_pos p.traits.innerslotmax) (hlength ▸ hcount)) part hpart
    omega
  refine ⟨⟨fun parent hparent => ?_, fun parent hparent => ?_, hshare⟩,
    length_pos_iff.1 (hlength ▸ hpos)⟩
  · obtain ⟨part, -, hfilled, -⟩ := hnode parent hparent
    exact hfilled
  · have hmax := p.traits.innerslotmax_ge
    by_cases hcount : 2 ≤ parents.length
    · have hle := hshare hcount parent hparent
      omega
    · obtain ⟨part, hpart, -, huse⟩ := hnode parent hparent
      have hone : num_parts nodes.length (p.traits.innerslotmax + 1) = 1 := by omega
      rw [hone, parts, Nat.zero_add, Nat.div_one, take_length] at hpart
      rw [mem_singleton.1 hpart] at huse
      omega

theorem build_levels_filled (p : Params K) : ∀ {fuel level : Nat} {nodes : List (Node K level × K)}
    {top : Nat} {n : Node K top}, FilledLayer p.traits st level nodes → nodes ≠ [] →
      build_levels p fuel level nodes = some ⟨top, n⟩ →
        Filled p.traits st top n ∧ 0 < slotuse st top n
  | _, _, [], _, _, _, hne, _ => absurd rfl hne
  | fuel, level, [node], top, n, h, _, hroot => by
      rw [build_levels_one] at hroot
      cases hroot
      exact ⟨h.filled node mem_cons_self, h.pos node mem_cons_self⟩
  | 0, _, a :: b :: nodes, _, _, _, _, hroot => by cases hroot
  | fuel + 1, level, a :: b :: nodes, top, n, h, _, hroot => by
      rw [build_levels] at hroot
      · cases hparents : build_level p (a :: b :: nodes) with
        | none =>
            rw [hparents] at hroot
            cases hroot
        | some parents =>
            rw [hparents] at hroot
            obtain ⟨hfilled, hne⟩ :=
              build_level_filled p h (Nat.le_add_left 2 nodes.length) hparents
            exact build_levels_filled p hfilled hne hroot
      · simp

omit [LinearOrder K] in
/-- The leaves of a chain that is read. -/
theorem filledLayer_of_layerIds {leaves : List (Node K 0 × K)} {ids : List LeafId}
    (hids : layerIds 0 leaves = ids)
    (hslots : ∀ id, id ∈ ids → t.minslots 0 ≤ (st.leaf id).slots.length) :
    FilledLayer t st 0 leaves := by
  have hmin := t.minslots_bounds 0
  have hle : ∀ leaf, leaf ∈ leaves → t.minslots 0 ≤ slotuse st 0 leaf.1 := fun leaf hleaf =>
    hslots leaf.1 (hids ▸ mem_flatMap.2 ⟨leaf, hleaf, mem_cons_self⟩)
  refine ⟨fun _ _ => trivial, fun leaf hleaf => ?_, fun _ => hle⟩
  have hleaf' := hle leaf hleaf
  omega

theorem bulk_load_filled (p : Params K) {data : List (KeyValue K)} {tree : Tree K}
    (h : bulk_load p data = some tree) {level : Nat} {n : Node K level}
    (hroot : tree.root = some ⟨level, n⟩) :
    Filled p.traits tree.store level n ∧ 0 < slotuse tree.store level n := by
  have hmax : 0 < p.traits.leafslotmax := Nat.lt_of_lt_of_le (by decide) p.traits.leafslotmax_ge
  have hmin : p.traits.minslots 0 = p.traits.leafslotmax / 2 := rfl
  obtain ⟨-, hparts⟩ := parts_num_parts hmax data
  have hlength := length_parts (num_parts data.length p.traits.leafslotmax) data
  obtain ⟨ids, hchain, hslots, -⟩ := foldl_append_leaf p
    (parts (num_parts data.length p.traits.leafslotmax) data) chain_empty
  rw [nil_append] at hchain
  rw [bulk_load] at h
  generalize (parts (num_parts data.length p.traits.leafslotmax) data).foldl (append_leaf p)
    Tree.empty.store = st at hchain hslots h
  have hmem : ∀ id, id ∈ ids →
      (st.leaf id).slots ∈ parts (num_parts data.length p.traits.leafslotmax) data :=
    fun id hid => hslots ▸ mem_map_of_mem hid
  rw [← hslots, length_map] at hlength
  have hhead := hchain.head
  have htail := hchain.tail
  -- No leaf, one leaf as the root, or several leaves, each with its share.
  rcases ids with _ | ⟨id, _ | ⟨id', rest⟩⟩
  · simp only [hhead, head?_nil] at h
    cases h
    cases hroot
  · simp only [hhead, head?_cons] at h
    rw [if_pos (show st.tailleaf = some id from htail)] at h
    cases h
    cases hroot
    exact ⟨trivial, length_pos_iff.2 (hparts _ (hmem id mem_cons_self)).1⟩
  · have hne := hchain.tail_ne
    have htwo : 2 ≤ (id :: id' :: rest).length := Nat.le_add_left 2 rest.length
    obtain ⟨leaves, hleaves, -, hids, hcount⟩ := read_chain_spec (t := p.traits) hchain
      (id :: id' :: rest) (nil_append _).symm fun x hx => hparts _ (hmem x hx)
    have hlayer : FilledLayer p.traits st 0 leaves := filledLayer_of_layerIds hids fun x hx => by
      have hle := le_length_of_mem_parts (num_parts_share hmax (hlength ▸ htwo)) _ (hmem x hx)
      omega
    simp only [← hlength, hhead, head?_cons] at hleaves h
    rw [if_neg hne] at h
    simp only [hleaves, Option.bind_eq_bind, Option.bind_some, Option.bind_eq_some_iff,
      Option.pure_def, Option.some.injEq] at h
    obtain ⟨nodes, hnodes, ⟨top, m⟩, hlevels, rfl⟩ := h
    cases hroot
    obtain ⟨hfilled, hne'⟩ := build_level_filled p hlayer (hcount ▸ htwo) hnodes
    exact build_levels_filled p hfilled hne' hlevels

end Load

end MABTree
end TLI
