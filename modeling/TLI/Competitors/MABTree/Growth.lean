import TLI.Competitors.MABTree.Reach

/-!
# Growth — an insertion keeps a tree steady

A leaf that is not split only gets larger, which keeps its two different keys and the bound of the
error at its middle.  The halves of a split leaf are computed anew (`Grows`).  The inner nodes on
the way grow or are split in the same manner; no leaf matters for them.
-/

namespace TLI
namespace MABTree

open List LowerBound

/-! ## Leaves -/

section Leaves

variable {p : Params UInt64} {st st' : Store UInt64} {id : LeafId}

/-- What an insertion into the leaf `id`, or its split, leaves of what is known about the leaves. -/
structure Grows (st st' : Store UInt64) (id : LeafId) : Prop where
  bounded : ∀ x, (st.leaf x).Bounded → (st'.leaf x).Bounded
  wide : ∀ x, Wide (st.leaf x) → Wide (st'.leaf x)
  split : st'.next ≠ st.next →
    Wide (st'.leaf id) ∧ Wide (st'.leaf st.next) ∧ (st'.leaf st.next).Bounded

theorem leaf_put (st : Store UInt64) (y : LeafId) (slot : Nat) (kv : KeyValue UInt64) (x : LeafId) :
    ((st.put y slot kv).leaf x).midp_err = (st.leaf x).midp_err ∧
      (st.leaf x).slots ⊆ ((st.put y slot kv).leaf x).slots ∧
        (st.leaf x).slots.length ≤ ((st.put y slot kv).leaf x).slots.length := by
  by_cases hx : x = y
  · subst hx
    rw [Store.put, Store.leaf_set_self]
    refine ⟨rfl, fun a ha => ?_, length_le_length_insertIdx⟩
    by_cases hslot : slot ≤ (st.leaf x).slots.length
    · exact (mem_insertIdx hslot).2 (.inr ha)
    · rw [show (st.leaf x).slots.insertIdx slot kv = (st.leaf x).slots from
        insertIdx_of_length_lt (Nat.lt_of_not_le hslot)]
      exact ha
  · rw [Store.put, Store.leaf_set_of_ne st hx]
    exact ⟨rfl, Subset.refl _, le_rfl⟩

theorem Leaf.Bounded.put {x : LeafId} (h : (st.leaf x).Bounded) (y : LeafId) (slot : Nat)
    (kv : KeyValue UInt64) : ((st.put y slot kv).leaf x).Bounded := by
  obtain ⟨hmidp, -, hlength⟩ := leaf_put st y slot kv x
  rw [Leaf.Bounded, hmidp]
  exact MidpBounded.mono h hlength

theorem Wide.put {x : LeafId} (h : Wide (st.leaf x)) (y : LeafId) (slot : Nat)
    (kv : KeyValue UInt64) : Wide ((st.put y slot kv).leaf x) := by
  obtain ⟨-, hslots, -⟩ := leaf_put st y slot kv x
  obtain ⟨a, ha, b, hb, hlt⟩ := h
  exact ⟨a, hslots ha, b, hslots hb, hlt⟩

theorem Grows.refl (st : Store UInt64) (id : LeafId) : Grows st st id :=
  ⟨fun _ h => h, fun _ h => h, fun h => absurd rfl h⟩

theorem Grows.put (h : Grows st st' id) (y : LeafId) (slot : Nat) (kv : KeyValue UInt64) :
    Grows st (st'.put y slot kv) id := by
  refine ⟨fun x hx => (h.bounded x hx).put y slot kv, fun x hx => (h.wide x hx).put y slot kv,
    fun hnext => ?_⟩
  obtain ⟨hid, hnew, hbounded⟩ := h.split hnext
  exact ⟨hid.put y slot kv, hnew.put y slot kv, hbounded.put y slot kv⟩

/-- A sorted leaf whose first and last key differ. -/
theorem wide_of_ends {leaf : Leaf UInt64} (hsorted : Ascends KeyValue.key leaf.slots)
    (hlength : 2 ≤ leaf.slots.length) (h : EndsDiffer leaf.slotkey) : Wide leaf := by
  have hsorted' : leaf.slotkey.Pairwise (· ≤ ·) := pairwise_map.2 hsorted
  have hlength' : 2 ≤ leaf.slotkey.length := hlength.trans_eq (length_slotkey leaf).symm
  obtain ⟨key, lo, hi, -, hlo, hhi, hle, hle'⟩ := exists_middle hsorted' hlength'
  have hne : lo ≠ hi := by
    rintro rfl
    exact h hlength' (hlo.trans hhi.symm)
  obtain ⟨first, hfirst, rfl⟩ := mem_map.1 (mem_of_mem_head? hlo)
  obtain ⟨last, hlast, rfl⟩ := mem_map.1 (mem_of_getLast? hhi)
  exact ⟨first, hfirst, last, hlast, lt_of_le_of_ne (hle.trans hle') hne⟩

/-- A leaf whose error at the middle is the one of its keys. -/
theorem bounded_of_ends {leaf : Leaf UInt64} (hexact : Exact p.arithmetic)
    (hmidp : leaf.midp_err = compute_midp_err p leaf.slotkey)
    (hsorted : Ascends KeyValue.key leaf.slots) (hlength : leaf.slots.length < 2 ^ 16)
    (h : EndsDiffer leaf.slotkey) : leaf.Bounded := by
  rw [Leaf.Bounded, hmidp, ← length_slotkey]
  exact compute_midp_err_bounded hexact (pairwise_map.2 hsorted)
    ((length_slotkey leaf).trans_lt hlength) h

/-- The error at the middle of the two halves; the other leaves keep theirs. -/
theorem split_leaf_node_midp {last : KeyValue UInt64} (hid : id ≠ st.next)
    (h : split_leaf_node p st id = some (last.key, st.next, st')) :
    (st'.leaf id).midp_err = compute_midp_err p
        (((st.leaf id).slots.take ((st.leaf id).slots.length / 2)).map KeyValue.key) ∧
      (st'.leaf st.next).midp_err = compute_midp_err p
        (((st.leaf id).slots.drop ((st.leaf id).slots.length / 2)).map KeyValue.key) ∧
      ∀ x, x ≠ id → x ≠ st.next → (st'.leaf x).midp_err = (st.leaf x).midp_err := by
  rw [split_leaf_node] at h
  simp only [Option.bind_eq_bind, Option.bind_eq_some_iff, Option.pure_def, Option.some.injEq,
    Prod.mk.injEq] at h
  obtain ⟨_, -, -, -, rfl⟩ := h
  rw [show st.allocate_leaf.1 = st.next from rfl]
  refine ⟨?_, ?_, fun x hx hx' => ?_⟩
  · rw [Store.leaf_set_self]
  · rw [Store.leaf_set_of_ne _ hid.symm]
    exact congrArg Leaf.midp_err (Store.leaf_set_self _ st.next _)
  · rw [Store.leaf_set_of_ne _ hx, Store.leaf_set_of_ne _ hx']
    refine (congrArg Leaf.midp_err (relink_leaf _ _ _ x)).trans ?_
    rw [leaf_allocate_leaf_of_ne st hx']
    split <;> rfl

/-- Both halves of a leaf that is split hold different keys. -/
theorem split_leaf_grows (hexact : Exact p.arithmetic) (hshort : p.traits.Short)
    (hid : id ≠ st.next) (hsorted : Ascends KeyValue.key (st.leaf id).slots)
    (hfull : (st.leaf id).slots.length = p.traits.leafslotmax)
    (hdiffer : HalvesDiffer p.traits (st.leaf id).slotkey) :
    ∃ (last : KeyValue UInt64) (st' : Store UInt64),
      split_leaf_node p st id = some (last.key, st.next, st') ∧ Grows st st' id := by
  have hmax := p.traits.leafslotmax_ge
  have hmax' := hshort.1
  obtain ⟨last, st', hsplit, hhalved, -⟩ :=
    split_leaf_node_spec p hid (show 2 ≤ (st.leaf id).slots.length by omega)
  obtain ⟨hmidp, hmidp', hothers⟩ := split_leaf_node_midp hid hsplit
  rw [HalvesDiffer, length_slotkey] at hdiffer
  obtain ⟨hdiffer, hdiffer'⟩ := hdiffer hfull
  rw [Leaf.slotkey, ← map_take, ← hhalved.left] at hdiffer
  rw [Leaf.slotkey, ← map_drop, ← hhalved.right] at hdiffer'
  rw [← hhalved.left] at hmidp
  rw [← hhalved.right] at hmidp'
  have hlength := congrArg length hhalved.left
  have hlength' := congrArg length hhalved.right
  rw [length_take] at hlength
  rw [length_drop] at hlength'
  have hleft : Ascends KeyValue.key (st'.leaf id).slots :=
    hhalved.left ▸ hsorted.sublist (take_sublist _ _)
  have hright : Ascends KeyValue.key (st'.leaf st.next).slots :=
    hhalved.right ▸ hsorted.sublist (drop_sublist _ _)
  have hwide := wide_of_ends hleft (by omega) hdiffer
  have hwide' := wide_of_ends hright (by omega) hdiffer'
  -- Each half is computed anew from its own keys.
  have hid_bounded := bounded_of_ends hexact hmidp hleft (by omega) hdiffer
  have hnew_bounded := bounded_of_ends hexact hmidp' hright (by omega) hdiffer'
  refine ⟨last, st', hsplit, fun x hx => ?_, fun x hx => ?_, fun _ => ⟨hwide, hwide', hnew_bounded⟩⟩
  · by_cases hxid : x = id
    · exact hxid ▸ hid_bounded
    by_cases hxnew : x = st.next
    · exact hxnew ▸ hnew_bounded
    rw [Leaf.Bounded, hothers x hxid hxnew, hhalved.others x hxid hxnew]
    exact hx
  · by_cases hxid : x = id
    · exact hxid ▸ hwide
    by_cases hxnew : x = st.next
    · exact hxnew ▸ hwide'
    rw [Wide, hhalved.others x hxid hxnew]
    exact hx

theorem insert_leaf_grows (hexact : Exact p.arithmetic) (hshort : p.traits.Short)
    (kv : KeyValue UInt64) (lo_key hi_key : Option UInt64) (hid : id < st.next)
    (hsorted : Ascends KeyValue.key (st.leaf id).slots)
    (hdiffer : HalvesDiffer p.traits (st.leaf id).slotkey) {added : Added UInt64 LeafId}
    (h : insert_leaf p st id kv lo_key hi_key = some (added, st')) : Grows st st' id := by
  rw [insert_leaf] at h
  by_cases hfull : (st.leaf id).slots.length = p.traits.leafslotmax
  · obtain ⟨last, st₁, hsplit, hgrows⟩ :=
      split_leaf_grows hexact hshort (Nat.ne_of_lt hid) hsorted hfull hdiffer
    simp only [if_pos hfull, hsplit, Option.bind_eq_bind, Option.bind_some] at h
    split at h
    · cases h
      exact hgrows.put _ _ kv
    · cases h
      exact hgrows.put _ _ kv
  · simp only [if_neg hfull] at h
    cases h
    exact (Grows.refl st id).put _ _ kv

end Leaves

/-! ## Inner nodes -/

section Inners

variable {p : Params UInt64} {level : Nat} {inner : Inner UInt64 (Node UInt64 level)}

theorem InnerBounded.put (h : InnerBounded (level + 1) inner) {newchild : Node UInt64 level}
    (hnew : InnerBounded level newchild) (slot : Nat) (newkey : UInt64) :
    InnerBounded (level + 1) (inner.put slot newkey newchild) := by
  refine ⟨h.1.mono length_le_length_insertIdx, fun c hc => ?_⟩
  rcases eq_or_mem_of_mem_insertIdx hc with rfl | hc
  · exact hnew
  · exact h.2 c hc

theorem InnerBounded.set_child (h : InnerBounded (level + 1) inner) {c : Node UInt64 level}
    (hc : InnerBounded level c) (slot : Nat) :
    InnerBounded (level + 1)
      ⟨inner.midp_err, inner.slotkey, inner.childid.set slot c⟩ := by
  refine ⟨h.1, fun c' hc' => ?_⟩
  rcases mem_or_eq_of_mem_set hc' with hc' | rfl
  · exact h.2 c' hc'
  · exact hc

theorem split_inner_node_bounded (hexact : Exact p.arithmetic)
    (hincreasing : inner.slotkey.Pairwise (· < ·)) (hlength : inner.slotkey.length < 2 ^ 16)
    (h : InnerBounded (level + 1) inner) {addslot : Nat}
    {left right : Inner UInt64 (Node UInt64 level)} {splitkey : UInt64}
    (hsplit : split_inner_node p inner addslot = some (left, splitkey, right)) :
    InnerBounded (level + 1) left ∧ InnerBounded (level + 1) right := by
  have hpart : ∀ keys, keys <+ inner.slotkey →
      MidpBounded (compute_midp_err p keys) keys.length := fun keys hsub =>
    compute_midp_err_bounded hexact (increasing_le (hincreasing.sublist hsub))
      (lt_of_le_of_lt hsub.length_le hlength) (.of_increasing (hincreasing.sublist hsub))
  rw [split_inner_node] at hsplit
  simp only [Option.bind_eq_bind, Option.bind_eq_some_iff, Option.pure_def, Option.some.injEq,
    Prod.mk.injEq] at hsplit
  obtain ⟨_, -, rfl, -, rfl⟩ := hsplit
  exact ⟨⟨hpart _ (take_sublist _ _), fun c hc => h.2 c (mem_of_mem_take hc)⟩,
    ⟨hpart _ (drop_sublist _ _), fun c hc => h.2 c (mem_of_mem_drop hc)⟩⟩

/-- A new child, whether the node is split or not. -/
theorem InnerBounded.insert_child (h : InnerBounded (level + 1) inner)
    (hexact : Exact p.arithmetic) (hincreasing : inner.slotkey.Pairwise (· < ·))
    (hlength : inner.slotkey.length < 2 ^ 16) {slot : Nat} {newkey : UInt64}
    {newchild : Node UInt64 level} (hnew : InnerBounded level newchild)
    {n' : Inner UInt64 (Node UInt64 level)} {added : Added UInt64 (Inner UInt64 (Node UInt64 level))}
    (hinsert : MABTree.insert_child p inner slot newkey newchild = some (n', added)) :
    InnerBounded (level + 1) n' ∧ ∀ m ∈ addedKids added, InnerBounded (level + 1) m := by
  rw [MABTree.insert_child] at hinsert
  split at hinsert
  · simp only [Option.bind_eq_bind, Option.bind_eq_some_iff] at hinsert
    obtain ⟨⟨left, splitkey, right⟩, hsplit, hinsert⟩ := hinsert
    obtain ⟨hleft, hright⟩ := split_inner_node_bounded hexact hincreasing hlength h hsplit
    dsimp only at hinsert
    split at hinsert
    · -- The first child of the right node moves to the left one.
      simp only [Option.bind_eq_some_iff, Option.pure_def, Option.some.injEq,
        Prod.mk.injEq] at hinsert
      obtain ⟨first, hfirst, rfl, rfl⟩ := hinsert
      refine ⟨⟨hleft.1.mono ?_, fun c hc => ?_⟩, forall_mem_singleton.2 (hright.set_child hnew 0)⟩
      · rw [length_append]
        exact Nat.le_add_right _ _
      · rcases mem_append.1 hc with hc | hc
        · exact hleft.2 c hc
        · exact mem_singleton.1 hc ▸ hright.2 first (mem_of_mem_head? hfirst)
    · split at hinsert
      · cases hinsert
        exact ⟨hleft, forall_mem_singleton.2 (hright.put hnew _ newkey)⟩
      · cases hinsert
        exact ⟨hleft.put hnew _ newkey, forall_mem_singleton.2 hright⟩
  · cases hinsert
    exact ⟨h.put hnew slot newkey, fun m hm => absurd hm not_mem_nil⟩

end Inners

/-! ## The whole tree -/

section Whole

variable {p : Params UInt64} {st : Store UInt64}

theorem insert_descend_grows (hexact : Exact p.arithmetic) (hshort : p.traits.Short)
    (kv : KeyValue UInt64) : ∀ {level : Nat} {n n' : Node UInt64 level}
      {lo_key hi_key : Option UInt64} {added : Added UInt64 (Node UInt64 level)}
      {st' : Store UInt64}, Ready p.traits st level n → Steady st level n →
        (∀ v, (visits st kv.key level n lo_key hi_key).getLast? = some v →
          HalvesDiffer p.traits v.slotkey) →
        insert_descend p kv level n lo_key hi_key st = some (n', added, st') →
          (∃ id ∈ leafIds level n, Grows st st' id) ∧ InnerBounded level n' ∧
            ∀ m ∈ addedKids added, InnerBounded level m
  | 0, id, _, _, _, _, _, hready, hsteady, hdiffer, h => by
      have hsorted := hready.sorted
      rw [contents, leafIds, Store.items, flatMap_singleton] at hsorted
      rw [insert_descend] at h
      simp only [Option.bind_eq_bind, Option.bind_eq_some_iff, Option.pure_def, Option.some.injEq,
        Prod.mk.injEq, Prod.exists] at h
      obtain ⟨added, st₁, hinsert, rfl, rfl, rfl⟩ := h
      refine ⟨⟨id, mem_cons_self, ?_⟩, trivial, fun _ _ => trivial⟩
      exact insert_leaf_grows hexact hshort kv _ _ (hready.allocated id mem_cons_self) hsorted
        (hdiffer _ rfl) hinsert
  | level + 1, inner, _, lo_key, hi_key, _, _, hready, hsteady, hdiffer, h => by
      obtain ⟨child, hchild, hget, hfind⟩ := exists_selected hready kv.key lo_key hi_key
      rw [visits] at hdiffer
      simp only [hget, getLast?_cons_of_ne_nil (visits_ne_nil _ _ _ _ _)] at hdiffer
      rw [insert_descend] at h
      simp only [hfind, hget, Option.bind_eq_bind, Option.bind_some, Option.bind_eq_some_iff,
        Prod.exists] at h
      obtain ⟨child', added', st₁, hbelow, h⟩ := h
      obtain ⟨⟨id, hid, hgrows⟩, hchild', hadded'⟩ := insert_descend_grows hexact hshort kv
        (hready.child hchild) (hsteady.child hchild) hdiffer hbelow
      have hmem : id ∈ leafIds (level + 1) inner := (leafIds_sublist hchild).subset hid
      have hset := hsteady.inner.set_child hchild'
        (inner.slotkey.findIdx fun k => decide (kv.key ≤ k))
      -- Without a split below, this node keeps its keys.
      cases added' with
      | none =>
          cases h
          exact ⟨⟨id, hmem, hgrows⟩, hset, fun m hm => absurd hm not_mem_nil⟩
      | some km =>
          simp only [Option.bind_eq_some_iff, Option.pure_def, Option.some.injEq, Prod.mk.injEq,
            Prod.exists] at h
          obtain ⟨n₁, added₁, hinsert, rfl, rfl, rfl⟩ := h
          have hincreasing := hsteady.increasing hready.wf hready.sorted
          exact ⟨⟨id, hmem, hgrows⟩, hset.insert_child hexact hincreasing
            (lt_of_le_of_lt hready.wf.2.1 hshort.2) (hadded' km.2 mem_cons_self) hinsert⟩

/-- The new root is steady, if the node below the insertion is. -/
theorem Inserted.steady {t : Traits} {st' : Store UInt64} {level : Nat} {n n' : Node UInt64 level}
    {kv : KeyValue UInt64} {added : Added UInt64 (Node UInt64 level)} {id id' : LeafId}
    {fresh : Option LeafId} (h : Inserted t st st' level n n' kv added id fresh)
    (hchain : Chain st (leafIds level n)) (hsteady : Steady st level n)
    (hgrows : Grows st st' id') (hid' : id' ∈ leafIds level n) (hinner : InnerBounded level n')
    (hadded : ∀ m ∈ addedKids added, InnerBounded level m) :
    Tree.Steady ⟨some (new_root level n' added), st'⟩ := by
  have hchain' := h.touches.chain _ hchain h.mem
  have hleaf : ∀ x ∈ leafIds level n' ++ addedIds level added,
      x ∈ leafIds level n ∨ x = st.next ∧ st'.next ≠ st.next := by
    intro x hx
    rw [h.ids] at hx
    rcases mem_of_mem_graft hx with hold | hnew
    · exact .inl hold
    · have heq := h.touches.fresh_eq x hnew
      exact .inr ⟨heq, Nat.ne_of_gt (heq ▸ hchain'.allocated x hx)⟩
  have hbounded : ∀ x ∈ leafIds level n' ++ addedIds level added, (st'.leaf x).Bounded := by
    intro x hx
    rcases hleaf x hx with hold | ⟨rfl, hnext⟩
    · exact hgrows.bounded x (hsteady.leaves x hold)
    · exact (hgrows.split hnext).2.2
  rw [← h.ids] at hchain'
  cases added with
  | none =>
      intro level' root hroot
      cases hroot
      rw [show addedIds level none = [] from rfl, append_nil] at hbounded hleaf
      refine ⟨hinner, hbounded, hsteady.wide.imp_right fun hwide x hx => ?_⟩
      rcases hleaf x hx with hold | ⟨rfl, hnext⟩
      · exact hgrows.wide x (hwide x hold)
      · exact (hgrows.split hnext).2.1
  | some km =>
      intro level' root hroot
      cases hroot
      -- A leaf that is split does not have to be wide before.
      have hwide : ∀ x ∈ leafIds level n' ++ addedIds level (some km), Wide (st'.leaf x) := by
        intro x hx
        rcases hleaf x hx with hold | ⟨rfl, hnext⟩
        · rcases hsteady.wide with rfl | hwide
          · have hnext : st'.next ≠ st.next := by
              intro hsame
              have hold' : ∀ y ∈ [n', km.2], y = n := fun y hy =>
                mem_singleton.1 ((hleaf y hy).resolve_right fun hnew => hnew.2 hsame)
              refine (nodup_cons.1 hchain'.nodup).1 (mem_singleton.2 ?_)
              exact (hold' n' mem_cons_self).trans
                (hold' km.2 (mem_cons_of_mem _ mem_cons_self)).symm
            rw [mem_singleton.1 hold, ← mem_singleton.1 hid']
            exact (hgrows.split hnext).1
          · exact hgrows.wide x (hwide x hold)
        · exact (hgrows.split hnext).2.1
      refine ⟨⟨midpBounded_zero 1, fun c hc => ?_⟩, hbounded, .inr hwide⟩
      rcases mem_cons.1 hc with rfl | hc
      · exact hinner
      · exact hadded c hc

theorem insert_start_steady (hexact : Exact p.arithmetic) (hshort : p.traits.Short)
    {tree tree' : Tree UInt64} {xs : List (KeyValue UInt64)} (h : Holds p.traits tree xs)
    (hsteady : tree.Steady) {kv : KeyValue UInt64} (hdiffer : LeafSplits p.traits tree kv.key)
    (hinsert : insert_start p tree kv = some tree') : tree'.Steady := by
  obtain ⟨root, st⟩ := tree
  obtain ⟨hchain, hitems, hsorted, hwf⟩ := h
  subst hitems
  cases root with
  | none =>
      -- The first leaf is empty, so it is not split.
      have hchain' := chain_first_leaf st
      have hleaf : st.first_leaf.2.leaf st.next = ⟨0, [], none, none⟩ := leaf_allocate_leaf st
      have hmax := p.traits.leafslotmax_ge
      have hfirst : Steady st.first_leaf.2 0 st.next := by
        refine ⟨trivial, fun x hx => ?_, .inl rfl⟩
        rw [mem_singleton.1 hx, hleaf]
        exact midpBounded_zero 0
      have hid := hchain'.allocated st.next mem_cons_self
      obtain ⟨added, st', fresh, hleaf', hspec⟩ := insert_leaf_spec p kv none none hid
        (hleaf ▸ Pairwise.nil) (hleaf ▸ Nat.zero_le _)
      have hgrows := insert_leaf_grows hexact hshort kv none none hid (hleaf ▸ Pairwise.nil)
        (fun hfull => absurd ((length_slotkey _).symm.trans hfull) (by rw [hleaf, length_nil]; omega))
        hleaf'
      simp only [insert_start, insert_descend, show st.first_leaf.1 = st.next from rfl, hleaf',
        Option.bind_eq_bind, Option.bind_some] at hinsert
      cases hinsert
      exact hspec.steady hchain' hfirst hgrows mem_cons_self trivial fun _ _ => trivial
  | some root =>
      obtain ⟨level, n⟩ := root
      have hready : Ready p.traits st level n :=
        ⟨hwf level n rfl, hsorted, hchain.nodup, hchain.allocated⟩
      obtain ⟨n', added, st', id, fresh, hdescend, hspec⟩ :=
        insert_descend_spec p kv none none hready
      obtain ⟨⟨id', hid', hgrows⟩, hinner, hadded⟩ := insert_descend_grows hexact hshort kv hready
        (hsteady level n rfl) hdiffer hdescend
      simp only [insert_start, hdescend, Option.bind_eq_bind, Option.bind_some] at hinsert
      cases hinsert
      exact hspec.steady hchain (hsteady level n rfl) hgrows hid' hinner hadded

end Whole

end MABTree
end TLI
