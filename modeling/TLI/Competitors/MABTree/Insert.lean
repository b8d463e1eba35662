import TLI.Competitors.MABTree.Leaf

/-!
# Insert — insertion below an inner node, and growth at the root

A child that is split puts its second half and the key between both into its parent.  A full parent
is split in turn: whatever branch places the new key, the two halves with the key between them are
the parent with the new child in its place, cut at one of the keys (`InsertCut`).
-/

namespace TLI
namespace MABTree

open List LowerBound

variable {K : Type} [LinearOrder K]

/-! ## A new child in an inner node -/

section Cut

variable {α : Type}

/-- Two nodes and a key between them, which hold what a node holds after the insertion of a key and
the child behind it. -/
structure InsertCut (inner : Inner K α) (slot : Nat) (newkey : K) (newchild : α) (max : Nat)
    (left : Inner K α) (splitkey : K) (right : Inner K α) : Prop where
  keys : left.slotkey ++ splitkey :: right.slotkey = inner.slotkey.insertIdx slot newkey
  kids : left.childid ++ right.childid = inner.childid.insertIdx (slot + 1) newchild
  left_length : left.childid.length = left.slotkey.length + 1
  left_le : left.slotkey.length ≤ max
  right_le : right.slotkey.length ≤ max

omit [LinearOrder K] in
theorem InsertCut.right_ne {inner left right : Inner K α} {slot max : Nat} {newkey splitkey : K}
    {newchild : α} (h : InsertCut inner slot newkey newchild max left splitkey right)
    (hkids : inner.childid.length = inner.slotkey.length + 1)
    (hslot : slot ≤ inner.slotkey.length) : right.childid ≠ [] := by
  have hkeys := congrArg length h.keys
  have hlength := congrArg length h.kids
  rw [length_append, length_cons, length_insertIdx_of_le_length hslot] at hkeys
  rw [length_append, length_insertIdx_of_le_length (by omega), h.left_length] at hlength
  rw [← length_pos_iff]
  omega

/-- The halves of a node and the key between them. -/
structure Halves (inner left : Inner K α) (splitkey : K) (right : Inner K α) : Prop where
  keys : left.slotkey ++ splitkey :: right.slotkey = inner.slotkey
  kids : left.childid ++ right.childid = inner.childid
  left_length : left.childid.length = left.slotkey.length + 1

theorem split_mid_lt {slotuse : Nat} (addslot : Nat) (h : 0 < slotuse) :
    split_mid slotuse addslot < slotuse := by
  simp only [split_mid]
  split <;> omega

theorem split_inner_node_spec (p : Params K) {inner : Inner K α} (addslot : Nat)
    (hfull : 8 ≤ inner.slotkey.length)
    (hkids : inner.childid.length = inner.slotkey.length + 1) :
    ∃ left splitkey right, split_inner_node p inner addslot = some (left, splitkey, right) ∧
      Halves inner left splitkey right := by
  have hmid := split_mid_lt addslot (show 0 < inner.slotkey.length by omega)
  simp only [split_inner_node, getElem?_eq_getElem hmid, Option.bind_eq_bind, Option.bind_some]
  refine ⟨_, _, _, rfl, ⟨?_, take_append_drop _ _, ?_⟩⟩
  · rw [getElem_cons_drop, take_append_drop]
  · simp only [length_take]
    omega

theorem insert_child_full (p : Params K) {inner : Inner K α} (slot : Nat) (newkey : K)
    (newchild : α) (hfull : inner.slotkey.length = p.traits.innerslotmax)
    (hkids : inner.childid.length = inner.slotkey.length + 1) :
    ∃ left splitkey right,
      insert_child p inner slot newkey newchild = some (left, some (splitkey, right)) ∧
        InsertCut inner slot newkey newchild p.traits.innerslotmax left splitkey right := by
  have hmax := p.traits.innerslotmax_ge
  obtain ⟨left, splitkey, right, hsplit, hkeys, hkids', hleft⟩ :=
    split_inner_node_spec p slot (by omega) hkids
  have hlengths : left.slotkey.length + (right.slotkey.length + 1) = inner.slotkey.length := by
    rw [← hkeys, length_append, length_cons]
  have hright : right.childid.length = right.slotkey.length + 1 := by
    have htotal := congrArg length hkids'
    rw [length_append] at htotal
    omega
  have hlast : (left.slotkey ++ [splitkey]).length = left.slotkey.length + 1 := length_append
  have hkeys' : inner.slotkey = (left.slotkey ++ [splitkey]) ++ right.slotkey := by
    rw [← hkeys, append_assoc, singleton_append]
  simp only [insert_child, if_pos hfull, hsplit, Option.bind_eq_bind, Option.bind_some]
  by_cases hspecial : slot = left.slotkey.length + 1 ∧ left.slotkey.length < right.slotkey.length
  · -- The new key stands right behind the split key, and takes its place.
    obtain ⟨first, others, hothers⟩ := exists_cons_of_length_eq_add_one hright
    have hfirst : inner.childid = (left.childid ++ [first]) ++ others := by
      rw [← hkids', hothers, append_assoc, singleton_append]
    have hslot' : slot + 1 = (left.childid ++ [first]).length := by
      rw [length_append, length_singleton, hspecial.1, hleft]
    rw [if_pos hspecial, hothers]
    refine ⟨_, _, _, rfl, ⟨?_, ?_, ?_, ?_, ?_⟩⟩
    · rw [hkeys', hspecial.1, ← hlast, insertIdx_append]
    · rw [hfirst, hslot', insertIdx_append]
      rfl
    · simp [hleft]
    · rw [hlast]
      omega
    · change right.slotkey.length ≤ _
      omega
  · rw [if_neg hspecial]
    by_cases hge : slot ≥ left.slotkey.length + 1
    · -- The new key goes to the right node.
      rw [if_pos hge]
      refine ⟨_, _, _, rfl, ⟨?_, ?_, hleft, ?_, ?_⟩⟩
      · rw [hkeys', insertIdx_append_of_ge newkey (hlast.le.trans hge), hlast, append_assoc,
          singleton_append]
        rfl
      · rw [← hkids', insertIdx_append_of_ge newchild (by omega), hleft]
        rw [show slot + 1 - (left.slotkey.length + 1) = slot - (left.slotkey.length + 1) + 1 by
          omega]
        rfl
      · omega
      · have hsucc := length_insertIdx_le_succ (l := right.slotkey) (x := newkey)
          (i := slot - (left.slotkey.length + 1))
        change (right.slotkey.insertIdx _ newkey).length ≤ _
        omega
    · -- The new key goes to the left node.
      have hle : slot ≤ left.slotkey.length := by omega
      rw [if_neg hge]
      refine ⟨_, _, _, rfl, ⟨?_, ?_, ?_, ?_, ?_⟩⟩
      · rw [← hkeys, insertIdx_append_of_le newkey hle]
        rfl
      · rw [← hkids', insertIdx_append_of_le newchild (by omega)]
        rfl
      · change (left.childid.insertIdx (slot + 1) newchild).length =
          (left.slotkey.insertIdx slot newkey).length + 1
        rw [length_insertIdx_of_le_length (by omega), length_insertIdx_of_le_length hle, hleft]
      · change (left.slotkey.insertIdx slot newkey).length ≤ _
        rw [length_insertIdx_of_le_length hle]
        omega
      · omega

end Cut

/-! ## Below an inner node -/

section Below

variable {t : Traits} {st st' : Store K} {level : Nat}

omit [LinearOrder K] in
/-- Separators are cut where the children are. -/
theorem Separated.cut {left right : List (Node K level)} {keys keys' : List K} {splitkey : K}
    (h : Separated st level (keys ++ splitkey :: keys') (left ++ right))
    (hlength : left.length = keys.length + 1) (hright : right ≠ []) :
    Separated st level keys left ∧
      (∃ before c, left = before ++ [c] ∧ maxKey st level c = some splitkey) ∧
        Separated st level keys' right := by
  obtain ⟨before, c, rfl⟩ :=
    (eq_nil_or_concat' left).resolve_left (ne_nil_of_length_eq_add_one hlength)
  rw [length_append, length_singleton, Nat.add_right_cancel_iff] at hlength
  rw [Separated, dropLast_append_of_ne_nil hright, map_append, map_append, map_append, map_cons,
    append_assoc] at h
  obtain ⟨hleft, hrest⟩ := append_inj h (by rw [length_map, length_map, hlength])
  rw [map_singleton, singleton_append, cons.injEq] at hrest
  refine ⟨?_, ⟨before, c, rfl, hrest.1.symm⟩, hrest.2⟩
  rw [Separated, dropLast_concat]
  exact hleft

/-- The children and keys of a node after an insertion below one of them, before any cut. -/
structure Replaced (t : Traits) (st st' : Store K) (level : Nat) (inner : Inner K (Node K level))
    (kv : KeyValue K) (id : LeafId) (fresh : Option LeafId) (keys : List K)
    (kids : List (Node K level)) : Prop where
  mem : id ∈ leafIds (level + 1) inner
  touches : Touches st st' id fresh
  separated : Separated st' level keys kids
  wf : ∀ c, c ∈ kids → WF t st' level c
  ids : kids.flatMap (leafIds level) = graft id fresh (leafIds (level + 1) inner)
  items : st'.items (graft id fresh (leafIds (level + 1) inner)) =
    insertLower KeyValue.key kv (contents st (level + 1) inner)

namespace Replaced

variable {inner : Inner K (Node K level)} {kv : KeyValue K} {id : LeafId} {fresh : Option LeafId}

theorem inserted (inner' : Inner K (Node K level))
    (h : Replaced t st st' level inner kv id fresh inner'.slotkey inner'.childid)
    (hne : inner'.childid ≠ []) (hroom : inner'.slotkey.length ≤ t.innerslotmax) :
    Inserted t st st' (level + 1) inner inner' kv none id fresh where
  mem := h.mem
  touches := h.touches
  ids := (append_nil _).trans h.ids
  items := h.items
  wf := ⟨hne, hroom, h.separated, h.wf⟩
  wf_added := by
    intro k m hadded
    cases hadded

theorem inserted_cut {left right : Inner K (Node K level)} {splitkey : K}
    (h : Replaced t st st' level inner kv id fresh (left.slotkey ++ splitkey :: right.slotkey)
      (left.childid ++ right.childid))
    (hlength : left.childid.length = left.slotkey.length + 1) (hright : right.childid ≠ [])
    (hleft_le : left.slotkey.length ≤ t.innerslotmax)
    (hright_le : right.slotkey.length ≤ t.innerslotmax) :
    Inserted t st st' (level + 1) inner left kv (some (splitkey, right)) id fresh := by
  obtain ⟨hsep, ⟨before, c, heq, hmax⟩, hsep'⟩ := h.separated.cut hlength hright
  refine ⟨h.mem, h.touches, ?_, h.items, ⟨ne_nil_of_length_eq_add_one hlength, hleft_le, hsep,
    fun x hx => h.wf x (mem_append_left _ hx)⟩, ?_⟩
  · rw [← h.ids, flatMap_append]
    simp [addedIds, addedKids, leafIds]
  · intro k m hadded
    cases hadded
    have hc := h.wf c (mem_append_left _ (heq ▸ mem_append_right before mem_cons_self))
    exact ⟨⟨hright, hright_le, hsep', fun x hx => h.wf x (mem_append_right _ hx)⟩,
      (maxKey_inner heq hc).trans hmax⟩

/-- A new child next to a slot, whether its parent has to be split or not. -/
theorem insert_child (p : Params K) (node : Inner K (Node K level)) {slot : Nat} {newkey : K}
    {newchild : Node K level} (h : Replaced p.traits st st' level inner kv id fresh
      (node.slotkey.insertIdx slot newkey) (node.childid.insertIdx (slot + 1) newchild))
    (hkids : node.childid.length = node.slotkey.length + 1)
    (hslot : slot ≤ node.slotkey.length) (hroom : node.slotkey.length ≤ p.traits.innerslotmax) :
    ∃ n' added, MABTree.insert_child p node slot newkey newchild = some (n', added) ∧
      Inserted p.traits st st' (level + 1) inner n' kv added id fresh := by
  by_cases hfull : node.slotkey.length = p.traits.innerslotmax
  · obtain ⟨left, splitkey, right, hchild, hcut⟩ :=
      insert_child_full p slot newkey newchild hfull hkids
    rw [← hcut.keys, ← hcut.kids] at h
    exact ⟨left, some (splitkey, right), hchild, h.inserted_cut hcut.left_length
      (hcut.right_ne hkids hslot) hcut.left_le hcut.right_le⟩
  · refine ⟨node.put slot newkey newchild, none, if_neg hfull, inserted _ h ?_ ?_⟩
    · rw [← length_pos_iff]
      exact Nat.lt_of_lt_of_le (by omega) length_le_length_insertIdx
    · change (node.slotkey.insertIdx slot newkey).length ≤ _
      rw [length_insertIdx_of_le_length hslot]
      omega

end Replaced

/-- Nodes none of whose leaves is changed. -/
def Kept (st st' : Store K) (level : Nat) (kids : List (Node K level)) : Prop :=
  ∀ x, x ∈ kids.flatMap (leafIds level) → (st'.leaf x).slots = (st.leaf x).slots

omit [LinearOrder K] in
theorem Kept.maxKey_eq {kids : List (Node K level)} (h : Kept st st' level kids) {c : Node K level}
    (hc : c ∈ kids) : maxKey st' level c = maxKey st level c := by
  rw [maxKey, maxKey, contents, contents,
    Store.items_congr fun x hx => h x (mem_flatMap.2 ⟨c, hc, hx⟩)]

omit [LinearOrder K] in
theorem Touches.kept {id : LeafId} {fresh : Option LeafId} (h : Touches st st' id fresh)
    {kids : List (Node K level)} (hid : id ∉ kids.flatMap (leafIds level))
    (halloc : ∀ x, x ∈ kids.flatMap (leafIds level) → x < st.next) : Kept st st' level kids :=
  fun x hx => h.slots x (fun heq => hid (heq ▸ hx)) fun heq =>
    Nat.lt_irrefl _ (h.fresh_eq x heq ▸ halloc x hx)

omit [LinearOrder K] in
/-- A changed child at the head keeps the separators behind it. -/
theorem Separated.replace_head {c c' : Node K level} {after : List (Node K level)} {keys : List K}
    (h : Separated st level keys (c :: after)) (hkept : Kept st st' level after)
    (hmax : after ≠ [] → maxKey st' level c' = maxKey st level c) :
    Separated st' level keys (c' :: after) := by
  cases after with
  | nil => exact h
  | cons d after =>
      rw [Separated, dropLast_cons_cons, map_cons] at h ⊢
      rw [h, hmax (cons_ne_nil d after)]
      exact congrArg _ (map_congr_left fun x hx => (hkept.maxKey_eq (dropLast_subset _ hx)).symm)

omit [LinearOrder K] in
theorem separated_append {keys keys' : List K} {before after : List (Node K level)}
    {c : Node K level} (hlength : keys.length = before.length) :
    Separated st level (keys ++ keys') (before ++ c :: after) ↔
      keys.map some = before.map (maxKey st level) ∧ Separated st level keys' (c :: after) := by
  rw [Separated, dropLast_append_of_ne_nil (cons_ne_nil c after), map_append, map_append]
  constructor
  · intro h
    exact append_inj h (by rw [length_map, length_map, hlength])
  · rintro ⟨hkeys, hrest⟩
    rw [hkeys, show keys'.map some = _ from hrest]

section Child

variable {inner : Inner K (Node K level)} {kv : KeyValue K} {id : LeafId} {fresh : Option LeafId}
  {before after : List (Node K level)} {c c' : Node K level} {added : Added K (Node K level)}

/-- The keys of a node, cut at the child around the lower bound. -/
theorem Around.separated {key : K} (h : Around st level key inner.childid before c after)
    (hwf : WF t st (level + 1) inner) :
    (inner.slotkey.take before.length).length = before.length ∧
      (inner.slotkey.take before.length).map some = before.map (maxKey st level) ∧
        Separated st level (inner.slotkey.drop before.length) (c :: after) := by
  have hsep := hwf.2.2.1
  have hlength := hsep.length_eq hwf.1
  rw [h.eq, length_append, length_cons] at hlength
  have htake : (inner.slotkey.take before.length).length = before.length := by
    rw [length_take]
    omega
  rw [← take_append_drop before.length inner.slotkey, h.eq, separated_append htake] at hsep
  exact ⟨htake, hsep⟩

/-- An insertion into the child around the lower bound is one into the node. -/
theorem Inserted.replaced (h : Inserted t st st' level c c' kv added id fresh)
    (hwf : WF t st (level + 1) inner) (hnodup : (leafIds (level + 1) inner).Nodup)
    (halloc : ∀ x, x ∈ leafIds (level + 1) inner → x < st.next)
    (haround : Around st level kv.key inner.childid before c after) {keys : List K}
    (hsep : Kept st st' level before → Kept st st' level after →
      Separated st' level keys (before ++ c' :: (addedKids added ++ after))) :
    Replaced t st st' level inner kv id fresh keys
      (before ++ c' :: (addedKids added ++ after)) := by
  have hleaves : leafIds (level + 1) inner = before.flatMap (leafIds level) ++
      (leafIds level c ++ after.flatMap (leafIds level)) := by
    rw [leafIds, haround.eq, flatMap_append, flatMap_cons]
  rw [hleaves] at hnodup halloc
  obtain ⟨-, hnodup', hbefore⟩ := nodup_append.1 hnodup
  -- The changed leaf is below the child, so its siblings are kept.
  have hnot : id ∉ before.flatMap (leafIds level) := fun hmem =>
    hbefore id hmem id (mem_append_left _ h.mem) rfl
  have hnot' : id ∉ after.flatMap (leafIds level) := fun hmem =>
    (nodup_append.1 hnodup').2.2 id h.mem id hmem rfl
  have hkept := h.touches.kept hnot fun x hx => halloc x (mem_append_left _ hx)
  have hkept' := h.touches.kept hnot' fun x hx =>
    halloc x (mem_append_right _ (mem_append_right _ hx))
  have hgraft : graft id fresh (leafIds (level + 1) inner) = before.flatMap (leafIds level) ++
      (graft id fresh (leafIds level c) ++ after.flatMap (leafIds level)) := by
    rw [hleaves, graft_append, graft_append, graft_of_not_mem hnot, graft_of_not_mem hnot']
  refine ⟨?_, h.touches, hsep hkept hkept', ?_, ?_, ?_⟩
  · rw [hleaves]
    exact mem_append_right _ (mem_append_left _ h.mem)
  · have hold : ∀ kids, Kept st st' level kids → ∀ x, x ∈ kids → x ∈ inner.childid →
        WF t st' level x := fun kids hkept x hx hmem =>
      (hwf.2.2.2 x hmem).congr fun y hy => hkept y (mem_flatMap.2 ⟨x, hx, hy⟩)
    intro x hx
    rcases mem_append.1 hx with hx | hx
    · exact hold before hkept x hx (haround.eq ▸ mem_append_left _ hx)
    rcases mem_cons.1 hx with rfl | hx
    · exact h.wf
    rcases mem_append.1 hx with hx | hx
    · obtain ⟨⟨k, m⟩, hadded, rfl⟩ := Option.map_eq_some_iff.1 (Option.mem_toList.1 hx)
      exact (h.wf_added k m hadded).1
    · exact hold after hkept' x hx (haround.eq ▸ mem_append_right _ (mem_cons_of_mem c hx))
  · rw [hgraft, ← h.ids]
    simp [addedIds]
  · rw [hgraft, Store.items_append, Store.items_append, h.items, Store.items_congr hkept,
      Store.items_congr hkept', items_flatMap_leafIds, items_flatMap_leafIds, contents_inner,
      haround.eq, flatMap_append, flatMap_cons, insertLower_append_of_lt haround.lt]
    rcases haround.le with rfl | hle
    · simp
    · rw [insertLower_append_of_le hle]

theorem Inserted.contents_eq (h : Inserted t st st' level c c' kv added id fresh) :
    contents st' level c' ++ (addedKids added).flatMap (contents st' level) =
      insertLower KeyValue.key kv (contents st level c) := by
  rw [← h.items, ← h.ids, Store.items_append, addedIds, items_flatMap_leafIds, contents]

/-- The largest key stays at the end, if there was one that reaches the new key. -/
theorem Inserted.maxKey_eq (h : Inserted t st st' level c c' kv none id fresh)
    (hle : ∃ x, x ∈ contents st level c ∧ kv.key ≤ x.key) :
    maxKey st' level c' = maxKey st level c := by
  have heq := h.contents_eq
  rw [show addedKids (none : Added K (Node K level)) = [] from rfl, flatMap_nil, append_nil] at heq
  rw [maxKey, heq, getLast?_insertLower hle, maxKey]

theorem Inserted.maxKey_added {k : K} {m : Node K level}
    (h : Inserted t st st' level c c' kv (some (k, m)) id fresh)
    (hle : ∃ x, x ∈ contents st level c ∧ kv.key ≤ x.key) :
    maxKey st' level m = maxKey st level c := by
  have heq := h.contents_eq
  rw [show addedKids (some (k, m)) = [m] from rfl, flatMap_singleton] at heq
  have hlast := getLast?_insertLower hle
  rw [← heq, getLast?_append_of_ne_nil _ (h.wf_added k m rfl).1.contents_ne_nil] at hlast
  rw [maxKey, hlast, maxKey]

/-- A child that stays one node. -/
theorem Inserted.replaced_none (h : Inserted t st st' level c c' kv none id fresh)
    (hwf : WF t st (level + 1) inner) (hnodup : (leafIds (level + 1) inner).Nodup)
    (halloc : ∀ x, x ∈ leafIds (level + 1) inner → x < st.next)
    (haround : Around st level kv.key inner.childid before c after) :
    Replaced t st st' level inner kv id fresh inner.slotkey (before ++ c' :: after) := by
  refine h.replaced hwf hnodup halloc haround fun hkept hkept' => ?_
  obtain ⟨htake, hkeys, hrest⟩ := haround.separated hwf
  rw [← take_append_drop before.length inner.slotkey, separated_append htake, hkeys]
  refine ⟨map_congr_left fun x hx => (hkept.maxKey_eq hx).symm,
    hrest.replace_head hkept' fun hne => ?_⟩
  exact h.maxKey_eq (haround.le.resolve_left hne)

/-- A child that is split into two. -/
theorem Inserted.replaced_some {k : K} {m : Node K level}
    (h : Inserted t st st' level c c' kv (some (k, m)) id fresh)
    (hwf : WF t st (level + 1) inner) (hnodup : (leafIds (level + 1) inner).Nodup)
    (halloc : ∀ x, x ∈ leafIds (level + 1) inner → x < st.next)
    (haround : Around st level kv.key inner.childid before c after) :
    Replaced t st st' level inner kv id fresh (inner.slotkey.insertIdx before.length k)
      (before ++ c' :: m :: after) := by
  refine h.replaced hwf hnodup halloc haround fun hkept hkept' => ?_
  obtain ⟨htake, hkeys, hbehind⟩ := haround.separated hwf
  have hinsert := insertIdx_append k (inner.slotkey.take before.length)
    (inner.slotkey.drop before.length)
  rw [htake, take_append_drop] at hinsert
  rw [hinsert, separated_append htake, hkeys]
  refine ⟨map_congr_left fun x hx => (hkept.maxKey_eq hx).symm, ?_⟩
  have hrest : Separated st' level (inner.slotkey.drop before.length) (m :: after) :=
    hbehind.replace_head hkept' fun hne => h.maxKey_added (haround.le.resolve_left hne)
  change (k :: inner.slotkey.drop before.length).map some =
    (c' :: m :: after).dropLast.map (maxKey st' level)
  rw [dropLast_cons_cons, map_cons, map_cons, (h.wf_added k m rfl).2,
    show (inner.slotkey.drop before.length).map some = _ from hrest]

end Child

end Below

/-! ## The whole tree -/

section Whole

variable {st : Store K} {kv : KeyValue K}

/-- What a node has to satisfy for an insertion below it. -/
structure Ready (t : Traits) (st : Store K) (level : Nat) (n : Node K level) : Prop where
  wf : WF t st level n
  sorted : Ascends KeyValue.key (contents st level n)
  nodup : (leafIds level n).Nodup
  allocated : ∀ id, id ∈ leafIds level n → id < st.next

omit [LinearOrder K] in
theorem leafIds_sublist {level : Nat} {inner : Inner K (Node K level)} {c : Node K level}
    (hc : c ∈ inner.childid) : leafIds level c <+ leafIds (level + 1) inner := by
  obtain ⟨before, after, heq⟩ := append_of_mem hc
  rw [leafIds, heq, flatMap_append, flatMap_cons]
  exact (sublist_append_left _ _).trans (sublist_append_right _ _)

theorem Ready.child {t : Traits} {level : Nat} {inner : Inner K (Node K level)}
    (h : Ready t st (level + 1) inner) {c : Node K level} (hc : c ∈ inner.childid) :
    Ready t st level c := by
  have hsub := leafIds_sublist hc
  refine ⟨h.wf.2.2.2 c hc, h.sorted.sublist ?_, h.nodup.sublist hsub,
    fun id hid => h.allocated id (hsub.subset hid)⟩
  exact hsub.flatMap _

theorem insert_descend_spec (p : Params K) (kv : KeyValue K) : ∀ {level : Nat} {n : Node K level}
    (lo_key hi_key : Option K), Ready p.traits st level n →
      ∃ n' added st' id fresh,
        insert_descend p kv level n lo_key hi_key st = some (n', added, st') ∧
          Inserted p.traits st st' level n n' kv added id fresh
  | 0, id, lo_key, hi_key, h => by
      have hsorted := h.sorted
      rw [contents, leafIds, Store.items, flatMap_cons, flatMap_nil, append_nil] at hsorted
      obtain ⟨added, st', fresh, hinsert, hspec⟩ := insert_leaf_spec p kv lo_key hi_key
        (h.allocated id mem_cons_self) hsorted h.wf.2
      refine ⟨id, added, st', id, fresh, ?_, hspec⟩
      simp only [insert_descend, hinsert, Option.bind_eq_bind, Option.bind_some]
      rfl
  | level + 1, inner, lo_key, hi_key, h => by
      obtain ⟨before, c, after, haround, hslot⟩ :=
        exists_child p h.wf h.sorted kv.key lo_key hi_key
      have hc : c ∈ inner.childid := haround.eq ▸ mem_append_right _ mem_cons_self
      have hget : inner.childid[before.length]? = some c := by
        rw [haround.eq, getElem?_append_right le_rfl, Nat.sub_self]
        rfl
      obtain ⟨c', added, st', id, fresh, hinsert, hspec⟩ := insert_descend_spec p kv
        (child_lo inner.slotkey before.length) (child_hi inner.slotkey before.length) (h.child hc)
      have hset : inner.childid.set before.length c' = before ++ c' :: after := by
        simp [haround.eq]
      simp only [insert_descend, hslot, hget, hinsert, hset, Option.bind_eq_bind, Option.bind_some]
      -- A split below puts a key and a node into this one.
      cases added with
      | none =>
          have hreplaced := hspec.replaced_none h.wf h.nodup h.allocated haround
          exact ⟨_, none, st', id, fresh, rfl, Replaced.inserted
            ⟨inner.midp_err, inner.slotkey, before ++ c' :: after⟩ hreplaced (by simp) h.wf.2.1⟩
      | some km =>
          obtain ⟨k, m⟩ := km
          have hreplaced := hspec.replaced_some h.wf h.nodup h.allocated haround
          have hinsert : (before ++ c' :: after).insertIdx (before.length + 1) m =
              before ++ c' :: m :: after := by
            rw [insertIdx_append_of_ge m (Nat.le_succ _), Nat.succ_sub le_rfl, Nat.sub_self]
            rfl
          have hlength : (before ++ c' :: after).length = inner.slotkey.length + 1 := by
            rw [← h.wf.2.2.1.length_eq h.wf.1, haround.eq]
            simp
          have hslot_le : before.length ≤ inner.slotkey.length := by
            rw [length_append, length_cons] at hlength
            omega
          rw [← hinsert] at hreplaced
          obtain ⟨n', added, hchild, hinserted⟩ := Replaced.insert_child p
            ⟨inner.midp_err, inner.slotkey, before ++ c' :: after⟩ hreplaced hlength
            hslot_le h.wf.2.1
          exact ⟨n', added, st', id, fresh, by simp [hchild], hinserted⟩

/-- A new root over the halves of the old one. -/
theorem Inserted.holds {t : Traits} {st' : Store K} {level : Nat} {n n' : Node K level}
    {added : Added K (Node K level)} {id : LeafId} {fresh : Option LeafId}
    (h : Inserted t st st' level n n' kv added id fresh) (hchain : Chain st (leafIds level n))
    (hsorted : Ascends KeyValue.key (contents st level n)) :
    Holds t { root := some (new_root level n' added), store := st' }
      (insertLower KeyValue.key kv (contents st level n)) := by
  have hchain' := h.touches.chain _ hchain h.mem
  have hids := h.ids
  have hitems := h.items
  rw [← hids] at hchain' hitems
  cases added with
  | none =>
      rw [show addedIds level none = [] from rfl, append_nil] at hchain' hitems
      refine ⟨hchain', hitems, insertLower_ascends hsorted, fun level' m hroot => ?_⟩
      cases hroot
      exact h.wf
  | some km =>
      obtain ⟨k, m⟩ := km
      obtain ⟨hwf, hmax⟩ := h.wf_added k m rfl
      refine ⟨hchain', hitems, insertLower_ascends hsorted, fun level' root hroot => ?_⟩
      cases hroot
      refine ⟨cons_ne_nil _ _, Nat.le_trans (show 1 ≤ 8 by decide) t.innerslotmax_ge, ?_,
        fun c hc => ?_⟩
      · exact congrArg (fun max => [max]) hmax.symm
      · rcases mem_pair.1 hc with rfl | rfl
        · exact h.wf
        · exact hwf

omit [LinearOrder K] in
/-- The first leaf of an empty tree. -/
theorem chain_first_leaf (st : Store K) : Chain st.first_leaf.2 [st.next] := by
  have hleaf : st.first_leaf.2.leaf st.next = ⟨0, [], none, none⟩ := leaf_allocate_leaf st
  refine chain_singleton rfl rfl ?_ (Nat.lt_succ_self _)
  rw [hleaf]
  exact ⟨rfl, rfl⟩

theorem insert_start_spec (p : Params K) {tree : Tree K} {xs : List (KeyValue K)}
    (h : Holds p.traits tree xs) (kv : KeyValue K) :
    ∃ tree', insert_start p tree kv = some tree' ∧
      Holds p.traits tree' (insertLower KeyValue.key kv xs) := by
  obtain ⟨root, st⟩ := tree
  obtain ⟨hchain, hitems, hsorted, hwf⟩ := h
  subst hitems
  cases root with
  | none =>
      -- The first leaf is empty before the insertion.
      have hchain' := chain_first_leaf st
      have hempty : (st.first_leaf.2.leaf st.next).slots = [] :=
        congrArg Leaf.slots (leaf_allocate_leaf st)
      have hcontents : contents st.first_leaf.2 0 st.next = [] := by
        rw [contents, leafIds, Store.items, flatMap_singleton, hempty]
      obtain ⟨added, st', fresh, hinsert, hspec⟩ := insert_leaf_spec p kv none none
        (hchain'.allocated st.next mem_cons_self) (hempty ▸ Pairwise.nil) (hempty ▸ Nat.zero_le _)
      have hholds := hspec.holds hchain' (hcontents ▸ Pairwise.nil)
      rw [hcontents] at hholds
      refine ⟨⟨some (new_root 0 st.next added), st'⟩, ?_, hholds⟩
      simp only [insert_start, insert_descend, show st.first_leaf.1 = st.next from rfl, hinsert,
        Option.bind_eq_bind, Option.bind_some]
      rfl
  | some root =>
      obtain ⟨level, n⟩ := root
      have hready : Ready p.traits st level n :=
        ⟨hwf level n rfl, hsorted, hchain.nodup, hchain.allocated⟩
      obtain ⟨n', added, st', id, fresh, hinsert, hspec⟩ :=
        insert_descend_spec p kv none none hready
      refine ⟨⟨some (new_root level n' added), st'⟩, ?_, hspec.holds hchain hready.sorted⟩
      simp only [insert_start, hinsert, Option.bind_eq_bind, Option.bind_some]
      rfl

end Whole

end MABTree
end TLI
