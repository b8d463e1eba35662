import TLI.Competitors.MABTree.Filled

/-!
# Rebalance — two siblings, one of which underflows

Either their slots fit into one node, and the right one is unlinked, or the slots are divided anew.
Both keep what the two nodes hold, and the leaf chain around them.
-/

namespace TLI
namespace MABTree

open List LowerBound

variable {K : Type}

/-! ## A leaf that is unlinked -/

/-- The links around a leaf lead past it, to its predecessor. -/
structure Unlinked (st st' : Store K) (left right : LeafId) : Prop where
  head : st'.headleaf = st.headleaf
  tail : st'.tailleaf = if (st.leaf right).nextleaf = none then some left else st.tailleaf
  next : st'.next = st.next
  prevleaf : ∀ x, x ≠ right → (st'.leaf x).prevleaf =
    if (st.leaf right).nextleaf = some x then some left else (st.leaf x).prevleaf
  nextleaf : ∀ x, x ≠ right → (st'.leaf x).nextleaf =
    if x = left then (st.leaf right).nextleaf else (st.leaf x).nextleaf

namespace Unlinked

variable {st st' : Store K} {left right : LeafId} {before after : List LeafId}

theorem linked_before (h : Unlinked st st' left right)
    (hchain : Chain st (before ++ left :: right :: after)) {front back : List LeafId} {x : LeafId}
    (hfront : before = front ++ x :: back) :
    (st'.leaf x).prevleaf = front.getLast? ∧
      (st'.leaf x).nextleaf = (back ++ left :: after).head? := by
  have hmem : x ∈ before := hfront ▸ mem_append_right front mem_cons_self
  have hapart := (nodup_append.1 hchain.nodup).2.2 x hmem
  have hleft : x ≠ left := hapart left mem_cons_self
  have hright : x ≠ right := hapart right (mem_cons_of_mem left mem_cons_self)
  have hnotnext : (st.leaf right).nextleaf ≠ some x := by
    rw [(hchain.linked (before ++ [left]) right after (by simp)).2]
    intro hhead
    exact hapart x (mem_cons_of_mem left (mem_cons_of_mem right (mem_of_mem_head? hhead))) rfl
  obtain ⟨hprev, hnext⟩ := hchain.linked front x (back ++ left :: right :: after) (by
    rw [hfront, append_assoc, cons_append])
  rw [h.prevleaf x hright, if_neg hnotnext, h.nextleaf x hright, if_neg hleft, hprev, hnext]
  cases back <;> exact ⟨rfl, rfl⟩

theorem linked_after (h : Unlinked st st' left right)
    (hchain : Chain st (before ++ left :: right :: after)) {front back : List LeafId} {x : LeafId}
    (hback : after = front ++ x :: back) :
    (st'.leaf x).prevleaf = (before ++ left :: front).getLast? ∧
      (st'.leaf x).nextleaf = back.head? := by
  have hmem : x ∈ after := hback ▸ mem_append_right front mem_cons_self
  have hnodup := (nodup_append.1 hchain.nodup).2.1
  rw [nodup_cons, nodup_cons] at hnodup
  have hleft : x ≠ left := fun heq => hnodup.1 (heq ▸ mem_cons_of_mem right hmem)
  have hright : x ≠ right := fun heq => hnodup.2.1 (heq ▸ hmem)
  obtain ⟨hprev, hnext⟩ := hchain.linked (before ++ left :: right :: front) x back (by
    simp [hback])
  have hsucc := (hchain.linked (before ++ [left]) right after (by simp)).2
  rw [h.prevleaf x hright, h.nextleaf x hright, if_neg hleft, hnext, hsucc, hback]
  refine ⟨?_, rfl⟩
  cases front with
  | nil => simp
  | cons y front =>
      -- The successor of `right` comes before `x`.
      have hyx : y ≠ x := by
        rintro rfl
        rw [hback, cons_append, nodup_cons] at hnodup
        exact hnodup.2.2.1 (mem_append_right _ mem_cons_self)
      rw [head?_append, head?_cons, Option.some_or, if_neg (by simpa using hyx), hprev]
      simp

theorem linked (h : Unlinked st st' left right)
    (hchain : Chain st (before ++ left :: right :: after)) :
    Linked st' (before ++ left :: after) := by
  obtain ⟨hprev, -⟩ := hchain.linked before left (right :: after) rfl
  have hsucc := (hchain.linked (before ++ [left]) right after (by simp)).2
  have hnodup := (nodup_append.1 hchain.nodup).2.1
  rw [nodup_cons, nodup_cons] at hnodup
  have hne : left ≠ right := fun heq => hnodup.1 (heq ▸ mem_cons_self)
  have hnotnext : (st.leaf right).nextleaf ≠ some left := by
    rw [hsucc]
    exact fun hhead => hnodup.1 (mem_cons_of_mem right (mem_of_mem_head? hhead))
  have hid : (st'.leaf left).prevleaf = before.getLast? ∧
      (st'.leaf left).nextleaf = after.head? := by
    rw [h.prevleaf left hne, if_neg hnotnext, h.nextleaf left hne, if_pos rfl]
    exact ⟨hprev, hsucc⟩
  intro front x back heq
  rcases append_eq_append_iff.1 heq with ⟨mid, rfl, hmid⟩ | ⟨mid, hmid, hrest⟩
  · cases mid with
    | nil =>
        rw [nil_append, cons.injEq] at hmid
        obtain ⟨rfl, rfl⟩ := hmid
        rw [append_nil]
        exact hid
    | cons y mid =>
        rw [cons_append, cons.injEq] at hmid
        obtain ⟨rfl, hmid⟩ := hmid
        exact h.linked_after hchain hmid
  · cases mid with
    | nil =>
        rw [nil_append, cons.injEq] at hrest
        obtain ⟨rfl, rfl⟩ := hrest
        rw [append_nil] at hmid
        rw [← hmid]
        exact hid
    | cons y mid =>
        rw [cons_append, cons.injEq] at hrest
        obtain ⟨rfl, rfl⟩ := hrest
        exact h.linked_before hchain hmid

theorem chain (h : Unlinked st st' left right)
    (hchain : Chain st (before ++ left :: right :: after)) :
    Chain st' (before ++ left :: after) := by
  have hsucc := (hchain.linked (before ++ [left]) right after (by simp)).2
  have hsub : before ++ left :: after <+ before ++ left :: right :: after :=
    ((sublist_cons_self right after).cons_cons left).append_left before
  refine ⟨?_, ?_, h.linked hchain, hchain.nodup.sublist hsub, fun x hx => ?_⟩
  · rw [h.head, hchain.head]
    cases before <;> rfl
  · rw [h.tail, hsucc, hchain.tail]
    cases after with
    | nil => simp
    | cons y after => simp
  · rw [h.next]
    exact hchain.allocated x (hsub.subset hx)

end Unlinked

section Leaves

variable {t : Traits} {st : Store K} {left right : LeafId}

/-- The right leaf of two is empty, and its slots stand behind those of the left one. -/
structure MergedLeaves (st st' : Store K) (left right : LeafId) : Prop where
  unlinked : Unlinked st st' left right
  slots_left : (st'.leaf left).slots = (st.leaf left).slots ++ (st.leaf right).slots
  slots_right : (st'.leaf right).slots = []
  slots_others : ∀ x, x ≠ left → x ≠ right → (st'.leaf x).slots = (st.leaf x).slots

theorem merge_leaves_spec (hne : left ≠ right)
    (hroom : (st.leaf left).slots.length + (st.leaf right).slots.length < t.leafslotmax) :
    ∃ st', st.merge_leaves t left right = some st' ∧ MergedLeaves st st' left right := by
  obtain ⟨merged, heq, hslots, hprev, hnext⟩ : ∃ merged,
      st.merge_leaves t left right =
        some (((st.set left merged).relink (st.leaf right).nextleaf left).set right
          { ((st.set left merged).relink (st.leaf right).nextleaf left).leaf right with
            slots := [] }) ∧
        merged.slots = (st.leaf left).slots ++ (st.leaf right).slots ∧
          merged.prevleaf = (st.leaf left).prevleaf ∧
            merged.nextleaf = (st.leaf right).nextleaf :=
    ⟨_, if_pos hroom, rfl, rfl, rfl⟩
  refine ⟨_, heq, ⟨?_, ?_, ?_, fun x hx => ?_, fun x hx => ?_⟩, ?_, ?_, fun x hx hx' => ?_⟩
  · cases (st.leaf right).nextleaf <;> rfl
  · cases (st.leaf right).nextleaf <;> rfl
  · cases (st.leaf right).nextleaf <;> rfl
  · have hold : ((st.set left merged).leaf x).prevleaf = (st.leaf x).prevleaf := by
      by_cases hxl : x = left
      · rw [hxl, Store.leaf_set_self, hprev]
      · rw [Store.leaf_set_of_ne st hxl]
    rw [Store.leaf_set_of_ne _ hx, relink_leaf]
    split
    · rfl
    · exact hold
  · have hnew : ((st.set left merged).leaf x).nextleaf =
        if x = left then (st.leaf right).nextleaf else (st.leaf x).nextleaf := by
      by_cases hxl : x = left
      · rw [if_pos hxl, hxl, Store.leaf_set_self, hnext]
      · rw [if_neg hxl, Store.leaf_set_of_ne st hxl]
    rw [Store.leaf_set_of_ne _ hx, relink_leaf]
    split <;> exact hnew
  · rw [Store.leaf_set_of_ne _ hne, relink_leaf, Store.leaf_set_self]
    split <;> exact hslots
  · rw [Store.leaf_set_self]
  · rw [Store.leaf_set_of_ne _ hx', relink_leaf, Store.leaf_set_of_ne st hx]
    split <;> rfl

/-- Two leaves with new slots, in their old places. -/
structure DividedLeaves (st st' : Store K) (left right : LeafId)
    (leftslots rightslots : List (KeyValue K)) : Prop where
  chain : ∀ ids, Chain st ids → Chain st' ids
  slots_left : (st'.leaf left).slots = leftslots
  slots_right : (st'.leaf right).slots = rightslots
  slots_others : ∀ x, x ≠ left → x ≠ right → (st'.leaf x).slots = (st.leaf x).slots

theorem divide_spec (hne : left ≠ right) {leftslots : List (KeyValue K)}
    (rightslots : List (KeyValue K)) (hslots : leftslots ≠ []) :
    ∃ last st', st.divide left right leftslots rightslots = some (last.key, st') ∧
      leftslots.getLast? = some last ∧
        DividedLeaves st st' left right leftslots rightslots := by
  obtain ⟨last, hlast⟩ := Option.isSome_iff_exists.1 (getLast?_isSome.2 hslots)
  refine ⟨last, _, ?_, hlast, ⟨fun ids h => (h.set_slots left leftslots).set_slots right
    rightslots, ?_, ?_, fun x hx hx' => ?_⟩⟩
  · simp only [Store.divide, hlast, Option.bind_eq_bind, Option.bind_some]
    rfl
  · rw [Store.leaf_set_of_ne _ hne, Store.leaf_set_self]
  · rw [Store.leaf_set_self]
  · rw [Store.leaf_set_of_ne _ hx', Store.leaf_set_of_ne _ hx]

end Leaves

/-! ## Two siblings -/

section Siblings

variable {t : Traits} {level : Nat} {before after : List LeafId}

/-- Two nodes next to each other in the chain, with the key between them. -/
structure Siblings (t : Traits) (before after : List LeafId) (pair : Pair K level) : Prop where
  wf_left : WF t pair.st level pair.left
  wf_right : WF t pair.st level pair.right
  filled_left : Filled t pair.st level pair.left
  filled_right : Filled t pair.st level pair.right
  key : maxKey pair.st level pair.left = some pair.key
  chain : Chain pair.st (before ++ (leafIds level pair.left ++ leafIds level pair.right) ++ after)

/-- What the two hold is below the left one. -/
structure Merged (t : Traits) (before after : List LeafId) (pair pair' : Pair K level) : Prop where
  kept : ∀ x, x ∉ leafIds level pair.left ++ leafIds level pair.right →
    (pair'.st.leaf x).slots = (pair.st.leaf x).slots
  ids : leafIds level pair'.left <+ leafIds level pair.left ++ leafIds level pair.right
  chain : Chain pair'.st (before ++ leafIds level pair'.left ++ after)
  contents : contents pair'.st level pair'.left =
    contents pair.st level pair.left ++ contents pair.st level pair.right
  wf : WF t pair'.st level pair'.left
  filled : Filled t pair'.st level pair'.left
  min_le : t.minslots level ≤ slotuse pair'.st level pair'.left
  right_empty : slotuse pair'.st level pair'.right = 0

/-- What the two hold is divided anew. -/
structure Divided (t : Traits) (before after : List LeafId) (pair pair' : Pair K level) :
    Prop where
  kept : ∀ x, x ∉ leafIds level pair.left ++ leafIds level pair.right →
    (pair'.st.leaf x).slots = (pair.st.leaf x).slots
  ids : leafIds level pair'.left ++ leafIds level pair'.right =
    leafIds level pair.left ++ leafIds level pair.right
  contents : contents pair'.st level pair'.left ++ contents pair'.st level pair'.right =
    contents pair.st level pair.left ++ contents pair.st level pair.right
  siblings : Siblings t before after pair'
  min_le_left : t.minslots level ≤ slotuse pair'.st level pair'.left
  min_le_right : t.minslots level ≤ slotuse pair'.st level pair'.right

theorem Siblings.leaves_ne {left right : LeafId} {key : K} {st : Store K}
    (h : Siblings t before after (⟨left, key, right, st⟩ : Pair K 0)) : left ≠ right := by
  have hnodup := (nodup_append.1 (nodup_append.1 h.chain.nodup).1).2.1
  intro heq
  exact (nodup_cons.1 hnodup).1 (heq ▸ mem_singleton_self right)

theorem contents_leaf (st : Store K) (id : LeafId) : contents st 0 id = (st.leaf id).slots := by
  rw [contents, leafIds, Store.items, flatMap_singleton]

/-! ### Leaves -/

section Leaves

variable {left right : LeafId} {key : K} {st : Store K}

theorem merge_leaf_spec (h : Siblings t before after (⟨left, key, right, st⟩ : Pair K 0))
    (hsum : slotuse st 0 left + slotuse st 0 right + 1 = 2 * t.minslots 0) :
    ∃ pair', Pair.merge t (⟨left, key, right, st⟩ : Pair K 0) = some pair' ∧
      Merged t before after ⟨left, key, right, st⟩ pair' := by
  have hmin : t.minslots 0 = t.leafslotmax / 2 := rfl
  have hlengths : (st.leaf left).slots.length + (st.leaf right).slots.length + 1 =
      2 * t.minslots 0 := hsum
  have hroom : (st.leaf left).slots.length + (st.leaf right).slots.length < t.leafslotmax := by
    omega
  obtain ⟨st', hmerge, hmerged⟩ := merge_leaves_spec h.leaves_ne hroom
  have hlength : slotuse st' 0 left =
      (st.leaf left).slots.length + (st.leaf right).slots.length := by
    rw [slotuse, hmerged.slots_left, length_append]
  refine ⟨⟨left, key, right, st'⟩, ?_, ⟨fun x hx => ?_, ?_, ?_, ?_, ⟨?_, ?_⟩, trivial, ?_, ?_⟩⟩
  · simp only [Pair.merge, hmerge, Option.bind_eq_bind, Option.bind_some]
    rfl
  · refine hmerged.slots_others x (fun heq => hx ?_) fun heq => hx ?_
    · exact mem_append_left _ (heq ▸ mem_singleton_self x)
    · exact mem_append_right _ (heq ▸ mem_singleton_self x)
  · exact sublist_append_left _ _
  · have hchain := h.chain
    rw [append_assoc] at hchain ⊢
    exact hmerged.unlinked.chain hchain
  · rw [contents_leaf, contents_leaf, contents_leaf, hmerged.slots_left]
  · rw [hmerged.slots_left]
    exact append_ne_nil_of_left_ne_nil h.wf_left.1 _
  · change slotuse st' 0 left ≤ _
    omega
  · change _ ≤ slotuse st' 0 left
    omega
  · rw [slotuse, hmerged.slots_right, length_nil]

/-- Leaves with at least the minimal number of slots each. -/
theorem divide_leaf_spec (h : Siblings t before after (⟨left, key, right, st⟩ : Pair K 0))
    (leftslots rightslots : List (KeyValue K))
    (hslots : leftslots ++ rightslots = (st.leaf left).slots ++ (st.leaf right).slots)
    (hleft : t.minslots 0 ≤ leftslots.length ∧ leftslots.length ≤ t.leafslotmax)
    (hright : t.minslots 0 ≤ rightslots.length ∧ rightslots.length ≤ t.leafslotmax) :
    ∃ last st', st.divide left right leftslots rightslots = some (last, st') ∧
      Divided t before after (⟨left, key, right, st⟩ : Pair K 0) ⟨left, last, right, st'⟩ := by
  have hmin := t.minslots_bounds 0
  have hne : leftslots ≠ [] := length_pos_iff.1 (by omega)
  have hne' : rightslots ≠ [] := length_pos_iff.1 (by omega)
  obtain ⟨last, st', hdivide, hlast, hchain, hleft', hright', hothers⟩ :=
    divide_spec h.leaves_ne rightslots hne
  refine ⟨last.key, st', hdivide, ⟨fun x hx => ?_, rfl, ?_,
    ⟨⟨?_, ?_⟩, ⟨?_, ?_⟩, trivial, trivial, ?_, hchain _ h.chain⟩, ?_, ?_⟩⟩
  · refine hothers x (fun heq => hx ?_) fun heq => hx ?_
    · exact mem_append_left _ (heq ▸ mem_singleton_self x)
    · exact mem_append_right _ (heq ▸ mem_singleton_self x)
  · rw [contents_leaf, contents_leaf, contents_leaf, contents_leaf, hleft', hright', hslots]
  · rw [hleft']
    exact hne
  · rw [hleft']
    exact hleft.2
  · rw [hright']
    exact hne'
  · rw [hright']
    exact hright.2
  · rw [maxKey, contents_leaf, hleft', hlast, Option.map_some]
  · rw [slotuse, hleft']
    exact hleft.1
  · rw [slotuse, hright']
    exact hright.1

theorem Siblings.linked (h : Siblings t before after (⟨left, key, right, st⟩ : Pair K 0)) :
    (st.leaf left).nextleaf = some right ∧ (st.leaf right).prevleaf = some left := by
  have hchain := h.chain.linked
  constructor
  · exact (hchain before left (right :: after) (append_assoc _ _ _)).2
  · rw [(hchain (before ++ [left]) right after (by simp [leafIds])).1]
    simp

theorem shift_left_leaf_spec (h : Siblings t before after (⟨left, key, right, st⟩ : Pair K 0))
    (hfew : slotuse st 0 left + 1 = t.minslots 0) (hmany : t.minslots 0 < slotuse st 0 right) :
    ∃ pair', Pair.shift_left t (⟨left, key, right, st⟩ : Pair K 0) = some pair' ∧
      Divided t before after ⟨left, key, right, st⟩ pair' := by
  have hmin : t.minslots 0 = t.leafslotmax / 2 := rfl
  have hmax : (st.leaf right).slots.length ≤ t.leafslotmax := h.wf_right.2
  simp only [slotuse] at hfew hmany
  obtain ⟨last, st', hdivide, hdivided⟩ := divide_leaf_spec h
    ((st.leaf left).slots ++ (st.leaf right).slots.take
      (((st.leaf right).slots.length - (st.leaf left).slots.length) / 2))
    ((st.leaf right).slots.drop
      (((st.leaf right).slots.length - (st.leaf left).slots.length) / 2))
    (by rw [append_assoc, take_append_drop])
    (by rw [length_append, length_take]; omega) (by rw [length_drop]; omega)
  refine ⟨_, ?_, hdivided⟩
  simp only [Pair.shift_left, Store.shift_left_leaf]
  rw [if_pos ⟨h.linked.1, h.linked.2, by omega, by omega⟩, hdivide]
  rfl

theorem shift_right_leaf_spec (h : Siblings t before after (⟨left, key, right, st⟩ : Pair K 0))
    (hmany : t.minslots 0 < slotuse st 0 left) (hfew : slotuse st 0 right + 1 = t.minslots 0) :
    ∃ pair', Pair.shift_right t (⟨left, key, right, st⟩ : Pair K 0) = some pair' ∧
      Divided t before after ⟨left, key, right, st⟩ pair' := by
  have hmin : t.minslots 0 = t.leafslotmax / 2 := rfl
  have hmax : (st.leaf left).slots.length ≤ t.leafslotmax := h.wf_left.2
  simp only [slotuse] at hfew hmany
  obtain ⟨last, st', hdivide, hdivided⟩ := divide_leaf_spec h
    ((st.leaf left).slots.take ((st.leaf left).slots.length -
      ((st.leaf left).slots.length - (st.leaf right).slots.length) / 2))
    ((st.leaf left).slots.drop ((st.leaf left).slots.length -
      ((st.leaf left).slots.length - (st.leaf right).slots.length) / 2) ++ (st.leaf right).slots)
    (by rw [← append_assoc, take_append_drop])
    (by rw [length_take]; omega) (by rw [length_append, length_drop]; omega)
  refine ⟨_, ?_, hdivided⟩
  simp only [Pair.shift_right, Store.shift_right_leaf]
  rw [if_pos ⟨h.linked.1, h.linked.2, by omega, by omega⟩, hdivide]
  rfl

end Leaves

/-! ### Inner nodes -/

section Inner

variable {left right : Inner K (Node K level)} {key : K} {st : Store K}

/-- The keys of both nodes, with the key between them, separate their children. -/
theorem Siblings.separated
    (h : Siblings t before after (⟨left, key, right, st⟩ : Pair K (level + 1))) :
    Separated st level (left.slotkey ++ key :: right.slotkey) (left.childid ++ right.childid) := by
  obtain ⟨hne, -, hsep, hkids⟩ := h.wf_left
  obtain ⟨hne', -, hsep', -⟩ := h.wf_right
  obtain ⟨kids, c, heq⟩ := (eq_nil_or_concat' left.childid).resolve_left hne
  have hmax : maxKey st level c = some key :=
    (maxKey_inner heq (hkids c (heq ▸ mem_append_right kids mem_cons_self))).symm.trans h.key
  rw [Separated, heq, dropLast_concat] at hsep
  rw [Separated, dropLast_append_of_ne_nil hne', map_append, map_append, map_cons, hsep, heq,
    map_append, map_singleton, hmax, append_assoc, singleton_append,
    show right.slotkey.map some = _ from hsep']

theorem Siblings.wf_of_mem
    (h : Siblings t before after (⟨left, key, right, st⟩ : Pair K (level + 1))) {c : Node K level}
    (hc : c ∈ left.childid ++ right.childid) :
    WF t st level c ∧ t.minslots level ≤ slotuse st level c ∧ Filled t st level c := by
  rcases mem_append.1 hc with hc | hc
  · exact ⟨h.wf_left.2.2.2 c hc, h.filled_left c hc⟩
  · exact ⟨h.wf_right.2.2.2 c hc, h.filled_right c hc⟩

theorem Siblings.lengths
    (h : Siblings t before after (⟨left, key, right, st⟩ : Pair K (level + 1))) :
    left.childid.length = left.slotkey.length + 1 ∧
      right.childid.length = right.slotkey.length + 1 :=
  ⟨h.wf_left.2.2.1.length_eq h.wf_left.1, h.wf_right.2.2.1.length_eq h.wf_right.1⟩

theorem merge_inner_spec
    (h : Siblings t before after (⟨left, key, right, st⟩ : Pair K (level + 1)))
    (hsum : left.slotkey.length + right.slotkey.length + 1 = 2 * t.minslots (level + 1)) :
    ∃ pair', Pair.merge t (⟨left, key, right, st⟩ : Pair K (level + 1)) = some pair' ∧
      Merged t before after ⟨left, key, right, st⟩ pair' := by
  have hmin : t.minslots (level + 1) = t.innerslotmax / 2 := rfl
  have hroom : left.slotkey.length + right.slotkey.length < t.innerslotmax := by omega
  obtain ⟨merged, emptied, hmerge, hkeys, hkids, hempty⟩ : ∃ merged emptied,
      merge_inner t left right key = some (merged, emptied) ∧
        merged.slotkey = left.slotkey ++ key :: right.slotkey ∧
          merged.childid = left.childid ++ right.childid ∧ emptied.slotkey = [] :=
    ⟨_, _, if_pos hroom, rfl, rfl, rfl⟩
  have hlength : merged.slotkey.length = 2 * t.minslots (level + 1) := by
    rw [hkeys, length_append, length_cons, ← hsum, Nat.add_assoc]
  have hids : leafIds (level + 1) merged =
      leafIds (level + 1) left ++ leafIds (level + 1) right := by
    rw [leafIds, hkids, flatMap_append]
    rfl
  refine ⟨⟨merged, key, emptied, st⟩, ?_, ⟨fun x _ => rfl, ?_, ?_, ?_,
    ⟨?_, ?_, ?_, fun c hc => ?_⟩, fun c hc => ?_, ?_, ?_⟩⟩
  · simp only [Pair.merge, hmerge, Option.bind_eq_bind, Option.bind_some]
    rfl
  · exact hids ▸ Sublist.refl _
  · rw [hids]
    exact h.chain
  · rw [contents, hids, Store.items_append]
    rfl
  · rw [hkids]
    exact append_ne_nil_of_left_ne_nil h.wf_left.1 _
  · change merged.slotkey.length ≤ _
    omega
  · rw [hkeys, hkids]
    exact h.separated
  · exact (h.wf_of_mem (hkids ▸ hc)).1
  · exact (h.wf_of_mem (hkids ▸ hc)).2
  · change _ ≤ merged.slotkey.length
    omega
  · exact congrArg length hempty

/-- Whatever keys go to which node, as long as the children go with them. -/
theorem divide_inner_spec
    (h : Siblings t before after (⟨left, key, right, st⟩ : Pair K (level + 1)))
    {left' right' : Inner K (Node K level)} {key' : K}
    (hkeys : left'.slotkey ++ key' :: right'.slotkey = left.slotkey ++ key :: right.slotkey)
    (hkids : left'.childid ++ right'.childid = left.childid ++ right.childid)
    (hlength : left'.childid.length = left'.slotkey.length + 1)
    (hleft : t.minslots (level + 1) ≤ left'.slotkey.length ∧
      left'.slotkey.length ≤ t.innerslotmax)
    (hright : t.minslots (level + 1) ≤ right'.slotkey.length ∧
      right'.slotkey.length ≤ t.innerslotmax) :
    Divided t before after (⟨left, key, right, st⟩ : Pair K (level + 1))
      ⟨left', key', right', st⟩ := by
  have hcount := congrArg length hkeys
  have hcount' := congrArg length hkids
  obtain ⟨hkids_left, hkids_right⟩ := h.lengths
  simp only [length_append, length_cons] at hcount hcount'
  have hne : right'.childid ≠ [] := length_pos_iff.1 (by omega)
  have hsep := h.separated
  rw [← hkeys, ← hkids] at hsep
  obtain ⟨hsep_left, ⟨kids, c, heq, hmax⟩, hsep_right⟩ := hsep.cut hlength hne
  have hwf : ∀ c, c ∈ left'.childid ++ right'.childid →
      WF t st level c ∧ t.minslots level ≤ slotuse st level c ∧ Filled t st level c :=
    fun c hc => h.wf_of_mem (hkids ▸ hc)
  have hids : leafIds (level + 1) left' ++ leafIds (level + 1) right' =
      leafIds (level + 1) left ++ leafIds (level + 1) right := by
    rw [leafIds, leafIds, ← flatMap_append, hkids, flatMap_append]
    rfl
  refine ⟨fun x _ => rfl, hids, ?_, ⟨⟨?_, hleft.2, hsep_left, fun c hc => ?_⟩,
    ⟨hne, hright.2, hsep_right, fun c hc => ?_⟩, fun c hc => ?_, fun c hc => ?_, ?_, ?_⟩,
    hleft.1, hright.1⟩
  · change st.items _ ++ st.items _ = st.items _ ++ st.items _
    rw [← Store.items_append, hids, Store.items_append]
  · exact ne_nil_of_length_eq_add_one hlength
  · exact (hwf c (mem_append_left _ hc)).1
  · exact (hwf c (mem_append_right _ hc)).1
  · exact (hwf c (mem_append_left _ hc)).2
  · exact (hwf c (mem_append_right _ hc)).2
  · have hc : c ∈ left'.childid := heq ▸ mem_append_right kids mem_cons_self
    exact (maxKey_inner heq (hwf c (mem_append_left _ hc)).1).trans hmax
  · rw [hids]
    exact h.chain

theorem shift_left_inner_spec
    (h : Siblings t before after (⟨left, key, right, st⟩ : Pair K (level + 1)))
    (hfew : left.slotkey.length + 1 = t.minslots (level + 1))
    (hmany : t.minslots (level + 1) < right.slotkey.length) :
    ∃ pair', Pair.shift_left t (⟨left, key, right, st⟩ : Pair K (level + 1)) = some pair' ∧
      Divided t before after ⟨left, key, right, st⟩ pair' := by
  have hmin : t.minslots (level + 1) = t.innerslotmax / 2 := rfl
  have hmax : right.slotkey.length ≤ t.innerslotmax := h.wf_right.2.1
  obtain ⟨hkids_left, hkids_right⟩ := h.lengths
  -- One key goes up, and the others that move go to the left node.
  obtain ⟨shiftnum, hshift⟩ : ∃ shiftnum,
      (right.slotkey.length - left.slotkey.length) / 2 = shiftnum + 1 :=
    Nat.exists_eq_add_one.2 (by omega)
  have hlt : shiftnum < right.slotkey.length := by omega
  have hdrop := drop_eq_getElem_cons hlt
  simp only [Pair.shift_left, shift_left_inner, hshift, Nat.add_sub_cancel]
  rw [if_pos ⟨by omega, by omega, Nat.succ_pos _⟩, getElem?_eq_getElem hlt]
  refine ⟨_, rfl, divide_inner_spec h ?_ ?_ ?_ ?_ ?_⟩
  · change (left.slotkey ++ key :: right.slotkey.take shiftnum) ++
      right.slotkey[shiftnum] :: right.slotkey.drop (shiftnum + 1) = _
    rw [← hdrop, append_assoc, cons_append, take_append_drop]
  · exact (append_assoc _ _ _).trans (by rw [take_append_drop])
  · simp only [length_append, length_cons, length_take]
    omega
  · simp only [length_append, length_cons, length_take]
    omega
  · simp only [length_drop]
    omega

theorem shift_right_inner_spec
    (h : Siblings t before after (⟨left, key, right, st⟩ : Pair K (level + 1)))
    (hmany : t.minslots (level + 1) < left.slotkey.length)
    (hfew : right.slotkey.length + 1 = t.minslots (level + 1)) :
    ∃ pair', Pair.shift_right t (⟨left, key, right, st⟩ : Pair K (level + 1)) = some pair' ∧
      Divided t before after ⟨left, key, right, st⟩ pair' := by
  have hmin : t.minslots (level + 1) = t.innerslotmax / 2 := rfl
  have hmax : left.slotkey.length ≤ t.innerslotmax := h.wf_left.2.1
  obtain ⟨hkids_left, hkids_right⟩ := h.lengths
  simp only [Pair.shift_right, shift_right_inner]
  have hbounds : 0 < (left.slotkey.length - right.slotkey.length) / 2 ∧
      (left.slotkey.length - right.slotkey.length) / 2 ≤ left.slotkey.length := by omega
  have hlow : t.minslots (level + 1) ≤
      left.slotkey.length - (left.slotkey.length - right.slotkey.length) / 2 := by omega
  have hhigh : right.slotkey.length + (left.slotkey.length - right.slotkey.length) / 2 <
      t.innerslotmax := by omega
  generalize (left.slotkey.length - right.slotkey.length) / 2 = shiftnum at hbounds hlow hhigh ⊢
  have hlt : left.slotkey.length - shiftnum < left.slotkey.length := by omega
  have hdrop := drop_eq_getElem_cons hlt
  rw [if_pos ⟨by omega, hhigh, hbounds.1⟩, getElem?_eq_getElem hlt]
  refine ⟨_, rfl, divide_inner_spec h ?_ ?_ ?_ ?_ ?_⟩
  · change left.slotkey.take (left.slotkey.length - shiftnum) ++
      left.slotkey[left.slotkey.length - shiftnum] ::
        (left.slotkey.drop (left.slotkey.length - shiftnum + 1) ++ key :: right.slotkey) = _
    rw [← cons_append, ← hdrop, ← append_assoc, take_append_drop]
  · exact (append_assoc _ _ _).symm.trans (by rw [take_append_drop])
  · simp only [length_take]
    omega
  · simp only [length_take]
    omega
  · simp only [length_append, length_cons, length_drop]
    omega

end Inner

/-! ### Nodes of any level -/

theorem Pair.merge_spec : ∀ {level : Nat} {pair : Pair K level}, Siblings t before after pair →
    slotuse pair.st level pair.left + slotuse pair.st level pair.right + 1 =
      2 * t.minslots level → ∃ pair', pair.merge t = some pair' ∧
        Merged t before after pair pair'
  | 0, ⟨_, _, _, _⟩, h, hsum => merge_leaf_spec h hsum
  | _ + 1, ⟨_, _, _, _⟩, h, hsum => merge_inner_spec h hsum

theorem Pair.shift_left_spec : ∀ {level : Nat} {pair : Pair K level},
    Siblings t before after pair → slotuse pair.st level pair.left + 1 = t.minslots level →
      t.minslots level < slotuse pair.st level pair.right →
        ∃ pair', pair.shift_left t = some pair' ∧ Divided t before after pair pair'
  | 0, ⟨_, _, _, _⟩, h, hfew, hmany => shift_left_leaf_spec h hfew hmany
  | _ + 1, ⟨_, _, _, _⟩, h, hfew, hmany => shift_left_inner_spec h hfew hmany

theorem Pair.shift_right_spec : ∀ {level : Nat} {pair : Pair K level},
    Siblings t before after pair → t.minslots level < slotuse pair.st level pair.left →
      slotuse pair.st level pair.right + 1 = t.minslots level →
        ∃ pair', pair.shift_right t = some pair' ∧ Divided t before after pair pair'
  | 0, ⟨_, _, _, _⟩, h, hmany, hfew => shift_right_leaf_spec h hmany hfew
  | _ + 1, ⟨_, _, _, _⟩, h, hmany, hfew => shift_right_inner_spec h hmany hfew

end Siblings

end MABTree
end TLI
