import TLI.Competitors.MABTree.Descend

/-!
# Leaf — insertion into a leaf

An insertion puts the pair at its lower bound.  A full leaf is split first, and the new leaf is
linked between the old one and its successor.
-/

namespace TLI
namespace MABTree

open List LowerBound

variable {K : Type} [LinearOrder K]

/-! ## Changes of the store -/

omit [LinearOrder K] in
theorem leaf_allocate_leaf (st : Store K) :
    st.allocate_leaf.2.leaf st.next = ⟨0, [], none, none⟩ :=
  Function.update_self _ _ _

omit [LinearOrder K] in
theorem leaf_allocate_leaf_of_ne (st : Store K) {x : LeafId} (h : x ≠ st.next) :
    st.allocate_leaf.2.leaf x = st.leaf x :=
  Function.update_of_ne h _ _

omit [LinearOrder K] in
/-- New slots in a leaf that keeps its place in the chain. -/
theorem Chain.set_slots {st : Store K} {ids : List LeafId} (h : Chain st ids) (id : LeafId)
    (slots : List (KeyValue K)) : Chain (st.set id { st.leaf id with slots := slots }) ids := by
  refine ⟨h.head, h.tail, fun before x after heq => ?_, h.nodup, h.allocated⟩
  obtain ⟨hprev, hnext⟩ := h.linked before x after heq
  by_cases hx : x = id
  · subst hx
    rw [Store.leaf_set_self]
    exact ⟨hprev, hnext⟩
  · rw [Store.leaf_set_of_ne st hx]
    exact ⟨hprev, hnext⟩

omit [LinearOrder K] in
theorem touches_set_slots (st : Store K) (id : LeafId) (slots : List (KeyValue K)) :
    Touches st (st.set id { st.leaf id with slots := slots }) id none where
  slots x hx _ := by rw [Store.leaf_set_of_ne st hx]
  fresh_eq x h := by cases h
  chain ids h _ := by
    rw [graft_none]
    exact h.set_slots id slots

/-- A new leaf linked between a leaf and its successor. -/
structure Spliced (st st' : Store K) (id new : LeafId) : Prop where
  head : st'.headleaf = st.headleaf
  tail : st'.tailleaf = if (st.leaf id).nextleaf = none then some new else st.tailleaf
  next : st'.next = st.next + 1
  new_eq : new = st.next
  old_prev : (st'.leaf id).prevleaf = (st.leaf id).prevleaf
  old_next : (st'.leaf id).nextleaf = some new
  new_prev : (st'.leaf new).prevleaf = some id
  new_next : (st'.leaf new).nextleaf = (st.leaf id).nextleaf
  other_prev : ∀ x, x ≠ id → x ≠ new → (st'.leaf x).prevleaf =
    if (st.leaf id).nextleaf = some x then some new else (st.leaf x).prevleaf
  other_next : ∀ x, x ≠ id → x ≠ new → (st'.leaf x).nextleaf = (st.leaf x).nextleaf

section Splice

variable {st st' : Store K} {id new : LeafId} {before after : List LeafId}

omit [LinearOrder K] in
theorem Spliced.linked_before (h : Spliced st st' id new)
    (hchain : Chain st (before ++ id :: after))
    (hold : ∀ x, x ∈ before ++ id :: after → x ≠ new) {front back : List LeafId} {x : LeafId}
    (hfront : before = front ++ x :: back) :
    (st'.leaf x).prevleaf = front.getLast? ∧
      (st'.leaf x).nextleaf = (back ++ id :: new :: after).head? := by
  have hmem : x ∈ before := hfront ▸ mem_append_right front mem_cons_self
  have hnodup := nodup_append.1 hchain.nodup
  have hxid : x ≠ id := fun heq => hnodup.2.2 x hmem id mem_cons_self heq
  have hxnew : x ≠ new := hold x (mem_append_left _ hmem)
  have hnotnext : (st.leaf id).nextleaf ≠ some x := by
    rw [(hchain.linked before id after rfl).2]
    intro hhead
    exact hnodup.2.2 x hmem x (mem_cons_of_mem _ (mem_of_mem_head? hhead)) rfl
  obtain ⟨hprev, hnext⟩ := hchain.linked front x (back ++ id :: after) (by
    rw [hfront, append_assoc, cons_append])
  rw [h.other_prev x hxid hxnew, if_neg hnotnext, h.other_next x hxid hxnew, hprev, hnext]
  cases back <;> exact ⟨rfl, rfl⟩

omit [LinearOrder K] in
theorem Spliced.linked_after (h : Spliced st st' id new) (hchain : Chain st (before ++ id :: after))
    (hold : ∀ x, x ∈ before ++ id :: after → x ≠ new) {front back : List LeafId} {x : LeafId}
    (hback : after = front ++ x :: back) :
    (st'.leaf x).prevleaf = (before ++ id :: new :: front).getLast? ∧
      (st'.leaf x).nextleaf = back.head? := by
  have hmem : x ∈ after := hback ▸ mem_append_right front mem_cons_self
  have hnodup := (nodup_append.1 hchain.nodup).2.1
  have hxid : x ≠ id := fun heq => (nodup_cons.1 hnodup).1 (heq ▸ hmem)
  have hxnew : x ≠ new := hold x (mem_append_right _ (mem_cons_of_mem _ hmem))
  obtain ⟨hprev, hnext⟩ := hchain.linked (before ++ id :: front) x back (by
    rw [hback, append_assoc, cons_append])
  have hsucc := (hchain.linked before id after rfl).2
  rw [h.other_prev x hxid hxnew, h.other_next x hxid hxnew, hnext, hsucc, hback]
  cases front with
  | nil => simp
  | cons y front =>
      -- The successor of `id` comes before `x`.
      have hyx : y ≠ x := by
        rintro rfl
        rw [hback, cons_append, nodup_cons, nodup_cons] at hnodup
        exact hnodup.2.1 (mem_append_right _ mem_cons_self)
      rw [if_neg (by simpa using hyx), hprev]
      simp

omit [LinearOrder K] in
theorem Spliced.linked (h : Spliced st st' id new) (hchain : Chain st (before ++ id :: after))
    (hold : ∀ x, x ∈ before ++ id :: after → x ≠ new) :
    Linked st' (before ++ id :: new :: after) := by
  obtain ⟨hprev, hnext⟩ := hchain.linked before id after rfl
  have hid : (st'.leaf id).prevleaf = before.getLast? ∧ (st'.leaf id).nextleaf = some new := by
    rw [h.old_prev, h.old_next, hprev]
    exact ⟨rfl, rfl⟩
  intro front x back heq
  rcases append_eq_append_iff.1 heq with ⟨mid, rfl, hmid⟩ | ⟨mid, hmid, hrest⟩
  · cases mid with
    | nil =>
        rw [nil_append, cons.injEq] at hmid
        obtain ⟨rfl, rfl⟩ := hmid
        rw [append_nil]
        exact hid
    | cons y mid =>
        rw [cons_append, cons.injEq] at hmid
        obtain ⟨rfl, hmid⟩ := hmid
        cases mid with
        | nil =>
            rw [nil_append, cons.injEq] at hmid
            obtain ⟨rfl, rfl⟩ := hmid
            rw [h.new_prev, h.new_next, hnext]
            simp
        | cons z mid =>
            rw [cons_append, cons.injEq] at hmid
            obtain ⟨rfl, hmid⟩ := hmid
            exact h.linked_after hchain hold hmid
  · cases mid with
    | nil =>
        rw [nil_append, cons.injEq] at hrest
        obtain ⟨rfl, rfl⟩ := hrest
        rw [append_nil] at hmid
        rw [← hmid]
        exact hid
    | cons y mid =>
        rw [cons_append, cons.injEq] at hrest
        obtain ⟨rfl, rfl⟩ := hrest
        exact h.linked_before hchain hold hmid

end Splice

omit [LinearOrder K] in
theorem Spliced.chain {st st' : Store K} {id new : LeafId} (h : Spliced st st' id new)
    {ids : List LeafId} (hchain : Chain st ids) (hid : id ∈ ids) :
    Chain st' (graft id (some new) ids) := by
  obtain ⟨before, after, rfl⟩ := append_of_mem hid
  have hnodup := hchain.nodup
  obtain ⟨-, hnext⟩ := hchain.linked before id after rfl
  have hfresh : new ∉ before ++ id :: after := fun hmem =>
    Nat.lt_irrefl _ (h.new_eq ▸ hchain.allocated new hmem)
  have hold : ∀ x, x ∈ before ++ id :: after → x ≠ new := fun x hx heq => hfresh (heq ▸ hx)
  rw [graft_split hnodup]
  change Chain st' (before ++ id :: new :: after)
  have hperm : before ++ id :: new :: after ~ new :: (before ++ id :: after) := by
    rw [← singleton_append (l := new :: after), ← append_assoc]
    refine perm_middle.trans ?_
    rw [append_assoc, singleton_append]
  refine ⟨?_, ?_, ?_, ?_, ?_⟩
  · rw [h.head, hchain.head]
    cases before <;> rfl
  · rw [h.tail, hnext, hchain.tail]
    cases after with
    | nil => simp
    | cons y after => simp
  · exact h.linked hchain hold
  · exact hperm.nodup_iff.2 (nodup_cons.2 ⟨hfresh, hnodup⟩)
  · intro x hx
    rw [h.next]
    rcases mem_cons.1 (hperm.mem_iff.1 hx) with rfl | hx
    · rw [h.new_eq]
      exact Nat.lt_succ_self _
    · exact Nat.lt_succ_of_lt (hchain.allocated x hx)

section Slots

variable {st st' : Store K} {id new : LeafId}

omit [LinearOrder K] in
theorem leaf_set_slots (st : Store K) (id : LeafId) (slots : List (KeyValue K)) (x : LeafId) :
    ((st.set id { st.leaf id with slots := slots }).leaf x).prevleaf = (st.leaf x).prevleaf ∧
      ((st.set id { st.leaf id with slots := slots }).leaf x).nextleaf = (st.leaf x).nextleaf := by
  by_cases hx : x = id
  · subst hx
    rw [Store.leaf_set_self]
    exact ⟨rfl, rfl⟩
  · rw [Store.leaf_set_of_ne st hx]
    exact ⟨rfl, rfl⟩

omit [LinearOrder K] in
theorem Spliced.set_slots (h : Spliced st st' id new) (y : LeafId) (slots : List (KeyValue K)) :
    Spliced st (st'.set y { st'.leaf y with slots := slots }) id new := by
  have hlinks := leaf_set_slots st' y slots
  refine ⟨h.head, h.tail, h.next, h.new_eq, ?_, ?_, ?_, ?_, fun x hx hx' => ?_, fun x hx hx' => ?_⟩
  · rw [(hlinks id).1, h.old_prev]
  · rw [(hlinks id).2, h.old_next]
  · rw [(hlinks new).1, h.new_prev]
  · rw [(hlinks new).2, h.new_next]
  · rw [(hlinks x).1, h.other_prev x hx hx']
  · rw [(hlinks x).2, h.other_next x hx hx']

omit [LinearOrder K] in
theorem relink_leaf (st : Store K) (next : Option LeafId) (new x : LeafId) :
    (st.relink next new).leaf x =
      if next = some x then { st.leaf x with prevleaf := some new } else st.leaf x := by
  cases next with
  | none => rfl
  | some next =>
      by_cases hx : x = next
      · subst hx
        rw [if_pos rfl, Store.relink, Store.leaf_set_self]
      · rw [if_neg fun heq => hx (Option.some.inj heq).symm, Store.relink,
          Store.leaf_set_of_ne st hx]

omit [LinearOrder K] in
/-- Linking a new leaf changes the links of three leaves at most. -/
theorem spliced_relink {oldleaf newleaf : Leaf K} (hid : id ≠ st.next)
    (hold : oldleaf.prevleaf = (st.leaf id).prevleaf ∧ oldleaf.nextleaf = some st.next)
    (hnew : newleaf.prevleaf = some id ∧ newleaf.nextleaf = (st.leaf id).nextleaf) :
    Spliced st (((st.allocate_leaf.2.relink (st.leaf id).nextleaf st.next).set st.next newleaf).set
      id oldleaf) id st.next := by
  have hother : ∀ x, x ≠ id → x ≠ st.next →
      (((st.allocate_leaf.2.relink (st.leaf id).nextleaf st.next).set st.next newleaf).set id
        oldleaf).leaf x = if (st.leaf id).nextleaf = some x
          then { st.leaf x with prevleaf := some st.next } else st.leaf x := by
    intro x hx hx'
    rw [Store.leaf_set_of_ne _ hx, Store.leaf_set_of_ne _ hx', relink_leaf,
      leaf_allocate_leaf_of_ne st hx']
  refine ⟨?_, ?_, ?_, rfl, ?_, ?_, ?_, ?_, fun x hx hx' => ?_, fun x hx hx' => ?_⟩
  · cases (st.leaf id).nextleaf <;> rfl
  · cases (st.leaf id).nextleaf <;> rfl
  · cases (st.leaf id).nextleaf <;> rfl
  · rw [Store.leaf_set_self, hold.1]
  · rw [Store.leaf_set_self, hold.2]
  · rw [Store.leaf_set_of_ne _ hid.symm, Store.leaf_set_self, hnew.1]
  · rw [Store.leaf_set_of_ne _ hid.symm, Store.leaf_set_self, hnew.2]
  · rw [hother x hx hx']
    split <;> rfl
  · rw [hother x hx hx']
    split <;> rfl

/-- The halves of a full leaf, linked in its place. -/
structure Halved (st st' : Store K) (id : LeafId) : Prop where
  spliced : Spliced st st' id st.next
  left : (st'.leaf id).slots = (st.leaf id).slots.take ((st.leaf id).slots.length / 2)
  right : (st'.leaf st.next).slots = (st.leaf id).slots.drop ((st.leaf id).slots.length / 2)
  others : ∀ x, x ≠ id → x ≠ st.next → (st'.leaf x).slots = (st.leaf x).slots

theorem split_leaf_node_spec (p : Params K) (hid : id ≠ st.next)
    (hlength : 2 ≤ (st.leaf id).slots.length) :
    ∃ last st', split_leaf_node p st id = some (last.key, st.next, st') ∧ Halved st st' id ∧
      (st'.leaf id).slots.getLast? = some last := by
  have hne : (st.leaf id).slots.take ((st.leaf id).slots.length / 2) ≠ [] := by
    rw [← length_pos_iff, length_take]
    omega
  obtain ⟨last, hlast⟩ := Option.isSome_iff_exists.1 (getLast?_isSome.2 hne)
  have hsplit : split_leaf_node p st id = some (last.key, st.next,
      ((st.allocate_leaf.2.relink (st.leaf id).nextleaf st.next).set st.next
        { midp_err := compute_midp_err p
            (((st.leaf id).slots.drop ((st.leaf id).slots.length / 2)).map KeyValue.key)
          slots := (st.leaf id).slots.drop ((st.leaf id).slots.length / 2)
          prevleaf := some id
          nextleaf := (st.leaf id).nextleaf }).set id
        { st.leaf id with
          midp_err := compute_midp_err p
            (((st.leaf id).slots.take ((st.leaf id).slots.length / 2)).map KeyValue.key)
          slots := (st.leaf id).slots.take ((st.leaf id).slots.length / 2)
          nextleaf := some st.next }) := by
    simp only [split_leaf_node, hlast, Option.bind_eq_bind, Option.bind_some]
    rfl
  refine ⟨last, _, hsplit, ⟨spliced_relink hid ⟨rfl, rfl⟩ ⟨rfl, rfl⟩, ?_, ?_,
    fun x hx hx' => ?_⟩, ?_⟩
  · rw [Store.leaf_set_self]
  · rw [Store.leaf_set_of_ne _ hid.symm, Store.leaf_set_self]
  · rw [Store.leaf_set_of_ne _ hx, Store.leaf_set_of_ne _ hx', relink_leaf,
      leaf_allocate_leaf_of_ne st hx']
    split <;> rfl
  · rw [Store.leaf_set_self]
    exact hlast

omit [LinearOrder K] in
theorem Halved.touches (h : Halved st st' id) {y : LeafId} (hy : y = id ∨ y = st.next)
    (slots : List (KeyValue K)) :
    Touches st (st'.set y { st'.leaf y with slots := slots }) id (some st.next) where
  slots x hx hx' := by
    have hnew : x ≠ st.next := fun heq => hx' (by rw [heq])
    rw [Store.leaf_set_of_ne _ (by rcases hy with rfl | rfl <;> assumption), h.others x hx hnew]
  fresh_eq x heq := (Option.some.inj heq).symm
  chain ids hchain hid := (h.spliced.set_slots y slots).chain hchain hid

end Slots

/-! ## Insertion into a leaf -/

section Insert

variable {t : Traits} {st st' : Store K} {id : LeafId} {kv : KeyValue K}

/-- The insertion of a pair into a leaf with room for it. -/
theorem inserted_room (hroom : (st.leaf id).slots.length < t.leafslotmax)
    (htouches : Touches st st' id none)
    (hslots : (st'.leaf id).slots = insertLower KeyValue.key kv (st.leaf id).slots) :
    Inserted t st st' 0 id id kv none id none where
  mem := mem_cons_self
  touches := htouches
  ids := by
    rw [graft_none]
    rfl
  items := by
    rw [graft_none, contents]
    simp [Store.items, leafIds, hslots]
  wf := by
    rw [WF, hslots, (insertLower_perm kv (st.leaf id).slots).length_eq]
    exact ⟨by simp [insertLower], hroom⟩
  wf_added := by
    intro k m h
    cases h

/-- The insertion of a pair into a leaf that is split into two. -/
theorem inserted_split {left right : List (KeyValue K)} {last : KeyValue K}
    (htouches : Touches st st' id (some st.next))
    (hleft : (st'.leaf id).slots = left) (hright : (st'.leaf st.next).slots = right)
    (hcut : left ++ right = insertLower KeyValue.key kv (st.leaf id).slots)
    (hlast : left.getLast? = some last) (hne : right ≠ [])
    (hlengths : left.length ≤ t.leafslotmax ∧ right.length ≤ t.leafslotmax) :
    Inserted t st st' 0 id id kv (some (last.key, st.next)) id (some st.next) where
  mem := mem_cons_self
  touches := htouches
  ids := by simp [leafIds, addedIds, addedKids, graft]
  items := by
    rw [contents]
    simp [Store.items, leafIds, graft, hleft, hright, hcut]
  wf := by
    rw [WF, hleft]
    exact ⟨fun hnil => by simp [hnil] at hlast, hlengths.1⟩
  wf_added := by
    intro k m h
    cases h
    rw [WF, hright, maxKey, contents]
    simp [Store.items, leafIds, hleft, hlast, hne, hlengths.2]

theorem insert_leaf_full (p : Params K) (kv : KeyValue K) (lo_key hi_key : Option K)
    (hid : id < st.next) (hsorted : Ascends KeyValue.key (st.leaf id).slots)
    (hfull : (st.leaf id).slots.length = p.traits.leafslotmax) :
    ∃ added st' fresh, insert_leaf p st id kv lo_key hi_key = some (added, st') ∧
      Inserted p.traits st st' 0 id id kv added id fresh := by
  have hslot := find_lower_leaf_eq p hsorted kv.key lo_key hi_key
  have hmax := p.traits.leafslotmax_ge
  have hne := Nat.ne_of_lt hid
  have hinsert := insertIdx_length_front (f := KeyValue.key) kv (st.leaf id).slots
  have hcut := take_append_drop ((st.leaf id).slots.length / 2) (st.leaf id).slots
  obtain ⟨last, st', hsplit, hhalved, hlast⟩ :=
    split_leaf_node_spec p hne (show 2 ≤ (st.leaf id).slots.length by omega)
  have hmid : (st'.leaf id).slots.length = (st.leaf id).slots.length / 2 := by
    rw [hhalved.left, length_take]
    omega
  have hrest : (st'.leaf st.next).slots.length =
      (st.leaf id).slots.length - (st.leaf id).slots.length / 2 := by
    rw [hhalved.right, length_drop]
  rw [← hhalved.left, ← hhalved.right] at hcut
  generalize (front KeyValue.key kv.key (st.leaf id).slots).length = slot at hslot hinsert
  rw [← hcut] at hinsert
  by_cases hge : slot ≥ (st'.leaf id).slots.length
  · -- The pair goes to the new leaf, and the old one keeps its last key.
    rw [insertIdx_append_of_ge kv hge, hcut] at hinsert
    refine ⟨some (last.key, st.next), st'.put st.next (slot - (st'.leaf id).slots.length) kv,
      some st.next, ?_, inserted_split (hhalved.touches (.inr rfl) _) ?_ ?_ hinsert hlast
      (fun hnil => ?_) ⟨?_, ?_⟩⟩
    · simp [insert_leaf, hfull, hslot, hsplit, hge]
    · rw [Store.put, Store.leaf_set_of_ne _ hne]
    · rw [Store.put, Store.leaf_set_self]
    · have hlonger := length_le_length_insertIdx (l := (st'.leaf st.next).slots) (x := kv)
        (i := slot - (st'.leaf id).slots.length)
      rw [hnil, length_nil] at hlonger
      omega
    · omega
    · have hsucc := length_insertIdx_le_succ (l := (st'.leaf st.next).slots) (x := kv)
        (i := slot - (st'.leaf id).slots.length)
      omega
  · -- The pair goes in front of the last key of the old leaf.
    have hlt := Nat.lt_of_not_le hge
    rw [insertIdx_append_of_le kv hlt.le, hcut] at hinsert
    refine ⟨some (last.key, st.next), st'.put id slot kv, some st.next, ?_,
      inserted_split (hhalved.touches (.inl rfl) _) ?_ ?_ hinsert
      (by rw [getLast?_insertIdx kv hlt, hlast]) (fun hnil => ?_) ⟨?_, ?_⟩⟩
    · simp [insert_leaf, hfull, hslot, hsplit, hge, Nat.ne_of_lt hlt]
    · rw [Store.put, Store.leaf_set_self]
    · rw [Store.put, Store.leaf_set_of_ne _ hne.symm]
    · rw [hnil, length_nil] at hrest
      omega
    · rw [length_insertIdx_of_le_length hlt.le]
      omega
    · omega

theorem insert_leaf_spec (p : Params K) (kv : KeyValue K) (lo_key hi_key : Option K)
    (hid : id < st.next) (hsorted : Ascends KeyValue.key (st.leaf id).slots)
    (hlength : (st.leaf id).slots.length ≤ p.traits.leafslotmax) :
    ∃ added st' fresh, insert_leaf p st id kv lo_key hi_key = some (added, st') ∧
      Inserted p.traits st st' 0 id id kv added id fresh := by
  have hslot := find_lower_leaf_eq p hsorted kv.key lo_key hi_key
  by_cases hfull : (st.leaf id).slots.length = p.traits.leafslotmax
  · exact insert_leaf_full p kv lo_key hi_key hid hsorted hfull
  · refine ⟨none, st.put id (front KeyValue.key kv.key (st.leaf id).slots).length kv, none, ?_,
      inserted_room (by omega) (touches_set_slots st id _) ?_⟩
    · simp only [insert_leaf, hfull, if_false, hslot]
      rfl
    · rw [Store.put, Store.leaf_set_self, insertIdx_length_front]

end Insert

end MABTree
end TLI
