import Mathlib.Algebra.BigOperators.Group.List.Basic
import TLI.Competitors.MABTree.Descend
import TLI.Library.Fuel

/-!
# Query — iterators over the leaf chain, lookups and range queries

An iterator stands for the rest of the stored sequence (`At`).  The lower bound of a key is the part
of the sequence from the key on, and `++it` takes the first element away.
-/

namespace TLI
namespace MABTree

open List LowerBound

variable {K : Type} [LinearOrder K]

/-! ## Leaves of a well-formed tree -/

omit [LinearOrder K] in
theorem WF.slots_ne_nil {t : Traits} {st : Store K} : ∀ {level : Nat} {n : Node K level},
    WF t st level n → ∀ id, id ∈ leafIds level n → (st.leaf id).slots ≠ []
  | 0, _, h, id, hid => by
      rw [leafIds, mem_singleton] at hid
      exact hid ▸ h.1
  | level + 1, inner, h, id, hid => by
      obtain ⟨c, hc, hid⟩ := mem_flatMap.1 hid
      exact (h.2.2.2 c hc).slots_ne_nil id hid

theorem Holds.slots_ne_nil {t : Traits} {tree : Tree K} {xs : List (KeyValue K)}
    (h : Holds t tree xs) {id : LeafId} (hid : id ∈ tree.leaves) :
    (tree.store.leaf id).slots ≠ [] := by
  rw [Tree.leaves] at hid
  split at hid
  · cases hid
  · rename_i level n hroot
    exact (h.wf level n hroot).slots_ne_nil id hid

/-! ## Iterators -/

/-- The iterator stands for the rest of the sequence. -/
inductive At (st : Store K) (ids : List LeafId) : Iterator → List (KeyValue K) → Prop
  | inside {before : List LeafId} {id : LeafId} {after : List LeafId} {slot : Nat} :
      ids = before ++ id :: after → slot < (st.leaf id).slots.length →
        At st ids (some id, slot) ((st.leaf id).slots.drop slot ++ st.items after)
  | last : At st ids st.end_ []

namespace At

variable {st : Store K} {ids : List LeafId} {it : Iterator} {ys : List (KeyValue K)}

omit [LinearOrder K] in
theorem deref (h : At st ids it ys) : st.deref it = ys.head? := by
  cases h with
  | inside _ hslot =>
      rw [drop_eq_getElem_cons hslot, cons_append, head?_cons]
      exact getElem?_eq_getElem hslot
  | last =>
      rw [Store.end_, Store.deref]
      cases st.tailleaf with
      | none => rfl
      | some id => exact getElem?_eq_none le_rfl

omit [LinearOrder K] in
theorem eq_end_iff (h : At st ids it ys) : it = st.end_ ↔ ys = [] := by
  cases h with
  | @inside before id after slot _ hslot =>
      rw [drop_eq_getElem_cons hslot]
      refine ⟨fun heq => ?_, fun hnil => absurd hnil (cons_ne_nil _ _)⟩
      -- The end is behind the last slot of its leaf.
      rw [Store.end_, Prod.mk.injEq] at heq
      rw [← heq.1] at heq
      exact absurd heq.2 (Nat.ne_of_lt hslot)
  | last => exact iff_of_true rfl rfl

omit [LinearOrder K] in
theorem increment (hchain : Chain st ids) (hfull : ∀ id, id ∈ ids → (st.leaf id).slots ≠ [])
    {y : KeyValue K} (h : At st ids it (y :: ys)) : At st ids (st.increment it) ys := by
  generalize hzs : y :: ys = zs at h
  cases h with
  | last => cases hzs
  | @inside before id after slot heq hslot =>
      rw [drop_eq_getElem_cons hslot, cons_append, cons.injEq] at hzs
      obtain ⟨-, rfl⟩ := hzs
      rw [Store.increment]
      split
      · rename_i hnext
        exact inside heq hnext
      · rename_i hnext
        have hdrop : (st.leaf id).slots.drop (slot + 1) = [] := drop_eq_nil_of_le (by omega)
        rw [hdrop, nil_append, (hchain.linked before id after heq).2]
        cases after with
        | nil =>
            have hend : (some id, (st.leaf id).slots.length) = st.end_ := by
              rw [Store.end_, hchain.tail, heq, getLast?_concat]
            rw [head?_nil, hend]
            exact last
        | cons b after =>
            have hb : b ∈ ids := heq ▸ mem_append_right _ (mem_cons_of_mem _ mem_cons_self)
            exact inside (heq.trans (append_cons before id (b :: after)))
              (length_pos_iff.2 (hfull b hb))

/-- The slot that a descent finds. -/
theorem of_reached (hchain : Chain st ids) (hsorted : Ascends KeyValue.key (st.items ids))
    {key : K} {before : List LeafId} {id : LeafId}
    {after : List LeafId} (h : Reached st key ids before id after) :
    At st ids (some id, (front KeyValue.key key (st.leaf id).slots).length)
      (back KeyValue.key key (st.items ids)) := by
  obtain ⟨heq, hlt, hle⟩ := h
  have hparts := front_append_back KeyValue.key key (st.leaf id).slots
  rw [heq, Store.items_append, Store.items_cons] at hsorted
  rw [heq, Store.items_append, Store.items_cons, back_append_of_lt hlt]
  cases hback : back KeyValue.key key (st.leaf id).slots with
  | nil =>
      -- All keys of the leaf are smaller, so it is the last one.
      rw [hback, append_nil] at hparts
      have hsmaller : ∀ x, x ∈ (st.leaf id).slots → x.key < key := fun x hx =>
        lt_of_mem_front (hparts.symm ▸ hx)
      have hnil : after = [] := hle.resolve_right fun ⟨x, hx, hkey⟩ =>
        absurd (hsmaller x hx) (not_lt.2 hkey)
      subst hnil
      have hend : (some id, (st.leaf id).slots.length) = st.end_ := by
        rw [Store.end_, hchain.tail, heq, getLast?_concat]
      rw [hparts, hend, back_append_of_lt hsmaller]
      exact last
  | cons y ys =>
      rw [hback] at hparts
      have hmem : y ∈ (st.leaf id).slots := hparts ▸ mem_append_right _ mem_cons_self
      have hy : key ≤ y.key := le_of_mem_back
        (pairwise_append.1 (pairwise_append.1 hsorted).2.1).1 (hback ▸ mem_cons_self)
      have hdrop := congrArg (drop (front KeyValue.key key (st.leaf id).slots).length) hparts
      rw [drop_left] at hdrop
      rw [(parts_append_of_le ⟨y, hmem, hy⟩).2, hback, hdrop]
      refine inside rfl ?_
      have hlength := congrArg length hparts
      rw [length_append, length_cons] at hlength
      omega

end At

/-! ## Lookups -/

section Lookup

variable {t : Traits} {p : Params K} {tree : Tree K} {xs : List (KeyValue K)}

theorem lower_bound_spec (h : Holds t tree xs) (key : K) :
    ∃ it, lower_bound p tree key = some it ∧
      At tree.store tree.leaves it (back KeyValue.key key xs) := by
  obtain ⟨root, st⟩ := tree
  obtain ⟨hchain, rfl, hsorted, hwf⟩ := h
  cases root with
  | none => exact ⟨st.end_, rfl, At.last⟩
  | some root =>
      obtain ⟨level, n⟩ := root
      obtain ⟨before, id, after, hreached, hdescend⟩ :=
        descend_spec p key none none (hwf level n rfl) hsorted
      refine ⟨_, ?_, At.of_reached hchain hsorted hreached⟩
      simp only [lower_bound, hdescend, Option.bind_eq_bind, Option.bind_some]
      rfl

/-- What a lookup answers from the part of the sequence that starts at the key. -/
def answer (key : K) : List (KeyValue K) → UInt64
  | [] => Util.NOT_FOUND
  | kv :: _ => if kv.key = key then kv.value else Util.NOT_FOUND

theorem EqualityLookup_end {key : K} (h : find p tree key = some tree.store.end_) :
    EqualityLookup p tree key = some Util.NOT_FOUND := by
  simp [EqualityLookup, h]

theorem EqualityLookup_spec (h : Holds t tree xs) (key : K) :
    EqualityLookup p tree key = some (answer key (back KeyValue.key key xs)) := by
  obtain ⟨root, st⟩ := tree
  obtain ⟨hchain, rfl, hsorted, hwf⟩ := h
  cases root with
  | none => exact EqualityLookup_end rfl
  | some root =>
      obtain ⟨level, n⟩ := root
      obtain ⟨before, id, after, hreached, hdescend⟩ :=
        descend_spec p key none none (hwf level n rfl) hsorted
      have hat := At.of_reached hchain hsorted hreached
      generalize (front KeyValue.key key (st.leaf id).slots).length = slot at hdescend hat
      have hderef : (st.leaf id).slots[slot]? =
          (back KeyValue.key key (st.items (leafIds level n))).head? := hat.deref
      -- `find` compares the key of the slot, if the descent ends in one.
      have hmiss : (st.leaf id).slots[slot]? = none →
          find p ⟨some ⟨level, n⟩, st⟩ key = some st.end_ := by
        intro hslot
        simp only [find, hdescend, Option.bind_eq_bind, Option.bind_some, hslot]
        rfl
      have hhit : ∀ kv, (st.leaf id).slots[slot]? = some kv →
          find p ⟨some ⟨level, n⟩, st⟩ key =
            if kv.key = key then some (some id, slot) else some st.end_ := by
        intro kv hslot
        simp only [find, hdescend, Option.bind_eq_bind, Option.bind_some, hslot]
        rfl
      rw [hderef] at hmiss hhit
      change _ = some (answer key (back KeyValue.key key (st.items (leafIds level n))))
      cases hback : back KeyValue.key key (st.items (leafIds level n)) with
      | nil =>
          rw [hback] at hmiss
          exact EqualityLookup_end (hmiss rfl)
      | cons kv ys =>
          rw [hback, head?_cons] at hhit
          have hfind := hhit kv rfl
          by_cases hkey : kv.key = key
          · have hend : (some id, slot) ≠ st.end_ := fun heq =>
              cons_ne_nil kv ys (hback ▸ hat.eq_end_iff.1 heq)
            have hkv : st.deref (some id, slot) = some kv := by
              rw [hat.deref]
              exact congrArg head? hback
            rw [EqualityLookup, hfind, answer, if_pos hkey]
            simp [hkey, hend, hkv]
          · rw [EqualityLookup_end (hfind.trans (if_neg hkey)), answer, if_neg hkey]

end Lookup

/-! ## Range queries and walks -/

section Scan

variable {st : Store K} {ids : List LeafId}

theorem sumUpTo_spec (hchain : Chain st ids) (hfull : ∀ id, id ∈ ids → (st.leaf id).slots ≠ [])
    (upper_key : K) (ys : List (KeyValue K)) : ∀ {it : Iterator} {turns : Nat}, At st ids it ys →
      ys.length < turns → ∀ result, sumUpTo st upper_key turns it result =
        some (result + ((ys.takeWhile fun kv => decide (kv.key ≤ upper_key)).map
          KeyValue.value).sum) := by
  induction ys with
  | nil =>
      intro it turns hat hturns result
      obtain ⟨turns, rfl⟩ := Nat.exists_eq_add_of_lt hturns
      rw [hat.eq_end_iff.2 rfl]
      simp [sumUpTo]
  | cons kv ys ih =>
      intro it turns hat hturns result
      obtain ⟨turns, rfl⟩ := Nat.exists_eq_succ_of_ne_zero (Nat.ne_zero_of_lt hturns)
      have hend : it ≠ st.end_ := fun heq => cons_ne_nil kv ys (hat.eq_end_iff.1 heq)
      rw [sumUpTo, if_neg hend, hat.deref, head?_cons, takeWhile_cons]
      simp only [Option.bind_eq_bind, Option.bind_some, decide_eq_true_eq]
      split
      · rw [ih (hat.increment hchain hfull) (Nat.lt_of_succ_lt_succ hturns), map_cons, sum_cons,
          add_assoc]
      · simp

theorem RangeQuery_spec {t : Traits} {p : Params K} {tree : Tree K} {xs : List (KeyValue K)}
    (h : Holds t tree xs) (lower_key upper_key : K) :
    Returns (fun fuel => RangeQuery fuel p tree lower_key upper_key)
      (((back KeyValue.key lower_key xs).takeWhile fun kv => decide (kv.key ≤ upper_key)).map
        KeyValue.value).sum := by
  obtain ⟨it, hlower, hat⟩ := lower_bound_spec (p := p) h lower_key
  refine ⟨(back KeyValue.key lower_key xs).length + 1, fun fuel hfuel => ?_⟩
  simp only [RangeQuery, hlower, Option.bind_eq_bind, Option.bind_some]
  rw [sumUpTo_spec h.chain (fun id hid => h.slots_ne_nil hid) upper_key _ hat hfuel, zero_add]

omit [LinearOrder K] in
theorem walk_spec (hchain : Chain st ids) (rest : List LeafId) : ∀ {before : List LeafId},
    ids = before ++ rest → ∀ {turns : Nat}, rest.length ≤ turns →
      walk st turns rest.head? = some (st.items rest) := by
  induction rest with
  | nil =>
      intro before _ turns _
      cases turns <;> rfl
  | cons id rest ih =>
      intro before heq turns hturns
      obtain ⟨turns, rfl⟩ := Nat.exists_eq_succ_of_ne_zero (Nat.ne_zero_of_lt hturns)
      rw [head?_cons, walk, (hchain.linked before id rest heq).2,
        ih (heq.trans (append_cons before id rest)) (Nat.le_of_succ_le_succ hturns),
        Store.items_cons]
      rfl

theorem walk_returns {t : Traits} {tree : Tree K} {xs : List (KeyValue K)} (h : Holds t tree xs) :
    Returns (fun turns => walk tree.store turns tree.store.headleaf) xs := by
  refine ⟨tree.leaves.length, fun turns hturns => ?_⟩
  have hwalk := walk_spec h.chain tree.leaves (nil_append tree.leaves).symm hturns
  simp only [h.chain.head, hwalk, h.items]

end Scan

end MABTree
end TLI
