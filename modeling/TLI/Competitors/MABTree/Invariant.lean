import TLI.Competitors.MABTree.Model
import TLI.Library.LowerBound

/-!
# Invariant — the leaf chain and the separators

* `Chain st ids` — the leaves `ids` are linked in this order, from `headleaf` to `tailleaf`.
* `WF t st level n` — no leaf below `n` is empty, no array overflows, and each separator is the
  largest key of the child in front of it.
* `leafIds`, `items` — the leaves below a node, and what they hold.

An insertion changes one leaf, and may put a new one behind it: `graft` is what that does to a
sequence of leaves, `Touches` what it does to the store.
-/

namespace TLI
namespace MABTree

open List LowerBound

variable {K : Type}

/-! ## Leaves below a node -/

def leafIds : (level : Nat) → Node K level → List LeafId
  | 0, id => [id]
  | level + 1, inner => inner.childid.flatMap (leafIds level)

namespace Store

def items (st : Store K) (ids : List LeafId) : List (KeyValue K) :=
  ids.flatMap fun id => (st.leaf id).slots

theorem items_append (st : Store K) (ids ids' : List LeafId) :
    st.items (ids ++ ids') = st.items ids ++ st.items ids' :=
  flatMap_append

theorem items_cons (st : Store K) (id : LeafId) (ids : List LeafId) :
    st.items (id :: ids) = (st.leaf id).slots ++ st.items ids :=
  flatMap_cons

theorem items_congr {st st' : Store K} {ids : List LeafId}
    (h : ∀ id, id ∈ ids → (st'.leaf id).slots = (st.leaf id).slots) :
    st'.items ids = st.items ids :=
  flatMap_congr h

@[simp] theorem leaf_set_self (st : Store K) (id : LeafId) (leaf : Leaf K) :
    (st.set id leaf).leaf id = leaf :=
  Function.update_self _ _ _

theorem leaf_set_of_ne (st : Store K) {id x : LeafId} (h : x ≠ id) (leaf : Leaf K) :
    (st.set id leaf).leaf x = st.leaf x :=
  Function.update_of_ne h _ _

end Store

/-- The elements below a node. -/
def contents (st : Store K) (level : Nat) (n : Node K level) : List (KeyValue K) :=
  st.items (leafIds level n)

theorem items_flatMap_leafIds (st : Store K) (level : Nat) (kids : List (Node K level)) :
    st.items (kids.flatMap (leafIds level)) = kids.flatMap (contents st level) := by
  rw [Store.items, flatMap_assoc]
  rfl

theorem contents_inner (st : Store K) (level : Nat) (inner : Inner K (Node K level)) :
    contents st (level + 1) inner = inner.childid.flatMap (contents st level) :=
  items_flatMap_leafIds st level inner.childid

/-- The largest key below a node. -/
def maxKey (st : Store K) (level : Nat) (n : Node K level) : Option K :=
  (contents st level n).getLast?.map KeyValue.key

/-! ## Well-formed nodes -/

/-- Each key is the largest one of its child; behind the last child there is none. -/
def Separated (st : Store K) (level : Nat) (keys : List K) (kids : List (Node K level)) : Prop :=
  keys.map some = kids.dropLast.map (maxKey st level)

def WF (t : Traits) (st : Store K) : (level : Nat) → Node K level → Prop
  | 0, id => (st.leaf id).slots ≠ [] ∧ (st.leaf id).slots.length ≤ t.leafslotmax
  | level + 1, inner =>
      inner.childid ≠ [] ∧ inner.slotkey.length ≤ t.innerslotmax ∧
        Separated st level inner.slotkey inner.childid ∧
          ∀ c, c ∈ inner.childid → WF t st level c

theorem Separated.length_eq {st : Store K} {level : Nat} {keys : List K}
    {kids : List (Node K level)} (h : Separated st level keys kids) (hne : kids ≠ []) :
    kids.length = keys.length + 1 := by
  have hlength := congrArg List.length h
  have hpos := length_pos_iff.2 hne
  rw [length_map, length_map, length_dropLast] at hlength
  omega

namespace WF

variable {t : Traits} {st st' : Store K}

theorem contents_ne_nil : ∀ {level : Nat} {n : Node K level}, WF t st level n →
    contents st level n ≠ []
  | 0, id, h => by
      rw [contents, leafIds, Store.items, flatMap_cons, flatMap_nil, append_nil]
      exact h.1
  | level + 1, inner, ⟨hne, _, _, hkids⟩ => by
      obtain ⟨c, hc⟩ := exists_mem_of_ne_nil _ hne
      intro hnil
      rw [contents_inner, flatMap_eq_nil_iff] at hnil
      exact (hkids c hc).contents_ne_nil (hnil c hc)

/-- Only the slots of the leaves below a node matter. -/
theorem congr : ∀ {level : Nat} {n : Node K level}, WF t st level n →
    (∀ id, id ∈ leafIds level n → (st'.leaf id).slots = (st.leaf id).slots) → WF t st' level n
  | 0, id, h, hsame => by
      rw [WF, hsame id mem_cons_self]
      exact h
  | level + 1, inner, ⟨hne, hroom, hsep, hkids⟩, hsame => by
      have hchild : ∀ c, c ∈ inner.childid → ∀ id, id ∈ leafIds level c →
          (st'.leaf id).slots = (st.leaf id).slots := fun c hc id hid =>
        hsame id (mem_flatMap.2 ⟨c, hc, hid⟩)
      refine ⟨hne, hroom, ?_, fun c hc => (hkids c hc).congr (hchild c hc)⟩
      rw [Separated, show inner.slotkey.map some = _ from hsep]
      refine map_congr_left fun c hc => ?_
      rw [maxKey, maxKey, contents, contents,
        Store.items_congr (hchild c (dropLast_subset _ hc))]

end WF

/-- The largest key of an inner node is the one of its last child. -/
theorem maxKey_inner {t : Traits} {st : Store K} {level : Nat} {inner : Inner K (Node K level)}
    {before : List (Node K level)} {c : Node K level} (heq : inner.childid = before ++ [c])
    (hwf : WF t st level c) : maxKey st (level + 1) inner = maxKey st level c := by
  rw [maxKey, contents_inner, heq, flatMap_append, flatMap_singleton,
    getLast?_append_of_ne_nil _ hwf.contents_ne_nil, maxKey]

/-! ## The chain -/

/-- Neighbours in the sequence point to each other. -/
def Linked (st : Store K) (ids : List LeafId) : Prop :=
  ∀ before id after, ids = before ++ id :: after →
    (st.leaf id).prevleaf = before.getLast? ∧ (st.leaf id).nextleaf = after.head?

structure Chain (st : Store K) (ids : List LeafId) : Prop where
  head : st.headleaf = ids.head?
  tail : st.tailleaf = ids.getLast?
  linked : Linked st ids
  nodup : ids.Nodup
  allocated : ∀ id, id ∈ ids → id < st.next

theorem chain_singleton {st : Store K} {id : LeafId} (hhead : st.headleaf = some id)
    (htail : st.tailleaf = some id)
    (hlinks : (st.leaf id).prevleaf = none ∧ (st.leaf id).nextleaf = none) (hid : id < st.next) :
    Chain st [id] := by
  refine ⟨hhead, htail, fun before x after heq => ?_, nodup_singleton _, fun x hx => ?_⟩
  · rcases singleton_eq_append_iff.1 heq with ⟨rfl, hx⟩ | ⟨-, hx⟩
    · cases hx
      exact hlinks
    · cases hx
  · rw [mem_singleton.1 hx]
    exact hid

/-- All leaves below the root. -/
def Tree.leaves (tree : Tree K) : List LeafId :=
  match tree.root with
  | none => []
  | some ⟨level, n⟩ => leafIds level n

/-- The tree holds the elements of a sorted sequence. -/
structure Holds [LinearOrder K] (t : Traits) (tree : Tree K) (xs : List (KeyValue K)) : Prop where
  chain : Chain tree.store tree.leaves
  items : tree.store.items tree.leaves = xs
  sorted : Ascends KeyValue.key xs
  wf : ∀ level n, tree.root = some ⟨level, n⟩ → WF t tree.store level n

/-! ## What an insertion does -/

/-- A sequence of leaves with a new one behind one of them. -/
def graft (id : LeafId) (fresh : Option LeafId) (ids : List LeafId) : List LeafId :=
  ids.flatMap fun x => if x = id then x :: fresh.toList else [x]

theorem graft_append (id : LeafId) (fresh : Option LeafId) (ids ids' : List LeafId) :
    graft id fresh (ids ++ ids') = graft id fresh ids ++ graft id fresh ids' :=
  flatMap_append

theorem graft_of_not_mem {id : LeafId} {fresh : Option LeafId} {ids : List LeafId}
    (h : id ∉ ids) : graft id fresh ids = ids := by
  induction ids with
  | nil => rfl
  | cons x ids ih =>
      rw [graft, flatMap_cons, if_neg fun heq : x = id => h (heq ▸ mem_cons_self)]
      exact congrArg (x :: ·) (ih fun hmem => h (mem_cons_of_mem x hmem))

theorem graft_split {id : LeafId} {fresh : Option LeafId} {before after : List LeafId}
    (h : (before ++ id :: after).Nodup) :
    graft id fresh (before ++ id :: after) = before ++ id :: (fresh.toList ++ after) := by
  rw [nodup_append, nodup_cons] at h
  have hbefore : id ∉ before := fun hmem => h.2.2 id hmem id mem_cons_self rfl
  rw [graft_append, graft_of_not_mem hbefore, graft, flatMap_cons, if_pos rfl]
  change before ++ (id :: fresh.toList ++ graft id fresh after) = _
  rw [graft_of_not_mem h.2.1.1, cons_append]

theorem graft_none (id : LeafId) (ids : List LeafId) : graft id none ids = ids := by
  rw [graft]
  simp

theorem mem_of_mem_graft {id x : LeafId} {fresh : Option LeafId} {ids : List LeafId}
    (h : x ∈ graft id fresh ids) : x ∈ ids ∨ fresh = some x := by
  obtain ⟨y, hy, hx⟩ := mem_flatMap.1 h
  split at hx
  · rcases mem_cons.1 hx with rfl | hx
    · exact .inl hy
    · exact .inr (Option.mem_toList.1 hx)
  · exact .inl (mem_singleton.1 hx ▸ hy)

/-- An insertion into one leaf, which may put a new leaf behind it. -/
structure Touches (st st' : Store K) (id : LeafId) (fresh : Option LeafId) : Prop where
  slots : ∀ x, x ≠ id → fresh ≠ some x → (st'.leaf x).slots = (st.leaf x).slots
  fresh_eq : ∀ x, fresh = some x → x = st.next
  chain : ∀ ids, Chain st ids → id ∈ ids → Chain st' (graft id fresh ids)

/-- The node that a split adds, if it does. -/
def addedKids {α : Type} (added : Added K α) : List α :=
  (added.map Prod.snd).toList

/-- The leaves below it. -/
def addedIds (level : Nat) (added : Added K (Node K level)) : List LeafId :=
  (addedKids added).flatMap (leafIds level)

/-- What the insertion of a pair does to a node: it leaves one node, or two with the largest key of
the first between them. -/
structure Inserted [LinearOrder K] (t : Traits) (st st' : Store K) (level : Nat)
    (n n' : Node K level) (kv : KeyValue K) (added : Added K (Node K level)) (id : LeafId)
    (fresh : Option LeafId) : Prop where
  mem : id ∈ leafIds level n
  touches : Touches st st' id fresh
  ids : leafIds level n' ++ addedIds level added = graft id fresh (leafIds level n)
  items : st'.items (graft id fresh (leafIds level n)) =
    insertLower KeyValue.key kv (contents st level n)
  wf : WF t st' level n'
  wf_added : ∀ k m, added = some (k, m) → WF t st' level m ∧ maxKey st' level n' = some k

end MABTree
end TLI
