import Mathlib.Order.Basic
import TLI.Util

/-!
# Model — the B+ tree of `MADEX/src/mabtree.h` behind `competitors/mabtree.h`

Leaves are linked to a chain and live in a store, under the number of their allocation.  The inner
nodes of level `level + 1` are values over nodes of level `level`; a node of level 0 is the number
of a leaf.

* `slotkey[0 .. slotuse)` and `childid[0 .. slotuse]` are lists, `slotkey[i]` and `slotdata[i]` of a
  leaf one entry of a list of pairs; `slotuse` is the length.
* The results of floating-point arithmetic are parameters (`Arithmetic`), so is the search inside a
  node (`SearchClass`).
* A read behind the end of an array is `none`; the loops over the chain take fuel.
-/

namespace TLI
namespace MABTree

/-- `leafslots`, `innerslots` and `page_size / sizeof(key_type)`.  All three are kept in an
`unsigned short`, like each `slotuse`, which never exceeds them. -/
structure Traits where
  leafslotmax : Nat
  innerslotmax : Nat
  predict_threshold : Nat
  leafslotmax_ge : 8 ≤ leafslotmax
  innerslotmax_ge : 8 ≤ innerslotmax

namespace Traits

def correct_threshold (t : Traits) : Nat :=
  t.predict_threshold

end Traits

/-- What is computed in `double` and converted to `int`. -/
structure Arithmetic (K : Type) where
  compute_predict_pos : (key lo_key hi_key : K) → (lo_pos hi_pos : Int) → Int
  /-- `int(double(a) / b * c)` -/
  scale : (a b c : Int) → Int

/-- The lower bound in a sorted window, from any start in it. -/
structure SearchClass (K : Type) [LinearOrder K] where
  lower_bound : (window : List K) → (key : K) → (start : Nat) → Nat
  exact : ∀ {window : List K} {key : K} {start : Nat}, window.Pairwise (· ≤ ·) →
    start ≤ window.length →
      lower_bound window key start = window.findIdx fun k => decide (key ≤ k)

structure Params (K : Type) [LinearOrder K] where
  traits : Traits
  arithmetic : Arithmetic K
  search : SearchClass K

/-! ## Nodes -/

abbrev LeafId := Nat

structure Leaf (K : Type) where
  midp_err : Int
  slots : List (KeyValue K)
  prevleaf : Option LeafId
  nextleaf : Option LeafId

structure Inner (K : Type) (α : Type) where
  midp_err : Int
  slotkey : List K
  childid : List α

/-- A node of the given level. -/
abbrev Node (K : Type) : Nat → Type
  | 0 => LeafId
  | level + 1 => Inner K (Node K level)

structure Store (K : Type) where
  leaf : LeafId → Leaf K
  /-- The number the next leaf gets. -/
  next : LeafId
  headleaf : Option LeafId
  tailleaf : Option LeafId

namespace Store

variable {K : Type}

def set (st : Store K) (id : LeafId) (leaf : Leaf K) : Store K :=
  { st with leaf := Function.update st.leaf id leaf }

/-- `allocate_leaf` -/
def allocate_leaf (st : Store K) : LeafId × Store K :=
  (st.next, { st.set st.next ⟨0, [], none, none⟩ with next := st.next + 1 })

/-- `m_headleaf = m_tailleaf = allocate_leaf()` -/
def first_leaf (st : Store K) : LeafId × Store K :=
  let (id, st) := st.allocate_leaf
  (id, { st with headleaf := some id, tailleaf := some id })

/-- Move items and put the data item into the correct slot. -/
def put (st : Store K) (id : LeafId) (slot : Nat) (kv : KeyValue K) : Store K :=
  st.set id { st.leaf id with slots := (st.leaf id).slots.insertIdx slot kv }

/-- Make `newleaf` the leaf in front of the successor of a split leaf, or the last one. -/
def relink (st : Store K) (nextleaf : Option LeafId) (newleaf : LeafId) : Store K :=
  match nextleaf with
  | none => { st with tailleaf := some newleaf }
  | some next => st.set next { st.leaf next with prevleaf := some newleaf }

end Store

structure Tree (K : Type) where
  root : Option ((level : Nat) × Node K level)
  store : Store K

variable {K : Type}

/-- A leaf's `slotkey`. -/
def Leaf.slotkey (leaf : Leaf K) : List K :=
  leaf.slots.map KeyValue.key

/-- A tree before anything is stored. -/
def Tree.empty : Tree K where
  root := none
  store := ⟨fun _ => ⟨0, [], none, none⟩, 0, none, none⟩

variable [LinearOrder K]

/-! ## Search inside a node -/

/-- `_strip_pos` of an inner node. -/
def strip_pos_inner (slotuse : Nat) (pos : Int) : Nat :=
  (if pos < 0 then 0 else if pos > slotuse then (slotuse : Int) else pos).toNat

/-- `_strip_pos` of a leaf. -/
def strip_pos_leaf (slotuse : Nat) (pos : Int) : Nat :=
  (if pos < 0 then 0 else if pos > (slotuse : Int) - 1 then (slotuse : Int) - 1 else pos).toNat

def predict_correct_pos (p : Params K) (slotuse : Nat) (midp_err : Int) (key lo_key hi_key : K)
    (lo_pos : Int) : Int :=
  let pos := p.arithmetic.compute_predict_pos key lo_key hi_key lo_pos ((slotuse : Int) - 1)
  if midp_err > p.traits.correct_threshold then
    let mid : Int := ((slotuse - 1) / 2 : Nat)
    let midp_est := mid + midp_err
    if pos < midp_est then pos - p.arithmetic.scale (pos - lo_pos) (midp_est - lo_pos) midp_err
    else if pos > midp_est then
      pos - p.arithmetic.scale ((slotuse : Int) - 1 - pos) ((slotuse : Int) - 1 - midp_est) midp_err
    else mid
  else pos

/-- `predict_pos` of a node with the given `_strip_pos`. -/
def predict_pos (p : Params K) (strip_pos : Nat → Int → Nat) (slotkey : List K) (midp_err : Int)
    (key : K) (lo_key hi_key : Option K) : Nat :=
  if slotkey.length > p.traits.predict_threshold then
    let pos :=
      match lo_key, hi_key with
      | some lo, some hi => predict_correct_pos p slotkey.length midp_err key lo hi (-1)
      | _, _ =>
          match slotkey.head?, slotkey.getLast? with
          | some lo, some hi => predict_correct_pos p slotkey.length midp_err key lo hi 0
          | _, _ => 0
    strip_pos slotkey.length pos
  else 0

def compute_midp_err (p : Params K) (slotkey : List K) : Int :=
  if slotkey.length < 2 then 0
  else
    let mid := (slotkey.length - 1) / 2
    match slotkey[mid]?, slotkey.head?, slotkey.getLast? with
    | some key, some lo, some hi =>
        p.arithmetic.compute_predict_pos key lo hi 0 ((slotkey.length : Int) - 1) - mid
    | _, _, _ => 0

/-- `find_lower` of an inner node, from the predicted position. -/
def find_lower_inner {α : Type} (p : Params K) (inner : Inner K α) (key : K)
    (lo_key hi_key : Option K) : Nat :=
  p.search.lower_bound inner.slotkey key
    (predict_pos p strip_pos_inner inner.slotkey inner.midp_err key lo_key hi_key)

/-- `find_lower` of a leaf, from the predicted position. -/
def find_lower_leaf (p : Params K) (leaf : Leaf K) (key : K) (lo_key hi_key : Option K) : Nat :=
  p.search.lower_bound leaf.slotkey key
    (predict_pos p strip_pos_leaf leaf.slotkey leaf.midp_err key lo_key hi_key)

/-- The keys on both sides of a child. -/
def child_lo (slotkey : List K) (slot : Nat) : Option K :=
  if 0 < slot then slotkey[slot - 1]? else none

def child_hi (slotkey : List K) (slot : Nat) : Option K :=
  if slot < slotkey.length then slotkey[slot]? else none

/-! ## Lookup -/

/-- The descent of `find` and `lower_bound`: the leaf and the slot in it. -/
def descend (p : Params K) (st : Store K) (key : K) :
    (level : Nat) → Node K level → Option K → Option K → Option (LeafId × Nat)
  | 0, id, lo_key, hi_key => some (id, find_lower_leaf p (st.leaf id) key lo_key hi_key)
  | level + 1, inner, lo_key, hi_key => do
      let slot := find_lower_inner p inner key lo_key hi_key
      let child ← inner.childid[slot]?
      descend p st key level child (child_lo inner.slotkey slot) (child_hi inner.slotkey slot)

/-- An iterator: the leaf, if there is one, and the slot. -/
abbrev Iterator := Option LeafId × Nat

def Store.end_ (st : Store K) : Iterator :=
  (st.tailleaf, match st.tailleaf with
    | some id => (st.leaf id).slots.length
    | none => 0)

/-- The slot of an iterator, `it->first` and `it->second`. -/
def Store.deref (st : Store K) (it : Iterator) : Option (KeyValue K) := do
  let id ← it.1
  (st.leaf id).slots[it.2]?

/-- `++it` -/
def Store.increment (st : Store K) : Iterator → Iterator
  | (some id, currslot) =>
      if currslot + 1 < (st.leaf id).slots.length then (some id, currslot + 1)
      else
        match (st.leaf id).nextleaf with
        | some next => (some next, 0)
        | none => (some id, (st.leaf id).slots.length)
  | (none, currslot) => (none, currslot)

def find (p : Params K) (tree : Tree K) (key : K) : Option Iterator :=
  match tree.root with
  | none => some tree.store.end_
  | some ⟨level, n⟩ => do
      let (id, slot) ← descend p tree.store key level n none none
      match (tree.store.leaf id).slots[slot]? with
      | some kv => if kv.key = key then return (some id, slot) else return tree.store.end_
      | none => return tree.store.end_

def lower_bound (p : Params K) (tree : Tree K) (key : K) : Option Iterator :=
  match tree.root with
  | none => some tree.store.end_
  | some ⟨level, n⟩ => do
      let (id, slot) ← descend p tree.store key level n none none
      return (some id, slot)

/-! ## Insertion -/

/-- `split_leaf_node`: the key and the number of the new leaf. -/
def split_leaf_node (p : Params K) (st : Store K) (id : LeafId) :
    Option (K × LeafId × Store K) := do
  let leaf := st.leaf id
  let mid := leaf.slots.length / 2
  let (newId, st) := st.allocate_leaf
  let newleaf : Leaf K :=
    { midp_err := compute_midp_err p ((leaf.slots.drop mid).map KeyValue.key)
      slots := leaf.slots.drop mid
      prevleaf := some id
      nextleaf := leaf.nextleaf }
  let st := st.relink leaf.nextleaf newId
  let oldleaf : Leaf K :=
    { leaf with
      midp_err := compute_midp_err p ((leaf.slots.take mid).map KeyValue.key)
      slots := leaf.slots.take mid
      nextleaf := some newId }
  let last ← oldleaf.slots.getLast?
  return (last.key, newId, (st.set newId newleaf).set id oldleaf)

/-- The key and the node that a split adds to the parent. -/
abbrev Added (K α : Type) := Option (K × α)

/-- The leaf case of `insert_descend`. -/
def insert_leaf (p : Params K) (st : Store K) (id : LeafId) (kv : KeyValue K)
    (lo_key hi_key : Option K) : Option (Added K LeafId × Store K) := do
  let slot := find_lower_leaf p (st.leaf id) kv.key lo_key hi_key
  if (st.leaf id).slots.length = p.traits.leafslotmax then
    let (splitkey, newId, st) ← split_leaf_node p st id
    -- check if insert slot is in the split sibling node
    if slot ≥ (st.leaf id).slots.length then
      return (some (splitkey, newId), st.put newId (slot - (st.leaf id).slots.length) kv)
    else
      -- special case: the insert is at the last slot of the old node
      let splitkey := if slot = (st.leaf id).slots.length then kv.key else splitkey
      return (some (splitkey, newId), st.put id slot kv)
  else return (none, st.put id slot kv)

/-- `mid` of `split_inner_node`. -/
def split_mid (slotuse addslot : Nat) : Nat :=
  let mid := slotuse / 2
  -- if the split is uneven and the overflowing item will be put into the larger node, then the
  -- smaller split node may underflow
  if addslot ≤ mid ∧ mid > slotuse - (mid + 1) then mid - 1 else mid

/-- `split_inner_node`: the left node, the key between both, the right node. -/
def split_inner_node {α : Type} (p : Params K) (inner : Inner K α) (addslot : Nat) :
    Option (Inner K α × K × Inner K α) := do
  let mid := split_mid inner.slotkey.length addslot
  let newkey ← inner.slotkey[mid]?
  let left : Inner K α :=
    { midp_err := compute_midp_err p (inner.slotkey.take mid)
      slotkey := inner.slotkey.take mid
      childid := inner.childid.take (mid + 1) }
  let right : Inner K α :=
    { midp_err := compute_midp_err p (inner.slotkey.drop (mid + 1))
      slotkey := inner.slotkey.drop (mid + 1)
      childid := inner.childid.drop (mid + 1) }
  return (left, newkey, right)

/-- Move items and put the pointer to the new child into the correct slot. -/
def Inner.put {α : Type} (inner : Inner K α) (slot : Nat) (newkey : K) (newchild : α) :
    Inner K α :=
  { inner with
    slotkey := inner.slotkey.insertIdx slot newkey
    childid := inner.childid.insertIdx (slot + 1) newchild }

/-- What `insert_descend` does with a new child next to `slot`. -/
def insert_child {α : Type} (p : Params K) (inner : Inner K α) (slot : Nat) (newkey : K)
    (newchild : α) : Option (Inner K α × Added K (Inner K α)) :=
  if inner.slotkey.length = p.traits.innerslotmax then do
    let (left, splitkey, right) ← split_inner_node p inner slot
    if slot = left.slotkey.length + 1 ∧ left.slotkey.length < right.slotkey.length then
      -- special case when the insert slot matches the split place between the two nodes, then the
      -- insert key becomes the split key.
      let first ← right.childid.head?
      return ({ left with
          slotkey := left.slotkey ++ [splitkey]
          childid := left.childid ++ [first] },
        some (newkey, { right with childid := right.childid.set 0 newchild }))
    else if slot ≥ left.slotkey.length + 1 then
      return (left,
        some (splitkey, right.put (slot - (left.slotkey.length + 1)) newkey newchild))
    else return (left.put slot newkey newchild, some (splitkey, right))
  else some (inner.put slot newkey newchild, none)

def insert_descend (p : Params K) (kv : KeyValue K) :
    (level : Nat) → Node K level → Option K → Option K → Store K →
      Option (Node K level × Added K (Node K level) × Store K)
  | 0, id, lo_key, hi_key, st => do
      let (added, st) ← insert_leaf p st id kv lo_key hi_key
      return (id, added, st)
  | level + 1, inner, lo_key, hi_key, st => do
      let slot := find_lower_inner p inner kv.key lo_key hi_key
      let child ← inner.childid[slot]?
      let (child', added, st) ← insert_descend p kv level child (child_lo inner.slotkey slot)
        (child_hi inner.slotkey slot) st
      let inner : Inner K (Node K level) := { inner with childid := inner.childid.set slot child' }
      match added with
      | none => return (inner, none, st)
      | some (newkey, newchild) => do
          let (inner, added) ← insert_child p inner slot newkey newchild
          return (inner, added, st)

/-- The root after an insertion below the old one. -/
def new_root (level : Nat) (n : Node K level) : Added K (Node K level) →
    (level : Nat) × Node K level
  | none => ⟨level, n⟩
  | some (newkey, newchild) =>
      let newroot : Inner K (Node K level) :=
        { midp_err := 0, slotkey := [newkey], childid := [n, newchild] }
      ⟨level + 1, newroot⟩

def insert_start (p : Params K) (tree : Tree K) (kv : KeyValue K) : Option (Tree K) := do
  let (⟨level, n⟩, st) : ((level : Nat) × Node K level) × Store K :=
    match tree.root with
    | some root => (root, tree.store)
    | none =>
        let (id, st) := tree.store.first_leaf
        (⟨0, id⟩, st)
  let (n, added, st) ← insert_descend p kv level n none none st
  return { root := some (new_root level n added), store := st }

/-! ## Bulk loading -/

/-- Parts of a sequence: of `k` parts that are left, the next one gets `left / k` of the items. -/
def parts {α : Type} : Nat → List α → List (List α)
  | 0, _ => []
  | k + 1, xs => xs.take (xs.length / (k + 1)) :: parts k (xs.drop (xs.length / (k + 1)))

/-- The number of parts of at most `max` items, rounded up. -/
def num_parts (items max : Nat) : Nat :=
  (items + max - 1) / max

/-- Link a leaf behind the last one, whose number it has in `prevleaf` already. -/
def Store.link_last (st : Store K) (id : LeafId) : Store K :=
  match st.tailleaf with
  | some tail =>
      { st.set tail { st.leaf tail with nextleaf := some id } with tailleaf := some id }
  | none => { st with headleaf := some id, tailleaf := some id }

/-- A new leaf with the given items behind the last one. -/
def append_leaf (p : Params K) (st : Store K) (items : List (KeyValue K)) : Store K :=
  let (id, st) := st.allocate_leaf
  let leaf : Leaf K :=
    { midp_err := compute_midp_err p (items.map KeyValue.key)
      slots := items
      prevleaf := st.tailleaf
      nextleaf := none }
  (st.set id leaf).link_last id

/-- The leaves of the chain with their last keys, as the first level of inner nodes reads them. -/
def read_chain (st : Store K) : Nat → Option LeafId → Option (List (LeafId × K))
  | 0, _ => some []
  | _ + 1, none => none
  | n + 1, some id => do
      let last ← (st.leaf id).slots.getLast?
      let others ← read_chain st n (st.leaf id).nextleaf
      return (id, last.key) :: others

/-- An inner node over some children with their last keys, and its own last key. -/
def make_inner {α : Type} (p : Params K) (children : List (α × K)) : Option (Inner K α × K) := do
  let last ← children.getLast?
  let slotkey := children.dropLast.map Prod.snd
  return ({ midp_err := compute_midp_err p slotkey, slotkey := slotkey,
            childid := children.map Prod.fst }, last.2)

/-- One level of inner nodes over the nodes of the level below. -/
def build_level {α : Type} (p : Params K) (nodes : List (α × K)) : Option (List (Inner K α × K)) :=
  (parts (num_parts nodes.length (p.traits.innerslotmax + 1)) nodes).mapM (make_inner p)

/-- Recursively build inner nodes until one is left, with at most the given number of levels. -/
def build_levels (p : Params K) :
    Nat → (level : Nat) → List (Node K level × K) → Option ((level : Nat) × Node K level)
  | _, level, [(n, _)] => some ⟨level, n⟩
  | 0, _, _ => none
  | fuel + 1, level, nodes => do
      let parents ← build_level p nodes
      build_levels p fuel (level + 1) parents

def bulk_load (p : Params K) (data : List (KeyValue K)) : Option (Tree K) := do
  let num_leaves := num_parts data.length p.traits.leafslotmax
  let st := (parts num_leaves data).foldl (append_leaf p) Tree.empty.store
  match st.headleaf with
  | none => return { root := none, store := st }
  | some head =>
      if st.tailleaf = some head then return { root := some ⟨0, head⟩, store := st }
      else do
        let leaves ← read_chain st num_leaves st.headleaf
        let nodes ← build_level p leaves
        let root ← build_levels p num_leaves 1 nodes
        return { root := some root, store := st }

/-! ## The index -/

def Build (p : Params K) (data : List (KeyValue K)) : Option (Tree K) :=
  bulk_load p data

def EqualityLookup (p : Params K) (tree : Tree K) (lookup_key : K) : Option UInt64 := do
  let it ← find p tree lookup_key
  if it = tree.store.end_ then return Util.NOT_FOUND
  else do
    let kv ← tree.store.deref it
    return kv.value

/-- The `while` loop of `RangeQuery`, with at most the given number of turns. -/
def sumUpTo (st : Store K) (upper_key : K) : Nat → Iterator → UInt64 → Option UInt64
  | 0, _, _ => none
  | turns + 1, it, result =>
      if it = st.end_ then some result
      else do
        let kv ← st.deref it
        if kv.key ≤ upper_key then sumUpTo st upper_key turns (st.increment it) (result + kv.value)
        else return result

def RangeQuery (fuel : Nat) (p : Params K) (tree : Tree K) (lower_key upper_key : K) :
    Option UInt64 := do
  let it ← lower_bound p tree lower_key
  sumUpTo tree.store upper_key fuel it 0

def Insert (p : Params K) (tree : Tree K) (data : KeyValue K) : Option (Tree K) :=
  insert_start p tree data

/-- A walk of the leaf chain from the first leaf on. -/
def walk (st : Store K) : Nat → Option LeafId → Option (List (KeyValue K))
  | _, none => some []
  | 0, some _ => none
  | turns + 1, some id => do
      let others ← walk st turns (st.leaf id).nextleaf
      return (st.leaf id).slots ++ others

end MABTree
end TLI
