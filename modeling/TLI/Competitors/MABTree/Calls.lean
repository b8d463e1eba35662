import TLI.Competitors.MABTree.Descend
import TLI.Competitors.MABTree.Predict

/-!
# Calls — the floating-point computations of the operations

`bulk_load_calls`, `query_calls` and `insert_calls` list what an operation computes on its way
through the tree: a prediction in every node that it visits, and the error at the middle of every
node that it builds or splits.

`visits` are the nodes on the way of a key, with the separators that the prediction is given.
-/

namespace TLI
namespace MABTree

open List

variable (p : Params UInt64)

/-! ## Lookup -/

/-- The computations of the descent of `find` and `lower_bound`. -/
def descend_calls (st : Store UInt64) (key : UInt64) :
    (level : Nat) → Node UInt64 level → Option UInt64 → Option UInt64 → List Call
  | 0, id, lo_key, hi_key =>
      predict_calls p (st.leaf id).slotkey (st.leaf id).midp_err key lo_key hi_key
  | level + 1, inner, lo_key, hi_key =>
      let slot := find_lower_inner p inner key lo_key hi_key
      predict_calls p inner.slotkey inner.midp_err key lo_key hi_key ++
        match inner.childid[slot]? with
        | some child =>
            descend_calls st key level child (child_lo inner.slotkey slot)
              (child_hi inner.slotkey slot)
        | none => []

def query_calls (tree : Tree UInt64) (key : UInt64) : List Call :=
  match tree.root with
  | some ⟨level, n⟩ => descend_calls p tree.store key level n none none
  | none => []

/-! ## Insertion -/

/-- The computations of `split_leaf_node` on a leaf with the given keys. -/
def split_leaf_calls (slotkey : List UInt64) : List Call :=
  midp_calls (slotkey.take (slotkey.length / 2)) ++ midp_calls (slotkey.drop (slotkey.length / 2))

/-- The computations of `split_inner_node`. -/
def split_inner_calls (slotkey : List UInt64) (addslot : Nat) : List Call :=
  midp_calls (slotkey.take (split_mid slotkey.length addslot)) ++
    midp_calls (slotkey.drop (split_mid slotkey.length addslot + 1))

def insert_descend_calls (kv : KeyValue UInt64) :
    (level : Nat) → Node UInt64 level → Option UInt64 → Option UInt64 → Store UInt64 → List Call
  | 0, id, lo_key, hi_key, st =>
      predict_calls p (st.leaf id).slotkey (st.leaf id).midp_err kv.key lo_key hi_key ++
        if (st.leaf id).slots.length = p.traits.leafslotmax then
          split_leaf_calls (st.leaf id).slotkey
        else []
  | level + 1, inner, lo_key, hi_key, st =>
      let slot := find_lower_inner p inner kv.key lo_key hi_key
      predict_calls p inner.slotkey inner.midp_err kv.key lo_key hi_key ++
        match inner.childid[slot]? with
        | some child =>
            insert_descend_calls kv level child (child_lo inner.slotkey slot)
                (child_hi inner.slotkey slot) st ++
              match insert_descend p kv level child (child_lo inner.slotkey slot)
                (child_hi inner.slotkey slot) st with
              | some (_, some _, _) =>
                  if inner.slotkey.length = p.traits.innerslotmax then
                    split_inner_calls inner.slotkey slot
                  else []
              | _ => []
        | none => []

def insert_calls (tree : Tree UInt64) (kv : KeyValue UInt64) : List Call :=
  let (⟨level, n⟩, st) : ((level : Nat) × Node UInt64 level) × Store UInt64 :=
    match tree.root with
    | some root => (root, tree.store)
    | none =>
        let (id, st) := tree.store.first_leaf
        (⟨0, id⟩, st)
  insert_descend_calls p kv level n none none st

/-! ## Bulk loading -/

/-- The computations of one level of inner nodes. -/
def build_level_calls {α : Type} (nodes : List (α × UInt64)) : List Call :=
  (parts (num_parts nodes.length (p.traits.innerslotmax + 1)) nodes).flatMap fun children =>
    midp_calls (children.dropLast.map Prod.snd)

def build_levels_calls :
    Nat → (level : Nat) → List (Node UInt64 level × UInt64) → List Call
  | _, _, [_] => []
  | 0, _, _ => []
  | fuel + 1, level, nodes =>
      build_level_calls p nodes ++
        match build_level p nodes with
        | some parents => build_levels_calls fuel (level + 1) parents
        | none => []

def bulk_load_calls (data : List (KeyValue UInt64)) : List Call :=
  let num_leaves := num_parts data.length p.traits.leafslotmax
  let leaves := parts num_leaves data
  let st := leaves.foldl (append_leaf p) Tree.empty.store
  leaves.flatMap (fun items => midp_calls (items.map KeyValue.key)) ++
    match st.headleaf with
    | none => []
    | some head =>
        if st.tailleaf = some head then []
        else
          match read_chain st num_leaves st.headleaf with
          | none => []
          | some leaves =>
              build_level_calls p leaves ++
                match build_level p leaves with
                | none => []
                | some nodes => build_levels_calls p num_leaves 1 nodes

/-! ## Runs -/

/-- `lower_bound` computes what `find` does. -/
inductive Request
  | find (key : UInt64)
  | insert (kv : KeyValue UInt64)

namespace Request

def calls (tree : Tree UInt64) : Request → List Call
  | .find key => query_calls p tree key
  | .insert kv => insert_calls p tree kv

def apply (tree : Tree UInt64) : Request → Option (Tree UInt64)
  | .find _ => some tree
  | .insert kv => insert_start p tree kv

end Request

/-- The computations of requests, one after another. -/
def run_calls (tree : Tree UInt64) : List Request → List Call
  | [] => []
  | request :: requests =>
      request.calls p tree ++
        match request.apply p tree with
        | some tree => run_calls tree requests
        | none => []

/-- The computations of a run: bulk loading and the requests after it. -/
def all_calls (data : List (KeyValue UInt64)) (requests : List Request) : List Call :=
  bulk_load_calls p data ++
    match bulk_load p data with
    | some tree => run_calls p tree requests
    | none => []

/-! ## The nodes on the way of a key -/

/-- A node with the separators that its prediction is given. -/
structure Visit where
  slotkey : List UInt64
  midp_err : Int
  lo_key : Option UInt64
  hi_key : Option UInt64

def visits (st : Store UInt64) (key : UInt64) :
    (level : Nat) → Node UInt64 level → Option UInt64 → Option UInt64 → List Visit
  | 0, id, lo_key, hi_key => [⟨(st.leaf id).slotkey, (st.leaf id).midp_err, lo_key, hi_key⟩]
  | level + 1, inner, lo_key, hi_key =>
      let slot := inner.slotkey.findIdx fun k => decide (key ≤ k)
      ⟨inner.slotkey, inner.midp_err, lo_key, hi_key⟩ ::
        match inner.childid[slot]? with
        | some child =>
            visits st key level child (child_lo inner.slotkey slot) (child_hi inner.slotkey slot)
        | none => []

def Tree.visits (tree : Tree UInt64) (key : UInt64) : List Visit :=
  match tree.root with
  | some ⟨level, n⟩ => MABTree.visits tree.store key level n none none
  | none => []

end MABTree
end TLI
