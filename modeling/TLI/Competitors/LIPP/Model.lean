import Mathlib.Data.List.Chain
import Mathlib.Data.Rat.Floor
import Mathlib.Logic.Function.Basic
import TLI.Library.Bitmap
import TLI.Simd

/-!
# Model — the learned index of `lipp.h`

A node maps a key to one of its items by a linear model.  Its bitmaps say which items are occupied,
and which of these are nodes again.

* The arrays of a node are functions; `item?` is a read of `items[i]`, which fails behind
  `num_items`.
* The floating-point code is a parameter (`LinearModels`): the models that are fitted to the keys,
  and what they predict.
* A failed `RT_ASSERT` ends the program; then, as after a read that fails, the result is `none`.
* `build_tree_bulk` and the loop over the iterator's stack take fuel.
* `BUILD_LR_REMAIN` is zero, as in `LIPP()`.  Released nodes are not kept for later use.
-/

namespace TLI
namespace LIPP

open Bitmap

/-- `BITMAP_SIZE(num_items)` -/
def bitmapSize (numItems : Nat) : Nat :=
  (numItems + 8 - 1) / 8

/-- `BITMAP_NEXT_1` -/
def bitmapNext (word : UInt8) : Nat :=
  Simd.ctz word.toNat

def computeGapCount (size : Nat) : Nat :=
  if 1000000 ≤ size then 1
  else if 100000 ≤ size then 2
  else 5

/-- `LinearModel<T>`, and the models that the keys of a node lead to. -/
structure LinearModels (K : Type) where
  Model : Type
  predictDouble : Model → K → ℚ
  /-- `a = b = 0` -/
  zero : Model
  /-- in `build_tree_two`; `none` if an assertion about the model fails -/
  two : K → K → Option Model
  /-- in `build_tree_bulk`; `none` if an assertion about the model fails -/
  bulk : List K → Option Model

/-- A node without its items. -/
structure Node (M : Type) where
  /-- tree size (include sub nodes) when node created -/
  buildSize : Nat
  /-- current tree size (include sub nodes) -/
  size : Nat
  /-- fixed node will not trigger rebuild -/
  fixed : Bool
  numInserts : Nat
  numInsertToData : Nat
  /-- size of items -/
  numItems : Nat
  model : M
  /-- 1 means None, 0 means Data or Child -/
  noneBitmap : Nat → UInt8
  /-- 1 means Child -/
  childBitmap : Nat → UInt8

/-- What an item holds: nothing that was written, a pair, or a pointer to a node. -/
inductive Item (M K V : Type)
  | unused
  | data (key : K) (value : V)
  | child (node : Node M) (items : Nat → Item M K V)
  deriving Inhabited

variable {K V : Type}

/-- `comp.data` -/
def Item.data? {M : Type} : Item M K V → Option (K × V)
  | .data key value => some (key, value)
  | _ => none

/-- `PREDICT_POS` -/
def predictPos (F : LinearModels K) (model : F.Model) (numItems : Nat) (key : K) : Nat :=
  let v := F.predictDouble model key
  if 1073741823 < v then numItems - 1
  else if v < 0 then 0
  else min (numItems - 1) ⌊v⌋₊

/-- `node->items[i]` -/
def item? {M : Type} (node : Node M) (items : Nat → Item M K V) (i : Nat) :
    Option (Item M K V) :=
  if i < node.numItems then some (items i) else none

section

variable [LinearOrder K] (F : LinearModels K)

/-! ## Building -/

/-- `build_tree_none` -/
def buildTreeNone : Item F.Model K V :=
  .child
    { buildSize := 0, size := 0, fixed := false, numInserts := 0, numInsertToData := 0
      numItems := 1, model := F.zero
      noneBitmap := Bitmap.set (fun _ => 0) 0
      childBitmap := fun _ => 0 }
    (fun _ => .unused)

/-- A new node, all of whose items are `None`. -/
def newNode {M : Type} (size numItems : Nat) (model : M) : Node M :=
  { buildSize := size, size := size, fixed := decide (10 ^ 6 < size)
    numInserts := 0, numInsertToData := 0, numItems := numItems, model := model
    noneBitmap := fun _ => 0xff, childBitmap := fun _ => 0 }

/-- A pair is written to an item. -/
def putData {M : Type} (pos : Nat) (p : K × V) (t : Node M × (Nat → Item M K V)) :
    Node M × (Nat → Item M K V) :=
  ({ t.1 with noneBitmap := clear t.1.noneBitmap pos },
    Function.update t.2 pos (.data p.1 p.2))

/-- A node is written to an item. -/
def putChild {M : Type} (pos : Nat) (child : Item M K V) (t : Node M × (Nat → Item M K V)) :
    Node M × (Nat → Item M K V) :=
  ({ t.1 with
      noneBitmap := clear t.1.noneBitmap pos
      childBitmap := Bitmap.set t.1.childBitmap pos },
    Function.update t.2 pos child)

/-- One of the two blocks of `build_tree_two`, `insert key&value`. -/
def placeNew (p : K × V) (t : Node F.Model × (Nat → Item F.Model K V)) :
    Option (Node F.Model × (Nat → Item F.Model K V)) :=
  let pos := predictPos F t.1.model t.1.numItems p.1
  if get t.1.noneBitmap pos then some (putData pos p t) else none

/-- `build_tree_two`, once the keys are in order. -/
def buildOrdered (p q : K × V) : Option (Item F.Model K V) :=
  if p.1 < q.1 then do
    let model ← F.two p.1 q.1
    let t ← placeNew F p (newNode 2 8 model, fun _ => .unused)
    let t ← placeNew F q t
    return .child t.1 t.2
  else
    none

/-- `build_tree_two` -/
def buildTreeTwo (p q : K × V) : Option (Item F.Model K V) :=
  if q.1 < p.1 then buildOrdered F q p else buildOrdered F p q

/-- The loop of `build_tree_bulk` over the items: keys with the same position go to one item, and
more than one of them to a node of their own. -/
def fillItems (build : List (K × V) → Option (Item F.Model K V)) :
    Nat → List (K × V) → Node F.Model × (Nat → Item F.Model K V) →
      Option (Node F.Model × (Nat → Item F.Model K V))
  | 0, _, t => some t
  | _ + 1, [], t => some t
  | n + 1, p :: xs, t =>
      let itemI := predictPos F t.1.model t.1.numItems p.1
      let same := fun q : K × V => decide (predictPos F t.1.model t.1.numItems q.1 = itemI)
      if xs.takeWhile same = [] then
        fillItems build n (xs.dropWhile same) (putData itemI p t)
      else do
        let child ← build (p :: xs.takeWhile same)
        fillItems build n (xs.dropWhile same) (putChild itemI child t)

/-- `build_tree_bulk` -/
def buildTreeBulk : Nat → List (K × V) → Option (Item F.Model K V)
  | 0, _ => none
  | _ + 1, [] => none
  | _ + 1, [_] => none
  | _ + 1, [p, q] => buildTreeTwo F p q
  | fuel + 1, p :: q :: r :: rest => do
      let xs := p :: q :: r :: rest
      let model ← F.bulk (xs.map Prod.fst)
      let numItems := xs.length * (computeGapCount xs.length + 1)
      let t ← fillItems F (buildTreeBulk fuel) xs.length xs
        (newNode xs.length numItems model, fun _ => .unused)
      return .child t.1 t.2

/-! ## Inserting -/

/-- `scan_and_destory_tree`: the pairs of a tree, item by item. -/
def scanTree {M : Type} : Item M K V → Option (List (K × V))
  | .unused => none
  | .data _ _ => none
  | .child node items => do
      let parts ← (List.range node.numItems).mapM fun i =>
        if get node.noneBitmap i then some []
        else if get node.childBitmap i then scanTree (items i)
        else (items i).data?.map fun p => [p]
      if parts.flatten.length = node.size then some parts.flatten else none

def maxDepth : Nat := 128

/-- The first loop of `insert_tree`: the tree with the new pair, `insert_to_data`, and the number
of nodes on the path. -/
def insertPath (key : K) (value : V) : Nat → Item F.Model K V →
    Option (Item F.Model K V × Nat × Nat)
  | _, .unused => none
  | _, .data _ _ => none
  | pathSize, .child node items =>
      if pathSize < maxDepth then
        let node := { node with size := node.size + 1, numInserts := node.numInserts + 1 }
        let pos := predictPos F node.model node.numItems key
        if get node.noneBitmap pos then
          let t := putData pos (key, value) (node, items)
          some (.child t.1 t.2, 0, pathSize + 1)
        else if get node.childBitmap pos then do
          let (child, insertToData, n) ← insertPath key value (pathSize + 1) (items pos)
          let node := { node with numInsertToData := node.numInsertToData + insertToData }
          return (.child node (Function.update items pos child), insertToData, n)
        else do
          let p ← (items pos).data?
          let child ← buildTreeTwo F (key, value) p
          let node := { node with
            childBitmap := Bitmap.set node.childBitmap pos
            numInsertToData := node.numInsertToData + 1 }
          return (.child node (Function.update items pos child), 1, pathSize + 1)
      else
        none

def Node.needRebuild {M : Type} (node : Node M) : Bool :=
  !node.fixed && decide (node.buildSize * 4 ≤ node.size) && decide (64 ≤ node.size) &&
    decide (node.numInserts ≤ node.numInsertToData * 10)

/-- The last loop of `insert_tree`: the first node on the path that needs it is built again. -/
def rebuildPath (fuel : Nat) (key : K) : Nat → Item F.Model K V → Option (Item F.Model K V)
  | _, .unused => none
  | _, .data _ _ => none
  | 0, .child node items => some (.child node items)
  | n + 1, .child node items =>
      if node.needRebuild then do
        let xs ← scanTree (.child node items)
        buildTreeBulk F fuel xs
      else if n = 0 then
        some (.child node items)
      else do
        let pos := predictPos F node.model node.numItems key
        let child ← rebuildPath fuel key n (items pos)
        return .child node (Function.update items pos child)

/-- `insert_tree` -/
def insertTree (fuel : Nat) (root : Item F.Model K V) (key : K) (value : V) :
    Option (Item F.Model K V) := do
  let (tree, _, pathSize) ← insertPath F key value 0 root
  rebuildPath F fuel key pathSize tree

/-- `bulk_load` -/
def bulkLoad (fuel : Nat) : List (K × V) → Option (Item F.Model K V)
  | [] => some (buildTreeNone F)
  | [p] => insertTree F fuel (buildTreeNone F) p.1 p.2
  | [p, q] => buildTreeTwo F p q
  | p :: q :: r :: rest =>
      if (p :: q :: r :: rest).IsChain fun p q => p.1 < q.1 then
        buildTreeBulk F fuel (p :: q :: r :: rest)
      else
        none

end

/-! ## Iterating -/

/-- `StackTuple`, where `items` belong to `node`. -/
structure StackTuple (M K V : Type) where
  node : Node M
  items : Nat → Item M K V
  index : Nat
  oneBitmap : UInt8

/-- `node->items + pos` -/
structure Pointer (M K V : Type) where
  node : Node M
  items : Nat → Item M K V
  pos : Nat

/-- `LIPPIterator`; `it` is null at the end. -/
structure Iterator (M K V : Type) where
  stack : List (StackTuple M K V)
  it : Option (Pointer M K V)

section

variable {M : Type}

/-- `it->comp.data` -/
def Pointer.data? (p : Pointer M K V) : Option (K × V) :=
  (item? p.node p.items p.pos).bind Item.data?

/-- `ctuple`: all items of a node are still to come. -/
def startTuple (node : Node M) (items : Nat → Item M K V) : StackTuple M K V where
  node := node
  items := items
  index := 0
  oneBitmap := ~~~ node.noneBitmap 0

/-- The items of a node behind a position are still to come. -/
def tupleBehind (node : Node M) (items : Nat → Item M K V) (pos : Nat) : StackTuple M K V where
  node := node
  items := items
  index := pos / 8
  oneBitmap := ~~~ (node.noneBitmap (pos / 8) ||| UInt8.ofNat (1 <<< (pos % 8 + 1) - 1))

/-- `bitmap_next_1` -/
def StackTuple.bitmapNext1 (tuple : StackTuple M K V) : Nat × UInt8 :=
  nextWord (fun i => ~~~ tuple.node.noneBitmap i)
    (bitmapSize tuple.node.numItems - (tuple.index + 1)) tuple.index tuple.oneBitmap

/-- `advance_stack` -/
def advanceStack : Nat → List (StackTuple M K V) → Option (Iterator M K V)
  | 0, _ => none
  | _ + 1, [] => some { stack := [], it := none }
  | fuel + 1, tuple :: stack =>
      let (index, oneBitmap) := tuple.bitmapNext1
      if oneBitmap = 0 then advanceStack fuel stack
      else
        let next := bitmapNext oneBitmap
        let newI := index * 8 + next
        let stack := { tuple with index := index, oneBitmap := oneBitmap - mask next } :: stack
        if get tuple.node.childBitmap newI then
          match item? tuple.node tuple.items newI with
          | some (.child node items) =>
              advanceStack fuel (startTuple node items :: stack)
          | _ => none
        else some { stack := stack, it := some ⟨tuple.node, tuple.items, newI⟩ }

end

variable [LinearOrder K] (F : LinearModels K)

/-- `lower_bound`, from a node on. -/
def lowerBound (fuel : Nat) (key : K) :
    Item F.Model K V → List (StackTuple F.Model K V) → Option (Iterator F.Model K V)
  | .unused, _ => none
  | .data _ _, _ => none
  | .child node items, stack =>
      let pos := predictPos F node.model node.numItems key
      let stack := tupleBehind node items pos :: stack
      if get node.childBitmap pos then
        if pos < node.numItems then lowerBound fuel key (items pos) stack else none
      else if get node.noneBitmap pos then advanceStack fuel stack
      else do
        let p ← (item? node items pos).bind Item.data?
        if key ≤ p.1 then some { stack := stack, it := some ⟨node, items, pos⟩ }
        else advanceStack fuel stack

end LIPP
end TLI
