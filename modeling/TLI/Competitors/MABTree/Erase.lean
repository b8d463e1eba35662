import TLI.Competitors.MABTree.Model

/-!
# Erase — removal of a key, and what is done about a node that underflows by it

`erase_one_descend` hands the neighbours of a node down with it.  What it then does to the parent
and to a sibling is returned to the caller here and done there:

* `lastkey` — the key for the node's slot in its parent (`btree_update_lastkey`), or further up.
* `fix` — how the underflow is resolved.  A sibling is a child of the same parent; a neighbour below
  another inner node is only asked for its `slotuse`.

An inner node above the current one is named by its level.  A failed assertion is `none`, like a
read outside an array.
-/

namespace TLI
namespace MABTree

namespace Traits

def minleafslots (t : Traits) : Nat :=
  t.leafslotmax / 2

def mininnerslots (t : Traits) : Nat :=
  t.innerslotmax / 2

/-- The slots below which a node of the level underflows. -/
def minslots (t : Traits) : Nat → Nat
  | 0 => t.minleafslots
  | _ + 1 => t.mininnerslots

end Traits

variable {K : Type}

def slotuse (st : Store K) : (level : Nat) → Node K level → Nat
  | 0, id => (st.leaf id).slots.length
  | _ + 1, inner => inner.slotkey.length

/-! ## The cases of an underflow -/

inductive Fix where
  | ok
  /-- The root is empty, or has just one child. -/
  | root
  | mergeLeft
  | mergeRight
  | shiftLeft
  | shiftRight

/-- What to do about a node with `slotuse` slots, whose neighbours use `left` and `right`. -/
def underflow (min slotuse : Nat) (left right leftparent rightparent parent : Option Nat) :
    Option Fix :=
  if min ≤ slotuse ∨ parent = none ∧ 1 ≤ slotuse then some .ok
  else if left = none ∧ right = none then some .root
  else if (∀ l, l ∈ left → l ≤ min) ∧ ∀ r, r ∈ right → r ≤ min then
    some (if leftparent = parent then .mergeLeft else .mergeRight)
  else if (∃ l, l ∈ left ∧ l ≤ min) ∧ ∃ r, r ∈ right ∧ min < r then
    some (if rightparent = parent then .shiftLeft else .mergeLeft)
  else if (∃ l, l ∈ left ∧ min < l) ∧ ∃ r, r ∈ right ∧ r ≤ min then
    some (if leftparent = parent then .shiftRight else .mergeRight)
  else if leftparent = rightparent then do
    let l ← left
    let r ← right
    return if l ≤ r then .shiftLeft else .shiftRight
  else some (if leftparent = parent then .shiftRight else .shiftLeft)

/-! ## Merging and shifting -/

namespace Store

/-- All slots of the right leaf move to the left one. -/
def merge_leaves (t : Traits) (st : Store K) (left right : LeafId) : Option (Store K) :=
  let leftleaf := st.leaf left
  let rightleaf := st.leaf right
  if leftleaf.slots.length + rightleaf.slots.length < t.leafslotmax then
    let merged : Leaf K :=
      { leftleaf with
        slots := leftleaf.slots ++ rightleaf.slots
        nextleaf := rightleaf.nextleaf }
    let st := (st.set left merged).relink rightleaf.nextleaf left
    some (st.set right { st.leaf right with slots := [] })
  else none

/-- Two leaves that are linked get new slots, with the key between them. -/
def divide (st : Store K) (left right : LeafId) (leftslots rightslots : List (KeyValue K)) :
    Option (K × Store K) := do
  let last ← leftslots.getLast?
  let st := st.set left { st.leaf left with slots := leftslots }
  return (last.key, st.set right { st.leaf right with slots := rightslots })

def shift_left_leaf (t : Traits) (st : Store K) (left right : LeafId) : Option (K × Store K) :=
  let leftslots := (st.leaf left).slots
  let rightslots := (st.leaf right).slots
  let shiftnum := (rightslots.length - leftslots.length) / 2
  if (st.leaf left).nextleaf = some right ∧ (st.leaf right).prevleaf = some left ∧
      leftslots.length < rightslots.length ∧ leftslots.length + shiftnum < t.leafslotmax then
    st.divide left right (leftslots ++ rightslots.take shiftnum) (rightslots.drop shiftnum)
  else none

def shift_right_leaf (t : Traits) (st : Store K) (left right : LeafId) : Option (K × Store K) :=
  let leftslots := (st.leaf left).slots
  let rightslots := (st.leaf right).slots
  let shiftnum := (leftslots.length - rightslots.length) / 2
  if (st.leaf left).nextleaf = some right ∧ (st.leaf right).prevleaf = some left ∧
      rightslots.length < leftslots.length ∧ rightslots.length + shiftnum < t.leafslotmax then
    st.divide left right (leftslots.take (leftslots.length - shiftnum))
      (leftslots.drop (leftslots.length - shiftnum) ++ rightslots)
  else none

end Store

section Inner

variable {α : Type}

/-- All keys and children of the right node move to the left one, behind the key of the parent. -/
def merge_inner (t : Traits) (left right : Inner K α) (parentkey : K) :
    Option (Inner K α × Inner K α) :=
  if left.slotkey.length + right.slotkey.length < t.innerslotmax then
    let merged : Inner K α :=
      { left with
        slotkey := left.slotkey ++ parentkey :: right.slotkey
        childid := left.childid ++ right.childid }
    some (merged, { right with slotkey := [], childid := right.childid.take 1 })
  else none

/-- The left node, the new key of the parent, the right node. -/
def shift_left_inner (t : Traits) (left right : Inner K α) (parentkey : K) :
    Option (Inner K α × K × Inner K α) :=
  let shiftnum := (right.slotkey.length - left.slotkey.length) / 2
  if left.slotkey.length < right.slotkey.length ∧
      left.slotkey.length + shiftnum < t.innerslotmax ∧ 0 < shiftnum then do
    let newkey ← right.slotkey[shiftnum - 1]?
    let left' : Inner K α :=
      { left with
        slotkey := left.slotkey ++ parentkey :: right.slotkey.take (shiftnum - 1)
        childid := left.childid ++ right.childid.take shiftnum }
    let right' : Inner K α :=
      { right with
        slotkey := right.slotkey.drop shiftnum
        childid := right.childid.drop shiftnum }
    return (left', newkey, right')
  else none

def shift_right_inner (t : Traits) (left right : Inner K α) (parentkey : K) :
    Option (Inner K α × K × Inner K α) :=
  let shiftnum := (left.slotkey.length - right.slotkey.length) / 2
  let kept := left.slotkey.length - shiftnum
  if right.slotkey.length < left.slotkey.length ∧
      right.slotkey.length + shiftnum < t.innerslotmax ∧ 0 < shiftnum then do
    let newkey ← left.slotkey[kept]?
    let left' : Inner K α :=
      { left with
        slotkey := left.slotkey.take kept
        childid := left.childid.take (kept + 1) }
    let right' : Inner K α :=
      { right with
        slotkey := left.slotkey.drop (kept + 1) ++ parentkey :: right.slotkey
        childid := left.childid.drop (kept + 1) ++ right.childid }
    return (left', newkey, right')
  else none

end Inner

/-! ## Two children of one parent -/

/-- Two nodes next to each other, the key between them, and the leaves. -/
structure Pair (K : Type) (level : Nat) where
  left : Node K level
  key : K
  right : Node K level
  st : Store K

namespace Pair

def merge (t : Traits) : {level : Nat} → Pair K level → Option (Pair K level)
  | 0, ⟨left, key, right, st⟩ => do
      let st ← st.merge_leaves t left right
      return ⟨left, key, right, st⟩
  | _ + 1, ⟨left, key, right, st⟩ => do
      let (left, right) ← merge_inner t left right key
      return ⟨left, key, right, st⟩

def shift_left (t : Traits) : {level : Nat} → Pair K level → Option (Pair K level)
  | 0, ⟨left, _, right, st⟩ => do
      let (key, st) ← st.shift_left_leaf t left right
      return ⟨left, key, right, st⟩
  | _ + 1, ⟨left, key, right, st⟩ => do
      let (left, key, right) ← shift_left_inner t left right key
      return ⟨left, key, right, st⟩

def shift_right (t : Traits) : {level : Nat} → Pair K level → Option (Pair K level)
  | 0, ⟨left, _, right, st⟩ => do
      let (key, st) ← st.shift_right_leaf t left right
      return ⟨left, key, right, st⟩
  | _ + 1, ⟨left, key, right, st⟩ => do
      let (left, key, right) ← shift_right_inner t left right key
      return ⟨left, key, right, st⟩

end Pair

section Parent

variable {level : Nat}

/-- A change of the children on both sides of the key at `slot`. -/
def at_pair (f : Pair K level → Option (Pair K level)) (inner : Inner K (Node K level))
    (slot : Nat) (st : Store K) : Option (Inner K (Node K level) × Store K) := do
  let left ← inner.childid[slot]?
  let key ← inner.slotkey[slot]?
  let right ← inner.childid[slot + 1]?
  let pair ← f ⟨left, key, right, st⟩
  let inner : Inner K (Node K level) :=
    { inner with
      slotkey := inner.slotkey.set slot pair.key
      childid := (inner.childid.set slot pair.left).set (slot + 1) pair.right }
  return (inner, pair.st)

/-- Fix the split key for children that are leaves. -/
def fix_split_key (st : Store K) : {level : Nat} → Inner K (Node K level) → (slot : Nat) →
    Option (Inner K (Node K level))
  | 0, inner, slot => do
      let child ← inner.childid[slot]?
      let last ← (st.leaf child).slots.getLast?
      return { inner with slotkey := inner.slotkey.set slot last.key }
  | _ + 1, inner, _ => some inner

/-- `btree_fixmerge` -/
def fixmerge (st : Store K) (inner : Inner K (Node K level)) (slot : Nat) :
    Option (Inner K (Node K level)) := do
  let child ← inner.childid[slot]?
  -- either the current node or the next is empty and should be removed
  let slot := if slotuse st level child = 0 then slot else slot + 1
  let child ← inner.childid[slot]?
  if slotuse st level child = 0 ∧ 0 < slot then
    let inner : Inner K (Node K level) :=
      { inner with
        slotkey := inner.slotkey.eraseIdx (slot - 1)
        childid := inner.childid.eraseIdx slot }
    fix_split_key st inner (slot - 1)
  else none

/-- What is done about the underflow of the child at `slot`. -/
def fix_child (t : Traits) (inner : Inner K (Node K level)) (slot : Nat) (st : Store K) :
    Fix → Option (Inner K (Node K level) × Store K)
  | .ok => some (inner, st)
  | .root => none
  | .mergeLeft =>
      if slot = 0 then none
      else do
        let (inner, st) ← at_pair (Pair.merge t) inner (slot - 1) st
        return (← fixmerge st inner slot, st)
  | .mergeRight => do
      let (inner, st) ← at_pair (Pair.merge t) inner slot st
      return (← fixmerge st inner slot, st)
  | .shiftLeft => at_pair (Pair.shift_left t) inner slot st
  | .shiftRight => if slot = 0 then none else at_pair (Pair.shift_right t) inner (slot - 1) st

end Parent

/-! ## The descent -/

/-- A node without the key, whose own underflow is left to the caller. -/
structure Erasure (K : Type) (level : Nat) where
  node : Node K level
  lastkey : Option K
  fix : Fix

/-- The neighbours of a node with their parents, and its own parent. -/
structure Neighbours (K : Type) (level : Nat) where
  left : Option (Node K level)
  right : Option (Node K level)
  leftparent : Option Nat
  rightparent : Option Nat
  parent : Option Nat

namespace Neighbours

/-- Those of the root. -/
def none {level : Nat} : Neighbours K level :=
  ⟨Option.none, Option.none, Option.none, Option.none, Option.none⟩

variable {level : Nat}

def underflow (around : Neighbours K level) (t : Traits) (st : Store K) (n : Node K level) :
    Option Fix :=
  MABTree.underflow (t.minslots level) (slotuse st level n) (around.left.map (slotuse st level))
    (around.right.map (slotuse st level)) around.leftparent around.rightparent around.parent

/-- `myleft`.  Below a left neighbour it is the child in front of the last one. -/
def myleft (around : Neighbours K (level + 1)) (inner : Inner K (Node K level)) (slot : Nat) :
    Option (Option (Node K level)) :=
  if slot = 0 then
    match around.left with
    | Option.none => some Option.none
    | some left =>
        if left.slotkey.length = 0 then Option.none
        else left.childid[left.slotkey.length - 1]?.map some
  else inner.childid[slot - 1]?.map some

/-- `myright` -/
def myright (around : Neighbours K (level + 1)) (inner : Inner K (Node K level)) (slot : Nat) :
    Option (Option (Node K level)) :=
  if slot = inner.slotkey.length then
    match around.right with
    | Option.none => some Option.none
    | some right => right.childid[0]?.map some
  else inner.childid[slot + 1]?.map some

/-- The neighbours of a child. -/
def child (around : Neighbours K (level + 1)) (inner : Inner K (Node K level)) (slot : Nat) :
    Option (Neighbours K level) := do
  let myleft ← around.myleft inner slot
  let myright ← around.myright inner slot
  return {
    left := myleft
    right := myright
    leftparent := if slot = 0 then around.leftparent else some (level + 1)
    rightparent := if slot = inner.slotkey.length then around.rightparent else some (level + 1)
    parent := some (level + 1) }

end Neighbours

/-- A child without the key in its parent, and the key for a slot further up. -/
def Inner.replace {level : Nat} (inner : Inner K (Node K level)) (slot : Nat)
    (e : Erasure K level) : Inner K (Node K level) × Option K :=
  let inner' : Inner K (Node K level) := { inner with childid := inner.childid.set slot e.node }
  match e.lastkey with
  | none => (inner', none)
  | some key =>
      if slot < inner.slotkey.length then
        ({ inner' with slotkey := inner.slotkey.set slot key }, none)
      else (inner', some key)

variable [LinearOrder K]

/-- The leaf without the first pair of the key, if there is one. -/
def erase_slot (p : Params K) (st : Store K) (id : LeafId) (key : K) :
    Option (Option K × Store K) :=
  let leaf := st.leaf id
  let slot := find_lower_leaf p leaf key none none
  match leaf.slots[slot]? with
  | none => none
  | some kv =>
      if kv.key = key then
        let slots := leaf.slots.eraseIdx slot
        let lastkey := if slot = slots.length then slots.getLast?.map KeyValue.key else none
        some (lastkey, st.set id { leaf with slots := slots })
      else none

/-- The inner `none` is `btree_not_found`. -/
def erase_one_descend (p : Params K) (key : K) :
    (level : Nat) → Node K level → Neighbours K level → Store K →
      Option (Option (Erasure K level × Store K))
  | 0, id, around, st =>
      match erase_slot p st id key with
      | none => some none
      | some (lastkey, st) =>
          -- an empty leaf below a parent has no key for it
          if slotuse st 0 id = 0 ∧ around.parent ≠ none then none
          else do
            let fix ← around.underflow p.traits st id
            let e : Erasure K 0 := ⟨id, lastkey, fix⟩
            return some (e, st)
  | level + 1, inner, around, st => do
      let slot := find_lower_inner p inner key none none
      let child ← inner.childid[slot]?
      let below ← around.child inner slot
      match ← erase_one_descend p key level child below st with
      | none => return none
      | some (e, st) =>
          let (inner, lastkey) := inner.replace slot e
          let (inner, st) ← fix_child p.traits inner slot st e.fix
          let fix ← around.underflow p.traits st inner
          let e : Erasure K (level + 1) := ⟨inner, lastkey, fix⟩
          return some (e, st)

/-- The tree whose root underflows: without any node, or with the child of the root as its root. -/
def trim (st : Store K) : (level : Nat) → Node K level → Option (Tree K)
  | 0, _ => some { root := none, store := { st with headleaf := none, tailleaf := none } }
  | level + 1, inner => do
      let child ← inner.childid[0]?
      return { root := some ⟨level, child⟩, store := st }

/-- `true` if a pair was erased. -/
def erase_one (p : Params K) (tree : Tree K) (key : K) : Option (Bool × Tree K) :=
  match tree.root with
  | none => some (false, tree)
  | some ⟨level, n⟩ => do
      match ← erase_one_descend p key level n .none tree.store with
      | none => return (false, tree)
      | some (e, st) =>
          match e.fix with
          | .ok => return (true, { root := some ⟨level, e.node⟩, store := st })
          | .root => return (true, ← trim st level e.node)
          | _ => none

/-- The `while` loop of `erase`, with at most the given number of turns. -/
def erase_while (p : Params K) (key : K) : Nat → Tree K → Nat → Option (Nat × Tree K)
  | 0, _, _ => none
  | turns + 1, tree, c => do
      let (erased, tree) ← erase_one p tree key
      if erased then erase_while p key turns tree (c + 1) else return (c, tree)

/-- Erases all pairs of the key; the number of them. -/
def erase (turns : Nat) (p : Params K) (tree : Tree K) (key : K) : Option (Nat × Tree K) :=
  erase_while p key turns tree 0

end MABTree
end TLI
