import TLI.Competitors.ARTOLC.Word
import TLI.Library.RadixGraph
import TLI.Library.Transition

/-!
# Model — `ART_OLC::Tree`, its threads and their steps

Nodes are numbers.  A node has its word, its prefix with the first `maxStoredPrefixLength` bytes of
it, and its children by their bytes; how `N4`, `N16`, `N48` and `N256` store the children is left
out.  Nodes are never freed: that is the business of `Epoche`.

One transition is one access to a node that other threads can change, with the thread-local work
before the next one.  Loads of words and of prefix lengths are atomic.  What else is read of a node
may be torn: if the word is not the one the thread has seen before, the read yields anything
(`Torn`).  A node is written by a thread that has locked it.  A new node is linked in the step that
makes it visible.
-/

namespace TLI
namespace ARTOLC

open RadixGraph

abbrev TID := UInt64

abbrev Child := Ref Nat TID

def maxStoredPrefixLength : Nat := 11

/-- The node that the constructor of the tree allocates. -/
def root : Nat := 0

/-! ## Nodes -/

structure Shared where
  allocated : Nat
  word : Nat → UInt64
  prefixCount : Nat → Nat
  prefixBytes : Nat → List UInt8
  children : Edges Nat UInt8 TID

/-- A node that no other thread knows yet. -/
structure NewNode where
  type : NTypes
  prefixCount : Nat
  prefixBytes : List UInt8
  children : UInt8 → Option Child

/-- `setPrefix(bytes, length)`: the bytes that are stored. -/
def stored (bytes : List UInt8) (length : Nat) : List UInt8 :=
  bytes.take (min length maxStoredPrefixLength)

/-- `new N4(bytes, length)` with two children. -/
def newN4 (bytes : List UInt8) (length : Nat) (key₁ : UInt8) (val₁ : Child) (key₂ : UInt8)
    (val₂ : Child) : NewNode where
  type := .N4
  prefixCount := length
  prefixBytes := stored bytes length
  children b := if b = key₁ then some val₁ else if b = key₂ then some val₂ else none

def countChildren (children : UInt8 → Option Child) : Nat :=
  ((List.range 256).filter fun b => (children (UInt8.ofNat b)).isSome).length

/-- `getCount()` -/
def Shared.count (s : Shared) (n : Nat) : Nat :=
  countChildren (s.children n)

/-- The number of children that a node of the type has room for. -/
def NTypes.capacity : NTypes → Nat
  | .N4 => 4
  | .N16 => 16
  | .N48 => 48
  | .N256 => 256

/-- `isFull()` of a node of the type. -/
def NTypes.isFull : NTypes → Nat → Bool
  | .N4, count => count == 4
  | .N16, count => count == 16
  | .N48, count => count == 48
  | .N256, _ => false

/-- `isFull()` -/
def Shared.isFull (s : Shared) (n : Nat) : Bool :=
  (getType (s.word n)).isFull (s.count n)

/-- The type that `insertAndUnlock` grows a node to. -/
def NTypes.bigger : NTypes → NTypes
  | .N4 => .N16
  | .N16 => .N48
  | .N48 => .N256
  | .N256 => .N256

/-- `new biggerN(n->getPrefix(), n->getPrefixLength()); n->copyTo(nBig); nBig->insert(key, val)` -/
def Shared.grown (s : Shared) (n : Nat) (key : UInt8) (val : Child) : NewNode where
  type := (getType (s.word n)).bigger
  prefixCount := s.prefixCount n
  prefixBytes := stored (s.prefixBytes n) (s.prefixCount n)
  children b := if b = key then some val else s.children n b

/-- The children in the order of their bytes. -/
def Shared.childList (s : Shared) (n : Nat) : List Child :=
  (List.range 256).filterMap fun b => s.children n (UInt8.ofNat b)

/-- `N::isLeaf` -/
def isLeaf : Child → Bool
  | .leaf _ => true
  | .node _ => false

/-- The first leaf, or else a node: the first one of an `N16`, the last one of the others. -/
def Shared.getAnyChild (s : Shared) (n : Nat) : Option Child :=
  let all := s.childList n
  (all.find? isLeaf).or
  (if getType (s.word n) = .N16 then all.head? else all.getLast?)

/-! ## Reads that may be torn -/

/-- What a read yields when it collides with a writer. -/
structure Torn where
  child : Option Child
  byte : UInt8
  bytes : List UInt8
  count : Nat

section Reads

variable (s : Shared) (torn : Torn)

def Shared.readChild (n : Nat) (v : UInt64) (b : UInt8) : Option Child :=
  if s.word n = v then s.children n b else torn.child

def Shared.readAnyChild (n : Nat) (v : UInt64) : Option Child :=
  if s.word n = v then s.getAnyChild n else torn.child

def Shared.readByte (n : Nat) (v : UInt64) (i : Nat) : UInt8 :=
  if s.word n = v then (s.prefixBytes n).getD i torn.byte else torn.byte

def Shared.readBytes (n : Nat) (v : UInt64) : List UInt8 :=
  if s.word n = v then s.prefixBytes n else torn.bytes

def Shared.readFull (n : Nat) (v : UInt64) : Bool :=
  if s.word n = v then s.isFull n else (getType (s.word n)).isFull torn.count

/-- `k[i]`, anything behind the end of the key. -/
def keyByte (k : List UInt8) (i : Nat) : UInt8 :=
  k.getD i torn.byte

/-- `memcpy(…, &kt[0] + from, n)`, anything behind the end of the key. -/
def keyBytes (kt : List UInt8) (from_ n : Nat) : List UInt8 :=
  (List.range n).map fun j => keyByte torn kt (from_ + j)

end Reads

/-! ## Lookup -/

/-- The variables of `lookup` at a node. -/
structure LookupAt where
  node : Nat
  v : UInt64
  level : Nat
  optimisticPrefixMatch : Bool

/-- Where a thread stands in `lookup`. -/
inductive LookupPc
  | restart
  | hasPrefix (a : LookupAt)
  | fits (a : LookupAt)
  | loop (a : LookupAt) (i : Nat)
  | byte (a : LookupAt) (i : Nat)
  | isLong (a : LookupAt) (i : Nat)
  | skip (a : LookupAt) (i : Nat)
  | getChild (a : LookupAt)
  | checkChild (a : LookupAt) (child : Option Child)
  | checkLeaf (a : LookupAt) (tid : TID)
  | lockChild (a : LookupAt) (child : Nat)
  | checkParent (a : LookupAt) (child : Nat) (nv : UInt64)
  | noMatch (a : LookupAt)
  | done (result : Option TID)

/-- `checkKey`: compares the keys from `level` on.  `none` is `util::OVERFLOW`. -/
def checkKey (loadKey : TID → List UInt8) (tid : TID) (k : List UInt8) (level : Nat) :
    Option TID :=
  if (loadKey tid).length = k.length ∧ (loadKey tid).drop level = k.drop level then some tid
  else none

/-- What `lookup` does with the child that it has found. -/
def LookupPc.descend (a : LookupAt) : Option Child → LookupPc
  | none => .done none
  | some (.leaf tid) => .checkLeaf a tid
  | some (.node n) => .lockChild a n

/-- One step of `lookup`.  In `loop` and behind it, `level + i` is the source's `level`. -/
def lookupStep (loadKey : TID → List UInt8) (k : List UInt8) (s : Shared) (torn : Torn) :
    LookupPc → Option LookupPc
  | .restart =>
      let v := s.word root
      some (if Free v then .hasPrefix ⟨root, v, 0, false⟩ else .restart)
  -- `checkPrefix`
  | .hasPrefix a =>
      some (if 0 < s.prefixCount a.node then .fits a else .getChild a)
  | .fits a =>
      some (if k.length ≤ a.level + s.prefixCount a.node then .noMatch a else .loop a 0)
  | .loop a i =>
      some (if i < min (s.prefixCount a.node) maxStoredPrefixLength then .byte a i
        else .isLong a i)
  | .byte a i =>
      some (if s.readByte torn a.node a.v i ≠ keyByte torn k (a.level + i) then .noMatch a
        else .loop a (i + 1))
  | .isLong a i =>
      some (if maxStoredPrefixLength < s.prefixCount a.node then .skip a i
        else .getChild { a with level := a.level + i })
  | .skip a i =>
      some (.getChild { a with
        level := a.level + i + s.prefixCount a.node - maxStoredPrefixLength
        optimisticPrefixMatch := true })
  | .getChild a =>
      some (if k.length ≤ a.level then .done none
        else .checkChild a (s.readChild torn a.node a.v (keyByte torn k a.level)))
  | .checkChild a child =>
      some (if s.word a.node ≠ a.v then .restart else .descend a child)
  | .checkLeaf a tid =>
      some (if s.word a.node ≠ a.v then .restart
        else .done (checkKey loadKey tid k (if a.optimisticPrefixMatch then 0 else a.level + 1)))
  | .lockChild a child =>
      let nv := s.word child
      some (if Free nv then .checkParent a child nv else .restart)
  | .checkParent a child nv =>
      some (if s.word a.node ≠ a.v then .restart
        else .hasPrefix ⟨child, nv, a.level + 1, a.optimisticPrefixMatch⟩)
  | .noMatch a =>
      some (if s.word a.node ≠ a.v then .restart else .done none)
  | .done _ => none

/-! ## Insert -/

/-- `parentNode`, `parentVersion` and `parentKey` -/
structure Parent where
  node : Nat
  version : UInt64
  key : UInt8

/-- The variables of `insert` at a node. -/
structure InsertAt where
  parent : Option Parent
  node : Nat
  v : UInt64
  level : Nat

/-- The variables of `insert` behind the prefix of a node. -/
structure Place where
  at_ : InsertAt
  nextLevel : Nat
  nodeKey : UInt8

/-- The variables of `insert` when the prefix of a node does not match: at its byte `i` it has
`nonMatchingKey`, and `remainingPrefix` behind. -/
structure Split where
  parent : Parent
  node : Nat
  v : UInt64
  level : Nat
  i : Nat
  nonMatchingKey : UInt8
  remainingPrefix : List UInt8

/-- The variables of `insertGrow` when the node is full. -/
structure Grow where
  parent : Parent
  node : Nat
  v : UInt64
  nodeKey : UInt8

/-- Where a thread stands in `insert`. -/
inductive InsertPc
  | lock (parent : Option Parent) (node level : Nat)
  -- `checkPrefixPessimistic`
  | loop (a : InsertAt) (i : Nat) (kt : Option (List UInt8))
  | byte (a : InsertAt) (i : Nat) (kt : Option (List UInt8))
  | isLong (a : InsertAt) (i : Nat) (kt : Option (List UInt8)) (nonMatchingKey : UInt8)
  | copyShort (a : InsertAt) (i : Nat) (nonMatchingKey : UInt8)
  | copyLong (a : InsertAt) (i : Nat) (kt : List UInt8) (nonMatchingKey : UInt8)
  -- `getAnyChildTid`
  | walkLock (a : InsertAt) (i : Nat) (mismatch : Option UInt8) (node : Nat)
  | walkChild (a : InsertAt) (i : Nat) (mismatch : Option UInt8) (node : Nat) (v : UInt64)
  | walkCheck (a : InsertAt) (i : Nat) (mismatch : Option UInt8) (node : Nat) (v : UInt64)
      (child : Option Child)
  -- the prefix does not match
  | lockParent (a : InsertAt) (i : Nat) (nonMatchingKey : UInt8) (remainingPrefix : List UInt8)
  | lockNode (sp : Split)
  | linkSplit (sp : Split)
  | unlockParent (sp : Split)
  | setPrefix (sp : Split)
  -- the prefix matches
  | getChild (a : InsertAt) (nextLevel : Nat)
  | checkChild (p : Place) (child : Option Child)
  | checkParent (p : Place) (child : Child)
  -- `insertAndUnlock`
  | isFull (p : Place)
  | checkParentRoom (p : Place)
  | lockRoom (p : Place)
  | insertLeaf (p : Place)
  | growLockParent (p : Place)
  | growLockNode (g : Grow)
  | growLink (g : Grow)
  | growObsolete (g : Grow)
  -- a leaf is in the way
  | lockLeaf (p : Place) (tid : TID)
  | linkLeaf (p : Place) (tid : TID) (prefixLength : Nat)
  -- the last unlock, with or without a restart
  | unlock (node : Nat)
  | unlockRestart (node : Nat)
  | done
  | crashed

/-- What a step writes. -/
inductive Effect
  | nothing
  | add (n : Nat) (d : UInt64)
  | setChild (n : Nat) (b : UInt8) (child : Child)
  | link (n : Nat) (b : UInt8) (x : NewNode)
  | setPrefix (n : Nat) (bytes : List UInt8) (length : Nat)

/-- `upgradeToWriteLockOrRestart`: compare and exchange. -/
def upgrade (s : Shared) (n : Nat) (v : UInt64) (locked failed : InsertPc) : Effect × InsertPc :=
  if s.word n = v then (.add n 0b10, locked) else (.nothing, failed)

/-- `goto restart` -/
def InsertPc.restart : InsertPc :=
  .lock none root 0

/-- Where the first `prefixLength` bytes agree and the next ones do not.  `none` if a key ends. -/
def firstDifference : List UInt8 → List UInt8 → Option Nat
  | x :: xs, y :: ys => if x = y then (firstDifference xs ys).map (· + 1) else some 0
  | _, _ => none

/-- What `checkPrefixPessimistic` does with the key of a leaf below the node. -/
def InsertPc.loaded (a : InsertAt) (i : Nat) (kt : List UInt8) : Option UInt8 → InsertPc
  | none => .byte a i (some kt)
  | some nonMatchingKey => .copyLong a i kt nonMatchingKey

/-- What `insert` does with a child that is there. -/
def InsertPc.descend (p : Place) : Child → InsertPc
  | .leaf tid => .lockLeaf p tid
  | .node c => .lock (some ⟨p.at_.node, p.at_.v, p.nodeKey⟩) c (p.nextLevel + 1)

/-- What `insert` does when the node is still the same. -/
def InsertPc.checked (p : Place) : Option Child → InsertPc
  | none => .isFull p
  | some child => if p.at_.parent.isSome then .checkParent p child else .descend p child

/-- What `insert` does with the leaf in the way when the keys are compared. -/
def InsertPc.compared (p : Place) (other : TID) : Option Nat → InsertPc
  | none => .unlock p.at_.node
  | some prefixLength => .linkLeaf p other prefixLength

/-- One step of `insert`.  The size of the copy in `copyShort` is unsigned: it wraps around when the
prefix is not longer than `i` any more. -/
def insertStep (loadKey : TID → List UInt8) (tid : TID) (s : Shared) (torn : Torn) :
    InsertPc → Option (Effect × InsertPc)
  | .lock parent node level =>
      let v := s.word node
      some (.nothing, if Free v then .loop ⟨parent, node, v, level⟩ 0 none else .restart)
  | .loop a i kt =>
      some (.nothing,
        if i < s.prefixCount a.node then
          if i = maxStoredPrefixLength then .walkLock a i none a.node else .byte a i kt
        else .getChild a (a.level + i))
  | .byte a i kt =>
      let curKey :=
        if maxStoredPrefixLength ≤ i then keyByte torn (kt.getD []) (a.level + i)
        else s.readByte torn a.node a.v i
      some (.nothing,
        if curKey ≠ keyByte torn (loadKey tid) (a.level + i) then .isLong a i kt curKey
        else .loop a (i + 1) kt)
  | .isLong a i kt nonMatchingKey =>
      some (.nothing,
        if maxStoredPrefixLength < s.prefixCount a.node then
          if i < maxStoredPrefixLength then .walkLock a i (some nonMatchingKey) a.node
          else .copyLong a i (kt.getD []) nonMatchingKey
        else .copyShort a i nonMatchingKey)
  | .copyShort a i nonMatchingKey =>
      let n := s.prefixCount a.node
      some (.nothing,
        if i < n ∧ n - i - 1 ≤ maxStoredPrefixLength then
          .lockParent a i nonMatchingKey
            (((s.readBytes torn a.node a.v).drop (i + 1)).take (n - i - 1))
        else .crashed)
  | .copyLong a i kt nonMatchingKey =>
      let n := s.prefixCount a.node
      some (.nothing, .lockParent a i nonMatchingKey
        (keyBytes torn kt (a.level + i + 1)
          (if i < n then min (n - i - 1) maxStoredPrefixLength else maxStoredPrefixLength)))
  | .walkLock a i mismatch n =>
      let v := s.word n
      some (.nothing, if Free v then .walkChild a i mismatch n v else .restart)
  | .walkChild a i mismatch n v =>
      some (.nothing, .walkCheck a i mismatch n v (s.readAnyChild torn n v))
  | .walkCheck a i mismatch n v child =>
      some (.nothing,
        if s.word n ≠ v then .restart
        else match child with
          | none => .crashed
          | some (.node c) => .walkLock a i mismatch c
          | some (.leaf any) => .loaded a i (loadKey any) mismatch)
  | .lockParent a i nonMatchingKey remainingPrefix =>
      some (match a.parent with
        | none => (.nothing, .crashed)
        | some p => upgrade s p.node p.version
            (.lockNode ⟨p, a.node, a.v, a.level, i, nonMatchingKey, remainingPrefix⟩) .restart)
  | .lockNode sp =>
      some (upgrade s sp.node sp.v (.linkSplit sp) (.unlockRestart sp.parent.node))
  | .linkSplit sp =>
      some (.link sp.parent.node sp.parent.key
          (newN4 (s.prefixBytes sp.node) sp.i (keyByte torn (loadKey tid) (sp.level + sp.i))
            (.leaf tid) sp.nonMatchingKey (.node sp.node)),
        .unlockParent sp)
  | .unlockParent sp => some (.add sp.parent.node 0b10, .setPrefix sp)
  | .setPrefix sp =>
      some (.setPrefix sp.node sp.remainingPrefix (s.prefixCount sp.node - (sp.i + 1)),
        .unlock sp.node)
  | .getChild a nextLevel =>
      let nodeKey := keyByte torn (loadKey tid) nextLevel
      some (.nothing,
        .checkChild ⟨a, nextLevel, nodeKey⟩ (s.readChild torn a.node a.v nodeKey))
  | .checkChild p child =>
      some (.nothing,
        if s.word p.at_.node ≠ p.at_.v then .restart else .checked p child)
  | .checkParent p child =>
      some (.nothing, match p.at_.parent with
        | none => .crashed
        | some e => if s.word e.node ≠ e.version then .restart else .descend p child)
  | .isFull p =>
      some (.nothing,
        if s.readFull torn p.at_.node p.at_.v then .growLockParent p
        else if p.at_.parent.isSome then .checkParentRoom p else .lockRoom p)
  | .checkParentRoom p =>
      some (.nothing, match p.at_.parent with
        | none => .crashed
        | some e => if s.word e.node ≠ e.version then .restart else .lockRoom p)
  | .lockRoom p => some (upgrade s p.at_.node p.at_.v (.insertLeaf p) .restart)
  | .insertLeaf p =>
      some (.setChild p.at_.node p.nodeKey (.leaf tid), .unlock p.at_.node)
  | .growLockParent p =>
      some (match p.at_.parent with
        | none => (.nothing, .crashed)
        | some e => upgrade s e.node e.version
            (.growLockNode ⟨e, p.at_.node, p.at_.v, p.nodeKey⟩) .restart)
  | .growLockNode g =>
      some (upgrade s g.node g.v (.growLink g) (.unlockRestart g.parent.node))
  | .growLink g =>
      some (.link g.parent.node g.parent.key (s.grown g.node g.nodeKey (.leaf tid)),
        .growObsolete g)
  | .growObsolete g => some (.add g.node 0b11, .unlock g.parent.node)
  | .lockLeaf p other =>
      -- the keys are compared with the node locked
      some (upgrade s p.at_.node p.at_.v
        (.compared p other (firstDifference ((loadKey other).drop (p.nextLevel + 1))
          ((loadKey tid).drop (p.nextLevel + 1))))
        .restart)
  | .linkLeaf p other prefixLength =>
      some (.link p.at_.node p.nodeKey
          (newN4 ((loadKey tid).drop (p.nextLevel + 1)) prefixLength
            (keyByte torn (loadKey tid) (p.nextLevel + 1 + prefixLength)) (.leaf tid)
            (keyByte torn (loadKey other) (p.nextLevel + 1 + prefixLength)) (.leaf other)),
        .unlock p.at_.node)
  | .unlock n => some (.add n 0b10, .done)
  | .unlockRestart n => some (.add n 0b10, .restart)
  | .done => none
  | .crashed => none

/-- A child is set in a node. -/
def putChild (children : Edges Nat UInt8 TID) (n : Nat) (b : UInt8) (child : Child) :
    Edges Nat UInt8 TID :=
  Function.update children n (Function.update (children n) b (some child))

theorem putChild_apply (children : Edges Nat UInt8 TID) (n m : Nat) (b b' : UInt8)
    (child : Child) : putChild children n b child m b' =
      if m = n ∧ b' = b then some child else children m b' := by
  rw [putChild]
  by_cases hm : m = n
  · subst hm
    rw [Function.update_self, Function.update_apply]
    simp only [true_and]
  · rw [Function.update_of_ne hm, if_neg fun h => hm h.1]

def Shared.apply (s : Shared) : Effect → Shared
  | .nothing => s
  | .add n d => { s with word := Function.update s.word n (s.word n + d) }
  | .setChild n b child =>
      { s with children := putChild s.children n b child }
  | .link n b x =>
      { allocated := s.allocated + 1
        word := Function.update s.word s.allocated (initialWord x.type)
        prefixCount := Function.update s.prefixCount s.allocated x.prefixCount
        prefixBytes := Function.update s.prefixBytes s.allocated x.prefixBytes
        children := Function.update (putChild s.children n b (.node s.allocated)) s.allocated
          x.children }
  | .setPrefix n bytes length =>
      { s with
        prefixCount := Function.update s.prefixCount n length
        prefixBytes := Function.update s.prefixBytes n (stored bytes length) }

section Apply

variable (s : Shared) (n m : Nat)

theorem Shared.word_add (d : UInt64) :
    (s.apply (.add n d)).word m = if m = n then s.word n + d else s.word m :=
  Function.update_apply ..

theorem Shared.prefixCount_setPrefix (bytes : List UInt8) (length : Nat) :
    (s.apply (.setPrefix n bytes length)).prefixCount m =
      if m = n then length else s.prefixCount m :=
  Function.update_apply ..

theorem Shared.prefixBytes_setPrefix (bytes : List UInt8) (length : Nat) :
    (s.apply (.setPrefix n bytes length)).prefixBytes m =
      if m = n then stored bytes length else s.prefixBytes m :=
  Function.update_apply ..

theorem Shared.children_setChild (b b' : UInt8) (child : Child) :
    (s.apply (.setChild n b child)).children m b' =
      if m = n ∧ b' = b then some child else s.children m b' :=
  putChild_apply ..

variable (b : UInt8) (x : NewNode)

theorem Shared.word_link : (s.apply (.link n b x)).word m =
    if m = s.allocated then initialWord x.type else s.word m :=
  Function.update_apply ..

theorem Shared.prefixCount_link : (s.apply (.link n b x)).prefixCount m =
    if m = s.allocated then x.prefixCount else s.prefixCount m :=
  Function.update_apply ..

theorem Shared.prefixBytes_link : (s.apply (.link n b x)).prefixBytes m =
    if m = s.allocated then x.prefixBytes else s.prefixBytes m :=
  Function.update_apply ..

theorem Shared.children_link (b' : UInt8) : (s.apply (.link n b x)).children m b' =
    if m = s.allocated then x.children b'
    else if m = n ∧ b' = b then some (.node s.allocated) else s.children m b' := by
  refine (congrFun (Function.update_apply ..) b').trans ?_
  rw [ite_apply, putChild_apply]

end Apply

/-! ## The system -/

/-- What a thread does: nothing, or one call. -/
inductive Pc
  | idle
  | lookup (k : List UInt8) (pc : LookupPc)
  | insert (tid : TID) (pc : InsertPc)

structure State (ι : Type) where
  shared : Shared
  pc : ι → Pc

/-- The steps of a thread: a call, a step of the call, and the return. -/
inductive Agent (ι : Type)
  | lookup (i : ι) (k : List UInt8)
  | insert (i : ι) (tid : TID)
  | run (i : ι) (torn : Torn)
  | return_ (i : ι)

section System

variable {ι : Type} [DecidableEq ι]

def State.setPc (s : State ι) (i : ι) (pc : Pc) : State ι :=
  { s with pc := Function.update s.pc i pc }

/-- The threads look up and insert keys of a given set. -/
def step (loadKey : TID → List UInt8) (keys : List UInt8 → Prop) [DecidablePred keys] :
    Agent ι → State ι → Option (State ι)
  | .lookup i k, s =>
      match s.pc i with
      | .idle => if keys k then some (s.setPc i (.lookup k .restart)) else none
      | _ => none
  | .insert i tid, s =>
      match s.pc i with
      | .idle => if keys (loadKey tid) then some (s.setPc i (.insert tid .restart)) else none
      | _ => none
  | .run i torn, s =>
      match s.pc i with
      | .idle => none
      | .lookup k pc =>
          (lookupStep loadKey k s.shared torn pc).map fun pc' => s.setPc i (.lookup k pc')
      | .insert tid pc =>
          (insertStep loadKey tid s.shared torn pc).map fun next =>
            ({ s with shared := s.shared.apply next.1 } : State ι).setPc i (.insert tid next.2)
  | .return_ i, s =>
      match s.pc i with
      | .lookup _ (.done _) => some (s.setPc i .idle)
      | .insert _ .done => some (s.setPc i .idle)
      | _ => none

/-- An `N256` without children, and no thread in a call. -/
structure Initial (s : State ι) : Prop where
  allocated : s.shared.allocated = 1
  word : s.shared.word root = initialWord .N256
  prefixCount : s.shared.prefixCount root = 0
  prefixBytes : s.shared.prefixBytes root = []
  children : ∀ n b, s.shared.children n b = none
  pc : ∀ i, s.pc i = .idle

def system (loadKey : TID → List UInt8) (keys : List UInt8 → Prop) [DecidablePred keys] :
    Transition.System (State ι) (Agent ι) where
  Init := Initial
  step := step loadKey keys

end System

end ARTOLC
end TLI
