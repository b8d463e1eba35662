import Mathlib.Data.List.Lex
import Mathlib.Logic.Function.Basic
import TLI.Encoding
import TLI.Library.Loop
import TLI.Simd
import TLI.Util

/-!
# Model — the adaptive radix tree of `art.h`

A node is a value: `NULL`, a pseudo-leaf, or an inner node with its header, its layout and its
child slots.  The layouts differ only in how a key byte leads to a slot.  Functions that update a
node through `nodeRef` return the new node.

* A leaf holds the `Element` its tid points to, so `loadKey(getLeafValue(leaf))` is its key.
* Slots and prefix bytes that the code leaves uninitialised hold `NULL` and zero.
* A search key is the function from positions to bytes that the pointer stands for; what it returns
  behind the key is whatever follows in memory.
* `unsigned` differences wrap (`unsignedSub`), lengths of strings are truncated to 32 bits.  Depths
  are plain numbers: they stay below the length of a stored key.
* `bulk_insert` and the loop over the iterator's stack take fuel.
-/

namespace TLI
namespace ART

open Loop Simd

/-- `Element<std::string>`, to which the tid of a leaf points. -/
structure Element where
  key : List UInt8
  value : UInt64
  deriving DecidableEq, Repr

/-- Shared header of all inner nodes. -/
structure Header where
  /-- length of the compressed path (prefix) -/
  prefixLength : Nat
  /-- number of non-null children -/
  count : Nat
  /-- compressed path (prefix) -/
  prefixBytes : Nat → UInt8

/-- The arrays besides the child slots. -/
inductive Layout
  | node4 (key : Nat → UInt8)
  | node16 (key : Nat → UInt8)
  | node48 (childIndex : UInt8 → Nat)
  | node256

inductive Node
  | null
  | leaf (element : Element)
  | inner (hdr : Header) (lay : Layout) (child : Nat → Node)
  deriving Inhabited

def maxPrefixLength : Nat := 8

def emptyMarker : Nat := 48

/-- `if (node)` -/
def Node.present : Node → Bool
  | .null => false
  | .leaf _ => true
  | .inner _ _ _ => true

/-! ## Bytes -/

/-- `(uint8_t)key[i]` for a `std::string`, which is terminated by a zero. -/
def byteAt (key : List UInt8) (i : Nat) : UInt8 :=
  key.getD i 0

/-- `key.c_str()`, with `behind` in the memory behind the string. -/
def c_str (key : List UInt8) (behind : Nat → UInt8) (i : Nat) : UInt8 :=
  if i < key.length then byteAt key i else behind i

/-- `key.length()` passed as an `unsigned`. -/
def keyLength (key : List UInt8) : Nat :=
  key.length % 2 ^ 32

/-! ## Children -/

/-- The lanes with `node->key[i] == keyByte`, or with `node->key[i] >= keyByte`, as the bit field
that `& ((1 << node->count) - 1)` leaves. -/
def bitfield (lane : UInt8 → Bool) (key : Nat → UInt8) (count : Nat) : Nat :=
  movemask ((List.range 16).map fun i => lane (key i)) &&& (2 ^ count - 1)

/-- `_mm_cmpeq_epi8(_mm_max_epu8(a, b), a)` -/
def cmpge_epu8 (a b : UInt8) : Bool :=
  decide (max a b = a)

/-- `findChild`: the slot for a key byte. -/
def findChild (count : Nat) (lay : Layout) (keyByte : UInt8) : Option Nat :=
  match lay with
  | .node4 key =>
      let i := scan (fun i => decide (key i = keyByte)) count 0
      if i < count then some i else none
  | .node16 key =>
      let bits := bitfield (fun b => decide (keyByte = b)) key count
      if bits ≠ 0 then some (ctz bits) else none
  | .node48 childIndex =>
      if childIndex keyByte ≠ emptyMarker then some (childIndex keyByte) else none
  | .node256 => some keyByte.toNat

/-- The slot with the smallest key byte; a node without children is not looked at. -/
def firstSlot (lay : Layout) (present : Nat → Bool) : Option Nat :=
  match lay with
  | .node4 _ => some 0
  | .node16 _ => some 0
  | .node48 childIndex =>
      let pos := scan (fun pos => decide (childIndex (UInt8.ofNat pos) ≠ emptyMarker)) 256 0
      if pos < 256 then some (childIndex (UInt8.ofNat pos)) else none
  | .node256 =>
      let pos := scan present 256 0
      if pos < 256 then some pos else none

/-- Find the leaf with smallest key. -/
def minimum : Node → Option Element
  | .null => none
  | .leaf e => some e
  | .inner _ lay child =>
      match firstSlot lay fun s => (child s).present with
      | some s => minimum (child s)
      | none => none

/-- `loadKey(getLeafValue(minimum(node)))` -/
def minKey (n : Node) : List UInt8 :=
  ((minimum n).map Element.key).getD []

/-! ## Prefixes -/

/-- `prefixMismatch` of two keys. -/
def prefixMismatchKeys (key1 : Nat → UInt8) (l1 : Nat) (key2 : Nat → UInt8) (l2 depth : Nat) :
    Nat :=
  scan (fun pos => decide (key1 (depth + pos) ≠ key2 (depth + pos))) (unsignedSub (min l1 l2) depth)
    0

/-- `prefixMismatch` of a key and a node: compare the key with the prefix, return the number
matching bytes.  `least` is the smallest key below the node. -/
def prefixMismatch (hdr : Header) (least : List UInt8) (key : Nat → UInt8) (keyLength depth : Nat) :
    Nat :=
  let compBytes := min (unsignedSub keyLength depth) hdr.prefixLength
  let stored := fun pos => decide (key (depth + pos) ≠ hdr.prefixBytes pos)
  if compBytes > maxPrefixLength then
    let pos := scan stored maxPrefixLength 0
    if pos < maxPrefixLength then pos
    else
      -- Load key from database
      scan (fun pos => decide (key (depth + pos) ≠ byteAt least (depth + pos)))
        (compBytes - maxPrefixLength) maxPrefixLength
  else scan stored compBytes 0

/-- Check if the key of the leaf is equal to the searched key. -/
def leafMatches (e : Element) (key : Nat → UInt8) (keyLength depth : Nat) : Bool :=
  decide (e.key.length = keyLength) &&
    decide (scan (fun i => decide (byteAt e.key (depth + i) ≠ key (depth + i)))
      (unsignedSub keyLength depth) 0 = unsignedSub keyLength depth)

/-! ## Lookup -/

/-- Find the node with a matching key, optimistic version. -/
def lookup (key : Nat → UInt8) (keyLength : Nat) : Node → Nat → Bool → Option Element
  | .null, _, _ => none
  | .leaf e, depth, skippedPrefix =>
      if leafMatches e key keyLength (if skippedPrefix then 0 else depth) then some e else none
  | .inner hdr lay child, depth, skippedPrefix =>
      -- Prefixes that are not stored in full are skipped without checking them.
      if 0 < hdr.prefixLength ∧ hdr.prefixLength ≤ maxPrefixLength ∧
          prefixMismatch hdr (minKey (.inner hdr lay child)) key keyLength depth ≠ hdr.prefixLength
      then none
      else
        match findChild hdr.count lay (key (depth + hdr.prefixLength)) with
        | some s =>
            lookup key keyLength (child s) (depth + hdr.prefixLength + 1)
              (skippedPrefix || decide (maxPrefixLength < hdr.prefixLength))
        | none => none

/-! ## Insertion of a child -/

/-- The two `memmove`s and the assignment that make room at `pos` in an array with `count` entries. -/
def insertAt {α : Type} (a : Nat → α) (pos count : Nat) (x : α) (i : Nat) : α :=
  if i < pos then a i else if i = pos then x else if i ≤ count then a (i - 1) else a i

/-- A new array that holds a copy of the first `count` entries. -/
def copyOf {α : Type} (a : Nat → α) (count : Nat) (default : α) (i : Nat) : α :=
  if i < count then a i else default

/-- `copyPrefix`, for a new node. -/
def copyPrefix (src : Header) : Header :=
  { src with prefixBytes := copyOf src.prefixBytes (min src.prefixLength maxPrefixLength) 0 }

def Header.increment (hdr : Header) : Header :=
  { hdr with count := hdr.count + 1 }

def insertNode256 (hdr : Header) (child : Nat → Node) (keyByte : UInt8) (c : Node) : Node :=
  .inner hdr.increment .node256 (Function.update child keyByte.toNat c)

def insertNode48 (hdr : Header) (childIndex : UInt8 → Nat) (child : Nat → Node) (keyByte : UInt8)
    (c : Node) : Node :=
  if hdr.count < 48 then
    let pos :=
      if (child hdr.count).present then scan (fun pos => !(child pos).present) 48 0 else hdr.count
    .inner hdr.increment (.node48 (Function.update childIndex keyByte pos))
      (Function.update child pos c)
  else
    -- Grow to Node256
    insertNode256 (copyPrefix hdr)
      (fun i =>
        if i < 256 ∧ childIndex (UInt8.ofNat i) ≠ 48 then child (childIndex (UInt8.ofNat i))
        else .null)
      keyByte c

/-- `newNode->childIndex[node->key[i]] = i` for the first `count` keys. -/
def indexOf (key : Nat → UInt8) (count : Nat) : UInt8 → Nat :=
  repeatFor (fun i childIndex => Function.update childIndex (key i) i) count fun _ => emptyMarker

def insertNode16 (hdr : Header) (key : Nat → UInt8) (child : Nat → Node) (keyByte : UInt8)
    (c : Node) : Node :=
  if hdr.count < 16 then
    let bits := bitfield (fun b => cmpge_epu8 b keyByte) key hdr.count
    let pos := if bits ≠ 0 then ctz bits else hdr.count
    .inner hdr.increment (.node16 (insertAt key pos hdr.count keyByte))
      (insertAt child pos hdr.count c)
  else
    -- Grow to Node48
    insertNode48 (copyPrefix hdr) (indexOf key hdr.count) (copyOf child hdr.count .null) keyByte c

def insertNode4 (hdr : Header) (key : Nat → UInt8) (child : Nat → Node) (keyByte : UInt8)
    (c : Node) : Node :=
  if hdr.count < 4 then
    let pos := scan (fun pos => !decide (key pos < keyByte)) hdr.count 0
    .inner hdr.increment (.node4 (insertAt key pos hdr.count keyByte))
      (insertAt child pos hdr.count c)
  else
    -- Grow to Node16
    insertNode16 (copyPrefix hdr) (copyOf key hdr.count 0) (copyOf child hdr.count .null) keyByte c

/-- Insert leaf into inner node. -/
def insertChild (hdr : Header) (lay : Layout) (child : Nat → Node) (keyByte : UInt8) (c : Node) :
    Node :=
  match lay with
  | .node4 key => insertNode4 hdr key child keyByte c
  | .node16 key => insertNode16 hdr key child keyByte c
  | .node48 childIndex => insertNode48 hdr childIndex child keyByte c
  | .node256 => insertNode256 hdr child keyByte c

/-- A new `Node4` with the given prefix, into which two children are inserted. -/
def newNode4 (prefixLength : Nat) (prefixBytes : Nat → UInt8) (byte1 : UInt8) (child1 : Node)
    (byte2 : UInt8) (child2 : Node) : Node :=
  let hdr : Header :=
    { prefixLength := prefixLength
      count := 0
      prefixBytes := copyOf prefixBytes (min prefixLength maxPrefixLength) 0 }
  match insertNode4 hdr (fun _ => 0) (fun _ => .null) byte1 child1 with
  | .inner hdr' (.node4 key') child' => insertNode4 hdr' key' child' byte2 child2
  | n => n

/-! ## Insertion of a key -/

/-- Insert the leaf value into the tree. -/
def insert (key : Nat → UInt8) (keyLength : Nat) (value : Element) : Node → Nat → Node
  | .null, _ => .leaf value
  | .leaf e, depth =>
      -- Replace leaf with Node4 and store both leaves in it
      let newPrefixLength :=
        prefixMismatchKeys (byteAt e.key) (ART.keyLength e.key) key keyLength depth
      newNode4 newPrefixLength (fun i => key (depth + i))
        (byteAt e.key (depth + newPrefixLength)) (.leaf e)
        (key (depth + newPrefixLength)) (.leaf value)
  | .inner hdr lay child, depth =>
      let least := minKey (.inner hdr lay child)
      let mismatchPos := prefixMismatch hdr least key keyLength depth
      if 0 < hdr.prefixLength ∧ mismatchPos ≠ hdr.prefixLength then
        -- Prefix differs, create new node
        let prefixLength := hdr.prefixLength - (mismatchPos + 1)
        let kept := min prefixLength maxPrefixLength
        if hdr.prefixLength < maxPrefixLength then
          let hdr' : Header :=
            { hdr with
              prefixLength := prefixLength
              prefixBytes := fun i =>
                if i < kept then hdr.prefixBytes (mismatchPos + 1 + i) else hdr.prefixBytes i }
          newNode4 mismatchPos hdr.prefixBytes
            (hdr.prefixBytes mismatchPos) (.inner hdr' lay child)
            (key (depth + mismatchPos)) (.leaf value)
        else
          let hdr' : Header :=
            { hdr with
              prefixLength := prefixLength
              prefixBytes := fun i =>
                if i < kept then byteAt least (depth + mismatchPos + 1 + i)
                else hdr.prefixBytes i }
          newNode4 mismatchPos hdr.prefixBytes
            (byteAt least (depth + mismatchPos)) (.inner hdr' lay child)
            (key (depth + mismatchPos)) (.leaf value)
      else
        let depth := depth + hdr.prefixLength
        match findChild hdr.count lay (key depth) with
        | some s =>
            if (child s).present then
              -- Recurse
              .inner hdr lay (Function.update child s (insert key keyLength value (child s) (depth + 1)))
            else insertChild hdr lay child (key depth) (.leaf value)
        | none => insertChild hdr lay child (key depth) (.leaf value)

/-! ## Bulk insertion -/

/-- The maximal runs of elements with the same byte at `curDepth`, as the calls of `upper_bound`
delimit them in a sorted vector. -/
def partition (curDepth : Nat) : Nat → List Element → List (List Element)
  | 0, _ => []
  | _ + 1, [] => []
  | n + 1, e :: rest =>
      let same := fun f : Element => !decide (byteAt e.key curDepth < byteAt f.key curDepth)
      (e :: rest.takeWhile same) :: partition curDepth n (rest.dropWhile same)

/-- The new node over the given children, whose type follows from their number. -/
def bulkNode (hdr : Header) (bytes : List UInt8) (kids : List Node) : Node :=
  let child := fun i => kids.getD i .null
  if hdr.count ≤ 4 then .inner hdr (.node4 fun i => bytes.getD i 0) child
  else if hdr.count ≤ 16 then .inner hdr (.node16 fun i => bytes.getD i 0) child
  else if hdr.count ≤ 48 then
    .inner hdr (.node48 (indexOf (fun i => bytes.getD i 0) hdr.count)) child
  else
    .inner hdr .node256
      (repeatFor (fun i slots => Function.update slots (bytes.getD i 0).toNat (child i)) hdr.count
        fun _ => .null)

/-- The key byte of a run, read from its first element. -/
def runByte (curDepth : Nat) (part : List Element) : UInt8 :=
  byteAt ((part.map Element.key).headD []) curDepth

/-- The header of a new node over elements that agree on the bytes from `depth` to `curDepth`. -/
def bulkHeader (first : Element) (depth curDepth count : Nat) : Header :=
  { prefixLength := curDepth - depth
    count := count
    prefixBytes :=
      copyOf (fun i => byteAt first.key (depth + i)) (min (curDepth - depth) maxPrefixLength) 0 }

/-- Bulk insert leaf values into the tree.  The elements agree on the bytes from `depth` to
`curDepth`, where the loop looks for the byte they differ in. -/
def bulk_insert : Nat → List Element → Nat → Nat → Option Node
  | 0, _, _, _ => none
  | _ + 1, [], _, _ => some .null
  | _ + 1, [e], _, _ => some (.leaf e)
  | fuel + 1, e :: f :: rest, depth, curDepth =>
      let parts := partition curDepth (e :: f :: rest).length (e :: f :: rest)
      if parts.length = 1 then
        -- Longer common prefix
        bulk_insert fuel (e :: f :: rest) depth (curDepth + 1)
      else
        (parts.mapM fun part => bulk_insert fuel part (curDepth + 1) (curDepth + 1)).map
          (bulkNode (bulkHeader e depth curDepth parts.length) (parts.map (runByte curDepth)))

/-! ## Iteration -/

/-- The value of the current leaf, and the stack of nodes with the position to go on from. -/
structure Iterator where
  value : Option Element
  stack : List (Node × Nat)

/-- The child at `pos` or behind it, and the position behind that child. -/
def nextChild (hdr : Header) (lay : Layout) (child : Nat → Node) (pos : Nat) :
    Option (Node × Nat) :=
  match lay with
  | .node4 _ => if pos < hdr.count then some (child pos, pos + 1) else none
  | .node16 _ => if pos < hdr.count then some (child pos, pos + 1) else none
  | .node48 childIndex =>
      let pos := scan (fun pos => decide (childIndex (UInt8.ofNat pos) ≠ emptyMarker)) (256 - pos) pos
      if pos < 256 then some (child (childIndex (UInt8.ofNat pos)), pos + 1) else none
  | .node256 =>
      let pos := scan (fun pos => (child pos).present) (256 - pos) pos
      if pos < 256 then some (child pos, pos + 1) else none

/-- Look for next leaf. -/
def nextLeaf : Nat → List (Node × Nat) → Option (Bool × Iterator)
  | 0, _ => none
  | _ + 1, [] => some (false, { value := none, stack := [] })
  | _ + 1, (.null, _) :: _ => none
  | _ + 1, (.leaf e, pos) :: stack => some (true, { value := some e, stack := (.leaf e, pos) :: stack })
  | fuel + 1, (.inner hdr lay child, pos) :: stack =>
      match nextChild hdr lay child pos with
      | some (next, pos') =>
          if next.present then nextLeaf fuel ((next, 0) :: (.inner hdr lay child, pos') :: stack)
          else nextLeaf fuel stack
      | none => nextLeaf fuel stack

/-- The stack without a leaf on top. -/
def skipLeaf : List (Node × Nat) → List (Node × Nat)
  | (.leaf _, _) :: stack => stack
  | stack => stack

def iteratorNext (fuel : Nat) (stack : List (Node × Nat)) : Option (Bool × Iterator) :=
  nextLeaf fuel (skipLeaf stack)

/-- The child for a key byte, if there is one, and the position behind it; else the position of the
first child with a larger byte. -/
def seekChild (count : Nat) (lay : Layout) (keyByte : UInt8) : Option Nat × Nat :=
  match lay with
  | .node4 key =>
      let pos := scan (fun pos => !decide (key pos < keyByte)) count 0
      if pos < count ∧ key pos = keyByte then (some pos, pos + 1) else (none, pos)
  | .node16 key =>
      let bits := bitfield (fun b => cmpge_epu8 b keyByte) key count
      if bits ≠ 0 then
        if key (ctz bits) = keyByte then (some (ctz bits), ctz bits + 1) else (none, ctz bits)
      else (none, count)
  | .node48 childIndex =>
      (if childIndex keyByte ≠ emptyMarker then some (childIndex keyByte) else none,
        keyByte.toNat + 1)
  | .node256 => (some keyByte.toNat, keyByte.toNat + 1)

/-- `bound`, from a node on. -/
def bound (fuel : Nat) (key : Nat → UInt8) (keyLength : Nat) (lower : Bool) :
    Node → Nat → List (Node × Nat) → Option (Bool × Iterator)
  | .null, _, _ => none
  | .leaf e, depth, stack =>
      let stack := (.leaf e, 0) :: stack
      let len := min keyLength (ART.keyLength e.key)
      let i := scan (fun i => decide (byteAt e.key i ≠ key i)) (len - depth) depth
      if i < len then
        if byteAt e.key i < key i then iteratorNext fuel stack
        else some (true, { value := some e, stack := stack })
      else if lower then some (true, { value := some e, stack := stack })
      else iteratorNext fuel stack
  | .inner hdr lay child, depth, stack =>
      let least := minKey (.inner hdr lay child)
      let mismatchPos := prefixMismatch hdr least key keyLength depth
      if 0 < hdr.prefixLength ∧ mismatchPos ≠ hdr.prefixLength then
        let keyByte :=
          if mismatchPos < maxPrefixLength then hdr.prefixBytes mismatchPos
          else byteAt least (depth + mismatchPos)
        if keyByte < key (depth + mismatchPos) then iteratorNext fuel stack
        else iteratorNext fuel ((.inner hdr lay child, 0) :: stack)
      else
        let depth := depth + hdr.prefixLength
        match seekChild hdr.count lay (key depth) with
        | (some s, pos) =>
            if (child s).present then
              bound fuel key keyLength lower (child s) (depth + 1)
                ((.inner hdr lay child, pos) :: stack)
            else iteratorNext fuel ((.inner hdr lay child, pos) :: stack)
        | (none, pos) => iteratorNext fuel ((.inner hdr lay child, pos) :: stack)

/-! ## The index -/

variable {K : Type} [KeyType K]

/-- The `Element` of a pair, under its encoded key. -/
def element (kv : KeyValue K) : Element :=
  { key := convert2String kv.key, value := kv.value }

def Build (fuel : Nat) (data : List (KeyValue K)) : Option Node :=
  bulk_insert fuel (data.map element) 0 0

def Insert (tree : Node) (behind : Nat → UInt8) (data : KeyValue K) : Node :=
  let key := convert2String data.key
  insert (c_str key behind) (keyLength key) (element data) tree 0

def EqualityLookup (tree : Node) (behind : Nat → UInt8) (lookupKey : K) : UInt64 :=
  let key := convert2String lookupKey
  match lookup (c_str key behind) (keyLength key) tree 0 false with
  | some e => e.value
  | none => Util.NOT_FOUND

/-- The `do`-`while` loop of `RangeQuery`, with at most the given number of turns. -/
def sumValues (fuel : Nat) (ukey : List UInt8) : Nat → Iterator → UInt64 → Option UInt64
  | 0, _, _ => none
  | turns + 1, it, result => do
      let e ← it.value
      let (more, it') ← iteratorNext fuel it.stack
      if more ∧ ¬ (ukey < ((it'.value.map Element.key).getD [])) then
        sumValues fuel ukey turns it' (result + e.value)
      else
        return result + e.value

def RangeQuery (fuel : Nat) (tree : Node) (behind : Nat → UInt8) (lowerKey upperKey : K) :
    Option UInt64 := do
  let lkey := convert2String lowerKey
  let ukey := convert2String upperKey
  if tree.present then
    let (found, it) ← bound fuel (c_str lkey behind) (keyLength lkey) true tree 0 []
    if found then sumValues fuel ukey fuel it 0 else return 0
  else return 0

end ART
end TLI
