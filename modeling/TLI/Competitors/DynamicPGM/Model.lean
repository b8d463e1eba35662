import Mathlib.Data.Nat.Log
import Mathlib.Data.Prod.Lex
import Mathlib.Data.UInt
import TLI.Library.Fuel
import TLI.Library.KWayMerge
import TLI.Library.Loop
import TLI.Library.LowerBound
import TLI.Util

/-!
# DynamicPGM — `DynamicPGMIndex`, a sorted buffer and levels of doubling size

Level `6` is the buffer for new items.  When it is full, an insert merges it with the levels behind
it into the first level with room.  From level `18` on a static index predicts positions.  An
iterator walks all levels at once through a priority queue.

`none` stands for an access outside a vector, an uninitialised item or a failed allocation.
-/

namespace TLI
namespace DynamicPGM

variable {K V : Type}

/-! ## Items -/

/-- `Item`; it converts to its key, and every comparison of items goes through that conversion. -/
structure Item (K V : Type) where
  first : K
  second : V
  flag : Bool
  deriving DecidableEq, Repr

namespace Item

def key (x : Item K V) : K := x.first

def value (x : Item K V) : V := x.second

def deleted (x : Item K V) : Bool := x.flag

/-- `Item(key, value)`; the constructor from a pair does the same. -/
def ofPair (p : K × V) : Item K V := ⟨p.1, p.2, false⟩

def toPair (x : Item K V) : K × V := (x.key, x.value)

@[simp] theorem key_ofPair (p : K × V) : (ofPair p).key = p.1 := rfl

@[simp] theorem toPair_ofPair (p : K × V) : (ofPair p).toPair = p := rfl

@[simp] theorem deleted_ofPair (p : K × V) : (ofPair p).deleted = false := rfl

end Item

/-! ## Levels -/

def min_level : Nat := 6

def MinIndexedLevel : Nat := 18

def max_fully_allocated_level : Nat := max 15 (min_level + 1)

/-- `(1ull << (min_level + 1)) - 1`, the size of the buffer. -/
def first_level_max_size : Nat := 2 ^ (min_level + 1) - 1

structure ApproxPos where
  pos : Nat
  lo : Nat
  hi : Nat
  deriving DecidableEq, Repr

/-- The template arguments: a static index over the items of a level, and the search class.
`lower_bound at key first last start` is a search with the default comparator. -/
structure Template (K V : Type) where
  PGMType : Type
  /-- `PGMType()` -/
  empty : PGMType
  /-- `PGMType(first, last)` -/
  build : List (Item K V) → PGMType
  find_approximate_position : PGMType → K → ApproxPos
  lower_bound : (Int → K) → K → Int → Int → Int → Int

structure DynamicPGMIndex (P : Template K V) where
  used_levels : Nat
  data : List (List (Item K V))
  pgm : List P.PGMType

namespace DynamicPGMIndex

variable {P : Template K V}

def get_level (s : DynamicPGMIndex P) (level : Nat) : List (Item K V) :=
  s.data.getD (level - min_level) []

def get_pgm (s : DynamicPGMIndex P) (level : Nat) : P.PGMType :=
  s.pgm.getD (level - MinIndexedLevel) P.empty

/-- `get_level(level) = …` -/
def setLevel (s : DynamicPGMIndex P) (level : Nat) (items : List (Item K V)) :
    DynamicPGMIndex P :=
  { s with data := s.data.set (level - min_level) items }

/-- `if (level >= MinIndexedLevel) get_pgm(level) = …` -/
def setPgm (s : DynamicPGMIndex P) (level : Nat) (index : P.PGMType) : DynamicPGMIndex P :=
  if MinIndexedLevel ≤ level then { s with pgm := s.pgm.set (level - MinIndexedLevel) index }
  else s

/-- `DynamicPGMIndex(first, last)`: all items go to the last level.  The reservations touch every
level up to `max_fully_allocated_level`, so all of them must exist. -/
def load (P : Template K V) (items : List (K × V)) : Option (DynamicPGMIndex P) :=
  if items = [] then none
  else
    let used_levels := Nat.clog 2 items.length + 1
    if used_levels ≤ max_fully_allocated_level then none
    else
      let target := items.map Item.ofPair
      some {
        used_levels
        data := (List.replicate (used_levels - min_level) []).set (used_levels - 1 - min_level) target
        pgm :=
          if MinIndexedLevel ≤ used_levels - 1 then
            (List.replicate (used_levels - MinIndexedLevel) P.empty).set
              (used_levels - 1 - MinIndexedLevel) (P.build target)
          else [] }

/-! ## `insert` -/

variable [LinearOrder K]

/-- `merge<SkipDeleted>`: of two items with one key the first range's is kept. -/
def merge (SkipDeleted : Bool) : List (Item K V) → List (Item K V) → List (Item K V)
  | [], ys => ys
  | xs, [] => xs
  | x :: xs, y :: ys =>
      if y.key < x.key then y :: merge SkipDeleted (x :: xs) ys
      else if x.key < y.key then x :: merge SkipDeleted xs (y :: ys)
      else if SkipDeleted && x.deleted then merge SkipDeleted xs ys
      else x :: merge SkipDeleted xs ys
termination_by xs ys => xs.length + ys.length

/-- A vector whose items may be uninitialised. -/
abbrev Buffer (K V : Type) := List (Option (Item K V))

/-- Write items from the start of a buffer on. -/
def Buffer.write (buffer : Buffer K V) (items : List (Item K V)) : Option (Buffer K V) :=
  if items.length ≤ buffer.length then some (items.map some ++ buffer.drop items.length) else none

/-- Read the first `n` items of a buffer. -/
def Buffer.read (buffer : Buffer K V) (n : Nat) : Option (List (Item K V)) :=
  if n ≤ buffer.length then (buffer.take n).mapM id else none

/-- The variables of `pairwise_logarithmic_merge`. -/
structure Merging (P : Template K V) where
  index : DynamicPGMIndex P
  tmp_a : Buffer K V
  tmp_b : Buffer K V
  actual_size : Nat

/-- `(i - min_level) % 2 == mod`: the turn for level `i` reads `tmp_a` and writes `tmp_b`. -/
def alternate (mod i : Nat) : Bool :=
  (i - min_level) % 2 == mod

/-- The turn for level `i`: merge it into what has been merged so far, and empty it. -/
def mergeLevel (mod i : Nat) (m : Merging P) : Option (Merging P) :=
  let level_data := m.index.get_level i
  let tmp := if alternate mod i then m.tmp_a else m.tmp_b
  let can_delete_permanently := i == m.index.used_levels - 1
  (tmp.read m.actual_size).bind fun items =>
    let merged := merge can_delete_permanently items level_data
    let index := (m.index.setLevel i []).setPgm i P.empty
    if alternate mod i then
      (m.tmp_b.write merged).map fun tmp_b =>
        { index, tmp_a := m.tmp_a, tmp_b, actual_size := merged.length }
    else
      (m.tmp_a.write merged).map fun tmp_a =>
        { index, tmp_a, tmp_b := m.tmp_b, actual_size := merged.length }

/-- `tmp_b` replaces the target level. -/
def replaceTarget (target_level : Nat) (m : Merging P) : Option (DynamicPGMIndex P) :=
  (m.tmp_b.read m.actual_size).map fun items =>
    ((m.index.setLevel min_level []).setLevel target_level items).setPgm target_level
      (P.build items)

def pairwise_logarithmic_merge (s : DynamicPGMIndex P) (new_item : Item K V)
    (up_to_level size_hint insertion_point : Nat) : Option (DynamicPGMIndex P) :=
  let target_level := up_to_level + 1
  let target_level_data := s.get_level target_level
  let tmp_a : Buffer K V := List.replicate size_hint none
  let tmp_b : Buffer K V := List.replicate (size_hint + target_level_data.length) none
  let mod := (up_to_level - min_level) % 2
  let first := (s.get_level min_level).insertIdx insertion_point new_item
  let limit := if target_level_data.isEmpty then up_to_level else up_to_level + 1
  let start :=
    if mod ≠ 0 then
      (tmp_a.write first).map fun tmp_a =>
        { index := s, tmp_a, tmp_b, actual_size := 2 ^ (1 + min_level) }
    else
      (tmp_b.write first).map fun tmp_b =>
        { index := s, tmp_a, tmp_b, actual_size := 2 ^ (1 + min_level) }
  start.bind fun m =>
    (Loop.repeatForM (fun n => mergeLevel mod (1 + min_level + n)) (limit - min_level) m).bind
      (replaceTarget target_level)

/-- The loop that looks for a level with room, with `n` levels left: the level, and the slots
required there. -/
def findTarget (s : DynamicPGMIndex P) : Nat → Nat → Nat → Nat × Nat
  | 0, i, slots_required => (i, slots_required)
  | n + 1, i, slots_required =>
      if slots_required ≤ 2 ^ i - (s.get_level i).length then (i, slots_required)
      else findTarget s n (i + 1) (slots_required + (s.get_level i).length)

/-- `++used_levels; data.emplace_back(); …` -/
def addLevel (s : DynamicPGMIndex P) (i : Nat) : DynamicPGMIndex P :=
  { used_levels := s.used_levels + 1
    data := s.data ++ [[]]
    pgm := if MinIndexedLevel + s.pgm.length ≤ i then s.pgm ++ [P.empty] else s.pgm }

/-- `std::lower_bound` in a level. -/
def lowerBoundIn (level : List (Item K V)) (key : K) : Nat :=
  (LowerBound.front Item.key key level).length

def insertItem [DecidableEq V] (s : DynamicPGMIndex P) (new_item : Item K V) :
    Option (DynamicPGMIndex P) :=
  let buffer := s.get_level min_level
  let insertion_point := lowerBoundIn buffer new_item.key
  if buffer[insertion_point]?.any fun x => x.key = new_item.key ∧ x.value = new_item.value then
    some s
  else if buffer.length < first_level_max_size then
    some { s.setLevel min_level (buffer.insertIdx insertion_point new_item) with
      used_levels := if s.used_levels = min_level then min_level + 1 else s.used_levels }
  else
    let (i, slots_required) :=
      s.findTarget (s.used_levels - (min_level + 1)) (min_level + 1) (first_level_max_size + 1)
    let s := if i = s.used_levels then s.addLevel i else s
    s.pairwise_logarithmic_merge new_item (i - 1) slots_required insertion_point

/-- `insert(key, value)` -/
def insert [DecidableEq V] (s : DynamicPGMIndex P) (p : K × V) : Option (DynamicPGMIndex P) :=
  s.insertItem (Item.ofPair p)

/-! ## Iterators -/

/-- An iterator of a level's vector, with the number of the level. -/
structure Position where
  level : Nat
  pos : Nat
  deriving DecidableEq, Repr

/-- `DynamicPGMIndexIterator`; no level is the mark of an initialised queue, the largest number of
the counter's type, which no level has: level `i` is sized `1ull << i`. -/
structure Iterator where
  it : Position
  level : Option Nat
  initial_pairs : List Position
  queue : List Position
  deriving DecidableEq, Repr

/-- `*it` -/
def deref (s : DynamicPGMIndex P) (it : Position) : Option (Item K V) :=
  (s.get_level it.level)[it.pos]?

/-- `end()`: behind the last item of the last level. -/
def end_ (s : DynamicPGMIndex P) : Iterator :=
  let last := min_level + (s.data.length - 1)
  { it := ⟨last, (s.get_level last).length⟩, level := none, initial_pairs := [], queue := [] }

variable [Inhabited K]

def keyIn (level : List (Item K V)) (pos : Int) : K :=
  (level[pos.toNat]?.map Item.key).getD default

/-- `while (pos != level.end() && p(*pos)) ++pos;` -/
def skipWhile (p : Item K V → Bool) (level : List (Item K V)) (pos : Nat) : Nat :=
  pos + ((level.drop pos).takeWhile p).length

/-- The queue's order: by key, then by level; no two entries are of one level. -/
def queueRank (s : DynamicPGMIndex P) (it : Position) : K ×ₗ Nat :=
  toLex (keyIn (s.get_level it.level) it.pos, it.level)

/-- The next position of the level, unless the level ends. -/
def nextPosition (s : DynamicPGMIndex P) (it : Position) : Option Position :=
  if it.pos + 1 = (s.get_level it.level).length then none else some ⟨it.level, it.pos + 1⟩

def advance_queue (s : DynamicPGMIndex P) (x : Iterator) : Iterator :=
  match KWayMerge.pop s.queueRank x.queue with
  | none => s.end_
  | some (tmp_it, queue) =>
      { x with it := tmp_it, queue := (s.nextPosition tmp_it).toList ++ queue }

/-- The search in a level with a static index. -/
def predictIn (s : DynamicPGMIndex P) (i : Nat) (key : K) : Nat :=
  let level := s.get_level i
  let approx_pos := P.find_approximate_position (s.get_pgm i) key
  (P.lower_bound (keyIn level) key approx_pos.lo approx_pos.hi approx_pos.pos).toNat

/-- The position of level `i` that `lazy_initialize_queue` starts from. -/
def initialPosition (s : DynamicPGMIndex P) (key : K) (i : Nat) : Option Position :=
  let level := s.get_level i
  if level.isEmpty then none
  else
    let pos := if MinIndexedLevel ≤ i then s.predictIn i key else lowerBoundIn level key
    let pos := skipWhile (fun x => decide (x.key < key)) level pos
    if pos = level.length then none else some ⟨i, pos⟩

def lazy_initialize_queue (s : DynamicPGMIndex P) (x : Iterator) : Iterator :=
  match x.level with
  | none => x
  | some level =>
      let levels := List.range' level (s.used_levels - level)
      let key := keyIn (s.get_level x.it.level) x.it.pos
      let initial_pairs := x.initial_pairs ++ levels.filterMap (s.initialPosition key)
      { s.advance_queue { x with initial_pairs, queue := initial_pairs } with level := none }

/-- `operator++` -/
def increment (s : DynamicPGMIndex P) (x : Iterator) : Iterator :=
  s.advance_queue (s.lazy_initialize_queue x)

/-! ## `lower_bound` -/

/-- The position of level `i` that `lower_bound` starts from. -/
def startIn (s : DynamicPGMIndex P) (key : K) (i : Nat) : Option Position :=
  let level := s.get_level i
  if level.isEmpty then none
  else
    let pos :=
      if i < MinIndexedLevel then skipWhile Item.deleted level (lowerBoundIn level key)
      else skipWhile (fun x => decide (x.key < key)) level (s.predictIn i key)
    if pos = level.length then none else some ⟨i, pos⟩

/-- `lo`: the first of the positions with the smallest key. -/
def firstSmallest (s : DynamicPGMIndex P) : List Position → Option Position
  | [] => none
  | it :: its => some (its.foldl (fun lo it =>
      if keyIn (s.get_level it.level) it.pos < keyIn (s.get_level lo.level) lo.pos then it else lo)
      it)

def lower_bound (s : DynamicPGMIndex P) (key : K) : Iterator :=
  let levels := List.range' min_level (s.used_levels - min_level)
  let initial_pairs := levels.filterMap (s.startIn key)
  match s.firstSmallest initial_pairs with
  | none => s.end_
  | some lo => { it := lo, level := some s.used_levels, initial_pairs, queue := [] }

end DynamicPGMIndex

/-! ## The competitor -/

variable [LinearOrder K]

def Build (P : Template K UInt64) (data : List (KeyValue K)) : Option (DynamicPGMIndex P) :=
  DynamicPGMIndex.load P (data.map KeyValue.toPair)

def Insert {P : Template K UInt64} (pgm_ : DynamicPGMIndex P) (data : KeyValue K) :
    Option (DynamicPGMIndex P) :=
  pgm_.insert data.toPair

variable [Inhabited K]

/-- `while (it != pgm_.end() && it->key() <= upper_key) { result += it->value(); ++it; }` -/
def sumUpTo {P : Template K UInt64} (pgm_ : DynamicPGMIndex P) (upper_key : K) :
    Nat → DynamicPGMIndex.Iterator → UInt64 → Option UInt64
  | 0, _, _ => none
  | fuel + 1, it, result =>
      if it.it = pgm_.end_.it then some result
      else
        (pgm_.deref it.it).bind fun item =>
          if item.key ≤ upper_key then
            sumUpTo pgm_ upper_key fuel (pgm_.increment it) (result + item.value)
          else some result

def RangeQuery {P : Template K UInt64} (pgm_ : DynamicPGMIndex P) (lower_key upper_key : K)
    (fuel : Nat) : Option UInt64 :=
  sumUpTo pgm_ upper_key fuel (pgm_.lower_bound lower_key) 0

/-- `name` is the name of the search class. -/
def applicable (name : String) (_unique _range_query _insert multithread : Bool)
    (_ops_filename : String) : Bool :=
  name != "LinearAVX" && !multithread

end DynamicPGM
end TLI
