import Mathlib.Order.BoundedOrder.Basic
import TLI.Library.BlockedTree
import TLI.Simd

/-!
# Model — the search tree of `fast.h`

`buildFAST` stores a sorted array as a perfect binary search tree, in pages of cache lines of SIMD
blocks; `lower_bound` descends it block by block.  The padding behind the array compares as `max()`.

Every one of the builder's loop nests is `storeBlocks`, and every loop of the search is
`searchBlocks`, with the step and the block sizes of its level.  Indices into `v` are natural
numbers.  A slot that was never written reads as the zero of the fresh mapping, and a read behind
the allocation fails.
-/

namespace TLI
namespace FAST

open BlockedTree Loop Simd

/-- What the code uses of `KeyType`, which is `uint32_t` or `uint64_t`. -/
class Key (K : Type) [LinearOrder K] where
  sizeof : Nat
  /-- a lane of `_mm256_cmpgt_epu32` or `_mm256_cmpgt_epu64` -/
  cmpgt : K → K → Bool
  /-- the key whose bytes are zero -/
  zero : K
  sizeof_eq : sizeof = 4 ∨ sizeof = 8
  cmpgt_eq : ∀ a b, cmpgt a b = decide (b < a)

instance : Key UInt32 where
  sizeof := 4
  cmpgt := cmpgt_epu32
  zero := 0
  sizeof_eq := Or.inl rfl
  cmpgt_eq := cmpgt_epu32_eq

instance : Key UInt64 where
  sizeof := 8
  cmpgt := cmpgt_epu64
  zero := 0
  sizeof_eq := Or.inr rfl
  cmpgt_eq := cmpgt_epu64_eq

/-! ## Constants -/

def SIMD_BYTE : Nat := 256 / 8

def CACHE_LINE_BYTE : Nat := 64

def PAGE_BYTE : Nat := 2 ^ 21

section Constants

variable (K : Type) [LinearOrder K] [Key K]

def SIMD_SIZE : Nat := SIMD_BYTE / Key.sizeof K

def CACHE_LINE_SIZE : Nat := CACHE_LINE_BYTE / Key.sizeof K

def PAGE_SIZE : Nat := PAGE_BYTE / Key.sizeof K

def SIMD_DEPTH : Nat := ctz (SIMD_SIZE K)

def CACHE_LINE_DEPTH : Nat := ctz (CACHE_LINE_SIZE K)

def PAGE_DEPTH : Nat := ctz (PAGE_SIZE K)

def PAGE_CACHE_DEPTH : Nat := (PAGE_DEPTH K - 1) / CACHE_LINE_DEPTH K * CACHE_LINE_DEPTH K

def SIMD_MASK : Nat := 2 ^ (SIMD_SIZE K - 1) - 1

/-- The depths for 4-byte and for 8-byte keys. -/
theorem depths_eq :
    SIMD_SIZE K = 8 ∧ SIMD_DEPTH K = 3 ∧ CACHE_LINE_DEPTH K = 4 ∧ PAGE_DEPTH K = 19 ∧
        PAGE_CACHE_DEPTH K = 16 ∧ PAGE_SIZE K = 2 ^ 19 ∨
      SIMD_SIZE K = 4 ∧ SIMD_DEPTH K = 2 ∧ CACHE_LINE_DEPTH K = 3 ∧ PAGE_DEPTH K = 18 ∧
        PAGE_CACHE_DEPTH K = 15 ∧ PAGE_SIZE K = 2 ^ 18 := by
  unfold PAGE_CACHE_DEPTH PAGE_DEPTH SIMD_DEPTH CACHE_LINE_DEPTH SIMD_SIZE CACHE_LINE_SIZE PAGE_SIZE
  rcases Key.sizeof_eq (K := K) with h | h
  · rw [h]
    exact Or.inl (by decide)
  · rw [h]
    exact Or.inr (by decide)

theorem SIMD_DEPTH_pos : 0 < SIMD_DEPTH K := by
  rcases depths_eq K with h | h <;> omega

theorem CACHE_LINE_DEPTH_pos : 0 < CACHE_LINE_DEPTH K := by
  rcases depths_eq K with h | h <;> omega

theorem PAGE_CACHE_DEPTH_pos : 0 < PAGE_CACHE_DEPTH K := by
  rcases depths_eq K with h | h <;> omega

end Constants

variable {K : Type} [LinearOrder K] [OrderTop K] [Key K]

/-! ## Building -/

/-- `idx < len ? l[idx] : std::numeric_limits<KeyType>::max()` -/
def keyAt (l : List K) (idx : Nat) : K :=
  (l[idx]?).getD ⊤

def median (i j : Nat) : Nat :=
  i + (j - 1 - i) / 2

/-- `v[offset++] = …` -/
def storeKey (l : List K) (i j : Nat) (s : Mem K × Nat) : Mem K × Nat :=
  (Function.update s.1 s.2 (some (keyAt l (median i (j - 1)))), s.2 + 1)

def storeSIMDblock (l : List K) (levels i j : Nat) (s : Mem K × Nat) : Mem K × Nat :=
  storeBlocks 1 levels (fun _ => storeKey l) i j s

def storeCachelineBlock (l : List K) (levels i j : Nat) (s : Mem K × Nat) : Mem K × Nat :=
  let s' := storeBlocks (SIMD_DEPTH K) levels
    (fun level => storeSIMDblock l (min (SIMD_DEPTH K) (levels - level))) i j s
  (s'.1, s.2 + 2 ^ levels)

def storeFASTpage (l : List K) (levels i j : Nat) (s : Mem K × Nat) : Mem K × Nat :=
  let s' := storeBlocks (CACHE_LINE_DEPTH K) levels
    (fun level => storeCachelineBlock l (min (CACHE_LINE_DEPTH K) (levels - level))) i j s
  (s'.1, s.2 + 2 ^ (levels + 1))

/-- The body of the page loop: a full page takes `PAGE_SIZE` slots, one of the last level only what
it uses. -/
def storePage (l : List K) (depth level i j : Nat) (s : Mem K × Nat) : Mem K × Nat :=
  if level + PAGE_CACHE_DEPTH K < depth then
    ((storeFASTpage l (PAGE_CACHE_DEPTH K) i j s).1, s.2 + PAGE_SIZE K)
  else
    storeFASTpage l (depth - level) i j s

/-- What `buildFAST` leaves behind: the fields of the object, and the final `offset`, which its
assertion compares with `n`. -/
structure Built (K : Type) where
  depth : Nat
  len : Nat
  n : Nat
  v : Mem K
  offset : Nat

/-- `std::floor(std::log2(len)) + 1` -/
def treeDepth (len : Nat) : Nat :=
  Nat.log 2 len + 1

/-- The page loop.  Its counter `cl` has 32 bits, its bound `level_num` 64. -/
def storePages (fuel : Nat) (l : List K) (depth : Nat) : Option (Mem K × Nat) :=
  repeatForM
    (fun k =>
      let level := k * PAGE_CACHE_DEPTH K
      let chunk := 2 ^ depth / 2 ^ level
      forUnsigned (2 ^ level) (fun cl => storePage l depth level (cl * chunk) ((cl + 1) * chunk))
        fuel 0)
    (rounds (PAGE_CACHE_DEPTH K) depth) (fun _ => none, 0)

/-- `buildFAST`, with at most `fuel` turns for each run of the page loop. -/
def buildFAST (fuel : Nat) (l : List K) : Option (Built K) := do
  let depth := treeDepth l.length
  let depthDivPage := (depth - 1) / PAGE_CACHE_DEPTH K
  let depthPage := depthDivPage * PAGE_CACHE_DEPTH K
  let n := (2 ^ depthDivPage - 1) * 2 ^ PAGE_DEPTH K + 2 ^ (depthPage + depth - depthPage + 1)
  let (v, offset) ← storePages fuel l depth
  return { depth := depth, len := l.length, n := n, v := v, offset := offset }

/-! ## Searching -/

/-- A read from `v` when `n` slots are allocated. -/
def load (n : Nat) (v : Mem K) (a : Nat) : Option K :=
  if a < n then some ((v a).getD (Key.zero)) else none

def maskToIndex (K : Type) [LinearOrder K] [Key K] (bitmask : Nat) : Nat :=
  let bitmask := bitmask &&& SIMD_MASK K
  if SIMD_SIZE K = 4 then [0, 9, 1, 2, 9, 9, 9, 3].getD bitmask 0
  else if bitmask ≠ 0 then popcount bitmask
  else 0

def search_simd (n : Nat) (v : Mem K) (q : K) (a : Nat) : Option Nat := do
  let tree ← (List.range (SIMD_SIZE K)).mapM fun lane => load n v (a + lane)
  return maskToIndex K (movemask (tree.map fun key => Key.cmpgt q key))

def search_scalar (n : Nat) (v : Mem K) (q : K) (simdDepth a : Nat) : Option Nat :=
  searchBlocks 1 simdDepth (fun _ => 1)
    (fun _ a => do
      let key ← load n v a
      return if key < q then 1 else 0) a

/-- The loop over `simd_level`. -/
def searchCacheline (n : Nat) (v : Mem K) (q : K) (cacheDepth a : Nat) : Option Nat :=
  searchBlocks (SIMD_DEPTH K) cacheDepth
    (fun level => 2 ^ blockDepth (SIMD_DEPTH K) cacheDepth level - 1)
    (fun level a =>
      let simdDepth := blockDepth (SIMD_DEPTH K) cacheDepth level
      if simdDepth = SIMD_DEPTH K then search_simd n v q a else search_scalar n v q simdDepth a) a

/-- The loop over `cache_level`. -/
def searchPage (n : Nat) (v : Mem K) (q : K) (pageDepth a : Nat) : Option Nat :=
  searchBlocks (CACHE_LINE_DEPTH K) pageDepth
    (fun level => 2 ^ blockDepth (CACHE_LINE_DEPTH K) pageDepth level)
    (fun level => searchCacheline n v q (blockDepth (CACHE_LINE_DEPTH K) pageDepth level)) a

/-- The slots of a page, `1 << page_actual_depth`. -/
def pageSlots (K : Type) [LinearOrder K] [Key K] (depth level : Nat) : Nat :=
  2 ^ if level + PAGE_CACHE_DEPTH K < depth then PAGE_DEPTH K
    else blockDepth (PAGE_CACHE_DEPTH K) depth level + 1

/-- `lower_bound`, reading from an allocation of `n` slots. -/
def Built.lower_bound (B : Built K) (n : Nat) (q : K) : Option Nat := do
  let pageAddress ← searchBlocks (PAGE_CACHE_DEPTH K) B.depth (pageSlots K B.depth)
    (fun level => searchPage n B.v q (blockDepth (PAGE_CACHE_DEPTH K) B.depth level)) 0
  return min pageAddress B.len

end FAST
end TLI
