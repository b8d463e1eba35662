import Mathlib.Data.List.Sort
import Mathlib.Data.Rat.Defs
import Mathlib.Logic.Function.Basic
import TLI.Util

/-!
# Generate — the workload generator of `generate.cc`

The generator is a deterministic function of its parameters, the key file, and

* the outputs of `ranny`, consumed call by call from a tape (`Gen`);
* what the standard library leaves open: the outcome of `shuffle` and `sample` and the order in
  which `sort` leaves pairs with equal keys (`StdOutcomes`);
* the expressions evaluated in floating point (`Arith`, `DrawRules`).

`none` stands for a run that writes no workload: `util::fail`, an exception, an access outside a
container, a division by zero, or a tape that ends before the run does.
-/

namespace TLI
namespace Workload

open Multimap

/-! ## What a run depends on besides its parameters -/

/-- A computation that draws from `ranny` and may fail. -/
abbrev Gen := StateT (List UInt32) Option

/-- The open choices of the standard library, with what it guarantees about them. -/
structure StdOutcomes (K : Type) [LinearOrder K] where
  shuffleOps : List Nat → List Nat
  shufflePairs : List Nat → List Nat
  sample : List (KeyValue K) → Nat → List (KeyValue K)
  sort : List (KeyValue K) → List (KeyValue K)
  shuffleOps_perm : ∀ xs, (shuffleOps xs).Perm xs
  shufflePairs_perm : ∀ xs, (shufflePairs xs).Perm xs
  sample_sublist : ∀ xs n, (sample xs n).Sublist xs
  sort_perm : ∀ xs, (sort xs).Perm xs
  sort_sorted : ∀ xs, (sort xs).Pairwise fun a b => a.key ≤ b.key

/-- The double-precision expressions of `generate` and `generate_inserts`. -/
structure Arith where
  /-- `size_t(n * ratio)` -/
  mulTrunc : Nat → ℚ → Nat
  /-- `size_t(lo + ratio * n)` -/
  offsetTrunc : Nat → ℚ → Nat → Nat
  /-- `a + b >= 1.` -/
  sumGeOne : ℚ → ℚ → Bool

/-- How one output of `ranny` is turned into a decision or a key. -/
structure DrawRules (K : Type) where
  /-- `std::is_same<KeyType, std::string>` -/
  isString : Bool
  /-- `ScaleFactor() < negative_lookup_ratio` -/
  isNegative : UInt32 → Bool
  /-- `(ScaleFactor() * (max_key - min_key)) + min_key`, for given bounds -/
  scaleKey : UInt32 → K → K → K
  /-- the distance `(1 - ScaleFactor() * error) * max_num` an iterator is advanced by -/
  steps : UInt32 → Nat
  /-- the upper bound put on `max_key` for one of the data files -/
  clampMax : K → K

inductive InsertPat
  | equality
  | delta
  | hotspot
  deriving DecidableEq, Repr

/-- The arguments of `generate`; `bulkloadCnt = none` stands for `size_t(-1)`. -/
structure Params where
  opCnt : Nat
  rangeQueryRatio : ℚ
  negativeLookupRatio : ℚ
  insertRatio : ℚ
  pat : InsertPat
  hotspotRatio : ℚ
  threadNum : Nat
  mix : Bool
  blockNum : Nat
  bulkloadCnt : Option Nat
  deriving Repr

/-- The checks of `main`; an insert pattern is only read when there are inserts. -/
structure Params.Checked (P : Params) : Prop where
  block : 1 < P.blockNum → P.threadNum ≤ 1 ∧ P.mix = false
  rangeQueryRatio : 0 ≤ P.rangeQueryRatio ∧ P.rangeQueryRatio ≤ 1
  negativeLookupRatio : 0 ≤ P.negativeLookupRatio ∧ P.negativeLookupRatio ≤ 1
  insertRatio : 0 ≤ P.insertRatio ∧ P.insertRatio ≤ 1
  hotspotRatio : 0 < P.hotspotRatio ∧ P.hotspotRatio ≤ 1
  pat : ¬ 0 < P.insertRatio → P.pat = .equality

/-- What double precision guarantees of the shares of a count that it represents exactly, as it
does every count below `2^53`. -/
structure Arith.Proportional (A : Arith) (opCnt : Nat) : Prop where
  mulTrunc_zero : A.mulTrunc opCnt 0 = 0
  mulTrunc_le : ∀ ratio, 0 ≤ ratio → ratio ≤ 1 → A.mulTrunc opCnt ratio ≤ opCnt
  mulTrunc_add_le : ∀ a b, 0 ≤ a → 0 ≤ b → A.sumGeOne a b = false →
    A.mulTrunc opCnt a + A.mulTrunc opCnt b ≤ opCnt

/-- Maximum number of retries to find a range query that qualifies. -/
def maxNumRetries : Nat := 100

/-- Default argument `max_num` of `generate_equality_lookups`. -/
def maxNum : Nat := 100

/-- `(1 - error) * max_num` for the default `error = 0.05`. -/
def minNum : Nat := 95

variable {K : Type} [LinearOrder K]

/-! ## Drawing operations -/

/-- One turn of the generator behind `ranny`. -/
def fastRandomNext (seed : UInt64) : UInt64 :=
  let seed := seed ^^^ (seed <<< 13)
  let seed := seed ^^^ (seed >>> 15)
  seed ^^^ (seed <<< 5)

/-- The first outputs of `util::FastRandom ranny(seed)`; `generate` uses the seed `42`. -/
def fastRandom (seed : UInt64) : Nat → List UInt32
  | 0 => []
  | n + 1 => (fastRandomNext seed).toUInt32 :: fastRandom (fastRandomNext seed) n

/-- `ranny.RandUint32()` -/
def randUint32 : Gen UInt32
  | [] => none
  | r :: tape => some (r, tape)

/-- `ranny.RandUint32(inclusive_min, inclusive_max)`, which divides by zero on the full range. -/
def randRange (inclusiveMin inclusiveMax : UInt32) : Gen UInt32 := do
  let r ← randUint32
  if inclusiveMax - inclusiveMin + 1 = 0 then failure
  return inclusiveMin + r % (inclusiveMax - inclusiveMin + 1)

/-- The two models of the index: `data_map`, a `std::multimap` as the list of its pairs in key
order, and `data_vec`. -/
structure Model (K : Type) where
  dataMap : List (K × UInt64)
  dataVec : List (KeyValue K)

/-- What an `INSERT` operation adds to both models. -/
def Model.insert (M : Model K) (op : Operation K) : Model K :=
  { dataMap := emplace (op.loKey, op.result) M.dataMap
    dataVec := M.dataVec ++ [{ key := op.loKey, value := op.result }] }

/-- The pairs the generator searches: `data_map` if there are inserts, else `data_vec`. -/
def Model.searched (isInsert : Bool) (M : Model K) : List (K × UInt64) :=
  if isInsert then M.dataMap else M.dataVec.map KeyValue.toPair

/-- `data_map.find(key) != data_map.end()`, and for `data_vec` the test after `lower_bound`. -/
def Model.isExist (isInsert : Bool) (M : Model K) (key : K) : Bool :=
  match ((M.searched isInsert).dropWhile fun p => decide (p.1 < key)).head? with
  | some p => decide (p.1 = key)
  | none => false

/-- `while (is_exist)`: draw until the key is absent. -/
def drawNegative (isExist : K → Bool) (draw : UInt32 → K) : Gen K
  | [] => none
  | r :: tape =>
      if isExist (draw r) then drawNegative isExist draw tape else some (draw r, tape)

/-- Draw lookup key from existing keys. -/
def drawExisting (M : Model K) : Gen K := do
  let offset ← randRange 0 (UInt32.ofNat (M.dataVec.length - 1))
  let kv ← M.dataVec[offset.toNat]?
  return kv.key

/-- The `LOOKUP` branch of `generate_equality_lookups`. -/
def generateLookup (R : DrawRules K) (negativeLookupRatio : ℚ) (isInsert : Bool) (M : Model K)
    (op : Operation K) : Gen (Operation K) := do
  let minKey ← (M.searched isInsert).head?
  let maxKey ← (M.searched isInsert).getLast?
  let negative ←
    if !R.isString && decide (0 < negativeLookupRatio) then
      R.isNegative <$> randUint32
    else
      pure false
  if negative then
    -- Generate negative lookup.
    let key ← drawNegative (M.isExist isInsert)
      fun r => R.scaleKey r minKey.1 (R.clampMax maxKey.1)
    return { op with loKey := key, result := Util.NOT_FOUND }
  else
    -- Generate positive lookup.
    let key ← drawExisting M
    return { op with loKey := key, result := 0 }

/-- From `lower_bound(lo_key)`: advance by `steps` to find `hi_key`, then add up the pairs whose
key is not above it.  Returns `hi_key`, `result` and `num_qualifying`. -/
def scanRange (loKey : K) (steps : Nat) (xs : List (K × UInt64)) : Option (K × UInt64 × Nat) := do
  let rest := xs.dropWhile fun p => decide (p.1 < loKey)
  let hi ← rest[steps]?
  let qualifying := rest.takeWhile fun p => decide (p.1 ≤ hi.1)
  return (hi.1, (qualifying.map Prod.snd).sum, qualifying.length)

/-- One turn of `while (!generated)`; `none` asks for a retry.  A string key above `max_key` costs
a retry like a range with too many or too few pairs. -/
def rangeAttempt (R : DrawRules K) (isInsert : Bool) (M : Model K) (op : Operation K) :
    Gen (Option (Operation K)) := do
  let xs := M.searched isInsert
  let minKey ← xs.head?
  if xs.length ≤ maxNum then failure
  let maxKey ← xs[xs.length - maxNum - 1]?
  -- Draw lookup key from data domain.
  let loKey ←
    if R.isString then
      drawExisting M
    else
      (fun r => R.scaleKey r minKey.1 maxKey.1) <$> randUint32
  if R.isString && decide (maxKey.1 < loKey) then
    return none
  else
    let r ← randUint32
    let (hiKey, result, numQualifying) ← scanRange loKey (R.steps r) xs
    if numQualifying > maxNum || numQualifying < minNum then
      return none
    else
      return some { op with loKey := loKey, hiKey := hiKey, result := result }

/-- The `RANGE_QUERY` branch of `generate_equality_lookups`, with the retries it has left. -/
def generateRange (R : DrawRules K) (isInsert : Bool) (M : Model K) (op : Operation K) :
    Nat → Gen (Operation K)
  | 0 => do
      let some op' ← rangeAttempt R isInsert M op | failure
      return op'
  | retries + 1 => do
      match ← rangeAttempt R isInsert M op with
      | some op' => return op'
      | none => generateRange R isInsert M op retries

/-- Fill in the operations in order, keeping the models up to date with the inserts. -/
def generateEqualityLookups (R : DrawRules K) (negativeLookupRatio : ℚ) (isInsert : Bool) :
    Model K → List (Operation K) → Gen (List (Operation K))
  | _, [] => return []
  | M, op :: ops =>
      match op.op with
      | .insert => do
          let ops' ← generateEqualityLookups R negativeLookupRatio isInsert (M.insert op) ops
          return op :: ops'
      | .lookup => do
          let op' ← generateLookup R negativeLookupRatio isInsert M op
          let ops' ← generateEqualityLookups R negativeLookupRatio isInsert M ops
          return op' :: ops'
      | .rangeQuery => do
          let op' ← generateRange R isInsert M op maxNumRetries
          let ops' ← generateEqualityLookups R negativeLookupRatio isInsert M ops
          return op' :: ops'

/-! ## Placing operations and inserts -/

/-- `generate_permute` -/
def generatePermute (shuffle : List Nat → List Nat) (lo hi : Nat) (isShuffle : Bool) : List Nat :=
  let permute := List.range' lo (hi - lo)
  if isShuffle then shuffle permute else permute

/-- One of the inner loops of `generate_permute_blockwise`:
`for (j < cnt) permute[at ++] = cur ++`. -/
def placeRun (permute : List Nat) (pos cur : Nat) : Nat → List Nat
  | 0 => permute
  | cnt + 1 => placeRun (permute.set pos cur) (pos + 1) (cur + 1) cnt

/-- The blocks `i, i + 1, …` of `generate_permute_blockwise`, with its four cursors. -/
def placeBlocks (opCnt insertCnt rangeQueryCnt lookupCnt blockNum : Nat) (i : Nat)
    (cur insertCur lookupCur rangeQueryCur : Nat) (permute : List Nat) : Nat → List Nat
  | 0 => permute
  | left + 1 =>
      let last := i = blockNum - 1
      let blockInsertCnt := if last then insertCnt - insertCur else insertCnt / blockNum
      let blockRangeQueryCnt := if last then opCnt - rangeQueryCur else rangeQueryCnt / blockNum
      let blockLookupCnt :=
        if last then insertCnt + lookupCnt - lookupCur else lookupCnt / blockNum
      let permute := placeRun permute insertCur cur blockInsertCnt
      let permute := placeRun permute lookupCur (cur + blockInsertCnt) blockLookupCnt
      let permute := placeRun permute rangeQueryCur (cur + blockInsertCnt + blockLookupCnt)
        blockRangeQueryCnt
      placeBlocks opCnt insertCnt rangeQueryCnt lookupCnt blockNum (i + 1)
        (cur + blockInsertCnt + blockLookupCnt + blockRangeQueryCnt)
        (insertCur + blockInsertCnt) (lookupCur + blockLookupCnt)
        (rangeQueryCur + blockRangeQueryCnt) permute left

/-- Help generate block-wise loading. -/
def generatePermuteBlockwise (opCnt insertCnt rangeQueryCnt lookupCnt blockNum : Nat) : List Nat :=
  placeBlocks opCnt insertCnt rangeQueryCnt lookupCnt blockNum 0 0 0 insertCnt
    (insertCnt + lookupCnt) (List.replicate opCnt 0) blockNum

/-- `ops[op_id[i]]` becomes the `INSERT` of the `i`-th pair. -/
def placeInserts (ops : List (Operation K)) (opId : List Nat) (kvs : List (KeyValue K)) :
    List (Operation K) :=
  (opId.zip kvs).foldl
    (fun ops p => ops.modify p.1 fun op =>
      { op with op := .insert, loKey := p.2.key, result := p.2.value }) ops

/-- `ops[op_id[j]].op = code` for the given ids. -/
def placeKind (ops : List (Operation K)) (ids : List Nat) (code : OpCode) : List (Operation K) :=
  ids.foldl (fun ops id => ops.modify id fun op => { op with op := code }) ops

/-- The range `[lo, hi)` of the data that `generate_inserts` takes its inserts from. -/
def insertRange (A : Arith) (n insertCnt : Nat) (pat : InsertPat) (hotspotRatio : ℚ) :
    Option (Nat × Nat) :=
  match pat with
  | .equality => some (0, n)
  | .delta => if insertCnt ≤ n then some (n - insertCnt, n) else none
  | .hotspot =>
      let lo := A.mulTrunc n (3 / 10)
      let hi := A.offsetTrunc lo hotspotRatio n
      if lo ≤ hi ∧ hi ≤ n then some (lo, hi) else none

/-- `generate_inserts`: the operations with the inserts placed, and `bulk_loads`. -/
def generateInserts (A : Arith) (O : StdOutcomes K) (ops : List (Operation K)) (opId : List Nat)
    (dataVec : List (KeyValue K)) (insertCnt : Nat) (pat : InsertPat) (hotspotRatio : ℚ) :
    Option (List (Operation K) × List (KeyValue K)) := do
  let (lo, hi) ← insertRange A dataVec.length insertCnt pat hotspotRatio
  if pat = .delta then
    return (placeInserts ops opId ((dataVec.drop lo).take insertCnt),
      dataVec.take lo ++ dataVec.drop hi)
  else
    let kvs ← (generatePermute O.shufflePairs lo hi true).mapM fun id => dataVec[id]?
    return (placeInserts ops opId (kvs.take insertCnt),
      dataVec.take lo ++ O.sort (kvs.drop insertCnt) ++ dataVec.drop hi)

/-! ## The whole generator -/

/-- The files `generate` writes: the bulk load and one operation vector per thread. -/
structure Output (K : Type) where
  bulkLoads : List (KeyValue K)
  ops : List (List (Operation K))
  deriving DecidableEq, Repr

/-- The pairs inserted by a thread, `insert_vecs[i]`. -/
def insertVec (ops : List (Operation K)) : List (K × UInt64) :=
  (ops.filter fun op => op.op = .insert).map fun op => (op.loKey, op.result)

/-- Deal the operations to the threads at random. -/
def splitThreads (threadNum : Nat) :
    List (Operation K) → (Nat → List (Operation K)) → Gen (Nat → List (Operation K))
  | [], ops => return ops
  | e :: es, ops => do
      let i ← randRange 0 (UInt32.ofNat (threadNum - 1))
      splitThreads threadNum es (Function.update ops i.toNat (ops i.toNat ++ [e]))

/-- The operations of every thread: dealt at random, or all to the only thread. -/
def dealOps (threadNum : Nat) (totOps : List (Operation K)) : Gen (Nat → List (Operation K)) :=
  if threadNum > 1 then splitThreads threadNum totOps fun _ => []
  else return fun i => if i = 0 then totOps else []

/-- The order of pairs that `sort(other_vec.begin(), other_vec.end())` uses. -/
def pairLe (a b : K × UInt64) : Bool :=
  decide (a.1 < b.1) || (decide (a.1 = b.1) && decide (a.2 ≤ b.2))

/-- The models thread `i` starts from: `data_vec` holds the bulk load, `data_map` holds it together
with the inserts of every other thread. -/
def threadModel (isInsert : Bool) (threadNum : Nat) (bulkLoads : List (KeyValue K))
    (ops : Nat → List (Operation K)) (i : Nat) : Model K :=
  let otherVec := bulkLoads.map KeyValue.toPair ++
    ((List.range threadNum).filter fun j => j ≠ i).flatMap fun j => insertVec (ops j)
  { dataMap :=
      if isInsert then
        (if threadNum > 1 then otherVec.insertionSort fun a b => pairLe a b
          else otherVec).foldl (fun xs p => emplace p xs) []
      else []
    dataVec := bulkLoads }

/-- The loop over the threads that calls `generate_equality_lookups`. -/
def generateThreads (R : DrawRules K) (negativeLookupRatio : ℚ) (isInsert : Bool) (threadNum : Nat)
    (bulkLoads : List (KeyValue K)) (ops : Nat → List (Operation K)) :
    List Nat → Gen (List (List (Operation K)))
  | [] => return []
  | i :: is => do
      let ops' ← generateEqualityLookups R negativeLookupRatio isInsert
        (threadModel isInsert threadNum bulkLoads ops i) (ops i)
      let rest ← generateThreads R negativeLookupRatio isInsert threadNum bulkLoads ops is
      return ops' :: rest

/-- The numbers of inserts, range queries and lookups of a workload. -/
def opCounts (A : Arith) (P : Params) : Nat × Nat × Nat :=
  let insertCnt := A.mulTrunc P.opCnt P.insertRatio
  if A.sumGeOne P.insertRatio P.rangeQueryRatio then
    (insertCnt, P.opCnt - insertCnt, 0)
  else
    let rangeQueryCnt := A.mulTrunc P.opCnt P.rangeQueryRatio
    (insertCnt, rangeQueryCnt, P.opCnt - insertCnt - rangeQueryCnt)

/-- The positions of the operations: inserts first, then lookups, then range queries. -/
def opIds (A : Arith) (O : StdOutcomes K) (P : Params) : List Nat :=
  let (insertCnt, rangeQueryCnt, lookupCnt) := opCounts A P
  let opId :=
    if P.blockNum = 1 then generatePermute O.shuffleOps 0 P.opCnt P.mix
    else generatePermuteBlockwise P.opCnt insertCnt rangeQueryCnt lookupCnt P.blockNum
  if 0 < P.insertRatio ∧ P.mix then
    (opId.take insertCnt).insertionSort (· ≤ ·) ++ opId.drop insertCnt
  else opId

/-- The sizes `generate` refuses: `util::fail`, and `bulk_loads.reserve` with a wrapped size. -/
def rejects (A : Arith) (P : Params) (n : Nat) : Bool :=
  let insertCnt := (opCounts A P).1
  -- Insert number + Bulk-loaded number > Dataset size
  (match P.bulkloadCnt with
    | some bulkloadCnt => decide (n < insertCnt + bulkloadCnt)
    | none => false) || decide (n < insertCnt)

/-- `vector<Operation<KeyType>> tot_ops(op_cnt)` -/
def freshOps [Inhabited K] (opCnt : Nat) : List (Operation K) :=
  List.replicate opCnt { op := .lookup, loKey := default, hiKey := default, result := 0 }

/-- `sample` replaces the pairs when a bulk-load count is given. -/
def sampleBulkLoads (O : StdOutcomes K) (P : Params) (kvs : List (KeyValue K)) :
    List (KeyValue K) :=
  match P.bulkloadCnt with
  | some bulkloadCnt => O.sample kvs bulkloadCnt
  | none => kvs

/-- The operations with the inserts placed, and `bulk_loads`. -/
def loadAndInsert [Inhabited K] (A : Arith) (O : StdOutcomes K) (P : Params)
    (orgVec : List (KeyValue K)) : Option (List (Operation K) × List (KeyValue K)) :=
  if 0 < P.insertRatio then do
    let (totOps, bulkLoads) ← generateInserts A O (freshOps P.opCnt) (opIds A O P) orgVec
      (opCounts A P).1 P.pat P.hotspotRatio
    return (totOps, sampleBulkLoads O P bulkLoads)
  else
    some (freshOps P.opCnt, sampleBulkLoads O P orgVec)

/-- The operations with their kinds and inserts in place, and `bulk_loads`. -/
def placeOps [Inhabited K] (A : Arith) (O : StdOutcomes K) (P : Params) (keys : List K) :
    Option (List (Operation K) × List (KeyValue K)) :=
  let insertCnt := (opCounts A P).1
  let lookupCnt := (opCounts A P).2.2
  let opId := opIds A O P
  if rejects A P keys.length then none
  else do
    let (totOps, bulkLoads) ← loadAndInsert A O P (addValues keys)
    let totOps := placeKind totOps ((opId.drop insertCnt).take lookupCnt) .lookup
    return (placeKind totOps (opId.drop (insertCnt + lookupCnt)) .rangeQuery, bulkLoads)

/-- `generate`, up to the two files it writes. -/
def generate [Inhabited K] (A : Arith) (O : StdOutcomes K) (R : DrawRules K) (P : Params)
    (keys : List K) : Gen (Output K) := do
  -- Keys have to be sorted.
  if ¬ keys.Pairwise (· ≤ ·) then failure
  let (totOps, bulkLoads) ← placeOps A O P keys
  let ops ← dealOps P.threadNum totOps
  let isInsert := decide (0 < P.insertRatio)
  let ops ← generateThreads R P.negativeLookupRatio isInsert P.threadNum bulkLoads ops
    (List.range P.threadNum)
  return { bulkLoads := bulkLoads, ops := ops }

/-! ## A small run -/

namespace SmallRun

/-- Exact arithmetic, which on the numbers below agrees with double precision. -/
def arith : Arith where
  mulTrunc n ratio := (n * ratio).floor.toNat
  offsetTrunc lo ratio n := (lo + ratio * n).floor.toNat
  sumGeOne a b := decide (1 ≤ a + b)

def outcomes : StdOutcomes UInt64 where
  shuffleOps xs := xs
  shufflePairs xs := xs
  sample xs n := xs.take n
  sort xs := xs.insertionSort fun a b => a.key ≤ b.key
  shuffleOps_perm := List.Perm.refl
  shufflePairs_perm := List.Perm.refl
  sample_sublist xs n := List.take_sublist n xs
  sort_perm xs := List.perm_insertionSort _ xs
  sort_sorted xs := List.pairwise_insertionSort (fun a b : KeyValue UInt64 => a.key ≤ b.key) xs

/-- `ScaleFactor()` is the drawn number divided by the largest one. -/
def rules (negativeLookupRatio : ℚ) : DrawRules UInt64 where
  isString := false
  isNegative r := decide ((r.toNat : ℚ) / 4294967295 < negativeLookupRatio)
  scaleKey r lo hi := UInt64.ofNat (r.toNat * (hi - lo).toNat / 4294967295) + lo
  steps r := ((1 - (r.toNat : ℚ) / 4294967295 * (5 / 100)) * 100).floor.toNat
  clampMax key := key

/-- Four inserts, five lookups and one range query. -/
def params (threadNum : Nat) : Params where
  opCnt := 10
  rangeQueryRatio := 1 / 10
  negativeLookupRatio := 1 / 2
  insertRatio := 2 / 5
  pat := .delta
  hotspotRatio := 1 / 10
  threadNum := threadNum
  mix := false
  blockNum := 1
  bulkloadCnt := none

/-- Four small keys and the even numbers from `200` to `400`. -/
def keys : List UInt64 :=
  [0, 2, 4, 6] ++ (List.range 101).map fun i => UInt64.ofNat (200 + 2 * i)

def run (threadNum draws : Nat) : Option (Output UInt64 × List UInt32) :=
  generate arith outcomes (rules (params threadNum).negativeLookupRatio) (params threadNum) keys
    (fastRandom 42 draws)

/-- The four largest keys are inserted. -/
def bulkLoads : List (KeyValue UInt64) :=
  (addValues keys).take 101

def insertOf (key value : UInt64) : Operation UInt64 :=
  { op := .insert, loKey := key, hiKey := 0, result := value }

def hit (key : UInt64) : Operation UInt64 :=
  { op := .lookup, loKey := key, hiKey := 0, result := 0 }

def miss (key : UInt64) : Operation UInt64 :=
  { op := .lookup, loKey := key, hiKey := 0, result := Util.NOT_FOUND }

def range (loKey hiKey sum : UInt64) : Operation UInt64 :=
  { op := .rangeQuery, loKey := loKey, hiKey := hiKey, result := sum }

def oneThread : Output UInt64 where
  bulkLoads := bulkLoads
  ops :=
    [[insertOf 394 101, insertOf 396 102, insertOf 398 103, insertOf 400 104, miss 47, miss 61,
      hit 378, hit 282, miss 100, range 171 392 5044]]

/-- The second thread's range query covers two keys that the first thread inserts. -/
def twoThreads : Output UInt64 where
  bulkLoads := bulkLoads
  ops :=
    [[insertOf 394 101, insertOf 396 102, insertOf 400 104, miss 257, hit 258, hit 344, hit 210],
      [insertOf 398 103, hit 242, range 127 398 5350]]

theorem run_oneThread : run 1 13 = some (oneThread, []) := by
  decide +kernel

theorem run_twoThreads : run 2 23 = some (twoThreads, []) := by
  decide +kernel

end SmallRun

end Workload
end TLI
