import Mathlib.Algebra.Order.Field.Rat
import Mathlib.Data.Rat.Cast.Order
import TLI.Library.Tiling
import TLI.Library.Traverse
import TLI.Workload.Split

/-!
# Blocks — where block-wise loading puts the operations

`generate_permute_blockwise` deals the inserts, lookups and range queries to `block_num` blocks.  It
is read here block by block: `blocks` holds the three counts of every block, and the permutation
lists the positions of all inserts, then of all lookups, then of all range queries
(`generatePermuteBlockwise_eq`).  From this follow the kinds of operations in the vector that
`generate` writes.  They alternate at most `block_num` times between inserts and queries, also when
the insert range holds fewer pairs than there are inserts to place.
-/

namespace TLI
namespace Workload

open Multimap Tiling

/-! ## Blocks and their positions -/

/-- The operations of one block. -/
structure Block where
  inserts : Nat
  lookups : Nat
  rangeQueries : Nat
  deriving DecidableEq, Repr

namespace Block

def size (b : Block) : Nat := b.inserts + b.lookups + b.rangeQueries

end Block

/-- The share of block `i`: the last block takes what is left. -/
def blockCount (cnt blockNum i : Nat) : Nat :=
  if i = blockNum - 1 then cnt - i * (cnt / blockNum) else cnt / blockNum

def block (insertCnt lookupCnt rangeQueryCnt blockNum i : Nat) : Block where
  inserts := blockCount insertCnt blockNum i
  lookups := blockCount lookupCnt blockNum i
  rangeQueries := blockCount rangeQueryCnt blockNum i

/-- The blocks of a workload, in order. -/
def blocks (insertCnt lookupCnt rangeQueryCnt blockNum : Nat) : List Block :=
  (List.range' 0 blockNum).map (block insertCnt lookupCnt rangeQueryCnt blockNum)

/-- The positions of the inserts, for blocks laid out one after the other from `cur` on. -/
def insertPositions : List Block → Nat → List Nat
  | [], _ => []
  | b :: bs, cur => List.range' cur b.inserts ++ insertPositions bs (cur + b.size)

/-- The lookups of a block follow its inserts. -/
def lookupPositions : List Block → Nat → List Nat
  | [], _ => []
  | b :: bs, cur => List.range' (cur + b.inserts) b.lookups ++ lookupPositions bs (cur + b.size)

/-- The range queries of a block follow its lookups. -/
def rangeQueryPositions : List Block → Nat → List Nat
  | [], _ => []
  | b :: bs, cur =>
      List.range' (cur + b.inserts + b.lookups) b.rangeQueries ++
        rangeQueryPositions bs (cur + b.size)

/-- Every block's start and the start of its queries, and the end of the last block. -/
def blockStarts : List Block → Nat → List Nat
  | [], cur => [cur]
  | b :: bs, cur => cur :: (cur + b.inserts) :: blockStarts bs (cur + b.size)

theorem length_blockStarts (bs : List Block) (cur : Nat) :
    (blockStarts bs cur).length = 2 * bs.length + 1 := by
  induction bs generalizing cur with
  | nil => rfl
  | cons b bs ih =>
      rw [blockStarts, List.length_cons, List.length_cons, ih, List.length_cons]
      omega

theorem length_insertPositions (bs : List Block) (cur : Nat) :
    (insertPositions bs cur).length = (bs.map Block.inserts).sum := by
  induction bs generalizing cur with
  | nil => rfl
  | cons b bs ih => simp [insertPositions, ih]

theorem le_of_mem_insertPositions {bs : List Block} {cur p : Nat}
    (h : p ∈ insertPositions bs cur) : cur ≤ p := by
  induction bs generalizing cur with
  | nil => cases h
  | cons b bs ih =>
      rcases List.mem_append.1 h with h | h
      · exact (List.mem_range'_1.1 h).1
      · exact (Nat.le_add_right _ _).trans (ih h)

/-- Together the three lists hold every position once. -/
theorem positions_perm (bs : List Block) (cur : Nat) :
    (insertPositions bs cur ++ lookupPositions bs cur ++ rangeQueryPositions bs cur).Perm
      (List.range' cur (bs.map Block.size).sum) := by
  induction bs generalizing cur with
  | nil => exact List.Perm.nil
  | cons b bs ih =>
      have hblock : List.range' cur b.size =
          List.range' cur b.inserts ++ (List.range' (cur + b.inserts) b.lookups ++
            List.range' (cur + b.inserts + b.lookups) b.rangeQueries) := by
        rw [List.range'_append_1, List.range'_append_1, Block.size, Nat.add_assoc]
      rw [List.map_cons, List.sum_cons, ← List.range'_append_1, hblock]
      refine List.Perm.trans ?_ ((List.Perm.refl _).append (ih (cur + b.size)))
      simp only [insertPositions, lookupPositions, rangeQueryPositions]
      refine List.perm_iff_count.2 fun p => ?_
      simp only [List.count_append]
      omega

/-! ## The permutation -/

theorem sum_blockCount {cnt blockNum : Nat} (left : Nat) :
    ∀ i, i + (left + 1) = blockNum →
      ((List.range' i (left + 1)).map (blockCount cnt blockNum)).sum =
        cnt - i * (cnt / blockNum) := by
  induction left with
  | zero =>
      intro i hi
      simp [blockCount, ← hi]
  | succ left ih =>
      intro i hi
      have hle : (i + 1) * (cnt / blockNum) ≤ cnt :=
        (Nat.mul_le_mul_right _ (by omega)).trans (Nat.mul_div_le cnt blockNum)
      rw [Nat.succ_mul] at hle
      rw [List.range'_succ, List.map_cons, List.sum_cons, ih (i + 1) (by omega), blockCount,
        if_neg (by omega), Nat.succ_mul]
      generalize cnt / blockNum = share at hle
      omega

theorem sum_blocks (insertCnt lookupCnt rangeQueryCnt : Nat) {blockNum : Nat}
    (hblock : 0 < blockNum) :
    ((blocks insertCnt lookupCnt rangeQueryCnt blockNum).map Block.inserts).sum = insertCnt ∧
      ((blocks insertCnt lookupCnt rangeQueryCnt blockNum).map Block.lookups).sum = lookupCnt ∧
      ((blocks insertCnt lookupCnt rangeQueryCnt blockNum).map Block.rangeQueries).sum =
        rangeQueryCnt := by
  obtain ⟨left, rfl⟩ := Nat.exists_eq_succ_of_ne_zero hblock.ne'
  have hsum : ∀ cnt, ((List.range' 0 (left + 1)).map (blockCount cnt (left + 1))).sum = cnt := by
    intro cnt
    rw [sum_blockCount left 0 (by omega), Nat.zero_mul, Nat.sub_zero]
  simp only [blocks, List.map_map]
  exact ⟨hsum insertCnt, hsum lookupCnt, hsum rangeQueryCnt⟩

/-- Every block takes at least the rounded-down share. -/
theorem le_blockCount (cnt : Nat) {blockNum i : Nat} (hi : i < blockNum) :
    cnt / blockNum ≤ blockCount cnt blockNum i := by
  rw [blockCount]
  split
  · have hle : (i + 1) * (cnt / blockNum) ≤ cnt :=
      (Nat.mul_le_mul_right _ hi).trans (Nat.mul_div_le cnt blockNum)
    rw [Nat.succ_mul] at hle
    omega
  · exact le_refl _

/-- One inner loop fills the next part of the permutation. -/
theorem placeRun_append (A X Z : List Nat) (cur : Nat) :
    placeRun (A ++ (X ++ Z)) A.length cur X.length = A ++ (List.range' cur X.length ++ Z) := by
  induction X generalizing A cur with
  | nil => rfl
  | cons x X ih =>
      have hset : (A ++ (x :: X ++ Z)).set A.length cur = A ++ [cur] ++ (X ++ Z) := by
        simp [List.set_append_right]
      have hrest := ih (A ++ [cur]) (cur + 1)
      rw [List.length_append, List.length_singleton] at hrest
      rw [List.length_cons, placeRun, hset, hrest, List.range'_succ]
      simp

/-- The loop of `generate_permute_blockwise` for blocks whose counts are given. -/
def placeAll : List Block → (cur insertCur lookupCur rangeQueryCur : Nat) → List Nat → List Nat
  | [], _, _, _, _, permute => permute
  | b :: bs, cur, insertCur, lookupCur, rangeQueryCur, permute =>
      let permute := placeRun permute insertCur cur b.inserts
      let permute := placeRun permute lookupCur (cur + b.inserts) b.lookups
      let permute := placeRun permute rangeQueryCur (cur + b.inserts + b.lookups) b.rangeQueries
      placeAll bs (cur + b.size) (insertCur + b.inserts) (lookupCur + b.lookups)
        (rangeQueryCur + b.rangeQueries) permute

theorem placeBlocks_eq_placeAll (insertCnt lookupCnt rangeQueryCnt : Nat) {blockNum : Nat}
    (left : Nat) : ∀ (i cur : Nat) (permute : List Nat), i + left = blockNum →
      placeBlocks (insertCnt + lookupCnt + rangeQueryCnt) insertCnt rangeQueryCnt lookupCnt blockNum
          i cur (i * (insertCnt / blockNum)) (insertCnt + i * (lookupCnt / blockNum))
          (insertCnt + lookupCnt + i * (rangeQueryCnt / blockNum)) permute left =
        placeAll ((List.range' i left).map (block insertCnt lookupCnt rangeQueryCnt blockNum)) cur
          (i * (insertCnt / blockNum)) (insertCnt + i * (lookupCnt / blockNum))
          (insertCnt + lookupCnt + i * (rangeQueryCnt / blockNum)) permute := by
  induction left with
  | zero => exact fun _ _ _ _ => rfl
  | succ left ih =>
      intro i cur permute hi
      rw [List.range'_succ, List.map_cons, placeBlocks, placeAll]
      by_cases hlast : i = blockNum - 1
      · -- No block follows, so the cursors behind the last one do not matter.
        obtain rfl : left = 0 := by omega
        simp only [hlast, if_true, block, blockCount, Nat.add_sub_add_left, List.range'_zero,
          List.map_nil, placeAll, placeBlocks]
      · have hrest := ih (i + 1)
        simp only [Nat.succ_mul, ← Nat.add_assoc] at hrest
        simp only [if_neg hlast, block, blockCount, Block.size, ← Nat.add_assoc]
        exact hrest _ _ (by omega)

theorem placeAll_append (bs : List Block) :
    ∀ (cur : Nat) (A X L Y R Z : List Nat), X.length = (bs.map Block.inserts).sum →
      Y.length = (bs.map Block.lookups).sum → Z.length = (bs.map Block.rangeQueries).sum →
      placeAll bs cur A.length (A ++ X ++ L).length (A ++ X ++ L ++ Y ++ R).length
          (A ++ X ++ L ++ Y ++ R ++ Z) =
        A ++ insertPositions bs cur ++ L ++ lookupPositions bs cur ++ R ++
          rangeQueryPositions bs cur := by
  induction bs with
  | nil =>
      intro cur A X L Y R Z hX hY hZ
      rw [List.eq_nil_of_length_eq_zero hX, List.eq_nil_of_length_eq_zero hY,
        List.eq_nil_of_length_eq_zero hZ]
      rfl
  | cons b bs ih =>
      intro cur A X L Y R Z hX hY hZ
      rw [List.map_cons, List.sum_cons] at hX hY hZ
      -- Each of the three open parts gives its first elements to this block.
      obtain ⟨X₁, X₂, rfl, hX₁⟩ : ∃ X₁ X₂, X = X₁ ++ X₂ ∧ X₁.length = b.inserts :=
        ⟨X.take b.inserts, X.drop b.inserts, (List.take_append_drop _ _).symm,
          List.length_take_of_le (by omega)⟩
      obtain ⟨Y₁, Y₂, rfl, hY₁⟩ : ∃ Y₁ Y₂, Y = Y₁ ++ Y₂ ∧ Y₁.length = b.lookups :=
        ⟨Y.take b.lookups, Y.drop b.lookups, (List.take_append_drop _ _).symm,
          List.length_take_of_le (by omega)⟩
      obtain ⟨Z₁, Z₂, rfl, hZ₁⟩ : ∃ Z₁ Z₂, Z = Z₁ ++ Z₂ ∧ Z₁.length = b.rangeQueries :=
        ⟨Z.take b.rangeQueries, Z.drop b.rangeQueries, (List.take_append_drop _ _).symm,
          List.length_take_of_le (by omega)⟩
      rw [List.length_append] at hX hY hZ
      rw [placeAll, ← hX₁, ← hY₁, ← hZ₁]
      have hinsert := placeRun_append A X₁ (X₂ ++ L ++ Y₁ ++ Y₂ ++ R ++ Z₁ ++ Z₂) cur
      have hlookup := placeRun_append (A ++ List.range' cur X₁.length ++ X₂ ++ L) Y₁
        (Y₂ ++ R ++ Z₁ ++ Z₂) (cur + X₁.length)
      have hrange := placeRun_append (A ++ List.range' cur X₁.length ++ X₂ ++ L ++
        List.range' (cur + X₁.length) Y₁.length ++ Y₂ ++ R) Z₁ Z₂ (cur + X₁.length + Y₁.length)
      have hrest := ih (cur + b.size) (A ++ List.range' cur X₁.length) X₂
        (L ++ List.range' (cur + X₁.length) Y₁.length) Y₂
        (R ++ List.range' (cur + X₁.length + Y₁.length) Z₁.length) Z₂ (by omega) (by omega)
        (by omega)
      simp only [List.append_assoc, List.length_append,
        List.length_range'] at hinsert hlookup hrange hrest ⊢
      simp only [insertPositions, lookupPositions, rangeQueryPositions, ← hX₁, ← hY₁, ← hZ₁,
        List.append_assoc]
      rw [hinsert, hlookup, hrange]
      simpa only [Nat.add_assoc] using hrest

/-- The permutation lists the inserts of all blocks, then their lookups, then their range
queries. -/
theorem generatePermuteBlockwise_eq (insertCnt lookupCnt rangeQueryCnt : Nat) {blockNum : Nat}
    (hblock : 0 < blockNum) :
    generatePermuteBlockwise (insertCnt + lookupCnt + rangeQueryCnt) insertCnt rangeQueryCnt
        lookupCnt blockNum =
      insertPositions (blocks insertCnt lookupCnt rangeQueryCnt blockNum) 0 ++
        lookupPositions (blocks insertCnt lookupCnt rangeQueryCnt blockNum) 0 ++
        rangeQueryPositions (blocks insertCnt lookupCnt rangeQueryCnt blockNum) 0 := by
  obtain ⟨hinsert, hlookup, hrange⟩ :=
    sum_blocks insertCnt lookupCnt rangeQueryCnt hblock
  have hall := placeBlocks_eq_placeAll insertCnt lookupCnt rangeQueryCnt blockNum 0 0
    (List.replicate (insertCnt + lookupCnt + rangeQueryCnt) 0) (Nat.zero_add blockNum)
  have happend := placeAll_append (blocks insertCnt lookupCnt rangeQueryCnt blockNum) 0 []
    (List.replicate insertCnt 0) [] (List.replicate lookupCnt 0) [] (List.replicate rangeQueryCnt 0)
    (by simp [hinsert]) (by simp [hlookup]) (by simp [hrange])
  simp only [Nat.zero_mul, Nat.add_zero] at hall
  simp only [List.nil_append, List.append_nil, List.length_nil, List.length_replicate,
    List.replicate_append_replicate] at happend
  exact hall.trans happend

theorem sum_size (bs : List Block) :
    (bs.map Block.size).sum =
      (bs.map Block.inserts).sum + (bs.map Block.lookups).sum +
        (bs.map Block.rangeQueries).sum := by
  induction bs with
  | nil => rfl
  | cons b bs ih =>
      simp only [List.map_cons, List.sum_cons, ih, Block.size]
      omega

theorem generatePermuteBlockwise_perm (insertCnt lookupCnt rangeQueryCnt : Nat) {blockNum : Nat}
    (hblock : 0 < blockNum) :
    (generatePermuteBlockwise (insertCnt + lookupCnt + rangeQueryCnt) insertCnt rangeQueryCnt
      lookupCnt blockNum).Perm (List.range (insertCnt + lookupCnt + rangeQueryCnt)) := by
  obtain ⟨hinsert, hlookup, hrange⟩ :=
    sum_blocks insertCnt lookupCnt rangeQueryCnt hblock
  have hperm := positions_perm (blocks insertCnt lookupCnt rangeQueryCnt blockNum) 0
  rw [sum_size, hinsert, hlookup, hrange, ← List.range_eq_range'] at hperm
  rw [generatePermuteBlockwise_eq insertCnt lookupCnt rangeQueryCnt hblock]
  exact hperm

/-! ## The kinds of operations -/

section Kinds

variable {K : Type}

/-- Which operations are inserts. -/
def kinds (ops : List (Operation K)) : List Bool :=
  ops.map fun op => decide (op.op = .insert)

/-- The kinds of a block-wise workload in which only the first `placed` inserts were placed. -/
def kindsOf : List Block → (placed : Nat) → List Bool
  | [], _ => []
  | b :: bs, placed =>
      List.replicate (min placed b.inserts) true ++
          List.replicate (b.size - min placed b.inserts) false ++
        kindsOf bs (placed - b.inserts)

theorem runs_kindsOf (bs : List Block) (placed : Nat) : Runs bs.length (kindsOf bs placed) := by
  induction bs generalizing placed with
  | nil => rfl
  | cons b bs ih => exact (ih (placed - b.inserts)).block _ _

theorem mem_take_range' {cur cnt n p : Nat} :
    p ∈ (List.range' cur cnt).take n ↔ cur ≤ p ∧ p < cur + min n cnt := by
  rcases Nat.le_total n cnt with hle | hle
  · rw [List.take_range'_of_length_ge hle, List.mem_range'_1, Nat.min_eq_left hle]
  · rw [List.take_range'_of_length_le hle, List.mem_range'_1, Nat.min_eq_right hle]

/-- The inserts of a workload stand at the first of the insert positions. -/
theorem getElem?_kindsOf (bs : List Block) (placed cur p : Nat) :
    (kindsOf bs placed)[p]? =
      if p < (bs.map Block.size).sum then
        some (decide (cur + p ∈ (insertPositions bs cur).take placed))
      else none := by
  induction bs generalizing placed cur p with
  | nil => rfl
  | cons b bs ih =>
      have hsize : min placed b.inserts + (b.size - min placed b.inserts) = b.size := by
        rw [Block.size]
        omega
      rw [kindsOf, insertPositions, List.map_cons, List.sum_cons, List.take_append,
        List.length_range', List.getElem?_append, List.length_append, List.length_replicate,
        List.length_replicate, hsize]
      by_cases hp : p < b.size
      · -- Inside the block only its own positions count.
        have hrest : cur + p ∉ (insertPositions bs (cur + b.size)).take (placed - b.inserts) :=
          fun hmem => by
            have hle := le_of_mem_insertPositions (List.mem_of_mem_take hmem)
            omega
        have hmem : cur + p ∈ (List.range' cur b.inserts).take placed ++
              (insertPositions bs (cur + b.size)).take (placed - b.inserts) ↔
            p < min placed b.inserts := by
          rw [List.mem_append, mem_take_range', or_iff_left hrest]
          omega
        rw [if_pos hp, if_pos (by omega), decide_eq_decide.2 hmem, List.getElem?_append,
          List.length_replicate]
        split
        · simp_all
        · rw [List.getElem?_replicate, if_pos (by omega), decide_eq_false ‹_›]
      · -- Behind it the block's own positions are passed.
        have hblock : cur + p ∉ (List.range' cur b.inserts).take placed := by
          rw [mem_take_range', Block.size] at *
          omega
        have hcur : cur + b.size + (p - b.size) = cur + p := by omega
        rw [if_neg hp, ih (placed - b.inserts) (cur + b.size), hcur]
        simp only [List.mem_append, hblock, false_or]
        exact if_congr (by omega) rfl rfl

theorem length_kinds (ops : List (Operation K)) : (kinds ops).length = ops.length :=
  List.length_map _

theorem getElem?_kinds (ops : List (Operation K)) (p : Nat) :
    (kinds ops)[p]? = ops[p]?.map fun op => decide (op.op = .insert) :=
  List.getElem?_map

/-- What an operation inserts tells whether it inserts. -/
theorem kinds_eq_of_map_inserted {ops ops' : List (Operation K)}
    (h : ops'.map inserted = ops.map inserted) : kinds ops' = kinds ops := by
  have hkinds : ∀ ops : List (Operation K),
      kinds ops = (ops.map inserted).map fun M => decide (M.card = 1) := by
    intro ops
    rw [kinds, List.map_map]
    refine List.map_congr_left fun op _ => ?_
    by_cases hop : op.op = .insert
    · simp [inserted, hop]
    · simp [inserted, hop]
  rw [hkinds, hkinds, h]

/-- Filling in an operation changes no other one. -/
theorem getElem?_kinds_modify (ops : List (Operation K)) (f : Operation K → Operation K)
    (id p : Nat) {code : OpCode} (hf : ∀ op, (f op).op = code) :
    (kinds (ops.modify id f))[p]? =
      if p = id then (kinds ops)[p]?.map fun _ => decide (code = .insert) else (kinds ops)[p]? := by
  rw [getElem?_kinds, getElem?_kinds, List.getElem?_modify]
  cases ops[p]? with
  | none => simp
  | some op =>
      by_cases hp : p = id
      · simp [hp, hf]
      · have hne : ¬ id = p := fun heq => hp heq.symm
        simp [hp, hne]

theorem getElem?_kinds_placeInserts (opId : List Nat) (kvs : List (KeyValue K)) (p : Nat) :
    ∀ ops : List (Operation K), (kinds (placeInserts ops opId kvs))[p]? =
      (kinds ops)[p]?.map fun k => k || decide (p ∈ opId.take kvs.length) := by
  induction opId generalizing kvs with
  | nil =>
      intro ops
      simp [placeInserts]
  | cons id opId ih =>
      cases kvs with
      | nil =>
          intro ops
          simp [placeInserts]
      | cons kv kvs =>
          intro ops
          have hmodify := getElem?_kinds_modify ops (fun op =>
            { op with op := .insert, loKey := kv.key, result := kv.value }) id p fun _ => rfl
          have hrest := ih kvs (ops.modify id fun op =>
            { op with op := .insert, loKey := kv.key, result := kv.value })
          rw [hmodify] at hrest
          refine Eq.trans hrest ?_
          rw [List.length_cons, List.take_succ_cons]
          by_cases hp : p = id
          · cases (kinds ops)[p]? <;> simp [hp]
          · simp [hp]

theorem placeInserts_nil (ops : List (Operation K)) (opId : List Nat) :
    placeInserts ops opId [] = ops := by
  simp [placeInserts]

theorem getElem?_kinds_placeKind (ids : List Nat) {code : OpCode} (hcode : code ≠ .insert)
    (p : Nat) :
    ∀ ops : List (Operation K), (kinds (placeKind ops ids code))[p]? =
      (kinds ops)[p]?.map fun k => k && decide (p ∉ ids) := by
  induction ids with
  | nil =>
      intro ops
      simp [placeKind]
  | cons id ids ih =>
      intro ops
      have hmodify := getElem?_kinds_modify ops (fun op => { op with op := code }) id p
        fun _ => rfl
      have hrest := ih (ops.modify id fun op => { op with op := code })
      rw [hmodify] at hrest
      refine Eq.trans hrest ?_
      by_cases hp : p = id
      · cases (kinds ops)[p]? <;> simp [hp, hcode]
      · simp [hp]

variable [LinearOrder K]

/-- `generate_inserts` places as many inserts as its range holds pairs. -/
theorem generateInserts_eq_some {A : Arith} {O : StdOutcomes K} {ops ops' : List (Operation K)}
    {opId : List Nat} {dataVec bulkLoads : List (KeyValue K)} {insertCnt : Nat} {pat : InsertPat}
    {hotspotRatio : ℚ}
    (h : generateInserts A O ops opId dataVec insertCnt pat hotspotRatio =
      some (ops', bulkLoads)) :
    ∃ lo hi kvs, insertRange A dataVec.length insertCnt pat hotspotRatio = some (lo, hi) ∧
      kvs.length = min insertCnt (hi - lo) ∧ ops' = placeInserts ops opId kvs := by
  unfold generateInserts at h
  obtain ⟨⟨lo, hi⟩, hrange, h⟩ := Option.bind_eq_some_iff.1 h
  change (if pat = .delta then _ else _) = _ at h
  split at h
  · rename_i hpat
    simp only [Option.pure_def, Option.some.injEq, Prod.mk.injEq] at h
    refine ⟨lo, hi, _, hrange, ?_, h.1.symm⟩
    rw [hpat, insertRange] at hrange
    split at hrange
    · simp only [Option.some.injEq, Prod.mk.injEq] at hrange
      rw [List.length_take, List.length_drop, ← hrange.1, ← hrange.2]
    · cases hrange
  · obtain ⟨kvs, hkvs, h⟩ := Option.bind_eq_some_iff.1 h
    simp only [Option.pure_def, Option.some.injEq, Prod.mk.injEq] at h
    refine ⟨lo, hi, _, hrange, ?_, h.1.symm⟩
    rw [List.length_take, length_of_mapM_eq_some hkvs, generatePermute, if_pos rfl,
      (O.shufflePairs_perm _).length_eq, List.length_range']

omit [LinearOrder K] in
/-- An insert stands where one was placed and no lookup or range query after it. -/
theorem getElem?_kinds_placed [Inhabited K] (n insertCnt lookupCnt : Nat) (opId : List Nat)
    (kvs : List (KeyValue K)) (p : Nat) :
    (kinds (placeKind (placeKind (placeInserts (freshOps n) opId kvs)
        ((opId.drop insertCnt).take lookupCnt) .lookup)
        (opId.drop (insertCnt + lookupCnt)) .rangeQuery))[p]? =
      if p < n then some (decide (p ∈ opId.take kvs.length ∧ p ∉ opId.drop insertCnt))
      else none := by
  have hsplit : p ∈ opId.drop insertCnt ↔
      p ∈ (opId.drop insertCnt).take lookupCnt ∨ p ∈ opId.drop (insertCnt + lookupCnt) := by
    rw [← List.drop_drop, ← List.mem_append, List.take_append_drop]
  rw [getElem?_kinds_placeKind _ OpCode.noConfusion, getElem?_kinds_placeKind _ OpCode.noConfusion,
    getElem?_kinds_placeInserts, getElem?_kinds, freshOps, List.getElem?_replicate]
  split
  · simp [hsplit, Bool.and_assoc]
  · rfl

omit [LinearOrder K] in
/-- Placing lookups and range queries leaves the inserts in front of them alone. -/
theorem kinds_placed [Inhabited K] {insertCnt blockNum : Nat} (lookupCnt rangeQueryCnt : Nat)
    (hblock : 0 < blockNum) (kvs : List (KeyValue K)) (hkvs : kvs.length ≤ insertCnt) :
    let opId := generatePermuteBlockwise (insertCnt + lookupCnt + rangeQueryCnt) insertCnt
      rangeQueryCnt lookupCnt blockNum
    kinds (placeKind (placeKind
        (placeInserts (freshOps (insertCnt + lookupCnt + rangeQueryCnt)) opId kvs)
        ((opId.drop insertCnt).take lookupCnt) .lookup)
        (opId.drop (insertCnt + lookupCnt)) .rangeQuery) =
      kindsOf (blocks insertCnt lookupCnt rangeQueryCnt blockNum) kvs.length := by
  intro opId
  obtain ⟨hinsert, hlookup, hrange⟩ :=
    sum_blocks insertCnt lookupCnt rangeQueryCnt hblock
  have hnodup : opId.Nodup :=
    (generatePermuteBlockwise_perm insertCnt lookupCnt rangeQueryCnt hblock).nodup_iff.2
      List.nodup_range
  have htake : opId.take kvs.length =
      (insertPositions (blocks insertCnt lookupCnt rangeQueryCnt blockNum) 0).take kvs.length := by
    have hlen : (insertPositions (blocks insertCnt lookupCnt rangeQueryCnt blockNum) 0).length =
        insertCnt := by
      rw [length_insertPositions, hinsert]
    rw [show opId = _ from generatePermuteBlockwise_eq insertCnt lookupCnt rangeQueryCnt hblock,
      List.append_assoc, List.take_append_of_le_length (by omega)]
  -- An insert is at none of the later positions.
  have hlater : ∀ p ∈ opId.take kvs.length, p ∉ opId.drop insertCnt := fun p hp =>
    List.disjoint_take_drop hnodup hkvs hp
  refine List.ext_getElem? fun p => ?_
  rw [getElem?_kinds_placed, getElem?_kindsOf _ kvs.length 0 p, sum_size, hinsert, hlookup, hrange,
    Nat.zero_add, ← htake]
  simp only [and_iff_left_of_imp (hlater p)]

/-! ## The workload -/

/-- The three counts add up. -/
theorem opCounts_sum {A : Arith} {P : Params} (hA : A.Proportional P.opCnt) (hP : P.Checked) :
    (opCounts A P).1 + (opCounts A P).2.2 + (opCounts A P).2.1 = P.opCnt := by
  have hinsert := hA.mulTrunc_le _ hP.insertRatio.1 hP.insertRatio.2
  unfold opCounts
  cases hsum : A.sumGeOne P.insertRatio P.rangeQueryRatio with
  | true =>
      simp only [if_true]
      omega
  | false =>
      have hadd := hA.mulTrunc_add_le _ _ hP.insertRatio.1 hP.rangeQueryRatio.1 hsum
      simp only [Bool.false_eq_true, if_false]
      omega

/-- How many pairs `generate_inserts` can choose its inserts from. -/
def insertRoom (A : Arith) (P : Params) (n : Nat) : Nat :=
  match insertRange A n (opCounts A P).1 P.pat P.hotspotRatio with
  | some (lo, hi) => hi - lo
  | none => 0

/-- The blocks of a workload with these parameters. -/
def Params.blocks (A : Arith) (P : Params) : List Block :=
  Workload.blocks (opCounts A P).1 (opCounts A P).2.2 (opCounts A P).2.1 P.blockNum

/-- The inserts that there was room for are placed, then the lookups and range queries. -/
theorem placeOps_placed [Inhabited K] {A : Arith} {O : StdOutcomes K} {P : Params} {keys : List K}
    {totOps : List (Operation K)} {bulkLoads : List (KeyValue K)}
    (hA : A.Proportional P.opCnt) (hP : P.Checked)
    (h : placeOps A O P keys = some (totOps, bulkLoads)) :
    ∃ kvs : List (KeyValue K),
      kvs.length = min (opCounts A P).1 (insertRoom A P keys.length) ∧
        totOps = placeKind (placeKind
          (placeInserts (freshOps P.opCnt) (opIds A O P) kvs)
          (((opIds A O P).drop (opCounts A P).1).take (opCounts A P).2.2) .lookup)
          ((opIds A O P).drop ((opCounts A P).1 + (opCounts A P).2.2)) .rangeQuery := by
  unfold placeOps at h
  split at h
  · cases h
  · obtain ⟨⟨placed, bulk⟩, hload, h⟩ := Option.bind_eq_some_iff.1 h
    simp only [Option.pure_def, Option.some.injEq, Prod.mk.injEq] at h
    unfold loadAndInsert at hload
    split at hload
    · obtain ⟨⟨placed', bulk'⟩, hinserts, hload⟩ := Option.bind_eq_some_iff.1 hload
      simp only [Option.pure_def, Option.some.injEq, Prod.mk.injEq] at hload
      obtain ⟨lo, hi, kvs, hrange, hlen, hplaced⟩ := generateInserts_eq_some hinserts
      rw [show (addValues keys).length = keys.length by simp [addValues]] at hrange
      have hroom : insertRoom A P keys.length = hi - lo := by rw [insertRoom, hrange]
      refine ⟨kvs, by rw [hlen, hroom], ?_⟩
      rw [← h.1, ← hload.1, hplaced]
    · -- Without an insert ratio there is no insert to place.
      rename_i hratio
      have hzero : (opCounts A P).1 = 0 := by
        have hratio : P.insertRatio = 0 := le_antisymm (not_lt.1 hratio) hP.insertRatio.1
        have hfst : (opCounts A P).1 = A.mulTrunc P.opCnt P.insertRatio := by
          unfold opCounts
          split <;> rfl
        rw [hfst, hratio, hA.mulTrunc_zero]
      simp only [Option.some.injEq, Prod.mk.injEq] at hload
      refine ⟨[], by rw [hzero, Nat.zero_min, List.length_nil], ?_⟩
      rw [placeInserts_nil, ← h.1, ← hload.1]

/-- The kinds of operations that block-wise loading places. -/
theorem placeOps_kinds [Inhabited K] {A : Arith} {O : StdOutcomes K} {P : Params} {keys : List K}
    {totOps : List (Operation K)} {bulkLoads : List (KeyValue K)}
    (hA : A.Proportional P.opCnt) (hP : P.Checked) (hblock : 1 < P.blockNum)
    (h : placeOps A O P keys = some (totOps, bulkLoads)) :
    kinds totOps = kindsOf (P.blocks A) (min (opCounts A P).1 (insertRoom A P keys.length)) := by
  have hpos : 0 < P.blockNum := Nat.zero_lt_of_lt hblock
  have hsum := opCounts_sum hA hP
  have hid : opIds A O P = generatePermuteBlockwise
      ((opCounts A P).1 + (opCounts A P).2.2 + (opCounts A P).2.1) (opCounts A P).1
      (opCounts A P).2.1 (opCounts A P).2.2 P.blockNum := by
    simp [opIds, (hP.block hblock).2, hblock.ne', hsum]
  obtain ⟨kvs, hlen, rfl⟩ := placeOps_placed hA hP h
  rw [hid, ← hsum, ← hlen]
  exact kinds_placed _ _ hpos kvs (hlen ▸ Nat.min_le_left _ _)

/-- Every thread's file holds the kinds of operations that were dealt to it. -/
theorem generate_map_kinds [Inhabited K] {A : Arith} {O : StdOutcomes K} {R : DrawRules K}
    {P : Params} {keys : List K} {tape tape' : List UInt32} {W : Output K}
    (h : generate A O R P keys tape = some (W, tape')) :
    ∃ (totOps : List (Operation K)) (ops : Nat → List (Operation K)) (tape₁ : List UInt32),
      placeOps A O P keys = some (totOps, W.bulkLoads) ∧
        dealOps P.threadNum totOps tape = some (ops, tape₁) ∧
        W.ops.map kinds = (List.range P.threadNum).map fun i => kinds (ops i) := by
  obtain ⟨hkeys, totOps, ops, tape₁, _, hplace, hdeal, hwalk⟩ := generate_steps h
  have hnone : ¬ 0 < P.insertRatio → (∀ j, NoInsert (ops j)) ∧
      Sorted (W.bulkLoads.map KeyValue.toPair) := fun hratio => by
    obtain ⟨hnone, hsorted⟩ := placeOps_noInsert hratio hkeys hplace
    exact ⟨dealOps_noInsert hnone hdeal, hsorted⟩
  obtain ⟨hlen, hwritten⟩ := generateThreads_sound
    (fun hfalse => (hnone (of_decide_eq_false hfalse)).1)
    (fun hfalse => (hnone (of_decide_eq_false hfalse)).2) hwalk
  refine ⟨totOps, ops, tape₁, hplace, hdeal, List.ext_getElem (by simp [hlen]) fun i hi _ => ?_⟩
  rw [List.getElem_map, List.getElem_map, List.getElem_range]
  rw [List.length_map] at hi
  exact kinds_eq_of_map_inserted (hwritten ⟨i, hi⟩).2

/-- The operations that block-wise loading writes: one vector, whose kinds are those of the
blocks with as many inserts as there was room for. -/
theorem generate_kinds [Inhabited K] {A : Arith} {O : StdOutcomes K} {R : DrawRules K} {P : Params}
    {keys : List K} {tape tape' : List UInt32} {W : Output K} (hA : A.Proportional P.opCnt)
    (hP : P.Checked) (hblock : 1 < P.blockNum)
    (h : generate A O R P keys tape = some (W, tape')) :
    ∀ ops ∈ W.ops,
      kinds ops = kindsOf (P.blocks A) (min (opCounts A P).1 (insertRoom A P keys.length)) := by
  obtain ⟨totOps, ops, _, hplace, hdeal, hmap⟩ := generate_map_kinds h
  have hthread := (hP.block hblock).1
  rw [dealOps, if_neg (Nat.not_lt.2 hthread)] at hdeal
  simp only [Gen.pure_eq_some, Prod.mk.injEq] at hdeal
  intro ops' hops'
  have hmem : kinds ops' ∈ (List.range P.threadNum).map fun i => kinds (ops i) :=
    hmap ▸ List.mem_map_of_mem hops'
  obtain ⟨i, hi, hkinds⟩ := List.mem_map.1 hmem
  -- The only thread has all operations.
  obtain rfl : i = 0 := by
    have hlt := List.mem_range.1 hi
    omega
  rw [← hkinds, ← hdeal.1]
  exact placeOps_kinds hA hP hblock hplace

end Kinds

/-! ## Exact arithmetic -/

namespace SmallRun

theorem cast_mulTrunc_le {n : Nat} {ratio : ℚ} (h : 0 ≤ ratio) :
    (arith.mulTrunc n ratio : ℚ) ≤ n * ratio := by
  have hfloor : 0 ≤ ((n : ℚ) * ratio).floor :=
    Rat.le_floor_iff.2 (by simpa using mul_nonneg (Nat.cast_nonneg n) h)
  calc (arith.mulTrunc n ratio : ℚ) = (((n : ℚ) * ratio).floor : ℚ) := by
        rw [← Int.toNat_of_nonneg hfloor]
        exact (Int.cast_natCast _).symm
    _ ≤ n * ratio := Rat.floor_le _

/-- Rounded down exactly, shares stay within the count. -/
theorem arith_proportional (opCnt : Nat) : arith.Proportional opCnt where
  mulTrunc_zero := by
    have hfloor : Rat.floor 0 = 0 := rfl
    simp [arith, hfloor]
  mulTrunc_le ratio hzero hone := by
    have hle := (cast_mulTrunc_le (n := opCnt) hzero).trans
      (mul_le_of_le_one_right (Nat.cast_nonneg opCnt) hone)
    exact_mod_cast hle
  mulTrunc_add_le a b ha hb hsum := by
    have hlt : a + b < 1 := by simpa [arith] using hsum
    have hle : (arith.mulTrunc opCnt a + arith.mulTrunc opCnt b : ℚ) ≤ opCnt := by
      calc (arith.mulTrunc opCnt a + arith.mulTrunc opCnt b : ℚ)
          ≤ opCnt * a + opCnt * b := add_le_add (cast_mulTrunc_le ha) (cast_mulTrunc_le hb)
        _ = opCnt * (a + b) := (mul_add _ _ _).symm
        _ ≤ opCnt := mul_le_of_le_one_right (Nat.cast_nonneg opCnt) hlt.le
    exact_mod_cast hle

end SmallRun

end Workload
end TLI
