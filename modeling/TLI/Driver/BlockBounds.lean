import TLI.Driver.Phases

/-!
# BlockBounds — the bound points of block-wise loading against the generator's blocks

The generator lays a block out as its inserts, then its lookups, then its range queries; the driver
only sees kinds of operations and scans for the places where they change.  When every block has an
insert and a query, the scan finds exactly the starts of the blocks and of their queries — provided
that `generate_inserts` had a pair for every insert.  A hot range that is too small leaves some
insert positions to lookups, and the scan goes astray (`blocks_agree_iff`).
-/

namespace TLI
namespace Driver

open Tiling Workload

variable {K : Type}

/-! ## The scan finds the starts -/

theorem takeWhile_replicate_append {a : Bool} (n : Nat) {xs : List Bool} (h : xs.head? ≠ some a) :
    (List.replicate n a ++ xs).takeWhile (fun k => k == a) = List.replicate n a := by
  induction n with
  | zero =>
      cases xs with
      | nil => rfl
      | cons x xs =>
          have hne : (x == a) = false := by simpa using h
          simp [hne]
  | succ n ih => simpa [List.replicate_succ] using ih

/-- A scan stops behind the run it starts in. -/
theorem blockBound_eq (ops : List (Operation K)) (j n : Nat) {cur : Nat} {rest : List Bool}
    (hcur : cur ≤ ops.length)
    (hks : (kinds ops).drop cur = List.replicate n (decide (j % 2 = 1)) ++ rest)
    (hrest : rest.head? ≠ some (decide (j % 2 = 1))) : blockBound ops j cur = cur + n := by
  have hrange := blockBound_range ops j hcur
  have hdrop := congrArg List.length (drop_blockBound ops j hcur)
  have hsplit := congrArg List.length
    (List.takeWhile_append_dropWhile (p := fun k => k == decide (j % 2 = 1))
      (l := (kinds ops).drop cur))
  have hrun : (((kinds ops).drop cur).takeWhile fun k => k == decide (j % 2 = 1)).length = n := by
    rw [hks, takeWhile_replicate_append n hrest, List.length_replicate]
  rw [List.length_append, hrun] at hsplit
  rw [List.length_drop, length_kinds] at hdrop hsplit
  omega

/-- Every block has an insert and a query. -/
def Filled (bs : List Block) : Prop :=
  ∀ b ∈ bs, 1 ≤ b.inserts ∧ 1 ≤ b.lookups + b.rangeQueries

theorem head?_kindsOf {bs : List Block} {placed : Nat} (hfilled : Filled bs)
    (hplaced : (bs.map Block.inserts).sum ≤ placed) :
    (kindsOf bs placed).head? ≠ some false := by
  cases bs with
  | nil => simp [kindsOf]
  | cons b bs =>
      have hinsert := (hfilled b List.mem_cons_self).1
      rw [List.map_cons, List.sum_cons] at hplaced
      obtain ⟨n, hn⟩ := Nat.exists_eq_succ_of_ne_zero (by omega : min placed b.inserts ≠ 0)
      rw [kindsOf, hn, List.replicate_succ]
      simp

/-- With all inserts placed, the scans find the starts of all parts. -/
theorem blockBounds_eq_blockStarts (ops : List (Operation K)) (bs : List Block) :
    ∀ {j cur placed : Nat}, Filled bs → (bs.map Block.inserts).sum ≤ placed → j % 2 = 1 →
      cur ≤ ops.length → (kinds ops).drop cur = kindsOf bs placed →
      cur :: blockBounds ops (2 * bs.length) j cur = blockStarts bs cur := by
  induction bs with
  | nil => exact fun _ _ _ _ _ => rfl
  | cons b bs ih =>
      intro j cur placed hfilled hplaced hj hcur hks
      obtain ⟨hinsert, hquery⟩ := hfilled b List.mem_cons_self
      have hfilled' : Filled bs := fun b' hb' => hfilled b' (List.mem_cons_of_mem b hb')
      rw [List.map_cons, List.sum_cons] at hplaced
      have hplaced' : (bs.map Block.inserts).sum ≤ placed - b.inserts := by omega
      have hodd : decide (j % 2 = 1) = true := decide_eq_true hj
      have heven : decide ((j + 1) % 2 = 1) = false := decide_eq_false (by omega)
      -- The block is a run of inserts and a run of queries, both nonempty.
      obtain ⟨queries, hqueries⟩ : ∃ n, b.size = b.inserts + (n + 1) :=
        ⟨b.lookups + b.rangeQueries - 1, by rw [Block.size]; omega⟩
      rw [kindsOf, Nat.min_eq_right (by omega), hqueries, Nat.add_sub_cancel_left,
        List.append_assoc] at hks
      have hmid := blockBound_eq ops j b.inserts hcur (hodd.symm ▸ hks) (by
        rw [hodd, List.replicate_succ]
        simp)
      have hmidle := (blockBound_range ops j hcur).2
      have hks' : (kinds ops).drop (blockBound ops j cur) =
          List.replicate (queries + 1) false ++ kindsOf bs (placed - b.inserts) := by
        rw [hmid, ← List.drop_drop, hks, List.drop_left' List.length_replicate]
      have hnext := blockBound_eq ops (j + 1) (queries + 1) hmidle (heven.symm ▸ hks')
        (heven.symm ▸ head?_kindsOf hfilled' hplaced')
      have hnextle := (blockBound_range ops (j + 1) hmidle).2
      have hks'' : (kinds ops).drop (blockBound ops (j + 1) (blockBound ops j cur)) =
          kindsOf bs (placed - b.inserts) := by
        rw [hnext, ← List.drop_drop, hks', List.drop_left' List.length_replicate]
      have hrest := ih (j := j + 1 + 1) hfilled' hplaced' (by omega) hnextle hks''
      rw [List.length_cons, show 2 * (bs.length + 1) = 2 * bs.length + 1 + 1 from rfl, blockBounds,
        blockBounds, hrest, blockStarts, hnext, hmid, hqueries, Nat.add_assoc]

/-! ## Starts that the scan found -/

/-- If the scan finds the starts, every insert position holds an insert. -/
theorem isInsertAt_of_blockStarts (ops : List (Operation K)) (bs : List Block) :
    ∀ {j cur : Nat}, j % 2 = 1 →
      cur :: blockBounds ops (2 * bs.length) j cur = blockStarts bs cur →
      ∀ p ∈ insertPositions bs cur, isInsertAt ops p = true := by
  induction bs with
  | nil => exact fun _ _ _ hp => absurd hp List.not_mem_nil
  | cons b bs ih =>
      intro j cur hj hstarts p hp
      rw [List.length_cons, show 2 * (bs.length + 1) = 2 * bs.length + 1 + 1 from rfl, blockBounds,
        blockBounds, blockStarts] at hstarts
      obtain ⟨hmid, hrest⟩ := List.cons_eq_cons.1 (List.cons_eq_cons.1 hstarts).2
      have hnext : blockBound ops (j + 1) (blockBound ops j cur) = cur + b.size := by
        cases bs with
        | nil => exact (List.cons_eq_cons.1 hrest).1
        | cons b' bs => exact (List.cons_eq_cons.1 hrest).1
      rcases List.mem_append.1 hp with hp | hp
      · -- The scan for the queries of this block passed all its inserts.
        obtain ⟨hle, hlt⟩ := List.mem_range'_1.1 hp
        have hpassed := Loop.scan_before (fun i => isInsertAt ops i ^^ decide (j % 2 = 1))
          (ops.length - cur) cur p hle (lt_of_lt_of_eq hlt hmid.symm)
        simpa [hj] using hpassed
      · rw [hnext] at hrest
        exact ih (by omega) hrest p hp

/-! ## Generator and driver -/

/-- The permutation deals every position once, block by block: inserts, lookups, range queries. -/
structure Deals (insertCnt lookupCnt rangeQueryCnt blockNum : Nat) (opId : List Nat) : Prop where
  perm : opId.Perm (List.range (insertCnt + lookupCnt + rangeQueryCnt))
  placed : opId =
    insertPositions (blocks insertCnt lookupCnt rangeQueryCnt blockNum) 0 ++
      lookupPositions (blocks insertCnt lookupCnt rangeQueryCnt blockNum) 0 ++
      rangeQueryPositions (blocks insertCnt lookupCnt rangeQueryCnt blockNum) 0

/-- The bound points are the starts of all parts, the last one the number of operations. -/
structure FindsBlocks (insertCnt lookupCnt rangeQueryCnt blockNum : Nat)
    (boundPoints : List Nat) : Prop where
  starts : boundPoints = blockStarts (blocks insertCnt lookupCnt rangeQueryCnt blockNum) 0
  length : boundPoints.length = 2 * blockNum + 1
  last : boundPoints.getLast? = some (insertCnt + lookupCnt + rangeQueryCnt)

theorem deals_generatePermuteBlockwise (insertCnt lookupCnt rangeQueryCnt : Nat) {blockNum : Nat}
    (hblock : 0 < blockNum) :
    Deals insertCnt lookupCnt rangeQueryCnt blockNum
      (generatePermuteBlockwise (insertCnt + lookupCnt + rangeQueryCnt) insertCnt rangeQueryCnt
        lookupCnt blockNum) :=
  ⟨generatePermuteBlockwise_perm _ _ _ hblock, generatePermuteBlockwise_eq _ _ _ hblock⟩

theorem getLast?_blockStarts (bs : List Block) (cur : Nat) :
    (blockStarts bs cur).getLast? = some (cur + (bs.map Block.size).sum) := by
  induction bs generalizing cur with
  | nil => rfl
  | cons b bs ih =>
      rw [blockStarts, List.getLast?_cons, List.getLast?_cons, ih, List.map_cons, List.sum_cons,
        ← Nat.add_assoc]
      rfl

theorem findsBlocks_iff {insertCnt lookupCnt rangeQueryCnt blockNum : Nat}
    (hblock : 0 < blockNum) {boundPoints : List Nat} :
    FindsBlocks insertCnt lookupCnt rangeQueryCnt blockNum boundPoints ↔
      boundPoints = blockStarts (blocks insertCnt lookupCnt rangeQueryCnt blockNum) 0 := by
  refine ⟨FindsBlocks.starts, fun hstarts => ⟨hstarts, ?_, ?_⟩⟩
  · rw [hstarts, length_blockStarts, blocks, List.length_map, List.length_range']
  · obtain ⟨hinsert, hlookup, hrange⟩ := sum_blocks insertCnt lookupCnt rangeQueryCnt hblock
    rw [hstarts, getLast?_blockStarts, sum_size, hinsert, hlookup, hrange, Nat.zero_add]

theorem filled_blocks {insertCnt lookupCnt rangeQueryCnt blockNum : Nat}
    (hblock : 0 < blockNum) (hinsert : blockNum ≤ insertCnt)
    (hquery : 1 ≤ lookupCnt / blockNum + rangeQueryCnt / blockNum) :
    Filled (blocks insertCnt lookupCnt rangeQueryCnt blockNum) := by
  intro b hb
  obtain ⟨i, hi, rfl⟩ := List.mem_map.1 hb
  have hi : i < blockNum := by simpa using (List.mem_range'_1.1 hi).2
  have hone : 1 ≤ insertCnt / blockNum := (Nat.one_le_div_iff hblock).2 hinsert
  exact ⟨hone.trans (le_blockCount insertCnt hi),
    hquery.trans (Nat.add_le_add (le_blockCount lookupCnt hi) (le_blockCount rangeQueryCnt hi))⟩

/-- A vector whose first `placed` insert positions hold the inserts has the generator's blocks
as bound points if and only if that is all of them. -/
theorem blockBounds_iff {ops : List (Operation K)} {bs : List Block} {placed : Nat}
    (hfilled : Filled bs) (hks : kinds ops = kindsOf bs placed) :
    0 :: blockBounds ops (2 * bs.length) 1 0 = blockStarts bs 0 ↔
      (bs.map Block.inserts).sum ≤ placed := by
  constructor
  · intro hstarts
    have hfound := isInsertAt_of_blockStarts ops bs rfl hstarts
    have hsubset : insertPositions bs 0 ⊆ (insertPositions bs 0).take placed := by
      intro p hp
      have hp' := hfound p hp
      have hlt : p < (kinds ops).length := by
        by_contra hge
        rw [length_kinds] at hge
        simp [isInsertAt, List.getElem?_eq_none (not_lt.1 hge)] at hp'
      have hget := getElem?_kindsOf bs placed 0 p
      rw [← hks, List.getElem?_eq_getElem hlt, ← isInsertAt_eq ops hlt, hp', Nat.zero_add] at hget
      split at hget
      · exact of_decide_eq_true (Option.some.inj hget).symm
      · cases hget
    have hnodup : (insertPositions bs 0).Nodup := by
      have hall := (positions_perm bs 0).nodup_iff.2 List.nodup_range'
      exact (List.nodup_append.1 (List.nodup_append.1 hall).1).1
    have hle := (hnodup.subperm hsubset).length_le
    rw [List.length_take, length_insertPositions] at hle
    omega
  · intro hplaced
    exact blockBounds_eq_blockStarts ops bs hfilled hplaced rfl (Nat.zero_le _) hks

variable [LinearOrder K] [Inhabited K]

/-- The generator deals its blocks as described, and the driver finds them in the workload exactly
if there was a pair for every insert. -/
theorem blocks_agree_iff {insertCnt lookupCnt rangeQueryCnt blockNum : Nat} (hblock : 2 ≤ blockNum)
    (hinsert : blockNum ≤ insertCnt)
    (hquery : 1 ≤ lookupCnt / blockNum + rangeQueryCnt / blockNum) :
    Deals insertCnt lookupCnt rangeQueryCnt blockNum
      (generatePermuteBlockwise (insertCnt + lookupCnt + rangeQueryCnt) insertCnt rangeQueryCnt
        lookupCnt blockNum) ∧
    ∀ {A : Arith} {O : StdOutcomes K} {R : DrawRules K} {P : Params} {keys : List K}
      {tape tape' : List UInt32} {W : Output K} {flag : Bool} {b : Benchmark K},
      A.Proportional P.opCnt → P.Checked → P.blockNum = blockNum →
      opCounts A P = (insertCnt, rangeQueryCnt, lookupCnt) →
      generate A O R P keys tape = some (W, tape') →
      Benchmark.new P.threadNum blockNum flag W.ops = some b →
      (FindsBlocks insertCnt lookupCnt rangeQueryCnt blockNum b.boundPoints ↔
        insertCnt ≤ insertRoom A P keys.length) := by
  have hpos : 0 < blockNum := Nat.zero_lt_of_lt hblock
  refine ⟨deals_generatePermuteBlockwise _ _ _ hpos, ?_⟩
  intro A O R P keys tape tape' W flag b hA hP hnum hcounts hgenerate hnew
  obtain ⟨_, totOps, bounds, hops, hbounds, rfl⟩ := new_blocks hblock hnew
  have hkinds := generate_kinds hA hP (hnum ▸ hblock) hgenerate totOps (List.mem_of_getElem? hops)
  rw [Params.blocks, hcounts, hnum] at hkinds
  have hfilled := filled_blocks hpos hinsert hquery
  have hlen : (blocks insertCnt lookupCnt rangeQueryCnt blockNum).length = blockNum := by
    rw [blocks, List.length_map, List.length_range']
  have hiff := blockBounds_iff hfilled hkinds
  rw [hlen, (sum_blocks _ _ _ hpos).1] at hiff
  rw [findsBlocks_iff hpos, hbounds]
  refine hiff.trans ?_
  change insertCnt ≤ min insertCnt _ ↔ _
  omega

/-! ## Two blocks -/

namespace BlockRun

/-- Four inserts and two lookups in two blocks. -/
def params (pat : InsertPat) : Params where
  opCnt := 6
  rangeQueryRatio := 0
  negativeLookupRatio := 0
  insertRatio := 7 / 10
  pat := pat
  hotspotRatio := 1 / 10
  threadNum := 1
  mix := false
  blockNum := 2
  bulkloadCnt := none

def keys : List UInt64 := [0, 2, 4, 6, 8, 10, 12, 14, 16, 18]

def run (pat : InsertPat) (draws : Nat) : Option (Output UInt64 × List UInt32) :=
  generate SmallRun.arith SmallRun.outcomes (SmallRun.rules 0) (params pat) keys
    (fastRandom 42 draws)

theorem params_checked (pat : InsertPat) : (params pat).Checked where
  block _ := ⟨le_refl 1, rfl⟩
  rangeQueryRatio := by norm_num [params]
  negativeLookupRatio := by norm_num [params]
  insertRatio := by norm_num [params]
  hotspotRatio := by norm_num [params]
  pat hnot := absurd (by norm_num [params]) hnot

/-- Inserts from the whole key range. -/
def spread : Output UInt64 where
  bulkLoads := (addValues keys).drop 4
  ops :=
    [[SmallRun.insertOf 0 0, SmallRun.insertOf 2 1, SmallRun.hit 8, SmallRun.insertOf 4 2,
      SmallRun.insertOf 6 3, SmallRun.hit 0]]

/-- The hot range holds a single pair, so three of the four inserts stay lookups. -/
def hot : Output UInt64 where
  bulkLoads := (addValues keys).take 3 ++ (addValues keys).drop 4
  ops :=
    [[SmallRun.insertOf 6 3, SmallRun.hit 18, SmallRun.hit 14, SmallRun.hit 8, SmallRun.hit 4,
      SmallRun.hit 14]]

theorem run_spread : run .equality 2 = some (spread, []) := by
  decide +kernel

theorem run_hot : run .hotspot 5 = some (hot, []) := by
  decide +kernel

end BlockRun

theorem blocks_agree_spread :
    ∃ b, Benchmark.new 1 2 false BlockRun.spread.ops = some b ∧ FindsBlocks 4 2 0 2 b.boundPoints := by
  obtain ⟨b, hnew⟩ : ∃ b, Benchmark.new 1 2 false BlockRun.spread.ops = some b := ⟨_, rfl⟩
  refine ⟨b, hnew, ?_⟩
  have hroom : 4 ≤ insertRoom SmallRun.arith (BlockRun.params .equality) BlockRun.keys.length := by
    decide +kernel
  exact ((blocks_agree_iff (by decide) (by decide) (by decide)).2
    (SmallRun.arith_proportional 6) (BlockRun.params_checked .equality) rfl (by decide +kernel)
    BlockRun.run_spread hnew).2 hroom

/-- The driver takes the hot range's missing inserts for the queries of the first block. -/
theorem not_blocks_agree_hot :
    ∃ W b, BlockRun.run .hotspot 5 = some (W, []) ∧
      opCounts SmallRun.arith (BlockRun.params .hotspot) = (4, 0, 2) ∧
      Benchmark.new 1 2 false W.ops = some b ∧ b.boundPoints = [0, 1, 6, 6, 6] ∧
      ¬ FindsBlocks 4 2 0 2 b.boundPoints := by
  refine ⟨BlockRun.hot, _, BlockRun.run_hot, by decide +kernel, rfl, by decide, ?_⟩
  intro hfinds
  exact absurd hfinds.starts (by decide)

end Driver
end TLI
