import TLI.Driver.BlockBounds
import TLI.Searches.Comparator
import TLI.Workload.Dealt

/-!
# PhaseCounts — how many operations a phase of `DoOps` has

With `time_each`, `DoOps` reads `individual_ns[exe_cnt - 1]` and divides by `exe_cnt`.  The number of
phases comes from the ratio that the file name shows, their sizes from the counts that `generate`
rounds down, splits into blocks and has room for.  No phase is empty exactly if every block has an
insert and a query, or, without blocks, if the run is mixed or has an insert and a query at all
(`noEmptyPhase_iff`).
-/

namespace TLI
namespace Driver

open PartitionPoint Searches Tiling Workload

variable {K : Type}

/-! ## Model -/

/-- `exe_cnt` behind the loop over the workers of phase `i`. -/
def Benchmark.exeCnt (b : Benchmark K) (i : Nat) : Option Nat := do
  let ps ← b.fgParams i b.numThreads 0 0
  return (ps.map fun p => p.limit - p.start).sum

/-- Every phase has an operation to time. -/
def Benchmark.NoEmptyPhase (b : Benchmark K) : Prop :=
  ∀ i, i < b.phases → ∃ exeCnt, b.exeCnt i = some exeCnt ∧ 1 ≤ exeCnt

/-- The counts leave no phase empty: with blocks, the last block still has an insert and each of the
others an insert and a query; without, there are both inserts and queries, unless the name asks for
a single phase. -/
def FillsPhases (A : Arith) (P : Params) (n : Nat) : Prop :=
  1 ≤ P.threadNum ∧
    if 1 < P.blockNum then
      P.blockNum ≤ (opCounts A P).1 ∧
        (P.blockNum - 1) * ((opCounts A P).1 / P.blockNum) < insertRoom A P n ∧
        (P.blockNum ≤ (opCounts A P).2.2 ∨ P.blockNum ≤ (opCounts A P).2.1)
    else
      P.mix = true ∨ FileName.printed P.insertRatio = 0 ∨ FileName.printed P.insertRatio = 1 ∨
        (1 ≤ insertsPlaced A P n ∧ insertsPlaced A P n < P.opCnt)

/-! ## Adding up the windows -/

theorem exeCnt_eq {b : Benchmark K} {i : Nat} {f : Nat → Nat × Nat}
    (hwindow : ∀ w, w < b.numThreads → b.window w i = some (f w)) :
    b.exeCnt i = some ((List.range' 0 b.numThreads).map fun w => (f w).2 - (f w).1).sum := by
  obtain ⟨ps, hps, htiles⟩ := fgParams_spec b.numThreads 0 0 fun w _ hw => hwindow w (by omega)
  have hsum := htiles.sum_lengths
  have hshare : (ps.map FGParam.share).map (fun w => w.2 - w.1) =
      ps.map fun p => p.limit - p.start := by
    rw [List.map_map]
    exact List.map_congr_left fun p _ => Nat.add_sub_cancel_left _ _
  rw [hshare, Nat.sub_zero, Nat.zero_add] at hsum
  rw [Benchmark.exeCnt, hps, ← hsum]
  rfl

/-- A sum of sizes, one of which counts. -/
theorem sum_window_pos {n : Nat} (hn : n ≤ 1) (w : Nat × Nat) :
    1 ≤ ((List.range' 0 n).map fun _ => w.2 - w.1).sum ↔ 1 ≤ n ∧ w.1 < w.2 := by
  rw [List.map_const', List.sum_replicate_nat, List.length_range']
  rcases Nat.le_one_iff_eq_zero_or_eq_one.1 hn with rfl | rfl
  · omega
  · omega

/-! ## Blocks -/

theorem lt_blockBound_iff (ops : List (Operation K)) (j : Nat) {cur : Nat}
    (hcur : cur ≤ ops.length) :
    cur < blockBound ops j cur ↔ ((kinds ops).drop cur).head? = some (decide (j % 2 = 1)) := by
  have hrange := blockBound_range ops j hcur
  have hdrop := drop_blockBound ops j hcur
  have hlen := congrArg List.length hdrop
  rw [List.length_drop, length_kinds] at hlen
  cases hks : (kinds ops).drop cur with
  | nil =>
      rw [hks] at hlen
      have hlen' := congrArg List.length hks
      rw [List.length_drop, length_kinds, List.length_nil] at hlen'
      simp
      omega
  | cons k ks =>
      have hlen' := congrArg List.length hks
      rw [List.length_drop, length_kinds] at hlen'
      rw [hks, List.dropWhile_cons] at hlen
      have hsub := (List.dropWhile_suffix (fun k => k == decide (j % 2 = 1)) (l := ks)).length_le
      rw [List.head?_cons, Option.some.injEq]
      rw [List.length_cons] at hlen'
      by_cases hk : k = decide (j % 2 = 1)
      · rw [if_pos (by simpa using hk)] at hlen
        exact iff_of_true (by omega) hk
      · rw [if_neg (by simpa using hk), List.length_cons] at hlen
        exact iff_of_false (by omega) hk

/-- All windows have an operation exactly if the operations are that many runs. -/
theorem windows_nonempty_iff (ops : List (Operation K)) (n : Nat) :
    ∀ {j cur : Nat}, j % 2 = 1 → cur ≤ ops.length →
      ((∀ w ∈ (cur :: blockBounds ops (2 * n) j cur).zip (blockBounds ops (2 * n) j cur),
        w.1 < w.2) ↔ FullRuns n ((kinds ops).drop cur)) := by
  induction n with
  | zero =>
      intro j cur _ _
      simp [blockBounds, FullRuns]
  | succ n ih =>
      intro j cur hj hcur
      have hmid := (blockBound_range ops j hcur).2
      have hnext := (blockBound_range ops (j + 1) hmid).2
      have hfst : (fun k => k == decide (j % 2 = 1)) = id := by
        funext k
        cases k <;> simp [hj]
      have hsnd : (fun k => k == decide ((j + 1) % 2 = 1)) = not := by
        have heven : ¬ (j + 1) % 2 = 1 := by omega
        funext k
        cases k <;> simp [heven]
      have hrest := ih (j := j + 1 + 1) (by omega) hnext
      have hodd : decide (j % 2 = 1) = true := decide_eq_true hj
      have heven : decide ((j + 1) % 2 = 1) = false := decide_eq_false (by omega)
      rw [show 2 * (n + 1) = 2 * n + 1 + 1 from rfl, blockBounds, blockBounds, List.zip_cons_cons,
        List.zip_cons_cons, List.forall_mem_cons, List.forall_mem_cons, hrest,
        lt_blockBound_iff ops j hcur, lt_blockBound_iff ops (j + 1) hmid,
        drop_blockBound ops (j + 1) hmid, drop_blockBound ops j hcur, hfst, hsnd, hodd, heven,
        FullRuns]

/-- Block `k` has one of the placed inserts and a query. -/
def HasBoth (insertCnt lookupCnt rangeQueryCnt blockNum placed k : Nat) : Prop :=
  0 < min (placed - k * (insertCnt / blockNum)) (blockCount insertCnt blockNum k) ∧
    0 < (block insertCnt lookupCnt rangeQueryCnt blockNum k).size -
      min (placed - k * (insertCnt / blockNum)) (blockCount insertCnt blockNum k)

/-- Each of the blocks `i, i + 1, …` has both exactly if the kinds change that often. -/
theorem fullRuns_blocks_iff (insertCnt lookupCnt rangeQueryCnt : Nat) {blockNum : Nat}
    (placed left : Nat) : ∀ i, i + left = blockNum →
      (FullRuns left (kindsOf ((List.range' i left).map
          (block insertCnt lookupCnt rangeQueryCnt blockNum))
          (placed - i * (insertCnt / blockNum))) ↔
        ∀ k, i ≤ k → k < blockNum →
          HasBoth insertCnt lookupCnt rangeQueryCnt blockNum placed k) := by
  induction left with
  | zero =>
      intro i hi
      exact iff_of_true trivial fun k hk hlt => absurd hlt (by omega)
  | succ left ih =>
      intro i hi
      have hinserts : (block insertCnt lookupCnt rangeQueryCnt blockNum i).inserts =
          blockCount insertCnt blockNum i := rfl
      have hlen : ((List.range' (i + 1) left).map
          (block insertCnt lookupCnt rangeQueryCnt blockNum)).length = left := by simp
      have hruns := runs_kindsOf ((List.range' (i + 1) left).map
        (block insertCnt lookupCnt rangeQueryCnt blockNum))
        (placed - i * (insertCnt / blockNum) - blockCount insertCnt blockNum i)
      rw [hlen] at hruns
      have htail : FullRuns left (kindsOf ((List.range' (i + 1) left).map
            (block insertCnt lookupCnt rangeQueryCnt blockNum))
            (placed - i * (insertCnt / blockNum) - blockCount insertCnt blockNum i)) ↔
          ∀ k, i + 1 ≤ k → k < blockNum →
            HasBoth insertCnt lookupCnt rangeQueryCnt blockNum placed k := by
        -- Only the last block takes the remainder.
        by_cases hlast : i = blockNum - 1
        · obtain rfl : left = 0 := by omega
          exact iff_of_true trivial fun k hk hlt => absurd hlt (by omega)
        · have hrest := ih (i + 1) (by omega)
          rw [blockCount, if_neg hlast, Nat.sub_sub, ← Nat.succ_mul]
          exact hrest
      rw [List.range'_succ, List.map_cons, kindsOf, hinserts, fullRuns_block_iff hruns, htail]
      constructor
      · rintro ⟨hinsert, hquery, hrest⟩ k hk hlt
        rcases Nat.eq_or_lt_of_le hk with rfl | hk
        · exact ⟨hinsert, hquery⟩
        · exact hrest k hk hlt
      · intro hall
        have hfirst := hall i (le_refl i) (by omega)
        exact ⟨hfirst.1, hfirst.2, fun k hk hlt => hall k (by omega) hlt⟩

/-- What the counts must be for that. -/
theorem fullRuns_iff {insertCnt lookupCnt rangeQueryCnt blockNum placed : Nat}
    (hblock : 1 < blockNum) :
    FullRuns blockNum (kindsOf (blocks insertCnt lookupCnt rangeQueryCnt blockNum) placed) ↔
      blockNum ≤ insertCnt ∧ (blockNum - 1) * (insertCnt / blockNum) < placed ∧
        (blockNum ≤ lookupCnt ∨ blockNum ≤ rangeQueryCnt) := by
  have hpos : 0 < blockNum := Nat.zero_lt_of_lt hblock
  have hiff := fullRuns_blocks_iff insertCnt lookupCnt rangeQueryCnt placed blockNum 0
    (Nat.zero_add blockNum)
  rw [Nat.zero_mul, Nat.sub_zero] at hiff
  rw [blocks, hiff]
  have hshare : 1 ≤ insertCnt / blockNum ↔ blockNum ≤ insertCnt := Nat.one_le_div_iff hpos
  have hlookup : 1 ≤ lookupCnt / blockNum ↔ blockNum ≤ lookupCnt := Nat.one_le_div_iff hpos
  have hrange : 1 ≤ rangeQueryCnt / blockNum ↔ blockNum ≤ rangeQueryCnt := Nat.one_le_div_iff hpos
  constructor
  · intro hall
    have hlast := (hall (blockNum - 1) (Nat.zero_le _) (by omega)).1
    have hfirst := hall 0 (Nat.zero_le _) hpos
    have hone : 1 * (insertCnt / blockNum) ≤ (blockNum - 1) * (insertCnt / blockNum) :=
      Nat.mul_le_mul_right _ (by omega)
    -- The first block is not the last one, so it has the rounded-down shares.
    simp only [HasBoth, Block.size, block, blockCount, if_neg (by omega : ¬ 0 = blockNum - 1),
      Nat.zero_mul, Nat.sub_zero] at hfirst
    generalize (blockNum - 1) * (insertCnt / blockNum) = front at hlast hone ⊢
    omega
  · rintro ⟨hinsert, hroom, hquery⟩ k - hlt
    have hle : k * (insertCnt / blockNum) ≤ (blockNum - 1) * (insertCnt / blockNum) :=
      Nat.mul_le_mul_right _ (by omega)
    have hinserts := le_blockCount insertCnt hlt
    have hlookups := le_blockCount lookupCnt hlt
    have hranges := le_blockCount rangeQueryCnt hlt
    simp only [HasBoth, Block.size, block]
    generalize (blockNum - 1) * (insertCnt / blockNum) = front at hroom hle
    generalize k * (insertCnt / blockNum) = start at hle ⊢
    omega

/-- With blocks, a phase is empty unless the kinds change at every bound point. -/
theorem noEmptyPhase_blocks {numThreads numBlocks : Nat} {flag : Bool}
    {ops : List (List (Operation K))} {b : Benchmark K} (hblocks : 1 < numBlocks)
    (hnew : Benchmark.new numThreads numBlocks flag ops = some b) :
    ∃ totOps ∈ ops, (b.NoEmptyPhase ↔ 1 ≤ numThreads ∧ FullRuns numBlocks (kinds totOps)) := by
  obtain ⟨totOps, ws, hops, hlen, hws, -, hwindow⟩ := window_blocks hblocks hnew
  refine ⟨totOps, List.mem_of_getElem? hops, ?_⟩
  have hnonempty := @windows_nonempty_iff K totOps numBlocks 1 0 rfl (Nat.zero_le _)
  rw [← hws, List.drop_zero] at hnonempty
  obtain ⟨hthreads, _, _, _, _, hb⟩ := new_blocks hblocks hnew
  have hnum : b.numThreads = numThreads := by rw [hb]
  have hphases : b.phases = 2 * numBlocks := by
    rw [hb]
    rfl
  have hphase : ∀ i, i < 2 * numBlocks → ((∃ exeCnt, b.exeCnt i = some exeCnt ∧ 1 ≤ exeCnt) ↔
      1 ≤ numThreads ∧ (ws.getD i (0, 0)).1 < (ws.getD i (0, 0)).2) := by
    intro i hi
    rw [exeCnt_eq (f := fun _ => ws.getD i (0, 0)) fun w _ => hwindow w i hi, hnum]
    simp only [Option.some.injEq, exists_eq_left']
    exact sum_window_pos hthreads _
  have hgetD : ∀ i (hi : i < ws.length), ws.getD i (0, 0) = ws[i] := fun i hi => by
    rw [List.getD_eq_getElem?_getD, List.getElem?_eq_getElem hi, Option.getD_some]
  rw [← hnonempty, Benchmark.NoEmptyPhase, hphases, List.forall_mem_iff_getElem]
  constructor
  · intro hall
    refine ⟨((hphase 0 (by omega)).1 (hall 0 (by omega))).1, fun i hi => ?_⟩
    rw [← hgetD i hi]
    exact ((hphase i (hlen ▸ hi)).1 (hall i (hlen ▸ hi))).2
  · rintro ⟨hthread, hall⟩ i hi
    refine (hphase i hi).2 ⟨hthread, ?_⟩
    rw [hgetD i (hlen ▸ hi)]
    exact hall i (hlen ▸ hi)

/-! ## Threads -/

/-- `std::lower_bound` finds the end of inserts that come first. -/
theorem insertEnd_eq {ops : List (Operation K)} {inserts : Nat} (hle : inserts ≤ ops.length)
    (hks : kinds ops = prefixKinds inserts ops.length) : insertEnd false ops = inserts := by
  have hat : ∀ i : Int, 0 ≤ i → i < ops.length → isInsertAt ops i.toNat = decide (i < inserts) := by
    intro i hi hlt
    have hlt' : i.toNat < (kinds ops).length := by
      rw [length_kinds]
      omega
    have hget := getElem?_prefixKinds hle i.toNat
    rw [← hks, List.getElem?_eq_getElem hlt', if_pos (by omega)] at hget
    rw [isInsertAt_eq ops hlt', Option.some.inj hget]
    exact decide_eq_decide.2 (by omega)
  have hboundary : Boundary (fun i => isInsertAt ops i.toNat) 0 ops.length inserts := by
    refine ⟨Int.natCast_nonneg _, Int.ofNat_le.2 hle, fun i hi hlt => ?_, fun i hi hlt => ?_⟩
    · rw [hat i hi (by omega)]
      exact decide_eq_true hlt
    · rw [hat i (by omega) hlt]
      exact decide_eq_false (not_lt.2 hi)
  have hsplits : Splits (fun i => isInsertAt ops i.toNat) 0 (0 + (ops.length : Int)) := by
    intro i j hi hij hj hbefore
    rw [Int.zero_add] at hj
    have hlt := of_decide_eq_true ((hat j (by omega) hj).symm.trans hbefore)
    exact (hat i hi (by omega)).trans (decide_eq_true (by omega))
  have hfound := BranchingBinarySearch.halving_boundary ops.length 0 hsplits
  rw [Int.zero_add] at hfound
  rw [insertEnd, if_neg Bool.false_ne_true, hfound.unique hboundary, Int.toNat_natCast]

/-- A phase of all threads has the sum of their windows. -/
theorem exeCnt_threads {numThreads : Nat} {flag : Bool} {ops : List (List (Operation K))}
    {b : Benchmark K} (hnew : Benchmark.new numThreads 1 flag ops = some b) {i : Nat}
    (hi : i < 2 - flag.toNat) :
    b.exeCnt i = some ((ops.take numThreads).map fun ops =>
      (threadWindow flag ops i).2 - (threadWindow flag ops i).1).sum := by
  obtain ⟨hlen, hb⟩ := new_threads hnew
  have hnum : b.numThreads = numThreads := by rw [hb]
  rw [exeCnt_eq fun w hw => window_threads hnew (hnum ▸ hw) hi, hnum, map_threadWindow flag hlen]

/-- Without blocks, the phases are the inserts and the queries of all threads, or all
operations. -/
theorem noEmptyPhase_threads {flag : Bool} {ops : List (List (Operation K))} {b : Benchmark K}
    (hnew : Benchmark.new ops.length 1 flag ops = some b) :
    b.NoEmptyPhase ↔
      if flag then 1 ≤ (ops.map List.length).sum
      else 1 ≤ (ops.map (insertEnd false)).sum ∧
        (ops.map (insertEnd false)).sum < (ops.map List.length).sum := by
  obtain ⟨-, hb⟩ := new_threads hnew
  have hphases : b.phases = 2 - flag.toNat := by
    rw [hb]
    exact Nat.mul_one _
  have hcnt := fun i hi => exeCnt_threads hnew (i := i) hi
  rw [List.take_length] at hcnt
  rw [Benchmark.NoEmptyPhase, hphases]
  -- With the flag there is one phase, else the second one begins where the inserts of a thread end.
  cases flag with
  | true =>
      have hzero := hcnt 0 (by decide)
      simp only [threadWindow, if_true, Nat.sub_zero] at hzero
      rw [if_pos rfl]
      constructor
      · intro hall
        obtain ⟨exeCnt, heq, hone⟩ := hall 0 (by decide)
        rw [hzero] at heq
        exact hone.trans_eq (Option.some.inj heq).symm
      · intro hone i hi
        obtain rfl : i = 0 := Nat.lt_one_iff.1 hi
        exact ⟨_, hzero, hone⟩
  | false =>
      have hzero := hcnt 0 (by decide)
      have hone := hcnt 1 (by decide)
      simp only [threadWindow, Bool.false_eq_true, if_false, if_true, Nat.sub_zero,
        Nat.one_ne_zero] at hzero hone
      have hsum : (ops.map fun ops => ops.length - insertEnd false ops).sum +
          (ops.map (insertEnd false)).sum = (ops.map List.length).sum := sum_queries ops
      rw [if_neg Bool.false_ne_true]
      constructor
      · intro hall
        obtain ⟨_, heq, hinsert⟩ := hall 0 (by decide)
        obtain ⟨_, heq', hquery⟩ := hall 1 (by decide)
        rw [hzero] at heq
        rw [hone] at heq'
        rw [← Option.some.inj heq] at hinsert
        rw [← Option.some.inj heq'] at hquery
        exact ⟨hinsert, by omega⟩
      · rintro ⟨hinsert, hquery⟩ i hi
        have hi : i < 2 := hi
        rcases Nat.le_one_iff_eq_zero_or_eq_one.1 (Nat.lt_succ_iff.1 hi) with rfl | rfl
        · exact ⟨_, hzero, hinsert⟩
        · exact ⟨_, hone, by omega⟩

/-! ## The generated workload -/

/-- Whether the name asks for a single phase. -/
theorem flag_of_parse {name : String} (hname : FileName.PlainName name.toList) {P : Params}
    {r : FileName.Parsed}
    (h : FileName.parse (FileName.opFilename ("data/" ++ name) P) = some r) :
    r.flag = true ↔ P.mix = true ∨ FileName.printed P.insertRatio = 0 ∨
      FileName.printed P.insertRatio = 1 := by
  rw [FileName.parse_opFilename hname] at h
  split at h
  · cases h
  · rw [← Option.some.inj h]
    simp [or_assoc]

variable [LinearOrder K] [Inhabited K]

/-- The number of inserts that the scan of every thread finds. -/
theorem sum_insertEnd {A : Arith} {O : StdOutcomes K} {R : DrawRules K} {P : Params}
    {keys : List K} {tape tape' : List UInt32} {W : Output K} (hA : A.Proportional P.opCnt)
    (hP : P.Checked) (hthread : 0 < P.threadNum) (hblock : P.blockNum ≤ 1) (hmix : P.mix = false)
    (h : generate A O R P keys tape = some (W, tape')) :
    (W.ops.map (insertEnd false)).sum = insertsPlaced A P keys.length := by
  obtain ⟨hsum, hprefix⟩ := (generate_dealt hA hP hthread h).2 hblock hmix
  rw [← hsum]
  refine congrArg List.sum (List.map_congr_left fun ops hops => ?_)
  obtain ⟨inserts, hle, hks⟩ := hprefix ops hops
  rw [insertEnd_eq hle hks, hks, count_prefixKinds]

/-- The driver has an operation to time in every phase exactly if the counts say so. -/
theorem noEmptyPhase_iff {A : Arith} {O : StdOutcomes K} {R : DrawRules K} {P : Params}
    {name : String} {r : FileName.Parsed} {keys : List K} {tape tape' : List UInt32} {W : Output K}
    {b : Benchmark K} (hname : FileName.PlainName name.toList) (hA : A.Proportional P.opCnt)
    (hP : P.Checked) (hcnt : 1 ≤ P.opCnt)
    (hparse : FileName.parse (FileName.opFilename ("data/" ++ name) P) = some r)
    (hgenerate : generate A O R P keys tape = some (W, tape'))
    (hnew : Benchmark.new P.threadNum r.numBlocks r.flag W.ops = some b) :
    b.NoEmptyPhase ↔ FillsPhases A P keys.length := by
  have hflag := flag_of_parse hname hparse
  rw [numBlocks_of_parse hname hparse] at hnew
  by_cases hblock : 1 < P.blockNum
  · rw [numBlocks, if_pos hblock] at hnew
    obtain ⟨totOps, hmem, hiff⟩ := noEmptyPhase_blocks hblock hnew
    rw [generate_kinds hA hP hblock hgenerate totOps hmem, Params.blocks, fullRuns_iff hblock] at hiff
    rw [hiff, FillsPhases, if_pos hblock]
    refine and_congr_right fun _ => and_congr_right fun hinsert => and_congr_left fun _ => ?_
    -- There are always inserts left for the last block.
    have hone : 1 ≤ (opCounts A P).1 / P.blockNum :=
      (Nat.one_le_div_iff (Nat.zero_lt_of_lt hblock)).2 hinsert
    have hall : P.blockNum * ((opCounts A P).1 / P.blockNum) ≤ (opCounts A P).1 :=
      Nat.mul_div_le _ _
    have hfront := Nat.sub_mul P.blockNum 1 ((opCounts A P).1 / P.blockNum)
    have hle : 1 * ((opCounts A P).1 / P.blockNum) ≤
        P.blockNum * ((opCounts A P).1 / P.blockNum) := Nat.mul_le_mul_right _ hblock.le
    rw [lt_min_iff]
    exact and_iff_right (by omega)
  · rw [numBlocks, if_neg hblock, ← length_generate hgenerate] at hnew
    rw [noEmptyPhase_threads hnew, FillsPhases, if_neg hblock]
    rcases Nat.eq_zero_or_pos P.threadNum with hzero | hthread
    · have hnil : W.ops = [] := List.eq_nil_of_length_eq_zero ((length_generate hgenerate).trans hzero)
      simp [hnil, hzero]
    · have hlen := (generate_dealt hA hP hthread hgenerate).1
      rw [and_iff_right (Nat.succ_le_of_lt hthread), hlen]
      cases hflags : r.flag with
      | true =>
          rw [if_pos rfl, ← or_assoc, ← or_assoc, or_assoc (a := P.mix = true)]
          exact iff_of_true hcnt (.inl (hflag.1 hflags))
      | false =>
          have hnot : ¬ (P.mix = true ∨ FileName.printed P.insertRatio = 0 ∨
              FileName.printed P.insertRatio = 1) := fun h => by
            rw [hflag.2 h] at hflags
            cases hflags
          have hmix : P.mix = false := Bool.eq_false_iff.2 fun h => hnot (.inl h)
          rw [if_neg Bool.false_ne_true,
            sum_insertEnd hA hP hthread (not_lt.1 hblock) hmix hgenerate, ← or_assoc, ← or_assoc,
            or_assoc (a := P.mix = true), or_iff_right hnot]

theorem noEmptyPhase_spread :
    ∃ b, Benchmark.new 1 2 false BlockRun.spread.ops = some b ∧ b.NoEmptyPhase := by
  obtain ⟨b, hnew⟩ : ∃ b, Benchmark.new 1 2 false BlockRun.spread.ops = some b := ⟨_, rfl⟩
  have hparse : FileName.parse (FileName.opFilename ("data/" ++ "uniform_200M_uint64")
      (BlockRun.params .equality)) = some ⟨2, false, 7 / 10, false, true⟩ := by
    decide +kernel
  have hfills : FillsPhases SmallRun.arith (BlockRun.params .equality) BlockRun.keys.length := by
    refine ⟨le_refl 1, ?_⟩
    rw [if_pos (by decide)]
    decide +kernel
  exact ⟨b, hnew, (noEmptyPhase_iff FileName.plainName_uniform (SmallRun.arith_proportional 6)
    (BlockRun.params_checked .equality) (by decide) hparse BlockRun.run_spread hnew).2 hfills⟩

/-! ## One operation -/

namespace OneOperation

/-- Half of one operation is to be an insert. -/
def params : Params where
  opCnt := 1
  rangeQueryRatio := 0
  negativeLookupRatio := 0
  insertRatio := 1 / 2
  pat := .equality
  hotspotRatio := 1 / 10
  threadNum := 1
  mix := false
  blockNum := 1
  bulkloadCnt := none

theorem params_checked : params.Checked where
  block hblock := absurd hblock (Nat.lt_irrefl 1)
  rangeQueryRatio := by norm_num [params]
  negativeLookupRatio := by norm_num [params]
  insertRatio := by norm_num [params]
  hotspotRatio := by norm_num [params]
  pat _ := rfl

/-- The only operation is a lookup. -/
def workload : Output UInt64 where
  bulkLoads := addValues BlockRun.keys
  ops := [[SmallRun.hit 16]]

end OneOperation

/-- The name asks for an insert phase, but the half of one operation is rounded down to none. -/
theorem not_noEmptyPhase_oneOperation :
    OneOperation.params.Checked ∧
      generate SmallRun.arith SmallRun.outcomes (SmallRun.rules 0) OneOperation.params
        BlockRun.keys (fastRandom 42 1) = some (OneOperation.workload, []) ∧
      ∃ r b, FileName.parse (FileName.opFilename ("data/" ++ "uniform_200M_uint64")
          OneOperation.params) = some r ∧
        Benchmark.new 1 r.numBlocks r.flag OneOperation.workload.ops = some b ∧
        0 < b.phases ∧ b.exeCnt 0 = some 0 ∧ ¬ b.NoEmptyPhase := by
  have hempty : ∃ b, Benchmark.new 1 1 false OneOperation.workload.ops = some b ∧ 0 < b.phases ∧
      b.exeCnt 0 = some 0 := ⟨_, rfl, by decide, by decide +kernel⟩
  obtain ⟨b, hnew, hphases, hzero⟩ := hempty
  refine ⟨OneOperation.params_checked, by decide +kernel, ⟨1, false, 1 / 2, false, true⟩, b,
    by decide +kernel, hnew, hphases, hzero, fun hall => ?_⟩
  obtain ⟨exeCnt, heq, hone⟩ := hall 0 hphases
  rw [hzero] at heq
  exact absurd (Option.some.inj heq ▸ hone) (by decide)

end Driver
end TLI
