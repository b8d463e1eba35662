import Mathlib.Tactic.NormNum
import TLI.FileName
import TLI.Library.Loop
import TLI.Searches.Model
import TLI.Workload.Blocks

/-!
# Phases — the bound points of `Benchmark` and the windows of `DoOps`

`Benchmark` cuts every worker's operations into windows: one window in a mixed run, inserts and
queries otherwise, and an insert part and a query part for every block of block-wise loading.
`DoOps` runs the windows phase by phase; the workers of a phase write their timings one behind the
other into `individual_ns`.

The windows of a worker follow one another and cover its operations, and no timing is written twice
or behind the buffer (`phases_partition`).
-/

namespace TLI
namespace Driver

open Searches Tiling Workload

variable {K : Type}

/-! ## Model -/

/-- What the constructor leaves for `DoOps`; `individualNs` is the size of that buffer. -/
structure Benchmark (K : Type) where
  numThreads : Nat
  numBlocks : Nat
  flag : Bool
  ops : List (List (Operation K))
  boundPoints : List Nat
  individualNs : Nat

/-- `ops[i].op == util::INSERT` -/
def isInsertAt (ops : List (Operation K)) (i : Nat) : Bool :=
  ops[i]?.any fun e => decide (e.op = .insert)

/-- The scan for bound point `j`: an odd one ends a run of inserts, an even one a run of queries. -/
def blockBound (ops : List (Operation K)) (j cur : Nat) : Nat :=
  Loop.scan (fun i => isInsertAt ops i ^^ decide (j % 2 = 1)) (ops.length - cur) cur

/-- The bound points `j, j + 1, …` of block-wise loading, each scanned for from the one before. -/
def blockBounds (ops : List (Operation K)) : (left j cur : Nat) → List Nat
  | 0, _, _ => []
  | left + 1, j, cur =>
      blockBound ops j cur :: blockBounds ops left (j + 1) (blockBound ops j cur)

/-- Where the inserts of a thread end, by `std::lower_bound`; without an insert phase the bound
point keeps its initial value. -/
def insertEnd (flag : Bool) (ops : List (Operation K)) : Nat :=
  if flag then 0
  else (BranchingBinarySearch.bound_ (fun i => isInsertAt ops i.toNat) 0 ops.length).toNat

/-- The constructor, from the parameters in the workload's file name and the loaded operations.
`none` is `util::fail` or an access to operations that were not loaded. -/
def Benchmark.new (numThreads numBlocks : Nat) (flag : Bool) (ops : List (List (Operation K))) :
    Option (Benchmark K) :=
  if 1 < numBlocks ∧ (1 < numThreads ∨ flag = true) then
    -- Can not use block-wise loading with multi-thread or mixed scenario.
    none
  else if 1 < numBlocks then do
    let totOps ← ops[0]?
    let boundPoints := 0 :: blockBounds totOps (2 * numBlocks) 1 0
    return {
      numThreads, numBlocks, flag, ops, boundPoints
      individualNs :=
        ((boundPoints.zip boundPoints.tail).map fun w => w.2 - w.1).foldr max 0 }
  else if ops.length < numThreads then
    none
  else
    let ends := (ops.take numThreads).map fun ops => [0, insertEnd flag ops, ops.length]
    let insertCnt := ((ops.take numThreads).map (insertEnd flag)).sum
    let totCnt := ((ops.take numThreads).map List.length).sum
    some {
      numThreads, numBlocks, flag, ops
      boundPoints := ends.flatten
      individualNs := max insertCnt (totCnt - insertCnt) }

namespace Benchmark

/-- The number of turns of the loop of `DoOps`. -/
def phases (b : Benchmark K) : Nat := (2 - b.flag.toNat) * b.numBlocks

/-- `start` and `limit` of a worker in phase `i`. -/
def window (b : Benchmark K) (worker i : Nat) : Option (Nat × Nat) :=
  if 1 < b.numBlocks then do
    return (← b.boundPoints[i]?, ← b.boundPoints[i + 1]?)
  else do
    return (← b.boundPoints[3 * worker + i]?, ← b.boundPoints[3 * worker + i + 1 + b.flag.toNat]?)

end Benchmark

/-- The parameters of a worker; `individualNs` is the offset into that buffer. -/
structure FGParam where
  individualNs : Nat
  start : Nat
  limit : Nat

namespace FGParam

/-- The places of `individual_ns` that `DoOpsCoreLoop` writes. -/
def writes (p : FGParam) : List Nat :=
  (positions (p.start, p.limit)).map fun idx => p.individualNs + (idx - p.start)

/-- The part of `individual_ns` a worker uses. -/
def share (p : FGParam) : Nat × Nat :=
  (p.individualNs, p.individualNs + (p.limit - p.start))

theorem writes_eq (p : FGParam) : p.writes = positions p.share := by
  have hlen : (positions (p.start, p.limit)).length = p.limit - p.start := by simp [positions]
  refine List.ext_getElem ?_ fun n hn hn' => ?_
  · simp [writes, share, positions]
  · simp [writes, share, positions]

end FGParam

/-- The parameters of the workers `worker, worker + 1, …` in phase `i`. -/
def Benchmark.fgParams (b : Benchmark K) (i : Nat) :
    (left worker exeCnt : Nat) → Option (List FGParam)
  | 0, _, _ => some []
  | left + 1, worker, exeCnt => do
      let (start, limit) ← b.window worker i
      let rest ← b.fgParams i left (worker + 1) (exeCnt + (limit - start))
      return { individualNs := exeCnt, start := start, limit := limit } :: rest

/-- Every worker's windows cover its operations once and in order, and the timings of a phase are
written to different places of the buffer. -/
structure Benchmark.Partitions (b : Benchmark K) : Prop where
  covers : ∀ worker, worker < b.numThreads → ∃ ops ws, b.ops[worker]? = some ops ∧
    (List.range b.phases).mapM (b.window worker) = some ws ∧ Tiles 0 ws ops.length ∧
    ws.flatMap positions = List.range ops.length
  separate : ∀ i, i < b.phases → ∃ ps, b.fgParams i b.numThreads 0 0 = some ps ∧
    (ps.map FGParam.writes).Pairwise List.Disjoint ∧
    ∀ p ∈ ps, ∀ place ∈ p.writes, place < b.individualNs

/-! ## Scanning for blocks -/

theorem isInsertAt_eq (ops : List (Operation K)) {i : Nat} (hi : i < (kinds ops).length) :
    isInsertAt ops i = (kinds ops)[i] := by
  have hlt : i < ops.length := by simpa [kinds] using hi
  simp [isInsertAt, kinds, hlt]

theorem blockBound_range (ops : List (Operation K)) (j : Nat) {cur : Nat} (hcur : cur ≤ ops.length) :
    cur ≤ blockBound ops j cur ∧ blockBound ops j cur ≤ ops.length := by
  have hscan := Loop.scan_le (fun i => isInsertAt ops i ^^ decide (j % 2 = 1)) (ops.length - cur)
    cur
  rw [Nat.add_sub_cancel' hcur] at hscan
  exact hscan

/-- The scan passes a run of inserts or, for an even bound point, a run of queries. -/
theorem drop_blockBound (ops : List (Operation K)) (j : Nat) {cur : Nat} (hcur : cur ≤ ops.length) :
    (kinds ops).drop (blockBound ops j cur) =
      ((kinds ops).drop cur).dropWhile fun k => k == decide (j % 2 = 1) := by
  have hlen := length_kinds ops
  refine Loop.drop_scan (fun i hi => ?_) _ cur (by omega)
  rw [isInsertAt_eq ops hi]
  cases (kinds ops)[i] <;> cases decide (j % 2 = 1) <;> rfl

theorem length_blockBounds (ops : List (Operation K)) (left j cur : Nat) :
    (blockBounds ops left j cur).length = left := by
  induction left generalizing j cur with
  | zero => rfl
  | succ left ih => rw [blockBounds, List.length_cons, ih]

theorem blockBounds_isChain (ops : List (Operation K)) (left : Nat) :
    ∀ {j cur : Nat}, cur ≤ ops.length → (cur :: blockBounds ops left j cur).IsChain (· ≤ ·) := by
  induction left with
  | zero => exact fun _ => List.isChain_singleton _
  | succ left ih =>
      intro j cur hcur
      have hrange := blockBound_range ops j hcur
      exact List.isChain_cons_cons.2 ⟨hrange.1, ih hrange.2⟩

/-- Scanning through all runs ends behind the last operation. -/
theorem getLast_blockBounds (ops : List (Operation K)) (n : Nat) :
    ∀ {j cur : Nat}, j % 2 = 1 → cur ≤ ops.length → Runs n ((kinds ops).drop cur) →
      (cur :: blockBounds ops (2 * n) j cur).getLast (List.cons_ne_nil _ _) = ops.length := by
  induction n with
  | zero =>
      intro j cur _ hcur hruns
      have hle := List.drop_eq_nil_iff.1 hruns
      rw [length_kinds] at hle
      exact le_antisymm hcur hle
  | succ n ih =>
      intro j cur hj hcur hruns
      have hmid := (blockBound_range ops j hcur).2
      have hnext := (blockBound_range ops (j + 1) hmid).2
      rw [show 2 * (n + 1) = 2 * n + 1 + 1 from rfl, blockBounds, blockBounds,
        List.getLast_cons (List.cons_ne_nil _ _), List.getLast_cons (List.cons_ne_nil _ _)]
      refine ih (by omega) hnext ?_
      -- Two scans drop one run of inserts and one run of queries.
      have hfst : (fun k => k == decide (j % 2 = 1)) = id := by
        funext k
        cases k <;> simp [hj]
      have hsnd : (fun k => k == decide ((j + 1) % 2 = 1)) = not := by
        have heven : ¬ (j + 1) % 2 = 1 := by omega
        funext k
        cases k <;> simp [heven]
      rw [drop_blockBound ops (j + 1) hmid, drop_blockBound ops j hcur, hfst, hsnd]
      exact hruns

/-! ## The shares of `individual_ns` -/

/-- The workers' shares follow one another. -/
theorem fgParams_spec {b : Benchmark K} {i : Nat} {f : Nat → Nat × Nat} (left : Nat) :
    ∀ worker exeCnt,
      (∀ w, worker ≤ w → w < worker + left → b.window w i = some (f w)) →
      ∃ ps, b.fgParams i left worker exeCnt = some ps ∧
        Tiles exeCnt (ps.map FGParam.share)
          (exeCnt + ((List.range' worker left).map fun w => (f w).2 - (f w).1).sum) := by
  induction left with
  | zero =>
      intro worker exeCnt _
      exact ⟨[], rfl, Tiles.nil exeCnt⟩
  | succ left ih =>
      intro worker exeCnt hwindow
      obtain ⟨ps, hps, htiles⟩ := ih (worker + 1) (exeCnt + ((f worker).2 - (f worker).1))
        fun w hw hlt => hwindow w (by omega) (by omega)
      refine ⟨⟨exeCnt, (f worker).1, (f worker).2⟩ :: ps, ?_, ?_⟩
      · rw [Benchmark.fgParams, hwindow worker (le_refl _) (by omega)]
        simp [hps]
      · rw [List.range'_succ, List.map_cons, List.map_cons, List.sum_cons, ← Nat.add_assoc]
        exact Tiles.cons (Nat.le_add_right _ _) htiles

/-- Shares that follow one another up to the end of the buffer do not meet. -/
theorem separate_of_tiles {ps : List FGParam} {b : Nat} (h : Tiles 0 (ps.map FGParam.share) b)
    {size : Nat} (hsize : b ≤ size) :
    (ps.map FGParam.writes).Pairwise List.Disjoint ∧ ∀ p ∈ ps, ∀ place ∈ p.writes,
      place < size := by
  have hwrites : ps.map FGParam.writes = (ps.map FGParam.share).map positions := by
    rw [List.map_map]
    exact List.map_congr_left fun p _ => p.writes_eq
  refine ⟨hwrites ▸ h.pairwise_disjoint, fun p hp place hplace => ?_⟩
  rw [p.writes_eq, mem_positions] at hplace
  have hle := (h.bounds p.share (List.mem_map_of_mem hp)).2.2
  exact hplace.2.trans_le (hle.trans hsize)

/-! ## Block-wise loading -/

theorem le_foldr_max {xs : List Nat} {x : Nat} (h : x ∈ xs) : x ≤ xs.foldr max 0 := by
  induction xs with
  | nil => cases h
  | cons y xs ih =>
      rw [List.foldr_cons]
      rcases List.mem_cons.1 h with rfl | h
      · exact le_max_left _ _
      · exact (ih h).trans (le_max_right _ _)

/-- What the constructor leaves for block-wise loading. -/
theorem new_blocks {numThreads numBlocks : Nat} {flag : Bool} {ops : List (List (Operation K))}
    {b : Benchmark K} (hblocks : 1 < numBlocks)
    (hnew : Benchmark.new numThreads numBlocks flag ops = some b) :
    numThreads ≤ 1 ∧ ∃ totOps bounds, ops[0]? = some totOps ∧
      bounds = blockBounds totOps (2 * numBlocks) 1 0 ∧
      b = { numThreads, numBlocks, flag := false, ops, boundPoints := 0 :: bounds
            individualNs := (((0 :: bounds).zip bounds).map fun w => w.2 - w.1).foldr max 0 } := by
  unfold Benchmark.new at hnew
  split at hnew
  · cases hnew
  · rename_i hmode
    obtain ⟨totOps, hops, hnew⟩ := Option.bind_eq_some_iff.1 hnew
    have hflag : flag = false := by
      cases flag with
      | false => rfl
      | true => exact absurd ⟨hblocks, .inr rfl⟩ hmode
    subst hflag
    refine ⟨?_, totOps, _, hops, rfl, (Option.some.inj hnew).symm⟩
    by_contra hmore
    exact hmode ⟨hblocks, .inl (by omega)⟩

/-- The windows of block-wise loading are the intervals between neighbouring bound points. -/
theorem window_blocks {numThreads numBlocks : Nat} {flag : Bool}
    {ops : List (List (Operation K))} {b : Benchmark K} (hblocks : 1 < numBlocks)
    (hnew : Benchmark.new numThreads numBlocks flag ops = some b) :
    ∃ totOps ws, ops[0]? = some totOps ∧ ws.length = 2 * numBlocks ∧
      ws = (0 :: blockBounds totOps (2 * numBlocks) 1 0).zip
        (blockBounds totOps (2 * numBlocks) 1 0) ∧
      b.individualNs = (ws.map fun w => w.2 - w.1).foldr max 0 ∧
      ∀ worker i, i < 2 * numBlocks → b.window worker i = some (ws.getD i (0, 0)) := by
  obtain ⟨_, totOps, bounds, hops, hbounds, rfl⟩ := new_blocks hblocks hnew
  have hlen : bounds.length = 2 * numBlocks := by rw [hbounds, length_blockBounds]
  have hzip : ((0 :: bounds).zip bounds).length = 2 * numBlocks := by
    rw [List.length_zip, List.length_cons, hlen]
    omega
  refine ⟨totOps, (0 :: bounds).zip bounds, hops, hzip, by rw [hbounds], rfl, fun worker i hi => ?_⟩
  have hfst : i < (0 :: bounds).length := by
    rw [List.length_cons]
    omega
  have hsnd : i < bounds.length := by omega
  have hget : ((0 :: bounds).zip bounds).getD i (0, 0) = ((0 :: bounds)[i], bounds[i]) := by
    rw [List.getD_eq_getElem?_getD, List.getElem?_eq_getElem (hzip ▸ hi)]
    simp
  rw [Benchmark.window, if_pos hblocks, hget]
  simp only [List.getElem?_eq_getElem hfst, List.getElem?_cons_succ, List.getElem?_eq_getElem hsnd]
  rfl

/-- One worker runs the windows between neighbouring bound points. -/
theorem partitions_blocks {numThreads numBlocks : Nat} {flag : Bool}
    {ops : List (List (Operation K))} {b : Benchmark K} (hblocks : 1 < numBlocks)
    (hnew : Benchmark.new numThreads numBlocks flag ops = some b)
    (hruns : ∀ totOps ∈ ops, Runs numBlocks (kinds totOps)) : b.Partitions := by
  obtain ⟨totOps, ws, hops, hlen, hws, hns, hwindow⟩ := window_blocks hblocks hnew
  have htiles : Tiles 0 ws totOps.length := by
    have hlast := getLast_blockBounds totOps numBlocks (j := 1) rfl (Nat.zero_le _)
      (hruns totOps (List.mem_of_getElem? hops))
    have hchain := blockBounds_isChain totOps (2 * numBlocks) (j := 1) (Nat.zero_le _)
    rw [← hlast, hws]
    exact tiles_zip hchain
  obtain ⟨hthreads, _, _, _, _, rfl⟩ := new_blocks hblocks hnew
  refine ⟨fun worker hworker => ⟨totOps, ws, ?_, ?_, htiles, ?_⟩, fun i hi => ?_⟩
  · rw [show worker = 0 from Nat.lt_one_iff.1 (Nat.lt_of_lt_of_le hworker hthreads)]
    exact hops
  · rw [mapM_eq_some_map fun i hi => hwindow worker i (by simpa [Benchmark.phases] using hi)]
    have hphases : (2 - Bool.toNat false) * numBlocks = ws.length := by simp [hlen]
    rw [Benchmark.phases, hphases]
    exact congrArg some (List.ext_getElem (by simp) fun n hn hn' => by simp [hn'])
  · rw [htiles.flatMap_positions, List.range_eq_range', Nat.sub_zero]
  · have hi : i < 2 * numBlocks := hi
    obtain ⟨ps, hps, hshares⟩ := fgParams_spec (f := fun _ => ws.getD i (0, 0)) numThreads 0 0
      fun w _ _ => hwindow w i hi
    refine ⟨ps, hps, separate_of_tiles hshares ?_⟩
    have hmem : ws.getD i (0, 0) ∈ ws := by
      rw [List.getD_eq_getElem?_getD, List.getElem?_eq_getElem (hlen ▸ hi)]
      exact List.getElem_mem _
    have hle := le_foldr_max (List.mem_map_of_mem (f := fun w : Nat × Nat => w.2 - w.1) hmem)
    refine le_trans ?_ (hle.trans hns.ge)
    rw [List.map_const', List.sum_replicate_nat, List.length_range', Nat.zero_add]
    exact (Nat.mul_le_mul_right _ hthreads).trans (Nat.one_mul _).le

/-! ## Inserts and queries of every thread -/

theorem getElem?_flatten_triples {α : Type} {f : α → List Nat} (hf : ∀ x, (f x).length = 3)
    (xs : List α) (w k : Nat) (hk : k < 3) :
    ((xs.map f).flatten)[3 * w + k]? = xs[w]?.bind fun x => (f x)[k]? := by
  induction xs generalizing w with
  | nil => rfl
  | cons x xs ih =>
      rw [List.map_cons, List.flatten_cons, List.getElem?_append, hf]
      cases w with
      | zero => simp [hk]
      | succ w =>
          have hsub : 3 * (w + 1) + k - 3 = 3 * w + k := by omega
          rw [if_neg (by omega), hsub, ih]
          rfl

theorem insertEnd_le (flag : Bool) (ops : List (Operation K)) :
    insertEnd flag ops ≤ ops.length := by
  rw [insertEnd]
  split
  · exact Nat.zero_le _
  · have hrange := BranchingBinarySearch.halving_range (fun i => isInsertAt ops i.toNat) 0 ops.length
    omega

/-- The window of a thread's operations in a phase. -/
def threadWindow (flag : Bool) (ops : List (Operation K)) (i : Nat) : Nat × Nat :=
  if flag then (0, ops.length)
  else if i = 0 then (0, insertEnd flag ops) else (insertEnd flag ops, ops.length)

theorem window_of_bounds {b : Benchmark K} {worker i start limit : Nat} (hone : b.numBlocks = 1)
    (hstart : b.boundPoints[3 * worker + i]? = some start)
    (hlimit : b.boundPoints[3 * worker + i + 1 + b.flag.toNat]? = some limit) :
    b.window worker i = some (start, limit) := by
  rw [Benchmark.window, if_neg (by omega), hstart, hlimit]
  rfl

theorem tiles_threadWindow (flag : Bool) (ops : List (Operation K)) :
    Tiles 0 ((List.range (2 - flag.toNat)).map (threadWindow flag ops)) ops.length := by
  cases flag with
  | true => exact Tiles.cons (Nat.zero_le _) (Tiles.nil _)
  | false => exact Tiles.cons (Nat.zero_le _) (Tiles.cons (insertEnd_le false ops) (Tiles.nil _))

theorem sum_queries (ops : List (List (Operation K))) :
    (ops.map fun ops => ops.length - insertEnd false ops).sum +
      (ops.map (insertEnd false)).sum = (ops.map List.length).sum := by
  induction ops with
  | nil => rfl
  | cons o ops ih =>
      have hle := insertEnd_le false o
      simp only [List.map_cons, List.sum_cons]
      omega

/-- The lengths of the windows of one phase add up to at most the size of the buffer. -/
theorem sum_threadWindow_le (flag : Bool) (ops : List (List (Operation K))) (i : Nat) :
    (ops.map fun ops => (threadWindow flag ops i).2 - (threadWindow flag ops i).1).sum ≤
      max (ops.map (insertEnd flag)).sum
        ((ops.map List.length).sum - (ops.map (insertEnd flag)).sum) := by
  have hqueries := sum_queries ops
  have hinserts : (ops.map (insertEnd true)).sum = 0 := by
    have hnone : insertEnd (K := K) true = fun _ => 0 := rfl
    simp [hnone]
  cases flag with
  | true =>
      simp only [threadWindow, if_true, hinserts, Nat.sub_zero]
      exact le_max_right _ _
  | false =>
      by_cases hi : i = 0
      · simp only [threadWindow, Bool.false_eq_true, if_false, hi, if_true, Nat.sub_zero]
        exact le_max_left _ _
      · simp only [threadWindow, Bool.false_eq_true, if_false, hi]
        exact (Nat.le_sub_of_add_le hqueries.le).trans (le_max_right _ _)

/-- What the constructor leaves for a run without blocks. -/
theorem new_threads {numThreads : Nat} {flag : Bool} {ops : List (List (Operation K))}
    {b : Benchmark K} (hnew : Benchmark.new numThreads 1 flag ops = some b) :
    numThreads ≤ ops.length ∧
      b = { numThreads, numBlocks := 1, flag, ops
            boundPoints :=
              ((ops.take numThreads).map fun ops => [0, insertEnd flag ops, ops.length]).flatten
            individualNs := max ((ops.take numThreads).map (insertEnd flag)).sum
              (((ops.take numThreads).map List.length).sum -
                ((ops.take numThreads).map (insertEnd flag)).sum) } := by
  unfold Benchmark.new at hnew
  rw [if_neg (by simp), if_neg (by simp)] at hnew
  split at hnew
  · cases hnew
  · rename_i hlen
    exact ⟨not_lt.1 hlen, (Option.some.inj hnew).symm⟩

theorem window_threads {numThreads : Nat} {flag : Bool} {ops : List (List (Operation K))}
    {b : Benchmark K} (hnew : Benchmark.new numThreads 1 flag ops = some b) {w i : Nat}
    (hw : w < numThreads) (hi : i < 2 - flag.toNat) :
    b.window w i = some (threadWindow flag (ops.getD w []) i) := by
  obtain ⟨hlen, rfl⟩ := new_threads hnew
  have hops : (ops.take numThreads)[w]? = some ops[w] := by
    rw [List.getElem?_take_of_lt hw, List.getElem?_eq_getElem]
  have hgetD : ops.getD w [] = ops[w] := by
    rw [List.getD_eq_getElem?_getD, List.getElem?_eq_getElem (hw.trans_le hlen)]
    rfl
  have hbound : ∀ k, k < 3 → ((ops.take numThreads).map fun ops =>
        [0, insertEnd flag ops, ops.length]).flatten[3 * w + k]? =
      [0, insertEnd flag ops[w], ops[w].length][k]? := by
    intro k hk
    rw [getElem?_flatten_triples (fun _ => rfl) _ w k hk, hops]
    rfl
  rw [hgetD]
  cases flag with
  | true =>
      obtain rfl : i = 0 := by simpa using hi
      exact window_of_bounds rfl (hbound 0 (by decide)) (hbound 2 (by decide))
  | false =>
      have hi : i < 2 := hi
      rcases Nat.le_one_iff_eq_zero_or_eq_one.1 (Nat.lt_succ_iff.1 hi) with rfl | rfl
      · exact window_of_bounds rfl (hbound 0 (by decide)) (hbound 1 (by decide))
      · exact window_of_bounds rfl (hbound 1 (by decide)) (hbound 2 (by decide))

/-- The lengths of a phase's windows, thread by thread. -/
theorem map_threadWindow {numThreads : Nat} (flag : Bool) {ops : List (List (Operation K))}
    (hlen : numThreads ≤ ops.length) (i : Nat) :
    ((List.range' 0 numThreads).map fun w => (threadWindow flag (ops.getD w []) i).2 -
        (threadWindow flag (ops.getD w []) i).1) =
      (ops.take numThreads).map fun ops =>
        (threadWindow flag ops i).2 - (threadWindow flag ops i).1 := by
  refine List.ext_getElem (by simp [hlen]) fun n hn hn' => ?_
  have hlt : n < ops.length := by
    rw [List.length_map, List.length_range'] at hn
    omega
  simp [hlt]

/-- Every thread runs its inserts and then its queries, or all at once. -/
theorem partitions_threads {numThreads : Nat} {flag : Bool}
    {ops : List (List (Operation K))} {b : Benchmark K}
    (hnew : Benchmark.new numThreads 1 flag ops = some b) : b.Partitions := by
  have hwindow := fun w i hw hi => window_threads hnew (w := w) (i := i) hw hi
  obtain ⟨hlen, rfl⟩ := new_threads hnew
  refine ⟨fun worker hworker => ?_, fun i hi => ?_⟩
  · have htiles := tiles_threadWindow flag (ops.getD worker [])
    refine ⟨ops.getD worker [], _, ?_, ?_, htiles, ?_⟩
    · have hlt : worker < ops.length := lt_of_lt_of_le hworker hlen
      rw [List.getD_eq_getElem?_getD, List.getElem?_eq_getElem hlt]
      rfl
    · rw [Benchmark.phases, Nat.mul_one]
      exact mapM_eq_some_map fun i hi => hwindow worker i hworker (List.mem_range.1 hi)
    · rw [htiles.flatMap_positions, List.range_eq_range', Nat.sub_zero]
  · rw [Benchmark.phases, Nat.mul_one] at hi
    obtain ⟨ps, hps, hshares⟩ := fgParams_spec
      (f := fun w => threadWindow flag (ops.getD w []) i) numThreads 0 0
      fun w _ hw => hwindow w i (by omega) hi
    refine ⟨ps, hps, separate_of_tiles hshares ?_⟩
    rw [map_threadWindow flag hlen, Nat.zero_add]
    exact sum_threadWindow_le flag _ i

/-! ## The generated workload -/

/-- The number of blocks that the name of the workload's file tells the driver. -/
def numBlocks (P : Params) : Nat :=
  if 1 < P.blockNum then P.blockNum else 1

/-- Whenever the name can be read, it tells that number. -/
theorem numBlocks_of_parse {name : String} (hname : FileName.PlainName name.toList) {P : Params}
    {r : FileName.Parsed}
    (h : FileName.parse (FileName.opFilename ("data/" ++ name) P) = some r) :
    r.numBlocks = numBlocks P := by
  rw [FileName.parse_opFilename hname] at h
  split at h
  · cases h
  · rw [← Option.some.inj h]
    rfl

variable [LinearOrder K] [Inhabited K]

/-- Whatever phases the file name asks for, they partition a generated workload. -/
theorem phases_partition {A : Arith} {O : StdOutcomes K} {R : DrawRules K} {P : Params}
    {keys : List K} {tape tape' : List UInt32} {W : Output K} {flag : Bool} {b : Benchmark K}
    (hA : A.Proportional P.opCnt) (hP : P.Checked)
    (hgenerate : generate A O R P keys tape = some (W, tape'))
    (hnew : Benchmark.new P.threadNum (numBlocks P) flag W.ops = some b) : b.Partitions := by
  by_cases hblock : 1 < P.blockNum
  · rw [numBlocks, if_pos hblock] at hnew
    refine partitions_blocks hblock hnew fun totOps hops => ?_
    have hruns := runs_kindsOf (P.blocks A) (min (opCounts A P).1 (insertRoom A P keys.length))
    rw [Params.blocks, blocks, List.length_map, List.length_range'] at hruns
    rw [generate_kinds hA hP hblock hgenerate totOps hops]
    exact hruns
  · rw [numBlocks, if_neg hblock] at hnew
    exact partitions_threads hnew

theorem phases_partition_oneThread :
    ∃ b, Benchmark.new 1 1 false SmallRun.oneThread.ops = some b ∧ b.Partitions := by
  have hP : (SmallRun.params 1).Checked :=
    { block := fun _ => ⟨le_refl 1, rfl⟩
      rangeQueryRatio := by norm_num [SmallRun.params]
      negativeLookupRatio := by norm_num [SmallRun.params]
      insertRatio := by norm_num [SmallRun.params]
      hotspotRatio := by norm_num [SmallRun.params]
      pat := fun hnot => absurd (by norm_num [SmallRun.params]) hnot }
  exact ⟨_, rfl, phases_partition (SmallRun.arith_proportional 10) hP SmallRun.run_oneThread rfl⟩

end Driver
end TLI
