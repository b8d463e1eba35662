import Mathlib.Algebra.BigOperators.Group.Finset.Piecewise
import TLI.Workload.Blocks

/-!
# Dealt — the inserts of a workload that is not block-wise

Without blocks and without mixing, the inserts come first, and dealing the operations to the threads
keeps their order.  So every thread has its inserts in front (`generate_dealt`), and altogether there
are as many as were placed.
-/

namespace TLI
namespace Workload

open List

variable {K : Type}

/-! ## Dealing -/

/-- A number that is drawn from `0` on is not above the upper bound. -/
theorem randRange_zero_lt {n : Nat} (hn : 0 < n) {i : UInt32} {tape tape' : List UInt32}
    (h : randRange 0 (UInt32.ofNat (n - 1)) tape = some (i, tape')) : i.toNat < n := by
  unfold randRange at h
  obtain ⟨r, tape₁, -, h⟩ := Gen.bind_eq_some.1 h
  split at h
  · obtain ⟨_, _, hfail, -⟩ := Gen.bind_eq_some.1 h
    exact absurd hfail Gen.failure_eq_some
  · rename_i hwrap
    simp only [Gen.pure_eq_some, Prod.mk.injEq, UInt32.sub_zero, UInt32.zero_add] at h hwrap
    rw [← h.1, UInt32.toNat_mod]
    have hpos : 0 < (UInt32.ofNat (n - 1) + 1).toNat := by
      rw [Nat.pos_iff_ne_zero]
      exact fun hzero => hwrap (UInt32.toNat_inj.1 hzero)
    refine (Nat.mod_lt _ hpos).trans_le ?_
    rw [UInt32.toNat_add, UInt32.toNat_ofNat']
    have hle := Nat.mod_le (n - 1) (2 ^ 32)
    have hle' := Nat.mod_le ((n - 1) % 2 ^ 32 + UInt32.toNat 1) (2 ^ 32)
    have hone : UInt32.toNat 1 = 1 := rfl
    omega

/-- Every operation goes to one thread, behind the ones that the thread has. -/
theorem splitThreads_dealt {threadNum : Nat} (hthread : 0 < threadNum) (p : Operation K → Bool)
    {es : List (Operation K)} :
    ∀ {ops ops' : Nat → List (Operation K)} {tape tape' : List UInt32},
      splitThreads threadNum es ops tape = some (ops', tape') →
        (∑ i ∈ Finset.range threadNum, (ops' i).countP p) =
            (∑ i ∈ Finset.range threadNum, (ops i).countP p) + es.countP p ∧
          ∀ i, ∃ dealt, ops' i = ops i ++ dealt ∧ dealt <+ es := by
  induction es with
  | nil =>
      intro ops ops' tape tape' h
      simp only [splitThreads, Gen.pure_eq_some, Prod.mk.injEq] at h
      rw [← h.1]
      exact ⟨rfl, fun i => ⟨[], (append_nil _).symm, Sublist.refl _⟩⟩
  | cons e es ih =>
      intro ops ops' tape tape' h
      obtain ⟨i, tape₁, hi, h⟩ := Gen.bind_eq_some.1 h
      have hlt := randRange_zero_lt hthread hi
      obtain ⟨hsum, hdealt⟩ := ih h
      refine ⟨?_, fun j => ?_⟩
      · have hcount : ∀ j, (Function.update ops i.toNat (ops i.toNat ++ [e]) j).countP p =
            (ops j).countP p + if j = i.toNat then [e].countP p else 0 := by
          intro j
          by_cases hj : j = i.toNat
          · rw [hj, Function.update_self, countP_append, if_pos rfl]
          · rw [Function.update_of_ne hj, if_neg hj, Nat.add_zero]
        rw [Finset.sum_congr rfl fun j _ => hcount j, Finset.sum_add_distrib, Finset.sum_ite_eq',
          if_pos (Finset.mem_range.2 hlt)] at hsum
        have hcons : (e :: es).countP p = [e].countP p + es.countP p := by
          simp [countP_cons, Nat.add_comm]
        rw [hsum, hcons, Nat.add_assoc]
      · obtain ⟨dealt, heq, hsub⟩ := hdealt j
        by_cases hj : j = i.toNat
        · rw [hj, Function.update_self, append_assoc] at heq
          exact ⟨_, hj ▸ heq, hsub.cons_cons e⟩
        · rw [Function.update_of_ne hj] at heq
          exact ⟨dealt, heq, hsub.cons e⟩

/-- The threads have all operations, in their order. -/
theorem dealOps_dealt {threadNum : Nat} (hthread : 0 < threadNum) {totOps : List (Operation K)}
    {ops : Nat → List (Operation K)} {tape tape' : List UInt32}
    (h : dealOps threadNum totOps tape = some (ops, tape')) :
    (∀ p : Operation K → Bool,
      (∑ i ∈ Finset.range threadNum, (ops i).countP p) = totOps.countP p) ∧
      ∀ i, ops i <+ totOps := by
  unfold dealOps at h
  split at h
  · refine ⟨fun p => ?_, fun i => ?_⟩
    · have hsum := (splitThreads_dealt hthread p h).1
      rw [hsum]
      simp
    · obtain ⟨dealt, heq, hsub⟩ := (splitThreads_dealt hthread (fun _ => true) h).2 i
      rw [heq, nil_append]
      exact hsub
  · simp only [Gen.pure_eq_some, Prod.mk.injEq] at h
    rw [← h.1]
    have hone : threadNum = 1 := by omega
    refine ⟨fun p => ?_, fun i => ?_⟩
    · rw [hone, Finset.sum_range_one]
      rfl
    · dsimp only
      split
      · exact Sublist.refl _
      · exact nil_sublist _

/-! ## The inserts in front -/

/-- `n` operations, the first `inserts` of which are inserts. -/
def prefixKinds (inserts n : Nat) : List Bool :=
  replicate inserts true ++ replicate (n - inserts) false

theorem getElem?_prefixKinds {inserts n : Nat} (hle : inserts ≤ n) (p : Nat) :
    (prefixKinds inserts n)[p]? = if p < n then some (decide (p < inserts)) else none := by
  rw [prefixKinds, getElem?_append, length_replicate, getElem?_replicate, getElem?_replicate]
  by_cases hp : p < inserts
  · rw [if_pos hp, if_pos hp, if_pos (by omega), decide_eq_true hp]
  · rw [if_neg hp, decide_eq_false hp]
    by_cases hn : p < n
    · rw [if_pos (by omega), if_pos hn]
    · rw [if_neg (by omega), if_neg hn]

/-- The number of inserts in a workload without blocks; with the block number `0` every operation
goes to the first place. -/
def insertsPlaced (A : Arith) (P : Params) (n : Nat) : Nat :=
  let placed := min (opCounts A P).1 (insertRoom A P n)
  if P.blockNum = 0 then
    if (opCounts A P).1 = P.opCnt then min 1 placed else 0
  else placed

theorem countP_eq_count_kinds (ops : List (Operation K)) :
    ops.countP (fun op => decide (op.op = .insert)) = (kinds ops).count true := by
  rw [kinds, count, countP_map]
  exact countP_congr fun op _ => by simp

theorem count_prefixKinds (inserts n : Nat) : (prefixKinds inserts n).count true = inserts := by
  simp [prefixKinds, count_replicate]

/-- What is left of operations with the inserts in front still has them in front. -/
theorem exists_prefixKinds_of_sublist {ks : List Bool} {inserts n : Nat}
    (h : ks <+ prefixKinds inserts n) : ∃ inserts' ≤ ks.length, ks = prefixKinds inserts' ks.length := by
  obtain ⟨xs, ys, rfl, hxs, hys⟩ := sublist_append_iff.1 h
  obtain ⟨a, -, rfl⟩ := sublist_replicate_iff.1 hxs
  obtain ⟨b, -, rfl⟩ := sublist_replicate_iff.1 hys
  exact ⟨a, by simp, by simp [prefixKinds]⟩

/-- Filling in operations leaves their number as it is. -/
theorem length_foldl_modify {α β : Type} (at_ : β → Nat) (f : β → α → α) (xs : List β) :
    ∀ ops : List α, (xs.foldl (fun ops x => ops.modify (at_ x) (f x)) ops).length = ops.length := by
  induction xs with
  | nil => exact fun _ => rfl
  | cons x xs ih => exact fun ops => (ih _).trans (length_modify _ _ _)

section

variable [LinearOrder K] [Inhabited K]

theorem insertsPlaced_le {A : Arith} {P : Params} (hA : A.Proportional P.opCnt) (hP : P.Checked)
    (n : Nat) : insertsPlaced A P n ≤ P.opCnt := by
  have hsum := opCounts_sum hA hP
  unfold insertsPlaced
  dsimp only
  split
  · split <;> omega
  · omega

/-- Without blocks and without mixing, the inserts are placed in front. -/
theorem placeOps_prefixKinds {A : Arith} {O : StdOutcomes K} {P : Params} {keys : List K}
    {totOps : List (Operation K)} {bulkLoads : List (KeyValue K)}
    (hA : A.Proportional P.opCnt) (hP : P.Checked) (hblock : P.blockNum ≤ 1) (hmix : P.mix = false)
    (h : placeOps A O P keys = some (totOps, bulkLoads)) :
    kinds totOps = prefixKinds (insertsPlaced A P keys.length) P.opCnt := by
  have hsum := opCounts_sum hA hP
  obtain ⟨kvs, hlen, rfl⟩ := placeOps_placed hA hP h
  refine ext_getElem? fun p => ?_
  rw [getElem?_kinds_placed, getElem?_prefixKinds (insertsPlaced_le hA hP _)]
  by_cases hp : p < P.opCnt
  · rw [if_pos hp, if_pos hp]
    refine congrArg some (decide_eq_decide.2 ?_)
    rcases Nat.le_one_iff_eq_zero_or_eq_one.1 hblock with hzero | hone
    · have hid : opIds A O P = replicate P.opCnt 0 := by
        simp [opIds, hzero, hmix, generatePermuteBlockwise, placeBlocks]
      rw [hid, take_replicate, drop_replicate, mem_replicate, mem_replicate, insertsPlaced,
        if_pos hzero, hlen]
      split <;> omega
    · have hid : opIds A O P = range' 0 P.opCnt := by
        simp [opIds, hone, hmix, generatePermute]
      rw [hid, mem_take_range', drop_range', mem_range'_1, insertsPlaced, if_neg (by omega), hlen]
      omega
  · rw [if_neg hp, if_neg hp]

theorem length_generate {A : Arith} {O : StdOutcomes K} {R : DrawRules K} {P : Params}
    {keys : List K} {tape tape' : List UInt32} {W : Output K}
    (h : generate A O R P keys tape = some (W, tape')) : W.ops.length = P.threadNum := by
  obtain ⟨_, _, _, -, -, hmap⟩ := generate_map_kinds h
  simpa using congrArg length hmap

/-- The threads have all operations, and without blocks and without mixing each of them has its
inserts in front. -/
theorem generate_dealt {A : Arith} {O : StdOutcomes K} {R : DrawRules K} {P : Params}
    {keys : List K} {tape tape' : List UInt32} {W : Output K} (hA : A.Proportional P.opCnt)
    (hP : P.Checked) (hthread : 0 < P.threadNum)
    (h : generate A O R P keys tape = some (W, tape')) :
    (W.ops.map length).sum = P.opCnt ∧
      (P.blockNum ≤ 1 → P.mix = false →
        (W.ops.map fun ops => (kinds ops).count true).sum = insertsPlaced A P keys.length ∧
          ∀ ops ∈ W.ops, ∃ inserts ≤ ops.length, kinds ops = prefixKinds inserts ops.length) := by
  obtain ⟨totOps, ops, _, hplace, hdeal, hmap⟩ := generate_map_kinds h
  obtain ⟨hcount, hsub⟩ := dealOps_dealt hthread hdeal
  -- A sum over the written files is one over the operations that were dealt.
  have hsum : ∀ f : List Bool → Nat, (W.ops.map fun ops => f (kinds ops)).sum =
      ∑ i ∈ Finset.range P.threadNum, f (kinds (ops i)) := by
    intro f
    have hfs := congrArg (map f) hmap
    rw [map_map, map_map] at hfs
    exact congrArg List.sum hfs
  obtain ⟨kvs, -, htot⟩ := placeOps_placed hA hP hplace
  have hlen : totOps.length = P.opCnt := by
    rw [htot, placeKind, length_foldl_modify, placeKind, length_foldl_modify, placeInserts,
      length_foldl_modify, freshOps, length_replicate]
  refine ⟨?_, fun hblock hmix => ⟨?_, fun ops' hops' => ?_⟩⟩
  · calc (W.ops.map length).sum = (W.ops.map fun ops => (kinds ops).length).sum := by
          simp only [length_kinds]
      _ = ∑ i ∈ Finset.range P.threadNum, (kinds (ops i)).length := hsum length
      _ = totOps.length := by simpa [length_kinds] using hcount fun _ => true
      _ = P.opCnt := hlen
  · calc (W.ops.map fun ops => (kinds ops).count true).sum
        = ∑ i ∈ Finset.range P.threadNum, (kinds (ops i)).count true := hsum _
      _ = (kinds totOps).count true := by
          simpa only [countP_eq_count_kinds] using hcount fun op => decide (op.op = .insert)
      _ = insertsPlaced A P keys.length := by
          rw [placeOps_prefixKinds hA hP hblock hmix hplace, count_prefixKinds]
  · have hmem : kinds ops' ∈ (range P.threadNum).map fun i => kinds (ops i) :=
      hmap ▸ mem_map_of_mem hops'
    obtain ⟨i, -, hi⟩ := mem_map.1 hmem
    have hkinds : kinds (ops i) <+ prefixKinds (insertsPlaced A P keys.length) P.opCnt := by
      rw [← placeOps_prefixKinds hA hP hblock hmix hplace]
      exact (hsub i).map _
    rw [hi] at hkinds
    rw [← length_kinds ops']
    exact exists_prefixKinds_of_sublist hkinds

end

end Workload
end TLI
