import Mathlib.Algebra.Order.BigOperators.Group.Finset
import TLI.Workload.Sound

/-!
# Split — from the per-thread walks to the workload as a whole

Thread `i` starts its walk with `data_vec = bulk_loads` and, when there are inserts, with a
`data_map` that already holds every insert of every other thread.  Without inserts `bulk_loads` is
itself sorted and `data_vec` is searched.  Either way the walk is `Ready`, and the searched pairs
are `bulk_loads` plus the inserts of the other threads (`coe_searched_threadModel`).

`allSound_generate` states what this gives for the workload that `generate` writes.
-/

namespace TLI
namespace Workload

open Multimap

variable {K : Type} [LinearOrder K]

/-! ## Where the kinds of operations come from -/

/-- No operation of the list is an `INSERT`. -/
def NoInsert (ops : List (Operation K)) : Prop :=
  ∀ op ∈ ops, op.op ≠ .insert

omit [LinearOrder K] in
theorem NoInsert.insertedAll {ops : List (Operation K)} (h : NoInsert ops) :
    insertedAll ops = 0 := by
  induction ops with
  | nil => rfl
  | cons op ops ih =>
      have hop : op.op ≠ .insert := h op List.mem_cons_self
      have htail : NoInsert ops := fun o ho => h o (List.mem_cons_of_mem _ ho)
      simp [inserted, hop, ih htail]

omit [LinearOrder K] in
theorem NoInsert.modify {ops : List (Operation K)} (h : NoInsert ops) (id : Nat) {code : OpCode}
    (hcode : code ≠ .insert) :
    NoInsert (ops.modify id fun op => { op with op := code }) := by
  intro op hop
  rcases List.mem_iff_getElem.1 hop with ⟨k, hk, rfl⟩
  have hk' : k < ops.length := by simpa using hk
  rw [List.getElem_modify]
  split
  · exact hcode
  · exact h _ (List.getElem_mem hk')

omit [LinearOrder K] in
theorem NoInsert.placeKind (ids : List Nat) {code : OpCode} (hcode : code ≠ .insert) :
    ∀ {ops : List (Operation K)}, NoInsert ops → NoInsert (placeKind ops ids code) := by
  induction ids with
  | nil => exact fun h => h
  | cons id ids ih => exact fun h => ih (h.modify id hcode)

/-- The generated values do not disturb the order of the keys. -/
theorem sorted_toPair_addValues {keys : List K} (h : keys.Pairwise (· ≤ ·)) :
    Sorted ((addValues keys).map KeyValue.toPair) := by
  have hkeys : ((addValues keys).map KeyValue.key).Pairwise (· ≤ ·) := by
    rwa [map_key_addValues]
  rw [List.pairwise_map] at hkeys
  exact List.pairwise_map.2 hkeys

omit [LinearOrder K] in
theorem noInsert_freshOps [Inhabited K] (opCnt : Nat) :
    NoInsert (freshOps opCnt : List (Operation K)) := by
  intro op hop
  rw [List.eq_of_mem_replicate hop]
  exact OpCode.noConfusion

theorem sampleBulkLoads_sublist (O : StdOutcomes K) (P : Params) (kvs : List (KeyValue K)) :
    (sampleBulkLoads O P kvs).Sublist kvs := by
  unfold sampleBulkLoads
  cases P.bulkloadCnt with
  | none => exact List.Sublist.refl kvs
  | some bulkloadCnt => exact O.sample_sublist kvs bulkloadCnt

/-- Without an insert ratio no operation inserts, and `bulk_loads` is in key order. -/
theorem placeOps_noInsert [Inhabited K] {A : Arith} {O : StdOutcomes K} {P : Params}
    {keys : List K} {totOps : List (Operation K)} {bulkLoads : List (KeyValue K)}
    (hratio : ¬ 0 < P.insertRatio) (hkeys : keys.Pairwise (· ≤ ·))
    (h : placeOps A O P keys = some (totOps, bulkLoads)) :
    NoInsert totOps ∧ Sorted (bulkLoads.map KeyValue.toPair) := by
  unfold placeOps at h
  split at h
  · simp at h
  · simp only [loadAndInsert, if_neg hratio, Option.bind_eq_bind, Option.bind_some,
      Option.pure_def, Option.some.injEq, Prod.mk.injEq] at h
    obtain ⟨hops, hbulk⟩ := h
    rw [← hops, ← hbulk]
    refine ⟨?_, ?_⟩
    · have hlookup : OpCode.lookup ≠ .insert := OpCode.noConfusion
      exact ((noInsert_freshOps _).placeKind _ hlookup).placeKind _ OpCode.noConfusion
    · exact (sorted_toPair_addValues hkeys).sublist ((sampleBulkLoads_sublist O P _).map _)

omit [LinearOrder K] in
theorem splitThreads_noInsert {threadNum : Nat} {es : List (Operation K)} :
    ∀ {ops ops' : Nat → List (Operation K)} {tape tape' : List UInt32},
      NoInsert es → (∀ i, NoInsert (ops i)) →
      splitThreads threadNum es ops tape = some (ops', tape') → ∀ i, NoInsert (ops' i) := by
  induction es with
  | nil =>
      intro ops ops' tape tape' _ hops h
      simp only [splitThreads, Gen.pure_eq_some, Prod.mk.injEq] at h
      rw [← h.1]
      exact hops
  | cons e es ih =>
      intro ops ops' tape tape' hes hops h
      simp only [splitThreads, Gen.bind_eq_some] at h
      obtain ⟨i, _, _, h⟩ := h
      refine ih (fun o ho => hes o (List.mem_cons_of_mem _ ho)) (fun j => ?_) h
      by_cases hj : j = i.toNat
      · subst hj
        intro o ho
        rw [Function.update_self] at ho
        rcases List.mem_append.1 ho with ho | ho
        · exact hops _ o ho
        · rw [List.mem_singleton.1 ho]
          exact hes e List.mem_cons_self
      · rw [Function.update_of_ne hj]
        exact hops j

omit [LinearOrder K] in
theorem dealOps_noInsert {threadNum : Nat} {totOps : List (Operation K)}
    {ops : Nat → List (Operation K)} {tape tape' : List UInt32} (hops : NoInsert totOps)
    (h : dealOps threadNum totOps tape = some (ops, tape')) (i : Nat) : NoInsert (ops i) := by
  have hnil : NoInsert ([] : List (Operation K)) := by
    intro op hop
    simp at hop
  unfold dealOps at h
  split at h
  · exact splitThreads_noInsert hops (fun _ => hnil) h i
  · simp only [Gen.pure_eq_some, Prod.mk.injEq] at h
    rw [← h.1]
    by_cases hi : i = 0
    · simpa [hi] using hops
    · simpa [hi] using hnil

/-! ## The model a thread starts from -/

omit [LinearOrder K] in
theorem coe_flatMap_insertVec (threadNum i : Nat) (ops : Nat → List (Operation K)) :
    ((((List.range threadNum).filter fun j => j ≠ i).flatMap fun j => insertVec (ops j) :
        List (K × UInt64)) : Multimap K UInt64) =
      ∑ j ∈ (Finset.range threadNum).erase i, insertedAll (ops j) := by
  rw [← Finset.filter_ne', ← Multiset.coe_bind]
  have hcoe : (fun j => ((insertVec (ops j) : List (K × UInt64)) : Multimap K UInt64)) =
      fun j => insertedAll (ops j) :=
    funext fun j => coe_insertVec (ops j)
  rw [hcoe]
  rfl

/-- The pairs thread `i` searches: `bulk_loads` and the inserts of all other threads. -/
theorem coe_searched_threadModel {isInsert : Bool} {threadNum : Nat}
    {bulkLoads : List (KeyValue K)} {ops : Nat → List (Operation K)}
    (hnone : isInsert = false → ∀ j, NoInsert (ops j)) (i : Nat) :
    ((threadModel isInsert threadNum bulkLoads ops i).searched isInsert : Multimap K UInt64) =
      pairs bulkLoads + ∑ j ∈ (Finset.range threadNum).erase i, insertedAll (ops j) := by
  cases isInsert with
  | false =>
      have hzero : ∑ j ∈ (Finset.range threadNum).erase i, insertedAll (ops j) = 0 :=
        Finset.sum_eq_zero fun j _ => (hnone rfl j).insertedAll
      rw [hzero, add_zero]
      rfl
  | true =>
      -- Whether or not the pairs are sorted first, the same pairs are inserted.
      have hother : ∀ xs : List (K × UInt64),
          ((if threadNum > 1 then xs.insertionSort fun a b => pairLe a b else xs :
            List (K × UInt64)) : Multimap K UInt64) = (xs : Multimap K UInt64) := by
        intro xs
        split
        · exact Multiset.coe_eq_coe.2 (List.perm_insertionSort _ xs)
        · rfl
      have hmap := coe_foldl_emplace (if threadNum > 1 then
        (bulkLoads.map KeyValue.toPair ++ ((List.range threadNum).filter fun j => j ≠ i).flatMap
          fun j => insertVec (ops j)).insertionSort fun a b => pairLe a b
        else bulkLoads.map KeyValue.toPair ++ ((List.range threadNum).filter fun j => j ≠ i).flatMap
          fun j => insertVec (ops j)) []
      rw [hother, ← Multiset.coe_add, coe_flatMap_insertVec, Multiset.coe_nil, zero_add] at hmap
      exact hmap

theorem threadModel_ready {isInsert : Bool} {threadNum : Nat}
    {bulkLoads : List (KeyValue K)} {ops : Nat → List (Operation K)}
    (hnone : isInsert = false → ∀ j, NoInsert (ops j))
    (hsorted : isInsert = false → Sorted (bulkLoads.map KeyValue.toPair)) (i : Nat) :
    (threadModel isInsert threadNum bulkLoads ops i).Ready isInsert (ops i) := by
  cases isInsert with
  | false => exact ⟨hsorted rfl, fun _ => hnone rfl i⟩
  | true => exact ⟨sorted_foldl_emplace _ List.Pairwise.nil, by simp⟩

/-! ## Soundness of the whole workload -/

/-- The walks of the threads, one by one. -/
theorem generateThreads_spec {R : DrawRules K} {neg : ℚ} {isInsert : Bool} {threadNum : Nat}
    {bulkLoads : List (KeyValue K)} {ops : Nat → List (Operation K)} {is : List Nat} :
    ∀ {opss : List (List (Operation K))} {tape tape' : List UInt32},
      generateThreads R neg isInsert threadNum bulkLoads ops is tape = some (opss, tape') →
        List.Forall₂ (fun i ops' => ∃ tape tape',
          generateEqualityLookups R neg isInsert
            (threadModel isInsert threadNum bulkLoads ops i) (ops i) tape = some (ops', tape'))
          is opss := by
  induction is with
  | nil =>
      intro opss tape tape' h
      simp only [generateThreads, Gen.pure_eq_some, Prod.mk.injEq] at h
      rw [← h.1]
      exact List.Forall₂.nil
  | cons i is ih =>
      intro opss tape tape' h
      simp only [generateThreads, Gen.bind_eq_some, Gen.pure_eq_some, Prod.mk.injEq] at h
      obtain ⟨ops', tape₁, hops', rest, _, hrest, heq, _⟩ := h
      rw [← heq]
      exact List.Forall₂.cons ⟨_, _, hops'⟩ (ih hrest)

/-- The steps of a run of `generate`. -/
theorem generate_steps [Inhabited K] {A : Arith} {O : StdOutcomes K} {R : DrawRules K}
    {P : Params} {keys : List K} {tape tape' : List UInt32} {W : Output K}
    (h : generate A O R P keys tape = some (W, tape')) :
    keys.Pairwise (· ≤ ·) ∧
      ∃ (totOps : List (Operation K)) (ops : Nat → List (Operation K)) (tape₁ tape₂ : List UInt32),
        placeOps A O P keys = some (totOps, W.bulkLoads) ∧
        dealOps P.threadNum totOps tape = some (ops, tape₁) ∧
        generateThreads R P.negativeLookupRatio (decide (0 < P.insertRatio)) P.threadNum
          W.bulkLoads ops (List.range P.threadNum) tape₁ = some (W.ops, tape₂) := by
  unfold generate at h
  split at h
  · simp only [Gen.bind_eq_some] at h
    obtain ⟨_, _, hfail, _⟩ := h
    exact absurd hfail Gen.failure_eq_some
  · rename_i hkeys
    rw [not_not] at hkeys
    simp only [Gen.bind_eq_some, Gen.lift_eq_some, Gen.pure_eq_some, Prod.mk.injEq] at h
    obtain ⟨⟨totOps, bulkLoads⟩, _, ⟨hplace, rfl⟩, ops, tape₂, hdeal, opss, tape₃, hwalk, hW, _⟩ :=
      h
    subst hW
    exact ⟨hkeys, totOps, ops, tape₂, tape₃, hplace, hdeal, hwalk⟩

/-- What `generate` has done by the time it walks through the threads. -/
theorem generate_eq_some [Inhabited K] {A : Arith} {O : StdOutcomes K} {R : DrawRules K}
    {P : Params} {keys : List K} {tape tape' : List UInt32} {W : Output K}
    (h : generate A O R P keys tape = some (W, tape')) :
    ∃ ops : Nat → List (Operation K),
      (¬ 0 < P.insertRatio →
        (∀ j, NoInsert (ops j)) ∧ Sorted (W.bulkLoads.map KeyValue.toPair)) ∧
      ∃ tape₁ tape₂,
        generateThreads R P.negativeLookupRatio (decide (0 < P.insertRatio)) P.threadNum
          W.bulkLoads ops (List.range P.threadNum) tape₁ = some (W.ops, tape₂) := by
  obtain ⟨hkeys, totOps, ops, tape₁, tape₂, hplace, hdeal, hwalk⟩ := generate_steps h
  refine ⟨ops, fun hratio => ?_, tape₁, tape₂, hwalk⟩
  obtain ⟨hnone, hsorted⟩ := placeOps_noInsert hratio hkeys hplace
  exact ⟨dealOps_noInsert hnone hdeal, hsorted⟩

/-- Every walk is sound between the models of its thread and passes the thread's inserts on. -/
theorem generateThreads_sound {R : DrawRules K} {neg : ℚ} {isInsert : Bool} {threadNum : Nat}
    {bulkLoads : List (KeyValue K)} {ops : Nat → List (Operation K)}
    {opss : List (List (Operation K))} {tape tape' : List UInt32}
    (hnone : isInsert = false → ∀ j, NoInsert (ops j))
    (hsorted : isInsert = false → Sorted (bulkLoads.map KeyValue.toPair))
    (h : generateThreads R neg isInsert threadNum bulkLoads ops (List.range threadNum) tape =
      some (opss, tape')) :
    opss.length = threadNum ∧
      ∀ i : Fin opss.length,
        AllSound (pairs bulkLoads)
          (pairs bulkLoads + ∑ j ∈ (Finset.range threadNum).erase i, insertedAll (ops j)) opss[i] ∧
          opss[i].map inserted = (ops i).map inserted := by
  have hwalks := List.forall₂_iff_get.1 (generateThreads_spec h)
  have hlen : opss.length = threadNum := by simpa using hwalks.1.symm
  refine ⟨hlen, fun i => ?_⟩
  obtain ⟨tape₃, tape₄, hi⟩ := hwalks.2 i (by simp [← hlen]) i.2
  have hget : (List.range threadNum).get ⟨i, by simp [← hlen]⟩ = i := by simp
  rw [hget] at hi
  have hsound := allSound_of_generate (threadModel_ready hnone hsorted i) hi
  rw [coe_searched_threadModel hnone i] at hsound
  exact hsound

omit [LinearOrder K] in
theorem insertedAll_eq_of_map {ops ops' : List (Operation K)}
    (h : ops.map inserted = ops'.map inserted) : insertedAll ops = insertedAll ops' := by
  rw [insertedAll, insertedAll, h]

/-- Every thread's operations are sound between `bulk_loads` with the thread's own earlier inserts
and the same with all inserts of all other threads. -/
theorem allSound_generate [Inhabited K] {A : Arith} {O : StdOutcomes K} {R : DrawRules K}
    {P : Params} {keys : List K} {tape tape' : List UInt32} {W : Output K}
    (h : generate A O R P keys tape = some (W, tape')) :
    W.ops.length = P.threadNum ∧
      ∀ i : Fin W.ops.length,
        AllSound (pairs W.bulkLoads)
          (pairs W.bulkLoads + ∑ j ∈ Finset.univ.erase i, insertedAll (W.ops.get j))
          (W.ops.get i) := by
  obtain ⟨ops, hnone, tape₁, tape₂, hwalk⟩ := generate_eq_some h
  obtain ⟨hlen, hthread⟩ := generateThreads_sound
    (fun hfalse => (hnone (of_decide_eq_false hfalse)).1)
    (fun hfalse => (hnone (of_decide_eq_false hfalse)).2) hwalk
  refine ⟨hlen, fun i => ?_⟩
  have hsum : ∑ j ∈ (Finset.range P.threadNum).erase i, insertedAll (ops j) =
      ∑ j ∈ Finset.univ.erase i, insertedAll (W.ops.get j) := by
    have hrange : (Finset.range P.threadNum).erase i =
        (Finset.univ.erase i).map Fin.valEmbedding := by
      ext j
      simp only [Finset.mem_erase, Finset.mem_range, Finset.mem_map, Finset.mem_univ, and_true,
        Fin.valEmbedding_apply, ← hlen]
      constructor
      · rintro ⟨hne, hj⟩
        exact ⟨⟨j, hj⟩, fun heq => hne (by rw [← heq]), rfl⟩
      · rintro ⟨j, hne, rfl⟩
        exact ⟨fun heq => hne (Fin.ext heq), j.2⟩
    rw [hrange, Finset.sum_map]
    exact Finset.sum_congr rfl fun j _ => (insertedAll_eq_of_map (hthread j).2).symm
  rw [← hsum]
  exact (hthread i).1

end Workload
end TLI
