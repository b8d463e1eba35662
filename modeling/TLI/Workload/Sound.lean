import TLI.Workload.Generate

/-!
# Sound — what the generator knows about the operations it emits

`generate_equality_lookups` walks through one thread's operations with two models of the index.
Read as multimaps, `data_vec` is a lower bound `lower` and the searched model an upper bound `upper`
of the states the index may be in.  An emitted operation is sound for `lower` and `upper` (`OpSound`)
when

* a lookup that expects a hit finds its key in `lower`, one that expects a miss finds no such key
  in `upper`;
* a range query records the sum over `upper`, and `upper` holds at most `max_num` qualifying pairs.

The main result, `allSound_of_generate`, is that every emitted operation is sound for the two
models grown by the inserts in front of it.
-/

namespace TLI
namespace Workload

open Multimap

/-! ## Runs of `Gen` -/

namespace Gen

variable {α β : Type}

theorem bind_eq_some {x : Gen α} {f : α → Gen β} {tape : List UInt32} {r : β × List UInt32} :
    (x >>= f) tape = some r ↔ ∃ a tape', x tape = some (a, tape') ∧ f a tape' = some r := by
  constructor
  · intro h
    rcases Option.bind_eq_some_iff.1 h with ⟨⟨a, tape'⟩, hx, hf⟩
    exact ⟨a, tape', hx, hf⟩
  · rintro ⟨a, tape', hx, hf⟩
    exact Option.bind_eq_some_iff.2 ⟨(a, tape'), hx, hf⟩

theorem pure_eq_some {a : α} {tape : List UInt32} {r : α × List UInt32} :
    (pure a : Gen α) tape = some r ↔ (a, tape) = r :=
  Option.some_inj

theorem lift_eq_some {o : Option α} {tape : List UInt32} {r : α × List UInt32} :
    (liftM o : Gen α) tape = some r ↔ o = some r.1 ∧ tape = r.2 := by
  rcases r with ⟨b, tape'⟩
  cases o with
  | none => simp [liftM, monadLift, MonadLift.monadLift, StateT.lift]
  | some a =>
      simp [liftM, monadLift, MonadLift.monadLift, StateT.lift]

theorem failure_eq_some {tape : List UInt32} {r : α × List UInt32} :
    ¬ (failure : Gen α) tape = some r := by
  simp [failure, StateT.failure]

theorem map_eq_some {x : Gen α} {f : α → β} {tape : List UInt32} {r : β × List UInt32} :
    (f <$> x) tape = some r ↔ ∃ a, x tape = some (a, r.2) ∧ f a = r.1 := by
  rw [map_eq_pure_bind, bind_eq_some]
  constructor
  · rintro ⟨a, tape', hx, hf⟩
    rw [pure_eq_some] at hf
    exact ⟨a, by rw [← hf, hx], by rw [← hf]⟩
  · rintro ⟨a, hx, hf⟩
    exact ⟨a, r.2, hx, by rw [pure_eq_some, hf]⟩

end Gen

variable {K : Type}

/-! ## What operations insert -/

/-- What executing the operation adds to the stored pairs. -/
def inserted (op : Operation K) : Multimap K UInt64 :=
  if op.op = .insert then {(op.loKey, op.result)} else 0

/-- What executing the operations adds to the stored pairs. -/
def insertedAll (ops : List (Operation K)) : Multimap K UInt64 :=
  (ops.map inserted).sum

@[simp] theorem insertedAll_nil : insertedAll ([] : List (Operation K)) = 0 := rfl

@[simp] theorem insertedAll_cons (op : Operation K) (ops : List (Operation K)) :
    insertedAll (op :: ops) = inserted op + insertedAll ops := by
  simp [insertedAll]

@[simp] theorem insertedAll_append (ops ops' : List (Operation K)) :
    insertedAll (ops ++ ops') = insertedAll ops + insertedAll ops' := by
  simp [insertedAll]

theorem coe_insertVec (ops : List (Operation K)) :
    ((insertVec ops : List (K × UInt64)) : Multimap K UInt64) = insertedAll ops := by
  induction ops with
  | nil => rfl
  | cons op ops ih =>
      by_cases hop : op.op = .insert
      · have hcons : insertVec (op :: ops) = (op.loKey, op.result) :: insertVec ops := by
          simp [insertVec, hop]
        rw [hcons, ← Multiset.cons_coe, ih, insertedAll_cons, inserted, if_pos hop,
          Multiset.singleton_add]
      · have hcons : insertVec (op :: ops) = insertVec ops := by
          simp [insertVec, hop]
        rw [hcons, ih, insertedAll_cons, inserted, if_neg hop, zero_add]

variable [LinearOrder K]

/-! ## Sound operations -/

/-- The recorded expectation holds when the index state lies between `lower` and `upper`. -/
def OpSound (lower upper : Multimap K UInt64) (op : Operation K) : Prop :=
  match op.op with
  | .insert => True
  | .lookup =>
      (op.result = 0 → lower.Contains op.loKey) ∧
        (op.result = Util.NOT_FOUND → ¬ upper.Contains op.loKey)
  | .rangeQuery =>
      op.result = rangeSum op.loKey op.hiKey upper ∧ rangeCount op.loKey op.hiKey upper ≤ maxNum

/-- Every operation is sound for the models grown by the inserts in front of it. -/
def AllSound (lower upper : Multimap K UInt64) : List (Operation K) → Prop
  | [] => True
  | op :: ops => OpSound lower upper op ∧ AllSound (lower + inserted op) (upper + inserted op) ops

theorem AllSound.opSound {pre : List (Operation K)} {op : Operation K} {post : List (Operation K)} :
    ∀ {lower upper : Multimap K UInt64}, AllSound lower upper (pre ++ op :: post) →
      OpSound (lower + insertedAll pre) (upper + insertedAll pre) op := by
  induction pre with
  | nil =>
      intro lower upper h
      simpa using h.1
  | cons p pre ih =>
      intro lower upper h
      have htail := ih h.2
      simpa [add_assoc] using htail

theorem OpSound.lookup_hit {lower upper m : Multimap K UInt64} {op : Operation K}
    (h : OpSound lower upper op) (hop : op.op = .lookup) (hres : op.result = 0) (hle : lower ≤ m) :
    m.Contains op.loKey := by
  simp only [OpSound, hop] at h
  exact (h.1 hres).mono hle

theorem OpSound.lookup_miss {lower upper m : Multimap K UInt64} {op : Operation K}
    (h : OpSound lower upper op) (hop : op.op = .lookup) (hres : op.result = Util.NOT_FOUND)
    (hle : m ≤ upper) : ¬ m.Contains op.loKey := by
  simp only [OpSound, hop] at h
  exact fun hk => h.2 hres (hk.mono hle)

theorem OpSound.range_sum {lower upper : Multimap K UInt64} {op : Operation K}
    (h : OpSound lower upper op) (hop : op.op = .rangeQuery) :
    op.result = rangeSum op.loKey op.hiKey upper := by
  simp only [OpSound, hop] at h
  exact h.1

theorem OpSound.range_count {lower upper m : Multimap K UInt64} {op : Operation K}
    (h : OpSound lower upper op) (hop : op.op = .rangeQuery) (hle : m ≤ upper) :
    rangeCount op.loKey op.hiKey m ≤ maxNum := by
  simp only [OpSound, hop] at h
  exact (rangeCount_mono hle).trans h.2

/-! ## The draws -/

omit [LinearOrder K] in
theorem drawNegative_spec {isExist : K → Bool} {draw : UInt32 → K} {key : K} :
    ∀ {tape tape' : List UInt32},
      drawNegative isExist draw tape = some (key, tape') → isExist key = false := by
  intro tape
  induction tape with
  | nil => intro tape' h; simp [drawNegative] at h
  | cons r tape ih =>
      intro tape' h
      unfold drawNegative at h
      cases hr : isExist (draw r) with
      | true => exact ih (by simpa [hr] using h)
      | false =>
          have heq : draw r = key := by
            simp only [hr, Bool.false_eq_true, if_false, Option.some.injEq, Prod.mk.injEq] at h
            exact h.1
          rw [← heq, hr]

omit [LinearOrder K] in
theorem drawExisting_spec {M : Model K} {key : K} {tape tape' : List UInt32}
    (h : drawExisting M tape = some (key, tape')) : (pairs M.dataVec).Contains key := by
  unfold drawExisting at h
  simp only [Gen.bind_eq_some, Gen.lift_eq_some, Gen.pure_eq_some] at h
  obtain ⟨offset, _, _, kv, _, ⟨hkv, _⟩, heq⟩ := h
  have hmem : kv ∈ M.dataVec := List.mem_of_getElem? hkv
  have hkey : kv.key = key := (Prod.mk.injEq _ _ _ _ ▸ heq).1
  exact ⟨kv.value, by simpa [pairs] using ⟨kv, hmem, by simp [KeyValue.toPair, hkey]⟩⟩

theorem isExist_eq_true_iff {isInsert : Bool} {M : Model K} (h : Sorted (M.searched isInsert))
    (key : K) :
    M.isExist isInsert key = true ↔
      Multimap.Contains (M.searched isInsert : Multimap K UInt64) key := by
  rw [contains_coe_iff_of_sorted h]
  unfold Model.isExist
  cases ((M.searched isInsert).dropWhile fun p => decide (p.1 < key)).head? with
  | none => simp
  | some p => simp

theorem generateLookup_spec {R : DrawRules K} {neg : ℚ} {isInsert : Bool} {M : Model K}
    {op op' : Operation K} {tape tape' : List UInt32} (hsorted : Sorted (M.searched isInsert))
    (hop : op.op = .lookup)
    (h : generateLookup R neg isInsert M op tape = some (op', tape')) :
    op'.op = .lookup ∧ OpSound (pairs M.dataVec) (M.searched isInsert : Multimap K UInt64) op' := by
  unfold generateLookup at h
  simp only [Gen.bind_eq_some, Gen.lift_eq_some] at h
  obtain ⟨minKey, _, _, maxKey, tape₀, _, h⟩ := h
  obtain ⟨negative, tape₁, hbranch⟩ : ∃ (negative : Bool) (tape₁ : List UInt32),
      (if negative = true then do
          let key ← drawNegative (M.isExist isInsert)
            fun r => R.scaleKey r minKey.1 (R.clampMax maxKey.1)
          pure { op with loKey := key, result := Util.NOT_FOUND }
        else do
          let key ← drawExisting M
          pure { op with loKey := key, result := 0 } : Gen (Operation K)) tape₁ =
        some (op', tape') := by
    split at h <;>
    · rw [Gen.bind_eq_some] at h
      obtain ⟨negative, tape₁, _, h⟩ := h
      exact ⟨negative, tape₁, h⟩
  split at hbranch
  · simp only [Gen.bind_eq_some, Gen.pure_eq_some, Prod.mk.injEq] at hbranch
    obtain ⟨key, _, hdraw, heq, _⟩ := hbranch
    have habsent := drawNegative_spec hdraw
    have hne : ¬ Util.NOT_FOUND = (0 : UInt64) := by decide
    rw [← heq]
    refine ⟨hop, ?_⟩
    simp only [OpSound, hop]
    refine ⟨fun h0 => absurd h0 hne, fun _ hk => ?_⟩
    rw [(isExist_eq_true_iff hsorted key).2 hk] at habsent
    exact absurd habsent (by decide)
  · simp only [Gen.bind_eq_some, Gen.pure_eq_some, Prod.mk.injEq] at hbranch
    obtain ⟨key, _, hdraw, heq, _⟩ := hbranch
    have hne : ¬ (0 : UInt64) = Util.NOT_FOUND := by decide
    rw [← heq]
    refine ⟨hop, ?_⟩
    simp only [OpSound, hop]
    exact ⟨fun _ => drawExisting_spec hdraw, fun h0 => absurd h0 hne⟩

/-- The scan of a sorted list records exactly the sum and the count of the interval. -/
theorem scanRange_spec {xs : List (K × UInt64)} (hsorted : Sorted xs) {loKey hiKey : K}
    {steps numQualifying : Nat} {result : UInt64}
    (h : scanRange loKey steps xs = some (hiKey, result, numQualifying)) :
    result = rangeSum loKey hiKey (xs : Multimap K UInt64) ∧
      numQualifying = rangeCount loKey hiKey (xs : Multimap K UInt64) := by
  unfold scanRange at h
  simp only [Option.bind_eq_bind, Option.bind_eq_some_iff, Option.pure_def, Option.some.injEq,
    Prod.mk.injEq] at h
  obtain ⟨hi, _, hhi, hsum, hcount⟩ := h
  subst hhi
  rw [rangeSum_coe_of_sorted hsorted, rangeCount_coe_of_sorted hsorted]
  exact ⟨hsum.symm, hcount.symm⟩

theorem rangeAttempt_spec {R : DrawRules K} {isInsert : Bool} {M : Model K} {op op' : Operation K}
    {tape tape' : List UInt32} (hsorted : Sorted (M.searched isInsert)) (hop : op.op = .rangeQuery)
    (h : rangeAttempt R isInsert M op tape = some (some op', tape')) :
    op'.op = .rangeQuery ∧
      OpSound (pairs M.dataVec) (M.searched isInsert : Multimap K UInt64) op' := by
  -- Whatever key was drawn, the operation is filled in from one scan.
  have hscan : ∀ (loKey hiKey : K) (steps : Nat) (result : UInt64) (numQualifying : Nat)
      (tape₁ : List UInt32),
      scanRange loKey steps (M.searched isInsert) = some (hiKey, result, numQualifying) →
      (if (decide (numQualifying > maxNum) || decide (numQualifying < minNum)) = true then pure none
        else pure (some { op with loKey := loKey, hiKey := hiKey, result := result }) :
        Gen (Option (Operation K))) tape₁ = some (some op', tape') →
      op'.op = .rangeQuery ∧
        OpSound (pairs M.dataVec) (M.searched isInsert : Multimap K UInt64) op' := by
    intro loKey hiKey steps result numQualifying tape₁ hs hbranch
    split at hbranch
    · simp [Gen.pure_eq_some] at hbranch
    · rename_i hcount
      simp only [Gen.pure_eq_some, Prod.mk.injEq, Option.some.injEq] at hbranch
      obtain ⟨heq, _⟩ := hbranch
      obtain ⟨hsum, hnum⟩ := scanRange_spec hsorted hs
      rw [← heq]
      refine ⟨hop, ?_⟩
      simp only [OpSound, hop]
      refine ⟨hsum, ?_⟩
      simp only [gt_iff_lt, Bool.or_eq_true, decide_eq_true_eq, not_or, not_lt] at hcount
      rw [← hnum]
      exact hcount.1
  unfold rangeAttempt at h
  simp only [Gen.bind_eq_some, Gen.lift_eq_some] at h
  obtain ⟨minKey, tape₁, _, h⟩ := h
  split at h
  · simp only [Gen.bind_eq_some] at h
    obtain ⟨_, _, hfail, _⟩ := h
    exact absurd hfail Gen.failure_eq_some
  · simp only [Gen.bind_eq_some, Gen.lift_eq_some] at h
    obtain ⟨maxKey, tape₂, _, h⟩ := h
    split at h <;>
    · rw [Gen.bind_eq_some] at h
      obtain ⟨loKey, tape₃, _, h⟩ := h
      split at h
      · simp [Gen.pure_eq_some] at h
      · simp only [Gen.bind_eq_some, Gen.lift_eq_some] at h
        obtain ⟨r, tape₄, _, ⟨hiKey, result, numQualifying⟩, tape₅, ⟨hs, _⟩, h⟩ := h
        exact hscan loKey hiKey _ result numQualifying tape₅ hs h

theorem generateRange_spec {R : DrawRules K} {isInsert : Bool} {M : Model K} {op op' : Operation K}
    (hsorted : Sorted (M.searched isInsert)) (hop : op.op = .rangeQuery) (retries : Nat) :
    ∀ {tape tape' : List UInt32},
      generateRange R isInsert M op retries tape = some (op', tape') →
        op'.op = .rangeQuery ∧
          OpSound (pairs M.dataVec) (M.searched isInsert : Multimap K UInt64) op' := by
  induction retries with
  | zero =>
      intro tape tape' h
      unfold generateRange at h
      rw [Gen.bind_eq_some] at h
      obtain ⟨attempt, tape₁, hattempt, h⟩ := h
      cases attempt with
      | none => exact absurd h Gen.failure_eq_some
      | some op₁ =>
          simp only [Gen.pure_eq_some, Prod.mk.injEq] at h
          rw [h.1] at hattempt
          exact rangeAttempt_spec hsorted hop hattempt
  | succ retries ih =>
      intro tape tape' h
      unfold generateRange at h
      rw [Gen.bind_eq_some] at h
      obtain ⟨attempt, tape₁, hattempt, h⟩ := h
      cases attempt with
      | none => exact ih h
      | some op₁ =>
          simp only [Gen.pure_eq_some, Prod.mk.injEq] at h
          rw [h.1] at hattempt
          exact rangeAttempt_spec hsorted hop hattempt

/-! ## The walk through the operations -/

/-- `data_map` is kept in key order; without inserts `data_vec` is, and no insert follows. -/
structure Model.Ready (isInsert : Bool) (M : Model K) (ops : List (Operation K)) : Prop where
  sorted : Sorted (M.searched isInsert)
  noInsert : isInsert = false → ∀ op ∈ ops, op.op ≠ .insert

theorem Model.Ready.tail {isInsert : Bool} {M : Model K} {op : Operation K}
    {ops : List (Operation K)} (h : M.Ready isInsert (op :: ops)) : M.Ready isInsert ops :=
  ⟨h.sorted, fun hi o ho => h.noInsert hi o (List.mem_cons_of_mem _ ho)⟩

theorem Model.Ready.insert {isInsert : Bool} {M : Model K} {op : Operation K}
    {ops : List (Operation K)} (h : M.Ready isInsert (op :: ops)) (hop : op.op = .insert) :
    isInsert = true ∧ (M.insert op).Ready isInsert ops := by
  cases isInsert with
  | false => exact absurd hop (h.noInsert rfl op List.mem_cons_self)
  | true => exact ⟨rfl, h.sorted.emplace _, by simp⟩

theorem coe_searched_insert {M : Model K} {op : Operation K} (hop : op.op = .insert) :
    ((M.insert op).searched true : Multimap K UInt64) =
      (M.searched true : Multimap K UInt64) + inserted op := by
  simp [Model.searched, Model.insert, inserted, hop, coe_emplace, ← Multiset.singleton_add,
    add_comm]

theorem pairs_dataVec_insert {M : Model K} {op : Operation K} (hop : op.op = .insert) :
    pairs (M.insert op).dataVec = pairs M.dataVec + inserted op := by
  simp [Model.insert, inserted, hop, KeyValue.toPair]

/-- Every emitted operation is sound, and the inserts are passed on unchanged. -/
theorem allSound_of_generate {R : DrawRules K} {neg : ℚ} {isInsert : Bool}
    {ops : List (Operation K)} :
    ∀ {M : Model K} {ops' : List (Operation K)} {tape tape' : List UInt32},
      M.Ready isInsert ops →
      generateEqualityLookups R neg isInsert M ops tape = some (ops', tape') →
        AllSound (pairs M.dataVec) (M.searched isInsert : Multimap K UInt64) ops' ∧
          ops'.map inserted = ops.map inserted := by
  induction ops with
  | nil =>
      intro M ops' tape tape' _ h
      simp only [generateEqualityLookups, Gen.pure_eq_some, Prod.mk.injEq] at h
      rw [← h.1]
      exact ⟨trivial, rfl⟩
  | cons op ops ih =>
      intro M ops' tape tape' hready h
      unfold generateEqualityLookups at h
      cases hop : op.op with
      | insert =>
          simp only [hop, Gen.bind_eq_some, Gen.pure_eq_some, Prod.mk.injEq] at h
          obtain ⟨ops₁, _, hops, heq, _⟩ := h
          -- The later operations see the inserted pair.
          obtain ⟨hi, hready'⟩ := hready.insert hop
          subst hi
          obtain ⟨hsound, hins⟩ := ih hready' hops
          rw [pairs_dataVec_insert hop, coe_searched_insert hop] at hsound
          rw [← heq]
          exact ⟨⟨by simp [OpSound, hop], hsound⟩, by simp [hins]⟩
      | lookup =>
          simp only [hop, Gen.bind_eq_some, Gen.pure_eq_some, Prod.mk.injEq] at h
          obtain ⟨op₁, _, hop₁, ops₁, _, hops, heq, _⟩ := h
          obtain ⟨hkind, hsound₁⟩ := generateLookup_spec hready.sorted hop hop₁
          obtain ⟨hsound, hins⟩ := ih hready.tail hops
          have hnone : inserted op₁ = 0 := by simp [inserted, hkind]
          have hnone' : inserted op = 0 := by simp [inserted, hop]
          rw [← heq]
          exact ⟨⟨hsound₁, by simpa [hnone] using hsound⟩, by simp [hins, hnone, hnone']⟩
      | rangeQuery =>
          simp only [hop, Gen.bind_eq_some, Gen.pure_eq_some, Prod.mk.injEq] at h
          obtain ⟨op₁, _, hop₁, ops₁, _, hops, heq, _⟩ := h
          obtain ⟨hkind, hsound₁⟩ := generateRange_spec hready.sorted hop maxNumRetries hop₁
          obtain ⟨hsound, hins⟩ := ih hready.tail hops
          have hnone : inserted op₁ = 0 := by simp [inserted, hkind]
          have hnone' : inserted op = 0 := by simp [inserted, hop]
          rw [← heq]
          exact ⟨⟨hsound₁, by simpa [hnone] using hsound⟩, by simp [hins, hnone, hnone']⟩

end Workload
end TLI
