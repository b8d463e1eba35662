import TLI.Workload.RangeDraw
import TLI.Workload.Split

/-!
# NegativeDraw — when a negative lookup can be drawn

A negative lookup is drawn between the smallest key and the largest one, which is clamped for one of
the data files, until a key is drawn that the searched model does not have.  There is no limit to
the retries, and there need not be such a key: it exists exactly if two neighbouring keys in front
of the clamped one leave out a number (`acceptableDraw_iff_leavesGap`).
-/

namespace TLI
namespace Workload

open List Multimap UnsignedKey

/-! ## The loop -/

section

variable {K : Type} {isExist : K → Bool} {draw : UInt32 → K}

/-- The loop goes on as long as the drawn keys exist. -/
theorem drawNegative_eq_none_iff {tape : List UInt32} :
    drawNegative isExist draw tape = none ↔ ∀ r ∈ tape, isExist (draw r) = true := by
  induction tape with
  | nil => exact ⟨fun _ r hr => absurd hr not_mem_nil, fun _ => rfl⟩
  | cons r tape ih =>
      rw [drawNegative, forall_mem_cons]
      cases isExist (draw r) with
      | true => exact ih.trans ⟨fun h => ⟨rfl, h⟩, fun h => h.2⟩
      | false =>
          exact ⟨fun h => absurd h (Option.some_ne_none _), fun h => absurd h.1 Bool.false_ne_true⟩

end

variable {K : Type} [LinearOrder K] [UnsignedKey K]

/-- `max_key` for keys of type `uint64_t`, if the file name contains `fb_200M_uint64`. -/
def clampMaxKey (isFb : Bool) (maxKey : K) : K :=
  if bits K = 64 ∧ isFb = true ∧ 77308821508 < toNat maxKey then ofNat 77308821508 else maxKey

/-- Some key of the interval that a negative lookup is drawn from is absent. -/
def AcceptableDraw (R : DrawRules K) (isInsert : Bool) (M : Model K) : Prop :=
  ∃ minKey maxKey, (M.searched isInsert).head? = some minKey ∧
    (M.searched isInsert).getLast? = some maxKey ∧
      ∃ key, minKey.1 ≤ key ∧ key ≤ R.clampMax maxKey.1 ∧ M.isExist isInsert key = false

/-- Two neighbouring keys leave out a number, and the lower one is in front of the clamped key. -/
def LeavesGap (R : DrawRules K) (xs : List (K × UInt64)) : Prop :=
  ∃ maxKey ∈ xs.getLast?, ∃ pq ∈ xs.zip xs.tail,
    toNat pq.1.1 + 1 < toNat pq.2.1 ∧ pq.1.1 < R.clampMax maxKey.1

omit [UnsignedKey K] in
/-- A loop that draws from the interval ends for no outputs of the generator if there is no such
key. -/
theorem drawNegative_none {R : DrawRules K} {isInsert : Bool} {M : Model K}
    {minKey maxKey : K × UInt64} (hmin : (M.searched isInsert).head? = some minKey)
    (hmax : (M.searched isInsert).getLast? = some maxKey)
    (hdraw : ∀ r, minKey.1 ≤ R.scaleKey r minKey.1 (R.clampMax maxKey.1) ∧
      R.scaleKey r minKey.1 (R.clampMax maxKey.1) ≤ R.clampMax maxKey.1)
    (h : ¬ AcceptableDraw R isInsert M) (tape : List UInt32) :
    drawNegative (M.isExist isInsert) (fun r => R.scaleKey r minKey.1 (R.clampMax maxKey.1)) tape =
      none := by
  refine drawNegative_eq_none_iff.2 fun r _ => ?_
  by_contra habsent
  exact h ⟨minKey, maxKey, hmin, hmax, _, (hdraw r).1, (hdraw r).2, Bool.not_eq_true _ ▸ habsent⟩

/-! ## Gaps between neighbours -/

theorem clampMaxKey_le (isFb : Bool) (maxKey : K) : clampMaxKey isFb maxKey ≤ maxKey := by
  rw [clampMaxKey]
  split
  · rename_i hclamp
    refine le_of_lt (lt_iff.2 ?_)
    rw [toNat_ofNat (hclamp.2.2.trans (toNat_lt maxKey))]
    exact hclamp.2.2
  · exact le_refl _

/-- The absent key is the number behind the lower neighbour. -/
theorem acceptableDraw_iff_of_sorted {R : DrawRules K} {isFb : Bool}
    (hclamp : R.clampMax = clampMaxKey isFb) {isInsert : Bool} {M : Model K}
    (h : Sorted (M.searched isInsert)) :
    AcceptableDraw R isInsert M ↔ LeavesGap R (M.searched isInsert) := by
  have habsent : ∀ key, M.isExist isInsert key = false ↔
      ∀ x ∈ M.searched isInsert, x.1 ≠ key := by
    intro key
    rw [← Bool.not_eq_true, isExist_eq_true_iff h]
    exact ⟨fun hnot x hx heq => hnot ⟨x.2, heq ▸ hx⟩, fun hnot hcontains =>
      hcontains.elim fun v hv => hnot _ hv rfl⟩
  constructor
  · rintro ⟨minKey, maxKey, hmin, hmax, key, hlo, hhi, hkey⟩
    rw [habsent] at hkey
    have hle : key ≤ maxKey.1 := hhi.trans (hclamp ▸ clampMaxKey_le isFb maxKey.1)
    -- An absent key lies between two neighbours.
    obtain ⟨pq, hpq, hbelow, habove⟩ := exists_neighbours hkey hmin hmax
      (lt_of_le_of_ne hlo (hkey _ (mem_of_mem_head? hmin)))
      (lt_of_le_of_ne hle (hkey _ (mem_of_mem_getLast? hmax)).symm)
    refine ⟨maxKey, hmax, pq, hpq, ?_, lt_of_lt_of_le hbelow hhi⟩
    rw [lt_iff] at hbelow habove
    omega
  · rintro ⟨maxKey, hmax, ⟨p, q⟩, hpq, hgap, hbelow⟩
    obtain ⟨minKey, hmin⟩ := Option.isSome_iff_exists.1 (isSome_head?.2 (ne_nil_of_mem
      (mem_of_mem_getLast? hmax)))
    -- The number behind the lower neighbour is absent.
    have hkey : toNat (ofNat (toNat p.1 + 1) : K) = toNat p.1 + 1 :=
      toNat_ofNat (hgap.trans (toNat_lt q.1))
    have hlower : p.1 < ofNat (toNat p.1 + 1) := by
      rw [lt_iff, hkey]
      exact Nat.lt_succ_self _
    refine ⟨minKey, maxKey, hmin, hmax, ofNat (toNat p.1 + 1), ?_, ?_, (habsent _).2 ?_⟩
    · exact (h.head_le hmin (of_mem_zip hpq).1).trans hlower.le
    · have hlt : toNat p.1 < toNat (R.clampMax maxKey.1) := lt_iff.1 hbelow
      refine not_lt.1 fun habove => ?_
      rw [lt_iff, hkey] at habove
      omega
    · intro x hx heq
      rcases h.neighbours hpq hx with hle | hge
      · exact absurd (heq ▸ hle) (not_le.2 hlower)
      · refine absurd (heq ▸ hge) (not_le.2 ?_)
        rw [lt_iff, hkey]
        exact hgap

/-! ## The states that are reached -/

/-- The two models in front of the operations that are still to be filled in.  The walk passes an
operation once it is filled in. -/
inductive Walks (R : DrawRules K) (negativeLookupRatio : ℚ) (isInsert : Bool) (M : Model K)
    (ops : List (Operation K)) : Model K → List (Operation K) → Prop
  | start : Walks R negativeLookupRatio isInsert M ops M ops
  | insert {M' : Model K} {op : Operation K} {ops' : List (Operation K)}
      (before : Walks R negativeLookupRatio isInsert M ops M' (op :: ops'))
      (kind : op.op = .insert) :
      Walks R negativeLookupRatio isInsert M ops (M'.insert op) ops'
  | lookup {M' : Model K} {op : Operation K} {ops' : List (Operation K)} {tape : List UInt32}
      {result : Operation K × List UInt32}
      (before : Walks R negativeLookupRatio isInsert M ops M' (op :: ops'))
      (kind : op.op = .lookup)
      (returns : generateLookup R negativeLookupRatio isInsert M' op tape = some result) :
      Walks R negativeLookupRatio isInsert M ops M' ops'
  | rangeQuery {M' : Model K} {op : Operation K} {ops' : List (Operation K)} {tape : List UInt32}
      {result : Operation K × List UInt32}
      (before : Walks R negativeLookupRatio isInsert M ops M' (op :: ops'))
      (kind : op.op = .rangeQuery)
      (returns : generateRange R isInsert M' op maxNumRetries tape = some result) :
      Walks R negativeLookupRatio isInsert M ops M' ops'

omit [UnsignedKey K] in
theorem Walks.ready {R : DrawRules K} {neg : ℚ} {isInsert : Bool} {M M' : Model K}
    {ops ops' : List (Operation K)} (hready : M.Ready isInsert ops)
    (h : Walks R neg isInsert M ops M' ops') : M'.Ready isInsert ops' := by
  induction h with
  | start => exact hready
  | insert before kind ih => exact (ih.insert kind).2
  | lookup before kind returns ih => exact ih.tail
  | rangeQuery before kind returns ih => exact ih.tail

/-- The models of one of the threads at one of its operations, in a run of `generate`. -/
structure Reached [Inhabited K] (A : Arith) (O : StdOutcomes K) (R : DrawRules K) (P : Params)
    (keys : List K) (M : Model K) : Prop where
  sorted : keys.Pairwise (· ≤ ·)
  walks : ∃ totOps bulkLoads tape ops tape' i ops',
    placeOps A O P keys = some (totOps, bulkLoads) ∧
      dealOps P.threadNum totOps tape = some (ops, tape') ∧ i < P.threadNum ∧
        Walks R P.negativeLookupRatio (decide (0 < P.insertRatio))
          (threadModel (decide (0 < P.insertRatio)) P.threadNum bulkLoads ops i) (ops i) M ops'

omit [UnsignedKey K] in
theorem Reached.searched_sorted [Inhabited K] {A : Arith} {O : StdOutcomes K} {R : DrawRules K}
    {P : Params} {keys : List K} {M : Model K} (h : Reached A O R P keys M) :
    Sorted (M.searched (decide (0 < P.insertRatio))) := by
  obtain ⟨hkeys, totOps, bulkLoads, tape, ops, tape', i, ops', hplace, hdeal, -, hwalks⟩ := h
  have hspec : decide (0 < P.insertRatio) = false →
      NoInsert totOps ∧ Sorted (bulkLoads.map KeyValue.toPair) := fun hratio =>
    placeOps_noInsert (of_decide_eq_false hratio) hkeys hplace
  exact (hwalks.ready (threadModel_ready (fun hratio => dealOps_noInsert (hspec hratio).1 hdeal)
    (fun hratio => (hspec hratio).2) i)).sorted

namespace SmallRun

/-- One lookup, which may be a negative one, in the data without any insert. -/
def lookupParams : Params where
  opCnt := 1
  rangeQueryRatio := 0
  negativeLookupRatio := 1
  insertRatio := 0
  pat := .equality
  hotspotRatio := 1 / 10
  threadNum := 1
  mix := false
  blockNum := 1
  bulkloadCnt := none

/-- The models at the beginning. -/
def lookupModel (keys : List UInt64) : Model UInt64 where
  dataMap := []
  dataVec := addValues keys

theorem reached_lookupModel {keys : List UInt64} (hkeys : keys.Pairwise (· ≤ ·))
    (hplace : placeOps arith outcomes lookupParams keys = some (freshOps 1, addValues keys)) :
    Reached arith outcomes (rules 1) lookupParams keys (lookupModel keys) :=
  ⟨hkeys, freshOps 1, addValues keys, [], fun i => if i = 0 then freshOps 1 else [], [], 0,
    freshOps 1, hplace, rfl, Nat.one_pos, .start⟩

theorem rules_clampMax (ratio : ℚ) : (rules ratio).clampMax = clampMaxKey false := by
  funext key
  rw [clampMaxKey, if_neg fun h => Bool.false_ne_true h.2.1]
  rfl

end SmallRun

end Workload
end TLI
