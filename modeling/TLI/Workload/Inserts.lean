import Mathlib.Algebra.Order.Floor.Ring
import Mathlib.Data.Rat.Floor
import Mathlib.Tactic.NormNum
import TLI.Workload.Blocks

/-!
# Inserts — what `generate_inserts` takes from the data and where it puts it

The inserts are taken from a range of the data, all of it or its tail or its middle; what is not
inserted is bulk loaded.  If the range lies within the data and holds enough pairs, every pair is
used once (`generateInserts_exchanges`).  Neither `main` nor `generate` checks this of the hotspot
range, so accepted parameters may ask for more than there is (`legalInserts_iff`).
-/

namespace TLI
namespace Workload

open Multimap List

/-! ## Placing the inserts -/

section Place

variable {K : Type}

/-- An operation that did not insert adds the pair that it is given. -/
theorem insertedAll_modify (kv : KeyValue K) :
    ∀ (ops : List (Operation K)) (id : Nat), (∃ op, ops[id]? = some op ∧ op.op ≠ .insert) →
      insertedAll (ops.modify id fun op =>
          { op with op := .insert, loKey := kv.key, result := kv.value }) =
        kv.toPair ::ₘ insertedAll ops
  | [], id, h => by
      obtain ⟨op, hop, -⟩ := h
      cases hop
  | op :: ops, 0, h => by
      obtain ⟨op', hop, hkind⟩ := h
      cases hop
      rw [modify_zero_cons, insertedAll_cons, insertedAll_cons, inserted, inserted, if_pos rfl,
        if_neg hkind, zero_add, Multiset.singleton_add]
      rfl
  | op :: ops, id + 1, h => by
      rw [modify_succ_cons, insertedAll_cons, insertedAll_cons,
        insertedAll_modify kv ops id (by simpa using h), Multiset.add_cons]

/-- Distinct operations that did not insert add the pairs that they are given. -/
theorem insertedAll_placeInserts : ∀ (kvs : List (KeyValue K)) (opId : List Nat)
    (ops : List (Operation K)), kvs.length ≤ opId.length → (opId.take kvs.length).Nodup →
      (∀ id ∈ opId.take kvs.length, ∃ op, ops[id]? = some op ∧ op.op ≠ .insert) →
        insertedAll (placeInserts ops opId kvs) = pairs kvs + insertedAll ops
  | [], opId, ops, _, _, _ => by rw [placeInserts_nil, pairs_nil, zero_add]
  | kv :: kvs, [], ops, hlength, _, _ => absurd hlength (Nat.not_succ_le_zero _)
  | kv :: kvs, id :: opId, ops, hlength, hnodup, hops => by
      rw [length_cons, length_cons] at hlength
      rw [length_cons, take_succ_cons] at hnodup hops
      obtain ⟨hfresh, hnodup⟩ := nodup_cons.1 hnodup
      have hrest := insertedAll_placeInserts kvs opId (ops.modify id fun op =>
        { op with op := .insert, loKey := kv.key, result := kv.value }) (by omega) hnodup ?_
      · refine Eq.trans hrest ?_
        rw [insertedAll_modify kv ops id (hops id mem_cons_self), pairs_cons, Multiset.add_cons,
          Multiset.cons_add]
      · intro id' hid'
        obtain ⟨op, hop, hkind⟩ := hops id' (mem_cons_of_mem id hid')
        have hne : id ≠ id' := fun heq => hfresh (heq ▸ hid')
        exact ⟨op, by simp [hne, hop], hkind⟩

/-- The number of operations that insert. -/
def insertCount (ops : List (Operation K)) : Nat :=
  (ops.filter fun op => op.op = .insert).length

theorem insertCount_eq_card (ops : List (Operation K)) :
    insertCount ops = (insertedAll ops).card := by
  rw [← coe_insertVec, Multiset.coe_card, insertVec, length_map, insertCount]

theorem card_pairs (kvs : List (KeyValue K)) : (pairs kvs).card = kvs.length := by
  rw [pairs, Multiset.coe_card, length_map]

end Place

/-! ## Choosing the inserts -/

theorem filterMap_getElem? {α : Type} (xs : List α) :
    ∀ len lo, lo + len ≤ xs.length →
      (range' lo len).filterMap (fun i => xs[i]?) = (xs.drop lo).take len
  | 0, lo, _ => by rw [range'_zero, filterMap_nil, take_zero]
  | len + 1, lo, h => by
      have hlo : lo < xs.length := by omega
      rw [range'_succ, filterMap_cons_some (getElem?_eq_getElem hlo),
        filterMap_getElem? xs len (lo + 1) (by omega), drop_eq_getElem_cons hlo, take_succ_cons]

variable {K : Type} [LinearOrder K]

/-- Exactly `insertCnt` operations insert.  With the bulk load they make up the data, and the bulk
load is in key order. -/
structure Exchanges (dataVec : List (KeyValue K)) (insertCnt : Nat) (ops : List (Operation K))
    (bulkLoads : List (KeyValue K)) : Prop where
  count : insertCount ops = insertCnt
  pairs_eq : insertedAll ops + pairs bulkLoads = pairs dataVec
  sorted : bulkLoads.Pairwise fun a b => a.key ≤ b.key

/-- The data in front of the range, in it, and behind it. -/
theorem take_append_range {α : Type} (xs : List α) {lo hi : Nat} (h : lo ≤ hi) :
    xs.take lo ++ (xs.drop lo).take (hi - lo) ++ xs.drop hi = xs := by
  have hdrop : xs.drop hi = (xs.drop lo).drop (hi - lo) := by
    rw [drop_drop, Nat.add_sub_cancel' h]
  rw [append_assoc, hdrop, take_append_drop, take_append_drop]

/-- The pairs of the range in the order in which they are used: those to insert, then the rest. -/
theorem generateInserts_cases {A : Arith} (O : StdOutcomes K) (ops : List (Operation K))
    (opId : List Nat) {dataVec : List (KeyValue K)} {insertCnt : Nat} {pat : InsertPat}
    {hotspotRatio : ℚ} {lo hi : Nat}
    (hrange : insertRange A dataVec.length insertCnt pat hotspotRatio = some (lo, hi))
    (hlo : lo ≤ hi) (hhi : hi ≤ dataVec.length) :
    ∃ kvs rest, kvs ~ (dataVec.drop lo).take (hi - lo) ∧ rest ~ kvs.drop insertCnt ∧
      (rest.Pairwise fun a b => a.key ≤ b.key) ∧
      generateInserts A O ops opId dataVec insertCnt pat hotspotRatio =
        some (placeInserts ops opId (kvs.take insertCnt), dataVec.take lo ++ rest ++
          dataVec.drop hi)
    := by
  rw [generateInserts, hrange, Option.bind_eq_bind, Option.bind_some]
  by_cases hpat : pat = .delta
  · subst hpat
    rw [insertRange, Option.ite_none_right_eq_some] at hrange
    obtain ⟨hle, heq⟩ := hrange
    cases heq
    have hcnt : dataVec.length - (dataVec.length - insertCnt) = insertCnt := by omega
    refine ⟨_, [], Perm.refl _, .of_eq ?_, Pairwise.nil, ?_⟩
    · rw [hcnt, drop_take, Nat.sub_self, take_zero]
    · rw [hcnt, take_take, Nat.min_self, append_nil]
      rfl
  · have hids := O.shufflePairs_perm (range' lo (hi - lo))
    have hsome : ∀ id ∈ O.shufflePairs (range' lo (hi - lo)), ∃ kv, dataVec[id]? = some kv := by
      intro id hid
      have hmem := mem_range'_1.1 (hids.mem_iff.1 hid)
      exact ⟨_, getElem?_eq_getElem (by omega)⟩
    have hkvs := hids.filterMap fun id => dataVec[id]?
    rw [filterMap_getElem? dataVec (hi - lo) lo (by omega)] at hkvs
    refine ⟨_, _, hkvs, O.sort_perm _, O.sort_sorted _, ?_⟩
    simp only [if_neg hpat, generatePermute, if_true, mapM_eq_filterMap hsome, Option.bind_eq_bind,
      Option.bind_some, Option.pure_def]

/-- If the range lies within the data and holds enough pairs, every pair of the data is inserted
or bulk loaded once. -/
theorem exchanges_of_range {A : Arith} (O : StdOutcomes K) {ops : List (Operation K)}
    {opId : List Nat} {dataVec : List (KeyValue K)} {insertCnt : Nat} {pat : InsertPat}
    {hotspotRatio : ℚ} {lo hi : Nat}
    (hsorted : dataVec.Pairwise fun a b => a.key ≤ b.key)
    (hrange : insertRange A dataVec.length insertCnt pat hotspotRatio = some (lo, hi))
    (hlo : lo ≤ hi) (hhi : hi ≤ dataVec.length) (hcnt : insertCnt ≤ hi - lo)
    (hops : NoInsert ops) (hids : insertCnt ≤ opId.length) (hnodup : (opId.take insertCnt).Nodup)
    (hin : ∀ id ∈ opId.take insertCnt, id < ops.length) :
    ∃ ops' bulkLoads,
      generateInserts A O ops opId dataVec insertCnt pat hotspotRatio = some (ops', bulkLoads) ∧
        Exchanges dataVec insertCnt ops' bulkLoads := by
  obtain ⟨kvs, rest, hkvs, hrest, hrestSorted, hrun⟩ :=
    generateInserts_cases O ops opId hrange hlo hhi
  have hlength : (kvs.take insertCnt).length = insertCnt := by
    have hperm := hkvs.length_eq
    rw [length_take, length_drop] at hperm
    rw [length_take]
    omega
  have hinserted : insertedAll (placeInserts ops opId (kvs.take insertCnt)) =
      pairs (kvs.take insertCnt) := by
    rw [insertedAll_placeInserts _ _ _ (by omega) (by rwa [hlength]), hops.insertedAll, add_zero]
    intro id hid
    rw [hlength] at hid
    have hlt := hin id hid
    exact ⟨_, getElem?_eq_getElem hlt, hops _ (getElem_mem hlt)⟩
  have hrestMem : ∀ kv ∈ rest, kv ∈ (dataVec.drop lo).take (hi - lo) := fun kv hkv =>
    hkvs.subset (mem_of_mem_drop (hrest.subset hkv))
  refine ⟨_, _, hrun, ?_, ?_, ?_⟩
  · rw [insertCount_eq_card, hinserted, card_pairs, hlength]
  · have hmiddle : pairs (kvs.take insertCnt) + pairs rest =
        pairs ((dataVec.drop lo).take (hi - lo)) := by
      have hperm := hrest.append_left (kvs.take insertCnt)
      rw [take_append_drop] at hperm
      rw [← pairs_append]
      exact Multiset.coe_eq_coe.2 ((hperm.trans hkvs).map _)
    calc insertedAll (placeInserts ops opId (kvs.take insertCnt)) +
          pairs (dataVec.take lo ++ rest ++ dataVec.drop hi)
        = pairs (kvs.take insertCnt) +
            (pairs (dataVec.take lo) + pairs rest + pairs (dataVec.drop hi)) := by
          rw [hinserted, pairs_append, pairs_append]
      _ = pairs (dataVec.take lo) + (pairs (kvs.take insertCnt) + pairs rest) +
            pairs (dataVec.drop hi) := by
          rw [← add_assoc, add_left_comm]
      _ = pairs (dataVec.take lo ++ (dataVec.drop lo).take (hi - lo) ++ dataVec.drop hi) := by
          rw [hmiddle, pairs_append, pairs_append]
      _ = pairs dataVec := by rw [take_append_range dataVec hlo]
  · rw [← take_append_range dataVec hlo, pairwise_append, pairwise_append] at hsorted
    obtain ⟨⟨hfront, -, hfrontMiddle⟩, hbehind, hall⟩ := hsorted
    refine pairwise_append.2 ⟨pairwise_append.2 ⟨hfront, hrestSorted, fun a ha b hb =>
      hfrontMiddle a ha b (hrestMem b hb)⟩, hbehind, fun a ha b hb => hall a ?_ b hb⟩
    rcases mem_append.1 ha with ha | ha
    · exact mem_append_left _ ha
    · exact mem_append_right _ (hrestMem a ha)

/-! ## The range that is computed -/

/-- `lo` and `hi` as the code computes them: the difference of two `size_t` wraps. -/
def computedRange (A : Arith) (n insertCnt : Nat) (pat : InsertPat) (hotspotRatio : ℚ) : Nat × Nat :=
  match pat with
  | .equality => (0, n)
  | .delta => ((n + 2 ^ 64 - insertCnt) % 2 ^ 64, n)
  | .hotspot =>
      let lo := A.mulTrunc n (3 / 10)
      (lo, A.offsetTrunc lo hotspotRatio n)

/-- The inserts are taken from the computed range if it lies within the data. -/
theorem insertRange_eq_some {A : Arith} {n insertCnt : Nat} {pat : InsertPat} {hotspotRatio : ℚ}
    (hn : n < 2 ^ 64) (hcnt : insertCnt < 2 ^ 64)
    (hlo : (computedRange A n insertCnt pat hotspotRatio).1 ≤
      (computedRange A n insertCnt pat hotspotRatio).2)
    (hhi : (computedRange A n insertCnt pat hotspotRatio).2 ≤ n) :
    insertRange A n insertCnt pat hotspotRatio =
      some (computedRange A n insertCnt pat hotspotRatio) := by
  cases pat with
  | equality => rfl
  | delta =>
      rw [computedRange] at hlo ⊢
      dsimp only at hlo
      -- A difference that wraps is larger than the data.
      have hle : insertCnt ≤ n := by
        by_contra hlt
        rw [Nat.mod_eq_of_lt (by omega)] at hlo
        omega
      have heq : (n + 2 ^ 64 - insertCnt) % 2 ^ 64 = n - insertCnt := by
        rw [show n + 2 ^ 64 - insertCnt = n - insertCnt + 2 ^ 64 by omega, Nat.add_mod_right,
          Nat.mod_eq_of_lt (by omega)]
      rw [insertRange, if_pos hle, heq]
  | hotspot => exact if_pos ⟨hlo, hhi⟩

/-- Whatever the pattern and the shuffle, no pair is lost and none is used twice. -/
theorem generateInserts_exchanges {A : Arith} (O : StdOutcomes K) {ops : List (Operation K)}
    {opId : List Nat} {dataVec : List (KeyValue K)} {insertCnt : Nat} {pat : InsertPat}
    {hotspotRatio : ℚ} {lo hi : Nat}
    (hsorted : dataVec.Pairwise fun a b => a.key ≤ b.key)
    (hn : dataVec.length < 2 ^ 64) (hsize : insertCnt < 2 ^ 64)
    (hrange : computedRange A dataVec.length insertCnt pat hotspotRatio = (lo, hi))
    (hlo : lo ≤ hi) (hhi : hi ≤ dataVec.length) (hcnt : insertCnt ≤ hi - lo)
    (hops : NoInsert ops) (hids : insertCnt ≤ opId.length) (hnodup : (opId.take insertCnt).Nodup)
    (hin : ∀ id ∈ opId.take insertCnt, id < ops.length) :
    ∃ ops' bulkLoads,
      generateInserts A O ops opId dataVec insertCnt pat hotspotRatio = some (ops', bulkLoads) ∧
        Exchanges dataVec insertCnt ops' bulkLoads := by
  have hsome : insertRange A dataVec.length insertCnt pat hotspotRatio = some _ :=
    insertRange_eq_some hn hsize (by rw [hrange]; exact hlo) (by rw [hrange]; exact hhi)
  rw [hrange] at hsome
  exact exchanges_of_range O hsorted hsome hlo hhi hcnt hops hids hnodup hin

/-- Two of ten pairs, some of them with equal keys, inserted from the middle of the data. -/
theorem generateInserts_exchanges_ten :
    let dataVec := addValues ([1, 1, 2, 3, 3, 3, 5, 8, 8, 9] : List UInt64)
    ∃ ops bulkLoads,
      generateInserts SmallRun.arith SmallRun.outcomes (freshOps 3) [2, 0, 1] dataVec 2 .hotspot
          (1 / 2) = some (ops, bulkLoads) ∧ Exchanges dataVec 2 ops bulkLoads := by
  refine generateInserts_exchanges SmallRun.outcomes ?_ (by decide) (by decide) ?_
    (by decide : 3 ≤ 8) (by decide) (by decide) (noInsert_freshOps 3) (by decide) (by decide) (by decide)
  · decide
  · decide +kernel

/-! ## Accepted parameters -/

open SmallRun

/-- The number of inserts that the parameters ask for. -/
def Params.insertCnt (P : Params) : Nat :=
  (opCounts arith P).1

theorem Params.insertCnt_eq (P : Params) : P.insertCnt = arith.mulTrunc P.opCnt P.insertRatio := by
  rw [insertCnt, opCounts]
  split <;> rfl

/-- What the checks of `main` and `generate` leave of a data set of `n` keys: the sum of the two
counts wraps, and `bulk_loads.reserve` throws when the difference of the sizes does. -/
structure Params.Accepted (P : Params) (n : Nat) : Prop where
  checked : P.Checked
  sum_le : ∀ bulkloadCnt, P.bulkloadCnt = some bulkloadCnt →
    (P.insertCnt + bulkloadCnt) % 2 ^ 64 ≤ n
  reserve : P.insertCnt ≤ n

/-- Parameters that are not rejected are accepted. -/
theorem Params.accepted_of_not_rejects {P : Params} {n : Nat} (hP : P.Checked)
    (h : rejects arith P n = false) : P.Accepted n := by
  rw [rejects, Bool.or_eq_false_iff, decide_eq_false_iff_not, not_lt] at h
  obtain ⟨hsum, hreserve⟩ := h
  refine ⟨hP, fun bulkloadCnt hbulk => (Nat.mod_le _ _).trans ?_, hreserve⟩
  rw [hbulk, decide_eq_false_iff_not, not_lt] at hsum
  exact hsum

/-- A range within `n` pairs that holds enough of them. -/
structure LegalRange (n insertCnt : Nat) (range : Nat × Nat) : Prop where
  lo_le : range.1 ≤ range.2
  hi_le : range.2 ≤ n
  enough : insertCnt ≤ range.2 - range.1

/-- The range lies within the data and holds enough pairs, the ids are positions of operations, and
as many operations insert as the parameters ask for. -/
structure LegalInserts [Inhabited K] (O : StdOutcomes K) (P : Params) (keys : List K) : Prop where
  range : LegalRange keys.length P.insertCnt
    (computedRange arith keys.length P.insertCnt P.pat P.hotspotRatio)
  ids_length : P.insertCnt ≤ (opIds arith O P).length
  ids_lt : ∀ id ∈ (opIds arith O P).take P.insertCnt, id < P.opCnt
  inserts : ∃ ops bulkLoads,
    generateInserts arith O (freshOps P.opCnt) (opIds arith O P) (addValues keys) P.insertCnt P.pat
        P.hotspotRatio = some (ops, bulkLoads) ∧ insertCount ops = P.insertCnt

/-- There is a block to put inserts into, and the hotspot ends within the data and holds at least as
many pairs as are to be inserted. -/
structure Params.Roomy (P : Params) (n : Nat) : Prop where
  blocks : P.blockNum = 0 → P.opCnt * P.insertRatio < 2
  hotspot_end : P.pat = .hotspot → P.hotspotRatio * n < n + 1 - (3 * n / 10 : Nat)
  hotspot_size : P.pat = .hotspot → ⌊P.opCnt * P.insertRatio⌋ ≤ ⌊P.hotspotRatio * n⌋

section Exact

theorem natCast_mulTrunc (n : Nat) {ratio : ℚ} (h : 0 ≤ ratio) :
    (arith.mulTrunc n ratio : Int) = ⌊n * ratio⌋ :=
  Int.toNat_of_nonneg (Int.floor_nonneg.2 (mul_nonneg (Nat.cast_nonneg n) h))

/-- The hotspot begins behind three tenths of the data. -/
theorem mulTrunc_three_tenths (n : Nat) : arith.mulTrunc n (3 / 10) = 3 * n / 10 := by
  have hfloor : ⌊(n : ℚ) * (3 / 10)⌋ = ((3 * n / 10 : Nat) : Int) := by
    rw [← mul_div_assoc, mul_comm]
    exact_mod_cast Rat.floor_natCast_div_natCast (3 * n) 10
  have hcast := natCast_mulTrunc n (by norm_num : (0 : ℚ) ≤ 3 / 10)
  rw [hfloor] at hcast
  exact_mod_cast hcast

/-- It ends as far behind its beginning as its ratio says. -/
theorem natCast_offsetTrunc (lo n : Nat) {ratio : ℚ} (h : 0 ≤ ratio) :
    (arith.offsetTrunc lo ratio n : Int) = lo + ⌊ratio * n⌋ := by
  have hnonneg : 0 ≤ ratio * n := mul_nonneg h (Nat.cast_nonneg n)
  have hfloor : ⌊(lo : ℚ) + ratio * n⌋ = lo + ⌊ratio * n⌋ := Int.floor_natCast_add lo _
  rw [← hfloor]
  exact Int.toNat_of_nonneg (Int.floor_nonneg.2 (add_nonneg (Nat.cast_nonneg lo) hnonneg))

end Exact

section Accepted

variable [Inhabited K] {P : Params} {keys : List K}

omit [LinearOrder K] [Inhabited K] in
/-- The computed range is legal exactly if the hotspot has room. -/
theorem legalRange_iff (haccepted : P.Accepted keys.length) (hn : keys.length < 2 ^ 64) :
    LegalRange keys.length P.insertCnt
        (computedRange arith keys.length P.insertCnt P.pat P.hotspotRatio) ↔
      (P.pat = .hotspot →
        P.hotspotRatio * keys.length < keys.length + 1 - (3 * keys.length / 10 : Nat) ∧
          ⌊P.opCnt * P.insertRatio⌋ ≤ ⌊P.hotspotRatio * keys.length⌋) := by
  have hP := haccepted.checked
  have hcnt := haccepted.reserve
  cases hpat : P.pat with
  | equality =>
      exact iff_of_true ⟨Nat.zero_le _, le_refl _, hcnt⟩ fun h => absurd h (by decide)
  | delta =>
      have hwrap : (keys.length + 2 ^ 64 - P.insertCnt) % 2 ^ 64 = keys.length - P.insertCnt := by
        omega
      refine iff_of_true ⟨?_, le_refl _, ?_⟩ fun h => absurd h (by decide)
      · dsimp only [computedRange]
        omega
      · dsimp only [computedRange]
        omega
  | hotspot =>
      have hsize := natCast_offsetTrunc (3 * keys.length / 10) keys.length
        hP.hotspotRatio.1.le
      have hinsert := natCast_mulTrunc P.opCnt hP.insertRatio.1
      rw [← P.insertCnt_eq] at hinsert
      have hnonneg : 0 ≤ ⌊P.hotspotRatio * keys.length⌋ :=
        Int.floor_nonneg.2 (mul_nonneg hP.hotspotRatio.1.le (Nat.cast_nonneg _))
      have hend : P.hotspotRatio * keys.length < keys.length + 1 - (3 * keys.length / 10 : Nat) ↔
          ⌊P.hotspotRatio * keys.length⌋ <
            (keys.length : Int) + 1 - (3 * keys.length / 10 : Nat) := by
        rw [Int.floor_lt]
        push_cast
        rfl
      rw [forall_prop_of_true rfl, hend, ← hinsert, computedRange, mulTrunc_three_tenths]
      constructor
      · rintro ⟨-, hhi, henough⟩
        dsimp only at hhi henough
        omega
      · rintro ⟨hhi, henough⟩
        refine ⟨?_, ?_, ?_⟩ <;> dsimp only <;> omega

/-- The ids as they are dealt, before those of the inserts are sorted. -/
def plainIds (O : StdOutcomes K) (P : Params) : List Nat :=
  if P.blockNum = 1 then generatePermute O.shuffleOps 0 P.opCnt P.mix
  else generatePermuteBlockwise P.opCnt (opCounts arith P).1 (opCounts arith P).2.1
    (opCounts arith P).2.2 P.blockNum

omit [Inhabited K] in
theorem opIds_perm_plainIds (O : StdOutcomes K) (P : Params) : opIds arith O P ~ plainIds O P := by
  have heq : opIds arith O P =
      if 0 < P.insertRatio ∧ P.mix = true then
        ((plainIds O P).take (opCounts arith P).1).insertionSort (· ≤ ·) ++
          (plainIds O P).drop (opCounts arith P).1
      else plainIds O P := rfl
  rw [heq]
  split
  · have hsort := (perm_insertionSort (· ≤ ·)
      ((plainIds O P).take (opCounts arith P).1)).append_right
        ((plainIds O P).drop (opCounts arith P).1)
    rwa [take_append_drop] at hsort
  · exact Perm.refl _

omit [Inhabited K] in
/-- With a block to put them into, the ids are a permutation of the positions. -/
theorem opIds_perm (O : StdOutcomes K) (hP : P.Checked) (hblock : 0 < P.blockNum) :
    opIds arith O P ~ range P.opCnt := by
  refine (opIds_perm_plainIds O P).trans ?_
  rw [plainIds]
  split
  · rw [generatePermute, Nat.sub_zero, range_eq_range']
    split
    · exact O.shuffleOps_perm _
    · exact Perm.refl _
  · have hsum := opCounts_sum (arith_proportional P.opCnt) hP
    have hperm := generatePermuteBlockwise_perm (opCounts arith P).1 (opCounts arith P).2.2
      (opCounts arith P).2.1 hblock
    rwa [hsum] at hperm

omit [Inhabited K] in
/-- Without a block every id is zero. -/
theorem opIds_eq_zero (O : StdOutcomes K) (hblock : P.blockNum = 0) :
    (opIds arith O P).length = P.opCnt ∧ ∀ id ∈ opIds arith O P, id = 0 := by
  have hplain : plainIds O P = replicate P.opCnt 0 := by
    rw [plainIds, if_neg (by omega), hblock]
    rfl
  have hperm := opIds_perm_plainIds O P
  rw [hplain] at hperm
  exact ⟨by rw [hperm.length_eq, length_replicate], fun id hid =>
    eq_of_mem_replicate (hperm.subset hid)⟩

omit [LinearOrder K] [Inhabited K] in
/-- Inserts that are all placed at the first position make one operation insert. -/
theorem insertCount_le_one {ops : List (Operation K)} {opId : List Nat} (kvs : List (KeyValue K))
    (hops : NoInsert ops) (hids : ∀ id ∈ opId, id = 0) :
    insertCount (placeInserts ops opId kvs) ≤ 1 := by
  have hother : ∀ p op, (placeInserts ops opId kvs)[p + 1]? = some op → op.op ≠ .insert := by
    intro p op hop
    have hkind := getElem?_kinds_placeInserts opId kvs (p + 1) ops
    have hnot : p + 1 ∉ opId.take kvs.length := fun h =>
      absurd (hids _ (mem_of_mem_take h)) (Nat.succ_ne_zero p)
    rw [getElem?_kinds, getElem?_kinds, hop, decide_eq_false hnot] at hkind
    cases hold : ops[p + 1]? with
    | none => rw [hold] at hkind; cases hkind
    | some op' =>
        rw [hold] at hkind
        have hfresh := hops op' (mem_of_getElem? hold)
        simpa [hfresh] using hkind
  cases hplaced : placeInserts ops opId kvs with
  | nil => exact Nat.zero_le 1
  | cons op rest =>
      have hrest : rest.filter (fun op => op.op = .insert) = [] := by
        refine filter_eq_nil_iff.2 fun op' hop' => ?_
        obtain ⟨p, hp⟩ := mem_iff_getElem?.1 hop'
        simpa using hother p op' (by rw [hplaced, getElem?_cons_succ, hp])
      rw [insertCount, filter_cons, hrest]
      split <;> simp

end Accepted

/-! ## Ten keys and one insert -/

/-- One insert from the hotspot. -/
def hotspotParams (hotspotRatio : ℚ) : Params where
  opCnt := 1
  rangeQueryRatio := 0
  negativeLookupRatio := 0
  insertRatio := 1
  pat := .hotspot
  hotspotRatio := hotspotRatio
  threadNum := 1
  mix := false
  blockNum := 1
  bulkloadCnt := none

def tenKeys : List UInt64 :=
  [0, 1, 2, 3, 4, 5, 6, 7, 8, 9]

theorem hotspotParams_accepted {hotspotRatio : ℚ} (h : 0 < hotspotRatio ∧ hotspotRatio ≤ 1) :
    (hotspotParams hotspotRatio).Accepted tenKeys.length := by
  refine Params.accepted_of_not_rejects
    { block := fun hblock => absurd hblock (lt_irrefl 1)
      rangeQueryRatio := ⟨le_refl (0 : ℚ), zero_le_one⟩
      negativeLookupRatio := ⟨le_refl (0 : ℚ), zero_le_one⟩
      insertRatio := ⟨zero_le_one, le_refl (1 : ℚ)⟩
      hotspotRatio := h
      pat := fun hratio => absurd zero_lt_one hratio } ?_
  have hone : arith.mulTrunc 1 1 = 1 := by decide +kernel
  have hcounts : (opCounts arith (hotspotParams hotspotRatio)).1 = 1 := by
    rw [← Params.insertCnt, Params.insertCnt_eq]
    exact hone
  rw [rejects, hcounts]
  rfl

end Workload
end TLI
