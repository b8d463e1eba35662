import TLI.Util

/-!
# ARTOLC — the result buffer of `ARTOLC::RangeQuery`

`RangeQuery` declares `uint64_t result[200]` and calls `lookupRange` with the limit
`std::size_t(-1)`, so the tree never stops early: every qualifying leaf is written to the next slot
of the buffer.  The tree is a parameter: `lookupRange lower upper` lists the leaves it writes, in
order.  A write behind the buffer is `none`.
-/

namespace TLI
namespace ARTOLC

variable {K : Type}

/-- `uint64_t result[200]` -/
def resultSize : Nat := 200

/-- `result[resultsFound] = N::getLeaf(node); resultsFound++`, leaf by leaf. -/
def fillResult : List (K × UInt64) → List (K × UInt64) → Option (List (K × UInt64))
  | result, [] => some result
  | result, leaf :: leaves =>
      if result.length < resultSize then fillResult (result ++ [leaf]) leaves else none

/-- The sum of the values of the leaves in the buffer. -/
def RangeQuery (lookupRange : K → K → List (K × UInt64)) (lowerKey upperKey : K) :
    Option UInt64 := do
  let result ← fillResult [] (lookupRange lowerKey upperKey)
  return (result.map Prod.snd).foldl (· + ·) 0

/-- The buffer holds exactly the lists of at most `resultSize` leaves. -/
theorem fillResult_eq (leaves : List (K × UInt64)) :
    ∀ result : List (K × UInt64), result.length ≤ resultSize →
      fillResult result leaves =
        if result.length + leaves.length ≤ resultSize then some (result ++ leaves) else none := by
  induction leaves with
  | nil =>
      intro result hresult
      simp [fillResult, hresult]
  | cons leaf leaves ih =>
      intro result hresult
      unfold fillResult
      by_cases hroom : result.length < resultSize
      · rw [if_pos hroom, ih _ (by simp only [List.length_append, List.length_singleton]; omega)]
        simp [Nat.add_assoc, Nat.add_comm 1]
      · rw [if_neg hroom, if_neg (by simp only [List.length_cons]; omega)]

/-- `RangeQuery` stays inside its buffer exactly when at most `resultSize` leaves qualify. -/
theorem RangeQuery_isSome_iff (lookupRange : K → K → List (K × UInt64)) (lowerKey upperKey : K) :
    (RangeQuery lookupRange lowerKey upperKey).isSome ↔
      (lookupRange lowerKey upperKey).length ≤ resultSize := by
  unfold RangeQuery
  rw [fillResult_eq _ [] (Nat.zero_le _)]
  by_cases h : (lookupRange lowerKey upperKey).length ≤ resultSize
  · simp [h]
  · simp [h]

end ARTOLC
end TLI
