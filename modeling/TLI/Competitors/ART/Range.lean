import Mathlib.Algebra.BigOperators.Group.List.Basic
import TLI.Competitors.ART.Bound
import TLI.Competitors.ART.Map

/-!
# Range — what a range query sums up

The loop of `RangeQuery` adds the first element that is not below the lower key before it looks at
the upper key, then every element up to the upper key.  The result is the sum over the interval
exactly when the first of these elements lies in the interval, or adds nothing.
-/

namespace TLI
namespace ART

open List Lexicographic Multimap

/-- `!(ukey < loadKey(it.value))` -/
def upTo (ukey : List UInt8) (e : Element) : Bool :=
  decide (e.key ≤ ukey)

/-- What the loop adds up: the first element unseen, then those up to the upper key. -/
def loopSum (ukey : List UInt8) : List Element → UInt64
  | [] => 0
  | e :: xs => e.value + ((xs.takeWhile (upTo ukey)).map Element.value).sum

theorem loopSum_cons_cons (ukey : List UInt8) (e e' : Element) (xs : List Element) :
    loopSum ukey (e :: e' :: xs) =
      if upTo ukey e' then e.value + loopSum ukey (e' :: xs) else e.value := by
  rw [loopSum, takeWhile_cons]
  split
  · rw [map_cons, sum_cons, loopSum]
  · rw [map_nil, sum_nil, add_zero]

theorem sumValues_spec (ukey : List UInt8) (xs : List Element) : ∀ {it : Iterator}, it.At xs →
    ∃ bound, ∀ fuel, bound ≤ fuel → ∀ turns, bound ≤ turns → ∀ result,
      sumValues fuel ukey turns it result = some (result + loopSum ukey xs) := by
  induction xs with
  | nil =>
      rintro it ⟨e, pos, stack, -, -, -, hxs⟩
      cases hxs
  | cons e xs ih =>
      rintro it ⟨e, pos, stack, hvalue, hstack, hsound, hxs⟩
      cases hxs
      obtain ⟨⟨more, it'⟩, ⟨n, hn⟩, hleads⟩ := iteratorNext_leaf hsound e pos
      -- One turn of the loop adds the element and asks for the next one.
      have hturn : ∀ fuel, n ≤ fuel → ∀ turns result,
          sumValues fuel ukey (turns + 1) it result =
            if more = true ∧ ¬ ukey < ((it'.value.map Element.key).getD []) then
              sumValues fuel ukey turns it' (result + e.value)
            else some (result + e.value) := by
        intro fuel hfuel turns result
        have hnext := hn fuel hfuel
        simp only at hnext
        rw [sumValues, hvalue, hstack]
        simp only [Option.bind_eq_bind, Option.bind_some, hnext]
        rfl
      cases hrest : remaining stack with
      | nil =>
          rw [hrest, leads_nil] at hleads
          simp only at hleads
          refine ⟨n + 1, fun fuel hfuel turns hturns result => ?_⟩
          obtain ⟨turns, rfl⟩ := Nat.exists_eq_succ_of_ne_zero (by omega : turns ≠ 0)
          rw [hturn fuel (by omega), hleads, if_neg (fun h => Bool.false_ne_true h.1), loopSum,
            takeWhile_nil, map_nil, sum_nil, add_zero]
      | cons e' ys =>
          rw [hrest, Leads, if_neg (cons_ne_nil _ _)] at hleads
          obtain ⟨hmore, hat⟩ := hleads
          obtain ⟨m, hm⟩ := ih (hrest ▸ hat)
          have hvalue' : it'.value = some e' := by
            obtain ⟨x, _, _, hx, _, _, hxs⟩ := hat
            rw [hx, (cons.inj hxs).1]
          simp only at hmore
          refine ⟨max n m + 1, fun fuel hfuel turns hturns result => ?_⟩
          obtain ⟨turns, rfl⟩ := Nat.exists_eq_succ_of_ne_zero (by omega : turns ≠ 0)
          rw [hturn fuel (by omega), hmore, hvalue', Option.map_some, Option.getD_some,
            loopSum_cons_cons]
          -- The loop goes on while the next key is not above the upper one.
          by_cases hup : upTo ukey e' = true
          · rw [if_pos ⟨rfl, not_lt.2 (by simpa [upTo] using hup)⟩, if_pos hup,
              hm fuel (by omega) turns (by omega), hrest, add_assoc]
          · rw [if_neg fun h => hup (by simpa [upTo] using h.2), if_neg hup]

/-! ## The loop and the interval -/

/-- The sum over the interval misses what the loop adds unseen. -/
theorem loopSum_eq_iff {ukey : List UInt8} {xs : List Element}
    (hsorted : xs.Pairwise fun e e' => e.key < e'.key) :
    loopSum ukey xs = ((xs.takeWhile (upTo ukey)).map Element.value).sum ↔
      ∀ e, e ∈ xs.head? → e.key ≤ ukey ∨ e.value = 0 := by
  cases xs with
  | nil => simp [loopSum]
  | cons e xs =>
      rw [head?_cons, loopSum, takeWhile_cons]
      by_cases hup : e.key ≤ ukey
      · have hup' : upTo ukey e = true := decide_eq_true hup
        rw [if_pos hup', map_cons, sum_cons]
        simp [hup]
      · have hup' : ¬ upTo ukey e = true := by simpa [upTo] using hup
        have hnone : xs.takeWhile (upTo ukey) = [] := by
          cases xs with
          | nil => rfl
          | cons e' xs =>
              have hlt := (pairwise_cons.1 hsorted).1 e' mem_cons_self
              refine takeWhile_cons_of_neg ?_
              have hgt := (not_le.1 hup).trans hlt
              simpa [upTo] using hgt
        rw [if_neg hup', hnone, map_nil, sum_nil, add_zero]
        simp [hup]

def Element.toPair (e : Element) : List UInt8 × UInt64 :=
  (e.key, e.value)

/-- The interval sum over elements in order, taken from the lower key on. -/
theorem rangeSum_elements {xs : List Element} (hsorted : xs.Pairwise fun e e' => e.key < e'.key)
    (lkey ukey : List UInt8) :
    rangeSum lkey ukey ((xs.map Element.toPair : List _) : Multimap (List UInt8) UInt64) =
      (((xs.filter (wanted true lkey)).takeWhile (upTo ukey)).map Element.value).sum := by
  have hpairs : Sorted (xs.map Element.toPair) := pairwise_map.2 (hsorted.imp fun hlt => hlt.le)
  rw [rangeSum_coe_of_sorted hpairs, dropWhile_eq_filter_of_sorted hpairs, filter_map,
    takeWhile_map, map_map]
  have hwanted : ∀ e : Element, ((fun p : List UInt8 × UInt64 => decide (lkey ≤ p.1)) ∘
      Element.toPair) e = wanted true lkey e := by
    intro e
    rw [wanted, Bool.true_and, ← Bool.decide_or]
    exact decide_eq_decide.2 (by rw [le_iff_lt_or_eq, eq_comm (a := lkey)]; rfl)
  rw [filter_congr fun e _ => hwanted e]
  rfl

variable {K : Type} [LinearOrder K] [KeyType K]

/-- Encoded or not, the pairs in an interval are the same. -/
theorem rangeSum_element [LawfulKeyType K] (l u : K) (stored : List (KeyValue K)) :
    rangeSum (convert2String l) (convert2String u)
        (((stored.map element).map Element.toPair : List _) : Multimap (List UInt8) UInt64) =
      rangeSum l u (pairs stored) := by
  induction stored with
  | nil => rfl
  | cons kv stored ih =>
      rw [pairs_cons, ← Multiset.singleton_add, rangeSum_add, ← ih, rangeSum_singleton,
        map_cons, map_cons, ← Multiset.cons_coe, ← Multiset.singleton_add, rangeSum_add,
        rangeSum_singleton]
      exact congrArg (· + _) (if_congr (and_congr convert2String_le_iff convert2String_le_iff) rfl rfl)

/-! ## RangeQuery -/

/-- The query returns, whatever lies behind the encoded key, and the result is what the loop adds
up from the first element that is not below the lower key. -/
theorem rangeQuery_returns [LawfulKeyType K] {tree : Node} {stored : List (KeyValue K)}
    (h : Holds tree stored) (hfits : ∀ kv, kv ∈ stored → Fits kv.key) {l : K} (hl : Fits l) (u : K)
    (behind : Nat → UInt8) :
    Returns (fun fuel => RangeQuery fuel tree behind l u)
      (loopSum (convert2String u) ((elems tree).filter (wanted true (convert2String l)))) := by
  rcases h with ⟨rfl, rfl⟩ | ⟨hwf, hperm⟩
  · exact Returns.const 0
  · have hcomp : Comparable tree (convert2String l) := by
      intro e he
      obtain ⟨kv, hkv, rfl⟩ := mem_map.1 (hperm.mem_iff.1 he)
      exact ⟨hfits kv hkv, convert2String_prefixFree kv.key l⟩
    obtain ⟨⟨found, it⟩, ⟨n, hn⟩, hleads⟩ :=
      bound_returns hwf hl behind true (prefix_append [] _) hcomp fun _ h => absurd h not_mem_nil
    rw [remaining_nil, append_nil] at hleads
    have hquery : ∀ fuel, n ≤ fuel → RangeQuery fuel tree behind l u =
        if found = true then sumValues fuel (convert2String u) fuel it 0 else some 0 := by
      intro fuel hfuel
      have hbound := hn fuel hfuel
      simp only [length_nil] at hbound
      have hlength : keyLength (convert2String l) = (convert2String l).length :=
        Nat.mod_eq_of_lt hl
      rw [RangeQuery, if_pos hwf.present, hlength, hbound]
      rfl
    cases hxs : (elems tree).filter (wanted true (convert2String l)) with
    | nil =>
        rw [hxs, leads_nil] at hleads
        refine ⟨n, fun fuel hfuel => (hquery fuel hfuel).trans ?_⟩
        exact if_neg fun hfound => Bool.false_ne_true (hleads.symm.trans hfound)
    | cons e xs =>
        rw [hxs, Leads, if_neg (cons_ne_nil _ _)] at hleads
        obtain ⟨hfound, hat⟩ := hleads
        obtain ⟨m, hm⟩ := sumValues_spec (convert2String u) _ hat
        refine ⟨max n m, fun fuel hfuel => (hquery fuel (by omega)).trans ?_⟩
        rw [if_pos hfound, hm fuel (by omega) fuel (by omega), zero_add]

/-- The query is exact: it returns the sum over the stored pairs in the interval. -/
def RangeExact (load : Load K) (l u : K) : Prop :=
  ∃ tree, Returns load.run tree ∧
    ∀ behind, Returns (fun fuel => RangeQuery fuel tree behind l u)
      (rangeSum l u (pairs load.stored))

/-- The first stored key that is not below the lower one lies in the interval, or carries zero. -/
def FirstInside (stored : List (KeyValue K)) (l u : K) : Prop :=
  ∀ kv, kv ∈ stored → l ≤ kv.key → (∀ kv', kv' ∈ stored → l ≤ kv'.key → kv.key ≤ kv'.key) →
    kv.key ≤ u ∨ kv.value = 0

theorem wanted_iff {key : List UInt8} {e : Element} : wanted true key e = true ↔ key ≤ e.key := by
  rw [wanted, Bool.true_and, Bool.or_eq_true, decide_eq_true_eq, decide_eq_true_eq,
    le_iff_lt_or_eq, eq_comm (a := key)]

theorem firstInside_iff [LawfulKeyType K] {tree : Node} {stored : List (KeyValue K)}
    (h : Holds tree stored) (l u : K) :
    FirstInside stored l u ↔
      ∀ e, e ∈ ((elems tree).filter (wanted true (convert2String l))).head? →
        e.key ≤ convert2String u ∨ e.value = 0 := by
  have hmem : ∀ kv, kv ∈ stored → l ≤ kv.key →
      element kv ∈ (elems tree).filter (wanted true (convert2String l)) := fun kv hkv hle =>
    mem_filter.2 ⟨h.mem_elems.2 ⟨kv, hkv, rfl⟩, wanted_iff.2 (convert2String_le_iff.2 hle)⟩
  have hback : ∀ e, e ∈ (elems tree).filter (wanted true (convert2String l)) →
      ∃ kv, kv ∈ stored ∧ l ≤ kv.key ∧ element kv = e := by
    intro e he
    obtain ⟨he, hwanted⟩ := mem_filter.1 he
    obtain ⟨kv, hkv, rfl⟩ := h.mem_elems.1 he
    exact ⟨kv, hkv, convert2String_le_iff.1 (wanted_iff.1 hwanted), rfl⟩
  have hsorted := h.elems_sorted.filter (wanted true (convert2String l))
  cases hxs : (elems tree).filter (wanted true (convert2String l)) with
  | nil =>
      rw [hxs] at hmem
      simp only [head?_nil, Option.mem_def, reduceCtorEq, false_imp_iff, implies_true, iff_true]
      exact fun kv hkv hle _ => absurd (hmem kv hkv hle) not_mem_nil
  | cons e xs =>
      rw [hxs] at hmem hback hsorted
      obtain ⟨kv, hkv, hle, rfl⟩ := hback e mem_cons_self
      -- The first element belongs to the least pair from the lower key on.
      have hleast : ∀ kv', kv' ∈ stored → l ≤ kv'.key →
          element kv' = element kv ∨ kv.key < kv'.key := by
        intro kv' hkv' hle'
        rcases mem_cons.1 (hmem kv' hkv' hle') with heq | hrest
        · exact Or.inl heq
        · exact Or.inr (convert2String_lt_iff.1 ((pairwise_cons.1 hsorted).1 _ hrest))
      simp only [head?_cons, Option.mem_def, Option.some.injEq, forall_eq']
      constructor
      · intro hfirst
        refine (hfirst kv hkv hle fun kv' hkv' hle' => ?_).imp convert2String_le_iff.2 id
        rcases hleast kv' hkv' hle' with heq | hlt
        · exact (convert2String_inj.1 (congrArg Element.key heq)).ge
        · exact hlt.le
      · intro hfirst kv' hkv' hle' hmin
        rcases hleast kv' hkv' hle' with heq | hlt
        · have hkey : kv'.key = kv.key := convert2String_inj.1 (congrArg Element.key heq)
          have hvalue : kv'.value = kv.value := congrArg Element.value heq
          rw [hkey, hvalue]
          exact hfirst.imp convert2String_le_iff.1 id
        · exact absurd (hmin kv hkv hle) (not_le.2 hlt)

/-- The sum over the interval, from the elements of the tree. -/
theorem Holds.rangeSum_eq [LawfulKeyType K] {tree : Node} {stored : List (KeyValue K)}
    (h : Holds tree stored) (l u : K) :
    rangeSum l u (pairs stored) =
      ((((elems tree).filter (wanted true (convert2String l))).takeWhile
        (upTo (convert2String u))).map Element.value).sum := by
  have hpairs : (((elems tree).map Element.toPair : List _) : Multimap (List UInt8) UInt64) =
      ((stored.map element).map Element.toPair : List _) :=
    Multiset.coe_eq_coe.2 (h.elems_perm.map _)
  rw [← rangeSum_elements h.elems_sorted, hpairs, rangeSum_element]

section Exact

variable [LawfulKeyType K] {load : Load K} {l u : K}

theorem RangeExact.firstInside (hexact : RangeExact load l u) (hvalid : load.Valid)
    (hfits : ∀ kv, kv ∈ load.stored → Fits kv.key) (hl : Fits l) :
    FirstInside load.stored l u := by
  obtain ⟨tree, hreturns, hholds⟩ := run_holds hvalid hfits
  obtain ⟨tree', hreturns', hexact⟩ := hexact
  rw [hreturns'.unique hreturns] at hexact
  rw [firstInside_iff hholds, ← loopSum_eq_iff (hholds.elems_sorted.filter _),
    ← hholds.rangeSum_eq]
  exact (rangeQuery_returns hholds hfits hl u fun _ => 0).unique (hexact fun _ => 0)

theorem FirstInside.rangeExact (hfirst : FirstInside load.stored l u) (hvalid : load.Valid)
    (hfits : ∀ kv, kv ∈ load.stored → Fits kv.key) (hl : Fits l) : RangeExact load l u := by
  obtain ⟨tree, hreturns, hholds⟩ := run_holds hvalid hfits
  rw [firstInside_iff hholds, ← loopSum_eq_iff (hholds.elems_sorted.filter _),
    ← hholds.rangeSum_eq] at hfirst
  refine ⟨tree, hreturns, fun behind => ?_⟩
  rw [← hfirst]
  exact rangeQuery_returns hholds hfits hl u behind

/-- A range query is exact just when what it adds unseen belongs to the interval. -/
theorem rangeExact_iff_firstInside (hvalid : load.Valid)
    (hfits : ∀ kv, kv ∈ load.stored → Fits kv.key) (hl : Fits l) :
    RangeExact load l u ↔ FirstInside load.stored l u :=
  ⟨fun h => h.firstInside hvalid hfits hl, fun h => h.rangeExact hvalid hfits hl⟩

end Exact

theorem rangeExact_threePairs : RangeExact threePairs 4 6 :=
  (rangeExact_iff_firstInside ⟨by decide, by decide⟩ (fun kv _ => fits_uint64 kv.key)
    (fits_uint64 4)).2 (by unfold FirstInside; decide)

/-- No stored key lies in `[6, 6]`, and the value of the next one is returned. -/
theorem not_rangeExact_threePairs :
    threePairs.Valid ∧ rangeSum 6 6 (pairs threePairs.stored) = 0 ∧
      ¬ RangeExact threePairs 6 6 := by
  have hvalid : threePairs.Valid := ⟨by decide, by decide⟩
  refine ⟨hvalid, by decide, fun h => ?_⟩
  have hfirst := h.firstInside hvalid (fun kv _ => fits_uint64 kv.key) (fits_uint64 6)
  unfold FirstInside at hfirst
  exact absurd hfirst (by decide)

end ART
end TLI
