import Mathlib.Data.List.Nodup
import TLI.Competitors.Records
import TLI.Workload.Split

/-!
# Verify — the `LOOKUP` check of `DoOpsCoreLoop` and the indexes that answer with a position

The generator writes the result 0 for a lookup that finds its key, and the driver then expects the
index to answer with the position of that key in the key file.  An index that stores the values of
`add_values` does, for the value is that position.  `Fast`, `PGM` and `TS` answer with the position
in the vector they were loaded with, which is the same as long as nothing below the key was left out
of the bulk load.
-/

namespace TLI
namespace Driver

open LowerBound Records

variable {K : Type} [LinearOrder K]

/-! ## Model -/

/-- The verify branch of a `LOOKUP`: does it set `run_failed`? -/
def lookupFails (keys : List K) (expected : UInt64) (lo_key : K) (idx : Nat) : Bool :=
  (decide (expected = Util.NOT_FOUND) && decide (idx ≠ Util.OVERFLOW)) ||
    (decide (expected = 0) && (decide (keys.length ≤ idx) || decide (keys[idx]? ≠ some lo_key)))

/-- The internal searches of the indexes that return positions. -/
inductive PositionIndex (K : Type)
  /-- `fast_.lower_bound` -/
  | fast (lower_bound : K → Nat)
  /-- `pgm_.find_approximate_position` with its `pos`, `lo` and `hi`, and `SearchClass::lower_bound`
  with `first`, `last`, the key and `start` -/
  | pgm (find_approximate_position : K → Nat × Nat × Nat)
      (lower_bound : Nat → Nat → K → Nat → Nat)
  /-- `ts_.GetSearchBound` with its `begin` and `end`, and `SearchClass::lower_bound` -/
  | ts (GetSearchBound : K → Nat × Nat) (lower_bound : Nat → Nat → K → Nat → Nat)

/-- The iterator the lookup inspects. -/
def PositionIndex.search : PositionIndex K → K → Nat
  | .fast lower_bound, lookup_key => lower_bound lookup_key
  | .pgm find_approximate_position lower_bound, lookup_key =>
      let (pos, lo, hi) := find_approximate_position lookup_key
      lower_bound lo hi lookup_key pos
  | .ts GetSearchBound lower_bound, lookup_key =>
      let (begin_, end_) := GetSearchBound lookup_key
      lower_bound begin_ end_ lookup_key begin_

def PositionIndex.EqualityLookup (index : PositionIndex K) (data : List (KeyValue K))
    (lookup_key : K) : Nat :=
  position data lookup_key (index.search lookup_key)

/-- The internal search finds the lower bound of every key. -/
def PositionIndex.SearchExact (index : PositionIndex K) (data : List (KeyValue K)) : Prop :=
  ∀ key, index.search key = lb data key

/-- The lookup of `key` answers with its position in the key file, and the check accepts that. -/
structure Accepted (keys : List K) (key : K) (idx : Nat) : Prop where
  lt_length : idx < keys.length
  getElem : keys[idx]? = some key
  passes : lookupFails keys 0 key idx = false

theorem accepted_iff {keys : List K} {key : K} {idx : Nat} :
    Accepted keys key idx ↔ keys[idx]? = some key := by
  constructor
  · exact Accepted.getElem
  · intro h
    rcases List.getElem?_eq_some_iff.1 h with ⟨hlt, hget⟩
    have hzero : (0 : UInt64) ≠ Util.NOT_FOUND := by decide
    exact ⟨hlt, h, by simp [lookupFails, hzero, hlt, hget]⟩

/-! ## Positions in a sorted list and in a part of it -/

/-- In a strictly sorted list a key stands behind exactly the smaller ones. -/
theorem getElem?_iff_length_filter {keys : List K} (hsort : keys.Pairwise (· < ·)) {key : K}
    (hkey : key ∈ keys) (idx : Nat) :
    keys[idx]? = some key ↔ idx = (keys.filter fun x => decide (x < key)).length := by
  induction keys generalizing idx with
  | nil => cases hkey
  | cons x xs ih =>
      have hcons := List.pairwise_cons.1 hsort
      rcases List.mem_cons.1 hkey with rfl | hmem
      · have hnone : (xs.filter fun y => decide (y < key)) = [] := by
          refine List.filter_eq_nil_iff.2 fun y hy => ?_
          simpa using (hcons.1 y hy).le
        cases idx with
        | zero => simp [hnone]
        | succ idx =>
            simp only [List.getElem?_cons_succ, List.filter_cons, lt_irrefl, decide_false,
              Bool.false_eq_true, if_false, hnone, List.length_nil, Nat.succ_ne_zero, iff_false]
            intro hget
            exact absurd (hcons.1 key (List.mem_of_getElem? hget)) (lt_irrefl key)
      · have hx : x < key := hcons.1 key hmem
        cases idx with
        | zero => simp [hx, hx.ne]
        | succ idx => simp [hx, ih hcons.2 hmem idx]

/-- A part of a strictly sorted list holds a key at its old position exactly if it lacks none of
the smaller keys. -/
theorem length_filter_eq_iff {keys ys : List K} (hsort : keys.Pairwise (· < ·))
    (hsub : ys.Sublist keys) (key : K) :
    (ys.filter fun x => decide (x < key)).length = (keys.filter fun x => decide (x < key)).length ↔
      ∀ x ∈ keys, x < key → x ∈ ys := by
  have hfilter := hsub.filter fun x => decide (x < key)
  constructor
  · intro hlen x hx hlt
    have hmem : x ∈ ys.filter fun x => decide (x < key) := by
      rw [hfilter.eq_of_length hlen]
      exact List.mem_filter.2 ⟨hx, decide_eq_true hlt⟩
    exact (List.mem_filter.1 hmem).1
  · intro hall
    have hnodup : keys.Nodup := hsort.imp fun hlt => ne_of_lt hlt
    have hback : (keys.filter fun x => decide (x < key)).Subperm
        (ys.filter fun x => decide (x < key)) := by
      refine List.subperm_of_subset (hnodup.filter _) fun x hx => ?_
      rcases List.mem_filter.1 hx with ⟨hmem, hlt⟩
      exact List.mem_filter.2 ⟨hall x hmem (of_decide_eq_true hlt), hlt⟩
    exact Nat.le_antisymm hfilter.length_le hback.length_le

/-- The lower bound of a key is the number of smaller ones. -/
theorem lb_eq_length_filter {data : List (KeyValue K)} (hsort : Ascends KeyValue.key data)
    (key : K) :
    lb data key = ((data.map KeyValue.key).filter fun x => decide (x < key)).length := by
  have hfront : (front KeyValue.key key data).filter (fun kv => decide (kv.key < key)) =
      front KeyValue.key key data :=
    List.filter_eq_self.2 fun kv hkv => decide_eq_true (lt_of_mem_front hkv)
  have hback : (back KeyValue.key key data).filter (fun kv => decide (kv.key < key)) = [] :=
    List.filter_eq_nil_iff.2 fun kv hkv => by simpa using le_of_mem_back hsort hkv
  calc
    lb data key
        = ((front KeyValue.key key data ++ back KeyValue.key key data).filter
            fun kv => decide (kv.key < key)).length := by
          rw [List.filter_append, hfront, hback, List.append_nil, lb]
    _ = ((data.map KeyValue.key).filter fun x => decide (x < key)).length := by
          rw [front_append_back, List.filter_map, List.length_map]
          rfl

/-! ## The property -/

/-- What `generate` loads an index with: a part of the key file with its values. -/
structure BulkLoad (keys : List K) (index_data : List (KeyValue K)) : Prop where
  sorted : keys.Pairwise (· < ·)
  sublist : index_data.Sublist (addValues keys)

theorem BulkLoad.keys_sublist {keys : List K} {index_data : List (KeyValue K)}
    (h : BulkLoad keys index_data) : (index_data.map KeyValue.key).Sublist keys := by
  have hsub := h.sublist.map KeyValue.key
  rwa [map_key_addValues] at hsub

theorem BulkLoad.ascends {keys : List K} {index_data : List (KeyValue K)}
    (h : BulkLoad keys index_data) : Ascends KeyValue.key index_data := by
  have hpairs : (index_data.map KeyValue.key).Pairwise (· < ·) := h.sorted.sublist h.keys_sublist
  exact (List.pairwise_map.1 hpairs).imp le_of_lt

/-- Without inserts, whatever the bulk-load count, the generator writes a part of the key file. -/
theorem bulkLoad_of_placeOps [Inhabited K] {A : Workload.Arith} {O : Workload.StdOutcomes K}
    {P : Workload.Params} {keys : List K} {totOps : List (Operation K)}
    {bulkLoads : List (KeyValue K)} (hsort : keys.Pairwise (· < ·)) (hratio : ¬ 0 < P.insertRatio)
    (h : Workload.placeOps A O P keys = some (totOps, bulkLoads)) : BulkLoad keys bulkLoads := by
  unfold Workload.placeOps Workload.loadAndInsert at h
  simp only [hratio, if_false] at h
  split at h
  · cases h
  · simp only [Option.bind_eq_bind, Option.bind_some, Option.pure_def, Option.some.injEq,
      Prod.mk.injEq] at h
    exact ⟨hsort, h.2 ▸ Workload.sampleBulkLoads_sublist O P _⟩

/-- An index that answers with the stored value is always accepted. -/
theorem accepted_value {keys : List K} (hlen : keys.length ≤ 2 ^ 64) {kv : KeyValue K}
    (hkv : kv ∈ addValues keys) : Accepted keys kv.key kv.value.toNat := by
  rw [accepted_iff]
  rcases List.mem_iff_getElem.1 hkv with ⟨i, hi, rfl⟩
  have hlt : i < keys.length := by simpa [addValues] using hi
  have hvalue : (UInt64.ofNat i).toNat = i := UInt64.toNat_ofNat_of_lt' (hlt.trans_le hlen)
  simp [addValues, hvalue, hlt]

/-- A stored key stands at its lower bound. -/
theorem position_lb {index_data : List (KeyValue K)} (hsort : Ascends KeyValue.key index_data)
    {key : K} (hkey : key ∈ index_data.map KeyValue.key) :
    position index_data key (lb index_data key) = lb index_data key := by
  rcases List.mem_map.1 hkey with ⟨kv, hkv, rfl⟩
  have hmem : kv ∈ back KeyValue.key kv.key index_data := by
    have hparts := hkv
    rw [← front_append_back KeyValue.key kv.key index_data] at hparts
    rcases List.mem_append.1 hparts with hfront | hback
    · exact absurd (lt_of_mem_front hfront) (lt_irrefl _)
    · exact hback
  cases hback : back KeyValue.key kv.key index_data with
  | nil =>
      rw [hback] at hmem
      cases hmem
  | cons first rest =>
      have hget : index_data[lb index_data kv.key]? = some first := by
        rw [← List.head?_drop, lb, LowerBound.drop_length_front, hback]
        rfl
      have hsorted : Ascends KeyValue.key (first :: rest) :=
        hback ▸ hsort.sublist (List.dropWhile_sublist _)
      have hle : first.key ≤ kv.key := by
        rw [hback] at hmem
        rcases List.mem_cons.1 hmem with rfl | hrest
        · exact le_refl _
        · exact (List.pairwise_cons.1 hsorted).1 kv hrest
      have hge : kv.key ≤ first.key := le_of_mem_back hsort (hback ▸ List.mem_cons_self)
      simp [position, hget, le_antisymm hle hge]

/-- A lookup of a stored key is accepted exactly if the bulk load leaves out no smaller key. -/
theorem accepted_iff_no_smaller_omitted {keys : List K} {index_data : List (KeyValue K)}
    (hload : BulkLoad keys index_data) (index : PositionIndex K)
    (hexact : index.SearchExact index_data) {key : K}
    (hkey : key ∈ index_data.map KeyValue.key) :
    Accepted keys key (index.EqualityLookup index_data key) ↔
      ∀ x ∈ keys, x < key → x ∈ index_data.map KeyValue.key := by
  have hmem : key ∈ keys := hload.keys_sublist.subset hkey
  rw [accepted_iff, PositionIndex.EqualityLookup, hexact key, position_lb hload.ascends hkey,
    getElem?_iff_length_filter hload.sorted hmem, lb_eq_length_filter hload.ascends,
    length_filter_eq_iff hload.sorted hload.keys_sublist]

/-- The first two of three keys are loaded. -/
theorem accepted_initial_part :
    Accepted [10, 20, 30] 20
      (PositionIndex.EqualityLookup (.fast (lb [⟨10, 0⟩, ⟨20, 1⟩])) [⟨10, 0⟩, ⟨20, 1⟩]
        (20 : UInt64)) :=
  (accepted_iff_no_smaller_omitted ⟨by decide, by decide⟩ (.fast (lb [⟨10, 0⟩, ⟨20, 1⟩]))
    (fun _ => rfl) (by decide)).2 (by decide)

/-- The last two of three keys are loaded: `20` is at position 0 of them. -/
theorem not_accepted_final_part :
    BulkLoad [10, 20, 30] ([⟨20, 1⟩, ⟨30, 2⟩] : List (KeyValue UInt64)) ∧
      PositionIndex.SearchExact (.fast (lb [⟨20, 1⟩, ⟨30, 2⟩]))
        ([⟨20, 1⟩, ⟨30, 2⟩] : List (KeyValue UInt64)) ∧
      lookupFails [10, 20, 30] 0 (20 : UInt64)
        (PositionIndex.EqualityLookup (.fast (lb [⟨20, 1⟩, ⟨30, 2⟩])) [⟨20, 1⟩, ⟨30, 2⟩] 20) =
          true :=
  ⟨⟨by decide, by decide⟩, fun _ => rfl, by decide⟩

end Driver
end TLI
