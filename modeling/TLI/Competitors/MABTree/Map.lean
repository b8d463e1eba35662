import TLI.Competitors.MABTree.BulkLoad
import TLI.Competitors.MABTree.Insert
import TLI.Competitors.MABTree.Query

/-!
# Map — the tree is a sorted multimap, whatever the arithmetic predicts

`Build` makes a tree that holds the loaded pairs, and each `Insert` puts its pair at the lower bound
of its key.  Lookups, range queries and walks of the leaf chain answer from what the tree holds.
-/

namespace TLI
namespace MABTree

open List LowerBound Multimap

variable {K : Type} [LinearOrder K]

/-! ## Build and Insert -/

/-- The tree after `Build` and the calls of `Insert`. -/
def run (p : Params K) (data inserts : List (KeyValue K)) : Option (Tree K) := do
  let tree ← Build p data
  inserts.foldlM (Insert p) tree

theorem foldlM_Insert (p : Params K) (inserts : List (KeyValue K)) :
    ∀ {tree : Tree K} {xs : List (KeyValue K)}, Holds p.traits tree xs →
      ∃ tree' ys, inserts.foldlM (Insert p) tree = some tree' ∧ Holds p.traits tree' ys ∧
        ys ~ xs ++ inserts := by
  induction inserts with
  | nil => exact fun {tree xs} h => ⟨tree, xs, rfl, h, by rw [append_nil]⟩
  | cons kv inserts ih =>
      intro tree xs h
      obtain ⟨tree', hinsert, hholds⟩ := insert_start_spec p h kv
      obtain ⟨tree'', ys, hinserts, hholds', hperm⟩ := ih hholds
      refine ⟨tree'', ys, ?_, hholds', hperm.trans ?_⟩
      · simp only [foldlM_cons, Insert, hinsert, Option.bind_eq_bind, Option.bind_some]
        exact hinserts
      · exact ((insertLower_perm kv xs).append_right inserts).trans perm_middle.symm

theorem run_spec (p : Params K) {data : List (KeyValue K)} (hsorted : Ascends KeyValue.key data)
    (inserts : List (KeyValue K)) :
    ∃ tree ys, run p data inserts = some tree ∧ Holds p.traits tree ys ∧ ys ~ data ++ inserts := by
  obtain ⟨tree, hbuild, hholds⟩ := bulk_load_spec p hsorted
  obtain ⟨tree', ys, hinserts, hholds', hperm⟩ := foldlM_Insert p inserts hholds
  refine ⟨tree', ys, ?_, hholds', hperm⟩
  simp only [run, Build, hbuild, Option.bind_eq_bind, Option.bind_some]
  exact hinserts

/-! ## A sorted multimap -/

/-- Every query is answered from the stored pairs, and the leaf chain holds them in order. -/
structure IsMultimap (p : Params K) (tree : Tree K) (stored : List (KeyValue K)) : Prop where
  found : ∀ k, (∃ kv, kv ∈ stored ∧ kv.key = k) →
    ∃ kv, kv ∈ stored ∧ kv.key = k ∧ EqualityLookup p tree k = some kv.value
  absent : ∀ k, (¬ ∃ kv, kv ∈ stored ∧ kv.key = k) →
    EqualityLookup p tree k = some Util.NOT_FOUND
  range : ∀ l u, Returns (fun fuel => RangeQuery fuel p tree l u) (rangeSum l u (pairs stored))
  walk : ∃ xs, Returns (fun turns => walk tree.store turns tree.store.headleaf) xs ∧
    Ascends KeyValue.key xs ∧ xs ~ stored

section Answers

variable {t : Traits} {p : Params K} {tree : Tree K} {xs : List (KeyValue K)}

/-- The first element from the key on decides whether the key is stored. -/
theorem mem_key_iff (hsorted : Ascends KeyValue.key xs) (k : K) :
    (∃ kv, kv ∈ xs ∧ kv.key = k) ↔ ∃ kv, kv ∈ (back KeyValue.key k xs).head? ∧ kv.key = k := by
  have hmem : ∀ kv, kv ∈ xs ↔ kv ∈ front KeyValue.key k xs ∨ kv ∈ back KeyValue.key k xs := by
    intro kv
    rw [← mem_append, front_append_back]
  constructor
  · rintro ⟨kv, hkv, rfl⟩
    have hback := ((hmem kv).1 hkv).resolve_left fun hfront =>
      lt_irrefl _ (lt_of_mem_front hfront)
    cases hcons : back KeyValue.key kv.key xs with
    | nil => exact absurd (hcons ▸ hback) not_mem_nil
    | cons y ys =>
        refine ⟨y, rfl, le_antisymm ?_ (le_of_mem_back hsorted (hcons ▸ mem_cons_self))⟩
        have hsorted' : Ascends KeyValue.key (y :: ys) :=
          hcons ▸ hsorted.sublist (dropWhile_sublist _)
        rcases mem_cons.1 (hcons ▸ hback : kv ∈ y :: ys) with rfl | hrest
        · exact le_rfl
        · exact (pairwise_cons.1 hsorted').1 kv hrest
  · rintro ⟨kv, hkv, hkey⟩
    exact ⟨kv, (hmem kv).2 (.inr (mem_of_mem_head? hkv)), hkey⟩

theorem Holds.found (h : Holds t tree xs) {k : K} (hk : ∃ kv, kv ∈ xs ∧ kv.key = k) :
    ∃ kv, kv ∈ xs ∧ kv.key = k ∧ EqualityLookup p tree k = some kv.value := by
  obtain ⟨kv, hkv, hkey⟩ := (mem_key_iff h.sorted k).1 hk
  refine ⟨kv, (dropWhile_sublist _).subset (mem_of_mem_head? hkv), hkey, ?_⟩
  rw [EqualityLookup_spec h]
  cases hcons : back KeyValue.key k xs with
  | nil => simp [hcons] at hkv
  | cons y ys =>
      rw [hcons, head?_cons, Option.mem_some_iff] at hkv
      rw [answer, hkv, if_pos hkey]

theorem Holds.absent (h : Holds t tree xs) {k : K} (hk : ¬ ∃ kv, kv ∈ xs ∧ kv.key = k) :
    EqualityLookup p tree k = some Util.NOT_FOUND := by
  rw [mem_key_iff h.sorted] at hk
  rw [EqualityLookup_spec h]
  cases hcons : back KeyValue.key k xs with
  | nil => rfl
  | cons y ys =>
      rw [hcons, head?_cons] at hk
      rw [answer, if_neg fun hkey => hk ⟨y, rfl, hkey⟩]

/-- The scan adds up the pairs of the interval. -/
theorem Holds.range (h : Holds t tree xs) (l u : K) :
    Returns (fun fuel => RangeQuery fuel p tree l u) (rangeSum l u (pairs xs)) := by
  have hpairs : Multimap.Sorted (xs.map KeyValue.toPair) := pairwise_map.2 h.sorted
  have hquery := RangeQuery_spec (p := p) h l u
  rw [pairs, rangeSum_coe_of_sorted hpairs, dropWhile_map, takeWhile_map, map_map]
  exact hquery

theorem Holds.isMultimap (h : Holds t tree xs) {stored : List (KeyValue K)} (hperm : xs ~ stored) :
    IsMultimap p tree stored := by
  have hmem : ∀ k, (∃ kv, kv ∈ stored ∧ kv.key = k) ↔ ∃ kv, kv ∈ xs ∧ kv.key = k := by
    intro k
    simp only [hperm.mem_iff]
  refine ⟨fun k hk => ?_, fun k hk => h.absent ((hmem k).not.1 hk), fun l u => ?_,
    ⟨xs, walk_returns h, h.sorted, hperm⟩⟩
  · obtain ⟨kv, hkv, hkey, hlookup⟩ := h.found (p := p) ((hmem k).1 hk)
    exact ⟨kv, hperm.mem_iff.1 hkv, hkey, hlookup⟩
  · rw [show pairs stored = pairs xs from Multiset.coe_eq_coe.2 (hperm.symm.map _)]
    exact h.range l u

end Answers

/-- The predictions are arbitrary: `p` may hold any arithmetic. -/
theorem isMultimap_run (p : Params K) {data : List (KeyValue K)}
    (hsorted : data.Pairwise fun kv kv' => kv.key ≤ kv'.key) (inserts : List (KeyValue K)) :
    ∃ tree, run p data inserts = some tree ∧ IsMultimap p tree (data ++ inserts) := by
  obtain ⟨tree, xs, hrun, hholds, hperm⟩ := run_spec p hsorted inserts
  exact ⟨tree, hrun, hholds.isMultimap hperm⟩

/-- Small nodes, and predictions that are all wrong. -/
def smallParams : Params UInt64 where
  traits := ⟨8, 8, 1, le_rfl, le_rfl⟩
  arithmetic := ⟨fun _ _ _ _ _ => -7, fun _ _ _ => 3⟩
  search := ⟨fun window key _ => window.findIdx fun k => decide (key ≤ k), fun _ _ => rfl⟩

theorem isMultimap_run_smallParams :
    ∃ tree, run smallParams [⟨1, 10⟩, ⟨4, 40⟩, ⟨4, 41⟩] [⟨4, 42⟩, ⟨0, 0⟩] = some tree ∧
      IsMultimap smallParams tree
        ([⟨1, 10⟩, ⟨4, 40⟩, ⟨4, 41⟩] ++ [⟨4, 42⟩, ⟨0, 0⟩]) :=
  isMultimap_run smallParams (by decide) _

end MABTree
end TLI
