import TLI.Competitors.DynamicPGM.Insert

/-!
# Map — what the index keeps of the pairs it is given

As long as no merge meets a key twice, every pair loaded or inserted is visited from the lower
bound of its key on and counted in range sums.  A merge that meets a key twice drops a pair.
-/

namespace TLI
namespace DynamicPGM

open DynamicPGMIndex List LowerBound Multimap PartitionPoint Searches

/-! ## Template arguments -/

section Template

variable {K V : Type} [LinearOrder K]

/-- The windows of an index built over a sorted level are right, and so is the search in them. -/
structure Template.Sound [Inhabited K] (P : Template K V) : Prop where
  search : SearchSound P
  window : ∀ level key, level ≠ [] → Ascends Item.key level →
    Window level key (P.find_approximate_position (P.build level) key)

/-- The search classes that do not look at the bits of a key are right. -/
theorem searchSound_of_class {P : Template K V}
    (h : P.lower_bound = BranchingBinarySearch.lower_bound defaultLess ∨
      P.lower_bound = LinearSearch.lower_bound defaultLess ∨
      P.lower_bound = ExponentialSearch.lower_bound defaultLess) : SearchSound P := by
  intro at_ key first last start hsorted hfirst hlast
  have hsplits : Splits (beforeLower defaultLess at_ key) first last := by
    intro i j hi hij hj hbefore
    have hle := hsorted i j hi hij hj
    simp only [beforeLower, defaultLess, decide_eq_true_eq, decide_eq_false_iff_not] at *
    exact (not_lt.1 hle).trans_lt hbefore
  rcases h with h | h | h <;> rw [h]
  · exact BranchingBinarySearch.bound_boundary hsplits hfirst hlast
  · exact LinearSearch.bound_boundary hsplits hfirst hlast
  · exact ExponentialSearch.bound_boundary hsplits (fun _ _ _ => rfl) hfirst hlast

end Template

/-! ## The load -/

section Load

variable {K V : Type} [LinearOrder K] {P : Template K V}

/-- `used_levels` empty levels. -/
def vacant (P : Template K V) (used_levels : Nat) : DynamicPGMIndex P :=
  { used_levels
    data := List.replicate (used_levels - min_level) []
    pgm := List.replicate (used_levels - MinIndexedLevel) P.empty }

omit [LinearOrder K] in
theorem get_level_vacant (P : Template K V) (used_levels i : Nat) :
    (vacant P used_levels).get_level i = [] := by
  rw [get_level, vacant, getD_eq_getElem?_getD, getElem?_replicate]
  split <;> rfl

omit [LinearOrder K] in
/-- A load of more than `2^14` pairs reaches the last level that is reserved. -/
theorem load_eq {items : List (K × V)} (hlen : 2 ^ 14 < items.length) :
    load P items = some (((vacant P (Nat.clog 2 items.length + 1)).setLevel
      (Nat.clog 2 items.length) (items.map Item.ofPair)).setPgm (Nat.clog 2 items.length)
        (P.build (items.map Item.ofPair))) := by
  have hclog : 14 < Nat.clog 2 items.length := (Nat.lt_clog_iff_pow_lt (by decide)).2 hlen
  have hnil : items ≠ [] := by
    rintro rfl
    exact absurd hlen (Nat.not_lt_zero _)
  have hlevels : ¬ Nat.clog 2 items.length + 1 ≤ max_fully_allocated_level := by
    have hmax : max_fully_allocated_level = 15 := rfl
    omega
  rw [load, if_neg hnil]
  simp only [if_neg hlevels, Nat.add_sub_cancel, Option.some_inj]
  rw [setPgm]
  split
  · rfl
  · rename_i hsmall
    have hzero : Nat.clog 2 items.length + 1 - MinIndexedLevel = 0 := by omega
    simp [vacant, setLevel, hzero]

omit [LinearOrder K] in
/-- A smaller load reserves memory for a level that does not exist. -/
theorem load_eq_none {items : List (K × V)} (hlen : items.length ≤ 2 ^ 14) :
    load P items = none := by
  have hclog : Nat.clog 2 items.length ≤ 14 := Nat.clog_le_of_le_pow hlen
  have hlevels : Nat.clog 2 items.length + 1 ≤ max_fully_allocated_level := Nat.succ_le_succ hclog
  rw [load]
  split
  · rfl
  · simp only [if_pos hlevels]

theorem load_spec {items : List (K × V)} (hlen : 2 ^ 14 < items.length)
    (hsorted : Ascends Prod.fst items) :
    ∃ s, load P items = some s ∧ s.Valid ∧ s.stored = items.map Item.ofPair ∧
      ∀ i, i ≤ 14 → s.get_level i = [] := by
  refine ⟨_, load_eq hlen, ?_⟩
  have hclog : 14 < Nat.clog 2 items.length := (Nat.lt_clog_iff_pow_lt (by decide)).2 hlen
  have hpow : items.length ≤ 2 ^ Nat.clog 2 items.length := Nat.le_pow_clog (by decide) _
  generalize Nat.clog 2 items.length = last at hclog hpow ⊢
  have hmin : min_level = 6 := rfl
  generalize hs : ((vacant P (last + 1)).setLevel last (items.map Item.ofPair)).setPgm last
    (P.build (items.map Item.ofPair)) = s
  have hused : s.used_levels = last + 1 := by rw [← hs, used_setPgm]; rfl
  have hself : s.get_level last = items.map Item.ofPair := by
    rw [← hs, get_level_setPgm]
    refine get_level_setLevel_self _ _ _ ?_
    rw [vacant, length_replicate]
    omega
  have hother : ∀ i, i - min_level ≠ last - min_level → s.get_level i = [] := by
    intro i hi
    rw [← hs, get_level_setPgm, get_level_setLevel_of_ne _ _ _ _ hi.symm]
    exact get_level_vacant P _ i
  -- All items are on one level.
  have hlevel : ∀ i, s.get_level i = [] ∨ s.get_level i = items.map Item.ofPair := by
    intro i
    by_cases hi : i - min_level = last - min_level
    · refine .inr ?_
      rw [← hself, get_level, hi, get_level]
    · exact .inl (hother i hi)
  refine ⟨⟨⟨⟨?_, ?_⟩, fun i => ?_, fun i => ?_, fun i hi hlt hne => ?_⟩, ?_, ?_,
    fun i hi hlt => .inl (hother i ?_), ?_, ?_⟩, ?_, fun i hi => hother i (by omega)⟩
  · rw [hused, ← hs, data_setPgm, length_data_setLevel, vacant, length_replicate]
    omega
  · rw [hused, ← hs, length_pgm_setPgm, pgm_setLevel, vacant, length_replicate]
  · rcases hlevel i with heq | heq <;> rw [heq]
    · exact Pairwise.nil
    · exact pairwise_map.2 hsorted
  · rcases hlevel i with heq | heq <;> rw [heq]
    · exact fun x hx => absurd hx not_mem_nil
    · intro x hx
      obtain ⟨p, -, rfl⟩ := mem_map.1 hx
      rfl
  · have heq : i = last := by
      by_contra hneq
      exact hne (hother i (by omega))
    rw [heq, hself, ← hs]
    refine get_pgm_setPgm_self _ _ _ (heq ▸ hi) ?_
    rw [pgm_setLevel, vacant, length_replicate]
    omega
  · omega
  · rw [hother _ (by omega)]
    exact Nat.zero_le _
  · omega
  · rw [hused, Nat.add_sub_cancel, hself]
    intro hnil
    rw [map_eq_nil_iff.1 hnil] at hlen
    exact absurd hlen (Nat.not_lt_zero _)
  · rw [hused, Nat.add_sub_cancel, hself, length_map]
    exact hpow
  · have hcount : last + 1 - min_level = last - min_level + 1 := by omega
    have hlast : min_level + (last - min_level) = last := by omega
    rw [stored, hused, hcount, range'_1_concat, flatMap_append, flatMap_singleton, hlast, hself,
      flatMap_eq_nil_iff.2 fun i hi => hother i ?_, nil_append]
    rw [mem_range'_1] at hi
    omega

end Load

/-! ## Nothing is lost -/

section Run

variable {K : Type} [LinearOrder K] [Inhabited K] {P : Template K UInt64}

/-- The index answers from `held`: the iterator visits every pair from a key on once, in the order
of the keys, and a range query adds up the values. -/
structure Keeps (pgm_ : DynamicPGMIndex P) (held : List (KeyValue K)) : Prop where
  walk : ∀ k, ∃ visited, Returns (fun fuel => pgm_.walk fuel (pgm_.lower_bound k)) visited ∧
    visited.map (fun v => v.2.toPair) ~
      (held.map KeyValue.toPair).filter (fun p => decide (k ≤ p.1)) ∧
    visited.Pairwise fun v w => v.2.key ≤ w.2.key
  range : ∀ l u, Returns (RangeQuery pgm_ l u) (rangeSum l u (pairs held))

/-- No insert of the run finds a full buffer and a key twice in the parts it merges. -/
def SpreadRun (pgm_ : DynamicPGMIndex P) : List (KeyValue K) → Prop
  | [] => True
  | kv :: rest => pgm_.Spread kv.key ∧ ∀ pgm_', Insert pgm_ kv = some pgm_' → SpreadRun pgm_' rest

theorem DynamicPGMIndex.Coherent.walkable (hP : P.Sound) {pgm_ : DynamicPGMIndex P}
    (h : pgm_.Coherent) : Walkable pgm_ := by
  refine ⟨h.ascends, h.alive, fun i key hi hused hne => ?_⟩
  rw [h.pgm_eq i hi hused hne]
  exact hP.window _ key hne (h.ascends i)

/-- A sorted index answers from what its levels hold. -/
theorem keeps_of_stored (hsearch : SearchSound P) {pgm_ : DynamicPGMIndex P} (h : Walkable pgm_)
    {held : List (KeyValue K)} (hstored : pgm_.stored.map Item.toPair ~ held.map KeyValue.toPair) :
    Keeps pgm_ held := by
  have hfrom : ∀ k, ∃ visited, Returns (fun fuel => pgm_.walk fuel (pgm_.lower_bound k)) visited ∧
      visited.map (fun v => v.2.toPair) ~
        (held.map KeyValue.toPair).filter (fun p => decide (k ≤ p.1)) ∧
      visited.Pairwise fun v w => v.2.key ≤ w.2.key := by
    intro k
    obtain ⟨visited, hwalk, hperm, hsorted⟩ := lower_bound_walks hsearch h k
    rw [Ascends, pairwise_map] at hsorted
    refine ⟨visited, hwalk, ?_, hsorted⟩
    calc
      visited.map (fun v => v.2.toPair) = (visited.map Prod.snd).map Item.toPair := by
          rw [map_map]
          rfl
      _ ~ (pgm_.stored.filter fun x => decide (k ≤ x.key)).map Item.toPair := hperm.map _
      _ = (pgm_.stored.map Item.toPair).filter fun p => decide (k ≤ p.1) := by
          rw [filter_map]
          rfl
      _ ~ (held.map KeyValue.toPair).filter fun p => decide (k ≤ p.1) := hstored.filter _
  refine ⟨hfrom, fun l u => ?_⟩
  obtain ⟨visited, ⟨bound, hwalk⟩, hperm, hsorted⟩ := hfrom l
  refine ⟨bound, fun fuel hfuel => ?_⟩
  have hsum := sumUpTo_of_walk u fuel 0 (hwalk fuel hfuel)
  have hpairs : Multimap.Sorted (visited.map fun v => v.2.toPair) := pairwise_map.2 hsorted
  have hall : (visited.map fun v => v.2.toPair).dropWhile (fun p => decide (p.1 < l)) =
      visited.map fun v => v.2.toPair := by
    rw [dropWhile_eq_filter_of_sorted hpairs]
    exact filter_eq_self.2 fun p hp => (mem_filter.1 (hperm.subset hp)).2
  have hrange : rangeSum l u (pairs held) =
      (((visited.map fun v => v.2.toPair).takeWhile fun p => decide (p.1 ≤ u)).map
        Prod.snd).sum := by
    rw [← rangeSum_filter_le, pairs, Multiset.filter_coe, ← Multiset.coe_eq_coe.2 hperm,
      rangeSum_coe_of_sorted hpairs, hall]
  rw [RangeQuery, hsum, hrange, takeWhile_map, takeWhile_map, map_map, map_map, zero_add]
  rfl

omit [LinearOrder K] [Inhabited K] in
theorem length_stored_eq {pgm_ : DynamicPGMIndex P} {held : List (KeyValue K)}
    (h : pgm_.stored.map Item.toPair ~ held.map KeyValue.toPair) :
    pgm_.stored.length = held.length := by
  rw [← length_map (f := Item.toPair), h.length_eq, length_map]

/-- Some key is not above any of the keys held. -/
theorem exists_key_le (held : List (KeyValue K)) : ∃ k, ∀ kv ∈ held, k ≤ kv.key := by
  induction held with
  | nil => exact ⟨default, fun _ h => absurd h not_mem_nil⟩
  | cons kv held ih =>
      obtain ⟨k, hk⟩ := ih
      refine ⟨min k kv.key, fun kv' h => ?_⟩
      rcases mem_cons.1 h with rfl | h
      · exact min_le_right _ _
      · exact (min_le_left _ _).trans (hk kv' h)

/-- An index with fewer items than it was given misses some in a walk. -/
theorem not_keeps_of_length_lt (hsearch : SearchSound P) {pgm_ : DynamicPGMIndex P}
    (h : Walkable pgm_) {held : List (KeyValue K)} (hlt : pgm_.stored.length < held.length) :
    ¬ Keeps pgm_ held := by
  intro hkeeps
  obtain ⟨k, hk⟩ := exists_key_le held
  obtain ⟨visited, hwalk, hperm, -⟩ := hkeeps.walk k
  obtain ⟨visited', hwalk', hperm', -⟩ := lower_bound_walks hsearch h k
  rw [hwalk'.unique hwalk] at hperm'
  have hall : (held.map KeyValue.toPair).filter (fun p => decide (k ≤ p.1)) =
      held.map KeyValue.toPair := by
    refine filter_eq_self.2 fun p hp => ?_
    obtain ⟨kv, hkv, rfl⟩ := mem_map.1 hp
    exact decide_eq_true (hk kv hkv)
  have hlength := hperm.length_eq
  have hlength' := hperm'.length_eq
  rw [hall, length_map, length_map] at hlength
  rw [length_map] at hlength'
  have hfilter := length_filter_le (fun x => decide (k ≤ x.key)) pgm_.stored
  omega

omit [LinearOrder K] [Inhabited K] in
theorem toPair_injective {kv kv' : KeyValue K} (h : kv.toPair = kv'.toPair) : kv = kv' := by
  cases kv
  cases kv'
  rw [KeyValue.mk.injEq]
  exact ⟨congrArg Prod.fst h, congrArg Prod.snd h⟩

/-- Every state of a run of new and different pairs answers from all pairs so far, exactly when no
merge of the run meets a key twice. -/
theorem keeps_iff_spreadRun (hP : P.Sound) {inserts : List (KeyValue K)} :
    ∀ {pgm_ : DynamicPGMIndex P} {held : List (KeyValue K)}, pgm_.Valid →
      pgm_.stored.map Item.toPair ~ held.map KeyValue.toPair → inserts.Nodup →
      (∀ x ∈ pgm_.get_level min_level, ∀ kv ∈ inserts, x.toPair ≠ kv.toPair) →
      ((∀ n, ∃ pgm_', (inserts.take n).foldlM Insert pgm_ = some pgm_' ∧
        Keeps pgm_' (held ++ inserts.take n)) ↔ SpreadRun pgm_ inserts) := by
  induction inserts with
  | nil =>
      intro pgm_ held hvalid hstored _ _
      refine ⟨fun _ => trivial, fun _ n => ?_⟩
      rw [take_nil, append_nil]
      exact ⟨pgm_, rfl, keeps_of_stored hP.search (hvalid.walkable hP) hstored⟩
  | cons kv rest ih =>
      intro pgm_ held hvalid hstored hnodup hnew
      obtain ⟨hkv, hrest⟩ := nodup_cons.1 hnodup
      obtain ⟨pgm₁, hinsert, hcoherent, hgood, hbad⟩ :=
        insert_spec hvalid fun x hx => hnew x hx kv mem_cons_self
      have hstep : Insert pgm_ kv = some pgm₁ := hinsert
      have hrun : ∀ n, ((kv :: rest).take (n + 1)).foldlM Insert pgm_ =
          (rest.take n).foldlM Insert pgm₁ := by
        intro n
        rw [take_succ_cons, foldlM_cons, hstep]
        rfl
      have hheld : ∀ n, held ++ (kv :: rest).take (n + 1) = held ++ [kv] ++ rest.take n := by
        intro n
        rw [take_succ_cons, append_assoc, singleton_append]
      have hcons : SpreadRun pgm_ (kv :: rest) ↔ pgm_.Spread kv.key ∧ SpreadRun pgm₁ rest := by
        refine ⟨fun h => ⟨h.1, h.2 pgm₁ hstep⟩, fun h => ⟨h.1, fun pgm_' h' => ?_⟩⟩
        rw [hstep, Option.some_inj] at h'
        exact h' ▸ h.2
      rw [hcons]
      by_cases hspread : pgm_.Spread kv.key
      · obtain ⟨hvalid₁, hstored₁, hbuffer₁⟩ := hgood hspread
        have hheld₁ : pgm₁.stored.map Item.toPair ~ (held ++ [kv]).map KeyValue.toPair := by
          rw [map_append]
          exact (hstored₁.map Item.toPair).trans ((hstored.cons _).trans
            (perm_append_singleton _ _).symm)
        have hnew₁ : ∀ x ∈ pgm₁.get_level min_level, ∀ kv' ∈ rest, x.toPair ≠ kv'.toPair := by
          intro x hx kv' hkv' hpair
          rcases hbuffer₁ x hx with heq | hx
          · exact hkv (toPair_injective (heq ▸ hpair) ▸ hkv')
          · exact hnew x hx kv' (mem_cons_of_mem kv hkv') hpair
        rw [← ih hvalid₁ hheld₁ hrest hnew₁]
        refine ⟨fun h => ⟨hspread, fun n => ?_⟩, fun h n => ?_⟩
        · rw [← hrun, ← hheld]
          exact h (n + 1)
        · cases n with
          | zero =>
              refine ⟨pgm_, rfl, ?_⟩
              rw [take_zero, append_nil]
              exact keeps_of_stored hP.search (hvalid.walkable hP) hstored
          | succ n =>
              rw [hrun, hheld]
              exact h.2 n
      · refine ⟨fun h => ?_, fun h => absurd h.1 hspread⟩
        -- The first insert loses a pair.
        obtain ⟨pgm_', hone, hkeeps⟩ := h 1
        rw [hrun, take_zero] at hone
        cases hone
        have hlt := hbad hspread
        rw [length_stored_eq hstored] at hlt
        refine absurd hkeeps (not_keeps_of_length_lt hP.search (hcoherent.walkable hP) ?_)
        rw [hheld, take_zero, append_nil, length_append, length_singleton]
        exact hlt

/-- The load succeeds, and every state of the run answers from all pairs loaded and inserted so
far. -/
def KeepsDuplicates (P : Template K UInt64) (data inserts : List (KeyValue K)) : Prop :=
  ∃ pgm_, Build P data = some pgm_ ∧
    ∀ n, ∃ pgm_', (inserts.take n).foldlM Insert pgm_ = some pgm_' ∧
      Keeps pgm_' (data ++ inserts.take n)

/-- For a run of different pairs this is so exactly when more than `2^14` pairs are loaded and no
merge meets a key twice. -/
theorem keepsDuplicates_iff (hP : P.Sound) {data inserts : List (KeyValue K)}
    (hsorted : Ascends KeyValue.key data) (hnodup : inserts.Nodup) :
    KeepsDuplicates P data inserts ↔
      2 ^ 14 < data.length ∧ ∀ pgm_, Build P data = some pgm_ → SpreadRun pgm_ inserts := by
  rcases Nat.lt_or_ge (2 ^ 14) data.length with hlen | hsmall
  · have hpairs : Ascends Prod.fst (data.map KeyValue.toPair) := pairwise_map.2 hsorted
    obtain ⟨pgm_, hload, hvalid, hstored, hempty⟩ :=
      load_spec (P := P) (by rwa [length_map]) hpairs
    have hheld : pgm_.stored.map Item.toPair ~ data.map KeyValue.toPair := by
      rw [hstored, map_map, map_map]
      exact Perm.refl _
    have hbuild : Build P data = some pgm_ := hload
    have hiff := keeps_iff_spreadRun hP hvalid hheld hnodup fun x hx =>
      absurd (hempty min_level (by decide) ▸ hx) not_mem_nil
    constructor
    · rintro ⟨pgm_', hbuild', hkeeps⟩
      rw [hbuild, Option.some_inj] at hbuild'
      subst hbuild'
      refine ⟨hlen, fun pgm_' hbuild' => ?_⟩
      rw [hbuild, Option.some_inj] at hbuild'
      exact hbuild' ▸ hiff.1 hkeeps
    · rintro ⟨-, hspread⟩
      exact ⟨pgm_, hbuild, hiff.2 (hspread pgm_ hbuild)⟩
  · refine ⟨?_, fun h => absurd h.1 (not_lt.2 hsmall)⟩
    rintro ⟨pgm_, hbuild, -⟩
    rw [Build, load_eq_none (by rwa [length_map])] at hbuild
    cases hbuild

/-! ## Filling the buffer -/

omit [Inhabited K] in
/-- Inserts that the buffer has room for merge nothing and leave all other levels alone. -/
theorem fill_buffer {inserts : List (KeyValue K)} :
    ∀ {pgm_ : DynamicPGMIndex P}, pgm_.Valid → inserts.Nodup →
      (∀ x ∈ pgm_.get_level min_level, ∀ kv ∈ inserts, x.toPair ≠ kv.toPair) →
      (pgm_.get_level min_level).length + inserts.length ≤ first_level_max_size →
      ∃ pgm_', inserts.foldlM Insert pgm_ = some pgm_' ∧ pgm_'.Valid ∧
        (pgm_'.get_level min_level).map Item.toPair ~
          inserts.map KeyValue.toPair ++ (pgm_.get_level min_level).map Item.toPair ∧
        (∀ i, min_level < i → pgm_'.get_level i = pgm_.get_level i) ∧ SpreadRun pgm_ inserts := by
  induction inserts with
  | nil =>
      intro pgm_ hvalid _ _ _
      exact ⟨pgm_, rfl, hvalid, Perm.refl _, fun _ _ => rfl, trivial⟩
  | cons kv rest ih =>
      intro pgm_ hvalid hnodup hnew hlen
      obtain ⟨hkv, hrest⟩ := nodup_cons.1 hnodup
      rw [length_cons] at hlen
      have hroom : (pgm_.get_level min_level).length < first_level_max_size := by omega
      have hstep : Insert pgm_ kv = some (pgm_.buffered kv.toPair) :=
        insert_of_room hvalid (fun x hx => hnew x hx kv mem_cons_self) hroom
      have hperm : (pgm_.buffered kv.toPair).get_level min_level ~
          Item.ofPair kv.toPair :: pgm_.get_level min_level := by
        rw [hvalid.get_level_buffered]
        exact insertLower_perm _ _
      -- The inserted pairs differ from each other, so the rest is still new.
      have hnew' : ∀ x ∈ (pgm_.buffered kv.toPair).get_level min_level, ∀ kv' ∈ rest,
          x.toPair ≠ kv'.toPair := by
        intro x hx kv' hkv' hpair
        rcases mem_cons.1 (hperm.subset hx) with rfl | hx
        · exact hkv (toPair_injective hpair ▸ hkv')
        · exact hnew x hx kv' (mem_cons_of_mem kv hkv') hpair
      obtain ⟨pgm_', hrun, hvalid', hbuffer, hlevels, hspread⟩ :=
        ih (hvalid.buffered _ hroom) hrest hnew' (by rw [hperm.length_eq, length_cons]; omega)
      refine ⟨pgm_', ?_, hvalid', hbuffer.trans ?_, fun i hi =>
        (hlevels i hi).trans (get_level_buffered_of_gt hi),
        fun hfull => absurd hroom hfull, fun pgm₁ h => ?_⟩
      · rw [foldlM_cons, hstep]
        exact hrun
      · rw [map_cons, cons_append]
        exact ((hperm.map Item.toPair).append_left _).trans perm_middle
      · rw [hstep, Option.some_inj] at h
        exact h ▸ hspread

omit [Inhabited K] in
theorem SpreadRun.append {xs ys : List (KeyValue K)} :
    ∀ {pgm_ pgm_' : DynamicPGMIndex P}, SpreadRun pgm_ (xs ++ ys) →
      xs.foldlM Insert pgm_ = some pgm_' → SpreadRun pgm_' ys := by
  induction xs with
  | nil =>
      intro pgm_ pgm_' h hrun
      cases hrun
      exact h
  | cons kv xs ih =>
      intro pgm_ pgm_' h hrun
      rw [foldlM_cons] at hrun
      obtain ⟨pgm₁, hstep, hrest⟩ := Option.bind_eq_some_iff.1 hrun
      exact ih (h.2 pgm₁ hstep) hrest

omit [Inhabited K] in
/-- The insert that finds the first buffer full moves everything to the level behind it. -/
theorem fill_level {pgm_ : DynamicPGMIndex P} (hvalid : pgm_.Valid) (hfull : pgm_.Full)
    (hempty : pgm_.get_level (1 + min_level) = []) {kv : KeyValue K}
    (hnew : ∀ x ∈ pgm_.get_level min_level, x.toPair ≠ kv.toPair) :
    ∃ pgm_', Insert pgm_ kv = some pgm_' ∧ pgm_'.Valid ∧ pgm_'.get_level min_level = [] ∧
      Item.ofPair kv.toPair ∈ pgm_'.get_level (1 + min_level) := by
  obtain ⟨n, ht, hinsert⟩ := insert_of_full hvalid hnew hfull
  have hzero : n = 0 := by
    by_contra hne
    exact ht.ne (1 + min_level) (by omega) (by omega) hempty
  subst hzero
  have hmerged : pgm_.merged kv.toPair 0 =
      insertLower Item.key (Item.ofPair kv.toPair) (pgm_.get_level min_level) := rfl
  refine ⟨_, hinsert, hvalid.mergedInto ht _ ?_, get_level_filled_of_lt (by omega), ?_⟩
  · rw [hmerged, hvalid.length_first hfull]
    rfl
  · have hlevel : (pgm_.mergedInto kv.toPair 0).get_level (1 + min_level + 0) =
        pgm_.merged kv.toPair 0 :=
      get_level_filled_self (hvalid.toSized.withTarget _) ht.lt_used
    rw [Nat.add_zero] at hlevel
    rw [hlevel, hmerged]
    exact (insertLower_perm _ _).symm.subset mem_cons_self

theorem exists_halves {α : Type} {zs : List α} {n : Nat} (h : zs.length = 2 * (n + 1)) :
    ∃ xs a ys b, zs = xs ++ a :: (ys ++ [b]) ∧ xs.length = n ∧ ys.length = n := by
  have hne : zs.drop n ≠ [] := by
    rw [← length_pos_iff, length_drop]
    omega
  obtain ⟨a, rest, hrest⟩ := exists_cons_of_ne_nil hne
  have hlen : rest.length = n + 1 := by
    have hdrop := congrArg length hrest
    rw [length_drop, length_cons] at hdrop
    omega
  obtain ⟨ys, b, rfl⟩ := (eq_nil_or_concat rest).resolve_left (by rintro rfl; cases hlen)
  refine ⟨zs.take n, a, ys, b, ?_, by rw [length_take]; omega, ?_⟩
  · rw [← concat_eq_append, ← hrest, take_append_drop]
  · rw [length_concat] at hlen
    exact Nat.succ.inj hlen

omit [Inhabited K] in
/-- Right after the load, one key inserted with `256` values: the second full buffer meets it. -/
theorem not_spreadRun_of_sameKey {pgm_ : DynamicPGMIndex P} (hvalid : pgm_.Valid)
    (hbuffer : pgm_.get_level min_level = []) (hnext : pgm_.get_level (1 + min_level) = [])
    {key : K} {inserts : List (KeyValue K)} (hkey : ∀ kv ∈ inserts, kv.key = key)
    (hlen : inserts.length = 2 * (first_level_max_size + 1)) (hnodup : inserts.Nodup) :
    ¬ SpreadRun pgm_ inserts := by
  -- A full buffer, one more, another full buffer, and one more.
  obtain ⟨xs, a, ys, b, rfl, hxs, hys⟩ : ∃ xs a ys b, inserts = xs ++ a :: (ys ++ [b]) ∧
      xs.length = first_level_max_size ∧ ys.length = first_level_max_size :=
    exists_halves hlen
  intro hspread
  obtain ⟨hnodup₁, hnodup₂, hdisj⟩ := nodup_append.1 hnodup
  obtain ⟨pgm₁, hrun₁, hvalid₁, hbuffer₁, hlevels₁, -⟩ := fill_buffer hvalid hnodup₁
    (fun x hx => absurd (hbuffer ▸ hx) not_mem_nil) (by rw [hbuffer, hxs, length_nil]; omega)
  rw [hbuffer, map_nil, append_nil] at hbuffer₁
  have hfull₁ : pgm₁.Full := by
    rw [Full, ← length_map (f := Item.toPair), hbuffer₁.length_eq, length_map, hxs]
    exact Nat.lt_irrefl _
  have hnew₁ : ∀ x ∈ pgm₁.get_level min_level, x.toPair ≠ a.toPair := by
    intro x hx heq
    obtain ⟨kv, hkv, hpair⟩ := mem_map.1 (hbuffer₁.subset (mem_map_of_mem hx))
    exact hdisj kv hkv a mem_cons_self (toPair_injective (hpair.trans heq))
  obtain ⟨pgm₂, hinsert₂, hvalid₂, hbuffer₂, hmem₂⟩ := fill_level hvalid₁ hfull₁
    ((hlevels₁ _ (by omega)).trans hnext) hnew₁
  obtain ⟨-, hnodup₃⟩ := nodup_cons.1 hnodup₂
  obtain ⟨pgm₃, hrun₃, hvalid₃, hbuffer₃, hlevels₃, -⟩ :=
    fill_buffer hvalid₂ (nodup_append.1 hnodup₃).1
      (fun x hx => absurd (hbuffer₂ ▸ hx) not_mem_nil) (by rw [hbuffer₂, hys, length_nil]; omega)
  rw [hbuffer₂, map_nil, append_nil] at hbuffer₃
  have hfull₃ : pgm₃.Full := by
    rw [Full, ← length_map (f := Item.toPair), hbuffer₃.length_eq, length_map, hys]
    exact Nat.lt_irrefl _
  rw [← hlevels₃ _ (by omega)] at hmem₂
  have hlast := ((hspread.append hrun₁).2 pgm₂ hinsert₂).append hrun₃
  refine (hlast.1 hfull₃ (1 + min_level) (by omega) hvalid₃.used fun l hl hle => ?_).1 _ hmem₂ ?_
  · rw [show l = 1 + min_level by omega]
    exact ne_nil_of_mem hmem₂
  · have ha := hkey a (mem_append_right _ mem_cons_self)
    have hb := hkey b (mem_append_right _ (mem_cons_of_mem a (mem_append_right _ mem_cons_self)))
    exact ha.trans hb.symm

/-- After any load, `256` different pairs of one key are too many. -/
theorem not_keepsDuplicates_of_sameKey (hP : P.Sound) {key : K} {data inserts : List (KeyValue K)}
    (hsorted : Ascends KeyValue.key data) (hkey : ∀ kv ∈ inserts, kv.key = key)
    (hlen : inserts.length = 2 * (first_level_max_size + 1)) (hnodup : inserts.Nodup) :
    ¬ KeepsDuplicates P data inserts := by
  rw [keepsDuplicates_iff hP hsorted hnodup]
  rintro ⟨hsize, hspread⟩
  have hpairs : Ascends Prod.fst (data.map KeyValue.toPair) := pairwise_map.2 hsorted
  obtain ⟨pgm_, hload, hvalid, -, hempty⟩ := load_spec (P := P) (by rwa [length_map]) hpairs
  exact not_spreadRun_of_sameKey hvalid (hempty _ (by decide)) (hempty _ (by decide)) hkey hlen
    hnodup (hspread pgm_ hload)

end Run

/-! ## A run that keeps its pairs, and one that does not -/

/-- Template arguments with an index that finds the lower bound itself, `64` positions around it as
its window, and the default search class. -/
def exactTemplate (K V : Type) [LinearOrder K] : Template K V where
  PGMType := List (Item K V)
  empty := []
  build := id
  find_approximate_position level key :=
    let pos := lowerBoundIn level key
    { pos
      lo := if pos ≤ 64 then 0 else pos - 64
      hi := if level.length ≤ pos + 65 then level.length else pos + 65 }
  lower_bound := BranchingBinarySearch.lower_bound defaultLess

theorem sound_exactTemplate (K V : Type) [LinearOrder K] [Inhabited K] :
    (exactTemplate K V).Sound := by
  refine ⟨searchSound_of_class (.inl rfl), fun level key _ _ => ?_⟩
  have hle : lowerBoundIn level key ≤ level.length := length_front_le _ _ _
  refine ⟨?_, ?_, ?_, ?_⟩ <;> simp only [exactTemplate, id] <;> split <;> omega

/-- `16385` pairs with the keys `0, 1, …`. -/
def countedData : List (KeyValue UInt64) :=
  (List.range (2 ^ 14 + 1)).map fun i => ⟨UInt64.ofNat i, UInt64.ofNat i⟩

theorem ascends_countedData : Ascends KeyValue.key countedData := by
  refine pairwise_map.2 (pairwise_lt_range.imp_of_mem fun {i j} hi hj hij => ?_)
  rw [mem_range] at hi hj
  change UInt64.ofNat i ≤ UInt64.ofNat j
  rw [UInt64.le_iff_toNat_le, UInt64.toNat_ofNat', UInt64.toNat_ofNat',
    Nat.mod_eq_of_lt (by omega), Nat.mod_eq_of_lt (by omega)]
  exact hij.le

/-- `256` values under the key `7`. -/
def hotInserts : List (KeyValue UInt64) :=
  (List.range 256).map fun i => ⟨7, UInt64.ofNat (100 + i)⟩

theorem nodup_hotInserts : hotInserts.Nodup := by
  refine List.Nodup.map_on (fun i hi j hj heq => ?_) nodup_range
  rw [mem_range] at hi hj
  have hvalue := congrArg UInt64.toNat (KeyValue.mk.inj heq).2
  rw [UInt64.toNat_ofNat', UInt64.toNat_ofNat', Nat.mod_eq_of_lt (by omega),
    Nat.mod_eq_of_lt (by omega)] at hvalue
  omega

theorem key_of_mem_hotInserts {kv : KeyValue UInt64} (h : kv ∈ hotInserts) : kv.key = 7 := by
  obtain ⟨i, -, rfl⟩ := mem_map.1 h
  rfl

theorem length_countedData : 2 ^ 14 < countedData.length := by
  rw [countedData, length_map, length_range]
  exact Nat.lt_succ_self _

/-- Three inserts under two keys stay in the buffer. -/
theorem keepsDuplicates_buffered :
    KeepsDuplicates (exactTemplate UInt64 UInt64) countedData [⟨7, 1⟩, ⟨7, 2⟩, ⟨9, 1⟩] := by
  have hnodup : ([⟨7, 1⟩, ⟨7, 2⟩, ⟨9, 1⟩] : List (KeyValue UInt64)).Nodup := by decide
  refine (keepsDuplicates_iff (sound_exactTemplate _ _) ascends_countedData hnodup).2
    ⟨length_countedData, fun pgm_ hbuild => ?_⟩
  have hpairs : Ascends Prod.fst (countedData.map KeyValue.toPair) :=
    pairwise_map.2 ascends_countedData
  obtain ⟨pgm_', hload, hvalid, -, hempty⟩ := load_spec (P := exactTemplate UInt64 UInt64)
    (by rw [length_map]; exact length_countedData) hpairs
  have hsame : pgm_' = pgm_ := Option.some.inj (hload.symm.trans hbuild)
  subst hsame
  have hbuffer : pgm_'.get_level min_level = [] := hempty _ (by decide)
  obtain ⟨-, -, -, -, -, hspread⟩ := fill_buffer hvalid hnodup
    (fun x hx => absurd (hbuffer ▸ hx) not_mem_nil) (by rw [hbuffer]; decide)
  exact hspread

/-- The last of `256` inserts under one key merges the buffer with the level behind it and drops
half of them. -/
theorem not_keepsDuplicates_hot : ¬ ∀ (P : Template UInt64 UInt64)
    (data inserts : List (KeyValue UInt64)), P.Sound → Ascends KeyValue.key data →
      2 ^ 14 < data.length → inserts.Nodup → KeepsDuplicates P data inserts := by
  intro hall
  have hkeeps := hall _ countedData hotInserts (sound_exactTemplate _ _) ascends_countedData
    length_countedData nodup_hotInserts
  refine not_keepsDuplicates_of_sameKey (sound_exactTemplate UInt64 UInt64) ascends_countedData
    (fun _ hkv => key_of_mem_hotInserts hkv) ?_ nodup_hotInserts hkeeps
  rw [hotInserts, length_map, length_range]
  decide

end DynamicPGM
end TLI
