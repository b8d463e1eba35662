import TLI.Competitors.DynamicPGM.Model
import TLI.Searches.Comparator

/-!
# Iterate — an iterator from `lower_bound` to `end()`

`lower_bound` finds the lower bound of the key in every level.  Moved on until it equals `end()`,
its iterator visits the rest of each level from there on, merged by key.
-/

namespace TLI
namespace DynamicPGM

open List LowerBound PartitionPoint Searches

variable {K V : Type} [LinearOrder K] [Inhabited K]

namespace DynamicPGMIndex

variable {P : Template K V} {s : DynamicPGMIndex P} {key : K} {level : List (Item K V)}

/-! ## What the index and the search class promise -/

/-- A window of the level around its own position, no further right than the lower bound. -/
structure Window (level : List (Item K V)) (key : K) (w : ApproxPos) : Prop where
  lo_le_pos : w.lo ≤ w.pos
  pos_le_hi : w.pos ≤ w.hi
  hi_le : w.hi ≤ level.length
  lo_le : w.lo ≤ lowerBoundIn level key

/-- The search class finds the lower bound in every sorted window around its start. -/
def SearchSound (P : Template K V) : Prop :=
  ∀ (at_ : Int → K) (key : K) (first last start : Int),
    SortedWindow defaultLess at_ first last → first ≤ start → start ≤ last →
      Boundary (beforeLower defaultLess at_ key) first last (P.lower_bound at_ key first last start)

/-- Every level is sorted and holds no deleted item; the windows of the indexed ones are right. -/
structure Walkable (s : DynamicPGMIndex P) : Prop where
  ascends : ∀ i, Ascends Item.key (s.get_level i)
  alive : ∀ i, ∀ x ∈ s.get_level i, x.deleted = false
  window : ∀ i key, MinIndexedLevel ≤ i → i < s.used_levels → s.get_level i ≠ [] →
    Window (s.get_level i) key (P.find_approximate_position (s.get_pgm i) key)

/-! ## The lower bound in a level -/

omit [LinearOrder K] in
theorem keyIn_of_lt {i : Nat} (h : i < level.length) : keyIn level i = level[i].key := by
  simp [keyIn, h]

theorem sortedWindow_keyIn (hsort : Ascends Item.key level) {first last : Nat}
    (hlast : last ≤ level.length) : SortedWindow defaultLess (keyIn level) first last := by
  intro i j hi hij hj
  obtain ⟨i, rfl⟩ := Int.eq_ofNat_of_zero_le ((Int.natCast_nonneg first).trans hi)
  obtain ⟨j, rfl⟩ := Int.eq_ofNat_of_zero_le ((Int.natCast_nonneg i).trans hij)
  have hjlt : j < level.length := by omega
  have hilt : i < level.length := by omega
  rw [keyIn_of_lt hilt, keyIn_of_lt hjlt]
  exact decide_eq_false (not_lt.2 (hsort.getElem_le (by omega) hilt hjlt))

omit [Inhabited K] in
/-- Skipping the smaller keys from in front of the lower bound leads to it. -/
theorem skipWhile_lt {pos : Nat} (h : pos ≤ lowerBoundIn level key) :
    skipWhile (fun x => decide (x.key < key)) level pos = lowerBoundIn level key := by
  have hsplit : front Item.key key level = level.take pos ++
    front Item.key key (level.drop pos) := by
    rw [front, front, ← takeWhile_append_of_pos, take_append_drop]
    intro x hx
    obtain ⟨i, hi, rfl⟩ := mem_iff_getElem.1 hx
    have hilt := lt_min_iff.1 (length_take (i := pos) (l := level) ▸ hi)
    rw [getElem_take]
    exact decide_eq_true (lt_of_lt_length_front (hilt.1.trans_le h) hilt.2)
  have hlen := congrArg length hsplit
  rw [length_append, length_take_of_le (h.trans (length_front_le _ _ _))] at hlen
  exact hlen.symm

omit [LinearOrder K] [Inhabited K] in
theorem skipWhile_deleted (halive : ∀ x ∈ level, x.deleted = false) (pos : Nat) :
    skipWhile Item.deleted level pos = pos := by
  have hnone : (level.drop pos).takeWhile Item.deleted = [] := by
    cases hdrop : level.drop pos with
    | nil => rfl
    | cons x rest =>
        have hx : x ∈ level := (drop_sublist pos level).subset (hdrop ▸ mem_cons_self)
        rw [takeWhile_cons_of_neg (by simp [halive x hx])]
  rw [skipWhile, hnone, length_nil, Nat.add_zero]

/-- The search in the window does not run past the lower bound of the level. -/
theorem predictIn_le (hsearch : SearchSound P) (hs : Walkable s) {i : Nat}
    (hi : MinIndexedLevel ≤ i) (hused : i < s.used_levels) (hne : s.get_level i ≠ []) :
    s.predictIn i key ≤ lowerBoundIn (s.get_level i) key := by
  have hw := hs.window i key hi hused hne
  have hsort := hs.ascends i
  have hb := hsearch (keyIn (s.get_level i)) key _ _ _ (sortedWindow_keyIn hsort hw.hi_le)
    (Int.ofNat_le.2 hw.lo_le_pos) (Int.ofNat_le.2 hw.pos_le_hi)
  by_contra hlt
  have hfirst := hb.first_le
  have hlast := hb.le_last
  have hhi := hw.hi_le
  have hlo := hw.lo_le
  rw [predictIn] at hlt
  have hbefore := hb.before_of_lt (lowerBoundIn (s.get_level i) key : Int) (by omega) (by omega)
  have hinside : lowerBoundIn (s.get_level i) key < (s.get_level i).length := by omega
  simp only [beforeLower, defaultLess, decide_eq_true_eq, keyIn_of_lt hinside] at hbefore
  exact absurd hbefore (not_lt.2 (le_of_length_front_le hsort le_rfl hinside))

/-- `lower_bound` starts in each level at the lower bound of the key. -/
theorem startIn_eq (hsearch : SearchSound P) (hs : Walkable s) {i : Nat}
    (hused : i < s.used_levels) :
    s.startIn key i =
      if lowerBoundIn (s.get_level i) key = (s.get_level i).length then none
      else some ⟨i, lowerBoundIn (s.get_level i) key⟩ := by
  by_cases hnil : s.get_level i = []
  · simp [startIn, hnil, lowerBoundIn, front]
  · have hfalse : (s.get_level i).isEmpty = false := by simpa using hnil
    simp only [startIn, hfalse, Bool.false_eq_true, if_false]
    by_cases hi : i < MinIndexedLevel
    · rw [if_pos hi, skipWhile_deleted (hs.alive i)]
    · rw [if_neg hi, skipWhile_lt (predictIn_le hsearch hs (not_lt.1 hi) hused hnil)]

/-! ## The runs the queue merges -/

/-- The iterator can be dereferenced. -/
def Inside (s : DynamicPGMIndex P) (it : Position) : Prop :=
  it.pos < (s.get_level it.level).length

/-- The positions from `it` to the end of its level. -/
def rest (s : DynamicPGMIndex P) (it : Position) : List Position :=
  (List.range' it.pos ((s.get_level it.level).length - it.pos)).map (Position.mk it.level)

omit [LinearOrder K] [Inhabited K] in
theorem deref_of_inside {it : Position} (h : s.Inside it) :
    s.deref it = some ((s.get_level it.level).get ⟨it.pos, h⟩) :=
  getElem?_eq_getElem h

omit [LinearOrder K] [Inhabited K] in
theorem nextPosition_inside {it it' : Position} (h : s.Inside it)
    (hnext : s.nextPosition it = some it') : s.Inside it' := by
  rw [nextPosition] at hnext
  split at hnext
  · cases hnext
  · rename_i hne
    cases hnext
    exact lt_of_le_of_ne h hne

omit [LinearOrder K] [Inhabited K] in
theorem rest_eq {it : Position} (h : s.Inside it) :
    s.rest it = it :: (s.nextPosition it).toList.flatMap s.rest := by
  obtain ⟨n, hn⟩ : ∃ n, (s.get_level it.level).length - it.pos = n + 1 :=
    Nat.exists_eq_succ_of_ne_zero (Nat.sub_ne_zero_of_lt h)
  have hsplit : s.rest it =
      it :: (List.range' (it.pos + 1) n).map (Position.mk it.level) := by
    rw [rest, hn, range'_succ, map_cons]
  rw [hsplit, nextPosition]
  split
  · rename_i hend
    have hzero : n = 0 := by omega
    rw [hzero]
    rfl
  · have hlen : (s.get_level it.level).length - (it.pos + 1) = n := by omega
    simp [rest, hlen]

omit [LinearOrder K] [Inhabited K] in
theorem runs (s : DynamicPGMIndex P) : KWayMerge.Runs s.nextPosition s.Inside s.rest :=
  ⟨fun _ h => rest_eq h, fun _ _ h hnext => nextPosition_inside h hnext⟩

/-- In a sorted level the rank grows along the run. -/
theorem rest_sorted {it : Position} (hsort : Ascends Item.key (s.get_level it.level)) :
    (s.rest it).Pairwise fun x y => s.queueRank x ≤ s.queueRank y := by
  rw [rest, pairwise_map]
  refine (pairwise_lt_range').imp_of_mem fun {i j} hi hj hij => ?_
  rw [mem_range'_1] at hi hj
  have hilt : i < (s.get_level it.level).length := by omega
  have hjlt : j < (s.get_level it.level).length := by omega
  have hkey := hsort.getElem_le hij.le hilt hjlt
  rw [← keyIn_of_lt hilt, ← keyIn_of_lt hjlt] at hkey
  rw [queueRank, queueRank, Prod.Lex.toLex_le_toLex]
  rcases hkey.lt_or_eq with hlt | heq
  · exact .inl hlt
  · exact .inr ⟨heq, le_rfl⟩

/-! ## The iterator that `lower_bound` returns -/

/-- The positions `lower_bound` collects, one for each level that reaches the key. -/
def startPairs (s : DynamicPGMIndex P) (key : K) : List Position :=
  (List.range' min_level (s.used_levels - min_level)).filterMap (s.startIn key)

/-- The items of all levels. -/
def stored (s : DynamicPGMIndex P) : List (Item K V) :=
  (List.range' min_level (s.used_levels - min_level)).flatMap s.get_level

omit [LinearOrder K] [Inhabited K] in
theorem mem_levels {i : Nat} (h : i ∈ List.range' min_level (s.used_levels - min_level)) :
    i < s.used_levels := by
  rw [mem_range'_1] at h
  omega

theorem startIn_some (hsearch : SearchSound P) (hs : Walkable s) {i : Nat} {it : Position}
    (hused : i < s.used_levels) (h : s.startIn key i = some it) :
    it = ⟨i, lowerBoundIn (s.get_level i) key⟩ ∧ s.Inside it := by
  rw [startIn_eq hsearch hs hused] at h
  split at h
  · cases h
  · rename_i hne
    cases h
    exact ⟨rfl, lt_of_le_of_ne (length_front_le _ _ _) hne⟩

theorem startPairs_inside (hsearch : SearchSound P) (hs : Walkable s) :
    ∀ it ∈ s.startPairs key, s.Inside it := by
  intro it hit
  obtain ⟨i, hi, hstart⟩ := mem_filterMap.1 hit
  exact (startIn_some hsearch hs (mem_levels hi) hstart).2

theorem startPairs_levels (hsearch : SearchSound P) (hs : Walkable s) :
    (s.startPairs key).Pairwise fun x y => x.level < y.level := by
  refine pairwise_filterMap.2 ((pairwise_lt_range').imp_of_mem fun {i j} hi hj hij => ?_)
  intro x hx y hy
  rw [(startIn_some hsearch hs (mem_levels hi) hx).1, (startIn_some hsearch hs (mem_levels hj) hy).1]
  exact hij

/-- Among positions of ascending levels the first one with the smallest key has the smallest
rank. -/
theorem foldl_smallest (its : List Position) :
    ∀ lo : Position, (lo :: its).Pairwise (fun x y => x.level < y.level) →
      let least := its.foldl (fun lo it =>
        if keyIn (s.get_level it.level) it.pos < keyIn (s.get_level lo.level) lo.pos then it
        else lo) lo
      least ∈ lo :: its ∧ ∀ d ∈ lo :: its, d = least ∨ s.queueRank least < s.queueRank d := by
  induction its with
  | nil =>
      intro lo _
      exact ⟨mem_singleton_self lo, fun d hd => .inl (mem_singleton.1 hd)⟩
  | cons it its ih =>
      intro lo hlevels
      obtain ⟨hlo, hrest⟩ := pairwise_cons.1 hlevels
      rw [foldl_cons]
      split
      · rename_i hlt
        obtain ⟨hmem, hmin⟩ := ih it hrest
        have hrank : s.queueRank it < s.queueRank lo := Prod.Lex.toLex_lt_toLex.2 (.inl hlt)
        refine ⟨mem_cons_of_mem lo hmem, fun d hd => ?_⟩
        rcases mem_cons.1 hd with rfl | hd
        · rcases hmin it mem_cons_self with heq | hless
          · exact .inr (heq ▸ hrank)
          · exact .inr (hless.trans hrank)
        · exact hmin d hd
      · rename_i hge
        obtain ⟨hlo', hrest'⟩ := pairwise_cons.1 hrest
        have hskip : (lo :: its).Pairwise fun x y : Position => x.level < y.level :=
          pairwise_cons.2 ⟨fun y hy => hlo y (mem_cons_of_mem it hy), hrest'⟩
        have hrank : s.queueRank lo < s.queueRank it := by
          refine Prod.Lex.toLex_lt_toLex.2 ?_
          rcases (not_lt.1 hge).lt_or_eq with hlt | heq
          · exact .inl hlt
          · exact .inr ⟨heq, hlo it mem_cons_self⟩
        obtain ⟨hmem, hmin⟩ := ih lo hskip
        refine ⟨?_, fun d hd => ?_⟩
        · rcases mem_cons.1 hmem with heq | hmem
          · exact mem_cons.2 (.inl heq)
          · exact mem_cons_of_mem lo (mem_cons_of_mem it hmem)
        · rcases mem_cons.1 hd with rfl | hd
          · exact hmin d mem_cons_self
          · rcases mem_cons.1 hd with rfl | hd
            · rcases hmin lo mem_cons_self with heq | hless
              · exact .inr (heq ▸ hrank)
              · exact .inr (hless.trans hrank)
            · exact hmin d (mem_cons_of_mem lo hd)

theorem firstSmallest_spec {its : List Position} {lo : Position}
    (hlevels : its.Pairwise fun x y => x.level < y.level) (h : s.firstSmallest its = some lo) :
    lo ∈ its ∧ ∀ d ∈ its, d = lo ∨ s.queueRank lo < s.queueRank d := by
  cases its with
  | nil => cases h
  | cons it its =>
      rw [← Option.some.inj h]
      exact foldl_smallest its it hlevels

/-! ## Walking to `end()` -/

/-- `for (; x != end(); ++x)`: the positions the iterator takes, with their items. -/
def walk (s : DynamicPGMIndex P) : Nat → Iterator → Option (List (Position × Item K V))
  | 0, _ => none
  | fuel + 1, x =>
      if x.it = s.end_.it then some []
      else
        (s.deref x.it).bind fun item =>
          (walk s fuel (s.increment x)).map fun visited => (x.it, item) :: visited

/-- `visited` pairs the positions with their items. -/
def Visits (s : DynamicPGMIndex P) (visited : List (Position × Item K V))
    (its : List Position) : Prop :=
  visited.map Prod.fst = its ∧ ∀ v ∈ visited, s.deref v.1 = some v.2

omit [LinearOrder K] [Inhabited K] in
theorem end_ne {it : Position} (h : s.Inside it) : it ≠ s.end_.it := by
  rintro rfl
  exact Nat.lt_irrefl _ h

theorem walk_end (s : DynamicPGMIndex P) :
    Returns (fun fuel => s.walk fuel s.end_) [] :=
  (Returns.const []).of_succ fun fuel => by rw [walk, if_pos rfl]

/-- One step of the walk. -/
theorem walk_step {x : Iterator} {its : List Position} {visited : List (Position × Item K V)}
    (h : s.Inside x.it) (hvisits : s.Visits visited its)
    (hwalk : Returns (fun fuel => s.walk fuel (s.increment x)) visited) :
    ∃ visited', s.Visits visited' (x.it :: its) ∧
      Returns (fun fuel => s.walk fuel x) visited' := by
  refine ⟨(x.it, (s.get_level x.it.level).get ⟨x.it.pos, h⟩) :: visited, ⟨?_, ?_⟩,
    (hwalk.map _).of_succ fun fuel => ?_⟩
  · rw [map_cons, hvisits.1]
  · intro v hv
    rcases mem_cons.1 hv with rfl | hv
    · exact deref_of_inside h
    · exact hvisits.2 v hv
  · rw [walk, if_neg (end_ne h), deref_of_inside h, Option.bind_some]

/-- The walk goes on with what drains from the queue. -/
theorem walk_advance {queue out : List Position}
    (hdrains : KWayMerge.Drains s.queueRank s.nextPosition queue out)
    (hinside : ∀ it ∈ out, s.Inside it) (it : Position) (initial_pairs : List Position) :
    ∃ visited, s.Visits visited out ∧
      Returns (fun fuel => s.walk fuel (s.advance_queue ⟨it, none, initial_pairs, queue⟩))
        visited := by
  induction hdrains generalizing it with
  | nil => exact ⟨[], ⟨rfl, fun _ hv => absurd hv not_mem_nil⟩, walk_end s⟩
  | @step queue others out next hpop _ ih =>
      have hadvance : s.advance_queue ⟨it, none, initial_pairs, queue⟩ =
          ⟨next, none, initial_pairs, (s.nextPosition next).toList ++ others⟩ := by
        rw [advance_queue, hpop]
      obtain ⟨visited, hvisits, hwalk⟩ :=
        ih (fun d hd => hinside d (mem_cons_of_mem next hd)) next
      rw [hadvance]
      exact walk_step (x := ⟨next, none, initial_pairs, (s.nextPosition next).toList ++ others⟩)
        (hinside next mem_cons_self) hvisits hwalk

/-- The iterator of `lower_bound` visits the merged rests of the levels. -/
theorem lower_bound_visits (hsearch : SearchSound P) (hs : Walkable s) (key : K) :
    ∃ its visited, its ~ (s.startPairs key).flatMap s.rest ∧
      (its.Pairwise fun x y => s.queueRank x ≤ s.queueRank y) ∧ s.Visits visited its ∧
      Returns (fun fuel => s.walk fuel (s.lower_bound key)) visited := by
  have hinside : ∀ it ∈ s.startPairs key, s.Inside it := startPairs_inside hsearch hs
  -- What a priority queue over the first positions of the levels would yield.
  obtain ⟨its, hdrains, hperm, hsorted⟩ := (runs s).exists_drains hinside
    fun it _ => rest_sorted (hs.ascends it.level)
  have hall : ∀ it ∈ its, s.Inside it := by
    intro it hit
    obtain ⟨start, hstart, hrest⟩ := mem_flatMap.1 (hperm.subset hit)
    obtain ⟨i, hi, rfl⟩ := mem_map.1 hrest
    rw [mem_range'_1] at hi
    exact (by omega : i < (s.get_level start.level).length)
  cases hlo : s.firstSmallest (s.startPairs key) with
  | none =>
      have hnil : s.startPairs key = [] := by
        cases hpairs : s.startPairs key with
        | nil => rfl
        | cons it others =>
            rw [hpairs] at hlo
            cases hlo
      have hend : s.lower_bound key = s.end_ := by
        rw [lower_bound]
        simp only [show (List.range' min_level (s.used_levels - min_level)).filterMap (s.startIn key)
          = s.startPairs key from rfl, hlo]
      rw [hend, hnil]
      exact ⟨[], [], Perm.refl _, Pairwise.nil, ⟨rfl, fun _ hv => absurd hv not_mem_nil⟩,
        walk_end s⟩
  | some lo =>
      have hlower : s.lower_bound key =
          ⟨lo, some s.used_levels, s.startPairs key, []⟩ := by
        rw [lower_bound]
        simp only [show (List.range' min_level (s.used_levels - min_level)).filterMap (s.startIn key)
          = s.startPairs key from rfl, hlo]
      obtain ⟨hmem, hmin⟩ := firstSmallest_spec (startPairs_levels hsearch hs) hlo
      obtain ⟨others, out, hpop, rfl, hdrains'⟩ := hdrains.eq_cons hmem hmin
      obtain ⟨visited, hvisits, hwalk⟩ := walk_advance hdrains'
        (fun d hd => hall d (mem_cons_of_mem lo hd)) lo (s.startPairs key)
      -- The first increment fills the queue that the walk then drains.
      have hincrement : s.increment ⟨lo, some s.used_levels, s.startPairs key, []⟩ =
          s.advance_queue ⟨lo, none, s.startPairs key, (s.nextPosition lo).toList ++ others⟩ := by
        simp [increment, lazy_initialize_queue, advance_queue, hpop]
      rw [← hincrement] at hwalk
      obtain ⟨visited', hvisits', hwalk'⟩ := walk_step (hinside lo hmem) hvisits hwalk
      rw [hlower]
      exact ⟨lo :: out, visited', hperm, hsorted, hvisits', hwalk'⟩

/-! ## The items visited -/

omit [LinearOrder K] [Inhabited K] in
theorem map_deref_rest (it : Position) :
    (s.rest it).map s.deref = ((s.get_level it.level).drop it.pos).map some := by
  refine ext_getElem (by simp [rest]) fun i hi _ => ?_
  have hilt : it.pos + i < (s.get_level it.level).length := by
    simp only [rest, length_map, length_range'] at hi
    omega
  simp [rest, deref, hilt]

/-- What the merged rests hold: in every level, the items from the lower bound on. -/
theorem map_deref_startPairs (hsearch : SearchSound P) (hs : Walkable s) (key : K) :
    ((s.startPairs key).flatMap s.rest).map s.deref =
      (s.stored.filter fun x => decide (key ≤ x.key)).map some := by
  rw [startPairs, filterMap_eq_flatMap_toList, flatMap_assoc, map_flatMap, stored, filter_flatMap,
    map_flatMap]
  refine flatMap_congr fun i hi => ?_
  rw [startIn_eq hsearch hs (mem_levels hi), ← back_eq_filter (hs.ascends i),
    ← drop_length_front]
  split
  · rename_i heq
    rw [lowerBoundIn] at heq
    rw [heq, drop_length]
    rfl
  · rw [Option.toList_some, flatMap_singleton, map_deref_rest]
    rfl

omit [LinearOrder K] [Inhabited K] in
theorem Visits.map_deref {visited : List (Position × Item K V)} {its : List Position}
    (h : s.Visits visited its) : its.map s.deref = (visited.map Prod.snd).map some := by
  rw [← h.1, map_map, map_map]
  exact map_congr_left h.2

/-- From `lower_bound` to `end()` the iterator visits every item with no smaller key once, in the
order of the keys. -/
theorem lower_bound_walks (hsearch : SearchSound P) (hs : Walkable s) (key : K) :
    ∃ visited, Returns (fun fuel => s.walk fuel (s.lower_bound key)) visited ∧
      visited.map Prod.snd ~ s.stored.filter (fun x => decide (key ≤ x.key)) ∧
      Ascends Item.key (visited.map Prod.snd) := by
  obtain ⟨its, visited, hperm, hsorted, hvisits, hwalk⟩ := lower_bound_visits hsearch hs key
  refine ⟨visited, hwalk, ?_, ?_⟩
  · have hmap := hperm.map s.deref
    rw [hvisits.map_deref, map_deref_startPairs hsearch hs] at hmap
    exact (map_perm_map_iff (Option.some_injective _)).1 hmap
  · rw [← hvisits.1, pairwise_map] at hsorted
    refine pairwise_map.2 (hsorted.imp_of_mem fun {v w} hv hw hle => ?_)
    have hkey : ∀ u ∈ visited, keyIn (s.get_level u.1.level) u.1.pos = u.2.key := by
      intro u hu
      have hget : (s.get_level u.1.level)[u.1.pos]? = some u.2 := hvisits.2 u hu
      simp [keyIn, hget]
    rw [queueRank, queueRank, Prod.Lex.toLex_le_toLex, hkey v hv, hkey w hw] at hle
    rcases hle with hlt | ⟨heq, -⟩
    · exact hlt.le
    · exact heq.le

end DynamicPGMIndex

/-! ## `RangeQuery` -/

open DynamicPGMIndex

/-- The sum up to a key adds the values the walk meets before it passes the key. -/
theorem sumUpTo_of_walk {P : Template K UInt64} {pgm_ : DynamicPGMIndex P} (upper_key : K)
    (fuel : Nat) : ∀ {it visited} (result : UInt64), pgm_.walk fuel it = some visited →
      sumUpTo pgm_ upper_key fuel it result = some (result +
        (((visited.map Prod.snd).takeWhile fun x => decide (x.key ≤ upper_key)).map
          Item.value).sum) := by
  induction fuel with
  | zero =>
      intro it visited result h
      cases h
  | succ fuel ih =>
      intro it visited result h
      rw [walk] at h
      rw [sumUpTo]
      split at h
      · rename_i hend
        cases h
        simp [hend]
      · rename_i hne
        obtain ⟨item, hitem, hrest⟩ := Option.bind_eq_some_iff.1 h
        obtain ⟨others, hothers, rfl⟩ := Option.map_eq_some_iff.1 hrest
        rw [if_neg hne, hitem, Option.bind_some, map_cons, takeWhile_cons]
        by_cases hkey : item.key ≤ upper_key
        · rw [if_pos hkey, ih _ hothers]
          simp [hkey, add_assoc]
        · simp [hkey]

end DynamicPGM
end TLI
