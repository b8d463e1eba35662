import TLI.Competitors.DynamicPGM.Map

/-!
# Enumerate — every item from the lower bound on, level by level and key by key

`lower_bound` keeps the first of the smallest keys it meets and leaves the queue to the first `++`,
which must drop exactly that item.  Both break ties by the level, so no item is skipped or met
twice: the iterator after `n` steps stands at the `n`-th position of a list that holds every
reached item once (`lower_bound_enumerates`).
-/

namespace TLI
namespace DynamicPGM

open List LowerBound

variable {K V : Type} [LinearOrder K] [Inhabited K]

namespace DynamicPGMIndex

variable {P : Template K V} {s : DynamicPGMIndex P} {key : K}

/-- `its` are the positions that an iterator from `lower_bound(key)` takes.  The levels from
`used_levels` on are empty, so these are the items of all levels. -/
structure Enumerates (s : DynamicPGMIndex P) (key : K) (its : List Position) : Prop where
  once : its.Nodup
  mem : ∀ it, it ∈ its ↔ min_level ≤ it.level ∧ it.level < s.used_levels ∧
    ∃ item, s.deref it = some item ∧ key ≤ item.key
  /-- by key, and then the lowest level first -/
  ordered : its.Pairwise fun it it' => ∀ item item', s.deref it = some item →
    s.deref it' = some item' → item.key < item'.key ∨ item.key = item'.key ∧ it.level ≤ it'.level
  position : ∀ n (hn : n < its.length), (s.increment^[n] (s.lower_bound key)).it = its[n]
  end_iff : ∀ n, n ≤ its.length →
    ((s.increment^[n] (s.lower_bound key)).it = s.end_.it ↔ n = its.length)

/-! ## Positions of the walk -/

/-- What a finished walk says about the iterator after `n` steps. -/
theorem walk_iterate (fuel : Nat) : ∀ {x : Iterator} {visited : List (Position × Item K V)},
    s.walk fuel x = some visited → (∀ v ∈ visited, s.Inside v.1) → ∀ n, n ≤ visited.length →
      (∀ hn : n < visited.length, (s.increment^[n] x).it = visited[n].1) ∧
        ((s.increment^[n] x).it = s.end_.it ↔ n = visited.length) := by
  induction fuel with
  | zero =>
      intro x visited h
      cases h
  | succ fuel ih =>
      intro x visited h hinside n hle
      rw [walk] at h
      split at h
      · rename_i hend
        cases h
        obtain rfl : n = 0 := Nat.le_zero.1 hle
        exact ⟨fun hn => absurd hn (Nat.lt_irrefl 0), iff_of_true hend rfl⟩
      · rename_i hne
        obtain ⟨item, -, h⟩ := Option.bind_eq_some_iff.1 h
        obtain ⟨others, hothers, rfl⟩ := Option.map_eq_some_iff.1 h
        cases n with
        | zero => exact ⟨fun _ => rfl, iff_of_false hne (by simp)⟩
        | succ n =>
            rw [length_cons, Nat.add_le_add_iff_right] at hle
            obtain ⟨hposition, hend⟩ :=
              ih hothers (fun v hv => hinside v (mem_cons_of_mem _ hv)) n hle
            rw [Function.iterate_succ_apply]
            refine ⟨fun hn => hposition (Nat.lt_of_succ_lt_succ hn), hend.trans ?_⟩
            rw [length_cons, Nat.add_right_cancel_iff]

/-! ## The positions the rests hold -/

omit [LinearOrder K] [Inhabited K] in
theorem mem_rest {it start : Position} : it ∈ s.rest start ↔
    it.level = start.level ∧ start.pos ≤ it.pos ∧ it.pos < (s.get_level start.level).length := by
  rw [rest, mem_map]
  constructor
  · rintro ⟨pos, hpos, rfl⟩
    rw [mem_range'_1] at hpos
    exact ⟨rfl, hpos.1, (by omega : pos < _)⟩
  · rintro ⟨hlevel, hle, hlt⟩
    refine ⟨it.pos, mem_range'_1.2 ⟨hle, by omega⟩, ?_⟩
    rw [← hlevel]

omit [Inhabited K] in
/-- In a sorted level the items with no smaller key stand from the lower bound on. -/
theorem lowerBoundIn_le_iff {level : List (Item K V)} (hsort : Ascends Item.key level) {pos : Nat}
    (hpos : pos < level.length) : lowerBoundIn level key ≤ pos ↔ key ≤ level[pos].key := by
  refine ⟨fun hle => le_of_length_front_le hsort hle hpos, fun hle => ?_⟩
  by_contra hlt
  exact absurd hle (not_le.2 (lt_of_lt_length_front (not_le.1 hlt) hpos))

/-- The rests that the queue merges hold the items with no smaller key. -/
theorem mem_rests (hsearch : SearchSound P) (hs : Walkable s) {it : Position} :
    it ∈ (s.startPairs key).flatMap s.rest ↔ min_level ≤ it.level ∧ it.level < s.used_levels ∧
      ∃ item, s.deref it = some item ∧ key ≤ item.key := by
  rw [mem_flatMap]
  constructor
  · rintro ⟨start, hstart, hit⟩
    obtain ⟨i, hi, hstart⟩ := mem_filterMap.1 hstart
    obtain ⟨rfl, -⟩ := startIn_some hsearch hs (mem_levels hi) hstart
    obtain ⟨hlevel, hle, hlt⟩ := mem_rest.1 hit
    change it.level = i at hlevel
    change it.pos < (s.get_level i).length at hlt
    refine ⟨hlevel ▸ (mem_range'_1.1 hi).1, hlevel ▸ mem_levels hi, (s.get_level i)[it.pos], ?_,
      (lowerBoundIn_le_iff (hs.ascends i) hlt).1 hle⟩
    rw [deref, hlevel, List.getElem?_eq_getElem hlt]
  · rintro ⟨hmin, hused, item, hitem, hkey⟩
    obtain ⟨hlt, rfl⟩ := List.getElem?_eq_some_iff.1 hitem
    have hle := (lowerBoundIn_le_iff (hs.ascends _) hlt).2 hkey
    have hi : it.level ∈ List.range' min_level (s.used_levels - min_level) :=
      mem_range'_1.2 ⟨hmin, by omega⟩
    refine ⟨⟨it.level, lowerBoundIn (s.get_level it.level) key⟩,
      mem_filterMap.2 ⟨it.level, hi, ?_⟩, mem_rest.2 ⟨rfl, hle, hlt⟩⟩
    rw [startIn_eq hsearch hs hused, if_neg (hle.trans_lt hlt).ne]

/-- No position is in two of them. -/
theorem nodup_rests (hsearch : SearchSound P) (hs : Walkable s) (key : K) :
    ((s.startPairs key).flatMap s.rest).Nodup := by
  refine nodup_flatMap.2 ⟨fun start _ => ?_, ?_⟩
  · refine Nodup.map (fun pos pos' heq => ?_) nodup_range'
    exact (Position.mk.inj heq).2
  · refine (startPairs_levels hsearch hs).imp fun {start start'} hlt it hit hit' => ?_
    have hlevel := (mem_rest.1 hit).1
    have hlevel' := (mem_rest.1 hit').1
    omega

/-! ## The merge of all levels -/

/-- From `lower_bound` on, `++` meets every item with no smaller key once, in order, and is at
`end()` exactly behind the last one. -/
theorem lower_bound_enumerates (hsearch : SearchSound P) (hs : Walkable s) (key : K) :
    ∃ its, s.Enumerates key its := by
  obtain ⟨_, visited, hperm, hsorted, ⟨rfl, hderef⟩, fuel, hwalk⟩ :=
    lower_bound_visits hsearch hs key
  have hinside : ∀ v ∈ visited, s.Inside v.1 := fun v hv =>
    (List.getElem?_eq_some_iff.1 (hderef v hv)).1
  have hsteps := walk_iterate fuel (hwalk fuel (le_refl fuel)) hinside
  refine ⟨visited.map Prod.fst, (hperm.nodup_iff).2 (nodup_rests hsearch hs key),
    fun it => hperm.mem_iff.trans (mem_rests hsearch hs), ?_, fun n hn => ?_, fun n hn => ?_⟩
  · refine hsorted.imp fun {it it'} hle item item' hitem hitem' => ?_
    have hkey : ∀ {it : Position} {item : Item K V}, s.deref it = some item →
        keyIn (s.get_level it.level) it.pos = item.key := by
      intro it item hitem
      have hget : (s.get_level it.level)[it.pos]? = some item := hitem
      simp [keyIn, hget]
    rwa [queueRank, queueRank, Prod.Lex.toLex_le_toLex, hkey hitem, hkey hitem'] at hle
  · rw [length_map] at hn
    rw [(hsteps n hn.le).1 hn, getElem_map]
  · rw [length_map] at hn ⊢
    exact (hsteps n hn).2

end DynamicPGMIndex

/-! ## Three levels -/

open DynamicPGMIndex

/-- A buffer and a level behind it that share the key `3`, with an empty level between them. -/
def sharedKey : DynamicPGMIndex (exactTemplate UInt64 UInt64) where
  used_levels := 9
  data := [[⟨1, 10, false⟩, ⟨3, 11, false⟩, ⟨3, 12, false⟩], [], [⟨3, 13, false⟩, ⟨5, 14, false⟩]]
  pgm := []

theorem sharedKey_enumerates : ∃ its, sharedKey.Enumerates 2 its := by
  have hlevel : ∀ i, sharedKey.get_level i ∈ [] :: sharedKey.data := by
    intro i
    rw [get_level, getD_eq_getElem?_getD]
    cases hi : sharedKey.data[i - min_level]? with
    | none => exact mem_cons_self
    | some level => exact mem_cons_of_mem _ (List.mem_of_getElem? hi)
  have hall : ∀ level ∈ [] :: sharedKey.data,
      Ascends Item.key level ∧ ∀ x ∈ level, x.deleted = false := by
    unfold Ascends
    decide +kernel
  refine lower_bound_enumerates (sound_exactTemplate _ _).search
    ⟨fun i => (hall _ (hlevel i)).1, fun i => (hall _ (hlevel i)).2, ?_⟩ 2
  · intro i _ hi hlt
    have hused : sharedKey.used_levels = 9 := rfl
    have hmin : MinIndexedLevel = 18 := rfl
    omega

end DynamicPGM
end TLI
