import TLI.Competitors.DynamicPGM.Cascade

/-!
# Insert — one insert, and when it loses a pair

A level behind the buffer is empty or full, up to the last one.  So the first level with room is
the first empty one, and what is merged fills it, unless the merged parts share a key.
-/

namespace TLI
namespace DynamicPGM

open List LowerBound

variable {K V : Type} [LinearOrder K]

namespace DynamicPGMIndex

variable {P : Template K V} {s : DynamicPGMIndex P} {n : Nat} {p : K × V}

/-! ## The invariant -/

/-- Every level is sorted, holds no deleted item and has its index. -/
structure Coherent (s : DynamicPGMIndex P) : Prop extends Sized s where
  ascends : ∀ i, Ascends Item.key (s.get_level i)
  alive : ∀ i, ∀ x ∈ s.get_level i, x.deleted = false
  pgm_eq : ∀ i, MinIndexedLevel ≤ i → i < s.used_levels → s.get_level i ≠ [] →
    s.get_pgm i = P.build (s.get_level i)

/-- A level behind the buffer is empty or full; the last one is not empty. -/
structure Valid (s : DynamicPGMIndex P) : Prop extends Coherent s where
  used : 1 + min_level < s.used_levels
  buffer_le : (s.get_level min_level).length ≤ first_level_max_size
  full : ∀ i, min_level < i → i + 1 < s.used_levels →
    s.get_level i = [] ∨ (s.get_level i).length = 2 ^ i
  last_ne : s.get_level (s.used_levels - 1) ≠ []
  last_le : (s.get_level (s.used_levels - 1)).length ≤ 2 ^ (s.used_levels - 1)

/-! ## The target level -/

/-- The loop stops at the first empty level.  The slots required there are its whole capacity, or
at most that if the level is new. -/
theorem findTarget_spec (h : s.Valid) (m : Nat) :
    ∀ i slots, min_level < i → i + m = s.used_levels → slots ≤ 2 ^ i →
      (i < s.used_levels → slots = 2 ^ i) →
      ∃ n slots', s.findTarget m i slots = (i + n, slots') ∧ i + n ≤ s.used_levels ∧
        (∀ l, i ≤ l → l < i + n → s.get_level l ≠ []) ∧
        (i + n < s.used_levels → s.get_level (i + n) = [] ∧ slots' = 2 ^ (i + n)) ∧
        slots' ≤ 2 ^ (i + n) ∧
        slots' = slots + ((List.range' i n).flatMap s.get_level).length := by
  induction m with
  | zero =>
      intro i slots _ hm hle _
      refine ⟨0, slots, rfl, by omega, fun l hl hlt => by omega, fun hlt => by omega, hle, ?_⟩
      simp
  | succ m ih =>
      intro i slots hi hm hle heq
      have hslots := heq (by omega)
      rw [findTarget]
      by_cases hnil : s.get_level i = []
      · rw [hnil, length_nil, Nat.sub_zero, if_pos hle]
        refine ⟨0, slots, rfl, by omega, fun l hl hlt => by omega, fun _ => ⟨hnil, hslots⟩, hle, ?_⟩
        simp
      · have hpos : 0 < (s.get_level i).length := length_pos_iff.2 hnil
        have hpow : 0 < 2 ^ i := Nat.two_pow_pos i
        have hsucc : 2 ^ (i + 1) = 2 ^ i + 2 ^ i := by rw [Nat.pow_succ, Nat.mul_two]
        rw [if_neg (by omega)]
        -- Levels in front of the last one are full, so the required slots double with the level.
        have hnext : slots + (s.get_level i).length ≤ 2 ^ (i + 1) ∧
            (i + 1 < s.used_levels → slots + (s.get_level i).length = 2 ^ (i + 1)) := by
          rcases Nat.lt_or_ge (i + 1) s.used_levels with hlt | hge
          · have hfull := (h.full i hi hlt).resolve_left hnil
            omega
          · have hlast := h.last_le
            rw [show s.used_levels - 1 = i by omega] at hlast
            omega
        obtain ⟨n, slots', hfind, hused, hne, hstop, hle', hsum⟩ :=
          ih (i + 1) _ (by omega) (by omega) hnext.1 hnext.2
        have hshift : i + 1 + n = i + (n + 1) := by omega
        rw [hshift] at hfind hused hne hstop hle'
        refine ⟨n + 1, slots', hfind, hused, fun l hl hlt => ?_, hstop, hle', ?_⟩
        · rcases Nat.lt_or_eq_of_le hl with hl | rfl
          · exact hne l hl hlt
          · exact hnil
        · rw [hsum, range'_succ, flatMap_cons, length_append]
          omega

/-- The target is the first empty level behind the buffer; the levels in front of it fill it, or it
is new and has room for them. -/
structure Target (s : DynamicPGMIndex P) (n : Nat) : Prop where
  le : 1 + min_level + n ≤ s.used_levels
  ne : ∀ l, min_level < l → l < 1 + min_level + n → s.get_level l ≠ []
  empty : s.get_level (1 + min_level + n) = []
  room : 2 ^ (1 + min_level) + (s.levelItems n).length ≤ 2 ^ (1 + min_level + n)
  fits : 1 + min_level + n < s.used_levels →
    2 ^ (1 + min_level) + (s.levelItems n).length = 2 ^ (1 + min_level + n)

theorem exists_target (h : s.Valid) :
    ∃ n, s.Target n ∧ s.findTarget (s.used_levels - (min_level + 1)) (min_level + 1)
      (first_level_max_size + 1) =
        (min_level + 1 + n, 2 ^ (1 + min_level) + (s.levelItems n).length) := by
  have hused := h.used
  obtain ⟨n, slots, hfind, hle, hne, hstop, hslots, hsum⟩ :=
    findTarget_spec h (s.used_levels - (min_level + 1)) (min_level + 1) (first_level_max_size + 1)
      (Nat.lt_succ_self _) (by omega) (by decide) fun _ => by decide
  rw [Nat.add_comm min_level 1] at hfind hle hne hstop hslots hsum ⊢
  have hcount : slots = 2 ^ (1 + min_level) + (s.levelItems n).length := by
    rw [hsum]
    exact congrArg₂ _ (by decide) rfl
  rw [hcount] at hfind hslots hstop
  refine ⟨n, ⟨hle, fun l hl hlt => hne l (by omega) hlt, ?_, hslots, fun hlt => (hstop hlt).2⟩,
    hfind⟩
  rcases Nat.lt_or_eq_of_le hle with hinside | heq
  · exact (hstop hinside).1
  · exact h.toSized.get_level_of_ge heq.ge

/-- The buffer with the new item, merged with the levels in front of the target. -/
def merged (s : DynamicPGMIndex P) (p : K × V) (n : Nat) : List (Item K V) :=
  (s.withTarget (1 + min_level + n)).cascade
    (insertLower Item.key (Item.ofPair p) (s.get_level min_level)) n

/-- The index after a full buffer has been merged into its target. -/
def mergedInto (s : DynamicPGMIndex P) (p : K × V) (n : Nat) : DynamicPGMIndex P :=
  (s.withTarget (1 + min_level + n)).filled n (s.merged p n)

/-! ## The new item and the buffer -/

/-- The position where an item is inserted into the sorted buffer. -/
theorem insertIdx_lowerBoundIn (x : Item K V) (level : List (Item K V)) :
    level.insertIdx (lowerBoundIn level x.key) x = insertLower Item.key x level :=
  insertIdx_length_front x level

theorem alive_insertLower {level : List (Item K V)} (h : ∀ x ∈ level, x.deleted = false) :
    ∀ x ∈ insertLower Item.key (Item.ofPair p) level, x.deleted = false := by
  intro x hx
  rcases mem_cons.1 ((insertLower_perm _ _).subset hx) with rfl | hx
  · rfl
  · exact h x hx

/-- The buffer has no slot left. -/
def Full (s : DynamicPGMIndex P) : Prop :=
  ¬ (s.get_level min_level).length < first_level_max_size

theorem Valid.length_first (h : s.Valid) (hfull : s.Full) (p : K × V) :
    (insertLower Item.key (Item.ofPair p) (s.get_level min_level)).length =
      2 ^ (1 + min_level) := by
  have hbuffer : (s.get_level min_level).length = first_level_max_size :=
    le_antisymm h.buffer_le (not_lt.1 hfull)
  rw [(insertLower_perm _ _).length_eq, length_cons, hbuffer]
  decide

/-- A pair that the buffer does not hold is not ignored. -/
theorem insert_eq [DecidableEq V] (hnew : ∀ x ∈ s.get_level min_level, x.toPair ≠ p) :
    s.insert p =
      if (s.get_level min_level).length < first_level_max_size then
        some { s.setLevel min_level
            (insertLower Item.key (Item.ofPair p) (s.get_level min_level)) with
          used_levels := if s.used_levels = min_level then min_level + 1 else s.used_levels }
      else
        (s.withTarget (s.findTarget (s.used_levels - (min_level + 1)) (min_level + 1)
            (first_level_max_size + 1)).1).pairwise_logarithmic_merge (Item.ofPair p)
          ((s.findTarget (s.used_levels - (min_level + 1)) (min_level + 1)
            (first_level_max_size + 1)).1 - 1)
          (s.findTarget (s.used_levels - (min_level + 1)) (min_level + 1)
            (first_level_max_size + 1)).2
          (lowerBoundIn (s.get_level min_level) p.1) := by
  have hother : ((s.get_level min_level)[lowerBoundIn (s.get_level min_level) p.1]?.any
      fun x => x.key = p.1 ∧ x.value = p.2) = false := by
    cases hget : (s.get_level min_level)[lowerBoundIn (s.get_level min_level) p.1]? with
    | none => rfl
    | some x =>
        refine decide_eq_false fun heq => hnew x (mem_of_getElem? hget) ?_
        exact Prod.ext heq.1 heq.2
  have hvalue : (Item.ofPair p).value = p.2 := rfl
  have hitems := insertIdx_lowerBoundIn (Item.ofPair p) (s.get_level min_level)
  rw [Item.key_ofPair] at hitems
  simp only [insert, insertItem, Item.key_ofPair, hvalue, hother, Bool.false_eq_true, if_false,
    hitems]
  rfl

/-! ## A buffer with room -/

/-- The buffer after an insert that finds room in it. -/
def buffered (s : DynamicPGMIndex P) (p : K × V) : DynamicPGMIndex P :=
  s.setLevel min_level (insertLower Item.key (Item.ofPair p) (s.get_level min_level))

theorem insert_of_room [DecidableEq V] (h : s.Valid)
    (hnew : ∀ x ∈ s.get_level min_level, x.toPair ≠ p)
    (hroom : (s.get_level min_level).length < first_level_max_size) :
    s.insert p = some (s.buffered p) := by
  have hused := h.used
  have hne : s.used_levels ≠ min_level := by omega
  rw [insert_eq hnew, if_pos hroom, if_neg hne]
  rfl

theorem Valid.get_level_buffered (h : s.Valid) (p : K × V) :
    (s.buffered p).get_level min_level =
      insertLower Item.key (Item.ofPair p) (s.get_level min_level) := by
  have hused := h.used
  have hdata := h.data
  exact get_level_setLevel_self _ _ _ (by omega)

theorem get_level_buffered_of_gt {i : Nat} (hi : min_level < i) :
    (s.buffered p).get_level i = s.get_level i :=
  get_level_setLevel_of_ne _ _ _ _ (by omega)

theorem Valid.buffered (h : s.Valid) (p : K × V)
    (hroom : (s.get_level min_level).length < first_level_max_size) : (s.buffered p).Valid := by
  have hused := h.used
  have hself : ∀ i, i ≤ min_level → (s.buffered p).get_level i =
      insertLower Item.key (Item.ofPair p) (s.get_level min_level) := by
    intro i hi
    have hzero : i - min_level = min_level - min_level := by omega
    rw [get_level, hzero]
    exact h.get_level_buffered p
  have hother : ∀ i, min_level < i → (s.buffered p).get_level i = s.get_level i :=
    fun i hi => get_level_buffered_of_gt hi
  have hlast : min_level < s.used_levels - 1 := by omega
  have hsized : Sized (s.buffered p) := by
    refine ⟨?_, h.pgm⟩
    rw [DynamicPGMIndex.buffered, length_data_setLevel]
    exact h.data
  refine ⟨⟨hsized, fun i => ?_, fun i => ?_, fun i hi => ?_⟩, hused, ?_,
    fun i hi => (hother i hi).symm ▸ h.full i hi, ?_, ?_⟩
  · rcases Nat.lt_or_ge min_level i with hi | hi
    · rw [hother i hi]
      exact h.ascends i
    · rw [hself i hi]
      exact insertLower_ascends (h.ascends min_level)
  · rcases Nat.lt_or_ge min_level i with hi | hi
    · rw [hother i hi]
      exact h.alive i
    · rw [hself i hi]
      exact alive_insertLower (h.alive min_level)
  · rw [hother i (lt_of_lt_of_le (by decide) hi)]
    exact h.pgm_eq i hi
  · rw [hself min_level le_rfl, (insertLower_perm _ _).length_eq]
    exact hroom
  · exact (hother _ hlast).symm ▸ h.last_ne
  · exact (hother _ hlast).symm ▸ h.last_le

theorem Valid.stored_buffered (h : s.Valid) (p : K × V) :
    (s.buffered p).stored ~ Item.ofPair p :: s.stored := by
  obtain ⟨others, hbefore, hafter⟩ := DynamicPGMIndex.stored_buffered h.toSized h.used
    (insertLower Item.key (Item.ofPair p) (s.get_level min_level))
  rw [hbefore]
  refine (Perm.of_eq hafter).trans ?_
  exact (insertLower_perm _ _).append_right others

/-! ## A full buffer -/

omit [LinearOrder K] in
theorem levelItems_withTarget (s : DynamicPGMIndex P) (i n : Nat) :
    (s.withTarget i).levelItems n = s.levelItems n :=
  flatMap_congr fun l _ => get_level_withTarget s i l

omit [LinearOrder K] in
theorem Target.lt_used (ht : s.Target n) :
    1 + min_level + n < (s.withTarget (1 + min_level + n)).used_levels := by
  rw [used_withTarget ht.le]
  omega

theorem insert_of_full [DecidableEq V] (h : s.Valid)
    (hnew : ∀ x ∈ s.get_level min_level, x.toPair ≠ p) (hfull : s.Full) :
    ∃ n, s.Target n ∧ s.insert p = some (s.mergedInto p n) := by
  obtain ⟨n, ht, hfind⟩ := exists_target h
  refine ⟨n, ht, ?_⟩
  have hup : min_level + 1 + n - 1 = min_level + n := by omega
  have hlevel : (s.withTarget (1 + min_level + n)).get_level min_level = s.get_level min_level :=
    get_level_withTarget s _ min_level
  have hfirst := h.length_first hfull p
  have hitems := insertIdx_lowerBoundIn (Item.ofPair p) (s.get_level min_level)
  rw [Item.key_ofPair] at hitems
  rw [← hitems, ← hlevel] at hfirst
  rw [insert_eq hnew, if_neg hfull, hfind]
  dsimp only
  rw [hup, Nat.add_comm min_level 1, ← hlevel]
  rw [merge_into_empty ((get_level_withTarget s _ _).trans ht.empty) hfirst
    (by rw [levelItems_withTarget]), hlevel, hitems]
  rfl

theorem merged_subset (s : DynamicPGMIndex P) (p : K × V) (n : Nat) :
    s.merged p n ⊆
      insertLower Item.key (Item.ofPair p) (s.get_level min_level) ++ s.levelItems n := by
  rw [← levelItems_withTarget s (1 + min_level + n)]
  exact cascade_subset _ n

theorem Coherent.merged_ascends (h : s.Coherent) (p : K × V) (n : Nat) :
    Ascends Item.key (s.merged p n) := by
  refine cascade_ascends (insertLower_ascends (h.ascends min_level)) (fun i => ?_) n
  rw [get_level_withTarget]
  exact h.ascends i

theorem Coherent.merged_alive (h : s.Coherent) (p : K × V) (n : Nat) :
    ∀ x ∈ s.merged p n, x.deleted = false := by
  intro x hx
  rcases mem_append.1 (merged_subset s p n hx) with hx | hx
  · exact alive_insertLower (h.alive min_level) x hx
  · obtain ⟨l, -, hxl⟩ := mem_flatMap.1 hx
    exact h.alive l x hxl

/-- The target holds what has been merged, the levels below it nothing, those above it what they
held before. -/
theorem Target.get_level (hs : Sized s) (ht : s.Target n) (p : K × V) (i : Nat) :
    i < 1 + min_level + n ∧ (s.mergedInto p n).get_level i = [] ∨
      i = 1 + min_level + n ∧ (s.mergedInto p n).get_level i = s.merged p n ∨
      1 + min_level + n < i ∧ (s.mergedInto p n).get_level i = s.get_level i := by
  rcases lt_trichotomy i (1 + min_level + n) with hi | rfl | hi
  · exact .inl ⟨hi, get_level_filled_of_lt hi⟩
  · exact .inr (.inl ⟨rfl, get_level_filled_self (hs.withTarget _) ht.lt_used⟩)
  · exact .inr (.inr ⟨hi, (get_level_filled_of_gt hi).trans (get_level_withTarget s _ i)⟩)

theorem Target.used_mergedInto (ht : s.Target n) (p : K × V) :
    (s.mergedInto p n).used_levels = max s.used_levels (1 + min_level + n + 1) := by
  rw [mergedInto, used_filled, used_withTarget ht.le]

theorem Coherent.mergedInto (h : s.Coherent) (ht : s.Target n) (p : K × V) :
    (s.mergedInto p n).Coherent := by
  have hsized := h.toSized.withTarget (1 + min_level + n)
  refine ⟨hsized.filled, fun i => ?_, fun i => ?_, fun i hi hlt hne => ?_⟩
  · rcases ht.get_level h.toSized p i with ⟨-, heq⟩ | ⟨-, heq⟩ | ⟨-, heq⟩ <;> rw [heq]
    · exact Pairwise.nil
    · exact h.merged_ascends p n
    · exact h.ascends i
  · rcases ht.get_level h.toSized p i with ⟨-, heq⟩ | ⟨-, heq⟩ | ⟨-, heq⟩ <;> rw [heq]
    · exact fun x hx => absurd hx not_mem_nil
    · exact h.merged_alive p n
    · exact h.alive i
  · rw [ht.used_mergedInto] at hlt
    rcases ht.get_level h.toSized p i with ⟨-, heq⟩ | ⟨rfl, heq⟩ | ⟨hgt, heq⟩ <;>
      rw [heq] at hne ⊢
    · exact absurd rfl hne
    · exact get_pgm_filled_self hsized ht.lt_used hi
    · rw [DynamicPGMIndex.mergedInto, get_pgm_filled_of_gt hgt, get_pgm_withTarget]
      exact h.pgm_eq i hi (by omega) hne

/-- Everything that is not merged stays. -/
theorem Target.stored_mergedInto (hs : Sized s) (ht : s.Target n) (p : K × V) :
    ∃ others, s.stored = s.get_level min_level ++ s.levelItems n ++ others ∧
      (s.mergedInto p n).stored = s.merged p n ++ others := by
  have hlevels : (s.withTarget (1 + min_level + n)).get_level = s.get_level :=
    funext fun l => get_level_withTarget s _ l
  obtain ⟨hbefore, hafter⟩ := stored_filled (hs.withTarget _) (s.merged p n) ht.lt_used
    (by rw [hlevels]; exact ht.empty)
  rw [stored_withTarget hs, hlevels, levelItems_withTarget] at hbefore
  exact ⟨_, hbefore, hafter.trans (by rw [hlevels])⟩

/-- The merge leaves a valid index if it drops nothing. -/
theorem Valid.mergedInto (h : s.Valid) (ht : s.Target n) (p : K × V)
    (hlen : (s.merged p n).length = 2 ^ (1 + min_level) + (s.levelItems n).length) :
    (s.mergedInto p n).Valid := by
  have hused := h.used
  have hle := ht.le
  -- The last level is the target or was the last one before.
  have hlast : 1 + min_level + n = s.used_levels ∨ 1 + min_level + n < s.used_levels - 1 := by
    rcases Nat.lt_or_eq_of_le hle with hinside | heq
    · refine .inr (lt_of_le_of_ne (by omega) fun heq => h.last_ne ?_)
      rw [← heq]
      exact ht.empty
    · exact .inl heq
  have hlevel : (s.mergedInto p n).used_levels - 1 = 1 + min_level + n ∧
        1 + min_level + n = s.used_levels ∨
      (s.mergedInto p n).used_levels - 1 = s.used_levels - 1 ∧
        1 + min_level + n < s.used_levels - 1 := by
    rw [ht.used_mergedInto]
    omega
  have hne : s.merged p n ≠ [] := by
    intro hnil
    rw [hnil, length_nil] at hlen
    have hpos : 0 < 2 ^ (1 + min_level) := by decide
    omega
  refine ⟨h.toCoherent.mergedInto ht p, ?_, ?_, fun i hi hlt => ?_, ?_, ?_⟩
  · rw [ht.used_mergedInto]
    exact hused.trans_le (le_max_left _ _)
  · rw [DynamicPGMIndex.mergedInto, get_level_filled_of_lt (by omega)]
    exact Nat.zero_le _
  · rw [ht.used_mergedInto] at hlt
    rcases ht.get_level h.toSized p i with ⟨-, heq⟩ | ⟨rfl, heq⟩ | ⟨hgt, heq⟩ <;> rw [heq]
    · exact .inl rfl
    · exact .inr (hlen.trans (ht.fits (by omega)))
    · exact h.full i hi (by omega)
  · rcases hlevel with ⟨heq, hnew⟩ | ⟨heq, hold⟩ <;> rw [heq]
    · rcases ht.get_level h.toSized p (1 + min_level + n) with ⟨hi, -⟩ | ⟨-, heq⟩ | ⟨hi, -⟩
      · omega
      · rwa [heq]
      · omega
    · rw [DynamicPGMIndex.mergedInto, get_level_filled_of_gt hold, get_level_withTarget]
      exact h.last_ne
  · rcases hlevel with ⟨heq, hnew⟩ | ⟨heq, hold⟩ <;> rw [heq]
    · rcases ht.get_level h.toSized p (1 + min_level + n) with ⟨hi, -⟩ | ⟨-, heq⟩ | ⟨hi, -⟩
      · omega
      · rw [heq, hlen]
        exact ht.room
      · omega
    · rw [DynamicPGMIndex.mergedInto, get_level_filled_of_gt hold, get_level_withTarget]
      exact h.last_le

/-! ## When a merge loses nothing -/

/-- If the buffer is full, no key occurs twice among the new one, the buffer and the levels in
front of the first empty one. -/
def Spread (s : DynamicPGMIndex P) (key : K) : Prop :=
  s.Full → ∀ j, min_level < j → j < s.used_levels →
    (∀ l, min_level < l → l ≤ j → s.get_level l ≠ []) →
    (∀ x ∈ s.get_level j, x.key ≠ key) ∧
      ∀ i, min_level ≤ i → i < j → KeysDisjoint (s.get_level i) (s.get_level j)

/-- These are the parts of the cascade. -/
theorem Target.spread_iff (ht : s.Target n) (hfull : s.Full) :
    s.Spread p.1 ↔ (s.withTarget (1 + min_level + n)).PartsDisjoint
      (insertLower Item.key (Item.ofPair p) (s.get_level min_level)) n := by
  have hle := ht.le
  simp only [PartsDisjoint, levelItems_withTarget, get_level_withTarget]
  constructor
  · intro h k hk x hx y hy
    obtain ⟨hnew, hlevels⟩ := h hfull (1 + min_level + k) (by omega) (by omega)
      fun l hl hlt => ht.ne l hl (by omega)
    rcases mem_append.1 hx with hx | hx
    · rcases mem_cons.1 ((insertLower_perm _ _).subset hx) with rfl | hx
      · exact (hnew y hy).symm
      · exact hlevels min_level le_rfl (by omega) x hx y hy
    · obtain ⟨l, hl, hxl⟩ := mem_flatMap.1 hx
      rw [mem_range'_1] at hl
      exact hlevels l (by omega) hl.2 x hxl y hy
  · intro h _ j hj hused hne
    have hbelow : j < 1 + min_level + n := by
      by_contra hge
      exact hne (1 + min_level + n) (by omega) (not_lt.1 hge) ht.empty
    have hparts := h (j - (1 + min_level)) (by omega)
    rw [Nat.add_sub_cancel' (by omega)] at hparts
    refine ⟨fun y hy => ?_, fun i hi hij x hx => hparts x (mem_append.2 ?_)⟩
    · have hnew := (insertLower_perm (f := Item.key) (Item.ofPair p)
        (s.get_level min_level)).symm.subset mem_cons_self
      exact (hparts (Item.ofPair p) (mem_append_left _ hnew) y hy).symm
    · rcases Nat.lt_or_eq_of_le hi with hlt | rfl
      · refine .inr (mem_flatMap.2 ⟨i, ?_, hx⟩)
        rw [mem_range'_1]
        omega
      · exact .inl ((insertLower_perm _ _).symm.subset (mem_cons_of_mem _ hx))

theorem Spread.merged_perm (h : s.Spread p.1) (ht : s.Target n) (hfull : s.Full) :
    s.merged p n ~ Item.ofPair p :: (s.get_level min_level ++ s.levelItems n) := by
  have hperm := cascade_perm n ((ht.spread_iff hfull).1 h)
  rw [levelItems_withTarget] at hperm
  exact hperm.trans ((insertLower_perm _ _).append_right _)

/-- Two parts with a common key: the merged items are fewer than those that went in. -/
theorem Valid.length_merged_lt (h : s.Valid) (ht : s.Target n) (hfull : s.Full)
    (hspread : ¬ s.Spread p.1) :
    (s.merged p n).length < (s.get_level min_level).length + (s.levelItems n).length + 1 := by
  have hlt := length_cascade_lt (insertLower_ascends (x := Item.ofPair p) (h.ascends min_level))
    (fun i => by rw [get_level_withTarget]; exact h.ascends i) n
    (mt (ht.spread_iff hfull).2 hspread)
  rw [levelItems_withTarget, (insertLower_perm _ _).length_eq, length_cons] at hlt
  rw [merged]
  omega

/-! ## One insert -/

/-- A pair that the buffer does not hold: nothing is lost and the buffer holds nothing else that is
new, unless a merge meets a key twice. -/
theorem insert_spec [DecidableEq V] (h : s.Valid)
    (hnew : ∀ x ∈ s.get_level min_level, x.toPair ≠ p) :
    ∃ s', s.insert p = some s' ∧ s'.Coherent ∧
      (s.Spread p.1 → s'.Valid ∧ s'.stored ~ Item.ofPair p :: s.stored ∧
        ∀ x ∈ s'.get_level min_level, x.toPair = p ∨ x ∈ s.get_level min_level) ∧
      (¬ s.Spread p.1 → s'.stored.length < s.stored.length + 1) := by
  by_cases hroom : (s.get_level min_level).length < first_level_max_size
  · refine ⟨s.buffered p, insert_of_room h hnew hroom, (h.buffered p hroom).toCoherent,
      fun _ => ⟨h.buffered p hroom, h.stored_buffered p, fun x hx => ?_⟩,
      fun hspread => absurd (fun hfull => absurd hroom hfull) hspread⟩
    rw [h.get_level_buffered p] at hx
    rcases mem_cons.1 ((insertLower_perm _ _).subset hx) with rfl | hx
    · exact .inl rfl
    · exact .inr hx
  · obtain ⟨n, ht, hinsert⟩ := insert_of_full h hnew hroom
    obtain ⟨others, hbefore, hafter⟩ := ht.stored_mergedInto h.toSized p
    refine ⟨s.mergedInto p n, hinsert, h.toCoherent.mergedInto ht p,
      fun hspread => ⟨?_, ?_, fun x hx => ?_⟩, fun hspread => ?_⟩
    · have hperm := hspread.merged_perm ht hroom
      have hfirst := h.length_first hroom p
      rw [(insertLower_perm _ _).length_eq, length_cons] at hfirst
      refine h.mergedInto ht p ?_
      rw [hperm.length_eq, length_cons, length_append]
      omega
    · rw [hbefore, hafter]
      exact (hspread.merged_perm ht hroom).append_right others
    · rw [mergedInto, get_level_filled_of_lt (by omega)] at hx
      exact absurd hx not_mem_nil
    · have hlt := h.length_merged_lt ht hroom hspread
      rw [hbefore, hafter, length_append, length_append, length_append]
      omega

end DynamicPGMIndex
end DynamicPGM
end TLI
