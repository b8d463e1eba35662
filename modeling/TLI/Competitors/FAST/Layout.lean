import TLI.Competitors.FAST.Model

/-!
# Layout — what `buildFAST` leaves in memory

Each stage of the builder stores blocks of the stage below it, so its layout is `Blocked` over
theirs: `SIMDBlock` over single slots, `CachelineBlock` over SIMD blocks, `FASTPage` over cache
lines, and the whole tree over pages.  `storePages_eq` adds when the page loop comes to an end.
-/

namespace TLI
namespace FAST

open BlockedTree Loop

variable {K : Type} [LinearOrder K] [OrderTop K] [Key K]

/-! ## Layouts -/

/-- The slot `a` holds the root key of a tree over `[i, i + 2 ^ m)`. -/
def Slot (l : List K) (v : Mem K) (a i m : Nat) : Prop :=
  v a = some (keyAt l (separator i m 0 0))

def SIMDBlock (l : List K) (levels : Nat) : Mem K → Nat → Nat → Nat → Prop :=
  Blocked 1 levels (fun _ => 1) fun _ => Slot l

def CachelineBlock (l : List K) (levels : Nat) : Mem K → Nat → Nat → Nat → Prop :=
  Blocked (SIMD_DEPTH K) levels (fun level => 2 ^ blockDepth (SIMD_DEPTH K) levels level - 1)
    fun level => SIMDBlock l (blockDepth (SIMD_DEPTH K) levels level)

def FASTPage (l : List K) (levels : Nat) : Mem K → Nat → Nat → Nat → Prop :=
  Blocked (CACHE_LINE_DEPTH K) levels (fun level => 2 ^ blockDepth (CACHE_LINE_DEPTH K) levels level)
    fun level => CachelineBlock l (blockDepth (CACHE_LINE_DEPTH K) levels level)

/-- The pages of a tree of the given depth. -/
def Pages (l : List K) (depth : Nat) : Mem K → Nat → Nat → Nat → Prop :=
  Blocked (PAGE_CACHE_DEPTH K) depth (pageSlots K depth)
    fun level => FASTPage l (blockDepth (PAGE_CACHE_DEPTH K) depth level)

/-! ## Sizes -/

theorem rounds_one (levels : Nat) : rounds 1 levels = levels := by
  simp [rounds]

theorem blockBase_slot (k : Nat) : blockBase 1 (fun _ => 1) k = 2 ^ k - 1 := by
  induction k with
  | zero => rfl
  | succ k ih =>
      have := Nat.two_pow_pos k
      simp only [blockBase, ih, Nat.mul_one, Nat.pow_succ]
      omega

/-- SIMD blocks of `2 ^ d - 1` keys leave no gaps. -/
theorem blockBase_simd {step levels : Nat} (hstep : 0 < step) :
    ∀ k, k ≤ rounds step levels →
      blockBase step (fun level => 2 ^ blockDepth step levels level - 1) k =
        2 ^ min (k * step) levels - 1 := by
  intro k
  induction k with
  | zero => simp [blockBase]
  | succ k ih =>
      intro hk
      have hlevel : k * step < levels := (lt_rounds_iff hstep).1 hk
      have hmin : min (k * step) levels = k * step := by omega
      have hmul : 2 ^ (k * step) * (2 ^ blockDepth step levels (k * step) - 1) =
          2 ^ (k * step + blockDepth step levels (k * step)) - 2 ^ (k * step) := by
        rw [Nat.mul_sub_one, Nat.pow_add]
      have hle : 2 ^ (k * step) ≤ 2 ^ (k * step + blockDepth step levels (k * step)) :=
        Nat.pow_le_pow_right (by decide) (by omega)
      have hpos := Nat.two_pow_pos (k * step)
      rw [blockBase, ih (by omega), min_succ_mul hlevel, hmin, hmul]
      omega

/-- Cache lines of `2 ^ d` slots take less than twice the slots of the keys. -/
theorem blockBase_cacheline {step : Nat} (hstep : 0 < step) (levels : Nat) :
    ∀ k, k ≤ rounds step levels →
      blockBase step (fun level => 2 ^ blockDepth step levels level) k + 2 ≤
        2 ^ (min (k * step) levels + 1) := by
  intro k
  induction k with
  | zero => simp [blockBase]
  | succ k ih =>
      intro hk
      have hlevel : k * step < levels := (lt_rounds_iff hstep).1 hk
      have hmin : min (k * step) levels = k * step := by omega
      have hprev := ih (by omega)
      have hgrow : 2 ^ (k * step + 1) ≤ 2 ^ (k * step + blockDepth step levels (k * step)) :=
        Nat.pow_le_pow_right (by decide) (by rw [blockDepth]; omega)
      rw [hmin] at hprev
      rw [blockBase, min_succ_mul hlevel, ← Nat.pow_add, Nat.pow_succ _ (_ + _)]
      omega

theorem rounds_mul_ge {step : Nat} (hstep : 0 < step) (levels : Nat) :
    levels ≤ rounds step levels * step := by
  have := (lt_rounds_iff hstep).not.1 (lt_irrefl (rounds step levels))
  omega

/-- A cache line of `levels` levels has one slot more than keys. -/
theorem blockBase_simd_rounds {step : Nat} (hstep : 0 < step) (levels : Nat) :
    blockBase step (fun level => 2 ^ blockDepth step levels level - 1) (rounds step levels) =
      2 ^ levels - 1 := by
  have hrounds := rounds_mul_ge hstep levels
  rw [blockBase_simd hstep _ le_rfl, min_eq_right hrounds]

theorem blockBase_cacheline_rounds {step : Nat} (hstep : 0 < step) (levels : Nat) :
    blockBase step (fun level => 2 ^ blockDepth step levels level) (rounds step levels) ≤
      2 ^ (levels + 1) := by
  have hrounds := rounds_mul_ge hstep levels
  have hbase := blockBase_cacheline hstep levels _ le_rfl
  rw [min_eq_right hrounds] at hbase
  omega

/-! ## The stages of the builder -/

omit [Key K] in
theorem stores_key (l : List K) (levels : Nat) :
    Stores levels (fun _ => 1) (fun _ => Slot l) (fun _ => storeKey l) where
  store level v a i m hlevel hm := by
    have hpow : 2 ^ m = 2 * 2 ^ (m - 1) := by
      rw [← Nat.pow_succ']
      congr 1
      omega
    have hmedian : median i (i + 2 ^ m - 1) = separator i m 0 0 := by
      simp only [median, separator, Nat.zero_mul, Nat.sub_zero, Nat.add_zero, hpow]
      have := Nat.two_pow_pos (m - 1)
      omega
    refine ⟨Function.update v a (some (keyAt l (separator i m 0 0))), ?_, ?_, ?_⟩
    · rw [storeKey, hmedian]
    · intro x hx
      exact Function.update_of_ne (by omega) _ _
    · exact Function.update_self a _ v
  congr level v v' a i m hsame hslot := by
    rw [Slot, hsame a le_rfl (by omega)]
    exact hslot

theorem stores_SIMDblock (l : List K) (levels : Nat) :
    Stores levels (fun level => 2 ^ blockDepth (SIMD_DEPTH K) levels level - 1)
      (fun level => SIMDBlock l (blockDepth (SIMD_DEPTH K) levels level))
      (fun level => storeSIMDblock l (min (SIMD_DEPTH K) (levels - level))) where
  store level v a i m hlevel hm := by
    have hspec := storeBlocks_spec (stores_key l (blockDepth (SIMD_DEPTH K) levels level))
      Nat.one_pos (m := m) (by rw [blockDepth]; omega) v a i
    rwa [blockBase_slot, rounds_one] at hspec
  congr level v v' a i m hsame hblock := by
    refine Blocked.congr (stores_key l _) ?_ hsame hblock
    rw [blockBase_slot, rounds_one]

theorem stores_cachelineBlock (l : List K) (levels : Nat) :
    Stores levels (fun level => 2 ^ blockDepth (CACHE_LINE_DEPTH K) levels level)
      (fun level => CachelineBlock l (blockDepth (CACHE_LINE_DEPTH K) levels level))
      (fun level => storeCachelineBlock l (min (CACHE_LINE_DEPTH K) (levels - level))) where
  store level v a i m hlevel hm := by
    obtain ⟨v', hrun, hframe, hblocked⟩ :=
      storeBlocks_spec (stores_SIMDblock l (blockDepth (CACHE_LINE_DEPTH K) levels level))
        (SIMD_DEPTH_pos K) (m := m) (by rw [blockDepth]; omega) v a i
    rw [blockBase_simd_rounds (SIMD_DEPTH_pos K)] at hrun hframe
    refine ⟨v', ?_, hframe.mono le_rfl (Nat.add_le_add_left (Nat.sub_le _ _) _), hblocked⟩
    rw [blockDepth] at hrun
    rw [storeCachelineBlock, hrun, blockDepth]
  congr level v v' a i m hsame hblock := by
    refine Blocked.congr (stores_SIMDblock l _) ?_ hsame hblock
    rw [blockBase_simd_rounds (SIMD_DEPTH_pos K)]
    exact Nat.sub_le _ _

/-- A page of `levels` levels is filled within `2 ^ (levels + 1)` slots. -/
theorem storeFASTpage_spec (l : List K) {levels m : Nat} (hm : levels ≤ m) (v : Mem K)
    (a i : Nat) :
    ∃ v', storeFASTpage l levels i (i + 2 ^ m) (v, a) = (v', a + 2 ^ (levels + 1)) ∧
      Frame v v' a (a + 2 ^ (levels + 1)) ∧ FASTPage l levels v' a i m := by
  obtain ⟨v', hrun, hframe, hblocked⟩ :=
    storeBlocks_spec (stores_cachelineBlock l levels) (CACHE_LINE_DEPTH_pos K) hm v a i
  have hbase := blockBase_cacheline_rounds (CACHE_LINE_DEPTH_pos K) levels
  exact ⟨v', by rw [storeFASTpage, hrun], hframe.mono le_rfl (by omega), hblocked⟩

omit [OrderTop K] in
theorem two_pow_le_pageSlots (depth level : Nat) :
    2 ^ (blockDepth (PAGE_CACHE_DEPTH K) depth level + 1) ≤ pageSlots K depth level := by
  have hfit : PAGE_CACHE_DEPTH K + 1 ≤ PAGE_DEPTH K := by
    rcases depths_eq K with h | h <;> omega
  refine Nat.pow_le_pow_right (by decide) ?_
  split
  · rw [blockDepth]
    omega
  · exact le_rfl

theorem stores_page (l : List K) (depth : Nat) :
    Stores depth (pageSlots K depth)
      (fun level => FASTPage l (blockDepth (PAGE_CACHE_DEPTH K) depth level))
      (storePage l depth) where
  store level v a i m hlevel hm := by
    have hlevels : blockDepth (PAGE_CACHE_DEPTH K) depth level ≤ m := by
      rw [blockDepth]
      omega
    obtain ⟨v', hrun, hframe, hpage⟩ := storeFASTpage_spec l hlevels v a i
    have hsize : PAGE_SIZE K = 2 ^ PAGE_DEPTH K := by
      rcases depths_eq K with h | h <;> rw [h.2.2.2.1, h.2.2.2.2.2]
    have hslots := two_pow_le_pageSlots (K := K) depth level
    refine ⟨v', ?_, hframe.mono le_rfl (by omega), hpage⟩
    unfold storePage pageSlots
    split
    · have hfull : blockDepth (PAGE_CACHE_DEPTH K) depth level = PAGE_CACHE_DEPTH K := by
        rw [blockDepth]
        omega
      rw [hfull] at hrun
      rw [hrun, hsize]
    · have hlast : blockDepth (PAGE_CACHE_DEPTH K) depth level = depth - level := by
        rw [blockDepth]
        omega
      rw [hlast] at hrun ⊢
      exact hrun
  congr level v v' a i m hsame hblock := by
    refine Blocked.congr (stores_cachelineBlock l _) ?_ hsame hblock
    have hbase := blockBase_cacheline_rounds (CACHE_LINE_DEPTH_pos K)
      (blockDepth (PAGE_CACHE_DEPTH K) depth level)
    exact hbase.trans (two_pow_le_pageSlots depth level)

/-! ## The page loop -/

/-- The slots the page loop goes through. -/
def totalSlots (K : Type) [LinearOrder K] [Key K] (depth : Nat) : Nat :=
  blockBase (PAGE_CACHE_DEPTH K) (pageSlots K depth) (rounds (PAGE_CACHE_DEPTH K) depth)

/-- As long as the counter can reach its bounds, the page loop is `storeBlocks` over pages. -/
theorem storePages_eq (l : List K) {depth : Nat}
    (hpages : ∀ k, k * PAGE_CACHE_DEPTH K < depth → k * PAGE_CACHE_DEPTH K < 32) {fuel : Nat}
    (hfuel : 2 ^ 32 ≤ fuel) :
    storePages fuel l depth =
      some (storeBlocks (PAGE_CACHE_DEPTH K) depth (storePage l depth) 0 (0 + 2 ^ depth)
        (fun _ => none, 0)) := by
  refine repeatForM_eq_some _ _ fun k hk s => ?_
  have hlevel := hpages k ((lt_rounds_iff (PAGE_CACHE_DEPTH_pos K)).1 hk)
  have hbound : 2 ^ (k * PAGE_CACHE_DEPTH K) < 2 ^ 32 :=
    Nat.pow_lt_pow_right (by decide) hlevel
  simp only [Nat.zero_add, Nat.sub_zero]
  exact forUnsigned_eq_some hbound (by omega)

/-- With fewer than `2 ^ 32` pages on every page level, the builder ends and stores the tree. -/
theorem storePages_spec (l : List K) {depth : Nat}
    (hpages : ∀ k, k * PAGE_CACHE_DEPTH K < depth → k * PAGE_CACHE_DEPTH K < 32) {fuel : Nat}
    (hfuel : 2 ^ 32 ≤ fuel) :
    ∃ v, storePages fuel l depth = some (v, totalSlots K depth) ∧
      (∀ x, totalSlots K depth ≤ x → v x = none) ∧ Pages l depth v 0 0 depth := by
  obtain ⟨v, hrun, hframe, hblocked⟩ :=
    storeBlocks_spec (stores_page l depth) (PAGE_CACHE_DEPTH_pos K) le_rfl
      (fun _ => none) 0 0
  rw [storePages_eq l hpages hfuel, hrun, Nat.zero_add]
  rw [Nat.zero_add] at hframe
  exact ⟨v, rfl, fun x hx => hframe x (Or.inr hx), hblocked⟩

/-- With `2 ^ 32` pages on a page level, the page loop never ends. -/
theorem storePages_eq_none (l : List K) {depth k : Nat} (hk : k * PAGE_CACHE_DEPTH K < depth)
    (hwrap : 32 ≤ k * PAGE_CACHE_DEPTH K) (fuel : Nat) : storePages fuel l depth = none := by
  refine repeatForM_eq_none (k := k) (fun s => ?_) _ _
    ((lt_rounds_iff (PAGE_CACHE_DEPTH_pos K)).2 hk)
  exact forUnsigned_eq_none (Nat.pow_le_pow_right (by decide) hwrap) fuel 0 s (by decide)

/-- A page loop that ends has no page level with `2 ^ 32` pages and has gone through all slots. -/
theorem storePages_of_some {l : List K} {depth fuel offset : Nat} {v : Mem K}
    (h : storePages fuel l depth = some (v, offset)) :
    (∀ k, k * PAGE_CACHE_DEPTH K < depth → k * PAGE_CACHE_DEPTH K < 32) ∧
      offset = totalSlots K depth := by
  have hpages : ∀ k, k * PAGE_CACHE_DEPTH K < depth → k * PAGE_CACHE_DEPTH K < 32 := by
    intro k hk
    by_contra hwrap
    rw [storePages_eq_none l hk (not_lt.1 hwrap)] at h
    cases h
  refine ⟨hpages, ?_⟩
  obtain ⟨v', hrun, -⟩ := storePages_spec l hpages le_rfl
  rw [storePages_eq l hpages le_rfl] at hrun
  have hsame : (v, offset) = (v', totalSlots K depth) := by
    rw [← Option.some.inj hrun]
    refine repeatForM_of_some _ (fun k hk s t ht => ?_) h
    have hlevel := hpages k ((lt_rounds_iff (PAGE_CACHE_DEPTH_pos K)).1 hk)
    have hbound : 2 ^ (k * PAGE_CACHE_DEPTH K) < 2 ^ 32 :=
      Nat.pow_lt_pow_right (by decide) hlevel
    simp only [Nat.zero_add, Nat.sub_zero]
    exact forUnsigned_of_some hbound (Nat.zero_le _) ht
  exact congrArg Prod.snd hsame

/-! ## The allocation -/

omit [OrderTop K] in
/-- Every page level in front of the last one consists of full pages. -/
theorem blockBase_full {depth : Nat} :
    ∀ k, k * PAGE_CACHE_DEPTH K < depth →
      blockBase (PAGE_CACHE_DEPTH K) (pageSlots K depth) k =
        blockBase (PAGE_CACHE_DEPTH K) (fun _ => 2 ^ PAGE_DEPTH K) k := by
  intro k
  induction k with
  | zero => exact fun _ => rfl
  | succ k ih =>
      intro hk
      rw [Nat.add_mul, Nat.one_mul] at hk
      rw [blockBase, blockBase, ih (by omega), pageSlots, if_pos hk]

omit [OrderTop K] in
/-- The slots in front of the last page level, and those of the last page level. -/
theorem totalSlots_eq {depth : Nat} (hdepth : 0 < depth) :
    totalSlots K depth =
      blockBase (PAGE_CACHE_DEPTH K) (fun _ => 2 ^ PAGE_DEPTH K)
        ((depth - 1) / PAGE_CACHE_DEPTH K) + 2 ^ (depth + 1) := by
  have hpos := PAGE_CACHE_DEPTH_pos K
  have hrounds : rounds (PAGE_CACHE_DEPTH K) depth = (depth - 1) / PAGE_CACHE_DEPTH K + 1 := by
    have hadd : depth + PAGE_CACHE_DEPTH K - 1 = depth - 1 + PAGE_CACHE_DEPTH K := by omega
    rw [rounds, hadd, Nat.add_div_right _ hpos]
  have hlast : (depth - 1) / PAGE_CACHE_DEPTH K * PAGE_CACHE_DEPTH K < depth :=
    (lt_rounds_iff hpos).1 (by omega)
  have hnone : ¬ (depth - 1) / PAGE_CACHE_DEPTH K * PAGE_CACHE_DEPTH K + PAGE_CACHE_DEPTH K <
      depth := by
    have := (lt_rounds_iff hpos).not.1 (by omega : ¬ (depth - 1) / PAGE_CACHE_DEPTH K + 1 <
      rounds (PAGE_CACHE_DEPTH K) depth)
    rwa [Nat.add_mul, Nat.one_mul] at this
  have hsize : 2 ^ ((depth - 1) / PAGE_CACHE_DEPTH K * PAGE_CACHE_DEPTH K) *
      pageSlots K depth ((depth - 1) / PAGE_CACHE_DEPTH K * PAGE_CACHE_DEPTH K) =
        2 ^ (depth + 1) := by
    rw [pageSlots, if_neg hnone, ← Nat.pow_add, blockDepth]
    congr 1
    omega
  rw [totalSlots, hrounds, blockBase, blockBase_full _ hlast, hsize]

omit [OrderTop K] in
/-- From the third page level on, `buildFAST` allocates too little for the levels in front. -/
theorem lt_blockBase_of_two_le {k : Nat} (hk : 2 ≤ k) :
    (2 ^ k - 1) * 2 ^ PAGE_DEPTH K <
      blockBase (PAGE_CACHE_DEPTH K) (fun _ => 2 ^ PAGE_DEPTH K) k := by
  have hpos := Nat.two_pow_pos (PAGE_DEPTH K)
  induction k, hk using Nat.le_induction with
  | base =>
      have hgrow : 2 ^ 2 ≤ 2 ^ (1 * PAGE_CACHE_DEPTH K) := by
        refine Nat.pow_le_pow_right (by decide) ?_
        rcases depths_eq K with h | h <;> omega
      have hmul := Nat.mul_le_mul_right (2 ^ PAGE_DEPTH K) hgrow
      simp only [blockBase, Nat.zero_mul, Nat.pow_zero, Nat.one_mul, Nat.zero_add] at hmul ⊢
      omega
  | succ k hk ih =>
      have hgrow : 2 ^ k ≤ 2 ^ (k * PAGE_CACHE_DEPTH K) :=
        Nat.pow_le_pow_right (by decide) (Nat.le_mul_of_pos_right k (PAGE_CACHE_DEPTH_pos K))
      have hmul := Nat.mul_le_mul_right (2 ^ PAGE_DEPTH K) hgrow
      have hone := Nat.two_pow_pos k
      have hsplit : (2 ^ (k + 1) - 1) * 2 ^ PAGE_DEPTH K =
          (2 ^ k - 1) * 2 ^ PAGE_DEPTH K + 2 ^ k * 2 ^ PAGE_DEPTH K := by
        rw [← Nat.add_mul, Nat.pow_succ]
        congr 1
        omega
      rw [blockBase, hsplit]
      omega

end FAST
end TLI
