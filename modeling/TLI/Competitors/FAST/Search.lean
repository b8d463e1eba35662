import TLI.Competitors.FAST.Layout

/-!
# Search — `lower_bound` on the memory that `buildFAST` leaves

Each loop of the search descends through the blocks of its layout, provided their slots are
allocated.  A SIMD block is searched by comparing all of its keys at once: in a sorted block the
set of keys below the query is determined by its size, which is the child index.
-/

namespace TLI
namespace FAST

open BlockedTree Loop Simd

variable {K : Type} [LinearOrder K] [OrderTop K] [Key K]

/-! ## Slots -/

omit [OrderTop K] in
theorem load_eq {n a : Nat} {v : Mem K} {key : K} (h : v a = some key) (ha : a < n) :
    load n v a = some key := by
  rw [load, if_pos ha, h, Option.getD_some]

omit [Key K] in
/-- Key `c` of level `k` of a SIMD block stands at slot `2 ^ k - 1 + c`. -/
theorem SIMDBlock.slot {l : List K} {levels a i m k c : Nat} {v : Mem K}
    (h : SIMDBlock l levels v a i m) (hm : levels ≤ m) (hk : k < levels) (hc : c < 2 ^ k) :
    v (a + (2 ^ k - 1 + c)) = some (keyAt l (separator i m k c)) := by
  have hslot := h k (by rwa [rounds_one]) c (by rwa [Nat.mul_one])
  rw [blockBase_slot, Nat.mul_one, Nat.mul_one, Slot,
    separator_subtree (by omega : k + 0 ≤ m)] at hslot
  simpa using hslot

/-! ## One SIMD block -/

theorem search_scalar_eq {l : List K} {levels n a i m : Nat} {v : Mem K} {q : K}
    (h : SIMDBlock l levels v a i m) (hm : levels ≤ m) (hn : a + (2 ^ levels - 1) ≤ n) :
    search_scalar n v q levels a = some (descend (keyAt l) q i m levels) := by
  refine searchBlocks_eq Nat.one_pos hm fun k hk b hb => ?_
  have hlevel : k < levels := by rwa [rounds_one] at hk
  have hdepth : blockDepth 1 levels (k * 1) = 1 := by rw [blockDepth]; omega
  have hslots : blockBase 1 (fun _ => 1) k + b * 1 + 1 ≤ 2 ^ levels - 1 := by
    have := block_end_le (fun _ => 1) hk hb
    rwa [rounds_one, blockBase_slot levels] at this
  have hkey : v (a + (blockBase 1 (fun _ => 1) k + b * 1)) =
      some (keyAt l (separator (i + b * 2 ^ (m - k * 1)) (m - k * 1) 0 0)) := h k hk b hb
  rw [load_eq hkey (by omega), hdepth]
  simp [descend]

omit [OrderTop K] in
theorem maskToIndex_of_four (h : SIMD_SIZE K = 4) (bitmask : Nat) :
    maskToIndex K bitmask =
      [0, 9, 1, 2, 9, 9, 9, 3].getD (bitmask &&& (2 ^ (4 - 1) - 1)) 0 := by
  rw [maskToIndex, SIMD_MASK, h, if_pos rfl]

omit [OrderTop K] in
theorem maskToIndex_of_eight (h : SIMD_SIZE K = 8) (bitmask : Nat) :
    maskToIndex K bitmask = popcount (bitmask &&& (2 ^ (8 - 1) - 1)) := by
  rw [maskToIndex, SIMD_MASK, h, if_neg (by decide)]
  by_cases hzero : bitmask &&& (2 ^ (8 - 1) - 1) = 0
  · rw [hzero]
    rfl
  · rw [if_pos hzero]

/-- The table entry, or the number of set bits, is the child index if the keys are sorted. -/
theorem table_eq : ∀ c₀ c₁ c₂ c₃ : Bool, (c₀ → c₁) → (c₂ → c₀) →
    [0, 9, 1, 2, 9, 9, 9, 3].getD (movemask [c₀, c₁, c₂, c₃] &&& (2 ^ (4 - 1) - 1)) 0 =
      bif c₀ then (bif c₂ then 3 else 2) else (bif c₁ then 1 else 0) := by
  decide

theorem popcount_eq : ∀ c₀ c₁ c₂ c₃ c₄ c₅ c₆ c₇ : Bool,
    (c₁ → c₃) → (c₄ → c₁) → (c₀ → c₄) → (c₅ → c₀) → (c₂ → c₅) → (c₆ → c₂) →
    popcount (movemask [c₀, c₁, c₂, c₃, c₄, c₅, c₆, c₇] &&& (2 ^ (8 - 1) - 1)) =
      bif c₀ then (bif c₂ then (bif c₆ then 7 else 6) else (bif c₅ then 5 else 4))
      else (bif c₁ then (bif c₄ then 3 else 2) else (bif c₃ then 1 else 0)) := by
  decide +kernel

omit [OrderTop K] [Key K] in
theorem descend_two (L : Nat → K) (q : K) (i m : Nat) :
    descend L q i m 2 =
      bif decide (L (separator i m 0 0) < q) then
        (bif decide (L (separator i m 1 1) < q) then 3 else 2)
      else (bif decide (L (separator i m 1 0) < q) then 1 else 0) := by
  by_cases h₀ : L (separator i m 0 0) < q
  · by_cases h₂ : L (separator i m 1 1) < q <;> simp [descend, h₀, h₂]
  · by_cases h₁ : L (separator i m 1 0) < q <;> simp [descend, h₀, h₁]

omit [OrderTop K] [Key K] in
theorem descend_three (L : Nat → K) (q : K) (i m : Nat) :
    descend L q i m 3 =
      bif decide (L (separator i m 0 0) < q) then
        (bif decide (L (separator i m 1 1) < q) then
          (bif decide (L (separator i m 2 3) < q) then 7 else 6)
        else (bif decide (L (separator i m 2 2) < q) then 5 else 4))
      else
        (bif decide (L (separator i m 1 0) < q) then
          (bif decide (L (separator i m 2 1) < q) then 3 else 2)
        else (bif decide (L (separator i m 2 0) < q) then 1 else 0)) := by
  have hstep : descend L q i m 3 = 2 * descend L q i m 2 +
      if L (separator i m 2 (descend L q i m 2)) < q then 1 else 0 := rfl
  rw [hstep, descend_two]
  by_cases h₀ : L (separator i m 0 0) < q
  · by_cases h₂ : L (separator i m 1 1) < q
    · by_cases h₆ : L (separator i m 2 3) < q <;> simp [h₀, h₂, h₆]
    · by_cases h₅ : L (separator i m 2 2) < q <;> simp [h₀, h₂, h₅]
  · by_cases h₁ : L (separator i m 1 0) < q
    · by_cases h₄ : L (separator i m 2 1) < q <;> simp [h₀, h₁, h₄]
    · by_cases h₃ : L (separator i m 2 0) < q <;> simp [h₀, h₁, h₃]

omit [OrderTop K] [Key K] in
/-- In a sorted sequence a key further left is below the query if one further right is. -/
theorem below_of_below {L : Nat → K} (hL : Monotone L) {q : K} {x y : Nat} (hxy : x ≤ y) :
    decide (L y < q) = true → decide (L x < q) = true := by
  simp only [decide_eq_true_eq]
  exact fun hy => (hL hxy).trans_lt hy

theorem search_simd_eq {l : List K} (hl : Monotone (keyAt l)) {n a i m : Nat} {v : Mem K} {q : K}
    (h : SIMDBlock l (SIMD_DEPTH K) v a i m) (hm : SIMD_DEPTH K ≤ m)
    (hn : a + 2 ^ SIMD_DEPTH K ≤ n) :
    search_simd n v q a = some (descend (keyAt l) q i m (SIMD_DEPTH K)) := by
  have hload : ∀ k c, k < SIMD_DEPTH K → c < 2 ^ k →
      load n v (a + (2 ^ k - 1 + c)) = some (keyAt l (separator i m k c)) := by
    intro k c hk hc
    have hpow : 2 ^ (k + 1) ≤ 2 ^ SIMD_DEPTH K := Nat.pow_le_pow_right (by decide) hk
    rw [Nat.pow_succ] at hpow
    exact load_eq (h.slot hm hk hc) (by omega)
  -- The last lane lies behind the block; the mask drops it.
  obtain ⟨last, hlast⟩ : ∃ key, load n v (a + (2 ^ SIMD_DEPTH K - 1)) = some key := by
    have := Nat.two_pow_pos (SIMD_DEPTH K)
    exact ⟨_, if_pos (by omega)⟩
  have hbelow : ∀ k c k' c', k < SIMD_DEPTH K → k' < SIMD_DEPTH K →
      (2 * c + 1) * 2 ^ (SIMD_DEPTH K - 1 - k) ≤ (2 * c' + 1) * 2 ^ (SIMD_DEPTH K - 1 - k') →
      decide (keyAt l (separator i m k' c') < q) = true →
        decide (keyAt l (separator i m k c) < q) = true :=
    fun k c k' c' hk hk' h => below_of_below hl (separator_le_separator hm hk hk' h)
  rcases depths_eq K with ⟨hsize, hdepth, -⟩ | ⟨hsize, hdepth, -⟩
  · rw [hdepth] at hload hlast hbelow
    have h₀ : load n v (a + 0) = _ := hload 0 0 (by decide) (by decide)
    have h₁ : load n v (a + 1) = _ := hload 1 0 (by decide) (by decide)
    have h₂ : load n v (a + 2) = _ := hload 1 1 (by decide) (by decide)
    have h₃ : load n v (a + 3) = _ := hload 2 0 (by decide) (by decide)
    have h₄ : load n v (a + 4) = _ := hload 2 1 (by decide) (by decide)
    have h₅ : load n v (a + 5) = _ := hload 2 2 (by decide) (by decide)
    have h₆ : load n v (a + 6) = _ := hload 2 3 (by decide) (by decide)
    have h₇ : load n v (a + 7) = some last := hlast
    have hlanes : List.range 8 = [0, 1, 2, 3, 4, 5, 6, 7] := rfl
    have hindex := popcount_eq _ _ _ _ _ _ _ (Key.cmpgt q last)
      (hbelow 2 0 1 0 (by decide) (by decide) (by decide))
      (hbelow 1 0 2 1 (by decide) (by decide) (by decide))
      (hbelow 2 1 0 0 (by decide) (by decide) (by decide))
      (hbelow 0 0 2 2 (by decide) (by decide) (by decide))
      (hbelow 2 2 1 1 (by decide) (by decide) (by decide))
      (hbelow 1 1 2 3 (by decide) (by decide) (by decide))
    rw [search_simd, hsize, hdepth, descend_three, ← hindex, hlanes]
    simp only [List.mapM_cons, List.mapM_nil, h₀, h₁, h₂, h₃, h₄, h₅, h₆, h₇, Option.pure_def,
      Option.bind_eq_bind, Option.bind_some, List.map_cons, List.map_nil, Key.cmpgt_eq q (keyAt l _)]
    rw [maskToIndex_of_eight hsize]
  · rw [hdepth] at hload hlast hbelow
    have h₀ : load n v (a + 0) = _ := hload 0 0 (by decide) (by decide)
    have h₁ : load n v (a + 1) = _ := hload 1 0 (by decide) (by decide)
    have h₂ : load n v (a + 2) = _ := hload 1 1 (by decide) (by decide)
    have h₃ : load n v (a + 3) = some last := hlast
    have hlanes : List.range 4 = [0, 1, 2, 3] := rfl
    have hindex := table_eq _ _ _ (Key.cmpgt q last)
      (hbelow 1 0 0 0 (by decide) (by decide) (by decide))
      (hbelow 0 0 1 1 (by decide) (by decide) (by decide))
    rw [search_simd, hsize, hdepth, descend_two, ← hindex, hlanes]
    simp only [List.mapM_cons, List.mapM_nil, h₀, h₁, h₂, h₃, Option.pure_def,
      Option.bind_eq_bind, Option.bind_some, List.map_cons, List.map_nil, Key.cmpgt_eq q (keyAt l _)]
    rw [maskToIndex_of_four hsize]

/-! ## Cache lines, pages and the tree -/

theorem searchCacheline_eq {l : List K} (hl : Monotone (keyAt l)) {levels n a i m : Nat}
    {v : Mem K} {q : K} (h : CachelineBlock l levels v a i m) (hm : levels ≤ m)
    (hn : a + 2 ^ levels ≤ n) :
    searchCacheline n v q levels a = some (descend (keyAt l) q i m levels) := by
  refine searchBlocks_eq (SIMD_DEPTH_pos K) hm fun k hk b hb => ?_
  have hblock := h k hk b hb
  have hlevel := (lt_rounds_iff (SIMD_DEPTH_pos K)).1 hk
  have hend := block_end_le
    (fun level => 2 ^ blockDepth (SIMD_DEPTH K) levels level - 1) hk hb
  rw [blockBase_simd_rounds (SIMD_DEPTH_pos K)] at hend
  have hdepth : blockDepth (SIMD_DEPTH K) levels (k * SIMD_DEPTH K) ≤ m - k * SIMD_DEPTH K := by
    rw [blockDepth]
    omega
  have hpos := Nat.two_pow_pos levels
  have hpos' := Nat.two_pow_pos (blockDepth (SIMD_DEPTH K) levels (k * SIMD_DEPTH K))
  beta_reduce at hblock
  simp only
  split
  · rename_i hfull
    rw [hfull] at hblock hdepth hend hpos' ⊢
    exact search_simd_eq hl hblock hdepth (by omega)
  · exact search_scalar_eq hblock hdepth (by omega)

theorem searchPage_eq {l : List K} (hl : Monotone (keyAt l)) {levels n a i m : Nat}
    {v : Mem K} {q : K} (h : FASTPage l levels v a i m) (hm : levels ≤ m)
    (hn : a + 2 ^ (levels + 1) ≤ n) :
    searchPage n v q levels a = some (descend (keyAt l) q i m levels) := by
  refine searchBlocks_eq (CACHE_LINE_DEPTH_pos K) hm fun k hk b hb => ?_
  have hend := block_end_le
    (fun level => 2 ^ blockDepth (CACHE_LINE_DEPTH K) levels level) hk hb
  have htotal := blockBase_cacheline_rounds (CACHE_LINE_DEPTH_pos K) levels
  exact searchCacheline_eq hl (h k hk b hb) (by rw [blockDepth]; omega) (by omega)

/-- The search of the whole tree, within the slots the page loop has gone through. -/
theorem searchPages_eq {l : List K} (hl : Monotone (keyAt l)) {depth n : Nat} {v : Mem K} {q : K}
    (h : Pages l depth v 0 0 depth) (hn : totalSlots K depth ≤ n) :
    searchBlocks (PAGE_CACHE_DEPTH K) depth (pageSlots K depth)
        (fun level => searchPage n v q (blockDepth (PAGE_CACHE_DEPTH K) depth level)) 0 =
      some (descend (keyAt l) q 0 depth depth) := by
  refine searchBlocks_eq (PAGE_CACHE_DEPTH_pos K) le_rfl fun k hk b hb => ?_
  have hend := block_end_le (pageSlots K depth) hk hb
  have hslots := two_pow_le_pageSlots (K := K) depth (k * PAGE_CACHE_DEPTH K)
  rw [totalSlots] at hn
  exact searchPage_eq hl (h k hk b hb) (by rw [blockDepth]; omega) (by omega)

/-! ## Agreement with the sorted array -/

omit [Key K] in
theorem monotone_keyAt {l : List K} (h : l.Pairwise (· ≤ ·)) : Monotone (keyAt l) := by
  intro x y hxy
  unfold keyAt
  by_cases hy : y < l.length
  · rw [List.getElem?_eq_getElem hy, List.getElem?_eq_getElem (by omega)]
    rcases Nat.lt_or_eq_of_le hxy with hlt | rfl
    · exact List.pairwise_iff_getElem.1 h x y (by omega) hy hlt
    · exact le_rfl
  · rw [List.getElem?_eq_none (by omega : l.length ≤ y)]
    exact le_top

omit [Key K] in
/-- The leaf that is reached is the number of keys below the query. -/
theorem descend_eq_countP {l : List K} (h : l.Pairwise (· ≤ ·)) {depth : Nat}
    (hdepth : l.length < 2 ^ depth) (q : K) :
    descend (keyAt l) q 0 depth depth = l.countP fun key => decide (key < q) := by
  obtain ⟨hbelow, habove⟩ := descend_spec (q := q) (monotone_keyAt h) depth le_rfl
  have hlt := descend_lt (L := keyAt l) (q := q) 0 depth depth
  generalize descend (keyAt l) q 0 depth depth = p at hbelow habove hlt
  simp only [Nat.sub_self, Nat.pow_zero, Nat.mul_one] at hbelow habove
  have hp : p ≤ l.length := by
    by_contra hgt
    have htop := hbelow l.length (by omega)
    rw [keyAt, List.getElem?_eq_none le_rfl] at htop
    exact not_top_lt htop
  have hkey : ∀ x, (hx : x < l.length) → keyAt l x = l[x] := by
    intro x hx
    rw [keyAt, List.getElem?_eq_getElem hx, Option.getD_some]
  have htake : (l.take p).countP (fun key => decide (key < q)) = p := by
    have hall : ∀ key ∈ l.take p, decide (key < q) = true := by
      intro key hmem
      obtain ⟨x, hx, rfl⟩ := List.mem_iff_getElem.1 hmem
      have hxp : x < p := by
        rw [List.length_take] at hx
        omega
      rw [List.getElem_take, ← hkey x (by omega)]
      exact decide_eq_true (hbelow x hxp)
    rw [List.countP_eq_length.2 hall, List.length_take, min_eq_left hp]
  have hdrop : (l.drop p).countP (fun key => decide (key < q)) = 0 := by
    refine List.countP_eq_zero.2 fun key hmem => ?_
    obtain ⟨x, hx, rfl⟩ := List.mem_iff_getElem.1 hmem
    rw [List.length_drop] at hx
    rw [List.getElem_drop, ← hkey (p + x) (by omega)]
    simpa using habove (p + x) (by omega) (by omega)
  calc
    p = (l.take p).countP (fun key => decide (key < q)) +
          (l.drop p).countP (fun key => decide (key < q)) := by rw [htake, hdrop, Nat.add_zero]
    _ = l.countP fun key => decide (key < q) := by
          rw [← List.countP_append, List.take_append_drop]

/-! ## `lower_bound` after `buildFAST` -/

/-- `buildFAST` ends, and every `lower_bound` returns the number of smaller keys as soon as the
allocation holds the slots that the builder went through. -/
def Agrees (l : List K) : Prop :=
  ∃ fuel B, buildFAST fuel l = some B ∧
    ∀ n q, B.offset ≤ n → B.lower_bound n q = some (l.countP fun key => decide (key < q))

/-- `buildFAST` ends at `offset = n`, and `n` slots hold all that is written or read. -/
def StaysInside (l : List K) : Prop :=
  ∃ fuel B, buildFAST fuel l = some B ∧ B.n = B.offset ∧ (∀ x, B.v x ≠ none → x < B.n) ∧
    ∀ q, (B.lower_bound B.n q).isSome

omit [OrderTop K] in
theorem treeDepth_sub_one (len : Nat) : treeDepth len - 1 = Nat.log 2 len := by
  rw [treeDepth, Nat.add_sub_cancel]

/-- The allocation of `buildFAST`. -/
def allocated (K : Type) [LinearOrder K] [Key K] (depth : Nat) : Nat :=
  (2 ^ ((depth - 1) / PAGE_CACHE_DEPTH K) - 1) * 2 ^ PAGE_DEPTH K + 2 ^ (depth + 1)

/-- `buildFAST` ends when the page loop does. -/
theorem buildFAST_eq_some_iff {fuel : Nat} {l : List K} {B : Built K} :
    buildFAST fuel l = some B ↔
      storePages fuel l (treeDepth l.length) = some (B.v, B.offset) ∧
        B.depth = treeDepth l.length ∧ B.len = l.length ∧
        B.n = allocated K (treeDepth l.length) := by
  have hdepth : (treeDepth l.length - 1) / PAGE_CACHE_DEPTH K * PAGE_CACHE_DEPTH K +
      treeDepth l.length - (treeDepth l.length - 1) / PAGE_CACHE_DEPTH K * PAGE_CACHE_DEPTH K =
        treeDepth l.length := Nat.add_sub_cancel_left _ _
  rw [buildFAST, hdepth]
  constructor
  · intro h
    obtain ⟨⟨v, offset⟩, hpages, hB⟩ := Option.bind_eq_some_iff.1 h
    rw [← Option.some.inj hB]
    exact ⟨hpages, rfl, rfl, rfl⟩
  · rintro ⟨hpages, hdepth, hlen, hn⟩
    rw [hpages]
    rcases B with ⟨depth, len, n, v, offset⟩
    simp only at hdepth hlen hn
    rw [hdepth, hlen, hn]
    rfl

theorem lower_bound_eq {l : List K} (hsorted : l.Pairwise (· ≤ ·)) {B : Built K}
    (hlen : B.len = l.length) (hdepth : B.depth = treeDepth l.length)
    (hpages : Pages l B.depth B.v 0 0 B.depth) {n : Nat} (hn : totalSlots K B.depth ≤ n) (q : K) :
    B.lower_bound n q = some (l.countP fun key => decide (key < q)) := by
  have hfits : l.length < 2 ^ B.depth := by
    rw [hdepth]
    exact Nat.lt_pow_succ_log_self (by decide) _
  rw [Built.lower_bound, searchPages_eq (monotone_keyAt hsorted) hpages hn,
    descend_eq_countP hsorted hfits, hlen]
  simp [List.countP_le_length]

/-- The page loop can reach its bounds up to `2 ^ w` keys, for the first page level `w` that has
`2 ^ 32` pages. -/
theorem agrees_iff_of_wrap {l : List K} (hne : l ≠ []) (hsorted : l.Pairwise (· ≤ ·)) {w : Nat}
    (hw : PAGE_CACHE_DEPTH K ∣ w) (hle : 32 ≤ w) (hlt : w < 32 + PAGE_CACHE_DEPTH K) :
    Agrees l ↔ l.length < 2 ^ w := by
  have hlen : l.length ≠ 0 := by simpa using hne
  obtain ⟨k, rfl⟩ := hw
  rw [Nat.mul_comm] at hle hlt ⊢
  rw [← Nat.log_lt_iff_lt_pow (by decide) hlen, ← treeDepth_sub_one]
  constructor
  · rintro ⟨fuel, B, hB, -⟩
    have hpages := (storePages_of_some (buildFAST_eq_some_iff.1 hB).1).1 k
    omega
  · intro hlog
    have hpages : ∀ j, j * PAGE_CACHE_DEPTH K < treeDepth l.length →
        j * PAGE_CACHE_DEPTH K < 32 := by
      intro j hj
      have hjk : j < k := Nat.lt_of_mul_lt_mul_right (a := PAGE_CACHE_DEPTH K) (by omega)
      have hmul := Nat.mul_le_mul_right (PAGE_CACHE_DEPTH K) hjk
      rw [Nat.succ_mul] at hmul
      omega
    obtain ⟨v, hrun, -, hblocks⟩ := storePages_spec l hpages le_rfl
    refine ⟨2 ^ 32, ⟨treeDepth l.length, l.length, allocated K (treeDepth l.length), v, _⟩,
      buildFAST_eq_some_iff.2 ⟨hrun, rfl, rfl, rfl⟩, fun n q hn => ?_⟩
    exact lower_bound_eq hsorted rfl rfl hblocks hn q

/-- The allocation is right for up to two page levels. -/
theorem staysInside_iff_of_depth {l : List K} (hne : l ≠ []) (hsorted : l.Pairwise (· ≤ ·)) :
    StaysInside l ↔ l.length < 2 ^ (2 * PAGE_CACHE_DEPTH K) := by
  have hlen : l.length ≠ 0 := by simpa using hne
  have hdepth_pos : 0 < treeDepth l.length := Nat.succ_pos _
  have htotal := totalSlots_eq (K := K) hdepth_pos
  rw [← Nat.log_lt_iff_lt_pow (by decide) hlen, ← treeDepth_sub_one,
    ← Nat.div_lt_iff_lt_mul (PAGE_CACHE_DEPTH_pos K)]
  constructor
  · rintro ⟨fuel, B, hB, hn, -⟩
    obtain ⟨hrun, hdepth, -, halloc⟩ := buildFAST_eq_some_iff.1 hB
    have hoffset := (storePages_of_some hrun).2
    by_contra htwo
    have hless := lt_blockBase_of_two_le (K := K) (not_lt.1 htwo)
    rw [hn, hoffset, htotal, allocated] at halloc
    omega
  · intro htwo
    have hsmall : PAGE_CACHE_DEPTH K ≤ 16 := by
      rcases depths_eq K with h | h <;> omega
    have hpages : ∀ j, j * PAGE_CACHE_DEPTH K < treeDepth l.length →
        j * PAGE_CACHE_DEPTH K < 32 := by
      intro j hj
      have hj' : j ≤ (treeDepth l.length - 1) / PAGE_CACHE_DEPTH K :=
        (Nat.le_div_iff_mul_le (PAGE_CACHE_DEPTH_pos K)).2 (by omega)
      have hmul := Nat.mul_le_mul_right (PAGE_CACHE_DEPTH K) (hj'.trans (Nat.lt_succ_iff.1 htwo))
      omega
    obtain ⟨v, hrun, hwritten, hblocks⟩ := storePages_spec l hpages le_rfl
    have halloc : allocated K (treeDepth l.length) = totalSlots K (treeDepth l.length) := by
      rw [htotal, allocated]
      rcases Nat.le_one_iff_eq_zero_or_eq_one.1 (Nat.lt_succ_iff.1 htwo) with hk | hk
      · rw [hk, blockBase, Nat.pow_zero, Nat.sub_self, Nat.zero_mul]
      · rw [hk, blockBase, blockBase, Nat.zero_mul, Nat.pow_zero, Nat.zero_add, Nat.pow_one]
    refine ⟨2 ^ 32, ⟨treeDepth l.length, l.length, allocated K (treeDepth l.length), v, _⟩,
      buildFAST_eq_some_iff.2 ⟨hrun, rfl, rfl, rfl⟩, halloc, fun x hx => ?_, fun q => ?_⟩
    · by_contra hge
      exact hx (hwritten x (by rw [← halloc]; exact not_lt.1 hge))
    · rw [lower_bound_eq hsorted rfl rfl hblocks (le_of_eq halloc.symm)]
      rfl

/-- `lower_bound` agrees with the sorted array for fewer than `2 ^ 32` keys of 4 bytes and fewer
than `2 ^ 45` keys of 8 bytes; for more keys `buildFAST` does not end. -/
theorem agrees_iff (l₄ : List UInt32) (l₈ : List UInt64) :
    (l₄ ≠ [] → l₄.Pairwise (· ≤ ·) → (Agrees l₄ ↔ l₄.length < 2 ^ 32)) ∧
      (l₈ ≠ [] → l₈.Pairwise (· ≤ ·) → (Agrees l₈ ↔ l₈.length < 2 ^ 45)) :=
  ⟨fun hne hsorted => agrees_iff_of_wrap hne hsorted (by decide) (by decide) (by decide),
    fun hne hsorted => agrees_iff_of_wrap hne hsorted (by decide) (by decide) (by decide)⟩

theorem agrees_three : Agrees [1, 2, (2 : UInt32)] ∧ Agrees [1, 2, (2 : UInt64)] := by
  obtain ⟨h₄, h₈⟩ := agrees_iff [1, 2, 2] [1, 2, 2]
  exact ⟨(h₄ (by decide) (by decide)).2 (by decide), (h₈ (by decide) (by decide)).2 (by decide)⟩

/-- `2 ^ 32` equal keys of 4 bytes. -/
theorem not_agrees_replicate :
    (List.replicate (2 ^ 32) (0 : UInt32)).Pairwise (· ≤ ·) ∧
      ¬ Agrees (List.replicate (2 ^ 32) (0 : UInt32)) := by
  refine ⟨List.pairwise_replicate.2 (Or.inr le_rfl), ?_⟩
  rintro ⟨fuel, B, hB, -⟩
  have hpages := (storePages_of_some (buildFAST_eq_some_iff.1 hB).1).1 2
  have hdepth : treeDepth (List.replicate (2 ^ 32) (0 : UInt32)).length = 33 := by
    rw [List.length_replicate, treeDepth, Nat.log_pow (by decide)]
  rw [hdepth] at hpages
  exact absurd (hpages (by decide)) (by decide)

/-- `buildFAST` allocates what it uses for fewer than `2 ^ 32` keys of 4 bytes and fewer than
`2 ^ 30` keys of 8 bytes, which fit into two levels of pages. -/
theorem staysInside_iff (l₄ : List UInt32) (l₈ : List UInt64) :
    (l₄ ≠ [] → l₄.Pairwise (· ≤ ·) → (StaysInside l₄ ↔ l₄.length < 2 ^ 32)) ∧
      (l₈ ≠ [] → l₈.Pairwise (· ≤ ·) → (StaysInside l₈ ↔ l₈.length < 2 ^ 30)) :=
  ⟨fun hne hsorted => staysInside_iff_of_depth hne hsorted,
    fun hne hsorted => staysInside_iff_of_depth hne hsorted⟩

theorem staysInside_three :
    StaysInside [1, 2, (2 : UInt32)] ∧ StaysInside [1, 2, (2 : UInt64)] := by
  obtain ⟨h₄, h₈⟩ := staysInside_iff [1, 2, 2] [1, 2, 2]
  exact ⟨(h₄ (by decide) (by decide)).2 (by decide), (h₈ (by decide) (by decide)).2 (by decide)⟩

/-- `2 ^ 30` equal keys of 8 bytes. -/
theorem not_staysInside_replicate :
    (List.replicate (2 ^ 30) (0 : UInt64)).Pairwise (· ≤ ·) ∧
      ¬ StaysInside (List.replicate (2 ^ 30) (0 : UInt64)) := by
  have hsorted : (List.replicate (2 ^ 30) (0 : UInt64)).Pairwise (· ≤ ·) :=
    List.pairwise_replicate.2 (Or.inr le_rfl)
  have hne : List.replicate (2 ^ 30) (0 : UInt64) ≠ [] :=
    List.replicate_eq_nil_iff _ |>.not.2 (by decide)
  refine ⟨hsorted, fun hinside => ?_⟩
  have hlt := (staysInside_iff_of_depth hne hsorted).1 hinside
  rw [List.length_replicate] at hlt
  exact absurd hlt (by decide)

end FAST
end TLI
