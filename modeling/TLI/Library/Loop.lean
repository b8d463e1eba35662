import Mathlib.Algebra.Group.Nat.Defs
import Mathlib.Logic.Function.Basic
import Mathlib.Order.Nat

/-!
# Loop — counting loops, with exact and with 32-bit counters

`repeatFor` is the loop `for (i = 0; i < n; ++i)` whose counter does not wrap, `repeatForM` the
same with a body that may fail.  `forUnsigned` compares a 32-bit counter with a bound of any size.
A bound the counter can reach makes it the exact loop; a larger one makes it run for ever.
-/

namespace TLI
namespace Loop

variable {σ : Type*}

/-- `for (i = 0; i < n; ++i)` -/
def repeatFor (body : Nat → σ → σ) : Nat → σ → σ
  | 0, s => s
  | n + 1, s => body n (repeatFor body n s)

/-- `for (i = 0; i < n; ++i)` with a body that may fail. -/
def repeatForM (body : Nat → σ → Option σ) : Nat → σ → Option σ
  | 0, s => some s
  | n + 1, s => (repeatForM body n s).bind (body n)

theorem repeatFor_invariant (p : σ → Prop) {body : Nat → σ → σ} {s : σ} (hs : p s)
    (hbody : ∀ k t, p t → p (body k t)) : ∀ n, p (repeatFor body n s)
  | 0 => hs
  | n + 1 => hbody n _ (repeatFor_invariant p hs hbody n)

/-- Only the turns that are taken matter. -/
theorem repeatFor_congr {body body' : Nat → σ → σ} (s : σ) :
    ∀ n, (∀ k, k < n → body k = body' k) → repeatFor body n s = repeatFor body' n s := by
  intro n
  induction n with
  | zero => exact fun _ => rfl
  | succ n ih =>
      intro h
      rw [repeatFor, repeatFor, ih fun k hk => h k (Nat.lt_succ_of_lt hk), h n (Nat.lt_succ_self n)]

theorem repeatForM_eq_some {bodyM : Nat → σ → Option σ} {body : Nat → σ → σ} (s : σ) :
    ∀ n, (∀ k, k < n → ∀ s, bodyM k s = some (body k s)) →
      repeatForM bodyM n s = some (repeatFor body n s) := by
  intro n
  induction n with
  | zero => exact fun _ => rfl
  | succ n ih =>
      intro h
      rw [repeatForM, ih fun k hk => h k (by omega)]
      exact h n (by omega) _

/-- A loop that ends has gone through the turns of the exact loop. -/
theorem repeatForM_of_some {bodyM : Nat → σ → Option σ} {body : Nat → σ → σ} {s : σ} :
    ∀ n, (∀ k, k < n → ∀ s t, bodyM k s = some t → t = body k s) →
      ∀ {t}, repeatForM bodyM n s = some t → t = repeatFor body n s := by
  intro n
  induction n with
  | zero =>
      intro _ t ht
      exact (Option.some.inj ht).symm
  | succ n ih =>
      intro h t ht
      obtain ⟨t', ht', hlast⟩ := Option.bind_eq_some_iff.1 ht
      rw [repeatFor, ← ih (fun k hk => h k (by omega)) ht']
      exact h n (by omega) _ _ hlast

/-- A turn that fails whatever its state makes the loop fail. -/
theorem repeatForM_eq_none {bodyM : Nat → σ → Option σ} {k : Nat} (hk : ∀ s, bodyM k s = none)
    (s : σ) : ∀ n, k < n → repeatForM bodyM n s = none := by
  intro n
  induction n with
  | zero => intro h; omega
  | succ n ih =>
      intro h
      rw [repeatForM, Option.bind_eq_none_iff]
      intro s' hs'
      rcases Nat.lt_succ_iff_lt_or_eq.1 h with h | rfl
      · rw [ih h] at hs'
        cases hs'
      · exact hk s'

/-- A loop that assigns under distinct keys: every key holds what it was assigned. -/
theorem repeatFor_update {κ β : Type*} [DecidableEq κ] (key : Nat → κ) (value : Nat → β)
    (start : κ → β) (x : κ) : ∀ {n}, (∀ i j, i < j → j < n → key i ≠ key j) →
      (∀ i, i < n → key i = x →
        repeatFor (fun i f => Function.update f (key i) (value i)) n start x = value i) ∧
      ((∀ i, i < n → key i ≠ x) →
        repeatFor (fun i f => Function.update f (key i) (value i)) n start x = start x)
  | 0, _ => ⟨fun i hi => absurd hi (Nat.not_lt_zero i), fun _ => rfl⟩
  | n + 1, hne => by
      have ih := repeatFor_update key value start x fun i j hij hj =>
        hne i j hij (Nat.lt_succ_of_lt hj)
      rw [repeatFor]
      by_cases hx : x = key n
      · rw [hx, Function.update_self]
        refine ⟨fun i hi heq => ?_, fun hfresh => absurd rfl (hfresh n (Nat.lt_succ_self n))⟩
        by_contra hvalue
        refine hne i n ?_ (Nat.lt_succ_self n) heq
        exact lt_of_le_of_ne (Nat.lt_succ_iff.1 hi) fun hin => hvalue (by rw [hin])
      · rw [Function.update_of_ne hx]
        refine ⟨fun i hi heq => ih.1 i ?_ heq, fun hfresh => ih.2 fun i hi => hfresh i (by omega)⟩
        exact lt_of_le_of_ne (Nat.lt_succ_iff.1 hi) fun hin => hx (by rw [← heq, hin])

/-- `for (i = start; i < start + n; ++i) if (stop i) return i;`, or `start + n`. -/
def scan (stop : Nat → Bool) : Nat → Nat → Nat
  | 0, i => i
  | n + 1, i => if stop i then i else scan stop n (i + 1)

theorem scan_le (stop : Nat → Bool) : ∀ n i, i ≤ scan stop n i ∧ scan stop n i ≤ i + n := by
  intro n
  induction n with
  | zero => exact fun i => ⟨le_rfl, le_rfl⟩
  | succ n ih =>
      intro i
      rw [scan]
      split
      · exact ⟨le_rfl, by omega⟩
      · have := ih (i + 1)
        omega

/-- Nothing in front of the result stops the scan. -/
theorem scan_before (stop : Nat → Bool) :
    ∀ n i j, i ≤ j → j < scan stop n i → stop j = false := by
  intro n
  induction n with
  | zero =>
      intro i j hij hj
      rw [scan] at hj
      omega
  | succ n ih =>
      intro i j hij hj
      rw [scan] at hj
      split at hj
      · omega
      · rename_i hstop
        rcases Nat.eq_or_lt_of_le hij with rfl | hlt
        · simpa using hstop
        · exact ih (i + 1) j hlt hj

/-- The result stops the scan unless the scan went through. -/
theorem scan_stop (stop : Nat → Bool) :
    ∀ n i, scan stop n i < i + n → stop (scan stop n i) = true := by
  intro n
  induction n with
  | zero =>
      intro i h
      rw [scan] at h
      omega
  | succ n ih =>
      intro i h
      rw [scan] at h ⊢
      split
      · assumption
      · rename_i hstop
        rw [if_neg hstop] at h
        exact ih (i + 1) (by omega)

/-- A scan that nothing stops goes through. -/
theorem scan_eq_end {stop : Nat → Bool} {n i : Nat}
    (h : ∀ j, i ≤ j → j < i + n → stop j = false) : scan stop n i = i + n := by
  by_contra hne
  have hle := scan_le stop n i
  have hstop := scan_stop stop n i (by omega)
  rw [h _ hle.1 (by omega)] at hstop
  cases hstop

/-- A scan stops at the first index that stops it. -/
theorem scan_eq {stop : Nat → Bool} {n i k : Nat} (hik : i ≤ k) (hk : k < i + n)
    (hbefore : ∀ j, i ≤ j → j < k → stop j = false) (hstop : stop k = true) :
    scan stop n i = k := by
  have hle := scan_le stop n i
  rcases Nat.lt_trichotomy (scan stop n i) k with hlt | heq | hgt
  · have := scan_stop stop n i (by omega)
    rw [hbefore _ hle.1 hlt] at this
    cases this
  · exact heq
  · rw [scan_before stop n i k hik hgt] at hstop
    cases hstop

theorem scan_congr {stop stop' : Nat → Bool} {n i : Nat}
    (h : ∀ j, i ≤ j → j < i + n → stop j = stop' j) : scan stop n i = scan stop' n i := by
  induction n generalizing i with
  | zero => rfl
  | succ n ih =>
      rw [scan, scan, h i le_rfl (by omega), ih fun j hij hj => h j (by omega) (by omega)]

/-- A scan in two stages, the second from where the first went through. -/
theorem scan_add (stop : Nat → Bool) (n m i : Nat) :
    scan stop (n + m) i =
      if scan stop n i < i + n then scan stop n i else scan stop m (i + n) := by
  induction n generalizing i with
  | zero => simp only [scan, Nat.zero_add, Nat.add_zero, Nat.lt_irrefl, if_false]
  | succ n ih =>
      rw [Nat.succ_add, scan, scan]
      by_cases hstop : stop i = true
      · rw [if_pos hstop, if_pos hstop, if_pos (by omega)]
      · rw [if_neg hstop, if_neg hstop, ih]
        simp only [Nat.add_assoc, Nat.add_comm 1 n]

/-- A scan of a list passes the elements that `dropWhile` drops. -/
theorem drop_scan {α : Type*} {xs : List α} {stop : Nat → Bool} {p : α → Bool}
    (h : ∀ i (hi : i < xs.length), stop i = !p xs[i]) (n : Nat) :
    ∀ i, i + n = xs.length → xs.drop (scan stop n i) = (xs.drop i).dropWhile p := by
  induction n with
  | zero =>
      intro i hi
      rw [scan, List.drop_eq_nil_of_le (by omega), List.dropWhile_nil]
  | succ n ih =>
      intro i hi
      have hlt : i < xs.length := by omega
      rw [scan, h i hlt, List.drop_eq_getElem_cons hlt, List.dropWhile_cons]
      cases p xs[i] with
      | true => exact ih (i + 1) (by omega)
      | false => exact List.drop_eq_getElem_cons hlt

/-- The first hit of a partial function on a range, and the hits behind it. -/
theorem filterMap_range' {β : Type*} (f : Nat → Option β) (n i : Nat) :
    (scan (fun j => (f j).isSome) n i = i + n ∧ (List.range' i n).filterMap f = []) ∨
      ∃ j b, scan (fun j => (f j).isSome) n i = j ∧ i ≤ j ∧ j < i + n ∧ f j = some b ∧
        (List.range' i n).filterMap f =
          b :: (List.range' (j + 1) (i + n - (j + 1))).filterMap f := by
  induction n generalizing i with
  | zero => exact Or.inl ⟨rfl, rfl⟩
  | succ n ih =>
      rw [scan, List.range'_succ]
      cases hf : f i with
      | some b =>
          refine Or.inr ⟨i, b, if_pos rfl, le_rfl, by omega, hf, ?_⟩
          rw [List.filterMap_cons_some hf, show i + (n + 1) - (i + 1) = n by omega]
      | none =>
          rw [if_neg (by simp), List.filterMap_cons_none hf]
          rcases ih (i + 1) with ⟨hend, hnil⟩ | ⟨j, b, hscan, hij, hj, hb, hrest⟩
          · exact Or.inl ⟨by omega, hnil⟩
          · refine Or.inr ⟨j, b, hscan, by omega, by omega, hb, ?_⟩
            rw [hrest, show i + 1 + n - (j + 1) = i + (n + 1) - (j + 1) by omega]

/-- `for (unsigned i = …; i < bound; ++i)`, stopped after `fuel` turns. -/
def forUnsigned (bound : Nat) (body : Nat → σ → σ) : Nat → Nat → σ → Option σ
  | 0, _, _ => none
  | fuel + 1, i, s =>
      if i < bound then forUnsigned bound body fuel ((i + 1) % 2 ^ 32) (body i s) else some s

/-- However many turns were allowed, a loop that ends is the exact one. -/
theorem forUnsigned_of_some {bound : Nat} {body : Nat → σ → σ} {s t : σ} (hbound : bound < 2 ^ 32) :
    ∀ {fuel i}, i ≤ bound → forUnsigned bound body fuel i (repeatFor body i s) = some t →
      t = repeatFor body bound s := by
  intro fuel
  induction fuel with
  | zero =>
      intro i _ h
      cases h
  | succ fuel ih =>
      intro i hi h
      rw [forUnsigned] at h
      split at h
      · rw [Nat.mod_eq_of_lt (by omega)] at h
        exact ih (by omega) h
      · have hi : i = bound := by omega
        rw [← hi]
        exact (Option.some.inj h).symm

theorem forUnsigned_eq_some {bound : Nat} {body : Nat → σ → σ} {s : σ} (hbound : bound < 2 ^ 32)
    {fuel : Nat} (hfuel : bound < fuel) :
    forUnsigned bound body fuel 0 s = some (repeatFor body bound s) := by
  suffices hrest : ∀ left i fuel, bound = i + left → left < fuel →
      forUnsigned bound body fuel i (repeatFor body i s) = some (repeatFor body bound s) from
    hrest bound 0 fuel (by omega) hfuel
  intro left
  induction left with
  | zero =>
      intro i fuel hi hfuel
      obtain ⟨fuel, rfl⟩ := Nat.exists_eq_succ_of_ne_zero (by omega : fuel ≠ 0)
      rw [forUnsigned, if_neg (by omega), hi, Nat.add_zero]
  | succ left ih =>
      intro i fuel hi hfuel
      obtain ⟨fuel, rfl⟩ := Nat.exists_eq_succ_of_ne_zero (by omega : fuel ≠ 0)
      rw [forUnsigned, if_pos (by omega), Nat.mod_eq_of_lt (by omega)]
      exact ih (i + 1) fuel (by omega) (by omega)

/-- A 32-bit counter never reaches a larger bound. -/
theorem forUnsigned_eq_none {bound : Nat} {body : Nat → σ → σ} (hbound : 2 ^ 32 ≤ bound) :
    ∀ fuel i s, i < 2 ^ 32 → forUnsigned bound body fuel i s = none := by
  intro fuel
  induction fuel with
  | zero => exact fun _ _ _ => rfl
  | succ fuel ih =>
      intro i s hi
      rw [forUnsigned, if_pos (by omega)]
      exact ih _ _ (Nat.mod_lt _ (by decide))

end Loop
end TLI
