import Mathlib.Dynamics.PeriodicPts.Lemmas
import TLI.Library.XorShift
import TLI.Workload.Generate

/-!
# FastRandom — the states that the random numbers come from

`RandUint32` mixes its state with three shifts of it and returns the lower half.  No state is lost:
the state `0` only leads to itself, and every other state recurs.  Four outputs in a row tell
whether the state is `0`, so the outputs are the same forever only if the state is.  There is such a
state besides `0` (`selfSeed`).
-/

namespace TLI
namespace Workload

open Function XorShift

/-! ## One turn -/

/-- The three assignments to `seed`. -/
def turn (x : BitVec 64) : BitVec 64 :=
  mix (fun x => x <<< 5) (mix (fun x => x >>> 15) (mix (fun x => x <<< 13) x))

theorem toBitVec_fastRandomNext (seed : UInt64) :
    (fastRandomNext seed).toBitVec = turn seed.toBitVec := by
  simp only [fastRandomNext, UInt64.toBitVec_xor, UInt64.toBitVec_shiftLeft,
    UInt64.toBitVec_shiftRight]
  rfl

theorem additive_turn : Additive turn :=
  (additive_shiftLeft 5).mix.comp ((additive_shiftRight 15).mix.comp (additive_shiftLeft 13).mix)

theorem turn_injective : Injective turn :=
  (mix_shiftLeft_injective (by decide)).comp
    ((mix_shiftRight_injective (by decide)).comp (mix_shiftLeft_injective (by decide)))

theorem fastRandomNext_injective : Injective fastRandomNext := by
  intro seed seed' heq
  have hturn := congrArg UInt64.toBitVec heq
  rw [toBitVec_fastRandomNext, toBitVec_fastRandomNext] at hturn
  exact UInt64.toBitVec_inj.1 (turn_injective hturn)

theorem finite_seed : Finite UInt64 :=
  Finite.of_injective (fun seed => seed.toFin) fun _ _ => UInt64.toFin_inj.1

theorem fastRandomNext_bijective : Bijective fastRandomNext := by
  have hfinite := finite_seed
  exact Finite.injective_iff_bijective.1 fastRandomNext_injective

theorem fastRandomNext_zero : fastRandomNext 0 = 0 := rfl

theorem fastRandomNext_xor (seed seed' : UInt64) :
    fastRandomNext (seed ^^^ seed') = fastRandomNext seed ^^^ fastRandomNext seed' := by
  refine UInt64.toBitVec_inj.1 ?_
  rw [toBitVec_fastRandomNext, UInt64.toBitVec_xor, additive_turn, UInt64.toBitVec_xor,
    toBitVec_fastRandomNext, toBitVec_fastRandomNext]

/-! ## What the outputs tell -/

/-- If the lowest bits stay zero for a turn, fifteen more bits were zero before it. -/
theorem lowZero_of_turn {n : Nat} (hn : 15 ≤ n) {x : BitVec 64} (h : LowZero n x)
    (hturn : LowZero n (turn x)) : LowZero (n + 15) x := by
  have hshifted := lowZero_of_mix_shiftLeft (by decide) hturn
  have hmixed : LowZero n (mix (fun x => x <<< 13) x) := by
    intro i hi
    rw [mix, BitVec.getLsbD_xor, h i hi, BitVec.getLsbD_shiftLeft]
    by_cases hik : i < 13
    · simp [hik]
    · simp [h (i - 13) (by omega)]
  exact lowZero_of_mix_shiftLeft (by decide) (hmixed.of_mix_shiftRight hn hshifted)

/-- The output for a state is its lower half. -/
theorem lowZero_of_output {seed : UInt64} (h : seed.toUInt32 = 0) : LowZero 32 seed.toBitVec := by
  intro i hi
  have hbit := congrArg (fun r : UInt32 => r.toBitVec.getLsbD i) h
  simpa [hi] using hbit

/-- Four states in a row with the output `0` begin with the state `0`. -/
theorem eq_zero_of_outputs {seed : UInt64}
    (h : ∀ k, k < 4 → (fastRandomNext^[k] seed).toUInt32 = 0) : seed = 0 := by
  have hlow : ∀ k, k < 4 → LowZero 32 (turn^[k] seed.toBitVec) := by
    intro k hk
    have hsemi : Semiconj UInt64.toBitVec fastRandomNext turn := toBitVec_fastRandomNext
    rw [← (hsemi.iterate_right k).eq]
    exact lowZero_of_output (h k hk)
  have hnext : ∀ n k, 15 ≤ n → LowZero n (turn^[k] seed.toBitVec) →
      LowZero n (turn^[k + 1] seed.toBitVec) → LowZero (n + 15) (turn^[k] seed.toBitVec) := by
    intro n k hn hk hsucc
    rw [iterate_succ_apply'] at hsucc
    exact lowZero_of_turn hn hk hsucc
  -- each of three turns uncovers fifteen bits: 32, 47, 62, 77
  have hfirst : ∀ k, k < 3 → LowZero 47 (turn^[k] seed.toBitVec) := fun k hk =>
    hnext 32 k (by decide) (hlow k (by omega)) (hlow (k + 1) (by omega))
  have hsecond : ∀ k, k < 2 → LowZero 62 (turn^[k] seed.toBitVec) := fun k hk =>
    hnext 47 k (by decide) (hfirst k (by omega)) (hfirst (k + 1) (by omega))
  have hthird : LowZero 77 seed.toBitVec :=
    hnext 62 0 (by decide) (hsecond 0 (by decide)) (hsecond 1 (by decide))
  exact UInt64.toBitVec_inj.1 (hthird.eq_zero (by decide))

theorem mem_fastRandom {seed : UInt64} {k n : Nat} (h : k < n) :
    (fastRandomNext^[k + 1] seed).toUInt32 ∈ fastRandom seed n := by
  induction n generalizing seed k with
  | zero => exact absurd h (Nat.not_lt_zero k)
  | succ n ih =>
      cases k with
      | zero => exact List.mem_cons_self
      | succ k => exact List.mem_cons_of_mem _ (ih (Nat.lt_of_succ_lt_succ h))

/-! ## The states that are reached -/

/-- Every state recurs, and the one that collapses, `0`, is reached from nowhere else: the next four
outputs are never all `0`. -/
theorem neverCollapses :
    Bijective fastRandomNext ∧ fastRandomNext 0 = 0 ∧
      ∀ seed, seed ≠ 0 → ∀ calls,
        fastRandomNext^[calls] seed ≠ 0 ∧
          (∃ n, 0 < n ∧ fastRandomNext^[n] (fastRandomNext^[calls] seed) =
            fastRandomNext^[calls] seed) ∧
          ∃ r ∈ fastRandom (fastRandomNext^[calls] seed) 4, r ≠ 0 := by
  have hnonzero : ∀ seed, seed ≠ 0 → ∀ calls, fastRandomNext^[calls] seed ≠ 0 := by
    intro seed hseed calls hzero
    refine hseed (fastRandomNext_injective.iterate calls ?_)
    rw [hzero, iterate_fixed fastRandomNext_zero]
  refine ⟨fastRandomNext_bijective, fastRandomNext_zero, fun seed hseed calls =>
    ⟨hnonzero seed hseed calls, ?_, ?_⟩⟩
  · have hfinite := finite_seed
    obtain ⟨n, hpos, hperiod⟩ := fastRandomNext_injective.mem_periodicPts
      (fastRandomNext^[calls] seed)
    exact ⟨n, hpos, hperiod⟩
  · by_contra hall
    push Not at hall
    refine hnonzero seed hseed (calls + 1) (eq_zero_of_outputs fun k hk => ?_)
    have hmem := @mem_fastRandom (fastRandomNext^[calls] seed) k _ hk
    rw [← iterate_add_apply, Nat.add_right_comm, Nat.add_assoc] at hmem
    rw [← iterate_add_apply]
    exact hall _ hmem

/-- A thousand calls after the seed of `generate`. -/
theorem neverCollapses_generate : fastRandomNext^[1000] 42 ≠ 0 :=
  (neverCollapses.2.2 42 (by decide) 1000).1

/-! ## States that lead to themselves -/

/-- The outputs are the same forever exactly if the state leads to itself. -/
theorem sameForever_iff (seed : UInt64) :
    (∀ k, (fastRandomNext^[k + 2] seed).toUInt32 = (fastRandomNext^[k + 1] seed).toUInt32) ↔
      fastRandomNext seed = seed := by
  constructor
  · intro hsame
    have hiterate : ∀ k, fastRandomNext^[k] (fastRandomNext (fastRandomNext seed) ^^^
        fastRandomNext seed) = fastRandomNext^[k + 2] seed ^^^ fastRandomNext^[k + 1] seed := by
      intro k
      induction k with
      | zero => rfl
      | succ k ih =>
          rw [iterate_succ_apply', ih, fastRandomNext_xor, ← iterate_succ_apply' fastRandomNext,
            ← iterate_succ_apply' fastRandomNext]
    have hzero := eq_zero_of_outputs fun k _ => by
      rw [hiterate k, UInt64.toUInt32_xor, hsame k, UInt32.xor_self]
    exact fastRandomNext_injective (UInt64.xor_eq_zero_iff.1 hzero)
  · intro hfixed k
    rw [iterate_fixed hfixed, iterate_fixed hfixed]

/-- A state besides `0` that leads to itself. -/
def selfSeed : UInt64 := 0x162138cca8325911

example : fastRandomNext selfSeed = selfSeed ∧ fastRandomNext 42 ≠ 42 := by
  decide

end Workload
end TLI
