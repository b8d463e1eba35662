import TLI.Competitors.MABTree.Model
import TLI.Library.MachineInt
import TLI.Library.Truncation

/-!
# Predict — when the arithmetic of a prediction is defined

* `Call` — the floating-point computations whose result is converted to `int`.
* `Call.Safe` — nothing is divided by zero, and the exact value fits an `int`.
* `predict_calls`, `midp_calls` — the computations of `predict_pos` and `compute_midp_err`.

Between two separators a prediction is safe.  Without one of them it is safe exactly for keys within
reach of the node's first and last key (`WithinReach`).
-/

namespace TLI
namespace MABTree

open List Rounding

/-! ## Computations -/

inductive Call
  | compute_predict_pos (key lo_key hi_key : UInt64) (lo_pos hi_pos : Int)
  /-- `int(double(a) / b * c)` -/
  | scale (a b c : Int)

def FitsInt (n : Int) : Prop :=
  -2 ^ 31 ≤ n ∧ n < 2 ^ 31

namespace Call

/-- The exact value, rounded as the code does; the keys are subtracted modulo `2^64`. -/
def value : Call → Int
  | .compute_predict_pos key lo_key hi_key lo_pos hi_pos =>
      ⌈(((key - lo_key).toNat : Int) : ℚ) / ((hi_key - lo_key).toNat : Int) *
        (hi_pos - lo_pos : Int)⌉ + lo_pos
  | .scale a b c => truncate ((a : ℚ) / b * c)

/-- What is divided by differs from zero. -/
def Divides : Call → Prop
  | .compute_predict_pos _ lo_key hi_key _ _ => hi_key ≠ lo_key
  | .scale _ b _ => b ≠ 0

def Safe (c : Call) : Prop :=
  c.Divides ∧ FitsInt c.value

end Call

/-- Where it is defined, `compute_predict_pos` has its exact value. -/
def Exact (a : Arithmetic UInt64) : Prop :=
  ∀ key lo_key hi_key lo_pos hi_pos, (Call.compute_predict_pos key lo_key hi_key lo_pos hi_pos).Safe →
    a.compute_predict_pos key lo_key hi_key lo_pos hi_pos =
      (Call.compute_predict_pos key lo_key hi_key lo_pos hi_pos).value

/-- The computations that correct a predicted position. -/
def correct_calls (t : Traits) (slotuse : Nat) (midp_err pos lo_pos : Int) : List Call :=
  if midp_err > t.correct_threshold then
    let mid : Int := ((slotuse - 1) / 2 : Nat)
    let midp_est := mid + midp_err
    if pos < midp_est then [.scale (pos - lo_pos) (midp_est - lo_pos) midp_err]
    else if pos > midp_est then
      [.scale ((slotuse : Int) - 1 - pos) ((slotuse : Int) - 1 - midp_est) midp_err]
    else []
  else []

/-- The computations of `_predict_correct_pos`. -/
def predict_correct_calls (p : Params UInt64) (slotuse : Nat) (midp_err : Int)
    (key lo_key hi_key : UInt64) (lo_pos : Int) : List Call :=
  .compute_predict_pos key lo_key hi_key lo_pos ((slotuse : Int) - 1) ::
    correct_calls p.traits slotuse midp_err
      (p.arithmetic.compute_predict_pos key lo_key hi_key lo_pos ((slotuse : Int) - 1)) lo_pos

/-- The computations of `predict_pos`. -/
def predict_calls (p : Params UInt64) (slotkey : List UInt64) (midp_err : Int) (key : UInt64)
    (lo_key hi_key : Option UInt64) : List Call :=
  if slotkey.length > p.traits.predict_threshold then
    match lo_key, hi_key with
    | some lo, some hi => predict_correct_calls p slotkey.length midp_err key lo hi (-1)
    | _, _ =>
        match slotkey.head?, slotkey.getLast? with
        | some lo, some hi => predict_correct_calls p slotkey.length midp_err key lo hi 0
        | _, _ => []
  else []

/-- The computation of `compute_midp_err`. -/
def midp_calls (slotkey : List UInt64) : List Call :=
  if slotkey.length < 2 then []
  else
    let mid := (slotkey.length - 1) / 2
    match slotkey[mid]?, slotkey.head?, slotkey.getLast? with
    | some key, some lo, some hi => [.compute_predict_pos key lo hi 0 ((slotkey.length : Int) - 1)]
    | _, _, _ => []

/-! ## Bounds -/

/-- The error at the middle does not lead behind the last slot. -/
def MidpBounded (midp_err : Int) (slotuse : Nat) : Prop :=
  midp_err ≤ (slotuse / 2 : Nat)

theorem MidpBounded.mono {midp_err : Int} {n m : Nat} (h : MidpBounded midp_err n) (hnm : n ≤ m) :
    MidpBounded midp_err m :=
  le_trans h (Int.ofNat_le.2 (Nat.div_le_div_right hnm))

theorem midpBounded_zero (n : Nat) : MidpBounded 0 n :=
  Int.natCast_nonneg _

/-- The last position that is corrected within `int`. -/
def reach (t : Traits) (slotuse : Nat) (midp_err : Int) : Nat :=
  if midp_err > t.correct_threshold then
    min (2 ^ 31 - 1) (slotuse - 1 +
      ((2 ^ 31 + 1) * (slotuse / 2 - midp_err.toNat) - 1) / midp_err.toNat)
  else 2 ^ 31 - 1

theorem scale_safe {a b c : Int} (ha : 0 ≤ a) (hab : a ≤ b) (hb : 0 < b) (hc : 0 ≤ c)
    (hmax : c < 2 ^ 31) : (Call.scale a b c).Safe := by
  obtain ⟨hlow, hhigh⟩ := truncate_part ha hab hb hc
  exact ⟨ne_of_gt hb, by rw [Call.value]; omega, by rw [Call.value]; omega⟩

theorem scale_neg_safe_iff {a b c : Int} (ha : a ≤ 0) (hb : 0 < b) (hc : 0 ≤ c) :
    (Call.scale a b c).Safe ↔ (-2 ^ 31 - 1) * b < a * c := by
  rw [← lt_truncate_neg_iff ha hb hc]
  have hhigh := truncate_neg_nonpos ha hb hc
  constructor
  · intro h
    have hlow := h.2.1
    rw [Call.value] at hlow
    omega
  · intro h
    exact ⟨ne_of_gt hb, by rw [Call.value]; omega, by rw [Call.value]; omega⟩

section Correction

variable {t : Traits} {slotuse : Nat} {midp_err pos lo_pos : Int}

theorem le_reach (hshort : slotuse < 2 ^ 16) : slotuse - 1 ≤ reach t slotuse midp_err := by
  rw [reach]
  split
  · exact le_min (by omega) (Nat.le_add_right _ _)
  · omega

theorem reach_lt : reach t slotuse midp_err < 2 ^ 31 := by
  rw [reach]
  split
  · exact lt_of_le_of_lt (min_le_left _ _) (by decide)
  · decide

/-- Up to the last slot a correction is a part of the error at the middle. -/
theorem correct_calls_safe (hpos : 0 < slotuse) (hshort : slotuse < 2 ^ 16)
    (hmidp : MidpBounded midp_err slotuse) (hlo : lo_pos ≤ pos) (hhi : pos ≤ (slotuse : Int) - 1) :
    ∀ c ∈ correct_calls t slotuse midp_err pos lo_pos, c.Safe := by
  rw [MidpBounded] at hmidp
  intro c hc
  rw [correct_calls] at hc
  split at hc
  · dsimp only at hc
    split at hc
    · rw [mem_singleton.1 hc]
      exact scale_safe (by omega) (by omega) (by omega) (by omega) (by omega)
    · split at hc
      · rw [mem_singleton.1 hc]
        exact scale_safe (by omega) (by omega) (by omega) (by omega) (by omega)
      · exact absurd hc not_mem_nil
  · exact absurd hc not_mem_nil

/-- Behind the last slot a correction grows with the distance. -/
theorem correct_calls_behind (hpos : 0 < slotuse) (hshort : slotuse < 2 ^ 16)
    (hmidp : MidpBounded midp_err slotuse) (hhi : (slotuse : Int) - 1 < pos)
    (hfits : pos < 2 ^ 31) :
    (∀ c ∈ correct_calls t slotuse midp_err pos lo_pos, c.Safe) ↔
      pos ≤ reach t slotuse midp_err := by
  rw [MidpBounded] at hmidp
  rw [correct_calls, reach]
  split
  · obtain ⟨m, rfl⟩ := Int.eq_ofNat_of_zero_le (by omega : 0 ≤ midp_err)
    obtain ⟨k, rfl⟩ := Int.eq_ofNat_of_zero_le (by omega : 0 ≤ pos)
    have hm : 0 < m := by omega
    -- What is left of the slots behind the middle.
    obtain ⟨g, hg⟩ : ∃ g, slotuse / 2 = m + g := Nat.exists_eq_add_of_le (by omega)
    have hgap : ((slotuse : Int) - 1 - ((((slotuse - 1) / 2 : Nat) : Int) + m)) = g := by omega
    dsimp only
    rw [if_neg (by omega), if_pos (by omega), forall_mem_singleton, hgap, Int.toNat_natCast, hg,
      Nat.add_sub_cancel_left]
    rcases Nat.eq_zero_or_pos g with rfl | hgpos
    · refine iff_of_false (fun h => h.1 rfl) ?_
      rw [Nat.mul_zero, Nat.zero_sub, Nat.zero_div]
      omega
    · rw [scale_neg_safe_iff (by omega) (by omega) (by omega)]
      have hdiv := @Nat.le_div_iff_mul_le m (k - (slotuse - 1)) ((2 ^ 31 + 1) * g - 1) hm
      have hscaled : (k - (slotuse - 1)) * m ≤ (2 ^ 31 + 1) * g - 1 ↔
          (-2 ^ 31 - 1) * (g : Int) < ((slotuse : Int) - 1 - k) * m := by
        have hdist : ((slotuse : Int) - 1 - k) = -((k - (slotuse - 1) : Nat) : Int) := by omega
        rw [hdist, neg_mul, ← Int.natCast_mul]
        omega
      rw [← hscaled, ← hdiv]
      omega
  · refine iff_of_true (fun c hc => absurd hc not_mem_nil) (by omega)

theorem correct_calls_safe_iff (hpos : 0 < slotuse) (hshort : slotuse < 2 ^ 16)
    (hmidp : MidpBounded midp_err slotuse) (hlo : lo_pos ≤ pos) (hfits : pos < 2 ^ 31) :
    (∀ c ∈ correct_calls t slotuse midp_err pos lo_pos, c.Safe) ↔
      pos ≤ reach t slotuse midp_err := by
  rcases le_or_gt pos ((slotuse : Int) - 1) with hhi | hhi
  · have hreach := @le_reach t slotuse midp_err hshort
    exact iff_of_true (correct_calls_safe hpos hshort hmidp hlo hhi) (by omega)
  · exact correct_calls_behind hpos hshort hmidp hhi hfits

end Correction

/-! ## Predictions -/

section Prediction

variable {p : Params UInt64} {slotuse : Nat} {midp_err : Int} {key lo hi : UInt64}

theorem toNat_sub_pos (h : hi ≠ lo) : 0 < (hi - lo).toNat := by
  rw [Nat.pos_iff_ne_zero]
  intro hzero
  have hsub : hi - lo = 0 := UInt64.toNat_inj.1 hzero
  exact h (by simpa using congrArg (· + lo) hsub)

theorem toNat_sub_le {a b c : UInt64} (hab : a ≤ b) (hbc : b ≤ c) :
    (b - a).toNat ≤ (c - a).toNat := by
  rw [UInt64.toNat_sub_of_le _ _ hab, UInt64.toNat_sub_of_le _ _ (hab.trans hbc)]
  have hle := UInt64.le_iff_toNat_le.1 hbc
  omega

/-- A key between the two keys is predicted between the two positions. -/
theorem value_mem (lo_pos hi_pos : Int) (hne : hi ≠ lo)
    (hle : (key - lo).toNat ≤ (hi - lo).toNat) (hspan : lo_pos ≤ hi_pos) :
    lo_pos ≤ (Call.compute_predict_pos key lo hi lo_pos hi_pos).value ∧
      (Call.compute_predict_pos key lo hi lo_pos hi_pos).value ≤ hi_pos := by
  have hpos := toNat_sub_pos hne
  have hnonneg := ceil_nonneg (a := (key - lo).toNat) (b := (hi - lo).toNat)
    (c := hi_pos - lo_pos) (by omega) (by omega) (by omega)
  have hhigh := (ceil_le_iff (a := (key - lo).toNat) (b := (hi - lo).toNat)
    (c := hi_pos - lo_pos) (m := hi_pos - lo_pos) (by omega)).2 (by
      rw [mul_comm]
      exact mul_le_mul_of_nonneg_left (by omega) (by omega))
  rw [Call.value]
  omega

/-- Between two separators every prediction is safe. -/
theorem predict_between_safe (hexact : Exact p.arithmetic) (hpos : 0 < slotuse)
    (hshort : slotuse < 2 ^ 16) (hmidp : MidpBounded midp_err slotuse) (hlo : lo < key)
    (hhi : key ≤ hi) :
    ∀ c ∈ predict_correct_calls p slotuse midp_err key lo hi (-1), c.Safe := by
  have hne : hi ≠ lo := ne_of_gt (hlo.trans_le hhi)
  obtain ⟨hlow, hhigh⟩ := value_mem (-1) ((slotuse : Int) - 1) hne
    (toNat_sub_le hlo.le hhi) (by omega)
  have hsafe : (Call.compute_predict_pos key lo hi (-1) ((slotuse : Int) - 1)).Safe :=
    ⟨hne, by omega, by omega⟩
  rw [predict_correct_calls, hexact _ _ _ _ _ hsafe, forall_mem_cons]
  exact ⟨hsafe, correct_calls_safe hpos hshort hmidp hlow hhigh⟩

/-- From the node's own first and last key, a prediction is safe up to the reach. -/
theorem predict_edge_safe_iff (hexact : Exact p.arithmetic) (key lo hi : UInt64) (hpos : 0 < slotuse)
    (hshort : slotuse < 2 ^ 16) (hmidp : MidpBounded midp_err slotuse) :
    (∀ c ∈ predict_correct_calls p slotuse midp_err key lo hi 0, c.Safe) ↔
      lo ≠ hi ∧ (key - lo).toNat * (slotuse - 1) ≤
        reach p.traits slotuse midp_err * (hi - lo).toNat := by
  by_cases hne : lo = hi
  · refine iff_of_false (fun h => ?_) fun h => h.1 hne
    exact (h _ mem_cons_self).1 hne.symm
  · have hdiv := toNat_sub_pos (Ne.symm hne)
    have hnonneg := ceil_nonneg (a := (key - lo).toNat) (b := (hi - lo).toNat)
      (c := (slotuse : Int) - 1 - 0) (by omega) (by omega) (by omega)
    have hbound := ceil_le_iff (a := (key - lo).toNat) (b := (hi - lo).toNat)
      (c := (slotuse : Int) - 1 - 0) (m := reach p.traits slotuse midp_err) (by omega)
    have hvalue : (Call.compute_predict_pos key lo hi 0 ((slotuse : Int) - 1)).value =
        ⌈(((key - lo).toNat : Int) : ℚ) / ((hi - lo).toNat : Int) *
          ((slotuse : Int) - 1 - 0 : Int)⌉ := add_zero _
    have hscaled : ((key - lo).toNat : Int) * ((slotuse : Int) - 1 - 0) ≤
        (reach p.traits slotuse midp_err : Int) * (hi - lo).toNat ↔
          (key - lo).toNat * (slotuse - 1) ≤ reach p.traits slotuse midp_err * (hi - lo).toNat := by
      rw [sub_zero, ← Nat.cast_pred hpos]
      exact_mod_cast Iff.rfl
    rw [← hscaled, ← hbound, ← hvalue, and_iff_right hne]
    rw [← hvalue] at hnonneg
    have hmax := @reach_lt p.traits slotuse midp_err
    have hsafe : (Call.compute_predict_pos key lo hi 0 ((slotuse : Int) - 1)).Safe ↔
        (Call.compute_predict_pos key lo hi 0 ((slotuse : Int) - 1)).value < 2 ^ 31 :=
      ⟨fun h => h.2.2, fun h => ⟨Ne.symm hne, by omega, h⟩⟩
    rw [predict_correct_calls, forall_mem_cons]
    constructor
    · rintro ⟨hfirst, hrest⟩
      rw [hexact _ _ _ _ _ hfirst] at hrest
      exact (correct_calls_safe_iff hpos hshort hmidp hnonneg (hsafe.1 hfirst)).1 hrest
    · intro hle
      have hfirst := hsafe.2 (by omega)
      rw [hexact _ _ _ _ _ hfirst]
      exact ⟨hfirst, (correct_calls_safe_iff hpos hshort hmidp hnonneg (hsafe.1 hfirst)).2 hle⟩

end Prediction

/-- The key is not too far from the first key, for a node that is predicted in. -/
def WithinReach (t : Traits) (slotkey : List UInt64) (midp_err : Int) (key : UInt64) : Prop :=
  ∀ first last, slotkey.head? = some first → slotkey.getLast? = some last →
    t.predict_threshold < slotkey.length →
      first ≠ last ∧ (key - first).toNat * (slotkey.length - 1) ≤
        reach t slotkey.length midp_err * (last - first).toNat

theorem predict_calls_safe_iff {p : Params UInt64} (hexact : Exact p.arithmetic)
    {slotkey : List UInt64} {midp_err : Int} (hshort : slotkey.length < 2 ^ 16)
    (hmidp : MidpBounded midp_err slotkey.length) {key : UInt64} {lo_key hi_key : Option UInt64}
    (hlo : ∀ lo, lo_key = some lo → lo < key) (hhi : ∀ hi, hi_key = some hi → key ≤ hi) :
    (∀ c ∈ predict_calls p slotkey midp_err key lo_key hi_key, c.Safe) ↔
      (lo_key = none ∨ hi_key = none → WithinReach p.traits slotkey midp_err key) := by
  by_cases hpredict : p.traits.predict_threshold < slotkey.length
  · have hpos : 0 < slotkey.length := Nat.zero_lt_of_lt hpredict
    obtain ⟨first, hfirst⟩ : ∃ first, slotkey.head? = some first :=
      ⟨_, head?_eq_some_head (length_pos_iff.1 hpos)⟩
    obtain ⟨last, hlast⟩ : ∃ last, slotkey.getLast? = some last :=
      ⟨_, getLast?_eq_some_getLast (length_pos_iff.1 hpos)⟩
    have hreach : WithinReach p.traits slotkey midp_err key ↔ first ≠ last ∧
        (key - first).toNat * (slotkey.length - 1) ≤
          reach p.traits slotkey.length midp_err * (last - first).toNat := by
      rw [WithinReach, hfirst, hlast]
      refine ⟨fun h => h first last rfl rfl hpredict, fun h first' last' hf hl _ => ?_⟩
      cases hf
      cases hl
      exact h
    have hedge := predict_edge_safe_iff hexact key first last hpos hshort hmidp
    unfold predict_calls
    rw [if_pos hpredict, hfirst, hlast, hreach]
    cases lo_key with
    | none => exact hedge.trans (imp_iff_right (.inl rfl)).symm
    | some lo =>
        cases hi_key with
        | none => exact hedge.trans (imp_iff_right (.inr rfl)).symm
        | some hi =>
            refine iff_of_true ?_ nofun
            exact predict_between_safe hexact hpos hshort hmidp (hlo lo rfl) (hhi hi rfl)
  · unfold predict_calls
    rw [if_neg hpredict]
    exact iff_of_true (fun c hc => absurd hc not_mem_nil) fun _ _ _ _ _ h => absurd h hpredict

/-! ## The error at the middle -/

/-- The first and the last of several keys are not the same. -/
def EndsDiffer {K : Type} (keys : List K) : Prop :=
  2 ≤ keys.length → keys.head? ≠ keys.getLast?

section Middle

variable {slotkey : List UInt64}

theorem EndsDiffer.of_increasing (h : slotkey.Pairwise (· < ·)) : EndsDiffer slotkey := by
  intro hlength
  rw [head?_eq_getElem?, getLast?_eq_getElem?, getElem?_eq_getElem (by omega),
    getElem?_eq_getElem (by omega)]
  intro heq
  exact (ne_of_lt (pairwise_iff_getElem.1 h 0 (slotkey.length - 1) (by omega) (by omega) (by omega)))
    (Option.some.inj heq)

/-- The arguments of the only computation, for a node with several keys. -/
theorem exists_middle (hsorted : slotkey.Pairwise (· ≤ ·)) (hlength : 2 ≤ slotkey.length) :
    ∃ key lo hi, slotkey[(slotkey.length - 1) / 2]? = some key ∧ slotkey.head? = some lo ∧
      slotkey.getLast? = some hi ∧ lo ≤ key ∧ key ≤ hi := by
  have hle : ∀ i j (hi : i < slotkey.length) (hj : j < slotkey.length), i ≤ j →
      slotkey[i] ≤ slotkey[j] := by
    intro i j hi hj hij
    rcases Nat.eq_or_lt_of_le hij with rfl | hlt
    · exact le_rfl
    · exact pairwise_iff_getElem.1 hsorted i j hi hj hlt
  have hmid : (slotkey.length - 1) / 2 < slotkey.length := by omega
  refine ⟨_, _, _, getElem?_eq_getElem hmid, ?_, ?_, hle 0 _ (by omega) hmid (Nat.zero_le _),
    hle _ (slotkey.length - 1) hmid (by omega) (by omega)⟩
  · rw [head?_eq_getElem?, getElem?_eq_getElem]
  · rw [getLast?_eq_getElem?, getElem?_eq_getElem]

theorem midp_calls_safe_iff (hsorted : slotkey.Pairwise (· ≤ ·)) (hshort : slotkey.length < 2 ^ 16) :
    (∀ c ∈ midp_calls slotkey, c.Safe) ↔ EndsDiffer slotkey := by
  rw [midp_calls, EndsDiffer]
  split
  · rename_i hlength
    exact iff_of_true (fun c hc => absurd hc not_mem_nil) fun h => absurd h (by omega)
  · rename_i hlength
    obtain ⟨key, lo, hi, hkey, hlo, hhi, hle, hle'⟩ := exists_middle hsorted (by omega)
    dsimp only
    rw [hkey, hlo, hhi, imp_iff_right (by omega)]
    dsimp only
    rw [forall_mem_singleton]
    refine ⟨fun h heq => h.1 (Option.some.inj heq).symm, fun h => ?_⟩
    have hne : hi ≠ lo := fun heq => h (congrArg some heq.symm)
    obtain ⟨hlow, hhigh⟩ := value_mem 0 ((slotkey.length : Int) - 1) hne
      (toNat_sub_le hle hle') (by omega)
    exact ⟨hne, by omega, by omega⟩

theorem compute_midp_err_bounded {p : Params UInt64} (hexact : Exact p.arithmetic)
    (hsorted : slotkey.Pairwise (· ≤ ·)) (hshort : slotkey.length < 2 ^ 16)
    (hends : EndsDiffer slotkey) : MidpBounded (compute_midp_err p slotkey) slotkey.length := by
  rw [compute_midp_err, MidpBounded]
  split
  · omega
  · rename_i hlength
    obtain ⟨key, lo, hi, hkey, hlo, hhi, hle, hle'⟩ := exists_middle hsorted (by omega)
    have hne : hi ≠ lo := by
      rintro rfl
      exact hends (by omega) (hlo.trans hhi.symm)
    obtain ⟨hlow, hhigh⟩ := value_mem 0 ((slotkey.length : Int) - 1) hne
      (toNat_sub_le hle hle') (by omega)
    dsimp only
    rw [hkey, hlo, hhi]
    dsimp only
    rw [hexact _ _ _ _ _ ⟨hne, by omega, by omega⟩]
    omega

end Middle

end MABTree
end TLI
