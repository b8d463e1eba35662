import TLI.Competitors.LIPP.Ordered
import TLI.Util

/-!
# Lookup — what an equality lookup returns

`find` follows the predictions down to one item.  A well-formed tree holds the key there or nowhere,
so `EqualityLookup` answers from the stored pairs, whatever the root.
-/

namespace TLI
namespace LIPP

open Bitmap List

variable {K V : Type} [LinearOrder K]

/-- `find`, from a node on: the value, if the key is found.  The outer `none` is a read of an item
that is not there. -/
def find (F : LinearModels K) (key : K) : Item F.Model K V → Option (Option V)
  | .unused => none
  | .data _ _ => none
  | .child node items =>
      let pos := predictPos F node.model node.numItems key
      if get node.childBitmap pos then
        if pos < node.numItems then find F key (items pos) else none
      else if get node.noneBitmap pos then
        some none
      else do
        let p ← (item? node items pos).bind Item.data?
        return if p.1 = key then some p.2 else none

/-- `EqualityLookup` -/
def EqualityLookup (F : LinearModels K) (root : Item F.Model K UInt64) (lookupKey : K) :
    Option UInt64 :=
  (find F lookupKey root).map fun value => value.getD Util.NOT_FOUND

variable {F : LinearModels K}

/-- Below a node, `find` reads no item that is not there, and finds what is stored. -/
theorem find_spec (key : K) {t : Item F.Model K V} (h : WF F t) :
    ∃ found, find F key t = some found ∧ ∀ value, found = some value ↔ (key, value) ∈ pairs t := by
  induction t with
  | unused => exact h.elim
  | data key value => exact h.elim
  | child node items ih =>
      obtain ⟨hnumItems, -, hslots⟩ := h
      have hok : SlotsOK node items := hslots
      have hpos := predictPos_lt F node.model hnumItems key
      -- only the pairs below the predicted item can have the key
      have hmem : ∀ value, (key, value) ∈ pairs (.child node items) ↔
          (key, value) ∈ slot node items (predictPos F node.model node.numItems key) := by
        intro value
        constructor
        · exact fun hp => hok.mem_slot (p := (key, value)) hp
        · exact fun hp => mem_pairs_child.2 ⟨_, hpos, hp⟩
      simp only [hmem]
      rw [find]
      generalize predictPos F node.model node.numItems key = pos at hpos ⊢
      cases hslots pos hpos with
      | none hnone hchild =>
          refine ⟨none, by rw [hchild, hnone]; rfl, fun value => ?_⟩
          rw [slot_of_none hnone]
          exact ⟨fun h => (nomatch h), fun h => absurd h not_mem_nil⟩
      | data hnone hchild stored value hitem hpredict =>
          have hread : (item? node items pos).bind Item.data? = some (stored, value) := by
            rw [item?, if_pos hpos, hitem]
            rfl
          refine ⟨if stored = key then some value else none, ?_, fun value' => ?_⟩
          · rw [hchild, hnone, hread]
            rfl
          · rw [slot_of_some hnone, hitem, pairs, mem_singleton, Prod.mk.injEq,
              Option.ite_none_right_eq_some, Option.some.injEq]
            exact and_congr eq_comm eq_comm
      | child hnone hchild hwf hpadded hnonempty hpredict =>
          rw [hchild, if_pos rfl, if_pos hpos, slot_of_some hnone]
          exact ih pos hwf

/-- A lookup returns the value stored with the key, or `NOT_FOUND`. -/
theorem equalityLookup_answers (hmono : ∀ model n, Monotone (predictPos F model n))
    {root : Item F.Model K UInt64} {stored : List (K × UInt64)} (h : Reachable F root stored)
    (key : K) :
    (∀ value, (key, value) ∈ stored → EqualityLookup F root key = some value) ∧
      ((∀ p ∈ stored, p.1 ≠ key) → EqualityLookup F root key = some Util.NOT_FOUND) := by
  have hsound := h.sound hmono
  obtain ⟨found, hfind, hfound⟩ := find_spec key hsound.wf
  simp only [hsound.perm.mem_iff] at hfound
  rw [EqualityLookup, hfind, Option.map_some]
  constructor
  · intro value hvalue
    rw [(hfound value).2 hvalue, Option.getD_some]
  · intro habsent
    cases found with
    | none => rfl
    | some value => exact absurd rfl (habsent _ ((hfound value).1 rfl))

theorem equalityLookup_answers_fiveKeys :
    ∃ root, fiveKeys = some root ∧ EqualityLookup rationalModels root 21 = some 4 ∧
      EqualityLookup rationalModels root 23 = some Util.NOT_FOUND := by
  obtain ⟨root, hroot, -, hreachable⟩ := reachable_fiveKeys
  have hanswers := equalityLookup_answers rationalModels_monotone hreachable
  exact ⟨root, hroot, (hanswers 21).1 4 (by simp), (hanswers 23).2 (by simp)⟩

end LIPP
end TLI
