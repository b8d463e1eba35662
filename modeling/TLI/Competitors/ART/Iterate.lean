import TLI.Competitors.ART.Invariant
import TLI.Library.Fuel

/-!
# Iterate — the explicit stack enumerates the elements in order

* `remaining` — the elements the entries of a stack still lead to, the topmost first.
* `Leads` — what a call returned, against the elements that should come next.

`nextLeaf` pops or pushes until a leaf is on top.  `bound` descends along a key and leaves the stack
such that the elements from the key on remain.
-/

namespace TLI
namespace ART

open Loop List Lexicographic

/-! ## The stack -/

/-- The elements below a node from a position on. -/
def rest : Node × Nat → List Element
  | (.null, _) => []
  | (.leaf e, _) => [e]
  | (.inner hdr lay child, pos) =>
      (entriesFrom hdr.count lay (presentIn child) pos).flatMap fun bs => elems (child bs.2)

def remaining (stack : List (Node × Nat)) : List Element :=
  stack.flatMap rest

@[simp] theorem remaining_nil : remaining [] = [] := rfl

@[simp] theorem remaining_cons (entry : Node × Nat) (stack : List (Node × Nat)) :
    remaining (entry :: stack) = rest entry ++ remaining stack :=
  flatMap_cons

/-- Below its top, a stack holds inner nodes. -/
def Sound (stack : List (Node × Nat)) : Prop :=
  ∀ entry, entry ∈ stack → (∃ p, WF p entry.1) ∧ ∀ e, entry.1 ≠ .leaf e

theorem Sound.cons {stack : List (Node × Nat)} (h : Sound stack) {p : List UInt8} {hdr : Header}
    {lay : Layout} {child : Nat → Node} (hwf : WF p (.inner hdr lay child)) (pos : Nat) :
    Sound ((.inner hdr lay child, pos) :: stack) := by
  intro entry hentry
  rcases mem_cons.1 hentry with rfl | hentry
  · exact ⟨⟨p, hwf⟩, fun e heq => by cases heq⟩
  · exact h entry hentry

/-- The iterator is at the first of the elements, its stack leads to the others. -/
def Iterator.At (it : Iterator) (xs : List Element) : Prop :=
  ∃ e pos stack, it.value = some e ∧ it.stack = (.leaf e, pos) :: stack ∧ Sound stack ∧
    xs = e :: remaining stack

/-- What a call returns when the given elements come next. -/
def Leads (result : Bool × Iterator) (xs : List Element) : Prop :=
  if xs = [] then result.1 = false else result.1 = true ∧ result.2.At xs

theorem leads_nil {result : Bool × Iterator} : Leads result [] ↔ result.1 = false := by
  rw [Leads, if_pos rfl]

theorem leads_of_at {it : Iterator} {xs : List Element} (h : it.At xs) : Leads (true, it) xs := by
  have hne : xs ≠ [] := by
    obtain ⟨e, pos, stack, -, -, -, hxs⟩ := h
    rw [hxs]
    exact cons_ne_nil _ _
  rw [Leads, if_neg hne]
  exact ⟨rfl, h⟩

/-! ## The next leaf -/

/-- From a node on, the first leaf below it is reached. -/
theorem nextLeaf_descend {p : List UInt8} {n : Node} (h : WF p n) :
    ∀ {stack}, Sound stack →
      ∃ result, Returns (fun fuel => nextLeaf fuel ((n, 0) :: stack)) result ∧
        Leads result (elems n ++ remaining stack) := by
  induction h with
  | @leaf p e hkey =>
      intro stack hsound
      exact ⟨_, (Returns.const (true, Iterator.mk (some e) ((.leaf e, 0) :: stack))).of_succ
        fun _ => rfl, leads_of_at ⟨e, 0, stack, rfl, rfl, hsound, rfl⟩⟩
  | @inner p path hdr lay child hstores hok hcount hkids ih =>
      intro stack hsound
      have hwf : WF p (.inner hdr lay child) := .inner hstores hok hcount hkids
      rcases nextChild_eq hdr lay child 0 with ⟨-, hnil⟩ | ⟨b, s, pos, hnext, hentries⟩
      · have hlength := hok.length_eq
        rw [entries, hnil, length_nil] at hlength
        omega
      · have hmem : (b, s) ∈ entries hdr.count lay (presentIn child) := by
          rw [entries, hentries]
          exact mem_cons_self
        have hkid : (b, child s) ∈ children hdr.count lay child := mem_map.2 ⟨_, hmem, rfl⟩
        obtain ⟨result, hreturns, hleads⟩ := ih b _ hkid (hsound.cons hwf pos)
        refine ⟨result, hreturns.of_succ fun fuel => ?_, ?_⟩
        · rw [nextLeaf, hnext]
          exact if_pos (hok.used b s hmem)
        · rw [remaining_cons, rest, ← append_assoc] at hleads
          rwa [elems, entries, hentries, flatMap_cons]

theorem nextLeaf_spec : ∀ {stack : List (Node × Nat)}, Sound stack →
    ∃ result, Returns (fun fuel => nextLeaf fuel stack) result ∧
      Leads result (remaining stack) := by
  intro stack
  induction stack with
  | nil =>
      intro _
      exact ⟨_, (Returns.const (false, Iterator.mk none [])).of_succ fun _ => rfl, leads_nil.2 rfl⟩
  | cons entry stack ih =>
      intro hsound
      have hsound' : Sound stack := fun e he => hsound e (mem_cons_of_mem _ he)
      obtain ⟨n, pos⟩ := entry
      obtain ⟨⟨p, hwf⟩, hinner⟩ := hsound _ mem_cons_self
      cases hwf with
      | leaf hkey => exact absurd rfl (hinner _)
      | @inner p path hdr lay child hstores hok hcount hkids =>
          have hwf : WF p (.inner hdr lay child) := .inner hstores hok hcount hkids
          rcases nextChild_eq hdr lay child pos with ⟨hnone, hnil⟩ | ⟨b, s, pos', hnext, hentries⟩
          · obtain ⟨result, hreturns, hleads⟩ := ih hsound'
            refine ⟨result, hreturns.of_succ fun fuel => ?_, ?_⟩
            · rw [nextLeaf, hnone]
            · rwa [remaining_cons, rest, hnil, flatMap_nil, nil_append]
          · have hmem : (b, s) ∈ entries hdr.count lay (presentIn child) :=
              entriesFrom_subset (hentries ▸ mem_cons_self)
            have hkid : (b, child s) ∈ children hdr.count lay child := mem_map.2 ⟨_, hmem, rfl⟩
            obtain ⟨result, hreturns, hleads⟩ :=
              nextLeaf_descend (hkids b _ hkid) (hsound'.cons hwf pos')
            refine ⟨result, hreturns.of_succ fun fuel => ?_, ?_⟩
            · rw [nextLeaf, hnext]
              exact if_pos (hok.used b s hmem)
            · rw [remaining_cons, rest, ← append_assoc] at hleads
              rwa [remaining_cons, rest, hentries, flatMap_cons]

/-- The iterator moves on along its stack. -/
theorem iteratorNext_spec {stack : List (Node × Nat)} (hsound : Sound stack) :
    ∃ result, Returns (fun fuel => iteratorNext fuel stack) result ∧
      Leads result (remaining stack) := by
  have hskip : skipLeaf stack = stack := by
    cases stack with
    | nil => rfl
    | cons entry stack =>
        obtain ⟨n, pos⟩ := entry
        cases n with
        | null => rfl
        | leaf e => exact absurd rfl ((hsound _ mem_cons_self).2 e)
        | inner hdr lay child => rfl
  simp only [iteratorNext, hskip]
  exact nextLeaf_spec hsound

theorem iteratorNext_leaf {stack : List (Node × Nat)} (hsound : Sound stack) (e : Element)
    (pos : Nat) :
    ∃ result, Returns (fun fuel => iteratorNext fuel ((.leaf e, pos) :: stack)) result ∧
      Leads result (remaining stack) :=
  nextLeaf_spec hsound

end ART
end TLI
