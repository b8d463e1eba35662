import TLI.Competitors.ART.Bound
import TLI.Competitors.ART.Canonical

/-!
# Ordered — `bound` and `iteratorNext` enumerate the leaves from a key on

`Growth` is a tree's history: what was loaded in bulk and what was then inserted.  From every tree
with such a history, `bound` and the calls of `iteratorNext` behind it visit exactly the elements
from the key on, in order.

Keys are byte strings of which none is a prefix of another.  The code keeps their lengths in an
`unsigned`, so the stored keys and the search key have to be shorter than `2^32` bytes.
-/

namespace TLI
namespace ART

open List Lexicographic

/-! ## Histories -/

/-- What was loaded and what was then inserted. -/
structure Growth where
  data : List Element
  /-- The inserted elements, each with the memory behind its key. -/
  inserts : List ((Nat → UInt8) × Element)

namespace Growth

def stored (growth : Growth) : List Element :=
  growth.data ++ growth.inserts.map Prod.snd

/-- The keys are loaded in order; they differ, and none is a prefix of another. -/
def Valid (growth : Growth) : Prop :=
  growth.data.Pairwise (fun e e' => e.key < e'.key) ∧ Independent growth.stored

/-- The length of every stored key fits an `unsigned`. -/
def Fits (growth : Growth) : Prop :=
  ∀ e ∈ growth.stored, e.key.length < 2 ^ 32

def run (growth : Growth) (fuel : Nat) : Option Node :=
  (bulk_insert fuel growth.data 0 0).map (insertAll growth.inserts)

end Growth

/-- The tree holds the elements. -/
def Carries (tree : Node) (stored : List Element) : Prop :=
  tree = .null ∧ stored = [] ∨ WF [] tree ∧ elems tree ~ stored

theorem loadable_of_independent {xs : List Element}
    (hsorted : xs.Pairwise fun e e' => e.key < e'.key) (hfree : Independent xs) :
    Loadable [] xs := by
  refine ⟨fun e _ => prefix_append [] e.key, hsorted, hfree.imp fun hboth hpre => ?_⟩
  exact absurd hpre (not_or.2 hboth)

theorem bulk_insert_carries {xs : List Element} (hload : Loadable [] xs) :
    ∃ tree, Returns (fun fuel => bulk_insert fuel xs 0 0) tree ∧ Carries tree xs := by
  by_cases hnil : xs = []
  · subst hnil
    exact ⟨.null, (Returns.const Node.null).of_succ fun _ => rfl, Or.inl ⟨rfl, rfl⟩⟩
  · obtain ⟨left, hleft⟩ := exists_length_bound xs
    obtain ⟨tree, hreturns, hwf⟩ :=
      bulk_insert_wf left [] [] xs hload (fun e he => by simpa using hleft e he) hnil
    exact ⟨tree, hreturns, Or.inr hwf⟩

theorem Carries.insertAll {tree : Node} {stored : List Element} (h : Carries tree stored)
    {inserts : List ((Nat → UInt8) × Element)}
    (hfree : Independent (stored ++ inserts.map Prod.snd))
    (hfits : ∀ e ∈ stored ++ inserts.map Prod.snd, e.key.length < 2 ^ 32) :
    Carries (insertAll inserts tree) (stored ++ inserts.map Prod.snd) := by
  rcases h with ⟨rfl, rfl⟩ | ⟨hwf, hperm⟩
  · rw [nil_append] at hfree hfits ⊢
    cases inserts with
    | nil => exact Or.inl ⟨rfl, rfl⟩
    | cons ins inserts => exact Or.inr (insertAll_null_wf (cons_ne_nil _ _) hfree hfits)
  · have hmove : stored ++ inserts.map Prod.snd ~ inserts.map Prod.snd ++ elems tree :=
      perm_append_comm.trans (hperm.symm.append_left _)
    obtain ⟨hwf', hperm'⟩ := insertAll_wf inserts hwf (hfree.perm hmove) fun e he =>
      hfits e (hmove.symm.subset he)
    exact Or.inr ⟨hwf', hperm'.trans hmove.symm⟩

theorem Growth.run_carries {growth : Growth} (hvalid : growth.Valid) (hfits : growth.Fits) :
    ∃ tree, Returns growth.run tree ∧ Carries tree growth.stored := by
  have hdata : Independent growth.data := hvalid.2.sublist (sublist_append_left _ _)
  obtain ⟨tree, hreturns, hcarries⟩ :=
    bulk_insert_carries (loadable_of_independent hvalid.1 hdata)
  exact ⟨_, hreturns.map _, hcarries.insertAll hvalid.2 hfits⟩

/-! ## Enumeration -/

/-- `bound`, on the root of the tree. -/
def boundRoot (fuel : Nat) (tree : Node) (key : Nat → UInt8) (keyLength : Nat) (lower : Bool) :
    Option (Bool × Iterator) :=
  if tree.present then bound fuel key keyLength lower tree 0 []
  else some (false, { value := none, stack := [] })

/-- The elements that the result and the calls of `iteratorNext` behind it visit. -/
inductive Enumerates : Bool × Iterator → List Element → Prop
  | done (it : Iterator) : Enumerates (false, it) []
  | next {it : Iterator} {e : Element} {result : Bool × Iterator} {es : List Element}
      (value : it.value = some e) (returns : Returns (fun fuel => iteratorNext fuel it.stack) result)
      (rest : Enumerates result es) : Enumerates (true, it) (e :: es)

theorem enumerates_of_leads (es : List Element) :
    ∀ {result : Bool × Iterator}, Leads result es → Enumerates result es := by
  induction es with
  | nil =>
      rintro ⟨more, it⟩ h
      obtain rfl := leads_nil.1 h
      exact .done it
  | cons e es ih =>
      rintro ⟨more, it⟩ h
      rw [Leads, if_neg (cons_ne_nil e es)] at h
      obtain ⟨hmore, e', pos, stack, hvalue, hstack, hsound, hes⟩ := h
      obtain ⟨rfl, rfl⟩ := cons_eq_cons.1 hes
      obtain rfl : more = true := hmore
      obtain ⟨result, hreturns, hleads⟩ := iteratorNext_leaf hsound e pos
      rw [← hstack] at hreturns
      exact .next hvalue hreturns (ih hleads)

/-- A call that returned `false` has nothing to enumerate. -/
theorem Enumerates.fst_iff {result : Bool × Iterator} {es : List Element}
    (h : Enumerates result es) : result.1 = false ↔ es = [] := by
  cases h with
  | done it => exact iff_of_true rfl rfl
  | next value returns rest => exact iff_of_false Bool.true_eq_false_eq_False (cons_ne_nil _ _)

/-- The leaves from the key on (or behind it) are enumerated in order, each of them once, and
`bound` returns `false` if there is none. -/
def Exact (tree : Node) (stored : List Element) (key : List UInt8) (behind : Nat → UInt8)
    (lower : Bool) : Prop :=
  ∃ result es,
    Returns (fun fuel => boundRoot fuel tree (c_str key behind) (keyLength key) lower) result ∧
      Enumerates result es ∧ es.Pairwise (fun e e' => e.key < e'.key) ∧
      (∀ e, e ∈ es ↔ e ∈ stored ∧ wanted lower key e = true) ∧
      (result.1 = false ↔ ∀ e ∈ stored, wanted lower key e = false)

theorem Carries.exact {tree : Node} {stored : List Element} (h : Carries tree stored)
    (hfits : ∀ e ∈ stored, e.key.length < 2 ^ 32) {key : List UInt8} (hlength : key.length < 2 ^ 32)
    (hfree : ∀ e ∈ stored, PrefixFree e.key key) (behind : Nat → UInt8) (lower : Bool) :
    Exact tree stored key behind lower := by
  rcases h with ⟨rfl, rfl⟩ | ⟨hwf, hperm⟩
  · refine ⟨(false, { value := none, stack := [] }), [], ⟨0, fun _ _ => rfl⟩, .done _, .nil, ?_, ?_⟩
    · exact fun e => iff_of_false not_mem_nil fun h => not_mem_nil h.1
    · exact iff_of_true rfl fun e he => absurd he not_mem_nil
  · have hcomp : Comparable tree key := fun e he =>
      ⟨hfits e (hperm.subset he), hfree e (hperm.subset he)⟩
    obtain ⟨result, hreturns, hleads⟩ := bound_returns hwf hlength behind lower
      (prefix_append [] key) hcomp (fun entry hentry => absurd hentry not_mem_nil : Sound [])
    rw [remaining_nil, append_nil] at hleads
    have henum := enumerates_of_leads _ hleads
    have hmem : ∀ e, e ∈ (elems tree).filter (wanted lower key) ↔
        e ∈ stored ∧ wanted lower key e = true := by
      intro e
      rw [mem_filter, hperm.mem_iff]
    refine ⟨result, _, hreturns.congr fun fuel => ?_, henum, hwf.elems_sorted.filter _, hmem, ?_⟩
    · rw [boundRoot, if_pos hwf.present, keyLength, Nat.mod_eq_of_lt hlength]
      rfl
    · rw [henum.fst_iff, eq_nil_iff_forall_not_mem]
      refine forall_congr' fun e => ?_
      rw [hmem, not_and, Bool.not_eq_true]

theorem exact_of_fits {growth : Growth} (hvalid : growth.Valid) (hfits : growth.Fits) :
    ∃ tree, Returns growth.run tree ∧
      ∀ key : List UInt8, key.length < 2 ^ 32 → (∀ e ∈ growth.stored, PrefixFree e.key key) →
        ∀ behind lower, Exact tree growth.stored key behind lower := by
  obtain ⟨tree, hreturns, hcarries⟩ := growth.run_carries hvalid hfits
  exact ⟨tree, hreturns, fun key hlength hfree behind lower =>
    hcarries.exact hfits hlength hfree behind lower⟩

/-- Two keys loaded in bulk and one inserted between them. -/
def threeLeaves : Growth where
  data := [⟨[1, 0], 10⟩, ⟨[3, 0], 30⟩]
  inserts := [(fun _ => 0, ⟨[1, 2, 0], 20⟩)]

/-- From `[1, 1, 0]` on, a key that is not stored. -/
theorem exact_threeLeaves :
    ∃ tree, Returns threeLeaves.run tree ∧
      Exact tree threeLeaves.stored [1, 1, 0] (fun _ => 0) true := by
  have hvalid : threeLeaves.Valid := by
    unfold Growth.Valid Independent
    decide
  have hfits : threeLeaves.Fits := by
    unfold Growth.Fits
    decide
  obtain ⟨tree, hreturns, hexact⟩ := exact_of_fits hvalid hfits
  refine ⟨tree, hreturns, hexact [1, 1, 0] (by decide) ?_ _ _⟩
  unfold PrefixFree
  decide

/-! ## Search keys of `2^32` bytes -/

def oneLeaf : Growth where
  data := [⟨[1, 0], 7⟩]
  inserts := []

/-- If the length of the search key wraps to zero, it is not compared with the leaf at all. -/
theorem not_exact_of_length {tail : List UInt8} (hlength : tail.length + 1 = 2 ^ 32) {tree : Node}
    (hreturns : Returns oneLeaf.run tree) :
    ¬ Exact tree oneLeaf.stored (2 :: tail) (fun _ => 0) true := by
  have hleaf : Returns oneLeaf.run (.leaf ⟨[1, 0], 7⟩) :=
    (Returns.const (Node.leaf ⟨[1, 0], 7⟩)).of_succ fun _ => rfl
  rw [hreturns.unique hleaf]
  rintro ⟨⟨more, it⟩, es, hbound, -, -, -, hfalse⟩
  have hwraps : keyLength (2 :: tail) = 0 := by
    rw [keyLength, length_cons, hlength, Nat.mod_self]
  rw [hwraps] at hbound
  have htrue := hbound.unique (Returns.const _)
  have hwanted : ∀ e ∈ oneLeaf.stored, wanted true (2 :: tail) e = false := by
    intro e he
    rw [mem_singleton.1 he]
    exact wanted_of_gt (Lex.rel (by decide))
  have hmore : more = true := congrArg Prod.fst htrue
  exact Bool.false_ne_true ((hfalse.2 hwanted).symm.trans hmore)

theorem not_exact_long :
    let key : List UInt8 := replicate (2 ^ 32 - 1) 2 ++ [0]
    oneLeaf.Valid ∧ (∀ e ∈ oneLeaf.stored, PrefixFree e.key key) ∧
      ¬ ∃ tree, Returns oneLeaf.run tree ∧ Exact tree oneLeaf.stored key (fun _ => 0) true := by
  have hkey : replicate (2 ^ 32 - 1) (2 : UInt8) ++ [0] = 2 :: (replicate (2 ^ 32 - 2) 2 ++ [0]) :=
    rfl
  refine ⟨⟨pairwise_singleton _ _, pairwise_singleton _ _⟩, ?_, ?_⟩
  · intro e he
    rw [mem_singleton.1 he, hkey]
    have hparts : Parts [] [1, 0] (2 :: (replicate (2 ^ 32 - 2) 2 ++ [0])) (1 : UInt8) 2 :=
      ⟨⟨[0], rfl⟩, ⟨_, rfl⟩, by decide⟩
    exact hparts.prefixFree
  · rintro ⟨tree, hreturns, hexact⟩
    rw [hkey] at hexact
    refine not_exact_of_length ?_ hreturns hexact
    rw [length_append, length_replicate, length_singleton]
    exact Nat.sub_add_cancel (by decide : 2 ≤ 2 ^ 32)

end ART
end TLI
