import TLI.Competitors.MABTree.Erased

/-!
# Balanced — the whole tree under insertions and erasures

No node but the root underflows after `bulk_load`, and every call keeps it so: this is what lets the
next erasure find a sibling to merge with or to take from.  With it, each call answers from the
sorted sequence of the stored pairs and leaves the tree with the sequence it should leave.
-/

namespace TLI
namespace MABTree

open List LowerBound

variable {K : Type} [LinearOrder K]

/-- The tree holds a sorted sequence, and no node but the root underflows. -/
structure Balanced (t : Traits) (tree : Tree K) (xs : List (KeyValue K)) : Prop where
  holds : Holds t tree xs
  filled : ∀ level n, tree.root = some ⟨level, n⟩ →
    Filled t tree.store level n ∧ 0 < slotuse tree.store level n

/-! ## Insertion -/

theorem bulk_load_balanced (p : Params K) {data : List (KeyValue K)}
    (hsorted : Ascends KeyValue.key data) :
    ∃ tree, bulk_load p data = some tree ∧ Balanced p.traits tree data := by
  obtain ⟨tree, hload, hholds⟩ := bulk_load_spec p hsorted
  exact ⟨tree, hload, hholds, fun level n hroot => bulk_load_filled p hload hroot⟩

omit [LinearOrder K] in
/-- A root over the halves of the old one, or the old one with its slots. -/
theorem Grown.new_root {t : Traits} {st' : Store K} {level slots : Nat} {n' : Node K level}
    {added : Added K (Node K level)} (h : Grown t st' level slots n' added)
    (hpos : 0 < slots ∨ 0 < slotuse st' level n') :
    Filled t st' (new_root level n' added).1 (new_root level n' added).2 ∧
      0 < slotuse st' (new_root level n' added).1 (new_root level n' added).2 := by
  cases added with
  | none => exact ⟨h.filled, hpos.elim (fun hslots => hslots.trans_le (h.slotuse_le rfl)) id⟩
  | some km =>
      obtain ⟨k, m⟩ := km
      obtain ⟨hmin, hmin', hfilled⟩ := h.halves k m rfl
      refine ⟨fun c hc => ?_, Nat.one_pos⟩
      rcases mem_pair.1 hc with rfl | rfl
      · exact ⟨hmin, h.filled⟩
      · exact ⟨hmin', hfilled⟩

theorem Balanced.insert_start {p : Params K} {tree : Tree K} {xs : List (KeyValue K)}
    (h : Balanced p.traits tree xs) (kv : KeyValue K) :
    ∃ tree', insert_start p tree kv = some tree' ∧
      Balanced p.traits tree' (insertLower KeyValue.key kv xs) := by
  obtain ⟨tree', hinsert, hholds⟩ := insert_start_spec p h.holds kv
  refine ⟨tree', hinsert, hholds, fun level' m hroot' => ?_⟩
  obtain ⟨root, st⟩ := tree
  cases root with
  | none =>
      -- The first leaf is empty before the insertion.
      have hchain := chain_first_leaf st
      have hempty : (st.first_leaf.2.leaf st.next).slots = [] :=
        congrArg Leaf.slots (leaf_allocate_leaf st)
      have hid := hchain.allocated st.next mem_cons_self
      obtain ⟨added, st', fresh, hleaf, hspec⟩ := insert_leaf_spec p kv none none hid
        (hempty ▸ Pairwise.nil) (hempty ▸ Nat.zero_le _)
      have hgrown := insert_leaf_grown p hid hleaf
      simp only [MABTree.insert_start, insert_descend, show st.first_leaf.1 = st.next from rfl,
        hleaf, Option.bind_eq_bind, Option.bind_some, Option.pure_def, Option.some.injEq] at hinsert
      subst hinsert
      have hnew := hgrown.new_root (.inr (length_pos_iff.2 hspec.wf.1))
      rw [Option.some.inj hroot'] at hnew
      exact hnew
  | some root =>
      obtain ⟨level, n⟩ := root
      obtain ⟨hchain, hitems, hsorted, hwf⟩ := h.holds
      subst hitems
      have hready : Ready p.traits st level n :=
        ⟨hwf level n rfl, hsorted, hchain.nodup, hchain.allocated⟩
      obtain ⟨hfilled, hpos⟩ := h.filled level n rfl
      obtain ⟨n', added, st', id, fresh, hdescend, -⟩ :=
        insert_descend_spec p kv none none hready
      have hgrown := insert_descend_grown p kv hready hfilled hdescend
      simp only [MABTree.insert_start, hdescend, Option.bind_eq_bind, Option.bind_some,
        Option.pure_def, Option.some.injEq] at hinsert
      subst hinsert
      have hnew := hgrown.new_root (.inl hpos)
      rw [Option.some.inj hroot'] at hnew
      exact hnew

/-! ## Erasure -/

section Erase

variable {p : Params K} {tree : Tree K} {xs : List (KeyValue K)} {key : K}

omit [LinearOrder K] in
/-- The root underflows only when it is empty. -/
theorem root_underflow {t : Traits} {st : Store K} {level : Nat} {n : Node K level} {fix : Fix}
    (h : (Neighbours.none : Neighbours K level).underflow t st n = some fix) :
    fix = .ok ∧ 0 < slotuse st level n ∨ fix = .root ∧ slotuse st level n = 0 := by
  have hmin := t.minslots_bounds level
  rw [Neighbours.underflow] at h
  change underflow _ _ none none none none none = some fix at h
  unfold underflow at h
  by_cases hpos : 0 < slotuse st level n
  · rw [if_pos (.inr ⟨rfl, hpos⟩)] at h
    exact .inl ⟨(Option.some.inj h).symm, hpos⟩
  · have hzero : ¬ (t.minslots level ≤ slotuse st level n ∨
        (none : Option Nat) = none ∧ 1 ≤ slotuse st level n) := by omega
    rw [if_neg hzero, if_pos ⟨rfl, rfl⟩] at h
    exact .inr ⟨(Option.some.inj h).symm, by omega⟩

theorem Balanced.erasable {level : Nat} {n : Node K level} {st : Store K} {t : Traits}
    (h : Balanced t ⟨some ⟨level, n⟩, st⟩ xs) : Erasable t [] [] st level n := by
  obtain ⟨hchain, hitems, hsorted, hwf⟩ := h.holds
  subst hitems
  obtain ⟨hfilled, hpos⟩ := h.filled level n rfl
  refine ⟨hwf level n rfl, hsorted, hfilled, hpos, ?_⟩
  rw [nil_append, append_nil]
  exact hchain

theorem Balanced.contents_eq {level : Nat} {n : Node K level} {st : Store K} {t : Traits}
    (h : Balanced t ⟨some ⟨level, n⟩, st⟩ xs) : contents st level n = xs :=
  h.holds.items

/-- The root without its only slot. -/
theorem Erased.trim {t : Traits} {st st' : Store K} {level : Nat} {n : Node K level}
    {e : Erasure K level} (h : Erased t [] [] st st' key n e)
    (hinner : level ≠ 0 → contents st' level e.node ≠ [])
    (hsorted : Ascends KeyValue.key (contents st level n))
    (hzero : slotuse st' level e.node = 0) :
    ∃ tree', trim st' level e.node = some tree' ∧
      Balanced t tree' (eraseFirst KeyValue.key key (contents st level n)) := by
  have hchain := h.swapped.chain
  rw [nil_append, append_nil] at hchain
  have hsorted' := h.contents_eq ▸ hsorted.eraseFirst (k := key)
  cases level with
  | zero =>
      have hempty : contents st' 0 e.node = [] := by
        rw [contents_leaf]
        exact length_eq_zero_iff.1 hzero
      refine ⟨_, rfl, ⟨⟨⟨rfl, rfl, fun before id after heq => ?_, nodup_nil, fun id hid => ?_⟩, ?_,
        ?_, fun level m hroot => ?_⟩, fun level m hroot => ?_⟩⟩
      · simp [Tree.leaves] at heq
      · cases hid
      · rw [← h.contents_eq, hempty]
        rfl
      · rw [← h.contents_eq]
        exact hsorted'
      · cases hroot
      · cases hroot
  | succ level =>
      obtain ⟨hne, -, hsep, hkids⟩ := h.wf (hinner (Nat.succ_ne_zero level))
      have hlength := hsep.length_eq hne
      change e.node.slotkey.length = 0 at hzero
      rw [hzero] at hlength
      obtain ⟨c, hc⟩ := length_eq_one_iff.1 hlength
      have hids : leafIds (level + 1) e.node = leafIds level c := by
        rw [leafIds, hc, flatMap_singleton]
      have hmin := t.minslots_bounds level
      obtain ⟨hle, hfilled⟩ := h.filled c (hc ▸ mem_cons_self)
      have hpos : 0 < slotuse st' level c := by omega
      refine ⟨⟨some ⟨level, c⟩, st'⟩, ?_, ⟨⟨?_, ?_, ?_, fun level' m hroot => ?_⟩,
        fun level' m hroot => ?_⟩⟩
      · rw [MABTree.trim, hc]
        rfl
      · change Chain st' (leafIds level c)
        rw [← hids]
        exact hchain
      · rw [← h.contents_eq, contents, hids]
        rfl
      · rw [← h.contents_eq]
        exact hsorted'
      · cases hroot
        exact hkids c (hc ▸ mem_cons_self)
      · cases hroot
        exact ⟨hfilled, hpos⟩

theorem Balanced.erase_one_found (h : Balanced p.traits tree xs)
    (hkey : HasKey KeyValue.key key xs) :
    ∃ tree', erase_one p tree key = some (true, tree') ∧
      Balanced p.traits tree' (eraseFirst KeyValue.key key xs) := by
  obtain ⟨root, st⟩ := tree
  cases root with
  | none =>
      obtain ⟨x, hx, -⟩ := hkey
      rw [← h.holds.items] at hx
      cases hx
  | some root =>
      obtain ⟨level, n⟩ := root
      have herasable := h.erasable
      have hxs := h.contents_eq
      subst hxs
      obtain ⟨e, st', herase, herased, hfix⟩ :=
        erase_one_descend_found p herasable placed_none (fun hne => absurd rfl hne) hkey
      have hinner : level ≠ 0 → contents st' level e.node ≠ [] := fun hlevel =>
        herased.contents_ne_nil (herasable.wf.two_le_length (.inr ⟨hlevel, herasable.pos⟩))
      rcases root_underflow hfix with ⟨hok, hpos⟩ | ⟨hroot, hzero⟩
      · have hne : contents st' level e.node ≠ [] := by
          cases level with
          | zero =>
              rw [contents_leaf]
              exact length_pos_iff.1 hpos
          | succ level => exact hinner (Nat.succ_ne_zero level)
        have hchain := herased.swapped.chain
        rw [nil_append, append_nil] at hchain
        refine ⟨⟨some ⟨level, e.node⟩, st'⟩, ?_, ⟨⟨hchain, herased.contents_eq,
          herasable.sorted.eraseFirst, fun level' m hroot => ?_⟩, fun level' m hroot => ?_⟩⟩
        · simp only [erase_one, herase, hok, Option.bind_eq_bind, Option.bind_some]
          rfl
        · cases hroot
          exact herased.wf hne
        · cases hroot
          exact ⟨herased.filled, hpos⟩
      · obtain ⟨tree', htrim, hbalanced⟩ := herased.trim hinner herasable.sorted hzero
        refine ⟨tree', ?_, hbalanced⟩
        simp only [erase_one, herase, hroot, htrim, Option.bind_eq_bind, Option.bind_some]
        rfl

theorem Balanced.erase_one_absent (h : Balanced p.traits tree xs)
    (hkey : ¬ HasKey KeyValue.key key xs) : erase_one p tree key = some (false, tree) := by
  obtain ⟨root, st⟩ := tree
  cases root with
  | none => rfl
  | some root =>
      obtain ⟨level, n⟩ := root
      have hxs := h.contents_eq
      subst hxs
      have herase := erase_one_descend_absent p h.erasable placed_none hkey
      simp only [erase_one, herase, Option.bind_eq_bind, Option.bind_some]
      rfl

end Erase

/-- One erasure after the other, until the key is not found. -/
theorem Balanced.erase_while {p : Params K} {key : K} : ∀ (count : Nat) {tree : Tree K}
    {xs : List (KeyValue K)}, Balanced p.traits tree xs →
      (xs.countP fun kv => decide (kv.key = key)) = count → ∀ c, ∃ tree',
        (∀ turns, count < turns → erase_while p key turns tree c = some (c + count, tree')) ∧
          Balanced p.traits tree' (xs.filter fun kv => decide (kv.key ≠ key)) := by
  intro count
  induction count with
  | zero =>
      intro tree xs h hcount c
      have hkey : ¬ HasKey KeyValue.key key xs := fun hkey => by
        have hsucc := hkey.countP_eraseFirst
        omega
      refine ⟨tree, fun turns hturns => ?_, (filter_of_not_hasKey hkey).symm ▸ h⟩
      obtain ⟨turns, rfl⟩ := Nat.exists_eq_add_one.2 hturns
      simp only [MABTree.erase_while, h.erase_one_absent hkey, Option.bind_eq_bind,
        Option.bind_some]
      rfl
  | succ count ih =>
      intro tree xs h hcount c
      have hkey : HasKey KeyValue.key key xs := by
        by_contra hkey
        have hzero := countP_of_not_hasKey hkey
        omega
      obtain ⟨tree', herase, hbalanced⟩ := h.erase_one_found hkey
      have hsucc := hkey.countP_eraseFirst
      obtain ⟨tree'', hwhile, hbalanced'⟩ := ih hbalanced (by omega) (c + 1)
      rw [filter_eraseFirst] at hbalanced'
      refine ⟨tree'', fun turns hturns => ?_, hbalanced'⟩
      obtain ⟨turns, rfl⟩ := Nat.exists_eq_add_one.2 (Nat.lt_of_le_of_lt (Nat.zero_le _) hturns)
      simp only [MABTree.erase_while, herase, Option.bind_eq_bind, Option.bind_some, if_true]
      rw [hwhile turns (by omega), Nat.add_assoc, Nat.add_comm 1]

/-! ## Runs -/

/-- A call that changes the tree. -/
inductive Update (K : Type) where
  | Insert (data : KeyValue K)
  | erase_one (key : K)
  | erase (key : K)

/-- What it returns. -/
inductive Answer where
  | inserted
  | erased (found : Bool)
  | count (c : Nat)

def update (turns : Nat) (p : Params K) (tree : Tree K) : Update K → Option (Answer × Tree K)
  | .Insert data => do
      let tree ← Insert p tree data
      return (.inserted, tree)
  | .erase_one key => do
      let (found, tree) ← erase_one p tree key
      return (.erased found, tree)
  | .erase key => do
      let (c, tree) ← erase turns p tree key
      return (.count c, tree)

def updates (turns : Nat) (p : Params K) : List (Update K) → Tree K → Option (List Answer × Tree K)
  | [], tree => some ([], tree)
  | c :: cs, tree => do
      let (answer, tree) ← update turns p tree c
      let (answers, tree) ← updates turns p cs tree
      return (answer :: answers, tree)

/-- The purpose of a call: its answer, and what it makes of the sorted sequence of the pairs. -/
def Update.apply (xs : List (KeyValue K)) : Update K → Answer × List (KeyValue K)
  | .Insert data => (.inserted, insertLower KeyValue.key data xs)
  | .erase_one key =>
      (.erased (xs.any fun kv => decide (kv.key = key)), eraseFirst KeyValue.key key xs)
  | .erase key =>
      (.count (xs.countP fun kv => decide (kv.key = key)),
        xs.filter fun kv => decide (kv.key ≠ key))

def Update.applyAll : List (Update K) → List (KeyValue K) → List Answer × List (KeyValue K)
  | [], xs => ([], xs)
  | c :: cs, xs =>
      let (answers, ys) := applyAll cs (c.apply xs).2
      ((c.apply xs).1 :: answers, ys)

section Runs

variable {p : Params K} {tree : Tree K} {xs : List (KeyValue K)}

theorem any_eq_true_iff_hasKey {key : K} :
    (xs.any fun kv => decide (kv.key = key)) = true ↔ HasKey KeyValue.key key xs := by
  simp only [any_eq_true, decide_eq_true_eq, HasKey]

/-- Each call returns with its answer and keeps the tree balanced. -/
theorem Balanced.update (h : Balanced p.traits tree xs) (c : Update K) :
    ∃ tree', Returns (fun turns => update turns p tree c) ((c.apply xs).1, tree') ∧
      Balanced p.traits tree' (c.apply xs).2 := by
  cases c with
  | Insert data =>
      obtain ⟨tree', hinsert, hbalanced⟩ := h.insert_start data
      refine ⟨tree', ⟨0, fun turns _ => ?_⟩, hbalanced⟩
      simp only [MABTree.update, Insert, hinsert, Option.bind_eq_bind, Option.bind_some]
      rfl
  | erase_one key =>
      by_cases hkey : HasKey KeyValue.key key xs
      · obtain ⟨tree', herase, hbalanced⟩ := h.erase_one_found hkey
        refine ⟨tree', ⟨0, fun turns _ => ?_⟩, hbalanced⟩
        simp only [MABTree.update, herase, Option.bind_eq_bind, Option.bind_some, Update.apply,
          any_eq_true_iff_hasKey.2 hkey]
        rfl
      · refine ⟨tree, ⟨0, fun turns _ => ?_⟩, ?_⟩
        · simp only [MABTree.update, h.erase_one_absent hkey, Option.bind_eq_bind,
            Option.bind_some, Update.apply,
            Bool.eq_false_iff.2 fun hany => hkey (any_eq_true_iff_hasKey.1 hany)]
          rfl
        · change Balanced p.traits tree (eraseFirst KeyValue.key key xs)
          rw [eraseFirst_of_not_hasKey hkey]
          exact h
  | erase key =>
      obtain ⟨tree', hwhile, hbalanced⟩ := h.erase_while _ rfl 0
      refine ⟨tree', ⟨(xs.countP fun kv => decide (kv.key = key)) + 1, fun turns hturns => ?_⟩,
        hbalanced⟩
      simp only [MABTree.update, erase, hwhile turns hturns, Nat.zero_add, Option.bind_eq_bind,
        Option.bind_some]
      rfl

theorem Balanced.updates (cs : List (Update K)) : ∀ {tree : Tree K} {xs : List (KeyValue K)},
    Balanced p.traits tree xs →
      ∃ tree', Returns (fun turns => updates turns p cs tree) ((Update.applyAll cs xs).1, tree') ∧
        Balanced p.traits tree' (Update.applyAll cs xs).2 := by
  induction cs with
  | nil => exact fun {tree xs} h => ⟨tree, Returns.const _, h⟩
  | cons c cs ih =>
      intro tree xs h
      obtain ⟨tree', ⟨bound, hcall⟩, hbalanced⟩ := h.update c
      obtain ⟨tree'', ⟨bound', hcalls⟩, hbalanced'⟩ := ih hbalanced
      refine ⟨tree'', ⟨max bound bound', fun turns hturns => ?_⟩, hbalanced'⟩
      simp only [MABTree.updates, hcall turns ((le_max_left _ _).trans hturns),
        hcalls turns ((le_max_right _ _).trans hturns), Option.bind_eq_bind, Option.bind_some]
      rfl

end Runs

/-- Whatever is inserted and erased in whatever order, every call returns what it should, and the
tree answers all queries from the pairs that are left. -/
theorem isMultimap_updates (p : Params K) {data : List (KeyValue K)}
    (hsorted : data.Pairwise fun kv kv' => kv.key ≤ kv'.key) (cs : List (Update K)) :
    ∃ built tree, Build p data = some built ∧
      Returns (fun turns => updates turns p cs built) ((Update.applyAll cs data).1, tree) ∧
        IsMultimap p tree (Update.applyAll cs data).2 := by
  obtain ⟨built, hload, hbalanced⟩ := bulk_load_balanced p hsorted
  obtain ⟨tree, hreturns, hbalanced'⟩ := hbalanced.updates cs
  exact ⟨built, tree, hload, hreturns, hbalanced'.holds.isMultimap (Perm.refl _)⟩

theorem isMultimap_updates_smallParams :
    ∃ built tree, Build smallParams [⟨1, 10⟩, ⟨4, 40⟩, ⟨4, 41⟩] = some built ∧
      Returns (fun turns => updates turns smallParams [.erase 4, .Insert ⟨2, 20⟩, .erase_one 1] built)
        ((Update.applyAll [.erase 4, .Insert ⟨2, 20⟩, .erase_one 1]
          [⟨1, 10⟩, ⟨4, 40⟩, ⟨4, 41⟩]).1, tree) ∧
        IsMultimap smallParams tree (Update.applyAll [.erase 4, .Insert ⟨2, 20⟩, .erase_one 1]
          [⟨1, 10⟩, ⟨4, 40⟩, ⟨4, 41⟩]).2 :=
  isMultimap_updates smallParams (by decide) _

end MABTree
end TLI
