import TLI.Competitors.MABTree.Balanced

/-!
# SelfVerify — `verify()` never aborts

`verify_node` checks what `assert` checks of a node and of the nodes below it, and returns their
smallest and largest key and the number of their items; a failed assertion is `none`.
`verify_leaflinks` walks the leaf chain.  The counters of leaves and inner nodes are left out.
-/

namespace TLI
namespace MABTree

open List LowerBound

variable {K : Type}

/-! ## The checks -/

/-- `minkey`, `maxkey` and `vstats.itemcount` of a node. -/
structure Verified (K : Type) where
  minkey : K
  maxkey : K
  itemcount : Nat

/-- Leaves that are linked together in the correct order. -/
def linked (st : Store K) (leafa leafb : LeafId) : Bool :=
  decide ((st.leaf leafa).nextleaf = some leafb ∧ (st.leaf leafb).prevleaf = some leafa)

/-- The last leaf below a child, where `verify_node` looks at it. -/
def leafa : (level : Nat) → Node K level → Option LeafId
  | 0, id => some id
  | 1, parenta => parenta.childid[parenta.slotkey.length]?
  | _ + 2, _ => none

/-- The first leaf below a child. -/
def leafb : (level : Nat) → Node K level → Option LeafId
  | 0, id => some id
  | 1, parentb => parentb.childid[0]?
  | _ + 2, _ => none

/-- The links between children that are leaves or parents of leaves. -/
def verify_links (st : Store K) (level : Nat) : List (Node K level) → Bool
  | a :: b :: kids =>
      (decide (2 ≤ level) ||
        ((leafa level a).bind fun x => (leafb level b).map (linked st x)).getD false) &&
          verify_links st level (b :: kids)
  | _ => true

section Checks

variable [LinearOrder K]

/-- The subkeys against the keys of the node: its largest key and the number of its items. -/
def verify_keys : Option K → List K → List (Verified K) → Option (K × Nat)
  | before, [], [sub] =>
      if ∀ key, key ∈ before → key ≤ sub.minkey then some (sub.maxkey, sub.itemcount) else none
  | before, key :: keys, sub :: subs =>
      if (∀ key, key ∈ before → key ≤ sub.minkey) ∧ key = sub.maxkey then do
        let (maxkey, itemcount) ← verify_keys (some key) keys subs
        return (maxkey, sub.itemcount + itemcount)
      else none
  | _, _, _ => none

def verify_node (t : Traits) (st : Store K) (root : Bool) :
    (level : Nat) → Node K level → Option (Verified K)
  | 0, id => do
      let slotkey := (st.leaf id).slotkey
      let minkey ← slotkey.head?
      let maxkey ← slotkey.getLast?
      if (root ∨ t.minleafslots ≤ slotkey.length) ∧ slotkey.IsChain (· ≤ ·) then
        return { minkey := minkey, maxkey := maxkey, itemcount := slotkey.length }
      else none
  | level + 1, inner => do
      let slotkey := inner.slotkey
      if (root ∨ t.mininnerslots ≤ slotkey.length) ∧ 0 < slotkey.length ∧
          slotkey.IsChain (· ≤ ·) then
        let subs ← inner.childid.mapM (verify_node t st false level)
        let first ← subs.head?
        let (maxkey, itemcount) ← verify_keys none slotkey subs
        if verify_links st level inner.childid then
          return { minkey := first.minkey, maxkey := maxkey, itemcount := itemcount }
        else none
      else none

/-- The loop of `verify_leaflinks`, with at most the given number of turns: `testcount`. -/
def verify_leaflinks (st : Store K) : Nat → Option LeafId → Nat → Option Nat
  | _, none, testcount => some testcount
  | 0, some _, _ => none
  | turns + 1, some n, testcount => do
      let slotkey := (st.leaf n).slotkey
      let last ← slotkey.getLast?
      if slotkey.IsChain (· ≤ ·) then
        match (st.leaf n).nextleaf with
        | some next => do
            let first ← (st.leaf next).slotkey.head?
            if last ≤ first ∧ (st.leaf next).prevleaf = some n then
              verify_leaflinks st turns (some next) (testcount + slotkey.length)
            else none
        | none =>
            if st.tailleaf = some n then some (testcount + slotkey.length) else none
      else none

/-- `verify()` of a tree whose `size()` is given. -/
def verify (turns : Nat) (t : Traits) (tree : Tree K) (size : Nat) : Option Unit :=
  match tree.root with
  | none => some ()
  | some ⟨level, n⟩ => do
      let v ← verify_node t tree.store true level n
      let head ← tree.store.headleaf
      let testcount ← verify_leaflinks tree.store turns (some head) 0
      if v.itemcount = size ∧ (tree.store.leaf head).prevleaf = none ∧ testcount = size then some ()
      else none

end Checks

/-! ## The links -/

section Links

variable {t : Traits} {st : Store K}

/-- The leaves that are looked at stand at the ends of the leaves below a child. -/
theorem leafIds_ends : ∀ {level : Nat}, level < 2 → ∀ {n : Node K level}, WF t st level n →
    (∃ others x, leafIds level n = others ++ [x] ∧ leafa level n = some x) ∧
      ∃ y others, leafIds level n = y :: others ∧ leafb level n = some y
  | 0, _, id, _ => ⟨⟨[], id, rfl, rfl⟩, id, [], rfl, rfl⟩
  | 1, _, inner, hwf => by
      have hids : leafIds 1 inner = inner.childid := flatMap_singleton' inner.childid
      have hlength := hwf.2.2.1.length_eq hwf.1
      constructor
      · obtain ⟨others, x, heq⟩ := (eq_nil_or_concat' inner.childid).resolve_left hwf.1
        rw [heq, length_append, length_singleton, Nat.add_right_cancel_iff] at hlength
        refine ⟨others, x, hids.trans heq, ?_⟩
        rw [leafa, heq, ← hlength]
        simp
      · obtain ⟨y, others, heq⟩ := exists_cons_of_ne_nil hwf.1
        refine ⟨y, others, hids.trans heq, ?_⟩
        rw [leafb, heq]
        rfl
  | level + 2, hlevel, _, _ => absurd hlevel (Nat.not_lt.2 (Nat.le_add_left 2 level))

theorem linked_of_chain (before after : List LeafId) {x y : LeafId}
    (h : Chain st (before ++ x :: y :: after)) : linked st x y = true := by
  have hprev := (h.linked (before ++ [x]) y after (by simp)).1
  rw [getLast?_concat] at hprev
  exact decide_eq_true ⟨(h.linked before x (y :: after) rfl).2, hprev⟩

theorem verify_links_spec {level : Nat} : ∀ {kids : List (Node K level)}
    (before after : List LeafId), (∀ c, c ∈ kids → WF t st level c) →
      Chain st (before ++ kids.flatMap (leafIds level) ++ after) →
        verify_links st level kids = true
  | [], _, _, _, _ => rfl
  | [_], _, _, _, _ => rfl
  | a :: b :: kids, before, after, hwf, hchain => by
      have hrest : verify_links st level (b :: kids) = true := by
        refine verify_links_spec (before ++ leafIds level a) after
          (fun c hc => hwf c (mem_cons_of_mem a hc)) ?_
        rw [flatMap_cons, ← append_assoc] at hchain
        exact hchain
      rw [verify_links, hrest, Bool.and_true]
      by_cases hlevel : 2 ≤ level
      · rw [decide_eq_true hlevel, Bool.true_or]
      · obtain ⟨⟨others, x, hx, hleafa⟩, -⟩ :=
          leafIds_ends (Nat.lt_of_not_le hlevel) (hwf a mem_cons_self)
        obtain ⟨-, y, others', hy, hleafb⟩ :=
          leafIds_ends (Nat.lt_of_not_le hlevel) (hwf b (mem_cons_of_mem a mem_cons_self))
        rw [flatMap_cons, flatMap_cons, hx, hy] at hchain
        have hlinked : linked st x y = true := by
          refine linked_of_chain (before ++ others)
            (others' ++ kids.flatMap (leafIds level) ++ after) ?_
          simpa using hchain
        rw [hleafa, hleafb, Option.bind_some, Option.map_some, Option.getD_some, hlinked,
          Bool.or_true]

end Links

/-! ## The nodes -/

section Nodes

variable [LinearOrder K] {t : Traits} {st : Store K} {level : Nat}

/-- What `verify_node` returns is about the items below the node. -/
structure Summary (st : Store K) (level : Nat) (n : Node K level) (v : Verified K) : Prop where
  minkey : (contents st level n).head?.map KeyValue.key = some v.minkey
  maxkey : maxKey st level n = some v.maxkey
  itemcount : v.itemcount = (contents st level n).length

omit [LinearOrder K] in
theorem Summary.exists_head {n : Node K level} {v : Verified K} (h : Summary st level n v) :
    ∃ x, x ∈ contents st level n ∧ x.key = v.minkey := by
  obtain ⟨x, hx, hkey⟩ := Option.map_eq_some_iff.1 h.minkey
  exact ⟨x, mem_of_mem_head? hx, hkey⟩

/-- The subkeys of children that are separated pass all checks. -/
theorem verify_keys_spec (f : Node K level → Option (Verified K)) :
    ∀ {kids : List (Node K level)} {keys : List K} (before : Option K),
      Separated st level keys kids → kids ≠ [] →
        (∀ c, c ∈ kids → ∃ v, f c = some v ∧ Summary st level c v) →
          Ascends KeyValue.key (kids.flatMap (contents st level)) →
            (∀ key, key ∈ before → ∀ x, x ∈ kids.flatMap (contents st level) → key ≤ x.key) →
              ∃ first subs last, kids.mapM f = some (first :: subs) ∧
                (kids.flatMap (contents st level)).head?.map KeyValue.key = some first.minkey ∧
                (kids.flatMap (contents st level)).getLast?.map KeyValue.key = some last ∧
                verify_keys before keys (first :: subs) =
                  some (last, (kids.flatMap (contents st level)).length)
  | [], _, _, _, hne, _, _, _ => absurd rfl hne
  | [c], keys, before, hsep, _, hf, _, hbefore => by
      obtain ⟨v, hv, hsummary⟩ := hf c mem_cons_self
      obtain ⟨x, hx, hkey⟩ := hsummary.exists_head
      rw [flatMap_singleton] at hbefore ⊢
      rw [map_eq_nil_iff.1 hsep]
      refine ⟨v, [], v.maxkey, ?_, hsummary.minkey, hsummary.maxkey, ?_⟩
      · rw [mapM_cons, hv]
        rfl
      · rw [verify_keys, if_pos fun key hmem => hkey ▸ hbefore key hmem x hx, hsummary.itemcount]
  | c :: d :: kids, keys, before, hsep, _, hf, hsorted, hbefore => by
      obtain ⟨k, keys, rfl, hmax, hrest⟩ := separated_cons hsep
      obtain ⟨v, hv, hsummary⟩ := hf c mem_cons_self
      obtain ⟨x, hx, hkey⟩ := hsummary.exists_head
      rw [flatMap_cons] at hsorted hbefore ⊢
      obtain ⟨-, hsorted', hacross⟩ := pairwise_append.1 hsorted
      obtain ⟨y, hy, hyk⟩ := Option.map_eq_some_iff.1 hmax
      obtain ⟨first, subs, last, hsubs, hfirst, hlast, hkeys⟩ :=
        verify_keys_spec f (some k) hrest (cons_ne_nil d kids)
          (fun c' hc' => hf c' (mem_cons_of_mem c hc')) hsorted' fun key hmem z hz => by
            rw [← Option.some.inj hmem, ← hyk]
            exact hacross y (mem_of_getLast? hy) z hz
      have hne : (d :: kids).flatMap (contents st level) ≠ [] := by
        intro hnil
        rw [hnil] at hlast
        cases hlast
      refine ⟨v, first :: subs, last, ?_, ?_, ?_, ?_⟩
      · rw [mapM_cons, hv, hsubs]
        rfl
      · obtain ⟨z, hz, hzkey⟩ := Option.map_eq_some_iff.1 hsummary.minkey
        rw [head?_append, hz, Option.some_or, Option.map_some, hzkey]
      · rw [getLast?_append_of_ne_nil _ hne]
        exact hlast
      · have hk : k = v.maxkey := Option.some.inj (hmax.symm.trans hsummary.maxkey)
        have hmin : ∀ key, key ∈ before → key ≤ v.minkey := fun key hmem =>
          hkey ▸ hbefore key hmem x (mem_append_left _ hx)
        rw [verify_keys, if_pos ⟨hmin, hk⟩, hkeys, length_append, hsummary.itemcount]
        rfl

theorem verify_node_spec : ∀ {level : Nat} {n : Node K level} {root : Bool}
    {before after : List LeafId}, Erasable t before after st level n →
      (root = true ∨ t.minslots level ≤ slotuse st level n) →
        ∃ v, verify_node t st root level n = some v ∧ Summary st level n v
  | 0, id, root, before, after, h, hroot => by
      have hsorted := h.sorted
      rw [contents_leaf] at hsorted
      have hchain : (st.leaf id).slotkey.IsChain (· ≤ ·) :=
        (pairwise_map.2 hsorted : (st.leaf id).slotkey.Pairwise (· ≤ ·)).isChain
      have hlength : (st.leaf id).slotkey.length = (st.leaf id).slots.length := length_map _
      obtain ⟨first, rest, heq⟩ := exists_cons_of_ne_nil h.wf.1
      obtain ⟨last, hlast⟩ := Option.isSome_iff_exists.1 (getLast?_isSome.2 h.wf.1)
      have hhead : (st.leaf id).slotkey.head? = some first.key := by
        rw [Leaf.slotkey, heq, map_cons, head?_cons]
      have hlast' : (st.leaf id).slotkey.getLast? = some last.key := by
        rw [Leaf.slotkey, getLast?_map, hlast, Option.map_some]
      have hmin : root = true ∨ t.minleafslots ≤ (st.leaf id).slotkey.length := by
        rw [hlength]
        exact hroot
      refine ⟨⟨first.key, last.key, (st.leaf id).slotkey.length⟩, ?_, ⟨?_, ?_, ?_⟩⟩
      · simp only [verify_node, hhead, hlast', Option.bind_eq_bind, Option.bind_some]
        exact if_pos ⟨hmin, hchain⟩
      · rw [contents_leaf, heq, head?_cons, Option.map_some]
      · rw [maxKey, contents_leaf, hlast, Option.map_some]
      · rw [contents_leaf, hlength]
  | level + 1, inner, root, before, after, h, hroot => by
      obtain ⟨hne, -, hsep, hkids⟩ := h.wf
      have hsorted := h.sorted
      rw [contents_inner] at hsorted
      have hchild : ∀ c, c ∈ inner.childid →
          ∃ v, verify_node t st false level c = some v ∧ Summary st level c v := by
        intro c hc
        obtain ⟨kids, kids', heq⟩ := append_of_mem hc
        exact verify_node_spec (h.child heq).1 (.inr (h.filled c hc).1)
      obtain ⟨first, subs, last, hsubs, hfirst, hlast, hkeys⟩ :=
        verify_keys_spec (verify_node t st false level) none hsep hne hchild hsorted
          fun key hmem => by cases hmem
      have hchain := (hsep.sorted hsorted).isChain
      have hlinks : verify_links st level inner.childid = true :=
        verify_links_spec before after hkids h.chain
      have hcheck : (root = true ∨ t.mininnerslots ≤ inner.slotkey.length) ∧
          0 < inner.slotkey.length ∧ inner.slotkey.IsChain (· ≤ ·) := ⟨hroot, h.pos, hchain⟩
      refine ⟨⟨first.minkey, last, (contents st (level + 1) inner).length⟩, ?_, ⟨?_, ?_, rfl⟩⟩
      · simp only [verify_node, if_pos hcheck, hsubs, head?_cons, hkeys, hlinks, contents_inner,
          Option.bind_eq_bind, Option.bind_some, if_true]
        rfl
      · rw [contents_inner]
        exact hfirst
      · rw [maxKey, contents_inner]
        exact hlast

end Nodes

/-! ## The leaf chain -/

section Leaflinks

variable [LinearOrder K] {st : Store K} {ids : List LeafId}

theorem verify_leaflinks_spec (hchain : Chain st ids)
    (hfull : ∀ id, id ∈ ids → (st.leaf id).slots ≠ [])
    (hsorted : Ascends KeyValue.key (st.items ids)) (rest : List LeafId) :
    ∀ {before : List LeafId} (turns testcount : Nat), ids = before ++ rest →
      rest.length ≤ turns → verify_leaflinks st turns rest.head? testcount =
        some (testcount + (st.items rest).length) := by
  induction rest with
  | nil =>
      intro before turns testcount heq hturns
      cases turns <;> rfl
  | cons id rest ih =>
      intro before turns testcount heq hturns
      obtain ⟨turns, rfl⟩ := Nat.exists_eq_add_one.2 (Nat.lt_of_lt_of_le (Nat.succ_pos _) hturns)
      have hid : id ∈ ids := heq ▸ mem_append_right before mem_cons_self
      obtain ⟨last, hlast⟩ := Option.isSome_iff_exists.1 (getLast?_isSome.2 (hfull id hid))
      have hlast' : (st.leaf id).slotkey.getLast? = some last.key := by
        rw [Leaf.slotkey, getLast?_map, hlast, Option.map_some]
      have hlength : (st.leaf id).slotkey.length = (st.leaf id).slots.length := length_map _
      rw [heq, Store.items_append, Store.items_cons] at hsorted
      obtain ⟨hleaf, -, hacross⟩ := pairwise_append.1 (pairwise_append.1 hsorted).2.1
      have hchain' : (st.leaf id).slotkey.IsChain (· ≤ ·) :=
        (pairwise_map.2 hleaf : (st.leaf id).slotkey.Pairwise (· ≤ ·)).isChain
      have hnext := (hchain.linked before id rest heq).2
      have htail := hchain.tail
      have hrest := ih turns (testcount + (st.leaf id).slotkey.length)
        (heq.trans (append_cons before id rest)) (Nat.le_of_succ_le_succ hturns)
      rw [Store.items_cons, length_append, ← Nat.add_assoc, ← hlength]
      simp only [head?_cons, verify_leaflinks, hlast', if_pos hchain', hnext, Option.bind_eq_bind,
        Option.bind_some]
      cases rest with
      | nil =>
          -- The last leaf of the chain is `m_tailleaf`.
          rw [heq, getLast?_concat] at htail
          exact if_pos htail
      | cons next rest =>
          have hnext' : next ∈ ids := heq ▸ mem_append_right before
            (mem_cons_of_mem id mem_cons_self)
          obtain ⟨first, slots, hslots⟩ := exists_cons_of_ne_nil (hfull next hnext')
          have hhead : (st.leaf next).slotkey.head? = some first.key := by
            rw [Leaf.slotkey, hslots, map_cons, head?_cons]
          have hprev := (hchain.linked (before ++ [id]) next rest
            (heq.trans (append_cons before id _))).1
          rw [getLast?_concat] at hprev
          have hle : last.key ≤ first.key := hacross last (mem_of_getLast? hlast) first (by
            rw [Store.items_cons, hslots]
            exact mem_append_left _ mem_cons_self)
          simp only [head?_cons, hhead, Option.bind_some]
          rw [if_pos ⟨hle, hprev⟩]
          exact hrest

end Leaflinks

/-! ## The whole tree -/

section Whole

variable [LinearOrder K]

theorem Balanced.verify {t : Traits} {tree : Tree K} {xs : List (KeyValue K)}
    (h : Balanced t tree xs) : Returns (fun turns => verify turns t tree xs.length) () := by
  obtain ⟨root, st⟩ := tree
  cases root with
  | none => exact Returns.const ()
  | some root =>
      obtain ⟨level, n⟩ := root
      have hcontents := h.contents_eq
      obtain ⟨v, hv, hsummary⟩ := verify_node_spec h.erasable (.inl rfl)
      obtain ⟨hchain, hitems, hsorted, hwf⟩ := h.holds
      have hfull := (hwf level n rfl).slots_ne_nil
      obtain ⟨head, rest, hids⟩ : ∃ head rest, leafIds level n = head :: rest := by
        refine exists_cons_of_ne_nil fun hnil => ?_
        obtain ⟨x, hx, -⟩ := hsummary.exists_head
        rw [contents, hnil] at hx
        cases hx
      simp only [Tree.leaves, hids] at hchain hitems hfull
      have hprev := (hchain.linked [] head rest rfl).1
      have hcount : v.itemcount = xs.length := hsummary.itemcount.trans (congrArg length hcontents)
      refine ⟨(head :: rest).length, fun turns hturns => ?_⟩
      have hlinks := verify_leaflinks_spec hchain hfull (hitems ▸ hsorted) (head :: rest) turns 0
        (nil_append _).symm hturns
      rw [Nat.zero_add, hitems, head?_cons] at hlinks
      simp only [MABTree.verify, hv, hchain.head, head?_cons, hlinks, Option.bind_eq_bind,
        Option.bind_some]
      exact if_pos ⟨hcount, hprev, trivial⟩

/-- `m_stats.itemcount` after a call with the answer. -/
def itemcount (size : Nat) : Answer → Nat
  | .inserted => size + 1
  | .erased found => if found then size - 1 else size
  | .count c => size - c

theorem length_apply (c : Update K) (xs : List (KeyValue K)) :
    (c.apply xs).2.length = itemcount xs.length (c.apply xs).1 := by
  cases c with
  | Insert data => exact (insertLower_perm data xs).length_eq
  | erase_one key => exact length_eraseP
  | erase key =>
      have hcount := length_eq_countP_add_countP (fun kv : KeyValue K => decide (kv.key = key))
        (l := xs)
      have hfilter : (xs.filter fun kv => decide (kv.key ≠ key)).length =
          xs.countP fun kv => decide ¬ decide (kv.key = key) = true := by
        rw [← countP_eq_length_filter]
        exact countP_congr fun kv _ => by simp
      change (xs.filter _).length = xs.length - xs.countP _
      omega

theorem length_applyAll (cs : List (Update K)) : ∀ xs : List (KeyValue K),
    (Update.applyAll cs xs).2.length = (Update.applyAll cs xs).1.foldl itemcount xs.length := by
  induction cs with
  | nil => exact fun xs => rfl
  | cons c cs ih =>
      intro xs
      rw [Update.applyAll, foldl_cons, ← length_apply]
      exact ih (c.apply xs).2

end Whole

end MABTree
end TLI
