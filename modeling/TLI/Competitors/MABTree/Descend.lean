import TLI.Competitors.MABTree.Invariant

/-!
# Descend — search in a node from a predicted position, and the way down to a leaf

Whatever the arithmetic predicts, the stripped position lies inside the node, so the search from it
is exact.  The child it selects holds the lower bound of the key: all that stands in front of the
child is smaller, and unless it is the last one, its own largest key is not.
-/

namespace TLI
namespace MABTree

open List LowerBound

variable {K : Type} [LinearOrder K]

/-! ## Search from a predicted position -/

theorem strip_pos_inner_le (slotuse : Nat) (pos : Int) : strip_pos_inner slotuse pos ≤ slotuse := by
  rw [strip_pos_inner]
  split
  · exact Nat.zero_le _
  · split <;> omega

theorem strip_pos_leaf_le (slotuse : Nat) (pos : Int) : strip_pos_leaf slotuse pos ≤ slotuse := by
  rw [strip_pos_leaf]
  split
  · exact Nat.zero_le _
  · split <;> omega

/-- Every prediction is a legal start. -/
theorem predict_pos_le (p : Params K) {strip_pos : Nat → Int → Nat}
    (hstrip : ∀ slotuse pos, strip_pos slotuse pos ≤ slotuse) (slotkey : List K) (midp_err : Int)
    (key : K) (lo_key hi_key : Option K) :
    predict_pos p strip_pos slotkey midp_err key lo_key hi_key ≤ slotkey.length := by
  unfold predict_pos
  split
  · exact hstrip _ _
  · exact Nat.zero_le _

theorem find_lower_inner_eq {α : Type} (p : Params K) {inner : Inner K α}
    (hsorted : inner.slotkey.Pairwise (· ≤ ·)) (key : K) (lo_key hi_key : Option K) :
    find_lower_inner p inner key lo_key hi_key =
      inner.slotkey.findIdx fun k => decide (key ≤ k) :=
  p.search.exact hsorted (predict_pos_le p strip_pos_inner_le _ _ _ _ _)

theorem find_lower_leaf_eq (p : Params K) {leaf : Leaf K}
    (hsorted : Ascends KeyValue.key leaf.slots) (key : K) (lo_key hi_key : Option K) :
    find_lower_leaf p leaf key lo_key hi_key = (front KeyValue.key key leaf.slots).length := by
  rw [← findIdx_eq_length_front]
  exact p.search.exact (pairwise_map.2 hsorted) (predict_pos_le p strip_pos_leaf_le _ _ _ _ _)

/-! ## Separators -/

section Separators

variable {t : Traits} {st : Store K} {level : Nat}

omit [LinearOrder K] in
theorem separated_cons {c d : Node K level} {kids : List (Node K level)} {keys : List K}
    (h : Separated st level keys (c :: d :: kids)) :
    ∃ k keys', keys = k :: keys' ∧ maxKey st level c = some k ∧
      Separated st level keys' (d :: kids) := by
  rw [Separated, dropLast_cons_cons, map_cons] at h
  cases keys with
  | nil => cases h
  | cons k keys =>
      rw [map_cons, cons.injEq] at h
      exact ⟨k, keys, rfl, h.1.symm, h.2⟩

/-- A separator bounds the child in front of it. -/
theorem le_of_maxKey {c : Node K level} {k : K} (h : maxKey st level c = some k)
    (hsorted : Ascends KeyValue.key (contents st level c)) {x : KeyValue K}
    (hx : x ∈ contents st level c) : x.key ≤ k := by
  obtain ⟨last, hlast, rfl⟩ := Option.map_eq_some_iff.1 h
  obtain ⟨xs, hxs⟩ := getLast?_eq_some_iff.1 hlast
  rw [hxs] at hx hsorted
  rcases mem_append.1 hx with hx | hx
  · exact (pairwise_append.1 hsorted).2.2 x hx last mem_cons_self
  · rw [mem_singleton.1 hx]

omit [LinearOrder K] in
/-- Every separator is a stored key. -/
theorem Separated.exists_mem : ∀ {kids : List (Node K level)} {keys : List K},
    Separated st level keys kids → ∀ k, k ∈ keys →
      ∃ x, x ∈ kids.flatMap (contents st level) ∧ x.key = k := by
  intro kids keys h k hk
  have hmem : some k ∈ keys.map some := mem_map_of_mem hk
  rw [show keys.map some = _ from h] at hmem
  obtain ⟨c, hc, hmax⟩ := mem_map.1 hmem
  obtain ⟨x, hx, rfl⟩ := Option.map_eq_some_iff.1 hmax
  exact ⟨x, mem_flatMap.2 ⟨c, dropLast_subset _ hc, mem_of_getLast? hx⟩, rfl⟩

theorem Separated.sorted : ∀ {kids : List (Node K level)} {keys : List K},
    Separated st level keys kids → Ascends KeyValue.key (kids.flatMap (contents st level)) →
      keys.Pairwise (· ≤ ·)
  | [], keys, h, _ => by
      rw [map_eq_nil_iff.1 h]
      exact Pairwise.nil
  | [c], keys, h, _ => by
      rw [map_eq_nil_iff.1 h]
      exact Pairwise.nil
  | c :: d :: kids, keys, h, hsorted => by
      obtain ⟨k, keys, rfl, hmax, hrest⟩ := separated_cons h
      obtain ⟨x, hx, rfl⟩ := Option.map_eq_some_iff.1 hmax
      rw [flatMap_cons] at hsorted
      obtain ⟨-, htail, hacross⟩ := pairwise_append.1 hsorted
      refine pairwise_cons.2 ⟨fun k' hk' => ?_, hrest.sorted htail⟩
      obtain ⟨y, hy, rfl⟩ := hrest.exists_mem k' hk'
      exact hacross x (mem_of_getLast? hx) y hy

/-- A child and its neighbours, with the lower bound of a key in it. -/
structure Around (st : Store K) (level : Nat) (key : K) (kids : List (Node K level))
    (before : List (Node K level)) (child : Node K level) (after : List (Node K level)) : Prop where
  eq : kids = before ++ child :: after
  lt : ∀ x, x ∈ before.flatMap (contents st level) → x.key < key
  le : after = [] ∨ ∃ x, x ∈ contents st level child ∧ key ≤ x.key

theorem Separated.exists_around (key : K) : ∀ {kids : List (Node K level)} {keys : List K},
    Separated st level keys kids → kids ≠ [] →
      Ascends KeyValue.key (kids.flatMap (contents st level)) →
        ∃ before child after, Around st level key kids before child after ∧
          (keys.findIdx fun k => decide (key ≤ k)) = before.length
  | [], _, _, hne, _ => absurd rfl hne
  | [c], keys, h, _, _ => by
      rw [map_eq_nil_iff.1 h]
      exact ⟨[], c, [], ⟨rfl, fun x hx => (not_mem_nil hx).elim, .inl rfl⟩, rfl⟩
  | c :: d :: kids, keys, h, _, hsorted => by
      obtain ⟨k, keys, rfl, hmax, hrest⟩ := separated_cons h
      rw [flatMap_cons] at hsorted
      obtain ⟨hhead, htail, -⟩ := pairwise_append.1 hsorted
      by_cases hk : key ≤ k
      · obtain ⟨x, hx, rfl⟩ := Option.map_eq_some_iff.1 hmax
        exact ⟨[], c, d :: kids, ⟨rfl, fun y hy => (not_mem_nil hy).elim,
          .inr ⟨x, mem_of_getLast? hx, hk⟩⟩, by simp [findIdx_cons, hk]⟩
      · obtain ⟨before, child, after, ⟨heq, hlt, hle⟩, hidx⟩ :=
          hrest.exists_around key (cons_ne_nil d kids) htail
        refine ⟨c :: before, child, after, ⟨by rw [heq, cons_append], fun x hx => ?_, hle⟩, ?_⟩
        · rw [flatMap_cons] at hx
          rcases mem_append.1 hx with hx | hx
          · exact lt_of_le_of_lt (le_of_maxKey hmax hhead hx) (not_le.1 hk)
          · exact hlt x hx
        · simp [findIdx_cons, hk, hidx]

/-- The search in an inner node selects the child that holds the lower bound. -/
theorem exists_child (p : Params K) {inner : Inner K (Node K level)}
    (hwf : WF t st (level + 1) inner)
    (hsorted : Ascends KeyValue.key (contents st (level + 1) inner)) (key : K)
    (lo_key hi_key : Option K) :
    ∃ before child after, Around st level key inner.childid before child after ∧
      find_lower_inner p inner key lo_key hi_key = before.length := by
  obtain ⟨hne, -, hsep, -⟩ := hwf
  rw [contents_inner] at hsorted
  obtain ⟨before, child, after, haround, hidx⟩ := hsep.exists_around key hne hsorted
  exact ⟨before, child, after, haround,
    (find_lower_inner_eq p (hsep.sorted hsorted) key lo_key hi_key).trans hidx⟩

end Separators

/-! ## The way down -/

/-- A leaf and its neighbours, with the lower bound of a key in it. -/
structure Reached (st : Store K) (key : K) (ids : List LeafId) (before : List LeafId) (id : LeafId)
    (after : List LeafId) : Prop where
  eq : ids = before ++ id :: after
  lt : ∀ x, x ∈ st.items before → x.key < key
  le : after = [] ∨ ∃ x, x ∈ (st.leaf id).slots ∧ key ≤ x.key

theorem descend_spec (p : Params K) {t : Traits} {st : Store K} (key : K) :
    ∀ {level : Nat} {n : Node K level} (lo_key hi_key : Option K), WF t st level n →
      Ascends KeyValue.key (contents st level n) →
        ∃ before id after, Reached st key (leafIds level n) before id after ∧
          descend p st key level n lo_key hi_key =
            some (id, (front KeyValue.key key (st.leaf id).slots).length)
  | 0, id, lo_key, hi_key, _, hsorted => by
      rw [contents, leafIds, Store.items, flatMap_cons, flatMap_nil, append_nil] at hsorted
      refine ⟨[], id, [], ⟨rfl, fun x hx => (not_mem_nil hx).elim, .inl rfl⟩, ?_⟩
      rw [descend, find_lower_leaf_eq p hsorted]
  | level + 1, inner, lo_key, hi_key, hwf, hsorted => by
      obtain ⟨before, child, after, ⟨heq, hlt, hle⟩, hslot⟩ :=
        exists_child p hwf hsorted key lo_key hi_key
      have hget : inner.childid[before.length]? = some child := by
        rw [heq, getElem?_append_right le_rfl, Nat.sub_self]
        rfl
      rw [contents_inner, heq, flatMap_append, flatMap_cons] at hsorted
      obtain ⟨before', id, after', ⟨heq', hlt', hle'⟩, hdescend⟩ :=
        descend_spec p key (child_lo inner.slotkey before.length)
          (child_hi inner.slotkey before.length) (hwf.2.2.2 child (mem_of_getElem? hget))
          (pairwise_append.1 (pairwise_append.1 hsorted).2.1).1
      refine ⟨before.flatMap (leafIds level) ++ before', id,
        after' ++ after.flatMap (leafIds level), ⟨?_, ?_, ?_⟩, ?_⟩
      · simp [leafIds, heq, heq']
      · rw [Store.items_append, items_flatMap_leafIds]
        exact fun x hx => (mem_append.1 hx).elim (hlt x) (hlt' x)
      · refine hle'.elim (fun hnil' => ?_) .inr
        refine hle.imp (fun hnil => by rw [hnil', hnil]; rfl) ?_
        -- The largest key of the child is not in front of its last leaf.
        rintro ⟨x, hx, hkey⟩
        rw [contents, heq', hnil', Store.items_append, Store.items_cons] at hx
        rcases mem_append.1 hx with hx | hx
        · exact absurd (hlt' x hx) (not_lt.2 hkey)
        · exact ⟨x, by simpa [Store.items] using hx, hkey⟩
      · simp only [descend, hslot, hget, Option.bind_eq_bind, Option.bind_some]
        exact hdescend

end MABTree
end TLI
