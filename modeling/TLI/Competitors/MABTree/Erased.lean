import TLI.Competitors.MABTree.Map
import TLI.Competitors.MABTree.Underflow
import TLI.Library.EraseFirst

/-!
# Erased — a key is removed below a node

The descent removes the first pair of the key, and whatever a leaf is short of is passed up from
parent to parent.  `Placed` says what a node is told of its neighbours: enough to resolve any
underflow, although the neighbour below a left cousin is the wrong one.
-/

namespace TLI
namespace MABTree

open List LowerBound

variable {K : Type}

/-! ## What a node is told of its neighbours -/

section Neighbours

variable {t : Traits} {st : Store K} {level : Nat}

/-- A node below the root, or none. -/
def Proper (t : Traits) (st : Store K) (level : Nat) (n : Option (Node K level)) : Prop :=
  ∀ m, n = some m → WF t st level m ∧ Filled t st level m ∧ t.minslots level ≤ slotuse st level m

structure Placed (t : Traits) (st : Store K) (around : Neighbours K level) : Prop where
  left : Proper t st level around.left
  right : Proper t st level around.right
  leftparent : ∀ q, around.leftparent = some q → level + 1 ≤ q
  rightparent : ∀ q, around.rightparent = some q → level + 1 ≤ q
  parents : around.leftparent = around.rightparent → (around.left = none ↔ around.right = none)

theorem placed_none : Placed t st (Neighbours.none : Neighbours K level) where
  left m h := by cases h
  right m h := by cases h
  leftparent q h := by cases h
  rightparent q h := by cases h
  parents _ := Iff.rfl

theorem Placed.underflow_isSome {around : Neighbours K level} (h : Placed t st around)
    (st' : Store K) (n : Node K level) :
    ∃ fix, around.underflow t st' n = some fix :=
  MABTree.underflow_isSome fun heq => by
    rw [Option.map_eq_none_iff, Option.map_eq_none_iff]
    exact h.parents heq

/-- The neighbours below the same parent are the siblings. -/
structure Between (below : Neighbours K level) (kids kids' : List (Node K level)) : Prop where
  parent : below.parent = some (level + 1)
  left : below.leftparent = some (level + 1) →
    ∃ kids₀ l, kids = kids₀ ++ [l] ∧ below.left = some l
  right : below.rightparent = some (level + 1) →
    ∃ r kids₀, kids' = r :: kids₀ ∧ below.right = some r
  one : below.leftparent = some (level + 1) ∨ below.rightparent = some (level + 1)

theorem Between.resolves {st' : Store K} {below : Neighbours K level}
    {kids kids' : List (Node K level)} (h : Between below kids kids') {n : Node K level} {fix : Fix}
    (hfix : below.underflow t st' n = some fix) :
    Resolves (t.minslots level) (slotuse st' level n) (below.left.map (slotuse st' level))
      (below.right.map (slotuse st' level)) below.leftparent below.rightparent (level + 1)
        fix := by
  rw [Neighbours.underflow, h.parent] at hfix
  refine resolves_underflow h.one (fun hparent => ?_) (fun hparent => ?_) hfix
  · obtain ⟨kids₀, l, -, hleft⟩ := h.left hparent
    rw [hleft]
    exact Option.some_ne_none _
  · obtain ⟨r, kids₀, -, hright⟩ := h.right hparent
    rw [hright]
    exact Option.some_ne_none _

section Child

variable {inner : Inner K (Node K level)} {kids kids' : List (Node K level)} {c : Node K level}
  {around : Neighbours K (level + 1)}

theorem Proper.child {n : Inner K (Node K level)} (h : Proper t st (level + 1) (some n)) {i : Nat}
    (hi : i < n.childid.length) :
    ∃ m, n.childid[i]? = some m ∧ Proper t st level (some m) := by
  obtain ⟨hwf, hfilled, -⟩ := h n rfl
  have hget := getElem?_eq_getElem hi
  have hmem := mem_of_getElem? hget
  refine ⟨_, hget, fun m hm => ?_⟩
  cases hm
  exact ⟨hwf.2.2.2 _ hmem, (hfilled _ hmem).2, (hfilled _ hmem).1⟩

theorem proper_of_mem (hwf : WF t st (level + 1) inner) (hfilled : Filled t st (level + 1) inner)
    {m : Node K level} (hm : m ∈ inner.childid) : Proper t st level (some m) := by
  intro m' hm'
  cases hm'
  exact ⟨hwf.2.2.2 m hm, (hfilled m hm).2, (hfilled m hm).1⟩

/-- `myleft` below a left neighbour, or the child in front. -/
theorem Placed.myleft (h : Placed t st around) (hwf : WF t st (level + 1) inner)
    (hfilled : Filled t st (level + 1) inner) (heq : inner.childid = kids ++ c :: kids') :
    ∃ o, around.myleft inner kids.length = some o ∧ Proper t st level o ∧
      ∀ kids₀ l, kids = kids₀ ++ [l] → o = some l := by
  rcases eq_nil_or_concat' kids with rfl | ⟨kids₀, l, rfl⟩
  · cases hleft : around.left with
    | none =>
        refine ⟨none, ?_, fun m hm => (by cases hm), fun kids₀ l hnil => by simp at hnil⟩
        simp [Neighbours.myleft, hleft]
    | some left =>
        have hproper := h.left
        rw [hleft] at hproper
        obtain ⟨hwf', -, hmin⟩ := hproper left rfl
        have hpos := t.minslots_bounds (level + 1)
        have hlength := hwf'.2.2.1.length_eq hwf'.1
        change _ ≤ left.slotkey.length at hmin
        obtain ⟨m, hm, hproper'⟩ := hproper.child
          (show left.slotkey.length - 1 < left.childid.length by omega)
        refine ⟨some m, ?_, hproper', fun kids₀ l hnil => by simp at hnil⟩
        simp only [Neighbours.myleft, length_nil, if_true, hleft, hm, Option.map_some]
        exact if_neg (by omega)
  · refine ⟨some l, ?_, proper_of_mem hwf hfilled ?_, fun kids₁ l' hkids => ?_⟩
    · simp [Neighbours.myleft, heq]
    · rw [heq]
      exact mem_append_left _ (mem_append_right _ mem_cons_self)
    · rw [(append_singleton_inj.1 hkids).2]

/-- `myright` below a right neighbour, or the child behind. -/
theorem Placed.myright (h : Placed t st around) (hwf : WF t st (level + 1) inner)
    (hfilled : Filled t st (level + 1) inner) (heq : inner.childid = kids ++ c :: kids') :
    ∃ o, around.myright inner kids.length = some o ∧ Proper t st level o ∧
      ∀ r kids₀, kids' = r :: kids₀ → o = some r := by
  have hlength := hwf.2.2.1.length_eq hwf.1
  rw [heq, length_append, length_cons] at hlength
  cases kids' with
  | nil =>
      rw [length_nil] at hlength
      have hlast : kids.length = inner.slotkey.length := by omega
      cases hright : around.right with
      | none =>
          refine ⟨none, ?_, fun m hm => (by cases hm), fun r kids₀ hnil => by simp at hnil⟩
          simp [Neighbours.myright, hright, hlast]
      | some right =>
          have hproper := h.right
          rw [hright] at hproper
          obtain ⟨m, hm, hproper'⟩ := hproper.child (length_pos_iff.2 (hproper right rfl).1.1)
          refine ⟨some m, ?_, hproper', fun r kids₀ hnil => by simp at hnil⟩
          simp only [Neighbours.myright, hlast, if_true, hright, hm, Option.map_some]
  | cons r kids₀ =>
      rw [length_cons] at hlength
      have hne : kids.length ≠ inner.slotkey.length := by omega
      refine ⟨some r, ?_, proper_of_mem hwf hfilled ?_, fun r' kids₁ hkids => ?_⟩
      · simp [Neighbours.myright, heq, hne]
      · rw [heq]
        exact mem_append_right _ (mem_cons_of_mem c mem_cons_self)
      · rw [(cons.inj hkids).1]

/-- The neighbours of a child of a node that has two children or more. -/
theorem Placed.child (h : Placed t st around) (hwf : WF t st (level + 1) inner)
    (hfilled : Filled t st (level + 1) inner) (hpos : 0 < inner.slotkey.length)
    (heq : inner.childid = kids ++ c :: kids') :
    ∃ below, around.child inner kids.length = some below ∧ Placed t st below ∧
      Between below kids kids' := by
  obtain ⟨left, hmyleft, hproper, hleft⟩ := h.myleft hwf hfilled heq
  obtain ⟨right, hmyright, hproper', hright⟩ := h.myright hwf hfilled heq
  have hlength := hwf.2.2.1.length_eq hwf.1
  rw [heq, length_append, length_cons] at hlength
  have hfar : ∀ q, around.leftparent = some q ∨ around.rightparent = some q → q ≠ level + 1 := by
    intro q hq
    have hle : level + 1 + 1 ≤ q := hq.elim (h.leftparent q) (h.rightparent q)
    omega
  -- A side without a sibling has the neighbour and the parent that the node was told.
  have hleft' : kids.length = 0 ∨ kids.length ≠ 0 ∧ ∃ kids₀ l, kids = kids₀ ++ [l] ∧
      left = some l := by
    rcases eq_nil_or_concat' kids with rfl | ⟨kids₀, l, rfl⟩
    · exact .inl rfl
    · exact .inr ⟨by simp, kids₀, l, rfl, hleft kids₀ l rfl⟩
  have hright' : kids.length = inner.slotkey.length ∨ kids.length ≠ inner.slotkey.length ∧
      ∃ r kids₀, kids' = r :: kids₀ ∧ right = some r := by
    cases kids' with
    | nil =>
        rw [length_nil] at hlength
        exact .inl (by omega)
    | cons r kids₀ =>
        rw [length_cons] at hlength
        exact .inr ⟨by omega, r, kids₀, rfl, hright r kids₀ rfl⟩
  have hboth : kids.length ≠ 0 ∨ kids.length ≠ inner.slotkey.length := by omega
  refine ⟨_, by simp only [Neighbours.child, hmyleft, hmyright, Option.bind_eq_bind,
    Option.bind_some]; rfl, ⟨hproper, hproper', fun q hq => ?_, fun q hq => ?_, fun hq => ?_⟩,
    ⟨rfl, fun hq => ?_, fun hq => ?_, ?_⟩⟩
  · rcases hleft' with hnil | ⟨hne, -⟩
    · rw [if_pos hnil] at hq
      exact Nat.le_of_succ_le (h.leftparent q hq)
    · rw [if_neg hne] at hq
      cases hq
      exact le_rfl
  · rcases hright' with hnil | ⟨hne, -⟩
    · rw [if_pos hnil] at hq
      exact Nat.le_of_succ_le (h.rightparent q hq)
    · rw [if_neg hne] at hq
      cases hq
      exact le_rfl
  · rcases hleft' with hnil | ⟨hne, kids₀, l, -, rfl⟩
    · rw [if_pos hnil, if_neg (hboth.resolve_left (not_not_intro hnil))] at hq
      exact absurd rfl (hfar _ (.inl hq))
    · rcases hright' with hnil | ⟨hne', r, kids₁, -, rfl⟩
      · rw [if_neg hne, if_pos hnil] at hq
        exact absurd rfl (hfar _ (.inr hq.symm))
      · exact iff_of_false (Option.some_ne_none l) (Option.some_ne_none r)
  · rcases hleft' with hnil | ⟨-, kids₀, l, hkids, hl⟩
    · rw [if_pos hnil] at hq
      exact absurd rfl (hfar _ (.inl hq))
    · exact ⟨kids₀, l, hkids, hl⟩
  · rcases hright' with hnil | ⟨-, r, kids₀, hkids, hr⟩
    · rw [if_pos hnil] at hq
      exact absurd rfl (hfar _ (.inr hq))
    · exact ⟨r, kids₀, hkids, hr⟩
  · exact hboth.imp (fun hne => if_neg hne) fun hne => if_neg hne

end Child

end Neighbours

/-! ## What an erasure does -/

variable [LinearOrder K]

/-- What has to hold of a node for an erasure below it. -/
structure Erasable (t : Traits) (before after : List LeafId) (st : Store K) (level : Nat)
    (n : Node K level) : Prop where
  wf : WF t st level n
  sorted : Ascends KeyValue.key (contents st level n)
  filled : Filled t st level n
  pos : 0 < slotuse st level n
  chain : Chain st (before ++ leafIds level n ++ after)

/-- The key for the slot of a node tells its parent if the largest key is a new one. -/
def Tells (lastkey old new : Option K) : Prop :=
  (∀ k, lastkey = some k → new = some k) ∧ (lastkey = none → new = old)

structure Erased (t : Traits) (before after : List LeafId) (st st' : Store K) (key : K)
    {level : Nat} (n : Node K level) (e : Erasure K level) : Prop where
  swapped : Swapped before after st st' (leafIds level n) (leafIds level e.node)
  contents_eq : contents st' level e.node = eraseFirst KeyValue.key key (contents st level n)
  wf : contents st' level e.node ≠ [] → WF t st' level e.node
  filled : Filled t st' level e.node
  slotuse_le : slotuse st level n ≤ slotuse st' level e.node + 1
  lastkey : contents st' level e.node ≠ [] →
    Tells e.lastkey (maxKey st level n) (maxKey st' level e.node)

/-! ## In a leaf -/

section Leaf

variable {t : Traits} {st : Store K} {id : LeafId} {key : K} {before after : List LeafId}

/-- The first pair of the key is removed. -/
theorem erase_slot_found (p : Params K) (hsorted : Ascends KeyValue.key (st.leaf id).slots)
    (hkey : HasKey KeyValue.key key (st.leaf id).slots) :
    ∃ front kv rest, (st.leaf id).slots = front ++ kv :: rest ∧
      eraseFirst KeyValue.key key (st.leaf id).slots = front ++ rest ∧
        erase_slot p st id key = some (if rest = [] then front.getLast?.map KeyValue.key else none,
          st.set id { st.leaf id with slots := front ++ rest }) := by
  obtain ⟨kv, rest, heq, hkv, herase⟩ := hkey.exists_split hsorted
  have hslot := find_lower_leaf_eq p hsorted key none none
  generalize front KeyValue.key key (st.leaf id).slots = front at heq herase hslot
  have hget : (st.leaf id).slots[front.length]? = some kv := by
    rw [heq, getElem?_append_right le_rfl, Nat.sub_self]
    rfl
  have hslots : (st.leaf id).slots.eraseIdx front.length = front ++ rest := by
    rw [heq, eraseIdx_append_of_length_le le_rfl, Nat.sub_self, eraseIdx_zero, tail_cons]
  refine ⟨front, kv, rest, heq, herase, ?_⟩
  simp only [erase_slot, hslot, hget, if_pos hkv, hslots]
  cases rest with
  | nil => simp
  | cons y rest => simp

theorem erase_slot_absent (p : Params K)
    (hkey : ¬ HasKey KeyValue.key key (st.leaf id).slots) : erase_slot p st id key = none := by
  simp only [erase_slot]
  split
  · rfl
  · next kv hget => exact if_neg fun hkv => hkey ⟨kv, mem_of_getElem? hget, hkv⟩

theorem erase_leaf_found (p : Params K) (h : Erasable p.traits before after st 0 id)
    {around : Neighbours K 0} (hplaced : Placed p.traits st around)
    (hparent : around.parent ≠ none → 2 ≤ slotuse st 0 id)
    (hkey : HasKey KeyValue.key key (contents st 0 id)) :
    ∃ e st', erase_one_descend p key 0 id around st = some (some (e, st')) ∧
      Erased p.traits before after st st' key id e ∧
        around.underflow p.traits st' e.node = some e.fix := by
  have hsorted := h.sorted
  rw [contents_leaf] at hsorted hkey
  obtain ⟨front, kv, rest, heq, herase, hslot⟩ := erase_slot_found p hsorted hkey
  have hslots := Store.leaf_set_self st id { st.leaf id with slots := front ++ rest }
  have hchain := h.chain.set_slots id (front ++ rest)
  have hothers := fun x (hx : x ≠ id) =>
    Store.leaf_set_of_ne st hx { st.leaf id with slots := front ++ rest }
  generalize st.set id { st.leaf id with slots := front ++ rest } = st' at *
  have hslots' : (st'.leaf id).slots = front ++ rest := congrArg Leaf.slots hslots
  have huse : slotuse st' 0 id = front.length + rest.length := by
    rw [slotuse, hslots', length_append]
  have huse' : slotuse st 0 id = front.length + (rest.length + 1) := by
    rw [slotuse, heq, length_append, length_cons]
  have hmax := h.wf.2
  rw [heq, length_append, length_cons] at hmax
  obtain ⟨fix, hfix⟩ := hplaced.underflow_isSome st' id
  refine ⟨⟨id, if rest = [] then front.getLast?.map KeyValue.key else none, fix⟩, st', ?_,
    ⟨⟨fun x hx => ?_, Sublist.refl _, hchain⟩, ?_, fun hne => ?_, trivial, ?_, fun hne => ?_⟩, hfix⟩
  · have hempty : ¬ (slotuse st' 0 id = 0 ∧ around.parent ≠ none) := by
      rintro ⟨hzero, hp⟩
      have htwo := hparent hp
      omega
    simp only [erase_one_descend, hslot, if_neg hempty, hfix, Option.bind_eq_bind,
      Option.bind_some]
    rfl
  · exact congrArg Leaf.slots (hothers x fun hid => hx (hid ▸ mem_singleton_self id))
  · rw [contents_leaf, contents_leaf, hslots', herase]
  · rw [contents_leaf] at hne
    refine ⟨hne, ?_⟩
    rw [hslots', length_append]
    omega
  · change _ ≤ slotuse st' 0 id + 1
    omega
  · -- Only the last pair of a leaf gives it another largest key.
    rw [maxKey, maxKey, contents_leaf, contents_leaf, hslots', heq]
    cases rest with
    | nil =>
        rw [append_nil, if_pos rfl]
        refine ⟨fun k hk => hk, fun hnone => ?_⟩
        rw [contents_leaf, hslots', append_nil] at hne
        rw [Option.map_eq_none_iff, getLast?_eq_none_iff] at hnone
        exact absurd hnone hne
    | cons y rest =>
        rw [if_neg (cons_ne_nil y rest)]
        refine ⟨fun k hk => (by cases hk), fun _ => ?_⟩
        rw [getLast?_append_of_ne_nil _ (cons_ne_nil y rest),
          getLast?_append_of_ne_nil _ (cons_ne_nil kv _), getLast?_cons_cons]

end Leaf

/-! ## In a parent -/

section Parent

variable {t : Traits} {st st' : Store K} {level : Nat} {key : K} {before after : List LeafId}
  {inner : Inner K (Node K level)} {kids kids' : List (Node K level)} {c : Node K level}

omit [LinearOrder K] in
theorem contents_eq_around (heq : inner.childid = kids ++ c :: kids') :
    contents st (level + 1) inner = kids.flatMap (contents st level) ++
      (contents st level c ++ kids'.flatMap (contents st level)) := by
  rw [contents_inner, heq, flatMap_append, flatMap_cons]

omit [LinearOrder K] in
theorem leafIds_eq_around (heq : inner.childid = kids ++ c :: kids') :
    leafIds (level + 1) inner = kids.flatMap (leafIds level) ++
      (leafIds level c ++ kids'.flatMap (leafIds level)) := by
  rw [leafIds, heq, flatMap_append, flatMap_cons]

theorem Around.not_hasKey (h : Around st level key inner.childid kids c kids') :
    ¬ HasKey KeyValue.key key (kids.flatMap (contents st level)) :=
  fun ⟨x, hx, hkey⟩ => (h.lt x hx).ne hkey

/-- The key is below the child around its lower bound, or nowhere. -/
theorem Around.hasKey_iff (h : Around st level key inner.childid kids c kids')
    (hsorted : Ascends KeyValue.key (contents st (level + 1) inner)) :
    HasKey KeyValue.key key (contents st (level + 1) inner) ↔
      HasKey KeyValue.key key (contents st level c) := by
  rw [contents_eq_around h.eq] at hsorted ⊢
  rw [hasKey_append, hasKey_append]
  refine ⟨fun hkey => ?_, fun hkey => .inr (.inl hkey)⟩
  rcases hkey.resolve_left h.not_hasKey with hkey | ⟨y, hy, hkey⟩
  · exact hkey
  · have hne : kids' ≠ [] := by
      rintro rfl
      cases hy
    obtain ⟨x, hx, hle⟩ := h.le.resolve_left hne
    have hxy := (pairwise_append.1 (pairwise_append.1 hsorted).2.1).2.2 x hx y hy
    exact ⟨x, hx, le_antisymm (hxy.trans hkey.le) hle⟩

theorem Around.eraseFirst_eq (h : Around st level key inner.childid kids c kids')
    (hkey : HasKey KeyValue.key key (contents st level c)) :
    eraseFirst KeyValue.key key (contents st (level + 1) inner) =
      kids.flatMap (contents st level) ++ (eraseFirst KeyValue.key key (contents st level c) ++
        kids'.flatMap (contents st level)) := by
  rw [contents_eq_around h.eq, eraseFirst_append_of_not_hasKey h.not_hasKey,
    eraseFirst_append_of_hasKey hkey]

omit [LinearOrder K] in
/-- More than one pair is below a leaf with two slots, and below an inner node with a key. -/
theorem WF.two_le_length {n : Node K level} (hwf : WF t st level n)
    (huse : 2 ≤ slotuse st level n ∨ level ≠ 0 ∧ 0 < slotuse st level n) :
    2 ≤ (contents st level n).length := by
  cases level with
  | zero =>
      rw [contents_leaf]
      exact huse.resolve_right fun hinner => hinner.1 rfl
  | succ level =>
      obtain ⟨hne, -, hsep, hkids⟩ := hwf
      have hlength := hsep.length_eq hne
      simp only [slotuse] at huse
      rw [contents_inner]
      rcases hcons : n.childid with _ | ⟨a, _ | ⟨b, rest⟩⟩
      · exact absurd hcons hne
      · rw [hcons, length_singleton] at hlength
        omega
      · rw [flatMap_cons, flatMap_cons, length_append, length_append]
        have ha := length_pos_iff.2 (hkids a (hcons ▸ mem_cons_self)).contents_ne_nil
        have hb := length_pos_iff.2
          (hkids b (hcons ▸ mem_cons_of_mem a mem_cons_self)).contents_ne_nil
        omega

theorem Erased.contents_ne_nil {e : Erasure K level} (h : Erased t before after st st' key c e)
    (hlength : 2 ≤ (contents st level c).length) : contents st' level e.node ≠ [] := by
  rw [h.contents_eq, ← length_pos_iff]
  have hle := le_length_eraseP (p := fun x : KeyValue K => decide (x.key = key))
    (l := contents st level c)
  change _ ≤ (eraseFirst KeyValue.key key (contents st level c)).length at hle
  omega

/-- The parent before anything is done about the child. -/
structure Removed (t : Traits) (before after : List LeafId) (st st' : Store K) (key : K)
    (inner : Inner K (Node K level)) (kids : List (Node K level)) (c' : Node K level)
    (kids' : List (Node K level)) (replaced : Inner K (Node K level) × Option K) : Prop where
  lacking : Lacking t st' replaced.1 kids c' kids'
  swapped : Swapped before after st st' (leafIds (level + 1) inner)
    (leafIds (level + 1) replaced.1)
  contents_eq : contents st' (level + 1) replaced.1 =
    eraseFirst KeyValue.key key (contents st (level + 1) inner)
  length_eq : replaced.1.slotkey.length = inner.slotkey.length
  lastkey : Tells replaced.2 (maxKey st (level + 1) inner) (maxKey st' (level + 1) replaced.1)

omit [LinearOrder K] in
/-- The largest key of a parent changes only with that of its last child. -/
theorem maxKey_replaced {inner' : Inner K (Node K level)} {c' : Node K level}
    (hwf : WF t st (level + 1) inner) (heq : inner.childid = kids ++ c :: kids')
    (hkids : inner'.childid = kids ++ c' :: kids') (hwf' : WF t st' level c')
    (hkept : Kept st st' level kids') :
    (kids' = [] ∧ maxKey st (level + 1) inner = maxKey st level c ∧
      maxKey st' (level + 1) inner' = maxKey st' level c') ∨
        (kids' ≠ [] ∧ maxKey st' (level + 1) inner' = maxKey st (level + 1) inner) := by
  have hmem : ∀ x, x ∈ c :: kids' → WF t st level x := fun x hx =>
    hwf.2.2.2 x (heq ▸ mem_append_right kids hx)
  rcases eq_nil_or_concat' kids' with rfl | ⟨rest, d, rfl⟩
  · exact .inl ⟨rfl, maxKey_inner heq (hmem c mem_cons_self), maxKey_inner hkids hwf'⟩
  · have hd : d ∈ rest ++ [d] := mem_append_right rest mem_cons_self
    have hdwf := hmem d (mem_cons_of_mem c hd)
    rw [← cons_append, ← append_assoc] at heq hkids
    refine .inr ⟨append_ne_nil_of_right_ne_nil _ (cons_ne_nil _ _), ?_⟩
    rw [maxKey_inner heq hdwf, maxKey_inner hkids (hdwf.congr (hkept.child hd)),
      hkept.maxKey_eq hd]

/-- With separators as they have to be, and the key of the last child passed on. -/
theorem Erased.removed_of {e : Erasure K level}
    (h : Erased t (before ++ kids.flatMap (leafIds level)) (kids'.flatMap (leafIds level) ++ after)
      st st' key c e)
    (hinner : Erasable t before after st (level + 1) inner)
    (haround : Around st level key inner.childid kids c kids')
    (hkey : HasKey KeyValue.key key (contents st level c))
    {replaced : Inner K (Node K level) × Option K}
    (hkids : replaced.1.childid = kids ++ e.node :: kids')
    (hlength : replaced.1.slotkey.length = inner.slotkey.length)
    (hkept : Kept st st' level kids) (hkept' : Kept st st' level kids')
    (hne : contents st' level e.node ≠ [])
    (hsep : Separated st' level replaced.1.slotkey (kids ++ e.node :: kids'))
    (hlast : replaced.2 = if kids' = [] then e.lastkey else none) :
    Removed t before after st st' key inner kids e.node kids' replaced := by
  have hsound := hkept.sound hinner.wf hinner.filled fun x hx =>
    haround.eq ▸ mem_append_left _ hx
  have hsound' := hkept'.sound hinner.wf hinner.filled fun x hx =>
    haround.eq ▸ mem_append_right kids (mem_cons_of_mem c hx)
  have hwf := h.wf hne
  have htells := h.lastkey hne
  have hc := hinner.filled c (haround.eq ▸ mem_append_right kids mem_cons_self)
  refine ⟨⟨hkids, ⟨?_, ?_, hkids ▸ hsep, fun x hx => ?_⟩, fun x hx => ?_, fun x hx => ?_,
    hc.1.trans h.slotuse_le⟩, ?_, ?_, hlength, ?_⟩
  · rw [hkids]
    exact append_ne_nil_of_right_ne_nil _ (cons_ne_nil _ _)
  · rw [hlength]
    exact hinner.wf.2.1
  · rw [hkids] at hx
    rcases mem_append.1 hx with hx | hx
    · exact (hsound x hx).1
    rcases mem_cons.1 hx with rfl | hx
    · exact hwf
    · exact (hsound' x hx).1
  · rw [hkids] at hx
    rcases mem_append.1 hx with hx | hx
    · exact (hsound x hx).2.2
    rcases mem_cons.1 hx with rfl | hx
    · exact h.filled
    · exact (hsound' x hx).2.2
  · rcases mem_append.1 hx with hx | hx
    · exact (hsound x hx).2.1
    · exact (hsound' x hx).2.1
  · rw [leafIds_eq_around haround.eq, leafIds_eq_around hkids]
    exact h.swapped.widen
  · rw [haround.eraseFirst_eq hkey, contents_eq_around hkids, hkept.contents_eq,
      hkept'.contents_eq, h.contents_eq]
  · rcases maxKey_replaced hinner.wf haround.eq hkids hwf hkept' with
      ⟨hnil, hold, hnew⟩ | ⟨hcons, hsame⟩
    · rw [hlast, if_pos hnil, hold, hnew]
      exact htells
    · rw [hlast, if_neg hcons, hsame]
      exact ⟨fun k hk => (by cases hk), fun _ => rfl⟩

theorem Erased.removed {e : Erasure K level}
    (h : Erased t (before ++ kids.flatMap (leafIds level)) (kids'.flatMap (leafIds level) ++ after)
      st st' key c e)
    (hinner : Erasable t before after st (level + 1) inner)
    (haround : Around st level key inner.childid kids c kids')
    (hkey : HasKey KeyValue.key key (contents st level c)) :
    Removed t before after st st' key inner kids e.node kids'
      (inner.replace kids.length e) := by
  have hc : c ∈ inner.childid := haround.eq ▸ mem_append_right kids mem_cons_self
  have hmin := t.minslots_bounds level
  have hfilled := (hinner.filled c hc).1
  have hne := h.contents_ne_nil ((hinner.wf.2.2.2 c hc).two_le_length (.inl (by omega)))
  have hnodup := (nodup_append.1 (nodup_append.1 hinner.chain.nodup).1).2.1
  rw [leafIds_eq_around haround.eq] at hnodup
  obtain ⟨hkept, hkept'⟩ := h.swapped.kept_around hnodup
  obtain ⟨keys, keys', hsplit, hlength, hkeys, hrest⟩ : ∃ keys keys',
      inner.slotkey = keys ++ keys' ∧ keys.length = kids.length ∧
        keys.map some = kids.map (maxKey st' level) ∧ Separated st level keys' (c :: kids') := by
    obtain ⟨htake, hkeys, hrest⟩ := haround.separated hinner.wf
    refine ⟨_, _, (take_append_drop kids.length inner.slotkey).symm, htake, ?_, hrest⟩
    rw [hkeys]
    exact map_congr_left fun x hx => (hkept.maxKey_eq hx).symm
  have hset : inner.childid.set kids.length e.node = kids ++ e.node :: kids' := by
    simp [haround.eq]
  have hchildren := hinner.wf.2.2.1.length_eq hinner.wf.1
  rw [haround.eq, length_append, length_cons] at hchildren
  obtain ⟨hsome, hnone⟩ := h.lastkey hne
  unfold Inner.replace
  cases hlast : e.lastkey with
  | none =>
      -- The child has its old largest key, and so have all separators.
      refine h.removed_of hinner haround hkey hset rfl hkept hkept' hne ?_ ?_
      · change Separated st' level inner.slotkey _
        rw [hsplit, separated_append hlength]
        exact ⟨hkeys, hrest.replace_head hkept' fun _ => hnone hlast⟩
      · rw [hlast, ite_self]
  | some k =>
      have hk := hsome k hlast
      by_cases hslot : kids.length < inner.slotkey.length
      · -- The parent has a key for the child, which is not its last one.
        simp only [if_pos hslot]
        have hcons : kids' ≠ [] := by
          rintro rfl
          rw [length_nil] at hchildren
          omega
        refine h.removed_of hinner haround hkey hset length_set hkept hkept' hne ?_
          (if_neg hcons).symm
        obtain ⟨d, kids', rfl⟩ := exists_cons_of_ne_nil hcons
        obtain ⟨k₀, rest, rfl, -, hrest'⟩ := separated_cons hrest
        have hset' : inner.slotkey.set kids.length k = keys ++ k :: rest := by
          rw [hsplit, ← hlength]
          simp
        change Separated st' level (inner.slotkey.set kids.length k) _
        rw [hset', separated_append hlength]
        refine ⟨hkeys, ?_⟩
        rw [Separated, dropLast_cons_cons, map_cons, map_cons, hk,
          show rest.map some = _ from hkept'.separated hrest']
      · -- The last child has no key in its parent: the new one goes up.
        simp only [if_neg hslot]
        have hnil : kids' = [] := length_eq_zero_iff.1 (by omega)
        subst hnil
        refine h.removed_of hinner haround hkey hset rfl hkept hkept' hne ?_
          (hlast.symm.trans (if_pos rfl).symm)
        change Separated st' level inner.slotkey _
        rw [hsplit, separated_append hlength]
        exact ⟨hkeys, hrest.replace_head hkept' fun hne => absurd rfl hne⟩

end Parent

/-! ## The descent -/

section Descent

variable {st : Store K} {key : K}

theorem Erasable.child {t : Traits} {level : Nat} {before after : List LeafId}
    {inner : Inner K (Node K level)} {kids kids' : List (Node K level)} {c : Node K level}
    (h : Erasable t before after st (level + 1) inner) (heq : inner.childid = kids ++ c :: kids') :
    Erasable t (before ++ kids.flatMap (leafIds level)) (kids'.flatMap (leafIds level) ++ after)
        st level c ∧ 2 ≤ slotuse st level c := by
  have hc : c ∈ inner.childid := heq ▸ mem_append_right kids mem_cons_self
  have hmin := t.minslots_bounds level
  obtain ⟨hle, hfilled⟩ := h.filled c hc
  have hchain := h.chain
  rw [leafIds_eq_around heq] at hchain
  simp only [append_assoc] at hchain
  refine ⟨⟨h.wf.2.2.2 c hc, ?_, hfilled, by omega, ?_⟩, by omega⟩
  · exact h.sorted.sublist ((leafIds_sublist hc).flatMap _)
  · simp only [append_assoc]
    exact hchain

theorem erase_one_descend_found (p : Params K) : ∀ {level : Nat} {n : Node K level}
    {around : Neighbours K level} {before after : List LeafId},
      Erasable p.traits before after st level n → Placed p.traits st around →
        (around.parent ≠ none → 2 ≤ slotuse st level n) →
          HasKey KeyValue.key key (contents st level n) →
            ∃ e st', erase_one_descend p key level n around st = some (some (e, st')) ∧
              Erased p.traits before after st st' key n e ∧
                around.underflow p.traits st' e.node = some e.fix
  | 0, _, _, _, _, h, hplaced, hparent, hkey => erase_leaf_found p h hplaced hparent hkey
  | level + 1, inner, around, before, after, h, hplaced, _, hkey => by
      obtain ⟨kids, c, kids', haround, hslot⟩ := exists_child p h.wf h.sorted key none none
      have hget : inner.childid[kids.length]? = some c := by simp [haround.eq]
      have hkey' := (haround.hasKey_iff h.sorted).1 hkey
      obtain ⟨below, hbelow, hplaced', hbetween⟩ :=
        hplaced.child h.wf h.filled h.pos haround.eq
      obtain ⟨hchild, htwo⟩ := h.child haround.eq
      obtain ⟨e, st', herase, herased, hfix⟩ :=
        erase_one_descend_found p hchild hplaced' (fun _ => htwo) hkey'
      -- The parent without the key, and then with the underflow of the child resolved.
      have hremoved := herased.removed h haround hkey'
      generalize hreplace : inner.replace kids.length e = replaced at hremoved
      obtain ⟨inner₁, lastkey⟩ := replaced
      obtain ⟨inner', st'', hchild', hrepaired⟩ := hremoved.lacking.fix_child_spec
        hremoved.swapped.chain hbetween.left hbetween.right (hbetween.resolves hfix)
      obtain ⟨fix, hfix'⟩ := hplaced.underflow_isSome st'' inner'
      have hmax : maxKey st'' (level + 1) inner' = maxKey st' (level + 1) inner₁ := by
        rw [maxKey, hrepaired.contents, maxKey]
      refine ⟨⟨inner', lastkey, fix⟩, st'', ?_, ⟨hremoved.swapped.trans hrepaired.swapped,
        hrepaired.contents.trans hremoved.contents_eq, fun _ => hrepaired.wf, hrepaired.filled,
        ?_, fun _ => hmax ▸ hremoved.lastkey⟩, hfix'⟩
      · simp only [erase_one_descend, hslot, hget, hbelow, herase, hreplace, hchild', hfix',
          Option.bind_eq_bind, Option.bind_some]
        rfl
      · exact hremoved.length_eq.ge.trans hrepaired.length_le

theorem erase_one_descend_absent (p : Params K) : ∀ {level : Nat} {n : Node K level}
    {around : Neighbours K level} {before after : List LeafId},
      Erasable p.traits before after st level n → Placed p.traits st around →
        ¬ HasKey KeyValue.key key (contents st level n) →
          erase_one_descend p key level n around st = some none
  | 0, id, _, _, _, _, _, hkey => by
      rw [contents_leaf] at hkey
      rw [erase_one_descend, erase_slot_absent p hkey]
  | level + 1, inner, around, before, after, h, hplaced, hkey => by
      obtain ⟨kids, c, kids', haround, hslot⟩ := exists_child p h.wf h.sorted key none none
      have hget : inner.childid[kids.length]? = some c := by simp [haround.eq]
      obtain ⟨below, hbelow, hplaced', -⟩ := hplaced.child h.wf h.filled h.pos haround.eq
      have herase := erase_one_descend_absent p (h.child haround.eq).1 hplaced'
        ((haround.hasKey_iff h.sorted).not.1 hkey)
      simp only [erase_one_descend, hslot, hget, hbelow, herase, Option.bind_eq_bind,
        Option.bind_some]
      rfl

end Descent

end MABTree
end TLI
