import TLI.Competitors.MABTree.Rebalance

/-!
# Underflow — how a parent resolves the underflow of a child

`underflow` names a sibling only if it can give or take what is missing.  After the merge or the
shift the parent holds what it held before, and no child of it underflows any more.
-/

namespace TLI
namespace MABTree

open List LowerBound

variable {K : Type}

/-! ## The case that is chosen -/

/-- A node with a parent gives a reason for what is to be done. -/
inductive Resolves (min slotuse : Nat) (left right leftparent rightparent : Option Nat)
    (parent : Nat) : Fix → Prop
  | ok (h : min ≤ slotuse) : Resolves min slotuse left right leftparent rightparent parent .ok
  | mergeLeft (hfew : slotuse < min) (hparent : leftparent = some parent)
      (hleft : ∀ l, l ∈ left → l ≤ min) :
      Resolves min slotuse left right leftparent rightparent parent .mergeLeft
  | mergeRight (hfew : slotuse < min) (hparent : rightparent = some parent)
      (hright : ∀ r, r ∈ right → r ≤ min) :
      Resolves min slotuse left right leftparent rightparent parent .mergeRight
  | shiftLeft (hfew : slotuse < min) (hparent : rightparent = some parent)
      (hright : ∀ r, r ∈ right → min < r) :
      Resolves min slotuse left right leftparent rightparent parent .shiftLeft
  | shiftRight (hfew : slotuse < min) (hparent : leftparent = some parent)
      (hleft : ∀ l, l ∈ left → min < l) :
      Resolves min slotuse left right leftparent rightparent parent .shiftRight

section Choice

variable {min slotuse : Nat} {left right leftparent rightparent : Option Nat}

/-- No neighbour is missing where one is asked for its slots. -/
theorem underflow_isSome {parent : Option Nat}
    (h : leftparent = rightparent → (left = none ↔ right = none)) :
    ∃ fix, underflow min slotuse left right leftparent rightparent parent = some fix := by
  unfold underflow
  split
  · exact ⟨_, rfl⟩
  split
  · exact ⟨_, rfl⟩
  split
  · exact ⟨_, rfl⟩
  split
  · exact ⟨_, rfl⟩
  split
  · exact ⟨_, rfl⟩
  split
  · next hnone _ _ _ hparent =>
      cases left with
      | none => exact absurd ⟨rfl, (h hparent).1 rfl⟩ hnone
      | some l =>
          cases right with
          | none => exact absurd ⟨(h hparent).2 rfl, rfl⟩ hnone
          | some r => exact ⟨_, rfl⟩
  · exact ⟨_, rfl⟩

/-- Behind the first cases, no neighbour is so small that it would underflow by a shift. -/
theorem many_of_not_few (hfew : ¬ ((∀ l, l ∈ left → l ≤ min) ∧ ∀ r, r ∈ right → r ≤ min))
    (hleft : ¬ ((∃ l, l ∈ left ∧ l ≤ min) ∧ ∃ r, r ∈ right ∧ min < r))
    (hright : ¬ ((∃ l, l ∈ left ∧ min < l) ∧ ∃ r, r ∈ right ∧ r ≤ min)) :
    (∀ l, l ∈ left → min < l) ∧ ∀ r, r ∈ right → min < r := by
  constructor
  · intro l hl
    refine Nat.lt_of_not_le fun hle => hfew ⟨fun l' hl' => ?_, fun r hr => ?_⟩
    · exact Option.mem_unique hl hl' ▸ hle
    · exact Nat.le_of_not_lt fun hlt => hleft ⟨⟨l, hl, hle⟩, r, hr, hlt⟩
  · intro r hr
    refine Nat.lt_of_not_le fun hle => hfew ⟨fun l hl => ?_, fun r' hr' => ?_⟩
    · exact Nat.le_of_not_lt fun hlt => hright ⟨⟨l, hl, hlt⟩, r, hr, hle⟩
    · exact Option.mem_unique hr hr' ▸ hle

theorem resolves_underflow {parent : Nat} {fix : Fix}
    (hone : leftparent = some parent ∨ rightparent = some parent)
    (hleft : leftparent = some parent → left ≠ none)
    (hright : rightparent = some parent → right ≠ none)
    (h : underflow min slotuse left right leftparent rightparent (some parent) = some fix) :
    Resolves min slotuse left right leftparent rightparent parent fix := by
  unfold underflow at h
  split at h
  · next hok =>
      cases h
      exact .ok (hok.resolve_right fun hroot => Option.some_ne_none parent hroot.1)
  next hunder =>
  have hlt : slotuse < min := Nat.lt_of_not_le fun hle => hunder (.inl hle)
  split at h
  · next hnone =>
      rcases hone with hparent | hparent
      · exact absurd hnone.1 (hleft hparent)
      · exact absurd hnone.2 (hright hparent)
  split at h
  · next hfew =>
      by_cases hparent : leftparent = some parent
      · rw [if_pos hparent] at h
        cases h
        exact .mergeLeft hlt hparent hfew.1
      · rw [if_neg hparent] at h
        cases h
        exact .mergeRight hlt (hone.resolve_left hparent) hfew.2
  next hfew =>
  split at h
  · next hcase =>
      obtain ⟨⟨l, hl, hle⟩, r, hr, hgt⟩ := hcase
      by_cases hparent : rightparent = some parent
      · rw [if_pos hparent] at h
        cases h
        exact .shiftLeft hlt hparent fun r' hr' => Option.mem_unique hr hr' ▸ hgt
      · rw [if_neg hparent] at h
        cases h
        exact .mergeLeft hlt (hone.resolve_right hparent) fun l' hl' =>
          Option.mem_unique hl hl' ▸ hle
  next hnotleft =>
  split at h
  · next hcase =>
      obtain ⟨⟨l, hl, hgt⟩, r, hr, hle⟩ := hcase
      by_cases hparent : leftparent = some parent
      · rw [if_pos hparent] at h
        cases h
        exact .shiftRight hlt hparent fun l' hl' => Option.mem_unique hl hl' ▸ hgt
      · rw [if_neg hparent] at h
        cases h
        exact .mergeRight hlt (hone.resolve_left hparent) fun r' hr' =>
          Option.mem_unique hr hr' ▸ hle
  next hnotright =>
  obtain ⟨hmany_left, hmany_right⟩ := many_of_not_few hfew hnotleft hnotright
  split at h
  · next hparents =>
      have hparent : leftparent = some parent := hone.elim id fun hp => hparents.trans hp
      obtain ⟨l, rfl⟩ := Option.ne_none_iff_exists'.1 (hleft hparent)
      obtain ⟨r, rfl⟩ := Option.ne_none_iff_exists'.1 (hright (hparents ▸ hparent))
      simp only [Option.bind_eq_bind, Option.bind_some] at h
      by_cases hle : l ≤ r
      · rw [if_pos hle] at h
        cases h
        exact .shiftLeft hlt (hparents ▸ hparent) hmany_right
      · rw [if_neg hle] at h
        cases h
        exact .shiftRight hlt hparent hmany_left
  · by_cases hparent : leftparent = some parent
    · rw [if_pos hparent] at h
      cases h
      exact .shiftRight hlt hparent hmany_left
    · rw [if_neg hparent] at h
      cases h
      exact .shiftLeft hlt (hone.resolve_left hparent) hmany_right

end Choice

/-! ## A part of the chain that is replaced -/

/-- Leaves of the chain, other ones in their place, and what stands around them. -/
structure Swapped (before after : List LeafId) (st st' : Store K) (ids ids' : List LeafId) :
    Prop where
  kept : ∀ x, x ∉ ids → (st'.leaf x).slots = (st.leaf x).slots
  sublist : ids' <+ ids
  chain : Chain st' (before ++ ids' ++ after)

namespace Swapped

variable {before after front back ids ids' ids'' : List LeafId} {st st' st'' : Store K}

theorem widen (h : Swapped (before ++ front) (back ++ after) st st' ids ids') :
    Swapped before after st st' (front ++ (ids ++ back)) (front ++ (ids' ++ back)) where
  kept x hx := h.kept x fun hmem => hx (mem_append_right _ (mem_append_left _ hmem))
  sublist := (h.sublist.append_right back).append_left front
  chain := by
    have hchain := h.chain
    simp only [append_assoc] at hchain ⊢
    exact hchain

theorem trans (h : Swapped before after st st' ids ids')
    (h' : Swapped before after st' st'' ids' ids'') : Swapped before after st st'' ids ids'' where
  kept x hx := (h'.kept x fun hmem => hx (h.sublist.subset hmem)).trans (h.kept x hx)
  sublist := h'.sublist.trans h.sublist
  chain := h'.chain

theorem kept_around {level : Nat} {kids kids' : List (Node K level)}
    (h : Swapped before after st st' ids ids')
    (hnodup : (kids.flatMap (leafIds level) ++
      (ids ++ kids'.flatMap (leafIds level))).Nodup) :
    Kept st st' level kids ∧ Kept st st' level kids' := by
  obtain ⟨-, hnodup', hapart⟩ := nodup_append.1 hnodup
  constructor
  · exact fun x hx => h.kept x fun hmem => hapart x hx x (mem_append_left _ hmem) rfl
  · exact fun x hx => h.kept x fun hmem => (nodup_append.1 hnodup').2.2 x hmem x hx rfl

end Swapped

/-! ## Two children of one parent -/

theorem Separated.maxKey_getElem {st : Store K} {level : Nat} {keys : List K}
    {kids : List (Node K level)} (h : Separated st level keys kids) {i : Nat} {k : K}
    {c : Node K level} (hk : keys[i]? = some k) (hc : kids[i]? = some c) :
    maxKey st level c = some k := by
  have hget : (keys.map some)[i]? = (kids.dropLast.map (maxKey st level))[i]? :=
    congrArg (fun xs : List (Option K) => xs[i]?) h
  rw [getElem?_map, hk, getElem?_map, getElem?_dropLast, Option.map_some] at hget
  split at hget
  · rw [hc, Option.map_some, Option.some.injEq] at hget
    exact hget.symm
  · cases hget

section Window

variable {t : Traits} {level : Nat} {before after : List LeafId}
  {inner : Inner K (Node K level)} {keys keys' : List K} {kids kids' : List (Node K level)}
  {pair pair' : Pair K level}

/-- Two children next to each other, in their parent. -/
structure Window (inner : Inner K (Node K level)) (keys keys' : List K)
    (kids kids' : List (Node K level)) (pair : Pair K level) : Prop where
  slotkey_eq : inner.slotkey = keys ++ pair.key :: keys'
  childid_eq : inner.childid = kids ++ pair.left :: pair.right :: kids'
  length_eq : keys.length = kids.length

/-- The parent after a change of what its children hold. -/
structure Repaired (t : Traits) (before after : List LeafId) (st st' : Store K)
    (inner inner' : Inner K (Node K level)) : Prop where
  swapped : Swapped before after st st' (leafIds (level + 1) inner) (leafIds (level + 1) inner')
  contents : contents st' (level + 1) inner' = contents st (level + 1) inner
  wf : WF t st' (level + 1) inner'
  filled : Filled t st' (level + 1) inner'
  length_le : inner.slotkey.length ≤ inner'.slotkey.length + 1

namespace Window

theorem at_pair (h : Window inner keys keys' kids kids' pair)
    {f : Pair K level → Option (Pair K level)} (hf : f pair = some pair') :
    at_pair f inner kids.length pair.st =
      some (⟨inner.midp_err, keys ++ pair'.key :: keys',
        kids ++ pair'.left :: pair'.right :: kids'⟩, pair'.st) := by
  have hkey : inner.slotkey[kids.length]? = some pair.key := by
    rw [h.slotkey_eq, ← h.length_eq]
    simp
  have hleft : inner.childid[kids.length]? = some pair.left := by simp [h.childid_eq]
  have hright : inner.childid[kids.length + 1]? = some pair.right := by simp [h.childid_eq]
  have hset : inner.slotkey.set kids.length pair'.key = keys ++ pair'.key :: keys' := by
    rw [h.slotkey_eq, ← h.length_eq]
    simp
  have hset' : (inner.childid.set kids.length pair'.left).set (kids.length + 1) pair'.right =
      kids ++ pair'.left :: pair'.right :: kids' := by simp [h.childid_eq]
  simp only [MABTree.at_pair, hkey, hleft, hright, Option.bind_eq_bind, Option.bind_some]
  rw [show f ⟨pair.left, pair.key, pair.right, pair.st⟩ = some pair' from hf]
  simp only [Option.bind_some, hset, hset']
  rfl

theorem leafIds_eq (h : Window inner keys keys' kids kids' pair) : leafIds (level + 1) inner =
    kids.flatMap (leafIds level) ++ ((leafIds level pair.left ++ leafIds level pair.right) ++
      kids'.flatMap (leafIds level)) := by
  rw [leafIds, h.childid_eq, flatMap_append, flatMap_cons, flatMap_cons, append_assoc]

theorem separated (h : Window inner keys keys' kids kids' pair)
    (hwf : WF t pair.st (level + 1) inner) :
    keys.map some = kids.map (maxKey pair.st level) ∧
      maxKey pair.st level pair.left = some pair.key ∧
        Separated pair.st level keys' (pair.right :: kids') := by
  have hsep := hwf.2.2.1
  rw [h.slotkey_eq, h.childid_eq, separated_append h.length_eq] at hsep
  obtain ⟨k, rest, heq, hmax, hrest⟩ := separated_cons hsep.2
  cases heq
  exact ⟨hsep.1, hmax, hrest⟩

theorem siblings (h : Window inner keys keys' kids kids' pair)
    (hwf : WF t pair.st (level + 1) inner)
    (hfilled : ∀ c, c ∈ inner.childid → Filled t pair.st level c)
    (hchain : Chain pair.st (before ++ leafIds (level + 1) inner ++ after)) :
    Siblings t (before ++ kids.flatMap (leafIds level)) (kids'.flatMap (leafIds level) ++ after)
      pair := by
  have hleft : pair.left ∈ inner.childid := h.childid_eq ▸ mem_append_right kids mem_cons_self
  have hright : pair.right ∈ inner.childid :=
    h.childid_eq ▸ mem_append_right kids (mem_cons_of_mem _ mem_cons_self)
  rw [h.leafIds_eq] at hchain
  simp only [← append_assoc] at hchain
  refine ⟨hwf.2.2.2 _ hleft, hwf.2.2.2 _ hright, hfilled _ hleft, hfilled _ hright,
    (h.separated hwf).2.1, ?_⟩
  simp only [← append_assoc]
  exact hchain

/-- What a merge or a shift leaves of the siblings. -/
structure Others (t : Traits) (st st' : Store K) (level : Nat) (kids : List (Node K level)) :
    Prop where
  kept : Kept st st' level kids
  sound : ∀ c, c ∈ kids → WF t st' level c ∧ t.minslots level ≤ slotuse st' level c ∧
    Filled t st' level c

theorem others (h : Window inner keys keys' kids kids' pair)
    (hwf : WF t pair.st (level + 1) inner)
    (houter : ∀ c, c ∈ kids ++ kids' →
      t.minslots level ≤ slotuse pair.st level c ∧ Filled t pair.st level c)
    (hchain : Chain pair.st (before ++ leafIds (level + 1) inner ++ after)) {ids' : List LeafId}
    (hswap : Swapped (before ++ kids.flatMap (leafIds level))
      (kids'.flatMap (leafIds level) ++ after) pair.st pair'.st
        (leafIds level pair.left ++ leafIds level pair.right) ids') :
    Others t pair.st pair'.st level kids ∧ Others t pair.st pair'.st level kids' := by
  have hnodup := (nodup_append.1 (nodup_append.1 hchain.nodup).1).2.1
  rw [h.leafIds_eq] at hnodup
  obtain ⟨hkept, hkept'⟩ := hswap.kept_around hnodup
  have hsound : ∀ part, Kept pair.st pair'.st level part → (∀ c, c ∈ part → c ∈ kids ++ kids') →
      (∀ c, c ∈ part → c ∈ inner.childid) → Others t pair.st pair'.st level part :=
    fun part hpart hsub hsub' => ⟨hpart, fun c hc =>
      ⟨(hwf.2.2.2 c (hsub' c hc)).congr (hpart.child hc),
        (slotuse_congr (hpart.child hc)).symm ▸ (houter c (hsub c hc)).1,
        (houter c (hsub c hc)).2.congr (hpart.child hc)⟩⟩
  refine ⟨hsound kids hkept (fun c hc => mem_append_left _ hc) fun c hc => ?_,
    hsound kids' hkept' (fun c hc => mem_append_right _ hc) fun c hc => ?_⟩
  · exact h.childid_eq ▸ mem_append_left _ hc
  · exact h.childid_eq ▸ mem_append_right _ (mem_cons_of_mem _ (mem_cons_of_mem _ hc))

theorem merged (h : Window inner keys keys' kids kids' pair)
    (hwf : WF t pair.st (level + 1) inner)
    (houter : ∀ c, c ∈ kids ++ kids' →
      t.minslots level ≤ slotuse pair.st level c ∧ Filled t pair.st level c)
    (hchain : Chain pair.st (before ++ leafIds (level + 1) inner ++ after))
    (hmerged : Merged t (before ++ kids.flatMap (leafIds level))
      (kids'.flatMap (leafIds level) ++ after) pair pair') :
    Repaired t before after pair.st pair'.st inner
      ⟨inner.midp_err, keys ++ keys', kids ++ pair'.left :: kids'⟩ := by
  have hswap : Swapped (before ++ kids.flatMap (leafIds level))
      (kids'.flatMap (leafIds level) ++ after) pair.st pair'.st
        (leafIds level pair.left ++ leafIds level pair.right) (leafIds level pair'.left) :=
    ⟨hmerged.kept, hmerged.ids, hmerged.chain⟩
  obtain ⟨hkids, hkids'⟩ := h.others hwf houter hchain hswap
  obtain ⟨hkeys, -, hsep⟩ := h.separated hwf
  have hright : WF t pair.st level pair.right :=
    hwf.2.2.2 _ (h.childid_eq ▸ mem_append_right kids (mem_cons_of_mem _ mem_cons_self))
  have hlength := congrArg length h.slotkey_eq
  rw [length_append, length_cons] at hlength
  have hmax : maxKey pair'.st level pair'.left = maxKey pair.st level pair.right := by
    rw [maxKey, hmerged.contents, getLast?_append_of_ne_nil _ hright.contents_ne_nil, maxKey]
  refine ⟨?_, ?_, ⟨?_, ?_, ?_, fun c hc => ?_⟩, fun c hc => ?_, ?_⟩
  · have hwide := hswap.widen
    rw [← h.leafIds_eq] at hwide
    change Swapped before after _ _ _ ((kids ++ pair'.left :: kids').flatMap (leafIds level))
    rw [flatMap_append, flatMap_cons]
    exact hwide
  · rw [contents_inner, contents_inner, h.childid_eq, flatMap_append, flatMap_append, flatMap_cons,
      flatMap_cons, flatMap_cons, hkids.kept.contents_eq, hkids'.kept.contents_eq,
      hmerged.contents, append_assoc]
  · exact append_ne_nil_of_right_ne_nil _ (cons_ne_nil _ _)
  · have hroom := hwf.2.1
    rw [length_append]
    omega
  · rw [separated_append h.length_eq, hkeys]
    exact ⟨map_congr_left fun c hc => (hkids.kept.maxKey_eq hc).symm,
      hsep.replace_head hkids'.kept fun _ => hmax⟩
  · rcases mem_append.1 hc with hc | hc
    · exact (hkids.sound c hc).1
    · rcases mem_cons.1 hc with rfl | hc
      · exact hmerged.wf
      · exact (hkids'.sound c hc).1
  · rcases mem_append.1 hc with hc | hc
    · exact (hkids.sound c hc).2
    · rcases mem_cons.1 hc with rfl | hc
      · exact ⟨hmerged.min_le, hmerged.filled⟩
      · exact (hkids'.sound c hc).2
  · rw [length_append]
    omega

theorem divided (h : Window inner keys keys' kids kids' pair)
    (hwf : WF t pair.st (level + 1) inner)
    (houter : ∀ c, c ∈ kids ++ kids' →
      t.minslots level ≤ slotuse pair.st level c ∧ Filled t pair.st level c)
    (hchain : Chain pair.st (before ++ leafIds (level + 1) inner ++ after))
    (hdivided : Divided t (before ++ kids.flatMap (leafIds level))
      (kids'.flatMap (leafIds level) ++ after) pair pair') :
    Repaired t before after pair.st pair'.st inner
      ⟨inner.midp_err, keys ++ pair'.key :: keys',
        kids ++ pair'.left :: pair'.right :: kids'⟩ := by
  obtain ⟨hwf_left, hwf_right, hfilled_left, hfilled_right, hkey, hchain'⟩ := hdivided.siblings
  have hswap : Swapped (before ++ kids.flatMap (leafIds level))
      (kids'.flatMap (leafIds level) ++ after) pair.st pair'.st
        (leafIds level pair.left ++ leafIds level pair.right)
          (leafIds level pair'.left ++ leafIds level pair'.right) :=
    ⟨hdivided.kept, hdivided.ids ▸ Sublist.refl _, hchain'⟩
  obtain ⟨hkids, hkids'⟩ := h.others hwf houter hchain hswap
  obtain ⟨hkeys, -, hsep⟩ := h.separated hwf
  have hright : WF t pair.st level pair.right :=
    hwf.2.2.2 _ (h.childid_eq ▸ mem_append_right kids (mem_cons_of_mem _ mem_cons_self))
  have hlength := congrArg length h.slotkey_eq
  rw [length_append, length_cons] at hlength
  have hmax : maxKey pair'.st level pair'.right = maxKey pair.st level pair.right := by
    have hlast := congrArg getLast? hdivided.contents
    rw [getLast?_append_of_ne_nil _ hwf_right.contents_ne_nil,
      getLast?_append_of_ne_nil _ hright.contents_ne_nil] at hlast
    rw [maxKey, hlast, maxKey]
  refine ⟨?_, ?_, ⟨?_, ?_, ?_, fun c hc => ?_⟩, fun c hc => ?_, ?_⟩
  · have hwide := hswap.widen
    rw [← h.leafIds_eq, append_assoc] at hwide
    change Swapped before after _ _ _
      ((kids ++ pair'.left :: pair'.right :: kids').flatMap (leafIds level))
    rw [flatMap_append, flatMap_cons, flatMap_cons]
    exact hwide
  · rw [contents_inner, contents_inner, h.childid_eq, flatMap_append, flatMap_append, flatMap_cons,
      flatMap_cons, flatMap_cons, flatMap_cons, hkids.kept.contents_eq, hkids'.kept.contents_eq,
      ← append_assoc (contents _ _ _), hdivided.contents, append_assoc]
  · exact append_ne_nil_of_right_ne_nil _ (cons_ne_nil _ _)
  · have hroom := hwf.2.1
    rw [length_append, length_cons]
    omega
  · rw [separated_append h.length_eq, hkeys]
    refine ⟨map_congr_left fun c hc => (hkids.kept.maxKey_eq hc).symm, ?_⟩
    have hrest := hsep.replace_head hkids'.kept fun _ => hmax
    rw [Separated, dropLast_cons_cons, map_cons, map_cons, hkey,
      show keys'.map some = _ from hrest]
  · rcases mem_append.1 hc with hc | hc
    · exact (hkids.sound c hc).1
    rcases mem_cons.1 hc with rfl | hc
    · exact hwf_left
    rcases mem_cons.1 hc with rfl | hc
    · exact hwf_right
    · exact (hkids'.sound c hc).1
  · rcases mem_append.1 hc with hc | hc
    · exact (hkids.sound c hc).2
    rcases mem_cons.1 hc with rfl | hc
    · exact ⟨hdivided.min_le_left, hfilled_left⟩
    rcases mem_cons.1 hc with rfl | hc
    · exact ⟨hdivided.min_le_right, hfilled_right⟩
    · exact (hkids'.sound c hc).2
  · rw [length_append, length_cons]
    omega

/-- The empty one of the two nodes is removed, whichever the slot is of. -/
theorem fixmerge (h : Window inner keys keys' kids kids' pair)
    (hleft : slotuse pair.st level pair.left ≠ 0) (hright : slotuse pair.st level pair.right = 0)
    {slot : Nat} (hslot : slot = kids.length ∨ slot = kids.length + 1) :
    fixmerge pair.st inner slot =
      fix_split_key pair.st ⟨inner.midp_err, keys ++ keys', kids ++ pair.left :: kids'⟩
        kids.length := by
  have hget : inner.childid[kids.length]? = some pair.left := by simp [h.childid_eq]
  have hget' : inner.childid[kids.length + 1]? = some pair.right := by simp [h.childid_eq]
  have hkeys : inner.slotkey.eraseIdx kids.length = keys ++ keys' := by
    rw [h.slotkey_eq, ← h.length_eq, eraseIdx_append_of_length_le le_rfl, Nat.sub_self,
      eraseIdx_zero, tail_cons]
  have hkids : inner.childid.eraseIdx (kids.length + 1) = kids ++ pair.left :: kids' := by
    rw [h.childid_eq, eraseIdx_append_of_length_le (Nat.le_add_right _ 1),
      Nat.add_sub_cancel_left]
    rfl
  have hright' : slotuse pair.st level pair.right = 0 ∧ 0 < kids.length + 1 :=
    ⟨hright, Nat.succ_pos _⟩
  rcases hslot with rfl | rfl
  · simp only [MABTree.fixmerge, hget, hget', Option.bind_eq_bind, Option.bind_some, if_neg hleft,
      if_pos hright', Nat.add_sub_cancel, hkeys, hkids]
  · simp only [MABTree.fixmerge, hget', Option.bind_eq_bind, Option.bind_some, if_pos hright,
      if_pos hright', Nat.add_sub_cancel, hkeys, hkids]

end Window

/-- The split key is right already. -/
theorem fix_split_key_eq {st : Store K} : ∀ {level : Nat} {inner : Inner K (Node K level)},
    WF t st (level + 1) inner → ∀ {slot : Nat}, slot < inner.childid.length →
      fix_split_key st inner slot = some inner
  | 0, inner, ⟨_, _, hsep, hkids⟩, slot, hslot => by
      have hget := getElem?_eq_getElem hslot
      have hleaf := hkids _ (mem_of_getElem? hget)
      obtain ⟨last, hlast⟩ := Option.isSome_iff_exists.1 (getLast?_isSome.2 hleaf.1)
      have hset : inner.slotkey.set slot last.key = inner.slotkey := by
        by_cases hkey : slot < inner.slotkey.length
        · have hmax := hsep.maxKey_getElem (getElem?_eq_getElem hkey) hget
          rw [maxKey, contents_leaf, hlast, Option.map_some, Option.some.injEq] at hmax
          rw [hmax, set_getElem_self]
        · exact set_eq_of_length_le (Nat.le_of_not_lt hkey)
      simp only [fix_split_key, hget, hlast, Option.bind_eq_bind, Option.bind_some, hset]
      rfl
  | _ + 1, _, _, _, _ => rfl

/-- Two neighbouring children and the key between them. -/
theorem exists_window {st : Store K} (hwf : WF t st (level + 1) inner)
    {left right : Node K level} (heq : inner.childid = kids ++ left :: right :: kids') :
    ∃ keys key keys', Window inner keys keys' kids kids' ⟨left, key, right, st⟩ := by
  have hlength := hwf.2.2.1.length_eq hwf.1
  rw [heq, length_append, length_cons, length_cons] at hlength
  have hlt : kids.length < inner.slotkey.length := by omega
  refine ⟨inner.slotkey.take kids.length, inner.slotkey[kids.length],
    inner.slotkey.drop (kids.length + 1), ?_, heq, ?_⟩
  · rw [getElem_cons_drop, take_append_drop]
  · rw [length_take]
    omega

namespace Window

/-- All that is known of a parent before one of two children is filled from the other. -/
structure Ready (t : Traits) (before after : List LeafId) (inner : Inner K (Node K level))
    (keys keys' : List K) (kids kids' : List (Node K level)) (pair : Pair K level) : Prop where
  window : Window inner keys keys' kids kids' pair
  wf : WF t pair.st (level + 1) inner
  filled : ∀ c, c ∈ inner.childid → Filled t pair.st level c
  outer : ∀ c, c ∈ kids ++ kids' → t.minslots level ≤ slotuse pair.st level c
  chain : Chain pair.st (before ++ leafIds (level + 1) inner ++ after)

namespace Ready

theorem siblings (h : Ready t before after inner keys keys' kids kids' pair) :
    Siblings t (before ++ kids.flatMap (leafIds level)) (kids'.flatMap (leafIds level) ++ after)
      pair :=
  h.window.siblings h.wf h.filled h.chain

theorem outer_filled (h : Ready t before after inner keys keys' kids kids' pair) :
    ∀ c, c ∈ kids ++ kids' →
      t.minslots level ≤ slotuse pair.st level c ∧ Filled t pair.st level c := by
  refine fun c hc => ⟨h.outer c hc, h.filled c ?_⟩
  rw [h.window.childid_eq]
  rcases mem_append.1 hc with hc | hc
  · exact mem_append_left _ hc
  · exact mem_append_right _ (mem_cons_of_mem _ (mem_cons_of_mem _ hc))

theorem divide (h : Ready t before after inner keys keys' kids kids' pair)
    {f : Pair K level → Option (Pair K level)}
    (hf : ∃ pair', f pair = some pair' ∧ Divided t (before ++ kids.flatMap (leafIds level))
      (kids'.flatMap (leafIds level) ++ after) pair pair') :
    ∃ inner' st', MABTree.at_pair f inner kids.length pair.st = some (inner', st') ∧
      Repaired t before after pair.st st' inner inner' := by
  obtain ⟨pair', hpair, hdivided⟩ := hf
  exact ⟨_, _, h.window.at_pair hpair, h.window.divided h.wf h.outer_filled h.chain hdivided⟩

theorem merge (h : Ready t before after inner keys keys' kids kids' pair)
    (hsum : slotuse pair.st level pair.left + slotuse pair.st level pair.right + 1 =
      2 * t.minslots level) {slot : Nat} (hslot : slot = kids.length ∨ slot = kids.length + 1) :
    ∃ inner₁ inner' st', MABTree.at_pair (Pair.merge t) inner kids.length pair.st =
        some (inner₁, st') ∧ MABTree.fixmerge st' inner₁ slot = some inner' ∧
      Repaired t before after pair.st st' inner inner' := by
  obtain ⟨pair', hpair, hmerged⟩ := Pair.merge_spec h.siblings hsum
  have hrepaired := h.window.merged h.wf h.outer_filled h.chain hmerged
  have hmin := t.minslots_bounds level
  have hleft : slotuse pair'.st level pair'.left ≠ 0 := by
    have hle := hmerged.min_le
    omega
  have hwindow : Window ⟨inner.midp_err, keys ++ pair'.key :: keys',
      kids ++ pair'.left :: pair'.right :: kids'⟩ keys keys' kids kids' pair' :=
    ⟨rfl, rfl, h.window.length_eq⟩
  refine ⟨_, _, _, h.window.at_pair hpair,
    (hwindow.fixmerge hleft hmerged.right_empty hslot).trans ?_, hrepaired⟩
  refine fix_split_key_eq hrepaired.wf ?_
  simp

end Ready

end Window

/-! ## The repair -/

theorem Repaired.refl {st : Store K} (hwf : WF t st (level + 1) inner)
    (hfilled : Filled t st (level + 1) inner)
    (hchain : Chain st (before ++ leafIds (level + 1) inner ++ after)) :
    Repaired t before after st st inner inner where
  swapped := ⟨fun _ _ => rfl, Sublist.refl _, hchain⟩
  contents := rfl
  wf := hwf
  filled := hfilled
  length_le := Nat.le_succ _

/-- A parent with one child that may lack a slot. -/
structure Lacking (t : Traits) (st : Store K) (inner : Inner K (Node K level))
    (kids : List (Node K level)) (c : Node K level) (kids' : List (Node K level)) : Prop where
  childid_eq : inner.childid = kids ++ c :: kids'
  wf : WF t st (level + 1) inner
  filled : ∀ x, x ∈ inner.childid → Filled t st level x
  others : ∀ x, x ∈ kids ++ kids' → t.minslots level ≤ slotuse st level x
  child : t.minslots level ≤ slotuse st level c + 1

namespace Lacking

variable {st : Store K} {c : Node K level}

/-- With the sibling to the left. -/
theorem left {l : Node K level} (h : Lacking t st inner (kids ++ [l]) c kids')
    (hchain : Chain st (before ++ leafIds (level + 1) inner ++ after)) :
    t.minslots level ≤ slotuse st level l ∧
      ∃ keys key keys', Window.Ready t before after inner keys keys' kids kids'
        ⟨l, key, c, st⟩ := by
  have heq := h.childid_eq
  rw [append_assoc, singleton_append] at heq
  obtain ⟨keys, key, keys', hwindow⟩ := exists_window h.wf heq
  have hothers := h.others
  refine ⟨hothers l (mem_append_left _ (mem_append_right _ mem_cons_self)), keys, key, keys',
    hwindow, h.wf, h.filled, fun x hx => hothers x ?_, hchain⟩
  rcases mem_append.1 hx with hx | hx
  · exact mem_append_left _ (mem_append_left _ hx)
  · exact mem_append_right _ hx

/-- With the sibling to the right. -/
theorem right {r : Node K level} (h : Lacking t st inner kids c (r :: kids'))
    (hchain : Chain st (before ++ leafIds (level + 1) inner ++ after)) :
    t.minslots level ≤ slotuse st level r ∧
      ∃ keys key keys', Window.Ready t before after inner keys keys' kids kids'
        ⟨c, key, r, st⟩ := by
  obtain ⟨keys, key, keys', hwindow⟩ := exists_window h.wf h.childid_eq
  have hothers := h.others
  refine ⟨hothers r (mem_append_right _ mem_cons_self), keys, key, keys',
    hwindow, h.wf, h.filled, fun x hx => hothers x ?_, hchain⟩
  rcases mem_append.1 hx with hx | hx
  · exact mem_append_left _ hx
  · exact mem_append_right _ (mem_cons_of_mem r hx)

theorem filled_of_le (h : Lacking t st inner kids c kids')
    (hle : t.minslots level ≤ slotuse st level c) : Filled t st (level + 1) inner := by
  intro x hx
  refine ⟨?_, h.filled x hx⟩
  rw [h.childid_eq] at hx
  rcases mem_append.1 hx with hx | hx
  · exact h.others x (mem_append_left _ hx)
  rcases mem_cons.1 hx with rfl | hx
  · exact hle
  · exact h.others x (mem_append_right _ hx)

variable {left right : Option (Node K level)} {leftparent rightparent : Option Nat} {fix : Fix}

theorem fix_child_spec (h : Lacking t st inner kids c kids')
    (hchain : Chain st (before ++ leafIds (level + 1) inner ++ after))
    (hleft : leftparent = some (level + 1) → ∃ kids₀ l, kids = kids₀ ++ [l] ∧ left = some l)
    (hright : rightparent = some (level + 1) → ∃ r kids₀, kids' = r :: kids₀ ∧ right = some r)
    (hfix : Resolves (t.minslots level) (slotuse st level c) (left.map (slotuse st level))
      (right.map (slotuse st level)) leftparent rightparent (level + 1) fix) :
    ∃ inner' st', fix_child t inner kids.length st fix = some (inner', st') ∧
      Repaired t before after st st' inner inner' := by
  have hchild := h.child
  cases hfix with
  | ok hle => exact ⟨inner, st, rfl, Repaired.refl h.wf (h.filled_of_le hle) hchain⟩
  | mergeLeft hfew hparent hle =>
      obtain ⟨kids₀, l, rfl, rfl⟩ := hleft hparent
      obtain ⟨hmin, keys, key, keys', hready⟩ := h.left hchain
      have hle' := hle _ rfl
      obtain ⟨inner₁, inner', st', hpair, hmerge, hrepaired⟩ := hready.merge
        (show slotuse st level l + slotuse st level c + 1 = _ by omega) (.inr rfl)
      refine ⟨inner', st', ?_, hrepaired⟩
      rw [length_append, length_singleton]
      simp only [fix_child, Nat.succ_ne_zero, if_false, Nat.add_sub_cancel, hpair, hmerge,
        Option.bind_eq_bind, Option.bind_some]
      rfl
  | mergeRight hfew hparent hle =>
      obtain ⟨r, kids₀, rfl, rfl⟩ := hright hparent
      obtain ⟨hmin, keys, key, keys', hready⟩ := h.right hchain
      have hle' := hle _ rfl
      obtain ⟨inner₁, inner', st', hpair, hmerge, hrepaired⟩ := hready.merge
        (show slotuse st level c + slotuse st level r + 1 = _ by omega) (.inl rfl)
      refine ⟨inner', st', ?_, hrepaired⟩
      simp only [fix_child, hpair, hmerge, Option.bind_eq_bind, Option.bind_some]
      rfl
  | shiftLeft hfew hparent hlt =>
      obtain ⟨r, kids₀, rfl, rfl⟩ := hright hparent
      obtain ⟨hmin, keys, key, keys', hready⟩ := h.right hchain
      exact hready.divide (Pair.shift_left_spec hready.siblings
        (show slotuse st level c + 1 = _ by omega) (hlt _ rfl))
  | shiftRight hfew hparent hlt =>
      obtain ⟨kids₀, l, rfl, rfl⟩ := hleft hparent
      obtain ⟨hmin, keys, key, keys', hready⟩ := h.left hchain
      obtain ⟨inner', st', hpair, hrepaired⟩ := hready.divide (Pair.shift_right_spec
        hready.siblings (hlt _ rfl) (show slotuse st level c + 1 = _ by omega))
      refine ⟨inner', st', ?_, hrepaired⟩
      rw [length_append, length_singleton]
      simp only [fix_child, Nat.succ_ne_zero, if_false, Nat.add_sub_cancel]
      exact hpair

end Lacking

end Window

end MABTree
end TLI
