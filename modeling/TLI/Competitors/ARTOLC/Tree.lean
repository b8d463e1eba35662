import TLI.Competitors.ARTOLC.Model

/-!
# Tree — what the nodes hold while threads change them

Every node has a label: the bytes that all keys below it begin with.  It never changes.  Where the
edges enter a node does, for a node gets a shorter prefix when one is linked in front of it.

A node is `pending` between that link and the change of its prefix, and it is `retiring` between the
link of the larger node that replaces it and `writeUnlockObsolete`.  Everything else holds in every
state.
-/

namespace TLI
namespace ARTOLC

open List RadixGraph

variable {loadKey : TID → List UInt8} {keys : List UInt8 → Prop} {s : Shared}
  {pending retiring : Nat → Prop}

/-! ## Room for children -/

/-- At most one child more. -/
theorem countChildren_le_succ {f g : UInt8 → Option Child} {b : UInt8}
    (h : ∀ b', (g b').isSome → (f b').isSome ∨ b' = b) :
    countChildren g ≤ countChildren f + 1 := by
  have hsub : ((range 256).filter fun i => (g (UInt8.ofNat i)).isSome) ⊆
      b.toNat :: (range 256).filter fun i => (f (UInt8.ofNat i)).isSome := by
    intro i hi
    obtain ⟨hlt, hg⟩ := mem_filter.1 hi
    rcases h _ hg with hf | rfl
    · exact mem_cons_of_mem _ (mem_filter.2 ⟨hlt, hf⟩)
    · rw [UInt8.toNat_ofNat_of_lt' (mem_range.1 hlt)]
      exact mem_cons_self
  exact (nodup_range.filter _ |>.subperm hsub).length_le

theorem countChildren_congr {f g : UInt8 → Option Child}
    (h : ∀ b, (g b).isSome = (f b).isSome) : countChildren g = countChildren f := by
  simp only [countChildren, h]

theorem countChildren_le (f : UInt8 → Option Child) : countChildren f ≤ 256 :=
  (length_filter_le ..).trans length_range.le

/-- Not all children are there if one is not. -/
theorem countChildren_lt {f : UInt8 → Option Child} {b : UInt8} (h : f b = none) :
    countChildren f + 1 ≤ 256 := by
  have hsub : ((range 256).filter fun i => (f (UInt8.ofNat i)).isSome) ⊆
      (range 256).erase b.toNat := by
    intro i hi
    obtain ⟨hlt, hf⟩ := mem_filter.1 hi
    refine (nodup_range.mem_erase_iff).2 ⟨?_, hlt⟩
    rintro rfl
    rw [UInt8.ofNat_toNat, h] at hf
    cases hf
  have hle := (nodup_range.filter _ |>.subperm hsub).length_le
  rw [length_erase_of_mem (mem_range.2 b.toNat_lt), length_range] at hle
  exact Nat.succ_le_succ hle

theorem countChildren_none : countChildren (fun _ => none) = 0 := by
  decide

theorem newN4_fits {bytes : List UInt8} {length : Nat} {b₁ b₂ : UInt8} {val₁ val₂ : Child} :
    countChildren (newN4 bytes length b₁ val₁ b₂ val₂).children ≤ NTypes.N4.capacity := by
  have hone : countChildren (fun b => if b = b₂ then some val₂ else none) ≤ 0 + 1 := by
    rw [← countChildren_none]
    refine countChildren_le_succ (b := b₂) fun b' hb' => .inr ?_
    by_contra hne
    rw [if_neg hne] at hb'
    cases hb'
  refine (countChildren_le_succ (b := b₁) fun b' hb' => ?_).trans
    ((Nat.succ_le_succ hone).trans (by decide))
  by_cases hb : b' = b₁
  · exact .inr hb
  · simp only [newN4, if_neg hb] at hb'
    exact .inl hb'

/-- A node that is not full has room for one child more. -/
theorem NTypes.succ_le_capacity {type : NTypes} {n : Nat} (h : n ≤ type.capacity)
    (hfull : type.isFull n = false) (hn : n + 1 ≤ 256) : n + 1 ≤ type.capacity := by
  cases type <;> simp [NTypes.capacity, NTypes.isFull] at h hfull ⊢ <;> omega

/-- A larger node has room for one child more. -/
theorem NTypes.succ_le_bigger {type : NTypes} {n : Nat} (h : n ≤ type.capacity)
    (hn : n + 1 ≤ 256) : n + 1 ≤ type.bigger.capacity := by
  cases type <;> simp only [NTypes.capacity, NTypes.bigger] at h ⊢ <;> omega

/-- The leaf is in the tree. -/
def Stored (s : Shared) (t : TID) : Prop :=
  Below s.children root t

/-- What a thread knows of the nodes but the nodes do not say. -/
structure Ghost where
  label : Nat → List UInt8
  entry : Nat → Nat

structure Tree (loadKey : TID → List UInt8) (keys : List UInt8 → Prop) (G : Ghost)
    (pending retiring : Nat → Prop) (s : Shared) : Prop where
  root_lt : root < s.allocated
  root_label : G.label root = []
  root_count : s.prefixCount root = 0
  root_type : getType (s.word root) = .N256
  lt : ∀ {n b c}, s.children n b = some (.node c) → c < s.allocated
  fresh : ∀ {n}, s.allocated ≤ n → ∀ b, s.children n b = none
  labelled : Labelled s.children G.label loadKey
  keys : ∀ {n b t}, s.children n b = some (.leaf t) → keys (loadKey t)
  entry : ∀ {n b c}, Live s.children root n → s.children n b = some (.node c) →
    (G.label n).length + 1 = G.entry c
  count : ∀ {n}, n < s.allocated → ¬ pending n → G.entry n + s.prefixCount n = (G.label n).length
  bytes : ∀ {n}, n < s.allocated → ¬ pending n →
    s.prefixBytes n = ((G.label n).drop (G.entry n)).take maxStoredPrefixLength
  live : ∀ {n}, n < s.allocated →
    Live s.children root n ∨ isObsolete (s.word n) = true ∨ retiring n
  inhabited : ∀ {n}, n < s.allocated → n ≠ root → ∃ t, Below s.children n t
  fits : ∀ {n}, n < s.allocated → s.count n ≤ (getType (s.word n)).capacity

variable {G : Ghost}

namespace Tree

/-- Two leaves in the tree have different keys. -/
theorem eq_of_key (h : Tree loadKey keys G pending retiring s) {t t' : TID} (ht : Stored s t)
    (ht' : Stored s t') (hkey : loadKey t = loadKey t') : t = t' :=
  h.labelled.eq_of_key ht ht' hkey

theorem child_ne_root (h : Tree loadKey keys G pending retiring s) {n c : Nat} {b : UInt8}
    (hedge : s.children n b = some (.node c)) : c ≠ root := by
  rintro rfl
  have hlength := (h.labelled.node hedge).length_le
  rw [h.root_label, length_append, length_singleton] at hlength
  exact absurd hlength (by simp)

/-- The label of a node is shorter than that of its child. -/
theorem label_lt (h : Tree loadKey keys G pending retiring s) {n c : Nat} {b : UInt8}
    (hedge : s.children n b = some (.node c)) : (G.label n).length < (G.label c).length := by
  have hlength := (h.labelled.node hedge).length_le
  rwa [length_append, length_singleton] at hlength

/-! ## Words and prefixes -/

/-- A word changes, but no obsolete node comes back. -/
theorem add (h : Tree loadKey keys G pending retiring s) {n : Nat} {d : UInt64} (hd : d.toNat ≤ 3)
    (hroom : version (s.word n) + 1 < 2 ^ 60) {pending' retiring' : Nat → Prop}
    (hobsolete : isObsolete (s.word n) = true → isObsolete (s.word n + d) = true)
    (hpending : ∀ m, pending m → pending' m)
    (hretiring : ∀ m, retiring m → retiring' m ∨ m = n ∧ isObsolete (s.word n + d) = true) :
    Tree loadKey keys G pending' retiring' (s.apply (.add n d)) := by
  have hword : ∀ m, isObsolete (s.word m) = true →
      isObsolete ((s.apply (.add n d)).word m) = true := by
    intro m hm
    rw [s.word_add]
    split
    · rename_i hmn
      exact hobsolete (hmn ▸ hm)
    · exact hm
  have htype : ∀ m, getType ((s.apply (.add n d)).word m) = getType (s.word m) := by
    intro m
    rw [s.word_add]
    split
    · rename_i hm
      rw [getType_add_small hd hroom, hm]
    · rfl
  refine { h with root_type := ?_, count := ?_, bytes := ?_, live := ?_, fits := ?_ }
  · rw [htype]
    exact h.root_type
  · exact fun hm hnot => h.count hm fun hp => hnot (hpending _ hp)
  · exact fun hm hnot => h.bytes hm fun hp => hnot (hpending _ hp)
  · intro m hm
    rcases h.live hm with hlive | hobs | hret
    · exact .inl hlive
    · exact .inr (.inl (hword m hobs))
    · rcases hretiring m hret with hret' | ⟨rfl, hobs⟩
      · exact .inr (.inr hret')
      · refine .inr (.inl ?_)
        rwa [s.word_add, if_pos rfl]
  · intro m hm
    rw [htype]
    exact h.fits hm

/-- The prefix of a pending node gets shorter. -/
theorem setPrefix (h : Tree loadKey keys G pending retiring s) {n length : Nat} {bytes : List UInt8}
    (hroot : n ≠ root) (hcount : G.entry n + length = (G.label n).length)
    (hbytes : stored bytes length = ((G.label n).drop (G.entry n)).take maxStoredPrefixLength)
    {pending' retiring' : Nat → Prop} (hpending : ∀ m, m ≠ n → pending m → pending' m)
    (hretiring : ∀ m, retiring m → retiring' m) :
    Tree loadKey keys G pending' retiring' (s.apply (.setPrefix n bytes length)) := by
  refine { h with root_count := ?_, count := ?_, bytes := ?_, live := ?_ }
  · rw [s.prefixCount_setPrefix, if_neg hroot.symm]
    exact h.root_count
  · intro m hm hnot
    rw [s.prefixCount_setPrefix]
    split
    · rename_i hmn
      exact hmn ▸ hcount
    · rename_i hmn
      exact h.count hm fun hp => hnot (hpending m hmn hp)
  · intro m hm hnot
    rw [s.prefixBytes_setPrefix]
    split
    · rename_i hmn
      exact hmn ▸ hbytes
    · rename_i hmn
      exact h.bytes hm fun hp => hnot (hpending m hmn hp)
  · exact fun hm => (h.live hm).imp_right (Or.imp_right (hretiring _))

/-! ## A new leaf -/

section SetChild

variable {n : Nat} {b : UInt8} {t : TID}

theorem grows_setChild (hnone : s.children n b = none) :
    Grows s.children (s.apply (.setChild n b (.leaf t))).children fun _ => False := by
  intro m b' r hedge
  refine .inl ?_
  rw [s.children_setChild, if_neg, hedge]
  rintro ⟨rfl, rfl⟩
  rw [hnone] at hedge
  cases hedge

theorem adds_setChild (h : Tree loadKey keys G pending retiring s) (hn : n < s.allocated) :
    Adds s.children (s.apply (.setChild n b (.leaf t))).children n s.allocated t where
  fresh m b' hedge := absurd (h.lt hedge) (lt_irrefl _)
  old := by
    intro m b' r _ hedge
    rw [s.children_setChild] at hedge
    split at hedge
    · rename_i hm
      cases hedge
      exact .inr ⟨hm.1, .inl rfl⟩
    · exact .inl hedge
  new := by
    intro b' r hedge
    rw [s.children_setChild, if_neg fun hm => absurd hm.1 hn.ne', h.fresh le_rfl] at hedge
    cases hedge

theorem live_setChild (h : Tree loadKey keys G pending retiring s) (hn : n < s.allocated)
    (hlive : Live s.children root n) {m : Nat}
    (hm : Live (s.apply (.setChild n b (.leaf t))).children root m) :
    m = s.allocated ∨ Live s.children root m :=
  (h.adds_setChild hn).live hlive hm

theorem stored_setChild (h : Tree loadKey keys G pending retiring s) (hn : n < s.allocated)
    (hlive : Live s.children root n) (hnone : s.children n b = none) (t' : TID) :
    Stored (s.apply (.setChild n b (.leaf t))) t' ↔ Stored s t' ∨ t' = t := by
  have hgrows := grows_setChild (t := t) hnone
  constructor
  · exact fun ht => ((h.adds_setChild hn).below ht).1 h.root_lt.ne
  · rintro (ht | rfl)
    · exact (hgrows.below ht).1
    · refine ((hgrows.live hlive).resolve_right fun hgone => hgone.1).leaf_below
        (.leaf (b := b) ?_)
      rw [s.children_setChild, if_pos ⟨rfl, rfl⟩]

theorem setChild (h : Tree loadKey keys G pending retiring s) (hn : n < s.allocated)
    (hlive : Live s.children root n) (hnone : s.children n b = none)
    (hkey : G.label n ++ [b] <+: loadKey t) (hmem : keys (loadKey t))
    (hfull : s.isFull n = false) {pending' retiring' : Nat → Prop}
    (hpending : ∀ m, pending m → pending' m) (hretiring : ∀ m, retiring m → retiring' m) :
    Tree loadKey keys G pending' retiring' (s.apply (.setChild n b (.leaf t))) := by
  have hgrows := grows_setChild (t := t) hnone
  have hnode : ∀ {m b' c}, (s.apply (.setChild n b (.leaf t))).children m b' = some (.node c) →
      s.children m b' = some (.node c) := by
    intro m b' c hedge
    rw [s.children_setChild] at hedge
    split at hedge
    · cases hedge
    · exact hedge
  refine { h with
    lt := ?_
    fresh := ?_
    labelled := ⟨?_, ?_⟩
    keys := ?_
    entry := ?_
    count := ?_
    bytes := ?_
    live := ?_
    inhabited := ?_
    fits := ?_ }
  · exact fun hedge => h.lt (hnode hedge)
  · intro m hm b'
    rw [s.children_setChild, if_neg fun heq : m = n ∧ b' = b => absurd hm (not_le.2 (heq.1 ▸ hn))]
    exact h.fresh hm b'
  · exact fun hedge => h.labelled.node (hnode hedge)
  · intro m b' t' hedge
    rw [s.children_setChild] at hedge
    split at hedge
    · rename_i hm
      cases hedge
      rw [hm.1, hm.2]
      exact hkey
    · exact h.labelled.leaf hedge
  · intro m b' t' hedge
    rw [s.children_setChild] at hedge
    split at hedge
    · cases hedge
      exact hmem
    · exact h.keys hedge
  · intro m b' c hm hedge
    rcases h.live_setChild hn hlive hm with rfl | hm'
    · rw [s.children_setChild, if_neg fun heq => absurd heq.1 hn.ne', h.fresh le_rfl] at hedge
      cases hedge
    · exact h.entry hm' (hnode hedge)
  · exact fun hm hnot => h.count hm fun hp => hnot (hpending _ hp)
  · exact fun hm hnot => h.bytes hm fun hp => hnot (hpending _ hp)
  · exact fun hm => ((h.live hm).imp_right (Or.imp_right (hretiring _))).imp_left fun hl =>
      (hgrows.live hl).resolve_right fun hgone => hgone.1
  · intro m hm hroot
    obtain ⟨t', ht'⟩ := h.inhabited hm hroot
    exact ⟨t', (hgrows.below ht').1⟩
  · intro m hm
    by_cases hmn : m = n
    · rw [hmn]
      refine (countChildren_le_succ (b := b) fun b' hb' => ?_).trans
        (NTypes.succ_le_capacity (h.fits hn) hfull (countChildren_lt hnone))
      rw [s.children_setChild] at hb'
      split at hb'
      · rename_i heq
        exact .inr heq.2
      · exact .inl hb'
    · have hsame : (s.apply (.setChild n b (.leaf t))).count m = s.count m := by
        refine congrArg countChildren (funext fun b' => ?_)
        rw [s.children_setChild, if_neg fun heq => hmn heq.1]
      rw [hsame]
      exact h.fits hm

end SetChild

end Tree

/-! ## A new node -/

/-- A new node takes the place of the child `old` of `p`: it has the new leaf and what was there
before. -/
structure LinkOK (loadKey : TID → List UInt8) (keys : List UInt8 → Prop) (G : Ghost) (s : Shared)
    (p : Nat) (b : UInt8) (old : Child) (x : NewNode) (t : TID) (label : List UInt8)
    (gone : Nat → Prop) : Prop where
  edge : s.children p b = some old
  live : Live s.children root p
  behind : G.label p ++ [b] <+: label
  leaf : ∃ b', x.children b' = some (.leaf t)
  keeps : (∃ b', x.children b' = some old) ∨ ∃ c, old = .node c ∧ gone c ∧
    ∀ b' r, s.children c b' = some r → x.children b' = some r
  old_or_new : ∀ {b' r}, x.children b' = some r →
    r = .leaf t ∨ ∃ q b'', Live s.children p q ∧ s.children q b'' = some r
  nodes : ∀ {b' d}, x.children b' = some (.node d) → label ++ [b'] <+: G.label d
  leaves : ∀ {b' t'}, x.children b' = some (.leaf t') → label ++ [b'] <+: loadKey t'
  keys : ∀ {b' t'}, x.children b' = some (.leaf t') → keys (loadKey t')
  count : (G.label p).length + 1 + x.prefixCount = label.length
  bytes : x.prefixBytes = (label.drop ((G.label p).length + 1)).take maxStoredPrefixLength
  fits : countChildren x.children ≤ x.type.capacity

/-- The label of the new node, and new entries. -/
def Ghost.link (G : Ghost) (x : Nat) (label : List UInt8) (entry : Nat → Nat) : Ghost where
  label := Function.update G.label x label
  entry := entry

theorem Ghost.link_entry (x : Nat) (label : List UInt8) (entry : Nat → Nat) :
    (G.link x label entry).entry = entry := rfl

theorem Shared.children_link_new (s : Shared) (p : Nat) (b : UInt8) (x : NewNode) (b' : UInt8) :
    (s.apply (.link p b x)).children s.allocated b' = x.children b' := by
  rw [s.children_link, if_pos rfl]

/-- The other edges are kept. -/
theorem Tree.children_link_of_ne (h : Tree loadKey keys G pending retiring s) {p n : Nat}
    {b b' : UInt8} {x : NewNode} {r : Child} (hedge : s.children n b' = some r)
    (hne : ¬ (n = p ∧ b' = b)) :
    (s.apply (.link p b x)).children n b' = some r := by
  have hn : n ≠ s.allocated := by
    rintro rfl
    rw [h.fresh le_rfl] at hedge
    cases hedge
  rw [s.children_link, if_neg hn, if_neg hne, hedge]

namespace LinkOK

variable {p : Nat} {b : UInt8} {old : Child} {x : NewNode} {t : TID} {label : List UInt8}
  {gone : Nat → Prop}

theorem parent_lt (hok : LinkOK loadKey keys G s p b old x t label gone)
    (h : Tree loadKey keys G pending retiring s) : p < s.allocated := by
  by_contra hp
  have hnone := h.fresh (not_lt.1 hp) b
  rw [hok.edge] at hnone
  cases hnone

theorem children_parent (hok : LinkOK loadKey keys G s p b old x t label gone)
    (h : Tree loadKey keys G pending retiring s) :
    (s.apply (.link p b x)).children p b = some (.node s.allocated) := by
  rw [s.children_link, if_neg (hok.parent_lt h).ne, if_pos ⟨rfl, rfl⟩]

theorem grows (hok : LinkOK loadKey keys G s p b old x t label gone)
    (h : Tree loadKey keys G pending retiring s) :
    Grows s.children (s.apply (.link p b x)).children gone := by
  intro n b' r hedge
  by_cases hne : n = p ∧ b' = b
  · obtain ⟨rfl, rfl⟩ := hne
    rw [hok.edge] at hedge
    cases hedge
    refine .inr ⟨s.allocated, hok.children_parent h, ?_⟩
    refine hok.keeps.imp (fun ⟨b'', hb⟩ => ⟨b'', ?_⟩) fun ⟨c, hc, hgone, hcopy⟩ =>
      ⟨c, hc, hgone, fun b'' r hr => ?_⟩
    · rw [s.children_link_new]
      exact hb
    · rw [s.children_link_new]
      exact hcopy b'' r hr
  · exact .inl (h.children_link_of_ne hedge hne)

theorem adds (hok : LinkOK loadKey keys G s p b old x t label gone)
    (h : Tree loadKey keys G pending retiring s) :
    Adds s.children (s.apply (.link p b x)).children p s.allocated t where
  fresh n b' hedge := absurd (h.lt hedge) (lt_irrefl _)
  old := by
    intro n b' r hn hedge
    rw [s.children_link, if_neg hn] at hedge
    split at hedge
    · rename_i hne
      cases hedge
      exact .inr ⟨hne.1, .inr rfl⟩
    · exact .inl hedge
  new := by
    intro b' r hedge
    rw [s.children_link_new] at hedge
    exact hok.old_or_new hedge

/-- The place of the new node is live. -/
theorem live_parent (hok : LinkOK loadKey keys G s p b old x t label gone)
    (h : Tree loadKey keys G pending retiring s) (hgone : ¬ gone p) :
    Live (s.apply (.link p b x)).children root p :=
  ((hok.grows h).live hok.live).resolve_right fun hp => hgone hp.1

/-- Exactly the new leaf is added to the tree. -/
theorem stored (hok : LinkOK loadKey keys G s p b old x t label gone)
    (h : Tree loadKey keys G pending retiring s) (hgone : ¬ gone p) (t' : TID) :
    Stored (s.apply (.link p b x)) t' ↔ Stored s t' ∨ t' = t := by
  constructor
  · exact fun ht => ((hok.adds h).below ht).1 h.root_lt.ne
  · rintro (ht | rfl)
    · exact ((hok.grows h).below ht).1
    · obtain ⟨b', hleaf⟩ := hok.leaf
      refine ((hok.live_parent h hgone).child (hok.children_parent h)).leaf_below
        (.leaf (b := b') ?_)
      rw [s.children_link_new]
      exact hleaf

theorem tree (hok : LinkOK loadKey keys G s p b old x t label gone)
    (h : Tree loadKey keys G pending retiring s) (hgone : ¬ gone p) {entry : Nat → Nat}
    {pending' retiring' : Nat → Prop}
    (hentry : entry s.allocated = (G.label p).length + 1)
    (hmoved : ∀ d, d < s.allocated → entry d ≠ G.entry d → old = .node d ∧ pending' d)
    (hnodes : ∀ {b' d}, x.children b' = some (.node d) → entry d = label.length + 1)
    (hpending : ∀ m, pending m → pending' m) (hretiring : ∀ m, retiring m → retiring' m)
    (hgone' : ∀ m, gone m → retiring' m) :
    Tree loadKey keys (G.link s.allocated label entry) pending' retiring'
      (s.apply (.link p b x)) := by
  have hp := hok.parent_lt h
  have hlabel : ∀ {m}, m ≠ s.allocated → (G.link s.allocated label entry).label m = G.label m :=
    fun hm => Function.update_of_ne hm ..
  have hnew : (G.link s.allocated label entry).label s.allocated = label :=
    Function.update_self ..
  have hlt : ∀ {b' d}, x.children b' = some (.node d) → d < s.allocated := by
    intro b' d hedge
    rcases hok.old_or_new hedge with hleaf | ⟨q, b'', -, hq⟩
    · cases hleaf
    · exact h.lt hq
  -- An edge of the new state is one of the new node, the one to it, or an old one.
  have hedges : ∀ {n b' r}, (s.apply (.link p b x)).children n b' = some r →
      n = s.allocated ∧ x.children b' = some r ∨
        (n = p ∧ b' = b ∧ r = .node s.allocated) ∨
          n ≠ s.allocated ∧ ¬ (n = p ∧ b' = b) ∧ s.children n b' = some r := by
    intro n b' r hedge
    rw [s.children_link] at hedge
    by_cases hn : n = s.allocated
    · rw [if_pos hn] at hedge
      exact .inl ⟨hn, hedge⟩
    · rw [if_neg hn] at hedge
      by_cases hne : n = p ∧ b' = b
      · rw [if_pos hne] at hedge
        cases hedge
        exact .inr (.inl ⟨hne.1, hne.2, rfl⟩)
      · rw [if_neg hne] at hedge
        exact .inr (.inr ⟨hn, hne, hedge⟩)
  refine
    { root_lt := h.root_lt.trans (Nat.lt_succ_self _)
      root_label := (hlabel h.root_lt.ne).trans h.root_label
      root_count := ?_
      root_type := ?_
      lt := ?_
      fresh := ?_
      labelled := ⟨?_, ?_⟩
      keys := ?_
      entry := ?_
      count := ?_
      bytes := ?_
      live := ?_
      inhabited := ?_
      fits := ?_ }
  · rw [s.prefixCount_link, if_neg h.root_lt.ne]
    exact h.root_count
  · rw [s.word_link, if_neg h.root_lt.ne]
    exact h.root_type
  · intro n b' c hedge
    rcases hedges hedge with ⟨-, hx⟩ | ⟨-, -, hc⟩ | ⟨-, -, hold⟩
    · exact (hlt hx).trans (Nat.lt_succ_self _)
    · cases hc
      exact Nat.lt_succ_self _
    · exact (h.lt hold).trans (Nat.lt_succ_self _)
  · intro n hn b'
    have hn' : s.allocated < n := hn
    rw [s.children_link, if_neg hn'.ne', if_neg fun heq => absurd heq.1 (hp.trans hn').ne']
    exact h.fresh hn'.le b'
  · intro n b' c hedge
    rcases hedges hedge with ⟨rfl, hx⟩ | ⟨rfl, rfl, hc⟩ | ⟨hn, -, hold⟩
    · rw [hnew, hlabel (hlt hx).ne]
      exact hok.nodes hx
    · cases hc
      rw [hnew, hlabel hp.ne]
      exact hok.behind
    · rw [hlabel hn, hlabel (h.lt hold).ne]
      exact h.labelled.node hold
  · intro n b' t' hedge
    rcases hedges hedge with ⟨rfl, hx⟩ | ⟨-, -, hc⟩ | ⟨hn, -, hold⟩
    · rw [hnew]
      exact hok.leaves hx
    · cases hc
    · rw [hlabel hn]
      exact h.labelled.leaf hold
  · intro n b' t' hedge
    rcases hedges hedge with ⟨-, hx⟩ | ⟨-, -, hc⟩ | ⟨-, -, hold⟩
    · exact hok.keys hx
    · cases hc
    · exact h.keys hold
  · intro n b' c hlive hedge
    rcases hedges hedge with ⟨rfl, hx⟩ | ⟨rfl, rfl, hc⟩ | ⟨hn, hne, hold⟩
    · rw [hnew]
      exact (hnodes hx).symm
    · cases hc
      rw [hlabel hp.ne]
      exact hentry.symm
    · have hlive' := ((hok.adds h).live hok.live hlive).resolve_left hn
      rw [hlabel hn, h.entry hlive' hold]
      by_contra hmove
      -- The node whose entry moves was entered by the edge that is gone only.
      obtain ⟨rfl, -⟩ := hmoved c (h.lt hold) fun heq => hmove heq.symm
      have hlength : (G.label n).length = (G.label p).length :=
        Nat.succ.inj ((h.entry hlive' hold).trans (h.entry hok.live hok.edge).symm)
      exact hne (h.labelled.edge_unique hlive' hok.live hold hok.edge hlength)
  · intro m hm hnot
    rw [s.prefixCount_link]
    split
    · rename_i hmx
      rw [hmx, hnew]
      exact (congrArg (· + x.prefixCount) hentry).trans hok.count
    · rename_i hmx
      have hm' : m < s.allocated := lt_of_le_of_ne (Nat.le_of_lt_succ hm) hmx
      have hsame : entry m = G.entry m := by
        by_contra hmove
        exact hnot (hmoved m hm' hmove).2
      rw [hlabel hmx]
      exact (congrArg (· + s.prefixCount m) hsame).trans
        (h.count hm' fun hpm => hnot (hpending m hpm))
  · intro m hm hnot
    rw [s.prefixBytes_link]
    split
    · rename_i hmx
      rw [hmx, hnew]
      exact hok.bytes.trans (by rw [Ghost.link_entry, hentry])
    · rename_i hmx
      have hm' : m < s.allocated := lt_of_le_of_ne (Nat.le_of_lt_succ hm) hmx
      have hsame : entry m = G.entry m := by
        by_contra hmove
        exact hnot (hmoved m hm' hmove).2
      rw [hlabel hmx]
      exact (h.bytes hm' fun hpm => hnot (hpending m hpm)).trans (by rw [Ghost.link_entry, hsame])
  · intro m hm
    by_cases hmx : m = s.allocated
    · subst hmx
      exact .inl ((hok.live_parent h hgone).child (hok.children_parent h))
    · have hm' : m < s.allocated := lt_of_le_of_ne (Nat.le_of_lt_succ hm) hmx
      rcases h.live hm' with hlive | hobs | hret
      · rcases (hok.grows h).live hlive with hlive' | ⟨hmgone, -⟩
        · exact .inl hlive'
        · exact .inr (.inr (hgone' m hmgone))
      · refine .inr (.inl ?_)
        rwa [s.word_link, if_neg hmx]
      · exact .inr (.inr (hretiring m hret))
  · intro m hm hroot
    by_cases hmx : m = s.allocated
    · subst hmx
      obtain ⟨b', hleaf⟩ := hok.leaf
      refine ⟨t, .leaf (b := b') ?_⟩
      rw [s.children_link_new]
      exact hleaf
    · have hm' : m < s.allocated := lt_of_le_of_ne (Nat.le_of_lt_succ hm) hmx
      obtain ⟨t', ht'⟩ := h.inhabited hm' hroot
      exact ⟨t', ((hok.grows h).below ht').1⟩
  · intro m hm
    rw [s.word_link]
    split
    · rename_i hmx
      rw [getType_initialWord, hmx, Shared.count, funext (s.children_link_new p b x)]
      exact hok.fits
    · rename_i hmx
      have hm' : m < s.allocated := lt_of_le_of_ne (Nat.le_of_lt_succ hm) hmx
      refine le_of_eq_of_le (countChildren_congr fun b' => ?_) (h.fits hm')
      -- The child of the parent is replaced.
      rw [s.children_link, if_neg hmx]
      split
      · rename_i heq
        rw [heq.1, heq.2, hok.edge]
        rfl
      · rfl

end LinkOK

end ARTOLC
end TLI
