import TLI.Competitors.ARTOLC.Tree

/-!
# Threads — what a thread knows where it stands

A thread reads a node without a lock and asks afterwards whether the word is still the one it has
seen first.  Most of what it knows holds only as long as it is.  What it knows of labels and of
stored leaves holds for ever, and what it knows of a node that it has locked holds until it unlocks
the node.  `Evolves` says what the other threads leave alone.
-/

namespace TLI
namespace ARTOLC

open List RadixGraph

variable {loadKey : TID → List UInt8} {keys : List UInt8 → Prop} {G G' : Ghost} {s s' : Shared}
  {pending retiring : Nat → Prop}

/-! ## Keys and labels -/

/-- No key is empty or begins another one. -/
structure KeySet (keys : List UInt8 → Prop) : Prop where
  ne_nil : ∀ {k}, keys k → k ≠ []
  eq_of_prefix : ∀ {k k'}, keys k → keys k' → k <+: k' → k = k'

/-- The first `m` bytes are there and are the same. -/
def Agree (x y : List UInt8) (m : Nat) : Prop :=
  ∃ front, front.length = m ∧ front <+: x ∧ front <+: y

/-- Behind the first `m` bytes one goes on with `c` and the other one does not. -/
def Differ (x y : List UInt8) (m : Nat) (c : UInt8) : Prop :=
  ∃ front d, front.length = m ∧ front ++ [c] <+: x ∧ front ++ [d] <+: y ∧ c ≠ d

theorem prefix_concat {front x : List UInt8} {c : UInt8} (h : front <+: x)
    (hc : x[front.length]? = some c) : front ++ [c] <+: x := by
  obtain ⟨rest, rfl⟩ := h
  rw [getElem?_append_right le_rfl, Nat.sub_self] at hc
  cases rest with
  | nil => cases hc
  | cons d rest =>
      cases hc
      exact ⟨rest, by rw [append_assoc, singleton_append]⟩

theorem getElem?_of_append {front x : List UInt8} {c : UInt8} (h : front ++ [c] <+: x) :
    x[front.length]? = some c := by
  obtain ⟨rest, rfl⟩ := h
  rw [append_assoc, getElem?_append_right le_rfl, Nat.sub_self]
  rfl

namespace Agree

variable {x y : List UInt8} {m : Nat}

theorem zero : Agree x y 0 :=
  ⟨[], rfl, nil_prefix, nil_prefix⟩

theorem of_begins (h : x <+: y) (hm : m ≤ x.length) : Agree x y m :=
  ⟨x.take m, length_take_of_le hm, List.take_prefix .., (List.take_prefix ..).trans h⟩

theorem le (h : Agree x y m) : m ≤ x.length ∧ m ≤ y.length := by
  obtain ⟨front, rfl, hx, hy⟩ := h
  exact ⟨hx.length_le, hy.length_le⟩

theorem succ {c : UInt8} (h : Agree x y m) (hx : x[m]? = some c) (hy : y[m]? = some c) :
    Agree x y (m + 1) := by
  obtain ⟨front, rfl, hfx, hfy⟩ := h
  exact ⟨front ++ [c], by rw [length_append, length_singleton], prefix_concat hfx hx,
    prefix_concat hfy hy⟩

theorem differ {c d : UInt8} (h : Agree x y m) (hx : x[m]? = some c) (hy : y[m]? = some d)
    (hne : c ≠ d) : Differ x y m c := by
  obtain ⟨front, rfl, hfx, hfy⟩ := h
  exact ⟨front, d, rfl, prefix_concat hfx hx, prefix_concat hfy hy, hne⟩

theorem isPrefix (h : Agree x y m) (hm : x.length ≤ m) : x <+: y := by
  obtain ⟨front, rfl, hfx, hfy⟩ := h
  rwa [← hfx.eq_of_length (le_antisymm hfx.length_le hm)]

end Agree

theorem Differ.lt {x y : List UInt8} {m : Nat} {c : UInt8} (h : Differ x y m c) :
    m < x.length ∧ m < y.length := by
  obtain ⟨front, d, rfl, hx, hy, -⟩ := h
  have hxl := hx.length_le
  have hyl := hy.length_le
  rw [length_append, length_singleton] at hxl hyl
  exact ⟨hxl, hyl⟩

theorem keyByte_eq (torn : Torn) {k : List UInt8} {i : Nat} (h : i < k.length) :
    k[i]? = some (keyByte torn k i) := by
  rw [keyByte, getD_eq_getElem?_getD, getElem?_eq_getElem h]
  rfl

/-- The key is that of a leaf in the tree. -/
def Present (loadKey : TID → List UInt8) (s : Shared) (k : List UInt8) : Prop :=
  ∃ t, Stored s t ∧ loadKey t = k

namespace Tree

theorem below_key (h : Tree loadKey keys G pending retiring s) {n : Nat} {t : TID}
    (ht : Below s.children n t) : keys (loadKey t) := by
  induction ht with
  | leaf hedge => exact h.keys hedge
  | node _ _ ih => exact ih

/-- A key does not end where it agrees with a label. -/
theorem agree_lt (h : Tree loadKey keys G pending retiring s) (hkeys : KeySet keys)
    {k : List UInt8} (hk : keys k) {n m : Nat} (hn : n < s.allocated)
    (hagree : Agree (G.label n) k m) : m < k.length := by
  refine lt_of_le_of_ne hagree.le.2 fun hm => ?_
  obtain ⟨front, rfl, hlabel, hkey⟩ := hagree
  have hkey' : k <+: G.label n := hkey.eq_of_length hm ▸ hlabel
  by_cases hroot : n = root
  · rw [hroot, h.root_label, prefix_nil] at hkey'
    exact hkeys.ne_nil hk hkey'
  · obtain ⟨t, ht⟩ := h.inhabited hn hroot
    obtain ⟨hbegins, hlt⟩ := h.labelled.lt_length_of_below ht
    have hsame := hkeys.eq_of_prefix hk (h.below_key ht) (hkey'.trans hbegins)
    exact absurd (hsame ▸ hkey'.length_le) (not_le.2 hlt)

theorem label_short (h : Tree loadKey keys G pending retiring s) (hkeys : KeySet keys)
    {k : List UInt8} (hk : keys k) {n : Nat} (hn : n < s.allocated) (hlabel : G.label n <+: k) :
    (G.label n).length < k.length :=
  h.agree_lt hkeys hk hn (.of_begins hlabel le_rfl)

/-- A stored key that goes on with an edge is behind it. -/
theorem present_of_edge (h : Tree loadKey keys G pending retiring s) {k : List UInt8} {n c : Nat}
    {b : UInt8} (hlive : Live s.children root n) (hedge : s.children n b = some (.node c))
    (hkey : G.label n ++ [b] <+: k) (hpresent : Present loadKey s k) :
    G.label c <+: k ∧ (G.label c).length < k.length := by
  obtain ⟨t, ht, rfl⟩ := hpresent
  have hn := h.labelled.route hlive ht ((prefix_append _ _).trans hkey)
  rcases h.labelled.below_of_edge hedge hn hkey with hleaf | ⟨d, hnode, hbelow⟩
  · cases hleaf
  · cases hnode
    exact h.labelled.lt_length_of_below hbelow

end Tree

/-! ## What a thread has seen -/

/-- The word of the node that the thread has read. -/
structure Reads (s : Shared) (n : Nat) (v : UInt64) : Prop where
  lt : n < s.allocated
  free : Free v
  le : v ≤ s.word n

/-- The thread has come by an edge of `p` to the node. -/
structure EdgeSeen (G : Ghost) (s : Shared) (k : List UInt8) (p : Parent) (node level : Nat) :
    Prop where
  reads : Reads s p.node p.version
  level : level = (G.label p.node).length + 1
  key : G.label p.node ++ [p.key] <+: k
  label : G.label p.node ++ [p.key] <+: G.label node
  edge : s.word p.node = p.version → s.children p.node p.key = some (.node node)

/-- The thread has come to the node, from the root of the tree or by an edge. -/
structure Entry (G : Ghost) (s : Shared) (k : List UInt8) (parent : Option Parent)
    (node level : Nat) : Prop where
  lt : node < s.allocated
  root : parent = none → node = root ∧ level = 0
  edge : ∀ p, parent = some p → EdgeSeen G s k p node level

/-- The parent is as the thread has seen it. -/
def ParentSame (s : Shared) (parent : Option Parent) : Prop :=
  ∀ p, parent = some p → s.word p.node = p.version

/-- The node and the parent are as the thread has seen them. -/
def Same (s : Shared) (a : InsertAt) : Prop :=
  s.word a.node = a.v ∧ ParentSame s a.parent

structure AtNode (G : Ghost) (s : Shared) (k : List UInt8) (a : InsertAt) : Prop where
  reads : Reads s a.node a.v
  entry : Entry G s k a.parent a.node a.level

/-- The prefix of the node matches, and `nodeKey` comes next. -/
structure PlaceAt (G : Ghost) (k : List UInt8) (p : Place) : Prop where
  nextLevel : p.nextLevel = (G.label p.at_.node).length
  key : G.label p.at_.node ++ [p.nodeKey] <+: k

/-- What the thread has found out about the child. -/
structure ChildSeen (G : Ghost) (s : Shared) (p : Place) (child : Child) : Prop where
  edge : s.word p.at_.node = p.at_.v → s.children p.at_.node p.nodeKey = some child
  lt : ∀ c, child = .node c → c < s.allocated
  label : ∀ c, child = .node c → G.label p.at_.node ++ [p.nodeKey] <+: G.label c

/-- The node can be split at its byte `i`. -/
structure SplitReady (G : Ghost) (s : Shared) (k : List UInt8) (node level i : Nat)
    (nonMatchingKey : UInt8) (remainingPrefix : List UInt8) : Prop where
  differ : Differ (G.label node) k (level + i) nonMatchingKey
  count : level + s.prefixCount node = (G.label node).length
  remaining : stored remainingPrefix (s.prefixCount node - (i + 1)) =
    ((G.label node).drop (level + i + 1)).take maxStoredPrefixLength

/-- The parent of the node that is being split is locked. -/
structure SplitParent (G : Ghost) (s : Shared) (k : List UInt8) (sp : Split) : Prop where
  ne_root : sp.node ≠ root
  lt : sp.node < s.allocated
  level : sp.level = (G.label sp.parent.node).length + 1
  key : G.label sp.parent.node ++ [sp.parent.key] <+: k
  edge : s.children sp.parent.node sp.parent.key = some (.node sp.node)

/-- The new node is linked in front of the node that is being split. -/
structure SplitDone (G : Ghost) (s : Shared) (sp : Split) : Prop where
  ne_parent : sp.parent.node ≠ sp.node
  ne_root : sp.node ≠ root
  lt : sp.node < s.allocated
  entry : G.entry sp.node = sp.level + sp.i + 1
  le : sp.level + sp.i < (G.label sp.node).length
  count : sp.level + s.prefixCount sp.node = (G.label sp.node).length
  remaining : stored sp.remainingPrefix (s.prefixCount sp.node - (sp.i + 1)) =
    ((G.label sp.node).drop (sp.level + sp.i + 1)).take maxStoredPrefixLength

/-- The parent of the node that is being replaced is locked. -/
structure GrowParent (G : Ghost) (s : Shared) (k : List UInt8) (g : Grow) : Prop where
  ne_root : g.node ≠ root
  lt : g.node < s.allocated
  key : G.label g.node ++ [g.nodeKey] <+: k
  edge : s.children g.parent.node g.parent.key = some (.node g.node)

/-- A thread looks for a leaf below its node. -/
structure Walk (G : Ghost) (s : Shared) (k : List UInt8) (a : InsertAt) (i : Nat)
    (mismatch : Option UInt8) (n : Nat) : Prop where
  at_ : AtNode G s k a
  ne_root : a.node ≠ root
  lt : n < s.allocated
  walk_ne_root : n ≠ root
  label : G.label a.node <+: G.label n
  count : s.word a.node = a.v → i < s.prefixCount a.node
  match_ : mismatch = none → Same s a → Agree (G.label a.node) k (a.level + i)
  differ : ∀ c, mismatch = some c → Same s a →
    Differ (G.label a.node) k (a.level + i) c ∧ maxStoredPrefixLength < s.prefixCount a.node

/-- The key that a thread has loaded is that of a leaf below its node. -/
structure Loaded (G : Ghost) (node i : Nat) (kt : Option (List UInt8)) : Prop where
  label : ∀ k', kt = some k' → G.label node <+: k'
  isSome : maxStoredPrefixLength ≤ i → kt ≠ none

/-! ## Lookup -/

/-- At the node of a lookup.  `P` stands for: the key was there when the call began. -/
structure LookupNode (G : Ghost) (s : Shared) (k : List UInt8) (P : Prop) (a : LookupAt) :
    Prop where
  reads : Reads s a.node a.v
  le : a.level ≤ (G.label a.node).length
  entry : s.word a.node = a.v → a.level = G.entry a.node
  agree : a.optimisticPrefixMatch = false → Agree (G.label a.node) k a.level
  label : P → G.label a.node <+: k ∧ (G.label a.node).length < k.length

/-- In the prefix of the node of a lookup, at the byte `i`. -/
structure LookupPrefix (G : Ghost) (s : Shared) (k : List UInt8) (P : Prop) (a : LookupAt)
    (i : Nat) : Prop where
  node : LookupNode G s k P a
  room : a.level + s.prefixCount a.node < k.length
  lt : a.level + i < k.length
  le : i ≤ maxStoredPrefixLength
  count : s.word a.node = a.v → i ≤ s.prefixCount a.node
  agree : a.optimisticPrefixMatch = false → s.word a.node = a.v →
    Agree (G.label a.node) k (a.level + i)

/-- Behind the prefix of the node of a lookup. -/
structure LookupBehind (G : Ghost) (s : Shared) (k : List UInt8) (P : Prop) (a : LookupAt) :
    Prop where
  reads : Reads s a.node a.v
  level : s.word a.node = a.v → a.level = (G.label a.node).length
  agree : a.optimisticPrefixMatch = false → s.word a.node = a.v → G.label a.node <+: k
  label : P → G.label a.node <+: k ∧ a.level < k.length

/-- The child of the node of a lookup is known. -/
structure LookupEdge (G : Ghost) (s : Shared) (k : List UInt8) (a : LookupAt) (b : UInt8) :
    Prop where
  reads : Reads s a.node a.v
  level : a.level = (G.label a.node).length
  byte : k[a.level]? = some b
  agree : a.optimisticPrefixMatch = false → G.label a.node <+: k

def LookupFacts (loadKey : TID → List UInt8) (G : Ghost) (s : Shared) (k : List UInt8)
    (P : Prop) : LookupPc → Prop
  | .restart => True
  | .hasPrefix a | .fits a => LookupNode G s k P a
  | .loop a i => LookupPrefix G s k P a i
  | .byte a i => LookupPrefix G s k P a i ∧ i < maxStoredPrefixLength ∧
      a.level + i + 1 < k.length ∧ (s.word a.node = a.v → i < s.prefixCount a.node)
  | .isLong a i => LookupPrefix G s k P a i ∧
      min (s.prefixCount a.node) maxStoredPrefixLength ≤ i
  | .skip a i => LookupPrefix G s k P a i ∧ i = maxStoredPrefixLength
  | .getChild a => LookupBehind G s k P a
  | .checkChild a child => LookupBehind G s k P a ∧
      ∃ b, k[a.level]? = some b ∧ (s.word a.node = a.v → s.children a.node b = child)
  | .checkLeaf a t => ∃ b, LookupEdge G s k a b ∧ G.label a.node ++ [b] <+: loadKey t ∧
      Stored s t ∧ (P → loadKey t = k)
  | .lockChild a child => ∃ b, LookupEdge G s k a b ∧ child < s.allocated ∧
      G.label a.node ++ [b] <+: G.label child ∧
      (s.word a.node = a.v → s.children a.node b = some (.node child)) ∧
      (P → G.label child <+: k ∧ (G.label child).length < k.length)
  | .checkParent a child nv => ∃ b, LookupEdge G s k a b ∧ Reads s child nv ∧
      G.label a.node ++ [b] <+: G.label child ∧
      (s.word a.node = a.v → s.children a.node b = some (.node child)) ∧
      (P → G.label child <+: k ∧ (G.label child).length < k.length)
  | .noMatch a => Reads s a.node a.v ∧ (P → s.word a.node ≠ a.v)
  | .done none => ¬ P
  | .done (some t) => Stored s t ∧ loadKey t = k

/-! ## Insert -/

def InsertFacts (loadKey : TID → List UInt8) (G : Ghost) (s : Shared) (k : List UInt8) (tid : TID) :
    InsertPc → Prop
  | .lock parent node level => Entry G s k parent node level
  | .loop a i kt => AtNode G s k a ∧ Loaded G a.node (i - 1) kt ∧
      (Same s a → Agree (G.label a.node) k (a.level + i))
  | .byte a i kt => AtNode G s k a ∧ a.node ≠ root ∧ Loaded G a.node i kt ∧
      (s.word a.node = a.v → i < s.prefixCount a.node) ∧
      (Same s a → Agree (G.label a.node) k (a.level + i))
  | .isLong a i kt c => AtNode G s k a ∧ a.node ≠ root ∧ Loaded G a.node i kt ∧
      (s.word a.node = a.v → i < s.prefixCount a.node) ∧
      (Same s a → Differ (G.label a.node) k (a.level + i) c)
  | .copyShort a i c => AtNode G s k a ∧ a.node ≠ root ∧
      (s.word a.node = a.v → i < s.prefixCount a.node) ∧
      s.prefixCount a.node ≤ maxStoredPrefixLength ∧
      (Same s a → Differ (G.label a.node) k (a.level + i) c)
  | .copyLong a i kt c => AtNode G s k a ∧ a.node ≠ root ∧ G.label a.node <+: kt ∧
      (Same s a → Differ (G.label a.node) k (a.level + i) c ∧
        maxStoredPrefixLength < s.prefixCount a.node)
  | .walkLock a i mismatch n => Walk G s k a i mismatch n
  | .walkChild a i mismatch n v => Walk G s k a i mismatch n ∧ Reads s n v
  | .walkCheck a i mismatch n v child => Walk G s k a i mismatch n ∧ Reads s n v ∧
      (s.word n = v → ∃ b r, child = some r ∧ s.children n b = some r)
  | .lockParent a i c remainingPrefix => AtNode G s k a ∧ a.node ≠ root ∧
      (Same s a → SplitReady G s k a.node a.level i c remainingPrefix)
  | .lockNode sp => SplitParent G s k sp ∧ Reads s sp.node sp.v ∧
      (s.word sp.node = sp.v →
        SplitReady G s k sp.node sp.level sp.i sp.nonMatchingKey sp.remainingPrefix)
  | .linkSplit sp => SplitParent G s k sp ∧
      SplitReady G s k sp.node sp.level sp.i sp.nonMatchingKey sp.remainingPrefix
  | .unlockParent sp | .setPrefix sp => SplitDone G s sp ∧ Stored s tid
  | .getChild a nextLevel => AtNode G s k a ∧
      (Same s a → nextLevel = (G.label a.node).length ∧ G.label a.node <+: k)
  | .checkChild p child => AtNode G s k p.at_ ∧ (Same s p.at_ → PlaceAt G k p) ∧
      (s.word p.at_.node = p.at_.v → s.children p.at_.node p.nodeKey = child)
  | .checkParent p child => AtNode G s k p.at_ ∧ (ParentSame s p.at_.parent → PlaceAt G k p) ∧
      ChildSeen G s p child ∧ p.at_.parent ≠ none
  | .isFull p => AtNode G s k p.at_ ∧ (ParentSame s p.at_.parent → PlaceAt G k p) ∧
      (s.word p.at_.node = p.at_.v → s.children p.at_.node p.nodeKey = none)
  | .checkParentRoom p =>
      AtNode G s k p.at_ ∧ (ParentSame s p.at_.parent → PlaceAt G k p) ∧
      (s.word p.at_.node = p.at_.v → s.children p.at_.node p.nodeKey = none ∧
        s.isFull p.at_.node = false) ∧ p.at_.parent ≠ none
  | .growLockParent p =>
      AtNode G s k p.at_ ∧ (ParentSame s p.at_.parent → PlaceAt G k p) ∧
      (s.word p.at_.node = p.at_.v → s.children p.at_.node p.nodeKey = none) ∧
      p.at_.parent ≠ none
  | .lockRoom p => Reads s p.at_.node p.at_.v ∧ PlaceAt G k p ∧
      (s.word p.at_.node = p.at_.v → s.children p.at_.node p.nodeKey = none ∧
        s.isFull p.at_.node = false)
  | .insertLeaf p => p.at_.node < s.allocated ∧ PlaceAt G k p ∧
      s.children p.at_.node p.nodeKey = none ∧ s.isFull p.at_.node = false
  | .growLockNode g => GrowParent G s k g ∧ Reads s g.node g.v ∧
      (s.word g.node = g.v → s.children g.node g.nodeKey = none)
  | .growLink g => GrowParent G s k g ∧ s.children g.node g.nodeKey = none
  | .growObsolete g => g.parent.node ≠ g.node ∧ Stored s tid
  | .lockLeaf p other => Reads s p.at_.node p.at_.v ∧ PlaceAt G k p ∧
      (s.word p.at_.node = p.at_.v → s.children p.at_.node p.nodeKey = some (.leaf other))
  | .linkLeaf p other prefixLength => p.at_.node < s.allocated ∧ PlaceAt G k p ∧
      s.children p.at_.node p.nodeKey = some (.leaf other) ∧
      ∃ c, Differ (loadKey other) k (p.nextLevel + 1 + prefixLength) c
  | .unlock _ | .done => Present loadKey s k
  | .unlockRestart _ | .crashed => True

end ARTOLC
end TLI
