import TLI.Competitors.ARTOLC.Threads

/-!
# Stability — what a thread knows stays true when another thread steps

`InsertPc.held` are the nodes that a thread has locked.  A step of another thread leaves them alone
(`Evolves`), and it changes the word of every other node that it writes to.  So all that a thread
knows stays true: `LookupFacts.mono` and `InsertFacts.mono`.
-/

namespace TLI
namespace ARTOLC

open List RadixGraph

variable {loadKey : TID → List UInt8} {G G' : Ghost} {s s' : Shared} {touched : Nat → Prop}
  {k : List UInt8} {n : Nat}

/-! ## Locks -/

/-- The nodes that a thread has locked. -/
def InsertPc.held : InsertPc → List Nat
  | .lockNode sp => [sp.parent.node]
  | .linkSplit sp | .unlockParent sp => [sp.parent.node, sp.node]
  | .setPrefix sp => [sp.node]
  | .insertLeaf p | .linkLeaf p _ _ => [p.at_.node]
  | .growLockNode g => [g.parent.node]
  | .growLink g | .growObsolete g => [g.parent.node, g.node]
  | .unlock n | .unlockRestart n => [n]
  | _ => []

/-- The node whose prefix is still the one from before the new node was linked in front of it. -/
def InsertPc.pending : InsertPc → List Nat
  | .unlockParent sp | .setPrefix sp => [sp.node]
  | _ => []

/-- The node that is replaced and not yet obsolete. -/
def InsertPc.retiring : InsertPc → List Nat
  | .growObsolete g => [g.node]
  | _ => []

theorem InsertPc.pending_subset (pc : InsertPc) : pc.pending ⊆ pc.held := by
  cases pc <;> simp [InsertPc.pending, InsertPc.held]

theorem InsertPc.retiring_subset (pc : InsertPc) : pc.retiring ⊆ pc.held := by
  cases pc <;> simp [InsertPc.retiring, InsertPc.held]

/-! ## Evolution -/

/-- The node is as it was. -/
structure Unchanged (G : Ghost) (s : Shared) (G' : Ghost) (s' : Shared) (n : Nat) : Prop where
  word : s'.word n = s.word n
  count : s'.prefixCount n = s.prefixCount n
  children : s'.children n = s.children n
  entry : G'.entry n = G.entry n

/-- A step that writes to the nodes that are `touched`. -/
structure Evolves (G : Ghost) (s : Shared) (G' : Ghost) (s' : Shared) (touched : Nat → Prop) :
    Prop where
  allocated : s.allocated ≤ s'.allocated
  label : ∀ {n}, n < s.allocated → G'.label n = G.label n
  word : ∀ {n}, n < s.allocated → s.word n ≤ s'.word n
  count : ∀ {n}, n < s.allocated → s'.prefixCount n ≤ s.prefixCount n
  stored : ∀ {t}, Stored s t → Stored s' t
  unchanged : ∀ {n}, n < s.allocated → ¬ touched n → Unchanged G s G' s' n
  changed : ∀ {n}, n < s.allocated → touched n → Free (s.word n) → s'.word n ≠ s.word n

theorem Reads.mono (h : Evolves G s G' s' touched) {v : UInt64} (hreads : Reads s n v) :
    Reads s' n v where
  lt := hreads.lt.trans_le h.allocated
  free := hreads.free
  le := hreads.le.trans (h.word hreads.lt)

/-- A word that is seen again was there all the time, and the node was not changed. -/
theorem Reads.seen_again (h : Evolves G s G' s' touched) {v : UInt64} (hreads : Reads s n v)
    (hv : s'.word n = v) : s.word n = v ∧ Unchanged G s G' s' n := by
  have hword : s.word n = v := le_antisymm (hv ▸ h.word hreads.lt) hreads.le
  refine ⟨hword, h.unchanged hreads.lt fun htouched => ?_⟩
  exact h.changed hreads.lt htouched (hword ▸ hreads.free) (hv.trans hword.symm)

theorem Unchanged.isFull (h : Unchanged G s G' s' n) : s'.isFull n = s.isFull n := by
  rw [Shared.isFull, Shared.isFull, Shared.count, Shared.count, h.word, h.children]

theorem Reads.room_mono (h : Evolves G s G' s' touched) {v : UInt64} (hreads : Reads s n v)
    {b : UInt8} (hroom : s.word n = v → s.children n b = none ∧ s.isFull n = false)
    (hv : s'.word n = v) : s'.children n b = none ∧ s'.isFull n = false := by
  obtain ⟨hword, hsame⟩ := hreads.seen_again h hv
  rw [hsame.children, hsame.isFull]
  exact hroom hword

/-- What the thread knows of a child as long as the word is the same. -/
theorem Reads.children_mono (h : Evolves G s G' s' touched) {v : UInt64} (hreads : Reads s n v)
    {b : UInt8} {r : Option Child} (hchild : s.word n = v → s.children n b = r)
    (hv : s'.word n = v) : s'.children n b = r := by
  obtain ⟨hword, hsame⟩ := hreads.seen_again h hv
  rw [hsame.children]
  exact hchild hword

theorem Reads.count_mono (h : Evolves G s G' s' touched) {v : UInt64} (hreads : Reads s n v)
    {i : Nat} (hcount : s.word n = v → i < s.prefixCount n) (hv : s'.word n = v) :
    i < s'.prefixCount n := by
  obtain ⟨hword, hsame⟩ := hreads.seen_again h hv
  rw [hsame.count]
  exact hcount hword

theorem Present.mono (h : Evolves G s G' s' touched) (hpresent : Present loadKey s k) :
    Present loadKey s' k := by
  obtain ⟨t, ht, hkey⟩ := hpresent
  exact ⟨t, h.stored ht, hkey⟩

section Parts

variable {a : InsertAt} {p : Place} {parent : Option Parent} {node level : Nat}

theorem EdgeSeen.mono (h : Evolves G s G' s' touched) (hnode : node < s.allocated) {p : Parent}
    (hseen : EdgeSeen G s k p node level) : EdgeSeen G' s' k p node level where
  reads := hseen.reads.mono h
  level := by
    rw [h.label hseen.reads.lt]
    exact hseen.level
  key := by
    rw [h.label hseen.reads.lt]
    exact hseen.key
  label := by
    rw [h.label hseen.reads.lt, h.label hnode]
    exact hseen.label
  edge hv := by
    obtain ⟨hword, hsame⟩ := hseen.reads.seen_again h hv
    rw [hsame.children]
    exact hseen.edge hword

theorem Entry.mono (h : Evolves G s G' s' touched) (hentry : Entry G s k parent node level) :
    Entry G' s' k parent node level where
  lt := hentry.lt.trans_le h.allocated
  root := hentry.root
  edge p hp := (hentry.edge p hp).mono h hentry.lt

theorem AtNode.mono (h : Evolves G s G' s' touched) (hat : AtNode G s k a) : AtNode G' s' k a where
  reads := hat.reads.mono h
  entry := hat.entry.mono h

theorem AtNode.parent_seen_again (h : Evolves G s G' s' touched) (hat : AtNode G s k a)
    (hsame : ParentSame s' a.parent) : ParentSame s a.parent := by
  intro p hp
  exact ((hat.entry.edge p hp).reads.seen_again h (hsame p hp)).1

theorem AtNode.seen_again (h : Evolves G s G' s' touched) (hat : AtNode G s k a)
    (hsame : Same s' a) : Same s a ∧ Unchanged G s G' s' a.node := by
  obtain ⟨hword, hnode⟩ := hat.reads.seen_again h hsame.1
  exact ⟨⟨hword, hat.parent_seen_again h hsame.2⟩, hnode⟩

theorem PlaceAt.mono (h : Evolves G s G' s' touched) (hlt : p.at_.node < s.allocated)
    (hplace : PlaceAt G k p) : PlaceAt G' k p where
  nextLevel := by
    rw [h.label hlt]
    exact hplace.nextLevel
  key := by
    rw [h.label hlt]
    exact hplace.key

theorem ChildSeen.mono (h : Evolves G s G' s' touched) (hreads : Reads s p.at_.node p.at_.v)
    {child : Child} (hseen : ChildSeen G s p child) : ChildSeen G' s' p child where
  edge hv := by
    obtain ⟨hword, hsame⟩ := hreads.seen_again h hv
    rw [hsame.children]
    exact hseen.edge hword
  lt c hc := (hseen.lt c hc).trans_le h.allocated
  label c hc := by
    rw [h.label hreads.lt, h.label (hseen.lt c hc)]
    exact hseen.label c hc

theorem SplitReady.mono (h : Evolves G s G' s' touched) {i : Nat} {c : UInt8}
    {remainingPrefix : List UInt8} (hlt : node < s.allocated) (hnode : Unchanged G s G' s' node)
    (hready : SplitReady G s k node level i c remainingPrefix) :
    SplitReady G' s' k node level i c remainingPrefix where
  differ := by
    rw [h.label hlt]
    exact hready.differ
  count := by
    rw [h.label hlt, hnode.count]
    exact hready.count
  remaining := by
    rw [h.label hlt, hnode.count]
    exact hready.remaining

theorem SplitParent.mono (h : Evolves G s G' s' touched) {sp : Split}
    (hp : sp.parent.node < s.allocated) (hparent : Unchanged G s G' s' sp.parent.node)
    (hsplit : SplitParent G s k sp) : SplitParent G' s' k sp where
  ne_root := hsplit.ne_root
  lt := hsplit.lt.trans_le h.allocated
  level := by
    rw [h.label hp]
    exact hsplit.level
  key := by
    rw [h.label hp]
    exact hsplit.key
  edge := by
    rw [hparent.children]
    exact hsplit.edge

theorem SplitDone.mono (h : Evolves G s G' s' touched) {sp : Split}
    (hnode : Unchanged G s G' s' sp.node) (hdone : SplitDone G s sp) : SplitDone G' s' sp where
  ne_parent := hdone.ne_parent
  ne_root := hdone.ne_root
  lt := hdone.lt.trans_le h.allocated
  entry := hnode.entry.trans hdone.entry
  le := by
    rw [h.label hdone.lt]
    exact hdone.le
  count := by
    rw [h.label hdone.lt, hnode.count]
    exact hdone.count
  remaining := by
    rw [h.label hdone.lt, hnode.count]
    exact hdone.remaining

theorem GrowParent.mono (h : Evolves G s G' s' touched) {g : Grow}
    (hparent : Unchanged G s G' s' g.parent.node) (hgrow : GrowParent G s k g) :
    GrowParent G' s' k g where
  ne_root := hgrow.ne_root
  lt := hgrow.lt.trans_le h.allocated
  key := by
    rw [h.label hgrow.lt]
    exact hgrow.key
  edge := by
    rw [hparent.children]
    exact hgrow.edge

theorem Loaded.mono (h : Evolves G s G' s' touched) {i : Nat} {kt : Option (List UInt8)}
    (hlt : node < s.allocated) (hloaded : Loaded G node i kt) : Loaded G' node i kt where
  label k' hk' := by
    rw [h.label hlt]
    exact hloaded.label k' hk'
  isSome := hloaded.isSome

theorem Walk.mono (h : Evolves G s G' s' touched) {i : Nat} {mismatch : Option UInt8}
    (hwalk : Walk G s k a i mismatch n) : Walk G' s' k a i mismatch n where
  at_ := hwalk.at_.mono h
  ne_root := hwalk.ne_root
  lt := hwalk.lt.trans_le h.allocated
  walk_ne_root := hwalk.walk_ne_root
  label := by
    rw [h.label hwalk.at_.reads.lt, h.label hwalk.lt]
    exact hwalk.label
  count hv := by
    obtain ⟨hword, hnode⟩ := hwalk.at_.reads.seen_again h hv
    rw [hnode.count]
    exact hwalk.count hword
  match_ hm hsame := by
    rw [h.label hwalk.at_.reads.lt]
    exact hwalk.match_ hm (hwalk.at_.seen_again h hsame).1
  differ c hc hsame := by
    obtain ⟨hsame', hnode⟩ := hwalk.at_.seen_again h hsame
    rw [h.label hwalk.at_.reads.lt, hnode.count]
    exact hwalk.differ c hc hsame'

/-! ## Lookup -/

variable {P : Prop} {l : LookupAt}

theorem LookupNode.mono (h : Evolves G s G' s' touched) (hnode : LookupNode G s k P l) :
    LookupNode G' s' k P l where
  reads := hnode.reads.mono h
  le := by
    rw [h.label hnode.reads.lt]
    exact hnode.le
  entry hv := by
    obtain ⟨hword, hsame⟩ := hnode.reads.seen_again h hv
    rw [hsame.entry]
    exact hnode.entry hword
  agree := by
    rw [h.label hnode.reads.lt]
    exact hnode.agree
  label := by
    rw [h.label hnode.reads.lt]
    exact hnode.label

theorem LookupPrefix.mono (h : Evolves G s G' s' touched) {i : Nat}
    (hpre : LookupPrefix G s k P l i) : LookupPrefix G' s' k P l i where
  node := hpre.node.mono h
  room := by
    have hcount := h.count hpre.node.reads.lt
    have hroom := hpre.room
    omega
  lt := hpre.lt
  le := hpre.le
  count hv := by
    obtain ⟨hword, hsame⟩ := hpre.node.reads.seen_again h hv
    rw [hsame.count]
    exact hpre.count hword
  agree hopt hv := by
    rw [h.label hpre.node.reads.lt]
    exact hpre.agree hopt (hpre.node.reads.seen_again h hv).1

theorem LookupBehind.mono (h : Evolves G s G' s' touched) (hbehind : LookupBehind G s k P l) :
    LookupBehind G' s' k P l where
  reads := hbehind.reads.mono h
  level hv := by
    rw [h.label hbehind.reads.lt]
    exact hbehind.level (hbehind.reads.seen_again h hv).1
  agree hopt hv := by
    rw [h.label hbehind.reads.lt]
    exact hbehind.agree hopt (hbehind.reads.seen_again h hv).1
  label := by
    rw [h.label hbehind.reads.lt]
    exact hbehind.label

theorem LookupEdge.mono (h : Evolves G s G' s' touched) {b : UInt8}
    (hedge : LookupEdge G s k l b) : LookupEdge G' s' k l b where
  reads := hedge.reads.mono h
  level := by
    rw [h.label hedge.reads.lt]
    exact hedge.level
  byte := hedge.byte
  agree := by
    rw [h.label hedge.reads.lt]
    exact hedge.agree

end Parts

theorem LookupFacts.mono (h : Evolves G s G' s' touched) {P : Prop} {pc : LookupPc}
    (hfacts : LookupFacts loadKey G s k P pc) : LookupFacts loadKey G' s' k P pc := by
  cases pc with
  | restart => trivial
  | hasPrefix a => exact LookupNode.mono h hfacts
  | fits a => exact LookupNode.mono h hfacts
  | loop a i => exact LookupPrefix.mono h hfacts
  | byte a i =>
      obtain ⟨hpre, hi, hlt, hcount⟩ := hfacts
      exact ⟨hpre.mono h, hi, hlt, hpre.node.reads.count_mono h hcount⟩
  | isLong a i =>
      have hcount := h.count hfacts.1.node.reads.lt
      exact ⟨hfacts.1.mono h, (min_le_min_right _ hcount).trans hfacts.2⟩
  | skip a i => exact hfacts.imp_left (LookupPrefix.mono h)
  | getChild a => exact LookupBehind.mono h hfacts
  | checkChild a child =>
      obtain ⟨hbehind, b, hb, hchild⟩ := hfacts
      exact ⟨hbehind.mono h, b, hb, hbehind.reads.children_mono h hchild⟩
  | checkLeaf a t =>
      obtain ⟨b, hedge, hkey, ht, hP⟩ := hfacts
      refine ⟨b, hedge.mono h, ?_, h.stored ht, hP⟩
      rw [h.label hedge.reads.lt]
      exact hkey
  | lockChild a child =>
      obtain ⟨b, hedge, hlt, hlabel, hchild, hP⟩ := hfacts
      refine ⟨b, hedge.mono h, hlt.trans_le h.allocated, ?_, hedge.reads.children_mono h hchild, ?_⟩
      · rw [h.label hedge.reads.lt, h.label hlt]
        exact hlabel
      · rw [h.label hlt]
        exact hP
  | checkParent a child nv =>
      obtain ⟨b, hedge, hreads, hlabel, hchild, hP⟩ := hfacts
      refine ⟨b, hedge.mono h, hreads.mono h, ?_, hedge.reads.children_mono h hchild, ?_⟩
      · rw [h.label hedge.reads.lt, h.label hreads.lt]
        exact hlabel
      · rw [h.label hreads.lt]
        exact hP
  | noMatch a =>
      obtain ⟨hreads, hP⟩ := hfacts
      exact ⟨hreads.mono h, fun hp hv => hP hp (hreads.seen_again h hv).1⟩
  | done result =>
      cases result with
      | none => exact hfacts
      | some t => exact hfacts.imp_left h.stored

/-! ## Insert -/

/-- The nodes that a thread has locked are allocated, and the others leave them alone. -/
structure HeldOK (s : Shared) (touched : Nat → Prop) (held : List Nat) : Prop where
  lt : ∀ n ∈ held, n < s.allocated
  untouched : ∀ n ∈ held, ¬ touched n

theorem InsertFacts.mono (h : Evolves G s G' s' touched) {tid : TID} {pc : InsertPc}
    (hheld : HeldOK s touched pc.held) (hfacts : InsertFacts loadKey G s k tid pc) :
    InsertFacts loadKey G' s' k tid pc := by
  have hnode : ∀ n ∈ pc.held, Unchanged G s G' s' n := fun n hn =>
    h.unchanged (hheld.lt n hn) (hheld.untouched n hn)
  cases pc with
  | lock parent node level => exact Entry.mono h hfacts
  | loop a i kt =>
      obtain ⟨hat, hloaded, hagree⟩ := hfacts
      refine ⟨hat.mono h, hloaded.mono h hat.reads.lt, fun hsame => ?_⟩
      rw [h.label hat.reads.lt]
      exact hagree (hat.seen_again h hsame).1
  | byte a i kt =>
      obtain ⟨hat, hroot, hloaded, hcount, hagree⟩ := hfacts
      refine ⟨hat.mono h, hroot, hloaded.mono h hat.reads.lt, hat.reads.count_mono h hcount,
        fun hsame => ?_⟩
      rw [h.label hat.reads.lt]
      exact hagree (hat.seen_again h hsame).1
  | isLong a i kt c =>
      obtain ⟨hat, hroot, hloaded, hcount, hdiffer⟩ := hfacts
      refine ⟨hat.mono h, hroot, hloaded.mono h hat.reads.lt, hat.reads.count_mono h hcount,
        fun hsame => ?_⟩
      rw [h.label hat.reads.lt]
      exact hdiffer (hat.seen_again h hsame).1
  | copyShort a i c =>
      obtain ⟨hat, hroot, hcount, hshort, hdiffer⟩ := hfacts
      refine ⟨hat.mono h, hroot, hat.reads.count_mono h hcount,
        (h.count hat.reads.lt).trans hshort, fun hsame => ?_⟩
      rw [h.label hat.reads.lt]
      exact hdiffer (hat.seen_again h hsame).1
  | copyLong a i kt c =>
      obtain ⟨hat, hroot, hlabel, hdiffer⟩ := hfacts
      refine ⟨hat.mono h, hroot, ?_, fun hsame => ?_⟩
      · rw [h.label hat.reads.lt]
        exact hlabel
      · obtain ⟨hsame', hunchanged⟩ := hat.seen_again h hsame
        rw [h.label hat.reads.lt, hunchanged.count]
        exact hdiffer hsame'
  | walkLock a i mismatch n => exact Walk.mono h hfacts
  | walkChild a i mismatch n v => exact ⟨hfacts.1.mono h, hfacts.2.mono h⟩
  | walkCheck a i mismatch n v child =>
      obtain ⟨hwalk, hreads, hchild⟩ := hfacts
      refine ⟨hwalk.mono h, hreads.mono h, fun hv => ?_⟩
      obtain ⟨hword, hsame⟩ := hreads.seen_again h hv
      rw [hsame.children]
      exact hchild hword
  | lockParent a i c remainingPrefix =>
      obtain ⟨hat, hroot, hready⟩ := hfacts
      refine ⟨hat.mono h, hroot, fun hsame => ?_⟩
      obtain ⟨hsame', hunchanged⟩ := hat.seen_again h hsame
      exact (hready hsame').mono h hat.reads.lt hunchanged
  | lockNode sp =>
      obtain ⟨hparent, hreads, hready⟩ := hfacts
      refine ⟨hparent.mono h (hheld.lt _ (mem_singleton_self _)) (hnode _ (mem_singleton_self _)),
        hreads.mono h, fun hv => ?_⟩
      obtain ⟨hword, hsame⟩ := hreads.seen_again h hv
      exact (hready hword).mono h hreads.lt hsame
  | linkSplit sp =>
      obtain ⟨hparent, hready⟩ := hfacts
      exact ⟨hparent.mono h (hheld.lt _ mem_cons_self) (hnode _ mem_cons_self),
        hready.mono h hparent.lt (hnode _ (mem_cons_of_mem _ (mem_singleton_self _)))⟩
  | unlockParent sp =>
      exact ⟨hfacts.1.mono h (hnode _ (mem_cons_of_mem _ (mem_singleton_self _))),
        h.stored hfacts.2⟩
  | setPrefix sp => exact ⟨hfacts.1.mono h (hnode _ (mem_singleton_self _)), h.stored hfacts.2⟩
  | getChild a nextLevel =>
      obtain ⟨hat, hlevel⟩ := hfacts
      refine ⟨hat.mono h, fun hsame => ?_⟩
      rw [h.label hat.reads.lt]
      exact hlevel (hat.seen_again h hsame).1
  | checkChild p child =>
      obtain ⟨hat, hplace, hchild⟩ := hfacts
      exact ⟨hat.mono h, fun hsame => (hplace (hat.seen_again h hsame).1).mono h hat.reads.lt,
        hat.reads.children_mono h hchild⟩
  | checkParent p child =>
      obtain ⟨hat, hplace, hseen, hne⟩ := hfacts
      exact ⟨hat.mono h, fun hsame => (hplace (hat.parent_seen_again h hsame)).mono h hat.reads.lt,
        hseen.mono h hat.reads, hne⟩
  | isFull p =>
      obtain ⟨hat, hplace, hchild⟩ := hfacts
      exact ⟨hat.mono h, fun hsame => (hplace (hat.parent_seen_again h hsame)).mono h hat.reads.lt,
        hat.reads.children_mono h hchild⟩
  | checkParentRoom p =>
      obtain ⟨hat, hplace, hroom, hne⟩ := hfacts
      exact ⟨hat.mono h, fun hsame => (hplace (hat.parent_seen_again h hsame)).mono h hat.reads.lt,
        hat.reads.room_mono h hroom, hne⟩
  | growLockParent p =>
      obtain ⟨hat, hplace, hchild, hne⟩ := hfacts
      exact ⟨hat.mono h, fun hsame => (hplace (hat.parent_seen_again h hsame)).mono h hat.reads.lt,
        hat.reads.children_mono h hchild, hne⟩
  | lockRoom p =>
      obtain ⟨hreads, hplace, hroom⟩ := hfacts
      exact ⟨hreads.mono h, hplace.mono h hreads.lt, hreads.room_mono h hroom⟩
  | insertLeaf p =>
      obtain ⟨hlt, hplace, hroom⟩ := hfacts
      refine ⟨hlt.trans_le h.allocated, hplace.mono h hlt, ?_⟩
      have hsame := hnode _ (mem_singleton_self p.at_.node)
      rw [hsame.children, hsame.isFull]
      exact hroom
  | growLockNode g =>
      obtain ⟨hparent, hreads, hchild⟩ := hfacts
      exact ⟨hparent.mono h (hnode _ (mem_singleton_self _)), hreads.mono h,
        hreads.children_mono h hchild⟩
  | growLink g =>
      obtain ⟨hparent, hchild⟩ := hfacts
      refine ⟨hparent.mono h (hnode _ mem_cons_self), ?_⟩
      rw [(hnode _ (mem_cons_of_mem _ (mem_singleton_self _))).children]
      exact hchild
  | growObsolete g => exact ⟨hfacts.1, h.stored hfacts.2⟩
  | lockLeaf p other =>
      obtain ⟨hreads, hplace, hchild⟩ := hfacts
      exact ⟨hreads.mono h, hplace.mono h hreads.lt, hreads.children_mono h hchild⟩
  | linkLeaf p other prefixLength =>
      obtain ⟨hlt, hplace, hchild, hdiffer⟩ := hfacts
      refine ⟨hlt.trans_le h.allocated, hplace.mono h hlt, ?_, hdiffer⟩
      rw [(hnode _ (mem_singleton_self _)).children]
      exact hchild
  | unlock n => exact Present.mono h hfacts
  | done => exact Present.mono h hfacts
  | unlockRestart n => trivial
  | crashed => trivial

end ARTOLC
end TLI
