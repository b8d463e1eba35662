import TLI.Competitors.ARTOLC.Insert

/-!
# Locks — what a step of an insert leaves behind

`Outcome` is what a step of one thread has to establish for all threads: the tree is one still, the
other threads' nodes are left alone, and the leaf of the thread is the only one that may be added.
Here are the steps that lock and unlock nodes.
-/

namespace TLI
namespace ARTOLC

open List RadixGraph

variable {loadKey : TID → List UInt8} {keys : List UInt8 → Prop} {G G' : Ghost} {s s' : Shared}
  {po ro : Nat → Prop} {tid : TID} {pc pc' : InsertPc} {torn : Torn}

/-! ## Outcomes -/

def HeldNode (s : Shared) (n : Nat) : Prop :=
  n < s.allocated ∧ isLocked (s.word n) = true ∧ isObsolete (s.word n) = false

/-- A thread has its nodes for itself.  `po` and `ro` are the nodes of the other threads that are
pending and retiring. -/
structure Mine (s : Shared) (po ro : Nat → Prop) (pc : InsertPc) : Prop where
  held : ∀ n ∈ pc.held, HeldNode s n
  pending : ∀ n, po n → isLocked (s.word n) = true ∧ n ∉ pc.held
  retiring : ∀ n, ro n → isLocked (s.word n) = true ∧ n ∉ pc.held

/-- The tree while the thread is at `pc`. -/
def TreeAt (loadKey : TID → List UInt8) (keys : List UInt8 → Prop) (G : Ghost) (po ro : Nat → Prop)
    (s : Shared) (pc : InsertPc) : Prop :=
  Tree loadKey keys G (fun n => n ∈ pc.pending ∨ po n) (fun n => n ∈ pc.retiring ∨ ro n) s

/-- The leaf is new, and so is its key. -/
def AddsLeaf (loadKey : TID → List UInt8) (s s' : Shared) (tid : TID) : Prop :=
  ¬ Present loadKey s (loadKey tid) ∧ ∀ t, Stored s' t ↔ Stored s t ∨ t = tid

structure Outcome (loadKey : TID → List UInt8) (keys : List UInt8 → Prop) (po ro : Nat → Prop)
    (tid : TID) (G : Ghost) (s : Shared) (pc : InsertPc) (G' : Ghost) (s' : Shared)
    (pc' : InsertPc) : Prop where
  evolves : ∃ touched, Evolves G s G' s' touched ∧
    ∀ n, touched n → n ∈ pc.held ∨ Free (s.word n)
  tree : TreeAt loadKey keys G' po ro s' pc'
  facts : InsertFacts loadKey G' s' (loadKey tid) tid pc'
  held : ∀ n ∈ pc'.held, HeldNode s' n
  takes : ∀ n ∈ pc'.held, n ∈ pc.held ∨ Free (s.word n)
  owner : ∀ n, n < s'.allocated → isLocked (s'.word n) = true →
    n ∈ pc'.held ∨ n < s.allocated ∧ isLocked (s.word n) = true ∧ n ∉ pc.held
  stored : (∀ t, Stored s' t ↔ Stored s t) ∨ AddsLeaf loadKey s s' tid
  room : ∀ n, n < s'.allocated →
    version (s'.word n) ≤ 1 ∨ n < s.allocated ∧ version (s'.word n) ≤ version (s.word n) + 1

theorem not_free_of_isLocked {w : UInt64} (h : isLocked w = true) : ¬ Free w := by
  intro hfree
  rw [hfree.1] at h
  cases h

namespace Mine

variable (hmine : Mine s po ro pc)
include hmine

theorem settled : Settled s (fun n => n ∈ pc.pending ∨ po n) (fun n => n ∈ pc.retiring ∨ ro n) := by
  refine fun n hfree => ⟨?_, ?_⟩
  · rintro (hn | hn)
    · exact not_free_of_isLocked (hmine.held n (pc.pending_subset hn)).2.1 hfree
    · exact not_free_of_isLocked (hmine.pending n hn).1 hfree
  · rintro (hn | hn)
    · exact not_free_of_isLocked (hmine.held n (pc.retiring_subset hn)).2.1 hfree
    · exact not_free_of_isLocked (hmine.retiring n hn).1 hfree

/-- A locked node is in the tree unless the thread is replacing it. -/
theorem live (h : TreeAt loadKey keys G po ro s pc) {n : Nat} (hn : n ∈ pc.held)
    (hretiring : n ∉ pc.retiring) : Live s.children root n := by
  obtain ⟨hlt, -, hobsolete⟩ := hmine.held n hn
  rcases Tree.live h hlt with hlive | hobs | hret | hret
  · exact hlive
  · rw [hobsolete] at hobs
    cases hobs
  · exact absurd hret hretiring
  · exact absurd hn (hmine.retiring n hret).2

theorem not_pending {n : Nat} (hn : n ∈ pc.held) (hpending : n ∉ pc.pending) :
    ¬ (n ∈ pc.pending ∨ po n) := by
  rintro (hn' | hn')
  · exact hpending hn'
  · exact (hmine.pending n hn').2 hn

end Mine

/-! ## Steps that write nothing -/

theorem Evolves.refl : Evolves G s G s fun _ => False where
  allocated := le_rfl
  label _ := rfl
  word _ := le_rfl
  count _ := le_rfl
  stored ht := ht
  unchanged _ _ := ⟨rfl, rfl, rfl, rfl⟩
  changed _ h := h.elim

theorem Tree.mono {pending retiring pending' retiring' : Nat → Prop}
    (h : Tree loadKey keys G pending retiring s) (hpending : ∀ n, pending n → pending' n)
    (hretiring : ∀ n, retiring n → retiring' n) : Tree loadKey keys G pending' retiring' s :=
  { h with
    count := fun hn hnot => h.count hn fun hp => hnot (hpending _ hp)
    bytes := fun hn hnot => h.bytes hn fun hp => hnot (hpending _ hp)
    live := fun hn => (h.live hn).imp_right (Or.imp_right (hretiring _)) }

/-- Nothing is locked or unlocked. -/
theorem owner_of_word (hheld : pc'.held = pc.held)
    (hword : ∀ n, n < s'.allocated → isLocked (s'.word n) = true →
      n < s.allocated ∧ isLocked (s.word n) = true) (n : Nat) (hn : n < s'.allocated)
    (hlocked : isLocked (s'.word n) = true) :
    n ∈ pc'.held ∨ n < s.allocated ∧ isLocked (s.word n) = true ∧ n ∉ pc.held := by
  obtain ⟨hn', hlocked'⟩ := hword n hn hlocked
  by_cases hmem : n ∈ pc.held
  · exact .inl (hheld ▸ hmem)
  · exact .inr ⟨hn', hlocked', hmem⟩

theorem Outcome.nothing (hmine : Mine s po ro pc) (h : TreeAt loadKey keys G po ro s pc)
    (hheld : pc'.held = pc.held) (hpending : pc.pending ⊆ pc'.pending)
    (hretiring : pc.retiring ⊆ pc'.retiring)
    (hfacts : InsertFacts loadKey G s (loadKey tid) tid pc') :
    Outcome loadKey keys po ro tid G s pc G (s.apply .nothing) pc' where
  evolves := ⟨fun _ => False, .refl, fun _ h => h.elim⟩
  tree := Tree.mono h (fun _ => Or.imp_left fun hn => hpending hn)
    fun _ => Or.imp_left fun hn => hretiring hn
  facts := hfacts
  held n hn := hmine.held n (hheld ▸ hn)
  takes _ hn := .inl (hheld ▸ hn)
  owner := owner_of_word hheld fun _ hn hlocked => ⟨hn, hlocked⟩
  stored := .inl fun _ => Iff.rfl
  room _ hn := .inr ⟨hn, Nat.le_succ _⟩

/-! ## Steps that change a word -/

section Add

variable {n : Nat} {d : UInt64}

theorem Evolves.add (hpos : 0 < d.toNat) (hd : d.toNat ≤ 3)
    (hroom : version (s.word n) + 1 < 2 ^ 60) :
    Evolves G s G (s.apply (.add n d)) (· = n) where
  allocated := le_rfl
  label _ := rfl
  word {m} _ := by
    rw [s.word_add]
    split
    · rename_i hm
      rw [hm]
      exact (lt_add_small hpos hd hroom).le
    · exact le_rfl
  count _ := le_rfl
  stored ht := ht
  unchanged {m} _ hm := ⟨by rw [s.word_add, if_neg hm], rfl, rfl, rfl⟩
  changed {m} _ hm _ := by
    rw [s.word_add, if_pos hm, hm]
    exact (lt_add_small hpos hd hroom).ne'

theorem Outcome.add (h : TreeAt loadKey keys G po ro s pc) (hpos : 0 < d.toNat) (hd : d.toNat ≤ 3)
    (hroom : version (s.word n) + 1 < 2 ^ 60) (hn : n ∈ pc.held ∨ Free (s.word n))
    (hobsolete : isObsolete (s.word n) = true → isObsolete (s.word n + d) = true)
    (hpending : pc.pending ⊆ pc'.pending)
    (hretiring : ∀ m ∈ pc.retiring, m ∈ pc'.retiring ∨ m = n ∧ isObsolete (s.word n + d) = true)
    (hfacts : InsertFacts loadKey G (s.apply (.add n d)) (loadKey tid) tid pc')
    (hheld : ∀ m ∈ pc'.held, HeldNode (s.apply (.add n d)) m)
    (htakes : ∀ m ∈ pc'.held, m ∈ pc.held ∨ Free (s.word m))
    (howner : isLocked (s.word n + d) = true → n ∈ pc'.held)
    (hkeeps : ∀ m ∈ pc.held, m ≠ n → m ∈ pc'.held) :
    Outcome loadKey keys po ro tid G s pc G (s.apply (.add n d)) pc' where
  evolves := by
    refine ⟨(· = n), .add hpos hd hroom, ?_⟩
    rintro m rfl
    exact hn
  tree := by
    refine Tree.add h hd hroom hobsolete (fun _ => Or.imp_left fun hm => hpending hm) fun m hm => ?_
    rcases hm with hm | hm
    · exact (hretiring m hm).imp_left .inl
    · exact .inl (.inr hm)
  facts := hfacts
  held := hheld
  takes := htakes
  owner m hm hlocked := by
    rw [s.word_add] at hlocked
    split at hlocked
    · rename_i hmn
      exact .inl (hmn ▸ howner hlocked)
    · rename_i hmn
      by_cases hmem : m ∈ pc.held
      · exact .inl (hkeeps m hmem hmn)
      · exact .inr ⟨hm, hlocked, hmem⟩
  stored := .inl fun _ => Iff.rfl
  room m hm := by
    refine .inr ⟨hm, ?_⟩
    rw [s.word_add]
    split
    · rename_i hmn
      rw [hmn]
      exact version_add_small hd hroom
    · exact Nat.le_succ _

/-- `upgradeToWriteLockOrRestart` that succeeds. -/
theorem Outcome.lock (hmine : Mine s po ro pc) (h : TreeAt loadKey keys G po ro s pc)
    (hlt : n < s.allocated) (hfree : Free (s.word n)) (hroom : version (s.word n) + 1 < 2 ^ 60)
    (hretiring : pc.retiring = []) (hpending : pc.pending = [])
    (hheld : ∀ m, m ∈ pc'.held ↔ m = n ∨ m ∈ pc.held)
    (hfacts : InsertFacts loadKey G (s.apply (.add n 0b10)) (loadKey tid) tid pc') :
    Outcome loadKey keys po ro tid G s pc G (s.apply (.add n 0b10)) pc' := by
  have hold : ∀ m ∈ pc.held, m ≠ n := by
    rintro m hm rfl
    exact not_free_of_isLocked (hmine.held m hm).2.1 hfree
  refine .add h (by decide) (by decide) hroom (.inr hfree) ?_ ?_ ?_ hfacts ?_ ?_
    (fun _ => (hheld n).2 (.inl rfl)) fun m hm _ => (hheld m).2 (.inr hm)
  · exact fun hobs => by rwa [isObsolete_add_two hroom]
  · rw [hpending]
    exact nil_subset _
  · rw [hretiring]
    exact fun m hm => by cases hm
  · intro m hm
    rcases (hheld m).1 hm with rfl | hm'
    · refine ⟨hlt, ?_, ?_⟩
      · rw [s.word_add, if_pos rfl]
        exact isLocked_lock hfree hroom
      · rw [s.word_add, if_pos rfl, isObsolete_add_two hroom]
        exact hfree.2
    · obtain ⟨hlt', hlocked, hobs⟩ := hmine.held m hm'
      refine ⟨hlt', ?_, ?_⟩
      · rwa [s.word_add, if_neg (hold m hm')]
      · rwa [s.word_add, if_neg (hold m hm')]
  · intro m hm
    rcases (hheld m).1 hm with rfl | hm'
    · exact .inr hfree
    · exact .inl hm'

/-- `writeUnlock` and `writeUnlockObsolete` -/
theorem Outcome.unlock (hmine : Mine s po ro pc) (h : TreeAt loadKey keys G po ro s pc)
    (hn : n ∈ pc.held) (hroom : version (s.word n) + 1 < 2 ^ 60) (hpos : 0 < d.toNat)
    (hd : d.toNat ≤ 3) (hpending : pc.pending ⊆ pc'.pending)
    (hretiring : ∀ m ∈ pc.retiring, m ∈ pc'.retiring ∨ m = n ∧ isObsolete (s.word n + d) = true)
    (hunlocked : isLocked (s.word n + d) = false)
    (hheld : ∀ m, m ∈ pc'.held ↔ m ∈ pc.held ∧ m ≠ n)
    (hfacts : InsertFacts loadKey G (s.apply (.add n d)) (loadKey tid) tid pc') :
    Outcome loadKey keys po ro tid G s pc G (s.apply (.add n d)) pc' := by
  refine .add h hpos hd hroom (.inl hn) ?_ hpending hretiring hfacts ?_
    (fun m hm => .inl ((hheld m).1 hm).1) (fun hlocked => ?_) fun m hm hne => (hheld m).2 ⟨hm, hne⟩
  · intro hobs
    rw [(hmine.held n hn).2.2] at hobs
    cases hobs
  · intro m hm
    obtain ⟨hm', hne⟩ := (hheld m).1 hm
    obtain ⟨hlt, hlocked, hobs⟩ := hmine.held m hm'
    refine ⟨hlt, ?_, ?_⟩
    · rwa [s.word_add, if_neg hne]
    · rwa [s.word_add, if_neg hne]
  · rw [hunlocked] at hlocked
    cases hlocked

end Add

/-! ## The facts behind a lock -/

section Facts

variable {k : List UInt8} {n : Nat}

theorem SplitParent.add {sp : Split} {d : UInt64} (h : SplitParent G s k sp) :
    SplitParent G (s.apply (.add n d)) k sp :=
  ⟨h.ne_root, h.lt, h.level, h.key, h.edge⟩

theorem SplitReady.add {d : UInt64} {node level i : Nat} {c : UInt8} {rest : List UInt8}
    (h : SplitReady G s k node level i c rest) :
    SplitReady G (s.apply (.add n d)) k node level i c rest :=
  ⟨h.differ, h.count, h.remaining⟩

theorem GrowParent.add {g : Grow} {d : UInt64} (h : GrowParent G s k g) :
    GrowParent G (s.apply (.add n d)) k g :=
  ⟨h.ne_root, h.lt, h.key, h.edge⟩

/-- The parent is locked, and the node is as it was if its word is. -/
theorem facts_lockNode {a : InsertAt} {i : Nat} {c : UInt8} {rest : List UInt8} {p : Parent}
    (hfacts : InsertFacts loadKey G s (loadKey tid) tid (.lockParent a i c rest))
    (hparent : a.parent = some p) (hv : s.word p.node = p.version)
    (hroom : version (s.word p.node) + 1 < 2 ^ 60) :
    InsertFacts loadKey G (s.apply (.add p.node 0b10)) (loadKey tid) tid
      (.lockNode ⟨p, a.node, a.v, a.level, i, c, rest⟩) := by
  obtain ⟨hat, hroot, hready⟩ := hfacts
  have hseen := hat.entry.edge p hparent
  have hevolves : Evolves G s G (s.apply (.add p.node 0b10)) (· = p.node) :=
    .add (by decide) (by decide) hroom
  refine ⟨⟨hroot, hat.reads.lt, hseen.level, hseen.key, hseen.edge hv⟩, hat.reads.mono hevolves,
    fun hnode => ?_⟩
  have hsame : Same s a := ⟨(hat.reads.seen_again hevolves hnode).1, fun e he => by
    cases hparent.symm.trans he
    exact hv⟩
  exact (hready hsame).add

theorem facts_growLockNode {pending retiring : Nat → Prop}
    (h : Tree loadKey keys G pending retiring s) {p : Place} {e : Parent}
    (hfacts : InsertFacts loadKey G s (loadKey tid) tid (.growLockParent p))
    (hparent : p.at_.parent = some e) (hv : s.word e.node = e.version)
    (hroom : version (s.word e.node) + 1 < 2 ^ 60) :
    InsertFacts loadKey G (s.apply (.add e.node 0b10)) (loadKey tid) tid
      (.growLockNode ⟨e, p.at_.node, p.at_.v, p.nodeKey⟩) := by
  obtain ⟨hat, hplace, hchild, -⟩ := hfacts
  have hedge := (hat.entry.edge e hparent).edge hv
  have hevolves : Evolves G s G (s.apply (.add e.node 0b10)) (· = e.node) :=
    .add (by decide) (by decide) hroom
  have hsame : ParentSame s p.at_.parent := fun e' he' => by
    cases hparent.symm.trans he'
    exact hv
  exact ⟨⟨h.child_ne_root hedge, hat.reads.lt, (hplace hsame).key, hedge⟩,
    hat.reads.mono hevolves, hat.reads.children_mono hevolves hchild⟩

/-- Two words that do not differ: one of them begins the other one. -/
theorem prefix_of_firstDifference_eq_none :
    ∀ {x y : List UInt8}, firstDifference x y = none → x <+: y ∨ y <+: x
  | [], _, _ => .inl nil_prefix
  | _ :: _, [], _ => .inr nil_prefix
  | a :: x, b :: y, h => by
      rw [firstDifference] at h
      split at h
      · rename_i hab
        rw [Option.map_eq_none_iff] at h
        rw [hab]
        exact (prefix_of_firstDifference_eq_none h).imp (prefix_cons_inj b).2 (prefix_cons_inj b).2
      · cases h

theorem differ_of_firstDifference :
    ∀ {x y : List UInt8} {n : Nat}, firstDifference x y = some n → ∃ c, Differ x y n c
  | [], _, _, h => by cases h
  | _ :: _, [], _, h => by cases h
  | a :: x, b :: y, n, h => by
      rw [firstDifference] at h
      split at h
      · rename_i hab
        obtain ⟨m, hm, rfl⟩ := Option.map_eq_some_iff.1 h
        obtain ⟨c, front, d, rfl, hx, hy, hne⟩ := differ_of_firstDifference hm
        subst hab
        exact ⟨c, a :: front, d, rfl, (prefix_cons_inj a).2 hx, (prefix_cons_inj a).2 hy, hne⟩
      · rename_i hab
        cases h
        exact ⟨a, [], b, rfl, ⟨x, rfl⟩, ⟨y, rfl⟩, hab⟩

theorem Differ.append {x y front : List UInt8} {m : Nat} {c : UInt8} (h : Differ x y m c) :
    Differ (front ++ x) (front ++ y) (front.length + m) c := by
  obtain ⟨front', d, rfl, hx, hy, hne⟩ := h
  refine ⟨front ++ front', d, length_append, ?_, ?_, hne⟩
  · rw [append_assoc]
    exact (prefix_append_right_inj front).2 hx
  · rw [append_assoc]
    exact (prefix_append_right_inj front).2 hy

/-- The keys are compared behind the byte of the child. -/
theorem facts_compared {pending retiring : Nat → Prop} (h : Tree loadKey keys G pending retiring s)
    (hsettled : Settled s pending retiring) (hkeys : KeySet keys) (hk : keys (loadKey tid))
    {p : Place} {other : TID}
    (hfacts : InsertFacts loadKey G s (loadKey tid) tid (.lockLeaf p other))
    (hv : s.word p.at_.node = p.at_.v) {d : UInt64} :
    InsertFacts loadKey G (s.apply (.add n d)) (loadKey tid) tid
      (.compared p other (firstDifference ((loadKey other).drop (p.nextLevel + 1))
        ((loadKey tid).drop (p.nextLevel + 1)))) := by
  obtain ⟨hreads, hplace, hchild⟩ := hfacts
  have hedge := hchild hv
  have hlive := h.live_of_free hsettled hreads.lt (hv ▸ hreads.free)
  have hother := h.labelled.leaf hedge
  have hlength : (G.label p.at_.node ++ [p.nodeKey]).length = p.nextLevel + 1 := by
    rw [length_append, length_singleton, hplace.nextLevel]
  -- Both keys begin with the label of the node and the byte.
  obtain ⟨x, hx⟩ := hother
  obtain ⟨y, hy⟩ := hplace.key
  have hdropx : (loadKey other).drop (p.nextLevel + 1) = x := by
    rw [← hx, ← hlength, drop_left]
  have hdropy : (loadKey tid).drop (p.nextLevel + 1) = y := by
    rw [← hy, ← hlength, drop_left]
  rw [hdropx, hdropy]
  cases hfirst : firstDifference x y with
  | none =>
      refine ⟨other, hlive.leaf_below (.leaf hedge), ?_⟩
      rcases prefix_of_firstDifference_eq_none hfirst with hle | hle
      · refine hkeys.eq_of_prefix (h.keys hedge) hk ?_
        rw [← hx, ← hy]
        exact (prefix_append_right_inj _).2 hle
      · refine (hkeys.eq_of_prefix hk (h.keys hedge) ?_).symm
        rw [← hx, ← hy]
        exact (prefix_append_right_inj _).2 hle
  | some prefixLength =>
      obtain ⟨c, hc⟩ := differ_of_firstDifference hfirst
      refine ⟨hreads.lt, hplace, hedge, c, ?_⟩
      rw [← hlength, ← hx, ← hy]
      exact hc.append

end Facts

/-! ## All of them -/

/-- The thread is at a step that locks or unlocks a node. -/
def InsertPc.isLock : InsertPc → Bool
  | .lockParent .. | .lockNode _ | .unlockParent _ | .lockRoom _ | .growLockParent _
  | .growLockNode _ | .growObsolete _ | .lockLeaf .. | .unlock _ | .unlockRestart _ => true
  | _ => false

/-- An attempt to lock a node: it succeeds, or nothing is written. -/
theorem Outcome.upgrade (hmine : Mine s po ro pc) (h : TreeAt loadKey keys G po ro s pc) {n : Nat}
    {v : UInt64} {locked failed : InsertPc} {e : Effect} (hlt : n < s.allocated) (hfree : Free v)
    (hroom : version (s.word n) + 1 < 2 ^ 60) (hpending : pc.pending = [])
    (hretiring : pc.retiring = []) (hstep : upgrade s n v locked failed = (e, pc'))
    (hheld : ∀ m, m ∈ locked.held ↔ m = n ∨ m ∈ pc.held) (hheld' : failed.held = pc.held)
    (hlocked : s.word n = v →
      InsertFacts loadKey G (s.apply (.add n 0b10)) (loadKey tid) tid locked)
    (hfailed : InsertFacts loadKey G s (loadKey tid) tid failed) :
    Outcome loadKey keys po ro tid G s pc G (s.apply e) pc' := by
  rw [ARTOLC.upgrade] at hstep
  split at hstep
  · rename_i hv
    cases hstep
    exact .lock hmine h hlt (hv ▸ hfree) hroom hretiring hpending hheld (hlocked hv)
  · cases hstep
    refine .nothing hmine h hheld' ?_ ?_ hfailed
    · rw [hpending]
      exact nil_subset _
    · rw [hretiring]
      exact nil_subset _

theorem InsertPc.compared_held (p : Place) (other : TID) (r : Option Nat) :
    (InsertPc.compared p other r).held = [p.at_.node] := by
  cases r <;> rfl

theorem lockStep_ok (hkeys : KeySet keys) (hk : keys (loadKey tid)) (hmine : Mine s po ro pc)
    (h : TreeAt loadKey keys G po ro s pc)
    (hroom : ∀ n, n < s.allocated → version (s.word n) + 1 < 2 ^ 60)
    (hfacts : InsertFacts loadKey G s (loadKey tid) tid pc) {e : Effect} (hlock : pc.isLock = true)
    (hstep : insertStep loadKey tid s torn pc = some (e, pc')) :
    Outcome loadKey keys po ro tid G s pc G (s.apply e) pc' := by
  have hrestart : InsertFacts loadKey G s (loadKey tid) tid .restart := entry_restart h.root_lt
  cases pc with
  | lockParent a i c rest =>
      cases hparent : a.parent with
      | none =>
          -- The root has no prefix.
          exact absurd (hfacts.1.entry.root hparent).1 hfacts.2.1
      | some p =>
          rw [insertStep, hparent] at hstep
          have hreads := (hfacts.1.entry.edge p hparent).reads
          exact .upgrade hmine h hreads.lt hreads.free (hroom _ hreads.lt) rfl rfl
            (Option.some.inj hstep) (fun m => by simp [InsertPc.held]) rfl
            (fun hv => facts_lockNode hfacts hparent hv (hroom _ hreads.lt)) hrestart
  | lockNode sp =>
      obtain ⟨hparent, hreads, hready⟩ := hfacts
      exact .upgrade hmine h hreads.lt hreads.free (hroom _ hreads.lt) rfl rfl
        (Option.some.inj hstep) (fun m => by simp [InsertPc.held, or_comm]) rfl
        (fun hv => ⟨hparent.add, (hready hv).add⟩) trivial
  | unlockParent sp =>
      cases hstep
      obtain ⟨hdone, hstored⟩ := hfacts
      have hp := hmine.held sp.parent.node mem_cons_self
      refine .unlock hmine h mem_cons_self (hroom _ hp.1) (by decide) (by decide) (Subset.refl _)
        (fun m hm => .inl hm) (isLocked_unlock hp.2.1 (hroom _ hp.1)) ?_ ?_
      · have hne := hdone.ne_parent
        intro m
        simp only [InsertPc.held, mem_cons, not_mem_nil, or_false]
        grind
      · exact ⟨⟨hdone.ne_parent, hdone.ne_root, hdone.lt, hdone.entry, hdone.le, hdone.count,
          hdone.remaining⟩, hstored⟩
  | lockRoom p =>
      obtain ⟨hreads, hplace, hchild⟩ := hfacts
      refine .upgrade hmine h hreads.lt hreads.free (hroom _ hreads.lt) rfl rfl
        (Option.some.inj hstep) (fun m => by simp [InsertPc.held]) rfl
        (fun hv => ⟨hreads.lt, hplace, (hchild hv).1, ?_⟩) hrestart
      rw [Shared.isFull, s.word_add, if_pos rfl, getType_add_small (by decide) (hroom _ hreads.lt)]
      exact (hchild hv).2
  | growLockParent p =>
      cases hparent : p.at_.parent with
      | none => exact absurd hparent hfacts.2.2.2
      | some e' =>
          rw [insertStep, hparent] at hstep
          have hreads := (hfacts.1.entry.edge e' hparent).reads
          exact .upgrade hmine h hreads.lt hreads.free (hroom _ hreads.lt) rfl rfl
            (Option.some.inj hstep) (fun m => by simp [InsertPc.held]) rfl
            (fun hv => facts_growLockNode h hfacts hparent hv (hroom _ hreads.lt)) hrestart
  | growLockNode g =>
      obtain ⟨hparent, hreads, hchild⟩ := hfacts
      exact .upgrade hmine h hreads.lt hreads.free (hroom _ hreads.lt) rfl rfl
        (Option.some.inj hstep) (fun m => by simp [InsertPc.held, or_comm]) rfl
        (fun hv => ⟨hparent.add, hchild hv⟩) trivial
  | growObsolete g =>
      cases hstep
      have hmem : g.node ∈ (InsertPc.growObsolete g).held :=
        mem_cons_of_mem _ (mem_singleton_self _)
      have hg := hmine.held g.node hmem
      refine .unlock hmine h hmem (hroom _ hg.1) (by decide) (by decide) (Subset.refl _) ?_
        (isLocked_unlockObsolete hg.2.1 hg.2.2 (hroom _ hg.1)) ?_ ⟨tid, hfacts.2, rfl⟩
      · intro m hm
        exact .inr ⟨mem_singleton.1 hm, isObsolete_unlockObsolete hg.2.2 (hroom _ hg.1)⟩
      · have hne := hfacts.1
        intro m
        simp only [InsertPc.held, mem_cons, not_mem_nil, or_false]
        grind
  | lockLeaf p other =>
      have hreads := hfacts.1
      refine .upgrade hmine h hreads.lt hreads.free (hroom _ hreads.lt) rfl rfl
        (Option.some.inj hstep) (fun m => ?_) rfl
        (fun hv => facts_compared h hmine.settled hkeys hk hfacts hv) hrestart
      rw [InsertPc.compared_held]
      simp [InsertPc.held]
  | unlock n =>
      cases hstep
      have hn := hmine.held n (mem_singleton_self _)
      exact .unlock hmine h (mem_singleton_self _) (hroom _ hn.1) (by decide) (by decide)
        (Subset.refl _) (fun m hm => .inl hm) (isLocked_unlock hn.2.1 (hroom _ hn.1))
        (fun m => by simp [InsertPc.held]) hfacts
  | unlockRestart n =>
      cases hstep
      have hn := hmine.held n (mem_singleton_self _)
      exact .unlock hmine h (mem_singleton_self _) (hroom _ hn.1) (by decide) (by decide)
        (Subset.refl _) (fun m hm => .inl hm) (isLocked_unlock hn.2.1 (hroom _ hn.1))
        (fun m => by simp [InsertPc.held, InsertPc.restart]) (entry_restart h.root_lt)
  | _ => cases hlock

end ARTOLC
end TLI
