import TLI.Competitors.ARTOLC.Locks

/-!
# Links — the steps of an insert that change the tree

The leaf gets into the tree by one write: into a node with room (`insertLeaf`), or by the link of a
new node, in front of a node whose prefix does not match (`linkSplit`), in the place of a full node
(`growLink`), or of a leaf (`linkLeaf`).  `setPrefix` completes a split.  Then `insertStep_ok` holds
for all steps.
-/

namespace TLI
namespace ARTOLC

open List RadixGraph

variable {loadKey : TID → List UInt8} {keys : List UInt8 → Prop} {G : Ghost} {s : Shared}
  {po ro : Nat → Prop} {tid : TID} {pc pc' : InsertPc} {torn : Torn}

/-! ## A key that is not there -/

/-- A stored key that goes on with a byte is behind an edge. -/
theorem Tree.edge_of_present {pending retiring : Nat → Prop}
    (h : Tree loadKey keys G pending retiring s) {k : List UInt8} {n : Nat} {b : UInt8}
    (hlive : Live s.children root n) (hkey : G.label n ++ [b] <+: k)
    (hpresent : Present loadKey s k) : ∃ r, s.children n b = some r ∧
      ((∃ t, r = .leaf t ∧ loadKey t = k) ∨ ∃ c, r = .node c ∧ G.label c <+: k) := by
  obtain ⟨t, ht, rfl⟩ := hpresent
  have hn := h.labelled.route hlive ht ((prefix_append _ _).trans hkey)
  obtain ⟨b', r, hedge, hkey', hbelow⟩ := h.labelled.edge_of_below hn
  cases next_unique hkey hkey'
  refine ⟨r, hedge, hbelow.imp (fun hleaf => ⟨t, hleaf, rfl⟩) ?_⟩
  rintro ⟨c, hnode, hbelow'⟩
  exact ⟨c, hnode, (h.labelled.lt_length_of_below hbelow').1⟩

theorem Differ.not_prefix {x y : List UInt8} {m : Nat} {c : UInt8} (h : Differ x y m c) :
    ¬ x <+: y := by
  obtain ⟨front, d, rfl, hx, hy, hne⟩ := h
  exact fun hxy => hne (next_unique (hx.trans hxy) hy)

/-! ## The effects -/

theorem Shared.children_setChild_of_ne {n m : Nat} {b : UInt8} {r : Child} (hm : m ≠ n) :
    (s.apply (.setChild n b r)).children m = s.children m := by
  funext b'
  rw [s.children_setChild, if_neg fun h => hm h.1]

theorem Shared.children_link_of_ne {p m : Nat} {b : UInt8} {x : NewNode} (hm : m < s.allocated)
    (hp : m ≠ p) : (s.apply (.link p b x)).children m = s.children m := by
  funext b'
  rw [s.children_link, if_neg hm.ne, if_neg fun h => hp h.1]

theorem evolves_setChild {n : Nat} {b : UInt8} {r : Child}
    (hstored : ∀ {t}, Stored s t → Stored (s.apply (.setChild n b r)) t)
    (hlocked : isLocked (s.word n) = true) :
    Evolves G s G (s.apply (.setChild n b r)) (· = n) where
  allocated := le_rfl
  label _ := rfl
  word _ := le_rfl
  count _ := le_rfl
  stored := hstored
  unchanged _ hm := ⟨rfl, rfl, s.children_setChild_of_ne hm, rfl⟩
  changed := by
    rintro m - rfl hfree
    exact absurd hfree (not_free_of_isLocked hlocked)

theorem evolves_setPrefix {n length : Nat} {bytes : List UInt8}
    (hle : length ≤ s.prefixCount n) (hlocked : isLocked (s.word n) = true) :
    Evolves G s G (s.apply (.setPrefix n bytes length)) (· = n) where
  allocated := le_rfl
  label _ := rfl
  word _ := le_rfl
  count {m} _ := by
    rw [s.prefixCount_setPrefix]
    split
    · rename_i hm
      rw [hm]
      exact hle
    · exact le_rfl
  stored ht := ht
  unchanged {m} _ hm := ⟨rfl, by rw [s.prefixCount_setPrefix, if_neg hm], rfl, rfl⟩
  changed := by
    rintro m - rfl hfree
    exact absurd hfree (not_free_of_isLocked hlocked)

/-- A new node is linked by a thread that has locked the parent and the nodes that are entered in
another place. -/
theorem evolves_link {p : Nat} {b : UInt8} {x : NewNode} {label : List UInt8}
    {entry : Nat → Nat} {touched : Nat → Prop}
    (hstored : ∀ {t}, Stored s t → Stored (s.apply (.link p b x)) t) (hp : touched p)
    (hentry : ∀ m, m < s.allocated → ¬ touched m → entry m = G.entry m)
    (hlocked : ∀ m, touched m → isLocked (s.word m) = true) :
    Evolves G s (G.link s.allocated label entry) (s.apply (.link p b x)) touched where
  allocated := Nat.le_succ _
  label {m} hm := Function.update_of_ne hm.ne _ _
  word {m} hm := by
    rw [s.word_link, if_neg hm.ne]
  count {m} hm := by
    rw [s.prefixCount_link, if_neg hm.ne]
  stored := hstored
  unchanged {m} hm hnot := by
    have hne : m ≠ p := fun h => hnot (h ▸ hp)
    exact ⟨by rw [s.word_link, if_neg hm.ne], by rw [s.prefixCount_link, if_neg hm.ne],
      Shared.children_link_of_ne hm hne, hentry m hm hnot⟩
  changed {m} _ hm hfree := absurd hfree (not_free_of_isLocked (hlocked m hm))

/-- The words of the nodes that are held do not change. -/
theorem Mine.held_of_word {s' : Shared} (hmine : Mine s po ro pc) (hheld : pc'.held = pc.held)
    (hlt : s.allocated ≤ s'.allocated) (hword : ∀ n, n < s.allocated → s'.word n = s.word n) :
    ∀ n ∈ pc'.held, HeldNode s' n := by
  intro n hn
  obtain ⟨hn', hlocked, hobs⟩ := hmine.held n (hheld ▸ hn)
  rw [HeldNode, hword n hn']
  exact ⟨hn'.trans_le hlt, hlocked, hobs⟩

/-- A step that links a new node. -/
theorem Outcome.link {p : Nat} {b : UInt8} {old : Child} {x : NewNode} {label : List UInt8}
    {gone : Nat → Prop} (hmine : Mine s po ro pc) (h : TreeAt loadKey keys G po ro s pc)
    (hok : LinkOK loadKey keys G s p b old x tid label gone) (hgone : ¬ gone p)
    (entry : Nat → Nat) (touched : Nat → Prop)
    (habsent : ¬ Present loadKey s (loadKey tid))
    (hentry : entry s.allocated = (G.label p).length + 1)
    (hmoved : ∀ d, d < s.allocated → entry d ≠ G.entry d →
      old = .node d ∧ d ∈ pc'.pending ∧ touched d)
    (hnodes : ∀ {b' d}, x.children b' = some (.node d) → entry d = label.length + 1)
    (hp : touched p) (htouched : ∀ n, touched n → n ∈ pc.held)
    (hpending : pc.pending ⊆ pc'.pending) (hretiring : pc.retiring ⊆ pc'.retiring)
    (hgone' : ∀ m, gone m → m ∈ pc'.retiring) (hheld : pc'.held = pc.held)
    (hfacts : Stored (s.apply (.link p b x)) tid → InsertFacts loadKey
      (G.link s.allocated label entry) (s.apply (.link p b x)) (loadKey tid) tid pc') :
    Outcome loadKey keys po ro tid G s pc (G.link s.allocated label entry)
      (s.apply (.link p b x)) pc' where
  evolves := by
    refine ⟨touched, evolves_link ?_ hp ?_ ?_, fun n hn => .inl (htouched n hn)⟩
    · exact fun ht => (hok.stored h hgone _).2 (.inl ht)
    · intro m hm hnot
      by_contra hne
      exact hnot (hmoved m hm hne).2.2
    · exact fun m hm => (hmine.held m (htouched m hm)).2.1
  tree := hok.tree h hgone hentry
    (fun d hd hne => (hmoved d hd hne).imp_right fun hd' => .inl hd'.1) hnodes
    (fun _ => Or.imp_left fun hm => hpending hm) (fun _ => Or.imp_left fun hm => hretiring hm)
    fun m hm => .inl (hgone' m hm)
  facts := hfacts ((hok.stored h hgone _).2 (.inr rfl))
  held := hmine.held_of_word hheld (Nat.le_succ _) fun n hn => by rw [s.word_link, if_neg hn.ne]
  takes _ hn := .inl (hheld ▸ hn)
  owner := owner_of_word hheld fun n hn hlocked => by
    rw [s.word_link] at hlocked
    split at hlocked
    · rw [(free_initialWord _).1] at hlocked
      cases hlocked
    · rename_i hne
      exact ⟨lt_of_le_of_ne (Nat.le_of_lt_succ hn) hne, hlocked⟩
  stored := .inr ⟨habsent, hok.stored h hgone⟩
  room n _ := by
    rw [s.word_link]
    split
    · exact .inl (version_initialWord _).le
    · rename_i hn hne
      exact .inr ⟨lt_of_le_of_ne (Nat.le_of_lt_succ hn) hne, Nat.le_succ _⟩

/-! ## The new nodes -/

theorem newN4_children {bytes : List UInt8} {length : Nat} {b₁ b₂ b : UInt8} {val₁ val₂ r : Child}
    (h : (newN4 bytes length b₁ val₁ b₂ val₂).children b = some r) :
    b = b₁ ∧ r = val₁ ∨ b = b₂ ∧ r = val₂ := by
  simp only [newN4] at h
  split at h
  · exact .inl ⟨‹_›, (Option.some.inj h).symm⟩
  · split at h
    · exact .inr ⟨‹_›, (Option.some.inj h).symm⟩
    · cases h

theorem newN4_first {bytes : List UInt8} {length : Nat} {b₁ b₂ : UInt8} {val₁ val₂ : Child} :
    (newN4 bytes length b₁ val₁ b₂ val₂).children b₁ = some val₁ :=
  if_pos rfl

theorem newN4_second {bytes : List UInt8} {length : Nat} {b₁ b₂ : UInt8} {val₁ val₂ : Child}
    (hne : b₂ ≠ b₁) : (newN4 bytes length b₁ val₁ b₂ val₂).children b₂ = some val₂ :=
  (if_neg hne).trans (if_pos rfl)

theorem grown_children {n : Nat} {b b' : UInt8} {val r : Child}
    (h : (s.grown n b val).children b' = some r) : r = val ∧ b' = b ∨ s.children n b' = some r := by
  simp only [Shared.grown] at h
  split at h
  · exact .inl ⟨(Option.some.inj h).symm, ‹_›⟩
  · exact .inr h

/-- The bytes that a new node stores of its prefix, when they are taken from a longer word. -/
theorem stored_of_prefix {front x : List UInt8} {m n : Nat} (h : front <+: x)
    (hn : front.length = m + n) :
    stored (x.drop m) n = (front.drop m).take maxStoredPrefixLength := by
  have hfront : front.drop m = (x.drop m).take n := by
    rw [prefix_iff_eq_take.1 h, hn, drop_take, Nat.add_sub_cancel_left]
  rw [stored, hfront, take_take, min_comm]

section Nodes

variable (hmine : Mine s po ro pc) (h : TreeAt loadKey keys G po ro s pc)
  (hk : keys (loadKey tid))
include hmine h hk

variable (torn) in
/-- The node that is linked in front of a node. -/
theorem linkOK_split {sp : Split} (hpc : pc = .linkSplit sp)
    (hparent : SplitParent G s (loadKey tid) sp)
    (hready : SplitReady G s (loadKey tid) sp.node sp.level sp.i sp.nonMatchingKey
      sp.remainingPrefix) :
    LinkOK loadKey keys G s sp.parent.node sp.parent.key (.node sp.node)
      (newN4 (s.prefixBytes sp.node) sp.i (keyByte torn (loadKey tid) (sp.level + sp.i))
        (.leaf tid) sp.nonMatchingKey (.node sp.node))
      tid ((G.label sp.node).take (sp.level + sp.i)) fun _ => False := by
  subst hpc
  have hlive : Live s.children root sp.parent.node := hmine.live h mem_cons_self not_mem_nil
  have hsettled : G.entry sp.node = sp.level := by
    rw [hparent.level]
    exact (Tree.entry h hlive hparent.edge).symm
  have hbytes : s.prefixBytes sp.node =
      ((G.label sp.node).drop sp.level).take maxStoredPrefixLength := by
    rw [← hsettled]
    exact Tree.bytes h hparent.lt (hmine.not_pending
      (mem_cons_of_mem _ (mem_singleton_self _)) not_mem_nil)
  obtain ⟨front, d, hfront, hlabel, hkey, hne⟩ := hready.differ
  have hlt := hready.differ.lt
  have hlength : ((G.label sp.node).take (sp.level + sp.i)).length = sp.level + sp.i :=
    length_take_of_le hlt.1.le
  have htake : (G.label sp.node).take (sp.level + sp.i) = front := by
    rw [← hfront, ← prefix_iff_eq_take.1 ((prefix_append _ _).trans hlabel)]
  have hd : keyByte torn (loadKey tid) (sp.level + sp.i) = d := by
    have hbyte := getElem?_of_append hkey
    rw [hfront, keyByte_eq torn hlt.2] at hbyte
    exact Option.some.inj hbyte
  rw [hd]
  refine
    { edge := hparent.edge
      live := hlive
      behind := ?_
      leaf := ⟨d, newN4_first⟩
      keeps := .inl ⟨_, newN4_second hne⟩
      old_or_new := ?_
      nodes := ?_
      leaves := ?_
      keys := ?_
      count := ?_
      bytes := ?_
      fits := ?_ }
  · refine prefix_of_prefix_length_le (Tree.labelled h |>.node hparent.edge) (List.take_prefix ..) ?_
    rw [hlength, length_append, length_singleton, ← hparent.level]
    exact Nat.le_add_right _ _
  · intro b' r hr
    rcases newN4_children hr with ⟨-, hr'⟩ | ⟨-, hr'⟩
    · exact .inl hr'
    · exact .inr ⟨sp.parent.node, sp.parent.key, .root, hr' ▸ hparent.edge⟩
  · intro b' m hr
    rcases newN4_children hr with ⟨-, hr'⟩ | ⟨rfl, hr'⟩
    · cases hr'
    · cases hr'
      rw [htake]
      exact hlabel
  · intro b' t hr
    rcases newN4_children hr with ⟨rfl, hr'⟩ | ⟨-, hr'⟩
    · cases hr'
      rw [htake]
      exact hkey
    · cases hr'
  · intro b' t hr
    rcases newN4_children hr with ⟨-, hr'⟩ | ⟨-, hr'⟩
    · cases hr'
      exact hk
    · cases hr'
  · rw [hlength, ← hparent.level]
    rfl
  · rw [← hparent.level]
    change stored (s.prefixBytes sp.node) sp.i = _
    rw [hbytes, ← stored_of_prefix (List.take_prefix (sp.level + sp.i) (G.label sp.node)) hlength,
      stored, stored, take_take, min_assoc, min_self]
  · exact newN4_fits

/-- The larger node that takes the place of a full one. -/
theorem linkOK_grow {g : Grow} (hpc : pc = .growLink g)
    (hparent : GrowParent G s (loadKey tid) g) (hchild : s.children g.node g.nodeKey = none) :
    LinkOK loadKey keys G s g.parent.node g.parent.key (.node g.node)
      (s.grown g.node g.nodeKey (.leaf tid)) tid (G.label g.node) (· = g.node) := by
  subst hpc
  have hlive : Live s.children root g.parent.node := hmine.live h mem_cons_self not_mem_nil
  have hentry : (G.label g.parent.node).length + 1 = G.entry g.node :=
    Tree.entry h hlive hparent.edge
  have hnot := hmine.not_pending (n := g.node) (mem_cons_of_mem _ (mem_singleton_self _))
    not_mem_nil
  have hcount := Tree.count h hparent.lt hnot
  refine
    { edge := hparent.edge
      live := hlive
      behind := Tree.labelled h |>.node hparent.edge
      leaf := ⟨g.nodeKey, if_pos rfl⟩
      keeps := .inr ⟨g.node, rfl, rfl, ?_⟩
      old_or_new := ?_
      nodes := ?_
      leaves := ?_
      keys := ?_
      count := ?_
      bytes := ?_
      fits := ?_ }
  · intro b' r hr
    refine (if_neg ?_).trans hr
    rintro rfl
    rw [hchild] at hr
    cases hr
  · intro b' r hr
    rcases grown_children hr with ⟨hr', -⟩ | hr'
    · exact .inl hr'
    · exact .inr ⟨g.node, b', Live.root.child hparent.edge, hr'⟩
  · intro b' m hr
    rcases grown_children hr with ⟨hr', -⟩ | hr'
    · cases hr'
    · exact Tree.labelled h |>.node hr'
  · intro b' t hr
    rcases grown_children hr with ⟨hr', rfl⟩ | hr'
    · cases hr'
      exact hparent.key
    · exact Tree.labelled h |>.leaf hr'
  · intro b' t hr
    rcases grown_children hr with ⟨hr', -⟩ | hr'
    · cases hr'
      exact hk
    · exact Tree.keys h hr'
  · rw [hentry]
    exact hcount
  · rw [hentry]
    change stored (s.prefixBytes g.node) (s.prefixCount g.node) = _
    rw [Tree.bytes h hparent.lt hnot, stored, take_take]
    have hlength : ((G.label g.node).drop (G.entry g.node)).length = s.prefixCount g.node := by
      rw [length_drop]
      omega
    rw [← hlength, min_assoc, min_self, min_comm, ← take_take, take_length]
  · refine (countChildren_le_succ (b := g.nodeKey) fun b' hb' => ?_).trans
      (NTypes.succ_le_bigger (Tree.fits h hparent.lt) (countChildren_lt hchild))
    obtain ⟨r, hr⟩ := Option.isSome_iff_exists.1 hb'
    rcases grown_children hr with ⟨-, heq⟩ | hr'
    · exact .inr heq
    · exact .inl (Option.isSome_iff_exists.2 ⟨r, hr'⟩)

variable (torn) in
/-- The node that takes the place of a leaf. -/
theorem linkOK_leaf {p : Place} {other : TID} {prefixLength : Nat} {c : UInt8}
    (hpc : pc = .linkLeaf p other prefixLength) (hplace : PlaceAt G (loadKey tid) p)
    (hchild : s.children p.at_.node p.nodeKey = some (.leaf other))
    (hdiffer : Differ (loadKey other) (loadKey tid) (p.nextLevel + 1 + prefixLength) c) :
    LinkOK loadKey keys G s p.at_.node p.nodeKey (.leaf other)
      (newN4 ((loadKey tid).drop (p.nextLevel + 1)) prefixLength
        (keyByte torn (loadKey tid) (p.nextLevel + 1 + prefixLength)) (.leaf tid)
        (keyByte torn (loadKey other) (p.nextLevel + 1 + prefixLength)) (.leaf other))
      tid ((loadKey tid).take (p.nextLevel + 1 + prefixLength)) fun _ => False := by
  subst hpc
  have hlive : Live s.children root p.at_.node :=
    hmine.live h (mem_singleton_self _) not_mem_nil
  have hlt := hdiffer.lt
  obtain ⟨front, d, hfront, hother, hkey, hne⟩ := hdiffer
  have hlength : ((loadKey tid).take (p.nextLevel + 1 + prefixLength)).length =
      p.nextLevel + 1 + prefixLength :=
    length_take_of_le hlt.2.le
  have htake : (loadKey tid).take (p.nextLevel + 1 + prefixLength) = front := by
    rw [← hfront, ← prefix_iff_eq_take.1 ((prefix_append _ _).trans hkey)]
  have hd : keyByte torn (loadKey tid) (p.nextLevel + 1 + prefixLength) = d := by
    have hbyte := getElem?_of_append hkey
    rw [hfront, keyByte_eq torn hlt.2] at hbyte
    exact Option.some.inj hbyte
  have hc : keyByte torn (loadKey other) (p.nextLevel + 1 + prefixLength) = c := by
    have hbyte := getElem?_of_append hother
    rw [hfront, keyByte_eq torn hlt.1] at hbyte
    exact Option.some.inj hbyte
  rw [hd, hc]
  refine
    { edge := hchild
      live := hlive
      behind := ?_
      leaf := ⟨d, newN4_first⟩
      keeps := .inl ⟨_, newN4_second hne⟩
      old_or_new := ?_
      nodes := ?_
      leaves := ?_
      keys := ?_
      count := ?_
      bytes := ?_
      fits := ?_ }
  · refine prefix_of_prefix_length_le hplace.key (List.take_prefix ..) ?_
    rw [hlength, length_append, length_singleton, ← hplace.nextLevel]
    exact Nat.le_add_right _ _
  · intro b' r hr
    rcases newN4_children hr with ⟨-, hr'⟩ | ⟨-, hr'⟩
    · exact .inl hr'
    · exact .inr ⟨p.at_.node, p.nodeKey, .root, hr' ▸ hchild⟩
  · intro b' m hr
    rcases newN4_children hr with ⟨-, hr'⟩ | ⟨-, hr'⟩
    · cases hr'
    · cases hr'
  · intro b' t hr
    rw [htake]
    rcases newN4_children hr with ⟨rfl, hr'⟩ | ⟨rfl, hr'⟩
    · cases hr'
      exact hkey
    · cases hr'
      exact hother
  · intro b' t hr
    rcases newN4_children hr with ⟨-, hr'⟩ | ⟨-, hr'⟩
    · cases hr'
      exact hk
    · cases hr'
      exact Tree.keys h hchild
  · rw [hlength, ← hplace.nextLevel]
    rfl
  · rw [← hplace.nextLevel]
    exact stored_of_prefix (List.take_prefix ..) hlength
  · exact newN4_fits

end Nodes

/-! ## All steps -/

section Steps

variable (hmine : Mine s po ro pc) (h : TreeAt loadKey keys G po ro s pc)
  (hk : keys (loadKey tid))
include hmine h

theorem insertLeaf_ok (hk : keys (loadKey tid)) {p : Place} (hpc : pc = .insertLeaf p)
    (hfacts : InsertFacts loadKey G s (loadKey tid) tid pc) :
    Outcome loadKey keys po ro tid G s pc G
      (s.apply (.setChild p.at_.node p.nodeKey (.leaf tid))) (.unlock p.at_.node) := by
  subst hpc
  obtain ⟨hlt, hplace, hnone, hfull⟩ := hfacts
  have hlive : Live s.children root p.at_.node :=
    hmine.live h (mem_singleton_self _) not_mem_nil
  have hlocked := (hmine.held p.at_.node (mem_singleton_self _)).2.1
  have hstored := Tree.stored_setChild (t := tid) h hlt hlive hnone
  refine
    { evolves := ⟨(· = p.at_.node), ?_, ?_⟩
      tree := ?_
      facts := ⟨tid, (hstored tid).2 (.inr rfl), rfl⟩
      held := hmine.held_of_word rfl le_rfl fun n _ => rfl
      takes := fun n hn => .inl hn
      owner := owner_of_word rfl fun n hn hlocked => ⟨hn, hlocked⟩
      stored := .inr ⟨?_, hstored⟩
      room := fun n hn => .inr ⟨hn, Nat.le_succ _⟩ }
  · exact evolves_setChild (fun ht => (hstored _).2 (.inl ht)) hlocked
  · rintro n rfl
    exact .inl (mem_singleton_self _)
  · exact Tree.setChild h hlt hlive hnone hplace.key hk hfull (fun _ hn => hn) fun _ hn => hn
  · intro hpresent
    obtain ⟨r, hr, -⟩ := Tree.edge_of_present h hlive hplace.key hpresent
    rw [hnone] at hr
    cases hr

include hk

theorem linkSplit_ok {sp : Split} (hpc : pc = .linkSplit sp)
    (hfacts : InsertFacts loadKey G s (loadKey tid) tid pc) :
    ∃ G', Outcome loadKey keys po ro tid G s pc G'
      (s.apply (.link sp.parent.node sp.parent.key
        (newN4 (s.prefixBytes sp.node) sp.i (keyByte torn (loadKey tid) (sp.level + sp.i))
          (.leaf tid) sp.nonMatchingKey (.node sp.node)))) (.unlockParent sp) := by
  subst hpc
  obtain ⟨hparent, hready⟩ := hfacts
  have hok := linkOK_split torn hmine h hk rfl hparent hready
  have hlt := hready.differ.lt.1
  have hne : sp.parent.node ≠ sp.node := fun heq =>
    absurd (Tree.label_lt h hparent.edge) (by rw [heq]; exact lt_irrefl _)
  -- The node is entered behind the new node.
  refine ⟨_, .link hmine h hok (fun hgone => hgone) (Function.update
      (Function.update G.entry s.allocated sp.level) sp.node (sp.level + sp.i + 1))
    (fun n => n = sp.parent.node ∨ n = sp.node) ?_ ?_ ?_ ?_ (.inl rfl) ?_
    (nil_subset _) (Subset.refl _) (fun _ hgone => hgone.elim) rfl ?_⟩
  · intro hpresent
    obtain ⟨r, hr, hbelow⟩ := Tree.edge_of_present h hok.live hparent.key hpresent
    rw [hparent.edge] at hr
    cases hr
    rcases hbelow with ⟨t, hleaf, -⟩ | ⟨c, hnode, hlabel⟩
    · cases hleaf
    · cases hnode
      exact hready.differ.not_prefix hlabel
  · rw [Function.update_of_ne hparent.lt.ne', Function.update_self, hparent.level]
  · intro d hd hmoved
    have hnode : d = sp.node := by
      by_contra hne'
      exact hmoved (by rw [Function.update_of_ne hne', Function.update_of_ne hd.ne])
    rw [hnode]
    exact ⟨rfl, mem_singleton_self _, .inr rfl⟩
  · intro b' d hr
    rw [length_take_of_le hlt.le]
    rcases newN4_children hr with ⟨-, hr'⟩ | ⟨-, hr'⟩
    · cases hr'
    · cases hr'
      exact Function.update_self ..
  · rintro n (rfl | rfl)
    · exact mem_cons_self
    · exact mem_cons_of_mem _ (mem_singleton_self _)
  · intro hstored
    have hlabel : (G.link s.allocated ((G.label sp.node).take (sp.level + sp.i))
        (Function.update (Function.update G.entry s.allocated sp.level) sp.node
          (sp.level + sp.i + 1))).label sp.node = G.label sp.node :=
      Function.update_of_ne hparent.lt.ne ..
    refine ⟨⟨hne, hparent.ne_root, Nat.lt_succ_of_lt hparent.lt, Function.update_self .., ?_, ?_,
      ?_⟩, hstored⟩
    · rw [hlabel]
      exact hlt
    · rw [hlabel, s.prefixCount_link, if_neg hparent.lt.ne]
      exact hready.count
    · rw [hlabel, s.prefixCount_link, if_neg hparent.lt.ne]
      exact hready.remaining

theorem growLink_ok {g : Grow} (hpc : pc = .growLink g)
    (hfacts : InsertFacts loadKey G s (loadKey tid) tid pc) :
    ∃ G', Outcome loadKey keys po ro tid G s pc G'
      (s.apply (.link g.parent.node g.parent.key (s.grown g.node g.nodeKey (.leaf tid))))
      (.growObsolete g) := by
  subst hpc
  obtain ⟨hparent, hchild⟩ := hfacts
  have hok := linkOK_grow hmine h hk rfl hparent hchild
  have hlive : Live s.children root g.node := hok.live.child hparent.edge
  have hne : g.parent.node ≠ g.node := fun heq =>
    absurd (Tree.label_lt h hparent.edge) (by rw [heq]; exact lt_irrefl _)
  refine ⟨_, .link hmine h hok hne
    (Function.update G.entry s.allocated ((G.label g.parent.node).length + 1))
    (· = g.parent.node) ?_ (Function.update_self ..) ?_ ?_ rfl ?_ (Subset.refl _)
    (nil_subset _) ?_ rfl fun hstored => ⟨hne, hstored⟩⟩
  · intro hpresent
    obtain ⟨r, hr, -⟩ := Tree.edge_of_present h hlive hparent.key hpresent
    rw [hchild] at hr
    cases hr
  · exact fun d hd hmoved => absurd (Function.update_of_ne hd.ne ..) hmoved
  · intro b' d hr
    rcases grown_children hr with ⟨hr', -⟩ | hr'
    · cases hr'
    · rw [Function.update_of_ne (Tree.lt h hr').ne]
      exact (Tree.entry h hlive hr').symm
  · rintro n rfl
    exact mem_cons_self
  · rintro m rfl
    exact mem_singleton_self _

theorem linkLeaf_ok {p : Place} {other : TID} {prefixLength : Nat}
    (hpc : pc = .linkLeaf p other prefixLength)
    (hfacts : InsertFacts loadKey G s (loadKey tid) tid pc) :
    ∃ G', Outcome loadKey keys po ro tid G s pc G'
      (s.apply (.link p.at_.node p.nodeKey
        (newN4 ((loadKey tid).drop (p.nextLevel + 1)) prefixLength
          (keyByte torn (loadKey tid) (p.nextLevel + 1 + prefixLength)) (.leaf tid)
          (keyByte torn (loadKey other) (p.nextLevel + 1 + prefixLength)) (.leaf other))))
      (.unlock p.at_.node) := by
  subst hpc
  obtain ⟨hlt, hplace, hchild, c, hdiffer⟩ := hfacts
  have hok := linkOK_leaf torn hmine h hk rfl hplace hchild hdiffer
  refine ⟨_, .link hmine h hok (fun hgone => hgone)
    (Function.update G.entry s.allocated ((G.label p.at_.node).length + 1))
    (· = p.at_.node) ?_ (Function.update_self ..) ?_ ?_ rfl ?_ (Subset.refl _)
    (Subset.refl _) (fun _ hgone => hgone.elim) rfl fun hstored => ⟨tid, hstored, rfl⟩⟩
  · intro hpresent
    obtain ⟨r, hr, hbelow⟩ := Tree.edge_of_present h hok.live hplace.key hpresent
    rw [hchild] at hr
    cases hr
    rcases hbelow with ⟨t, hleaf, hkey⟩ | ⟨d, hnode, -⟩
    · cases hleaf
      rw [hkey] at hdiffer
      exact hdiffer.not_prefix (prefix_refl _)
    · cases hnode
  · exact fun d hd hmoved => absurd (Function.update_of_ne hd.ne ..) hmoved
  · intro b' d hr
    rcases newN4_children hr with ⟨-, hr'⟩ | ⟨-, hr'⟩
    · cases hr'
    · cases hr'
  · rintro n rfl
    exact mem_singleton_self _

omit hk in
theorem setPrefix_ok {sp : Split} (hpc : pc = .setPrefix sp)
    (hfacts : InsertFacts loadKey G s (loadKey tid) tid pc) :
    Outcome loadKey keys po ro tid G s pc G
      (s.apply (.setPrefix sp.node sp.remainingPrefix (s.prefixCount sp.node - (sp.i + 1))))
      (.unlock sp.node) := by
  subst hpc
  obtain ⟨hdone, hstored⟩ := hfacts
  have hlocked := (hmine.held sp.node (mem_singleton_self _)).2.1
  refine
    { evolves := ⟨(· = sp.node), evolves_setPrefix (Nat.sub_le _ _) hlocked, ?_⟩
      tree := ?_
      facts := ⟨tid, hstored, rfl⟩
      held := hmine.held_of_word rfl le_rfl fun n _ => rfl
      takes := fun n hn => .inl hn
      owner := owner_of_word rfl fun n hn hlocked => ⟨hn, hlocked⟩
      stored := .inl fun _ => Iff.rfl
      room := fun n hn => .inr ⟨hn, Nat.le_succ _⟩ }
  · rintro n rfl
    exact .inl (mem_singleton_self _)
  · have hcount := hdone.count
    have hle := hdone.le
    refine Tree.setPrefix h hdone.ne_root ?_ ?_ (fun m hm => ?_) fun _ hm => hm
    · rw [hdone.entry]
      omega
    · rw [hdone.entry]
      exact hdone.remaining
    · exact Or.imp_left fun hmem => absurd (mem_singleton.1 hmem) hm

end Steps

/-- Every step of an insert leaves a tree behind, and leaves the other threads their nodes. -/
theorem insertStep_ok (hkeys : KeySet keys) (hk : keys (loadKey tid)) (hmine : Mine s po ro pc)
    (h : TreeAt loadKey keys G po ro s pc)
    (hroom : ∀ n, n < s.allocated → version (s.word n) + 1 < 2 ^ 60)
    (hfacts : InsertFacts loadKey G s (loadKey tid) tid pc) {e : Effect}
    (hstep : insertStep loadKey tid s torn pc = some (e, pc')) :
    ∃ G', Outcome loadKey keys po ro tid G s pc G' (s.apply e) pc' := by
  by_cases hlock : pc.isLock = true
  · exact ⟨G, lockStep_ok hkeys hk hmine h hroom hfacts hlock hstep⟩
  by_cases hread : pc.isRead = true
  · obtain ⟨rfl, hknows⟩ := readStep_facts h hmine.settled hkeys hk hread hstep hfacts
    have hheld : pc.held = [] := by
      cases pc <;> first | rfl | cases hread
    have hpending := subset_nil.1 (hheld ▸ pc.pending_subset)
    have hretiring := subset_nil.1 (hheld ▸ pc.retiring_subset)
    refine ⟨G, .nothing hmine h ?_ ?_ ?_ hknows.facts⟩
    · rw [hknows.held, hheld]
    · rw [hpending]
      exact nil_subset _
    · rw [hretiring]
      exact nil_subset _
  cases pc with
  | linkSplit sp =>
      cases hstep
      exact linkSplit_ok hmine h hk rfl hfacts
  | setPrefix sp =>
      cases hstep
      exact ⟨G, setPrefix_ok hmine h rfl hfacts⟩
  | insertLeaf p =>
      cases hstep
      exact ⟨G, insertLeaf_ok hmine h hk rfl hfacts⟩
  | growLink g =>
      cases hstep
      exact growLink_ok hmine h hk rfl hfacts
  | linkLeaf p other prefixLength =>
      cases hstep
      exact linkLeaf_ok hmine h hk rfl hfacts
  | done => cases hstep
  | crashed => cases hstep
  | _ => first | exact absurd rfl hlock | exact absurd rfl hread

end ARTOLC
end TLI
