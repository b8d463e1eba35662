import TLI.Competitors.ART.BulkInsert
import TLI.Competitors.ART.Insert
import TLI.Competitors.ART.Shape

/-!
# Canonical — the shape of a tree follows from its keys

A well-formed tree in which every inner node has the smallest layout that holds its children is
determined by its elements, up to the slots of a `Node48`.  Bulk loading and insertion both keep
to that layout, so they build the same tree, in whatever order the keys are inserted.
-/

namespace TLI
namespace ART

open Loop List Lexicographic

/-! ## Trees of the same shape -/

/-- `*findChild(node, keyByte)`, if it is not `NULL`. -/
def childAt (count : Nat) (lay : Layout) (child : Nat → Node) (keyByte : UInt8) : Option Node :=
  match findChild count lay keyByte with
  | some s => if (child s).present then some (child s) else none
  | none => none

/-- Equal but for the slots in which the children of a node stand. -/
inductive Same : Node → Node → Prop
  | null : Same .null .null
  | leaf (e : Element) : Same (.leaf e) (.leaf e)
  | inner {hdr hdr' : Header} {lay lay' : Layout} {child child' : Nat → Node}
      (prefixLength : hdr.prefixLength = hdr'.prefixLength)
      (prefixBytes : ∀ i, i < min hdr.prefixLength maxPrefixLength →
        hdr.prefixBytes i = hdr'.prefixBytes i)
      (type : lay.type = lay'.type) (count : hdr.count = hdr'.count)
      (bytes : ∀ b, (childAt hdr.count lay child b).isSome =
        (childAt hdr'.count lay' child' b).isSome)
      (kids : ∀ b m m', childAt hdr.count lay child b = some m →
        childAt hdr'.count lay' child' b = some m' → Same m m') :
      Same (.inner hdr lay child) (.inner hdr' lay' child')

theorem LayoutOK.childAt_iff {count : Nat} {lay : Layout} {child : Nat → Node}
    (hok : LayoutOK count lay (presentIn child)) {b : UInt8} {m : Node} :
    childAt count lay child b = some m ↔ (b, m) ∈ children count lay child := by
  rw [childAt]
  constructor
  · intro h
    split at h
    · rename_i s hfind
      split at h
      · rename_i hpresent
        cases h
        exact mem_map.2 ⟨(b, s), hok.findChild_iff.2 ⟨hfind, hpresent⟩, rfl⟩
      · cases h
    · cases h
  · intro h
    obtain ⟨⟨b', s⟩, hs, heq⟩ := mem_map.1 h
    cases heq
    obtain ⟨hfind, hpresent⟩ := hok.findChild_iff.1 hs
    rw [hfind]
    exact if_pos hpresent

/-! ## The smallest layout -/

/-- The layout that the number of children calls for. -/
def Layout.Fits (count : Nat) : Layout → Prop
  | .node4 _ => count ≤ 4
  | .node16 _ => 4 < count ∧ count ≤ 16
  | .node48 _ => 16 < count ∧ count ≤ 48
  | .node256 => 48 < count

/-- Every inner node below has the smallest layout. -/
inductive Canonical : Node → Prop
  | null : Canonical .null
  | leaf (e : Element) : Canonical (.leaf e)
  | inner {hdr : Header} {lay : Layout} {child : Nat → Node} (fits : lay.Fits hdr.count)
      (kids : ∀ s, Canonical (child s)) : Canonical (.inner hdr lay child)

theorem canonical_of_mem {count : Nat} {lay : Layout} {child : Nat → Node}
    (h : ∀ s, Canonical (child s)) {b : UInt8} {m : Node}
    (hmem : (b, m) ∈ children count lay child) : Canonical m := by
  obtain ⟨⟨b', s⟩, -, heq⟩ := mem_map.1 hmem
  cases heq
  exact h s

theorem Layout.Fits.type_eq {count : Nat} {lay lay' : Layout} (h : lay.Fits count)
    (h' : lay'.Fits count) : lay.type = lay'.type := by
  cases lay <;> cases lay' <;> simp only [Layout.Fits] at h h' <;> first | rfl | omega

/-! ## One tree for each set of elements -/

section Unique

variable {p path : List UInt8} {hdr : Header} {lay : Layout} {child : Nat → Node}

/-- The elements behind a byte are those of the child for it. -/
theorem filter_elems_inner (hok : LayoutOK hdr.count lay (presentIn child))
    (hkids : ∀ b n, (b, n) ∈ children hdr.count lay child → WF (p ++ path ++ [b]) n) {b : UInt8}
    {m : Node} (hmem : (b, m) ∈ children hdr.count lay child) :
    (elems (.inner hdr lay child)).filter
      (fun e => decide (byteAt e.key (p ++ path).length = b)) = elems m := by
  have hbyte : ∀ c n, (c, n) ∈ children hdr.count lay child → ∀ e ∈ elems n,
      byteAt e.key (p ++ path).length = c :=
    fun c n hn e he => byteAt_length ((hkids c n hn).prefix_key he)
  obtain ⟨front, back, hsplit⟩ := append_of_mem hmem
  have hsorted := hok.children_sorted
  rw [hsplit] at hsorted hbyte
  have hnone : ∀ kids : List (UInt8 × Node),
      (∀ cn ∈ kids, cn ∈ front ++ (b, m) :: back ∧ cn.1 ≠ b) →
      (kids.flatMap fun bn => elems bn.2).filter
        (fun e => decide (byteAt e.key (p ++ path).length = b)) = [] := by
    intro kids h
    refine filter_eq_nil_iff.2 fun e he => ?_
    obtain ⟨⟨c, n⟩, hcn, hen⟩ := mem_flatMap.1 he
    obtain ⟨hin, hne⟩ := h _ hcn
    rw [hbyte c n hin e hen]
    simpa using hne
  obtain ⟨hfront, hback, hcross⟩ := pairwise_append.1 hsorted
  rw [elems_inner, hsplit, flatMap_append, flatMap_cons, filter_append, filter_append,
    hnone front fun cn hcn => ⟨mem_append_left _ hcn, ne_of_lt (hcross cn hcn _ mem_cons_self)⟩,
    hnone back fun cn hcn => ⟨mem_append_right _ (mem_cons_of_mem _ hcn),
      (ne_of_lt ((pairwise_cons.1 hback).1 cn hcn)).symm⟩,
    filter_eq_self.2 fun e he => decide_eq_true (hbyte b m (mem_append_right _ mem_cons_self) e he),
    nil_append, append_nil]

/-- The keys below an inner node go on with different bytes behind its compressed path. -/
theorem exists_bytes_ne (hok : LayoutOK hdr.count lay (presentIn child)) (hcount : 2 ≤ hdr.count)
    (hkids : ∀ b n, (b, n) ∈ children hdr.count lay child → WF (p ++ path ++ [b]) n) :
    ∃ e ∈ elems (.inner hdr lay child), ∃ e' ∈ elems (.inner hdr lay child),
      byteAt e.key (p ++ path).length ≠ byteAt e'.key (p ++ path).length := by
  have hlen : (children hdr.count lay child).length = hdr.count := by
    rw [children, length_map, hok.length_eq]
  have helems : ∀ b m, (b, m) ∈ children hdr.count lay child →
      ∃ e ∈ elems (.inner hdr lay child), byteAt e.key (p ++ path).length = b := by
    intro b m hmem
    obtain ⟨e, he⟩ := exists_mem_of_ne_nil _ (hkids b m hmem).elems_ne_nil
    refine ⟨e, ?_, byteAt_length ((hkids b m hmem).prefix_key he)⟩
    rw [elems_inner]
    exact mem_flatMap.2 ⟨_, hmem, he⟩
  rcases hsplit : children hdr.count lay child with _ | ⟨x, _ | ⟨y, rest⟩⟩
  · rw [hsplit, length_nil] at hlen
    omega
  · rw [hsplit, length_singleton] at hlen
    omega
  · have hsorted := hok.children_sorted
    rw [hsplit] at hsorted helems
    have hlt := (pairwise_cons.1 hsorted).1 y mem_cons_self
    obtain ⟨e, he, hx⟩ := helems x.1 x.2 mem_cons_self
    obtain ⟨e', he', hy⟩ := helems y.1 y.2 (mem_cons_of_mem x mem_cons_self)
    exact ⟨e, he, e', he', by rw [hx, hy]; exact ne_of_lt hlt⟩

/-- No longer path leads to all the keys below an inner node. -/
theorem length_path_le (hok : LayoutOK hdr.count lay (presentIn child)) (hcount : 2 ≤ hdr.count)
    (hkids : ∀ b n, (b, n) ∈ children hdr.count lay child → WF (p ++ path ++ [b]) n)
    {path' : List UInt8} (hall : ∀ e ∈ elems (.inner hdr lay child), p ++ path' <+: e.key) :
    path'.length ≤ path.length := by
  by_contra hlt
  obtain ⟨e, he, e', he', hne⟩ := exists_bytes_ne hok hcount hkids
  have hinside : (p ++ path).length < (p ++ path').length := by
    simp only [length_append]
    omega
  exact hne ((byteAt_of_initial (hall e he) hinside).trans
    (byteAt_of_initial (hall e' he') hinside).symm)

theorem elems_ne_singleton (hok : LayoutOK hdr.count lay (presentIn child))
    (hcount : 2 ≤ hdr.count)
    (hkids : ∀ b n, (b, n) ∈ children hdr.count lay child → WF (p ++ path ++ [b]) n) (e : Element) :
    ¬ elems (.inner hdr lay child) ~ [e] := by
  intro hperm
  obtain ⟨e₁, he₁, e₂, he₂, hne⟩ := exists_bytes_ne hok hcount hkids
  rw [hperm.mem_iff, mem_singleton] at he₁ he₂
  exact hne (by rw [he₁, he₂])

end Unique

/-- The elements determine the path and, behind each byte, the elements of the child. -/
theorem path_eq {p path path' : List UInt8} {hdr hdr' : Header} {lay lay' : Layout}
    {child child' : Nat → Node} (hok : LayoutOK hdr.count lay (presentIn child))
    (hcount : 2 ≤ hdr.count)
    (hkids : ∀ b n, (b, n) ∈ children hdr.count lay child → WF (p ++ path ++ [b]) n)
    (hok' : LayoutOK hdr'.count lay' (presentIn child')) (hcount' : 2 ≤ hdr'.count)
    (hkids' : ∀ b n, (b, n) ∈ children hdr'.count lay' child' → WF (p ++ path' ++ [b]) n)
    (hperm : elems (.inner hdr lay child) ~ elems (.inner hdr' lay' child')) : path = path' := by
  have hpath : ∀ e ∈ elems (.inner hdr lay child), p ++ path <+: e.key := by
    intro e he
    rw [elems_inner] at he
    obtain ⟨⟨b, m⟩, hmem, he⟩ := mem_flatMap.1 he
    exact (prefix_append _ [b]).trans ((hkids b m hmem).prefix_key he)
  have hpath' : ∀ e ∈ elems (.inner hdr' lay' child'), p ++ path' <+: e.key := by
    intro e he
    rw [elems_inner] at he
    obtain ⟨⟨b, m⟩, hmem, he⟩ := mem_flatMap.1 he
    exact (prefix_append _ [b]).trans ((hkids' b m hmem).prefix_key he)
  have hle := length_path_le hok hcount hkids fun e he => hpath' e (hperm.subset he)
  have hge := length_path_le hok' hcount' hkids' fun e he => hpath e (hperm.symm.subset he)
  obtain ⟨e, he, -⟩ := exists_bytes_ne hok hcount hkids
  have hsame : p ++ path <+: p ++ path' :=
    prefix_of_prefix_length_le (hpath e he) (hpath' e (hperm.subset he))
      (by simp only [length_append]; omega)
  exact append_cancel_left (hsame.eq_of_length_le (by simp only [length_append]; omega))

/-- Behind the same path, a child faces a child for the same byte with the same elements. -/
theorem exists_child {p path : List UInt8} {hdr hdr' : Header} {lay lay' : Layout}
    {child child' : Nat → Node} (hok : LayoutOK hdr.count lay (presentIn child))
    (hkids : ∀ b n, (b, n) ∈ children hdr.count lay child → WF (p ++ path ++ [b]) n)
    (hok' : LayoutOK hdr'.count lay' (presentIn child'))
    (hkids' : ∀ b n, (b, n) ∈ children hdr'.count lay' child' → WF (p ++ path ++ [b]) n)
    (hperm : elems (.inner hdr lay child) ~ elems (.inner hdr' lay' child')) {b : UInt8} {m : Node}
    (hmem : (b, m) ∈ children hdr.count lay child) :
    ∃ m', (b, m') ∈ children hdr'.count lay' child' ∧ elems m ~ elems m' := by
  obtain ⟨e, he⟩ := exists_mem_of_ne_nil _ (hkids b m hmem).elems_ne_nil
  have hall : e ∈ elems (.inner hdr lay child) := by
    rw [elems_inner]
    exact mem_flatMap.2 ⟨_, hmem, he⟩
  have hall' := hperm.subset hall
  rw [elems_inner] at hall'
  obtain ⟨⟨c, m'⟩, hmem', he'⟩ := mem_flatMap.1 hall'
  have hbyte : c = b := (byteAt_length ((hkids' c m' hmem').prefix_key he')).symm.trans
    (byteAt_length ((hkids b m hmem).prefix_key he))
  subst hbyte
  refine ⟨m', hmem', ?_⟩
  rw [← filter_elems_inner hok hkids hmem, ← filter_elems_inner hok' hkids' hmem']
  exact hperm.filter _

/-- Nodes with children for the same bytes have equally many. -/
theorem count_eq {hdr hdr' : Header} {lay lay' : Layout} {child child' : Nat → Node}
    (hok : LayoutOK hdr.count lay (presentIn child))
    (hok' : LayoutOK hdr'.count lay' (presentIn child'))
    (hbytes : ∀ b, (∃ m, (b, m) ∈ children hdr.count lay child) ↔
      ∃ m', (b, m') ∈ children hdr'.count lay' child') : hdr.count = hdr'.count := by
  have hnodup : ∀ {hdr : Header} {lay : Layout} {child : Nat → Node},
      LayoutOK hdr.count lay (presentIn child) →
        ((children hdr.count lay child).map Prod.fst).Nodup ∧
          ((children hdr.count lay child).map Prod.fst).length = hdr.count := by
    intro hdr lay child hok
    refine ⟨pairwise_map.2 (hok.children_sorted.imp ne_of_lt), ?_⟩
    rw [length_map, children, length_map, hok.length_eq]
  have hsame : (children hdr.count lay child).map Prod.fst ~
      (children hdr'.count lay' child').map Prod.fst := by
    refine (perm_ext_iff_of_nodup (hnodup hok).1 (hnodup hok').1).2 fun b => ?_
    simpa using hbytes b
  rw [← (hnodup hok).2, hsame.length_eq, (hnodup hok').2]

/-- Two well-formed canonical trees with the same elements have the same shape. -/
theorem WF.same {p : List UInt8} {n : Node} (h : WF p n) :
    ∀ {n'}, WF p n' → Canonical n → Canonical n' → elems n ~ elems n' → Same n n' := by
  induction h with
  | @leaf p e hkey =>
      intro n' h' _ _ hperm
      cases h' with
      | leaf hkey' =>
          rw [elems, elems, singleton_perm_singleton] at hperm
          rw [hperm]
          exact .leaf _
      | inner hstores hok hcount hkids =>
          exact absurd hperm.symm (elems_ne_singleton hok hcount hkids e)
  | @inner p path hdr lay child hstores hok hcount hkids ih =>
      intro n' h' hcanon hcanon' hperm
      cases h' with
      | leaf hkey' => exact absurd hperm (elems_ne_singleton hok hcount hkids _)
      | @inner _ path' hdr' lay' child' hstores' hok' hcount' hkids' =>
          cases path_eq hok hcount hkids hok' hcount' hkids' hperm
          cases hcanon with
          | inner fits canon =>
              cases hcanon' with
              | inner fits' canon' =>
                  have hface := fun {b m} =>
                    exists_child (b := b) (m := m) hok hkids hok' hkids' hperm
                  have hface' := fun {b m} =>
                    exists_child (b := b) (m := m) hok' hkids' hok hkids hperm.symm
                  -- Both nodes branch on the same bytes, so they have the same count and layout.
                  have hbytes : ∀ b, (∃ m, (b, m) ∈ children hdr.count lay child) ↔
                      ∃ m', (b, m') ∈ children hdr'.count lay' child' := by
                    intro b
                    constructor
                    · rintro ⟨m, hm⟩
                      exact (hface hm).imp fun _ h => h.1
                    · rintro ⟨m, hm⟩
                      exact (hface' hm).imp fun _ h => h.1
                  have hcounts := count_eq hok hok' hbytes
                  refine .inner (hstores.length_eq.trans hstores'.length_eq.symm)
                    (fun i hi => ?_) (fits.type_eq (hcounts ▸ fits')) hcounts (fun b => ?_)
                    fun b m m' hm hm' => ?_
                  · rw [hstores.length_eq, lt_min_iff] at hi
                    rw [hstores.byte_eq i hi.1 hi.2, hstores'.byte_eq i hi.1 hi.2]
                  · rw [Bool.eq_iff_iff, Option.isSome_iff_exists, Option.isSome_iff_exists]
                    simp only [hok.childAt_iff, hok'.childAt_iff]
                    exact hbytes b
                  · rw [hok.childAt_iff] at hm
                    rw [hok'.childAt_iff] at hm'
                    obtain ⟨m'', hm'', hsame⟩ := hface hm
                    cases hok'.child_unique hm' hm''
                    exact ih b m hm (hkids' b m' hm') (canonical_of_mem canon hm)
                      (canonical_of_mem canon' hm') hsame

/-! ## Growing keeps to the smallest layout -/

def IsSmallest (type : NodeType) (count : Nat) : Prop :=
  NodeType.smallest count = type

theorem growing_isSmallest : Growing IsSmallest := by
  refine ⟨fun _ => rfl, fun {type count} h hroom => ?_⟩
  cases type <;> simp only [NodeType.HasRoom] at hroom <;> grind [IsSmallest, NodeType.smallest]

theorem Layout.fits_iff {count : Nat} {lay : Layout} :
    lay.Fits count ↔ IsSmallest lay.type count := by
  rw [IsSmallest, NodeType.smallest]
  cases lay <;> simp only [Layout.Fits, Layout.type] <;> split_ifs <;>
    first | exact iff_of_true (by omega) rfl | exact iff_of_false (by omega) nofun

theorem canonical_iff {n : Node} : Canonical n ↔ Shaped IsSmallest n := by
  constructor
  · intro h
    induction h with
    | null => exact .null
    | leaf e => exact .leaf e
    | inner fits kids ih => exact .inner (Layout.fits_iff.1 fits) ih
  · intro h
    induction h with
    | null => exact .null
    | leaf e => exact .leaf e
    | inner hfits hslots ih => exact .inner (Layout.fits_iff.2 hfits) ih

/-- Insertion keeps every node in the smallest layout. -/
theorem Canonical.insert {n : Node} (h : Canonical n) (key : Nat → UInt8) (keyLength : Nat)
    (value : Element) (depth : Nat) : Canonical (insert key keyLength value n depth) :=
  canonical_iff.2 ((canonical_iff.1 h).insert growing_isSmallest key keyLength value depth)

/-- Bulk loading chooses the smallest layout. -/
theorem canonical_of_bulk_insert (fuel : Nat) {xs : List Element} {depth curDepth : Nat} {n : Node}
    (h : bulk_insert fuel xs depth curDepth = some n) : Canonical n :=
  canonical_iff.2 (bulk_insert_shaped growing_isSmallest fuel h)

/-! ## Insertion one by one -/

/-- The tree after a sequence of calls of `insert`, each with the memory behind its key. -/
def insertAll (inserts : List ((Nat → UInt8) × Element)) (tree : Node) : Node :=
  inserts.foldl (fun tree ins =>
    insert (c_str ins.2.key ins.1) (keyLength ins.2.key) ins.2 tree 0) tree

theorem canonical_insertAll (inserts : List ((Nat → UInt8) × Element)) {tree : Node}
    (h : Canonical tree) : Canonical (insertAll inserts tree) := by
  induction inserts generalizing tree with
  | nil => exact h
  | cons ins inserts ih => exact ih (h.insert _ _ _ _)

/-- The keys differ and none is a prefix of another. -/
def Independent (xs : List Element) : Prop :=
  xs.Pairwise fun e e' => ¬ e.key <+: e'.key ∧ ¬ e'.key <+: e.key

theorem Independent.perm {xs ys : List Element} (h : Independent xs) (hperm : xs ~ ys) :
    Independent ys :=
  hperm.pairwise h fun hab => hab.symm

theorem insertAll_wf : ∀ (inserts : List ((Nat → UInt8) × Element)) {tree : Node},
    WF [] tree → Independent (inserts.map Prod.snd ++ elems tree) →
      (∀ e ∈ inserts.map Prod.snd ++ elems tree, e.key.length < 2 ^ 32) →
        WF [] (insertAll inserts tree) ∧
          elems (insertAll inserts tree) ~ inserts.map Prod.snd ++ elems tree
  | [], _, hwf, _, _ => ⟨hwf, Perm.refl _⟩
  | (behind, e) :: inserts, tree, hwf, hfree, hfits => by
      rw [map_cons, cons_append] at hfree hfits ⊢
      have hfit : e.key.length < 2 ^ 32 := hfits e mem_cons_self
      have hadmits : Admits tree e.key := fun e' he' =>
        ⟨hfits e' (mem_cons_of_mem _ (mem_append_right _ he')),
          ((pairwise_cons.1 hfree).1 e' (mem_append_right _ he')).symm⟩
      obtain ⟨hwf', hperm⟩ := insert_wf hwf hfit behind (prefix_append [] _) hadmits
      have hmove : e :: (inserts.map Prod.snd ++ elems tree) ~
          inserts.map Prod.snd ++ elems (insert (c_str e.key behind) e.key.length e tree 0) :=
        perm_middle.symm.trans (hperm.symm.append_left _)
      have hstep : insertAll ((behind, e) :: inserts) tree =
          insertAll inserts (insert (c_str e.key behind) e.key.length e tree 0) := by
        rw [insertAll, foldl_cons, keyLength, Nat.mod_eq_of_lt hfit]
        rfl
      rw [hstep]
      obtain ⟨hwf'', hperm'⟩ := insertAll_wf inserts hwf' (hfree.perm hmove) fun e' he' =>
        hfits e' (hmove.mem_iff.2 he')
      exact ⟨hwf'', hperm'.trans hmove.symm⟩

/-- Insertion of at least one element into the empty tree. -/
theorem insertAll_null_wf {inserts : List ((Nat → UInt8) × Element)} (hne : inserts ≠ [])
    (hfree : Independent (inserts.map Prod.snd))
    (hfits : ∀ e ∈ inserts.map Prod.snd, e.key.length < 2 ^ 32) :
    WF [] (insertAll inserts .null) ∧
      elems (insertAll inserts .null) ~ inserts.map Prod.snd := by
  obtain ⟨⟨behind, e⟩, inserts, rfl⟩ := exists_cons_of_ne_nil hne
  have hmove : inserts.map Prod.snd ++ elems (.leaf e) ~ e :: inserts.map Prod.snd :=
    perm_append_singleton e _
  obtain ⟨hwf, hperm⟩ := insertAll_wf inserts (.leaf (prefix_append [] e.key))
    (hfree.perm hmove.symm) fun e' he' => hfits e' (hmove.mem_iff.1 he')
  exact ⟨hwf, hperm.trans hmove⟩

/-! ## Bulk loading equals insertion -/

/-- Bulk loading returns the tree that insertion builds. -/
def BuildsSame (xs : List Element) (inserts : List ((Nat → UInt8) × Element)) : Prop :=
  ∃ n, Returns (fun fuel => bulk_insert fuel xs 0 0) n ∧ Same n (insertAll inserts .null)

theorem independent_of_sorted {xs : List Element}
    (hsorted : xs.Pairwise fun e e' => e.key < e'.key)
    (hfree : xs.Pairwise fun e e' => PrefixFree e.key e'.key) : Independent xs := by
  refine hsorted.imp₂ (fun e e' hlt hpre => ?_) hfree
  exact ⟨fun h => ne_of_lt hlt (hpre (Or.inl h)), fun h => ne_of_lt hlt (hpre (Or.inr h))⟩

theorem buildsSame_of_perm {xs : List Element} {inserts : List ((Nat → UInt8) × Element)}
    (hne : xs ≠ []) (hsorted : xs.Pairwise fun e e' => e.key < e'.key)
    (hfree : xs.Pairwise fun e e' => PrefixFree e.key e'.key)
    (hfits : ∀ e ∈ xs, e.key.length < 2 ^ 32) (hperm : inserts.map Prod.snd ~ xs) :
    BuildsSame xs inserts := by
  obtain ⟨left, hleft⟩ := exists_length_bound xs
  obtain ⟨n, hreturns, hwf, helems⟩ := bulk_insert_wf left [] [] xs
    ⟨fun e _ => prefix_append [] _, hsorted, hfree⟩ (fun e he => by simpa using hleft e he) hne
  have hcanon : Canonical n := by
    obtain ⟨enough, hn⟩ := hreturns
    exact canonical_of_bulk_insert enough (hn enough le_rfl)
  have hinserts : inserts ≠ [] := by
    rintro rfl
    exact hne hperm.symm.eq_nil
  obtain ⟨hwf', helems'⟩ := insertAll_null_wf hinserts
    ((independent_of_sorted hsorted hfree).perm hperm.symm) fun e he => hfits e (hperm.subset he)
  refine ⟨n, hreturns, hwf.same hwf' hcanon (canonical_insertAll inserts .null) ?_⟩
  exact helems.trans (helems'.trans hperm).symm

/-- Three keys, inserted from the largest to the smallest. -/
theorem buildsSame_three :
    BuildsSame [⟨[1, 0], 10⟩, ⟨[1, 2, 0], 20⟩, ⟨[3, 0], 30⟩]
      [(fun _ => 0, ⟨[3, 0], 30⟩), (fun _ => 0, ⟨[1, 2, 0], 20⟩), (fun _ => 0, ⟨[1, 0], 10⟩)] := by
  apply buildsSame_of_perm
  · decide
  · decide
  · unfold PrefixFree
    decide
  · decide
  · decide

/-! ## Keys of `2^32` bytes -/

/-- Two keys that share their first byte. -/
def sharing (tail : List UInt8) : List Element :=
  [⟨1 :: 1 :: tail, 7⟩, ⟨[1, 2, 0], 8⟩]

theorem sharing_bulk_insert (tail : List UInt8) :
    Returns (fun fuel => bulk_insert fuel (sharing tail) 0 0)
      (bulkNode (bulkHeader ⟨1 :: 1 :: tail, 7⟩ 0 1 2) [1, 2]
        ((sharing tail).map .leaf)) := by
  refine ⟨3, fun fuel hfuel => ?_⟩
  obtain ⟨fuel, rfl⟩ := Nat.exists_eq_add_of_le' hfuel
  rfl

/-- If the length of the first key wraps to zero, insertion does not see the byte they share. -/
theorem not_buildsSame_of_length {tail : List UInt8} (hlength : tail.length + 2 = 2 ^ 32) :
    ¬ BuildsSame (sharing tail) ((sharing tail).map fun e => (fun _ => 0, e)) := by
  rintro ⟨n, hreturns, hsame⟩
  rw [hreturns.unique (sharing_bulk_insert tail)] at hsame
  have hwraps : keyLength (1 :: 1 :: tail) = 0 := by
    rw [keyLength, length_cons, length_cons, hlength, Nat.mod_self]
  have hmismatch : ∀ key, prefixMismatchKeys (byteAt (1 :: 1 :: tail)) 0 key 3 0 = 0 :=
    fun _ => rfl
  have hinsert : insertAll ((sharing tail).map fun e => (fun _ => 0, e)) .null =
      newNode4 0 (c_str [1, 2, 0] fun _ => 0) 1 (.leaf ⟨1 :: 1 :: tail, 7⟩) 1
        (.leaf ⟨[1, 2, 0], 8⟩) := by
    rw [insertAll, sharing, map_cons, map_cons, map_nil, foldl_cons, foldl_cons, foldl_nil, insert,
      insert]
    dsimp only
    rw [hwraps, show keyLength [1, 2, 0] = 3 from rfl, hmismatch]
    rfl
  rw [hinsert] at hsame
  cases hsame with
  | inner prefixLength => exact absurd prefixLength Nat.one_ne_zero

theorem not_buildsSame_long :
    let xs := sharing (replicate (2 ^ 32 - 3) 1 ++ [0])
    (xs ≠ [] ∧ xs.Pairwise (fun e e' => e.key < e'.key) ∧
        xs.Pairwise fun e e' => PrefixFree e.key e'.key) ∧
      ¬ BuildsSame xs (xs.map fun e => (fun _ => 0, e)) := by
  have hparts : ∀ tail : List UInt8, Parts [1] (1 :: 1 :: tail) [1, 2, 0] 1 2 :=
    fun tail => ⟨⟨tail, rfl⟩, ⟨[0], rfl⟩, by decide⟩
  refine ⟨⟨cons_ne_nil _ _, pairwise_pair.2 ((hparts _).lt (by decide)),
    pairwise_pair.2 (hparts _).prefixFree⟩, not_buildsSame_of_length ?_⟩
  rw [length_append, length_replicate, length_singleton]
  exact Nat.sub_add_cancel (by decide : 3 ≤ 2 ^ 32)

end ART
end TLI
