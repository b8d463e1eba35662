import TLI.Competitors.ART.Lookup

/-!
# Insert — insertion of a key keeps a subtree well-formed and adds one element

A key whose way leaves the tree does so at a leaf, inside a compressed path, or at a node without a
child for its byte.  In the first two cases a new `Node4` is put where the ways part.
-/

namespace TLI
namespace ART

open Loop List Lexicographic

/-- The bytes that two keys share behind a common path. -/
theorem prefixMismatchKeys_eq {p front key₁ key₂ : List UInt8} {x y : UInt8}
    (hparts : Parts (p ++ front) key₁ key₂ x y) (h₁ : key₁.length < 2 ^ 32)
    (h₂ : key₂.length < 2 ^ 32) (behind : Nat → UInt8) :
    prefixMismatchKeys (byteAt key₁) (keyLength key₁) (c_str key₂ behind) key₂.length p.length =
      front.length := by
  have hx := byteAt_length hparts.left
  have hy := byteAt_length hparts.right
  have hle₁ := hparts.left.length_le
  have hle₂ := hparts.right.length_le
  simp only [length_append, length_singleton] at hx hy hle₁ hle₂
  rw [prefixMismatchKeys, keyLength, Nat.mod_eq_of_lt h₁,
    unsignedSub_eq (by omega) (by omega)]
  refine scan_eq (Nat.zero_le _) (by omega) (fun j _ hj => ?_) ?_
  · have hj' : p.length + j < (p ++ front).length := by
      rw [length_append]
      omega
    rw [c_str_of_lt (by omega),
      byteAt_of_initial ((prefix_append _ [x]).trans hparts.left) hj',
      byteAt_of_initial ((prefix_append _ [y]).trans hparts.right) hj']
    simp
  · rw [c_str_of_lt (by omega), hx, hy]
    exact decide_eq_true hparts.ne

/-- A new `Node4` over two subtrees whose ways part. -/
theorem newNode4_wf {p front : List UInt8} {prefixBytes : Nat → UInt8}
    (hbytes : ∀ i, i < front.length → i < maxPrefixLength → prefixBytes i = byteAt front i)
    {x y : UInt8} {m m' : Node} (hne : x ≠ y) (hm : WF (p ++ front ++ [x]) m)
    (hm' : WF (p ++ front ++ [y]) m') :
    WF p (newNode4 front.length prefixBytes x m y m') ∧
      elems (newNode4 front.length prefixBytes x m y m') ~ elems m' ++ elems m := by
  have hinner := newNode4_isInner hbytes hne hm.present hm'.present
  obtain ⟨hwf, hperm⟩ := hinner.wf (p := p) le_rfl fun b n hmem => by
    rcases mem_pair.1 hmem with heq | heq
    · cases heq
      exact hm'
    · cases heq
      exact hm
  refine ⟨hwf, hperm.trans (Perm.of_eq ?_)⟩
  simp only [flatMap_cons, flatMap_nil, append_nil]

/-- The first eight bytes of a path, read from a key behind it. -/
theorem c_str_path {p front key : List UInt8} (h : p ++ front <+: key) (behind : Nat → UInt8)
    {i : Nat} (hi : i < front.length) : c_str key behind (p.length + i) = byteAt front i := by
  have hle := h.length_le
  rw [length_append] at hle
  rw [c_str_of_lt (by omega), byteAt_of_initial h (by rw [length_append]; omega), byteAt_append]

/-- The keys below a node, none of them a prefix of the new key or the other way round. -/
def Admits (n : Node) (key : List UInt8) : Prop :=
  ∀ e, e ∈ elems n → e.key.length < 2 ^ 32 ∧ ¬ e.key <+: key ∧ ¬ key <+: e.key

theorem insert_leaf {p : List UInt8} {e value : Element} (hkey : p <+: e.key)
    (hnew : p <+: value.key) (hlength : value.key.length < 2 ^ 32)
    (hadmits : Admits (.leaf e) value.key) (behind : Nat → UInt8) :
    WF p (insert (c_str value.key behind) value.key.length value (.leaf e) p.length) ∧
      elems (insert (c_str value.key behind) value.key.length value (.leaf e) p.length) ~
        value :: elems (.leaf e) := by
  obtain ⟨he, hpre, hpre'⟩ := hadmits e (mem_singleton_self e)
  obtain ⟨front, x, y, hparts⟩ := exists_parts hkey hnew
    (fun h => (h.elim hpre hpre').elim) fun heq => hpre (heq ▸ prefix_rfl)
  have hx := byteAt_length hparts.left
  have hy := byteAt_length hparts.right
  have hle := hparts.right.length_le
  simp only [length_append, length_singleton] at hx hy hle
  rw [insert, prefixMismatchKeys_eq hparts he hlength, hx, c_str_of_lt (by omega), hy]
  refine newNode4_wf (fun i hi _ => c_str_path ?_ behind hi) hparts.ne (.leaf hparts.left)
    (.leaf hparts.right)
  exact (prefix_append _ [y]).trans hparts.right

/-- The broken-up prefix: a node over the rest of the compressed path, beside the new leaf. -/
theorem splitPrefix_wf {p front tail : List UInt8} {x y : UInt8} {hdr hdr' : Header}
    {lay : Layout} {child : Nat → Node} {value : Element}
    (hstores : hdr.Stores (front ++ [x] ++ tail)) (hstores' : hdr'.Stores tail)
    (hcount' : hdr'.count = hdr.count) (hok : LayoutOK hdr.count lay (presentIn child))
    (hcount : 2 ≤ hdr.count)
    (hkids : ∀ b n, (b, n) ∈ children hdr.count lay child →
      WF (p ++ (front ++ [x] ++ tail) ++ [b]) n)
    (hnew : p ++ front ++ [y] <+: value.key) (hne : x ≠ y) :
    WF p (newNode4 front.length hdr.prefixBytes x (.inner hdr' lay child) y (.leaf value)) ∧
      elems (newNode4 front.length hdr.prefixBytes x (.inner hdr' lay child) y (.leaf value)) ~
        value :: elems (.inner hdr lay child) := by
  have hinner : WF (p ++ front ++ [x]) (.inner hdr' lay child) := by
    refine .inner hstores' (hcount' ▸ hok) (hcount' ▸ hcount) fun b n hmem => ?_
    rw [hcount'] at hmem
    simpa only [append_assoc] using hkids b n hmem
  have hsame : elems (.inner hdr' lay child) = elems (.inner hdr lay child) := by
    rw [elems_inner, elems_inner, hcount']
  rw [← hsame]
  refine newNode4_wf (fun i hi hmax => ?_) hne hinner (.leaf hnew)
  rw [hstores.byte_eq i (by simp only [length_append]; omega) hmax, append_assoc,
    byteAt_of_initial (prefix_append front _) hi]

/-- The key goes on with a byte that no child has. -/
theorem insertChild_leaf_wf {p path : List UInt8} {hdr : Header} {lay : Layout}
    {child : Nat → Node} {value : Element} (hstores : hdr.Stores path)
    (hok : LayoutOK hdr.count lay (presentIn child)) (hcount : 2 ≤ hdr.count)
    (hkids : ∀ b n, (b, n) ∈ children hdr.count lay child → WF (p ++ path ++ [b]) n) {b : UInt8}
    (hb : p ++ path ++ [b] <+: value.key)
    (habsent : ¬ ∃ s, (b, s) ∈ entries hdr.count lay (presentIn child)) :
    WF p (insertChild hdr lay child b (.leaf value)) ∧
      elems (insertChild hdr lay child b (.leaf value)) ~ value :: elems (.inner hdr lay child) := by
  have hfresh : Fresh b (children hdr.count lay child) := by
    intro bn hbn heq
    obtain ⟨bs, hbs, rfl⟩ := mem_map.1 hbn
    exact habsent ⟨bs.2, heq ▸ hbs⟩
  have hinsert := insertChild_isInner (c := .leaf value) hstores hok hfresh rfl
  have hlength : 2 ≤ ((b, Node.leaf value) :: children hdr.count lay child).length := by
    rw [length_cons, children, length_map, hok.length_eq]
    omega
  obtain ⟨hwf, hperm⟩ := hinsert.wf (p := p) hlength fun c m hcm => by
    rcases mem_cons.1 hcm with heq | hcm
    · cases heq
      exact .leaf hb
    · exact hkids c m hcm
  rw [flatMap_cons, ← elems_inner] at hperm
  exact ⟨hwf, hperm⟩

/-- The key parts from the compressed path. -/
theorem insert_parted {p path front : List UInt8} {x y : UInt8} {hdr : Header} {lay : Layout}
    {child : Nat → Node} {value : Element} (hstores : hdr.Stores path)
    (hok : LayoutOK hdr.count lay (presentIn child)) (hcount : 2 ≤ hdr.count)
    (hkids : ∀ b n, (b, n) ∈ children hdr.count lay child → WF (p ++ path ++ [b]) n)
    (hparts : Parts (p ++ front) (p ++ path) value.key x y) (behind : Nat → UInt8)
    (hmis : prefixMismatch hdr (minKey (.inner hdr lay child)) (c_str value.key behind)
      value.key.length p.length = front.length) :
    WF p (insert (c_str value.key behind) value.key.length value (.inner hdr lay child) p.length) ∧
      elems (insert (c_str value.key behind) value.key.length value (.inner hdr lay child)
        p.length) ~ value :: elems (.inner hdr lay child) := by
  have hleast := prefix_minKey hstores hok hcount hkids
  have hx := byteAt_length hparts.left
  have hy := byteAt_length hparts.right
  have hle := hparts.right.length_le
  simp only [length_append, length_singleton] at hx hy hle
  obtain ⟨tail, htail⟩ := hparts.left
  have hpath : path = front ++ [x] ++ tail := by
    rw [append_assoc, append_assoc] at htail
    rw [append_assoc]
    exact (append_cancel_left htail).symm
  subst hpath
  have hrest : front.length + 1 + tail.length = (front ++ [x] ++ tail).length := by
    simp only [length_append, length_singleton]
  have hxs : byteAt (front ++ [x] ++ tail) front.length = x :=
    byteAt_length (prefix_append _ _)
  have htails : ∀ i, byteAt (front ++ [x] ++ tail) (front.length + 1 + i) = byteAt tail i := by
    intro i
    have happend := @byteAt_append (front ++ [x]) tail i
    rwa [length_append, length_singleton] at happend
  rw [insert, hmis, if_pos ⟨by rw [hstores.length_eq]; omega, by rw [hstores.length_eq]; omega⟩]
  have hykey : c_str value.key behind (p.length + front.length) = y := by
    rw [c_str_of_lt (by omega), hy]
  simp only [hstores.length_eq, hykey]
  have htail' : (front ++ [x] ++ tail).length - (front.length + 1) = tail.length := by
    omega
  split
  · -- The bytes of the path are stored in full.
    rename_i hstored
    rw [hstores.byte_eq _ (by omega) (by omega), hxs]
    refine splitPrefix_wf hstores ⟨htail', fun i hi hmax => ?_⟩ rfl hok hcount hkids
      hparts.right hparts.ne
    simp only [htail']
    rw [if_pos (lt_min hi hmax), hstores.byte_eq _ (by omega) (by omega), htails]
  · -- They are reloaded from the smallest key.
    have hreload : ∀ i, i < (front ++ [x] ++ tail).length →
        byteAt (minKey (.inner hdr lay child)) (p.length + i) =
          byteAt (front ++ [x] ++ tail) i := fun i hi => by
      rw [byteAt_of_initial hleast (by rw [length_append]; omega), byteAt_append]
    rw [hreload _ (by omega), hxs]
    refine splitPrefix_wf hstores ⟨htail', fun i hi hmax => ?_⟩ rfl hok hcount hkids
      hparts.right hparts.ne
    simp only [htail']
    rw [if_pos (lt_min hi hmax), Nat.add_assoc, Nat.add_assoc, hreload _ (by omega),
      ← Nat.add_assoc, htails]

theorem insert_wf {p : List UInt8} {n : Node} (h : WF p n) {value : Element}
    (hlength : value.key.length < 2 ^ 32) (behind : Nat → UInt8) :
    p <+: value.key → Admits n value.key →
      WF p (insert (c_str value.key behind) value.key.length value n p.length) ∧
        elems (insert (c_str value.key behind) value.key.length value n p.length) ~
          value :: elems n := by
  induction h with
  | leaf hkey => exact fun hnew hadmits => insert_leaf hkey hnew hlength hadmits behind
  | @inner p path hdr lay child hstores hok hcount hkids ih =>
      intro hnew hadmits
      have hleast := prefix_minKey hstores hok hcount hkids
      -- A key that ended on the way would be a prefix of a stored key.
      have hshort : ¬ value.key <+: p ++ path := by
        intro hpre
        obtain ⟨e, he, hekey, -⟩ := exists_longer hstores hok hcount hkids
        exact (hadmits e he).2.2 (hpre.trans hekey)
      rcases prefixMismatch_cases hstores hleast behind hnew hlength hshort with
        ⟨hpath, hmis⟩ | ⟨front, x, y, hparts, hmis⟩
      · -- The compressed path is passed.
        obtain ⟨b, hb, hbyte⟩ := exists_nextByte hpath hshort behind
        have hdepth : (p ++ path).length + 1 = (p ++ path ++ [b]).length := by
          simp only [length_append, length_singleton]
        rw [insert, hmis, hstores.length_eq, if_neg (fun h => h.2 rfl), ← length_append]
        simp only [hbyte, hdepth]
        by_cases hfound : ∃ s, (b, s) ∈ entries hdr.count lay (presentIn child)
        · obtain ⟨s, hs⟩ := hfound
          have hmem : (b, child s) ∈ children hdr.count lay child := mem_map.2 ⟨_, hs, rfl⟩
          obtain ⟨hfind, hpresent⟩ := hok.findChild_iff.1 hs
          rw [presentIn] at hpresent
          obtain ⟨hchild, hperm⟩ := ih b _ hmem hb fun e he => hadmits e (by
            rw [elems_inner]
            exact mem_flatMap.2 ⟨_, hmem, he⟩)
          obtain ⟨hwf', others, hothers, hperm'⟩ :=
            replaceChild_wf hstores hok hcount hkids hs hchild
          simp only [hfind, hpresent, if_true]
          refine ⟨hwf', hperm'.trans ?_⟩
          rw [elems_inner]
          refine (hperm.append_right _).trans ?_
          exact (hothers.flatMap_right fun bn => elems bn.2).symm.cons value
        · have hinsert := insertChild_leaf_wf hstores hok hcount hkids hb hfound
          split
          · rename_i s hfind
            split
            · rename_i hpresent
              exact absurd ⟨s, hok.findChild_iff.2 ⟨hfind, hpresent⟩⟩ hfound
            · exact hinsert
          · exact hinsert
      · exact insert_parted hstores hok hcount hkids hparts behind hmis

end ART
end TLI
