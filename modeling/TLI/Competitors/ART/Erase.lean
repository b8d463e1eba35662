import TLI.Competitors.ART.Ordered
import TLI.Competitors.ART.Stock

/-!
# Erase — removal of a key

`erase` removes one element from a well-formed tree and leaves the others (`erase_spec`), unless the
leaf to remove hangs below a `Node16` with four children (`LeafOfFour`).  There the node shrinks to a
`Node4` whose count stays at four.
-/

namespace TLI
namespace ART

open List Lexicographic

/-! ## Model -/

/-- `isLeaf(n) && leafMatches(n, key, keyLength, depth)` -/
def isMatchingLeaf (n : Node) (key : Nat → UInt8) (keyLength depth : Nat) : Bool :=
  match n with
  | .leaf e => leafMatches e key keyLength depth
  | _ => false

/-- Delete a leaf from a tree. -/
def erase (key : Nat → UInt8) (keyLength : Nat) : Node → Nat → Node
  | .null, _ => .null
  | .leaf e, depth =>
      -- Make sure we have the right leaf
      if leafMatches e key keyLength depth then .null else .leaf e
  | .inner hdr lay child, depth =>
      if 0 < hdr.prefixLength ∧
          prefixMismatch hdr (minKey (.inner hdr lay child)) key keyLength depth ≠ hdr.prefixLength
      then .inner hdr lay child
      else
        let depth := depth + hdr.prefixLength
        match findChild hdr.count lay (key depth) with
        | some s =>
            if isMatchingLeaf (child s) key keyLength depth then
              -- Leaf found, delete it in inner node
              eraseChild hdr lay child (key depth) s
            else
              -- Recurse
              .inner hdr lay (Function.update child s (erase key keyLength (child s) (depth + 1)))
        | none => .inner hdr lay child

/-- The elements under other keys. -/
def without (key : List UInt8) (xs : List Element) : List Element :=
  xs.filter fun e => decide (e.key ≠ key)

/-- The leaf with the key is a child of a `Node16` with four children. -/
inductive LeafOfFour (key : List UInt8) : Node → Prop
  | here {hdr : Header} {bytes : Nat → UInt8} {child : Nat → Node} {b : UInt8} {e : Element}
      (hcount : hdr.count = 4) (hmem : (b, .leaf e) ∈ children hdr.count (.node16 bytes) child)
      (hkey : e.key = key) : LeafOfFour key (.inner hdr (.node16 bytes) child)
  | deeper {hdr : Header} {lay : Layout} {child : Nat → Node} {b : UInt8} {n : Node}
      (hmem : (b, n) ∈ children hdr.count lay child) (h : LeafOfFour key n) :
      LeafOfFour key (.inner hdr lay child)

/-! ## Keys -/

section Without

variable {key : List UInt8} {xs ys : List Element}

theorem mem_without {e : Element} : e ∈ without key xs ↔ e ∈ xs ∧ e.key ≠ key := by
  rw [without, mem_filter, decide_eq_true_eq]

theorem without_eq_self (h : ∀ e ∈ xs, e.key ≠ key) : without key xs = xs :=
  filter_eq_self.2 fun e he => decide_eq_true (h e he)

theorem without_append : without key (xs ++ ys) = without key xs ++ without key ys :=
  filter_append _ _

end Without

/-- Behind a common path a leaf matches exactly if it has the key. -/
theorem leafMatches_key {p key : List UInt8} {e : Element} (he : p <+: e.key) (hkey : p <+: key)
    (hlength : key.length < 2 ^ 32) (behind : Nat → UInt8) :
    leafMatches e (c_str key behind) key.length p.length = true ↔ e.key = key := by
  rw [leafMatches_iff hlength he.length_le]
  constructor
  · rintro ⟨heq, hbytes⟩
    refine (prefix_of_bytes heq.le fun i hi => ?_).eq_of_length heq
    rcases Nat.lt_or_ge i p.length with hlt | hge
    · rw [byteAt_of_initial hkey hlt, byteAt_of_initial he hlt]
    · rw [hbytes i hge (heq ▸ hi), c_str_of_lt (heq ▸ hi)]
  · rintro rfl
    exact ⟨rfl, fun i _ hi => (c_str_of_lt hi).symm⟩

/-- An inner node holds two keys, so one that differs from a given key. -/
theorem WF.exists_other {p : List UInt8} {n : Node} (h : WF p n) {key : List UInt8}
    (hleaf : ∀ e, n = .leaf e → e.key ≠ key) : ∃ e ∈ elems n, e.key ≠ key := by
  cases h with
  | @leaf p e hkey => exact ⟨e, mem_singleton_self e, hleaf e rfl⟩
  | @inner p path hdr lay child hstores hok hcount hkids =>
      have hlength : 2 ≤ (children hdr.count lay child).length := by
        rwa [children, length_map, hok.length_eq]
      obtain ⟨x, y, rest, hsplit⟩ : ∃ x y rest, children hdr.count lay child = x :: y :: rest := by
        rcases hchildren : children hdr.count lay child with _ | ⟨x, _ | ⟨y, rest⟩⟩
        · rw [hchildren, length_nil] at hlength
          omega
        · rw [hchildren, length_singleton] at hlength
          omega
        · exact ⟨x, y, rest, rfl⟩
      have hx : x ∈ children hdr.count lay child := hsplit ▸ mem_cons_self
      have hy : y ∈ children hdr.count lay child := hsplit ▸ mem_cons_of_mem x mem_cons_self
      have hlt : x.1 < y.1 := by
        have hsorted := hok.children_sorted
        rw [hsplit] at hsorted
        exact (pairwise_cons.1 hsorted).1 y mem_cons_self
      obtain ⟨e, he⟩ := exists_mem_of_ne_nil _ (hkids x.1 x.2 hx).elems_ne_nil
      obtain ⟨e', he'⟩ := exists_mem_of_ne_nil _ (hkids y.1 y.2 hy).elems_ne_nil
      have hne := (WF.parts (hkids _ _ hx) (hkids _ _ hy) (ne_of_lt hlt) he he').words_ne
      rw [elems_inner]
      by_cases heq : e.key = key
      · exact ⟨e', mem_flatMap.2 ⟨y, hy, he'⟩, fun h => hne (heq.trans h.symm)⟩
      · exact ⟨e, mem_flatMap.2 ⟨x, hx, he⟩, heq⟩

/-- The child is compared with the key from the byte on that leads to it. -/
theorem isMatchingLeaf_iff {front key : List UInt8} {b : UInt8} {n : Node}
    (h : WF (front ++ [b]) n) (hkey : front <+: key) (hlength : key.length < 2 ^ 32)
    (behind : Nat → UInt8) :
    isMatchingLeaf n (c_str key behind) key.length front.length = true ↔
      ∃ e, n = .leaf e ∧ e.key = key := by
  cases h with
  | @leaf _ e he =>
      rw [isMatchingLeaf, leafMatches_key ((prefix_append _ _).trans he) hkey hlength behind]
      refine ⟨fun heq => ⟨e, rfl, heq⟩, ?_⟩
      rintro ⟨e', hsame, heq⟩
      cases hsame
      exact heq
  | inner hstores hok hcount hkids => exact iff_of_false Bool.false_ne_true nofun

/-! ## Removal of a child -/

/-- Either a node over the other children is left, or the only other child. -/
theorem eraseChild_cases {hdr : Header} {lay : Layout} {child : Nat → Node} {path : List UInt8}
    {b : UInt8} {s : Nat} (hstores : hdr.Stores path)
    (hok : LayoutOK hdr.count lay (presentIn child)) (hcount : 2 ≤ hdr.count)
    (hkept : Kept lay.type hdr.count)
    (hmem : (b, s) ∈ entries hdr.count lay (presentIn child))
    (hfour : ∀ key, lay = .node16 key → hdr.count ≠ 4) :
    (∃ others, children hdr.count lay child ~ (b, child s) :: others ∧ 2 ≤ others.length ∧
        IsInner (eraseChild hdr lay child b s) path others) ∨
      ∃ c m, children hdr.count lay child ~ [(b, child s), (c, m)] ∧
        eraseChild hdr lay child b s = oneWay hdr c m := by
  rcases Nat.lt_or_ge hdr.count 3 with htwo | hthree
  · -- Only a Node4 may have two children.
    refine .inr ?_
    cases lay with
    | node4 key =>
        rw [entries_node4, mem_slots] at hmem
        obtain ⟨c, m, hperm, heq⟩ :=
          eraseNode4_pair key child (by omega : hdr.count = 2) (by omega : s < 2)
        exact ⟨c, m, hmem.2 ▸ hperm, heq⟩
    | node16 key => exact absurd (show 4 ≤ hdr.count from hkept) (by omega)
    | node48 childIndex => exact absurd (show 12 < hdr.count from hkept) (by omega)
    | node256 => exact absurd (show 37 < hdr.count from hkept) (by omega)
  · obtain ⟨others, hperm, hinner⟩ := eraseChild_isInner hstores hok hmem hthree hfour
    have hlength := hperm.length_eq
    rw [children, length_map, hok.length_eq, length_cons] at hlength
    exact .inl ⟨others, hperm, by omega, hinner⟩

/-! ## Removal of a key -/

/-- What is left of a node from which a key has been removed. -/
structure Erased (p key : List UInt8) (n n' : Node) : Prop where
  wf : WF p n'
  stocked : Stocked n'
  elems_perm : elems n' ~ without key (elems n)

section Inner

variable {p path key : List UInt8} {hdr : Header} {lay : Layout} {child : Nat → Node}

/-- Behind the byte of one child the key is in none of the others. -/
theorem others_ne {b : UInt8} {m : Node} {others : List (UInt8 × Node)}
    (hok : LayoutOK hdr.count lay (presentIn child))
    (hkids : ∀ b n, (b, n) ∈ children hdr.count lay child → WF (p ++ path ++ [b]) n)
    (hperm : children hdr.count lay child ~ (b, m) :: others) (hb : p ++ path ++ [b] <+: key) :
    ∀ e ∈ others.flatMap (fun bn => elems bn.2), e.key ≠ key := by
  intro e he heq
  obtain ⟨⟨c, m'⟩, hmem, he⟩ := mem_flatMap.1 he
  have hbytes : ((children hdr.count lay child).map Prod.fst).Nodup :=
    (pairwise_map.2 hok.children_sorted).imp fun hlt => ne_of_lt hlt
  rw [(hperm.map Prod.fst).nodup_iff, map_cons, nodup_cons] at hbytes
  have hne : b ≠ c := fun h => hbytes.1 (mem_map.2 ⟨_, hmem, h.symm⟩)
  have hkid := hkids c m' (hperm.mem_iff.2 (mem_cons_of_mem _ hmem))
  have hparts : Parts (p ++ path) key e.key b c := ⟨hb, hkid.prefix_key he, hne⟩
  exact hparts.words_ne heq.symm

theorem without_inner {b : UInt8} {m : Node} {others : List (UInt8 × Node)}
    (hperm : children hdr.count lay child ~ (b, m) :: others)
    (hothers : ∀ e ∈ others.flatMap (fun bn => elems bn.2), e.key ≠ key) :
    without key (elems (.inner hdr lay child)) ~
      without key (elems m) ++ others.flatMap fun bn => elems bn.2 := by
  have helems : elems (.inner hdr lay child) ~ elems m ++ others.flatMap fun bn => elems bn.2 := by
    rw [elems_inner]
    exact hperm.flatMap_right _
  rw [← without_eq_self hothers, ← without_append]
  exact helems.filter _

/-- The only other child takes the place of the node. -/
theorem oneWay_wf {c : UInt8} {m : Node} (hstores : hdr.Stores path) (h : WF (p ++ path ++ [c]) m) :
    WF p (oneWay hdr c m) ∧ elems (oneWay hdr c m) = elems m := by
  cases h with
  | leaf hkey => exact ⟨.leaf ((prefix_append _ _).trans ((append_assoc _ _ _) ▸ hkey)), rfl⟩
  | inner hstores' hok hcount hkids =>
      refine ⟨.inner (concatenate_stores c hstores hstores') hok hcount fun b n hmem => ?_, rfl⟩
      simpa only [append_assoc] using hkids b n hmem

theorem eraseChild_erased {b : UInt8} {s : Nat} {e : Element} (hstores : hdr.Stores path)
    (hok : LayoutOK hdr.count lay (presentIn child)) (hcount : 2 ≤ hdr.count)
    (hkids : ∀ b n, (b, n) ∈ children hdr.count lay child → WF (p ++ path ++ [b]) n)
    (hstocked : Stocked (.inner hdr lay child))
    (hmem : (b, s) ∈ entries hdr.count lay (presentIn child)) (hleaf : child s = .leaf e)
    (hkey : e.key = key) (hfour : ¬ LeafOfFour key (.inner hdr lay child)) :
    Erased p key (.inner hdr lay child) (eraseChild hdr lay child b s) := by
  have hchild : (b, child s) ∈ children hdr.count lay child := mem_map.2 ⟨_, hmem, rfl⟩
  have hb : p ++ path ++ [b] <+: key := by
    rw [← hkey]
    refine (hkids b _ hchild).prefix_key ?_
    rw [hleaf]
    exact mem_singleton_self e
  have hgone : without key (elems (child s)) = [] := by
    rw [hleaf]
    exact filter_eq_nil_iff.2 fun e' he' => by
      rw [mem_singleton.1 he', decide_eq_true_eq]
      exact fun h => h hkey
  have hnotfour : ∀ bytes, lay = .node16 bytes → hdr.count ≠ 4 := by
    rintro bytes rfl hcount4
    exact hfour (.here hcount4 (hleaf ▸ hchild) hkey)
  cases hstocked with
  | inner hkept hslots =>
      rcases eraseChild_cases hstores hok hcount hkept hmem hnotfour with
        ⟨others, hperm, hlength, hinner⟩ | ⟨c, m, hperm, heq⟩
      -- Several children are left.
      · have helems := without_inner hperm (others_ne hok hkids hperm hb)
        obtain ⟨hwf, helems'⟩ := hinner.wf (p := p) hlength fun c m hcm =>
          hkids c m (hperm.mem_iff.2 (mem_cons_of_mem _ hcm))
        refine ⟨hwf, eraseChild_stocked hkept hslots hinner ?_, helems'.trans ?_⟩
        · rw [← hok.length_eq, ← length_cons, ← hperm.length_eq, children, length_map]
        · rw [hgone] at helems
          exact helems.symm
      -- Of two children the other one takes the place of the node.
      · have helems := without_inner hperm (others_ne hok hkids hperm hb)
        have hother : (c, m) ∈ children hdr.count lay child :=
          hperm.mem_iff.2 (mem_cons_of_mem _ (mem_singleton_self _))
        have hm : Stocked m := by
          obtain ⟨⟨c', s'⟩, -, hslot⟩ := mem_map.1 hother
          cases hslot
          exact hslots s'
        obtain ⟨hwf, helems'⟩ := oneWay_wf hstores (hkids c m hother)
        rw [heq]
        refine ⟨hwf, oneWay_stocked hm hdr c, ?_⟩
        rw [hgone, nil_append, flatMap_singleton] at helems
        rw [helems']
        exact helems.symm

theorem replaceChild_erased {b : UInt8} {s : Nat} {c : Node} (hstores : hdr.Stores path)
    (hok : LayoutOK hdr.count lay (presentIn child)) (hcount : 2 ≤ hdr.count)
    (hkids : ∀ b n, (b, n) ∈ children hdr.count lay child → WF (p ++ path ++ [b]) n)
    (hstocked : Stocked (.inner hdr lay child))
    (hmem : (b, s) ∈ entries hdr.count lay (presentIn child)) (hb : p ++ path ++ [b] <+: key)
    (h : Erased (p ++ path ++ [b]) key (child s) c) :
    Erased p key (.inner hdr lay child) (.inner hdr lay (Function.update child s c)) := by
  obtain ⟨hwf, others, hperm, helems⟩ := replaceChild_wf hstores hok hcount hkids hmem h.wf
  cases hstocked with
  | inner hkept hslots =>
      refine ⟨hwf, .inner hkept (slots_update hslots h.stocked s), helems.trans ?_⟩
      exact (h.elems_perm.append_right _).trans
        (without_inner hperm (others_ne hok hkids hperm hb)).symm

end Inner

/-- A node that does not hold the key is left as it is. -/
theorem Erased.refl {p key : List UInt8} {n : Node} (hwf : WF p n) (hstocked : Stocked n)
    (habsent : ∀ e ∈ elems n, e.key ≠ key) : Erased p key n n :=
  ⟨hwf, hstocked, Perm.of_eq (without_eq_self habsent).symm⟩

/-- A key goes on below an inner node, or its way parts from the compressed path. -/
theorem erase_inner {p path key : List UInt8} {hdr : Header} {lay : Layout} {child : Nat → Node}
    (hstores : hdr.Stores path) (hok : LayoutOK hdr.count lay (presentIn child))
    (hcount : 2 ≤ hdr.count)
    (hkids : ∀ b n, (b, n) ∈ children hdr.count lay child → WF (p ++ path ++ [b]) n)
    (hlength : key.length < 2 ^ 32) (behind : Nat → UInt8) (hp : p <+: key)
    (hshort : ¬ key <+: p ++ path) :
    (∃ b, p ++ path ++ [b] <+: key ∧
        erase (c_str key behind) key.length (.inner hdr lay child) p.length =
          match findChild hdr.count lay b with
          | some s =>
              if isMatchingLeaf (child s) (c_str key behind) key.length (p ++ path).length then
                eraseChild hdr lay child b s
              else
                .inner hdr lay (Function.update child s
                  (erase (c_str key behind) key.length (child s) (p ++ path ++ [b]).length))
          | none => .inner hdr lay child) ∨
      ∃ front x y, Parts (p ++ front) (p ++ path) key x y ∧
        erase (c_str key behind) key.length (.inner hdr lay child) p.length =
          .inner hdr lay child := by
  have hleast := prefix_minKey hstores hok hcount hkids
  rcases prefixMismatch_cases hstores hleast behind hp hlength hshort with
    ⟨hpath, hmis⟩ | ⟨front, x, y, hparts, hmis⟩
  · obtain ⟨b, hb, hbyte⟩ := exists_nextByte hpath hshort behind
    have hdepth : (p ++ path).length + 1 = (p ++ path ++ [b]).length := by
      simp only [length_append, length_singleton]
    refine .inl ⟨b, hb, ?_⟩
    rw [erase, hmis, hstores.length_eq, if_neg fun h => h.2 rfl, ← length_append]
    dsimp only
    rw [hbyte, hdepth]
  · have hle := hparts.left.length_le
    simp only [length_append, length_singleton] at hle
    refine .inr ⟨front, x, y, hparts, ?_⟩
    rw [erase, hmis, if_pos ⟨by rw [hstores.length_eq]; omega, by rw [hstores.length_eq]; omega⟩]

theorem erase_spec {p key : List UInt8} {n : Node} (h : WF p n) (hlength : key.length < 2 ^ 32)
    (behind : Nat → UInt8) : Stocked n → p <+: key → (∀ e ∈ elems n, PrefixFree e.key key) →
      (∃ e ∈ elems n, e.key ≠ key) → ¬ LeafOfFour key n →
        Erased p key n (erase (c_str key behind) key.length n p.length) := by
  induction h with
  | @leaf p e hkey =>
      intro hstocked hp hfree hother hfour
      obtain ⟨e', he', hne⟩ := hother
      rw [mem_singleton.1 he'] at hne
      rw [erase, if_neg fun hmatch => hne ((leafMatches_key hkey hp hlength behind).1 hmatch)]
      exact .refl (.leaf hkey) hstocked fun e' he' => by rwa [mem_singleton.1 he']
  | @inner p path hdr lay child hstores hok hcount hkids ih =>
      intro hstocked hp hfree hother hfour
      have hwf : WF p (.inner hdr lay child) := .inner hstores hok hcount hkids
      -- A key that ended on the way would be a prefix of another stored key.
      have hshort : ¬ key <+: p ++ path := by
        intro hpre
        obtain ⟨e, he, hne⟩ := hother
        obtain ⟨b, s, -, hekey⟩ := exists_entry hkids he
        exact hne (hfree e he (.inr (hpre.trans ((prefix_append _ [b]).trans hekey))))
      rcases erase_inner hstores hok hcount hkids hlength behind hp hshort with
        ⟨b, hb, herase⟩ | ⟨front, x, y, hparts, herase⟩
      · rw [herase]
        have hpath : p ++ path <+: key := (prefix_append _ [b]).trans hb
        by_cases hfound : ∃ s, (b, s) ∈ entries hdr.count lay (presentIn child)
        · obtain ⟨s, hs⟩ := hfound
          have hmem : (b, child s) ∈ children hdr.count lay child := mem_map.2 ⟨_, hs, rfl⟩
          have hkid := hkids b _ hmem
          rw [(hok.findChild_iff.1 hs).1]
          dsimp only
          split
          · rename_i hmatch
            obtain ⟨e, hchild, hekey⟩ := (isMatchingLeaf_iff hkid hpath hlength behind).1 hmatch
            exact eraseChild_erased hstores hok hcount hkids hstocked hs hchild hekey hfour
          · rename_i hmatch
            refine replaceChild_erased hstores hok hcount hkids hstocked hs hb ?_
            have hbelow : ∀ e ∈ elems (child s), e ∈ elems (.inner hdr lay child) := fun e he => by
              rw [elems_inner]
              exact mem_flatMap.2 ⟨_, hmem, he⟩
            have hslot : Stocked (child s) := by
              cases hstocked with
              | inner hkept hslots => exact hslots s
            refine ih b _ hmem hslot hb (fun e he => hfree e (hbelow e he)) (hkid.exists_other ?_)
              fun h => hfour (.deeper hmem h)
            exact fun e hchild hekey => hmatch
              ((isMatchingLeaf_iff hkid hpath hlength behind).2 ⟨e, hchild, hekey⟩)
        · -- No child has the byte.
          have habsent : ∀ e ∈ elems (.inner hdr lay child), e.key ≠ key := by
            rintro e he rfl
            obtain ⟨c, s, hs, hc⟩ := exists_entry hkids he
            have hcb : c = b := (byteAt_length hc).symm.trans (byteAt_length hb)
            exact hfound ⟨s, hcb ▸ hs⟩
          have hsame := Erased.refl hwf hstocked habsent
          split
          · rename_i s hfind
            have hnull : child s = .null := by
              rcases hok.find_cases hfind with hmem | hnull
              · obtain ⟨bs, hs, heq⟩ := mem_map.1 hmem
                have hbyte : bs.1 = b := (Prod.mk.inj heq).1
                exact absurd ⟨bs.2, hbyte ▸ hs⟩ hfound
              · exact hnull
            have hstay : erase (c_str key behind) key.length (child s)
                (p ++ path ++ [b]).length = child s := by
              rw [hnull, erase]
            rw [hstay, Function.update_eq_self, hnull, isMatchingLeaf, if_neg Bool.false_ne_true]
            · exact hsame
            · exact nofun
          · exact hsame
      · -- The key parts from the compressed path.
        rw [herase]
        refine .refl hwf hstocked fun e he heq => ?_
        obtain ⟨b, s, -, hekey⟩ := exists_entry hkids he
        have hleft := hparts.left.trans ((prefix_append _ [b]).trans hekey)
        exact (Parts.words_ne ⟨hleft, hparts.right, hparts.ne⟩) heq

end ART
end TLI
