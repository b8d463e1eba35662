import Mathlib.Tactic.IntervalCases
import TLI.Competitors.ART.Erase

/-!
# Removal — what `erase` leaves behind in runs of the tree

A run loads elements in bulk and then inserts and erases.  `Removes` is what a call of `erase` is
for: the key is no longer found, the others still are, and every count is right.

After a run whose calls of `erase` spared the `Node16`s with four children, a call removes the key
exactly if it spares them too.
-/

namespace TLI
namespace ART

open List Lexicographic

/-- The count of every inner node is the number of its distinct child bytes. -/
inductive Counted : Node → Prop
  | null : Counted .null
  | leaf (e : Element) : Counted (.leaf e)
  | inner {hdr : Header} {lay : Layout} {child : Nat → Node}
      (hcount : hdr.count = ((children hdr.count lay child).map Prod.fst).dedup.length)
      (hkids : ∀ b n, (b, n) ∈ children hdr.count lay child → Counted n) :
      Counted (.inner hdr lay child)

/-- The call of `erase` on the root. -/
def eraseRoot (tree : Node) (behind : Nat → UInt8) (key : List UInt8) : Node :=
  erase (c_str key behind) (keyLength key) tree 0

/-- The call of `lookup` on the root. -/
def lookupRoot (tree : Node) (behind : Nat → UInt8) (key : List UInt8) : Option Element :=
  lookup (c_str key behind) (keyLength key) tree 0 false

/-- The key is gone, the others are still found, and the counts are right. -/
structure Removes (tree : Node) (stored : List Element) (behind : Nat → UInt8) (key : List UInt8) :
    Prop where
  gone : ∀ memory, lookupRoot (eraseRoot tree behind key) memory key = none
  kept : ∀ e ∈ stored, e.key ≠ key →
    ∀ memory, lookupRoot (eraseRoot tree behind key) memory e.key = some e
  counted : Counted (eraseRoot tree behind key)

/-- A key that is stored, or no prefix of a stored key nor behind one, and not the only key. -/
structure Erasable (stored : List Element) (key : List UInt8) : Prop where
  fits : key.length < 2 ^ 32
  free : ∀ e ∈ stored, PrefixFree e.key key
  other : ∃ e ∈ stored, e.key ≠ key

/-- The trees that runs lead to, with the elements that they hold.  Only calls of `erase` that are
`allowed` are made. -/
inductive Reachable (allowed : Node → List UInt8 → Prop) : Node → List Element → Prop
  | bulk_insert {tree : Node} {xs : List Element}
      (increasing : xs.Pairwise fun e e' => e.key < e'.key) (free : Independent xs)
      (fits : ∀ e ∈ xs, e.key.length < 2 ^ 32)
      (returns : Returns (fun fuel => bulk_insert fuel xs 0 0) tree) : Reachable allowed tree xs
  | insert {tree : Node} {stored : List Element} {value : Element}
      (before : Reachable allowed tree stored) (free : Independent (value :: stored))
      (fits : value.key.length < 2 ^ 32) (behind : Nat → UInt8) :
      Reachable allowed (insert (c_str value.key behind) (keyLength value.key) value tree 0)
        (value :: stored)
  | erase {tree : Node} {stored : List Element} {key : List UInt8}
      (before : Reachable allowed tree stored) (erasable : Erasable stored key)
      (condition : allowed tree key) (behind : Nat → UInt8) :
      Reachable allowed (eraseRoot tree behind key) (without key stored)

/-! ## What a run keeps -/

/-- What a run of the tree keeps. -/
structure Keeps (tree : Node) (stored : List Element) : Prop where
  carries : Carries tree stored
  stocked : Stocked tree
  free : Independent stored
  fits : ∀ e ∈ stored, e.key.length < 2 ^ 32

theorem WF.counted {p : List UInt8} {n : Node} (h : WF p n) : Counted n := by
  induction h with
  | @leaf p e hkey => exact .leaf e
  | @inner p path hdr lay child hstores hok hcount hkids ih =>
      have hbytes : ((children hdr.count lay child).map Prod.fst).Nodup :=
        (pairwise_map.2 hok.children_sorted).imp fun hlt => ne_of_lt hlt
      refine .inner ?_ ih
      rw [hbytes.dedup, length_map, children, length_map, hok.length_eq]

namespace Keeps

variable {tree : Node} {stored : List Element} {key : List UInt8}

/-- A tree that holds an element has a root. -/
theorem wf (h : Keeps tree stored) {e : Element} (he : e ∈ stored) :
    WF [] tree ∧ elems tree ~ stored := by
  rcases h.carries with ⟨-, hnil⟩ | hwf
  · rw [hnil] at he
    cases he
  · exact hwf

theorem bulk_insert {xs : List Element} (hsorted : xs.Pairwise fun e e' => e.key < e'.key)
    (hfree : Independent xs) (hfits : ∀ e ∈ xs, e.key.length < 2 ^ 32)
    (hreturns : Returns (fun fuel => bulk_insert fuel xs 0 0) tree) : Keeps tree xs := by
  obtain ⟨tree', hreturns', hcarries⟩ :=
    bulk_insert_carries (loadable_of_independent hsorted hfree)
  rw [hreturns'.unique hreturns] at hcarries
  obtain ⟨bound, hbound⟩ := hreturns
  exact ⟨hcarries, bulk_insert_shaped growing_kept bound (hbound bound le_rfl), hfree, hfits⟩

theorem insert (h : Keeps tree stored) {value : Element} (hfree : Independent (value :: stored))
    (hfits : value.key.length < 2 ^ 32) (behind : Nat → UInt8) :
    Keeps (insert (c_str value.key behind) (keyLength value.key) value tree 0)
      (value :: stored) := by
  have hall : ∀ e ∈ value :: stored, e.key.length < 2 ^ 32 := by
    intro e he
    rcases mem_cons.1 he with rfl | he
    · exact hfits
    · exact h.fits e he
  have hmove : stored ++ [value] ~ value :: stored := perm_append_singleton value stored
  have hcarries : Carries (insertAll [(behind, value)] tree) (stored ++ [value]) :=
    h.carries.insertAll (hfree.perm hmove.symm) fun e he => hall e (hmove.subset he)
  refine ⟨?_, h.stocked.insert growing_kept _ _ _ _, hfree, hall⟩
  rcases hcarries with ⟨-, hnil⟩ | ⟨hwf, helems⟩
  · exact absurd hnil (append_ne_nil_of_right_ne_nil _ (cons_ne_nil _ _))
  · exact .inr ⟨hwf, helems.trans hmove⟩

theorem erased (h : Keeps tree stored) (hkey : Erasable stored key)
    (hfour : ¬ LeafOfFour key tree) (behind : Nat → UInt8) :
    Erased [] key tree (eraseRoot tree behind key) ∧
      elems (eraseRoot tree behind key) ~ without key stored := by
  obtain ⟨e, he, hne⟩ := hkey.other
  obtain ⟨hwf, hperm⟩ := h.wf he
  have herased := erase_spec hwf hkey.fits behind h.stocked (prefix_append [] key)
    (fun e he => hkey.free e (hperm.subset he)) ⟨e, hperm.symm.subset he, hne⟩ hfour
  rw [eraseRoot, keyLength, Nat.mod_eq_of_lt hkey.fits]
  exact ⟨herased, herased.elems_perm.trans (hperm.filter _)⟩

theorem erase (h : Keeps tree stored) (hkey : Erasable stored key)
    (hfour : ¬ LeafOfFour key tree) (behind : Nat → UInt8) :
    Keeps (eraseRoot tree behind key) (without key stored) := by
  obtain ⟨herased, helems⟩ := h.erased hkey hfour behind
  refine ⟨.inr ⟨herased.wf, helems⟩, herased.stocked, h.free.sublist filter_sublist, ?_⟩
  exact fun e he => h.fits e (mem_without.1 he).1

end Keeps

theorem Reachable.keeps {tree : Node} {stored : List Element}
    (h : Reachable (fun tree key => ¬ LeafOfFour key tree) tree stored) : Keeps tree stored := by
  induction h with
  | bulk_insert increasing free fits returns => exact .bulk_insert increasing free fits returns
  | insert before free fits behind ih => exact ih.insert free fits behind
  | erase before erasable condition behind ih => exact ih.erase erasable condition behind

/-! ## What a call of `erase` leaves -/

section Lookup

variable {tree : Node} {stored : List Element}

/-- Lookups in a tree are answered from its elements. -/
theorem lookupRoot_of_mem (hwf : WF [] tree) {e : Element} (he : e ∈ elems tree)
    (hfits : e.key.length < 2 ^ 32) (memory : Nat → UInt8) :
    lookupRoot tree memory e.key = some e := by
  rw [lookupRoot, keyLength, Nat.mod_eq_of_lt hfits]
  exact lookup_complete hwf he hfits (fun i hi => c_str_of_lt hi) false

theorem lookupRoot_eq_none (hwf : WF [] tree) {key : List UInt8} (hfits : key.length < 2 ^ 32)
    (habsent : ∀ e ∈ elems tree, e.key ≠ key) (memory : Nat → UInt8) :
    lookupRoot tree memory key = none := by
  rw [lookupRoot, keyLength, Nat.mod_eq_of_lt hfits]
  by_contra hsome
  obtain ⟨e, he⟩ := Option.ne_none_iff_exists'.1 hsome
  obtain ⟨hmem, hlength, hbytes⟩ :=
    lookup_sound (p := []) hwf hfits (fun _ i hi => absurd hi (Nat.not_lt_zero i)) he
  refine habsent e hmem ((prefix_of_bytes hlength.le fun i hi => ?_).eq_of_length hlength)
  rw [hbytes i (hlength ▸ hi), c_str_of_lt (hlength ▸ hi)]

end Lookup

theorem Keeps.removes {tree : Node} {stored : List Element} (h : Keeps tree stored)
    {key : List UInt8} (hkey : Erasable stored key) (hfour : ¬ LeafOfFour key tree)
    (behind : Nat → UInt8) : Removes tree stored behind key := by
  obtain ⟨herased, helems⟩ := h.erased hkey hfour behind
  refine ⟨?_, fun e he hne memory => ?_, herased.wf.counted⟩
  · refine lookupRoot_eq_none herased.wf hkey.fits fun e he => ?_
    exact (mem_without.1 (helems.subset he)).2
  · exact lookupRoot_of_mem herased.wf (helems.symm.subset (mem_without.2 ⟨he, hne⟩))
      (h.fits e he) memory

/-! ## The `Node16` with four children -/

/-- The new `Node4` keeps the last slot: a second copy of the last child, or the erased leaf. -/
theorem eraseNode16_four {hdr : Header} {key : Nat → UInt8} {child : Nat → Node}
    {path : List UInt8} {s : Nat} (hstores : hdr.Stores path)
    (hok : LayoutOK hdr.count (.node16 key) (presentIn child)) (hcount : hdr.count = 4)
    (hs : s < 4) :
    ¬ Counted (eraseNode16 hdr key child s) ∨
      IsInner (eraseNode16 hdr key child s) path (children hdr.count (.node16 key) child) := by
  obtain ⟨-, hasc, hused⟩ := layoutOK_node16.1 hok
  have hshrink : hdr.decrement.count = 3 := (by omega : hdr.count - 1 = 3)
  rw [hcount] at hasc hused
  rw [eraseNode16]
  dsimp only
  rw [if_pos hshrink, hcount]
  rcases Nat.lt_or_ge s 3 with hlt | hge
  · refine .inl fun hcounted => ?_
    cases hcounted with
    | inner hcounted hkids =>
        rw [children_node4, map_map] at hcounted
        have hall := (dedup_sublist _).eq_of_length (hcounted.symm.trans (by simp))
        have hbytes : ((range 4).map (copyOf (removeAt key s 4) 4 0)).Nodup :=
          dedup_eq_self.1 hall
        -- The bytes of the last two slots are the same.
        have hsame : copyOf (removeAt key s 4) 4 0 2 = copyOf (removeAt key s 4) 4 0 3 := by
          have hthree : removeAt key s 4 3 = key 3 := by
            rw [removeAt, if_neg (by omega), if_neg (by omega)]
          rw [copyOf, copyOf, if_pos (by omega), if_pos (by omega), hthree]
          exact removeAt_of_le (by omega) (by omega)
        have hslots := inj_on_of_nodup_map hbytes (mem_range.2 (by omega : 2 < 4))
          (mem_range.2 (by omega : 3 < 4)) hsame
        omega
  · obtain rfl : s = 3 := by omega
    have hkept : ∀ {α : Type} (a : Nat → α) (default : α) (i : Nat), i < 4 →
        copyOf (removeAt a 3 4) 4 default i = a i := by
      intro α a default i hi
      rw [copyOf, if_pos hi]
      rcases Nat.lt_or_ge i 3 with hlt | hge
      · exact removeAt_of_lt hlt
      · rw [removeAt, if_neg (by omega), if_neg (by omega)]
    refine .inr ⟨_, _, _, rfl, hstores.withCount 4, layoutOK_node4.2 ⟨le_rfl, ?_, ?_⟩, ?_⟩
    · intro i j hij (hj : j < 4)
      rw [hkept key 0 i (by omega), hkept key 0 j hj]
      exact hasc i j hij hj
    · intro i (hi : i < 4)
      rw [presentIn, hkept child .null i hi]
      exact hused i hi
    · rw [children_node4, children_node16]
      refine Perm.of_eq (map_congr_left fun i hi => ?_)
      rw [hkept key 0 i (mem_range.1 hi), hkept child .null i (mem_range.1 hi)]

theorem LeafOfFour.mem {key : List UInt8} {n : Node} (h : LeafOfFour key n) :
    ∃ e ∈ elems n, e.key = key := by
  induction h with
  | here hcount hmem hkey =>
      refine ⟨_, ?_, hkey⟩
      rw [elems_inner]
      exact mem_flatMap.2 ⟨_, hmem, mem_singleton_self _⟩
  | deeper hmem h ih =>
      obtain ⟨e, he, hkey⟩ := ih
      refine ⟨e, ?_, hkey⟩
      rw [elems_inner]
      exact mem_flatMap.2 ⟨_, hmem, he⟩

/-- A wrong count below a node is one below its parent. -/
theorem not_counted_update {path : List UInt8} {hdr : Header} {lay : Layout} {child : Nat → Node}
    (hstores : hdr.Stores path) (hok : LayoutOK hdr.count lay (presentIn child)) {b : UInt8}
    {s : Nat} {c : Node} (hmem : (b, s) ∈ entries hdr.count lay (presentIn child))
    (hc : ¬ Counted c) : ¬ Counted (.inner hdr lay (Function.update child s c)) := by
  have hpresent : c.present = true := by
    cases c with
    | null => exact absurd .null hc
    | leaf e => rfl
    | inner hdr lay child => rfl
  obtain ⟨others, -, hdr', lay', child', heq, -, -, hperm⟩ :=
    replaceChild_isInner hstores hok hmem hpresent
  intro hcounted
  rw [heq] at hcounted
  cases hcounted with
  | inner hcount hkids => exact hc (hkids b c (hperm.mem_iff.2 mem_cons_self))

/-- Either a count is wrong afterwards, or the tree still holds what it held. -/
theorem erase_four {p key : List UInt8} {n : Node} (h : WF p n) (hlength : key.length < 2 ^ 32)
    (behind : Nat → UInt8) : p <+: key → LeafOfFour key n →
      ¬ Counted (erase (c_str key behind) key.length n p.length) ∨
        WF p (erase (c_str key behind) key.length n p.length) ∧
          elems (erase (c_str key behind) key.length n p.length) ~ elems n := by
  induction h with
  | leaf hkey => exact fun _ hfour => nomatch hfour
  | @inner p path hdr lay child hstores hok hcount hkids ih =>
      intro hp hfour
      obtain ⟨e, he, hekey⟩ := hfour.mem
      obtain ⟨b, s, hs, hb⟩ := exists_entry hkids he
      rw [hekey] at hb
      have hpath : p ++ path <+: key := (prefix_append _ [b]).trans hb
      have hshort : ¬ key <+: p ++ path := by
        intro hpre
        have hle := (hb.trans hpre).length_le
        rw [length_append, length_singleton] at hle
        omega
      have hmem : (b, child s) ∈ children hdr.count lay child := mem_map.2 ⟨_, hs, rfl⟩
      have hkid := hkids b _ hmem
      rcases erase_inner hstores hok hcount hkids hlength behind hp hshort with
        ⟨c, hc, herase⟩ | ⟨front, x, y, hparts, -⟩
      · obtain rfl : c = b := (byteAt_length hc).symm.trans (byteAt_length hb)
        rw [herase, (hok.findChild_iff.1 hs).1]
        dsimp only
        -- The leaf is at this node, where the slip happens, or below the child.
        cases hfour with
        | @here _ bytes _ b' e' hcount4 hmem' hkey' =>
            obtain rfl : b' = c := by
              have hleaf := (hkids b' _ hmem').prefix_key (mem_singleton_self e')
              exact (byteAt_length hleaf).symm.trans (hkey' ▸ byteAt_length hb)
            have hchild : child s = .leaf e' := hok.child_unique hmem hmem'
            rw [if_pos ((isMatchingLeaf_iff hkid hpath hlength behind).2 ⟨e', hchild, hkey'⟩)]
            have hs4 : s < 4 := by
              rw [entries_node16, mem_slots] at hs
              omega
            refine (eraseNode16_four hstores hok hcount4 hs4).imp_right fun hinner => ?_
            have hkidsLength : 2 ≤ (children hdr.count (.node16 bytes) child).length := by
              rwa [children, length_map, hok.length_eq]
            obtain ⟨hwf, helems⟩ := hinner.wf (p := p) hkidsLength hkids
            rw [← elems_inner] at helems
            exact ⟨hwf, helems⟩
        | @deeper _ _ _ b' n hmem' hfour' =>
            obtain ⟨e', he', hkey'⟩ := hfour'.mem
            obtain rfl : b' = c := by
              have hbelow := (hkids b' _ hmem').prefix_key he'
              exact (byteAt_length hbelow).symm.trans (hkey' ▸ byteAt_length hb)
            obtain rfl : child s = n := hok.child_unique hmem hmem'
            rw [if_neg]
            · rcases ih b' _ hmem hb hfour' with hnot | ⟨hwf, helems⟩
              · exact .inl (not_counted_update hstores hok hs hnot)
              · obtain ⟨hwf', others, hothers, helems'⟩ :=
                  replaceChild_wf hstores hok hcount hkids hs hwf
                refine .inr ⟨hwf', helems'.trans ((helems.append_right _).trans ?_)⟩
                rw [elems_inner]
                exact (hothers.flatMap_right fun bn => elems bn.2).symm
            · rw [isMatchingLeaf_iff hkid hpath hlength behind]
              rintro ⟨e'', hleaf, -⟩
              rw [hleaf] at hfour'
              cases hfour'
      · exact absurd hpath hparts.not_initial

theorem erase_removes_iff {tree : Node} {stored : List Element}
    (h : Reachable (fun tree key => ¬ LeafOfFour key tree) tree stored) {key : List UInt8}
    (hkey : Erasable stored key) (behind : Nat → UInt8) :
    Removes tree stored behind key ↔ ¬ LeafOfFour key tree := by
  have hkeeps := h.keeps
  refine ⟨fun hremoves hfour => ?_, fun hfour => hkeeps.removes hkey hfour behind⟩
  obtain ⟨other, hother, -⟩ := hkey.other
  obtain ⟨hwf, hperm⟩ := hkeeps.wf hother
  obtain ⟨e, he, rfl⟩ := hfour.mem
  obtain ⟨hgone, hkept, hcounted⟩ := hremoves
  have hroot : eraseRoot tree behind e.key = erase (c_str e.key behind) e.key.length tree 0 := by
    rw [eraseRoot, keyLength, Nat.mod_eq_of_lt hkey.fits]
  rw [hroot] at hgone hcounted
  rcases erase_four hwf hkey.fits behind (prefix_append [] _) hfour with hnot | ⟨hwf', helems⟩
  · exact hnot hcounted
  · have hfound := lookupRoot_of_mem hwf' (helems.symm.subset he) hkey.fits behind
    exact Option.some_ne_none _ (hfound.symm.trans (hgone behind))

/-- The encodings of five strings of one character. -/
def letters : List Element :=
  [⟨[97, 0], 1⟩, ⟨[98, 0], 2⟩, ⟨[99, 0], 3⟩, ⟨[100, 0], 4⟩, ⟨[101, 0], 5⟩]

/-- A `Node16` over five leaves. -/
def lettersTree : Node :=
  bulkNode (bulkHeader ⟨[97, 0], 1⟩ 0 0 5) [97, 98, 99, 100, 101] (letters.map .leaf)

theorem reachable_letters (allowed : Node → List UInt8 → Prop) :
    Reachable allowed lettersTree letters := by
  refine .bulk_insert ?_ ?_ ?_ ⟨2, fun fuel hfuel => ?_⟩
  · decide
  · unfold Independent
    decide
  · decide
  · obtain ⟨fuel, rfl⟩ := Nat.exists_eq_add_of_le' hfuel
    rfl

theorem spared_letters (key : List UInt8) : ¬ LeafOfFour key lettersTree := by
  intro h
  have hkids : ∀ b n, (b, n) ∈ children 5 (.node16 fun i => [97, 98, 99, 100, 101].getD i 0)
      (fun i => (letters.map .leaf).getD i .null) → ∃ e, n = .leaf e := by
    intro b n hmem
    rw [children_node16, mem_map] at hmem
    obtain ⟨i, hi, heq⟩ := hmem
    cases heq
    rw [mem_range] at hi
    interval_cases i <;> exact ⟨_, rfl⟩
  cases h with
  | here hcount hmem hkey => exact absurd hcount (by decide)
  | deeper hmem h =>
      obtain ⟨e, rfl⟩ := hkids _ _ hmem
      cases h

theorem removes_letters : Removes lettersTree letters (fun _ => 0) [101, 0] := by
  refine (erase_removes_iff (reachable_letters _) ⟨?_, ?_, ?_⟩ _).2 (spared_letters _)
  · decide
  · unfold PrefixFree
    decide
  · decide

/-- Of four letters the last is erased, and still found. -/
theorem not_removes_letters :
    ¬ ∀ tree stored, Reachable (fun _ _ => True) tree stored → ∀ behind key,
      Erasable stored key → Removes tree stored behind key := by
  intro h
  have hreachable : Reachable (fun _ _ => True)
      (eraseRoot lettersTree (fun _ => 0) [101, 0]) (without [101, 0] letters) := by
    refine .erase (reachable_letters _) ⟨?_, ?_, ?_⟩ trivial _
    · decide
    · unfold PrefixFree
      decide
    · decide
  have herasable : Erasable (without [101, 0] letters) [100, 0] := by
    refine ⟨?_, ?_, ?_⟩
    · decide
    · unfold PrefixFree
      decide
    · decide
  have hremoves := h _ _ hreachable (fun _ => 0) _ herasable
  exact absurd (hremoves.gone fun _ => 0) (by decide +kernel)

end ART
end TLI
