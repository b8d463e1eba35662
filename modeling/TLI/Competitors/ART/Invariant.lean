import Mathlib.Data.List.GetD
import TLI.Competitors.ART.Grow
import TLI.Library.Lexicographic

/-!
# Invariant — well-formed subtrees and the elements they hold

* `elems` — the elements below a node, in the order of its positions.
* `WF p n` — `n` may stand behind the path `p`: every key below starts with the bytes on the way
  to it, and an inner node has at least two children and keeps its compressed path.

A well-formed subtree holds its keys in lexicographic order, and any two of them part at the byte
that separates two children.
-/

namespace TLI
namespace ART

open Loop List Lexicographic

/-! ## Bytes of a key -/

theorem byteAt_of_initial {p key : List UInt8} (h : p <+: key) {i : Nat} (hi : i < p.length) :
    byteAt key i = byteAt p i := by
  obtain ⟨rest, rfl⟩ := h
  exact getD_append _ _ _ _ hi

theorem byteAt_length {p key : List UInt8} {b : UInt8} (h : p ++ [b] <+: key) :
    byteAt key p.length = b := by
  rw [byteAt_of_initial h (by simp)]
  exact (getD_append_right _ _ _ _ le_rfl).trans (by simp)

theorem byteAt_append {p path : List UInt8} {i : Nat} :
    byteAt (p ++ path) (p.length + i) = byteAt path i := by
  exact (getD_append_right _ _ _ _ (Nat.le_add_right _ _)).trans
    (by rw [Nat.add_sub_cancel_left]; rfl)

theorem c_str_of_lt {key : List UInt8} {behind : Nat → UInt8} {i : Nat} (hi : i < key.length) :
    c_str key behind i = byteAt key i :=
  if_pos hi

theorem prefix_of_bytes {p key : List UInt8} (hle : p.length ≤ key.length)
    (h : ∀ i, i < p.length → byteAt key i = byteAt p i) : p <+: key := by
  refine prefix_iff_getElem.2 ⟨hle, fun i hi => ?_⟩
  have hbyte := h i hi
  rwa [byteAt, byteAt, getD_eq_getElem _ _ hi, getD_eq_getElem _ _ (by omega), eq_comm] at hbyte

/-! ## Elements -/

def elems : Node → List Element
  | .null => []
  | .leaf e => [e]
  | .inner hdr lay child =>
      (entries hdr.count lay (presentIn child)).flatMap fun bs => elems (child bs.2)

theorem elems_inner (hdr : Header) (lay : Layout) (child : Nat → Node) :
    elems (.inner hdr lay child) =
      (children hdr.count lay child).flatMap fun bn => elems bn.2 := by
  rw [children, flatMap_map]
  rfl

inductive WF : List UInt8 → Node → Prop
  | leaf {p : List UInt8} {e : Element} (hkey : p <+: e.key) : WF p (.leaf e)
  | inner {p path : List UInt8} {hdr : Header} {lay : Layout} {child : Nat → Node}
      (hstores : hdr.Stores path) (hok : LayoutOK hdr.count lay (presentIn child))
      (hcount : 2 ≤ hdr.count)
      (hkids : ∀ b n, (b, n) ∈ children hdr.count lay child → WF (p ++ path ++ [b]) n) :
      WF p (.inner hdr lay child)

theorem IsInner.wf {p path : List UInt8} {n : Node} {kids : List (UInt8 × Node)}
    (h : IsInner n path kids) (hcount : 2 ≤ kids.length)
    (hkids : ∀ b m, (b, m) ∈ kids → WF (p ++ path ++ [b]) m) :
    WF p n ∧ elems n ~ kids.flatMap fun bn => elems bn.2 := by
  obtain ⟨hdr, lay, child, rfl, hstores, hok, hperm⟩ := h
  refine ⟨.inner hstores hok ?_ fun b m hmem => hkids b m (hperm.mem_iff.1 hmem), ?_⟩
  · rwa [← hperm.length_eq, children, length_map, hok.length_eq] at hcount
  · rw [elems_inner]
    exact hperm.flatMap_right _

/-- The children of a node ascend by their bytes. -/
theorem LayoutOK.children_sorted {count : Nat} {lay : Layout} {child : Nat → Node}
    (hok : LayoutOK count lay (presentIn child)) :
    (children count lay child).Pairwise fun x y => x.1 < y.1 :=
  pairwise_map.2 hok.entries_sorted

/-- A key byte leads to one child. -/
theorem LayoutOK.child_unique {count : Nat} {lay : Layout} {child : Nat → Node}
    (hok : LayoutOK count lay (presentIn child)) {b : UInt8} {m m' : Node}
    (hm : (b, m) ∈ children count lay child) (hm' : (b, m') ∈ children count lay child) :
    m = m' := by
  obtain ⟨⟨b, s⟩, hs, heq⟩ := mem_map.1 hm
  obtain ⟨⟨b', s'⟩, hs', heq'⟩ := mem_map.1 hm'
  cases heq
  cases heq'
  rw [hok.slot_unique hs hs']

namespace WF

variable {p : List UInt8} {n : Node}

theorem present (h : WF p n) : n.present = true := by
  cases h <;> rfl

/-- Every key below a node starts with the path to the node. -/
theorem prefix_key (h : WF p n) {e : Element} (he : e ∈ elems n) : p <+: e.key := by
  induction h with
  | leaf hkey =>
      rw [mem_singleton.1 he]
      exact hkey
  | inner hstores hok hcount hkids ih =>
      rw [elems_inner, mem_flatMap] at he
      obtain ⟨⟨b, m⟩, hmem, he⟩ := he
      have hpre := ih b m hmem he
      rw [append_assoc] at hpre
      exact (prefix_append _ _).trans hpre

theorem elems_ne_nil (h : WF p n) : elems n ≠ [] := by
  induction h with
  | leaf hkey => exact cons_ne_nil _ _
  | @inner p path hdr lay child hstores hok hcount hkids ih =>
      have hlength : (children hdr.count lay child).length = hdr.count := by
        rw [children, length_map, hok.length_eq]
      obtain ⟨⟨b, m⟩, hmem⟩ := exists_mem_of_length_pos (by omega :
        0 < (children hdr.count lay child).length)
      intro hnil
      rw [elems_inner, flatMap_eq_nil_iff] at hnil
      exact ih b m hmem (hnil _ hmem)

/-- Keys below different children part at the byte of the children. -/
theorem parts {front : List UInt8} {b c : UInt8} {m m' : Node} (hm : WF (front ++ [b]) m)
    (hm' : WF (front ++ [c]) m') (hne : b ≠ c) {e e' : Element} (he : e ∈ elems m)
    (he' : e' ∈ elems m') : Parts front e.key e'.key b c :=
  ⟨hm.prefix_key he, hm'.prefix_key he', hne⟩

/-- The elements below a node are in lexicographic order. -/
theorem elems_sorted (h : WF p n) : (elems n).Pairwise fun e e' => e.key < e'.key := by
  induction h with
  | leaf hkey => exact pairwise_singleton _ _
  | @inner p path hdr lay child hstores hok hcount hkids ih =>
      rw [elems_inner, pairwise_flatMap]
      refine ⟨fun bn hbn => ih bn.1 bn.2 hbn, ?_⟩
      refine hok.children_sorted.imp_of_mem fun hx hy hlt e he e' he' => ?_
      exact (parts (hkids _ _ hx) (hkids _ _ hy) (ne_of_lt hlt) he he').lt hlt

/-- Two elements below a node are the same, or their keys are no prefixes of each other. -/
theorem prefixFree (h : WF p n) {e e' : Element} (he : e ∈ elems n) (he' : e' ∈ elems n) :
    e = e' ∨ ¬ e.key <+: e'.key := by
  induction h with
  | leaf hkey => exact Or.inl ((mem_singleton.1 he).trans (mem_singleton.1 he').symm)
  | @inner p path hdr lay child hstores hok hcount hkids ih =>
      rw [elems_inner, mem_flatMap] at he he'
      obtain ⟨⟨b, m⟩, hmem, he⟩ := he
      obtain ⟨⟨c, m'⟩, hmem', he'⟩ := he'
      by_cases hbc : b = c
      · subst hbc
        cases hok.child_unique hmem hmem'
        exact ih b m hmem he he'
      · exact Or.inr (parts (hkids _ _ hmem) (hkids _ _ hmem') hbc he he').not_initial

end WF

/-- A child replaced by a well-formed subtree. -/
theorem replaceChild_wf {p path : List UInt8} {hdr : Header} {lay : Layout} {child : Nat → Node}
    (hstores : hdr.Stores path) (hok : LayoutOK hdr.count lay (presentIn child))
    (hcount : 2 ≤ hdr.count)
    (hkids : ∀ b n, (b, n) ∈ children hdr.count lay child → WF (p ++ path ++ [b]) n)
    {b : UInt8} {s : Nat} {c : Node} (hmem : (b, s) ∈ entries hdr.count lay (presentIn child))
    (hc : WF (p ++ path ++ [b]) c) :
    WF p (.inner hdr lay (Function.update child s c)) ∧
      ∃ others, children hdr.count lay child ~ (b, child s) :: others ∧
        elems (.inner hdr lay (Function.update child s c)) ~
          elems c ++ others.flatMap fun bn => elems bn.2 := by
  obtain ⟨others, hothers, hinner⟩ := replaceChild_isInner hstores hok hmem hc.present
  have hlength : 2 ≤ ((b, c) :: others).length := by
    rwa [length_cons, ← length_cons (a := (b, child s)), ← hothers.length_eq, children, length_map,
      hok.length_eq]
  obtain ⟨hwf, hperm⟩ := hinner.wf (p := p) hlength fun b' m hbm => by
    rcases mem_cons.1 hbm with heq | hbm
    · cases heq
      exact hc
    · exact hkids b' m (hothers.mem_iff.2 (mem_cons_of_mem _ hbm))
  rw [flatMap_cons] at hperm
  exact ⟨hwf, others, hothers, hperm⟩

/-! ## The smallest key -/

theorem WF.minimum_eq {p : List UInt8} {n : Node} (h : WF p n) : minimum n = (elems n).head? := by
  induction h with
  | leaf hkey => rfl
  | @inner p path hdr lay child hstores hok hcount hkids ih =>
      cases hentries : entries hdr.count lay (presentIn child) with
      | nil =>
          have hlength := hok.length_eq
          rw [hentries, length_nil] at hlength
          omega
      | cons bs rest =>
          obtain ⟨b, s⟩ := bs
          have hmem : (b, child s) ∈ children hdr.count lay child := by
            rw [children, hentries]
            exact mem_cons_self
          have hfirst : firstSlot lay (fun s => (child s).present) = some s :=
            firstSlot_eq hentries
          rw [minimum, hfirst, elems, hentries, flatMap_cons]
          simp only
          rw [ih b _ hmem, head?_append_of_ne_nil _ (hkids b _ hmem).elems_ne_nil]

/-- The smallest key starts with the path to the node and its compressed path. -/
theorem prefix_minKey {p path : List UInt8} {hdr : Header} {lay : Layout} {child : Nat → Node}
    (hstores : hdr.Stores path) (hok : LayoutOK hdr.count lay (presentIn child))
    (hcount : 2 ≤ hdr.count)
    (hkids : ∀ b n, (b, n) ∈ children hdr.count lay child → WF (p ++ path ++ [b]) n) :
    p ++ path <+: minKey (.inner hdr lay child) := by
  have hwf : WF p (.inner hdr lay child) := .inner hstores hok hcount hkids
  obtain ⟨e, rest, helems⟩ := exists_cons_of_ne_nil hwf.elems_ne_nil
  have he : e ∈ elems (.inner hdr lay child) := helems ▸ mem_cons_self
  rw [minKey, hwf.minimum_eq, helems, head?_cons, Option.map_some, Option.getD_some]
  rw [elems_inner, mem_flatMap] at he
  obtain ⟨⟨b, m⟩, hmem, he⟩ := he
  exact (prefix_append _ _).trans ((hkids b m hmem).prefix_key he)

/-! ## Comparison with a compressed path -/

/-- Stored bytes and bytes reloaded from the smallest key compare like the whole path. -/
theorem prefixMismatch_eq {p path least : List UInt8} {hdr : Header} (hstores : hdr.Stores path)
    (hleast : p ++ path <+: least) (key : Nat → UInt8) (keyLength : Nat) :
    prefixMismatch hdr least key keyLength p.length =
      scan (fun pos => decide (key (p.length + pos) ≠ byteAt path pos))
        (min (unsignedSub keyLength p.length) path.length) 0 := by
  simp only [prefixMismatch, hstores.length_eq]
  have hle : min (unsignedSub keyLength p.length) path.length ≤ path.length := min_le_right _ _
  generalize min (unsignedSub keyLength p.length) path.length = compBytes at hle
  have hstored : ∀ n, n ≤ path.length → n ≤ maxPrefixLength →
      scan (fun pos => decide (key (p.length + pos) ≠ hdr.prefixBytes pos)) n 0 =
        scan (fun pos => decide (key (p.length + pos) ≠ byteAt path pos)) n 0 := by
    intro n hn hmax
    refine scan_congr fun j _ hj => ?_
    rw [hstores.byte_eq j (by omega) (by omega)]
  have hreloaded : scan (fun pos => decide (key (p.length + pos) ≠ byteAt least (p.length + pos)))
      (compBytes - maxPrefixLength) maxPrefixLength =
        scan (fun pos => decide (key (p.length + pos) ≠ byteAt path pos))
          (compBytes - maxPrefixLength) maxPrefixLength := by
    refine scan_congr fun j hj hj' => ?_
    rw [byteAt_of_initial hleast (by rw [length_append]; omega), byteAt_append]
  split
  · rename_i hlong
    rw [hstored _ (by omega) le_rfl, hreloaded]
    have hadd := scan_add (fun pos => decide (key (p.length + pos) ≠ byteAt path pos))
      maxPrefixLength (compBytes - maxPrefixLength) 0
    rw [Nat.add_sub_cancel' (by omega), Nat.zero_add] at hadd
    exact hadd.symm
  · exact hstored _ hle (by omega)

/-- A key behind the path to a node either goes on along the compressed path or parts from it. -/
theorem prefixMismatch_cases {p path least key : List UInt8} {hdr : Header}
    (hstores : hdr.Stores path) (hleast : p ++ path <+: least) (behind : Nat → UInt8)
    (hkey : p <+: key) (hlength : key.length < 2 ^ 32) (hshort : ¬ key <+: p ++ path) :
    p ++ path <+: key ∧
        prefixMismatch hdr least (c_str key behind) key.length p.length = path.length ∨
      ∃ front x y, Parts (p ++ front) (p ++ path) key x y ∧
        prefixMismatch hdr least (c_str key behind) key.length p.length = front.length := by
  rw [prefixMismatch_eq hstores hleast, unsignedSub_eq hkey.length_le hlength]
  by_cases hpath : p ++ path <+: key
  · refine Or.inl ⟨hpath, ?_⟩
    have hle := hpath.length_le
    rw [length_append] at hle
    rw [min_eq_right (by omega)]
    rw [scan_eq_end, Nat.zero_add]
    intro j _ hj
    rw [c_str_of_lt (by omega), byteAt_of_initial hpath (by rw [length_append]; omega),
      byteAt_append]
    simp
  · obtain ⟨front, x, y, hparts⟩ := exists_parts (prefix_append p path) hkey
      (fun h => (h.elim hpath hshort).elim) fun heq => hpath (heq ▸ prefix_rfl)
    refine Or.inr ⟨front, x, y, hparts, ?_⟩
    have hfront := hparts.left.length_le
    have hfront' := hparts.right.length_le
    simp only [length_append, length_singleton] at hfront hfront'
    refine scan_eq (Nat.zero_le _) (by omega) (fun j _ hj => ?_) ?_
    · have hj' : p.length + j < (p ++ front ++ [x]).length := by
        simp only [length_append, length_singleton]
        omega
      have hboth : byteAt (p ++ front ++ [x]) (p.length + j) =
          byteAt (p ++ front ++ [y]) (p.length + j) := by
        rw [byteAt_of_initial (prefix_append (p ++ front) [x]) (by rw [length_append]; omega),
          byteAt_of_initial (prefix_append (p ++ front) [y]) (by rw [length_append]; omega)]
      rw [c_str_of_lt (by omega), byteAt_of_initial hparts.right (by simpa using hj'), ← hboth,
        ← byteAt_of_initial hparts.left hj', byteAt_append]
      simp
    · have hx := byteAt_length hparts.left
      have hy := byteAt_length hparts.right
      rw [length_append] at hx hy
      rw [byteAt_append] at hx
      rw [c_str_of_lt (by omega), hx, hy]
      exact decide_eq_true hparts.ne.symm

/-- The byte of a key behind a path that it goes on from. -/
theorem exists_nextByte {front key : List UInt8} (hfront : front <+: key) (hshort : ¬ key <+: front)
    (behind : Nat → UInt8) :
    ∃ b, front ++ [b] <+: key ∧ c_str key behind front.length = b := by
  obtain ⟨b, hb⟩ := exists_next hfront hshort
  have hle := hb.length_le
  rw [length_append, length_singleton] at hle
  exact ⟨b, hb, by rw [c_str_of_lt (by omega), byteAt_length hb]⟩

/-- Where the children of a node have a key, the key goes on with the byte of the child. -/
theorem exists_entry {p path : List UInt8} {hdr : Header} {lay : Layout} {child : Nat → Node}
    (hkids : ∀ b n, (b, n) ∈ children hdr.count lay child → WF (p ++ path ++ [b]) n) {e : Element}
    (he : e ∈ elems (.inner hdr lay child)) :
    ∃ b s, (b, s) ∈ entries hdr.count lay (presentIn child) ∧ p ++ path ++ [b] <+: e.key := by
  rw [elems, mem_flatMap] at he
  obtain ⟨⟨b, s⟩, hs, he⟩ := he
  exact ⟨b, s, hs, (hkids b _ (mem_map.2 ⟨_, hs, rfl⟩)).prefix_key he⟩

/-- Some key below an inner node goes on behind the compressed path. -/
theorem exists_longer {p path : List UInt8} {hdr : Header} {lay : Layout} {child : Nat → Node}
    (hstores : hdr.Stores path) (hok : LayoutOK hdr.count lay (presentIn child))
    (hcount : 2 ≤ hdr.count)
    (hkids : ∀ b n, (b, n) ∈ children hdr.count lay child → WF (p ++ path ++ [b]) n) :
    ∃ e ∈ elems (.inner hdr lay child), p ++ path <+: e.key ∧ e.key ≠ p ++ path := by
  have hwf : WF p (.inner hdr lay child) := .inner hstores hok hcount hkids
  obtain ⟨e, he⟩ := exists_mem_of_ne_nil _ hwf.elems_ne_nil
  obtain ⟨b, s, -, hb⟩ := exists_entry hkids he
  refine ⟨e, he, (prefix_append _ [b]).trans hb, fun heq => ?_⟩
  have hle := (heq ▸ hb).length_le
  rw [length_append, length_singleton] at hle
  omega


end ART
end TLI
