import TLI.Competitors.ARTOLC.Stability

/-!
# Lookup — what a lookup knows after each of its steps

`lookupStep_facts`: a step leads from the facts at one place to the facts at the next one.  At the
end stands a leaf that is stored and has the key, or `none`, and then the key was not there when
the call began: `P` is that it was.
-/

namespace TLI
namespace ARTOLC

open List RadixGraph

variable {loadKey : TID → List UInt8} {keys : List UInt8 → Prop} {G : Ghost} {s : Shared}
  {pending retiring : Nat → Prop}

/-! ## Nodes that are not locked -/

/-- Only locked nodes are pending or retiring. -/
def Settled (s : Shared) (pending retiring : Nat → Prop) : Prop :=
  ∀ n, Free (s.word n) → ¬ pending n ∧ ¬ retiring n

namespace Tree

section

variable (h : Tree loadKey keys G pending retiring s) (hsettled : Settled s pending retiring)
  {n : Nat} (hn : n < s.allocated) (hfree : Free (s.word n))
include h hsettled hn hfree

theorem live_of_free : Live s.children root n := by
  rcases h.live hn with hlive | hobsolete | hretiring
  · exact hlive
  · exact absurd hobsolete (by rw [hfree.2]; decide)
  · exact absurd hretiring (hsettled n hfree).2

theorem count_of_free : G.entry n + s.prefixCount n = (G.label n).length :=
  h.count hn (hsettled n hfree).1

theorem bytes_of_free :
    s.prefixBytes n = ((G.label n).drop (G.entry n)).take maxStoredPrefixLength :=
  h.bytes hn (hsettled n hfree).1

/-- A byte of the prefix is a byte of the label. -/
theorem byte_of_free {i : Nat} (hi : i < s.prefixCount n) (hi' : i < maxStoredPrefixLength)
    (d : UInt8) : (G.label n)[G.entry n + i]? = some ((s.prefixBytes n).getD i d) := by
  have hcount := h.count_of_free hsettled hn hfree
  have hlt : G.entry n + i < (G.label n).length := by omega
  rw [h.bytes_of_free hsettled hn hfree, getD_eq_getElem?_getD, getElem?_take_of_lt hi',
    getElem?_drop, getElem?_eq_getElem hlt]
  rfl

end

theorem entry_root (h : Tree loadKey keys G pending retiring s)
    (hsettled : Settled s pending retiring) (hfree : Free (s.word root)) : G.entry root = 0 := by
  have hcount := h.count_of_free hsettled h.root_lt hfree
  rw [h.root_label, h.root_count] at hcount
  exact hcount

end Tree

/-! ## The steps -/

section Steps

variable {k : List UInt8} {P : Prop} {torn : Torn} {a : LookupAt}
  (h : Tree loadKey keys G pending retiring s) (hsettled : Settled s pending retiring)

include h hsettled

theorem LookupNode.root (hkeys : KeySet keys) (hk : keys k) (hfree : Free (s.word root)) :
    LookupNode G s k P ⟨root, s.word root, 0, false⟩ where
  reads := ⟨h.root_lt, hfree, le_rfl⟩
  le := Nat.zero_le _
  entry _ := (h.entry_root hsettled hfree).symm
  agree _ := .zero
  label _ := by
    rw [h.root_label]
    exact ⟨List.nil_prefix, length_pos_of_ne_nil (hkeys.ne_nil hk)⟩

/-- As long as the word is the same, the level is where the prefix begins. -/
theorem LookupNode.count (hnode : LookupNode G s k P a) (hv : s.word a.node = a.v) :
    a.level + s.prefixCount a.node = (G.label a.node).length := by
  rw [hnode.entry hv]
  exact h.count_of_free hsettled hnode.reads.lt (hv ▸ hnode.reads.free)

theorem LookupNode.behind (hnode : LookupNode G s k P a) (hcount : s.prefixCount a.node = 0) :
    LookupBehind G s k P a where
  reads := hnode.reads
  level hv := by
    rw [← hnode.count h hsettled hv, hcount, Nat.add_zero]
  agree hopt hv := by
    refine (hnode.agree hopt).isPrefix ?_
    rw [← hnode.count h hsettled hv, hcount, Nat.add_zero]
  label hP := ⟨(hnode.label hP).1, hnode.le.trans_lt (hnode.label hP).2⟩

/-- A stored key is longer than the prefix. -/
theorem LookupNode.noMatch (hnode : LookupNode G s k P a)
    (hlong : k.length ≤ a.level + s.prefixCount a.node) (hP : P) : s.word a.node ≠ a.v := by
  intro hv
  rw [hnode.count h hsettled hv] at hlong
  exact absurd (hnode.label hP).2 (not_lt.2 hlong)

variable (torn) in
theorem LookupPrefix.byte {i : Nat} (hpre : LookupPrefix G s k P a i)
    (hi : i < maxStoredPrefixLength) (hcount : s.word a.node = a.v → i < s.prefixCount a.node)
    (hv : s.word a.node = a.v) :
    (G.label a.node)[a.level + i]? = some (s.readByte torn a.node a.v i) := by
  rw [Shared.readByte, if_pos hv, hpre.node.entry hv]
  exact h.byte_of_free hsettled hpre.node.reads.lt (hv ▸ hpre.node.reads.free) (hcount hv)
    hi _

/-- A byte of the prefix of a stored key is the byte of the key. -/
theorem LookupPrefix.noMatch {i : Nat} (hpre : LookupPrefix G s k P a i)
    (hi : i < maxStoredPrefixLength) (hcount : s.word a.node = a.v → i < s.prefixCount a.node)
    (hne : s.readByte torn a.node a.v i ≠ keyByte torn k (a.level + i)) (hP : P) :
    s.word a.node ≠ a.v := by
  intro hv
  have hbyte := hpre.byte torn h hsettled hi hcount hv
  obtain ⟨rest, hrest⟩ := (hpre.node.label hP).1
  have hkey : k[a.level + i]? = (G.label a.node)[a.level + i]? := by
    rw [← hrest, getElem?_append_left (List.getElem?_eq_some_iff.1 hbyte).1]
  rw [keyByte_eq torn hpre.lt, hbyte] at hkey
  exact hne (Option.some.inj hkey).symm

theorem LookupPrefix.succ {i : Nat} (hpre : LookupPrefix G s k P a i)
    (hi : i < maxStoredPrefixLength) (hlt : a.level + i + 1 < k.length)
    (hcount : s.word a.node = a.v → i < s.prefixCount a.node)
    (heq : s.readByte torn a.node a.v i = keyByte torn k (a.level + i)) :
    LookupPrefix G s k P a (i + 1) where
  node := hpre.node
  room := hpre.room
  lt := hlt
  le := hi
  count hv := hcount hv
  agree hopt hv := by
    refine (hpre.agree hopt hv).succ (hpre.byte torn h hsettled hi hcount hv) ?_
    rw [heq]
    exact keyByte_eq torn hpre.lt

theorem LookupPrefix.behind_short {i : Nat} (hpre : LookupPrefix G s k P a i)
    (hi : min (s.prefixCount a.node) maxStoredPrefixLength ≤ i)
    (hshort : s.prefixCount a.node ≤ maxStoredPrefixLength) :
    LookupBehind G s k P { a with level := a.level + i } := by
  rw [min_eq_left hshort] at hi
  have hlevel : s.word a.node = a.v → a.level + i = (G.label a.node).length := fun hv => by
    rw [← hpre.node.count h hsettled hv, le_antisymm (hpre.count hv) hi]
  exact
    { reads := hpre.node.reads
      level := hlevel
      agree := fun hopt hv => (hpre.agree hopt hv).isPrefix (hlevel hv).ge
      label := fun hP => ⟨(hpre.node.label hP).1, hpre.lt⟩ }

theorem LookupPrefix.behind_long (hpre : LookupPrefix G s k P a maxStoredPrefixLength) :
    LookupBehind G s k P { a with
      level := a.level + maxStoredPrefixLength + s.prefixCount a.node - maxStoredPrefixLength
      optimisticPrefixMatch := true } := by
  have hlevel : a.level + maxStoredPrefixLength + s.prefixCount a.node - maxStoredPrefixLength =
      a.level + s.prefixCount a.node := by
    omega
  rw [hlevel]
  exact
    { reads := hpre.node.reads
      level := hpre.node.count h hsettled
      agree := fun hopt => by cases hopt
      label := fun hP => ⟨(hpre.node.label hP).1, hpre.room⟩ }

/-- A stored key that goes on with a byte is behind that child. -/
theorem LookupBehind.child (hbehind : LookupBehind G s k P a) (hv : s.word a.node = a.v)
    (hP : P → Present loadKey s k) {b : UInt8} (hb : k[a.level]? = some b) (hp : P) :
    ∃ r, s.children a.node b = some r ∧ ∀ t, r = .leaf t → loadKey t = k := by
  obtain ⟨t, ht, hkey⟩ := hP hp
  have hlive := h.live_of_free hsettled hbehind.reads.lt (hv ▸ hbehind.reads.free)
  have hlabel := (hbehind.label hp).1
  have hnode := h.labelled.route hlive ht (hkey ▸ hlabel)
  obtain ⟨b', r, hedge, hnext, hbelow⟩ := h.labelled.edge_of_below hnode
  have hbyte := prefix_concat hlabel (hbehind.level hv ▸ hb)
  cases next_unique hbyte (hkey ▸ hnext)
  refine ⟨r, hedge, fun t' hleaf => ?_⟩
  rcases hbelow with hleaf' | ⟨c, hnode', -⟩
  · rw [hleaf] at hleaf'
    cases hleaf'
    exact hkey
  · rw [hleaf] at hnode'
    cases hnode'

theorem LookupBehind.checked (hbehind : LookupBehind G s k P a) (hv : s.word a.node = a.v)
    (hP : P → Present loadKey s k) {b : UInt8} (hb : k[a.level]? = some b) {child : Option Child}
    (hchild : s.children a.node b = child) :
    LookupFacts loadKey G s k P (.descend a child) := by
  have hlive := h.live_of_free hsettled hbehind.reads.lt (hv ▸ hbehind.reads.free)
  have hedge : LookupEdge G s k a b :=
    ⟨hbehind.reads, hbehind.level hv, hb, fun hopt => hbehind.agree hopt hv⟩
  match child with
  | none =>
      intro hp
      obtain ⟨r, hr, -⟩ := hbehind.child h hsettled hv hP hb hp
      rw [hchild] at hr
      cases hr
  | some (.leaf t) =>
      refine ⟨b, hedge, h.labelled.leaf hchild, hlive.leaf_below (.leaf hchild), fun hp => ?_⟩
      obtain ⟨r, hr, hkey⟩ := hbehind.child h hsettled hv hP hb hp
      rw [hchild] at hr
      exact hkey t (Option.some.inj hr).symm
  | some (.node n) =>
      refine ⟨b, hedge, h.lt hchild, h.labelled.node hchild, fun _ => hchild, fun hp => ?_⟩
      exact h.present_of_edge hlive hchild
        (prefix_concat (hbehind.label hp).1 (hbehind.level hv ▸ hb)) (hP hp)

theorem LookupEdge.enter {b : UInt8} (hedge : LookupEdge G s k a b) (hv : s.word a.node = a.v)
    {child : Nat} {nv : UInt64} (hreads : Reads s child nv)
    (hlabel : G.label a.node ++ [b] <+: G.label child)
    (hchild : s.children a.node b = some (.node child))
    (hP : P → G.label child <+: k ∧ (G.label child).length < k.length) :
    LookupNode G s k P ⟨child, nv, a.level + 1, a.optimisticPrefixMatch⟩ where
  reads := hreads
  le := by
    have hlength := hlabel.length_le
    rwa [length_append, length_singleton, ← hedge.level] at hlength
  entry _ := by
    rw [hedge.level]
    exact h.entry (h.live_of_free hsettled hedge.reads.lt (hv ▸ hedge.reads.free)) hchild
  agree hopt := ⟨G.label a.node ++ [b], by rw [length_append, length_singleton, hedge.level],
    hlabel, prefix_concat (hedge.agree hopt) (hedge.level ▸ hedge.byte)⟩
  label := hP

omit h hsettled in
/-- The bytes that `checkKey` does not compare are known to be the same. -/
theorem LookupEdge.checkKey {b : UInt8} (hedge : LookupEdge G s k a b) {t : TID}
    (hkey : G.label a.node ++ [b] <+: loadKey t) (ht : Stored s t) (hP : P → loadKey t = k) :
    LookupFacts loadKey G s k P
      (.done (checkKey loadKey t k (if a.optimisticPrefixMatch then 0 else a.level + 1))) := by
  rw [ARTOLC.checkKey]
  by_cases hsame : (loadKey t).length = k.length ∧
      (loadKey t).drop (if a.optimisticPrefixMatch then 0 else a.level + 1) =
        k.drop (if a.optimisticPrefixMatch then 0 else a.level + 1)
  · rw [if_pos hsame]
    refine ⟨ht, ?_⟩
    cases hopt : a.optimisticPrefixMatch with
    | true =>
        rw [hopt, if_pos rfl] at hsame
        exact hsame.2
    | false =>
        rw [hopt, if_neg Bool.false_ne_true] at hsame
        have hnext := prefix_concat (hedge.agree hopt) (hedge.level ▸ hedge.byte)
        have hlength : (G.label a.node ++ [b]).length = a.level + 1 := by
          rw [length_append, length_singleton, hedge.level]
        rw [← take_append_drop (a.level + 1) (loadKey t), hsame.2, ← hlength,
          ← prefix_iff_eq_take.1 hkey, prefix_iff_eq_take.1 hnext, length_take,
          min_eq_left hnext.length_le, take_append_drop]
  · rw [if_neg hsame]
    intro hp
    exact hsame ⟨by rw [hP hp], by rw [hP hp]⟩

end Steps

theorem lookupStep_facts (h : Tree loadKey keys G pending retiring s)
    (hsettled : Settled s pending retiring) (hkeys : KeySet keys) {k : List UInt8} (hk : keys k)
    {P : Prop} (hP : P → Present loadKey s k) {torn : Torn} {pc pc' : LookupPc}
    (hstep : lookupStep loadKey k s torn pc = some pc')
    (hfacts : LookupFacts loadKey G s k P pc) : LookupFacts loadKey G s k P pc' := by
  cases pc with
  | restart =>
      cases hstep
      split
      · rename_i hfree
        exact LookupNode.root h hsettled hkeys hk hfree
      · trivial
  | hasPrefix a =>
      cases hstep
      split
      · exact hfacts
      · rename_i hcount
        exact LookupNode.behind h hsettled hfacts (Nat.eq_zero_of_not_pos hcount)
  | fits a =>
      cases hstep
      split
      · rename_i hlong
        exact ⟨hfacts.reads, hfacts.noMatch h hsettled hlong⟩
      · rename_i hroom
        have hlt := not_le.1 hroom
        exact
          { node := hfacts
            room := hlt
            lt := (Nat.le_add_right _ _).trans_lt hlt
            le := Nat.zero_le _
            count := fun _ => Nat.zero_le _
            agree := fun hopt _ => hfacts.agree hopt }
  | loop a i =>
      cases hstep
      split
      · rename_i hi
        rw [lt_min_iff] at hi
        have hroom := hfacts.room
        exact ⟨hfacts, hi.2, by omega, fun _ => hi.1⟩
      · rename_i hi
        exact ⟨hfacts, not_lt.1 hi⟩
  | byte a i =>
      cases hstep
      obtain ⟨hpre, hi, hlt, hcount⟩ := hfacts
      split
      · rename_i hne
        exact ⟨hpre.node.reads, hpre.noMatch h hsettled hi hcount hne⟩
      · rename_i heq
        exact hpre.succ h hsettled hi hlt hcount (not_not.1 heq)
  | isLong a i =>
      cases hstep
      obtain ⟨hpre, hi⟩ := hfacts
      split
      · rename_i hlong
        rw [min_eq_right hlong.le] at hi
        exact ⟨hpre, le_antisymm hpre.le hi⟩
      · rename_i hshort
        exact hpre.behind_short h hsettled hi (not_lt.1 hshort)
  | skip a i =>
      cases hstep
      obtain ⟨hpre, rfl⟩ := hfacts
      exact hpre.behind_long h hsettled
  | getChild a =>
      cases hstep
      have hbehind : LookupBehind G s k P a := hfacts
      split
      · rename_i hlong
        exact fun hp => absurd (hbehind.label hp).2 (not_lt.2 hlong)
      · rename_i hlt
        refine ⟨hbehind, _, keyByte_eq torn (not_le.1 hlt), fun hv => ?_⟩
        rw [Shared.readChild, if_pos hv]
  | checkChild a child =>
      cases hstep
      obtain ⟨hbehind, b, hb, hchild⟩ := hfacts
      split
      · trivial
      · rename_i hv
        have hv' := not_not.1 hv
        exact hbehind.checked h hsettled hv' hP hb (hchild hv')
  | checkLeaf a t =>
      cases hstep
      obtain ⟨b, hedge, hkey, ht, hsame⟩ := hfacts
      split
      · trivial
      · exact hedge.checkKey hkey ht hsame
  | lockChild a child =>
      cases hstep
      obtain ⟨b, hedge, hlt, hlabel, hchild, hp⟩ := hfacts
      split
      · rename_i hfree
        exact ⟨b, hedge, ⟨hlt, hfree, le_rfl⟩, hlabel, hchild, hp⟩
      · trivial
  | checkParent a child nv =>
      cases hstep
      obtain ⟨b, hedge, hreads, hlabel, hchild, hp⟩ := hfacts
      split
      · trivial
      · rename_i hv
        have hv' := not_not.1 hv
        exact hedge.enter h hsettled hv' hreads hlabel (hchild hv') hp
  | noMatch a =>
      cases hstep
      split
      · trivial
      · rename_i hv
        exact fun hp => hfacts.2 hp (not_not.1 hv)
  | done result => cases hstep

end ARTOLC
end TLI
