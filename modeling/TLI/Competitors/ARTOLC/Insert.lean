import TLI.Competitors.ARTOLC.Lookup

/-!
# Insert — what an insert knows before it locks a node

`readStep_facts` goes from place to place, as `lookupStep_facts` does, until the thread asks for its
first lock.  Up to there it writes nothing.
-/

namespace TLI
namespace ARTOLC

open List RadixGraph

variable {loadKey : TID → List UInt8} {keys : List UInt8 → Prop} {G : Ghost} {s : Shared}
  {pending retiring : Nat → Prop} {k : List UInt8} {tid : TID} {torn : Torn}

/-! ## Bytes -/

/-- A key that begins with a word has the bytes of the word. -/
theorem keyByte_of_prefix (torn : Torn) {x kt : List UInt8} (h : x <+: kt) {i : Nat}
    (hi : i < x.length) : keyByte torn kt i = x[i] := by
  obtain ⟨rest, rfl⟩ := h
  have hlt : i < (x ++ rest).length := by
    rw [length_append]
    omega
  rw [keyByte, getD_eq_getElem?_getD, getElem?_eq_getElem hlt, Option.getD_some,
    getElem_append_left hi]

theorem keyBytes_of_prefix (torn : Torn) {x kt : List UInt8} (h : x <+: kt) {from_ n : Nat}
    (hn : from_ + n ≤ x.length) : keyBytes torn kt from_ n = (x.drop from_).take n := by
  refine ext_getElem ?_ fun i hi hi' => ?_
  · rw [keyBytes, length_map, length_range, length_take, length_drop]
    omega
  · have hlt : i < n := by
      rwa [keyBytes, length_map, length_range] at hi
    rw [getElem_take, getElem_drop]
    simp only [keyBytes, getElem_map, getElem_range]
    exact keyByte_of_prefix torn h (by omega)

/-- What `setPrefix` stores of a word of the length that is set. -/
theorem stored_take {x : List UInt8} {n : Nat} (hn : x.length = n) :
    stored (x.take (min n maxStoredPrefixLength)) n = x.take maxStoredPrefixLength := by
  subst hn
  rw [stored, take_take, min_self, min_comm, ← take_take, take_length]

/-! ## Children -/

theorem Shared.mem_childList {n : Nat} {r : Child} :
    r ∈ s.childList n ↔ ∃ b, s.children n b = some r := by
  rw [Shared.childList, mem_filterMap]
  constructor
  · rintro ⟨b, -, hb⟩
    exact ⟨_, hb⟩
  · rintro ⟨b, hb⟩
    refine ⟨b.toNat, mem_range.2 b.toNat_lt, ?_⟩
    rwa [UInt8.ofNat_toNat]

/-- A node with a child has any child. -/
theorem Shared.getAnyChild_of_child {n : Nat} {b : UInt8} {r : Child}
    (h : s.children n b = some r) :
    ∃ b' r', s.getAnyChild n = some r' ∧ s.children n b' = some r' := by
  have hmem : r ∈ s.childList n := Shared.mem_childList.2 ⟨b, h⟩
  suffices hany : ∃ r', s.getAnyChild n = some r' ∧ r' ∈ s.childList n by
    obtain ⟨r', hr', hmem'⟩ := hany
    obtain ⟨b', hb'⟩ := Shared.mem_childList.1 hmem'
    exact ⟨b', r', hr', hb'⟩
  rw [Shared.getAnyChild]
  cases hfind : (s.childList n).find? isLeaf with
  | some r' => exact ⟨r', rfl, mem_of_find?_eq_some hfind⟩
  | none =>
      rw [Option.none_or]
      split
      · exact ⟨_, head?_eq_some_head (ne_nil_of_mem hmem), head_mem _⟩
      · exact ⟨_, getLast?_eq_some_getLast (ne_nil_of_mem hmem), getLast_mem _⟩

/-! ## At a node -/

section AtNode

variable {a : InsertAt} (h : Tree loadKey keys G pending retiring s)
  (hsettled : Settled s pending retiring)

theorem entry_restart (hlt : root < s.allocated) : Entry G s k none root 0 where
  lt := hlt
  root _ := ⟨rfl, rfl⟩
  edge p hp := by cases hp

/-- The key goes to the node. -/
theorem Entry.agree {parent : Option Parent} {node level : Nat}
    (hentry : Entry G s k parent node level) : Agree (G.label node) k level := by
  cases hparent : parent with
  | none =>
      rw [(hentry.root hparent).2]
      exact .zero
  | some p =>
      have hedge := hentry.edge p hparent
      exact ⟨_, by rw [length_append, length_singleton, hedge.level], hedge.label, hedge.key⟩

include h

/-- A prefix is not that of the root. -/
theorem ne_root_of_count {n i : Nat} (hi : i < s.prefixCount n) : n ≠ root := by
  rintro rfl
  rw [h.root_count] at hi
  exact absurd hi (Nat.not_lt_zero _)

include hsettled

/-- As long as nothing has changed, the level is where the prefix begins. -/
theorem AtNode.level (hat : AtNode G s k a) (hsame : Same s a) : a.level = G.entry a.node := by
  obtain ⟨hword, hparent⟩ := hsame
  cases hp : a.parent with
  | none =>
      obtain ⟨hnode, hlevel⟩ := hat.entry.root hp
      have hfree : Free (s.word a.node) := hword ▸ hat.reads.free
      rw [hnode] at hfree
      rw [hlevel, hnode, h.entry_root hsettled hfree]
  | some p =>
      have hseen := hat.entry.edge p hp
      have hv := hparent p hp
      have hlive := h.live_of_free hsettled hseen.reads.lt (hv ▸ hseen.reads.free)
      rw [hseen.level]
      exact h.entry hlive (hseen.edge hv)

theorem AtNode.count (hat : AtNode G s k a) (hsame : Same s a) :
    a.level + s.prefixCount a.node = (G.label a.node).length := by
  rw [hat.level h hsettled hsame]
  exact h.count_of_free hsettled hat.reads.lt (hsame.1 ▸ hat.reads.free)

/-- The byte that is compared is a byte of the label. -/
theorem AtNode.curKey (hat : AtNode G s k a) (hsame : Same s a) {i : Nat}
    {kt : Option (List UInt8)} (hloaded : Loaded G a.node i kt) (hi : i < s.prefixCount a.node) :
    (G.label a.node)[a.level + i]? = some
      (if maxStoredPrefixLength ≤ i then keyByte torn (kt.getD []) (a.level + i)
        else s.readByte torn a.node a.v i) := by
  split
  · rename_i hlong
    have hcount := hat.count h hsettled hsame
    have hlt : a.level + i < (G.label a.node).length := by omega
    obtain ⟨k', rfl⟩ := Option.ne_none_iff_exists'.1 (hloaded.isSome hlong)
    rw [Option.getD_some, keyByte_of_prefix torn (hloaded.label k' rfl) hlt,
      getElem?_eq_getElem hlt]
  · rename_i hshort
    rw [Shared.readByte, if_pos hsame.1, hat.level h hsettled hsame]
    exact h.byte_of_free hsettled hat.reads.lt (hsame.1 ▸ hat.reads.free) hi (not_le.1 hshort) _

/-- The rest of a prefix that is stored as a whole. -/
theorem AtNode.splitReady_short (hat : AtNode G s k a) (hsame : Same s a) {i : Nat} {c : UInt8}
    (hdiffer : Differ (G.label a.node) k (a.level + i) c)
    (hi : i < s.prefixCount a.node)
    (hshort : s.prefixCount a.node ≤ maxStoredPrefixLength) :
    SplitReady G s k a.node a.level i c
      (((s.readBytes torn a.node a.v).drop (i + 1)).take (s.prefixCount a.node - i - 1)) where
  differ := hdiffer
  count := hat.count h hsettled hsame
  remaining := by
    have hcount := hat.count h hsettled hsame
    have hlength : ((G.label a.node).drop (a.level + i + 1)).length =
        s.prefixCount a.node - (i + 1) := by
      rw [length_drop]
      omega
    have hwhole : ((G.label a.node).drop a.level).length ≤ maxStoredPrefixLength := by
      rw [length_drop]
      omega
    rw [← stored_take hlength, Shared.readBytes, if_pos hsame.1,
      h.bytes_of_free hsettled hat.reads.lt (hsame.1 ▸ hat.reads.free),
      ← hat.level h hsettled hsame, take_of_length_le hwhole, drop_drop, Nat.sub_sub,
      min_eq_left ((Nat.sub_le _ _).trans hshort), Nat.add_assoc]

/-- The rest of a longer prefix, from a key below. -/
theorem AtNode.splitReady_long (hat : AtNode G s k a) (hsame : Same s a) {i : Nat} {c : UInt8}
    (hdiffer : Differ (G.label a.node) k (a.level + i) c) {kt : List UInt8}
    (hkt : G.label a.node <+: kt) :
    SplitReady G s k a.node a.level i c
      (keyBytes torn kt (a.level + i + 1)
        (if i < s.prefixCount a.node then
          min (s.prefixCount a.node - i - 1) maxStoredPrefixLength
        else maxStoredPrefixLength)) where
  differ := hdiffer
  count := hat.count h hsettled hsame
  remaining := by
    have hcount := hat.count h hsettled hsame
    have hlt := hdiffer.lt.1
    have hlength : ((G.label a.node).drop (a.level + i + 1)).length =
        s.prefixCount a.node - (i + 1) := by
      rw [length_drop]
      omega
    rw [if_pos (by omega), keyBytes_of_prefix torn hkt (by omega), ← stored_take hlength,
      Nat.sub_sub]

end AtNode

/-! ## The steps -/

/-- The next place of a step that writes nothing and locks nothing. -/
structure Knows (loadKey : TID → List UInt8) (G : Ghost) (s : Shared) (k : List UInt8) (tid : TID)
    (pc : InsertPc) : Prop where
  held : pc.held = []
  facts : InsertFacts loadKey G s k tid pc

section Steps

variable (h : Tree loadKey keys G pending retiring s) (hsettled : Settled s pending retiring)

include h

theorem Knows.restart : Knows loadKey G s k tid .restart :=
  ⟨rfl, entry_restart h.root_lt⟩

omit h in
theorem knows_lock {parent : Option Parent} {node level : Nat}
    (hentry : Entry G s k parent node level) (hfree : Free (s.word node)) :
    Knows loadKey G s k tid (.loop ⟨parent, node, s.word node, level⟩ 0 none) := by
  refine ⟨rfl, ⟨⟨hentry.lt, hfree, le_rfl⟩, hentry⟩, ⟨?_, ?_⟩, fun _ => hentry.agree⟩
  · intro k' hk'
    cases hk'
  · exact fun hlong => absurd hlong (by decide)

/-- At the first byte that is not stored the thread looks for a leaf. -/
theorem knows_loop {a : InsertAt} {i : Nat} {kt : Option (List UInt8)}
    (hfacts : InsertFacts loadKey G s k tid (.loop a i kt)) (hi : i < s.prefixCount a.node) :
    Knows loadKey G s k tid
      (if i = maxStoredPrefixLength then .walkLock a i none a.node else .byte a i kt) := by
  obtain ⟨hat, hloaded, hagree⟩ := hfacts
  have hroot := ne_root_of_count h hi
  split
  · refine ⟨rfl, ?_⟩
    exact
      { at_ := hat
        ne_root := hroot
        lt := hat.reads.lt
        walk_ne_root := hroot
        label := prefix_refl _
        count := fun _ => hi
        match_ := fun _ => hagree
        differ := fun c hc => by cases hc }
  · rename_i hne
    refine ⟨rfl, hat, hroot, ⟨hloaded.label, fun hlong => hloaded.isSome ?_⟩, fun _ => hi, hagree⟩
    omega

include hsettled

theorem knows_getChild {a : InsertAt} {i : Nat} {kt : Option (List UInt8)}
    (hfacts : InsertFacts loadKey G s k tid (.loop a i kt)) (hi : ¬ i < s.prefixCount a.node) :
    Knows loadKey G s k tid (.getChild a (a.level + i)) := by
  obtain ⟨hat, -, hagree⟩ := hfacts
  refine ⟨rfl, hat, fun hsame => ?_⟩
  have hcount := hat.count h hsettled hsame
  have hle := (hagree hsame).le.1
  have hlevel : a.level + i = (G.label a.node).length := by omega
  exact ⟨hlevel, (hagree hsame).isPrefix hlevel.ge⟩

theorem knows_byte (hkeys : KeySet keys) (hk : keys k) {a : InsertAt} {i : Nat}
    {kt : Option (List UInt8)} (hfacts : InsertFacts loadKey G s k tid (.byte a i kt))
    {curKey : UInt8}
    (hcur : curKey = if maxStoredPrefixLength ≤ i then keyByte torn (kt.getD []) (a.level + i)
      else s.readByte torn a.node a.v i) :
    Knows loadKey G s k tid
      (if curKey ≠ keyByte torn k (a.level + i) then .isLong a i kt curKey
        else .loop a (i + 1) kt) := by
  obtain ⟨hat, hroot, hloaded, hcount, hagree⟩ := hfacts
  have hlabel : Same s a → (G.label a.node)[a.level + i]? = some curKey := fun hsame => by
    rw [hcur]
    exact hat.curKey h hsettled hsame hloaded (hcount hsame.1)
  have hkey : Same s a → k[a.level + i]? = some (keyByte torn k (a.level + i)) := fun hsame =>
    keyByte_eq torn (h.agree_lt hkeys hk hat.reads.lt (hagree hsame))
  split
  · rename_i hne
    exact ⟨rfl, hat, hroot, hloaded, hcount, fun hsame =>
      (hagree hsame).differ (hlabel hsame) (hkey hsame) hne⟩
  · rename_i heq
    refine ⟨rfl, hat, hloaded, fun hsame => (hagree hsame).succ (hlabel hsame) ?_⟩
    rw [hkey hsame, not_not.1 heq]

omit h hsettled in
theorem knows_isLong {a : InsertAt} {i : Nat} {kt : Option (List UInt8)} {c : UInt8}
    (hfacts : InsertFacts loadKey G s k tid (.isLong a i kt c)) :
    Knows loadKey G s k tid
      (if maxStoredPrefixLength < s.prefixCount a.node then
        if i < maxStoredPrefixLength then .walkLock a i (some c) a.node
        else .copyLong a i (kt.getD []) c
      else .copyShort a i c) := by
  obtain ⟨hat, hroot, hloaded, hcount, hdiffer⟩ := hfacts
  split
  · rename_i hlong
    split
    · refine ⟨rfl, ?_⟩
      exact
        { at_ := hat
          ne_root := hroot
          lt := hat.reads.lt
          walk_ne_root := hroot
          label := prefix_refl _
          count := hcount
          match_ := fun hnone => by cases hnone
          differ := fun c' hc' hsame => by
            cases hc'
            exact ⟨hdiffer hsame, hlong⟩ }
    · rename_i hi
      obtain ⟨k', rfl⟩ := Option.ne_none_iff_exists'.1 (hloaded.isSome (not_lt.1 hi))
      exact ⟨rfl, hat, hroot, hloaded.label k' rfl, fun hsame => ⟨hdiffer hsame, hlong⟩⟩
  · rename_i hshort
    exact ⟨rfl, hat, hroot, hcount, not_lt.1 hshort, hdiffer⟩

theorem knows_copyShort {a : InsertAt} {i : Nat} {c : UInt8}
    (hfacts : InsertFacts loadKey G s k tid (.copyShort a i c)) :
    Knows loadKey G s k tid
      (.lockParent a i c (((s.readBytes torn a.node a.v).drop (i + 1)).take
        (s.prefixCount a.node - i - 1))) := by
  obtain ⟨hat, hroot, hcount, hshort, hdiffer⟩ := hfacts
  refine ⟨rfl, hat, hroot, fun hsame => ?_⟩
  exact hat.splitReady_short h hsettled hsame (hdiffer hsame) (hcount hsame.1) hshort

theorem knows_copyLong {a : InsertAt} {i : Nat} {kt : List UInt8} {c : UInt8}
    (hfacts : InsertFacts loadKey G s k tid (.copyLong a i kt c)) :
    Knows loadKey G s k tid
      (.lockParent a i c (keyBytes torn kt (a.level + i + 1)
        (if i < s.prefixCount a.node then
          min (s.prefixCount a.node - i - 1) maxStoredPrefixLength
        else maxStoredPrefixLength))) := by
  obtain ⟨hat, hroot, hkt, hdiffer⟩ := hfacts
  refine ⟨rfl, hat, hroot, fun hsame => ?_⟩
  exact hat.splitReady_long h hsettled hsame (hdiffer hsame).1 hkt

omit hsettled in
/-- Every node but the root has a child. -/
theorem knows_walkChild {a : InsertAt} {i n : Nat} {mismatch : Option UInt8} {v : UInt64}
    (hfacts : InsertFacts loadKey G s k tid (.walkChild a i mismatch n v)) :
    Knows loadKey G s k tid (.walkCheck a i mismatch n v (s.readAnyChild torn n v)) := by
  obtain ⟨hwalk, hreads⟩ := hfacts
  refine ⟨rfl, hwalk, hreads, fun hv => ?_⟩
  obtain ⟨t, ht⟩ := h.inhabited hwalk.lt hwalk.walk_ne_root
  obtain ⟨b, r, hedge, -⟩ := h.labelled.edge_of_below ht
  rw [Shared.readAnyChild, if_pos hv]
  exact Shared.getAnyChild_of_child hedge

omit hsettled in
theorem knows_walkNode {a : InsertAt} {i n c : Nat} {mismatch : Option UInt8} {b : UInt8}
    (hwalk : Walk G s k a i mismatch n) (hedge : s.children n b = some (.node c)) :
    Knows loadKey G s k tid (.walkLock a i mismatch c) := by
  refine ⟨rfl, ?_⟩
  exact
    { at_ := hwalk.at_
      ne_root := hwalk.ne_root
      lt := h.lt hedge
      walk_ne_root := h.child_ne_root hedge
      label := (hwalk.label.trans (prefix_append _ [b])).trans (h.labelled.node hedge)
      count := hwalk.count
      match_ := hwalk.match_
      differ := hwalk.differ }

omit hsettled in
theorem knows_walkLeaf {a : InsertAt} {i n : Nat} {mismatch : Option UInt8} {b : UInt8} {t : TID}
    (hwalk : Walk G s k a i mismatch n) (hedge : s.children n b = some (.leaf t)) :
    Knows loadKey G s k tid (.loaded a i (loadKey t) mismatch) := by
  have hlabel := (hwalk.label.trans (prefix_append _ [b])).trans (h.labelled.leaf hedge)
  cases mismatch with
  | none =>
      refine ⟨rfl, hwalk.at_, hwalk.ne_root, ⟨fun k' hk' => ?_, fun _ => ?_⟩, hwalk.count,
        hwalk.match_ rfl⟩
      · cases hk'
        exact hlabel
      · exact Option.some_ne_none _
  | some c => exact ⟨rfl, hwalk.at_, hwalk.ne_root, hlabel, hwalk.differ c rfl⟩

omit hsettled in
/-- The key is longer than the label of its node. -/
theorem knows_checkChild (hkeys : KeySet keys) (hk : keys k) {a : InsertAt} {nextLevel : Nat}
    (hfacts : InsertFacts loadKey G s k tid (.getChild a nextLevel)) :
    Knows loadKey G s k tid
      (.checkChild ⟨a, nextLevel, keyByte torn k nextLevel⟩
        (s.readChild torn a.node a.v (keyByte torn k nextLevel))) := by
  obtain ⟨hat, hlevel⟩ := hfacts
  refine ⟨rfl, hat, fun hsame => ?_, fun hv => ?_⟩
  · obtain ⟨rfl, hlabel⟩ := hlevel hsame
    exact ⟨rfl, prefix_concat hlabel
      (keyByte_eq torn (h.label_short hkeys hk hat.reads.lt hlabel))⟩
  · rw [Shared.readChild, if_pos hv]

omit h hsettled in
theorem knows_descend {p : Place} {child : Child} (hat : AtNode G s k p.at_)
    (hplace : PlaceAt G k p) (hseen : ChildSeen G s p child) :
    Knows loadKey G s k tid (.descend p child) := by
  cases child with
  | leaf t => exact ⟨rfl, hat.reads, hplace, hseen.edge⟩
  | node c =>
      refine ⟨rfl, hseen.lt c rfl, fun hnone => ?_, fun e he => ?_⟩
      · cases hnone
      · cases he
        exact
          { reads := hat.reads
            level := by rw [hplace.nextLevel]
            key := hplace.key
            label := hseen.label c rfl
            edge := hseen.edge }

omit hsettled in
theorem knows_checkedChild {p : Place} {child : Option Child}
    (hfacts : InsertFacts loadKey G s k tid (.checkChild p child))
    (hv : s.word p.at_.node = p.at_.v) :
    Knows loadKey G s k tid (.checked p child) := by
  obtain ⟨hat, hplace, hchild⟩ := hfacts
  have hplace' : ParentSame s p.at_.parent → PlaceAt G k p := fun hsame => hplace ⟨hv, hsame⟩
  have hseen : ∀ r, child = some r → ChildSeen G s p r := by
    rintro r rfl
    refine ⟨fun _ => hchild hv, ?_, ?_⟩
    · rintro c rfl
      exact h.lt (hchild hv)
    · rintro c rfl
      exact h.labelled.node (hchild hv)
  cases child with
  | none => exact ⟨rfl, hat, hplace', hchild⟩
  | some r =>
      rw [InsertPc.checked]
      split
      · rename_i hparent
        exact ⟨rfl, hat, hplace', hseen r rfl, Option.isSome_iff_ne_none.1 hparent⟩
      · rename_i hparent
        refine knows_descend hat (hplace' fun e he => ?_) (hseen r rfl)
        rw [he] at hparent
        exact absurd rfl hparent

omit hsettled in
/-- The root is never full. -/
theorem knows_isFull {p : Place} (hfacts : InsertFacts loadKey G s k tid (.isFull p)) :
    Knows loadKey G s k tid
      (if s.readFull torn p.at_.node p.at_.v then .growLockParent p
        else if p.at_.parent.isSome then .checkParentRoom p else .lockRoom p) := by
  obtain ⟨hat, hplace, hchild⟩ := hfacts
  cases hparent : p.at_.parent with
  | none =>
      have hroot := (hat.entry.root hparent).1
      have hfull : s.isFull p.at_.node = false := by
        rw [Shared.isFull, hroot, h.root_type]
        rfl
      have hread : s.readFull torn p.at_.node p.at_.v = false := by
        rw [Shared.readFull, hfull, hroot, h.root_type]
        exact ite_self _
      rw [hread]
      refine ⟨rfl, hat.reads, hplace fun e he => ?_, fun hv => ⟨hchild hv, hfull⟩⟩
      rw [hparent] at he
      cases he
  | some e =>
      have hne : p.at_.parent ≠ none := by
        rw [hparent]
        exact Option.some_ne_none _
      split
      · exact ⟨rfl, hat, hplace, hchild, hne⟩
      · rename_i hread
        refine ⟨rfl, hat, hplace, fun hv => ⟨hchild hv, ?_⟩, hne⟩
        rwa [Shared.readFull, if_pos hv, Bool.not_eq_true] at hread

end Steps

/-! ## All of them -/

/-- The thread is at a step that only reads. -/
def InsertPc.isRead : InsertPc → Bool
  | .lock .. | .loop .. | .byte .. | .isLong .. | .copyShort .. | .copyLong .. | .walkLock ..
  | .walkChild .. | .walkCheck .. | .getChild .. | .checkChild .. | .checkParent .. | .isFull ..
  | .checkParentRoom .. => true
  | _ => false

theorem readStep_facts (h : Tree loadKey keys G pending retiring s)
    (hsettled : Settled s pending retiring) (hkeys : KeySet keys) (hk : keys (loadKey tid))
    {pc pc' : InsertPc} {e : Effect} (hread : pc.isRead = true)
    (hstep : insertStep loadKey tid s torn pc = some (e, pc'))
    (hfacts : InsertFacts loadKey G s (loadKey tid) tid pc) :
    e = .nothing ∧ Knows loadKey G s (loadKey tid) tid pc' := by
  cases pc with
  | lock parent node level =>
      cases hstep
      refine ⟨rfl, ?_⟩
      split
      · rename_i hfree
        exact knows_lock hfacts hfree
      · exact .restart h
  | loop a i kt =>
      cases hstep
      refine ⟨rfl, ?_⟩
      split
      · rename_i hi
        exact knows_loop h hfacts hi
      · rename_i hi
        exact knows_getChild h hsettled hfacts hi
  | byte a i kt =>
      cases hstep
      exact ⟨rfl, knows_byte h hsettled hkeys hk hfacts rfl⟩
  | isLong a i kt c =>
      cases hstep
      exact ⟨rfl, knows_isLong hfacts⟩
  | copyShort a i c =>
      cases hstep
      refine ⟨rfl, ?_⟩
      split
      · exact knows_copyShort h hsettled hfacts
      · exact ⟨rfl, trivial⟩
  | copyLong a i kt c =>
      cases hstep
      exact ⟨rfl, knows_copyLong h hsettled hfacts⟩
  | walkLock a i mismatch n =>
      cases hstep
      have hwalk : Walk G s (loadKey tid) a i mismatch n := hfacts
      refine ⟨rfl, ?_⟩
      split
      · rename_i hfree
        exact ⟨rfl, hwalk, hwalk.lt, hfree, le_rfl⟩
      · exact .restart h
  | walkChild a i mismatch n v =>
      cases hstep
      exact ⟨rfl, knows_walkChild h hfacts⟩
  | walkCheck a i mismatch n v child =>
      cases hstep
      obtain ⟨hwalk, -, hchild⟩ := hfacts
      refine ⟨rfl, ?_⟩
      split
      · exact .restart h
      · rename_i hv
        obtain ⟨b, r, rfl, hedge⟩ := hchild (not_not.1 hv)
        cases r with
        | leaf t => exact knows_walkLeaf h hwalk hedge
        | node c => exact knows_walkNode h hwalk hedge
  | getChild a nextLevel =>
      cases hstep
      exact ⟨rfl, knows_checkChild h hkeys hk hfacts⟩
  | checkChild p child =>
      cases hstep
      refine ⟨rfl, ?_⟩
      split
      · exact .restart h
      · rename_i hv
        exact knows_checkedChild h hfacts (not_not.1 hv)
  | checkParent p child =>
      cases hstep
      obtain ⟨hat, hplace, hseen, hne⟩ := hfacts
      refine ⟨rfl, ?_⟩
      cases hparent : p.at_.parent with
      | none => exact absurd hparent hne
      | some e =>
          dsimp only
          split
          · exact .restart h
          · rename_i hv
            refine knows_descend hat (hplace fun e' he' => ?_) hseen
            cases hparent.symm.trans he'
            exact not_not.1 hv
  | isFull p =>
      cases hstep
      exact ⟨rfl, knows_isFull h hfacts⟩
  | checkParentRoom p =>
      cases hstep
      obtain ⟨hat, hplace, hchild, hne⟩ := hfacts
      refine ⟨rfl, ?_⟩
      cases hparent : p.at_.parent with
      | none => exact absurd hparent hne
      | some e =>
          dsimp only
          split
          · exact .restart h
          · rename_i hv
            refine ⟨rfl, hat.reads, hplace fun e' he' => ?_, hchild⟩
            cases hparent.symm.trans he'
            exact not_not.1 hv
  | _ => cases hread

/-! ## The copy of a prefix -/

theorem upgrade_ne_crashed {n : Nat} {v : UInt64} {locked failed : InsertPc}
    (hlocked : locked ≠ .crashed) (hfailed : failed ≠ .crashed) :
    (upgrade s n v locked failed).2 ≠ .crashed := by
  rw [upgrade]
  split
  · exact hlocked
  · exact hfailed

theorem descend_ne_crashed (p : Place) (child : Child) : InsertPc.descend p child ≠ .crashed := by
  cases child <;> exact InsertPc.noConfusion

theorem checked_ne_crashed (p : Place) (child : Option Child) :
    InsertPc.checked p child ≠ .crashed := by
  cases child with
  | none => exact InsertPc.noConfusion
  | some r =>
      rw [InsertPc.checked]
      split
      · exact InsertPc.noConfusion
      · exact descend_ne_crashed p r

theorem compared_ne_crashed (p : Place) (other : TID) (r : Option Nat) :
    InsertPc.compared p other r ≠ .crashed := by
  cases r <;> exact InsertPc.noConfusion

theorem loaded_ne_crashed (a : InsertAt) (i : Nat) (kt : List UInt8) (mismatch : Option UInt8) :
    InsertPc.loaded a i kt mismatch ≠ .crashed := by
  cases mismatch <;> exact InsertPc.noConfusion

/-- Nothing but the copy of a short prefix goes wrong. -/
theorem insertStep_ne_crashed {k : List UInt8} {tid : TID} {torn : Torn} {pc : InsertPc}
    {next : Effect × InsertPc} (hfacts : InsertFacts loadKey G s k tid pc)
    (hcopy : ∀ a i c, pc = .copyShort a i c → i < s.prefixCount a.node)
    (hstep : insertStep loadKey tid s torn pc = some next) : next.2 ≠ .crashed := by
  have hrestart : InsertPc.restart ≠ .crashed := InsertPc.noConfusion
  cases pc with
  | copyShort a i c =>
      obtain ⟨-, -, -, hshort, -⟩ := hfacts
      cases hstep
      have hle : s.prefixCount a.node - i - 1 ≤ maxStoredPrefixLength := by omega
      dsimp only
      rw [if_pos ⟨hcopy a i c rfl, hle⟩]
      exact InsertPc.noConfusion
  | walkCheck a i mismatch n v child =>
      obtain ⟨-, -, hchild⟩ := hfacts
      cases hstep
      dsimp only
      split
      · exact hrestart
      · rename_i hv
        obtain ⟨b, r, rfl, -⟩ := hchild (not_not.1 hv)
        cases r with
        | leaf t => exact loaded_ne_crashed a i (loadKey t) mismatch
        | node c => exact InsertPc.noConfusion
  | lockParent a i c rest =>
      obtain ⟨hat, hroot, -⟩ := hfacts
      cases hparent : a.parent with
      | none => exact absurd (hat.entry.root hparent).1 hroot
      | some p =>
          rw [insertStep, hparent] at hstep
          cases hstep
          exact upgrade_ne_crashed InsertPc.noConfusion hrestart
  | checkChild p child =>
      cases hstep
      dsimp only
      split
      · exact hrestart
      · exact checked_ne_crashed p child
  | checkParent p child =>
      cases hparent : p.at_.parent with
      | none => exact absurd hparent hfacts.2.2.2
      | some e =>
          rw [insertStep, hparent] at hstep
          cases hstep
          dsimp only
          split
          · exact hrestart
          · exact descend_ne_crashed p child
  | checkParentRoom p =>
      cases hparent : p.at_.parent with
      | none => exact absurd hparent hfacts.2.2.2
      | some e =>
          rw [insertStep, hparent] at hstep
          cases hstep
          dsimp only
          split <;> exact InsertPc.noConfusion
  | growLockParent p =>
      cases hparent : p.at_.parent with
      | none => exact absurd hparent hfacts.2.2.2
      | some e =>
          rw [insertStep, hparent] at hstep
          cases hstep
          exact upgrade_ne_crashed InsertPc.noConfusion hrestart
  | lockLeaf p other =>
      cases hstep
      exact upgrade_ne_crashed (compared_ne_crashed p other _) hrestart
  | lockNode sp =>
      cases hstep
      exact upgrade_ne_crashed InsertPc.noConfusion InsertPc.noConfusion
  | lockRoom p =>
      cases hstep
      exact upgrade_ne_crashed InsertPc.noConfusion hrestart
  | growLockNode g =>
      cases hstep
      exact upgrade_ne_crashed InsertPc.noConfusion InsertPc.noConfusion
  | done => cases hstep
  | crashed => cases hstep
  | _ =>
      -- The other steps only choose between places.
      cases hstep
      dsimp only
      repeat' split
      all_goals first | exact hrestart | exact InsertPc.noConfusion

end ARTOLC
end TLI
