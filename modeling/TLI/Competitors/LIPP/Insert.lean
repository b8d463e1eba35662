import TLI.Competitors.LIPP.Build

/-!
# Insert — inserting a key, and building the first node again that has grown too much

* `SameTail` — the bits behind the last item are those of another node.
* `Grown` — a well-formed tree with more pairs.
* `OnPath` — so many nodes are on the path of a key.

`insert_tree` writes one item of the last node on the path.  `build_tree_none` leaves the bits
behind its only item at zero, and they stay so until the root is built again (`Sound`).
-/

namespace TLI
namespace LIPP

open Bitmap List

variable {K V : Type} {F : LinearModels K}

/-! ## Growing -/

/-- The bits behind the last item are the same. -/
def SameTail {M : Type} : Item M K V → Item M K V → Prop
  | .child node _, .child node' _ =>
      node'.numItems = node.numItems ∧ ∀ i, node.numItems ≤ i →
        get node'.noneBitmap i = get node.noneBitmap i ∧
          get node'.childBitmap i = get node.childBitmap i
  | _, _ => False

/-- A well-formed tree with these pairs more. -/
structure Grown (t t' : Item F.Model K V) (added : List (K × V)) : Prop where
  wf : WF F t'
  perm : pairs t' ~ added ++ pairs t
  tail : SameTail t t'

theorem SameTail.padded {M : Type} {t t' : Item M K V} (h : SameTail t t') (hpadded : t.Padded) :
    t'.Padded := by
  cases t with
  | unused => exact h.elim
  | data key value => exact h.elim
  | child node items =>
      cases t' with
      | unused => exact h.elim
      | data key value => exact h.elim
      | child node' items' =>
          obtain ⟨hnum, htail⟩ := h
          intro i hi
          have hi : node.numItems ≤ i := hnum ▸ hi
          rw [(htail i hi).1]
          exact hpadded i hi

variable {node node' : Node F.Model} {items : Nat → Item F.Model K V} {pos : Nat}
  {item : Item F.Model K V} {added : List (K × V)}

/-- One item of a well-formed node is replaced. -/
theorem WF.replace (h : WF F (.child node items)) (hpos : pos < node.numItems)
    (hsame : SameBut pos node node') (hsize : node'.size = node.size + added.length)
    (hslot : SlotOK (predictPos F node.model node.numItems) pos (get node'.noneBitmap pos)
      (get node'.childBitmap pos) item (WF F item))
    (hperm : slot node' (Function.update items pos item) pos ~ added ++ slot node items pos) :
    Grown (.child node items) (.child node' (Function.update items pos item)) added := by
  have hpairs := hsame.pairs_perm hpos hperm
  refine ⟨⟨?_, ?_, SlotsOK.update h.2.2 hsame hslot⟩, hpairs, hsame.numItems, fun i hi => ?_⟩
  · rw [hsame.numItems]
    exact h.1
  · rw [hsize, h.2.1, hpairs.length_eq, length_append, Nat.add_comm]
  · exact ⟨hsame.noneBitmap i (by omega), hsame.childBitmap i (by omega)⟩

/-- A child of a well-formed node is replaced. -/
theorem WF.replace_child (h : WF F (.child node items)) (hpos : pos < node.numItems)
    (hchild : get node.childBitmap pos = true) (hmodel : node'.model = node.model)
    (hnum : node'.numItems = node.numItems) (hnone : node'.noneBitmap = node.noneBitmap)
    (hchild' : node'.childBitmap = node.childBitmap)
    (hsize : node'.size = node.size + added.length) (hwf : WF F item) (hpadded : item.Padded)
    (hperm : pairs item ~ added ++ pairs (items pos))
    (hpredict : ∀ p ∈ added, predictPos F node.model node.numItems p.1 = pos) :
    Grown (.child node items) (.child node' (Function.update items pos item)) added := by
  cases h.2.2 pos hpos with
  | none hnone hfree => exact absurd (hchild.symm.trans hfree) Bool.true_eq_false_eq_False
  | data hnone hfree key value hitem hpredict =>
      exact absurd (hchild.symm.trans hfree) Bool.true_eq_false_eq_False
  | child hoccupied _ hwf' hpadded' hnonempty hpredict' =>
      have hsame : SameBut pos node node' :=
        ⟨hmodel, hnum, fun i _ => by rw [hnone], fun i _ => by rw [hchild']⟩
      refine h.replace hpos hsame hsize (.child ?_ ?_ hwf hpadded ?_ ?_) ?_
      · rw [hnone]
        exact hoccupied
      · rw [hchild']
        exact hchild
      · intro hnil
        rw [hnil, nil_perm, append_eq_nil_iff] at hperm
        exact hnonempty hperm.2
      · intro p hp
        rcases mem_append.1 (hperm.subset hp) with hp | hp
        · exact hpredict p hp
        · exact hpredict' p hp
      · rw [slot_update (hnone ▸ hoccupied), slot_of_some hoccupied]
        exact hperm

theorem WF.padded_child (h : WF F (.child node items)) (hpos : pos < node.numItems)
    (hchild : get node.childBitmap pos = true) : WF F (items pos) ∧ (items pos).Padded := by
  cases h.2.2 pos hpos with
  | none hnone hfree => exact absurd (hchild.symm.trans hfree) Bool.true_eq_false_eq_False
  | data hnone hfree key value hitem hpredict =>
      exact absurd (hchild.symm.trans hfree) Bool.true_eq_false_eq_False
  | child hoccupied _ hwf hpadded hnonempty hpredict => exact ⟨hwf, hpadded⟩

/-! ## The path of a key -/

variable (F) in
/-- The path of the key goes through `n` nodes at least. -/
def OnPath (key : K) : Nat → Item F.Model K V → Prop
  | _, .unused => False
  | _, .data _ _ => False
  | 0, .child _ _ => False
  | n + 1, .child node items =>
      n = 0 ∨ get node.childBitmap (predictPos F node.model node.numItems key) = true ∧
        OnPath key n (items (predictPos F node.model node.numItems key))

variable [LinearOrder K]

/-- The first loop of `insert_tree` adds the pair. -/
theorem insertPath_grown {key : K} {value : V} {t : Item F.Model K V} :
    WF F t → ∀ {pathSize t' insertToData n},
      insertPath F key value pathSize t = some (t', insertToData, n) →
        Grown t t' [(key, value)] ∧ ∃ m, n = pathSize + m ∧ OnPath F key m t' := by
  induction t with
  | unused => exact fun h => h.elim
  | data key value => exact fun h => h.elim
  | child node items ih =>
      intro hwf pathSize t' insertToData n h
      rw [insertPath, Option.ite_none_right_eq_some] at h
      obtain ⟨-, h⟩ := h
      dsimp only at h
      have hin := predictPos_lt F node.model hwf.1 key
      generalize hpos : predictPos F node.model node.numItems key = pos at h hin
      -- A free slot takes the pair, a pair gets a node for both, a child takes it on.
      cases hwf.2.2 pos hin with
      | none hnone hchild =>
          rw [if_pos hnone] at h
          cases h
          have hoccupied : get (clear node.noneBitmap pos) pos = false := by
            rw [get_clear, decide_eq_true rfl, Bool.not_true, Bool.false_and]
          refine ⟨hwf.replace hin ⟨rfl, rfl, fun i hi => ?_, fun i hi => rfl⟩ rfl
            (.data hoccupied hchild key value rfl hpos) ?_, 1, rfl, Or.inl rfl⟩
          · rw [putData, get_clear, decide_eq_false hi, Bool.not_false, Bool.true_and]
          · have hput : slot (putData pos (key, value) (node, items)).1
                (Function.update items pos (.data key value)) pos = [(key, value)] :=
              slot_update hoccupied
            rw [slot_of_none hnone]
            exact Perm.of_eq hput
      | data hnone hchild key' value' hitem hpredict =>
          rw [hnone, hchild, hitem] at h
          obtain ⟨child, htwo, h⟩ := Option.bind_eq_some_iff.1 h
          cases h
          have hbuilt := buildTreeTwo_built htwo
          have hset : get (Bitmap.set node.childBitmap pos) pos = true := by
            rw [get_set, decide_eq_true rfl, Bool.true_or]
          refine ⟨hwf.replace hin ⟨rfl, rfl, fun i hi => rfl, fun i hi => ?_⟩ rfl
            (.child hnone hset hbuilt.wf hbuilt.padded ?_ ?_) ?_, 1, rfl, Or.inl rfl⟩
          · rw [get_set, decide_eq_false hi, Bool.false_or]
          · exact fun hnil => cons_ne_nil _ _ (nil_perm.1 (hnil ▸ hbuilt.perm))
          · intro p hp
            rcases mem_pair.1 (hbuilt.perm.subset hp) with rfl | rfl
            · exact hpos
            · exact hpredict
          · refine (Perm.of_eq (slot_update hnone)).trans ?_
            rw [slot_of_some hnone, hitem]
            exact hbuilt.perm
      | child hnone hchild hwf' hpadded hnonempty hpredict =>
          rw [hnone, hchild] at h
          obtain ⟨⟨child, insertToData', m⟩, hchild', h⟩ := Option.bind_eq_some_iff.1 h
          cases h
          obtain ⟨hgrown, m, rfl, hpath⟩ := ih pos hwf' hchild'
          refine ⟨hwf.replace_child hin hchild rfl rfl rfl rfl rfl hgrown.wf
            (hgrown.tail.padded hpadded) hgrown.perm ?_, m + 1, ?_, Or.inr ?_⟩
          · intro p hp
            rw [mem_singleton.1 hp]
            exact hpos
          · dsimp only
            omega
          · rw [hpos, Function.update_self]
            exact ⟨hchild, hpath⟩

/-- The last loop of `insert_tree` keeps the pairs: it builds the root again, or leaves its bits
behind the last item alone. -/
theorem rebuildPath_grown (hmono : ∀ model n, Monotone (predictPos F model n)) {fuel : Nat}
    {key : K} {t : Item F.Model K V} :
    WF F t → ∀ {n t'}, OnPath F key n t → rebuildPath F fuel key n t = some t' →
      Built t' (pairs t) ∨ Grown t t' [] := by
  induction t with
  | unused => exact fun h => h.elim
  | data key value => exact fun h => h.elim
  | child node items ih =>
      intro hwf n t' hpath h
      cases n with
      | zero => exact hpath.elim
      | succ n =>
          rw [rebuildPath] at h
          split at h
          · rw [scanTree_eq hwf] at h
            exact Or.inl (buildTreeBulk_built hmono fuel _ _ (hwf.sorted hmono) h)
          · split at h
            · cases h
              exact Or.inr ⟨hwf, .refl _, rfl, fun i _ => ⟨rfl, rfl⟩⟩
            · rename_i hn
              obtain ⟨child, hchild, h⟩ := Option.bind_eq_some_iff.1 h
              cases h
              obtain ⟨hbit, hpath⟩ := hpath.resolve_left hn
              have hin := predictPos_lt F node.model hwf.1 key
              obtain ⟨hwf', hpadded⟩ := hwf.padded_child hin hbit
              refine Or.inr ?_
              rcases ih _ hwf' hpath hchild with hbuilt | hgrown
              · exact hwf.replace_child hin hbit rfl rfl rfl rfl rfl hbuilt.wf hbuilt.padded
                  hbuilt.perm fun p hp => absurd hp not_mem_nil
              · exact hwf.replace_child hin hbit rfl rfl rfl rfl rfl hgrown.wf
                  (hgrown.tail.padded hpadded) hgrown.perm fun p hp => absurd hp not_mem_nil

/-! ## Roots -/

/-- The root of `build_tree_none`, with or without a pair in its only item: the other bits of its
bitmaps are zero. -/
def Item.Bare {M : Type} : Item M K V → Prop
  | .child node _ => node.numItems = 1 ∧ ∀ i, 0 < i → i < 8 →
      get node.noneBitmap i = false ∧ get node.childBitmap i = false
  | _ => False

/-- A tree that holds these pairs; its root is bare or has more than one item. -/
structure Sound (root : Item F.Model K V) (stored : List (K × V)) : Prop where
  wf : WF F root
  perm : pairs root ~ stored
  shape : root.Bare ∨ root.Padded ∧ 1 < root.numItems

omit [LinearOrder K] in
theorem Built.sound {t : Item F.Model K V} {xs : List (K × V)} (h : Built t xs) : Sound t xs :=
  ⟨h.wf, h.perm, Or.inr ⟨h.padded, h.numItems⟩⟩

omit [LinearOrder K] in
theorem Sound.grown {t t' : Item F.Model K V} {xs : List (K × V)} (h : Sound t xs)
    (hgrown : Grown t t' added) : Sound t' (added ++ xs) := by
  refine ⟨hgrown.wf, hgrown.perm.trans (h.perm.append_left _), ?_⟩
  have hshape := h.shape
  have htail := hgrown.tail
  obtain ⟨node, items, rfl, -⟩ := h.wf.node
  obtain ⟨node', items', rfl, -⟩ := hgrown.wf.node
  obtain ⟨hnum, htail⟩ := htail
  rcases hshape with ⟨hone, hbits⟩ | ⟨hpadded, hmany⟩
  · refine Or.inl ⟨hnum.trans hone, fun i hi hlt => ?_⟩
    rw [(htail i (by omega)).1, (htail i (by omega)).2]
    exact hbits i hi hlt
  · exact Or.inr ⟨hgrown.tail.padded hpadded, lt_of_lt_of_eq hmany hnum.symm⟩

omit [LinearOrder K] in
theorem Sound.padded_of_lt {t : Item F.Model K V} {xs : List (K × V)} (h : Sound t xs)
    (hmany : 1 < t.numItems) : t.Padded := by
  rcases h.shape with hbare | ⟨hpadded, -⟩
  · obtain ⟨node, items, rfl, -⟩ := h.wf.node
    exact absurd (lt_of_lt_of_eq hmany hbare.1) (Nat.lt_irrefl 1)
  · exact hpadded

/-- Of the bitmap of `build_tree_none` one bit is set. -/
theorem get_first (i : Nat) : get (Bitmap.set (fun _ => 0) 0) i = decide (i = 0) := by
  rw [get_set, get_empty, Bool.or_false]

omit [LinearOrder K] in
theorem bare_buildTreeNone : (buildTreeNone (V := V) F).Bare :=
  ⟨rfl, fun i hi _ => ⟨(get_first i).trans (decide_eq_false hi.ne'), get_empty i⟩⟩

omit [LinearOrder K] in
theorem sound_buildTreeNone : Sound (V := V) (buildTreeNone F) [] := by
  have hfirst : ∀ i, i < 1 → get (Bitmap.set (fun _ => 0) 0) i = true := fun i hi =>
    (get_first i).trans (decide_eq_true (Nat.lt_one_iff.1 hi))
  have hpairs : pairs (V := V) (buildTreeNone F) = [] := by
    rw [buildTreeNone, pairs_child, flatMap_eq_nil_iff]
    exact fun i hi => slot_of_none (hfirst i (List.mem_range.1 hi))
  refine ⟨⟨Nat.one_pos, ?_, fun i hi => ?_⟩, Perm.of_eq hpairs, Or.inl bare_buildTreeNone⟩
  · exact (congrArg length hpairs).symm
  · exact .none (hfirst i hi) (get_empty i)

theorem insertTree_sound (hmono : ∀ model n, Monotone (predictPos F model n)) {fuel : Nat}
    {root root' : Item F.Model K V} {stored : List (K × V)} (h : Sound root stored) {key : K}
    {value : V} (hinsert : insertTree F fuel root key value = some root') :
    Sound root' ((key, value) :: stored) := by
  obtain ⟨⟨t, insertToData, n⟩, hpath, hrebuild⟩ := Option.bind_eq_some_iff.1 hinsert
  obtain ⟨hgrown, m, hm, hon⟩ := insertPath_grown h.wf hpath
  have hsound := h.grown hgrown
  rw [Nat.zero_add] at hm
  rcases rebuildPath_grown hmono hsound.wf (hm ▸ hon) hrebuild with hbuilt | hgrown
  · exact { hbuilt.sound with perm := hbuilt.perm.trans hsound.perm }
  · exact hsound.grown hgrown

theorem bulkLoad_sound (hmono : ∀ model n, Monotone (predictPos F model n)) {fuel : Nat}
    {root : Item F.Model K V} {xs : List (K × V)} (hsorted : xs.Pairwise fun p q => p.1 < q.1)
    (h : bulkLoad F fuel xs = some root) : Sound root xs := by
  match xs, h with
  | [], h =>
      cases h
      exact sound_buildTreeNone
  | [p], h => exact insertTree_sound hmono sound_buildTreeNone h
  | [p, q], h => exact (buildTreeTwo_built h).sound
  | p :: q :: r :: rest, h =>
      rw [bulkLoad, Option.ite_none_right_eq_some] at h
      exact (buildTreeBulk_built hmono fuel _ _ hsorted h.2).sound

end LIPP
end TLI
