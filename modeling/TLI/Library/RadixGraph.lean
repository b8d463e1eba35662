import Mathlib.Data.List.Infix
import Mathlib.Order.Nat

/-!
# RadixGraph — radix trees as graphs of nodes that are linked at run time

A node leads by a letter to a leaf or to another node.  A label is written at every node: the word
that all keys below it begin with.  The labels only have to grow along the edges; nothing is said
about how many edges lead to a node.

* `Below E n t` — the leaf `t` is below the node `n`;
* `Live E root n` — the node `n` can be reached from `root`;
* `Labelled.route` — a leaf below the root whose key begins with the label of a live node is below
  that node: to follow a key is the only way to it;
* `Grows E E'` — edges are kept, or lead to a node in between that has what they led to.
-/

namespace TLI
namespace RadixGraph

open List

/-- What an edge leads to. -/
inductive Ref (ι τ : Type)
  | leaf (t : τ)
  | node (n : ι)
  deriving DecidableEq, Repr

/-- The edges of every node. -/
abbrev Edges (ι α τ : Type) := ι → α → Option (Ref ι τ)

variable {ι α τ : Type} {E E' : Edges ι α τ} {root : ι}

inductive Below (E : Edges ι α τ) : ι → τ → Prop
  | leaf {n : ι} {b : α} {t : τ} : E n b = some (.leaf t) → Below E n t
  | node {n c : ι} {b : α} {t : τ} : E n b = some (.node c) → Below E c t → Below E n t

inductive Live (E : Edges ι α τ) (root : ι) : ι → Prop
  | root : Live E root root
  | child {n c : ι} {b : α} : Live E root n → E n b = some (.node c) → Live E root c

theorem Live.trans {n m : ι} (hn : Live E root n) (hm : Live E n m) : Live E root m := by
  induction hm with
  | root => exact hn
  | child _ hedge ih => exact ih.child hedge

theorem Live.leaf_below {n : ι} {t : τ} (h : Live E root n) (ht : Below E n t) :
    Below E root t := by
  induction h with
  | root => exact ht
  | child _ hedge ih => exact ih (.node hedge ht)

/-! ## Labels -/

/-- Along an edge the label grows by at least the letter of the edge. -/
structure Labelled (E : Edges ι α τ) (label : ι → List α) (key : τ → List α) : Prop where
  node : ∀ {n b c}, E n b = some (.node c) → label n ++ [b] <+: label c
  leaf : ∀ {n b t}, E n b = some (.leaf t) → label n ++ [b] <+: key t

/-- A word goes on behind a beginning of it with one letter only. -/
theorem next_unique {front word : List α} {a b : α} (ha : front ++ [a] <+: word)
    (hb : front ++ [b] <+: word) : a = b := by
  have hsame := (prefix_of_prefix_length_le ha hb (by simp)).eq_of_length (by simp)
  exact (cons.inj (append_cancel_left hsame)).1

namespace Labelled

variable {label : ι → List α} {key : τ → List α}

/-- A leaf below a node is behind one of its edges, which the key takes. -/
theorem edge_of_below (h : Labelled E label key) {n : ι} {t : τ} (ht : Below E n t) :
    ∃ b r, E n b = some r ∧ label n ++ [b] <+: key t ∧
      (r = .leaf t ∨ ∃ c, r = .node c ∧ Below E c t) := by
  induction ht with
  | leaf hedge => exact ⟨_, _, hedge, h.leaf hedge, .inl rfl⟩
  | node hedge hbelow ih =>
      obtain ⟨b, -, -, hkey, -⟩ := ih
      exact ⟨_, _, hedge, (h.node hedge).trans ((prefix_append _ [b]).trans hkey),
        .inr ⟨_, rfl, hbelow⟩⟩

/-- The key of a leaf is longer than the label of every node above it. -/
theorem lt_length_of_below (h : Labelled E label key) {n : ι} {t : τ} (ht : Below E n t) :
    label n <+: key t ∧ (label n).length < (key t).length := by
  obtain ⟨b, -, -, hkey, -⟩ := h.edge_of_below ht
  have hlength := hkey.length_le
  rw [length_append, length_singleton] at hlength
  exact ⟨(prefix_append _ [b]).trans hkey, hlength⟩

/-- A leaf that takes an edge is what the edge leads to, or below that. -/
theorem below_of_edge (h : Labelled E label key) {n : ι} {b : α} {r : Ref ι τ}
    (hedge : E n b = some r) {t : τ} (ht : Below E n t) (hkey : label n ++ [b] <+: key t) :
    r = .leaf t ∨ ∃ c, r = .node c ∧ Below E c t := by
  obtain ⟨b', r', hedge', hkey', hbelow⟩ := h.edge_of_below ht
  cases next_unique hkey hkey'
  rw [hedge'] at hedge
  cases hedge
  exact hbelow

/-- To follow a key is the only way to its leaf. -/
theorem route (h : Labelled E label key) {n : ι} (hlive : Live E root n) {t : τ}
    (ht : Below E root t) (hkey : label n <+: key t) : Below E n t := by
  induction hlive with
  | root => exact ht
  | @child p c b _ hedge ih =>
      have hgrow := h.node hedge
      have hp := ih (((prefix_append _ [b]).trans hgrow).trans hkey)
      rcases h.below_of_edge hedge hp (hgrow.trans hkey) with hleaf | ⟨d, hnode, hbelow⟩
      · cases hleaf
      · cases hnode
        exact hbelow

/-- Different leaves have different keys. -/
theorem eq_of_key (h : Labelled E label key) {n : ι} {t t' : τ} (ht : Below E n t)
    (ht' : Below E n t') (hkey : key t = key t') : t = t' := by
  induction ht with
  | leaf hedge =>
      rcases h.below_of_edge hedge ht' (hkey ▸ h.leaf hedge) with hleaf | ⟨c, hnode, -⟩
      · cases hleaf
        rfl
      · cases hnode
  | @node n c b t hedge hbelow ih =>
      have hbehind := (h.node hedge).trans (h.lt_length_of_below hbelow).1
      rcases h.below_of_edge hedge ht' (hkey ▸ hbehind) with hleaf | ⟨d, hnode, hbelow'⟩
      · cases hleaf
      · cases hnode
        exact ih hbelow' hkey

theorem label_of_live (h : Labelled E label key) {n m : ι} (hm : Live E n m) :
    label n <+: label m := by
  induction hm with
  | root => exact prefix_refl _
  | child _ hedge ih => exact ih.trans ((prefix_append _ _).trans (h.node hedge))

/-- Of two live nodes the one whose label begins the other's is above it. -/
theorem live_of_label (h : Labelled E label key) {n m : ι} (hn : Live E root n)
    (hm : Live E root m) (hle : label n <+: label m) : Live E n m := by
  induction hn with
  | root => exact hm
  | @child p c b _ hedge ih =>
      have hgrow := (h.node hedge).trans hle
      have habove := ih ((prefix_append _ [b]).trans hgrow)
      -- The way from the parent to `m` begins with the same letter.
      have hfirst : ∀ {m : ι}, Live E p m → label p ++ [b] <+: label m → Live E c m := by
        intro m hpm
        induction hpm with
        | root => exact fun hlong => absurd hlong.length_le (by simp)
        | @child q d b' hq hedge' ih' =>
            intro hd
            have hq' := (prefix_append _ [b']).trans (h.node hedge')
            by_cases hlong : (label p ++ [b]).length ≤ (label q).length
            · exact (ih' (prefix_of_prefix_length_le hd hq' hlong)).child hedge'
            · have hpq := h.label_of_live hq
              have hsame : label p = label q := by
                refine hpq.eq_of_length (le_antisymm hpq.length_le ?_)
                rw [length_append, length_singleton] at hlong
                omega
              cases hq with
              | root =>
                  cases next_unique hd (h.node hedge')
                  rw [hedge] at hedge'
                  cases hedge'
                  exact .root
              | child hx hlast =>
                  have hshort := ((h.label_of_live hx).trans (prefix_append _ _)).trans
                    (h.node hlast)
                  have hlen := (h.node hlast).length_le
                  have hlen' := (h.label_of_live hx).length_le
                  rw [length_append, length_singleton] at hlen
                  rw [hsame] at hlen'
                  omega
      exact hfirst habove hgrow

/-- At most one edge of live nodes with labels of a given length leads to a node. -/
theorem edge_unique (h : Labelled E label key) {p q c : ι} {b b' : α} (hp : Live E root p)
    (hq : Live E root q) (hedge : E p b = some (.node c)) (hedge' : E q b' = some (.node c))
    (hlength : (label p).length = (label q).length) : p = q ∧ b = b' := by
  have hpc := h.node hedge
  have hqc := h.node hedge'
  have hsame : label p = label q :=
    (prefix_of_prefix_length_le ((prefix_append _ [b]).trans hpc)
      ((prefix_append _ [b']).trans hqc) hlength.le).eq_of_length hlength
  refine ⟨?_, next_unique hpc (hsame ▸ hqc)⟩
  cases h.live_of_label hp hq (hsame ▸ prefix_refl _) with
  | root => rfl
  | child hx hlast =>
      have hlen := (h.node hlast).length_le
      have hlen' := (h.label_of_live hx).length_le
      rw [length_append, length_singleton] at hlen
      omega

end Labelled

/-! ## Growing -/

/-- The second node has what the first one had. -/
def Copies (E E' : Edges ι α τ) (c x : ι) : Prop :=
  ∀ b r, E c b = some r → E' x b = some r

/-- Every edge is kept, or leads to a node in between: that one leads to what the edge led to, or is
a copy of the node that it led to. -/
def Grows (E E' : Edges ι α τ) (gone : ι → Prop) : Prop :=
  ∀ n b r, E n b = some r → E' n b = some r ∨
    ∃ x, E' n b = some (.node x) ∧
      ((∃ b', E' x b' = some r) ∨ ∃ c, r = .node c ∧ gone c ∧ Copies E E' c x)

/-- Nothing is lost below a node, nor below its copies. -/
theorem Grows.below {gone : ι → Prop} (h : Grows E E' gone) {n : ι} {t : τ} (ht : Below E n t) :
    Below E' n t ∧ ∀ x, Copies E E' n x → Below E' x t := by
  induction ht with
  | @leaf n b t hedge =>
      refine ⟨?_, fun x hcopy => .leaf (hcopy _ _ hedge)⟩
      rcases h n b _ hedge with hkept | ⟨x, hx, ⟨b', hb'⟩ | ⟨c, hnode, -⟩⟩
      · exact .leaf hkept
      · exact .node hx (.leaf hb')
      · cases hnode
  | @node n c b t hedge _ ih =>
      refine ⟨?_, fun x hcopy => .node (hcopy _ _ hedge) ih.1⟩
      rcases h n b _ hedge with hkept | ⟨x, hx, ⟨b', hb'⟩ | ⟨d, hnode, -, hcopy⟩⟩
      · exact .node hkept ih.1
      · exact .node hx (.node hb' ih.1)
      · cases hnode
        exact .node hx (ih.2 x hcopy)

/-- A live node stays live, or a copy takes its place. -/
theorem Grows.live {gone : ι → Prop} (h : Grows E E' gone) {n : ι} (hn : Live E root n) :
    Live E' root n ∨ gone n ∧ ∃ x, Copies E E' n x ∧ Live E' root x := by
  induction hn with
  | root => exact .inl .root
  | @child n c b _ hedge ih =>
      rcases ih with hlive | ⟨-, x, hcopy, hlive⟩
      · rcases h n b _ hedge with hkept | ⟨x, hx, ⟨b', hb'⟩ | ⟨d, hnode, hgone, hcopy⟩⟩
        · exact .inl (hlive.child hkept)
        · exact .inl ((hlive.child hx).child hb')
        · cases hnode
          exact .inr ⟨hgone, x, hcopy, hlive.child hx⟩
      · exact .inl (hlive.child (hcopy _ _ hedge))

/-- One node `p` gets the leaf `t` or an edge to the fresh node `x`, and `x` leads to `t` and to
what was below `p`. -/
structure Adds (E E' : Edges ι α τ) (p x : ι) (t : τ) : Prop where
  fresh : ∀ n b, E n b ≠ some (.node x)
  old : ∀ {n b r}, n ≠ x → E' n b = some r →
    E n b = some r ∨ n = p ∧ (r = .leaf t ∨ r = .node x)
  new : ∀ {b r}, E' x b = some r → r = .leaf t ∨ ∃ q b', Live E p q ∧ E q b' = some r

namespace Adds

variable {p x : ι} {t : τ}

theorem below (h : Adds E E' p x t) {n : ι} {t' : τ} (ht : Below E' n t') :
    (n ≠ x → Below E n t' ∨ t' = t) ∧ (n = x → Below E p t' ∨ t' = t) := by
  induction ht with
  | leaf hedge =>
      constructor
      · intro hn
        rcases h.old hn hedge with hkept | ⟨-, hleaf | hnode⟩
        · exact .inl (.leaf hkept)
        · cases hleaf
          exact .inr rfl
        · cases hnode
      · rintro rfl
        rcases h.new hedge with hleaf | ⟨q, b', hq, hq'⟩
        · cases hleaf
          exact .inr rfl
        · exact .inl (hq.leaf_below (.leaf hq'))
  | @node n c b t' hedge _ ih =>
      constructor
      · intro hn
        rcases h.old hn hedge with hkept | ⟨rfl, hleaf | hnode⟩
        · exact (ih.1 fun hc => h.fresh n b (hc ▸ hkept)).imp_left (.node hkept)
        · cases hleaf
        · cases hnode
          exact ih.2 rfl
      · rintro rfl
        rcases h.new hedge with hleaf | ⟨q, b', hq, hq'⟩
        · cases hleaf
        · exact (ih.1 fun hc => h.fresh q b' (hc ▸ hq')).imp_left fun hbelow =>
            hq.leaf_below (.node hq' hbelow)

/-- The fresh node is the only one that becomes live. -/
theorem live (h : Adds E E' p x t) (hp : Live E root p) {n : ι} (hn : Live E' root n) :
    n = x ∨ Live E root n := by
  induction hn with
  | root => exact .inr .root
  | @child n c b _ hedge ih =>
      by_cases hx : n = x
      · subst hx
        rcases h.new hedge with hleaf | ⟨q, b', hq, hq'⟩
        · cases hleaf
        · exact .inr ((hp.trans hq).child hq')
      · rcases h.old hx hedge with hkept | ⟨-, hleaf | hnode⟩
        · exact .inr ((ih.resolve_left hx).child hkept)
        · cases hleaf
        · cases hnode
          exact .inl rfl

end Adds

end RadixGraph
end TLI
