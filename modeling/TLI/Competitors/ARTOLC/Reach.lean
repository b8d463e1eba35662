import TLI.Competitors.ARTOLC.Runs

/-!
# Reach — the nodes that a thread can still access

A thread keeps the nodes that it has come by, also when other threads have replaced them.
`access_live`: every node that it can still access has been in the tree at some time since its call
began.  This is what the reclamation of nodes (`Epoche`) relies on.
-/

namespace TLI
namespace ARTOLC

open List RadixGraph Transition

variable {loadKey : TID → List UInt8} {keys : List UInt8 → Prop} {G : Ghost} {s : Shared}
  {pending retiring : Nat → Prop} {m : Nat}

/-! ## The nodes of a thread -/

/-- The nodes that a lookup can still access.  A child counts when the word of its parent was
checked behind the read. -/
def LookupPc.nodes : LookupPc → List Nat
  | .restart | .done _ => []
  | .hasPrefix a | .fits a | .loop a _ | .byte a _ | .isLong a _ | .skip a _ | .getChild a
  | .checkChild a _ | .checkLeaf a _ | .noMatch a => [a.node]
  | .lockChild a child | .checkParent a child _ => [a.node, child]

def InsertAt.nodes (a : InsertAt) : List Nat :=
  (a.parent.map Parent.node).toList ++ [a.node]

def childNodes : Child → List Nat
  | .leaf _ => []
  | .node c => [c]

/-- The nodes that an insert can still access. -/
def InsertPc.nodes : InsertPc → List Nat
  | .lock parent node _ => (parent.map Parent.node).toList ++ [node]
  | .loop a _ _ | .byte a _ _ | .isLong a _ _ _ | .copyShort a _ _ | .copyLong a _ _ _
  | .lockParent a _ _ _ | .getChild a _ => a.nodes
  | .walkLock a _ _ n | .walkChild a _ _ n _ | .walkCheck a _ _ n _ _ => n :: a.nodes
  | .lockNode sp | .linkSplit sp | .unlockParent sp | .setPrefix sp => [sp.parent.node, sp.node]
  | .checkChild p _ | .isFull p | .checkParentRoom p | .lockRoom p | .insertLeaf p
  | .growLockParent p | .lockLeaf p _ | .linkLeaf p _ _ => p.at_.nodes
  | .checkParent p child => childNodes child ++ p.at_.nodes
  | .growLockNode g | .growLink g | .growObsolete g => [g.parent.node, g.node]
  | .unlock n | .unlockRestart n => [n]
  | .done | .crashed => []

def Pc.nodes : Pc → List Nat
  | .idle => []
  | .lookup _ pc => pc.nodes
  | .insert _ pc => pc.nodes

theorem parent_mem_nodes {a : InsertAt} {e : Parent} (he : a.parent = some e) :
    e.node ∈ a.nodes := by
  rw [InsertAt.nodes, he]
  exact mem_append_left _ (mem_singleton_self _)

theorem node_mem_nodes (a : InsertAt) : a.node ∈ a.nodes :=
  mem_append_right _ (mem_singleton_self _)

/-- Two states have the same node. -/
structure SameNode (s s' : Shared) (n : Nat) : Prop where
  word : s'.word n = s.word n
  prefixCount : s'.prefixCount n = s.prefixCount n
  prefixBytes : s'.prefixBytes n = s.prefixBytes n
  children : s'.children n = s.children n

namespace SameNode

variable {s' : Shared} {n : Nat} (torn : Torn) (v : UInt64)

theorem readChild (h : SameNode s s' n) (b : UInt8) :
    s'.readChild torn n v b = s.readChild torn n v b := by
  rw [Shared.readChild, Shared.readChild, h.word, h.children]

theorem readAnyChild (h : SameNode s s' n) : s'.readAnyChild torn n v = s.readAnyChild torn n v := by
  simp only [Shared.readAnyChild, Shared.getAnyChild, Shared.childList, h.word, h.children]

theorem readByte (h : SameNode s s' n) (i : Nat) :
    s'.readByte torn n v i = s.readByte torn n v i := by
  rw [Shared.readByte, Shared.readByte, h.word, h.prefixBytes]

theorem readBytes (h : SameNode s s' n) : s'.readBytes torn n v = s.readBytes torn n v := by
  rw [Shared.readBytes, Shared.readBytes, h.word, h.prefixBytes]

theorem readFull (h : SameNode s s' n) : s'.readFull torn n v = s.readFull torn n v := by
  simp only [Shared.readFull, Shared.isFull, Shared.count, h.word, h.children]

theorem upgrade (h : SameNode s s' n) (locked failed : InsertPc) :
    upgrade s' n v locked failed = upgrade s n v locked failed := by
  rw [ARTOLC.upgrade, ARTOLC.upgrade, h.word]

theorem grown (h : SameNode s s' n) (b : UInt8) (r : Child) : s'.grown n b r = s.grown n b r := by
  simp only [Shared.grown, h.word, h.prefixCount, h.prefixBytes, h.children]

end SameNode

/-- A step of a lookup depends on the root and on the nodes of the lookup only. -/
theorem lookupStep_frame {s' : Shared} {k : List UInt8} {torn : Torn} {pc : LookupPc}
    (hroot : SameNode s s' root) (h : ∀ n ∈ pc.nodes, SameNode s s' n) :
    lookupStep loadKey k s' torn pc = lookupStep loadKey k s torn pc := by
  cases pc with
  | restart => simp only [lookupStep, hroot.word]
  | done r => rfl
  | lockChild a child =>
      have hchild := h child (mem_cons_of_mem _ (mem_singleton_self _))
      simp only [lookupStep, hchild.word]
  | _ =>
      have hnode := h _ mem_cons_self
      simp only [lookupStep, hnode.word, hnode.prefixCount, hnode.readByte, hnode.readChild]

/-- A step of an insert depends on the nodes of the insert only. -/
theorem insertStep_frame {s' : Shared} {tid : TID} {torn : Torn} {pc : InsertPc}
    (h : ∀ n ∈ pc.nodes, SameNode s s' n) :
    insertStep loadKey tid s' torn pc = insertStep loadKey tid s torn pc := by
  cases pc with
  | lock parent node level =>
      have hnode := h node (mem_append_right _ (mem_singleton_self _))
      simp only [insertStep, hnode.word]
  | loop a i kt =>
      have hnode := h a.node (node_mem_nodes a)
      simp only [insertStep, hnode.prefixCount]
  | byte a i kt =>
      have hnode := h a.node (node_mem_nodes a)
      simp only [insertStep, hnode.readByte]
  | isLong a i kt c =>
      have hnode := h a.node (node_mem_nodes a)
      simp only [insertStep, hnode.prefixCount]
  | copyShort a i c =>
      have hnode := h a.node (node_mem_nodes a)
      simp only [insertStep, hnode.prefixCount, hnode.readBytes]
  | copyLong a i kt c =>
      have hnode := h a.node (node_mem_nodes a)
      simp only [insertStep, hnode.prefixCount]
  | walkLock a i mismatch n =>
      have hnode := h n mem_cons_self
      simp only [insertStep, hnode.word]
  | walkChild a i mismatch n v =>
      have hnode := h n mem_cons_self
      simp only [insertStep, hnode.readAnyChild]
  | walkCheck a i mismatch n v child =>
      have hnode := h n mem_cons_self
      simp only [insertStep, hnode.word]
  | lockParent a i c rest =>
      cases hparent : a.parent with
      | none => simp only [insertStep, hparent]
      | some p =>
          have hnode := h p.node (parent_mem_nodes hparent)
          simp only [insertStep, hparent, hnode.upgrade]
  | lockNode sp =>
      have hnode := h sp.node (mem_cons_of_mem _ (mem_singleton_self _))
      simp only [insertStep, hnode.upgrade]
  | linkSplit sp =>
      have hnode := h sp.node (mem_cons_of_mem _ (mem_singleton_self _))
      simp only [insertStep, hnode.prefixBytes]
  | setPrefix sp =>
      have hnode := h sp.node (mem_cons_of_mem _ (mem_singleton_self _))
      simp only [insertStep, hnode.prefixCount]
  | getChild a nextLevel =>
      have hnode := h a.node (node_mem_nodes a)
      simp only [insertStep, hnode.readChild]
  | checkChild p child =>
      have hnode := h p.at_.node (node_mem_nodes p.at_)
      simp only [insertStep, hnode.word]
  | checkParent p child =>
      cases hparent : p.at_.parent with
      | none => simp only [insertStep, hparent]
      | some e =>
          have hnode := h e.node (mem_append_right _ (parent_mem_nodes hparent))
          simp only [insertStep, hparent, hnode.word]
  | isFull p =>
      have hnode := h p.at_.node (node_mem_nodes p.at_)
      simp only [insertStep, hnode.readFull]
  | checkParentRoom p =>
      cases hparent : p.at_.parent with
      | none => simp only [insertStep, hparent]
      | some e =>
          have hnode := h e.node (parent_mem_nodes hparent)
          simp only [insertStep, hparent, hnode.word]
  | lockRoom p =>
      have hnode := h p.at_.node (node_mem_nodes p.at_)
      simp only [insertStep, hnode.upgrade]
  | growLockParent p =>
      cases hparent : p.at_.parent with
      | none => simp only [insertStep, hparent]
      | some e =>
          have hnode := h e.node (parent_mem_nodes hparent)
          simp only [insertStep, hparent, hnode.upgrade]
  | growLockNode g =>
      have hnode := h g.node (mem_cons_of_mem _ (mem_singleton_self _))
      simp only [insertStep, hnode.upgrade]
  | growLink g =>
      have hnode := h g.node (mem_cons_of_mem _ (mem_singleton_self _))
      simp only [insertStep, hnode.grown]
  | lockLeaf p other =>
      have hnode := h p.at_.node (node_mem_nodes p.at_)
      simp only [insertStep, hnode.upgrade]
  | _ => rfl

/-! ## Steps -/

section Steps

variable (h : Tree loadKey keys G pending retiring s) (hsettled : Settled s pending retiring)

include h hsettled

/-- The child of a node whose word is still the same is in the tree. -/
theorem live_child {n c : Nat} {v : UInt64} {b : UInt8} (hreads : Reads s n v)
    (hv : s.word n = v) (hedge : s.children n b = some (.node c)) :
    Live s.children root c :=
  (h.live_of_free hsettled hreads.lt (hv ▸ hreads.free)).child hedge

theorem lookupStep_nodes {k : List UInt8} {P : Prop} {torn : Torn} {pc pc' : LookupPc}
    (hstep : lookupStep loadKey k s torn pc = some pc')
    (hfacts : LookupFacts loadKey G s k P pc) (hm : m ∈ pc'.nodes) :
    m ∈ pc.nodes ∨ Live s.children root m := by
  cases pc with
  | restart =>
      cases hstep
      split at hm
      · rw [mem_singleton.1 hm]
        exact .inr .root
      · cases hm
  | checkChild a child =>
      cases hstep
      obtain ⟨hbehind, b, -, hchild⟩ := hfacts
      split at hm
      · cases hm
      · rename_i hv
        have hv' := not_not.1 hv
        match child with
        | none => cases hm
        | some (.leaf t) => exact .inl hm
        | some (.node c) =>
            rcases mem_cons.1 hm with hm' | hm'
            · exact .inl (hm' ▸ mem_singleton_self _)
            · rw [mem_singleton.1 hm']
              exact .inr (live_child h hsettled hbehind.reads hv' (hchild hv'))
  | lockChild a child =>
      cases hstep
      split at hm
      · exact .inl hm
      · cases hm
  | checkParent a child nv =>
      cases hstep
      split at hm
      · cases hm
      · exact .inl (mem_cons_of_mem _ hm)
  | done r => cases hstep
  | _ =>
      -- The node stays the same, or the lookup is over.
      cases hstep
      try split at hm
      all_goals first | exact .inl hm | cases hm

/-- A child is accessed when the words have been checked. -/
theorem checked_nodes {k : List UInt8} {tid : TID} {p : Place} {child : Option Child}
    (hfacts : InsertFacts loadKey G s k tid (.checkChild p child))
    (hv : s.word p.at_.node = p.at_.v) (hm : m ∈ (InsertPc.checked p child).nodes) :
    m ∈ p.at_.nodes ∨ Live s.children root m := by
  obtain ⟨hat, -, hchild⟩ := hfacts
  cases child with
  | none => exact .inl hm
  | some r =>
      rw [InsertPc.checked] at hm
      cases r with
      | leaf t =>
          split at hm
          · exact .inl hm
          · exact .inl hm
      | node c =>
          have hlive := live_child h hsettled hat.reads hv (hchild hv)
          split at hm
          · rcases mem_cons.1 hm with rfl | hm'
            · exact .inr hlive
            · exact .inl hm'
          · rcases mem_append.1 hm with hm' | hm'
            · exact .inl (mem_append_right _ hm')
            · rw [mem_singleton.1 hm']
              exact .inr hlive

omit h hsettled in
theorem upgrade_nodes {n : Nat} {v : UInt64} {locked failed pc' : InsertPc} {e : Effect}
    (hstep : upgrade s n v locked failed = (e, pc')) (hm : m ∈ pc'.nodes) :
    m ∈ locked.nodes ∨ m ∈ failed.nodes := by
  rw [upgrade] at hstep
  split at hstep
  · cases hstep
    exact .inl hm
  · cases hstep
    exact .inr hm

omit h hsettled in
theorem live_of_mem_restart (hm : m ∈ InsertPc.restart.nodes) : Live s.children root m := by
  rw [mem_singleton.1 hm]
  exact .root

theorem insertStep_nodes {k : List UInt8} {tid : TID} {torn : Torn} {pc pc' : InsertPc}
    {e : Effect} (hstep : insertStep loadKey tid s torn pc = some (e, pc'))
    (hfacts : InsertFacts loadKey G s k tid pc) (hm : m ∈ pc'.nodes) :
    m ∈ pc.nodes ∨ Live s.children root m := by
  cases pc with
  | lock parent node level =>
      cases hstep
      split at hm
      · exact .inl hm
      · exact .inr (live_of_mem_restart hm)
  | loop a i kt =>
      cases hstep
      split at hm
      · split at hm
        · rcases mem_cons.1 hm with rfl | hm'
          · exact .inl (node_mem_nodes a)
          · exact .inl hm'
        · exact .inl hm
      · exact .inl hm
  | byte a i kt =>
      obtain ⟨-, rfl⟩ := Prod.mk.inj (Option.some.inj hstep)
      rw [apply_ite InsertPc.nodes] at hm
      have hm' : m ∈ ite _ a.nodes a.nodes := hm
      rw [ite_self] at hm'
      exact .inl hm'
  | isLong a i kt c =>
      cases hstep
      split at hm
      · split at hm
        · rcases mem_cons.1 hm with rfl | hm'
          · exact .inl (node_mem_nodes a)
          · exact .inl hm'
        · exact .inl hm
      · exact .inl hm
  | walkLock a i mismatch n =>
      cases hstep
      split at hm
      · exact .inl hm
      · exact .inr (live_of_mem_restart hm)
  | walkCheck a i mismatch n v child =>
      cases hstep
      obtain ⟨hwalk, hreads, hchild⟩ := hfacts
      split at hm
      · exact .inr (live_of_mem_restart hm)
      · rename_i hv
        have hv' := not_not.1 hv
        obtain ⟨b, r, rfl, hedge⟩ := hchild hv'
        cases r with
        | leaf t =>
            refine .inl (mem_cons_of_mem _ ?_)
            cases mismatch with
            | none => exact hm
            | some c => exact hm
        | node c =>
            rcases mem_cons.1 hm with rfl | hm'
            · exact .inr (live_child h hsettled hreads hv' hedge)
            · exact .inl (mem_cons_of_mem _ hm')
  | lockParent a i c rest =>
      cases hparent : a.parent with
      | none =>
          rw [insertStep, hparent] at hstep
          cases hstep
          cases hm
      | some p =>
          rw [insertStep, hparent] at hstep
          rcases upgrade_nodes (Option.some.inj hstep) hm with hm' | hm'
          · rcases mem_cons.1 hm' with rfl | hm''
            · exact .inl (parent_mem_nodes hparent)
            · rw [mem_singleton.1 hm'']
              exact .inl (node_mem_nodes a)
          · exact .inr (live_of_mem_restart hm')
  | lockNode sp =>
      rcases upgrade_nodes (Option.some.inj hstep) hm with hm' | hm'
      · exact .inl hm'
      · rw [mem_singleton.1 hm']
        exact .inl mem_cons_self
  | checkChild p child =>
      cases hstep
      split at hm
      · exact .inr (live_of_mem_restart hm)
      · rename_i hv
        exact checked_nodes h hsettled hfacts (not_not.1 hv) hm
  | checkParent p child =>
      cases hparent : p.at_.parent with
      | none =>
          rw [insertStep, hparent] at hstep
          cases hstep
          cases hm
      | some e =>
          rw [insertStep, hparent] at hstep
          cases hstep
          dsimp only at hm
          split at hm
          · exact .inr (live_of_mem_restart hm)
          · cases child with
            | leaf t => exact .inl hm
            | node c =>
                rcases mem_append.1 hm with hm' | hm'
                · rw [mem_singleton.1 hm']
                  exact .inl (mem_append_right _ (node_mem_nodes _))
                · exact .inl (mem_append_left _ hm')
  | isFull p =>
      cases hstep
      split at hm
      · exact .inl hm
      · split at hm
        · exact .inl hm
        · exact .inl hm
  | checkParentRoom p =>
      cases hparent : p.at_.parent with
      | none =>
          rw [insertStep, hparent] at hstep
          cases hstep
          cases hm
      | some e =>
          rw [insertStep, hparent] at hstep
          cases hstep
          dsimp only at hm
          split at hm
          · exact .inr (live_of_mem_restart hm)
          · exact .inl hm
  | lockRoom p =>
      rcases upgrade_nodes (Option.some.inj hstep) hm with hm' | hm'
      · exact .inl hm'
      · exact .inr (live_of_mem_restart hm')
  | growLockParent p =>
      cases hparent : p.at_.parent with
      | none =>
          rw [insertStep, hparent] at hstep
          cases hstep
          cases hm
      | some e =>
          rw [insertStep, hparent] at hstep
          rcases upgrade_nodes (Option.some.inj hstep) hm with hm' | hm'
          · rcases mem_cons.1 hm' with rfl | hm''
            · exact .inl (parent_mem_nodes hparent)
            · rw [mem_singleton.1 hm'']
              exact .inl (node_mem_nodes _)
          · exact .inr (live_of_mem_restart hm')
  | growLockNode g =>
      rcases upgrade_nodes (Option.some.inj hstep) hm with hm' | hm'
      · exact .inl hm'
      · rw [mem_singleton.1 hm']
        exact .inl mem_cons_self
  | lockLeaf p other =>
      rcases upgrade_nodes (Option.some.inj hstep) hm with hm' | hm'
      · refine .inl ?_
        cases hfirst : firstDifference ((loadKey other).drop (p.nextLevel + 1))
            ((loadKey tid).drop (p.nextLevel + 1)) with
        | none =>
            rw [hfirst] at hm'
            rw [mem_singleton.1 hm']
            exact node_mem_nodes _
        | some prefixLength =>
            rw [hfirst] at hm'
            exact hm'
      · exact .inr (live_of_mem_restart hm')
  | insertLeaf p =>
      cases hstep
      rw [mem_singleton.1 hm]
      exact .inl (node_mem_nodes _)
  | linkLeaf p other prefixLength =>
      cases hstep
      rw [mem_singleton.1 hm]
      exact .inl (node_mem_nodes _)
  | setPrefix sp =>
      cases hstep
      rw [mem_singleton.1 hm]
      exact .inl (mem_cons_of_mem _ (mem_singleton_self _))
  | growObsolete g =>
      cases hstep
      rw [mem_singleton.1 hm]
      exact .inl mem_cons_self
  | unlockRestart n =>
      cases hstep
      exact .inr (live_of_mem_restart hm)
  | done => cases hstep
  | crashed => cases hstep
  | _ =>
      -- The nodes stay the same, or the insert is over.
      cases hstep
      try split at hm
      all_goals first | exact .inl hm | cases hm

end Steps

/-! ## Runs -/

section Runs

variable {ι : Type} [DecidableEq ι] [DecidablePred keys] {s₀ st st' : State ι} {n : Nat}

/-- Between a call and its return a step brings only nodes that are in the tree. -/
theorem step_nodes {P : ι → Prop} {b : Nat} (h : Inv loadKey keys P b G st) {i : ι} {a : Agent ι}
    (hreturn : a ≠ .return_ i) (hbusy : st.pc i ≠ .idle)
    (hstep : step loadKey keys a st = some st') :
    st'.pc i ≠ .idle ∧ ∀ m ∈ (st'.pc i).nodes,
      m ∈ (st.pc i).nodes ∨ Live st.shared.children root m := by
  have hother : ∀ {j : ι} {shared : Shared} {pc' : Pc}, j ≠ i →
      (State.mk shared (Function.update st.pc j pc')).pc i = st.pc i :=
    fun hj => Function.update_of_ne (Ne.symm hj) ..
  have hsame : ∀ {st' : State ι}, st'.pc i = st.pc i → st'.pc i ≠ .idle ∧
      ∀ m ∈ (st'.pc i).nodes, m ∈ (st.pc i).nodes ∨ Live st.shared.children root m := by
    intro st' hpc
    rw [hpc]
    exact ⟨hbusy, fun m hm => .inl hm⟩
  have hfacts := h.facts i
  cases moves_of_step hstep with
  | @lookup j k hidle _ => exact hsame (hother fun hj => hbusy (hj ▸ hidle))
  | @insert j tid hidle _ => exact hsame (hother fun hj => hbusy (hj ▸ hidle))
  | @runLookup j torn k pc pc' hpc hnext =>
      by_cases hj : j = i
      · subst hj
        rw [hpc] at hfacts ⊢
        change (Function.update st.pc j _ j ≠ _) ∧ ∀ m ∈ (Function.update st.pc j _ j).nodes, _
        rw [Function.update_self]
        exact ⟨Pc.noConfusion, fun m hm =>
          lookupStep_nodes h.tree h.settled hnext hfacts.2.2 hm⟩
      · exact hsame (hother hj)
  | @runInsert j torn tid pc pc' e hpc hnext =>
      by_cases hj : j = i
      · subst hj
        rw [hpc] at hfacts ⊢
        change (Function.update st.pc j _ j ≠ _) ∧ ∀ m ∈ (Function.update st.pc j _ j).nodes, _
        rw [Function.update_self]
        exact ⟨Pc.noConfusion, fun m hm =>
          insertStep_nodes h.tree h.settled hnext hfacts.2 hm⟩
      · exact hsame (hother hj)
  | @return_ j _ => exact hsame (hother fun hj => hreturn (hj ▸ rfl))

/-- What a thread can still access was in the tree at some time since its call. -/
theorem access_live (hkeys : KeySet keys) (hinit : Initial s₀) {st₁ st₂ : State ι} {b : Nat}
    (hreach : (system loadKey keys).Run (fun _ => True) b s₀ st₁) {i : ι}
    (hcall : (∃ k, st₁.pc i = .lookup k .restart) ∨ ∃ tid, st₁.pc i = .insert tid .restart)
    (hrun : (system loadKey keys).Run (fun a => a ≠ .return_ i) n st₁ st₂)
    (hbound : b + n + 2 ≤ 2 ^ 60) :
    ∀ m ∈ (st₂.pc i).nodes, ∃ n₁ n₂ st, n₁ + n₂ = n ∧
      (system loadKey keys).Run (fun a => a ≠ .return_ i) n₁ st₁ st ∧
      (system loadKey keys).Run (fun a => a ≠ .return_ i) n₂ st st₂ ∧
      Live st.shared.children root m := by
  suffices hboth : st₂.pc i ≠ .idle ∧ ∀ m ∈ (st₂.pc i).nodes, ∃ n₁ n₂ st, n₁ + n₂ = n ∧
      (system loadKey keys).Run (fun a => a ≠ .return_ i) n₁ st₁ st ∧
      (system loadKey keys).Run (fun a => a ≠ .return_ i) n₂ st st₂ ∧
      Live st.shared.children root m from hboth.2
  induction hrun with
  | refl =>
      rcases hcall with ⟨k, hpc⟩ | ⟨tid, hpc⟩
      · rw [hpc]
        refine ⟨Pc.noConfusion, fun m hm => ?_⟩
        cases hm
      · rw [hpc]
        exact ⟨Pc.noConfusion, fun m hm => ⟨0, 0, _, rfl, .refl _, .refl _,
          live_of_mem_restart hm⟩⟩
  | @tail n st₁ st st' a hrun hreturn hstep ih =>
      obtain ⟨hbusy, hlive⟩ := ih hreach hcall (by omega)
      obtain ⟨G, h⟩ := inv_of_run hkeys hinit (hreach.trans (hrun.mono fun _ _ => trivial))
        (by omega)
      obtain ⟨hbusy', hnodes⟩ := step_nodes h hreturn hbusy hstep
      refine ⟨hbusy', fun m hm => ?_⟩
      rcases hnodes m hm with hold | hnow
      · obtain ⟨n₁, n₂, st₀, rfl, hrun₁, hrun₂, hlive₀⟩ := hlive m hold
        exact ⟨n₁, n₂ + 1, st₀, rfl, hrun₁, hrun₂.tail hreturn hstep, hlive₀⟩
      · exact ⟨n, 1, st, rfl, hrun, (Transition.System.Run.refl st).tail hreturn hstep, hnow⟩

end Runs

def State.callsInsert (st : State Bool) (tid : TID) : Bool :=
  match st.pc true with
  | .insert t (.lock none 0 0) => t == tid
  | _ => false

def State.mayAccess (st : State Bool) (n : Nat) : Bool :=
  decide (n ∈ (st.pc true).nodes)

theorem State.callsInsert_pc {st : State Bool} {tid : TID} (h : st.callsInsert tid = true) :
    st.pc true = .insert tid .restart := by
  unfold State.callsInsert at h
  split at h
  · rename_i hpc
    rw [hpc, beq_iff_eq.1 h]
    rfl
  · cases h

/-- Thread 1 can still access the node that thread 0 is splitting. -/
theorem access_live_two_threads : ∃ st₁ st₂ st, ∃ n₁ n₂, 1 ∈ (st₂.pc true).nodes ∧
    n₁ + n₂ = 29 ∧ twoThreads.Run (fun a => a ≠ .return_ true) n₁ st₁ st ∧
      twoThreads.Run (fun a => a ≠ .return_ true) n₂ st st₂ ∧
      Live st.shared.children root 1 := by
  obtain ⟨st₁, hreach, hboth⟩ := Transition.System.Run.exists_of_exec twoThreads
    (fun _ => True) beforeSplit emptyTree
    (p := fun st => st.callsInsert 0x0102039905060708 &&
      (twoThreads.exec splitInBetween st).any fun st => st.mayAccess 1)
    (fun _ _ => trivial) (by decide +kernel)
  obtain ⟨hcall, hrest⟩ := Bool.and_eq_true_iff.1 hboth
  have hmay : ∀ a ∈ splitInBetween, a ≠ .return_ true := by
    intro a ha
    rcases mem_append.1 ha with ha' | ha'
    · exact ne_return_of_mem_alone ha'
    · rcases mem_cons.1 ha' with rfl | ha''
      · exact fun heq => by cases heq
      · exact ne_return_of_mem_alone ha''
  obtain ⟨st₂, hrun, hmem⟩ := Transition.System.Run.exists_of_exec twoThreads
    _ _ st₁ hmay hrest
  have hmem' : 1 ∈ (st₂.pc true).nodes := of_decide_eq_true hmem
  obtain ⟨n₁, n₂, st, hn, hrun₁, hrun₂, hlive⟩ := access_live (keySet_length (by decide))
    initial_emptyTree hreach (.inr ⟨_, State.callsInsert_pc hcall⟩) hrun (by decide) 1 hmem'
  exact ⟨st₁, st₂, st, n₁, n₂, hmem', hn, hrun₁, hrun₂, hlive⟩

end ARTOLC
end TLI
