import TLI.Competitors.MABTree.Levels

/-!
# Defined — which runs compute nothing undefined

A run is free of divisions by zero and of values out of the range of `int` exactly if its requests
stay in reach, and neither bulk loading nor a split puts two or more equal keys alone into a leaf.
-/

namespace TLI
namespace MABTree

open List LowerBound

section Requests

variable {p : Params UInt64} {tree : Tree UInt64} {xs : List (KeyValue UInt64)}

theorem query_calls_safe_iff (hexact : Exact p.arithmetic) (hshort : p.traits.Short)
    (h : Holds p.traits tree xs) (hsteady : tree.Steady) (key : UInt64) :
    (∀ c ∈ query_calls p tree key, c.Safe) ↔ KeyInReach p.traits tree key := by
  obtain ⟨root, st⟩ := tree
  obtain ⟨hchain, hitems, hsorted, hwf⟩ := h
  subst hitems
  cases root with
  | none => exact iff_of_true (fun c hc => absurd hc not_mem_nil) fun v hv => absurd hv not_mem_nil
  | some root =>
      obtain ⟨level, n⟩ := root
      have hready : Ready p.traits st level n :=
        ⟨hwf level n rfl, hsorted, hchain.nodup, hchain.allocated⟩
      exact descend_calls_safe_iff hexact hshort key hready (hsteady level n rfl) nofun nofun

theorem insert_calls_safe_iff (hexact : Exact p.arithmetic) (hshort : p.traits.Short)
    (h : Holds p.traits tree xs) (hsteady : tree.Steady) (kv : KeyValue UInt64) :
    (∀ c ∈ insert_calls p tree kv, c.Safe) ↔
      KeyInReach p.traits tree kv.key ∧ LeafSplits p.traits tree kv.key := by
  obtain ⟨root, st⟩ := tree
  obtain ⟨hchain, hitems, hsorted, hwf⟩ := h
  subst hitems
  cases root with
  | none =>
      -- Nothing is predicted in an empty leaf.
      have hleaf : st.first_leaf.2.leaf st.first_leaf.1 = ⟨0, [], none, none⟩ :=
        leaf_allocate_leaf st
      have hmax := p.traits.leafslotmax_ge
      have hcalls : insert_calls p ⟨none, st⟩ kv = [] := by
        simp only [insert_calls, insert_descend_calls, hleaf, length_nil]
        rw [if_neg (by omega), append_nil]
        exact if_neg (Nat.not_lt_zero _)
      rw [hcalls]
      exact iff_of_true (fun c hc => absurd hc not_mem_nil)
        ⟨fun v hv => absurd hv not_mem_nil, fun v hv => absurd hv.symm (Option.some_ne_none v)⟩
  | some root =>
      obtain ⟨level, n⟩ := root
      have hready : Ready p.traits st level n :=
        ⟨hwf level n rfl, hsorted, hchain.nodup, hchain.allocated⟩
      exact insert_descend_calls_safe_iff hexact hshort kv hready (hsteady level n rfl)
        (fun lo hlo => absurd hlo.symm (Option.some_ne_none lo))
        fun hi hhi => absurd hhi.symm (Option.some_ne_none hi)

end Requests

/-! ## Runs -/

section Runs

variable {p : Params UInt64}

theorem run_calls_safe_iff (hexact : Exact p.arithmetic) (hshort : p.traits.Short)
    (requests : List Request) : ∀ {tree : Tree UInt64} {xs : List (KeyValue UInt64)},
      Holds p.traits tree xs → tree.Steady →
        ((∀ c ∈ run_calls p tree requests, c.Safe) ↔ RunMeets p tree requests) := by
  induction requests with
  | nil => exact fun _ _ => iff_of_true (fun c hc => absurd hc not_mem_nil) trivial
  | cons request requests ih =>
      intro tree xs h hsteady
      rw [run_calls, RunMeets, forall_mem_append]
      cases request with
      | find key =>
          refine and_congr (query_calls_safe_iff hexact hshort h hsteady key) ?_
          rw [Request.apply]
          simp only [Option.some.injEq, forall_eq']
          exact ih h hsteady
      | insert kv =>
          refine (and_congr_left' (insert_calls_safe_iff hexact hshort h hsteady kv)).trans ?_
          refine and_congr_right fun hmeets => ?_
          obtain ⟨tree', hinsert, hholds⟩ := insert_start_spec p h kv
          rw [Request.apply, hinsert]
          simp only [Option.some.injEq, forall_eq']
          exact ih hholds (insert_start_steady hexact hshort h hsteady hmeets.2 hinsert)

end Runs

/-- Nodes of 1024 bytes and pages of 64, with exact arithmetic. -/
def exactParams : Params UInt64 where
  traits := ⟨64, 64, 8, Nat.le_add_left 8 56, Nat.le_add_left 8 56⟩
  arithmetic :=
    ⟨fun key lo_key hi_key lo_pos hi_pos =>
        (Call.compute_predict_pos key lo_key hi_key lo_pos hi_pos).value,
      fun a b c => (Call.scale a b c).value⟩
  search := smallParams.search

theorem exact_exactParams : Exact exactParams.arithmetic :=
  fun _ _ _ _ _ _ => rfl

end MABTree
end TLI
