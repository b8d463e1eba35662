import Mathlib.Data.List.Basic

/-!
# Traverse — lists along which a partial function is applied

`xs.mapM f` has a result exactly if `f` has one on every element (`mapM_eq_some_iff`).
-/

namespace TLI

open List

variable {α β : Type} {f : α → Option β} {xs : List α}

theorem mapM_eq_some_iff {ys : List β} : xs.mapM f = some ys ↔ xs.map f = ys.map some := by
  induction xs generalizing ys with
  | nil =>
      cases ys with
      | nil => exact iff_of_true rfl rfl
      | cons y ys => exact iff_of_false nofun nofun
  | cons x xs ih =>
      constructor
      · intro h
        rw [mapM_cons] at h
        obtain ⟨y, hy, h⟩ := Option.bind_eq_some_iff.1 h
        obtain ⟨ys', hys', h⟩ := Option.bind_eq_some_iff.1 h
        cases h
        rw [map_cons, map_cons, hy, ih.1 hys']
      · intro h
        obtain ⟨y, ys', rfl, hy, hys'⟩ := map_eq_cons_iff.1 h.symm
        rw [mapM_cons, ← hy, ih.2 hys'.symm]
        rfl

theorem mapM_eq_some_map {g : α → β} (h : ∀ x ∈ xs, f x = some (g x)) :
    xs.mapM f = some (xs.map g) := by
  rw [mapM_eq_some_iff, map_map]
  exact map_congr_left h

theorem mapM_eq_filterMap (h : ∀ x ∈ xs, ∃ y, f x = some y) :
    xs.mapM f = some (xs.filterMap f) := by
  rw [mapM_eq_some_iff, map_filterMap_some_eq_filter_map_isSome, eq_comm, filter_eq_self]
  intro y hy
  obtain ⟨x, hx, rfl⟩ := mem_map.1 hy
  obtain ⟨y, hy⟩ := h x hx
  rw [hy]
  rfl

theorem length_of_mapM_eq_some {ys : List β} (h : xs.mapM f = some ys) :
    ys.length = xs.length := by
  have hlength := congrArg length (mapM_eq_some_iff.1 h)
  rw [length_map, length_map] at hlength
  exact hlength.symm

theorem exists_of_mem_mapM {ys : List β} (h : xs.mapM f = some ys) {y : β} (hy : y ∈ ys) :
    ∃ x ∈ xs, f x = some y := by
  have hmem : some y ∈ ys.map some := mem_map_of_mem hy
  rw [← mapM_eq_some_iff.1 h] at hmem
  exact mem_map.1 hmem

end TLI
