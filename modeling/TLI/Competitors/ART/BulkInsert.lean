import Mathlib.Data.List.TakeWhile
import TLI.Competitors.ART.Invariant
import TLI.Library.Fuel

/-!
# BulkInsert — bulk loading builds a well-formed tree of the given elements

The elements agree on the bytes up to `curDepth`.  As they are sorted, and as none of their keys is
a prefix of another, the byte at `curDepth` does not descend, and the loop that looks for a byte in
which they differ ends.
-/

namespace TLI
namespace ART

open Loop List Lexicographic

/-! ## Partition -/

/-- The runs: none is empty, each has one byte, and the bytes of later runs are larger. -/
structure Runs (byte : Element → UInt8) (parts : List (List Element)) (xs : List Element) :
    Prop where
  flatten_eq : parts.flatten = xs
  ne_nil : ∀ part, part ∈ parts → part ≠ []
  same : ∀ part, part ∈ parts → ∀ e, e ∈ part → ∀ e', e' ∈ part → byte e = byte e'
  ascend : parts.Pairwise fun part part' => ∀ e, e ∈ part → ∀ e', e' ∈ part' → byte e < byte e'

theorem partition_runs (curDepth : Nat) : ∀ (n : Nat) (xs : List Element), xs.length ≤ n →
    xs.Pairwise (fun e e' => byteAt e.key curDepth ≤ byteAt e'.key curDepth) →
      Runs (fun e => byteAt e.key curDepth) (partition curDepth n xs) xs
  | 0, xs, hn, _ => by
      rw [length_eq_zero_iff.1 (Nat.le_zero.1 hn)]
      exact ⟨rfl, by simp [partition], by simp [partition], Pairwise.nil⟩
  | n + 1, [], _, _ => ⟨rfl, by simp [partition], by simp [partition], Pairwise.nil⟩
  | n + 1, e :: rest, hn, hmono => by
      rw [length_cons] at hn
      rw [pairwise_cons] at hmono
      generalize hsame : (fun f : Element =>
        !decide (byteAt e.key curDepth < byteAt f.key curDepth)) = same
      have hpart : partition curDepth (n + 1) (e :: rest) =
          (e :: rest.takeWhile same) :: partition curDepth n (rest.dropWhile same) := by
        rw [← hsame]
        rfl
      have hdrop : rest.dropWhile same <:+ rest := dropWhile_suffix same
      have ih := partition_runs curDepth n (rest.dropWhile same)
        (hdrop.length_le.trans (by omega)) (hmono.2.sublist hdrop.sublist)
      -- The run has the byte of its first element.
      have hrun : ∀ f, f ∈ e :: rest.takeWhile same →
          byteAt f.key curDepth = byteAt e.key curDepth := by
        intro f hf
        rcases mem_cons.1 hf with rfl | hf
        · rfl
        · have hle := hmono.1 f (takeWhile_subset same hf)
          have hstop := mem_takeWhile_imp hf
          rw [← hsame] at hstop
          exact le_antisymm (by simpa using hstop) hle
      have hlater : ∀ f, f ∈ rest.dropWhile same →
          byteAt e.key curDepth < byteAt f.key curDepth := by
        intro f hf
        cases hcases : rest.dropWhile same with
        | nil =>
            rw [hcases] at hf
            cases hf
        | cons g later =>
            have hg : same g = false := by
              have hhead := head_dropWhile_not same (l := rest)
                (by rw [hcases]; exact cons_ne_nil _ _)
              simpa [hcases] using hhead
            have hlt : byteAt e.key curDepth < byteAt g.key curDepth := by
              rw [← hsame] at hg
              simpa using hg
            have hsorted := hmono.2.sublist hdrop.sublist
            rw [hcases] at hf hsorted
            rcases mem_cons.1 hf with rfl | hf
            · exact hlt
            · exact hlt.trans_le ((pairwise_cons.1 hsorted).1 f hf)
      rw [hpart]
      refine ⟨?_, ?_, ?_, ?_⟩
      · rw [flatten_cons, ih.flatten_eq, cons_append, takeWhile_append_dropWhile]
      · intro part hp
        rcases mem_cons.1 hp with rfl | hp
        · exact cons_ne_nil _ _
        · exact ih.ne_nil part hp
      · intro part hp
        rcases mem_cons.1 hp with rfl | hp
        · exact fun f hf f' hf' => (hrun f hf).trans (hrun f' hf').symm
        · exact ih.same part hp
      · refine pairwise_cons.2 ⟨fun part hp f hf f' hf' => ?_, ih.ascend⟩
        have hmem : f' ∈ rest.dropWhile same := by
          rw [← ih.flatten_eq]
          exact mem_flatten.2 ⟨part, hp, hf'⟩
        simp only [hrun f hf]
        exact hlater f' hmem

/-! ## Sorted keys behind a common prefix -/

/-- What bulk loading is given: keys in strict order, none of them a prefix of another. -/
structure Loadable (q : List UInt8) (xs : List Element) : Prop where
  common : ∀ e, e ∈ xs → q <+: e.key
  sorted : xs.Pairwise fun e e' => e.key < e'.key
  free : xs.Pairwise fun e e' => PrefixFree e.key e'.key

namespace Loadable

variable {q : List UInt8} {xs : List Element}

theorem sublist {ys : List Element} (h : Loadable q xs) (hsub : ys <+ xs) : Loadable q ys :=
  ⟨fun e he => h.common e (hsub.subset he), h.sorted.sublist hsub, h.free.sublist hsub⟩

/-- One of several keys goes on behind the common prefix. -/
theorem next (h : Loadable q xs) (hlength : 2 ≤ xs.length) {e : Element} (he : e ∈ xs) :
    q ++ [byteAt e.key q.length] <+: e.key := by
  suffices hlt : ∃ b, q ++ [b] <+: e.key by
    obtain ⟨b, hb⟩ := hlt
    rwa [byteAt_length hb]
  refine exists_next (h.common e he) fun hpre => ?_
  -- Otherwise it is the prefix itself, and the prefix of any other key.
  have hkey : e.key = q := hpre.eq_of_length_le (h.common e he).length_le
  obtain ⟨front, back, hsplit⟩ := append_of_mem he
  have hne : ∀ e', e' ∈ front ++ back → PrefixFree e.key e'.key ∧ e.key ≠ e'.key := by
    intro e' he'
    have hfree := hsplit ▸ h.free
    have hsorted := hsplit ▸ h.sorted
    rw [pairwise_append] at hfree hsorted
    rcases mem_append.1 he' with hf | hb
    · exact ⟨(hfree.2.2 e' hf e mem_cons_self).symm,
        (ne_of_lt (hsorted.2.2 e' hf e mem_cons_self)).symm⟩
    · exact ⟨(pairwise_cons.1 hfree.2.1).1 e' hb,
        ne_of_lt ((pairwise_cons.1 hsorted.2.1).1 e' hb)⟩
  obtain ⟨e', he'⟩ : ∃ e', e' ∈ front ++ back := by
    refine exists_mem_of_length_pos ?_
    rw [hsplit] at hlength
    simp only [length_append, length_cons] at hlength ⊢
    omega
  have hmem : e' ∈ xs := by
    rw [hsplit]
    rcases mem_append.1 he' with hf | hb
    · exact mem_append_left _ hf
    · exact mem_append_right _ (mem_cons_of_mem _ hb)
  exact (hne e' he').2 ((hne e' he').1 (Or.inl (hkey ▸ h.common e' hmem)))

/-- The bytes behind the common prefix do not descend. -/
theorem bytes_mono (h : Loadable q xs) (hlength : 2 ≤ xs.length) :
    xs.Pairwise fun e e' => byteAt e.key q.length ≤ byteAt e'.key q.length := by
  refine h.sorted.imp_of_mem fun he he' hlt => ?_
  by_contra hgt
  have hparts : Parts q _ _ _ _ :=
    ⟨h.next hlength he', h.next hlength he, ne_of_lt (not_le.1 hgt)⟩
  exact lt_asymm hlt (hparts.lt (not_le.1 hgt))

end Loadable

/-! ## Bulk loading -/

theorem Runs.loadable {q : List UInt8} {xs : List Element} {parts : List (List Element)}
    (h : Runs (fun e => byteAt e.key q.length) parts xs) (hload : Loadable q xs)
    (hlength : 2 ≤ xs.length) {part : List Element} (hpart : part ∈ parts) :
    part <+ xs ∧ Loadable (q ++ [runByte q.length part]) part := by
  have hsub : part <+ xs := by
    rw [← h.flatten_eq]
    exact sublist_flatten_of_mem hpart
  have hload' := hload.sublist hsub
  refine ⟨hsub, fun e he => ?_, hload'.sorted, hload'.free⟩
  obtain ⟨e', rest, rfl⟩ := exists_cons_of_ne_nil (h.ne_nil part hpart)
  have hbyte : runByte q.length (e' :: rest) = byteAt e.key q.length :=
    h.same _ hpart e' mem_cons_self e he
  rw [hbyte]
  exact hload.next hlength (hsub.subset he)

/-- The bytes of the runs ascend. -/
theorem Runs.bytes_sorted {curDepth : Nat} {xs : List Element} {parts : List (List Element)}
    (h : Runs (fun e => byteAt e.key curDepth) parts xs) :
    (parts.map (runByte curDepth)).Pairwise (· < ·) := by
  rw [pairwise_map]
  refine h.ascend.imp_of_mem fun {part part'} hp hp' hlt => ?_
  obtain ⟨e, rest, rfl⟩ := exists_cons_of_ne_nil (h.ne_nil part hp)
  obtain ⟨e', rest', rfl⟩ := exists_cons_of_ne_nil (h.ne_nil part' hp')
  exact hlt e mem_cons_self e' mem_cons_self

theorem bulkHeader_stores {p front : List UInt8} {e : Element} (h : p ++ front <+: e.key)
    (count : Nat) : (bulkHeader e p.length (p ++ front).length count).Stores front := by
  have hdiff : (p ++ front).length - p.length = front.length := by
    rw [length_append, Nat.add_sub_cancel_left]
  refine ⟨hdiff, fun i hi hmax => ?_⟩
  simp only [bulkHeader, hdiff]
  rw [copyOf, if_pos (lt_min hi hmax), byteAt_of_initial h (by rw [length_append]; omega),
    byteAt_append]

/-- The node over the trees of the runs. -/
theorem bulkNode_wf {p front : List UInt8} {e : Element} {parts : List (List Element)}
    {tree : List Element → Node} (hkey : p ++ front <+: e.key)
    (hsorted : (parts.map (runByte (p ++ front).length)).Pairwise (· < ·))
    (hcount : 2 ≤ parts.length)
    (htree : ∀ part, part ∈ parts →
      WF (p ++ front ++ [runByte (p ++ front).length part]) (tree part) ∧
        elems (tree part) ~ part) :
    WF p (bulkNode (bulkHeader e p.length (p ++ front).length parts.length)
        (parts.map (runByte (p ++ front).length)) (parts.map tree)) ∧
      elems (bulkNode (bulkHeader e p.length (p ++ front).length parts.length)
        (parts.map (runByte (p ++ front).length)) (parts.map tree)) ~ parts.flatten := by
  have hpairs : (parts.map (runByte (p ++ front).length)).zip (parts.map tree) =
      parts.map fun part => (runByte (p ++ front).length part, tree part) :=
    zip_map'
  have hinner := bulkNode_isInner (bulkHeader_stores hkey parts.length)
    (length_map tree).symm (by simp) hsorted (fun n hn => by
      obtain ⟨part, hpart, rfl⟩ := mem_map.1 hn
      exact (htree part hpart).1.present)
  rw [hpairs] at hinner
  obtain ⟨hwf, hperm⟩ := hinner.wf (p := p) (by rwa [length_map]) fun b n hmem => by
    obtain ⟨part, hpart, heq⟩ := mem_map.1 hmem
    cases heq
    exact (htree part hpart).1
  refine ⟨hwf, hperm.trans ?_⟩
  rw [flatMap_map, ← flatMap_id]
  exact Perm.flatMap_left _ fun part hpart => (htree part hpart).2

/-- The longest key bounds how often the loop goes on. -/
theorem exists_length_bound (xs : List Element) :
    ∃ left, ∀ e, e ∈ xs → e.key.length ≤ left := by
  induction xs with
  | nil => exact ⟨0, fun e he => absurd he not_mem_nil⟩
  | cons x xs ih =>
      obtain ⟨left, hleft⟩ := ih
      refine ⟨max x.key.length left, fun e he => ?_⟩
      rcases mem_cons.1 he with rfl | he
      · exact le_max_left _ _
      · exact (hleft e he).trans (le_max_right _ _)

theorem bulk_insert_wf : ∀ (left : Nat) (p front : List UInt8) (xs : List Element),
    Loadable (p ++ front) xs → (∀ e, e ∈ xs → e.key.length ≤ (p ++ front).length + left) →
      xs ≠ [] →
        ∃ n, Returns (fun fuel => bulk_insert fuel xs p.length (p ++ front).length) n ∧
          WF p n ∧ elems n ~ xs
  | _, _, _, [], _, _, hne => absurd rfl hne
  | _, p, front, [e], hload, _, _ =>
      ⟨.leaf e, Returns.of_succ (Returns.const (Node.leaf e)) fun _ => rfl,
        .leaf ((prefix_append p front).trans (hload.common e mem_cons_self)), Perm.refl _⟩
  | 0, p, front, e :: f :: rest, hload, hbound, _ => by
      have hnext := (hload.next (by simp) mem_cons_self).length_le
      have hle := hbound e mem_cons_self
      rw [length_append, length_singleton] at hnext
      omega
  | left + 1, p, front, e :: f :: rest, hload, hbound, _ => by
      have hlength : 2 ≤ (e :: f :: rest).length := by simp
      have hruns := partition_runs (p ++ front).length _ _ le_rfl (hload.bytes_mono hlength)
      generalize hparts : partition (p ++ front).length (e :: f :: rest).length
        (e :: f :: rest) = parts at hruns
      have hpos : parts ≠ [] := by
        rintro rfl
        cases hruns.flatten_eq
      have hpart : ∀ part, part ∈ parts → ∀ x, x ∈ part → x.key.length ≤
          (p ++ front ++ [runByte (p ++ front).length part]).length + left := by
        intro part hp x hx
        have hle := hbound x ((hruns.loadable hload hlength hp).1.subset hx)
        simp only [length_append, length_singleton] at hle ⊢
        omega
      by_cases hone : parts.length = 1
      · -- All elements share the byte: the compressed path gets longer.
        obtain ⟨part, rfl⟩ := length_eq_one_iff.1 hone
        have hsame : part = e :: f :: rest := by simpa using hruns.flatten_eq
        subst hsame
        have hload' := (hruns.loadable hload hlength (mem_singleton_self _)).2
        have hbound' := hpart _ (mem_singleton_self _)
        rw [append_assoc] at hload' hbound'
        obtain ⟨n, hreturns, hwf, hperm⟩ := bulk_insert_wf left p _ _ hload' hbound'
          (cons_ne_nil _ _)
        refine ⟨n, hreturns.of_succ fun fuel => ?_, hwf, hperm⟩
        rw [bulk_insert, hparts, if_pos hone]
        simp only [length_append, length_singleton, Nat.add_assoc]
      · have hkids : ∀ part, ∃ n, part ∈ parts →
            Returns (fun fuel => bulk_insert fuel part ((p ++ front).length + 1)
              ((p ++ front).length + 1)) n ∧
            WF (p ++ front ++ [runByte (p ++ front).length part]) n ∧ elems n ~ part := by
          intro part
          by_cases hp : part ∈ parts
          · have hload' := (hruns.loadable hload hlength hp).2
            obtain ⟨n, hreturns, hn⟩ := bulk_insert_wf left
              (p ++ front ++ [runByte (p ++ front).length part]) [] part (by rwa [append_nil])
              (by rw [append_nil]; exact hpart part hp) (hruns.ne_nil part hp)
            refine ⟨n, fun _ => ⟨?_, hn⟩⟩
            simpa only [append_nil, length_append, length_singleton] using hreturns
          · exact ⟨.null, fun h => absurd h hp⟩
        obtain ⟨tree, htree⟩ := Classical.skolem.1 hkids
        have hcount : 2 ≤ parts.length := by
          have := length_pos_iff.2 hpos
          omega
        obtain ⟨hwf, hperm⟩ := bulkNode_wf (hload.common e mem_cons_self) hruns.bytes_sorted
          hcount fun part hp => (htree part hp).2
        rw [hruns.flatten_eq] at hperm
        refine ⟨_, (Returns.map (bulkNode (bulkHeader e p.length (p ++ front).length parts.length)
          (parts.map (runByte (p ++ front).length)))
          (Returns.mapM fun part hp => (htree part hp).1)).of_succ fun fuel => ?_, hwf, hperm⟩
        rw [bulk_insert, hparts, if_neg hone]

end ART
end TLI
