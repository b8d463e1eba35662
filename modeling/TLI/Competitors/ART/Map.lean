import TLI.Competitors.ART.BulkInsert
import TLI.Competitors.ART.Insert

/-!
# Map — the index finds what was loaded and inserted, and nothing else

`Holds tree stored` relates the tree to the pairs it was given.  `Build` establishes it, `Insert`
adds a pair to it, and `EqualityLookup` answers from the pairs.

The code keeps lengths in an `unsigned`, so a stored encoding has to be shorter than `2^32` bytes.
A search key may be longer: it is compared with its length modulo `2^32`, and a stored key of that
length would be a prefix of it.
-/

namespace TLI
namespace ART

open List Lexicographic

variable {K : Type} [LinearOrder K] [KeyType K]

/-- The pairs that a tree holds. -/
def Holds (tree : Node) (stored : List (KeyValue K)) : Prop :=
  tree = .null ∧ stored = [] ∨ WF [] tree ∧ elems tree ~ stored.map element

/-- The length of an encoding fits an `unsigned`. -/
def Fits (k : K) : Prop :=
  (convert2String k).length < 2 ^ 32

/-- What was loaded and what was then inserted. -/
structure Load (K : Type) where
  data : List (KeyValue K)
  /-- The inserted pairs, each with the memory behind its encoded key. -/
  inserts : List ((Nat → UInt8) × KeyValue K)

namespace Load

def stored (load : Load K) : List (KeyValue K) :=
  load.data ++ load.inserts.map Prod.snd

/-- The keys are loaded in order, and inserted only if they are not stored yet. -/
def Valid (load : Load K) : Prop :=
  load.data.Pairwise (fun kv kv' => kv.key < kv'.key) ∧
    (load.stored.map KeyValue.key).Nodup

/-- The tree after `Build` and the calls of `Insert`. -/
def run (load : Load K) (fuel : Nat) : Option Node :=
  (Build fuel load.data).map fun tree =>
    load.inserts.foldl (fun tree insert => Insert tree insert.1 insert.2) tree

end Load

/-! ## Build and Insert -/

namespace Holds

variable {tree : Node} {stored stored' : List (KeyValue K)}

omit [LinearOrder K] in
theorem elems_perm (h : Holds tree stored) : elems tree ~ stored.map element := by
  rcases h with ⟨rfl, rfl⟩ | ⟨-, hperm⟩
  · exact Perm.refl _
  · exact hperm

omit [LinearOrder K] in
theorem mem_elems (h : Holds tree stored) {e : Element} :
    e ∈ elems tree ↔ ∃ kv, kv ∈ stored ∧ element kv = e := by
  rw [h.elems_perm.mem_iff, mem_map]

omit [LinearOrder K] in
theorem elems_sorted (h : Holds tree stored) :
    (elems tree).Pairwise fun e e' => e.key < e'.key := by
  rcases h with ⟨rfl, -⟩ | ⟨hwf, -⟩
  · exact Pairwise.nil
  · exact hwf.elems_sorted

omit [LinearOrder K] in
theorem perm (h : Holds tree stored) (hperm : stored ~ stored') : Holds tree stored' := by
  rcases h with ⟨rfl, rfl⟩ | ⟨hwf, helems⟩
  · exact Or.inl ⟨rfl, nil_perm.1 hperm⟩
  · exact Or.inr ⟨hwf, helems.trans (hperm.map _)⟩

end Holds

section Lawful

variable [LawfulKeyType K]

theorem element_free (kv kv' : KeyValue K) : PrefixFree (element kv).key (element kv').key :=
  convert2String_prefixFree kv.key kv'.key

theorem loadable_element {data : List (KeyValue K)}
    (h : data.Pairwise fun kv kv' => kv.key < kv'.key) : Loadable [] (data.map element) := by
  refine ⟨fun e _ => prefix_append [] _, pairwise_map.2 (h.imp fun hlt => convert2String_lt hlt), ?_⟩
  exact pairwise_map.2 (h.imp fun _ => element_free _ _)

theorem build_holds {data : List (KeyValue K)}
    (h : data.Pairwise fun kv kv' => kv.key < kv'.key) :
    ∃ tree, Returns (fun fuel => Build fuel data) tree ∧ Holds tree data := by
  by_cases hnil : data = []
  · subst hnil
    exact ⟨.null, (Returns.const Node.null).of_succ fun _ => rfl, Or.inl ⟨rfl, rfl⟩⟩
  · obtain ⟨left, hleft⟩ := exists_length_bound (data.map element)
    obtain ⟨tree, hreturns, hwf⟩ := bulk_insert_wf left [] [] (data.map element)
      (loadable_element h) (fun e he => by simpa using hleft e he) (by simpa using hnil)
    exact ⟨tree, hreturns, Or.inr hwf⟩

theorem insert_holds {tree : Node} {stored : List (KeyValue K)} (h : Holds tree stored)
    {kv : KeyValue K} (hnew : ∀ kv', kv' ∈ stored → kv'.key ≠ kv.key) (hfits : Fits kv.key)
    (hstored : ∀ kv', kv' ∈ stored → Fits kv'.key) (behind : Nat → UInt8) :
    Holds (Insert tree behind kv) (kv :: stored) := by
  rcases h with ⟨rfl, rfl⟩ | ⟨hwf, hperm⟩
  · exact Or.inr ⟨.leaf (prefix_append [] _), Perm.refl _⟩
  · have hadmits : Admits tree (element kv).key := by
      intro e he
      obtain ⟨kv', hkv', rfl⟩ := mem_map.1 (hperm.mem_iff.1 he)
      exact ⟨hstored kv' hkv', fun hpre => hnew kv' hkv' (eq_of_initial hpre),
        fun hpre => hnew kv' hkv' (eq_of_initial hpre).symm⟩
    obtain ⟨hwf', hperm'⟩ := insert_wf hwf (show (element kv).key.length < 2 ^ 32 from hfits) behind
      (prefix_append [] _) hadmits
    refine Or.inr ?_
    rw [Insert, keyLength, Nat.mod_eq_of_lt hfits]
    exact ⟨hwf', hperm'.trans (hperm.cons _)⟩

theorem inserts_hold : ∀ (inserts : List ((Nat → UInt8) × KeyValue K)) {tree : Node}
    {stored : List (KeyValue K)}, Holds tree stored →
      ((stored ++ inserts.map Prod.snd).map KeyValue.key).Nodup →
      (∀ kv, kv ∈ stored ++ inserts.map Prod.snd → Fits kv.key) →
        Holds (inserts.foldl (fun tree insert => Insert tree insert.1 insert.2) tree)
          (stored ++ inserts.map Prod.snd)
  | [], _, _, h, _, _ => by rwa [map_nil, append_nil]
  | (behind, kv) :: inserts, tree, stored, h, hnodup, hfits => by
      have hassoc : stored ++ ((behind, kv) :: inserts).map Prod.snd =
          stored ++ [kv] ++ inserts.map Prod.snd := by
        rw [append_assoc]
        rfl
      rw [hassoc] at hnodup hfits ⊢
      have hnew : ∀ kv', kv' ∈ stored → kv'.key ≠ kv.key := by
        intro kv' hkv' heq
        rw [append_assoc, map_append, nodup_append] at hnodup
        exact hnodup.2.2 _ (mem_map_of_mem hkv') _ (mem_map_of_mem mem_cons_self) heq
      have hholds := insert_holds h hnew (hfits kv (by simp))
        (fun kv' hkv' => hfits kv' (by simp [hkv'])) behind
      exact inserts_hold inserts (hholds.perm (perm_append_singleton kv stored).symm) hnodup hfits

theorem run_holds {load : Load K} (hvalid : load.Valid)
    (hfits : ∀ kv, kv ∈ load.stored → Fits kv.key) :
    ∃ tree, Returns load.run tree ∧ Holds tree load.stored := by
  obtain ⟨tree, hreturns, hholds⟩ := build_holds hvalid.1
  exact ⟨_, hreturns.map _, inserts_hold load.inserts hholds hvalid.2 hfits⟩

/-! ## EqualityLookup -/

/-- The answer to a lookup is the value stored with the key, or `NOT_FOUND`. -/
def Answers (tree : Node) (stored : List (KeyValue K)) (behind : Nat → UInt8) (k : K) : Prop :=
  (∀ kv, kv ∈ stored → kv.key = k → EqualityLookup tree behind k = kv.value) ∧
    ((∀ kv, kv ∈ stored → kv.key ≠ k) → EqualityLookup tree behind k = Util.NOT_FOUND)

theorem lookup_answers {tree : Node} {stored : List (KeyValue K)} (h : Holds tree stored)
    (hfits : ∀ kv, kv ∈ stored → Fits kv.key) (behind : Nat → UInt8) (k : K) :
    Answers tree stored behind k := by
  rcases h with ⟨rfl, rfl⟩ | ⟨hwf, hperm⟩
  · exact ⟨fun kv hkv => absurd hkv not_mem_nil, fun _ => rfl⟩
  · have hmod : keyLength (convert2String k) < 2 ^ 32 := Nat.mod_lt _ (by decide)
    constructor
    · rintro kv hkv rfl
      have he : element kv ∈ elems tree := hperm.mem_iff.2 (mem_map_of_mem hkv)
      have hbytes : ∀ i, i < (element kv).key.length →
          c_str (convert2String kv.key) behind i = byteAt (element kv).key i :=
        fun i hi => c_str_of_lt hi
      have hfound := lookup_complete hwf he (hfits kv hkv) hbytes false
      have hlength : keyLength (convert2String kv.key) = (element kv).key.length :=
        Nat.mod_eq_of_lt (hfits kv hkv)
      rw [EqualityLookup, hlength]
      rw [length_nil] at hfound
      rw [hfound]
      rfl
    · intro habsent
      rw [EqualityLookup]
      cases hlookup : lookup (c_str (convert2String k) behind) (keyLength (convert2String k)) tree 0
        false with
      | none => rfl
      | some e =>
          -- The bytes of the stored key found are a prefix of the search key.
          obtain ⟨he, hlength, hbytes⟩ := lookup_sound hwf hmod
            (fun _ i hi => absurd hi (Nat.not_lt_zero i)) hlookup
          obtain ⟨kv, hkv, rfl⟩ := mem_map.1 (hperm.mem_iff.1 he)
          have hle : (element kv).key.length ≤ (convert2String k).length := by
            rw [hlength]
            exact Nat.mod_le _ _
          have hpre : (element kv).key <+: convert2String k := by
            refine prefix_of_bytes hle fun i hi => ?_
            rw [hbytes i (by omega), c_str_of_lt (by omega)]
          exact absurd (eq_of_initial hpre) (habsent kv hkv)

end Lawful

/-! ## Correctness as a map -/

/-- After `Build` and the calls of `Insert`, every lookup is answered from the stored pairs. -/
def IsMap (load : Load K) : Prop :=
  ∃ tree, Returns load.run tree ∧ ∀ behind k, Answers tree load.stored behind k

theorem isMap_of_fits [LawfulKeyType K] {load : Load K} (hvalid : load.Valid)
    (hfits : ∀ kv, kv ∈ load.stored → Fits kv.key) : IsMap load := by
  obtain ⟨tree, hreturns, hholds⟩ := run_holds hvalid hfits
  exact ⟨tree, hreturns, lookup_answers hholds hfits⟩

theorem fits_uint64 (k : UInt64) : Fits k := by
  rw [Fits, convert2String_uint64, length_reverse, Util.length_memoryBytes]
  decide

theorem fits_nulFree {k : NulFree} : Fits k ↔ k.1.length < 2 ^ 32 - 1 := by
  rw [Fits, convert2String_nulFree, length_append, length_singleton]
  omega

theorem isMap_of_fitting_strings :
    (∀ load : Load UInt64, load.Valid → IsMap load) ∧
      ∀ load : Load NulFree, load.Valid →
        (∀ kv, kv ∈ load.stored → kv.key.1.length < 2 ^ 32 - 1) → IsMap load :=
  ⟨fun _ hvalid => isMap_of_fits hvalid fun kv _ => fits_uint64 kv.key,
    fun _ hvalid hshort => isMap_of_fits hvalid fun kv hkv => fits_nulFree.2 (hshort kv hkv)⟩

/-- Two pairs loaded and one inserted below both of them. -/
def threePairs : Load UInt64 where
  data := [⟨5, 50⟩, ⟨7, 70⟩]
  inserts := [(fun _ => 0, ⟨3, 30⟩)]

theorem isMap_threePairs : IsMap threePairs := by
  refine isMap_of_fitting_strings.1 threePairs ⟨?_, ?_⟩
  · decide
  · decide

/-- A string of `n` bytes, none of them NUL. -/
def ones (n : Nat) : NulFree :=
  ⟨replicate n 1, fun h => absurd (eq_of_mem_replicate h) (by decide)⟩

theorem length_ones (n : Nat) : (ones n).1.length = n :=
  length_replicate

def onePair (s : NulFree) : Load NulFree where
  data := [⟨s, 7⟩]
  inserts := []

/-- The length of an encoding of `2^32` bytes wraps to zero, and the only key is not found. -/
theorem not_isMap_of_length {s : NulFree} (hlength : s.1.length + 1 = 2 ^ 32) :
    ¬ IsMap (onePair s) := by
  have hencoded : (convert2String s).length = 2 ^ 32 := by
    rw [convert2String_nulFree, length_append, length_singleton, hlength]
  rintro ⟨tree, hreturns, hanswers⟩
  have hleaf : Returns (onePair s).run (.leaf (element ⟨s, 7⟩)) :=
    (Returns.const (Node.leaf (element ⟨s, 7⟩))).of_succ fun _ => rfl
  rw [hreturns.unique hleaf] at hanswers
  have hfound := (hanswers (fun _ => 0) s).1 ⟨s, 7⟩ mem_cons_self rfl
  have hmismatch : ∀ key depth, leafMatches (element ⟨s, 7⟩) key 0 depth = false := by
    intro key depth
    rw [leafMatches, decide_eq_false, Bool.false_and]
    rw [element, hencoded]
    exact Nat.two_pow_pos 32 |>.ne'
  have hnone : EqualityLookup (.leaf (element ⟨s, 7⟩)) (fun _ => 0) s = Util.NOT_FOUND := by
    rw [EqualityLookup, keyLength, hencoded, Nat.mod_self, lookup, hmismatch]
    rfl
  have hvalue : Util.NOT_FOUND = 7 := hnone.symm.trans hfound
  exact absurd hvalue (by decide)

theorem not_isMap_ones :
    (onePair (ones (2 ^ 32 - 1))).Valid ∧ ¬ IsMap (onePair (ones (2 ^ 32 - 1))) := by
  refine ⟨⟨pairwise_singleton _ _, nodup_singleton _⟩, not_isMap_of_length ?_⟩
  rw [length_ones, Nat.sub_add_cancel (Nat.two_pow_pos 32)]

end ART
end TLI
