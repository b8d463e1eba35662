import TLI.Competitors.ART.Invariant

/-!
# Lookup — the optimistic search finds exactly the stored key

The search skips a compressed path that is not stored in full.  What it skipped is made up for at
the leaf, where the whole key is compared; where nothing was skipped, the bytes on the way to the
leaf have been compared already.
-/

namespace TLI
namespace ART

open Loop List

/-- A leaf matches when its key has the length and, from `depth` on, the bytes of the search key. -/
theorem leafMatches_iff {e : Element} {key : Nat → UInt8} {keyLength depth : Nat}
    (hlength : keyLength < 2 ^ 32) (hdepth : depth ≤ e.key.length) :
    leafMatches e key keyLength depth = true ↔
      e.key.length = keyLength ∧
        ∀ i, depth ≤ i → i < keyLength → byteAt e.key i = key i := by
  rw [leafMatches, Bool.and_eq_true, decide_eq_true_eq, decide_eq_true_eq]
  refine and_congr_right fun heq => ?_
  rw [unsignedSub_eq (heq ▸ hdepth) hlength]
  constructor
  · intro hscan i hi hlt
    have hbefore := scan_before (fun i => decide (byteAt e.key (depth + i) ≠ key (depth + i)))
      (keyLength - depth) 0 (i - depth) (Nat.zero_le _) (by omega)
    rw [Nat.add_sub_cancel' hi] at hbefore
    simpa using hbefore
  · intro hbytes
    rw [scan_eq_end, Nat.zero_add]
    intro j _ hj
    simpa using hbytes (depth + j) (by omega) (by omega)

/-- The child that the search goes on to. -/
theorem LayoutOK.find_cases {hdr : Header} {lay : Layout} {child : Nat → Node}
    (hok : LayoutOK hdr.count lay (presentIn child)) {b : UInt8} {s : Nat}
    (hfind : findChild hdr.count lay b = some s) :
    (b, child s) ∈ children hdr.count lay child ∨ child s = .null := by
  cases hpresent : presentIn child s with
  | true => exact Or.inl (mem_map.2 ⟨(b, s), hok.findChild_iff.2 ⟨hfind, hpresent⟩, rfl⟩)
  | false =>
      rw [presentIn] at hpresent
      cases hchild : child s with
      | null => exact Or.inr rfl
      | leaf e => rw [hchild] at hpresent; cases hpresent
      | inner hdr lay child => rw [hchild] at hpresent; cases hpresent

/-- What the search returns is stored and has the bytes of the search key. -/
theorem lookup_sound {p : List UInt8} {n : Node} (h : WF p n) {key : Nat → UInt8}
    {keyLength : Nat} (hlength : keyLength < 2 ^ 32) :
    ∀ {skippedPrefix : Bool},
      (skippedPrefix = false → ∀ i, i < p.length → key i = byteAt p i) →
      ∀ {e}, lookup key keyLength n p.length skippedPrefix = some e →
        e ∈ elems n ∧ e.key.length = keyLength ∧
          ∀ i, i < keyLength → byteAt e.key i = key i := by
  induction h with
  | @leaf p e hkey =>
      intro skippedPrefix hpath e' hlookup
      rw [lookup, Option.ite_none_right_eq_some] at hlookup
      obtain ⟨hmatches, heq⟩ := hlookup
      cases heq
      cases skippedPrefix with
      | true =>
          obtain ⟨heq, hbytes⟩ := (leafMatches_iff hlength (Nat.zero_le _)).1 hmatches
          exact ⟨mem_singleton_self e, heq, fun i hi => hbytes i (Nat.zero_le i) hi⟩
      | false =>
          obtain ⟨heq, hbytes⟩ := (leafMatches_iff hlength hkey.length_le).1 hmatches
          refine ⟨mem_singleton_self e, heq, fun i hi => ?_⟩
          rcases Nat.lt_or_ge i p.length with hlt | hge
          · rw [hpath rfl i hlt, byteAt_of_initial hkey hlt]
          · exact hbytes i hge hi
  | @inner p path hdr lay child hstores hok hcount hkids ih =>
      intro skippedPrefix hpath e hlookup
      have hleast := prefix_minKey hstores hok hcount hkids
      rw [lookup, hstores.length_eq, prefixMismatch_eq hstores hleast] at hlookup
      split at hlookup
      · cases hlookup
      · rename_i hpass
        split at hlookup
        · rename_i s hfind
          rcases hok.find_cases hfind with hmem | hnull
          · have hdepth : p.length + path.length + 1 =
                (p ++ path ++ [key (p.length + path.length)]).length := by
              rw [length_append, length_append, length_singleton]
            rw [hdepth] at hlookup
            suffices hstart : (skippedPrefix || decide (maxPrefixLength < path.length)) = false →
                ∀ i, i < (p ++ path ++ [key (p.length + path.length)]).length →
                  key i = byteAt (p ++ path ++ [key (p.length + path.length)]) i by
              obtain ⟨he, hrest⟩ := ih _ _ hmem hstart hlookup
              refine ⟨?_, hrest⟩
              rw [elems_inner]
              exact mem_flatMap.2 ⟨_, hmem, he⟩
            intro hskipped i hi
            -- Nothing was skipped: the path is stored in full and has been compared.
            rw [Bool.or_eq_false_iff, decide_eq_false_iff_not] at hskipped
            have hcompared : ∀ pos, pos < path.length →
                key (p.length + pos) = byteAt path pos := by
              intro pos hpos
              have hscan : scan (fun pos => decide (key (p.length + pos) ≠ byteAt path pos))
                  (min (unsignedSub keyLength p.length) path.length) 0 = path.length := by
                by_contra hne
                exact hpass ⟨by omega, by omega, hne⟩
              have hbefore := scan_before _ _ 0 pos (Nat.zero_le pos) (hscan.symm ▸ hpos)
              simpa using hbefore
            simp only [length_append, length_singleton] at hi
            rcases Nat.lt_trichotomy i (p.length + path.length) with hlt | heq | hgt
            · rw [byteAt_of_initial (prefix_append (p ++ path) _) (by rwa [length_append])]
              rcases Nat.lt_or_ge i p.length with hlow | hhigh
              · rw [hpath hskipped.1 i hlow, byteAt_of_initial (prefix_append p path) hlow]
              · obtain ⟨pos, rfl⟩ := Nat.exists_eq_add_of_le hhigh
                rw [hcompared pos (by omega), byteAt_append]
            · have hbyte := byteAt_length
                (prefix_refl (p ++ path ++ [key (p.length + path.length)]))
              rw [length_append] at hbyte
              rw [heq, hbyte]
            · omega
          · rw [hnull, lookup] at hlookup
            cases hlookup
        · cases hlookup

/-- A stored key is found. -/
theorem lookup_complete {p : List UInt8} {n : Node} (h : WF p n) {e : Element}
    (he : e ∈ elems n) {key : Nat → UInt8} (hlength : e.key.length < 2 ^ 32)
    (hkey : ∀ i, i < e.key.length → key i = byteAt e.key i) :
    ∀ skippedPrefix, lookup key e.key.length n p.length skippedPrefix = some e := by
  induction h with
  | @leaf p e' hpath =>
      intro skippedPrefix
      cases mem_singleton.1 he
      rw [lookup, if_pos]
      split
      · exact (leafMatches_iff hlength (Nat.zero_le _)).2 ⟨rfl, fun i _ hi => (hkey i hi).symm⟩
      · exact (leafMatches_iff hlength hpath.length_le).2 ⟨rfl, fun i _ hi => (hkey i hi).symm⟩
  | @inner p path hdr lay child hstores hok hcount hkids ih =>
      intro skippedPrefix
      have hleast := prefix_minKey hstores hok hcount hkids
      rw [elems_inner, mem_flatMap] at he
      obtain ⟨⟨b, m⟩, hmem, he⟩ := he
      obtain ⟨⟨b, s⟩, hentry, heq⟩ := mem_map.1 hmem
      cases heq
      have hpath := (hkids b _ hmem).prefix_key he
      have hle := hpath.length_le
      simp only [length_append, length_singleton] at hle
      have hbyte : key (p.length + path.length) = b := by
        rw [hkey _ (by omega), ← length_append, byteAt_length hpath]
      have hscan : scan (fun pos => decide (key (p.length + pos) ≠ byteAt path pos))
          (min (unsignedSub e.key.length p.length) path.length) 0 = path.length := by
        rw [unsignedSub_eq (by omega) hlength, min_eq_right (by omega), scan_eq_end, Nat.zero_add]
        intro j _ hj
        rw [hkey _ (by omega), byteAt_of_initial ((prefix_append (p ++ path) [b]).trans hpath)
          (by rw [length_append]; omega), byteAt_append]
        simp
      have hnext := ih b _ hmem he (skippedPrefix || decide (maxPrefixLength < path.length))
      simp only [length_append, length_singleton] at hnext
      rw [lookup, hstores.length_eq, prefixMismatch_eq hstores hleast, hscan,
        if_neg (fun h => h.2.2 rfl), hbyte, (hok.findChild_iff.1 hentry).1]
      exact hnext

end ART
end TLI
