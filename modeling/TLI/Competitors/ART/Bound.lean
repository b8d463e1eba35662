import TLI.Competitors.ART.Iterate

/-!
# Bound — the descent along a key leaves the elements from the key on

The descent ends in a leaf, inside a compressed path, or between two children.  In each case the
elements below the node that are to be enumerated are those that `bound` leaves on the stack, in
front of the elements the stack led to before.
-/

namespace TLI
namespace ART

open Loop List Lexicographic

/-- The elements that `bound` looks for: from the key on, or behind it. -/
def wanted (lower : Bool) (key : List UInt8) (e : Element) : Bool :=
  decide (key < e.key) || lower && decide (e.key = key)

theorem wanted_of_lt {lower : Bool} {key : List UInt8} {e : Element} (h : key < e.key) :
    wanted lower key e = true := by
  rw [wanted, decide_eq_true h, Bool.true_or]

theorem wanted_of_gt {lower : Bool} {key : List UInt8} {e : Element} (h : e.key < key) :
    wanted lower key e = false := by
  rw [wanted, decide_eq_false (lt_asymm h), decide_eq_false (ne_of_lt h), Bool.and_false,
    Bool.or_false]

theorem wanted_self {lower : Bool} {key : List UInt8} {e : Element} (h : e.key = key) :
    wanted lower key e = lower := by
  rw [wanted, h, decide_eq_false (lt_irrefl key), decide_eq_true rfl, Bool.and_true,
    Bool.false_or]

/-- The keys below a node against a search key: equal, or no prefixes of each other. -/
def Comparable (n : Node) (key : List UInt8) : Prop :=
  ∀ e, e ∈ elems n → e.key.length < 2 ^ 32 ∧ PrefixFree e.key key

/-! ## Leaves -/

/-- The scan over a leaf's key stops at the byte that separates the keys, or goes through. -/
theorem scan_leaf {p key key' : List UInt8} {x y : UInt8} {more : List UInt8}
    (hparts : Parts (p ++ more) key key' x y) (behind : Nat → UInt8) :
    p.length + more.length < min key'.length key.length ∧
      scan (fun i => decide (byteAt key i ≠ c_str key' behind i))
        (min key'.length key.length - p.length) p.length = p.length + more.length ∧
      byteAt key (p.length + more.length) = x ∧
      c_str key' behind (p.length + more.length) = y := by
  have hx := byteAt_length hparts.left
  have hy := byteAt_length hparts.right
  have hle := hparts.left.length_le
  have hle' := hparts.right.length_le
  simp only [length_append, length_singleton] at hx hy hle hle'
  have hy' : c_str key' behind (p.length + more.length) = y := by
    rw [c_str_of_lt (by omega), hy]
  refine ⟨by omega, scan_eq (Nat.le_add_right _ _) (by omega) (fun j hj hj' => ?_) ?_, hx, hy'⟩
  · have hin : j < (p ++ more).length := by
      rw [length_append]
      omega
    rw [c_str_of_lt (by omega), byteAt_of_initial ((prefix_append _ [x]).trans hparts.left) hin,
      byteAt_of_initial ((prefix_append _ [y]).trans hparts.right) hin]
    simp
  · rw [hx, hy']
    exact decide_eq_true hparts.ne

theorem bound_leaf {p : List UInt8} {e : Element} (hkey : p <+: e.key) {key : List UInt8}
    (hpath : p <+: key) (hcomp : Comparable (.leaf e) key) (behind : Nat → UInt8) (lower : Bool)
    {stack : List (Node × Nat)} (hsound : Sound stack) :
    ∃ result, Returns (fun fuel =>
        bound fuel (c_str key behind) key.length lower (.leaf e) p.length stack) result ∧
      Leads result ((elems (.leaf e)).filter (wanted lower key) ++ remaining stack) := by
  obtain ⟨hlength, hfree⟩ := hcomp e (mem_singleton_self e)
  obtain ⟨result, hreturns, hleads⟩ := iteratorNext_leaf hsound e 0
  have hat : Leads (true, Iterator.mk (some e) ((.leaf e, 0) :: stack)) (e :: remaining stack) :=
    leads_of_at ⟨e, 0, stack, rfl, rfl, hsound, rfl⟩
  simp only [bound, keyLength, Nat.mod_eq_of_lt hlength, elems]
  by_cases heq : e.key = key
  · -- The whole keys are equal.
    have hscan : scan (fun i => decide (byteAt e.key i ≠ c_str key behind i))
        (min key.length e.key.length - p.length) p.length = key.length := by
      have hle := hpath.length_le
      rw [heq, min_self, scan_eq_end, Nat.add_sub_cancel' hle]
      intro j _ hj
      rw [c_str_of_lt (by omega)]
      simp
    rw [hscan, heq, min_self]
    simp only [lt_irrefl, if_false]
    cases lower with
    | true =>
        refine ⟨_, Returns.const _, ?_⟩
        rwa [filter_cons_of_pos (by rw [wanted_self heq]), filter_nil]
    | false =>
        refine ⟨result, hreturns, ?_⟩
        rwa [filter_cons_of_neg (by rw [wanted_self heq]; exact Bool.false_ne_true), filter_nil]
  · obtain ⟨more, x, y, hparts⟩ := exists_parts hkey hpath hfree heq
    obtain ⟨hlt, hscan, hx, hy⟩ := scan_leaf hparts behind
    rw [hscan]
    simp only [hlt, if_true, hx, hy]
    by_cases hxy : x < y
    · simp only [hxy, if_true]
      refine ⟨result, hreturns, ?_⟩
      rwa [filter_cons_of_neg (by rw [wanted_of_gt (hparts.lt hxy)]; exact Bool.false_ne_true),
        filter_nil]
    · simp only [hxy, if_false]
      refine ⟨_, Returns.const _, ?_⟩
      have hyx : y < x := lt_of_le_of_ne (not_lt.1 hxy) hparts.ne.symm
      rwa [filter_cons_of_pos (wanted_of_lt (hparts.symm.lt hyx)), filter_nil]

/-! ## Inner nodes -/

/-- The elements below the children in front of a byte, at it and behind it. -/
theorem flatMap_byte {es : List (UInt8 × Nat)} {b : UInt8} {g : UInt8 × Nat → List Element}
    (hsorted : es.Pairwise fun x y => x.1 < y.1) (hsmall : ∀ bs, bs ∈ es → bs.1 < b → g bs = [])
    {s : Nat} (hs : (b, s) ∈ es) :
    es.flatMap g = g (b, s) ++ (es.filter fun bs => decide (b < bs.1)).flatMap g := by
  obtain ⟨front, back, rfl⟩ := append_of_mem hs
  rw [pairwise_append, pairwise_cons] at hsorted
  obtain ⟨-, ⟨hback, -⟩, hfront⟩ := hsorted
  have hnil : front.flatMap g = [] := flatMap_eq_nil_iff.2 fun bs hbs =>
    hsmall bs (mem_append_left _ hbs) (hfront bs hbs (b, s) mem_cons_self)
  have hnone : front.filter (fun bs => decide (b < bs.1)) = [] := by
    refine filter_eq_nil_iff.2 fun bs hbs => ?_
    rw [decide_eq_true_eq]
    exact lt_asymm (hfront bs hbs (b, s) mem_cons_self)
  have hall : back.filter (fun bs => decide (b < bs.1)) = back :=
    filter_eq_self.2 fun bs hbs => decide_eq_true (hback bs hbs)
  rw [flatMap_append, hnil, flatMap_cons, nil_append, filter_append, hnone,
    filter_cons_of_neg (by simp), hall, nil_append]

/-- If no child has the byte, the elements below the children behind it. -/
theorem flatMap_gap {es : List (UInt8 × Nat)} {b : UInt8} {g : UInt8 × Nat → List Element}
    (hsmall : ∀ bs, bs ∈ es → bs.1 < b → g bs = []) (hgap : ∀ bs, bs ∈ es → bs.1 ≠ b) :
    es.flatMap g = (es.filter fun bs => decide (b < bs.1)).flatMap g := by
  induction es with
  | nil => rfl
  | cons bs es ih =>
      have ih := ih (fun x hx => hsmall x (mem_cons_of_mem _ hx))
        fun x hx => hgap x (mem_cons_of_mem _ hx)
      rcases lt_trichotomy bs.1 b with hlt | heq | hgt
      · rw [flatMap_cons, hsmall bs mem_cons_self hlt, nil_append, ih,
          filter_cons_of_neg (by simpa using hlt.le)]
      · exact absurd heq (hgap bs mem_cons_self)
      · rw [flatMap_cons, ih, filter_cons_of_pos (by simpa using hgt), flatMap_cons]

theorem filter_of_gt {lower : Bool} {key : List UInt8} {xs : List Element}
    (h : ∀ e, e ∈ xs → e.key < key) : xs.filter (wanted lower key) = [] :=
  filter_eq_nil_iff.2 fun e he => by
    rw [wanted_of_gt (h e he)]
    exact Bool.false_ne_true

theorem filter_of_lt {lower : Bool} {key : List UInt8} {xs : List Element}
    (h : ∀ e, e ∈ xs → key < e.key) : xs.filter (wanted lower key) = xs :=
  filter_eq_self.2 fun e he => wanted_of_lt (h e he)

section Inner

variable {p path key : List UInt8} {hdr : Header} {lay : Layout} {child : Nat → Node}

/-- The children in front of the next byte of the key hold smaller keys, those behind it are what
the stack leads to. -/
theorem filter_children (hok : LayoutOK hdr.count lay (presentIn child))
    (hkids : ∀ b n, (b, n) ∈ children hdr.count lay child → WF (p ++ path ++ [b]) n) {b : UInt8}
    (hb : p ++ path ++ [b] <+: key) (lower : Bool) :
    (∀ bs, bs ∈ entries hdr.count lay (presentIn child) → bs.1 < b →
        (elems (child bs.2)).filter (wanted lower key) = []) ∧
      ((entries hdr.count lay (presentIn child)).filter fun bs => decide (b < bs.1)).flatMap
          (fun bs => (elems (child bs.2)).filter (wanted lower key)) =
        rest (.inner hdr lay child, (seekChild hdr.count lay b).2) := by
  have hside : ∀ bs, bs ∈ entries hdr.count lay (presentIn child) → bs.1 ≠ b →
      ∀ e, e ∈ elems (child bs.2) → Parts (p ++ path) e.key key bs.1 b := fun bs hbs hne e he =>
    ⟨(hkids bs.1 _ (mem_map.2 ⟨bs, hbs, rfl⟩)).prefix_key he, hb, hne⟩
  refine ⟨fun bs hbs hlt => filter_of_gt fun e he => (hside bs hbs (ne_of_lt hlt) e he).lt hlt, ?_⟩
  rw [rest, hok.seekChild_snd]
  refine flatMap_congr fun bs hbs => ?_
  obtain ⟨hbs, hlt⟩ := mem_filter.1 hbs
  rw [decide_eq_true_eq] at hlt
  exact filter_of_lt fun e he => (hside bs hbs (ne_of_gt hlt) e he).symm.lt hlt

/-- The key parts from the compressed path: all elements below are on one side. -/
theorem bound_parted {front : List UInt8} {x y : UInt8} (hstores : hdr.Stores path)
    (hok : LayoutOK hdr.count lay (presentIn child)) (hcount : 2 ≤ hdr.count)
    (hkids : ∀ b n, (b, n) ∈ children hdr.count lay child → WF (p ++ path ++ [b]) n)
    (hparts : Parts (p ++ front) (p ++ path) key x y) (behind : Nat → UInt8) (lower : Bool)
    (hmis : prefixMismatch hdr (minKey (.inner hdr lay child)) (c_str key behind) key.length
      p.length = front.length) {stack : List (Node × Nat)} (hsound : Sound stack) :
    ∃ result, Returns (fun fuel =>
        bound fuel (c_str key behind) key.length lower (.inner hdr lay child) p.length stack)
          result ∧
      Leads result ((elems (.inner hdr lay child)).filter (wanted lower key) ++
        remaining stack) := by
  have hwf : WF p (.inner hdr lay child) := .inner hstores hok hcount hkids
  have hleast := prefix_minKey hstores hok hcount hkids
  have hside : ∀ e, e ∈ elems (.inner hdr lay child) → Parts (p ++ front) e.key key x y := by
    intro e he
    obtain ⟨b, s, -, hb⟩ := exists_entry hkids he
    exact ⟨hparts.left.trans ((prefix_append _ [b]).trans hb), hparts.right, hparts.ne⟩
  have hx := byteAt_length hparts.left
  have hy := byteAt_length hparts.right
  have hle := hparts.right.length_le
  have hle' := hparts.left.length_le
  simp only [length_append, length_singleton] at hx hy hle hle'
  -- The byte is stored, or reloaded from the smallest key.
  have hbyte : (if front.length < maxPrefixLength then hdr.prefixBytes front.length
      else byteAt (minKey (.inner hdr lay child)) (p.length + front.length)) = x := by
    rw [byteAt_append] at hx
    split
    · rename_i hmax
      rw [hstores.byte_eq _ (by omega) hmax, hx]
    · rw [byteAt_of_initial hleast (by rw [length_append]; omega), byteAt_append, hx]
  have hcond : 0 < hdr.prefixLength ∧ front.length ≠ hdr.prefixLength := by
    rw [hstores.length_eq]
    omega
  have hy' : c_str key behind (p.length + front.length) = y := by
    rw [c_str_of_lt (by omega), hy]
  simp only [bound, hmis, hbyte, if_pos hcond, hy']
  by_cases hxy : x < y
  · simp only [hxy, if_true]
    rw [filter_of_gt fun e he => (hside e he).lt hxy]
    exact iteratorNext_spec hsound
  · have hyx : y < x := lt_of_le_of_ne (not_lt.1 hxy) hparts.ne.symm
    simp only [hxy, if_false]
    rw [filter_of_lt fun e he => (hside e he).symm.lt hyx]
    exact iteratorNext_spec (hsound.cons hwf 0)

end Inner

theorem bound_returns {p : List UInt8} {n : Node} (h : WF p n) {key : List UInt8}
    (hlength : key.length < 2 ^ 32) (behind : Nat → UInt8) (lower : Bool) :
    p <+: key → Comparable n key → ∀ {stack}, Sound stack →
      ∃ result, Returns (fun fuel =>
          bound fuel (c_str key behind) key.length lower n p.length stack) result ∧
        Leads result ((elems n).filter (wanted lower key) ++ remaining stack) := by
  induction h with
  | leaf hkey => exact fun hpath hcomp _ hsound => bound_leaf hkey hpath hcomp behind lower hsound
  | @inner p path hdr lay child hstores hok hcount hkids ih =>
      intro hprefix hcomp stack hsound
      have hwf : WF p (.inner hdr lay child) := .inner hstores hok hcount hkids
      have hleast := prefix_minKey hstores hok hcount hkids
      have hshort : ¬ key <+: p ++ path := by
        intro hpre
        obtain ⟨e, he, hekey, hne⟩ := exists_longer hstores hok hcount hkids
        have heq := (hcomp e he).2 (Or.inr (hpre.trans hekey))
        have hpre' : e.key <+: p ++ path := heq ▸ hpre
        exact hne (hpre'.eq_of_length_le hekey.length_le)
      rcases prefixMismatch_cases hstores hleast behind hprefix hlength hshort with
        ⟨hpath, hmis⟩ | ⟨front, x, y, hparts, hmis⟩
      · -- The compressed path is passed: the next byte of the key leads between the children.
        obtain ⟨b, hb, hbyte⟩ := exists_nextByte hpath hshort behind
        have hdepth : (p ++ path).length + 1 = (p ++ path ++ [b]).length := by
          simp only [length_append, length_singleton]
        obtain ⟨hsmall, hrest⟩ := filter_children hok hkids hb lower
        have hsound' := hsound.cons hwf (seekChild hdr.count lay b).2
        have hcond : ¬ (0 < path.length ∧ path.length ≠ path.length) := fun h => h.2 rfl
        rw [elems, filter_flatMap]
        simp only [bound, hmis, hstores.length_eq, if_neg hcond, ← length_append, hbyte, hdepth]
        have hseek := hok.seekChild_fst b
        generalize hpos : seekChild hdr.count lay b = seek at hseek hsound' hrest
        obtain ⟨slot, pos⟩ := seek
        simp only at hseek hsound' hrest
        by_cases hfound : ∃ s, (b, s) ∈ entries hdr.count lay (presentIn child)
        · obtain ⟨s, hs⟩ := hfound
          have hmem : (b, child s) ∈ children hdr.count lay child := mem_map.2 ⟨_, hs, rfl⟩
          obtain ⟨hfind, hpresent⟩ := hok.findChild_iff.1 hs
          rw [presentIn] at hpresent
          obtain ⟨result, hreturns, hleads⟩ := ih b _ hmem hb (fun e he => hcomp e (by
            rw [elems_inner]
            exact mem_flatMap.2 ⟨_, hmem, he⟩)) hsound'
          rw [hfind] at hseek
          subst hseek
          simp only [hpresent, if_true]
          refine ⟨result, hreturns, ?_⟩
          rw [flatMap_byte hok.entries_sorted hsmall hs, hrest, append_assoc]
          rwa [remaining_cons] at hleads
        · have hgap : ∀ bs, bs ∈ entries hdr.count lay (presentIn child) → bs.1 ≠ b :=
            fun bs hbs heq => hfound ⟨bs.2, heq ▸ hbs⟩
          rw [flatMap_gap hsmall hgap, hrest, ← remaining_cons]
          cases slot with
          | none => exact iteratorNext_spec hsound'
          | some s =>
              have habsent : ¬ (child s).present = true := fun hpresent =>
                hfound ⟨s, hok.findChild_iff.2 ⟨hseek.symm, hpresent⟩⟩
              simp only [if_neg habsent]
              exact iteratorNext_spec hsound'
      · exact bound_parted hstores hok hcount hkids hparts behind lower hmis hsound

end ART
end TLI
