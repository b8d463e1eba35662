import TLI.Competitors.ART.Canonical
import TLI.Competitors.ART.Map

/-!
# KeyReads — the positions at which a lookup reads the search key

`lookup` skips a compressed path of more than eight bytes without looking at the key, and then reads
the key behind the path.  A key that ends inside the path is read past its end.

Which keys that happens to can be told from the stored keys alone.  Inner nodes stand where two
stored keys part (`Forks`); compressed paths are the stretches between them.  A lookup overruns the
key exactly if it agrees with a fork behind its end at every position that is not skipped
(`Overruns`).
-/

namespace TLI
namespace ART

open Loop List Lexicographic

/-! ## The positions read -/

/-- The positions at which the loops of `prefixMismatch` read the key. -/
def prefixMismatchReads (hdr : Header) (least : List UInt8) (key : Nat → UInt8)
    (keyLength depth : Nat) : List Nat :=
  let compBytes := min (unsignedSub keyLength depth) hdr.prefixLength
  range' depth (min (prefixMismatch hdr least key keyLength depth + 1) compBytes)

/-- The positions that the `memcmp` of `leafMatches` is given. -/
def leafMatchesReads (e : Element) (keyLength depth : Nat) : List Nat :=
  if e.key.length = keyLength then range' depth (unsignedSub keyLength depth) else []

/-- The positions at which `lookup` reads the key. -/
def lookupReads (key : Nat → UInt8) (keyLength : Nat) : Node → Nat → Bool → List Nat
  | .null, _, _ => []
  | .leaf e, depth, skippedPrefix =>
      leafMatchesReads e keyLength (if skippedPrefix then 0 else depth)
  | .inner hdr lay child, depth, skippedPrefix =>
      let least := minKey (.inner hdr lay child)
      let compared :=
        if 0 < hdr.prefixLength ∧ hdr.prefixLength ≤ maxPrefixLength then
          prefixMismatchReads hdr least key keyLength depth
        else []
      if 0 < hdr.prefixLength ∧ hdr.prefixLength ≤ maxPrefixLength ∧
          prefixMismatch hdr least key keyLength depth ≠ hdr.prefixLength
      then compared
      else
        compared ++ (depth + hdr.prefixLength) ::
          match findChild hdr.count lay (key (depth + hdr.prefixLength)) with
          | some s =>
              lookupReads key keyLength (child s) (depth + hdr.prefixLength + 1)
                (skippedPrefix || decide (maxPrefixLength < hdr.prefixLength))
          | none => []

/-! ## Forks -/

/-- Two of the keys part behind `w`. -/
def Forks (xs : List Element) (w : List UInt8) : Prop :=
  ∃ e ∈ xs, ∃ e' ∈ xs, ∃ a b, Parts w e.key e'.key a b

theorem Forks.perm {xs ys : List Element} {w : List UInt8} (h : Forks xs w) (hperm : xs ~ ys) :
    Forks ys w := by
  obtain ⟨e, he, e', he', hparts⟩ := h
  exact ⟨e, hperm.subset he, e', hperm.subset he', hparts⟩

/-- Position `i` lies in a stretch of more than eight positions of `w`, none of them in front of
`base`, at which no two keys part. -/
def Skipped (xs : List Element) (base : Nat) (w : List UInt8) (i : Nat) : Prop :=
  ∃ lo hi, base ≤ lo ∧ lo ≤ i ∧ i < hi ∧ hi ≤ w.length ∧ maxPrefixLength < hi - lo ∧
    ∀ j, lo ≤ j → j < hi → ¬ Forks xs (w.take j)

/-- The key ends in front of a fork, and agrees with it (its terminating zero included) at every
position that is not skipped. -/
def Overruns (xs : List Element) (p key : List UInt8) : Prop :=
  ∃ w, p <+: w ∧ Forks xs w ∧ key.length < w.length ∧
    ∀ i, p.length ≤ i → i ≤ key.length → byteAt key i = byteAt w i ∨ Skipped xs p.length w i

theorem Overruns.perm {xs ys : List Element} {p key : List UInt8} (h : Overruns xs p key)
    (hperm : xs ~ ys) : Overruns ys p key := by
  obtain ⟨w, hpath, hforks, hlength, hagree⟩ := h
  refine ⟨w, hpath, hforks.perm hperm, hlength, fun i hi hle => (hagree i hi hle).imp_right ?_⟩
  rintro ⟨lo, hi, hbase, hlo, hhi, hle, hlong, hnone⟩
  exact ⟨lo, hi, hbase, hlo, hhi, hle, hlong, fun j hj hj' hfork =>
    hnone j hj hj' (hfork.perm hperm.symm)⟩

/-- In front of a fork, a skipped position lies between the base and the fork. -/
theorem Skipped.long_of_le {xs : List Element} {base : Nat} {w : List UInt8} {i t : Nat}
    (h : Skipped xs base w i) (hfork : Forks xs (w.take t)) (hi : i ≤ t) :
    i < t ∧ base + maxPrefixLength < t := by
  obtain ⟨lo, hi', hbase, hlo, hhi, -, hlong, hnone⟩ := h
  have hend : hi' ≤ t := by
    by_contra hlt
    exact hnone t (hlo.trans hi) (not_le.1 hlt) hfork
  omega

/-- Behind a fork, the stretch begins behind it as well. -/
theorem Skipped.behind {xs : List Element} {base : Nat} {w : List UInt8} {i t : Nat}
    (h : Skipped xs base w i) (hfork : Forks xs (w.take t)) (hi : t < i) :
    Skipped xs (t + 1) w i := by
  obtain ⟨lo, hi', hbase, hlo, hhi, hle, hlong, hnone⟩ := h
  have hstart : t + 1 ≤ lo := by
    by_contra hlt
    exact hnone t (by omega) (hi.trans hhi) hfork
  exact ⟨lo, hi', hstart, hlo, hhi, hle, hlong, hnone⟩

theorem Skipped.mono {xs ys : List Element} {base base' : Nat} {w : List UInt8} {i : Nat}
    (h : Skipped xs base w i) (hbase : base' ≤ base)
    (hforks : ∀ j, base ≤ j → Forks ys (w.take j) → Forks xs (w.take j)) :
    Skipped ys base' w i := by
  obtain ⟨lo, hi, hlow, hlo, hhi, hle, hlong, hnone⟩ := h
  exact ⟨lo, hi, hbase.trans hlow, hlo, hhi, hle, hlong, fun j hj hj' hfork =>
    hnone j hj hj' (hforks j (hlow.trans hj) hfork)⟩

section Inner

variable {p path : List UInt8} {hdr : Header} {lay : Layout} {child : Nat → Node}

/-- Keys part at a node or below one of its children. -/
theorem forks_inner_iff (hok : LayoutOK hdr.count lay (presentIn child)) (hcount : 2 ≤ hdr.count)
    (hkids : ∀ b n, (b, n) ∈ children hdr.count lay child → WF (p ++ path ++ [b]) n)
    {w : List UInt8} :
    Forks (elems (.inner hdr lay child)) w ↔
      w = p ++ path ∨ ∃ b m, (b, m) ∈ children hdr.count lay child ∧
        p ++ path ++ [b] <+: w ∧ Forks (elems m) w := by
  constructor
  · rintro ⟨e, he, e', he', x, y, hparts⟩
    rw [elems_inner, mem_flatMap] at he he'
    obtain ⟨⟨b, m⟩, hmem, he⟩ := he
    obtain ⟨⟨b', m'⟩, hmem', he'⟩ := he'
    have hkey : p ++ path ++ [b] <+: e.key := (hkids b m hmem).prefix_key he
    have hkey' : p ++ path ++ [b'] <+: e'.key := (hkids b' m' hmem').prefix_key he'
    have hw : w <+: e.key := (prefix_append w [x]).trans hparts.left
    have hw' : w <+: e'.key := (prefix_append w [y]).trans hparts.right
    have hpath : p ++ path <+: e.key := (prefix_append _ [b]).trans hkey
    have hpath' : p ++ path <+: e'.key := (prefix_append _ [b']).trans hkey'
    -- All keys agree on the compressed path, so they part at its end or behind one child's byte.
    rcases Nat.lt_trichotomy w.length (p ++ path).length with hlt | heq | hgt
    · have hsame := (byteAt_of_initial hpath hlt).trans (byteAt_of_initial hpath' hlt).symm
      rw [byteAt_length hparts.left, byteAt_length hparts.right] at hsame
      exact absurd hsame hparts.ne
    · exact Or.inl ((prefix_of_prefix_length_le hw hpath heq.le).eq_of_length heq)
    · have hlength : ∀ c : UInt8, (p ++ path ++ [c]).length ≤ w.length := by
        intro c
        rw [length_append, length_singleton]
        exact hgt
      have hin := prefix_of_prefix_length_le hkey hw (hlength b)
      have hin' := prefix_of_prefix_length_le hkey' hw' (hlength b')
      have hbyte : b = b' := (byteAt_length hin).symm.trans (byteAt_length hin')
      subst hbyte
      cases hok.child_unique hmem hmem'
      exact Or.inr ⟨b, m, hmem, hin, e, he, e', he', x, y, hparts⟩
  · rintro (rfl | ⟨b, m, hmem, -, e, he, e', he', hparts⟩)
    -- Two children have different bytes.
    · obtain ⟨e, he, e', he', hne⟩ := exists_bytes_ne hok hcount hkids
      have hnext : ∀ f ∈ elems (.inner hdr lay child),
          p ++ path ++ [byteAt f.key (p ++ path).length] <+: f.key := by
        intro f hf
        rw [elems_inner, mem_flatMap] at hf
        obtain ⟨⟨b, m⟩, hmem, hf⟩ := hf
        have hkey := (hkids b m hmem).prefix_key hf
        rwa [byteAt_length hkey]
      exact ⟨e, he, e', he', _, _, hnext e he, hnext e' he', hne⟩
    · have hin : ∀ f ∈ elems m, f ∈ elems (.inner hdr lay child) := by
        intro f hf
        rw [elems_inner]
        exact mem_flatMap.2 ⟨_, hmem, hf⟩
      exact ⟨e, hin e he, e', hin e' he', hparts⟩

theorem forks_take (hok : LayoutOK hdr.count lay (presentIn child)) (hcount : 2 ≤ hdr.count)
    (hkids : ∀ b n, (b, n) ∈ children hdr.count lay child → WF (p ++ path ++ [b]) n)
    {w : List UInt8} (hpass : p ++ path <+: w) :
    Forks (elems (.inner hdr lay child)) (w.take (p ++ path).length) := by
  rw [forks_inner_iff hok hcount hkids, ← prefix_iff_eq_take.1 hpass]
  exact Or.inl rfl

/-- Along the compressed path no keys part. -/
theorem not_forks_path (hok : LayoutOK hdr.count lay (presentIn child)) (hcount : 2 ≤ hdr.count)
    (hkids : ∀ b n, (b, n) ∈ children hdr.count lay child → WF (p ++ path ++ [b]) n) {w : List UInt8}
    (hlength : w.length < (p ++ path).length) : ¬ Forks (elems (.inner hdr lay child)) w := by
  rw [forks_inner_iff hok hcount hkids]
  rintro (rfl | ⟨b, m, -, hin, -⟩)
  · exact lt_irrefl _ hlength
  · have hle := hin.length_le
    rw [length_append] at hle
    omega

/-- Behind the byte of a child, keys part as they do below the child. -/
theorem forks_child_iff (hok : LayoutOK hdr.count lay (presentIn child)) (hcount : 2 ≤ hdr.count)
    (hkids : ∀ b n, (b, n) ∈ children hdr.count lay child → WF (p ++ path ++ [b]) n) {b : UInt8}
    {m : Node} (hmem : (b, m) ∈ children hdr.count lay child) {w : List UInt8}
    (hin : p ++ path ++ [b] <+: w) :
    Forks (elems (.inner hdr lay child)) w ↔ Forks (elems m) w := by
  rw [forks_inner_iff hok hcount hkids]
  constructor
  · rintro (rfl | ⟨b', m', hmem', hin', hforks⟩)
    · have hle := hin.length_le
      rw [length_append, length_singleton] at hle
      omega
    · have hbyte : b' = b := (byteAt_length hin').symm.trans (byteAt_length hin)
      subst hbyte
      rwa [hok.child_unique hmem hmem']
  · exact fun hforks => Or.inr ⟨b, m, hmem, hin, hforks⟩

/-- Whatever overruns the key passes the node, and if the key does not end in front of the node, it
goes on below the child for the key's next byte. -/
theorem Overruns.cases {key : List UInt8} (hok : LayoutOK hdr.count lay (presentIn child))
    (hcount : 2 ≤ hdr.count)
    (hkids : ∀ b n, (b, n) ∈ children hdr.count lay child → WF (p ++ path ++ [b]) n)
    {w : List UInt8} (hforks : Forks (elems (.inner hdr lay child)) w)
    (hlength : key.length < w.length)
    (hagree : ∀ i, p.length ≤ i → i ≤ key.length →
      byteAt key i = byteAt w i ∨ Skipped (elems (.inner hdr lay child)) p.length w i)
    (hle : (p ++ path).length ≤ key.length) :
    ∃ m, (byteAt key (p ++ path).length, m) ∈ children hdr.count lay child ∧
      p ++ path ++ [byteAt key (p ++ path).length] <+: w ∧ Forks (elems m) w := by
  rcases (forks_inner_iff hok hcount hkids).1 hforks with rfl | ⟨b, m, hmem, hin, hbelow⟩
  · exact absurd hlength (not_lt.2 hle)
  · have hnode := forks_take hok hcount hkids ((prefix_append _ [b]).trans hin)
    have hbyte : byteAt key (p ++ path).length = b := by
      rcases hagree (p ++ path).length (by rw [length_append]; omega) hle with heq | hskip
      · exact heq.trans (byteAt_length hin)
      · exact absurd (hskip.long_of_le hnode le_rfl).1 (lt_irrefl _)
    subst hbyte
    exact ⟨m, hmem, hin, hbelow⟩

/-- A key that parts from a compressed path that is stored in full overruns nothing. -/
theorem not_overruns_of_mismatch {key : List UInt8}
    (hok : LayoutOK hdr.count lay (presentIn child)) (hcount : 2 ≤ hdr.count)
    (hkids : ∀ b n, (b, n) ∈ children hdr.count lay child → WF (p ++ path ++ [b]) n)
    (hstored : path.length ≤ maxPrefixLength) {i : Nat} (hi : p.length ≤ i)
    (hin : i < (p ++ path).length) (hle : i ≤ key.length)
    (hne : byteAt key i ≠ byteAt (p ++ path) i) :
    ¬ Overruns (elems (.inner hdr lay child)) p key := by
  rintro ⟨w, hpath, hforks, hlength, hagree⟩
  have hpass : p ++ path <+: w := by
    rcases (forks_inner_iff hok hcount hkids).1 hforks with rfl | ⟨b, m, -, hbelow, -⟩
    · exact prefix_rfl
    · exact (prefix_append _ [b]).trans hbelow
  have hnode := forks_take hok hcount hkids hpass
  rcases hagree i hi hle with heq | hskip
  · exact hne (heq.trans (byteAt_of_initial hpass hin))
  · have hlong := (hskip.long_of_le hnode hin.le).2
    rw [length_append] at hlong
    omega

/-- A key that ends inside a compressed path that is skipped is overrun. -/
theorem overruns_of_short {key : List UInt8} (hok : LayoutOK hdr.count lay (presentIn child))
    (hcount : 2 ≤ hdr.count)
    (hkids : ∀ b n, (b, n) ∈ children hdr.count lay child → WF (p ++ path ++ [b]) n)
    (hlong : maxPrefixLength < path.length) (hshort : key.length < (p ++ path).length) :
    Overruns (elems (.inner hdr lay child)) p key := by
  refine ⟨p ++ path, prefix_append p path, (forks_inner_iff hok hcount hkids).2 (Or.inl rfl), hshort,
    fun i hi hle => Or.inr ⟨p.length, (p ++ path).length, le_rfl, hi, hle.trans_lt hshort, le_rfl,
      ?_, fun j _ hj => not_forks_path hok hcount hkids ?_⟩⟩
  · rw [length_append]
    omega
  · rw [length_take]
    omega

/-- A key that passes the compressed path is overrun at the node if it is below the child that it
leads to. -/
theorem overruns_child_iff {key : List UInt8} (hok : LayoutOK hdr.count lay (presentIn child))
    (hcount : 2 ≤ hdr.count)
    (hkids : ∀ b n, (b, n) ∈ children hdr.count lay child → WF (p ++ path ++ [b]) n)
    (hle : (p ++ path).length ≤ key.length)
    (hpass : maxPrefixLength < path.length ∨
      ∀ i, p.length ≤ i → i < (p ++ path).length → byteAt key i = byteAt (p ++ path) i)
    {m : Node} (hmem : (byteAt key (p ++ path).length, m) ∈ children hdr.count lay child) :
    Overruns (elems (.inner hdr lay child)) p key ↔
      Overruns (elems m) (p ++ path ++ [byteAt key (p ++ path).length]) key := by
  generalize hb : byteAt key (p ++ path).length = b at hmem
  have hdepth : (p ++ path ++ [b]).length = (p ++ path).length + 1 := by
    rw [length_append, length_singleton]
  have hbelow : ∀ {w : List UInt8}, p ++ path ++ [b] <+: w → ∀ j, (p ++ path ++ [b]).length ≤ j →
      (Forks (elems (.inner hdr lay child)) (w.take j) ↔ Forks (elems m) (w.take j)) :=
    fun hin j hj => forks_child_iff hok hcount hkids hmem (prefix_take_iff.2 ⟨hin, hj⟩)
  constructor
  · rintro ⟨w, hpath, hforks, hlength, hagree⟩
    obtain ⟨m', hmem', hin, hforks'⟩ := Overruns.cases hok hcount hkids hforks hlength hagree hle
    rw [hb] at hmem' hin
    cases hok.child_unique hmem hmem'
    refine ⟨w, hin, hforks', hlength, fun i hi hi' => (hagree i ?_ hi').imp_right fun hskip => ?_⟩
    · rw [length_append, length_append] at hi
      omega
    · have hskip' := hskip.behind
        (forks_take hok hcount hkids ((prefix_append _ [b]).trans hin)) (by omega)
      rw [← hdepth] at hskip'
      exact hskip'.mono le_rfl fun j hj => (hbelow hin j hj).2
  · rintro ⟨w, hin, hforks, hlength, hagree⟩
    refine ⟨w, (prefix_append p (path ++ [b])).trans (by rwa [← append_assoc]),
      (forks_child_iff hok hcount hkids hmem hin).2 hforks, hlength, fun i hi hi' => ?_⟩
    -- The byte is on the compressed path, it is the child's, or it lies behind it.
    rcases Nat.lt_trichotomy i (p ++ path).length with hlt | rfl | hgt
    · rcases hpass with hlong | hpass
      · refine Or.inr ⟨p.length, (p ++ path).length, le_rfl, hi, hlt, hle.trans hlength.le, ?_,
          fun j _ hj => not_forks_path hok hcount hkids ?_⟩
        · rw [length_append]
          omega
        · rw [length_take]
          omega
      · exact Or.inl ((hpass i hi hlt).trans
          (byteAt_of_initial ((prefix_append _ [b]).trans hin) hlt).symm)
    · exact Or.inl (hb.trans (byteAt_length hin).symm)
    · refine (hagree i (by omega) hi').imp_right fun hskip => hskip.mono ?_ fun j hj =>
        (hbelow hin j hj).1
      rw [length_append, length_append]
      omega

end Inner

/-! ## The reads against the end of the key -/

/-- The encoding of a string without NUL bytes. -/
def Terminated (key : List UInt8) : Prop :=
  ∃ s, key = s ++ [0] ∧ 0 ∉ s

/-- `key.c_str()`, whose byte behind the key is the terminator of the string. -/
def terminated (key : List UInt8) (behind : Nat → UInt8) : Nat → UInt8 :=
  c_str key (Function.update behind key.length 0)

theorem terminated_eq {key : List UInt8} {behind : Nat → UInt8} {i : Nat} (hi : i ≤ key.length) :
    terminated key behind i = byteAt key i := by
  rcases Nat.lt_or_eq_of_le hi with hlt | rfl
  · exact c_str_of_lt hlt
  · rw [terminated, c_str, if_neg (lt_irrefl _), Function.update_self, byteAt,
      getD_eq_default _ _ le_rfl]

namespace Terminated

variable {key : List UInt8}

theorem length_pos (h : Terminated key) : 0 < key.length := by
  obtain ⟨s, rfl, -⟩ := h
  simp

/-- The last byte of an encoding is zero, and so is what `byteAt` returns behind it. -/
theorem byteAt_eq_zero (h : Terminated key) {i : Nat} (hi : key.length ≤ i + 1) :
    byteAt key i = 0 := by
  obtain ⟨s, rfl, -⟩ := h
  rw [length_append, length_singleton] at hi
  rcases Nat.eq_or_lt_of_le (Nat.le_of_succ_le_succ hi) with rfl | hlt
  · exact byteAt_length prefix_rfl
  · rw [byteAt, getD_eq_default]
    rw [length_append, length_singleton]
    exact hlt

/-- In front of the last byte there is no zero. -/
theorem byteAt_ne_zero (h : Terminated key) {w : List UInt8} {b : UInt8} (hw : w ++ [b] <+: key)
    {i : Nat} (hi : i < w.length) : byteAt w i ≠ 0 := by
  obtain ⟨s, rfl, hs⟩ := h
  have hlong := hw.length_le
  rw [length_append, length_append, length_singleton, length_singleton] at hlong
  have hin : w <+: s := prefix_of_prefix_length_le ((prefix_append w [b]).trans hw)
    (prefix_append s [0]) (by omega)
  rw [byteAt, getD_eq_getElem _ _ hi]
  exact fun hzero => hs (hin.subset (hzero ▸ getElem_mem hi))

end Terminated

/-- Behind a zero byte there is one key only. -/
theorem WF.leaf_of_zero {p : List UInt8} {n : Node} (h : WF (p ++ [0]) n)
    (hstored : ∀ e ∈ elems n, Terminated e.key) : ∃ e, n = .leaf e := by
  cases h with
  | leaf hkey => exact ⟨_, rfl⟩
  | @inner _ path hdr lay child hstores hok hcount hkids =>
      obtain ⟨e, he, e', he', hne⟩ := exists_bytes_ne hok hcount hkids
      have hzero : ∀ f ∈ elems (.inner hdr lay child), ∃ b, p ++ [0] ++ path ++ [b] <+: f.key := by
        intro f hf
        rw [elems_inner, mem_flatMap] at hf
        obtain ⟨⟨b, m⟩, hmem, hf⟩ := hf
        exact ⟨b, (hkids b m hmem).prefix_key hf⟩
      obtain ⟨b, hb⟩ := hzero e he
      have hlast : byteAt (p ++ [0] ++ path) p.length = 0 :=
        byteAt_length (prefix_append (p ++ [0]) path)
      exact absurd hlast ((hstored e he).byteAt_ne_zero hb
        (by simp only [length_append]; simp; omega))

theorem leafMatchesReads_lt {e : Element} {keyLength depth i : Nat} (hlength : keyLength < 2 ^ 32)
    (hdepth : depth ≤ e.key.length) (hi : i ∈ leafMatchesReads e keyLength depth) :
    e.key.length = keyLength ∧ i < keyLength := by
  rw [leafMatchesReads] at hi
  split at hi
  · rename_i heq
    rw [unsignedSub_eq (heq ▸ hdepth) hlength, mem_range'_1] at hi
    exact ⟨heq, by omega⟩
  · exact absurd hi not_mem_nil

theorem prefixMismatchReads_lt {hdr : Header} {least : List UInt8} {key : Nat → UInt8}
    {keyLength depth i : Nat} (hi : i ∈ prefixMismatchReads hdr least key keyLength depth) :
    i < depth + unsignedSub keyLength depth ∧ i < depth + hdr.prefixLength := by
  rw [prefixMismatchReads, mem_range'_1] at hi
  omega

/-- Wherever the key ends, it is read in front of the end of a stored key. -/
theorem lookupReads_lt {p : List UInt8} {n : Node} (h : WF p n) {key : Nat → UInt8}
    {keyLength : Nat} (hlength : keyLength < 2 ^ 32) :
    ∀ skippedPrefix, ∀ i ∈ lookupReads key keyLength n p.length skippedPrefix,
      ∃ e ∈ elems n, i < e.key.length := by
  induction h with
  | @leaf p e hkey =>
      intro skippedPrefix i hi
      rw [lookupReads] at hi
      refine ⟨e, mem_singleton_self e, ?_⟩
      split at hi
      · obtain ⟨heq, hlt⟩ := leafMatchesReads_lt hlength (Nat.zero_le _) hi
        rwa [heq]
      · obtain ⟨heq, hlt⟩ := leafMatchesReads_lt hlength hkey.length_le hi
        rwa [heq]
  | @inner p path hdr lay child hstores hok hcount hkids ih =>
      intro skippedPrefix i hi
      -- What is read up to the end of the compressed path is part of every key below.
      have hpath : i ≤ (p ++ path).length → ∃ e ∈ elems (.inner hdr lay child),
        i < e.key.length := by
        intro hle
        obtain ⟨e, he, -⟩ := exists_bytes_ne hok hcount hkids
        obtain ⟨b, s, -, hb⟩ := exists_entry hkids he
        have hlong := hb.length_le
        rw [length_append, length_singleton] at hlong
        exact ⟨e, he, hle.trans_lt hlong⟩
      have hcompared : i ∈ (if 0 < hdr.prefixLength ∧ hdr.prefixLength ≤ maxPrefixLength then
          prefixMismatchReads hdr (minKey (.inner hdr lay child)) key keyLength p.length else []) →
            i ≤ (p ++ path).length := by
        intro hi
        split at hi
        · have hlt := (prefixMismatchReads_lt hi).2
          rw [hstores.length_eq] at hlt
          rw [length_append]
          exact hlt.le
        · exact absurd hi not_mem_nil
      rw [lookupReads] at hi
      split at hi
      · exact hpath (hcompared hi)
      · rcases mem_append.1 hi with hi | hi
        · exact hpath (hcompared hi)
        · rcases mem_cons.1 hi with rfl | hi
          · exact hpath (by rw [hstores.length_eq, length_append])
          · split at hi
            · rename_i s hfind
              rcases hok.find_cases hfind with hmem | hnull
              · have hdepth : p.length + hdr.prefixLength + 1 =
                    (p ++ path ++ [key (p.length + hdr.prefixLength)]).length := by
                  rw [length_append, length_append, length_singleton, hstores.length_eq]
                rw [hdepth] at hi
                obtain ⟨e, he, hlt⟩ := ih _ _ hmem _ i hi
                refine ⟨e, ?_, hlt⟩
                rw [elems_inner]
                exact mem_flatMap.2 ⟨_, hmem, he⟩
              · rw [hnull, lookupReads] at hi
                exact absurd hi not_mem_nil
            · exact absurd hi not_mem_nil

/-- The search goes on below the child for the key's next byte. -/
theorem child_reads_iff {p path : List UInt8} {hdr : Header} {lay : Layout} {child : Nat → Node}
    (hok : LayoutOK hdr.count lay (presentIn child)) (hcount : 2 ≤ hdr.count)
    (hkids : ∀ b n, (b, n) ∈ children hdr.count lay child → WF (p ++ path ++ [b]) n)
    {key : List UInt8} (behind : Nat → UInt8) (hle : (p ++ path).length ≤ key.length)
    (hpass : maxPrefixLength < path.length ∨
      ∀ i, p.length ≤ i → i < (p ++ path).length → byteAt key i = byteAt (p ++ path) i)
    {compared : List Nat} (hcompared : ∀ i ∈ compared, i ≤ key.length) {skippedPrefix : Bool}
    (hchild : ∀ m, (byteAt key (p ++ path).length, m) ∈ children hdr.count lay child →
      ((∀ i ∈ lookupReads (terminated key behind) key.length m ((p ++ path).length + 1) skippedPrefix,
          i ≤ key.length) ↔
        ¬ Overruns (elems m) (p ++ path ++ [byteAt key (p ++ path).length]) key)) :
    (∀ i ∈ compared ++ (p ++ path).length ::
        (match findChild hdr.count lay (terminated key behind (p ++ path).length) with
        | some s =>
            lookupReads (terminated key behind) key.length (child s) ((p ++ path).length + 1)
              skippedPrefix
        | none => []), i ≤ key.length) ↔
      ¬ Overruns (elems (.inner hdr lay child)) p key := by
  rw [forall_mem_append, forall_mem_cons, and_iff_right hcompared, and_iff_right hle,
    terminated_eq hle]
  -- Without a child for the byte the search ends, and nothing is overrun.
  have habsent : (∀ m, (byteAt key (p ++ path).length, m) ∉ children hdr.count lay child) →
      ¬ Overruns (elems (.inner hdr lay child)) p key := by
    rintro hnone ⟨w, -, hforks, hlength, hagree⟩
    obtain ⟨m, hmem, -⟩ := Overruns.cases hok hcount hkids hforks hlength hagree hle
    exact hnone m hmem
  have hfound : ∀ m, (byteAt key (p ++ path).length, m) ∈ children hdr.count lay child →
      ∃ s, findChild hdr.count lay (byteAt key (p ++ path).length) = some s ∧ child s = m ∧
        m.present = true := by
    intro m hmem
    obtain ⟨⟨b, s⟩, hs, heq⟩ := mem_map.1 hmem
    cases heq
    obtain ⟨hfind, hpresent⟩ := hok.findChild_iff.1 hs
    exact ⟨s, hfind, rfl, hpresent⟩
  split
  · rename_i s hfind
    rcases hok.find_cases hfind with hmem | hnull
    · rw [hchild _ hmem, overruns_child_iff hok hcount hkids hle hpass hmem]
    · rw [hnull, lookupReads]
      refine iff_of_true (fun i hi => absurd hi not_mem_nil) (habsent fun m hmem => ?_)
      obtain ⟨s', hfind', rfl, hpresent⟩ := hfound m hmem
      rw [hfind, Option.some_inj] at hfind'
      rw [← hfind', hnull] at hpresent
      cases hpresent
  · rename_i hfind
    refine iff_of_true (fun i hi => absurd hi not_mem_nil) (habsent fun m hmem => ?_)
    obtain ⟨s', hfind', -⟩ := hfound m hmem
    rw [hfind] at hfind'
    cases hfind'

/-- The comparison goes through if the path lies within the key. -/
theorem prefixMismatch_eq_length_iff {p path least key : List UInt8} {hdr : Header}
    (hstores : hdr.Stores path) (hleast : p ++ path <+: least) (hdepth : p.length ≤ key.length)
    (hlength : key.length < 2 ^ 32) (behind : Nat → UInt8) :
    prefixMismatch hdr least (terminated key behind) key.length p.length = path.length ↔
      (p ++ path).length ≤ key.length ∧
        ∀ i, p.length ≤ i → i < (p ++ path).length → byteAt key i = byteAt (p ++ path) i := by
  rw [prefixMismatch_eq hstores hleast, unsignedSub_eq hdepth hlength, length_append]
  constructor
  · intro hend
    have hle := (scan_le (fun pos => decide (terminated key behind (p.length + pos) ≠ byteAt path pos))
      (min (key.length - p.length) path.length) 0).2
    have hinside : p.length + path.length ≤ key.length := by omega
    refine ⟨hinside, fun i hi hlt => ?_⟩
    obtain ⟨pos, rfl⟩ := Nat.exists_eq_add_of_le hi
    have hbefore := scan_before _ _ 0 pos (Nat.zero_le _)
      (hend.symm ▸ Nat.lt_of_add_lt_add_left hlt)
    rw [terminated_eq (by omega)] at hbefore
    rw [byteAt_append]
    simpa using hbefore
  · rintro ⟨hinside, hagree⟩
    rw [min_eq_right (by omega), scan_eq_end, Nat.zero_add]
    intro j _ hj
    rw [terminated_eq (by omega), hagree _ (Nat.le_add_right _ _) (by omega), byteAt_append]
    simp

/-- A key that agrees with the compressed path up to its own end is longer than the path: its last
byte is zero. -/
theorem length_lt_of_agree {p path : List UInt8} {hdr : Header} {lay : Layout} {child : Nat → Node}
    (hok : LayoutOK hdr.count lay (presentIn child)) (hcount : 2 ≤ hdr.count)
    (hkids : ∀ b n, (b, n) ∈ children hdr.count lay child → WF (p ++ path ++ [b]) n)
    (hstored : ∀ e ∈ elems (.inner hdr lay child), Terminated e.key) {key : List UInt8}
    (hkey : Terminated key) (hshallow : p.length < key.length)
    (hagree : ∀ i, p.length ≤ i → i < (p ++ path).length → i ≤ key.length →
      byteAt key i = byteAt (p ++ path) i) : (p ++ path).length < key.length := by
  by_contra hge
  obtain ⟨e, he, -⟩ := exists_bytes_ne hok hcount hkids
  have hnext : ∃ b, p ++ path ++ [b] <+: e.key := by
    rw [elems_inner, mem_flatMap] at he
    obtain ⟨⟨b, m⟩, hmem, he⟩ := he
    exact ⟨b, (hkids b m hmem).prefix_key he⟩
  obtain ⟨b, hb⟩ := hnext
  have hlast : key.length - 1 < (p ++ path).length := by omega
  have hzero := hagree (key.length - 1) (by omega) hlast (by omega)
  rw [hkey.byteAt_eq_zero (by omega)] at hzero
  exact (hstored e he).byteAt_ne_zero hb hlast hzero.symm

/-- A lookup stays inside a key of fewer than `2^32` bytes exactly if it does not overrun it. -/
theorem lookupReads_iff {p : List UInt8} {n : Node} (h : WF p n) {key : List UInt8}
    (hkey : Terminated key) (hlength : key.length < 2 ^ 32) (behind : Nat → UInt8) :
    (∀ e ∈ elems n, Terminated e.key) → ∀ skippedPrefix,
      (p.length < key.length ∨ ∃ e, n = .leaf e) →
        ((∀ i ∈ lookupReads (terminated key behind) key.length n p.length skippedPrefix,
            i ≤ key.length) ↔ ¬ Overruns (elems n) p key) := by
  induction h with
  | @leaf p e hpath =>
      intro _ skippedPrefix _
      refine iff_of_true (fun i hi => ?_) ?_
      · rw [lookupReads] at hi
        split at hi
        · exact (leafMatchesReads_lt hlength (Nat.zero_le _) hi).2.le
        · exact (leafMatchesReads_lt hlength hpath.length_le hi).2.le
      · rintro ⟨w, -, ⟨f, hf, f', hf', x, y, hparts⟩, -⟩
        rw [mem_singleton.1 hf, mem_singleton.1 hf'] at hparts
        exact hparts.words_ne rfl
  | @inner p path hdr lay child hstores hok hcount hkids ih =>
      intro hstored skippedPrefix hdepth
      have hshallow : p.length < key.length := by
        rcases hdepth with hlt | ⟨e, heq⟩
        · exact hlt
        · cases heq
      have hleast := prefix_minKey hstores hok hcount hkids
      have hchild : ∀ skippedPrefix m,
          (byteAt key (p ++ path).length, m) ∈ children hdr.count lay child →
            ((∀ i ∈ lookupReads (terminated key behind) key.length m ((p ++ path).length + 1)
                skippedPrefix, i ≤ key.length) ↔
              ¬ Overruns (elems m) (p ++ path ++ [byteAt key (p ++ path).length]) key) := by
        intro skippedPrefix m hmem
        have hlen : (p ++ path).length + 1 =
            (p ++ path ++ [byteAt key (p ++ path).length]).length := by
          rw [length_append, length_append, length_append, length_singleton]
        have hbelow : ∀ e ∈ elems m, Terminated e.key := by
          intro e he
          refine hstored e ?_
          rw [elems_inner]
          exact mem_flatMap.2 ⟨_, hmem, he⟩
        rw [hlen]
        refine ih _ m hmem hbelow skippedPrefix ?_
        by_cases hend : (p ++ path).length + 1 < key.length
        · exact Or.inl (hlen ▸ hend)
        · have hwf := hkids _ m hmem
          rw [hkey.byteAt_eq_zero (not_lt.1 hend)] at hwf
          exact Or.inr (hwf.leaf_of_zero hbelow)
      have hsum : p.length + path.length = (p ++ path).length := length_append.symm
      rw [lookupReads, hstores.length_eq, hsum]
      by_cases hlong : maxPrefixLength < path.length
      · -- The path is skipped.
        rw [if_neg fun h => absurd h.2.1 (not_le.2 hlong)]
        by_cases hshort : key.length < (p ++ path).length
        · refine iff_of_false (fun hall => ?_)
            (not_not.2 (overruns_of_short hok hcount hkids hlong hshort))
          exact absurd (hall _ (mem_append_right _ mem_cons_self)) (not_le.2 hshort)
        · refine child_reads_iff hok hcount hkids behind (not_lt.1 hshort) (Or.inl hlong) ?_
            (hchild _)
          intro i hi
          rw [if_neg fun h => absurd h.2 (not_le.2 hlong)] at hi
          exact absurd hi not_mem_nil
      · -- The path is compared.
        have hreads : ∀ i ∈ prefixMismatchReads hdr (minKey (.inner hdr lay child))
            (terminated key behind) key.length p.length, i ≤ key.length := by
          intro i hi
          have hlt := (prefixMismatchReads_lt hi).1
          rw [unsignedSub_eq hshallow.le hlength] at hlt
          omega
        have hcompared : ∀ i ∈ (if 0 < path.length ∧ path.length ≤ maxPrefixLength then
            prefixMismatchReads hdr (minKey (.inner hdr lay child)) (terminated key behind)
              key.length
              p.length else []), i ≤ key.length := by
          split
          · exact hreads
          · exact fun i hi => absurd hi not_mem_nil
        have hmismatch := prefixMismatch_eq_length_iff hstores hleast hshallow.le hlength behind
        by_cases hagree : ∀ i, p.length ≤ i → i < (p ++ path).length → i ≤ key.length →
            byteAt key i = byteAt (p ++ path) i
        · have hinside := length_lt_of_agree hok hcount hkids hstored hkey hshallow hagree
          have hpass : ∀ i, p.length ≤ i → i < (p ++ path).length →
              byteAt key i = byteAt (p ++ path) i :=
            fun i hi hlt => hagree i hi hlt (hlt.trans hinside).le
          rw [if_neg fun h => h.2.2 (hmismatch.2 ⟨hinside.le, hpass⟩)]
          exact child_reads_iff hok hcount hkids behind hinside.le (Or.inr hpass) hcompared (hchild _)
        · -- The key parts from the path, and the search ends here.
          simp only [not_forall] at hagree
          obtain ⟨i, hi, hin, hle, hne⟩ := hagree
          rw [if_pos ⟨by omega, not_lt.1 hlong, fun heq => hne ((hmismatch.1 heq).2 i hi hin)⟩]
          exact iff_of_true hcompared
            (not_overruns_of_mismatch hok hcount hkids (not_lt.1 hlong) hi hin hle hne)

/-! ## Runs -/

theorem terminated_convert2String (k : NulFree) : Terminated (convert2String k) :=
  ⟨k.1, convert2String_nulFree k, k.2⟩

/-- After `Build` and the calls of `Insert`, the lookup of a string reads nothing behind the
terminator of its encoding. -/
def StaysInKey (load : Load NulFree) (k : NulFree) : Prop :=
  ∃ tree, Returns load.run tree ∧ ∀ behind,
    ∀ i ∈ lookupReads (terminated (convert2String k) behind) (keyLength (convert2String k)) tree 0
        false, i ≤ (convert2String k).length

theorem lookupReads_iff_of_holds {tree : Node} {stored : List (KeyValue NulFree)}
    (h : Holds tree stored) (hfits : ∀ kv, kv ∈ stored → Fits kv.key) (k : NulFree)
    (behind : Nat → UInt8) :
    (∀ i ∈ lookupReads (terminated (convert2String k) behind) (keyLength (convert2String k)) tree 0
        false, i ≤ (convert2String k).length) ↔
      ¬ Overruns (stored.map element) [] (convert2String k) := by
  rcases h with ⟨rfl, rfl⟩ | ⟨hwf, hperm⟩
  · refine iff_of_true (fun i hi => absurd hi not_mem_nil) ?_
    rintro ⟨w, -, ⟨e, he, -⟩, -⟩
    exact not_mem_nil he
  · have hstored : ∀ e ∈ elems tree, ∃ kv ∈ stored, element kv = e := fun e he =>
      mem_map.1 (hperm.mem_iff.1 he)
    rcases Nat.lt_or_ge (convert2String k).length (2 ^ 32) with hlt | hge
    · rw [keyLength, Nat.mod_eq_of_lt hlt]
      have hterminated : ∀ e ∈ elems tree, Terminated e.key := by
        intro e he
        obtain ⟨kv, -, rfl⟩ := hstored e he
        exact terminated_convert2String kv.key
      have hreads := lookupReads_iff hwf (terminated_convert2String k) hlt behind hterminated false
        (Or.inl (terminated_convert2String k).length_pos)
      rw [length_nil] at hreads
      exact hreads.trans (not_congr ⟨fun h => h.perm hperm, fun h => h.perm hperm.symm⟩)
    · -- No stored key is as long as this one.
      refine iff_of_true (fun i hi => ?_) ?_
      · obtain ⟨e, he, hi⟩ := lookupReads_lt hwf (Nat.mod_lt _ (by decide)) false i hi
        obtain ⟨kv, hkv, rfl⟩ := hstored e he
        exact (hi.trans (hfits kv hkv)).le.trans hge
      · rintro ⟨w, -, ⟨e, he, e', -, a, b, hparts⟩, hlength, -⟩
        obtain ⟨kv, hkv, rfl⟩ := mem_map.1 he
        have hle := ((prefix_append w [a]).trans hparts.left).length_le
        have hshort : (element kv).key.length < 2 ^ 32 := hfits kv hkv
        omega

/-- The lookup stays inside the key exactly if nothing stored overruns it. -/
theorem staysInKey_iff {load : Load NulFree} (hvalid : load.Valid)
    (hshort : ∀ kv, kv ∈ load.stored → kv.key.1.length < 2 ^ 32 - 1) (k : NulFree) :
    StaysInKey load k ↔ ¬ Overruns (load.stored.map element) [] (convert2String k) := by
  have hfits : ∀ kv, kv ∈ load.stored → Fits kv.key := fun kv hkv => fits_nulFree.2 (hshort kv hkv)
  obtain ⟨tree, hreturns, hholds⟩ := run_holds hvalid hfits
  have hreads := lookupReads_iff_of_holds hholds hfits k
  constructor
  · rintro ⟨tree', hreturns', hall⟩
    rw [hreturns'.unique hreturns] at hall
    exact (hreads fun _ => 0).1 (hall _)
  · exact fun hnone => ⟨tree, hreturns, fun behind => (hreads behind).2 hnone⟩

/-- Two strings that share their first `n` bytes. -/
def twins (n : Nat) : Load NulFree where
  data := [⟨⟨replicate n 1 ++ [1], by simp⟩, 10⟩, ⟨⟨replicate n 1 ++ [2], by simp⟩, 20⟩]
  inserts := []

/-- Eight shared bytes are compared with the key. -/
theorem staysInKey_twins :
    StaysInKey (twins 8) (ones 1) ↔
      ¬ Overruns ((twins 8).stored.map element) [] (convert2String (ones 1)) := by
  refine staysInKey_iff ⟨?_, ?_⟩ ?_ (ones 1)
  · decide
  · decide
  · decide

/-- Ten shared bytes are skipped, and the key of two bytes is read at position ten. -/
theorem not_staysInKey_twins : (twins 10).Valid ∧ ¬ StaysInKey (twins 10) (ones 1) := by
  refine ⟨⟨by decide, by decide⟩, ?_⟩
  rintro ⟨tree, ⟨fuel, hfuel⟩, hall⟩
  have hrun := hfuel (fuel + 20) (Nat.le_add_right fuel 20)
  have hreads : ((twins 10).run (fuel + 20)).map (fun tree =>
      lookupReads (terminated (convert2String (ones 1)) fun _ => 0)
        (keyLength (convert2String (ones 1))) tree 0 false) = some [10] := rfl
  rw [hrun, Option.map_some, Option.some_inj] at hreads
  exact absurd (hall (fun _ => 0) 10 (hreads ▸ mem_cons_self)) (by decide)

end ART
end TLI
