import Mathlib.Data.List.Sort
import TLI.Competitors.ART.Model

/-!
# Layout — the children of an inner node, whatever its layout

A position is what an iterator counts through: a slot of a `Node4` or `Node16`, a key byte of a
`Node48` or `Node256`.  The entry at a position is a key byte with the slot it leads to.

* `entriesFrom pos` — the entries from a position on; `entries` are all of them.
* `LayoutOK` — what a layout promises: the bytes ascend, the slots differ and hold a child each.
* `children` — the key bytes with the nodes they lead to.

All that search and iteration use of a layout is stated about these lists.
-/

namespace TLI
namespace ART

open Loop Simd

/-- The end of the positions. -/
def limit (count : Nat) : Layout → Nat
  | .node4 _ => count
  | .node16 _ => count
  | .node48 _ => 256
  | .node256 => 256

def entryAt (lay : Layout) (present : Nat → Bool) (pos : Nat) : Option (UInt8 × Nat) :=
  match lay with
  | .node4 key => some (key pos, pos)
  | .node16 key => some (key pos, pos)
  | .node48 childIndex =>
      if childIndex (UInt8.ofNat pos) ≠ emptyMarker then
        some (UInt8.ofNat pos, childIndex (UInt8.ofNat pos))
      else none
  | .node256 => if present pos then some (UInt8.ofNat pos, pos) else none

def entriesFrom (count : Nat) (lay : Layout) (present : Nat → Bool) (pos : Nat) :
    List (UInt8 × Nat) :=
  (List.range' pos (limit count lay - pos)).filterMap (entryAt lay present)

def entries (count : Nat) (lay : Layout) (present : Nat → Bool) : List (UInt8 × Nat) :=
  entriesFrom count lay present 0

def presentIn (child : Nat → Node) (s : Nat) : Bool :=
  (child s).present

def children (count : Nat) (lay : Layout) (child : Nat → Node) : List (UInt8 × Node) :=
  (entries count lay (presentIn child)).map fun bs => (bs.1, child bs.2)

/-- The room of a layout, and that a `Node48` knows its free slots. -/
def Layout.Room (count : Nat) (lay : Layout) (present : Nat → Bool) : Prop :=
  match lay with
  | .node4 _ => count ≤ 4
  | .node16 _ => count ≤ 16
  | .node48 childIndex =>
      (∀ b, childIndex b ≤ emptyMarker) ∧
        ∀ s, s < 48 → present s = true → ∃ b, childIndex b = s
  | .node256 => True

structure LayoutOK (count : Nat) (lay : Layout) (present : Nat → Bool) : Prop where
  sorted : ((entries count lay present).map Prod.fst).Pairwise (· < ·)
  slots : ((entries count lay present).map Prod.snd).Nodup
  length_eq : (entries count lay present).length = count
  used : ∀ b s, (b, s) ∈ entries count lay present → present s = true
  room : lay.Room count present

/-! ## Entries of the four layouts -/

theorem entries_node4 (count : Nat) (key : Nat → UInt8) (present : Nat → Bool) :
    entries count (.node4 key) present = (List.range count).map fun i => (key i, i) := by
  rw [List.range_eq_range']
  exact congrFun (List.filterMap_eq_map (f := fun i => (key i, i))) _

theorem entries_node16 (count : Nat) (key : Nat → UInt8) (present : Nat → Bool) :
    entries count (.node16 key) present = (List.range count).map fun i => (key i, i) :=
  entries_node4 count key present

theorem toNat_byte {pos : Nat} (hpos : pos < 256) : (UInt8.ofNat pos).toNat = pos :=
  UInt8.toNat_ofNat_of_lt' hpos

theorem ofNat_eq_iff {pos : Nat} (hpos : pos < 256) (b : UInt8) :
    UInt8.ofNat pos = b ↔ pos = b.toNat := by
  rw [← UInt8.toNat_inj, toNat_byte hpos]

theorem mem_entries_node48 {count : Nat} {childIndex : UInt8 → Nat} {present : Nat → Bool}
    {b : UInt8} {s : Nat} :
    (b, s) ∈ entries count (.node48 childIndex) present ↔
      childIndex b = s ∧ s ≠ emptyMarker := by
  have hb := b.toNat_lt
  simp only [entries, entriesFrom, limit, List.mem_filterMap, List.mem_range'_1, entryAt]
  constructor
  · rintro ⟨pos, -, hentry⟩
    split at hentry
    · rename_i hne
      cases hentry
      exact ⟨rfl, hne⟩
    · cases hentry
  · rintro ⟨rfl, hne⟩
    refine ⟨b.toNat, by omega, ?_⟩
    rw [UInt8.ofNat_toNat, if_pos hne]

theorem mem_entries_node256 {count : Nat} {present : Nat → Bool} {b : UInt8} {s : Nat} :
    (b, s) ∈ entries count .node256 present ↔ present s = true ∧ s = b.toNat := by
  have hb := b.toNat_lt
  simp only [entries, entriesFrom, limit, List.mem_filterMap, List.mem_range'_1, entryAt]
  constructor
  · rintro ⟨pos, hpos, hentry⟩
    split at hentry
    · rename_i hpresent
      rw [Option.some.injEq, Prod.mk.injEq, ofNat_eq_iff (by omega)] at hentry
      exact ⟨hentry.2 ▸ hpresent, by omega⟩
    · cases hentry
  · rintro ⟨hpresent, rfl⟩
    refine ⟨b.toNat, by omega, ?_⟩
    rw [UInt8.ofNat_toNat, if_pos hpresent]

/-- The keys of a `Node4` or `Node16` are in strict order. -/
def Ascending (key : Nat → UInt8) (count : Nat) : Prop :=
  ∀ i j, i < j → j < count → key i < key j

theorem sorted_slots {key : Nat → UInt8} {count : Nat} :
    (((List.range count).map fun i => (key i, i)).map Prod.fst).Pairwise (· < ·) ↔
      Ascending key count := by
  rw [List.map_map, List.pairwise_map, List.pairwise_iff_getElem]
  simp only [List.length_range, List.getElem_range, Function.comp_apply]
  exact ⟨fun h i j hij hj => h i j (by omega) hj hij, fun h i j _ hj hij => h i j hij hj⟩

/-- The bytes of a `Node48` and of a `Node256` ascend whatever they lead to. -/
theorem sorted_of_bytes {f : Nat → Option (UInt8 × Nat)}
    (hf : ∀ pos bs, f pos = some bs → bs.1 = UInt8.ofNat pos) :
    (((List.range' 0 256).filterMap f).map Prod.fst).Pairwise (· < ·) := by
  rw [List.pairwise_map, List.pairwise_filterMap]
  refine (List.pairwise_lt_range' 1).imp_of_mem fun hi hj hij bs hbs bs' hbs' => ?_
  rw [List.mem_range'_1] at hi hj
  rw [hf _ _ hbs, hf _ _ hbs', UInt8.lt_iff_toNat_lt, toNat_byte (by omega),
    toNat_byte (by omega)]
  exact hij

theorem sorted_node48 (count : Nat) (childIndex : UInt8 → Nat) (present : Nat → Bool) :
    ((entries count (.node48 childIndex) present).map Prod.fst).Pairwise (· < ·) := by
  refine sorted_of_bytes fun pos bs h => ?_
  simp only [entryAt] at h
  split at h <;> cases h
  rfl

theorem sorted_node256 (count : Nat) (present : Nat → Bool) :
    ((entries count .node256 present).map Prod.fst).Pairwise (· < ·) := by
  refine sorted_of_bytes fun pos bs h => ?_
  simp only [entryAt] at h
  split at h <;> cases h
  rfl

namespace LayoutOK

variable {count : Nat} {lay : Layout} {present : Nat → Bool}

theorem entries_sorted (h : LayoutOK count lay present) :
    (entries count lay present).Pairwise fun x y => x.1 < y.1 :=
  List.pairwise_map.1 h.sorted

/-- A key byte leads to one slot. -/
theorem slot_unique (h : LayoutOK count lay present) {b : UInt8} {s t : Nat}
    (hs : (b, s) ∈ entries count lay present) (ht : (b, t) ∈ entries count lay present) :
    s = t := by
  have heq := List.inj_on_of_nodup_map (h.sorted.imp fun hlt => ne_of_lt hlt) hs ht rfl
  exact congrArg Prod.snd heq

/-- A slot is reached by one key byte. -/
theorem byte_unique (h : LayoutOK count lay present) {b c : UInt8} {s : Nat}
    (hb : (b, s) ∈ entries count lay present) (hc : (c, s) ∈ entries count lay present) :
    b = c := by
  have heq := List.inj_on_of_nodup_map h.slots hb hc rfl
  exact congrArg Prod.fst heq

end LayoutOK

/-! ## The first entry -/

theorem firstSlot_eq {count : Nat} {lay : Layout} {present : Nat → Bool} {b : UInt8} {s : Nat}
    {rest : List (UInt8 × Nat)} (h : entries count lay present = (b, s) :: rest) :
    firstSlot lay present = some s := by
  cases lay with
  | node4 key =>
      rw [entries_node4] at h
      cases count with
      | zero => cases h
      | succ count =>
          rw [List.range_succ_eq_map, List.map_cons, List.cons.injEq, Prod.mk.injEq] at h
          rw [firstSlot, h.1.2]
  | node16 key =>
      rw [entries_node16] at h
      cases count with
      | zero => cases h
      | succ count =>
          rw [List.range_succ_eq_map, List.map_cons, List.cons.injEq, Prod.mk.injEq] at h
          rw [firstSlot, h.1.2]
  | node48 childIndex =>
      have hstop : (fun pos => decide (childIndex (UInt8.ofNat pos) ≠ emptyMarker)) =
          fun pos => (entryAt (.node48 childIndex) present pos).isSome := by
        funext pos
        simp only [entryAt]
        split <;> simp_all
      rcases filterMap_range' (entryAt (.node48 childIndex) present) 256 0 with
        ⟨-, hnil⟩ | ⟨pos, bs, hscan, -, hpos, hentry, hrest⟩
      · rw [show entries count (.node48 childIndex) present = [] from hnil] at h
        cases h
      · rw [show entries count (.node48 childIndex) present = _ from hrest] at h
        simp only [firstSlot, hstop, hscan]
        rw [if_pos (by omega)]
        simp only [entryAt] at hentry
        split at hentry <;> cases hentry
        rw [(Prod.mk.inj (List.cons.inj h).1).2]
  | node256 =>
      have hstop : present = fun pos => (entryAt .node256 present pos).isSome := by
        funext pos
        simp only [entryAt]
        split <;> simp_all
      rcases filterMap_range' (entryAt .node256 present) 256 0 with
        ⟨-, hnil⟩ | ⟨pos, bs, hscan, -, hpos, hentry, hrest⟩
      · rw [show entries count .node256 present = [] from hnil] at h
        cases h
      · rw [show entries count .node256 present = _ from hrest] at h
        rw [← hstop] at hscan
        simp only [firstSlot, hscan]
        rw [if_pos (by omega)]
        simp only [entryAt] at hentry
        split at hentry <;> cases hentry
        rw [(Prod.mk.inj (List.cons.inj h).1).2]

/-! ## Bit fields -/

theorem testBit_movemask : ∀ (lanes : List Bool) (i : Nat),
    (movemask lanes).testBit i = lanes.getD i false
  | [], i => by simp [movemask]
  | lane :: lanes, 0 => by
      cases lane <;> simp [movemask, Nat.testBit_zero]
  | lane :: lanes, i + 1 => by
      have hhalf : (lane.toNat + 2 * movemask lanes) / 2 = movemask lanes := by
        cases lane <;> (simp; try omega)
      rw [movemask, Nat.testBit_succ, hhalf, testBit_movemask lanes i, List.getD_cons_succ]

theorem testBit_bitfield (lane : UInt8 → Bool) (key : Nat → UInt8) (count i : Nat) :
    (bitfield lane key count).testBit i = (decide (i < 16 ∧ i < count) && lane (key i)) := by
  rw [bitfield, Nat.testBit_and, Nat.testBit_two_pow_sub_one, testBit_movemask]
  by_cases hi : i < 16
  · simp [List.getD_eq_getElem?_getD, hi, Bool.and_comm]
  · simp [List.getD_eq_getElem?_getD, hi]

/-- The first lane of a bit field is where a scan over the keys stops. -/
theorem bitfield_scan {count : Nat} (hcount : count ≤ 16) (lane : UInt8 → Bool)
    (key : Nat → UInt8) :
    scan (fun i => lane (key i)) count 0 = count ∧ bitfield lane key count = 0 ∨
      scan (fun i => lane (key i)) count 0 < count ∧ bitfield lane key count ≠ 0 ∧
        ctz (bitfield lane key count) = scan (fun i => lane (key i)) count 0 := by
  have hle := (scan_le (fun i => lane (key i)) count 0).2
  have hbefore := scan_before (fun i => lane (key i)) count 0
  generalize hk : scan (fun i => lane (key i)) count 0 = k at hle hbefore ⊢
  have hbelow : ∀ j, j < k → (bitfield lane key count).testBit j = false := by
    intro j hj
    rw [testBit_bitfield, hbefore j (Nat.zero_le j) hj, Bool.and_false]
  rcases Nat.lt_or_ge k count with hlt | hge
  · have hhit : (bitfield lane key count).testBit k = true := by
      have hstop := scan_stop (fun i => lane (key i)) count 0 (by omega)
      rw [hk] at hstop
      rw [testBit_bitfield, hstop, decide_eq_true (by omega), Bool.and_true]
    refine Or.inr ⟨hlt, ?_, ?_⟩
    · intro hzero
      rw [hzero, Nat.zero_testBit] at hhit
      cases hhit
    · rw [ctz, (List.find?_range_eq_some).2 ⟨hhit, by simp; omega, ?_⟩, Option.getD_some]
      intro j hj
      simp [hbelow j hj]
  · refine Or.inl ⟨by omega, Nat.eq_of_testBit_eq fun i => ?_⟩
    rw [Nat.zero_testBit]
    rcases Nat.lt_or_ge i k with hi | hi
    · exact hbelow i hi
    · rw [testBit_bitfield, decide_eq_false (by omega), Bool.false_and]

/-! ## Search for a key byte -/

theorem mem_slots {key : Nat → UInt8} {count : Nat} {b : UInt8} {s : Nat} :
    (b, s) ∈ (List.range count).map (fun i => (key i, i)) ↔ s < count ∧ key s = b := by
  rw [List.mem_map]
  constructor
  · rintro ⟨i, hi, heq⟩
    cases heq
    exact ⟨List.mem_range.1 hi, rfl⟩
  · rintro ⟨hs, rfl⟩
    exact ⟨s, List.mem_range.2 hs, rfl⟩

theorem findChild_node4 {key : Nat → UInt8} {count : Nat} (hasc : Ascending key count)
    {b : UInt8} {s : Nat} : findChild count (.node4 key) b = some s ↔ s < count ∧ key s = b := by
  have hstop := scan_stop (fun i => decide (key i = b)) count 0
  simp only [findChild]
  constructor
  · intro hfind
    split at hfind
    · rename_i hlt
      cases hfind
      exact ⟨hlt, by simpa using hstop (by omega)⟩
    · cases hfind
  · rintro ⟨hs, rfl⟩
    have hscan : scan (fun i => decide (key i = key s)) count 0 = s :=
      scan_eq (Nat.zero_le s) (by omega)
        (fun j _ hj => decide_eq_false (ne_of_lt (hasc j s hj hs))) (by simp)
    rw [hscan, if_pos hs]

theorem findChild_node16 {key : Nat → UInt8} {count : Nat} (hcount : count ≤ 16) (b : UInt8) :
    findChild count (.node16 key) b = findChild count (.node4 key) b := by
  have hlane : (fun i => decide (b = key i)) = fun i => decide (key i = b) := by
    funext i
    exact decide_eq_decide.2 eq_comm
  have hscan := bitfield_scan hcount (fun c => decide (b = c)) key
  simp only [hlane] at hscan
  simp only [findChild]
  rcases hscan with ⟨hend, hzero⟩ | ⟨hlt, hne, hctz⟩
  · rw [if_neg (not_not.2 hzero), hend, if_neg (Nat.lt_irrefl count)]
  · rw [if_pos hne, if_pos hlt, hctz]

namespace LayoutOK

variable {count : Nat} {lay : Layout} {present : Nat → Bool}

/-- `findChild` leads to the child of the byte, if the node has one. -/
theorem findChild_iff (h : LayoutOK count lay present) {b : UInt8} {s : Nat} :
    (b, s) ∈ entries count lay present ↔
      findChild count lay b = some s ∧ present s = true := by
  suffices hfind : (b, s) ∈ entries count lay present ↔
      findChild count lay b = some s ∧ (lay = .node256 → present s = true) from
    ⟨fun hmem => ⟨(hfind.1 hmem).1, h.used b s hmem⟩, fun hs => hfind.2 ⟨hs.1, fun _ => hs.2⟩⟩
  cases lay with
  | node4 key =>
      have hasc := h.sorted
      rw [entries_node4] at hasc ⊢
      rw [mem_slots, findChild_node4 (sorted_slots.1 hasc)]
      simp
  | node16 key =>
      have hasc := h.sorted
      rw [entries_node16] at hasc ⊢
      rw [mem_slots, findChild_node16 h.room, findChild_node4 (sorted_slots.1 hasc)]
      simp
  | node48 childIndex =>
      rw [mem_entries_node48]
      simp only [findChild]
      constructor
      · rintro ⟨rfl, hne⟩
        exact ⟨if_pos hne, by simp⟩
      · rintro ⟨hs, -⟩
        split at hs <;> cases hs
        exact ⟨rfl, by assumption⟩
  | node256 =>
      rw [mem_entries_node256]
      simp only [findChild, Option.some.injEq, forall_const]
      exact ⟨fun hs => ⟨hs.2.symm, hs.1⟩, fun hs => ⟨hs.2, hs.1.symm⟩⟩

end LayoutOK

/-! ## Iteration over the positions -/

/-- All four layouts go to the first position that has an entry. -/
theorem nextChild_scan (hdr : Header) (lay : Layout) (child : Nat → Node) (pos : Nat) :
    nextChild hdr lay child pos =
      let j := scan (fun j => (entryAt lay (presentIn child) j).isSome)
        (limit hdr.count lay - pos) pos
      if j < limit hdr.count lay then
        (entryAt lay (presentIn child) j).map fun bs => (child bs.2, j + 1)
      else none := by
  have hslots : scan (fun _ => true) (hdr.count - pos) pos = pos := by
    cases hleft : hdr.count - pos with
    | zero => rfl
    | succ left => rfl
  cases lay with
  | node4 key => simp only [nextChild, entryAt, limit, Option.isSome_some, hslots, Option.map_some]
  | node16 key => simp only [nextChild, entryAt, limit, Option.isSome_some, hslots, Option.map_some]
  | node48 childIndex =>
      have hstop : (fun j => (entryAt (.node48 childIndex) (presentIn child) j).isSome) =
          fun pos => decide (childIndex (UInt8.ofNat pos) ≠ emptyMarker) := by
        funext j
        by_cases hne : childIndex (UInt8.ofNat j) = emptyMarker <;> simp [entryAt, hne]
      have hfound := scan_stop (fun pos => decide (childIndex (UInt8.ofNat pos) ≠ emptyMarker))
        (256 - pos) pos
      simp only [nextChild, limit, hstop]
      split
      · rw [entryAt, if_pos (by simpa using hfound (by omega)), Option.map_some]
      · rfl
  | node256 =>
      have hstop : (fun j => (entryAt .node256 (presentIn child) j).isSome) =
          fun pos => (child pos).present := by
        funext j
        by_cases hne : (child j).present = true <;> simp [entryAt, presentIn, hne]
      have hfound := scan_stop (fun pos => (child pos).present) (256 - pos) pos
      simp only [nextChild, limit, hstop]
      split
      · simp only [entryAt, presentIn, hfound (by omega), if_true, Option.map_some]
      · rfl

/-- The next child is that of the first entry from the position on. -/
theorem nextChild_eq (hdr : Header) (lay : Layout) (child : Nat → Node) (pos : Nat) :
    nextChild hdr lay child pos = none ∧ entriesFrom hdr.count lay (presentIn child) pos = [] ∨
      ∃ b s pos', nextChild hdr lay child pos = some (child s, pos') ∧
        entriesFrom hdr.count lay (presentIn child) pos =
          (b, s) :: entriesFrom hdr.count lay (presentIn child) pos' := by
  rw [nextChild_scan]
  rcases filterMap_range' (entryAt lay (presentIn child)) (limit hdr.count lay - pos) pos with
    ⟨hend, hnil⟩ | ⟨j, ⟨b, s⟩, hj, hij, hlt, hentry, hrest⟩
  · refine Or.inl ⟨?_, hnil⟩
    rw [hend, if_neg (by omega)]
  · refine Or.inr ⟨b, s, j + 1, ?_, ?_⟩
    · rw [hj, if_pos (by omega), hentry, Option.map_some]
    · rw [entriesFrom, hrest, entriesFrom, show pos + (limit hdr.count lay - pos) - (j + 1) =
        limit hdr.count lay - (j + 1) by omega]

theorem range'_split {m n : Nat} (h : m ≤ n) :
    List.range' 0 n = List.range' 0 m ++ List.range' m (n - m) := by
  have happend := List.range'_append_1 (s := 0) (m := m) (n := n - m)
  rw [Nat.zero_add, Nat.add_sub_cancel' h] at happend
  exact happend.symm

/-- The entries from a position on are among all entries. -/
theorem entriesFrom_subset {count : Nat} {lay : Layout} {present : Nat → Bool} {pos : Nat}
    {bs : UInt8 × Nat} (h : bs ∈ entriesFrom count lay present pos) :
    bs ∈ entries count lay present := by
  obtain ⟨i, hi, hentry⟩ := List.mem_filterMap.1 h
  rw [List.mem_range'_1] at hi
  exact List.mem_filterMap.2 ⟨i, List.mem_range'_1.2 ⟨Nat.zero_le i, by omega⟩, hentry⟩

/-! ## Iteration from a key byte on -/

theorem cmpge_epu8_eq (a b : UInt8) : cmpge_epu8 a b = !decide (a < b) := by
  rw [cmpge_epu8, ← decide_not]
  exact decide_eq_decide.2 (by rw [max_eq_left_iff, not_lt])

/-- The position in front of which the keys are smaller than a byte. -/
theorem scan_key {key : Nat → UInt8} {count : Nat} (hasc : Ascending key count) (b : UInt8) :
    ∃ pos, scan (fun pos => !decide (key pos < b)) count 0 = pos ∧ pos ≤ count ∧
      ∀ i, i < count → (key i < b ↔ i < pos) := by
  refine ⟨_, rfl, by simpa using (scan_le _ count 0).2, fun i hi => ⟨fun hlt => ?_, fun hlt => ?_⟩⟩
  · by_contra hge
    have hstop := scan_stop (fun pos => !decide (key pos < b)) count 0 (by omega)
    have hle : key (scan (fun pos => !decide (key pos < b)) count 0) ≤ key i := by
      rcases Nat.eq_or_lt_of_le (Nat.not_lt.1 hge) with heq | hlt'
      · rw [heq]
      · exact (hasc _ _ hlt' hi).le
    have hstop' : ¬ key (scan (fun pos => !decide (key pos < b)) count 0) < b := by
      simpa using hstop
    exact hstop' (lt_of_le_of_lt hle hlt)
  · have hbefore := scan_before (fun pos => !decide (key pos < b)) count 0 i (Nat.zero_le i) hlt
    simpa using hbefore

theorem seekChild_node16 {key : Nat → UInt8} {count : Nat} (hcount : count ≤ 16) (b : UInt8) :
    seekChild count (.node16 key) b = seekChild count (.node4 key) b := by
  have hscan := bitfield_scan hcount (fun c => cmpge_epu8 c b) key
  have hstop : (fun i => cmpge_epu8 (key i) b) = fun i => !decide (key i < b) := by
    funext i
    exact cmpge_epu8_eq _ _
  simp only [hstop] at hscan
  simp only [seekChild]
  rcases hscan with ⟨hend, hzero⟩ | ⟨hlt, hne, hctz⟩
  · rw [if_neg (not_not.2 hzero), hend, if_neg (fun h => Nat.lt_irrefl count h.1)]
  · rw [if_pos hne, hctz]
    simp only [hlt, true_and]

/-- The entries from a position on that separates the bytes up to `b` from the larger ones. -/
theorem entriesFrom_eq_filter {count : Nat} {lay : Layout} {present : Nat → Bool} {b : UInt8}
    {pos : Nat} (hpos : pos ≤ limit count lay)
    (hsep : ∀ i bs, i < limit count lay → entryAt lay present i = some bs →
      (b < bs.1 ↔ pos ≤ i)) :
    entriesFrom count lay present pos =
      (entries count lay present).filter fun bs => decide (b < bs.1) := by
  have hfront : ((List.range' 0 pos).filterMap (entryAt lay present)).filter
      (fun bs => decide (b < bs.1)) = [] := by
    rw [List.filter_eq_nil_iff]
    intro bs hbs
    obtain ⟨i, hi, hentry⟩ := List.mem_filterMap.1 hbs
    rw [List.mem_range'_1] at hi
    rw [decide_eq_true_eq, hsep i bs (by omega) hentry]
    omega
  have hback : ((List.range' pos (limit count lay - pos)).filterMap (entryAt lay present)).filter
      (fun bs => decide (b < bs.1)) =
        (List.range' pos (limit count lay - pos)).filterMap (entryAt lay present) := by
    rw [List.filter_eq_self]
    intro bs hbs
    obtain ⟨i, hi, hentry⟩ := List.mem_filterMap.1 hbs
    rw [List.mem_range'_1] at hi
    rw [decide_eq_true_eq, hsep i bs (by omega) hentry]
    omega
  rw [entries, entriesFrom, entriesFrom, Nat.sub_zero, range'_split hpos,
    List.filterMap_append, List.filter_append, hfront, hback, List.nil_append]

/-- The scan of a `Node4` leads to the slot of the byte and leaves the larger bytes. -/
theorem seekChild_node4 {key : Nat → UInt8} {count : Nat} (hasc : Ascending key count)
    (b : UInt8) :
    (seekChild count (.node4 key) b).1 = findChild count (.node4 key) b ∧
      (seekChild count (.node4 key) b).2 ≤ count ∧
        ∀ i, i < count → (b < key i ↔ (seekChild count (.node4 key) b).2 ≤ i) := by
  obtain ⟨pos, hscan, hle, hsep⟩ := scan_key hasc b
  simp only [seekChild, hscan]
  by_cases hhit : pos < count ∧ key pos = b
  · rw [if_pos hhit]
    refine ⟨((findChild_node4 hasc).2 hhit).symm, hhit.1, fun i hi =>
      ⟨fun hlt => ?_, fun hge => ?_⟩⟩
    · by_contra hge
      have hle : key i ≤ key pos := by
        rcases Nat.lt_or_ge i pos with hlt' | hge'
        · exact (hasc _ _ hlt' hhit.1).le
        · rw [show i = pos by omega]
      exact absurd (lt_of_lt_of_le hlt hle) (by rw [hhit.2]; exact lt_irrefl b)
    · have hlt := hasc pos i (by omega) hi
      rwa [hhit.2] at hlt
  · rw [if_neg hhit]
    have hne : ∀ i, i < count → key i ≠ b := by
      intro i hi heq
      have hge := (hsep i hi).not.1 (by rw [heq]; exact lt_irrefl b)
      have hpos := (hsep pos (by omega)).not.2 (lt_irrefl pos)
      refine hhit ⟨by omega, le_antisymm ?_ (not_lt.1 hpos)⟩
      rcases Nat.eq_or_lt_of_le (Nat.not_lt.1 hge) with heq' | hlt
      · rw [heq', heq]
      · exact heq ▸ (hasc pos i hlt hi).le
    refine ⟨?_, hle, fun i hi => ?_⟩
    · rw [eq_comm, Option.eq_none_iff_forall_ne_some]
      intro s hs
      exact hne s ((findChild_node4 hasc).1 hs).1 ((findChild_node4 hasc).1 hs).2
    · rw [← Nat.not_lt, ← hsep i hi, not_lt]
      exact ⟨le_of_lt, fun hle => lt_of_le_of_ne hle (hne i hi).symm⟩

namespace LayoutOK

variable {count : Nat} {lay : Layout} {present : Nat → Bool}

theorem seekChild_fst (h : LayoutOK count lay present) (b : UInt8) :
    (seekChild count lay b).1 = findChild count lay b := by
  cases lay with
  | node4 key =>
      have hasc := h.sorted
      rw [entries_node4] at hasc
      exact (seekChild_node4 (sorted_slots.1 hasc) b).1
  | node16 key =>
      have hasc := h.sorted
      rw [entries_node16] at hasc
      rw [seekChild_node16 h.room, findChild_node16 h.room]
      exact (seekChild_node4 (sorted_slots.1 hasc) b).1
  | node48 childIndex => rfl
  | node256 => rfl

/-- From the position that `seekChild` leaves, the entries with larger bytes follow. -/
theorem seekChild_snd (h : LayoutOK count lay present) (b : UInt8) :
    entriesFrom count lay present (seekChild count lay b).2 =
      (entries count lay present).filter fun bs => decide (b < bs.1) := by
  have hb := b.toNat_lt
  cases lay with
  | node4 key =>
      have hasc := h.sorted
      rw [entries_node4] at hasc
      obtain ⟨-, hle, hsep⟩ := seekChild_node4 (sorted_slots.1 hasc) b
      refine entriesFrom_eq_filter hle fun i bs hi hentry => ?_
      cases hentry
      exact hsep i hi
  | node16 key =>
      have hasc := h.sorted
      rw [entries_node16] at hasc
      rw [seekChild_node16 h.room]
      obtain ⟨-, hle, hsep⟩ := seekChild_node4 (sorted_slots.1 hasc) b
      refine entriesFrom_eq_filter hle fun i bs hi hentry => ?_
      cases hentry
      exact hsep i hi
  | node48 childIndex =>
      refine entriesFrom_eq_filter (by simp only [seekChild, limit]; omega) fun i bs hi hentry => ?_
      simp only [entryAt] at hentry
      split at hentry <;> cases hentry
      rw [UInt8.lt_iff_toNat_lt, toNat_byte hi]
      rfl
  | node256 =>
      refine entriesFrom_eq_filter (by simp only [seekChild, limit]; omega) fun i bs hi hentry => ?_
      simp only [entryAt] at hentry
      split at hentry <;> cases hentry
      rw [UInt8.lt_iff_toNat_lt, toNat_byte hi]
      rfl

end LayoutOK

end ART
end TLI
