import TLI.Competitors.LIPP.Invariant
import TLI.Library.Fuel

/-!
# Iterate — the stack of partly consumed bitmaps enumerates the pairs in order

* `rest` — the pairs of a node from an item on.
* `Remains` — the pairs that a stack of tuples still leads to, the topmost tuple first.
* `Leads` — an iterator, against the pairs that should come next.

One turn of `advance_stack` drops a tuple, finds a pair, or goes on with a child (`Turn`).
-/

namespace TLI
namespace LIPP

open Bitmap List

variable {K V : Type} {F : LinearModels K}

/-! ## One turn of the loop -/

/-- The pairs of a node from an item on. -/
def rest {M : Type} (node : Node M) (items : Nat → Item M K V) (p : Nat) : List (K × V) :=
  (range' p (node.numItems - p)).flatMap (slot node items)

theorem rest_zero {M : Type} (node : Node M) (items : Nat → Item M K V) :
    rest node items 0 = pairs (.child node items) := by
  rw [rest, pairs_child, Nat.sub_zero, ← range_eq_range']

/-- The items of a padded node from `p` on are still to come. -/
structure Ready (tuple : StackTuple F.Model K V) (p : Nat) : Prop where
  wf : WF F (.child tuple.node tuple.items)
  padded : tuple.node.Padded
  cursor : At (fun i => ~~~ tuple.node.noneBitmap i) p tuple.index tuple.oneBitmap
  index_lt : tuple.index < bitmapSize tuple.node.numItems

theorem ready_startTuple {node : Node F.Model} {items : Nat → Item F.Model K V}
    (hwf : WF F (.child node items)) (hpadded : node.Padded) : Ready (startTuple node items) 0 where
  wf := hwf
  padded := hpadded
  cursor := at_zero _ 0
  index_lt := by
    have hpos := hwf.1
    simp only [startTuple, bitmapSize]
    omega

theorem ready_tupleBehind {node : Node F.Model} {items : Nat → Item F.Model K V}
    (hwf : WF F (.child node items)) (hpadded : node.Padded) {pos : Nat}
    (hpos : pos < node.numItems) : Ready (tupleBehind node items pos) (pos + 1) where
  wf := hwf
  padded := hpadded
  cursor := at_behind _ pos
  index_lt := by
    simp only [tupleBehind, bitmapSize]
    omega

/-- The lowest bit of a byte. -/
theorem bitmapNext_spec {word : UInt8} (h : word ≠ 0) :
    bitmapNext word < 8 ∧ word.toNat.testBit (bitmapNext word) = true ∧
      ∀ i < bitmapNext word, word.toNat.testBit i = false := by
  obtain ⟨i, hi, hbit⟩ := exists_testBit h
  have hsome : ((List.range 32).find? word.toNat.testBit).isSome := by
    rw [find?_isSome]
    exact ⟨i, List.mem_range.2 (by omega), hbit⟩
  obtain ⟨j, hj⟩ := Option.isSome_iff_exists.1 hsome
  have hctz : bitmapNext word = j := by
    rw [bitmapNext, Simd.ctz, hj, Option.getD_some]
  rw [find?_range_eq_some] at hj
  obtain ⟨hfound, -, hbefore⟩ := hj
  rw [hctz]
  refine ⟨?_, hfound, fun k hk => by simpa using hbefore k hk⟩
  by_contra hlarge
  have hpassed := hbefore i (by omega)
  rw [hbit] at hpassed
  cases hpassed

section

variable {M : Type}

/-- The item that the tuple leads to next. -/
def StackTuple.newI (tuple : StackTuple M K V) : Nat :=
  tuple.bitmapNext1.1 * 8 + bitmapNext tuple.bitmapNext1.2

/-- The tuple without its next item. -/
def StackTuple.pass (tuple : StackTuple M K V) : StackTuple M K V :=
  { tuple with
    index := tuple.bitmapNext1.1
    oneBitmap := tuple.bitmapNext1.2 - mask (bitmapNext tuple.bitmapNext1.2) }

theorem advanceStack_drop {tuple : StackTuple M K V} (h : tuple.bitmapNext1.2 = 0) (fuel : Nat)
    (stack : List (StackTuple M K V)) :
    advanceStack (fuel + 1) (tuple :: stack) = advanceStack fuel stack := by
  rw [advanceStack]
  exact if_pos h

theorem advanceStack_data {tuple : StackTuple M K V} (h : tuple.bitmapNext1.2 ≠ 0)
    (hchild : get tuple.node.childBitmap tuple.newI = false) (fuel : Nat)
    (stack : List (StackTuple M K V)) :
    advanceStack (fuel + 1) (tuple :: stack) =
      some ⟨tuple.pass :: stack, some ⟨tuple.node, tuple.items, tuple.newI⟩⟩ := by
  rw [advanceStack]
  exact (if_neg h).trans (if_neg (Bool.not_eq_true _ ▸ hchild))

theorem advanceStack_child {tuple : StackTuple M K V} (h : tuple.bitmapNext1.2 ≠ 0)
    (hchild : get tuple.node.childBitmap tuple.newI = true) {node : Node M}
    {items : Nat → Item M K V}
    (hitem : item? tuple.node tuple.items tuple.newI = some (.child node items)) (fuel : Nat)
    (stack : List (StackTuple M K V)) :
    advanceStack (fuel + 1) (tuple :: stack) =
      advanceStack fuel (startTuple node items :: tuple.pass :: stack) := by
  rw [advanceStack]
  refine (if_neg h).trans ((if_pos hchild).trans ?_)
  rw [StackTuple.newI, StackTuple.bitmapNext1] at hitem
  rw [hitem]
  rfl

/-- A turn that reads a child has one to read. -/
theorem advanceStack_of_child {tuple : StackTuple M K V} (h : tuple.bitmapNext1.2 ≠ 0)
    (hchild : get tuple.node.childBitmap tuple.newI = true) {fuel : Nat}
    {stack : List (StackTuple M K V)} {it : Iterator M K V}
    (hadvance : advanceStack (fuel + 1) (tuple :: stack) = some it) :
    ∃ node items, item? tuple.node tuple.items tuple.newI = some (.child node items) := by
  rw [advanceStack] at hadvance
  have hmatch := (if_pos hchild).symm.trans ((if_neg h).symm.trans hadvance)
  split at hmatch
  · rename_i hitem
    exact ⟨_, _, hitem⟩
  · cases hmatch

end

/-- The bitmaps lead to the next item that is occupied. -/
theorem Ready.next {tuple : StackTuple F.Model K V} {p : Nat} (h : Ready tuple p) :
    tuple.bitmapNext1.2 = 0 ∧ rest tuple.node tuple.items p = [] ∨
      tuple.bitmapNext1.2 ≠ 0 ∧ tuple.newI < tuple.node.numItems ∧
        get tuple.node.noneBitmap tuple.newI = false ∧ Ready tuple.pass (tuple.newI + 1) ∧
        rest tuple.node tuple.items p =
          slot tuple.node tuple.items tuple.newI ++ rest tuple.node tuple.items (tuple.newI + 1) := by
  have hindex := h.index_lt
  have hsize : tuple.node.numItems ≤ 8 * bitmapSize tuple.node.numItems := by
    rw [bitmapSize]
    omega
  obtain ⟨p', hle, hbetween, hcursor, hindex', hlast⟩ :=
    h.cursor.nextWord (bitmapSize tuple.node.numItems - (tuple.index + 1))
  have hcursor : At _ p' tuple.bitmapNext1.1 tuple.bitmapNext1.2 := hcursor
  have hindex' : tuple.bitmapNext1.1 < bitmapSize tuple.node.numItems :=
    lt_of_le_of_lt hindex' (by omega)
  -- a position that is passed is empty
  have hempty : ∀ i, get (fun i => ~~~ tuple.node.noneBitmap i) i = false →
      slot tuple.node tuple.items i = [] := by
    intro i hi
    rw [get_not, Bool.not_eq_false'] at hi
    exact slot_of_none hi
  by_cases hword : tuple.bitmapNext1.2 = 0
  · refine Or.inl ⟨hword, ?_⟩
    rw [rest, flatMap_eq_nil_iff]
    intro i hi
    rw [mem_range'_1] at hi
    exact hempty i (hlast hword i hi.1 (by omega))
  · obtain ⟨hlt, hbit, hlow⟩ := bitmapNext_spec hword
    obtain ⟨hle', hfound, hskipped, hpassed⟩ := hcursor.pass hlt hbit hlow
    have hnewI : 8 * tuple.bitmapNext1.1 + bitmapNext tuple.bitmapNext1.2 = tuple.newI := by
      rw [StackTuple.newI, Nat.mul_comm]
    rw [hnewI] at hle' hfound hskipped hpassed
    rw [get_not, Bool.not_eq_true'] at hfound
    have hin : tuple.newI < tuple.node.numItems := by
      by_contra hout
      rw [h.padded _ (not_lt.1 hout)] at hfound
      cases hfound
    refine Or.inr ⟨hword, hin, hfound, ⟨h.wf, h.padded, hpassed, hindex'⟩, ?_⟩
    rw [rest, flatMap_skip (hle.trans hle') fun i hi hlt => hempty i ?_,
      flatMap_cons_of_lt _ hin, rest]
    rcases Nat.lt_or_ge i p' with hlt' | hge
    · exact hbetween i hi hlt'
    · exact hskipped i hge hlt

/-- What a turn of `advance_stack` does with the tuple on top. -/
inductive Turn (tuple : StackTuple F.Model K V) (p : Nat) : Prop
  | drop (hrest : rest tuple.node tuple.items p = [])
      (hturn : ∀ fuel stack, advanceStack (fuel + 1) (tuple :: stack) = advanceStack fuel stack)
  | data (hready : Ready tuple.pass (tuple.newI + 1)) (pair : K × V)
      (hdata : (Pointer.mk tuple.node tuple.items tuple.newI).data? = some pair)
      (hrest : rest tuple.node tuple.items p =
        pair :: rest tuple.node tuple.items (tuple.newI + 1))
      (hturn : ∀ fuel stack, advanceStack (fuel + 1) (tuple :: stack) =
        some ⟨tuple.pass :: stack, some ⟨tuple.node, tuple.items, tuple.newI⟩⟩)
  | child (hready : Ready tuple.pass (tuple.newI + 1)) (node : Node F.Model)
      (items : Nat → Item F.Model K V) (hitem : tuple.items tuple.newI = .child node items)
      (hwf : WF F (.child node items)) (hpadded : node.Padded)
      (hnonempty : pairs (.child node items) ≠ [])
      (hrest : rest tuple.node tuple.items p =
        pairs (.child node items) ++ rest tuple.node tuple.items (tuple.newI + 1))
      (hturn : ∀ fuel stack, advanceStack (fuel + 1) (tuple :: stack) =
        advanceStack fuel (startTuple node items :: tuple.pass :: stack))

theorem Ready.turn {tuple : StackTuple F.Model K V} {p : Nat} (h : Ready tuple p) :
    Turn tuple p := by
  rcases h.next with ⟨hword, hrest⟩ | ⟨hword, hin, hfound, hready, hrest⟩
  · exact .drop hrest fun fuel stack => advanceStack_drop hword fuel stack
  · have hitem : item? tuple.node tuple.items tuple.newI = some (tuple.items tuple.newI) :=
      if_pos hin
    cases h.wf.2.2 _ hin with
    | none hnone hchild => exact absurd (hnone.symm.trans hfound) Bool.true_eq_false_eq_False
    | data hnone hchild key value hdata hpredict =>
        refine .data hready (key, value) ?_ ?_ fun fuel stack =>
          advanceStack_data hword hchild fuel stack
        · rw [Pointer.data?, hitem, hdata]
          rfl
        · rw [hrest, slot_of_some hnone, hdata]
          rfl
    | child hnone hchild hwf hpadded hnonempty hpredict =>
        obtain ⟨node, items, hkid, -⟩ := hwf.node
        rw [hkid] at hwf hpadded hnonempty
        refine .child hready node items hkid hwf hpadded hnonempty ?_ fun fuel stack =>
          advanceStack_child hword hchild (hitem.trans (congrArg some hkid)) fuel stack
        rw [hrest, slot_of_some hnone, hkid]

/-! ## The stack -/

/-- The pairs that a stack still leads to. -/
inductive Remains : List (StackTuple F.Model K V) → List (K × V) → Prop
  | nil : Remains [] []
  | cons {tuple : StackTuple F.Model K V} {p : Nat} {stack : List (StackTuple F.Model K V)}
      {xs : List (K × V)} (hready : Ready tuple p) (hstack : Remains stack xs) :
      Remains (tuple :: stack) (rest tuple.node tuple.items p ++ xs)

/-- The iterator points to the first of the pairs, and its stack leads to the others. -/
def Leads (it : Iterator F.Model K V) : List (K × V) → Prop
  | [] => it.it = none
  | p :: ps => ∃ ptr, it.it = some ptr ∧ ptr.data? = some p ∧ Remains it.stack ps

/-- From a node with pairs to come on, the first of them is reached. -/
theorem advanceStack_descend {t : Item F.Model K V} :
    ∀ {tuple : StackTuple F.Model K V} {p : Nat}, t = .child tuple.node tuple.items →
      Ready tuple p → rest tuple.node tuple.items p ≠ [] →
      ∀ {stack xs}, Remains stack xs →
        ∃ it, Returns (fun fuel => advanceStack fuel (tuple :: stack)) it ∧
          Leads it (rest tuple.node tuple.items p ++ xs) := by
  induction t with
  | unused => exact fun h => by cases h
  | data key value => exact fun h => by cases h
  | child node items ih =>
      intro tuple p htuple hready hne stack xs hstack
      cases htuple
      cases hready.turn with
      | drop hrest hturn => exact absurd hrest hne
      | data hready' pair hdata hrest hturn =>
          refine ⟨_, (Returns.const _).of_succ fun fuel => hturn fuel stack, ?_⟩
          rw [hrest]
          exact ⟨_, rfl, hdata, .cons hready' hstack⟩
      | child hready' node items hitem hwf hpadded hnonempty hrest hturn =>
          have hstart := ready_startTuple hwf hpadded
          rw [← rest_zero] at hnonempty
          obtain ⟨it, hreturns, hleads⟩ := ih _ hitem hstart hnonempty (.cons hready' hstack)
          refine ⟨it, hreturns.of_succ fun fuel => hturn fuel stack, ?_⟩
          rw [hrest, append_assoc, ← rest_zero]
          exact hleads

theorem advanceStack_spec {stack : List (StackTuple F.Model K V)} {xs : List (K × V)}
    (h : Remains stack xs) :
    ∃ it, Returns (fun fuel => advanceStack fuel stack) it ∧ Leads it xs := by
  induction h with
  | nil => exact ⟨⟨[], none⟩, (Returns.const _).of_succ fun _ => rfl, rfl⟩
  | @cons tuple p stack xs hready hstack ih =>
      by_cases hne : rest tuple.node tuple.items p = []
      · cases hready.turn with
        | drop hrest hturn =>
            obtain ⟨it, hreturns, hleads⟩ := ih
            refine ⟨it, hreturns.of_succ fun fuel => hturn fuel stack, ?_⟩
            rwa [hne, nil_append]
        | data hready' pair hdata hrest hturn =>
            rw [hne] at hrest
            cases hrest
        | child hready' node items hitem hwf hpadded hnonempty hrest hturn =>
            rw [hne, eq_comm, append_eq_nil_iff] at hrest
            exact absurd hrest.1 hnonempty
      · exact advanceStack_descend rfl hready hne hstack

/-! ## The lower bound -/

variable [LinearOrder K]

/-- The pairs of a node from a key on. -/
theorem filter_pairs (hmono : ∀ model n, Monotone (predictPos F model n)) {node : Node F.Model}
    {items : Nat → Item F.Model K V} (hpos : 0 < node.numItems) (h : SlotsOK node items) (key : K) :
    (pairs (.child node items)).filter (fun p => decide (key ≤ p.1)) =
      (slot node items (predictPos F node.model node.numItems key)).filter
          (fun p => decide (key ≤ p.1)) ++
        rest node items (predictPos F node.model node.numItems key + 1) := by
  have hlt := predictPos_lt F node.model hpos key
  generalize hkey : predictPos F node.model node.numItems key = pos at hlt
  have hbelow : ∀ i, 0 ≤ i → i < pos →
      (slot node items i).filter (fun p => decide (key ≤ p.1)) = [] := by
    intro i _ hi
    rw [filter_eq_nil_iff]
    intro p hp hle
    have hpredict := hmono node.model node.numItems (of_decide_eq_true hle)
    rw [hkey, h.predict (by omega) hp] at hpredict
    omega
  have habove : ∀ i, i ∈ range' (pos + 1) (node.numItems - (pos + 1)) →
      (slot node items i).filter (fun p => decide (key ≤ p.1)) = slot node items i := by
    intro i hi
    rw [mem_range'_1] at hi
    refine filter_eq_self.2 fun p hp => decide_eq_true (le_of_not_gt fun hgt => ?_)
    have hpredict := hmono node.model node.numItems (le_of_lt hgt)
    rw [hkey, h.predict (by omega) hp] at hpredict
    omega
  rw [← rest_zero, rest, filter_flatMap, flatMap_skip (Nat.zero_le pos) hbelow,
    flatMap_cons_of_lt _ hlt, flatMap_congr habove, rest]

/-- `lower_bound` leads to the pairs from the key on. -/
theorem lowerBound_spec (hmono : ∀ model n, Monotone (predictPos F model n)) (key : K)
    {t : Item F.Model K V} : WF F t → t.Padded → ∀ {stack xs}, Remains stack xs →
      ∃ it, Returns (fun fuel => lowerBound F fuel key t stack) it ∧
        Leads it ((pairs t).filter (fun p => decide (key ≤ p.1)) ++ xs) := by
  induction t with
  | unused => exact fun h => h.elim
  | data key value => exact fun h => h.elim
  | child node items ih =>
      intro hwf hpadded stack xs hstack
      rw [filter_pairs hmono hwf.1 hwf.2.2, append_assoc]
      have hin := predictPos_lt F node.model hwf.1 key
      generalize hkey : predictPos F node.model node.numItems key = pos at hin ⊢
      have hready := ready_tupleBehind hwf hpadded hin
      have hitem : item? node items pos = some (items pos) := if_pos hin
      -- The slot of the key decides: nothing is there, a pair, or a node below which the search
      -- goes on.
      cases hwf.2.2 _ hin with
      | none hnone hchild =>
          obtain ⟨it, hreturns, hleads⟩ := advanceStack_spec (.cons hready hstack)
          refine ⟨it, hreturns.congr fun fuel => ?_, ?_⟩
          · rw [lowerBound, hkey, hchild, hnone]
            rfl
          · rw [slot_of_none hnone]
            exact hleads
      | data hnone hchild key' value hdata hpredict =>
          rw [slot_of_some hnone, hdata, pairs, filter_singleton]
          by_cases hle : key ≤ key'
          · refine ⟨⟨tupleBehind node items pos :: stack, some ⟨node, items, pos⟩⟩,
              (Returns.const _).congr fun fuel => ?_, ?_⟩
            · rw [lowerBound, hkey, hchild, hnone, hitem, hdata]
              exact if_pos hle
            · rw [decide_eq_true hle]
              exact ⟨_, rfl, by rw [Pointer.data?, hitem, hdata]; rfl, .cons hready hstack⟩
          · obtain ⟨it, hreturns, hleads⟩ := advanceStack_spec (.cons hready hstack)
            refine ⟨it, hreturns.congr fun fuel => ?_, ?_⟩
            · rw [lowerBound, hkey, hchild, hnone, hitem, hdata]
              exact if_neg hle
            · rw [decide_eq_false hle]
              exact hleads
      | child hnone hchild hwf' hpadded' hnonempty hpredict =>
          obtain ⟨it, hreturns, hleads⟩ := ih _ hwf' hpadded' (.cons hready hstack)
          refine ⟨it, hreturns.congr fun fuel => ?_, ?_⟩
          · rw [lowerBound, hkey, hchild, if_pos rfl, if_pos hin]
          · rw [slot_of_some hnone]
            exact hleads

end LIPP
end TLI
