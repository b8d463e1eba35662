import Mathlib.Data.List.Nodup
import TLI.Library.MachineInt
import TLI.Library.Transition

/-!
# Epoche — when replaced nodes are freed

A thread writes down the epoch in which its operation began (`localEpoche`).  A node that it takes
out of the tree gets the epoch of that moment, and is freed by a later operation of the thread, when
the oldest local epoch of all threads is newer.  Up to 32 nodes share one epoch, the last one.

One transition is one access to `currentEpoche` or to a `localEpoche`, in the order of the program,
with the thread-local work before the next one.  What the threads do to the tree is left open: inside an operation they may
link new nodes, and take linked nodes out.  `mayHold` are the nodes that were linked at some time
since the thread has stored its local epoch: it may come by all of them.

* `held_not_freed` — a node that a thread may hold is not freed;
* `node_at_one_place` — no node is freed twice, and none is forgotten;
* `destructor_frees` — when all threads have gone, the destructor frees what is left.
-/

namespace TLI
namespace Epoche

open List Transition

/-! ## Deletion lists -/

structure LabelDelete where
  nodes : List Nat
  epoche : UInt64

/-- The labels, from the head on, and the counters of one thread. -/
structure DeletionList where
  labels : List LabelDelete
  deletitionListCount : Nat
  localEpoche : UInt64
  thresholdCounter : UInt64

/-- `std::numeric_limits<uint64_t>::max()` -/
def maxEpoche : UInt64 := UInt64.ofNat (2 ^ 64 - 1)

def startGCThreshhold : UInt64 := 256

/-- `std::array<void*, 32>` -/
def labelSize : Nat := 32

def addLabel (n : Nat) (globalEpoch : UInt64) : List LabelDelete → List LabelDelete
  | [] => [⟨[n], globalEpoch⟩]
  | label :: rest =>
      if label.nodes.length < labelSize then ⟨label.nodes ++ [n], globalEpoch⟩ :: rest
      else ⟨[n], globalEpoch⟩ :: label :: rest

def DeletionList.add (d : DeletionList) (n : Nat) (globalEpoch : UInt64) : DeletionList :=
  { d with
    labels := addLabel n globalEpoch d.labels
    deletitionListCount := d.deletitionListCount + 1 }

def nodesOf (labels : List LabelDelete) : List Nat :=
  labels.flatMap LabelDelete.nodes

def DeletionList.nodes (d : DeletionList) : List Nat :=
  nodesOf d.labels

/-- The labels that the loop of `exitEpocheAndCleanup` frees. -/
def DeletionList.expired (d : DeletionList) (oldestEpoche : UInt64) : List LabelDelete :=
  d.labels.filter fun label => label.epoche < oldestEpoche

/-- The loop of `exitEpocheAndCleanup`. -/
def DeletionList.sweep (d : DeletionList) (oldestEpoche : UInt64) : DeletionList :=
  { d with
    labels := d.labels.filter fun label => ! label.epoche < oldestEpoche
    deletitionListCount := d.deletitionListCount - (nodesOf (d.expired oldestEpoche)).length
    thresholdCounter := 0 }

/-! ## Threads -/

/-- Where a thread stands. -/
inductive Pc (ι : Type)
  | outside
  | entered (curEpoche : UInt64)
  | inside
  | unlinked (n : Nat)
  | collect
  | scan (todo : List ι) (oldestEpoche : UInt64)

/-- The thread has stored its local epoch, and its operation is not over. -/
def Pc.inOperation {ι : Type} : Pc ι → Bool
  | .inside | .unlinked _ => true
  | _ => false

structure Thread (ι : Type) where
  list : DeletionList
  pc : Pc ι
  mayHold : List Nat

structure State (ι : Type) where
  currentEpoche : UInt64
  allocated : Nat
  linked : List Nat
  freed : List Nat
  threads : ι → Thread ι

inductive Agent (ι : Type)
  | enterEpoche (i : ι)
  | storeEpoche (i : ι)
  | link (i : ι)
  | unlink (i : ι) (n : Nat)
  | markNodeForDeletion (i : ι)
  | exitReadonly (i : ι)
  | exitEpoche (i : ι)
  | cleanup (i : ι)
  | scan (i : ι)
  | destroyThreadInfo (i : ι)

section System

variable {ι : Type} [DecidableEq ι]

def State.set (st : State ι) (i : ι) (t : Thread ι) : State ι :=
  { st with threads := Function.update st.threads i t }

/-- A new node gets into the tree: the threads that are in an operation may come by it. -/
def State.linkNode (st : State ι) : State ι :=
  { st with
    allocated := st.allocated + 1
    linked := st.allocated :: st.linked
    threads := fun j =>
      let t := st.threads j
      if t.pc.inOperation then { t with mayHold := st.allocated :: t.mayHold } else t }

/-- The threads of `deletionLists` are those of the list `all`. -/
def step (all : List ι) : Agent ι → State ι → Option (State ι)
  | .enterEpoche i, st =>
      let t := st.threads i
      match t.pc with
      | .outside => some (st.set i { t with pc := .entered st.currentEpoche })
      | _ => none
  | .storeEpoche i, st =>
      let t := st.threads i
      match t.pc with
      | .entered curEpoche => some (st.set i { t with
          list := { t.list with localEpoche := curEpoche }
          pc := .inside
          mayHold := st.linked })
      | _ => none
  | .link i, st =>
      match (st.threads i).pc with
      | .inside => some st.linkNode
      | _ => none
  | .unlink i n, st =>
      let t := st.threads i
      match t.pc with
      | .inside =>
          if n ∈ st.linked then
            some { st.set i { t with pc := .unlinked n } with linked := st.linked.erase n }
          else none
      | _ => none
  | .markNodeForDeletion i, st =>
      let t := st.threads i
      match t.pc with
      | .unlinked n =>
          let list := t.list.add n st.currentEpoche
          some (st.set i { t with
            list := { list with thresholdCounter := list.thresholdCounter + 1 }
            pc := .inside })
      | _ => none
  | .exitReadonly i, st =>
      let t := st.threads i
      match t.pc with
      | .inside => some (st.set i { t with
          pc := .outside
          mayHold := [] })
      | _ => none
  | .exitEpoche i, st =>
      let t := st.threads i
      match t.pc with
      | .inside =>
          some { st.set i { t with
              pc := .collect
              mayHold := [] } with
            currentEpoche :=
              if t.list.thresholdCounter &&& (64 - 1) = 1 then st.currentEpoche + 1
              else st.currentEpoche }
      | _ => none
  | .cleanup i, st =>
      let t := st.threads i
      match t.pc with
      | .collect =>
          some (st.set i
            (if startGCThreshhold < t.list.thresholdCounter then
              if t.list.deletitionListCount = 0 then
                { t with
                  list := { t.list with thresholdCounter := 0 }
                  pc := .outside }
              else
                { t with
                  list := { t.list with localEpoche := maxEpoche }
                  pc := .scan all maxEpoche }
            else { t with pc := .outside }))
      | _ => none
  | .scan i, st =>
      let t := st.threads i
      match t.pc with
      | .scan (j :: todo) oldestEpoche =>
          let e := (st.threads j).list.localEpoche
          some (st.set i { t with
            pc := .scan todo (if e < oldestEpoche then e else oldestEpoche) })
      | .scan [] oldestEpoche =>
          some { st.set i { t with
              list := t.list.sweep oldestEpoche
              pc := .outside } with
            freed := st.freed ++ nodesOf (t.list.expired oldestEpoche) }
      | _ => none
  | .destroyThreadInfo i, st =>
      let t := st.threads i
      match t.pc with
      | .outside => some (st.set i { t with list := { t.list with localEpoche := maxEpoche } })
      | _ => none

/-- `~Epoche`, and `~DeletionList` of every thread: the nodes that are freed, unless an assertion
fails. -/
def destroy (all : List ι) (st : State ι) : Option (List Nat) :=
  let oldestEpoche := all.foldl (fun oldest i =>
    let e := (st.threads i).list.localEpoche
    if e < oldest then e else oldest) maxEpoche
  if (all.all fun i => (st.threads i).list.labels.all fun label => label.epoche < oldestEpoche) &&
      all.all fun i => let d := (st.threads i).list
        d.deletitionListCount == d.nodes.length then
    some (all.flatMap fun i => (st.threads i).list.nodes)
  else none

/-- A tree with its root, and no thread in an operation. -/
structure Initial (st : State ι) : Prop where
  currentEpoche : st.currentEpoche = 0
  allocated : st.allocated = 1
  linked : st.linked = [0]
  freed : st.freed = []
  labels : ∀ i, (st.threads i).list.labels = []
  count : ∀ i, (st.threads i).list.deletitionListCount = 0
  pc : ∀ i, (st.threads i).pc = .outside
  mayHold : ∀ i, (st.threads i).mayHold = []

def system (all : List ι) : System (State ι) (Agent ι) where
  Init := Initial
  step := step all

end System

/-! ## Labels -/

theorem mem_nodesOf {labels : List LabelDelete} {n : Nat} :
    n ∈ nodesOf labels ↔ ∃ label ∈ labels, n ∈ label.nodes :=
  mem_flatMap

theorem nodesOf_addLabel (n : Nat) (e : UInt64) (labels : List LabelDelete) :
    nodesOf (addLabel n e labels) ~ n :: nodesOf labels := by
  cases labels with
  | nil => exact Perm.refl _
  | cons label rest =>
      rw [addLabel]
      split
      · change (label.nodes ++ [n]) ++ nodesOf rest ~ n :: (label.nodes ++ nodesOf rest)
        rw [append_assoc]
        exact perm_middle
      · exact Perm.refl _

/-- Labels only get newer, and the new node is in a label of the present epoch. -/
theorem addLabel_newer (n : Nat) (e : UInt64) (labels : List LabelDelete) :
    (∃ label ∈ addLabel n e labels, n ∈ label.nodes ∧ label.epoche = e) ∧
      ∀ label ∈ labels, label.epoche ≤ e → ∃ label' ∈ addLabel n e labels,
        label.nodes ⊆ label'.nodes ∧ label.epoche ≤ label'.epoche := by
  cases labels with
  | nil =>
      refine ⟨⟨_, mem_cons_self, mem_cons_self, rfl⟩, fun label hl => ?_⟩
      cases hl
  | cons first rest =>
      rw [addLabel]
      split
      · refine ⟨⟨_, mem_cons_self, mem_append_right _ mem_cons_self, rfl⟩, fun label hl hle => ?_⟩
        rcases mem_cons.1 hl with rfl | hl'
        · exact ⟨_, mem_cons_self, subset_append_left _ _, hle⟩
        · exact ⟨label, mem_cons_of_mem _ hl', Subset.refl _, le_rfl⟩
      · refine ⟨⟨_, mem_cons_self, mem_cons_self, rfl⟩, fun label hl _ => ?_⟩
        exact ⟨label, mem_cons_of_mem _ hl, Subset.refl _, le_rfl⟩

theorem epoche_of_mem_addLabel {n : Nat} {e : UInt64} {labels : List LabelDelete}
    {label : LabelDelete} (h : label ∈ addLabel n e labels) :
    label.epoche = e ∨ label ∈ labels := by
  cases labels with
  | nil =>
      rw [mem_singleton.1 h]
      exact .inl rfl
  | cons first rest =>
      rw [addLabel] at h
      split at h
      · rcases mem_cons.1 h with rfl | h'
        · exact .inl rfl
        · exact .inr (mem_cons_of_mem _ h')
      · rcases mem_cons.1 h with rfl | h'
        · exact .inl rfl
        · exact .inr h'

/-- A node is in one label only. -/
theorem label_unique {labels : List LabelDelete} (h : (nodesOf labels).Nodup)
    {label label' : LabelDelete} (hl : label ∈ labels) (hl' : label' ∈ labels) {n : Nat}
    (hn : n ∈ label.nodes) (hn' : n ∈ label'.nodes) : label = label' := by
  by_contra hne
  have hsymm : Std.Symm (Function.onFun Disjoint LabelDelete.nodes) := ⟨fun _ _ hd => hd.symm⟩
  exact (nodup_flatMap.1 h).2.forall hl hl' hne hn hn'

/-! ## Every node is at one place -/

section Places

variable {ι : Type} [DecidableEq ι] {st st' : State ι} {n : Nat}

/-- Where a node is: in the tree, taken out and not yet marked, in a deletion list, or freed. -/
inductive Place (ι : Type)
  | linked
  | hand (i : ι)
  | listed (i : ι)
  | freed

def At (st : State ι) (n : Nat) : Place ι → Prop
  | .linked => n ∈ st.linked
  | .hand i => (st.threads i).pc = .unlinked n
  | .listed i => n ∈ (st.threads i).list.nodes
  | .freed => n ∈ st.freed

structure Once (st : State ι) : Prop where
  unique : ∀ {n w w'}, At st n w → At st n w' → w = w'
  allocated : ∀ n, n < st.allocated ↔ ∃ w, At st n w
  linked : st.linked.Nodup
  listed : ∀ i, (st.threads i).list.nodes.Nodup
  freed : st.freed.Nodup

omit [DecidableEq ι] in
/-- Some nodes, old or new, go to one place. -/
theorem Once.move (h : Once st) (P : Nat → Prop) (w₁ : Place ι)
    (hat : ∀ m w, At st' m w ↔ ¬ P m ∧ At st m w ∨ P m ∧ w = w₁)
    (hallocated : ∀ m, m < st'.allocated ↔ m < st.allocated ∨ P m)
    (hlinked : st'.linked.Nodup) (hlisted : ∀ i, (st'.threads i).list.nodes.Nodup)
    (hfreed : st'.freed.Nodup) : Once st' where
  unique {m w w'} hw hw' := by
    rcases (hat m w).1 hw with ⟨hP, hold⟩ | ⟨hP, rfl⟩
    · rcases (hat m w').1 hw' with ⟨-, hold'⟩ | ⟨hP', -⟩
      · exact h.unique hold hold'
      · exact absurd hP' hP
    · rcases (hat m w').1 hw' with ⟨hP', -⟩ | ⟨-, rfl⟩
      · exact absurd hP hP'
      · rfl
  allocated m := by
    rw [hallocated, h.allocated]
    by_cases hP : P m
    · exact ⟨fun _ => ⟨w₁, (hat m w₁).2 (.inr ⟨hP, rfl⟩)⟩, fun _ => .inr hP⟩
    · constructor
      · rintro (⟨w, hw⟩ | hP')
        · exact ⟨w, (hat m w).2 (.inl ⟨hP, hw⟩)⟩
        · exact absurd hP' hP
      · rintro ⟨w, hw⟩
        rcases (hat m w).1 hw with ⟨-, hold⟩ | ⟨hP', -⟩
        · exact .inl ⟨w, hold⟩
        · exact absurd hP' hP
  linked := hlinked
  listed := hlisted
  freed := hfreed

omit [DecidableEq ι] in
/-- Some nodes go from one place to another one. -/
theorem Once.transfer (h : Once st) (P : Nat → Prop) (w₀ w₁ : Place ι) (hne : w₀ ≠ w₁)
    (hfrom : ∀ m, P m → At st m w₀)
    (hsource : ∀ m, At st' m w₀ ↔ At st m w₀ ∧ ¬ P m)
    (htarget : ∀ m, At st' m w₁ ↔ At st m w₁ ∨ P m)
    (hsame : ∀ m w, w ≠ w₀ → w ≠ w₁ → (At st' m w ↔ At st m w))
    (hallocated : st'.allocated = st.allocated)
    (hlinked : st'.linked.Nodup) (hlisted : ∀ i, (st'.threads i).list.nodes.Nodup)
    (hfreed : st'.freed.Nodup) : Once st' := by
  have hnot : ∀ {m w}, w ≠ w₀ → At st m w → ¬ P m := fun hw hat hP =>
    hw (h.unique hat (hfrom _ hP))
  refine h.move P w₁ (fun m w => ?_) (fun m => ?_) hlinked hlisted hfreed
  · by_cases h₁ : w = w₁
    · subst h₁
      rw [htarget]
      constructor
      · rintro (hat | hP)
        · exact .inl ⟨hnot hne.symm hat, hat⟩
        · exact .inr ⟨hP, rfl⟩
      · rintro (⟨-, hat⟩ | ⟨hP, -⟩)
        · exact .inl hat
        · exact .inr hP
    · by_cases h₀ : w = w₀
      · subst h₀
        rw [hsource]
        constructor
        · rintro ⟨hat, hP⟩
          exact .inl ⟨hP, hat⟩
        · rintro (⟨hP, hat⟩ | ⟨-, heq⟩)
          · exact ⟨hat, hP⟩
          · exact absurd heq h₁
      · rw [hsame m w h₀ h₁]
        constructor
        · exact fun hat => .inl ⟨hnot h₀ hat, hat⟩
        · rintro (⟨-, hat⟩ | ⟨-, heq⟩)
          · exact hat
          · exact absurd heq h₁
  · rw [hallocated]
    refine ⟨.inl, ?_⟩
    rintro (hm | hP)
    · exact hm
    · exact (h.allocated m).2 ⟨w₀, hfrom m hP⟩

theorem State.set_self (i : ι) (t : Thread ι) : (st.set i t).threads i = t :=
  Function.update_self ..

theorem State.set_of_ne {i j : ι} (hj : j ≠ i) (t : Thread ι) :
    (st.set i t).threads j = st.threads j :=
  Function.update_of_ne hj ..

/-- A thread steps, and no node is moved. -/
theorem Once.set (h : Once st) {i : ι} {t : Thread ι} {e : UInt64}
    (hlabels : t.list.labels = (st.threads i).list.labels)
    (hold : ∀ n, (st.threads i).pc ≠ .unlinked n) (hnew : ∀ n, t.pc ≠ .unlinked n) :
    Once { st.set i t with currentEpoche := e } := by
  have hlist : ∀ j, ((st.set i t).threads j).list.nodes = (st.threads j).list.nodes := by
    intro j
    by_cases hj : j = i
    · rw [hj, State.set_self, DeletionList.nodes, hlabels]
      rfl
    · rw [State.set_of_ne hj]
  refine h.move (fun _ => False) .linked (fun m w => ?_) (fun m => ?_) h.linked
    (fun j => ?_) h.freed
  · rw [not_false_eq_true, true_and, false_and, or_false]
    cases w with
    | linked => exact Iff.rfl
    | freed => exact Iff.rfl
    | hand j =>
        change ((st.set i t).threads j).pc = _ ↔ _
        by_cases hj : j = i
        · rw [hj, State.set_self]
          exact ⟨fun hpc => absurd hpc (hnew m), fun hpc => absurd hpc (hold m)⟩
        · rw [State.set_of_ne hj]
          exact Iff.rfl
    | listed j =>
        change m ∈ ((st.set i t).threads j).list.nodes ↔ _
        rw [hlist]
        exact Iff.rfl
  · rw [or_false]
    exact Iff.rfl
  · change ((st.set i t).threads j).list.nodes.Nodup
    rw [hlist]
    exact h.listed j

/-! ## The invariant -/

/-- A node that a thread may hold is in the tree, or its label is not older than the thread. -/
def Held (st : State ι) (i : ι) (n : Nat) : Prop :=
  n ∈ st.linked ∨ (∃ j, (st.threads j).pc = .unlinked n) ∨
    ∃ j, ∃ label ∈ (st.threads j).list.labels, n ∈ label.nodes ∧
      (st.threads i).list.localEpoche ≤ label.epoche

/-- The labels of the thread `j` that have nodes of the thread `k` are not older than `oldest`. -/
def Scanned (st : State ι) (j : ι) (oldest : UInt64) (k : ι) : Prop :=
  ∀ n ∈ (st.threads k).mayHold, ∀ label ∈ (st.threads j).list.labels, n ∈ label.nodes →
    oldest ≤ label.epoche

structure Inv (b : Nat) (st : State ι) : Prop where
  epoche : st.currentEpoche.toNat ≤ b
  once : Once st
  localEpoche : ∀ i, (st.threads i).pc.inOperation = true →
    (st.threads i).list.localEpoche ≤ st.currentEpoche
  entered : ∀ i e, (st.threads i).pc = .entered e → e ≤ st.currentEpoche
  label : ∀ i, ∀ label ∈ (st.threads i).list.labels, label.epoche ≤ st.currentEpoche
  count : ∀ i, (st.threads i).list.deletitionListCount = (st.threads i).list.nodes.length
  outside : ∀ i, (st.threads i).pc.inOperation = false → (st.threads i).mayHold = []
  held : ∀ i, ∀ n ∈ (st.threads i).mayHold, Held st i n
  scan : ∀ j todo oldest, (st.threads j).pc = .scan todo oldest → ∀ k, k ∉ todo →
    Scanned st j oldest k

omit [DecidableEq ι] in
/-- Who may hold a node is in an operation. -/
theorem Inv.inOperation {b : Nat} (h : Inv b st) {i : ι} (hn : n ∈ (st.threads i).mayHold) :
    (st.threads i).pc.inOperation = true := by
  by_contra hout
  rw [h.outside i (Bool.not_eq_true _ ▸ hout)] at hn
  cases hn

/-- What a step of the thread `i` has to keep. -/
structure Keeps (b : Nat) (st : State ι) (i : ι) (t : Thread ι) (st' : State ι) : Prop where
  threads : st'.threads = Function.update st.threads i t
  le : st.currentEpoche ≤ st'.currentEpoche
  epoche : st'.currentEpoche.toNat ≤ b + 1
  once : Once st'
  localEpoche : t.pc.inOperation = true → t.list.localEpoche ≤ st'.currentEpoche
  entered : ∀ e, t.pc = .entered e → e ≤ st'.currentEpoche
  label : ∀ label ∈ t.list.labels, label.epoche ≤ st'.currentEpoche
  count : t.list.deletitionListCount = t.list.nodes.length
  outside : t.pc.inOperation = false → t.mayHold = []
  mayHold : ∀ n ∈ t.mayHold, n ∈ st.linked ∨ n ∈ (st.threads i).mayHold
  held : ∀ k, ∀ n ∈ (st'.threads k).mayHold, Held st' k n
  scan : ∀ todo oldest, t.pc = .scan todo oldest → ∀ k, k ∉ todo → Scanned st' i oldest k

theorem Inv.of_keeps {b : Nat} (h : Inv b st) {i : ι} {t : Thread ι} (hk : Keeps b st i t st') :
    Inv (b + 1) st' := by
  have hself : st'.threads i = t := by
    rw [hk.threads, Function.update_self]
  have hother : ∀ j, j ≠ i → st'.threads j = st.threads j := fun j hj => by
    rw [hk.threads, Function.update_of_ne hj]
  refine
    { epoche := hk.epoche
      once := hk.once
      localEpoche := fun j hop => ?_
      entered := fun j e he => ?_
      label := fun j label hl => ?_
      count := fun j => ?_
      outside := fun j hout => ?_
      held := hk.held
      scan := fun j todo oldest hpc k hnot => ?_ }
  · by_cases hj : j = i
    · rw [hj, hself] at hop ⊢
      exact hk.localEpoche hop
    · rw [hother j hj] at hop ⊢
      exact (h.localEpoche j hop).trans hk.le
  · by_cases hj : j = i
    · rw [hj, hself] at he
      exact hk.entered e he
    · rw [hother j hj] at he
      exact (h.entered j e he).trans hk.le
  · by_cases hj : j = i
    · rw [hj, hself] at hl
      exact hk.label label hl
    · rw [hother j hj] at hl
      exact (h.label j label hl).trans hk.le
  · by_cases hj : j = i
    · rw [hj, hself]
      exact hk.count
    · rw [hother j hj]
      exact h.count j
  · by_cases hj : j = i
    · rw [hj, hself] at hout ⊢
      exact hk.outside hout
    · rw [hother j hj] at hout ⊢
      exact h.outside j hout
  · by_cases hj : j = i
    · rw [hj, hself] at hpc
      rw [hj]
      exact hk.scan todo oldest hpc k hnot
    · rw [hother j hj] at hpc
      intro n hn label hl hmem
      rw [hother j hj] at hl
      have hold : n ∈ st.linked ∨ n ∈ (st.threads k).mayHold := by
        by_cases hki : k = i
        · rw [hki, hself] at hn
          rw [hki]
          exact hk.mayHold n hn
        · rw [hother k hki] at hn
          exact .inr hn
      rcases hold with hlinked | hold
      · -- A node in the tree is in no label.
        have hplace : At st n (.listed j) := mem_nodesOf.2 ⟨label, hl, hmem⟩
        cases h.once.unique (w := .linked) hlinked hplace
      · exact h.scan j todo oldest hpc k hnot n hold label hl hmem

omit [DecidableEq ι] in
/-- A node stays held when the tree, the nodes in hand and the labels stay the same. -/
theorem Held.of_same {k : ι} (hheld : Held st k n) (hlinked : n ∈ st.linked → n ∈ st'.linked)
    (hpc : ∀ j, (st.threads j).pc = .unlinked n → (st'.threads j).pc = .unlinked n)
    (hlabels : ∀ j, (st'.threads j).list.labels = (st.threads j).list.labels)
    (hlocal : (st'.threads k).list.localEpoche = (st.threads k).list.localEpoche) :
    Held st' k n := by
  rcases hheld with hn | ⟨j, hj⟩ | ⟨j, label, hl, hmem, hle⟩
  · exact .inl (hlinked hn)
  · exact .inr (.inl ⟨j, hpc j hj⟩)
  · refine .inr (.inr ⟨j, label, ?_, hmem, ?_⟩)
    · rwa [hlabels]
    · rwa [hlocal]

/-! ## Steps that move no node -/

section Quiet

variable {b : Nat} (h : Inv b st) {i : ι}
include h

/-- A step that leaves the labels alone.  What the thread may hold from now on is in the tree. -/
theorem Inv.quiet {t : Thread ι} {e : UInt64} (hle : st.currentEpoche ≤ e)
    (he : e.toNat ≤ b + 1) (hlabels : t.list.labels = (st.threads i).list.labels)
    (hcount : t.list.deletitionListCount = (st.threads i).list.deletitionListCount)
    (hold : ∀ n, (st.threads i).pc ≠ .unlinked n) (hnew : ∀ n, t.pc ≠ .unlinked n)
    (hlocal : t.pc.inOperation = true → t.list.localEpoche ≤ e)
    (hentered : ∀ e', t.pc = .entered e' → e' ≤ e)
    (houtside : t.pc.inOperation = false → t.mayHold = [])
    (hmayHold : ∀ n ∈ t.mayHold, n ∈ st.linked)
    (hscan : ∀ todo oldest, t.pc = .scan todo oldest → ∀ k, k ∉ todo → Scanned st i oldest k) :
    Inv (b + 1) { st.set i t with currentEpoche := e } := by
  have hself : (st.set i t).threads i = t := State.set_self i t
  have hsame : ∀ j, ((st.set i t).threads j).list.labels = (st.threads j).list.labels := by
    intro j
    by_cases hj : j = i
    · rw [hj, hself, hlabels]
    · rw [State.set_of_ne hj]
  refine h.of_keeps (i := i) (t := t)
    { threads := rfl
      le := hle
      epoche := he
      once := h.once.set hlabels hold hnew
      localEpoche := hlocal
      entered := hentered
      label := fun label hl => (h.label i label (hlabels ▸ hl)).trans hle
      count := by
        rw [hcount, h.count, DeletionList.nodes, DeletionList.nodes, hlabels]
      outside := houtside
      mayHold := fun n hn => .inl (hmayHold n hn)
      held := fun k n hn => ?_
      scan := fun todo oldest hpc k hk n hn label hl hmem => ?_ }
  · change n ∈ ((st.set i t).threads k).mayHold at hn
    by_cases hk : k = i
    · rw [hk, hself] at hn
      exact .inl (hmayHold n hn)
    · rw [State.set_of_ne hk] at hn
      refine (h.held k n hn).of_same id (fun j hj => ?_) hsame ?_
      · have hne : j ≠ i := by
          rintro rfl
          exact hold n hj
        exact (congrArg Thread.pc (State.set_of_ne hne t)).trans hj
      · exact congrArg (fun t : Thread ι => t.list.localEpoche) (State.set_of_ne hk t)
  · change n ∈ ((st.set i t).threads k).mayHold at hn
    change label ∈ ((st.set i t).threads i).list.labels at hl
    rw [hsame] at hl
    by_cases hki : k = i
    · rw [hki, hself, houtside (by rw [hpc]; rfl)] at hn
      cases hn
    · rw [State.set_of_ne hki] at hn
      exact hscan todo oldest hpc k hk n hn label hl hmem

/-- A thread that is not in an operation, before and after. -/
theorem Inv.quiet_outside {t : Thread ι} (hlabels : t.list.labels = (st.threads i).list.labels)
    (hcount : t.list.deletitionListCount = (st.threads i).list.deletitionListCount)
    (hold : (st.threads i).pc.inOperation = false) (hnew : t.pc.inOperation = false)
    (hhold : t.mayHold = (st.threads i).mayHold)
    (hentered : ∀ e, t.pc = .entered e → e ≤ st.currentEpoche)
    (hscan : ∀ todo oldest, t.pc = .scan todo oldest → ∀ k, k ∉ todo → Scanned st i oldest k) :
    Inv (b + 1) (st.set i t) := by
  have hempty : t.mayHold = [] := hhold.trans (h.outside i hold)
  refine h.quiet (e := st.currentEpoche) le_rfl (h.epoche.trans (Nat.le_succ _)) hlabels hcount
    (fun n hpc => ?_) (fun n hpc => ?_) (fun hop => ?_) hentered (fun _ => hempty)
    (fun n hn => ?_) hscan
  · rw [hpc] at hold
    cases hold
  · rw [hpc] at hnew
    cases hnew
  · rw [hnew] at hop
    cases hop
  · rw [hempty] at hn
    cases hn

omit [DecidableEq ι] in
/-- A node of a label that a thread may hold protects the label. -/
theorem label_protected {j : ι} {n : Nat} {label : LabelDelete}
    (hn : n ∈ (st.threads j).mayHold) (hl : label ∈ (st.threads i).list.labels)
    (hmem : n ∈ label.nodes) : (st.threads j).list.localEpoche ≤ label.epoche := by
  have hplace : At st n (.listed i) := mem_nodesOf.2 ⟨label, hl, hmem⟩
  rcases h.held j n hn with hlinked | ⟨j', hj'⟩ | ⟨j', label', hl', hmem', hle⟩
  · cases h.once.unique (w := .linked) hlinked hplace
  · cases h.once.unique (w := .hand j') hj' hplace
  · cases h.once.unique (w := .listed j') (mem_nodesOf.2 ⟨label', hl', hmem'⟩) hplace
    rwa [label_unique (h.once.listed i) hl hl' hmem hmem']

omit h in
/-- The operation of a thread is over. -/
theorem Inv.leave (h : Inv b st) {t : Thread ι} {e : UInt64} (hle : st.currentEpoche ≤ e)
    (he : e.toNat ≤ b + 1) (hpc : (st.threads i).pc = .inside)
    (hlist : t.list = (st.threads i).list) (hnew : t.pc.inOperation = false)
    (hempty : t.mayHold = []) (hentered : ∀ e', t.pc ≠ .entered e')
    (hscan : ∀ todo oldest, t.pc ≠ .scan todo oldest) :
    Inv (b + 1) { st.set i t with currentEpoche := e } := by
  refine h.quiet hle he (congrArg DeletionList.labels hlist)
    (congrArg DeletionList.deletitionListCount hlist) (fun m hm => ?_) (fun m hm => ?_)
    (fun hop => ?_) (fun e' he' => absurd he' (hentered e')) (fun _ => hempty) (fun m hm => ?_)
    (fun todo oldest hs => absurd hs (hscan todo oldest))
  · cases hpc.symm.trans hm
  · rw [hm] at hnew
    cases hnew
  · rw [hnew] at hop
    cases hop
  · rw [hempty] at hm
    cases hm

/-- One more local epoch is read. -/
theorem Inv.scanNext {j : ι} {todo : List ι} {oldest : UInt64}
    (hpc : (st.threads i).pc = .scan (j :: todo) oldest) {e : UInt64}
    (he : e = (st.threads j).list.localEpoche) :
    Inv (b + 1)
      (st.set i { st.threads i with pc := .scan todo (if e < oldest then e else oldest) }) := by
  refine h.quiet_outside rfl rfl ?_ rfl rfl (fun e' he' => ?_) ?_
  · rw [hpc]
    rfl
  · cases he'
  · intro todo' oldest' heq k hk n hn label hl hmem
    cases heq
    by_cases hkj : k = j
    · have hle := label_protected h hn hl hmem
      rw [hkj, ← he] at hle
      split
      · exact hle
      · rename_i hlt
        exact (not_lt.1 hlt).trans hle
    · have hle := h.scan i _ oldest hpc k (fun hmem' => (mem_cons.1 hmem').elim hkj hk) n hn label
        hl hmem
      split
      · rename_i hlt
        exact hlt.le.trans hle
      · exact hle

end Quiet

/-! ## Steps that move nodes -/

section Moving

omit [DecidableEq ι] in
theorem linkNode_thread (st : State ι) (j : ι) :
    (st.linkNode.threads j).list = (st.threads j).list ∧
      (st.linkNode.threads j).pc = (st.threads j).pc ∧
      ∀ n ∈ (st.linkNode.threads j).mayHold, n = st.allocated ∨ n ∈ (st.threads j).mayHold := by
  simp only [State.linkNode]
  split
  · exact ⟨rfl, rfl, fun n hn => mem_cons.1 hn⟩
  · exact ⟨rfl, rfl, fun n hn => .inr hn⟩

variable {b : Nat} (h : Inv b st) {i : ι}
include h

omit [DecidableEq ι] in
theorem Inv.linkNode : Inv (b + 1) st.linkNode := by
  have hfresh : ∀ w, ¬ At st st.allocated w := fun w hw =>
    lt_irrefl _ ((h.once.allocated _).2 ⟨w, hw⟩)
  have hlist : ∀ j, (st.linkNode.threads j).list = (st.threads j).list := fun j =>
    (linkNode_thread st j).1
  have hpc : ∀ j, (st.linkNode.threads j).pc = (st.threads j).pc := fun j =>
    (linkNode_thread st j).2.1
  have hat : ∀ m w, At st.linkNode m w ↔
      ¬ m = st.allocated ∧ At st m w ∨ m = st.allocated ∧ w = .linked := by
    intro m w
    have hother : (At st.linkNode m w ↔ At st m w) → w ≠ .linked →
        (At st.linkNode m w ↔
          ¬ m = st.allocated ∧ At st m w ∨ m = st.allocated ∧ w = .linked) := by
      intro hsame hw
      rw [hsame]
      constructor
      · refine fun hm => .inl ⟨?_, hm⟩
        rintro rfl
        exact hfresh w hm
      · rintro (⟨-, hm⟩ | ⟨-, hw'⟩)
        · exact hm
        · exact absurd hw' hw
    cases w with
    | linked =>
        change m ∈ st.allocated :: st.linked ↔ _
        rw [mem_cons]
        constructor
        · rintro (rfl | hm)
          · exact .inr ⟨rfl, rfl⟩
          · refine .inl ⟨?_, hm⟩
            rintro rfl
            exact hfresh .linked hm
        · rintro (⟨-, hm⟩ | ⟨hm, -⟩)
          · exact .inr hm
          · exact .inl hm
    | hand j => exact hother (by rw [At, hpc, At]) (fun heq => by cases heq)
    | listed j => exact hother (by rw [At, hlist, At]) (fun heq => by cases heq)
    | freed => exact hother Iff.rfl (fun heq => by cases heq)
  refine
    { epoche := h.epoche.trans (Nat.le_succ _)
      once := h.once.move (· = st.allocated) .linked hat (fun m => ?_)
        (nodup_cons.2 ⟨hfresh .linked, h.once.linked⟩)
        (fun j => ?_) h.once.freed
      localEpoche := fun j hop => ?_
      entered := fun j e he => ?_
      label := fun j label hl => ?_
      count := fun j => ?_
      outside := fun j hout => ?_
      held := fun k n hn => ?_
      scan := fun j todo oldest hs k hk n hn label hl hmem => ?_ }
  · change m < st.allocated + 1 ↔ _
    omega
  · rw [hlist]
    exact h.once.listed j
  · rw [hpc] at hop
    rw [hlist]
    exact h.localEpoche j hop
  · rw [hpc] at he
    exact h.entered j e he
  · rw [hlist] at hl
    exact h.label j label hl
  · rw [hlist]
    exact h.count j
  · rw [hpc] at hout
    simp only [State.linkNode, hout, Bool.false_eq_true, if_false]
    exact h.outside j hout
  · rcases (linkNode_thread st k).2.2 n hn with rfl | hold
    · exact .inl mem_cons_self
    · rcases h.held k n hold with hlinked | ⟨j, hj⟩ | ⟨j, label, hl, hmem, hle⟩
      · exact .inl (mem_cons_of_mem _ hlinked)
      · exact .inr (.inl ⟨j, (hpc j).trans hj⟩)
      · refine .inr (.inr ⟨j, label, ?_, hmem, ?_⟩)
        · rw [hlist]
          exact hl
        · rw [hlist]
          exact hle
  · rw [hpc] at hs
    rw [hlist] at hl
    rcases (linkNode_thread st k).2.2 n hn with rfl | hold
    · exact absurd (mem_nodesOf.2 ⟨label, hl, hmem⟩) (hfresh (.listed j))
    · exact h.scan j todo oldest hs k hk n hold label hl hmem

/-- A node is taken out of the tree. -/
theorem Inv.unlink (hpc : (st.threads i).pc = .inside) (hn : n ∈ st.linked) :
    Inv (b + 1) { st.set i { st.threads i with pc := .unlinked n } with
      linked := st.linked.erase n } := by
  have hself : (st.set i { st.threads i with pc := .unlinked n }).threads i =
      { st.threads i with pc := .unlinked n } := State.set_self ..
  have hlist : ∀ j, ((st.set i { st.threads i with pc := .unlinked n }).threads j).list =
      (st.threads j).list := by
    intro j
    by_cases hj : j = i
    · rw [hj, hself]
    · rw [State.set_of_ne hj]
  have hinside : ∀ m, (st.threads i).pc ≠ .unlinked m := fun m => by
    rw [hpc]
    exact fun heq => by cases heq
  have hop : (st.threads i).pc.inOperation = true := by
    rw [hpc]
    rfl
  refine h.of_keeps (i := i) (t := { st.threads i with pc := .unlinked n })
    { threads := rfl
      le := le_rfl
      epoche := h.epoche.trans (Nat.le_succ _)
      once := h.once.transfer (· = n) .linked (.hand i)
        (fun heq => by cases heq) (fun m hm => hm ▸ hn) (fun m => ?_) (fun m => ?_)
        (fun m w hw hw' => ?_) rfl (h.once.linked.erase _) (fun j => ?_) h.once.freed
      localEpoche := fun _ => h.localEpoche i hop
      entered := fun e he => by cases he
      label := h.label i
      count := h.count i
      outside := fun hout => by cases hout
      mayHold := fun _ hm => .inr hm
      held := fun k m hm => ?_
      scan := fun todo oldest hs => by cases hs }
  · change m ∈ st.linked.erase n ↔ _
    rw [h.once.linked.mem_erase_iff, and_comm]
    rfl
  · change ((st.set i _).threads i).pc = .unlinked m ↔ _
    rw [hself]
    constructor
    · intro heq
      cases heq
      exact .inr rfl
    · rintro (hold | rfl)
      · exact absurd hold (hinside m)
      · rfl
  · cases w with
    | linked => exact absurd rfl hw
    | freed => exact Iff.rfl
    | listed j =>
        change m ∈ ((st.set i _).threads j).list.nodes ↔ _
        rw [hlist]
        rfl
    | hand j =>
        change ((st.set i _).threads j).pc = .unlinked m ↔ _
        rw [State.set_of_ne fun hj => hw' (congrArg Place.hand hj)]
        rfl
  · change ((st.set i _).threads j).list.nodes.Nodup
    rw [hlist]
    exact h.once.listed j
  · change m ∈ ((st.set i _).threads k).mayHold at hm
    have hold : m ∈ (st.threads k).mayHold := by
      by_cases hk : k = i
      · rw [hk, hself] at hm
        exact hk ▸ hm
      · rwa [State.set_of_ne hk] at hm
    by_cases hmn : m = n
    · refine .inr (.inl ⟨i, ?_⟩)
      rw [hmn]
      exact congrArg Thread.pc hself
    · refine (h.held k m hold).of_same (fun hl => (mem_erase_of_ne hmn).2 hl) (fun j hj => ?_)
        (fun j => congrArg DeletionList.labels (hlist j))
        (congrArg DeletionList.localEpoche (hlist k))
      have hne : j ≠ i := by
        rintro rfl
        exact hinside m hj
      exact (congrArg Thread.pc (State.set_of_ne hne _)).trans hj

/-- A node that was taken out gets into the deletion list of its thread. -/
theorem Inv.mark (hpc : (st.threads i).pc = .unlinked n) {counter : UInt64} :
    Inv (b + 1) (st.set i { st.threads i with
      list := { (st.threads i).list.add n st.currentEpoche with thresholdCounter := counter }
      pc := .inside }) := by
  have hself : (st.set i { st.threads i with
      list := { (st.threads i).list.add n st.currentEpoche with thresholdCounter := counter }
      pc := .inside }).threads i = { st.threads i with
        list := { (st.threads i).list.add n st.currentEpoche with thresholdCounter := counter }
        pc := .inside } := State.set_self ..
  have hperm := nodesOf_addLabel n st.currentEpoche (st.threads i).list.labels
  have hnone : ¬ At st n (.listed i) := fun hat => by
    have hhand : At st n (.hand i) := hpc
    cases h.once.unique hat hhand
  have hop : (st.threads i).pc.inOperation = true := by
    rw [hpc]
    rfl
  refine h.of_keeps (i := i)
    { threads := rfl
      le := le_rfl
      epoche := h.epoche.trans (Nat.le_succ _)
      once := h.once.transfer (· = n) (.hand i) (.listed i)
        (fun heq => by cases heq) (fun m hm => hm ▸ hpc) (fun m => ?_) (fun m => ?_)
        (fun m w hw hw' => ?_) rfl h.once.linked (fun j => ?_) h.once.freed
      localEpoche := fun _ => h.localEpoche i hop
      entered := fun e he => by cases he
      label := fun label hl => ?_
      count := ?_
      outside := fun hout => by cases hout
      mayHold := fun _ hm => .inr hm
      held := fun k m hm => ?_
      scan := fun todo oldest hs => by cases hs }
  · change ((st.set i _).threads i).pc = .unlinked m ↔ (st.threads i).pc = .unlinked m ∧ _
    rw [hself, hpc]
    constructor
    · intro heq
      cases heq
    · rintro ⟨heq, hne⟩
      cases heq
      exact absurd rfl hne
  · change m ∈ ((st.set i _).threads i).list.nodes ↔ _
    rw [hself, or_comm]
    exact hperm.mem_iff.trans mem_cons
  · cases w with
    | linked => exact Iff.rfl
    | freed => exact Iff.rfl
    | hand j =>
        change ((st.set i _).threads j).pc = .unlinked m ↔ _
        rw [State.set_of_ne fun hj => hw (congrArg Place.hand hj)]
        rfl
    | listed j =>
        change m ∈ ((st.set i _).threads j).list.nodes ↔ _
        rw [State.set_of_ne fun hj => hw' (congrArg Place.listed hj)]
        rfl
  · by_cases hj : j = i
    · rw [hj, hself]
      exact (hperm.nodup_iff).2 (nodup_cons.2 ⟨hnone, h.once.listed i⟩)
    · rw [State.set_of_ne hj]
      exact h.once.listed j
  · rcases epoche_of_mem_addLabel hl with heq | hold
    · exact heq.le
    · exact h.label i label hold
  · exact (congrArg (· + 1) (h.count i)).trans hperm.length_eq.symm
  · change m ∈ ((st.set i _).threads k).mayHold at hm
    have hold : m ∈ (st.threads k).mayHold := by
      by_cases hk : k = i
      · rw [hk, hself] at hm
        exact hk ▸ hm
      · rwa [State.set_of_ne hk] at hm
    have hlocal : ((st.set i { st.threads i with
        list := { (st.threads i).list.add n st.currentEpoche with thresholdCounter := counter }
        pc := .inside }).threads k).list.localEpoche = (st.threads k).list.localEpoche := by
      by_cases hk : k = i
      · rw [hk, hself]
        rfl
      · rw [State.set_of_ne hk]
    obtain ⟨⟨label₁, hl₁, hmem₁, he₁⟩, hnewer⟩ := addLabel_newer n st.currentEpoche
      (st.threads i).list.labels
    rcases h.held k m hold with hlinked | ⟨j, hj⟩ | ⟨j, label, hl, hmem, hle⟩
    · exact .inl hlinked
    · by_cases hji : j = i
      · -- It is the node that is marked: its label is from now.
        rw [hji, hpc] at hj
        cases hj
        refine .inr (.inr ⟨i, label₁, ?_, hmem₁, ?_⟩)
        · rw [hself]
          exact hl₁
        · rw [hlocal, he₁]
          exact h.localEpoche k (h.inOperation hold)
      · exact .inr (.inl ⟨j, (congrArg Thread.pc (State.set_of_ne hji _)).trans hj⟩)
    · by_cases hji : j = i
      · subst hji
        obtain ⟨label', hl', hsub, hle'⟩ := hnewer label hl (h.label j label hl)
        refine .inr (.inr ⟨j, label', ?_, hsub hmem, ?_⟩)
        · rw [hself]
          exact hl'
        · rw [hlocal]
          exact hle.trans hle'
      · refine .inr (.inr ⟨j, label, ?_, hmem, ?_⟩)
        · rw [State.set_of_ne hji]
          exact hl
        · rw [hlocal]
          exact hle

omit [DecidableEq ι] h in
theorem nodes_sweep (d : DeletionList) (oldest : UInt64) :
    nodesOf (d.expired oldest) ++ (d.sweep oldest).nodes ~ d.nodes := by
  rw [DeletionList.nodes, nodesOf, nodesOf, ← flatMap_append]
  exact (filter_append_perm _ d.labels).flatMap_right _

/-- The labels that are older than what the scan has found are freed. -/
theorem Inv.sweep {oldest : UInt64} (hpc : (st.threads i).pc = .scan [] oldest) :
    Inv (b + 1) { st.set i { st.threads i with
        list := (st.threads i).list.sweep oldest
        pc := .outside } with
      freed := st.freed ++ nodesOf ((st.threads i).list.expired oldest) } := by
  have hself : (st.set i { st.threads i with
      list := (st.threads i).list.sweep oldest
      pc := .outside }).threads i = { st.threads i with
        list := (st.threads i).list.sweep oldest
        pc := .outside } := State.set_self ..
  have hperm := nodes_sweep (st.threads i).list oldest
  have hnodup := hperm.nodup_iff.2 (h.once.listed i)
  have hempty : (st.threads i).mayHold = [] := h.outside i (by rw [hpc]; rfl)
  have hexpired : ∀ m ∈ nodesOf ((st.threads i).list.expired oldest), At st m (.listed i) :=
    fun m hm => hperm.subset (mem_append_left _ hm)
  refine h.of_keeps (i := i)
    { threads := rfl
      le := le_rfl
      epoche := h.epoche.trans (Nat.le_succ _)
      once := h.once.transfer (· ∈ nodesOf ((st.threads i).list.expired oldest))
        (.listed i) .freed (fun heq => by cases heq) hexpired (fun m => ?_)
        (fun m => mem_append) (fun m w hw hw' => ?_) rfl h.once.linked (fun j => ?_) ?_
      localEpoche := fun hop => by cases hop
      entered := fun e he => by cases he
      label := fun label hl => h.label i label (mem_filter.1 hl).1
      count := ?_
      outside := fun _ => hempty
      mayHold := fun m hm => .inr hm
      held := fun k m hm => ?_
      scan := fun todo oldest' hs => by cases hs }
  · change m ∈ ((st.set i _).threads i).list.nodes ↔ m ∈ (st.threads i).list.nodes ∧ _
    rw [hself, ← hperm.mem_iff, mem_append]
    have hdisjoint := (nodup_append'.1 hnodup).2.2
    constructor
    · exact fun hm => ⟨.inr hm, fun hm' => hdisjoint hm' hm⟩
    · rintro ⟨hm | hm, hnot⟩
      · exact absurd hm hnot
      · exact hm
  · cases w with
    | linked => exact Iff.rfl
    | freed => exact absurd rfl hw'
    | hand j =>
        change ((st.set i _).threads j).pc = .unlinked m ↔ (st.threads j).pc = .unlinked m
        by_cases hj : j = i
        · rw [hj, hself, hpc]
          exact ⟨fun heq => (by cases heq), fun heq => by cases heq⟩
        · rw [State.set_of_ne hj]
    | listed j =>
        change m ∈ ((st.set i _).threads j).list.nodes ↔ _
        rw [State.set_of_ne fun hj => hw (congrArg Place.listed hj)]
        rfl
  · change ((st.set i _).threads j).list.nodes.Nodup
    by_cases hj : j = i
    · rw [hj, hself]
      exact (nodup_append'.1 hnodup).2.1
    · rw [State.set_of_ne hj]
      exact h.once.listed j
  · refine nodup_append'.2 ⟨h.once.freed, (nodup_append'.1 hnodup).1, fun m hm hm' => ?_⟩
    cases h.once.unique (w := .freed) hm (hexpired m hm')
  · have hlength := hperm.length_eq
    rw [length_append] at hlength
    change (st.threads i).list.deletitionListCount - _ =
      ((st.threads i).list.sweep oldest).nodes.length
    rw [h.count i]
    omega
  · change m ∈ ((st.set i _).threads k).mayHold at hm
    have hk : k ≠ i := by
      rintro rfl
      rw [hself, hempty] at hm
      cases hm
    rw [State.set_of_ne hk] at hm
    rcases h.held k m hm with hlinked | ⟨j, hj⟩ | ⟨j, label, hl, hmem, hle⟩
    · exact .inl hlinked
    · have hji : j ≠ i := by
        rintro rfl
        cases hpc.symm.trans hj
      exact .inr (.inl ⟨j, (congrArg Thread.pc (State.set_of_ne hji _)).trans hj⟩)
    · have hlocal : ((st.set i { st.threads i with
          list := (st.threads i).list.sweep oldest
          pc := .outside }).threads k).list.localEpoche ≤ label.epoche := by
        rwa [State.set_of_ne hk]
      refine .inr (.inr ⟨j, label, ?_, hmem, hlocal⟩)
      by_cases hji : j = i
      · subst hji
        -- The scan has seen the thread that may hold the node.
        have hkept := h.scan j [] oldest hpc k not_mem_nil m hm label hl hmem
        rw [hself]
        exact mem_filter.2 ⟨hl, by simpa using hkept⟩
      · rw [State.set_of_ne hji]
        exact hl

end Moving

/-! ## Runs -/

section Runs

variable {all : List ι} {steps : Nat}

omit [DecidableEq ι] in
theorem Initial.inv (h : Initial st) : Inv 0 st where
  epoche := by
    rw [h.currentEpoche]
    exact le_rfl
  once :=
    { unique := fun {m w w'} hw hw' => by
        have hlinked : ∀ w, At st m w → w = .linked := by
          intro w hat
          cases w with
          | linked => rfl
          | hand i => cases (h.pc i).symm.trans hat
          | listed i =>
              rw [At, DeletionList.nodes, h.labels] at hat
              cases hat
          | freed =>
              rw [At, h.freed] at hat
              cases hat
        rw [hlinked w hw, hlinked w' hw']
      allocated := fun m => by
        rw [h.allocated, Nat.lt_one_iff]
        constructor
        · rintro rfl
          refine ⟨.linked, ?_⟩
          rw [At, h.linked]
          exact mem_cons_self
        · rintro ⟨w, hw⟩
          cases w with
          | linked =>
              rw [At, h.linked] at hw
              exact mem_singleton.1 hw
          | hand i => cases (h.pc i).symm.trans hw
          | listed i =>
              rw [At, DeletionList.nodes, h.labels] at hw
              cases hw
          | freed =>
              rw [At, h.freed] at hw
              cases hw
      linked := by
        rw [h.linked]
        exact nodup_singleton 0
      listed := fun i => by
        rw [DeletionList.nodes, h.labels]
        exact nodup_nil
      freed := by
        rw [h.freed]
        exact nodup_nil }
  localEpoche i hop := by
    rw [h.pc] at hop
    cases hop
  entered i e he := by cases (h.pc i).symm.trans he
  label i label hl := by
    rw [h.labels] at hl
    cases hl
  count i := by
    rw [h.count, DeletionList.nodes, h.labels]
    rfl
  outside i _ := h.mayHold i
  held i m hm := by
    rw [h.mayHold] at hm
    cases hm
  scan j todo oldest hs := by cases (h.pc j).symm.trans hs

/-- An epoch is counted up without overflow. -/
theorem epoche_succ {e : UInt64} {b : Nat} (h : e.toNat ≤ b) (hb : b < 2 ^ 64 - 1) :
    (e + 1).toNat = e.toNat + 1 := by
  rw [UInt64.toNat_add]
  exact Nat.mod_eq_of_lt (by change e.toNat + 1 < _; omega)

theorem inv_of_step (hall : ∀ i, i ∈ all) {b : Nat} (hb : b < 2 ^ 64 - 1) {a : Agent ι}
    (h : Inv b st) (hs : step all a st = some st') : Inv (b + 1) st' := by
  cases a with
  | enterEpoche i =>
      simp only [step] at hs
      split at hs
      · rename_i hpc
        obtain rfl := Option.some.inj hs
        refine h.quiet_outside rfl rfl (by rw [hpc]; rfl) rfl rfl (fun e he => ?_) ?_
        · cases he
          exact le_rfl
        · intro todo oldest hs
          cases hs
      · cases hs
  | storeEpoche i =>
      simp only [step] at hs
      split at hs
      · rename_i e hpc
        obtain rfl := Option.some.inj hs
        refine h.quiet (e := st.currentEpoche) le_rfl (h.epoche.trans (Nat.le_succ _)) rfl rfl
          (fun m hm => ?_) (fun m hm => ?_) (fun _ => h.entered i e hpc) (fun e' he => ?_)
          (fun hout => ?_) (fun m hm => hm) (fun todo oldest hs => ?_)
        · cases hpc.symm.trans hm
        · cases hm
        · cases he
        · cases hout
        · cases hs
      · cases hs
  | link i =>
      simp only [step] at hs
      split at hs
      · obtain rfl := Option.some.inj hs
        exact h.linkNode
      · cases hs
  | unlink i m =>
      simp only [step] at hs
      split at hs
      · rename_i hpc
        split at hs
        · rename_i hm
          obtain rfl := Option.some.inj hs
          exact h.unlink hpc hm
        · cases hs
      · cases hs
  | markNodeForDeletion i =>
      simp only [step] at hs
      split at hs
      · rename_i m hpc
        obtain rfl := Option.some.inj hs
        exact h.mark hpc
      · cases hs
  | exitReadonly i =>
      simp only [step] at hs
      split at hs
      · rename_i hpc
        obtain rfl := Option.some.inj hs
        refine h.leave le_rfl (h.epoche.trans (Nat.le_succ _)) hpc rfl rfl rfl
          (fun e he => ?_) (fun todo oldest hs => ?_)
        · cases he
        · cases hs
      · cases hs
  | exitEpoche i =>
      simp only [step] at hs
      split at hs
      · rename_i hpc
        obtain rfl := Option.some.inj hs
        have hsucc := epoche_succ h.epoche hb
        have hle : st.currentEpoche ≤ st.currentEpoche + 1 :=
          UInt64.le_iff_toNat_le.2 (hsucc ▸ Nat.le_succ _)
        refine h.leave ?_ ?_ hpc rfl rfl rfl (fun e he => ?_) (fun todo oldest hs => ?_)
        · split
          · exact hle
          · exact le_rfl
        · split
          · exact hsucc ▸ Nat.succ_le_succ h.epoche
          · exact h.epoche.trans (Nat.le_succ _)
        · cases he
        · cases hs
      · cases hs
  | cleanup i =>
      simp only [step] at hs
      split at hs
      · rename_i hpc
        obtain rfl := Option.some.inj hs
        have hout : (st.threads i).pc.inOperation = false := by
          rw [hpc]
          rfl
        split
        · split
          · refine h.quiet_outside rfl rfl hout rfl rfl (fun e he => ?_) (fun todo oldest hs => ?_)
            · cases he
            · cases hs
          · refine h.quiet_outside rfl rfl hout rfl rfl (fun e he => ?_)
              (fun todo oldest hs k hk => ?_)
            · cases he
            · cases hs
              exact absurd (hall k) hk
        · refine h.quiet_outside rfl rfl hout rfl rfl (fun e he => ?_) (fun todo oldest hs => ?_)
          · cases he
          · cases hs
      · cases hs
  | scan i =>
      simp only [step] at hs
      split at hs
      · rename_i j todo oldest hpc
        obtain rfl := Option.some.inj hs
        exact h.scanNext hpc rfl
      · rename_i oldest hpc
        obtain rfl := Option.some.inj hs
        exact h.sweep hpc
      · cases hs
  | destroyThreadInfo i =>
      simp only [step] at hs
      split at hs
      · rename_i hpc
        obtain rfl := Option.some.inj hs
        have hout : (st.threads i).pc.inOperation = false := by
          rw [hpc]
          rfl
        refine h.quiet_outside rfl rfl hout hout rfl (fun e he => ?_) (fun todo oldest hs => ?_)
        · cases hpc.symm.trans he
        · cases hpc.symm.trans hs
      · cases hs

theorem inv_of_run (hall : ∀ i, i ∈ all) (hinit : Initial st)
    (hrun : (system all).Run (fun _ => True) steps st st') (hsteps : steps < 2 ^ 64) :
    Inv steps st' := by
  have h := hrun.invariant Inv (2 ^ 64 - 1)
    (fun _ _ _ _ hb _ h hs => inv_of_step hall hb h hs) (by omega) hinit.inv
  rwa [Nat.zero_add] at h

/-- Thread 1 takes the node 1 out while thread 0 is in an operation, and does not free it.  Then
thread 0 takes the node 2 out and frees it. -/
def reclaim : List (Agent Bool) :=
  [.enterEpoche false, .storeEpoche false, .enterEpoche true, .storeEpoche true, .link true,
    .unlink true 1, .markNodeForDeletion true, .exitEpoche true, .cleanup true, .scan true,
    .scan true, .scan true, .link false, .unlink false 2, .markNodeForDeletion false,
    .exitEpoche false, .cleanup false, .scan false, .scan false, .scan false]

/-- Both threads are just below the threshold. -/
def belowThreshold : State Bool where
  currentEpoche := 0
  allocated := 1
  linked := [0]
  freed := []
  threads _ :=
    { list := ⟨[], 0, 0, startGCThreshhold⟩
      pc := .outside
      mayHold := [] }

theorem initial_belowThreshold : Initial belowThreshold where
  currentEpoche := rfl
  allocated := rfl
  linked := rfl
  freed := rfl
  labels _ := rfl
  count _ := rfl
  pc _ := rfl
  mayHold _ := rfl

def Thread.gone {ι : Type} (t : Thread ι) : Bool :=
  match t.pc with
  | .outside => t.list.localEpoche == maxEpoche
  | _ => false

theorem Thread.gone_iff {ι : Type} {t : Thread ι} :
    t.gone = true ↔ t.pc = .outside ∧ t.list.localEpoche = maxEpoche := by
  unfold Thread.gone
  split
  · rename_i hpc
    rw [beq_iff_eq, hpc]
    exact ⟨fun h => ⟨rfl, h⟩, And.right⟩
  · rename_i hpc
    exact ⟨fun h => (by cases h), fun h => absurd h.1 hpc⟩

/-- In every run, a node is either in the tree, or taken out by one thread, or in the list of one
thread, or freed, and it is freed once. -/
theorem node_at_one_place (hall : ∀ i, i ∈ all) (hinit : Initial st)
    (hrun : (system all).Run (fun _ => True) steps st st') (hsteps : steps < 2 ^ 64) :
    (∀ n, n < st'.allocated → ∃! w, At st' n w) ∧ (∀ n w, At st' n w → n < st'.allocated) ∧
      st'.freed.Nodup ∧ ∀ i, (st'.threads i).list.nodes.Nodup := by
  have h := (inv_of_run hall hinit hrun hsteps).once
  refine ⟨fun n hn => ?_, fun n w hw => (h.allocated n).2 ⟨w, hw⟩, h.freed, h.listed⟩
  obtain ⟨w, hw⟩ := (h.allocated n).1 hn
  exact ⟨w, hw, fun w' hw' => h.unique hw' hw⟩

theorem node_at_one_place_reclaim : ∃ st',
    (system [false, true]).Run (fun _ => True) 20 belowThreshold st' ∧ st'.allocated = 3 ∧
      st'.freed = [2] ∧ ∃! w, At st' 1 w := by
  obtain ⟨st', hrun, hp⟩ := System.Run.exists_of_exec (system [false, true]) (fun _ => True)
    reclaim belowThreshold (p := fun st => st.freed == [2] && st.allocated == 3)
    (fun _ _ => trivial) (by decide +kernel)
  obtain ⟨hfreed, hallocated⟩ := Bool.and_eq_true_iff.1 hp
  have hallocated := beq_iff_eq.1 hallocated
  refine ⟨st', hrun, hallocated, beq_iff_eq.1 hfreed, ?_⟩
  exact (node_at_one_place (by decide) initial_belowThreshold hrun (by decide)).1 1
    (by rw [hallocated]; decide)

omit [DecidableEq ι] in
theorem foldl_oldest_eq {e₀ : UInt64} (hlocal : ∀ i ∈ all, (st.threads i).list.localEpoche = e₀) :
    all.foldl (fun oldest i =>
      let e := (st.threads i).list.localEpoche
      if e < oldest then e else oldest) e₀ = e₀ := by
  induction all with
  | nil => rfl
  | cons i rest ih =>
      rw [foldl_cons, hlocal i mem_cons_self, if_neg (lt_irrefl _)]
      exact ih fun j hj => hlocal j (mem_cons_of_mem i hj)

/-- In every run, when all threads have gone, the assertions of the destructor hold.  The nodes in
the tree, those that were freed before and those that it frees are all nodes, each of them once. -/
theorem destructor_frees (hall : ∀ i, i ∈ all) (hnodup : all.Nodup) (hinit : Initial st)
    (hrun : (system all).Run (fun _ => True) steps st st') (hsteps : steps < 2 ^ 64 - 1)
    (hgone : ∀ i, (st'.threads i).pc = .outside ∧ (st'.threads i).list.localEpoche = maxEpoche) :
    ∃ rest, destroy all st' = some rest ∧
      st'.linked ++ st'.freed ++ rest ~ range st'.allocated := by
  have h := inv_of_run hall hinit hrun (hsteps.trans_le (Nat.sub_le _ _))
  refine ⟨all.flatMap fun i => (st'.threads i).list.nodes, ?_, ?_⟩
  · rw [destroy, foldl_oldest_eq fun i _ => (hgone i).2]
    refine if_pos (Bool.and_eq_true_iff.2 ⟨?_, ?_⟩)
    · refine all_eq_true.2 fun i _ => all_eq_true.2 fun label hl => decide_eq_true ?_
      have hle := UInt64.le_iff_toNat_le.1 (h.label i label hl)
      have hmax : maxEpoche.toNat = 2 ^ 64 - 1 := rfl
      rw [UInt64.lt_iff_toNat_lt, hmax]
      exact (hle.trans h.epoche).trans_lt hsteps
    · exact all_eq_true.2 fun i _ => beq_iff_eq.2 (h.count i)
  · have hlists : (all.flatMap fun i => (st'.threads i).list.nodes).Nodup := by
      refine nodup_flatMap.2 ⟨fun i _ => h.once.listed i, hnodup.imp fun hne m hm hm' => hne ?_⟩
      cases h.once.unique (w := .listed _) hm (show At st' m (.listed _) from hm')
      rfl
    rw [append_assoc]
    refine (perm_ext_iff_of_nodup (nodup_append'.2 ⟨h.once.linked, nodup_append'.2
      ⟨h.once.freed, hlists, fun m hm hm' => ?_⟩, fun m hm hm' => ?_⟩) nodup_range).2 fun m => ?_
    · obtain ⟨i, -, hi⟩ := mem_flatMap.1 hm'
      cases h.once.unique (w := .freed) hm (show At st' m (.listed i) from hi)
    · rcases mem_append.1 hm' with hfreed | hrest
      · cases h.once.unique (w := .linked) hm (show At st' m .freed from hfreed)
      · obtain ⟨i, -, hi⟩ := mem_flatMap.1 hrest
        cases h.once.unique (w := .linked) hm (show At st' m (.listed i) from hi)
    · rw [mem_range, h.once.allocated, mem_append, mem_append, mem_flatMap]
      constructor
      · rintro (hm | hm | ⟨i, -, hm⟩)
        · exact ⟨.linked, hm⟩
        · exact ⟨.freed, hm⟩
        · exact ⟨.listed i, hm⟩
      · rintro ⟨w, hw⟩
        cases w with
        | linked => exact .inl hw
        | hand i => cases (hgone i).1.symm.trans hw
        | listed i => exact .inr (.inr ⟨i, hall i, hw⟩)
        | freed => exact .inr (.inl hw)

theorem destructor_frees_reclaim : ∃ st',
    (system [false, true]).Run (fun _ => True) 22 belowThreshold st' ∧ st'.freed = [2] ∧
      ∃ rest, destroy [false, true] st' = some rest ∧
        st'.linked ++ st'.freed ++ rest ~ range st'.allocated := by
  obtain ⟨st', hrun, hp⟩ := System.Run.exists_of_exec (system [false, true]) (fun _ => True)
    (reclaim ++ [.destroyThreadInfo false, .destroyThreadInfo true]) belowThreshold
    (p := fun st => st.freed == [2] && [false, true].all fun i => (st.threads i).gone)
    (fun _ _ => trivial) (by decide +kernel)
  obtain ⟨hfreed, hgone⟩ := Bool.and_eq_true_iff.1 hp
  refine ⟨st', hrun, beq_iff_eq.1 hfreed, destructor_frees (by decide) (by decide)
    initial_belowThreshold hrun (by decide) fun i => ?_⟩
  exact Thread.gone_iff.1 (all_eq_true.1 hgone i (by cases i <;> decide))

end Runs

end Places

end Epoche
end TLI
