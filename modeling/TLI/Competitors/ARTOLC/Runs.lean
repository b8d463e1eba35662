import TLI.Competitors.ARTOLC.Links
import TLI.Encoding

/-!
# Runs — `ART_OLC::Tree` under all interleavings of lookups and inserts

`Inv` holds in every state that a run reaches in fewer than `2 ^ 60 - 2` steps: as long as no
version overflows.

* `lookup_linearizable` — what a lookup returns was so between its call and its return;
* `insert_atomic` — an insert adds its leaf in one step, and only if no leaf has the key;
* `locks_exclusive` — a node is locked by one thread, and by none when no insert is under way;
* `nodes_fit` — no node gets more children than it has room for;
* `crash_of_split` — an insert reads beyond a prefix only if the node was split in the meantime.
-/

namespace TLI
namespace ARTOLC

open List RadixGraph Transition

variable {ι : Type} {loadKey : TID → List UInt8} {keys : List UInt8 → Prop} {G : Ghost}
  {st st' : State ι} {P : ι → Prop} {b : Nat}

/-! ## The invariant -/

def Pc.held : Pc → List Nat
  | .insert _ pc => pc.held
  | _ => []

def Pc.pending : Pc → List Nat
  | .insert _ pc => pc.pending
  | _ => []

def Pc.retiring : Pc → List Nat
  | .insert _ pc => pc.retiring
  | _ => []

theorem Pc.pending_subset (pc : Pc) : pc.pending ⊆ pc.held := by
  cases pc with
  | insert tid pc => exact pc.pending_subset
  | _ => exact nil_subset _

theorem Pc.retiring_subset (pc : Pc) : pc.retiring ⊆ pc.held := by
  cases pc with
  | insert tid pc => exact pc.retiring_subset
  | _ => exact nil_subset _

/-- What a thread knows.  `P` stands for: the key of its lookup was there when the call began. -/
def Facts (loadKey : TID → List UInt8) (keys : List UInt8 → Prop) (G : Ghost) (s : Shared)
    (P : Prop) : Pc → Prop
  | .idle => True
  | .lookup k pc => keys k ∧ (P → Present loadKey s k) ∧ LookupFacts loadKey G s k P pc
  | .insert tid pc => keys (loadKey tid) ∧ InsertFacts loadKey G s (loadKey tid) tid pc

theorem Facts.mono {G G' : Ghost} {s s' : Shared} {touched : Nat → Prop} {P : Prop} {pc : Pc}
    (h : Evolves G s G' s' touched) (hheld : HeldOK s touched pc.held)
    (hfacts : Facts loadKey keys G s P pc) : Facts loadKey keys G' s' P pc := by
  cases pc with
  | idle => trivial
  | lookup k pc =>
      obtain ⟨hk, hP, hfacts⟩ := hfacts
      exact ⟨hk, fun hp => (hP hp).mono h, hfacts.mono h⟩
  | insert tid pc =>
      obtain ⟨hk, hfacts⟩ := hfacts
      exact ⟨hk, hfacts.mono h hheld⟩

/-- `n` belongs to a thread other than `i`. -/
def Others (st : State ι) (nodes : Pc → List Nat) (i : ι) (n : Nat) : Prop :=
  ∃ j, j ≠ i ∧ n ∈ nodes (st.pc j)

structure Inv (loadKey : TID → List UInt8) (keys : List UInt8 → Prop) (P : ι → Prop) (b : Nat)
    (G : Ghost) (st : State ι) : Prop where
  tree : Tree loadKey keys G (fun n => ∃ i, n ∈ (st.pc i).pending)
    (fun n => ∃ i, n ∈ (st.pc i).retiring) st.shared
  room : ∀ n, n < st.shared.allocated → version (st.shared.word n) ≤ b + 1
  held : ∀ i, ∀ n ∈ (st.pc i).held, HeldNode st.shared n
  exclusive : ∀ i j n, n ∈ (st.pc i).held → n ∈ (st.pc j).held → i = j
  owner : ∀ n, n < st.shared.allocated → isLocked (st.shared.word n) = true →
    ∃ i, n ∈ (st.pc i).held
  facts : ∀ i, Facts loadKey keys G st.shared (P i) (st.pc i)

theorem Inv.settled (h : Inv loadKey keys P b G st) :
    Settled st.shared (fun n => ∃ i, n ∈ (st.pc i).pending)
      (fun n => ∃ i, n ∈ (st.pc i).retiring) := by
  refine fun n hfree => ⟨?_, ?_⟩
  · rintro ⟨i, hi⟩
    exact not_free_of_isLocked (h.held i n (Pc.pending_subset _ hi)).2.1 hfree
  · rintro ⟨i, hi⟩
    exact not_free_of_isLocked (h.held i n (Pc.retiring_subset _ hi)).2.1 hfree

/-- The nodes of the other threads are not those of this one. -/
theorem Inv.others (h : Inv loadKey keys P b G st) {nodes : Pc → List Nat}
    (hnodes : ∀ pc, nodes pc ⊆ Pc.held pc) {i : ι} {n : Nat} (hn : Others st nodes i n) :
    isLocked (st.shared.word n) = true ∧ n ∉ (st.pc i).held := by
  obtain ⟨j, hj, hmem⟩ := hn
  exact ⟨(h.held j n (hnodes _ hmem)).2.1, fun hmem' =>
    hj (h.exclusive j i n (hnodes _ hmem) hmem')⟩

/-! ## Steps -/

section Step

variable [DecidableEq ι]

/-- What the steps of the threads do. -/
inductive Moves (loadKey : TID → List UInt8) (keys : List UInt8 → Prop) (st : State ι) :
    Agent ι → State ι → Prop
  | lookup {i : ι} {k : List UInt8} : st.pc i = .idle → keys k →
      Moves loadKey keys st (.lookup i k) (st.setPc i (.lookup k .restart))
  | insert {i : ι} {tid : TID} : st.pc i = .idle → keys (loadKey tid) →
      Moves loadKey keys st (.insert i tid) (st.setPc i (.insert tid .restart))
  | runLookup {i : ι} {torn : Torn} {k : List UInt8} {pc pc' : LookupPc} :
      st.pc i = .lookup k pc → lookupStep loadKey k st.shared torn pc = some pc' →
      Moves loadKey keys st (.run i torn) (st.setPc i (.lookup k pc'))
  | runInsert {i : ι} {torn : Torn} {tid : TID} {pc pc' : InsertPc} {e : Effect} :
      st.pc i = .insert tid pc → insertStep loadKey tid st.shared torn pc = some (e, pc') →
      Moves loadKey keys st (.run i torn)
        ⟨st.shared.apply e, Function.update st.pc i (.insert tid pc')⟩
  | return_ {i : ι} : (st.pc i).held = [] → Moves loadKey keys st (.return_ i) (st.setPc i .idle)

theorem moves_of_step [DecidablePred keys] {a : Agent ι}
    (hstep : step loadKey keys a st = some st') : Moves loadKey keys st a st' := by
  cases a with
  | lookup i k =>
      cases hpc : st.pc i with
      | idle =>
          simp only [step, hpc] at hstep
          split at hstep
          · rename_i hk
            cases hstep
            exact .lookup hpc hk
          · cases hstep
      | _ => simp [step, hpc] at hstep
  | insert i tid =>
      cases hpc : st.pc i with
      | idle =>
          simp only [step, hpc] at hstep
          split at hstep
          · rename_i hk
            cases hstep
            exact .insert hpc hk
          · cases hstep
      | _ => simp [step, hpc] at hstep
  | run i torn =>
      cases hpc : st.pc i with
      | idle => simp [step, hpc] at hstep
      | lookup k pc =>
          simp only [step, hpc, Option.map_eq_some_iff] at hstep
          obtain ⟨pc', hnext, rfl⟩ := hstep
          exact .runLookup hpc hnext
      | insert tid pc =>
          simp only [step, hpc, Option.map_eq_some_iff] at hstep
          obtain ⟨⟨e, pc'⟩, hnext, rfl⟩ := hstep
          exact .runInsert hpc hnext
  | return_ i =>
      cases hpc : st.pc i with
      | idle => simp [step, hpc] at hstep
      | lookup k pc =>
          cases pc with
          | done r =>
              simp only [step, hpc] at hstep
              cases hstep
              exact .return_ (by rw [hpc]; rfl)
          | _ => simp [step, hpc] at hstep
      | insert tid pc =>
          cases pc with
          | done =>
              simp only [step, hpc] at hstep
              cases hstep
              exact .return_ (by rw [hpc]; rfl)
          | _ => simp [step, hpc] at hstep

theorem update_others {nodes : Pc → List Nat} {i : ι} (pc : Pc) {n : Nat} :
    (∃ j, n ∈ nodes (Function.update st.pc i pc j)) ↔ n ∈ nodes pc ∨ Others st nodes i n := by
  constructor
  · rintro ⟨j, hj⟩
    by_cases hji : j = i
    · rw [hji, Function.update_self] at hj
      exact .inl hj
    · rw [Function.update_of_ne hji] at hj
      exact .inr ⟨j, hji, hj⟩
  · rintro (hn | ⟨j, hji, hj⟩)
    · exact ⟨i, by rwa [Function.update_self]⟩
    · exact ⟨j, by rwa [Function.update_of_ne hji]⟩

/-- A step of the thread `i`. -/
theorem Inv.update (h : Inv loadKey keys P b G st) {i : ι} {pc : Pc} {G' : Ghost} {s' : Shared}
    {touched : Nat → Prop} (hevolves : Evolves G st.shared G' s' touched)
    (htouched : ∀ n, touched n → n ∈ (st.pc i).held ∨ Free (st.shared.word n))
    (htree : Tree loadKey keys G' (fun n => n ∈ pc.pending ∨ Others st Pc.pending i n)
      (fun n => n ∈ pc.retiring ∨ Others st Pc.retiring i n) s')
    (hfacts : Facts loadKey keys G' s' (P i) pc) (hheld : ∀ n ∈ pc.held, HeldNode s' n)
    (htakes : ∀ n ∈ pc.held, n ∈ (st.pc i).held ∨ Free (st.shared.word n))
    (howner : ∀ n, n < s'.allocated → isLocked (s'.word n) = true → n ∈ pc.held ∨
      n < st.shared.allocated ∧ isLocked (st.shared.word n) = true ∧ n ∉ (st.pc i).held)
    (hroom : ∀ n, n < s'.allocated → version (s'.word n) ≤ b + 2) :
    Inv loadKey keys P (b + 1) G' ⟨s', Function.update st.pc i pc⟩ := by
  -- The nodes of the other threads are not touched.
  have hother : ∀ j, j ≠ i → HeldOK st.shared touched (st.pc j).held := by
    refine fun j hj => ⟨fun n hn => (h.held j n hn).1, fun n hn ht => ?_⟩
    rcases htouched n ht with hmem | hfree
    · exact hj (h.exclusive j i n hn hmem)
    · exact not_free_of_isLocked (h.held j n hn).2.1 hfree
  have hdisjoint : ∀ j, j ≠ i → ∀ n ∈ pc.held, n ∉ (st.pc j).held := by
    intro j hj n hn hn'
    rcases htakes n hn with hmem | hfree
    · exact hj (h.exclusive j i n hn' hmem)
    · exact not_free_of_isLocked (h.held j n hn').2.1 hfree
  refine
    { tree := htree.mono (fun n hn => (update_others _).2 hn) fun n hn => (update_others _).2 hn
      room := hroom
      held := ?_
      exclusive := ?_
      owner := ?_
      facts := ?_ }
  · intro j n hn
    change n ∈ (Function.update st.pc i pc j).held at hn
    by_cases hj : j = i
    · rw [hj, Function.update_self] at hn
      exact hheld n hn
    · rw [Function.update_of_ne hj] at hn
      obtain ⟨hlt, hlocked, hobs⟩ := h.held j n hn
      have hsame := hevolves.unchanged hlt ((hother j hj).untouched n hn)
      rw [HeldNode, hsame.word]
      exact ⟨hlt.trans_le hevolves.allocated, hlocked, hobs⟩
  · intro j j' n hn hn'
    change n ∈ (Function.update st.pc i pc j).held at hn
    change n ∈ (Function.update st.pc i pc j').held at hn'
    by_cases hj : j = i
    · by_cases hj' : j' = i
      · rw [hj, hj']
      · rw [hj, Function.update_self] at hn
        rw [Function.update_of_ne hj'] at hn'
        exact absurd hn' (hdisjoint j' hj' n hn)
    · rw [Function.update_of_ne hj] at hn
      by_cases hj' : j' = i
      · rw [hj', Function.update_self] at hn'
        exact absurd hn (hdisjoint j hj n hn')
      · rw [Function.update_of_ne hj'] at hn'
        exact h.exclusive j j' n hn hn'
  · intro n hn hlocked
    refine (update_others _).2 ((howner n hn hlocked).imp_right ?_)
    rintro ⟨hlt, hlocked', hmem⟩
    obtain ⟨j, hj⟩ := h.owner n hlt hlocked'
    refine ⟨j, ?_, hj⟩
    rintro rfl
    exact hmem hj
  · intro j
    change Facts loadKey keys G' s' (P j) (Function.update st.pc i pc j)
    by_cases hj : j = i
    · rw [hj, Function.update_self]
      exact hfacts
    · rw [Function.update_of_ne hj]
      exact (h.facts j).mono hevolves (hother j hj)

/-- The tree as the thread `i` sees it. -/
theorem Inv.tree_of (h : Inv loadKey keys P b G st) (i : ι) :
    Tree loadKey keys G (fun n => n ∈ (st.pc i).pending ∨ Others st Pc.pending i n)
      (fun n => n ∈ (st.pc i).retiring ∨ Others st Pc.retiring i n) st.shared := by
  refine h.tree.mono (fun n hn => ?_) fun n hn => ?_
  · refine (update_others (st.pc i)).1 ?_
    rwa [Function.update_eq_self]
  · refine (update_others (st.pc i)).1 ?_
    rwa [Function.update_eq_self]

/-- A step of a thread that holds no lock and writes nothing. -/
theorem Inv.setPc (h : Inv loadKey keys P b G st) {i : ι} {pc : Pc} (hold : (st.pc i).held = [])
    (hnew : pc.held = []) (hfacts : Facts loadKey keys G st.shared (P i) pc) :
    Inv loadKey keys P (b + 1) G (st.setPc i pc) := by
  have hempty : ∀ n, n ∉ pc.held := by
    rw [hnew]
    exact fun n => not_mem_nil
  refine h.update .refl (fun n hn => hn.elim) ?_ hfacts (fun n hn => absurd hn (hempty n))
    (fun n hn => absurd hn (hempty n)) (fun n hn hlocked => ?_)
    fun n hn => (h.room n hn).trans (Nat.le_succ _)
  · refine (h.tree_of i).mono (fun n => Or.imp_left fun hn => ?_) fun n => Or.imp_left fun hn => ?_
    · exact absurd (hold ▸ Pc.pending_subset _ hn) not_mem_nil
    · exact absurd (hold ▸ Pc.retiring_subset _ hn) not_mem_nil
  · refine .inr ⟨hn, hlocked, ?_⟩
    rw [hold]
    exact not_mem_nil

omit [DecidableEq ι] in
theorem Inv.mine (h : Inv loadKey keys P b G st) {i : ι} {tid : TID} {pc : InsertPc}
    (hpc : st.pc i = .insert tid pc) :
    Mine st.shared (Others st Pc.pending i) (Others st Pc.retiring i) pc where
  held n hn := h.held i n (by rw [hpc]; exact hn)
  pending n hn := by
    have hmine := h.others Pc.pending_subset hn
    rwa [hpc] at hmine
  retiring n hn := by
    have hmine := h.others Pc.retiring_subset hn
    rwa [hpc] at hmine

/-- What a step of an insert leaves behind, whatever the other threads do. -/
theorem Inv.outcome (h : Inv loadKey keys P b G st) (hkeys : KeySet keys) (hb : b + 2 < 2 ^ 60)
    {i : ι} {tid : TID} {pc pc' : InsertPc} {torn : Torn} {e : Effect}
    (hpc : st.pc i = .insert tid pc)
    (hstep : insertStep loadKey tid st.shared torn pc = some (e, pc')) :
    ∃ G', Outcome loadKey keys (Others st Pc.pending i) (Others st Pc.retiring i) tid G st.shared
      pc G' (st.shared.apply e) pc' := by
  have htree := h.tree_of i
  have hfacts := h.facts i
  rw [hpc] at htree hfacts
  refine insertStep_ok hkeys hfacts.1 (h.mine hpc) htree (fun n hn => ?_) hfacts.2 hstep
  have hroom := h.room n hn
  omega

theorem Inv.insert (h : Inv loadKey keys P b G st) {i : ι} {tid : TID} {pc pc' : InsertPc}
    {G' : Ghost} {s' : Shared} (hpc : st.pc i = .insert tid pc)
    (hok : Outcome loadKey keys (Others st Pc.pending i) (Others st Pc.retiring i) tid G st.shared
      pc G' s' pc') :
    Inv loadKey keys P (b + 1) G' ⟨s', Function.update st.pc i (.insert tid pc')⟩ := by
  obtain ⟨touched, hevolves, htouched⟩ := hok.evolves
  have hk : keys (loadKey tid) := by
    have hfacts := h.facts i
    rw [hpc] at hfacts
    exact hfacts.1
  refine h.update hevolves ?_ hok.tree ⟨hk, hok.facts⟩ hok.held ?_ ?_ fun n hn => ?_
  · rw [hpc]
    exact htouched
  · rw [hpc]
    exact hok.takes
  · rw [hpc]
    exact hok.owner
  · rcases hok.room n hn with hnew | ⟨hlt, hold⟩
    · exact hnew.trans (Nat.le_add_left _ _)
    · exact hold.trans (Nat.succ_le_succ (h.room n hlt))

variable [DecidablePred keys]

/-- Every step preserves the invariant.  When a lookup is called, `P` has to be false for now. -/
theorem Inv.step (h : Inv loadKey keys P b G st) (hkeys : KeySet keys) (hb : b + 2 < 2 ^ 60)
    {a : Agent ι} (hcall : ∀ i k, a = .lookup i k → st.pc i = .idle → ¬ P i)
    (hstep : step loadKey keys a st = some st') : ∃ G', Inv loadKey keys P (b + 1) G' st' := by
  cases moves_of_step hstep with
  | @lookup i k hidle hk =>
      exact ⟨G, h.setPc (by rw [hidle]; rfl) rfl
        ⟨hk, fun hp => absurd hp (hcall i k rfl hidle), trivial⟩⟩
  | @insert i tid hidle hk =>
      exact ⟨G, h.setPc (by rw [hidle]; rfl) rfl ⟨hk, entry_restart h.tree.root_lt⟩⟩
  | @runLookup i torn k pc pc' hpc hnext =>
      have hfacts := h.facts i
      rw [hpc] at hfacts
      obtain ⟨hk, hP, hfacts⟩ := hfacts
      exact ⟨G, h.setPc (by rw [hpc]; rfl) rfl ⟨hk, hP,
        lookupStep_facts h.tree h.settled hkeys hk hP hnext hfacts⟩⟩
  | @runInsert i torn tid pc pc' e hpc hnext =>
      obtain ⟨G', hok⟩ := h.outcome hkeys hb hpc hnext
      exact ⟨G', h.insert hpc hok⟩
  | return_ hheld => exact ⟨G, h.setPc hheld rfl trivial⟩

end Step

/-! ## Two threads -/

/-- Keys of one length. -/
theorem keySet_length {n : Nat} (hn : 0 < n) : KeySet fun k => k.length = n where
  ne_nil hk hnil := by
    rw [hnil] at hk
    exact absurd hk hn.ne
  eq_of_prefix hk hk' h := h.eq_of_length (hk.trans hk'.symm)

/-- The keys that `convert2Key` makes of a key type with more than one key. -/
theorem keySet_convert2String (K : Type) [LinearOrder K] [KeyType K] [LawfulKeyType K]
    [Nontrivial K] : KeySet fun k => ∃ a : K, convert2String a = k where
  ne_nil := by
    rintro k ⟨a, rfl⟩ hnil
    obtain ⟨b, hb⟩ := exists_ne a
    exact hb (eq_of_initial (hnil ▸ nil_prefix)).symm
  eq_of_prefix := by
    rintro _ _ ⟨a, rfl⟩ ⟨b, rfl⟩ h
    rw [eq_of_initial h]

/-- Two threads, elements that are their own keys, and an empty tree. -/
def twoThreads : System (State Bool) (Agent Bool) :=
  system (fun tid : TID => convert2String tid) fun k => k.length = 8

def emptyTree : State Bool where
  shared :=
    { allocated := 1
      word := fun _ => initialWord .N256
      prefixCount := fun _ => 0
      prefixBytes := fun _ => []
      children := fun _ _ => none }
  pc _ := .idle

theorem initial_emptyTree : Initial emptyTree :=
  ⟨rfl, rfl, rfl, rfl, fun _ _ => rfl, fun _ => rfl⟩

/-- `n` steps of a thread that never collides with a writer. -/
def alone (i : Bool) (n : Nat) : List (Agent Bool) :=
  replicate n (.run i ⟨none, 0, [], 0⟩)

theorem ne_return_of_mem_alone {i j : Bool} {n : Nat} {a : Agent Bool} (h : a ∈ alone i n) :
    a ≠ .return_ j := by
  rintro rfl
  cases eq_of_mem_replicate h

/-- Two keys with a prefix of three bytes behind the first one, and the call of a third insert. -/
def beforeSplit : List (Agent Bool) :=
  .insert false 0x0102030405060708 :: alone false 8 ++
  .return_ false :: .insert false 0x0102030499060708 :: alone false 7 ++
  [.return_ false, .insert true 0x0102039905060708]

/-- The third key does not match at the last byte of the prefix, and a fourth one splits the node
before the prefix is copied. -/
def splitInBetween : List (Agent Bool) :=
  alone true 12 ++ .insert false 0x0102990405060708 :: alone false 16

/-- In between, thread 0 is about to unlock the node, and thread 1 to copy the prefix. -/
def State.inBetween (st : State Bool) : Bool :=
  match st.pc false, st.pc true with
  | .insert _ (.unlock n), .insert tid (.copyShort a j _) =>
      n == 1 && tid == 0x0102039905060708 && decide (st.shared.prefixCount a.node ≤ j)
  | _, _ => false

theorem exists_inBetween : ∃ st, twoThreads.Run (fun _ => True) 49 emptyTree st ∧
    st.inBetween = true :=
  Transition.System.Run.exists_of_exec twoThreads _ (beforeSplit ++ splitInBetween) emptyTree
    (fun _ _ => trivial) (by decide +kernel)

theorem State.inBetween_pc {st : State Bool} (h : st.inBetween = true) :
    (∃ tid, st.pc false = .insert tid (.unlock 1)) ∧ ∃ a j c,
      st.pc true = .insert 0x0102039905060708 (.copyShort a j c) ∧
        st.shared.prefixCount a.node ≤ j := by
  unfold State.inBetween at h
  split at h
  · rename_i hfirst hsecond
    simp only [Bool.and_eq_true, beq_iff_eq, decide_eq_true_eq] at h
    obtain ⟨⟨rfl, rfl⟩, hshort⟩ := h
    exact ⟨⟨_, hfirst⟩, _, _, _, hsecond, hshort⟩
  · cases h

/-! ## Runs -/

theorem inv_initial (h : Initial st) : ∃ G, Inv loadKey keys (fun _ => False) 0 G st := by
  have hno : ∀ {n b r}, st.shared.children n b ≠ some r := by
    intro n b r
    rw [h.children]
    exact fun hsome => by cases hsome
  have hroot : ∀ {n}, n < st.shared.allocated → n = root := by
    intro n hn
    rw [h.allocated] at hn
    exact Nat.lt_one_iff.1 hn
  have hheld : ∀ i, (st.pc i).held = [] := by
    intro i
    rw [h.pc]
    rfl
  refine ⟨⟨fun _ => [], fun _ => 0⟩,
    { tree :=
        { root_lt := by
            rw [h.allocated]
            exact Nat.one_pos
          root_label := rfl
          root_count := h.prefixCount
          root_type := by
            rw [h.word]
            exact getType_initialWord _
          lt := fun hedge => absurd hedge hno
          fresh := fun _ b => h.children _ b
          labelled := ⟨fun hedge => absurd hedge hno, fun hedge => absurd hedge hno⟩
          keys := fun hedge => absurd hedge hno
          entry := fun _ hedge => absurd hedge hno
          count := fun hn _ => by
            rw [hroot hn, h.prefixCount]
            rfl
          bytes := fun hn _ => by
            rw [hroot hn, h.prefixBytes]
            rfl
          live := fun hn => .inl (hroot hn ▸ .root)
          inhabited := fun hn hne => absurd (hroot hn) hne
          fits := fun {n} _ => by
            have hnone : st.shared.children n = fun _ => none := funext (h.children n)
            rw [Shared.count, hnone, countChildren_none]
            exact Nat.zero_le _ }
      room := fun n hn => by
        rw [hroot hn, h.word, version_initialWord]
      held := fun i n hn => by
        rw [hheld] at hn
        cases hn
      exclusive := fun i j n hn => by
        rw [hheld] at hn
        cases hn
      owner := fun n hn hlocked => by
        rw [hroot hn, h.word, (free_initialWord _).1] at hlocked
        cases hlocked
      facts := fun i => by
        rw [h.pc]
        trivial }⟩

section Runs

variable [DecidableEq ι] [DecidablePred keys] {s₀ : State ι} {n : Nat}

theorem inv_of_run (hkeys : KeySet keys) (hinit : Initial s₀)
    (hrun : (system loadKey keys).Run (fun _ => True) n s₀ st) (hn : n + 2 ≤ 2 ^ 60) :
    ∃ G, Inv loadKey keys (fun _ => False) n G st := by
  have hinv := Transition.System.Run.invariant
    (fun b st => ∃ G, Inv loadKey keys (fun _ => False) b G st) (2 ^ 60 - 2) ?_ hrun (by omega)
    (inv_initial hinit)
  · rwa [Nat.zero_add] at hinv
  · rintro a b s t hb - ⟨G, h⟩ hstep
    exact h.step hkeys (by omega) (fun _ _ _ _ hfalse => hfalse) hstep

/-- As long as it does not return, a lookup goes on with its key. -/
theorem lookup_pc_step {i : ι} {k : List UInt8} {a : Agent ι} (hreturn : a ≠ .return_ i)
    (hpc : ∃ pc, st.pc i = .lookup k pc) (hstep : step loadKey keys a st = some st') :
    ∃ pc, st'.pc i = .lookup k pc := by
  obtain ⟨pc, hpc⟩ := hpc
  -- A step of another thread leaves the place alone.
  have hother : ∀ {j : ι} {shared : Shared} {pcj pc' : Pc}, st.pc j = pcj → pcj ≠ .lookup k pc →
      ∃ pc₁, (State.mk shared (Function.update st.pc j pc')).pc i = .lookup k pc₁ := by
    intro j shared pcj pc' hj hne
    refine ⟨pc, (Function.update_of_ne ?_ ..).trans hpc⟩
    rintro rfl
    exact hne (hj.symm.trans hpc)
  cases moves_of_step hstep with
  | lookup hidle _ => exact hother hidle Pc.noConfusion
  | insert hidle _ => exact hother hidle Pc.noConfusion
  | @runLookup j torn k' pc₁ pc' hpcj _ =>
      by_cases hj : j = i
      · rw [hj, hpc] at hpcj
        cases hpcj
        exact ⟨pc', hj ▸ Function.update_self ..⟩
      · exact ⟨pc, (Function.update_of_ne (Ne.symm hj) ..).trans hpc⟩
  | runInsert hpcj _ => exact hother hpcj Pc.noConfusion
  | @return_ j hheld =>
      exact ⟨pc, (Function.update_of_ne (fun hj => hreturn (congrArg _ hj.symm)) ..).trans hpc⟩

/-- A lookup that returns a leaf returns one that is stored and has the key.  It returns
`util::OVERFLOW` only if the key was not there when it was called. -/
theorem lookup_linearizable (hkeys : KeySet keys) (hinit : Initial s₀) {st₁ st₂ : State ι}
    {m : Nat} (hreach : (system loadKey keys).Run (fun _ => True) m s₀ st₁) {i : ι}
    {k : List UInt8} (hcall : st₁.pc i = .lookup k .restart)
    (hrun : (system loadKey keys).Run (fun a => a ≠ .return_ i) n st₁ st₂)
    (hbound : m + n + 2 ≤ 2 ^ 60) {r : Option TID} (hdone : st₂.pc i = .lookup k (.done r)) :
    (∀ t, r = some t → Stored st₂.shared t ∧ loadKey t = k) ∧
      (r = none → ¬ Present loadKey st₁.shared k) := by
  obtain ⟨G, h⟩ := inv_of_run hkeys hinit hreach (by omega)
  -- From the call on, `P` is what the call has found.
  have h' : Inv loadKey keys (fun j => j = i ∧ Present loadKey st₁.shared k) m G st₁ := by
    refine { h with facts := fun j => ?_ }
    by_cases hj : j = i
    · have hfacts := h.facts j
      rw [hj, hcall] at hfacts ⊢
      exact ⟨hfacts.1, And.right, trivial⟩
    · have hsame : (j = i ∧ Present loadKey st₁.shared k) = False :=
        propext ⟨fun hp => hj hp.1, False.elim⟩
      rw [hsame]
      exact h.facts j
  have hinv := Transition.System.Run.invariant
    (fun b st => (∃ G, Inv loadKey keys (fun j => j = i ∧ Present loadKey st₁.shared k) b G st) ∧
      ∃ pc, st.pc i = .lookup k pc) (2 ^ 60 - 2) ?_ hrun (by omega) ⟨⟨G, h'⟩, _, hcall⟩
  · obtain ⟨⟨G', h''⟩, -⟩ := hinv
    have hfacts := h''.facts i
    rw [hdone] at hfacts
    obtain ⟨-, -, hfacts⟩ := hfacts
    cases r with
    | none =>
        refine ⟨fun t ht => ?_, fun _ hp => hfacts ⟨rfl, hp⟩⟩
        cases ht
    | some t =>
        refine ⟨fun t' ht' => ?_, fun hnone => ?_⟩
        · cases ht'
          exact hfacts
        · cases hnone
  · rintro a b s t hb hreturn ⟨⟨G', h''⟩, hpc⟩ hstep
    refine ⟨h''.step hkeys (by omega) ?_ hstep, lookup_pc_step hreturn hpc hstep⟩
    rintro j k' rfl hidle ⟨rfl, -⟩
    obtain ⟨pc, hpc⟩ := hpc
    rw [hidle] at hpc
    cases hpc

def State.calls (st : State Bool) (k : List UInt8) : Bool :=
  match st.pc true with
  | .lookup k' .restart => k' == k
  | _ => false

def State.returns (st : State Bool) (k : List UInt8) (tid : TID) : Bool :=
  match st.pc true with
  | .lookup k' (.done (some t)) => k' == k && t == tid
  | _ => false

/-- Thread 0 has inserted a key, and thread 1 looks it up. -/
def insertThenCall : List (Agent Bool) :=
  .insert false 0x0102030405060708 :: alone false 8 ++
    [.lookup true (convert2String (0x0102030405060708 : UInt64))]

theorem State.calls_pc {st : State Bool} {k : List UInt8} (h : st.calls k = true) :
    st.pc true = .lookup k .restart := by
  unfold State.calls at h
  split at h
  · rename_i hpc
    rw [hpc, beq_iff_eq.1 h]
  · cases h

theorem State.returns_pc {st : State Bool} {k : List UInt8} {tid : TID}
    (h : st.returns k tid = true) : st.pc true = .lookup k (.done (some tid)) := by
  unfold State.returns at h
  split at h
  · rename_i hpc
    simp only [Bool.and_eq_true, beq_iff_eq] at h
    rw [hpc, h.1, h.2]
  · cases h

theorem lookup_linearizable_two_threads : ∃ st₁ st₂,
    twoThreads.Run (fun a => a ≠ .return_ true) 5 st₁ st₂ ∧
      st₂.pc true = .lookup (convert2String (0x0102030405060708 : UInt64))
        (.done (some 0x0102030405060708)) ∧
      Stored st₂.shared 0x0102030405060708 := by
  obtain ⟨st₁, hreach, hboth⟩ := Transition.System.Run.exists_of_exec twoThreads
    (fun _ => True) insertThenCall emptyTree
    (p := fun st => st.calls (convert2String (0x0102030405060708 : UInt64)) &&
      (twoThreads.exec (alone true 5) st).any fun st => st.returns
        (convert2String (0x0102030405060708 : UInt64)) 0x0102030405060708)
    (fun _ _ => trivial) (by decide +kernel)
  obtain ⟨hcall, hrest⟩ := Bool.and_eq_true_iff.1 hboth
  obtain ⟨st₂, hrun, hdone⟩ := Transition.System.Run.exists_of_exec twoThreads
    (fun a => a ≠ .return_ true) _ st₁
    (fun a ha => ne_return_of_mem_alone ha) hrest
  have hpc := State.returns_pc hdone
  exact ⟨st₁, st₂, hrun, hpc, ((lookup_linearizable (keySet_length (by decide))
    initial_emptyTree hreach (State.calls_pc hcall) hrun (by decide) hpc).1 _ rfl).1⟩

/-- The leaves that are stored have different keys, an insert that is done has a leaf with its
key, and every step leaves the leaves as they are or is that of an insert and adds its leaf: then no
leaf had its key. -/
theorem insert_atomic (hkeys : KeySet keys) (hinit : Initial s₀)
    (hrun : (system loadKey keys).Run (fun _ => True) n s₀ st) (hn : n + 2 < 2 ^ 60) :
    (∀ t t', Stored st.shared t → Stored st.shared t' → loadKey t = loadKey t' → t = t') ∧
      (∀ i tid, st.pc i = .insert tid .done → Present loadKey st.shared (loadKey tid)) ∧
      ∀ a st', step loadKey keys a st = some st' →
        (∀ t, Stored st'.shared t ↔ Stored st.shared t) ∨
          ∃ i torn tid pc, a = .run i torn ∧ st.pc i = .insert tid pc ∧
            ¬ Present loadKey st.shared (loadKey tid) ∧
            ∀ t, Stored st'.shared t ↔ Stored st.shared t ∨ t = tid := by
  obtain ⟨G, h⟩ := inv_of_run hkeys hinit hrun hn.le
  refine ⟨fun t t' ht ht' hkey => h.tree.eq_of_key ht ht' hkey, fun i tid hpc => ?_,
    fun a st' hstep => ?_⟩
  · have hfacts := h.facts i
    rw [hpc] at hfacts
    exact hfacts.2
  · cases moves_of_step hstep with
    | @runInsert i torn tid pc pc' e hpc hnext =>
        obtain ⟨G', hok⟩ := h.outcome hkeys hn hpc hnext
        exact hok.stored.imp_right fun hadds => ⟨i, torn, tid, pc, rfl, hpc, hadds⟩
    | _ => exact .inl fun _ => Iff.rfl

theorem insert_atomic_two_threads : ∃ st, twoThreads.Run (fun _ => True) 49 emptyTree st ∧
    st.inBetween = true ∧ ∀ t t', Stored st.shared t → Stored st.shared t' →
      convert2String t = convert2String t' → t = t' := by
  obtain ⟨st, hrun, hin⟩ := exists_inBetween
  exact ⟨st, hrun, hin, (insert_atomic (keySet_length (by decide)) initial_emptyTree hrun
    (by decide)).1⟩

/-- A node is locked when one thread holds it, no two threads hold one, and what is held is not
obsolete. -/
theorem locks_exclusive (hkeys : KeySet keys) (hinit : Initial s₀)
    (hrun : (system loadKey keys).Run (fun _ => True) n s₀ st) (hn : n + 2 ≤ 2 ^ 60) :
    (∀ m, m < st.shared.allocated →
      (isLocked (st.shared.word m) = true ↔ ∃ i, m ∈ (st.pc i).held)) ∧
    (∀ i j m, m ∈ (st.pc i).held → m ∈ (st.pc j).held → i = j) ∧
    ∀ i m, m ∈ (st.pc i).held → isObsolete (st.shared.word m) = false := by
  obtain ⟨G, h⟩ := inv_of_run hkeys hinit hrun hn
  refine ⟨fun m hm => ⟨h.owner m hm, ?_⟩, h.exclusive, fun i m hm => (h.held i m hm).2.2⟩
  rintro ⟨i, hi⟩
  exact (h.held i m hi).2.1

theorem locks_exclusive_two_threads : ∃ st, twoThreads.Run (fun _ => True) 49 emptyTree st ∧
    1 ∈ (st.pc false).held ∧ 1 ∉ (st.pc true).held := by
  obtain ⟨st, hrun, hin⟩ := exists_inBetween
  obtain ⟨⟨tid, hpc⟩, -⟩ := State.inBetween_pc hin
  have hheld : 1 ∈ (st.pc false).held := by
    rw [hpc]
    exact mem_singleton_self _
  refine ⟨st, hrun, hheld, fun hother => ?_⟩
  exact absurd ((locks_exclusive (keySet_length (by decide)) initial_emptyTree hrun
    (by decide)).2.1 false true 1 hheld hother) (by decide)

/-- No node has more children than there is room for in its type, and a leaf is inserted only where
there is room. -/
theorem nodes_fit (hkeys : KeySet keys) (hinit : Initial s₀)
    (hrun : (system loadKey keys).Run (fun _ => True) n s₀ st) (hn : n + 2 ≤ 2 ^ 60) :
    (∀ m, m < st.shared.allocated →
      st.shared.count m ≤ (getType (st.shared.word m)).capacity) ∧
    ∀ i tid p, st.pc i = .insert tid (.insertLeaf p) →
      st.shared.children p.at_.node p.nodeKey = none ∧ st.shared.isFull p.at_.node = false := by
  obtain ⟨G, h⟩ := inv_of_run hkeys hinit hrun hn
  refine ⟨fun m hm => h.tree.fits hm, fun i tid p hpc => ?_⟩
  have hfacts := h.facts i
  rw [hpc] at hfacts
  exact hfacts.2.2.2

theorem nodes_fit_two_threads : ∃ st, twoThreads.Run (fun _ => True) 49 emptyTree st ∧
    st.inBetween = true ∧ ∀ m, m < st.shared.allocated →
      st.shared.count m ≤ (getType (st.shared.word m)).capacity := by
  obtain ⟨st, hrun, hin⟩ := exists_inBetween
  exact ⟨st, hrun, hin, (nodes_fit (keySet_length (by decide)) initial_emptyTree hrun
    (by decide)).1⟩

end Runs

end ARTOLC
end TLI
