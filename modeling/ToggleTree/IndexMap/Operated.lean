import ToggleTree.ForkJoin.Reduce
import ToggleTree.IndexMap.Bounds
import ToggleTree.IndexMap.Traversing
import ToggleTree.IndexSet.Operated

/-!
# Runs of an index map, step by step

Programs may change the sequence and insert indices at any time, and so may the function that an
extraction calls. Between operations the flags lie inside the layers and the dirty flags are those
of an index set: insertions keep them so while they are in flight, an extraction leaves them alone,
and a repair clears them.
-/

namespace ToggleTree

open ForkJoin ForkJoin.Prog

namespace IndexMap

namespace Program

open IndexSet hiding empty Operated StaysInside
open Concurrent (Shared flagAt augvalAt dirtyFlags entry minEntry)
open Concurrent.Shared (nodes values)

variable {T υ ι α : Type} {n : ℕ} {env : ι → Prog (Shared T υ) ι Unit}

/-- Programs that work on data of their own, read and change entries of the sequence, and insert
indices, in any number of concurrent branches. -/
inductive Updating (n : ℕ) : {α : Type} → Prog (Shared T υ) ι α → Prop
  | ret {α : Type} (a : α) : Updating n (ret a)
  | work {α β : Type} (g : υ → β × υ) (next : β → Prog (Shared T υ) ι α) (rest : ∀ b, Updating n (next b)) :
      Updating n (atom (fun st => ((g st.user).1, { st with user := (g st.user).2 })) next)
  | pick {α β : Type} (dflt : β) (next : β → Prog (Shared T υ) ι α) (rest : ∀ b, Updating n (next b)) :
      Updating n (pick dflt next)
  | load {α : Type} (i : ℕ) (hi : i < n) (next : T → Prog (Shared T υ) ι α) (rest : ∀ b, Updating n (next b)) :
      Updating n (atomicRead (entry values i) >>= next)
  | change {α β : Type} (i : ℕ) (hi : i < n) (h : T → β × T) (next : β → Prog (Shared T υ) ι α)
      (rest : ∀ b, Updating n (next b)) :
      Updating n (atom (fun st => ((h (st.sequence i)).1, (entry values i).put (h (st.sequence i)).2 st)) next)
  | insert {α : Type} (i : ℕ) (hi : i < n) (next : Bool → Prog (Shared T υ) ι α)
      (rest : ∀ b, Updating n (next b)) : Updating n (Concurrent.insert nodes i >>= next)
  | fork {α β γ : Type} (left : Prog (Shared T υ) ι β) (right : Prog (Shared T υ) ι γ)
      (next : β → γ → Prog (Shared T υ) ι α) (hleft : Updating n left) (hright : Updating n right)
      (rest : ∀ b c, Updating n (next b c)) : Updating n (fork left right next)

/-- The steps of an operation on the map, whose nodes and entries are all inside. -/
abbrev mapSteps (n : ℕ) : Kind (Shared T υ) := MapStep nodes values (InTree n) fun i => i < n

/-- The steps of an extraction keep the flags inside the layers and leave the dirty flags alone. -/
def OwnStep (n : ℕ) : Kind (Shared T υ) := fun β act => mapSteps n β act ∧
  ∀ st, Shape n st.map.flag → Shape n (act st).2.map.flag ∧ (act st).2.map.dirty = st.map.dirty

section Updating

/-- While indices are inserted, the flags lie inside the layers and so do the dirty flags, whatever else
is in flight. -/
def Marking (n : ℕ) (st : Shared T υ) : Prop := Shape n st.map.flag ∧ Sized n st.map.dirty

/-- The dirty flags are written inside the tree. -/
theorem writes_dirty :
    Writes n (dirtyFlags nodes) (Marking n) ((mapSteps n).keeping (Marking n : Shared T υ → Prop)) where
  sized _ hst := hst.2
  size := ⟨MapStep.dirtySize id, fun _ hst => hst⟩
  fetch _ _ hin f := ⟨MapStep.dirty hin (accesses_fetch f), fun _ hst => ⟨hst.1, hst.2.store _ _ _⟩⟩

/-- The accesses of an update stay inside. -/
theorem Updating.confined {p : Prog (Shared T υ) ι α} (h : Updating n p) :
    Confined (Marking n) ((mapSteps n).keeping (Marking n)) p fun _ => True := by
  induction h with
  | ret a => trivial
  | work g _ _ ih => exact ⟨⟨MapStep.aside (fun _ _ => rfl) fun _ _ => rfl, fun _ hst => hst⟩, fun _ _ => ih _⟩
  | pick d _ _ ih => exact ih
  | load i hi _ _ ih => exact ⟨⟨MapStep.entry hi accesses_read, fun _ hst => hst⟩, fun _ _ => ih _⟩
  | change i hi h _ _ ih => exact ⟨⟨MapStep.entry hi (Accesses.update h), fun _ hst => hst⟩, fun _ _ => ih _⟩
  | insert i hi _ _ ih => exact (insert_guarded writes_dirty hi).confined_none.bind fun b _ => ih b
  | fork _ _ _ _ _ _ ihl ihr ih => exact ⟨_, _, ihl, ihr, fun b c _ _ => ih b c⟩

/-- The branches keep the dirty flags settling. -/
def inserting (n : ℕ) : Protocol (Shared T υ) (Multiset (ℕ × ℕ)) where
  inv st owed := Shape n st.map.flag ∧ Settling true n st.map.dirty owed
  rel _ _ := True
  refl _ := trivial
  trans _ _ := trivial

/-- `insert` of a map keeps the protocol of the insertions. -/
theorem insert_inserting {i : ℕ} (hi : i < n) (st : Shared T υ) :
    Ensures (inserting n) env (fun _ _ a => a = 0) (Concurrent.insert nodes i) st 0 := by
  refine insert_ensures id rfl (fun st a hinv => hinv.2.size) (fun st' o _ hinv => ⟨trivial, hinv.1, ?_⟩)
    fun L st' o hL hinv => ⟨(hinv.2.of_owed (by simp)).2.2, trivial, hinv.1, ?_⟩
  · have hset := hinv.2.setLeaf hi
    rwa [zero_add, add_comm] at hset
  · have hnext := Settling.raise hinv.2 (div_lt_layerLength hi (L + 1))
    rwa [add_comm o] at hnext

/-- A program that only inserts keeps the protocol of the insertions. -/
theorem Updating.ensures {p : Prog (Shared T υ) ι α} (h : Updating n p) (st : Shared T υ) :
    Ensures (inserting n) env (fun _ _ a => a = 0) p st 0 := by
  induction h generalizing st with
  | ret a => exact Ensures.ret fun _ _ _ hinv => ⟨0, hinv, rfl⟩
  | work g _ _ ih => exact Ensures.atom fun _ _ _ hinv => ⟨0, trivial, hinv, ih _ _⟩
  | pick d _ _ ih => exact Ensures.pick fun b => ih b st
  | load i hi _ _ ih => exact Ensures.atom fun _ _ _ hinv => ⟨0, trivial, hinv, ih _ _⟩
  | change i hi h _ _ ih => exact Ensures.atom fun _ _ _ hinv => ⟨0, trivial, hinv, ih _ _⟩
  | insert i hi _ _ ih =>
    refine (insert_inserting hi st).bind ?_
    rintro b st' _ rfl
    exact ih b st'
  | fork _ _ _ _ _ _ ihl ihr ih =>
    rw [← add_zero (0 : Multiset (ℕ × ℕ))]
    refine Ensures.fork (ihl st) (ihr st) ?_
    rintro b c st' _ _ rfl rfl
    rw [add_zero]
    exact ih b c st'

end Updating

/-- The nodes between operations. -/
structure AtRest (n : ℕ) (m : IndexMap T) : Prop where
  flag : Shape n m.flag
  dirty : ∃ D, Represents n m.dirty D

section Rest

/-- The protocol of the insertions holds at rest. -/
theorem AtRest.inserting {st : Shared T υ} (h : AtRest n st.map) : (inserting n).inv st 0 := by
  obtain ⟨D, hD⟩ := h.dirty
  exact ⟨h.flag, hD.settling true⟩

variable [LinearOrder T] [OrderTop T]

end Rest

section Repair

/-- The dirty flags are a part of the state. -/
theorem dirtyFlags_lawful : (dirtyFlags nodes : Loc (Shared T υ) IndexSet).Lawful :=
  ⟨fun _ _ => rfl, fun _ => rfl, fun _ _ _ => rfl⟩

variable {D : Finset ℕ} {m : IndexSet}

/-- Taking the dirty flags of a node clears them and hands over to the children they name. -/
theorem takeDirty_draining (h : Represents n m D) {L w : ℕ} (hgood : Alive n D (L + 1) w) (st : Shared T υ) :
    Ensures (draining (dirtyFlags nodes) n D) env
      (fun x _ a => (∀ o ∈ bits x, Alive n D L (64 * w + o)) ∧ a = children L w x) (takeDirty nodes L w) st
      {(L + 1, w)} := by
  have htake : (takeDirty nodes L w : Prog (Shared T υ) ι Word) =
      visitWord (dirtyFlags nodes) true L (w * 64 ^ (L + 1)) >>= fun dirty =>
        atomicRead (flagAt nodes L w) >>= fun flag =>
          atomicWrite (flagAt nodes L w) (flag ||| dirty) >>= fun _ => ret dirty := by
    unfold visitWord
    rw [wordId_node]
    rfl
  rw [htake]
  refine (visitWord_draining dirtyFlags_lawful h hgood st).bind ?_
  rintro x st' _ ⟨hchild, rfl⟩
  refine Ensures.read fun _ _ _ _ => Ensures.modify fun _ _ _ hinv => ⟨_, trivial, hinv, ?_⟩
  exact Ensures.ret fun _ _ _ hinv => ⟨_, hinv, hchild, rfl⟩

variable [LinearOrder T]

/-- The dirty flags are left alone when an entry is read. -/
theorem minEntry_draining (aggregate : T) (i : ℕ) (st : Shared T υ) :
    Ensures (draining (dirtyFlags nodes) n D) env (fun _ _ a => a = 0) (minEntry values aggregate i) st 0 := by
  refine Ensures.read fun _ _ _ _ => ?_
  split
  · exact Ensures.atom fun _ _ _ hinv => ⟨0, trivial, hinv, Ensures.ret fun _ _ _ hinv => ⟨0, hinv, rfl⟩⟩
  · exact Ensures.ret fun _ _ _ hinv => ⟨0, hinv, rfl⟩

/-- A call of `repair` below a node drains the dirty flags below it. -/
theorem repairAt_draining (h : Represents n m D) {L w : ℕ} (hgood : Alive n D (L + 1) w) (st : Shared T υ) :
    Ensures (draining (dirtyFlags nodes) n D) env (fun _ _ a => a = 0)
      (repairAt nodes values L (w * 64 ^ (L + 1))) st {(L + 1, w)} := by
  have hwrite {L w : ℕ} (aggregate : T) (st : Shared T υ) :
      Ensures (draining (dirtyFlags nodes) n D) env (fun _ _ a => a = 0)
        (atomicWrite (augvalAt nodes L w) aggregate >>= fun _ => ret aggregate) st 0 :=
    Ensures.modify fun _ _ _ hinv => ⟨0, trivial, hinv, Ensures.ret fun _ _ _ hinv => ⟨0, hinv, rfl⟩⟩
  induction L generalizing w st with
  | zero =>
    unfold repairAt
    rw [wordId_node]
    refine (takeDirty_draining h hgood st).bind ?_
    rintro x st' _ ⟨hchild, rfl⟩
    refine Ensures.read fun st₁ _ _ _ => ?_
    rw [children, ← sum_popOffset x fun o => ({(0, 64 * w + o)} : Multiset (ℕ × ℕ))]
    refine (Ensures.foldFor_sum (I := fun _ _ _ => True) _ (Nat.zero_le _) (fun _ _ _ _ _ _ _ => trivial) trivial
      fun i aggregate s _ hi _ => ?_).bind ?_
    · have hmem : 64 * w + popOffset i x ∈ D := by simpa [Alive] using (hchild _ (popOffset_mem_bits hi)).2
      exact (call_draining hmem (minEntry_draining aggregate _)).mono fun _ _ _ ha => ⟨trivial, ha⟩
    · rintro aggregate st₂ _ ⟨_, rfl⟩
      exact hwrite aggregate st₂
  | succ L ih =>
    unfold repairAt
    rw [wordId_node]
    refine (takeDirty_draining h hgood st).bind ?_
    rintro x st' _ ⟨hchild, rfl⟩
    refine Ensures.read fun st₁ _ _ _ => ?_
    rw [children, ← sum_popOffset x fun o => ({(L + 1, 64 * w + o)} : Multiset (ℕ × ℕ))]
    refine (Ensures.parallelCollect_own (R := fun _ _ _ b => b = 0) _ (fun _ _ _ _ _ _ h => h)
      fun i _ hi => ?_).bind ?_
    · rw [child_index]
      exact ih (hchild _ (popOffset_mem_bits hi)) st₁
    · rintro aggregates st₂ _ ⟨c, rfl, hlength, hc⟩
      have hzero : ∑ i ∈ Finset.Ico 0 (popCount x), c i = 0 := by
        refine Finset.sum_eq_zero fun i hi => ?_
        have hlt : i < aggregates.length := by
          rw [hlength]
          simpa using hi
        have hi' := hc i _ (List.getElem?_eq_getElem hlt)
        rwa [zero_add] at hi'
      rw [hzero]
      exact hwrite _ st₂

/-- A repair clears all dirty flags. -/
theorem repair_cleans {st : Shared T υ} (h : Represents n st.map.dirty D)
    (hsize : (nodes.get st).layers = numLayers n) :
    Total env (fun _ st' => Represents n st'.map.dirty ∅) (repair nodes values) st := by
  have hpos := numLayers_pos n
  refine Total.read (Total.read ?_)
  have hroot : (dirtyAt nodes ((nodes.get st).layers - 1) 0).get st = 0 ↔ D = ∅ := by
    rw [hsize]
    exact h.root_eq_zero
  by_cases hempty : D = ∅
  · rw [if_pos (hroot.mpr hempty)]
    subst hempty
    exact Total.atom (Total.ret h)
  · rw [if_neg (mt hroot.mp hempty)]
    refine Total.read ?_
    have hgood : Alive n D (numLayers n - 1 + 1) 0 := by
      rw [Nat.sub_add_cancel hpos]
      exact alive_root h (Finset.nonempty_iff_ne_empty.mpr hempty)
    have hrepair : Ensures (draining (dirtyFlags nodes) n D) env _ _ _ _ := repairAt_draining h hgood st
    rw [zero_mul, Nat.sub_add_cancel hpos] at hrepair
    rw [hsize]
    exact total_draining h hrepair

/-- During a repair the flags and the dirty flags lie inside the layers. -/
def Clearing (n : ℕ) (st : Shared T υ) : Prop := Shape n st.map.flag ∧ Shape n st.map.dirty

omit [LinearOrder T] in
/-- The steps of `repair` clear the dirty flags. -/
theorem repairs_clearing :
    Repairs n nodes values (Clearing n) ((mapSteps n).keeping (Clearing n : Shared T υ → Prop)) where
  flags _ hst := hst.1
  dirties _ hst := hst.2
  size := ⟨MapStep.size id, fun _ hst => hst⟩
  readFlag _ _ hin := ⟨MapStep.flag hin accesses_read, fun _ hst => hst⟩
  readDirty _ _ hin := ⟨MapStep.dirty hin accesses_read, fun _ hst => hst⟩
  readAugval _ _ hin := ⟨MapStep.augval hin accesses_read, fun _ hst => hst⟩
  readEntry _ hi := ⟨MapStep.entry hi accesses_read, fun _ hst => hst⟩
  writeFlag _ _ hin x hx := ⟨MapStep.flag hin (accesses_write x), fun _ hst => ⟨hst.1.store hin hx, hst.2⟩⟩
  clearDirty _ _ hin := ⟨MapStep.dirty hin (accesses_write 0), fun _ hst => ⟨hst.1, hst.2.store hin fits_zero⟩⟩
  writeAugval _ _ hin x := ⟨MapStep.augval hin (accesses_write x), fun _ hst => hst⟩

omit [LinearOrder T] in
/-- The dirty flags can be cleared at rest. -/
theorem AtRest.clearing {st : Shared T υ} (h : AtRest n st.map) : Clearing n st := by
  obtain ⟨D, hD⟩ := h.dirty
  exact ⟨h.flag, hD.toShape⟩

/-- `repair` leads from rest to rest. -/
theorem AtRest.repair (hn : 1 ≤ n) {st st' : Shared T υ} {v : T} (h : AtRest n st.map)
    (run : Steps env (repair nodes values) st (ret v) st') : AtRest n st'.map := by
  obtain ⟨D, hD⟩ := h.dirty
  obtain ⟨hclearing, _⟩ := (repair_guarded repairs_clearing hn).confined_none.run_keeps h.clearing run
  exact ⟨hclearing.1, ∅, (repair_cleans hD h.flag.size).result run⟩

end Repair

section Operated

variable [LinearOrder T] [OrderTop T]

/-- The states that the constructor, concurrent updates, repairs and extractions can produce. -/
inductive Operated (n : ℕ) : Shared T υ → Prop
  | create (sequence : ℕ → T) (initValue : Bool) (calls : List (ℕ × T)) (inserted : List ℕ) (u : υ) :
      Operated n ⟨sequence, create sequence n initValue, calls, inserted, u⟩
  | update {α : Type} {st st' : Shared T υ} {p : Prog (Shared T υ) Empty α} {v : α} (h : Operated n st)
      (hp : Updating n p) (run : Steps Empty.elim p st (ret v) st') : Operated n st'
  | repair {st st' : Shared T υ} {v : T} (h : Operated n st)
      (run : Steps Empty.elim (repair nodes values) st (ret v) st') : Operated n st'
  | extractMin {st st' : Shared T υ} {threshold : T} {f : ℕ → Prog (Shared T υ) Empty Unit} {v : ℕ}
      (h : Operated n st) (hf : ∀ i < n, Updating n (f i))
      (run : Steps Empty.elim (Concurrent.extractMin nodes values threshold fun vertex _ => f vertex) st (ret v)
        st') : Operated n st'
  | extractPrefixMin {st st' : Shared T υ} {v : Unit} (h : Operated n st)
      (run : Steps Empty.elim (extractPrefixMin nodes values) st (ret v) st') : Operated n st'

end Operated

section Inside

/-- In every run, whatever comes next accesses only nodes that have been allocated and entries of the
sequence. -/
def StaysInside (env : ι → Prog (Shared T υ) ι Unit) (n : ℕ) (p : Prog (Shared T υ) ι α)
    (st : Shared T υ) : Prop :=
  ∀ q st', Steps env p st q st' → ForkJoin.Pending (MapStep nodes values (HasNode st'.map) fun i => i < n) q

variable [LinearOrder T] [OrderTop T]

/-- The accesses of every operation on the map stay inside, in every schedule: those of updates that run
concurrently, and those of `extract_min` with a function that makes such updates. -/
structure AccessesInside (env : ι → Prog (Shared T υ) ι Unit) (n : ℕ) (st : Shared T υ) : Prop where
  empty : StaysInside env n (empty nodes) st
  insert : ∀ i < n, StaysInside env n (Concurrent.insert nodes i) st
  update : ∀ (α : Type) (p : Prog (Shared T υ) ι α), Updating n p → StaysInside env n p st
  repair : StaysInside env n (repair nodes values) st
  extractMin : ∀ threshold (f : ℕ → Prog (Shared T υ) ι Unit), (∀ i < n, Updating n (f i)) →
    StaysInside env n (Concurrent.extractMin nodes values threshold fun vertex _ => f vertex) st
  extractPrefixMin : StaysInside env n (extractPrefixMin nodes values) st

omit [LinearOrder T] [OrderTop T] in
/-- The steps of an extraction keep what updates rely on. -/
theorem OwnStep.keeping {β : Type} {act : Shared T υ → β × Shared T υ} (h : OwnStep n β act) :
    (mapSteps n).keeping (Marking n) β act := by
  refine ⟨h.1, fun st hst => ?_⟩
  obtain ⟨hflag, hdirty⟩ := h.2 st hst.1
  refine ⟨hflag, ?_⟩
  rw [hdirty]
  exact hst.2

end Inside

end Program

end IndexMap

section Sizes

variable {n : ℕ}

/-- Every access of every operation on a set of size `n` in one of the states `reached`, or on a map of
size `n` that has been operated on, stays inside the layers and the sequence, and no shift count of a
layer reaches the word size. -/
def AccessesStayInside (reached : IndexSet → Prop) (n : ℕ) : Prop :=
  (∀ (υ : Type) (s : IndexSet) (u : υ), reached s →
    s.toggle.size ≤ 10 ∧ IndexSet.Traversal.AccessesInside Empty.elim n ⟨s, [], [], u⟩) ∧
  ∀ (T υ : Type) [LinearOrder T] [OrderTop T] (st : IndexMap.Concurrent.Shared T υ),
    IndexMap.Program.Operated n st → st.map.layers ≤ 10 ∧ IndexMap.Program.AccessesInside Empty.elim n st

/-- A removal that overtakes an insertion on a set with three layers leads past the end of a layer later. -/
theorem not_accessesStayInside_straying : ¬AccessesStayInside (IndexSet.Operated 4097) 4097 := by
  intro h
  obtain ⟨s, hs, hsize, hwidth, hroot⟩ := IndexSet.operated_straying
  exact IndexSet.not_accessesInside_of_root hsize hwidth hroot () (h.1 Unit s () hs).2

end Sizes

end ToggleTree
