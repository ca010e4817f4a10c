import ToggleTree.IndexSet.ConsumeRange

/-!
# The index set refines a finite set

Every state that the constructor and any sequence of updates can produce represents the
finite set on which the same updates were run, and in every such state the operations
answer what the finite set says, whatever the schedule of their parallel loops.
-/

namespace ToggleTree

open ForkJoin ForkJoin.Prog

namespace IndexSet

/-- The operations that change the set. -/
inductive Op
  | insert (i : ℕ)
  | remove (i : ℕ)
  | consumeEach
  | consumeRange (l r : ℕ)

namespace Op

/-- The arguments are below the size of the set. -/
def Valid (n : ℕ) : Op → Prop
  | insert i => i < n
  | remove i => i < n
  | consumeEach => True
  | consumeRange l _ => l < n

/-- The operation on the layered words; the log receives the calls of its function. -/
def run : Op → Prog (IndexSet × List ℕ) Empty Unit
  | insert i => do
      let _ ← IndexSet.insert Loc.fst i
      return ()
  | remove i => do
      let _ ← IndexSet.remove Loc.fst i
      return ()
  | consumeEach => IndexSet.consumeEach Loc.fst record
  | consumeRange l r => IndexSet.consumeRange Loc.fst l r record

/-- The operation on a finite set. -/
def apply : Op → Finset ℕ → Finset ℕ
  | insert i, S => Insert.insert i S
  | remove i, S => S.erase i
  | consumeEach, _ => ∅
  | consumeRange l r, S => S.filter fun i => ¬(l ≤ i ∧ i < r)

/-- Every run of an operation ends in a state that represents the new set. -/
theorem total_run {n : ℕ} {s : IndexSet} {S : Finset ℕ} (h : Represents n s S) {o : Op}
    (ho : o.Valid n) :
    Total Empty.elim (fun _ st => Represents n st.1 (o.apply S)) o.run (s, []) := by
  cases o with
  | insert i =>
    refine (insert_total (s := (s, ([] : List ℕ))) Loc.fst_lawful ho h).bind ?_
    rintro _ _ ⟨_, t, rfl, ht⟩
    exact Total.ret ht
  | remove i =>
    refine (remove_total (s := (s, ([] : List ℕ))) Loc.fst_lawful h).bind ?_
    rintro _ _ ⟨_, t, rfl, ht⟩
    exact Total.ret ht
  | consumeEach => exact (consumeEach_total h).mono fun _ _ hst => hst.1
  | consumeRange l r =>
    refine (consumeRange_total h ho).mono fun _ _ hst => ?_
    rw [apply, Finset.filter_not]
    exact hst.1

end Op

/-- The states that the constructor and finitely many operations can produce, each with the
finite set on which the same operations were run. -/
inductive Reachable (n : ℕ) : IndexSet → Finset ℕ → Prop
  | create (initValue : Bool) :
      Reachable n (create n initValue) (if initValue then Finset.range n else ∅)
  | op {s s' : IndexSet} {S : Finset ℕ} {o : Op} {calls : List ℕ} (h : Reachable n s S)
      (ho : o.Valid n) (run : Steps Empty.elim o.run (s, []) (ret ()) (s', calls)) :
      Reachable n s' (o.apply S)

/-- Reachable states satisfy the layer invariant. -/
theorem Reachable.represents {n : ℕ} {s : IndexSet} {S : Finset ℕ} (h : Reachable n s S) :
    Represents n s S := by
  induction h with
  | create initValue => exact represents_create n initValue
  | op _ ho run ih => exact (Op.total_run ih ho).result run

/-- In state `s` every operation answers what the finite set `S` says, in every schedule. -/
structure Refines (n : ℕ) (s : IndexSet) (S : Finset ℕ) : Prop where
  represents : Represents n s S
  /-- No shift by `6 * (layer + 1)` reaches the word size. -/
  layers_le : n ≤ 2 ^ 60 → s.toggle.size ≤ 10
  insert : ∀ i < n, Total Empty.elim
    (fun b s' => (b = true ↔ Insert.insert i S ≠ S) ∧ Represents n s' (Insert.insert i S))
    (insert Loc.self i) s
  remove : ∀ i < n, Total Empty.elim
    (fun b s' => (b = true ↔ S.erase i ≠ S) ∧ Represents n s' (S.erase i)) (remove Loc.self i) s
  contains : ∀ i < n, Total Empty.elim (fun b s' => s' = s ∧ (b = true ↔ i ∈ S))
    (contains Loc.self i) s
  empty : Total Empty.elim (fun b s' => s' = s ∧ (b = true ↔ S = ∅)) (empty Loc.self) s
  numElements : Total Empty.elim (fun k s' => s' = s ∧ k = S.card) (numElements Loc.self) s
  /-- Each element is passed to the function once, in ascending order if run sequentially. -/
  forEach : Total Empty.elim (fun _ st => st.1 = s ∧ st.2.Perm (S.sort (· ≤ ·)))
      (forEach Loc.fst record) (s, []) ∧
    (exec (IndexSet.forEach Loc.fst record) (s, [])).2.2 = S.sort (· ≤ ·)
  consumeEach : Total Empty.elim (fun _ st => Represents n st.1 ∅ ∧ st.2.Perm (S.sort (· ≤ ·)))
      (consumeEach Loc.fst record) (s, []) ∧
    (exec (IndexSet.consumeEach Loc.fst record) (s, [])).2.2 = S.sort (· ≤ ·)
  reduce : ∀ (T : Type) [Monoid T] (f : ℕ → T), Total Empty.elim
    (fun v s' => s' = s ∧ v = ((S.sort (· ≤ ·)).map f).foldl (· * ·) 1)
    (reduce Loc.self (· * ·) 1 fun i => ret (f i)) s
  sample : ∀ dice, Total Empty.elim
    (fun v s' => s' = s ∧ if S = ∅ then v.1 = 2 ^ 64 - 1 else v.1 ∈ S) (sample Loc.self dice) s

/-- At rest, the layered words refine the set they represent. -/
theorem Represents.refines {n : ℕ} {s : IndexSet} {S : Finset ℕ} (h : Represents n s S) :
    Refines n s S where
  represents := h
  layers_le hn := by
    rw [h.size]
    exact numLayers_le hn
  insert i hi := by
    refine (insert_total Loc.self_lawful hi h).mono ?_
    rintro _ _ ⟨rfl, t, rfl, ht⟩
    exact ⟨by simp, ht⟩
  remove i _ := by
    refine (remove_total Loc.self_lawful h).mono ?_
    rintro _ _ ⟨rfl, t, rfl, ht⟩
    exact ⟨by simp, ht⟩
  contains i _ := by
    refine (contains_total h i).mono ?_
    rintro _ _ ⟨rfl, rfl⟩
    exact ⟨rfl, decide_eq_true_iff⟩
  empty := by
    refine (empty_total h).mono ?_
    rintro _ _ ⟨rfl, rfl⟩
    exact ⟨rfl, decide_eq_true_iff⟩
  numElements := numElements_total h
  forEach := ⟨forEach_total h, exec_forEach h⟩
  consumeEach := ⟨consumeEach_total h, exec_consumeEach h⟩
  reduce _ _ f := reduce_total h fun _ _ => still_ret rfl
  sample dice := sample_total h dice

/-- The layered words refine the finite set in every reachable state. -/
theorem reachable_refines {n : ℕ} {s : IndexSet} {S : Finset ℕ} (h : Reachable n s S) :
    Refines n s S :=
  h.represents.refines

/-- The full set of size 100 after one removal. -/
theorem reachable_refines_remove :
    ∃ s, Refines 100 s ((Finset.range 100).erase 70) ∧ s.load 0 1 = 0xfffffffbf := by
  refine ⟨_, reachable_refines (Reachable.op (o := Op.remove 70) (Reachable.create true)
    (by simp [Op.Valid]) (steps_exec _ _ _)), ?_⟩
  decide +kernel

end IndexSet

end ToggleTree
