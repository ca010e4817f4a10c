import ToggleTree.ForkJoin.Cells
import ToggleTree.IndexMap.Concurrent
import ToggleTree.IndexMap.Exact
import ToggleTree.IndexSet.Phase

/-!
# Lowering and inserting during an extraction

While an extraction runs, every node belongs to the branch that works on it, values of the sequence
only fall, and an index whose value has fallen is inserted before the branch that lowered it returns.
The dirty flags are those of concurrent insertions into an index set.
-/

namespace ToggleTree

open ForkJoin ForkJoin.Prog

namespace IndexMap

open IndexSet

namespace Concurrent

/-- The sequence, the nodes, the calls of the function with the values tested, the inserted indices,
and what else the function works on. -/
structure Shared (T υ : Type) where
  sequence : ℕ → T
  map : IndexMap T
  calls : List (ℕ × T)
  inserted : List ℕ
  user : υ

variable {T υ ι : Type}

namespace Shared

/-- The index map in the state. -/
def nodes : Loc (Shared T υ) (IndexMap T) := ⟨map, fun m st => { st with map := m }⟩

/-- The sequence in the state. -/
def values : Loc (Shared T υ) (ℕ → T) := ⟨sequence, fun q st => { st with sequence := q }⟩

/-- The sequence is a part of the state. -/
theorem values_lawful : (values : Loc (Shared T υ) (ℕ → T)).Lawful :=
  ⟨fun _ _ => rfl, fun _ => rfl, fun _ _ _ => rfl⟩

end Shared

open Shared

section Programs

variable [LinearOrder T]

/-- `write_min(sequence[index], value)`. -/
def writeMinEntry (index : ℕ) (value : T) : Prog (Shared T υ) ι Bool := writeMin (entry values index) value

/-- Insert an index and note that it was inserted. -/
def insertNoted (index : ℕ) : Prog (Shared T υ) ι Bool := do
  modify fun st => { st with inserted := st.inserted ++ [index] }
  insert nodes index

/-- Programs that lower values of the sequence and insert indices. Each index whose value they have
lowered, and each of the indices `owes`, is inserted before they return. -/
inductive Lowering (n : ℕ) : Multiset ℕ → {α : Type} → Prog (Shared T υ) ι α → Prop
  | ret {α : Type} (a : α) : Lowering n 0 (ret a)
  | atom {α β : Type} (owes : Multiset ℕ) (act : Shared T υ → β × Shared T υ)
      (next : β → Prog (Shared T υ) ι α) (alone : ∀ st, ∃ u, (act st).2 = { st with user := u })
      (rest : ∀ b, Lowering n owes (next b)) : Lowering n owes (atom act next)
  | pick {α β : Type} (owes : Multiset ℕ) (dflt : β) (next : β → Prog (Shared T υ) ι α)
      (rest : ∀ b, Lowering n owes (next b)) : Lowering n owes (pick dflt next)
  | lower {α : Type} (owes : Multiset ℕ) (index : ℕ) (value : T) (next : Bool → Prog (Shared T υ) ι α)
      (rest : ∀ b, Lowering n (if b then {index} + owes else owes) (next b)) :
      Lowering n owes (writeMinEntry index value >>= next)
  | insert {α : Type} (owes : Multiset ℕ) (index : ℕ) (hindex : index < n)
      (next : Bool → Prog (Shared T υ) ι α) (rest : ∀ b, Lowering n (owes.filter (· ≠ index)) (next b)) :
      Lowering n owes (insertNoted index >>= next)
  | fork {α β γ : Type} (a b c : Multiset ℕ) (left : Prog (Shared T υ) ι β) (right : Prog (Shared T υ) ι γ)
      (next : β → γ → Prog (Shared T υ) ι α) (hleft : Lowering n a left) (hright : Lowering n b right)
      (rest : ∀ x y, Lowering n c (next x y)) : Lowering n (a + b + c) (fork left right next)

/-- Note a call of the function with the value tested, and make it. -/
def visitor (f : ℕ → Prog (Shared T υ) ι Unit) (vertex : ℕ) (value : T) : Prog (Shared T υ) ι Unit := do
  modify fun st => { st with calls := st.calls ++ [(vertex, value)] }
  f vertex

end Programs

/-- The flag and the least value of a node. -/
def cellOf (m : IndexMap T) (k : ℕ × ℕ) : Word × T := (m.flag.load k.1 k.2, m.augval k.1 k.2)

/-- What a branch holds: nodes, calls it has made, values it has lowered without inserting the
index, insertions that have not reached their leaf, and dirty flags owed by insertions. -/
abbrev Tokens (T : Type) :=
  Multiset ((ℕ × ℕ) × Word × T) × Multiset ℕ × Multiset ℕ × Multiset ℕ × Multiset (ℕ × ℕ)

variable [LinearOrder T] [OrderTop T]

/-- The shared state while an extraction runs. -/
structure Traversing (n : ℕ) (threshold : T) (before : ℕ → T) (st : Shared T υ) (tokens : Tokens T) : Prop where
  flagSize : st.map.flag.toggle.size = numLayers n
  flagWidth : ∀ L < numLayers n, st.map.flag.width L = layerLength n (L + 1)
  outside : ∀ K v, ¬InBounds n K v → K < numLayers n → cellOf st.map (K, v) = (0, ⊤)
  cells : Holds (cellOf st.map) tokens.1
  calls : ((st.calls.map Prod.fst : List ℕ) : Multiset ℕ) = tokens.2.1
  tested : ∀ p ∈ st.calls, st.sequence p.1 ≤ p.2 ∧ p.2 ≤ before p.1 ∧ p.2 ≤ threshold
  le : ∀ i, st.sequence i ≤ before i
  lowered : ∀ i, st.sequence i = before i ∨ i ∈ st.inserted ∨ i ∈ tokens.2.2.1
  settling : Settling true n st.map.dirty tokens.2.2.2.2
  marked : ∀ i, st.map.dirty.bit 0 i = true → i ∈ st.inserted
  pending : ∀ i ∈ st.inserted, i < n ∧ (st.map.dirty.bit 0 i = true ∨ i ∈ tokens.2.2.2.1)

/-- The branches keep `Traversing` together; values only fall, and insertions are never taken back. -/
def traversing (n : ℕ) (threshold : T) (before : ℕ → T) : Protocol (Shared T υ) (Tokens T) where
  inv := Traversing n threshold before
  rel st st' := (∀ i, st'.sequence i ≤ st.sequence i) ∧ st.inserted ⊆ st'.inserted
  refl _ := ⟨fun _ => le_rfl, fun _ => id⟩
  trans h h' := ⟨fun i => (h'.1 i).trans (h.1 i), List.Subset.trans h.2 h'.2⟩

section Steps

variable {env : ι → Prog (Shared T υ) ι Unit} {n : ℕ} {threshold : T} {before : ℕ → T} {st : Shared T υ}

/-- A state with the same values and insertions. -/
theorem rel_of_same {st' : Shared T υ} (hsequence : st'.sequence = st.sequence)
    (hinserted : st'.inserted = st.inserted) :
    (traversing n threshold before).rel st st' :=
  ⟨fun i => (congrFun hsequence i).le, fun _ hi => by rwa [hinserted]⟩

section Nodes

variable {m : IndexMap T} {s : Finset (ℕ × ℕ)} {L w : ℕ}
  {rest : Multiset ℕ × Multiset ℕ × Multiset ℕ × Multiset (ℕ × ℕ)}

/-- Reading a flag word of an owned node. -/
theorem readFlag_traversing (hmem : (L, w) ∈ s) (st : Shared T υ) :
    Ensures (traversing n threshold before) env
      (fun x _ a => x = m.flag.load L w ∧ a = (ForkJoin.cells (cellOf m) s, rest))
      (atomicRead (flagAt nodes L w)) st (ForkJoin.cells (cellOf m) s, rest) := by
  have hstep : Ensures (traversing n threshold before) env
      (fun x _ a => x = m.flag.load L w ∧ a = (ForkJoin.cells (cellOf m) s, rest))
      (atomicRead (flagAt nodes L w) >>= ret) st (ForkJoin.cells (cellOf m) s, rest) :=
    Ensures.read fun st' o _ hinv => by
      have hcell := (Traversing.cells hinv).get hmem
      exact Ensures.ret fun _ _ _ hinv' => ⟨_, hinv', congrArg Prod.fst hcell, rfl⟩
  rwa [bind_ret] at hstep

/-- Reading a least value of an owned node. -/
theorem readAugval_traversing (hmem : (L, w) ∈ s) (st : Shared T υ) :
    Ensures (traversing n threshold before) env
      (fun x _ a => x = m.augval L w ∧ a = (ForkJoin.cells (cellOf m) s, rest))
      (atomicRead (augvalAt nodes L w)) st (ForkJoin.cells (cellOf m) s, rest) := by
  have hstep : Ensures (traversing n threshold before) env
      (fun x _ a => x = m.augval L w ∧ a = (ForkJoin.cells (cellOf m) s, rest))
      (atomicRead (augvalAt nodes L w) >>= ret) st (ForkJoin.cells (cellOf m) s, rest) :=
    Ensures.read fun st' o _ hinv => by
      have hcell := (Traversing.cells hinv).get hmem
      exact Ensures.ret fun _ _ _ hinv' => ⟨_, hinv', congrArg Prod.snd hcell, rfl⟩
  rwa [bind_ret] at hstep

omit [LinearOrder T] [OrderTop T] in
/-- A map whose words have been allocated stores a flag word in its node only. -/
theorem cellOf_setFlag (hsize : w < m.flag.width L) (x : Word) (k : ℕ × ℕ) :
    cellOf (m.setFlag L w x) k = if k = (L, w) then (x, m.augval L w) else cellOf m k := by
  have hload : (m.flag.store L w x).load k.1 k.2 = if k.1 = L ∧ k.2 = w then x else m.flag.load k.1 k.2 :=
    load_store _ _ _ _ hsize k.1 k.2
  change ((m.flag.store L w x).load k.1 k.2, m.augval k.1 k.2) = _
  rw [hload]
  by_cases hk : k = (L, w)
  · subst hk
    simp
  · rw [if_neg hk, if_neg fun h => hk (Prod.ext h.1 h.2)]
    rfl

omit [LinearOrder T] [OrderTop T] in
/-- The cells after an augmented value is written. -/
theorem cellOf_setAugval (x : T) (k : ℕ × ℕ) :
    cellOf (m.setAugval L w x) k = if k = (L, w) then (m.flag.load L w, x) else cellOf m k := by
  change (m.flag.load k.1 k.2, if k.1 = L ∧ k.2 = w then x else m.augval k.1 k.2) = _
  by_cases hk : k = (L, w)
  · subst hk
    simp
  · rw [if_neg hk, if_neg fun h => hk (Prod.ext h.1 h.2)]
    rfl

/-- Writing a flag word of an owned node. -/
theorem writeFlag_traversing (hmem : (L, w) ∈ s) (hin : InBounds n L w)
    (hm : m.flag.width L = layerLength n (L + 1)) (x : Word) (st : Shared T υ) :
    Ensures (traversing n threshold before) env
      (fun _ _ a => a = (ForkJoin.cells (cellOf (m.setFlag L w x)) s, rest))
      (atomicWrite (flagAt nodes L w) x) st (ForkJoin.cells (cellOf m) s, rest) := by
  have hstep : Ensures (traversing n threshold before) env
      (fun _ _ a => a = (ForkJoin.cells (cellOf (m.setFlag L w x)) s, rest))
      (atomicWrite (flagAt nodes L w) x >>= ret) st (ForkJoin.cells (cellOf m) s, rest) := by
    refine Ensures.modify fun st' o _ hinv => ⟨_, rel_of_same rfl rfl, ?_,
      Ensures.ret fun _ _ _ hinv' => ⟨_, hinv', rfl⟩⟩
    have hw := hin.lt
    have hwidth : w < st'.map.flag.width L := by rwa [Traversing.flagWidth hinv L hin.1]
    refine { hinv with
      flagSize := ?_
      flagWidth := fun K hK => ?_
      outside := fun K v hout hK => ?_
      cells := ?_ }
    · exact (size_store _ _ _ _).trans (Traversing.flagSize hinv)
    · exact (width_store _ _ _ _ K).trans (Traversing.flagWidth hinv K hK)
    · have hne : (K, v) ≠ (L, w) := fun h => hout (by rwa [(Prod.mk.inj h).1, (Prod.mk.inj h).2])
      exact (cellOf_setFlag hwidth x _).trans ((if_neg hne).trans (Traversing.outside hinv K v hout hK))
    · have hcell := (Traversing.cells hinv).get hmem
      refine (Traversing.cells hinv).write hmem (fun k hk => ?_) (fun k hk => ?_) ?_
      · exact (cellOf_setFlag hwidth x k).trans (if_neg hk)
      · exact (cellOf_setFlag (by rwa [hm]) x k).trans (if_neg hk)
      · refine (cellOf_setFlag hwidth x _).trans (Eq.trans ?_ (cellOf_setFlag (by rwa [hm]) x _).symm)
        rw [if_pos rfl, if_pos rfl]
        exact congrArg (fun c => (x, c.2)) hcell
  rwa [bind_ret] at hstep

/-- Writing a least value of an owned node. -/
theorem writeAugval_traversing (hmem : (L, w) ∈ s) (hin : InBounds n L w) (x : T) (st : Shared T υ) :
    Ensures (traversing n threshold before) env
      (fun _ _ a => a = (ForkJoin.cells (cellOf (m.setAugval L w x)) s, rest))
      (atomicWrite (augvalAt nodes L w) x) st (ForkJoin.cells (cellOf m) s, rest) := by
  have hstep : Ensures (traversing n threshold before) env
      (fun _ _ a => a = (ForkJoin.cells (cellOf (m.setAugval L w x)) s, rest))
      (atomicWrite (augvalAt nodes L w) x >>= ret) st (ForkJoin.cells (cellOf m) s, rest) := by
    refine Ensures.modify fun st' o _ hinv => ⟨_, rel_of_same rfl rfl, ?_,
      Ensures.ret fun _ _ _ hinv' => ⟨_, hinv', rfl⟩⟩
    have hcell := (Traversing.cells hinv).get hmem
    refine { hinv with
      outside := fun K v hout hK => ?_
      cells := (Traversing.cells hinv).write hmem (fun k hk => ?_) (fun k hk => ?_) ?_ }
    · have hne : (K, v) ≠ (L, w) := fun h => hout (by rwa [(Prod.mk.inj h).1, (Prod.mk.inj h).2])
      exact (cellOf_setAugval x _).trans ((if_neg hne).trans (Traversing.outside hinv K v hout hK))
    · exact (cellOf_setAugval x k).trans (if_neg hk)
    · exact (cellOf_setAugval x k).trans (if_neg hk)
    · refine (cellOf_setAugval x _).trans (Eq.trans ?_ (cellOf_setAugval x _).symm)
      rw [if_pos rfl, if_pos rfl]
      exact congrArg (fun c => (c.1, x)) hcell
  rwa [bind_ret] at hstep

end Nodes

section Values

/-- A value that was read lies between the later values and those from before the extraction. -/
def Between (before : ℕ → T) (st : Shared T υ) (i : ℕ) (x : T) : Prop := st.sequence i ≤ x ∧ x ≤ before i

/-- A value between the old and the new one stays so. -/
theorem Between.rel {st st' : Shared T υ} {i : ℕ} {x : T} (h : Between before st i x)
    (hrel : (traversing n threshold before).rel st st') : Between before st' i x :=
  ⟨(hrel.1 i).trans h.1, h.2⟩

/-- Reading an entry gives a value between the old and the new one. -/
theorem readEntry_traversing (i : ℕ) (st : Shared T υ) :
    Ensures (traversing n threshold before) env (fun x st' a => Between before st' i x ∧ a = 0)
      (atomicRead (entry values i)) st 0 := by
  have hstep : Ensures (traversing n threshold before) env (fun x st' a => Between before st' i x ∧ a = 0)
      (atomicRead (entry values i) >>= ret) st 0 :=
    Ensures.read fun st' o _ hinv => Ensures.ret fun _ _ hrel hinv' =>
      ⟨0, hinv', ⟨hrel.1 i, Traversing.le hinv i⟩, rfl⟩
  rwa [bind_ret] at hstep

/-- Taking the minimum with an entry takes it with a value that the entry has had. -/
theorem minEntry_traversing (aggregate : T) (i : ℕ) (st : Shared T υ) :
    Ensures (traversing n threshold before) env
      (fun y st' a => (∃ x, Between before st' i x ∧ y = min aggregate x) ∧ a = 0)
      (minEntry values aggregate i) st 0 := by
  unfold minEntry
  refine (readEntry_traversing i st).bind ?_
  rintro compared st' _ ⟨hcompared, rfl⟩
  split
  · next hlt =>
    have hkept : Ensures (traversing n threshold before) env
        (fun x st'' a => (Between before st'' i x ∧ a = 0) ∧ x ≤ compared)
          (atomicRead (entry values i)) st' 0 := by
      have hstep : Ensures (traversing n threshold before) env
          (fun x st'' a => (Between before st'' i x ∧ a = 0) ∧ x ≤ compared)
          (atomicRead (entry values i) >>= ret) st' 0 :=
        Ensures.read fun st'' o hrel hinv => Ensures.ret fun _ _ hrel' hinv' =>
          ⟨0, hinv', ⟨⟨hrel'.1 i, Traversing.le hinv i⟩, rfl⟩, (hrel.1 i).trans hcompared.1⟩
      rwa [bind_ret] at hstep
    refine hkept.mono ?_
    rintro x st'' _ ⟨⟨hx, rfl⟩, hle⟩
    exact ⟨⟨x, hx, (min_eq_right (hle.trans hlt.le)).symm⟩, rfl⟩
  · next hge =>
    refine Ensures.ret fun st'' _ hrel hinv => ⟨0, hinv, ⟨compared, hcompared.rel hrel, ?_⟩, rfl⟩
    exact (min_eq_left (not_lt.mp hge)).symm

end Values

section Insert

/-- Inserting an index that has been noted, whether or not it has been inserted before. -/
theorem insert_traversing {i : ℕ} {st : Shared T υ} (hi : i < n) (hnoted : i ∈ st.inserted) :
    Ensures (traversing n threshold before) env (fun _ _ a => a = 0) (insert nodes i) st (0, 0, 0, {i}, 0) := by
  refine insert_ensures (fun owed => ((0, 0, 0, 0, owed) : Tokens T)) rfl
    (fun st a hinv => (Traversing.settling hinv).size) (fun st' o hrel hinv => ⟨rel_of_same rfl rfl, ?_⟩)
    fun L st' o hL hinv => ?_
  · have hmarked : i ∈ st'.inserted := hrel.2 hnoted
    have hsettling : Settling true n st'.map.dirty (0 + o.2.2.2.2) := Traversing.settling hinv
    rw [zero_add] at hsettling
    have hin : i / 64 < st'.map.dirty.width 0 := hsettling.inBounds (numLayers_pos n) hi
    have hset := hsettling.setLeaf hi
    rw [add_comm] at hset
    refine { hinv with settling := hset, marked := fun k hk => ?_, pending := fun k hk => ?_ }
    · change (st'.map.dirty.setBit 0 i).bit 0 k = true at hk
      rw [bit_setBit hin, Bool.or_eq_true, decide_eq_true_eq] at hk
      rcases hk with hk | ⟨_, rfl⟩
      · exact Traversing.marked hinv k hk
      · exact hmarked
    · obtain ⟨hkn, hbit⟩ := Traversing.pending hinv k hk
      refine ⟨hkn, ?_⟩
      change (st'.map.dirty.setBit 0 i).bit 0 k = true ∨ k ∈ 0 + o.2.2.2.1
      change _ ∨ k ∈ {i} + o.2.2.2.1 at hbit
      rw [bit_setBit hin, zero_add, Bool.or_eq_true, decide_eq_true_eq]
      rcases hbit with hbit | hbit
      · exact Or.inl (Or.inl hbit)
      · rcases Multiset.mem_add.mp hbit with hbit | hbit
        · exact Or.inl (Or.inr ⟨rfl, Multiset.mem_singleton.mp hbit⟩)
        · exact Or.inr hbit
  · have hsettling : Settling true n st'.map.dirty ({(L + 1, i / 64 ^ (L + 1))} + o.2.2.2.2) :=
      Traversing.settling hinv
    have hin : i / 64 ^ (L + 1) / 64 < st'.map.dirty.width (L + 1) :=
      hsettling.inBounds hL (div_lt_layerLength hi (L + 1))
    have hnext := hsettling.raise (div_lt_layerLength hi (L + 1))
    rw [add_comm o.2.2.2.2] at hnext
    have hleaf (k : ℕ) : (st'.map.dirty.setBit (L + 1) (i / 64 ^ (L + 1))).bit 0 k = st'.map.dirty.bit 0 k := by
      rw [bit_setBit hin]
      simp
    refine ⟨(hsettling.of_owed (by simp)).2.2, rel_of_same rfl rfl, ?_⟩
    refine { hinv with settling := hnext, marked := fun k hk => ?_, pending := fun k hk => ?_ }
    · exact Traversing.marked hinv k ((hleaf k).symm.trans hk)
    · obtain ⟨hkn, hbit⟩ := Traversing.pending hinv k hk
      exact ⟨hkn, hbit.imp_left (hleaf k).trans⟩

end Insert

section Callback

/-- Noting an insertion settles what was owed for its index. -/
theorem insertNoted_traversing {i : ℕ} (hi : i < n) {owes : Multiset ℕ} (st : Shared T υ) :
    Ensures (traversing n threshold before) env (fun _ _ a => a = (0, 0, owes.filter (· ≠ i), 0, 0))
      (insertNoted i) st (0, 0, owes, 0, 0) := by
  refine Ensures.modify fun st' o _ hinv => ⟨(0, 0, owes.filter (· ≠ i), {i}, 0), ?_, ?_, ?_⟩
  · exact ⟨fun _ => le_rfl, List.subset_append_left _ _⟩
  · refine { hinv with lowered := fun k => ?_, marked := fun k hk => ?_, pending := fun k hk => ?_ }
    · change st'.sequence k = before k ∨ k ∈ st'.inserted ++ [i] ∨ k ∈ owes.filter (· ≠ i) + o.2.2.1
      have hk : st'.sequence k = before k ∨ k ∈ st'.inserted ∨ k ∈ owes + o.2.2.1 := Traversing.lowered hinv k
      rw [Multiset.mem_add] at hk
      rw [Multiset.mem_add, Multiset.mem_filter, List.mem_append, List.mem_singleton]
      by_cases hki : k = i
      · exact Or.inr (Or.inl (Or.inr hki))
      · rcases hk with hk | hk | hk | hk
        · exact Or.inl hk
        · exact Or.inr (Or.inl (Or.inl hk))
        · exact Or.inr (Or.inr (Or.inl ⟨hk, hki⟩))
        · exact Or.inr (Or.inr (Or.inr hk))
    · exact List.mem_append_left _ (Traversing.marked hinv k hk)
    · change k < n ∧ (st'.map.dirty.bit 0 k = true ∨ k ∈ {i} + o.2.2.2.1)
      rcases List.mem_append.mp hk with hk | hk
      · obtain ⟨hkn, hbit⟩ := Traversing.pending hinv k hk
        refine ⟨hkn, hbit.imp_right fun hp => ?_⟩
        change k ∈ 0 + o.2.2.2.1 at hp
        rw [zero_add] at hp
        exact Multiset.mem_add.mpr (Or.inr hp)
      · rw [List.mem_singleton.mp hk]
        exact ⟨hi, Or.inr (by simp)⟩
  · have hinsert : Ensures (traversing n threshold before) env (fun _ _ a => a = 0) (insert nodes i)
        { st' with inserted := st'.inserted ++ [i] } (0, 0, 0, {i}, 0) := insert_traversing hi (by simp)
    have hframe := hinsert.frame (0, 0, owes.filter (· ≠ i), 0, 0)
    have hsum : ((0, 0, 0, {i}, 0) + (0, 0, owes.filter (· ≠ i), 0, 0) : Tokens T) =
        (0, 0, owes.filter (· ≠ i), {i}, 0) := by simp
    rw [hsum] at hframe
    refine hframe.mono ?_
    rintro _ _ _ ⟨_, rfl, rfl⟩
    exact zero_add _

/-- Lowering a value. -/
theorem writeMinEntry_traversing (i : ℕ) (x : T) {owes : Multiset ℕ} (st : Shared T υ) :
    Ensures (traversing n threshold before) env
      (fun b _ a => a = (0, 0, if b then {i} + owes else owes, 0, 0)) (writeMinEntry i x) st (0, 0,
        owes, 0, 0) := by
  have hstep : Ensures (traversing n threshold before) env
      (fun b _ a => a = (0, 0, if b then {i} + owes else owes, 0, 0)) (writeMinEntry i x >>= ret) st
      (0, 0, owes, 0, 0) := by
    refine Ensures.act fun st' o _ hinv => ?_
    have hget : (entry values i).get st' = st'.sequence i := rfl
    rw [hget]
    by_cases hlt : x < st'.sequence i
    · rw [if_pos hlt, decide_eq_true hlt]
      have hvalue (k : ℕ) : Function.update st'.sequence i x k ≤ st'.sequence k := by
        by_cases hk : k = i
        · rw [hk, Function.update_self]
          exact hlt.le
        · rw [Function.update_of_ne hk]
      refine ⟨(0, 0, {i} + owes, 0, 0), ⟨hvalue, List.Subset.refl _⟩, ?_,
        Ensures.ret fun _ _ _ hinv' => ⟨_, hinv', ?_⟩⟩
      · refine { hinv with tested := fun p hp => ?_, le := fun k => ?_, lowered := fun k => ?_ }
        · have h := Traversing.tested hinv p hp
          exact ⟨(hvalue p.1).trans h.1, h.2⟩
        · exact (hvalue k).trans (Traversing.le hinv k)
        · change Function.update st'.sequence i x k = before k ∨ k ∈ st'.inserted ∨ k ∈ {i} + owes + o.2.2.1
          by_cases hk : k = i
          · exact Or.inr (Or.inr (by simp [hk]))
          · rw [Function.update_of_ne hk]
            refine (Traversing.lowered hinv k).imp_right (Or.imp_right fun h => ?_)
            change k ∈ owes + o.2.2.1 at h
            rw [add_assoc]
            exact Multiset.mem_add.mpr (Or.inr h)
      · rw [if_pos rfl]
    · rw [if_neg hlt, decide_eq_false hlt]
      refine ⟨(0, 0, owes, 0, 0), rel_of_same rfl rfl, hinv, Ensures.ret fun _ _ _ hinv' => ⟨_, hinv', ?_⟩⟩
      rw [if_neg Bool.false_ne_true]
  rwa [bind_ret] at hstep

/-- A program that inserts what it lowers keeps the protocol and hands nothing on. -/
theorem Lowering.ensures {owes : Multiset ℕ} {α : Type} {p : Prog (Shared T υ) ι α} (hp : Lowering n owes p)
    (st : Shared T υ) :
    Ensures (traversing n threshold before) env (fun _ _ a => a = 0) p st (0, 0, owes, 0, 0) := by
  induction hp generalizing st with
  | ret a => exact Ensures.ret fun _ _ _ hinv => ⟨0, hinv, rfl⟩
  | atom owes act next alone _ ih =>
    refine Ensures.atom fun st' o _ hinv => ?_
    obtain ⟨u, hu⟩ := alone st'
    rw [hu]
    exact ⟨_, rel_of_same rfl rfl, { hinv with }, ih _ _⟩
  | pick owes d next _ ih => exact Ensures.pick fun b => ih b st
  | lower owes i x next _ ih =>
    refine (writeMinEntry_traversing i x st).bind ?_
    rintro b st' _ rfl
    exact ih b st'
  | insert owes i hi next _ ih =>
    refine (insertNoted_traversing hi st).bind ?_
    rintro b st' _ rfl
    exact ih b st'
  | fork a b c l r next _ _ _ ihl ihr ih =>
    have hframe := (ihr st).frame (0, 0, c, 0, 0)
    have hsum : ((0, 0, a, 0, 0) + ((0, 0, b, 0, 0) + (0, 0, c, 0, 0)) : Tokens T) = (0, 0, a + b + c, 0, 0) := by
      simp [add_assoc]
    rw [← hsum]
    refine Ensures.fork (ihl st) hframe ?_
    rintro x y st' _ _ rfl ⟨_, rfl, rfl⟩
    rw [zero_add, zero_add]
    exact ih x y st'

/-- One call of the function. -/
theorem visitor_traversing {f : ℕ → Prog (Shared T υ) ι Unit} {i : ℕ} (hf : Lowering n 0 (f i)) {x : T}
    {st : Shared T υ} (hx : Between before st i x) (hle : x ≤ threshold) :
    Ensures (traversing n threshold before) env (fun _ _ a => a = (0, {i}, 0, 0, 0)) (visitor f i x) st 0 := by
  refine Ensures.modify fun st' o hrel hinv => ⟨(0, {i}, 0, 0, 0), rel_of_same rfl rfl, ?_, ?_⟩
  · refine { hinv with calls := ?_, tested := fun p hp => ?_ }
    · have hcalls : ((st'.calls.map Prod.fst : List ℕ) : Multiset ℕ) = 0 + o.2.1 := Traversing.calls hinv
      change (((st'.calls ++ [(i, x)]).map Prod.fst : List ℕ) : Multiset ℕ) = {i} + o.2.1
      rw [List.map_append, ← Multiset.coe_add, hcalls, zero_add, add_comm]
      rfl
    · rcases List.mem_append.mp hp with hp | hp
      · exact Traversing.tested hinv p hp
      · rw [List.mem_singleton.mp hp]
        exact ⟨(hx.rel hrel).1, hx.2, hle⟩
  · have hcall : Ensures (traversing n threshold before) env (fun _ _ a => a = 0) (f i)
        { st' with calls := st'.calls ++ [(i, x)] } (0, 0, 0, 0, 0) := hf.ensures _
    have hframe := hcall.frame (0, {i}, 0, 0, 0)
    have hsum : ((0, 0, 0, 0, 0) + (0, {i}, 0, 0, 0) : Tokens T) = (0, {i}, 0, 0, 0) := by simp
    rw [hsum] at hframe
    refine hframe.mono ?_
    rintro _ _ _ ⟨_, rfl, rfl⟩
    exact zero_add _

end Callback

end Steps

end Concurrent

end IndexMap

end ToggleTree
