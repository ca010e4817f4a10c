import ToggleTree.IndexMap.Program
import ToggleTree.IndexMap.Extract
import ToggleTree.IndexSet.Bounds

/-!
# Accesses of an index map stay inside

The traversals of an index map follow the flags or the dirty flags from the root down, and every
word that they write back keeps only flags that were set. So the nodes and the entries of the
sequence that they reach have been allocated, whatever the least values say.
-/

namespace ToggleTree

open ForkJoin ForkJoin.Prog

namespace IndexMap

namespace Program

open IndexSet hiding empty
open Concurrent (flagAt augvalAt dirtyFlags entry minEntry Extracted extractLeaf selectChildren gatherChildren)

variable {σ ι T : Type} {n : ℕ}

/-- Node `w` of layer `L` has been allocated. -/
def HasNode (m : IndexMap T) (L w : ℕ) : Prop := m.flag.HasWord L w ∧ m.dirty.HasWord L w

/-- A step of an operation on the map: it reads the number of layers, or accesses one of the nodes
that `ok` allows or one of the entries that `okIndex` allows, or works on something else. -/
inductive MapStep (tree : Loc σ (IndexMap T)) (sequence : Loc σ (ℕ → T)) (ok : ℕ → ℕ → Prop)
    (okIndex : ℕ → Prop) : Kind σ
  | size {β : Type} (g : ℕ → β) : MapStep tree sequence ok okIndex β fun s => (g (tree.get s).layers, s)
  | dirtySize {β : Type} (g : ℕ → β) :
      MapStep tree sequence ok okIndex β fun s => (g (tree.get s).dirty.toggle.size, s)
  | flag {β : Type} {act : σ → β × σ} {L w : ℕ} (h : ok L w) (hact : Accesses (flagAt tree L w) act) :
      MapStep tree sequence ok okIndex β act
  | dirty {β : Type} {act : σ → β × σ} {L w : ℕ} (h : ok L w) (hact : Accesses (dirtyAt tree L w) act) :
      MapStep tree sequence ok okIndex β act
  | augval {β : Type} {act : σ → β × σ} {L w : ℕ} (h : ok L w) (hact : Accesses (augvalAt tree L w) act) :
      MapStep tree sequence ok okIndex β act
  | entry {β : Type} {act : σ → β × σ} {i : ℕ} (h : okIndex i) (hact : Accesses (entry sequence i) act) :
      MapStep tree sequence ok okIndex β act
  | aside {β : Type} {act : σ → β × σ} (htree : Aside tree act) (hsequence : Aside sequence act) :
      MapStep tree sequence ok okIndex β act

/-- More nodes may be accessed. -/
theorem MapStep.mono {tree : Loc σ (IndexMap T)} {sequence : Loc σ (ℕ → T)} {ok ok' : ℕ → ℕ → Prop}
    {okIndex : ℕ → Prop} (hok : ∀ L w, ok L w → ok' L w) {β : Type} {act : σ → β × σ}
    (h : MapStep tree sequence ok okIndex β act) : MapStep tree sequence ok' okIndex β act := by
  cases h with
  | size g => exact .size g
  | dirtySize g => exact .dirtySize g
  | flag h hact => exact .flag (hok _ _ h) hact
  | dirty h hact => exact .dirty (hok _ _ h) hact
  | augval h hact => exact .augval (hok _ _ h) hact
  | entry h hact => exact .entry h hact
  | aside htree hsequence => exact .aside htree hsequence

section Guarded

variable {I : σ → Prop} {A : Kind σ} {C : ProgClass σ ι} {tree : Loc σ (IndexMap T)} {sequence : Loc σ (ℕ → T)}

/-- The steps of an extraction, in states whose flags lie inside the layers. -/
structure Extracts (n : ℕ) (tree : Loc σ (IndexMap T)) (sequence : Loc σ (ℕ → T)) (I : σ → Prop) (A : Kind σ) :
    Prop where
  flags : ∀ s, I s → Shape n (tree.get s).flag
  size : A _ fun s => ((tree.get s).layers, s)
  readFlag : ∀ L w, InTree n L w → A _ fun s => ((flagAt tree L w).get s, s)
  readAugval : ∀ L w, InTree n L w → A _ fun s => ((augvalAt tree L w).get s, s)
  readEntry : ∀ i < n, A _ fun s => ((entry sequence i).get s, s)
  writeFlag : ∀ L w, InTree n L w → ∀ x, Fits n L w x → A _ fun s => ((), (flagAt tree L w).put x s)
  writeAugval : ∀ L w, InTree n L w → ∀ x, A _ fun s => ((), (augvalAt tree L w).put x s)

section Extract

variable (h : Extracts n tree sequence I A)
include h

/-- The number of layers is read. -/
theorem size_guarded :
    Guarded I A C (read fun s => (tree.get s).layers : Prog σ ι ℕ) fun size => size = numLayers n :=
  Guarded.act h.size fun s hs => (h.flags s hs).size

/-- A word of flags of the tree is read, and its flags are of nodes or indices that exist. -/
theorem readFlag_guarded {L w : ℕ} (hin : InTree n L w) :
    Guarded I A C (atomicRead (flagAt tree L w) : Prog σ ι Word) (Fits n L w) :=
  Guarded.act (h.readFlag L w hin) fun s hs => (h.flags s hs).load_fits hin.1 w

/-- An augmented value of the tree is read. -/
theorem readAugval_guarded {L w : ℕ} (hin : InTree n L w) :
    Guarded I A C (atomicRead (augvalAt tree L w) : Prog σ ι T) fun _ => True :=
  Guarded.act (h.readAugval L w hin) fun _ _ => trivial

/-- An entry of the sequence is read. -/
theorem readEntry_guarded {i : ℕ} (hi : i < n) :
    Guarded I A C (atomicRead (entry sequence i) : Prog σ ι T) fun _ => True :=
  Guarded.act (h.readEntry i hi) fun _ _ => trivial

/-- A word of flags of the tree is written. -/
theorem writeFlag_guarded {L w : ℕ} (hin : InTree n L w) {x : Word} (hx : Fits n L w x) :
    Guarded I A C (atomicWrite (flagAt tree L w) x : Prog σ ι Unit) fun _ => True :=
  Guarded.act (h.writeFlag L w hin x hx) fun _ _ => trivial

/-- An augmented value of the tree is written. -/
theorem writeAugval_guarded {L w : ℕ} (hin : InTree n L w) (x : T) :
    Guarded I A C (atomicWrite (augvalAt tree L w) x : Prog σ ι Unit) fun _ => True :=
  Guarded.act (h.writeAugval L w hin x) fun _ _ => trivial

variable [LinearOrder T]

/-- The minimum with an entry of the sequence stays inside. -/
theorem minEntry_guarded {i : ℕ} (hi : i < n) (aggregate : T) :
    Guarded I A C (minEntry sequence aggregate i : Prog σ ι T) fun _ => True :=
  (readEntry_guarded h hi).bind fun _ _ =>
    Guarded.ite (fun _ => readEntry_guarded h hi) fun _ => Guarded.ret trivial

variable [OrderTop T]

end Extract

section Repair

/-- The steps of a repair, in states whose flags and dirty flags lie inside the layers. -/
structure Repairs (n : ℕ) (tree : Loc σ (IndexMap T)) (sequence : Loc σ (ℕ → T)) (I : σ → Prop) (A : Kind σ) :
    Prop extends Extracts n tree sequence I A where
  dirties : ∀ s, I s → Shape n (tree.get s).dirty
  readDirty : ∀ L w, InTree n L w → A _ fun s => ((dirtyAt tree L w).get s, s)
  clearDirty : ∀ L w, InTree n L w → A _ fun s => ((), (dirtyAt tree L w).put 0 s)

variable (h : Repairs n tree sequence I A)
include h

/-- A word of dirty flags of the tree is read, and its flags are of nodes or indices that exist. -/
theorem readDirty_guarded {L w : ℕ} (hin : InTree n L w) :
    Guarded I A C (atomicRead (dirtyAt tree L w) : Prog σ ι Word) (Fits n L w) :=
  Guarded.act (h.readDirty L w hin) fun s hs => (h.dirties s hs).load_fits hin.1 w

/-- Moving the dirty flags of a node stays inside. -/
theorem takeDirty_guarded {L w : ℕ} (hin : InTree n L w) :
    Guarded I A C (takeDirty tree L w : Prog σ ι Word) (Fits n L w) := by
  refine (readDirty_guarded h hin).bind fun dirty hdirty => ?_
  refine (Guarded.act (Q := fun _ => True) (h.clearDirty L w hin) fun _ _ => trivial).bind fun _ _ => ?_
  refine (readFlag_guarded h.toExtracts hin).bind fun flag hflag => ?_
  exact (writeFlag_guarded h.toExtracts hin (hflag.or hdirty)).bind fun _ _ => Guarded.ret hdirty

variable [LinearOrder T]

/-- `repair` stays inside below a node of the tree. -/
theorem repairAt_guarded {L w : ℕ} (hin : InTree n L w) :
    Guarded I A C (repairAt tree sequence L (w * 64 ^ (L + 1)) : Prog σ ι T) fun _ => True := by
  have hwrite {L w : ℕ} (hin : InTree n L w) (aggregate : T) :
      Guarded I A C (atomicWrite (augvalAt tree L w) aggregate >>= fun _ => ret aggregate : Prog σ ι T)
        fun _ => True :=
    (writeAugval_guarded h.toExtracts hin aggregate).bind fun _ _ => Guarded.ret trivial
  induction L generalizing w with
  | zero =>
    unfold repairAt
    rw [wordId_node]
    refine (takeDirty_guarded h hin).bind fun dirty hdirty => ?_
    refine (readAugval_guarded h.toExtracts hin).bind fun augval _ => ?_
    refine (Guarded.foldFor (J := fun _ => True) trivial fun i aggregate _ hi _ => ?_).bind
      fun aggregate _ => hwrite hin aggregate
    rw [leaf_index]
    exact minEntry_guarded h.toExtracts (hdirty _ (popOffset_mem_bits hi)) aggregate
  | succ L ih =>
    unfold repairAt
    rw [wordId_node]
    refine (takeDirty_guarded h hin).bind fun dirty hdirty => ?_
    refine (readAugval_guarded h.toExtracts hin).bind fun augval _ => ?_
    refine (collect_guarded hin.1 (fun v hv => ih hv) hdirty).bind fun aggregates _ => ?_
    exact hwrite hin (aggregates.foldl min augval)

/-- `repair` stays inside. -/
theorem repair_guarded (hn : 1 ≤ n) : Guarded I A C (repair tree sequence : Prog σ ι T) fun _ => True := by
  refine (size_guarded h.toExtracts).bind fun size hsize => ?_
  subst hsize
  refine (readDirty_guarded h (inTree_root hn)).bind fun dirty _ =>
    Guarded.ite (fun _ => readAugval_guarded h.toExtracts (inTree_root hn)) fun _ => ?_
  refine (size_guarded h.toExtracts).bind fun size hsize => ?_
  subst hsize
  have hat :
    Guarded I A C (repairAt tree sequence (numLayers n - 1) (0 * 64 ^ (numLayers n - 1 + 1)) : Prog σ ι T)
      fun _ => True := repairAt_guarded h (inTree_root hn)
  rwa [zero_mul] at hat

end Repair

end Guarded

end Program

end IndexMap

end ToggleTree
