import ToggleTree.ForkJoin.Calls
import ToggleTree.IndexMap.Basic
import ToggleTree.IndexSet.Update

/-!
# Extraction with callbacks

`extract_min` as a program: every access to a node and to the sequence is a step of its own, so
that the function it calls may lower values and insert indices at any moment of the traversal. A
comparison followed by a copy reads the sequence twice, as `std::min` does.
-/

namespace ToggleTree

open ForkJoin ForkJoin.Prog

namespace IndexMap

namespace Concurrent

open IndexSet (wordId wordOffset offsetIndex)

variable {σ ι T : Type}

section Locations

variable (tree : Loc σ (IndexMap T)) (sequence : Loc σ (ℕ → T))

/-- The location of `tree[layer][word].flag`. -/
def flagAt (layer word : ℕ) : Loc σ Word where
  get s := (tree.get s).flag.load layer word
  put x s := tree.put ((tree.get s).setFlag layer word x) s

/-- The location of `tree[layer][word].augval`. -/
def augvalAt (layer word : ℕ) : Loc σ T where
  get s := (tree.get s).augval layer word
  put x s := tree.put ((tree.get s).setAugval layer word x) s

/-- The dirty flags of all nodes. -/
def dirtyFlags : Loc σ IndexSet where
  get s := (tree.get s).dirty
  put x s := tree.put { tree.get s with dirty := x } s

/-- The location of `sequence[index]`. -/
def entry (index : ℕ) : Loc σ T where
  get s := sequence.get s index
  put x s := sequence.put (Function.update (sequence.get s) index x) s

/-- An entry of a sequence behaves as a variable if the sequence does. -/
theorem entry_lawful (h : sequence.Lawful) (index : ℕ) : (entry sequence index).Lawful where
  get_put x s := by simp [entry, h.get_put]
  put_get s := by simp [entry, h.put_get]
  put_put x y s := by simp [entry, h.get_put, h.put_put]

end Locations

section Extract

variable [LinearOrder T] [OrderTop T] (tree : Loc σ (IndexMap T)) (sequence : Loc σ (ℕ → T))

/-- `insert(index)`. -/
def insert (index : ℕ) : Prog σ ι Bool := IndexSet.insert (dirtyFlags tree) index

/-- The word and the least value of what stays of a node, and the number of calls below it. -/
structure Extracted (T : Type) where
  newWord : Word
  aggregate : T
  count : ℕ

/-- `aggregate = std::min(aggregate, sequence[vertex])`. -/
def minEntry (aggregate : T) (vertex : ℕ) : Prog σ ι T := do
  let compared ← atomicRead (entry sequence vertex)
  if compared < aggregate then atomicRead (entry sequence vertex) else return aggregate

/-- The loop over the flags of a leaf node. The function is given its vertex, and the value that the
test has read. -/
def extractLeaf (threshold : T) (f : ℕ → T → Prog σ ι Unit) (index : ℕ) (word : Word) :
    Prog σ ι (Extracted T) :=
  foldFor 0 (popCount word) ⟨0, ⊤, 0⟩ fun i r => do
    let vertex := index + popOffset i word
    let value ← atomicRead (entry sequence vertex)
    if value ≤ threshold then do
      f vertex value
      return { r with count := r.count + 1 }
    else do
      let aggregate ← minEntry sequence r.aggregate vertex
      return { r with aggregate := aggregate, newWord := r.newWord ||| wordOffset 0 vertex }

/-- The first loop over the flags of an inner node. -/
def selectChildren (threshold : T) (layer index : ℕ) (word : Word) : Prog σ ι (NodeScan T) :=
  foldFor 0 (popCount word) ⟨0, ⊤, []⟩ fun i r => do
    let offset := popOffset i word
    let childIndex := index + offsetIndex (layer + 1) offset
    let childAugval ← atomicRead (augvalAt tree layer (wordId layer childIndex))
    if childAugval ≤ threshold then return { r with childIndices := r.childIndices ++ [childIndex] }
    else return { r with
      newWord := r.newWord ||| ToggleTree.flag offset
      aggregate := min r.aggregate childAugval }

/-- The last loop over the selected children of an inner node, whose counts and least values are given. -/
def gatherChildren (layer : ℕ) (r : NodeScan T) (results : List (ℕ × T)) : Prog σ ι (Extracted T) :=
  foldFor 0 r.childIndices.length ⟨r.newWord, r.aggregate, 0⟩ fun i k => do
    let childIndex := r.childIndices.getD i 0
    let result := results.getD i (0, ⊤)
    let childFlag ← atomicRead (flagAt tree layer (wordId layer childIndex))
    return {
      newWord := if childFlag ≠ 0 then k.newWord ||| wordOffset (layer + 1) childIndex else k.newWord
      aggregate := min k.aggregate result.2
      count := k.count + result.1 }

/-- `extract_min(layer, index, threshold, f)`. -/
def extractMinAt (threshold : T) (f : ℕ → T → Prog σ ι Unit) : ℕ → ℕ → Prog σ ι ℕ
  | 0, index => do
      let word ← atomicRead (flagAt tree 0 (wordId 0 index))
      let r ← extractLeaf sequence threshold f index word
      atomicWrite (flagAt tree 0 (wordId 0 index)) r.newWord
      atomicWrite (augvalAt tree 0 (wordId 0 index)) r.aggregate
      return r.count
  | layer + 1, index => do
      let word ← atomicRead (flagAt tree (layer + 1) (wordId (layer + 1) index))
      let scan ← selectChildren tree threshold layer index word
      let results ← parallelCollect 0 scan.childIndices.length fun i => do
        let childIndex := scan.childIndices.getD i 0
        let count ← extractMinAt threshold f layer childIndex
        let aggregate ← atomicRead (augvalAt tree layer (wordId layer childIndex))
        return (count, aggregate)
      let r ← gatherChildren tree layer scan results
      atomicWrite (flagAt tree (layer + 1) (wordId (layer + 1) index)) r.newWord
      atomicWrite (augvalAt tree (layer + 1) (wordId (layer + 1) index)) r.aggregate
      return r.count

/-- `extract_min(threshold, f)`; the function is also given the value that the test of its vertex
has read, which the function of the source does not see. -/
def extractMin (threshold : T) (f : ℕ → T → Prog σ ι Unit) : Prog σ ι ℕ := do
  let size ← read fun s => (tree.get s).layers
  let root ← atomicRead (flagAt tree (size - 1) 0)
  if root = 0 then return 0
  else do
    let size ← read fun s => (tree.get s).layers
    extractMinAt tree sequence threshold f (size - 1) 0

end Extract

section Calls

variable [LinearOrder T] [OrderTop T] {tree : Loc σ (IndexMap T)} {sequence : Loc σ (ℕ → T)} {own : σ → σ → Prop}
  {f : ℕ → T → Prog σ ι Unit} (hself : ∀ s, own s s)

section ExtractCalls

variable (hput : ∀ m s, m.dirty = (tree.get s).dirty → own s (tree.put m s))
include hput hself

/-- A call of `extract_min` makes steps of its own and calls of the function. -/
theorem calls_extractMinAt (threshold : T) (layer index : ℕ) :
    Calls own (fun k : ℕ × T => f k.1 k.2) (extractMinAt tree sequence threshold f layer index) := by
  have hread {V : Type} (l : Loc σ V) : Calls own (fun k : ℕ × T => f k.1 k.2) (atomicRead l) := Calls.act hself
  have hflag (K v : ℕ) (x : Word) : Calls own (fun k : ℕ × T => f k.1 k.2) (atomicWrite (flagAt tree K v) x) :=
    Calls.act fun s => hput _ s rfl
  have haugval (K v : ℕ) (x : T) : Calls own (fun k : ℕ × T => f k.1 k.2) (atomicWrite (augvalAt tree K v) x) :=
    Calls.act fun s => hput _ s rfl
  induction layer generalizing index with
  | zero =>
    unfold extractMinAt
    refine (hread _).bind fun word => Calls.bind ?_ fun r => (hflag _ _ _).bind fun _ =>
      (haugval _ _ _).bind fun _ => Calls.ret _
    refine Calls.foldFor fun i r => (hread _).bind fun value => ?_
    split
    · exact Calls.visit (index + popOffset i word, value) _ fun _ => Calls.ret _
    · refine Calls.bind ?_ fun _ => Calls.ret _
      refine (hread _).bind fun compared => ?_
      split
      · exact hread _
      · exact Calls.ret _
  | succ layer ih =>
    unfold extractMinAt
    refine (hread _).bind fun word => Calls.bind ?_ fun scan => Calls.bind ?_ fun results =>
      Calls.bind ?_ fun r =>
      (hflag _ _ _).bind fun _ => (haugval _ _ _).bind fun _ => Calls.ret _
    · refine Calls.foldFor fun i r => (hread _).bind fun childAugval => ?_
      split <;> exact Calls.ret _
    · exact Calls.parallelCollect fun i => (ih _).bind fun count => (hread _).bind fun _ => Calls.ret _
    · exact Calls.foldFor fun i r => (hread _).bind fun _ => Calls.ret _

/-- Between its calls of the function, an extraction only works on the nodes. -/
theorem calls_extractMin (threshold : T) :
    Calls own (fun k : ℕ × T => f k.1 k.2) (extractMin tree sequence threshold f) := by
  refine (Calls.act hself).bind fun size => (Calls.act hself).bind fun root => ?_
  split
  · exact Calls.ret 0
  · exact (Calls.act hself).bind fun size => calls_extractMinAt hself hput threshold _ _

end ExtractCalls

include hself in
omit [LinearOrder T] [OrderTop T] in
/-- An insertion only works on the nodes. -/
theorem calls_insert (hput : ∀ m s, own s (tree.put m s)) {κ : Type} (f : κ → Prog σ ι Unit) (index : ℕ) :
    Calls own f (insert tree index) := by
  have hup (size layer : ℕ) : Calls own f (IndexSet.insertUp (dirtyFlags tree) index size layer) := by
    induction hn : size - layer generalizing layer with
    | zero =>
      unfold IndexSet.insertUp
      rw [if_neg (by omega)]
      exact Calls.ret true
    | succ d ih =>
      unfold IndexSet.insertUp
      rw [if_pos (by omega)]
      refine (Calls.act fun s => hput _ s).bind fun old => ?_
      split
      · exact Calls.ret true
      · exact ih _ (by omega)
  refine (Calls.act fun s => hput _ s).bind fun old => ?_
  split
  · exact Calls.ret _
  · exact (Calls.act hself).bind fun size => hup size 1

end Calls

end Concurrent

end IndexMap

end ToggleTree
