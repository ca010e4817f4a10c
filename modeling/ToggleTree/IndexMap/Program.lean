import ToggleTree.IndexMap.Concurrent

/-!
# The other operations as programs

`empty`, `repair` and `extract_prefix_min` with a step for every access to a node and to the
sequence, as `extract_min` and `insert` have them.
-/

namespace ToggleTree

open ForkJoin ForkJoin.Prog

namespace IndexMap

namespace Program

open IndexSet (wordId wordOffset offsetIndex)
open Concurrent (flagAt augvalAt dirtyFlags entry minEntry)

variable {σ ι T : Type}

section Repair

variable [LinearOrder T] (tree : Loc σ (IndexMap T)) (sequence : Loc σ (ℕ → T))

/-- The location of `tree[layer][word].dirty`. -/
def dirtyAt (layer word : ℕ) : Loc σ Word := IndexSet.word (dirtyFlags tree) layer word

/-- Move the dirty flags of a node to its flags. -/
def takeDirty (layer word : ℕ) : Prog σ ι Word := do
  let dirty ← atomicRead (dirtyAt tree layer word)
  atomicWrite (dirtyAt tree layer word) 0
  let flag ← atomicRead (flagAt tree layer word)
  atomicWrite (flagAt tree layer word) (flag ||| dirty)
  return dirty

/-- `repair(layer, index)`. -/
def repairAt : ℕ → ℕ → Prog σ ι T
  | 0, index => do
      let dirty ← takeDirty tree 0 (wordId 0 index)
      let augval ← atomicRead (augvalAt tree 0 (wordId 0 index))
      let aggregate ← foldFor 0 (popCount dirty) augval fun i aggregate =>
        minEntry sequence aggregate (index + popOffset i dirty)
      atomicWrite (augvalAt tree 0 (wordId 0 index)) aggregate
      return aggregate
  | layer + 1, index => do
      let dirty ← takeDirty tree (layer + 1) (wordId (layer + 1) index)
      let augval ← atomicRead (augvalAt tree (layer + 1) (wordId (layer + 1) index))
      let aggregates ← parallelCollect 0 (popCount dirty) fun i =>
        repairAt layer (index + offsetIndex (layer + 1) (popOffset i dirty))
      let aggregate := aggregates.foldl min augval
      atomicWrite (augvalAt tree (layer + 1) (wordId (layer + 1) index)) aggregate
      return aggregate

/-- `repair` -/
def repair : Prog σ ι T := do
  let size ← read fun s => (tree.get s).layers
  let dirty ← atomicRead (dirtyAt tree (size - 1) 0)
  if dirty = 0 then atomicRead (augvalAt tree (size - 1) 0)
  else do
    let size ← read fun s => (tree.get s).layers
    repairAt tree sequence (size - 1) 0

end Repair

section ExtractPrefix

variable [LinearOrder T] [OrderTop T] (tree : Loc σ (IndexMap T)) (sequence : Loc σ (ℕ → T))

/-- `empty()`. -/
def empty : Prog σ ι Bool := do
  let size ← read fun s => (tree.get s).layers
  let root ← atomicRead (flagAt tree (size - 1) 0)
  return root = 0

/-- The loop over the flags of a leaf node of `extract_prefix_min`: the word and the least value of what
stays, and the least value so far. -/
def extractPrefixLeaf (prefixMin : T) (index : ℕ) (word : Word) : Prog σ ι (Word × T × T) :=
  foldFor 0 (popCount word) (0, ⊤, prefixMin) fun i r => do
    let vertex := index + popOffset i word
    let value ← atomicRead (entry sequence vertex)
    if value ≤ r.2.2 then do
      let value ← atomicRead (entry sequence vertex)
      return (r.1, r.2.1, value)
    else do
      let aggregate ← minEntry sequence r.2.1 vertex
      return (r.1 ||| wordOffset 0 vertex, aggregate, r.2.2)

/-- The first loop over the flags of an inner node of `extract_prefix_min`. -/
def selectPrefixChildren (prefixMin : T) (layer index : ℕ) (word : Word) : Prog σ ι (PrefixScan T) :=
  foldFor 0 (popCount word) ⟨0, ⊤, [], prefixMin⟩ fun i r => do
    let offset := popOffset i word
    let childIndex := index + offsetIndex (layer + 1) offset
    let childAugval ← atomicRead (augvalAt tree layer (wordId layer childIndex))
    if childAugval ≤ r.prefixMin then
      return { r with childIndices := r.childIndices ++ [(childIndex, r.prefixMin)], prefixMin := childAugval }
    else return { r with
      newWord := r.newWord ||| ToggleTree.flag offset
      aggregate := min r.aggregate childAugval }

/-- The last loop over the selected children of an inner node of `extract_prefix_min`. -/
def gatherPrefixChildren (layer : ℕ) (r : PrefixScan T) : Prog σ ι (Word × T) :=
  foldFor 0 r.childIndices.length (r.newWord, r.aggregate) fun i q => do
    let child := r.childIndices.getD i (0, ⊤)
    let childFlag ← atomicRead (flagAt tree layer (wordId layer child.1))
    if childFlag ≠ 0 then do
      let childAugval ← atomicRead (augvalAt tree layer (wordId layer child.1))
      return (q.1 ||| wordOffset (layer + 1) child.1, min q.2 childAugval)
    else return q

/-- `extract_prefix_min(layer, index, prefix_min)`. -/
def extractPrefixMinAt : ℕ → ℕ → T → Prog σ ι Unit
  | 0, index, prefixMin => do
      let word ← atomicRead (flagAt tree 0 (wordId 0 index))
      let r ← extractPrefixLeaf sequence prefixMin index word
      atomicWrite (flagAt tree 0 (wordId 0 index)) r.1
      atomicWrite (augvalAt tree 0 (wordId 0 index)) r.2.1
  | layer + 1, index, prefixMin => do
      let word ← atomicRead (flagAt tree (layer + 1) (wordId (layer + 1) index))
      let scan ← selectPrefixChildren tree prefixMin layer index word
      parallelFor 0 scan.childIndices.length fun i =>
        extractPrefixMinAt layer (scan.childIndices.getD i (0, ⊤)).1 (scan.childIndices.getD i (0, ⊤)).2
      let q ← gatherPrefixChildren tree layer scan
      atomicWrite (flagAt tree (layer + 1) (wordId (layer + 1) index)) q.1
      atomicWrite (augvalAt tree (layer + 1) (wordId (layer + 1) index)) q.2

/-- `extract_prefix_min` -/
def extractPrefixMin : Prog σ ι Unit := do
  if ← empty tree then return ()
  else do
    let size ← read fun s => (tree.get s).layers
    extractPrefixMinAt tree sequence (size - 1) 0 ⊤

end ExtractPrefix

end Program

end IndexMap

end ToggleTree
