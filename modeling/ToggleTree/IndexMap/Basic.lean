import Mathlib.Order.BoundedOrder.Basic
import ToggleTree.Checked.Loop
import ToggleTree.IndexSet.Phase

/-!
# The index map

A set of indices of a sequence as a tree of 64-way nodes, each with the least value of the
sequence over the indices below it. Insertions only mark nodes as dirty; `repair` moves the dirty
flags to the flags and updates the least values along the way. `extractMin` removes all indices
with a value up to a threshold, `extractPrefixMin` those whose value is not above any earlier one.

The fields of the nodes are kept in three trees of their own. The flags and the dirty flags are
layered words as in an index set. The recursive calls of a parallel loop work below different
children, so that only their order is left open: every node has a schedule.
-/

namespace ToggleTree

open Checked

/-- The flags, the dirty flags and the augmented values of the nodes. -/
structure IndexMap (T : Type) where
  flag : IndexSet
  dirty : IndexSet
  augval : ℕ → ℕ → T

namespace IndexMap

open IndexSet (wordId wordOffset offsetIndex layerLength numLayers)

variable {T : Type}

/-- Write `tree[layer][word].flag`. -/
def setFlag (m : IndexMap T) (layer word : ℕ) (x : Word) : IndexMap T :=
  { m with flag := m.flag.store layer word x }

/-- Write `tree[layer][word].dirty`. -/
def setDirty (m : IndexMap T) (layer word : ℕ) (x : Word) : IndexMap T :=
  { m with dirty := m.dirty.store layer word x }

/-- Write `tree[layer][word].augval`. -/
def setAugval (m : IndexMap T) (layer word : ℕ) (x : T) : IndexMap T :=
  { m with augval := fun K v => if K = layer ∧ v = word then x else m.augval K v }

variable [LinearOrder T] [OrderTop T]

/-- The least of some values, and of an initial one. -/
def leastOf (init : T) (l : List ℕ) (value : ℕ → T) : T :=
  l.foldl (fun aggregate i => min aggregate (value i)) init

/-- The augmented values of a layer with `length` flags above the given values. -/
def initLayer (initValue : Bool) (length : ℕ) (value : ℕ → T) (word : ℕ) : T :=
  if initValue then
    leastOf ⊤ (List.range' (word <<< 6) (min length ((word <<< 6) + 64) - (word <<< 6))) value
  else ⊤

/-- The augmented values of all layers. -/
def initAugval (sequence : ℕ → T) (n : ℕ) (initValue : Bool) : ℕ → ℕ → T
  | 0, word => initLayer initValue n sequence word
  | layer + 1, word => initLayer initValue (layerLength n (layer + 1))
    (initAugval sequence n initValue layer) word

/-- The constructor for a sequence of length `n`. -/
def create (sequence : ℕ → T) (n : ℕ) (initValue : Bool) : IndexMap T :=
  ⟨IndexSet.create n initValue, IndexSet.create n false, initAugval sequence n initValue⟩

/-- `tree.size()`. -/
def layers (m : IndexMap T) : ℕ := m.flag.toggle.size

/-- `empty` -/
def empty (m : IndexMap T) : Bool := m.flag.load (m.layers - 1) 0 = 0

/-- `insert` works on the dirty flags, and its accesses are those of an insertion into an index set: a
fetch-and-or on the leaf and fetch-and-adds above, until the old word is not zero. -/
def insert (index : ℕ) : ForkJoin.Prog IndexSet Empty Bool := IndexSet.insert Loc.self index

section Repair

variable (schedule : ℕ → ℕ → Schedule) (sequence : ℕ → T)

/-- `repair(layer, index)`: the new augmented value and the new map. -/
def repairAt : ℕ → ℕ → IndexMap T → T × IndexMap T
  | 0, index, m =>
      let word := wordId 0 index
      let dirty := m.dirty.load 0 word
      let m := m.setDirty 0 word 0
      let m := m.setFlag 0 word (m.flag.load 0 word ||| dirty)
      let aggregate := leastOf (m.augval 0 word) (List.range (popCount dirty)) fun i =>
        sequence (index + popOffset i dirty)
      (aggregate, m.setAugval 0 word aggregate)
  | layer + 1, index, m =>
      let word := wordId (layer + 1) index
      let dirty := m.dirty.load (layer + 1) word
      let m := m.setDirty (layer + 1) word 0
      let m := m.setFlag (layer + 1) word (m.flag.load (layer + 1) word ||| dirty)
      let r := parallelFold (schedule (layer + 1) word) (popCount dirty) ((fun _ => ⊤ : ℕ → T), m) fun i r =>
        let q := repairAt layer (index + offsetIndex (layer + 1) (popOffset i dirty)) r.2
        (Function.update r.1 i q.1, q.2)
      let aggregate := leastOf (r.2.augval (layer + 1) word) (List.range (popCount dirty)) r.1
      (aggregate, r.2.setAugval (layer + 1) word aggregate)

/-- `repair` -/
def repair (m : IndexMap T) : T × IndexMap T :=
  if m.dirty.load (m.layers - 1) 0 = 0 then (m.augval (m.layers - 1) 0, m)
  else repairAt schedule sequence (m.layers - 1) 0 m

end Repair

section Extract

variable (schedule : ℕ → ℕ → Schedule) (sequence : ℕ → T)

/-- What the loop over the flags of a leaf has found: the word and the least value of what stays, and the
vertices that have been passed to the function. -/
structure LeafScan (T : Type) where
  newWord : Word
  aggregate : T
  extracted : List ℕ

/-- The loop over the flags of a leaf node of `extract_min`. -/
def scanLeaf (threshold : T) (index : ℕ) (word : Word) : LeafScan T :=
  (List.range (popCount word)).foldl (fun r i =>
    let vertex := index + popOffset i word
    if sequence vertex ≤ threshold then { r with extracted := r.extracted ++ [vertex] }
    else { r with newWord := r.newWord ||| wordOffset 0 vertex, aggregate := min r.aggregate (sequence vertex) })
    ⟨0, ⊤, []⟩

/-- What the first loop over the flags of an inner node has found: the word and the least value of the children
that stay as they are, and the selected children. -/
structure NodeScan (T : Type) where
  newWord : Word
  aggregate : T
  childIndices : List ℕ

/-- The first loop over the flags of an inner node of `extract_min`. -/
def scanNode (threshold : T) (layer index : ℕ) (word : Word) (m : IndexMap T) : NodeScan T :=
  (List.range (popCount word)).foldl (fun r i =>
    let offset := popOffset i word
    let childIndex := index + offsetIndex (layer + 1) offset
    let childAugval := m.augval layer (wordId layer childIndex)
    if childAugval ≤ threshold then { r with childIndices := r.childIndices ++ [childIndex] }
    else { r with newWord := r.newWord ||| ToggleTree.flag offset, aggregate := min r.aggregate childAugval })
    ⟨0, ⊤, []⟩

/-- `extract_min(layer, index, threshold, f)`: the count, the new map, and the vertices that have been
passed to `f`, latest last. -/
def extractMinAt (threshold : T) : ℕ → ℕ → IndexMap T × List ℕ → ℕ × IndexMap T × List ℕ
  | 0, index, (m, calls) =>
      let word := wordId 0 index
      let r := scanLeaf sequence threshold index (m.flag.load 0 word)
      (r.extracted.length, (m.setFlag 0 word r.newWord).setAugval 0 word r.aggregate, calls ++ r.extracted)
  | layer + 1, index, (m, calls) =>
      let word := wordId (layer + 1) index
      let r := scanNode threshold layer index (m.flag.load (layer + 1) word) m
      let selectedCount := r.childIndices.length
      let q := parallelFold (schedule (layer + 1) word) selectedCount
        ((fun _ => 0 : ℕ → ℕ), (fun _ => ⊤ : ℕ → T), m, calls) fun i q =>
          let childIndex := r.childIndices.getD i 0
          let p := extractMinAt threshold layer childIndex q.2.2
          (Function.update q.1 i p.1, Function.update q.2.1 i (p.2.1.augval layer (wordId layer childIndex)), p.2)
      let count := ((List.range selectedCount).map q.1).sum
      let aggregate := leastOf r.aggregate (List.range selectedCount) q.2.1
      let newWord := (List.range selectedCount).foldl (fun newWord i =>
        let childIndex := r.childIndices.getD i 0
        if q.2.2.1.flag.load layer (wordId layer childIndex) ≠ 0 then newWord ||| wordOffset (layer + 1)
          childIndex else newWord)
        r.newWord
      (count, (q.2.2.1.setFlag (layer + 1) word newWord).setAugval (layer + 1) word aggregate, q.2.2.2)

/-- `extract_min(threshold, f)`: the count, the new map, and the vertices that have been passed to `f`.
-/
def extractMin (threshold : T) (m : IndexMap T) : ℕ × IndexMap T × List ℕ :=
  if m.empty then (0, m, []) else extractMinAt schedule sequence threshold (m.layers - 1) 0 (m, [])

/-- The loop over the flags of a leaf node of `extract_prefix_min`: the word and the least value of what
stays, and the least value so far. -/
def scanLeafPrefix (prefixMin : T) (index : ℕ) (word : Word) : Word × T × T :=
  (List.range (popCount word)).foldl (fun r i =>
    let vertex := index + popOffset i word
    if sequence vertex ≤ r.2.2 then (r.1, r.2.1, sequence vertex)
    else (r.1 ||| wordOffset 0 vertex, min r.2.1 (sequence vertex), r.2.2))
    (0, ⊤, prefixMin)

/-- What the first loop of an inner node of `extract_prefix_min` has found. The prefixes belong to the
selected children. -/
structure PrefixScan (T : Type) where
  newWord : Word
  aggregate : T
  childIndices : List (ℕ × T)
  prefixMin : T

/-- The first loop over the flags of an inner node of `extract_prefix_min`. -/
def scanNodePrefix (prefixMin : T) (layer index : ℕ) (word : Word) (m : IndexMap T) : PrefixScan T :=
  (List.range (popCount word)).foldl (fun r i =>
    let offset := popOffset i word
    let childIndex := index + offsetIndex (layer + 1) offset
    let childAugval := m.augval layer (wordId layer childIndex)
    if childAugval ≤ r.prefixMin then
      { r with childIndices := r.childIndices ++ [(childIndex, r.prefixMin)], prefixMin := childAugval }
    else { r with newWord := r.newWord ||| ToggleTree.flag offset, aggregate := min r.aggregate childAugval })
    ⟨0, ⊤, [], prefixMin⟩

/-- `extract_prefix_min(layer, index, prefix_min)`. -/
def extractPrefixMinAt : ℕ → ℕ → T → IndexMap T → IndexMap T
  | 0, index, prefixMin, m =>
      let word := wordId 0 index
      let r := scanLeafPrefix sequence prefixMin index (m.flag.load 0 word)
      (m.setFlag 0 word r.1).setAugval 0 word r.2.1
  | layer + 1, index, prefixMin, m =>
      let word := wordId (layer + 1) index
      let r := scanNodePrefix prefixMin layer index (m.flag.load (layer + 1) word) m
      let selectedCount := r.childIndices.length
      let m := parallelFold (schedule (layer + 1) word) selectedCount m fun i m =>
        let child := r.childIndices.getD i (0, ⊤)
        extractPrefixMinAt layer child.1 child.2 m
      let q := (List.range selectedCount).foldl (fun q i =>
        let child := r.childIndices.getD i (0, ⊤)
        if m.flag.load layer (wordId layer child.1) ≠ 0 then
          (q.1 ||| wordOffset (layer + 1) child.1, min q.2 (m.augval layer (wordId layer child.1)))
        else q) (r.newWord, r.aggregate)
      (m.setFlag (layer + 1) word q.1).setAugval (layer + 1) word q.2

/-- `extract_prefix_min` -/
def extractPrefixMin (m : IndexMap T) : IndexMap T :=
  if m.empty then m else extractPrefixMinAt schedule sequence (m.layers - 1) 0 ⊤ m

end Extract

end IndexMap

end ToggleTree
