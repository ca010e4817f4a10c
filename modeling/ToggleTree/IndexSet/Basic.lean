import ToggleTree.Parallel.Atomic

/-!
# The index set

A set of indices below `n` as a tree of 64-way words. Bit `i` of layer 0 says whether `i`
is in the set; bit `j` of a higher layer says whether word `j` of the layer below is
nonzero. Updates touch a higher layer only when a word becomes nonzero or zero, and
traversals descend only into nonzero words.

The granularity field of the source is left out: it only steers the scheduling of
parallel loops.
-/

namespace ToggleTree

open ForkJoin ForkJoin.Prog

/-- The layers of words, leaves first. -/
structure IndexSet where
  toggle : Array (Array Word)

namespace IndexSet

/-- The word of a layer that covers an index. -/
def wordId (layer index : ℕ) : ℕ := index >>> (6 * (layer + 1))

/-- The flag of an index in its word. -/
def wordOffset (layer index : ℕ) : Word := flag ((index >>> (6 * layer)) &&& 63)

/-- The first index below the flag `offset` of a word at index 0. -/
def offsetIndex (layer offset : ℕ) : ℕ := offset <<< (6 * layer)

/-- The number of layers above the layer whose word count is `length`, itself included. -/
def countLayers (length : ℕ) : ℕ :=
  if 1 < length then countLayers ((length + 63) >>> 6) + 1 else 1
termination_by length
decreasing_by
  rw [Nat.shiftRight_eq_div_pow]
  omega

/-- The words of a layer with `length` flags. -/
def initLayer (length : ℕ) (initValue : Bool) : Array Word :=
  let words := Array.replicate ((length + 63) >>> 6) (if initValue then BitVec.allOnes 64 else 0)
  if initValue = true ∧ length &&& 63 ≠ 0 then
    words.setIfInBounds (words.size - 1) (flag (length &&& 63) - 1)
  else words

/-- The given number of layers, the lowest one with `length` flags. -/
def initLayers : ℕ → ℕ → Bool → List (Array Word)
  | 0, _, _ => []
  | layers + 1, length, initValue =>
      initLayer length initValue :: initLayers layers ((length + 63) >>> 6) initValue

/-- The constructor: all indices below `n` or none of them. -/
def create (n : ℕ) (initValue : Bool) : IndexSet :=
  ⟨(initLayers (countLayers ((n + 63) >>> 6)) n initValue).toArray⟩

/-- The number of words of a layer. -/
def width (s : IndexSet) (layer : ℕ) : ℕ := (s.toggle.getD layer #[]).size

/-- Read `toggle[layer][word]`. -/
def load (s : IndexSet) (layer word : ℕ) : Word := (s.toggle.getD layer #[]).getD word 0

/-- Write `toggle[layer][word]`. -/
def store (s : IndexSet) (layer word : ℕ) (x : Word) : IndexSet :=
  ⟨s.toggle.modify layer fun words => words.setIfInBounds word x⟩

section Operations

variable {σ ι : Type} (ℓ : Loc σ IndexSet)

/-- The location of `toggle[layer][word]`. -/
def word (layer word : ℕ) : Loc σ Word where
  get s := (ℓ.get s).load layer word
  put x s := ℓ.put ((ℓ.get s).store layer word x) s

/-- `toggle.size()`. -/
def layers : Prog σ ι ℕ := read fun s => (ℓ.get s).toggle.size

/-- `empty` -/
def empty : Prog σ ι Bool := do
  let size ← layers ℓ
  let root ← atomicRead (word ℓ (size - 1) 0)
  return root = 0

/-- `contains` -/
def contains (index : ℕ) : Prog σ ι Bool := do
  let leaf ← atomicRead (word ℓ 0 (wordId 0 index))
  return leaf &&& wordOffset 0 index ≠ 0

/-- The loop of `insert` over the upper layers. -/
def insertUp (index size layer : ℕ) : Prog σ ι Bool :=
  if layer < size then do
    let oldWord ← fetchAndAdd (word ℓ layer (wordId layer index)) (wordOffset layer index)
    if oldWord ≠ 0 then return true else insertUp index size (layer + 1)
  else return true
termination_by size - layer

/-- `insert` -/
def insert (index : ℕ) : Prog σ ι Bool := do
  let offset := wordOffset 0 index
  let oldWord ← fetchAndOr (word ℓ 0 (wordId 0 index)) offset
  if oldWord ≠ 0 then return oldWord &&& offset = 0
  else do
    let size ← layers ℓ
    insertUp ℓ index size 1

/-- The loop of `remove` over the upper layers. -/
def removeUp (index size layer : ℕ) : Prog σ ι Bool :=
  if layer < size then do
    let oldWord ← fetchAndSub (word ℓ layer (wordId layer index)) (wordOffset layer index)
    if oldWord ≠ wordOffset layer index then return true else removeUp index size (layer + 1)
  else return true
termination_by size - layer

/-- `remove` -/
def remove (index : ℕ) : Prog σ ι Bool := do
  let offset := wordOffset 0 index
  let oldWord ← fetchAndAnd (word ℓ 0 (wordId 0 index)) (~~~offset)
  if oldWord ≠ offset then return oldWord &&& offset ≠ 0
  else do
    let size ← layers ℓ
    removeUp ℓ index size 1

/-- Read the word of a node, clearing it if `consume` is set. -/
def visitWord (consume : Bool) (layer index : ℕ) : Prog σ ι Word := do
  let w ← atomicRead (word ℓ layer (wordId layer index))
  if consume then
    atomicWrite (word ℓ layer (wordId layer index)) 0
    return w
  else return w

/-- `for_each<Consume>(layer, index, f)`. -/
def forEachAt (consume : Bool) (f : ℕ → Prog σ ι Unit) : ℕ → ℕ → Prog σ ι Unit
  | 0, index => do
      let w ← visitWord ℓ consume 0 index
      parallelFor 0 (popCount w) fun i => f (index + popOffset i w)
  | layer + 1, index => do
      let w ← visitWord ℓ consume (layer + 1) index
      parallelFor 0 (popCount w) fun i =>
        forEachAt consume f layer (index + offsetIndex (layer + 1) (popOffset i w))

/-- `for_each` -/
def forEach (f : ℕ → Prog σ ι Unit) : Prog σ ι Unit := do
  if ← empty ℓ then return ()
  else do
    let size ← layers ℓ
    forEachAt ℓ false f (size - 1) 0

/-- `consume_each` -/
def consumeEach (f : ℕ → Prog σ ι Unit) : Prog σ ι Unit := do
  if ← empty ℓ then return ()
  else do
    let size ← layers ℓ
    forEachAt ℓ true f (size - 1) 0

/-- Shift counts are taken modulo 64, as the machine instruction does; the language leaves
larger counts undefined. -/
def shl (x : Word) (count : ℕ) : Word := x <<< (count % 64)

/-- A shift to the right, by the count modulo 64 as the machine does it. -/
def shr (x : Word) (count : ℕ) : Word := x >>> (count % 64)

/-- The shift count that drops the flags of a node below `l`. -/
def lowShift (layer index l : ℕ) : ℕ :=
  if l > index then (l - index) / offsetIndex layer 1 else 0

/-- The shift count that drops the flags of a node from `r` on. -/
def highShift (layer index r : ℕ) : ℕ :=
  if r < index + offsetIndex layer 64 then (index + offsetIndex layer 64 - r) / offsetIndex layer 1
  else 0

/-- The flags of a node that `for_range` keeps. -/
def rangeMask (layer index l r : ℕ) : Word :=
  shl (BitVec.allOnes 64) (lowShift layer index l) &&& shr (BitVec.allOnes 64) (highShift layer index r)

/-- `for_range<Consume>(layer, index, l, r, f)`. -/
def forRangeAt (consume : Bool) (l r : ℕ) (f : ℕ → Prog σ ι Unit) : ℕ → ℕ → Prog σ ι Unit
  | 0, index => do
      let full ← atomicRead (word ℓ 0 (wordId 0 index))
      let w := full &&& rangeMask 0 index l r
      parallelFor 0 (popCount w) fun i => do
        let leaf := index + popOffset i w
        f leaf
        if consume then do
          let _ ← remove ℓ leaf
        else return ()
  | layer + 1, index => do
      let full ← atomicRead (word ℓ (layer + 1) (wordId (layer + 1) index))
      let w := full &&& rangeMask (layer + 1) index l r
      parallelFor 0 (popCount w) fun i =>
        forRangeAt consume l r f layer (index + offsetIndex (layer + 1) (popOffset i w))

/-- `for_range` -/
def forRange (l r : ℕ) (f : ℕ → Prog σ ι Unit) : Prog σ ι Unit := do
  let isEmpty ← empty ℓ
  if isEmpty = true ∨ l ≥ r then return ()
  else do
    let size ← layers ℓ
    forRangeAt ℓ false l r f (size - 1) 0

/-- `consume_range` -/
def consumeRange (l r : ℕ) (f : ℕ → Prog σ ι Unit) : Prog σ ι Unit := do
  let isEmpty ← empty ℓ
  if isEmpty = true ∨ l ≥ r then return ()
  else do
    let size ← layers ℓ
    forRangeAt ℓ true l r f (size - 1) 0

variable {T : Type} (combine : T → T → T) (identity : T)

/-- `reduce<Combine, Identity>(layer, index, f)`. -/
def reduceAt (f : ℕ → Prog σ ι T) : ℕ → ℕ → Prog σ ι T
  | 0, index => do
      let w ← atomicRead (word ℓ 0 (wordId 0 index))
      foldFor 0 (popCount w) identity fun i aggregate => do
        let x ← f (index + popOffset i w)
        return combine aggregate x
  | 1, index => do
      let w ← atomicRead (word ℓ 1 (wordId 1 index))
      foldFor 0 (popCount w) identity fun i aggregate => do
        let childIndex := index + offsetIndex 1 (popOffset i w)
        let childWord ← atomicRead (word ℓ 0 (wordId 0 childIndex))
        foldFor 0 (popCount childWord) aggregate fun j aggregate => do
          let x ← f (childIndex + offsetIndex 0 (popOffset j childWord))
          return combine aggregate x
  | layer + 2, index => do
      let w ← atomicRead (word ℓ (layer + 2) (wordId (layer + 2) index))
      let aggregates ← parallelCollect 0 (popCount w) fun i =>
        reduceAt f (layer + 1) (index + offsetIndex (layer + 2) (popOffset i w))
      return aggregates.foldl combine identity

/-- `reduce` -/
def reduce (f : ℕ → Prog σ ι T) : Prog σ ι T := do
  if ← empty ℓ then return identity
  else do
    let size ← layers ℓ
    reduceAt ℓ combine identity f (size - 1) 0

/-- `num_elements(layer, index)`. -/
def numElementsAt : ℕ → ℕ → Prog σ ι ℕ
  | 0, index => do
      let w ← atomicRead (word ℓ 0 (wordId 0 index))
      return popCount w
  | 1, index => do
      let w ← atomicRead (word ℓ 1 (wordId 1 index))
      foldFor 0 (popCount w) 0 fun i aggregate => do
        let leaf ← atomicRead (word ℓ 0 (wordId 0 (index + offsetIndex 1 (popOffset i w))))
        return aggregate + popCount leaf
  | 2, index => do
      let w ← atomicRead (word ℓ 2 (wordId 2 index))
      foldFor 0 (popCount w) 0 fun i aggregate => do
        let childIndex := index + offsetIndex 2 (popOffset i w)
        let childWord ← atomicRead (word ℓ 1 (wordId 1 childIndex))
        foldFor 0 (popCount childWord) aggregate fun j aggregate => do
          let leaf ← atomicRead
            (word ℓ 0 (wordId 0 (childIndex + offsetIndex 1 (popOffset j childWord))))
          return aggregate + popCount leaf
  | layer + 3, index => do
      let w ← atomicRead (word ℓ (layer + 3) (wordId (layer + 3) index))
      let aggregates ← parallelCollect 0 (popCount w) fun i =>
        numElementsAt (layer + 2) (index + offsetIndex (layer + 3) (popOffset i w))
      return aggregates.foldl (· + ·) 0

/-- `num_elements` -/
def numElements : Prog σ ι ℕ := do
  if ← empty ℓ then return 0
  else do
    let size ← layers ℓ
    numElementsAt ℓ (size - 1) 0

/-- One step of the generator that `sample` keeps for each thread. -/
def rollDice (dice : Word) : Word :=
  let a := dice ^^^ (dice <<< 13)
  let b := a ^^^ (a >>> 7)
  b ^^^ (b <<< 17)

/-- The loop of `sample`, with the dice it leaves behind. -/
def sampleAt (dice : Word) : ℕ → ℕ → Prog σ ι (ℕ × Word)
  | 0, index => do
      let w ← atomicRead (word ℓ 0 (wordId 0 index))
      let rolled := rollDice dice
      return (index + offsetIndex 0 (popOffset (rolled.toNat % popCount w) w), rolled)
  | layer + 1, index => do
      let w ← atomicRead (word ℓ (layer + 1) (wordId (layer + 1) index))
      let rolled := rollDice dice
      sampleAt rolled layer
        (index + offsetIndex (layer + 1) (popOffset (rolled.toNat % popCount w) w))

/-- Draw an element with the dice of the calling thread; the empty set gives `UINT64_MAX`. -/
def sample (dice : Word) : Prog σ ι (ℕ × Word) := do
  if ← empty ℓ then return (2 ^ 64 - 1, dice)
  else do
    let size ← layers ℓ
    sampleAt ℓ dice (size - 1) 0

end Operations

end IndexSet

end ToggleTree
