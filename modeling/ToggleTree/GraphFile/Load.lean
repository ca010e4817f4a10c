import ToggleTree.Checked.Reduce
import ToggleTree.GraphFile.Binary
import ToggleTree.Primitives.Pack
import ToggleTree.Primitives.SampleSort

/-!
# Loading a graph

A file is read and, if a fingerprint of its edges tells that some edge has no reverse edge, the
reverse edges are added or the incoming edges are computed; then the neighbours of every vertex
are sorted. The fingerprint does not look at the weights.

Iterations of a parallel loop are taken as steps that happen in any order.
-/

namespace ToggleTree

open Checked Primitives

namespace GraphFile

/-- What a run does not take from the file: the workers, the orders of the loops, the contents of new
memory and the sorting function of the standard library. -/
structure Runtime where
  numWorkers : ℕ
  schedules : ℕ → ℕ → Schedule
  uninit : ℕ
  fresh : Byte
  sort : {T : Type} → (T → T → Bool) → List T → List T
  numWorkers_pos : 1 ≤ numWorkers
  /-- The number of workers is read as a 32-bit number. -/
  numWorkers_lt : numWorkers < 2 ^ 32
  sorts : ∀ {T : Type} (less : T → T → Bool), StrictWeakOrder less → Sorts less (sort less)

section Runtime

variable {T : Type} {less : T → T → Bool}

/-- A sorting function for every order. -/
theorem sorts_mergeSort (h : StrictWeakOrder less) : Sorts less fun l => l.mergeSort fun x y => !less y x := by
  refine ⟨fun l => List.mergeSort_perm l _, fun l => ?_⟩
  have hpairwise : (l.mergeSort fun x y => !less y x).Pairwise fun x y => (!less y x) = true := by
    refine List.pairwise_mergeSort (fun x y z hxy hyz => ?_) (fun x y => ?_) l
    · rw [Bool.not_eq_true'] at hxy hyz ⊢
      exact h.not_less_trans hxy hyz
    · cases hyx : less y x with
      | false => rfl
      | true => rw [h.asymm hyx]; rfl
  exact hpairwise.imp fun hxy => (Bool.not_eq_true' _).mp hxy

/-- One worker that takes the iterations in ascending order. -/
def Runtime.sequential : Runtime where
  numWorkers := 1
  schedules _ _ := Schedule.ascending
  uninit := 0
  fresh := 0
  sort less l := l.mergeSort fun x y => !less y x
  numWorkers_pos := le_rfl
  numWorkers_lt := by norm_num
  sorts _ h := sorts_mergeSort h

end Runtime

section Fingerprint

/-- `is_file_symmetrized` -/
def isFileSymmetrized (G : GraphData) : Option Bool := do
  let aggregate ← reduce (· + ·) 0 1024 0 G.n fun u => do
    let first ← G.outOffsets[u]?
    let last ← G.outOffsets[u + 1]?
    reduce (· + ·) 0 1024 first last fun i => do
      let e ← G.outEdges[i]?
      let v := lo32 e
      some (hash64 (BitVec.ofNat 64 (glue32 u v)) - hash64 (BitVec.ofNat 64 (glue32 v u)))
  some (aggregate == 0)

end Fingerprint

section Offsets

/-- Store the position of an entry whose key differs from the key before. -/
def markFirst (key : ℕ → Option ℕ) (i : ℕ) (offsets : Array ℕ) : Option (Array ℕ) := do
  let k ← key i
  if i = 0 then write offsets k i
  else do
    let previous ← key (i - 1)
    if k ≠ previous then write offsets k i else some offsets

/-- The loop that looks for the next offset that is stored. -/
def nextOffset (n m u v : ℕ) (offsets : Array ℕ) : Option (Array ℕ) :=
  if v ≤ n then do
    let r ← offsets[v]?
    if r ≠ m then write offsets u r else nextOffset n m u (v + 1) offsets
  else some offsets
termination_by n + 1 - v

/-- Vertices without entries get the offset of the next vertex with entries. -/
def fillGaps (schedule : Schedule) (n m : ℕ) (offsets : Array ℕ) : Option (Array ℕ) :=
  parallelLoop schedule (n + 1) offsets fun i offsets => do
    let x ← offsets[n - i]?
    if x ≠ m then some offsets else nextOffset n m (n - i) (n - i + 1) offsets

end Offsets

section Edges

variable (R : Runtime) (weighted : Bool)

/-- The order of the entries `(dst, back)`. -/
def inEntryLess (x y : ℕ × ℕ) : Bool :=
  if x.1 ≠ y.1 then decide (x.1 < y.1) else decide (lo32 x.2 < lo32 y.2)

/-- The edge that leads back to `u`. -/
def backEdge (e u : ℕ) : ℕ := if weighted then e >>> 32 <<< 32 ||| u else u

/-- `make_in_edges` -/
def makeInEdges (G : GraphData) : Option GraphData := do
  let edgelist ← parallelLoop (R.schedules 0 0) G.n
    (Array.replicate G.m (R.uninit, R.uninit)) fun u edgelist => do
    let first ← G.outOffsets[u]?
    let last ← G.outOffsets[u + 1]?
    parallelLoop (R.schedules 1 u) (last - first) edgelist fun k edgelist => do
      let e ← G.outEdges[first + k]?
      write edgelist (first + k) (lo32 e, backEdge weighted e u)
  let (edgelist, _) ← sampleSort inEntryLess (R.sort inEntryLess) (if weighted then 16 else 8)
    (fun _ => (R.uninit, R.uninit)) R.numWorkers (R.schedules 2) edgelist
  let (inEdges, inOffsets) ← parallelLoop (R.schedules 3 0) G.m
    (Array.replicate G.m R.uninit, Array.replicate (G.n + 1) G.m) fun i (inEdges, inOffsets) => do
      let x ← edgelist[i]?
      let inEdges ← write inEdges i x.2
      let inOffsets ← markFirst (fun j => (edgelist[j]?).map Prod.fst) i inOffsets
      some (inEdges, inOffsets)
  let inOffsets ← fillGaps (R.schedules 4 0) G.n G.m inOffsets
  some { G with inOffsets := inOffsets, inEdges := inEdges }

/-- An entry of the edge list that is symmetrized: the key and the weight, or source and target. -/
def symEntry (u v w : ℕ) : ℕ × ℕ := if weighted then (glue32 u v, w) else (u, v)

/-- The order of these entries: by key, and the larger weight first. -/
def symEntryLess (x y : ℕ × ℕ) : Bool :=
  if weighted then if x.1 ≠ y.1 then decide (x.1 < y.1) else decide (x.2 > y.2)
  else decide (x.1 < y.1) || !decide (y.1 < x.1) && decide (x.2 < y.2)

/-- `key_of` -/
def keyOf (x : ℕ × ℕ) : ℕ := if weighted then x.1 else glue32 x.1 x.2

/-- The last entry of every key is kept, unless it is a loop. -/
def keepEntry (m : ℕ) (edgelist : Array (ℕ × ℕ)) (i : ℕ) : Option Bool := do
  let x ← edgelist[i]?
  let key := keyOf weighted x
  if lo32 key = hi32 key then some false
  else if i + 1 = 2 * m then some true
  else do
    let y ← edgelist[i + 1]?
    some (decide (key ≠ keyOf weighted y))

/-- The edge of an entry. -/
def edgeOfEntry (x : ℕ × ℕ) : ℕ := if weighted then lo32 x.1 ||| x.2 <<< 32 else x.2

/-- `make_symmetrized` -/
def makeSymmetrized (G : GraphData) : Option GraphData := do
  let edgelist ← parallelLoop (R.schedules 0 0) G.n
    (Array.replicate (2 * G.m) (R.uninit, R.uninit)) fun u edgelist => do
    let first ← G.outOffsets[u]?
    let last ← G.outOffsets[u + 1]?
    parallelLoop (R.schedules 1 u) (last - first) edgelist fun k edgelist => do
      let e ← G.outEdges[first + k]?
      let edgelist ← write edgelist (2 * (first + k)) (symEntry weighted u (lo32 e) (hi32 e))
      write edgelist (2 * (first + k) + 1) (symEntry weighted (lo32 e) u (hi32 e))
  let (edgelist, _) ← sampleSort (symEntryLess weighted) (R.sort (symEntryLess weighted))
    (if weighted then 16 else 8) (fun _ => (R.uninit, R.uninit)) R.numWorkers (R.schedules 2) edgelist
  let kept ← pack (fun _ => (R.uninit, R.uninit)) (BitVec.ofNat 64 R.uninit) R.numWorkers
    (R.schedules 5) 0 (2 * G.m) (keepEntry weighted G.m edgelist) fun i => edgelist[i]?
  let newM := kept.size
  let outEdges ← build newM fun i => (kept[i]?).map (edgeOfEntry weighted)
  let outOffsets ← parallelLoop (R.schedules 3 0) newM (Array.replicate (G.n + 1) newM)
    (markFirst fun j => (kept[j]?).map fun x => hi32 (keyOf weighted x))
  let outOffsets ← fillGaps (R.schedules 4 0) G.n newM outOffsets
  some { G with m := newM, outOffsets := outOffsets, outEdges := outEdges }

end Edges

section Sorting

variable (R : Runtime) (weighted : Bool)

/-- `shared_sum` from `start` on. -/
def sharedSum (n : ℕ) (f : ℕ → Option Word) (start : ℕ) (total : Word) : Option Word :=
  if start < n then do
    let stop := min (start + 4096 * R.numWorkers) n
    let numBlocks := (stop - start + 4096 - 1) / 4096
    let part ← reduce (· + ·) 0 1 0 (numBlocks * 16) fun k =>
      let lo := start + k % numBlocks * 4096
      reduce (· + ·) 0 1024 lo (min (lo + 4096) stop) f
    sharedSum n f (start + 4096 * R.numWorkers) (total + part)
  else some total
termination_by n - start
decreasing_by
  have := R.numWorkers_pos
  omega

/-- Whether an edge is followed by a smaller one. -/
def descent (edges : Array ℕ) (i : ℕ) : Option Word :=
  if 0 < i then do
    let x ← edges[i - 1]?
    let y ← edges[i]?
    some (if lo32 x > lo32 y then 1 else 0)
  else some 0

/-- A descent between the edges of different vertices. -/
def boundaryDescent (offsets edges : Array ℕ) (s : ℕ) : Option Word := do
  let i ← offsets[s]?
  if 0 < i then do
    let next ← offsets[s + 1]?
    if i < next then descent edges i else some 0
  else some 0

/-- `is_sorted` -/
def isSorted (offsets edges : Array ℕ) (n : ℕ) : Option Bool := do
  let m ← offsets[n]?
  let allDescents ← sharedSum R m (descent edges) 0 0
  let boundaryDescents ← sharedSum R n (boundaryDescent offsets edges) 0 0
  some (allDescents == boundaryDescents)

/-- The order of the neighbours. -/
def edgeLess (x y : ℕ) : Bool := if weighted then decide (lo32 x < lo32 y) else decide (x < y)

/-- `make_sorted` with at most `fuel` tests. -/
def makeSorted : ℕ → Array ℕ → Array ℕ → ℕ → Option (Array ℕ)
  | 0, _, _, _ => none
  | fuel + 1, offsets, edges, n => do
    let sorted ← isSorted R offsets edges n
    if sorted then some edges
    else do
      let edges ← parallelLoop (R.schedules 6 fuel) n edges fun u edges => do
        let first ← offsets[u]?
        let last ← offsets[u + 1]?
        sortRange (R.sort (edgeLess weighted)) edges first last
      makeSorted fuel offsets edges n

end Sorting

/-- `read_graph` -/
def readGraph (R : Runtime) (symmetrized weighted mapped : Bool) (fuel : ℕ) (file : List Byte) :
    Option GraphData := do
  let G ← readBinaryFormat (R.schedules 7) R.uninit weighted mapped R.fresh file
  let fileSymmetrized ← isFileSymmetrized G
  let G ←
    match fileSymmetrized, symmetrized with
    | true, true => some G
    | true, false => some { G with inOffsets := G.outOffsets, inEdges := G.outEdges }
    | false, false => makeInEdges R weighted G
    | false, true => makeSymmetrized R weighted G
  let outEdges ← makeSorted R weighted fuel G.outOffsets G.outEdges G.n
  if symmetrized then some { G with outEdges := outEdges }
  else do
    let inEdges ← makeSorted R weighted fuel G.inOffsets G.inEdges G.n
    some { G with outEdges := outEdges, inEdges := inEdges }

end GraphFile

end ToggleTree
