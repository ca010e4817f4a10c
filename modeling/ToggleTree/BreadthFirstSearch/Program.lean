import ToggleTree.ForkJoin.Reduce
import ToggleTree.Graph.LocalQueue
import ToggleTree.Graph.VertexSet
import ToggleTree.Parallel.WriteMin

/-!
# The breadth-first searches

Both searches run rounds in three modes: sparse rounds push along out-edges, dense rounds pull
along in-edges, and local searches relax several levels at once. They share the local search;
what it writes into the cells of the result array is a parameter.

The variables of the main loop are arguments of a procedure, `round++` included. Prefetching
has no effect on the state and is left out.
-/

namespace ToggleTree

open ForkJoin ForkJoin.Prog

/-- The shared state of a search; `dist` is the result array. -/
structure SearchState where
  active : Finset ℕ
  frontier : Finset ℕ
  nextFrontier : Finset ℕ
  dist : ℕ → ℕ

/-- The procedures: the next iteration of the main loop, the local search from a vertex, and the
rest of its loop over a local queue. -/
inductive SearchCall
  | loop (mode stride round : ℕ)
  | localSearch (round stride v : ℕ)
  | drain (round stride : ℕ) (queue : LocalQueue)

namespace Search

open VertexSet

/-- A program of the searches. -/
abbrev SearchProg (α : Type) := Prog SearchState SearchCall α

/-- The set `active`. -/
def active : Loc SearchState (Finset ℕ) := ⟨SearchState.active, fun S s => { s with active := S }⟩

/-- The set `frontier`. -/
def frontier : Loc SearchState (Finset ℕ) := ⟨SearchState.frontier, fun S s => { s with frontier := S }⟩

/-- The set `next_frontier`. -/
def nextFrontier : Loc SearchState (Finset ℕ) :=
  ⟨SearchState.nextFrontier, fun S s => { s with nextFrontier := S }⟩

/-- The entry of the result array for `v`. -/
def cell (v : ℕ) : Loc SearchState ℕ :=
  ⟨fun s => s.dist v, fun x s => { s with dist := Function.update s.dist v x }⟩

/-- The cell of a vertex behaves as a variable. -/
theorem cell_lawful (v : ℕ) : (cell v).Lawful where
  get_put x s := by simp [cell]
  put_get s := by simp [cell]
  put_put x y s := by simp [cell]

/-- The loops of `write_min` on the cell of a vertex are calls that take one step each. -/
theorem cell_takesEffect {ι : Type} [DecidableEq ι] {env : SearchCall → SearchProg Unit} (s : SearchState) {v : ℕ}
    (hfits : s.dist v < 2 ^ 64) (value : ι → ℕ) (order : List ι) :
    PoolSteps env (fun i => writeMin (cell v) (value i)) s
      (fun i => WriteRace.left (cell v) (value i) ((WriteRace.writeMin 64 value (s.dist v) order).phase i))
      ((cell v).put (WriteRace.writeMin 64 value (s.dist v) order).shared.value s) := by
  have hrun : ∃ y, (WriteRace.writeMin 64 value (s.dist v) order).shared.value = y ∧
    PoolSteps env _ s _ ((cell v).put y s) :=
    WriteRace.writeMin_takesEffect (cell_lawful v) strictMono_id s hfits value order
  obtain ⟨_, rfl, hrun⟩ := hrun
  exact hrun

/-- What the two searches store in a cell. -/
structure Labels where
  /-- The distance in a cell. -/
  level : ℕ → ℕ
  /-- The value for a neighbour of a vertex at a distance one less. -/
  make : ℕ → ℕ → ℕ
  /-- Read the in-neighbours of a vertex one after the other, and return the distance for its
  out-neighbours together with the value for its own cell. -/
  gather : ℕ → SearchProg (ℕ × ℕ)
  /-- The same with a parallel reduction. -/
  gatherParallel : ℕ → SearchProg (ℕ × ℕ)

/-- `round++` and the next iteration. -/
def again (mode stride round : ℕ) : SearchProg Unit := invoke (.loop mode stride ((round + 1) % 2 ^ 64))

/-- A 64-bit `round - k`. -/
def back (round k : ℕ) : ℕ := (round + (2 ^ 64 - k)) % 2 ^ 64

section LocalSearch

variable (G : CSR) (L : Labels)

/-- The branch of the local search for vertices with many out-edges, and its call for the others. -/
def localSearch (round stride v : ℕ) : SearchProg Unit :=
  if 1024 ≤ G.outOffset (v + 1) - G.outOffset v then do
    let gathered ← L.gatherParallel v
    let _ ← writeMin (cell v) gathered.2
    parallelFor (G.outOffset v) (G.outOffset (v + 1)) fun i => do
      let lowered ← writeMin (cell (G.outEdge i)) (L.make gathered.1 v)
      if lowered then
        if gathered.1 = (round + stride) % 2 ^ 64 then do
          let _ ← insert nextFrontier (G.outEdge i)
          ret ()
        else invoke (.localSearch round stride (G.outEdge i))
      else ret ()
  else invoke (.drain round stride (LocalQueue.create 1024 v))

/-- Visit the vertex that was taken out of a local queue. -/
def visit (round stride s : ℕ) (q : LocalQueue) : SearchProg LocalQueue := do
  let gathered ← L.gather s
  let _ ← writeMin (cell s) gathered.2
  foldFor (G.outOffset s) (G.outOffset (s + 1)) q fun i q => do
    let lowered ← writeMin (cell (G.outEdge i)) (L.make gathered.1 s)
    if lowered then
      if gathered.1 = (round + stride) % 2 ^ 64 then do
        let _ ← insert nextFrontier (G.outEdge i)
        ret q
      else ret (q.pushBack (G.outEdge i))
    else ret q

/-- One iteration of the loop over a local queue, and what follows the loop. -/
def drain (round stride : ℕ) (q : LocalQueue) : SearchProg Unit :=
  match q.popTop G with
  | some (s, q) => do
      let q ← visit G L round stride s q
      invoke (.drain round stride q)
  | none => q.forEach fun s => invoke (.localSearch round stride s)

/-- The stride of a round: every fifth time it moves by one towards what the frontier suggests. -/
def adjustStride (mode stride elements : ℕ) : ℕ :=
  if mode % 5 = 0 then
    let newStride := max 1 (1500000 * G.m % 2 ^ 64 / (G.n * elements % 2 ^ 64))
    let stride := if stride < newStride then stride + 1 else stride
    if newStride < stride then stride - 1 else stride
  else stride

/-- The local searches of one round, from the frontier vertices that still have its distance. -/
def searchRound (stride round : ℕ) : SearchProg Unit :=
  consumeEach frontier fun s => do
    let value ← atomicRead (cell s)
    if L.level value ≠ round then ret () else invoke (.localSearch round stride s)

/-- An iteration of the main loop in one of the modes from 5 on. -/
def localMode (mode stride round : ℕ) : SearchProg Unit := do
  swap frontier nextFrontier
  let done ← empty frontier
  if done then ret ()
  else do
    let elements ← numElements frontier
    let stride := adjustStride G mode stride elements
    searchRound L stride round
    again ((mode + 1) % 2 ^ 64) stride (back (round + stride) 1)

end LocalSearch

section Distances

variable (G : CSR)

/-- The sum of the degrees of the frontier, which selects dense rounds. -/
def reduceEdge : SearchProg ℕ := sumOver frontier fun s => G.outOffset (s + 1) - G.outOffset s

/-- The distance one above the least of the in-neighbours, in 32 bits, for the vertex itself. -/
def distanceAbove (minDist : ℕ) : ℕ × ℕ := ((minDist + 1) % 2 ^ 32 + 1, (minDist + 1) % 2 ^ 32)

/-- The cells of `breadth_first_search` hold distances. -/
def distances : Labels where
  level := id
  make x _ := x
  gather s := do
    let minDist ← foldFor (G.inOffset s) (G.inOffset (s + 1)) (2 ^ 32 - 1) fun i minDist => do
      let dist ← atomicRead (cell (G.inEdge i))
      ret (if dist < minDist then dist else minDist)
    ret (distanceAbove minDist)
  gatherParallel s := do
    let minDist ← reduce min (2 ^ 32 - 1) 1024 (G.inOffset s) (G.inOffset (s + 1)) fun i =>
      atomicRead (cell (G.inEdge i))
    ret (distanceAbove minDist)

/-- `dist[s] = round` -/
def setDist (round s : ℕ) : SearchProg Unit := atomicWrite (cell s) (round % 2 ^ 32)

/-- A sparse round pushes along the out-edges of the frontier. -/
def pushRound (round : ℕ) : SearchProg Unit :=
  consumeEach frontier fun s => do
    setDist round s
    parallelFor (G.outOffset s) (G.outOffset (s + 1)) fun i => do
      let isActive ← contains active (G.outEdge i)
      if isActive then do
        let _ ← remove active (G.outEdge i)
        let _ ← insert nextFrontier (G.outEdge i)
        ret ()
      else ret ()

/-- The first in-slot of `s` that names a vertex which is not active. -/
def firstInactive (s : ℕ) : SearchProg (Option ℕ) :=
  findFor (G.inOffset s) (G.inOffset (s + 1)) fun i => do
    let isActive ← contains active (G.inEdge i)
    ret (!isActive)

/-- A dense round collects the active vertices with an in-neighbour that is not active. -/
def pullRound : SearchProg Unit :=
  forEach active fun s => do
    let found ← firstInactive G s
    match found with
    | some _ => do
        let _ ← insert nextFrontier s
        ret ()
    | none => ret ()

/-- An iteration of the main loop in mode 0. -/
def sparseMode (stride round : ℕ) : SearchProg Unit := do
  swap frontier nextFrontier
  let done ← empty frontier
  if done then ret ()
  else do
    let edges ← reduceEdge G
    if G.m >>> 3 < edges then do
      consumeEach frontier (setDist round)
      again 1 stride round
    else if log2 G.n * 2 ≤ round then do
      consumeEach frontier fun s => do
        setDist round s
        let _ ← insert nextFrontier s
        ret ()
      again 5 stride (back round 1)
    else do
      pushRound G round
      again 0 stride round

/-- An iteration of the main loop in mode 1. -/
def denseMode (stride round : ℕ) : SearchProg Unit := do
  pullRound G
  swap frontier nextFrontier
  let done ← empty frontier
  if done then ret ()
  else do
    let elements ← numElements frontier
    if elements < G.n >>> 6 then do
      consumeEach frontier fun s => do
        let _ ← insert nextFrontier s
        let _ ← remove active s
        ret ()
      again 0 stride (back round 1)
    else do
      consumeEach frontier fun s => do
        setDist round s
        let _ ← remove active s
        ret ()
      again 1 stride round

/-- The procedures of `breadth_first_search`. -/
def procedures : SearchCall → SearchProg Unit
  | .loop mode stride round =>
      if mode = 0 then sparseMode G stride round
      else if mode = 1 then denseMode G stride round
      else localMode G (distances G) mode stride round
  | .localSearch round stride v => localSearch G (distances G) round stride v
  | .drain round stride q => drain G (distances G) round stride q

/-- The sets and the array as they are created. -/
def createState (n unreached : ℕ) : SearchState := ⟨Finset.range n, ∅, ∅, fun _ => unreached⟩

/-- `BreadthFirstSearch` -/
def breadthFirstSearch (source : ℕ) : SearchProg (ℕ → ℕ) := do
  modify fun _ => createState G.n (2 ^ 32 - 1)
  let _ ← insert nextFrontier source
  let _ ← remove active source
  invoke (.loop 0 1 0)
  read SearchState.dist

end Distances

section Tree

variable (G : CSR)

/-- The lexicographic minimum. -/
def pairMin (a b : ℕ × ℕ) : ℕ × ℕ := if a.1 < b.1 ∨ a.1 = b.1 ∧ a.2 < b.2 then a else b

/-- The cells of `breadth_first_search_tree` hold a distance above a parent. -/
def distancesAndParents : Labels where
  level := hi32
  make := glue32
  gather s := do
    let least ← foldFor (G.inOffset s) (G.inOffset (s + 1)) (2 ^ 32 - 1, 2 ^ 32 - 1) fun i least => do
      let value ← atomicRead (cell (G.inEdge i))
      ret (if hi32 value < least.1 then (hi32 value, G.inEdge i)
        else if hi32 value = least.1 ∧ G.inEdge i < least.2 then (least.1, G.inEdge i)
        else least)
    ret ((least.1 + 1) % 2 ^ 32 + 1, glue32 ((least.1 + 1) % 2 ^ 32) least.2)
  gatherParallel s := do
    let aggregate ← reduce pairMin (2 ^ 32 - 1, 2 ^ 32 - 1) 1024 (G.inOffset s) (G.inOffset (s + 1))
      fun i => do
        let value ← atomicRead (cell (G.inEdge i))
        ret (hi32 value, G.inEdge i)
    -- Here the distance is a 32-bit variable, and so is its successor.
    ret (((aggregate.1 + 1) % 2 ^ 32 + 1) % 2 ^ 32, glue32 ((aggregate.1 + 1) % 2 ^ 32) aggregate.2)

/-- A sparse round offers itself as the parent along the out-edges of the frontier. -/
def treePushRound (round : ℕ) : SearchProg Unit :=
  consumeEach frontier fun s =>
    parallelFor (G.outOffset s) (G.outOffset (s + 1)) fun i => do
      let lowered ← writeMin (cell (G.outEdge i)) (glue32 round s)
      if lowered then do
        let _ ← remove active (G.outEdge i)
        let _ ← insert nextFrontier (G.outEdge i)
        ret ()
      else ret ()

/-- A dense round takes the first in-neighbour that is not active as the parent. -/
def treePullRound (round : ℕ) : SearchProg Unit :=
  forEach active fun s => do
    let found ← firstInactive G s
    match found with
    | some i => do
        let _ ← insert nextFrontier s
        atomicWrite (cell s) (glue32 round (G.inEdge i))
    | none => ret ()

/-- An iteration of the main loop in mode 0. -/
def treeSparseMode (stride round : ℕ) : SearchProg Unit := do
  swap frontier nextFrontier
  let done ← empty frontier
  if done then ret ()
  else do
    let edges ← reduceEdge G
    if G.m >>> 3 < edges then do
      consumeEach frontier fun _ => ret ()
      again 1 stride (back round 1)
    else if log2 G.n * 2 ≤ round then do
      consumeEach frontier fun s => do
        let _ ← insert nextFrontier s
        ret ()
      again 5 stride (back round 2)
    else do
      treePushRound G round
      again 0 stride round

/-- An iteration of the main loop in mode 1. -/
def treeDenseMode (stride round : ℕ) : SearchProg Unit := do
  treePullRound G round
  swap frontier nextFrontier
  let done ← empty frontier
  if done then ret ()
  else do
    let elements ← numElements frontier
    if elements < G.n >>> 6 then do
      consumeEach frontier fun s => do
        let _ ← insert nextFrontier s
        let _ ← remove active s
        ret ()
      again 0 stride round
    else do
      consumeEach frontier fun s => do
        let _ ← remove active s
        ret ()
      again 1 stride round

/-- The procedures of `breadth_first_search_tree`. -/
def treeProcedures : SearchCall → SearchProg Unit
  | .loop mode stride round =>
      if mode = 0 then treeSparseMode G stride round
      else if mode = 1 then treeDenseMode G stride round
      else localMode G (distancesAndParents G) mode stride round
  | .localSearch round stride v => localSearch G (distancesAndParents G) round stride v
  | .drain round stride q => drain G (distancesAndParents G) round stride q

/-- `BreadthFirstSearch` of the variant that records the parents. -/
def breadthFirstSearchTree (source : ℕ) : SearchProg (ℕ → ℕ) := do
  modify fun _ => createState G.n (2 ^ 64 - 1)
  let _ ← insert nextFrontier source
  let _ ← remove active source
  atomicWrite (cell source) (glue32 0 (2 ^ 32 - 1))
  invoke (.loop 0 1 1)
  read SearchState.dist

end Tree

end Search

end ToggleTree
