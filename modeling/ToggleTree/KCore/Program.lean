import ToggleTree.Graph.LocalQueue
import ToggleTree.Graph.VertexSet
import ToggleTree.KCore.Core

/-!
# The decomposition into cores

`coreness` counts the slots that name a vertex and have not been peeled away. The counts of vertices
of large degree are kept apart, as what is left above `k`, in one shard for each worker; such a
vertex is looked at again when a shard runs out. A vertex whose count reaches `k` is peeled in the
same round by a local search, or in the next one.
-/

namespace ToggleTree

open ForkJoin ForkJoin.Prog

/-- The state of `k_core_decomposition`; `k` and `no_reduce` are arguments of the iterations. The last
field notes for the proofs which slots peeled vertices have processed. -/
structure KCoreState where
  coreness : ℕ → ℕ
  frontier : Finset ℕ
  nextFrontier : Finset ℕ
  active : Finset ℕ
  resample : Finset ℕ
  sampleMode : Finset ℕ
  place : ℕ → ℕ
  shards : ℕ → ℕ → ℤ
  processed : Multiset ℕ

/-- The iterations of the two main loops, the local searches and the loops over local queues. -/
inductive KCoreCall
  | loop (k noReduce : ℕ)
  | rounds (k noReduce : ℕ)
  | search (k layer v : ℕ)
  | drain (k layer : ℕ) (queue : LocalQueue)

namespace KCore

/-- A program of the decomposition. -/
abbrev KCoreProg (α : Type) := Prog KCoreState KCoreCall α

/-- The set `frontier`. -/
def frontier : Loc KCoreState (Finset ℕ) := ⟨KCoreState.frontier, fun S s => { s with frontier := S }⟩

/-- The set `next_frontier`. -/
def nextFrontier : Loc KCoreState (Finset ℕ) := ⟨KCoreState.nextFrontier, fun S s => { s with nextFrontier := S }⟩

/-- The set `active`. -/
def active : Loc KCoreState (Finset ℕ) := ⟨KCoreState.active, fun S s => { s with active := S }⟩

/-- The set `resample`. -/
def resample : Loc KCoreState (Finset ℕ) := ⟨KCoreState.resample, fun S s => { s with resample := S }⟩

/-- The set `sample_mode`. -/
def sampleMode : Loc KCoreState (Finset ℕ) := ⟨KCoreState.sampleMode, fun S s => { s with sampleMode := S }⟩

/-- `coreness[v]` -/
def corenessCell (v : ℕ) : Loc KCoreState ℕ :=
  ⟨fun s => s.coreness v, fun c s => { s with coreness := Function.update s.coreness v c }⟩

variable (G : CSR) (workers : ℕ)

/-- The vertices that are counted in shards if there are several workers. -/
def sampleThreshold : ℕ := if 2 ≤ workers then 8192 else 2 ^ 32 - 1

/-- The branch runs on some worker. -/
def workerId : KCoreProg ℕ := pick 0 fun b => ret (b % workers)

/-- Slot `i` has been processed. -/
def note (i : ℕ) (s : KCoreState) : KCoreState := { s with processed := {i} + s.processed }

/-- Take slot `i` from the count of `d`, and put it back if there was none above `k`. -/
def peel (k i d : ℕ) : KCoreProg Bool := do
  let old ← act fun s => (s.coreness d, note i ((corenessCell d).put ((s.coreness d + (2 ^ 32 - 1)) % 2 ^ 32) s))
  if old ≤ k then do
    let _ ← fetchAndUpdate (corenessCell d) fun x => (x + 1) % 2 ^ 32
    return decide (old = (k + 1) % 2 ^ 32)
  else return decide (old = (k + 1) % 2 ^ 32)

/-- Sets a counter of a worker. -/
def setShard (w p : ℕ) (x : ℤ) (s : KCoreState) : KCoreState :=
  { s with shards := Function.update s.shards w (Function.update (s.shards w) p x) }

/-- Take slot `i` from the shard of the worker. -/
def strike (i d : ℕ) : KCoreProg Unit := do
  let w ← workerId workers
  let left ← act fun s =>
    (s.shards w (s.place d) - 1, note i (setShard w (s.place d) (s.shards w (s.place d) - 1) s))
  if left = 0 then do
    let _ ← VertexSet.insert resample d
    return ()
  else return ()

/-- Share out `remaining` among the workers. -/
def distribute (v : ℕ) (remaining : ℤ) (s : KCoreState) : KCoreState :=
  { s with shards := fun w p =>
      if w < workers ∧ p = s.place v then
        remaining.tdiv workers + if (w : ℤ) < remaining.tmod workers % 2 ^ 64 then 1 else 0
      else s.shards w p }

/-- The sum of the shards; no other branch uses them at that time. -/
def totalRemaining (v : ℕ) : KCoreProg ℤ := read fun s => ∑ w ∈ Finset.range workers, s.shards w (s.place v)

/-- The test for `sample_mode`; the loops over local queues look first whether there is any. -/
def isSampled (queued : Bool) (d : ℕ) : KCoreProg Bool := do
  if queued then do
    let none ← VertexSet.empty sampleMode
    if none then return false else VertexSet.contains sampleMode d
  else VertexSet.contains sampleMode d

/-- Slot `i` of a peeled vertex is processed. Tells whether the vertex it names is to be peeled next. -/
def peelSlot (queued : Bool) (k i : ℕ) : KCoreProg Bool := do
  let d := G.outEdge i
  let isActive ← VertexSet.contains active d
  if isActive then do
    let sampled ← isSampled queued d
    if sampled then do
      strike workers i d
      return false
    else do
      let claimed ← peel k i d
      if claimed then do
        let _ ← VertexSet.remove active d
        return true
      else return false
  else do
    modify (note i)
    return false

/-- Peel `d` in the next round, or from here. -/
def follow (k layer d : ℕ) : KCoreProg Unit :=
  if layer = 0 then do
    let _ ← VertexSet.insert nextFrontier d
    return ()
  else invoke (.search k (layer - 1) d)

/-- The iteration of the parallel loop for slot `i`. -/
def searchSlot (k layer i : ℕ) : KCoreProg Unit := do
  let claimed ← peelSlot G workers false k i
  if claimed then follow k layer (G.outEdge i) else return ()

/-- The local search from a vertex. -/
def localSearch (k layer v : ℕ) : KCoreProg Unit :=
  if 128 ≤ G.degree v then parallelFor (G.outOffset v) (G.outOffset (v + 1)) (searchSlot G workers k layer)
  else invoke (.drain k layer (LocalQueue.create 128 v))

/-- Peel the vertex that was taken out of a local queue. -/
def visit (k v : ℕ) (q : LocalQueue) : KCoreProg LocalQueue :=
  foldFor (G.outOffset v) (G.outOffset (v + 1)) q fun i q => do
    let claimed ← peelSlot G workers true k i
    if claimed then return q.pushBack (G.outEdge i) else return q

/-- The loop over the local queue. -/
def drain (k layer : ℕ) (q : LocalQueue) : KCoreProg Unit :=
  match q.popTop G with
  | some (v, q) => do
    let q ← visit G workers k v q
    invoke (.drain k layer q)
  | none =>
    if layer = 0 then q.sequentialForEach fun v => do
      let _ ← VertexSet.insert nextFrontier v
      return ()
    else q.forEach fun v => invoke (.search k (layer - 1) v)

/-- The call for a vertex of which a shard has run out. -/
def settleSample (k v : ℕ) : KCoreProg Unit := do
  let remaining ← totalRemaining workers v
  if (sampleThreshold workers : ℤ) < remaining then modify (distribute workers v remaining)
  else do
    atomicWrite (corenessCell v) (max (k : ℤ) (remaining + k) % 2 ^ 32).toNat
    let _ ← VertexSet.remove sampleMode v
    if remaining ≤ 0 then do
      let _ ← VertexSet.remove active v
      let _ ← VertexSet.insert nextFrontier v
      return ()
    else return ()

/-- Peel the frontier. -/
def peelFrontier (k : ℕ) : KCoreProg Unit := VertexSet.consumeEach frontier fun v => invoke (.search k 8 v)

/-- Look at the vertices of which a shard has run out, and turn to the next frontier. -/
def settleFrontier (k : ℕ) : KCoreProg Unit := do
  VertexSet.consumeEach resample (settleSample workers k)
  VertexSet.swap frontier nextFrontier

/-- An iteration of the inner loop. -/
def coreRounds (k noReduce : ℕ) : KCoreProg Unit := do
  let done ← VertexSet.empty frontier
  if done then invoke (.loop k noReduce)
  else do
    peelFrontier k
    settleFrontier workers k
    invoke (.rounds k noReduce)

/-- The call of the reduction over the sampled vertices after `k` has been raised by `delta`. -/
def lowerSample (k delta v : ℕ) : KCoreProg ℤ := do
  let w ← workerId workers
  modify fun s => setShard w (s.place v) (s.shards w (s.place v) - delta) s
  let left ← read fun s => s.shards w (s.place v)
  if left ≤ 0 then do
    let remaining ← totalRemaining workers v
    if (sampleThreshold workers : ℤ) < remaining then do
      modify (distribute workers v remaining)
      return 0
    else do
      atomicWrite (corenessCell v) ((remaining + k) % 2 ^ 32).toNat
      let _ ← VertexSet.remove sampleMode v
      return if remaining < 0 then -remaining else 0
  else return 0

/-- `k` goes down again by `down`. -/
def raiseSample (down : ℤ) (v : ℕ) : KCoreProg Unit := do
  let w ← workerId workers
  modify fun s => setShard w (s.place v) (s.shards w (s.place v) + down) s

/-- The call that moves the vertices with count `k` to the frontier. -/
def selectVertex (k v : ℕ) : KCoreProg Unit := do
  let count ← atomicRead (corenessCell v)
  if count = k then do
    let _ ← VertexSet.insert frontier v
    let _ ← VertexSet.remove active v
    return ()
  else return ()

/-- Fill the frontier with the vertices that have `k` slots left, and return the new `no_reduce`. -/
def fillFrontier (k noReduce : ℕ) : KCoreProg ℕ := do
  VertexSet.forEach active (selectVertex k)
  let none ← VertexSet.empty frontier
  return if 0 < noReduce ∧ none then noReduce - 1 else noReduce

/-- By how much `k` is raised. -/
def nextDelta (k noReduce : ℕ) : KCoreProg ℕ :=
  if noReduce = 0 then read fun s => ((s.active.image s.coreness).min.untopD (2 ^ 32 - 1) + (2 ^ 32 - k)) % 2 ^ 32
  else ret 1

/-- Raise `k`, lower it again where that went too far, and return it. -/
def nextLevel (k noReduce : ℕ) : KCoreProg ℕ := do
  let delta ← nextDelta k noReduce
  let k := (k + delta) % 2 ^ 32
  let down ← VertexSet.reduce sampleMode max 0 (lowerSample workers k delta)
  if down = 0 then return k
  else do
    VertexSet.forEach sampleMode (raiseSample workers down)
    return (((k : ℤ) - down) % 2 ^ 32).toNat

/-- An iteration of the outer loop. -/
def coreLoop (k noReduce : ℕ) : KCoreProg Unit := do
  let done ← VertexSet.empty active
  if done then return ()
  else do
    let k ← nextLevel workers k noReduce
    let noReduce ← fillFrontier k noReduce
    invoke (.rounds k noReduce)

/-- The calls are the loops and the local searches. -/
def kCoreProcedures : KCoreCall → KCoreProg Unit
  | .loop k noReduce => coreLoop workers k noReduce
  | .rounds k noReduce => coreRounds workers k noReduce
  | .search k layer v => localSearch G workers k layer v
  | .drain k layer q => drain G workers k layer q

/-- The iteration of the first loop for `v`. -/
def initVertex (v : ℕ) : KCoreProg Unit := do
  atomicWrite (corenessCell v) (G.degree v % 2 ^ 32)
  let count ← atomicRead (corenessCell v)
  if count = 0 then do
    let _ ← VertexSet.remove active v
    return ()
  else return ()

/-- The vertices that are counted in shards. -/
def pickHigh : KCoreProg (List ℕ) :=
  read fun s => (List.range G.n).filter fun v => sampleThreshold workers < s.coreness v

/-- The initialisation of a vertex of the sample. -/
def initSample (high : List ℕ) (p : ℕ) : KCoreProg Unit := do
  let v := high.getD p 0
  modify fun s => { s with place := Function.update s.place v p }
  let _ ← VertexSet.insert sampleMode v
  modify (distribute workers v (G.degree v))

/-- The loops before the main loop. -/
def initialise : KCoreProg Unit := do
  modify fun s => ⟨s.coreness, ∅, ∅, Finset.range G.n, ∅, ∅, s.place, s.shards, 0⟩
  parallelFor 0 G.n (initVertex G)
  let high ← pickHigh G workers
  parallelFor 0 high.length (initSample G workers high)

/-- `KCoreDecomposition` -/
def kCoreDecomposition : KCoreProg (ℕ → ℕ) := do
  initialise G workers
  invoke (.loop 0 (2 * log2 G.n % 2 ^ 32))
  read KCoreState.coreness

end KCore

end ToggleTree
