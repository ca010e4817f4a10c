import ToggleTree.Checked.Chain
import ToggleTree.Parallel.Word

/-!
# The allocator

Freed blocks are kept in chains that are linked through the first word of the blocks, one chain for
each size class: a local cache for each worker, and for the larger classes a global cache behind a
lock that is only ever tried. A block that finds the lock taken goes back to the system.

The state names the programs' accesses to shared memory as steps of their own. The requests come
from clients, who may also write to the blocks that they hold.
-/

namespace ToggleTree

namespace Pool

/-- `threshold1`: the least size class. -/
def threshold1 : ℕ := 6

/-- `threshold2`: the least size class that the workers share. -/
def threshold2 : ℕ := 16

/-- The size class of a request: the blocks of class `b` have `2 ^ b` bytes. -/
def bucketOf (bytes : ℕ) : ℕ := if bytes ≤ 1 <<< threshold1 then threshold1 else log2 (bytes - 1)

/-- Where a worker stands in `allocate` or `deallocate`. -/
inductive Control
  | idle
  /-- `allocate`, before `local_slot` is read -/
  | readLocal (bytes : ℕ)
  /-- before `*p` is read -/
  | followLocal (bytes p : ℕ)
  /-- before `local_slot` is written -/
  | popLocal (bytes p : ℕ) (next : Option ℕ)
  /-- before `try_lock_global` -/
  | tryPop (bytes : ℕ)
  /-- before the global slot is read -/
  | readGlobal (bytes : ℕ)
  | followGlobal (bytes p : ℕ)
  | popGlobal (bytes p : ℕ) (next : Option ℕ)
  /-- before `unlock_global`, with the block that was found -/
  | unlockPop (bytes : ℕ) (p : Option ℕ)
  /-- before `operator new` -/
  | obtain (bytes : ℕ)
  /-- `deallocate`, before `local_slot` is compared with null -/
  | checkLocal (bytes p : ℕ)
  /-- before `*p = local_slot` -/
  | linkLocal (bytes p : ℕ)
  /-- before `local_slot = p` -/
  | pushLocal (bytes p : ℕ)
  | tryPush (bytes p : ℕ)
  | linkGlobal (bytes p : ℕ)
  | pushGlobal (bytes p : ℕ)
  | unlockPush
  /-- before `operator delete` -/
  | discard (p : ℕ)

/-- The memory of the allocator, where each worker stands, and two ledgers: the requested size of every
block that a client holds, and the size class of every block that was obtained from the system and not
given back. -/
structure State (W : Type) where
  next : ℕ → Option ℕ
  localCache : W → ℕ → Option ℕ
  globalCache : ℕ → Option ℕ
  globalLock : Bool
  control : W → Control
  live : ℕ → Option ℕ
  block : ℕ → Option ℕ

/-- Before the first request. -/
def State.init (W : Type) : State W where
  next _ := none
  localCache _ _ := none
  globalCache _ := none
  globalLock := false
  control _ := .idle
  live _ := none
  block _ := none

section Step

variable {W : Type} [DecidableEq W]

/-- The worker goes on to another place of its call. -/
def State.goto (s : State W) (w : W) (c : Control) : State W :=
  { s with control := Function.update s.control w c }

/-- Sets the head of a chain of a worker. -/
def State.setLocal (s : State W) (w : W) (b : ℕ) (p : Option ℕ) : State W :=
  { s with localCache := Function.update s.localCache w (Function.update (s.localCache w) b p) }

/-- Sets the head of a chain that the workers share. -/
def State.setGlobal (s : State W) (b : ℕ) (p : Option ℕ) : State W :=
  { s with globalCache := Function.update s.globalCache b p }

/-- Sets the link of a block. -/
def State.setNext (s : State W) (p : ℕ) (q : Option ℕ) : State W := { s with next := Function.update s.next p q }

/-- Sets the lock of the shared chains. -/
def State.setLock (s : State W) (x : Bool) : State W := { s with globalLock := x }

/-- Sets the size under which a client holds a block. -/
def State.setLive (s : State W) (p : ℕ) (bytes : Option ℕ) : State W :=
  { s with live := Function.update s.live p bytes }

/-- Sets the size class of a block. -/
def State.setBlock (s : State W) (p : ℕ) (b : Option ℕ) : State W :=
  { s with block := Function.update s.block p b }

/-- `allocate` returns the block. -/
def State.hand (s : State W) (w : W) (bytes p : ℕ) : State W := (s.setLive p (some bytes)).goto w .idle

/-- The next access of a worker; `fresh` is what `operator new` would return. -/
def State.access (s : State W) (w : W) (fresh : ℕ) : Control → State W
  | .idle => s
  | .readLocal bytes =>
      match s.localCache w (bucketOf bytes) with
      | some p => s.goto w (.followLocal bytes p)
      | none => s.goto w (if bucketOf bytes ≥ threshold2 then .tryPop bytes else .obtain bytes)
  | .followLocal bytes p => s.goto w (.popLocal bytes p (s.next p))
  | .popLocal bytes p next => (s.setLocal w (bucketOf bytes) next).hand w bytes p
  | .tryPop bytes =>
      if s.globalLock then s.goto w (.obtain bytes) else (s.setLock true).goto w (.readGlobal bytes)
  | .readGlobal bytes =>
      match s.globalCache (bucketOf bytes) with
      | some p => s.goto w (.followGlobal bytes p)
      | none => s.goto w (.unlockPop bytes none)
  | .followGlobal bytes p => s.goto w (.popGlobal bytes p (s.next p))
  | .popGlobal bytes p next => (s.setGlobal (bucketOf bytes) next).goto w (.unlockPop bytes (some p))
  | .unlockPop bytes none => (s.setLock false).goto w (.obtain bytes)
  | .unlockPop bytes (some p) => (s.setLock false).hand w bytes p
  | .obtain bytes => (s.setBlock fresh (some (bucketOf bytes))).hand w bytes fresh
  | .checkLocal bytes p =>
      if bucketOf bytes < threshold2 ∨ s.localCache w (bucketOf bytes) = none then s.goto w (.linkLocal bytes p)
      else s.goto w (.tryPush bytes p)
  | .linkLocal bytes p => (s.setNext p (s.localCache w (bucketOf bytes))).goto w (.pushLocal bytes p)
  | .pushLocal bytes p => (s.setLocal w (bucketOf bytes) (some p)).goto w .idle
  | .tryPush bytes p =>
      if s.globalLock then s.goto w (.discard p) else (s.setLock true).goto w (.linkGlobal bytes p)
  | .linkGlobal bytes p => (s.setNext p (s.globalCache (bucketOf bytes))).goto w (.pushGlobal bytes p)
  | .pushGlobal bytes p => (s.setGlobal (bucketOf bytes) (some p)).goto w .unlockPush
  | .unlockPush => (s.setLock false).goto w .idle
  | .discard p => (s.setBlock p none).goto w .idle

/-- One step of the system. -/
inductive Step (s : State W) : State W → Prop
  /-- a call of `allocate` -/
  | allocate {w : W} {bytes : ℕ} (hw : s.control w = .idle) (hpos : 1 ≤ bytes) (hmax : bytes ≤ 2 ^ 63) :
      Step s (s.goto w (.readLocal bytes))
  /-- a call of `deallocate` with a live block and the size that was requested for it -/
  | deallocate {w : W} {bytes p : ℕ} (hw : s.control w = .idle) (hlive : s.live p = some bytes) :
      Step s ((s.setLive p none).goto w (.checkLocal bytes p))
  /-- a client writes to a live block -/
  | write {p bytes : ℕ} (q : Option ℕ) (hlive : s.live p = some bytes) : Step s (s.setNext p q)
  /-- an access; `operator new` returns a block that is not in use -/
  | access (w : W) (fresh : ℕ) (hfresh : ∀ bytes, s.control w = .obtain bytes → s.block fresh = none) :
    Step s (s.access w fresh (s.control w))

/-- The states that the workers can reach. -/
inductive Reachable : State W → Prop
  | init : Reachable (State.init W)
  | step {s s' : State W} (h : Reachable s) (hstep : Step s s') : Reachable s'

end Step

/-- The places where a block can be. -/
inductive Place (W : Type)
  | live
  | localChain (w : W) (b i : ℕ)
  | globalChain (b i : ℕ)
  | call (w : W)

/-- The block that a call has taken and not yet delivered. -/
def Control.held : Control → Option ℕ
  | .unlockPop _ p => p
  | .checkLocal _ p | .linkLocal _ p | .pushLocal _ p | .tryPush _ p | .linkGlobal _ p | .pushGlobal _ p => some p
  | .discard p => some p
  | _ => none

/-- The call is between a successful `try_lock_global` and `unlock_global`. -/
def Control.locked : Control → Bool
  | .readGlobal _ | .followGlobal _ _ | .popGlobal _ _ _ | .unlockPop _ _ | .linkGlobal _ _ | .pushGlobal _ _
  | .unlockPush => true
  | _ => false

variable {W : Type}

/-- The block `p` is at a place. -/
def State.At (s : State W) (p : ℕ) : Place W → Prop
  | .live => ∃ bytes, s.live p = some bytes
  | .localChain w b i => Checked.follow s.next (s.localCache w b) i = some p
  | .globalChain b i => Checked.follow s.next (s.globalCache b) i = some p
  | .call w => (s.control w).held = some p

/-- What the allocator promises in every state. -/
structure Guarantees (s : State W) : Prop where
  /-- A block that was obtained from the system is at one place, and all others are nowhere. -/
  place : ∀ p, (s.block p ≠ none → ∃! x, s.At p x) ∧ (s.block p = none → ∀ x, ¬s.At p x)
  /-- The chains end with a null pointer. -/
  localEnd : ∀ w b, ∃ k, Checked.follow s.next (s.localCache w b) k = none
  globalEnd : ∀ b, ∃ k, Checked.follow s.next (s.globalCache b) k = none
  /-- The blocks of a chain belong to its size class. -/
  localClass : ∀ w b i p, s.At p (.localChain w b i) → s.block p = some b
  globalClass : ∀ b i p, s.At p (.globalChain b i) → s.block p = some b
  /-- A block that a client holds is large enough for the request. -/
  capacity : ∀ p bytes, s.live p = some bytes → ∃ b, s.block p = some b ∧ bytes ≤ 2 ^ b ∧ b < 64

end Pool

end ToggleTree
