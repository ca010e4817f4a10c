import ToggleTree.ForkJoin.Pool
import ToggleTree.Parallel.Atomic

/-!
# The work-stealing deque

The owner of a deque pushes and pops jobs at its bottom, other workers take jobs from its
top. The head and the tail are counters of `bits` bits packed into one word `pos`, both wrap
around; lengths 0 and 1 both mean that no job is left. A slot that a thief has not cleared
yet makes a push fail.
-/

namespace ToggleTree

open ForkJoin ForkJoin.Prog

/-- The template parameters of a deque, with the assertions on them. -/
structure DequeType where
  /-- The number of bits of `ST`; `DT` has twice as many. -/
  bits : ℕ
  capacity : ℕ
  /-- Whether `TOGGLE_TREE_WEAK_MEMORY` is defined. -/
  weakMemory : Bool
  three_le : 3 ≤ capacity
  le_pow : capacity ≤ 2 ^ bits

/-- `DQ`, the deque of each worker of the scheduler, without `TOGGLE_TREE_WEAK_MEMORY`. -/
def DequeType.dq : DequeType := ⟨8, 256, false, by decide, by decide⟩

/-- The slots and the packed counters; `none` is the null pointer. -/
structure Deque (J : Type) where
  deq : ℕ → Option J
  pos : ℕ

namespace DequeType

variable (T : DequeType)

/-- `l`, one unit of the tail. -/
def unit : ℕ := 2 ^ T.bits

/-- The number of values of `DT`. -/
def range : ℕ := 2 ^ (2 * T.bits)

/-- The conversion to `ST`. -/
def toST (x : ℕ) : ℕ := x % 2 ^ T.bits

/-- The difference of two values of `DT`. -/
def sub (p x : ℕ) : ℕ := (p + (T.range - x)) % T.range

/-- `physic`: the place of a number; with as many places as numbers it is the number. -/
def physic (logic : ℕ) : ℕ := if T.capacity = 2 ^ T.bits then logic else logic % T.capacity

/-- `head` -/
def head (p : ℕ) : ℕ := T.physic (T.toST p)

/-- `tail` -/
def tail (p : ℕ) : ℕ := T.physic (T.toST (p >>> T.bits))

/-- `length` -/
def length (p : ℕ) : ℕ := T.physic (T.toST (T.toST (p >>> T.bits) + 2 ^ T.bits - T.toST p))

end DequeType

namespace Deque

variable {J : Type} (T : DequeType)

/-- No job and both counters at 0. -/
def init : Deque J := ⟨fun _ => none, 0⟩

/-- The atomic word `pos`. -/
def position : Loc (Deque J) ℕ where
  get d := d.pos
  put p d := { d with pos := p }

/-- The atomic pointer `deq[i].job`. -/
def slot (i : ℕ) : Loc (Deque J) (Option J) where
  get d := d.deq i
  put job d := { d with deq := Function.update d.deq i job }

/-- Exchange the value if it is the expected one; return whether it was, and the value seen. -/
def compareExchange {σ ι V : Type} [DecidableEq V] (c : Loc σ V) (expected desired : V) :
    Prog σ ι (Bool × V) :=
  act fun s =>
    ((decide (c.get s = expected), c.get s), if c.get s = expected then c.put desired s else s)

/-- The slot that `push_bottom` fills after reading `p`. -/
def target (p : ℕ) : ℕ := if T.length p = 0 then T.tail p else T.tail (T.sub p T.unit)

/-- The update of the tail in `push_bottom`: an addition to the whole word, or a plain store
of the half that only the owner writes. -/
def advance (p : ℕ) : Prog (Deque J) Empty Unit :=
  if T.weakMemory then
    modify fun d =>
      { d with pos := (d.pos + if T.length p = 0 then 2 * T.unit else T.unit) % T.range }
  else
    let nextTail := T.toST (T.toST (p >>> T.bits) + if T.length p = 0 then 2 else 1)
    modify fun d => { d with pos := nextTail <<< T.bits + T.toST d.pos }

/-- Push a job; return whether it was pushed and whether there was none before. -/
def pushBottom (job : J) : Prog (Deque J) Empty (Bool × Bool) := do
  let p ← atomicRead position
  if T.length p = T.capacity - 1 then return (false, false)
  else do
    let old ← atomicRead (slot (target T p))
    if old.isSome then return (false, false)
    else do
      atomicWrite (slot (target T p)) (some job)
      advance T p
      return (true, decide (T.length p ≤ 1))

/-- Remove the job pushed last, if there is one. -/
def popBottom : Prog (Deque J) Empty Bool := do
  let p ← atomicRead position
  if T.length p ≤ 1 then return false
  else do
    let p ← fetchAndUpdate position fun p => T.sub p T.unit
    if T.length p = 1 then return false
    else do
      atomicWrite (slot (T.tail (T.sub p (2 * T.unit)))) none
      return true

/-- Take the job at the head; also return whether the deque looked empty. -/
def popTop : Prog (Deque J) Empty (Option J × Bool) := do
  let p ← atomicRead position
  if T.length p ≤ 1 then return (none, true)
  else do
    let next := (p >>> T.bits) <<< T.bits ||| T.toST (T.toST p + 1)
    let (exchanged, seen) ← compareExchange position p next
    if exchanged = false then return (none, decide (T.length seen ≤ 1))
    else do
      let job ← atomicRead (slot (T.head p))
      atomicWrite (slot (T.head p)) none
      return (job, decide (T.length p = 2))

/-- What has become of the pushed jobs: `items` are the numbers of those still there, from
head to tail, `popped` and `stolen` of those taken from the bottom and from the top. -/
structure Ledger (J : Type) where
  pushed : List J
  items : List ℕ
  popped : List ℕ
  stolen : List ℕ

namespace Ledger

/-- No job yet. -/
def init : Ledger J := ⟨[], [], [], []⟩

/-- A job is added at the bottom. -/
def push (l : Ledger J) (job : J) : Ledger J :=
  { l with pushed := l.pushed ++ [job], items := l.items ++ [l.pushed.length] }

/-- The job at the bottom is taken, if there is one. -/
def popBottom (l : Ledger J) : Ledger J :=
  { l with items := l.items.dropLast, popped := l.popped ++ l.items.getLast?.toList }

/-- The job at the top is taken, if there is one. -/
def popTop (l : Ledger J) : Ledger J :=
  { l with items := l.items.tail, stolen := l.stolen ++ l.items.head?.toList }

end Ledger

/-- The call that the owner is executing, with what is left of it. `number` is the job that
the call has pushed or taken; `quiet` says that no step of the call has changed the deque. -/
inductive OwnerCall (J : Type) : Type 1
  | none
  | push (job : J) (rest : Prog (Deque J) Empty (Bool × Bool)) (number : Option ℕ) (quiet : Prop)
  | pop (rest : Prog (Deque J) Empty Bool) (number : Option ℕ)

/-- The call that a thief is executing, with what is left of it and the job it has taken. -/
inductive ThiefCall (J : Type) : Type 1
  | none
  | top (rest : Prog (Deque J) Empty (Option J × Bool)) (number : Option ℕ)

/-- A deque with the calls of its owner and of the thieves `K` in flight. -/
structure Config (J K : Type) where
  deque : Deque J
  owner : OwnerCall J
  thief : K → ThiefCall J
  ledger : Ledger J

/-- Nothing has happened. -/
def Config.init {K : Type} : Config J K where
  deque := Deque.init
  owner := OwnerCall.none
  thief _ := ThiefCall.none
  ledger := Ledger.init

/-- What a step of the system is. -/
inductive Label (J K : Type)
  | callPush (job : J)
  | callPop
  | callTop (k : K)
  | stepOwner
  | stepThief (k : K)
  | returnPush (job : J) (result : Bool × Bool)
  | returnPop (result : Bool)
  | returnTop (k : K) (result : Option J × Bool)

variable {K : Type} [DecidableEq K]

/-- One step: a call starts, a call executes one atomic operation, or a call returns. The
ledger moves when `pos` does: there a push or a take becomes visible to the others. -/
inductive Config.Step : Label J K → Config J K → Config J K → Prop
  | callPush {c : Config J K} {job : J} (h : c.owner = OwnerCall.none) :
      Step (.callPush job) c { c with owner := .push job (pushBottom T job) none True }
  | callPop {c : Config J K} (h : c.owner = OwnerCall.none) :
      Step .callPop c { c with owner := .pop (popBottom T) none }
  | callTop {c : Config J K} {k : K} (h : c.thief k = ThiefCall.none) :
      Step (.callTop k) c { c with thief := Function.update c.thief k (.top (popTop T) none) }
  | stepPush {c : Config J K} {job : J} {rest rest' : Prog (Deque J) Empty (Bool × Bool)}
      {number : Option ℕ} {quiet : Prop} {d : Deque J} (h : c.owner = .push job rest number quiet)
      (step : ForkJoin.Step Empty.elim rest c.deque rest' d) :
      Step .stepOwner c { c with
        deque := d
        owner := .push job rest' (if d.pos = c.deque.pos then number else some c.ledger.pushed.length)
          (quiet ∧ d = c.deque)
        ledger := if d.pos = c.deque.pos then c.ledger else c.ledger.push job }
  | stepPop {c : Config J K} {rest rest' : Prog (Deque J) Empty Bool} {number : Option ℕ}
      {d : Deque J} (h : c.owner = .pop rest number)
      (step : ForkJoin.Step Empty.elim rest c.deque rest' d) :
      Step .stepOwner c { c with
        deque := d
        owner := .pop rest' (if d.pos = c.deque.pos then number else c.ledger.items.getLast?)
        ledger := if d.pos = c.deque.pos then c.ledger else c.ledger.popBottom }
  | stepTop {c : Config J K} {k : K} {rest rest' : Prog (Deque J) Empty (Option J × Bool)}
      {number : Option ℕ} {d : Deque J} (h : c.thief k = .top rest number)
      (step : ForkJoin.Step Empty.elim rest c.deque rest' d) :
      Step (.stepThief k) c { c with
        deque := d
        thief := Function.update c.thief k
          (.top rest' (if d.pos = c.deque.pos then number else c.ledger.items.head?))
        ledger := if d.pos = c.deque.pos then c.ledger else c.ledger.popTop }
  | returnPush {c : Config J K} {job : J} {r : Bool × Bool} {number : Option ℕ} {quiet : Prop}
      (h : c.owner = .push job (ret r) number quiet) :
      Step (.returnPush job r) c { c with owner := .none }
  | returnPop {c : Config J K} {r : Bool} {number : Option ℕ} (h : c.owner = .pop (ret r) number) :
      Step (.returnPop r) c { c with owner := .none }
  | returnTop {c : Config J K} {k : K} {r : Option J × Bool} {number : Option ℕ}
      (h : c.thief k = .top (ret r) number) :
      Step (.returnTop k r) c { c with thief := Function.update c.thief k .none }

/-- The states that the system can reach. -/
inductive Config.Reachable : Config J K → Prop
  | init : Reachable Config.init
  | step {c c' : Config J K} {label : Label J K} (h : Reachable c) (hstep : Config.Step T label c c') :
      Reachable c'

section Perform

variable [DecidableEq J]

/-- The step with the given label, if the calls in flight allow it. -/
def Config.perform : Label J K → Config J K → Option (Config J K)
  | .callPush job, c =>
      match c.owner with
      | .none => some { c with owner := .push job (pushBottom T job) none True }
      | _ => none
  | .callPop, c =>
      match c.owner with
      | .none => some { c with owner := .pop (popBottom T) none }
      | _ => none
  | .callTop k, c =>
      match c.thief k with
      | .none => some { c with thief := Function.update c.thief k (.top (popTop T) none) }
      | _ => none
  | .stepOwner, c =>
      match c.owner with
      | .push job rest number quiet => (rest.next? c.deque).map fun q => { c with
          deque := q.2
          owner := .push job q.1 (if q.2.pos = c.deque.pos then number else some c.ledger.pushed.length)
            (quiet ∧ q.2 = c.deque)
          ledger := if q.2.pos = c.deque.pos then c.ledger else c.ledger.push job }
      | .pop rest number => (rest.next? c.deque).map fun q => { c with
          deque := q.2
          owner := .pop q.1 (if q.2.pos = c.deque.pos then number else c.ledger.items.getLast?)
          ledger := if q.2.pos = c.deque.pos then c.ledger else c.ledger.popBottom }
      | .none => none
  | .stepThief k, c =>
      match c.thief k with
      | .top rest number => (rest.next? c.deque).map fun q => { c with
          deque := q.2
          thief := Function.update c.thief k
            (.top q.1 (if q.2.pos = c.deque.pos then number else c.ledger.items.head?))
          ledger := if q.2.pos = c.deque.pos then c.ledger else c.ledger.popTop }
      | .none => none
  | .returnPush job r, c =>
      match c.owner with
      | .push job' (ret r') _ _ => if job' = job ∧ r' = r then some { c with owner := .none } else none
      | _ => none
  | .returnPop r, c =>
      match c.owner with
      | .pop (ret r') _ => if r' = r then some { c with owner := .none } else none
      | _ => none
  | .returnTop k r, c =>
      match c.thief k with
      | .top (ret r') _ => if r' = r then some { c with thief := Function.update c.thief k .none } else none
      | _ => none

/-- What is performed is a step. -/
theorem Config.step_of_perform {label : Label J K} {c c' : Config J K} (h : Config.perform T label c = some c') :
    Config.Step T label c c' := by
  cases label with
  | callPush job =>
    rw [perform] at h
    split at h
    · next howner =>
      obtain rfl := Option.some.inj h
      exact .callPush howner
    · cases h
  | callPop =>
    rw [perform] at h
    split at h
    · next howner =>
      obtain rfl := Option.some.inj h
      exact .callPop howner
    · cases h
  | callTop k =>
    rw [perform] at h
    split at h
    · next hthief =>
      obtain rfl := Option.some.inj h
      exact .callTop hthief
    · cases h
  | stepOwner =>
    rw [perform] at h
    split at h
    · next howner =>
      obtain ⟨q, hq, rfl⟩ := Option.map_eq_some_iff.mp h
      exact .stepPush howner (Prog.step_of_next? hq)
    · next howner =>
      obtain ⟨q, hq, rfl⟩ := Option.map_eq_some_iff.mp h
      exact .stepPop howner (Prog.step_of_next? hq)
    · cases h
  | stepThief k =>
    rw [perform] at h
    split at h
    · next hthief =>
      obtain ⟨q, hq, rfl⟩ := Option.map_eq_some_iff.mp h
      exact .stepTop hthief (Prog.step_of_next? hq)
    · cases h
  | returnPush job r =>
    rw [perform] at h
    split at h
    · next howner =>
      split at h
      · next heq =>
        obtain ⟨rfl, rfl⟩ := heq
        obtain rfl := Option.some.inj h
        exact .returnPush howner
      · cases h
    · cases h
  | returnPop r =>
    rw [perform] at h
    split at h
    · next howner =>
      split at h
      · next heq =>
        obtain rfl := heq
        obtain rfl := Option.some.inj h
        exact .returnPop howner
      · cases h
    · cases h
  | returnTop k r =>
    rw [perform] at h
    split at h
    · next hthief =>
      split at h
      · next heq =>
        obtain rfl := heq
        obtain rfl := Option.some.inj h
        exact .returnTop hthief
      · cases h
    · cases h

/-- The steps with the given labels, one after the other. -/
def Config.performAll : List (Label J K) → Config J K → Option (Config J K)
  | [], c => some c
  | label :: labels, c => (Config.perform T label c).bind (performAll labels)

/-- What a list of labels performs can be reached. -/
theorem Config.Reachable.performAll {labels : List (Label J K)} {c c' : Config J K} (h : Reachable T c)
    (hperform : Config.performAll T labels c = some c') : Reachable T c' := by
  induction labels generalizing c with
  | nil =>
    obtain rfl := Option.some.inj hperform
    exact h
  | cons label labels ih =>
    obtain ⟨next, hnext, hrest⟩ := Option.bind_eq_some_iff.mp hperform
    exact ih (h.step (Config.step_of_perform T hnext)) hrest

end Perform

end Deque

end ToggleTree
