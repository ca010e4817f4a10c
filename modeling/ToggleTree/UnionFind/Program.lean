import Mathlib.Data.List.Count
import Mathlib.Logic.Function.Basic
import ToggleTree.UnionFind.Forest

/-!
# Concurrent union–find

`find` and `unite` work on one array of parents, which is all they share. `unite` halves the paths
of both vertices and links the larger root to the smaller one with a compare-and-set; `find`
climbs to the root and points the vertex to it. Every access to the array is one step of the call
that makes it; what a call computes between two accesses belongs to the step before.
-/

namespace ToggleTree

open LinkForest

namespace UnionFind

/-- The calls of the library functions. -/
inductive Call
  | unite (i j : ℕ)
  | find (i : ℕ)

/-- Where `find_halve` stands: before it reads `parent[x]`, before it reads `parent[px]`, and before it
writes `ppx` to `parent[x]`. -/
inductive Halve
  | readParent (x : ℕ)
  | readGrandparent (x px : ℕ)
  | writeParent (x ppx : ℕ)

/-- Where a call stands.

`halveI` and `halveJ` are inside the two calls of `find_halve`, `check` and `exchange` before the two
accesses of `compare_and_set`. `findParent`, `findGrandparent`, `findClimb` and `findWrite` stand before the
accesses of `find`. -/
inductive Local
  | halveI (h : Halve) (j : ℕ)
  | halveJ (i : ℕ) (h : Halve)
  | check (i j : ℕ)
  | exchange (i j : ℕ)
  | findParent (i : ℕ)
  | findGrandparent (i pi : ℕ)
  | findClimb (i pi : ℕ)
  | findWrite (i pi : ℕ)
  | returned (v : ℕ)

/-- A call that has not made its first access. -/
def Call.start : Call → Local
  | unite i j => .halveI (.readParent i) j
  | find i => .findParent i

/-- One access of `find_halve`; the result is its new place or the root that it returns. -/
def Halve.step (h : Halve) (parent : ℕ → ℕ) : (Halve ⊕ ℕ) × (ℕ → ℕ) :=
  match h with
  | readParent x => (.inl (readGrandparent x (parent x)), parent)
  | readGrandparent x px => if px = parent px then (.inr px, parent)
    else (.inl (writeParent x (parent px)), parent)
  | writeParent x ppx => (.inl (readParent ppx), Function.update parent x ppx)

/-- Once both roots are known. `maxValue` is the largest value of the type of the vertices. -/
def compare (maxValue i j : ℕ) : Local :=
  if i = j then .returned maxValue else if i < j then .check j i else .check i j

/-- One access of a call, and the link if it makes one. -/
def Local.step (maxValue : ℕ) (l : Local) (parent : ℕ → ℕ) : Local × (ℕ → ℕ) × Option (ℕ × ℕ) :=
  match l with
  | halveI h j =>
      match h.step parent with
      | (.inl h, parent) => (halveI h j, parent, none)
      | (.inr i, parent) => (halveJ i (.readParent j), parent, none)
  | halveJ i h =>
      match h.step parent with
      | (.inl h, parent) => (halveJ i h, parent, none)
      | (.inr j, parent) => (compare maxValue i j, parent, none)
  | check i j => if parent i ≠ i then (halveI (.readParent i) j, parent, none) else (exchange i j, parent, none)
  | exchange i j =>
      if parent i = i then (returned i, Function.update parent i j, some (i, j))
      else (halveI (.readParent i) j, parent, none)
  | findParent i => (findGrandparent i (parent i), parent, none)
  | findGrandparent i pi => if pi = parent pi then (returned pi, parent, none)
    else (findClimb i (parent pi), parent, none)
  | findClimb i pi => if pi ≠ parent pi then (findClimb i (parent pi), parent, none)
    else (findWrite i pi, parent, none)
  | findWrite i pi => (returned pi, Function.update parent i pi, none)
  | returned v => (returned v, parent, none)

variable {C : Type} [DecidableEq C]

/-- The array, the links that successful compare-and-sets have made, latest first, and the calls. -/
structure State (C : Type) where
  parent : ℕ → ℕ
  links : List (ℕ × ℕ)
  calls : C → Local

/-- Every vertex is its own parent, and no call has begun. -/
def State.init (calls : C → Call) : State C := ⟨id, [], fun c => (calls c).start⟩

/-- The next access of one call. -/
def State.advance (maxValue : ℕ) (s : State C) (c : C) : State C :=
  let r := (s.calls c).step maxValue s.parent
  ⟨r.2.1, r.2.2.toList ++ s.links, Function.update s.calls c r.1⟩

/-- The accesses of the calls in the order of a schedule. -/
def run (maxValue : ℕ) (schedule : List C) (s : State C) : State C := schedule.foldl (State.advance maxValue) s

/-- The pairs that are passed to `unite`. -/
def United (calls : C → Call) (x y : ℕ) : Prop := ∃ c, calls c = .unite x y

/-- The call is about vertices below `n`. -/
def Call.Within (n : ℕ) : Call → Prop
  | unite i j => i < n ∧ j < n
  | find i => i < n

/-- All calls of `unite` have returned. -/
def AllUnited (calls : C → Call) (s : State C) : Prop :=
  ∀ c i j, calls c = .unite i j → ∃ v, s.calls c = .returned v

/-- The values other than `maxValue` that calls of `unite` have returned. -/
def unitedValues (maxValue : ℕ) (calls : C → Call) (s : State C) : Set ℕ :=
  {v | v ≠ maxValue ∧ ∃ c i j, calls c = .unite i j ∧ s.calls c = .returned v}

/-- A call of `find` that has not begun in `s` can return `v`. -/
def FindReturns (maxValue : ℕ) (calls : C → Call) (s : State C) (i v : ℕ) : Prop :=
  ∃ c schedule, calls c = .find i ∧ s.calls c = .findParent i ∧ (run maxValue schedule s).calls c = .returned v

/-- A run without steps. -/
@[simp] theorem run_nil (maxValue : ℕ) (s : State C) : run maxValue [] s = s := rfl

/-- The first step of a run and the others. -/
@[simp] theorem run_cons (maxValue : ℕ) (c : C) (schedule : List C) (s : State C) :
    run maxValue (c :: schedule) s = run maxValue schedule (s.advance maxValue c) := rfl

/-- A property that every step keeps holds after every schedule. -/
theorem run_invariant {maxValue : ℕ} {I : State C → Prop}
    (hstep : ∀ s c, I s → I (s.advance maxValue c)) {s : State C}
    (h : I s) (schedule : List C) : I (run maxValue schedule s) := by
  induction schedule generalizing s with
  | nil => exact h
  | cons c schedule ih => exact ih (hstep s c h)

end UnionFind

end ToggleTree
