import ToggleTree.ForkJoin.Logic
import ToggleTree.Graph.CSR

/-!
# Local queues

A branch that follows edges on its own keeps the vertices to be visited in a queue of bounded
size: each vertex taken out uses up as much capacity as it has out-slots, and a vertex whose
slots do not fit stays in the queue together with those behind it.
-/

namespace ToggleTree

open ForkJoin ForkJoin.Prog

/-- `LocalQueue` -/
structure LocalQueue where
  lpos : ℕ
  rpos : ℕ
  capacity : ℕ
  localQueue : ℕ → ℕ

namespace LocalQueue

/-- A queue with room for `capacity` vertices that holds `s`. -/
def create (capacity s : ℕ) : LocalQueue := ⟨0, 1, capacity - 1, Function.update (fun _ => 0) 0 (s % 2 ^ 32)⟩

/-- Take the first vertex if its slots fit; `none` stands for the answer `UINT64_MAX`. -/
def popTop (G : CSR) (q : LocalQueue) : Option (ℕ × LocalQueue) :=
  if q.lpos = q.rpos then none
  else
    let s := q.localQueue q.lpos
    let workload := G.outOffset (s + 1) - G.outOffset s
    if q.capacity < workload then none
    else some (s, { q with lpos := q.lpos + 1, capacity := q.capacity - workload })

/-- `push_back` -/
def pushBack (q : LocalQueue) (d : ℕ) : LocalQueue :=
  { q with localQueue := Function.update q.localQueue q.rpos (d % 2 ^ 32), rpos := q.rpos + 1 }

variable {σ ι : Type}

/-- Run `f` concurrently on the vertices that are left. -/
def forEach (q : LocalQueue) (f : ℕ → Prog σ ι Unit) : Prog σ ι Unit :=
  parallelFor q.lpos q.rpos fun i => f (q.localQueue i)

/-- Run `f` on the vertices that are left, one after the other. -/
def sequentialForEach (q : LocalQueue) (f : ℕ → Prog σ ι Unit) : Prog σ ι Unit :=
  seqFor q.lpos q.rpos fun i => f (q.localQueue i)

variable {G : CSR} {q q' : LocalQueue} {s d : ℕ}

/-- The queue holds the positions from `lpos` up to `rpos`. -/
def Holds (q : LocalQueue) (i : ℕ) : Prop := q.lpos ≤ i ∧ i < q.rpos

/-- A vertex that was taken out was the first one, and the rest of the queue is as before. -/
theorem popTop_eq_some (h : q.popTop G = some (s, q')) : q.lpos ≠ q.rpos ∧ s = q.localQueue q.lpos ∧
    q'.lpos = q.lpos + 1 ∧ q'.rpos = q.rpos ∧ q'.localQueue = q.localQueue := by
  unfold popTop at h
  split at h
  · exact (Option.some_ne_none _ h.symm).elim
  · next hne =>
    dsimp only at h
    split at h
    · exact (Option.some_ne_none _ h.symm).elim
    · cases h
      exact ⟨hne, rfl, rfl, rfl, rfl⟩

/-- A vertex whose slots fit can be taken out. -/
theorem popTop_of_fits (hne : q.lpos ≠ q.rpos) (hs : q.localQueue q.lpos = s)
    (h : G.outOffset (s + 1) - G.outOffset s ≤ q.capacity) : q.popTop G = some (s, { q with
      lpos := q.lpos + 1, capacity := q.capacity - (G.outOffset (s + 1) - G.outOffset s) }) := by
  subst hs
  unfold popTop
  rw [if_neg hne]
  exact if_neg (not_lt.mpr h)

/-- The vertex a queue is created with is taken out first if its slots fit. -/
theorem popTop_create {capacity : ℕ} (hs : s < 2 ^ 32)
    (h : G.outOffset (s + 1) - G.outOffset s < capacity) :
    ∃ q, (create capacity s).popTop G = some (s, q) ∧ q.lpos = 1 ∧ q.rpos = 1 := by
  have hq : (create capacity s).localQueue 0 = s := by
    simp only [create, Function.update_self]
    exact Nat.mod_eq_of_lt hs
  have hpop := popTop_of_fits (G := G) (q := create capacity s) (by simp [create]) hq
    (show _ ≤ capacity - 1 by omega)
  exact ⟨_, hpop, rfl, rfl⟩

/-- Appending leaves the left end. -/
theorem pushBack_lpos : (q.pushBack d).lpos = q.lpos := rfl

/-- Appending moves the right end by one. -/
theorem pushBack_rpos : (q.pushBack d).rpos = q.rpos + 1 := rfl

/-- The last entry is the one that has been appended. -/
theorem pushBack_last (hd : d < 2 ^ 32) : (q.pushBack d).localQueue q.rpos = d := by
  simp only [pushBack, Function.update_self]
  exact Nat.mod_eq_of_lt hd

/-- Appending keeps the other entries. -/
theorem pushBack_of_ne {i : ℕ} (hi : i ≠ q.rpos) : (q.pushBack d).localQueue i = q.localQueue i :=
  Function.update_of_ne hi _ _

end LocalQueue

end ToggleTree
