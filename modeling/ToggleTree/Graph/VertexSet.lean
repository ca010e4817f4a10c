import Mathlib.Data.Finset.Sort
import ToggleTree.ForkJoin.Logic
import ToggleTree.Parallel.Atomic

/-!
# Sets of vertices in the graph algorithms

The graph algorithms see an index set as a finite set. An insertion or a removal takes effect
at its operation on the bottom layer, so it is one step here; a traversal runs its function
once on every element that the set had when the traversal started. The layered words implement
this view: `Implements` for operations that run alone, `updates_linearize` and `updates_refine`
for updates that run together, `forEach_refines` and `consumeEach_refines` for traversals.
-/

namespace ToggleTree

open ForkJoin ForkJoin.Prog

namespace VertexSet

variable {σ ι : Type} (c d : Loc σ (Finset ℕ))

/-- `insert`: whether the index is new. -/
def insert (i : ℕ) : Prog σ ι Bool := act fun s => (decide (i ∉ c.get s), c.put (Insert.insert i (c.get s)) s)

/-- `remove`: whether the index was there. -/
def remove (i : ℕ) : Prog σ ι Bool := act fun s => (decide (i ∈ c.get s), c.put ((c.get s).erase i) s)

/-- `contains` -/
def contains (i : ℕ) : Prog σ ι Bool := read fun s => decide (i ∈ c.get s)

/-- `empty` -/
def empty : Prog σ ι Bool := read fun s => decide (c.get s = ∅)

/-- `num_elements` -/
def numElements : Prog σ ι ℕ := read fun s => (c.get s).card

/-- Exchange the contents of two sets. -/
def swap : Prog σ ι Unit := modify fun s => d.put (c.get s) (c.put (d.get s) s)

/-- Run `f` on every element. -/
def forEach (f : ℕ → Prog σ ι Unit) : Prog σ ι Unit := do
  let S ← read c.get
  parallelEach (S.sort (· ≤ ·)) f

/-- Empty the set and run `f` on every element it had. -/
def consumeEach (f : ℕ → Prog σ ι Unit) : Prog σ ι Unit := do
  let S ← act fun s => (c.get s, c.put ∅ s)
  parallelEach (S.sort (· ≤ ·)) f

/-- Combine what branches for the entries of a list return. -/
def reduceEach {β : Type} (combine : β → β → β) (identity : β) (f : ℕ → Prog σ ι β) : List ℕ → Prog σ ι β
  | [] => ret identity
  | v :: vs => fork (f v) (reduceEach combine identity f vs) fun x y => ret (combine x y)

/-- Run `f` on every element and combine the results. -/
def reduce {β : Type} (combine : β → β → β) (identity : β) (f : ℕ → Prog σ ι β) : Prog σ ι β := do
  let S ← read c.get
  reduceEach combine identity f (S.sort (· ≤ ·))

/-- The sum of a function of the elements, as a 64-bit number. -/
def sumOver (f : ℕ → ℕ) : Prog σ ι ℕ := read fun s => (∑ i ∈ c.get s, f i) % 2 ^ 64

section Rules

variable {c} {M : Type} [AddCommMonoid M] {P : Protocol σ M} {env : ι → Prog σ ι Unit}
  {Q : ℕ → σ → Prop} {f : ℕ → Prog σ ι Unit} {s : σ}

/-- The calls of a traversal, each verified with its own share of the resources. -/
theorem ensures_parallelEach (S : Finset ℕ) (a : ℕ → M) (hstable : ∀ v, Ensures.Stable P fun s _ => Q v s)
    (hf : ∀ v ∈ S, Ensures P env (fun _ s b => Q v s ∧ b = 0) (f v) s (a v)) :
    Ensures P env (fun _ s b => (∀ v ∈ S, Q v s) ∧ b = 0) (parallelEach (S.sort (· ≤ ·)) f) s
      (∑ v ∈ S, a v) := by
  have hsum : ∑ v ∈ S, a v = ((S.sort (· ≤ ·)).map a).sum := by
    rw [Finset.sum, ← Finset.sort_eq S (· ≤ ·), Multiset.map_coe, Multiset.sum_coe]
  rw [hsum]
  refine (Ensures.parallelEach a hstable fun v hv => hf v ((Finset.mem_sort _).mp hv)).mono ?_
  intro _ s' b h
  exact ⟨fun v hv => h.1 v ((Finset.mem_sort _).mpr hv), h.2⟩

/-- A parallel phase over a set: the invariant at its start gives the invariant at its end, and what
each call established. -/
theorem total_parallelEach (S : Finset ℕ) (a : ℕ → M) (hinv : P.inv s (∑ v ∈ S, a v))
    (hstable : ∀ v s s', P.rel s s' → Q v s → Q v s')
    (hf : ∀ v ∈ S, Ensures P env (fun _ s b => Q v s ∧ b = 0) (f v) s (a v)) :
    Total env (fun _ s' => P.rel s s' ∧ P.inv s' 0 ∧ ∀ v ∈ S, Q v s')
      (parallelEach (S.sort (· ≤ ·)) f) s := by
  have h := ensures_parallelEach (Q := Q) S a (fun v s s' _ hrel h => hstable v s s' hrel h) hf
  refine (h.total hinv).mono ?_
  rintro _ s' ⟨hrel, _, hinv', hQ, rfl⟩
  exact ⟨hrel, hinv', hQ⟩

/-- The rule of `for_each`: the claims of the vertices are used up and every call has what it promises.
-/
theorem total_forEach (a : ℕ → M) (hinv : P.inv s (∑ v ∈ c.get s, a v))
    (hstable : ∀ v s s', P.rel s s' → Q v s → Q v s')
    (hf : ∀ v ∈ c.get s, Ensures P env (fun _ s b => Q v s ∧ b = 0) (f v) s (a v)) :
    Total env (fun _ s' => P.rel s s' ∧ P.inv s' 0 ∧ ∀ v ∈ c.get s, Q v s') (forEach c f) s :=
  Total.read (total_parallelEach (c.get s) a hinv hstable hf)

/-- The rule of `consume_each`: the set is emptied first, and the rest is as for `for_each`. -/
theorem total_consumeEach {s' : σ} (hs' : c.put ∅ s = s') (a : ℕ → M)
    (hinv : P.inv s' (∑ v ∈ c.get s, a v)) (hstable : ∀ v s s', P.rel s s' → Q v s → Q v s')
    (hf : ∀ v ∈ c.get s, Ensures P env (fun _ s b => Q v s ∧ b = 0) (f v) s' (a v)) :
    Total env (fun _ t => P.rel s' t ∧ P.inv t 0 ∧ ∀ v ∈ c.get s, Q v t) (consumeEach c f) s := by
  refine Total.act ?_
  change Total env _ (parallelEach ((c.get s).sort (· ≤ ·)) f) (c.put ∅ s)
  rw [hs']
  exact total_parallelEach (c.get s) a hinv hstable hf

/-- The calls of a reduction whose results do not depend on the schedule. -/
theorem ensures_reduceEach {β : Type} (combine : β → β → β) (identity : β) {f : ℕ → Prog σ ι β} (value : ℕ → β)
    (S : Finset ℕ) (a : ℕ → M) (hf : ∀ v ∈ S, Ensures P env (fun x _ b => x = value v ∧ b = 0) (f v) s (a v)) :
    Ensures P env (fun x _ b => x = ((S.sort (· ≤ ·)).map value).foldr combine identity ∧ b = 0)
      (reduceEach combine identity f (S.sort (· ≤ ·))) s (∑ v ∈ S, a v) := by
  have hsum : ∑ v ∈ S, a v = ((S.sort (· ≤ ·)).map a).sum := by
    rw [Finset.sum, ← Finset.sort_eq S (· ≤ ·), Multiset.map_coe, Multiset.sum_coe]
  have hlist : ∀ v ∈ S.sort (· ≤ ·), Ensures P env (fun x _ b => x = value v ∧ b = 0) (f v) s (a v) :=
    fun v hv => hf v ((Finset.mem_sort _).mp hv)
  rw [hsum]
  clear hsum hf
  generalize S.sort (· ≤ ·) = vs at hlist ⊢
  induction vs with
  | nil => exact Ensures.ret fun _ _ _ hinv => ⟨0, hinv, rfl, rfl⟩
  | cons v vs ih =>
    rw [List.map_cons, List.map_cons, List.sum_cons]
    refine Ensures.fork (hlist v List.mem_cons_self) (ih fun u hu => hlist u (List.mem_cons_of_mem v hu)) ?_
    rintro x y s' _ _ ⟨rfl, rfl⟩ ⟨rfl, rfl⟩
    exact Ensures.ret fun _ _ _ hinv => ⟨0, by rwa [add_zero] at hinv, rfl, rfl⟩

end Rules

end VertexSet

end ToggleTree
