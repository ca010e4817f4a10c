import Mathlib.Data.Finset.Card
import Mathlib.Data.List.Perm.Basic
import Mathlib.Data.List.Nodup
import Mathlib.Data.Finset.Dedup
import Mathlib.Data.Finset.Range
import Mathlib.Tactic

/-!
# Loops over arrays with checked accesses

Programs that return `none` as soon as an access is out of bounds. `Returns` says that a program
returns a value, and that the value satisfies a condition; its rules follow the shape of the
program. The iterations of a parallel loop run in an arbitrary order that a schedule fixes, and
an invariant over the set of the iterations that are done does not depend on it.

Nothing here refers to a particular program.
-/

namespace Checked

variable {α β σ : Type}

/-- The program returns a value that satisfies `Q`. -/
def Returns (Q : α → Prop) (x : Option α) : Prop := ∃ a, x = some a ∧ Q a

namespace Returns

variable {Q Q' : α → Prop} {R : β → Prop} {x : Option α} {a : α}

/-- A value is returned. -/
theorem pure (h : Q a) : Returns Q (some a) := ⟨a, rfl, h⟩

/-- What is equal to a value returns it. -/
theorem of_eq (hx : x = some a) (h : Q a) : Returns Q x := ⟨a, hx, h⟩

/-- A weaker property of the value. -/
theorem mono (h : Returns Q x) (hQ : ∀ a, Q a → Q' a) : Returns Q' x := by
  obtain ⟨a, rfl, ha⟩ := h
  exact ⟨a, rfl, hQ a ha⟩

/-- One computation after the other. -/
theorem bind {f : α → Option β} (h : Returns Q x) (hf : ∀ a, Q a → Returns R (f a)) :
    Returns R (x >>= f) := by
  obtain ⟨a, rfl, ha⟩ := h
  exact hf a ha

/-- The first part returns a known value. -/
theorem bind_eq {f : α → Option β} (hx : x = some a) (hf : Returns R (f a)) : Returns R (x >>= f) := by
  rw [hx]
  exact hf

end Returns

/-- The iterations from `start` up to `stop`, one after the other. -/
def loop (start stop : ℕ) (s : σ) (body : ℕ → σ → Option σ) : Option σ :=
  (List.range' start (stop - start)).foldlM (fun s i => body i s) s

/-- Iterations in a given order. -/
def loopIn (order : List ℕ) (s : σ) (body : ℕ → σ → Option σ) : Option σ :=
  order.foldlM (fun s i => body i s) s

/-- An order of the iterations for every number of them. -/
structure Schedule where
  order : ℕ → List ℕ
  perm : ∀ k, (order k).Perm (List.range k)

/-- The iterations in ascending order. -/
def Schedule.ascending : Schedule := ⟨List.range, fun _ => List.Perm.refl _⟩

/-- The iterations in descending order. -/
def Schedule.descending : Schedule := ⟨fun k => (List.range k).reverse, fun _ => List.reverse_perm _⟩

/-- A parallel loop over `0, …, k - 1` under a schedule. -/
def parallelLoop (schedule : Schedule) (k : ℕ) (s : σ) (body : ℕ → σ → Option σ) : Option σ :=
  loopIn (schedule.order k) s body

/-- A loop keeps an invariant indexed by the next iteration. -/
theorem Returns.loop {I : ℕ → σ → Prop} {start stop : ℕ} {s : σ} {body : ℕ → σ → Option σ}
    (hle : start ≤ stop) (h0 : I start s)
    (hbody : ∀ i s, start ≤ i → i < stop → I i s → Returns (I (i + 1)) (body i s)) :
    Returns (I stop) (loop start stop s body) := by
  unfold Checked.loop
  induction hn : stop - start generalizing start s with
  | zero =>
    obtain rfl : start = stop := by omega
    exact Returns.pure h0
  | succ n ih =>
    rw [List.range'_succ, List.foldlM_cons]
    refine (hbody start s le_rfl (by omega) h0).bind fun s' h1 => ?_
    exact ih (by omega) h1 (fun i s hi => hbody i s (by omega)) (by omega)

/-- A loop without iterations returns its state. -/
theorem Returns.loop_of_le {Q : σ → Prop} {start stop : ℕ} {s : σ} {body : ℕ → σ → Option σ} (hle : stop ≤ start)
    (h : Q s) : Returns Q (Checked.loop start stop s body) := by
  rw [Checked.loop, Nat.sub_eq_zero_of_le hle]
  exact Returns.pure h

/-- An invariant of the set of iterations that are done. -/
theorem Returns.loopIn {I : Finset ℕ → σ → Prop} {order : List ℕ} {done : Finset ℕ} {s : σ}
    {body : ℕ → σ → Option σ} (hnodup : order.Nodup) (hdisj : ∀ i ∈ order, i ∉ done) (h0 : I done s)
    (hbody : ∀ done i s, i ∈ order → i ∉ done → I done s → Returns (I (insert i done)) (body i s)) :
    Returns (I (done ∪ order.toFinset)) (loopIn order s body) := by
  unfold Checked.loopIn
  induction order generalizing done s with
  | nil =>
    refine Returns.pure ?_
    rwa [List.toFinset_nil, Finset.union_empty]
  | cons i order ih =>
    obtain ⟨hi, hnodup⟩ := List.nodup_cons.mp hnodup
    rw [List.foldlM_cons]
    refine (hbody done i s List.mem_cons_self (hdisj i List.mem_cons_self) h0).bind fun s' h1 => ?_
    rw [List.toFinset_cons, Finset.union_insert, ← Finset.insert_union]
    refine ih hnodup (fun j hj => ?_) h1 fun d j s hj => hbody d j s (List.mem_cons_of_mem _ hj)
    rw [Finset.mem_insert, not_or]
    exact ⟨fun h => hi (h ▸ hj), hdisj j (List.mem_cons_of_mem _ hj)⟩

/-- A parallel loop keeps an invariant of the set of iterations that are done, whatever the order. -/
theorem Returns.parallelLoop {I : Finset ℕ → σ → Prop} {schedule : Schedule} {k : ℕ} {s : σ}
    {body : ℕ → σ → Option σ} (h0 : I ∅ s)
    (hbody : ∀ done i s, i < k → i ∉ done → I done s → Returns (I (insert i done)) (body i s)) :
    Returns (I (Finset.range k)) (parallelLoop schedule k s body) := by
  have hperm := schedule.perm k
  have hset : (schedule.order k).toFinset = Finset.range k := by
    ext i
    rw [List.mem_toFinset, hperm.mem_iff, List.mem_range, Finset.mem_range]
  rw [← hset, ← Finset.empty_union (schedule.order k).toFinset]
  refine Returns.loopIn (hperm.nodup_iff.mpr List.nodup_range) (fun i _ => Finset.notMem_empty i) h0 ?_
  exact fun done i s hi => hbody done i s (List.mem_range.mp (hperm.mem_iff.mp hi))

section Iterations

variable {schedule : Schedule} {k i : ℕ} {s : σ} {body body' : ℕ → σ → Option σ}

/-- Iterations that do the same. -/
theorem parallelLoop_congr (h : ∀ i < k, ∀ s, body i s = body' i s) :
    parallelLoop schedule k s body = parallelLoop schedule k s body' := by
  have horder : ∀ i ∈ schedule.order k, i < k := fun i hi => List.mem_range.mp ((schedule.perm k).mem_iff.mp hi)
  unfold parallelLoop loopIn
  generalize schedule.order k = order at horder
  induction order generalizing s with
  | nil => rfl
  | cons i order ih =>
    rw [List.foldlM_cons, List.foldlM_cons, h i (horder i List.mem_cons_self)]
    exact congrArg _ (funext fun s => ih fun j hj => horder j (List.mem_cons_of_mem _ hj))

/-- Iterations that do nothing. -/
theorem parallelLoop_id (h : ∀ i < k, ∀ s, body i s = some s) : parallelLoop schedule k s body = some s := by
  have hsame : parallelLoop schedule k s body = parallelLoop schedule k s fun _ s => some s :=
    parallelLoop_congr h
  rw [hsame]
  unfold parallelLoop loopIn
  induction schedule.order k with
  | nil => rfl
  | cons i order ih => exact ih

/-- An iteration that always fails. -/
theorem parallelLoop_eq_none (hi : i < k) (h : ∀ s, body i s = none) : parallelLoop schedule k s body = none := by
  have hmem : i ∈ schedule.order k := (schedule.perm k).mem_iff.mpr (List.mem_range.mpr hi)
  unfold parallelLoop loopIn
  generalize schedule.order k = order at hmem
  induction order generalizing s with
  | nil => exact absurd hmem List.not_mem_nil
  | cons j order ih =>
    rw [List.foldlM_cons]
    rcases List.mem_cons.mp hmem with rfl | hmem
    · rw [h]
      rfl
    · cases body j s with
      | none => rfl
      | some s => exact ih hmem

end Iterations

section Traces

variable {ι τ : Type} {body : ι → σ → Option σ} {traced : ι → σ × List τ → Option (σ × List τ)}
  {events : ι → List τ}

/-- Iterations that also note what they do. -/
theorem foldlM_trace (h : ∀ i s log, traced i (s, log) = (body i s).map fun s => (s, log ++ events i))
    (l : List ι) (s : σ) (log : List τ) : l.foldlM (fun r i => traced i r) (s, log) =
      (l.foldlM (fun s i => body i s) s).map fun s => (s, log ++ l.flatMap events) := by
  induction l generalizing s log with
  | nil => simp
  | cons i l ih =>
    rw [List.foldlM_cons, List.foldlM_cons, h]
    cases body i s with
    | none => rfl
    | some s =>
      rw [List.flatMap_cons, ← List.append_assoc]
      exact ih s _

end Traces

section LoopTraces

variable {τ : Type} {body : ℕ → σ → Option σ} {traced : ℕ → σ × List τ → Option (σ × List τ)}
  {events : ℕ → List τ} (h : ∀ i s log, traced i (s, log) = (body i s).map fun s => (s, log ++ events i))
include h

/-- The traced loop returns what the loop returns, and the trace of its iterations. -/
theorem loop_trace (start stop : ℕ) (s : σ) (log : List τ) : loop start stop (s, log) traced =
    (loop start stop s body).map fun s => (s, log ++ (List.range' start (stop - start)).flatMap events) :=
  foldlM_trace h _ s log

/-- The traced parallel loop returns what the loop returns, and the trace of its iterations in their
order. -/
theorem parallelLoop_trace (schedule : Schedule) (k : ℕ) (s : σ) (log : List τ) :
    parallelLoop schedule k (s, log) traced =
    (parallelLoop schedule k s body).map fun s => (s, log ++ (schedule.order k).flatMap events) :=
  foldlM_trace h _ s log

end LoopTraces

/-- A parallel loop whose iterations cannot fail. -/
def parallelFold (schedule : Schedule) (k : ℕ) (s : σ) (body : ℕ → σ → σ) : σ :=
  (schedule.order k).foldl (fun s i => body i s) s

/-- A loop whose iterations do not fail is a fold. -/
theorem parallelLoop_some (schedule : Schedule) (k : ℕ) (s : σ) (body : ℕ → σ → σ) :
    parallelLoop schedule k s (fun i s => some (body i s)) = some (parallelFold schedule k s body) := by
  unfold parallelLoop loopIn parallelFold
  induction schedule.order k generalizing s with
  | nil => rfl
  | cons i order ih => exact ih (body i s)

/-- The induction rule of the fold over the iterations. -/
theorem parallelFold_invariant {I : Finset ℕ → σ → Prop} {schedule : Schedule} {k : ℕ} {s : σ} {body : ℕ → σ → σ}
    (h0 : I ∅ s) (hbody : ∀ done i s, i < k → i ∉ done → I done s → I (insert i done) (body i s)) :
    I (Finset.range k) (parallelFold schedule k s body) := by
  obtain ⟨s', heq, hs'⟩ : Returns (I (Finset.range k)) (parallelLoop schedule k s fun i s => some (body i s)) :=
    Returns.parallelLoop h0 fun done i s hi hnot hs => Returns.pure (hbody done i s hi hnot hs)
  rw [parallelLoop_some, Option.some.injEq] at heq
  rwa [heq]

/-- Write an element if the position is in bounds. -/
def write (a : Array α) (i : ℕ) (x : α) : Option (Array α) :=
  if i < a.size then some (a.setIfInBounds i x) else none

/-- The array has `n` elements, those of `f`. -/
structure Contents (a : Array α) (n : ℕ) (f : ℕ → α) : Prop where
  size : a.size = n
  get : ∀ i < n, a[i]? = some (f i)

namespace Contents

variable {a b : Array α} {n i j : ℕ} {f g : ℕ → α} {x : α}

/-- The contents depend only on the entries of the array. -/
theorem congr (h : Contents a n f) (hfg : ∀ i < n, f i = g i) : Contents a n g :=
  ⟨h.size, fun i hi => (h.get i hi).trans (congrArg some (hfg i hi))⟩

/-- Arrays with the same contents are equal. -/
theorem eq (h : Contents a n f) (h' : Contents b n f) : a = b := by
  refine Array.ext (h.size.trans h'.size.symm) fun i h₁ h₂ => ?_
  have hi : i < n := h.size ▸ h₁
  have hget := (h.get i hi).trans (h'.get i hi).symm
  rwa [Array.getElem?_eq_getElem h₁, Array.getElem?_eq_getElem h₂, Option.some.injEq] at hget

/-- The contents of a constant array. -/
theorem replicate (n : ℕ) (x : α) : Contents (Array.replicate n x) n fun _ => x :=
  ⟨Array.size_replicate, fun i hi => by rw [Array.getElem?_replicate, if_pos hi]⟩

/-- The contents of a list. -/
theorem ofList (l : List α) (d : α) : Contents l.toArray l.length fun i => l.getD i d :=
  ⟨List.size_toArray, fun i hi => by simp [hi]⟩

/-- The contents of a function. -/
theorem ofFn (n : ℕ) (f : ℕ → α) : Contents (Array.ofFn fun i : Fin n => f i) n f :=
  ⟨Array.size_ofFn, fun i hi => by rw [Array.getElem?_ofFn, dif_pos hi]⟩

/-- An array has its own contents. -/
theorem self [Inhabited α] (a : Array α) : Contents a a.size fun i => a.getD i default :=
  ⟨rfl, fun i hi => by simp [Array.getD, hi]⟩

/-- A write in bounds succeeds and changes one element. -/
theorem write (h : Contents a n f) (hi : i < n) (x : α) :
    ∃ a', Checked.write a i x = some a' ∧ Contents a' n (Function.update f i x) := by
  refine ⟨a.setIfInBounds i x, if_pos (h.size.symm ▸ hi), by rw [Array.size_setIfInBounds, h.size],
    fun j hj => ?_⟩
  rw [Array.getElem?_setIfInBounds]
  by_cases hij : i = j
  · subst hij
    rw [if_pos rfl, if_pos (h.size.symm ▸ hi), Function.update_self]
  · rw [if_neg hij, Function.update_of_ne (Ne.symm hij)]
    exact h.get j hj

/-- The elements as a list. -/
theorem toList (h : Contents a n f) : a.toList = (List.range n).map f := by
  refine List.ext_getElem? fun i => ?_
  rw [Array.getElem?_toList, List.getElem?_map]
  by_cases hi : i < n
  · rw [h.get i hi, List.getElem?_range hi, Option.map_some]
  · rw [Array.getElem?_eq_none (by rw [h.size]; omega), List.getElem?_eq_none (by rw [List.length_range]; omega),
      Option.map_none]

end Contents

/-- Build an array from its elements, which may fail. -/
def build (n : ℕ) (f : ℕ → Option α) : Option (Array α) :=
  (List.range n).foldlM (fun a i => (f i).map a.push) #[]

/-- A loop that fills an array returns the array of its values. -/
theorem Returns.build {n : ℕ} {f : ℕ → Option α} {g : ℕ → α} (hf : ∀ i < n, f i = some (g i)) :
    Returns (fun a => Contents a n g) (build n f) := by
  unfold Checked.build
  have key : ∀ k ≤ n, Returns (fun a => Contents a k g)
      ((List.range k).foldlM (fun a i => (f i).map a.push) #[]) := by
    intro k
    induction k with
    | zero => exact fun _ => Returns.pure ⟨rfl, fun i hi => by omega⟩
    | succ k ih =>
      intro hk
      rw [List.range_succ, List.foldlM_append]
      refine (ih (by omega)).bind fun a ha => ?_
      rw [List.foldlM_cons, hf k (by omega)]
      refine Returns.pure ⟨by rw [Array.size_push, ha.size], fun i hi => ?_⟩
      rw [Array.getElem?_push]
      by_cases hik : i = k
      · rw [if_pos (by rw [ha.size]; exact hik), hik]
      · rw [if_neg (by rw [ha.size]; exact hik)]
        exact ha.get i (by omega)
  exact key n le_rfl

end Checked
