import ToggleTree.Graph.LocalQueue
import ToggleTree.Graph.Symmetric

/-!
# Sessions of a local queue

There is no bounds check when a vertex is pushed. A session takes vertices out and, after each of
them, pushes at most as many vertices as it has out-slots. The capacity that is left, the pushes that
are still allowed and the positions in use then never add up to more than the array holds.
-/

namespace ToggleTree

open ForkJoin ForkJoin.Prog

namespace LocalQueue

/-- How far ahead the data are loaded. -/
def dataAhead : ℕ := 2

/-- How far ahead the edges are loaded. -/
def edgesAhead : ℕ := 6

/-- The positions that `popTop` looks up for prefetching once it has moved `lpos`. -/
def lookups (q : LocalQueue) (withTargets : Bool) : List ℕ :=
  (if withTargets ∧ q.lpos + dataAhead < q.rpos then [q.lpos + dataAhead] else []) ++
    (if q.lpos + edgesAhead < q.rpos then [q.lpos + edgesAhead] else [])

/-- The queue created for `v`, the vertices taken out so far, those ever queued, and the pushes that
are still allowed before the next vertex is taken out. -/
inductive Session (G : CSR) (capacity v : ℕ) : LocalQueue → List ℕ → List ℕ → ℕ → Prop
  | create : Session G capacity v (create capacity v) [] [v] 0
  | pop {q q' : LocalQueue} {popped queued : List ℕ} {allowed s : ℕ}
    (run : Session G capacity v q popped queued allowed)
      (hpop : q.popTop G = some (s, q')) : Session G capacity v q' (popped ++ [s]) queued (G.degree s)
  | push {q : LocalQueue} {popped queued : List ℕ} {allowed d : ℕ}
      (run : Session G capacity v q popped queued (allowed + 1)) (hd : d < 2 ^ 32) :
      Session G capacity v (q.pushBack d) popped (queued ++ [d]) allowed

/-- What every step of a session keeps. -/
structure Inv (capacity : ℕ) (q : LocalQueue) (popped queued : List ℕ) (allowed : ℕ) : Prop where
  budget : q.rpos + allowed + q.capacity ≤ capacity
  order : q.lpos ≤ q.rpos
  length : queued.length = q.rpos
  content : ∀ i < q.rpos, queued[i]? = some (q.localQueue i)
  popped : popped = queued.take q.lpos

section

variable {G : CSR} {capacity v : ℕ} {q q' : LocalQueue} {popped queued : List ℕ} {allowed s d : ℕ}

/-- The invariant holds for a new queue. -/
theorem Inv.create (hv : v < 2 ^ 32) (hcapacity : 0 < capacity) : Inv capacity (create capacity v) [] [v] 0 where
  budget := by
    simp only [LocalQueue.create]
    omega
  order := Nat.zero_le _
  length := rfl
  content := fun i hi => by
    obtain rfl : i = 0 := Nat.lt_one_iff.mp hi
    simp only [LocalQueue.create, Function.update_self, Nat.mod_eq_of_lt hv]
    rfl
  popped := rfl

/-- A vertex that was taken out has used up capacity. -/
theorem popTop_capacity (h : q.popTop G = some (s, q')) : q'.capacity + G.degree s = q.capacity := by
  unfold popTop at h
  split at h
  · cases h
  · dsimp only at h
    split at h
    · cases h
    · next hfits =>
      cases h
      exact Nat.sub_add_cancel (not_lt.mp hfits)

/-- Taking a vertex out turns capacity into pushes. -/
theorem Inv.pop (h : Inv capacity q popped queued allowed) (hpop : q.popTop G = some (s, q')) :
    Inv capacity q' (popped ++ [s]) queued (G.degree s) := by
  have hcapacity := popTop_capacity hpop
  obtain ⟨hne, rfl, hlpos, hrpos, hqueue⟩ := popTop_eq_some hpop
  have hlt : q.lpos < q.rpos := lt_of_le_of_ne h.order hne
  exact {
    budget := by
      have := h.budget
      omega
    order := hlpos ▸ hrpos ▸ hlt
    length := hrpos ▸ h.length
    content := hrpos ▸ hqueue ▸ h.content
    popped := by
      rw [hlpos, List.take_add_one, h.content _ hlt, h.popped]
      rfl }

/-- Appending an entry keeps the invariant. -/
theorem Inv.push (h : Inv capacity q popped queued (allowed + 1)) (hd : d < 2 ^ 32) :
    Inv capacity (q.pushBack d) popped (queued ++ [d]) allowed where
  budget := by
    have := h.budget
    simp only [pushBack]
    omega
  order := h.order.trans (Nat.le_succ _)
  length := by rw [List.length_append, h.length]; rfl
  content := fun i hi => by
    rcases Nat.lt_succ_iff_lt_or_eq.mp hi with hi | rfl
    · rw [pushBack_of_ne hi.ne, List.getElem?_append_left (h.length.symm ▸ hi)]
      exact h.content i hi
    · rw [pushBack_last hd, ← h.length, List.getElem?_concat_length]
  popped := by
    rw [pushBack_lpos, List.take_append_of_le_length (h.length.symm ▸ h.order)]
    exact h.popped

/-- The invariant holds throughout a session. -/
theorem Session.inv (run : Session G capacity v q popped queued allowed) (hv : v < 2 ^ 32)
    (hcapacity : 0 < capacity) :
    Inv capacity q popped queued allowed := by
  induction run with
  | create => exact Inv.create hv hcapacity
  | pop _ hpop ih => exact ih.pop hpop
  | push _ hd ih => exact ih.push hd

/-- The vertices that have not been taken out. -/
def rest (q : LocalQueue) : List ℕ := (List.range' q.lpos (q.rpos - q.lpos)).map q.localQueue

/-- The vertices are taken out in the order in which they were queued. -/
theorem Inv.split (h : Inv capacity q popped queued allowed) : queued = popped ++ q.rest := by
  have hdrop : queued.drop q.lpos = q.rest := by
    refine List.ext_getElem? fun i => ?_
    rw [List.getElem?_drop, rest, List.getElem?_map]
    by_cases hi : i < q.rpos - q.lpos
    · rw [List.getElem?_range' hi, Nat.one_mul, h.content (q.lpos + i) (by omega)]
      rfl
    · rw [List.getElem?_eq_none (by rw [h.length]; omega),
        List.getElem?_eq_none (by rw [List.length_range']; omega)]
      rfl
  rw [h.popped, ← hdrop, List.take_append_drop]

end

section Visits

variable {ι : Type}

/-- Note that a vertex is visited. -/
def visit (v : ℕ) : Prog (List ℕ) ι Unit := modify fun seen => seen ++ [v]

/-- The sequential loop visits the entries in their order. -/
theorem sequentialForEach_visits (env : ι → Prog (List ℕ) ι Unit) (q : LocalQueue) :
    Total env (fun _ seen => seen = q.rest) (q.sequentialForEach visit) [] := by
  suffices hloop :
    ∀ n start seen, Total env (fun _ seen' => seen' = seen ++ (List.range' start n).map q.localQueue)
      (seqFor start (start + n) fun i => visit (q.localQueue i)) seen by
    rcases Nat.le_total q.lpos q.rpos with hle | hle
    · have h := hloop (q.rpos - q.lpos) q.lpos []
      rwa [Nat.add_sub_cancel' hle] at h
    · rw [sequentialForEach, seqFor, if_neg (not_lt.mpr hle)]
      exact Total.ret (by rw [rest, Nat.sub_eq_zero_of_le hle]; rfl)
  intro n
  induction n with
  | zero =>
    intro start seen
    rw [seqFor, if_neg (Nat.not_lt.mpr (Nat.add_zero start).le)]
    exact Total.ret (List.append_nil seen).symm
  | succ n ih =>
    intro start seen
    rw [seqFor, if_pos (by omega)]
    refine Total.modify ?_
    have h := ih (start + 1) (seen ++ [q.localQueue start])
    rw [show start + 1 + n = start + (n + 1) by omega] at h
    refine h.mono fun _ seen' hseen => ?_
    rw [hseen, List.range'_succ, List.map_cons, List.append_assoc, List.singleton_append]

/-- The parallel loop visits every entry once. -/
theorem forEach_visits (env : ι → Prog (List ℕ) ι Unit) (q : LocalQueue) :
    Total env (fun _ seen => seen.Perm q.rest) (q.forEach visit) [] := by
  let P : Protocol (List ℕ) (Multiset ℕ) :=
    ⟨fun seen owed => (seen : Multiset ℕ) + owed = (q.rest : Multiset ℕ), fun _ _ => True, fun _ => trivial,
      fun _ _ => trivial⟩
  have hvisit (i : ℕ) (seen : List ℕ) :
      Ensures P env (fun _ _ c => True ∧ c = 0) (visit (q.localQueue i)) seen {q.localQueue i} := by
    refine Ensures.atom fun seen' o _ hinv => ⟨0, trivial, ?_,
      Ensures.ret fun s' o' _ hinv' => ⟨0, hinv', trivial, rfl⟩⟩
    change ((seen' ++ [q.localQueue i] : List ℕ) : Multiset ℕ) + (0 + o) = q.rest
    rw [zero_add, ← Multiset.coe_add, Multiset.coe_singleton, add_assoc]
    exact hinv
  have hsum : ∑ i ∈ Finset.Ico q.lpos q.rpos, ({q.localQueue i} : Multiset ℕ) = (q.rest : Multiset ℕ) := by
    change (Multiset.map ((fun v => ({v} : Multiset ℕ)) ∘ q.localQueue)
      (List.range' q.lpos (q.rpos - q.lpos))).sum = _
    rw [← Multiset.map_map (fun v => ({v} : Multiset ℕ)) q.localQueue, Multiset.sum_map_singleton,
      Multiset.map_coe]
    rfl
  have h : Ensures P env (fun _ _ c => (∀ i, q.lpos ≤ i → i < q.rpos → True) ∧ c = 0) (q.forEach visit)
    [] q.rest := by
    rw [← hsum]
    exact Ensures.parallelFor (fun i => ({q.localQueue i} : Multiset ℕ)) (fun _ _ _ _ _ _ => trivial)
      fun i _ _ => hvisit i []
  refine (h.total (Multiset.zero_add _)).mono ?_
  rintro _ seen ⟨_, _, hinv, _, rfl⟩
  exact Multiset.coe_eq_coe.mp ((add_zero _).symm.trans hinv)

end Visits

/-- The entries that are looked up are in the queue. -/
theorem lookups_hold {q : LocalQueue} {withTargets : Bool} {i : ℕ} (h : i ∈ q.lookups withTargets) :
    q.Holds i := by
  rw [lookups, List.mem_append] at h
  rcases h with h | h
  · split at h
    · next hlt =>
      rw [List.mem_singleton.mp h]
      exact ⟨Nat.le_add_right _ _, hlt.2⟩
    · exact absurd h List.not_mem_nil
  · split at h
    · next hlt =>
      rw [List.mem_singleton.mp h]
      exact ⟨Nat.le_add_right _ _, hlt⟩
    · exact absurd h List.not_mem_nil

/-- A queue with more room than its first vertex has slots gives that vertex out. From then on
every push finds a free position, the vertices come out in the order in which they were queued,
look-ups stay among the queued positions, and what has not come out is visited exactly once. -/
theorem session_safe {ι : Type} (env : ι → Prog (List ℕ) ι Unit) (G : CSR) (capacity v : ℕ) (hv : v < 2 ^ 32)
    (hfits : G.degree v < capacity) :
    (∃ q, (LocalQueue.create capacity v).popTop G = some (v, q)) ∧
    ∀ q popped queued allowed, Session G capacity v q popped queued allowed →
      (0 < allowed → q.rpos < capacity) ∧ q.lpos ≤ q.rpos ∧ q.rpos ≤ capacity ∧ popped = queued.take q.lpos ∧
      (∀ s q', q.popTop G = some (s, q') → q.Holds q.lpos ∧ queued[q.lpos]? = some s ∧
        ∀ withTargets, ∀ i ∈ q'.lookups withTargets, q'.Holds i) ∧
      ∃ rest, queued = popped ++ rest ∧ Total env (fun _ seen => seen.Perm rest) (q.forEach visit) [] ∧
        Total env (fun _ seen => seen = rest) (q.sequentialForEach visit) [] := by
  refine ⟨?_, fun q popped queued allowed run => ?_⟩
  · obtain ⟨q, hpop, _⟩ := popTop_create hv hfits
    exact ⟨q, hpop⟩
  · have hinv := run.inv hv (Nat.zero_lt_of_lt hfits)
    have hbudget := hinv.budget
    refine ⟨fun hallowed => by omega, hinv.order, by omega, hinv.popped, fun s q' hpop => ?_, q.rest, hinv.split,
      forEach_visits env q, sequentialForEach_visits env q⟩
    obtain ⟨hne, rfl, _⟩ := popTop_eq_some hpop
    have hlt : q.lpos < q.rpos := lt_of_le_of_ne hinv.order hne
    exact ⟨⟨le_rfl, hlt⟩, hinv.content _ hlt, fun withTargets i => lookups_hold⟩

/-- After the first vertex of the graph with one edge one push is allowed, and it finds position 1. -/
theorem session_safe_oneEdge :
    ∃ q, (LocalQueue.create 2 0).popTop CSR.oneEdge = some (0, q) ∧ q.rpos < 2 := by
  obtain ⟨⟨q, hpop⟩, hsession⟩ := session_safe (fun e : Empty => e.elim) CSR.oneEdge 2 0 (by decide) (by decide)
  exact ⟨q, hpop, (hsession q _ _ _ (Session.create.pop hpop)).1 (by decide)⟩

end LocalQueue

end ToggleTree
