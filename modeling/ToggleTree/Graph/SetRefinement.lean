import ToggleTree.ForkJoin.Orders
import ToggleTree.Graph.VertexSet
import ToggleTree.IndexSet.Operated
import ToggleTree.IndexSet.Refinement

/-!
# The layered words implement sets of vertices

The graph algorithms take an index set for a finite set that an insertion or a removal changes in one
step and that a traversal reads in one step. This module compares that view with the layered words. Run
alone, every operation returns what the operation on the finite set returns. Insertions and removals
that run together change the bottom layer as if each of them were one step: the first step of a call is
the one that counts, and its other steps leave the bottom layer alone. A traversal calls its function in
an order in which the traversal of the finite set can call it.
-/

namespace ToggleTree

open ForkJoin ForkJoin.Prog IndexSet

namespace VertexSet

section Alone

variable {U α β : Type} {n : ℕ}

/-- From words that represent a set every run of `p` returns, and `q` on that set can return the same
value, leave the same other data and leave the set that the words then represent. -/
def Implements (n : ℕ) (p : Prog (IndexSet × U) Empty α) (q : Prog (Finset ℕ × U) Empty α) : Prop :=
  ∀ s S u, Represents n s S → Total Empty.elim
    (fun v st => ∃ S', Steps Empty.elim q (S, u) (ret v) (S', st.2) ∧ Represents n st.1 S') p (s, u)

/-- One atomic step is a run. -/
theorem steps_act {σ : Type} {env : Empty → Prog σ Empty Unit} (f : σ → α × σ) (s : σ) :
    Steps env (act f) s (ret (f s).1) (f s).2 := Steps.head ⟨rfl, rfl⟩ (Steps.refl _ _)

/-- Returning a value. -/
theorem implements_ret (v : α) : Implements (U := U) n (ret v) (ret v) := by
  intro s S u h
  exact Total.ret ⟨S, Steps.refl _ _, h⟩

/-- A step on the other data. -/
theorem implements_other (f : U → α × U) :
    Implements n (act fun st => ((f st.2).1, (st.1, (f st.2).2)))
      (act fun st => ((f st.2).1, (st.1, (f st.2).2))) := by
  intro s S u h
  exact Total.atom (Total.ret ⟨S, steps_act _ _, h⟩)

/-- Sequential composition. -/
theorem Implements.bind {p : Prog (IndexSet × U) Empty α} {q : Prog (Finset ℕ × U) Empty α}
    {f : α → Prog (IndexSet × U) Empty β} {g : α → Prog (Finset ℕ × U) Empty β} (hp : Implements n p q)
    (hf : ∀ v, Implements n (f v) (g v)) : Implements n (p >>= f) (q >>= g) := by
  intro s S u h
  apply (hp s S u h).bind
  intro v st hst
  obtain ⟨S', hsteps, hrep⟩ := hst
  apply (hf v st.1 S' st.2 hrep).mono
  intro w st' hst'
  obtain ⟨S'', hsteps', hrep'⟩ := hst'
  exact ⟨S'', (hsteps.bind_left g).trans hsteps', hrep'⟩

/-- A sequential loop. -/
theorem Implements.seqFor {f : ℕ → Prog (IndexSet × U) Empty Unit} {g : ℕ → Prog (Finset ℕ × U) Empty Unit}
    {start stop : ℕ} (hf : ∀ i, start ≤ i → i < stop → Implements n (f i) (g i)) :
    Implements n (Prog.seqFor start stop f) (Prog.seqFor start stop g) := by
  induction hk : stop - start generalizing start with
  | zero =>
    unfold Prog.seqFor
    rw [if_neg (by omega), if_neg (by omega)]
    exact implements_ret ()
  | succ k ih =>
    unfold Prog.seqFor
    rw [if_pos (by omega), if_pos (by omega)]
    apply (hf start le_rfl (by omega)).bind
    intro _
    exact ih (fun i hi => hf i (by omega)) (by omega)

/-- `insert` -/
theorem implements_insert {i : ℕ} (hi : i < n) :
    Implements (U := U) n (IndexSet.insert Loc.fst i) (VertexSet.insert Loc.fst i) := by
  intro s S u h
  apply (insert_total (s := (s, u)) Loc.fst_lawful hi h).mono
  intro b st hst
  obtain ⟨rfl, t, rfl, ht⟩ := hst
  exact ⟨Insert.insert i S, steps_act _ _, ht⟩

/-- `remove` -/
theorem implements_remove (i : ℕ) :
    Implements (U := U) n (IndexSet.remove Loc.fst i) (VertexSet.remove Loc.fst i) := by
  intro s S u h
  apply (remove_total (s := (s, u)) Loc.fst_lawful h).mono
  intro b st hst
  obtain ⟨rfl, t, rfl, ht⟩ := hst
  exact ⟨S.erase i, steps_act _ _, ht⟩

/-- An operation that reads the words and returns what a function of the set returns. -/
theorem implements_read {p : Prog (IndexSet × U) Empty α} {f : Finset ℕ → α}
    (hp : ∀ s S u, Represents n s S → Total Empty.elim (fun v st => st = (s, u) ∧ v = f S) p (s, u)) :
    Implements n p (read fun st => f st.1) := by
  intro s S u h
  apply (hp s S u h).mono
  intro v st hst
  obtain ⟨rfl, rfl⟩ := hst
  exact ⟨S, steps_act _ _, h⟩

/-- `contains` -/
theorem implements_contains (i : ℕ) :
    Implements (U := U) n (IndexSet.contains Loc.fst i) (VertexSet.contains Loc.fst i) :=
  implements_read (f := fun S => decide (i ∈ S)) fun s _ u h => contains_total (s := (s, u)) h i

/-- `empty` -/
theorem implements_empty : Implements (U := U) n (IndexSet.empty Loc.fst) (VertexSet.empty Loc.fst) :=
  implements_read (f := fun S => decide (S = ∅)) fun s _ u h => empty_total (s := (s, u)) h

/-- `num_elements` -/
theorem implements_numElements :
    Implements (U := U) n (IndexSet.numElements Loc.fst) (VertexSet.numElements Loc.fst) :=
  implements_read (f := Finset.card) fun s _ u h => numElements_total (s := (s, u)) h

/-- The calls of a reduction that return at once. -/
theorem steps_reduceEach [Monoid β] (f : ℕ → β) (vs : List ℕ) (st : Finset ℕ × U) :
    Steps Empty.elim (reduceEach (· * ·) 1 (fun i => ret (f i)) vs) st (ret (vs.map f).prod) st := by
  induction vs with
  | nil => exact Steps.refl _ _
  | cons v vs ih =>
    rw [List.map_cons, List.prod_cons]
    exact ih.fork_right.trans (Steps.head (Or.inr (Or.inr ⟨_, _, rfl, rfl, rfl, rfl⟩)) (Steps.refl _ _))

/-- `reduce` with the values of a monoid. -/
theorem implements_reduce [Monoid β] (f : ℕ → β) :
    Implements (U := U) n (IndexSet.reduce Loc.fst (· * ·) 1 fun i => ret (f i))
      (VertexSet.reduce Loc.fst (· * ·) 1 fun i => ret (f i)) := by
  intro s S u h
  have hfst : Represents n (Loc.fst.get (s, u)) S := h
  apply (reduce_total (g := f) hfst fun _ _ => still_ret rfl).mono
  intro v st hst
  obtain ⟨rfl, rfl⟩ := hst
  have hsteps := steps_reduceEach f (S.sort (· ≤ ·)) (S, u)
  rw [List.prod_eq_foldl] at hsteps
  exact ⟨S, Steps.head ⟨rfl, rfl⟩ hsteps, h⟩

end Alone

section Together

variable {C : Type} {n : ℕ}

/-- A call of `insert` or `remove` on the set of vertices. -/
def update (up : Bool) (i : ℕ) : Prog (Finset ℕ) Empty Bool := if up then insert Loc.self i else remove Loc.self i

/-- The set after the step of such a call. -/
def updated (up : Bool) (i : ℕ) (S : Finset ℕ) : Finset ℕ := if up then Insert.insert i S else S.erase i

/-- What is left of a call on the set of vertices while a call on the words stands at a state: once
the first step of the one is taken, the other has returned. -/
def left (up : Bool) (i : ℕ) : CallState → Prog (Finset ℕ) Empty Bool
  | .entered => update up i
  | .sizing => ret true
  | .climbing _ => ret true
  | .returned result => ret result

/-- A call that climbs has returned as far as the bottom layer is concerned. -/
theorem left_climb (up : Bool) (i L : ℕ) : left up i (CallState.climb n L) = ret true := by
  unfold CallState.climb
  split <;> rfl

/-- A call on the set of vertices is one step. -/
theorem step_update {env : Empty → Prog (Finset ℕ) Empty Unit} (up : Bool) (i : ℕ) (S : Finset ℕ) :
    Step env (update up i) S (ret (decide (decide (i ∈ S) = !up))) (updated up i S) := by
  cases up with
  | true => exact ⟨congrArg ret (decide_eq_decide.mpr decide_eq_false_iff_not), rfl⟩
  | false => exact ⟨congrArg ret (decide_eq_decide.mpr decide_eq_true_iff), rfl⟩

/-- The bottom layer holds the set `T` while the call `c` stands at `state c`. -/
structure Bottom (n : ℕ) (state : C → CallState) (s : IndexSet) (T : Finset ℕ) : Prop where
  size : s.toggle.size = numLayers n
  width : s.width 0 = layerLength n 1
  leaf : ∀ i, s.bit 0 i = decide (i ∈ T)
  above : ∀ c L, state c = .climbing L → 0 < L ∧ L < numLayers n

namespace Bottom

variable {state : C → CallState} {s : IndexSet} {T : Finset ℕ}

/-- No call has started. -/
theorem start (h : Represents n s T) : Bottom n (fun _ : C => CallState.entered) s T where
  size := h.size
  width := h.width 0 (numLayers_pos n)
  leaf i := by rw [Bool.eq_iff_iff, decide_eq_true_eq, h.leaf]
  above c L hc := by cases hc

variable [DecidableEq C]

/-- A call that moves on, with what it does to the words. -/
theorem move (h : Bottom n state s T) {c : C} {x : CallState} {s' : IndexSet} {T' : Finset ℕ}
    (hsize : s'.toggle.size = s.toggle.size) (hwidth : s'.width 0 = s.width 0)
    (hleaf : ∀ i, s'.bit 0 i = decide (i ∈ T')) (habove : ∀ L, x = .climbing L → 0 < L ∧ L < numLayers n) :
    Bottom n (Function.update state c x) s' T' where
  size := hsize.trans h.size
  width := hwidth.trans h.width
  leaf := hleaf
  above d L hd := by
    by_cases hdc : d = c
    · subst hdc
      rw [Function.update_self] at hd
      exact habove L hd
    · rw [Function.update_of_ne hdc] at hd
      exact h.above d L hd

/-- Climbing stays between the bottom layer and the root. -/
theorem climb_above {L K : ℕ} (hL : 0 < L) (h : CallState.climb n L = .climbing K) : 0 < K ∧ K < numLayers n := by
  unfold CallState.climb at h
  split at h
  · obtain rfl := CallState.climbing.inj h
    exact ⟨hL, ‹_›⟩
  · cases h

/-- A step of a call on the words is a step of the call on the set of vertices, or leaves the set and that
call as they are. -/
theorem step (h : Bottom n state s T) {env : Empty → Prog IndexSet Empty Unit} {up : Bool} {i : ℕ}
    (hi : i < n) {c : C}
    {p : Prog IndexSet Empty Bool} {s' : IndexSet} (hstep : Step env ((state c).rest up n i) s p s') :
    ∃ x T', p = x.rest up n i ∧ Bottom n (Function.update state c x) s' T' ∧
      (Step Empty.elim (left up i (state c)) T (left up i x) T' ∨
        left up i (state c) = left up i x ∧ T' = T) := by
  cases hc : state c with
  | entered =>
    rw [hc] at hstep
    obtain ⟨rfl, rfl⟩ := step_entered (n := n) hstep
    have hin : i / 64 < s.width 0 := by
      rw [h.width]
      exact div_lt_wordCount hi
    have hleft : left up i (if s.load 0 (i / 64) = turning up i then CallState.sizing
        else CallState.returned (decide (s.bit 0 i = !up))) = ret (decide (decide (i ∈ T) = !up)) := by
      rw [← h.leaf]
      split
      · next hturn => rw [left, bit_of_turning hturn, decide_eq_true rfl]
      · rfl
    refine ⟨_, updated up i T, rfl, h.move ?_ ?_ ?_ ?_, Or.inl (hleft ▸ step_update up i T)⟩
    · cases up <;> exact size_store ..
    · cases up <;> exact width_store ..
    · intro k
      rw [bit_flip hin, h.leaf]
      cases up <;> by_cases hk : k = i <;> simp [updated, hk]
    · intro L hL
      split at hL <;> cases hL
  | sizing =>
    rw [hc] at hstep
    obtain ⟨rfl, rfl⟩ := step_sizing h.size hstep
    exact ⟨_, T, rfl, h.move rfl rfl h.leaf fun L hL => climb_above one_pos hL,
      Or.inr ⟨(left_climb up i 1).symm, rfl⟩⟩
  | climbing L =>
    rw [hc] at hstep
    obtain ⟨hpos, hL⟩ := h.above c L hc
    obtain ⟨rfl, rfl⟩ := step_climbing hL hstep
    refine ⟨_, T, rfl, h.move (size_store ..) (width_store ..) ?_ ?_, Or.inr ⟨?_, rfl⟩⟩
    · intro k
      rw [← h.leaf, bit, load_store_of_ne _ fun hK => hpos.ne hK.1, ← bit]
    · intro K hK
      split at hK
      · exact climb_above (Nat.succ_pos L) hK
      · cases hK
    · split
      · exact (left_climb up i (L + 1)).symm
      · rfl
  | returned r =>
    rw [hc] at hstep
    exact hstep.elim

/-- A run of calls on the words, and the run of the same calls on the set of vertices. -/
theorem of_run {up : C → Bool} {index : C → ℕ} {S : Finset ℕ} {s₀ s' : IndexSet}
    {threads : C → Prog IndexSet Empty Bool} (h : Represents n s₀ S) (hindex : ∀ c, index c < n)
    (run : PoolSteps Empty.elim (fun c => IndexSet.update (up c) (index c)) s₀ threads s') :
    ∃ state T, (threads = fun c => (state c).rest (up c) n (index c)) ∧ Bottom n state s' T ∧
      PoolSteps Empty.elim (fun c => update (up c) (index c)) S (fun c => left (up c) (index c) (state c)) T := by
  apply run.invariant (I := fun threads s => ∃ state T, (threads = fun c => (state c).rest (up c) n (index c)) ∧
    Bottom n state s T ∧ PoolSteps Empty.elim (fun c => update (up c) (index c)) S
      (fun c => left (up c) (index c) (state c)) T)
  · intro threads s c p s' hI hstep
    obtain ⟨state, T, rfl, hbottom, hrun⟩ := hI
    obtain ⟨x, T', rfl, hbottom', heffect⟩ := hbottom.step (hindex c) hstep
    have hmoved {β : Type 1} (F : C → CallState → β) :
        Function.update (fun d => F d (state d)) c (F c x) = fun d => F d (Function.update state c x d) := by
      funext d
      exact (Function.apply_update F state c x d).symm
    refine ⟨Function.update state c x, T', hmoved fun d => (·.rest (up d) n (index d)), hbottom', ?_⟩
    rw [← hmoved fun d => left (up d) (index d)]
    cases heffect with
    | inl htaken => exact hrun.tail htaken
    | inr hsame =>
      obtain ⟨heq, rfl⟩ := hsame
      rwa [← heq, Function.update_eq_self c fun d => left (up d) (index d) (state d)]
  · exact ⟨fun _ => .entered, S, rfl, start h, PoolSteps.refl _ _⟩

end Bottom

variable [DecidableEq C] {up : C → Bool} {index : C → ℕ} {S : Finset ℕ} {s s' : IndexSet}
  {threads : C → Prog IndexSet Empty Bool}

/-- Insertions and removals that run together, in any mixture, are linearizable on the bottom layer: at
every moment it holds the set that the same calls have made, one step each, and a call that has
returned has returned the same there. -/
theorem updates_linearize (h : Represents n s S) (hindex : ∀ c, index c < n)
    (run : PoolSteps Empty.elim (fun c => IndexSet.update (up c) (index c)) s threads s') :
    ∃ calls T, PoolSteps Empty.elim (fun c => update (up c) (index c)) S calls T ∧
      (∀ i, s'.bit 0 i = decide (i ∈ T)) ∧ ∀ c r, threads c = ret r → calls c = ret r := by
  obtain ⟨state, T, rfl, hbottom, hrun⟩ := Bottom.of_run h hindex run
  refine ⟨_, T, hrun, hbottom.leaf, ?_⟩
  intro c r hc
  rw [CallState.eq_returned (fun L hL => (hbottom.above c L hL).2) hc]
  rfl

/-- Where the calls are all of one kind, or the set has at most two layers, or no update overtakes
another above the bottom layer, the words represent at the end what the same calls leave of the set. -/
theorem updates_refine [Fintype C] (h : Represents n s S) (hindex : ∀ c, index c < n)
    (run : PoolSteps Empty.elim (fun c => IndexSet.update (up c) (index c)) s threads s')
    (order : (∀ c d, up c = up d) ∨ n ≤ 4096 ∨ OrderlyRun Empty.elim up n index s threads s')
    {r : C → Bool} (hdone : ∀ c, threads c = ret (r c)) :
    ∃ T, PoolSteps Empty.elim (fun c => update (up c) (index c)) S (fun c => ret (r c)) T ∧
      Represents n s' T := by
  obtain ⟨calls, T, hrun, hleaf, hcalls⟩ := updates_linearize h hindex run
  obtain rfl : calls = fun c => ret (r c) := funext fun c => hcalls c _ (hdone c)
  have hreturned : ∀ c, ∃ b, threads c = ret b := fun c => ⟨r c, hdone c⟩
  have hset : ∃ S', Represents n s' S' := by
    rcases order with same | hn | orderly
    · exact represents_of_same h hindex run same hreturned
    · exact represents_of_orderlyRun h hindex (orderlyRun_of_le hn run) hreturned
    · exact represents_of_orderlyRun h hindex orderly hreturned
  obtain ⟨S', hS'⟩ := hset
  have heq : S' = T := by
    ext i
    rw [← hS'.leaf, hleaf, decide_eq_true_eq]
  exact ⟨T, hrun, heq ▸ hS'⟩

end Together

section Traversals

variable {U ι α : Type} {n : ℕ}

/-- Note down the vertex of a call. -/
def note (v : ℕ) : Prog (Finset ℕ × List ℕ) Empty Unit := modify fun st => (st.1, st.2 ++ [v])

/-- The traversal of a set can call its function in any order. -/
theorem steps_parallelEach_note {S T : Finset ℕ} {l : List ℕ} (h : l.Perm (S.sort (· ≤ ·))) :
    Steps Empty.elim (parallelEach (S.sort (· ≤ ·)) note) (T, []) (ret ()) (T, l) := by
  have hnotes (vs ws : List ℕ) : vs.foldl (fun (st : Finset ℕ × List ℕ) v => (st.1, st.2 ++ [v])) (T, ws) =
    (T, ws ++ vs) := by
    induction vs generalizing ws with
    | nil => rw [List.append_nil]; rfl
    | cons v vs ih => rw [List.foldl_cons, ih, List.append_assoc]; rfl
  have hchain := chain_foldl (fun v (st : Finset ℕ × List ℕ) => (st.1, st.2 ++ [v])) l (T, [])
  rw [hnotes, List.nil_append] at hchain
  apply steps_parallelEach (S.sort_nodup (· ≤ ·)) _ h hchain
  intro v _ st st' hst
  exact hst ▸ steps_act _ _

variable {env : ι → Prog (IndexSet.Traversal U) ι Unit} {s : IndexSet} {S : Finset ℕ}

open Traversal

/-- `for_each` with a function that removes at most its own vertex makes the calls of the traversal of the
finite set, in an order that this traversal has, too. -/
theorem forEach_refines (h : Represents n s S) {f : ℕ → Prog (Traversal U) ι Unit}
    (hf : ∀ i ∈ S, SelfRemoving i (f i)) (u : U) :
    Total env (fun _ st => Steps Empty.elim (forEach Loc.fst note) (S, []) (ret ()) (S, st.calls) ∧
        Represents n st.set (S \ st.removed.toFinset))
      (IndexSet.forEach words (visitor f)) ⟨s, [], [], u⟩ := by
  apply (total_removing (logs U false) h (fun _ => id) (forEach_keeps h hf _) rfl rfl rfl).mono
  intro _ st hst
  exact ⟨Steps.head ⟨rfl, rfl⟩ (steps_parallelEach_note hst.2), hst.1⟩

/-- `consume_each` makes the calls of its counterpart and leaves no vertex. -/
theorem consumeEach_refines (h : Represents n s S) :
    Total Empty.elim (fun _ st => Steps Empty.elim (consumeEach Loc.fst note) (S, []) (ret ()) (∅, st.2) ∧
        Represents n st.1 ∅)
      (IndexSet.consumeEach Loc.fst record) (s, []) := by
  apply (consumeEach_total h).mono
  intro _ st hst
  exact ⟨Steps.head ⟨rfl, rfl⟩ (steps_parallelEach_note hst.2), hst.1⟩

end Traversals

end VertexSet

end ToggleTree
