import ToggleTree.ForkJoin.Reduce
import ToggleTree.IndexSet.ConsumeRange

/-!
# Functions that remove the index they are called on

The function passed to a traversal may remove the index it is called on, any number of times, from
concurrent branches of its own, and depending on anything it can read. Every traversal still calls
it once for each element, and what is left is the set without the indices it removed.
-/

namespace ToggleTree

open ForkJoin ForkJoin.Prog

namespace IndexSet

variable {υ ι : Type} {n l r : ℕ} {S T : Finset ℕ} {s : IndexSet}

/-- The words, the calls of the function, the indices it removes, and what else it works on. -/
structure Traversal (υ : Type) where
  set : IndexSet
  calls : List ℕ
  removed : List ℕ
  user : υ

section Whole

variable {σ ι : Type} {env : ι → Prog σ ι Unit} (V : Logs σ) {α : Type}

/-- A traversal of the whole set that starts by asking whether it is empty. -/
theorem nonempty_removing (h : Represents n s S) {v : α} {p : ℕ → Prog σ ι α}
    (hp : S.Nonempty → ∀ st, Ensures (removing V n s S S) env (fun _ _ a => a = 0) (p (numLayers n)) st
      ({(numLayers n, 0)}, 0, 0))
    (st : σ) :
    Ensures (removing V n s S S) env (fun _ _ a => a = 0)
      (do
        if ← empty V.set then return v
        else do
          let size ← layers V.set
          p size) st ({(numLayers n, 0)}, 0, 0) := by
  refine (empty_removing V h st).bind ?_
  rintro _ st' _ ⟨rfl, rfl⟩
  by_cases hempty : S = ∅
  · rw [decide_eq_true hempty, if_pos rfl]
    exact skip_removing V hempty
  · rw [decide_eq_false hempty, if_neg Bool.false_ne_true]
    refine Ensures.read fun st'' o _ hinv => ?_
    rw [hinv.settling.size]
    exact hp (Finset.nonempty_iff_ne_empty.mpr hempty) st''

/-- Reading a word of the front of a traversal of the whole set. -/
theorem visit_removing (h : Represents n s S) {L w : ℕ} (hgood : Alive n S (L + 1) w) (st : σ) :
    Ensures (removing V n s S S) env
      (fun x _ a => (∀ o ∈ bits x, Alive n S L (64 * w + o)) ∧
        a = ((bits x).map fun o => (({(L, 64 * w + o)}, 0, 0) : RangeTokens)).sum)
      (atomicRead (word V.set L w)) st ({(L + 1, w)}, 0, 0) := by
  refine (read_removing V h hgood.1 (fun i hi hiw => mem_bits_of_below h hgood.1 hi hiw) st).mono ?_
  rintro _ _ _ ⟨rfl, rfl⟩
  exact ⟨fun o ho => alive_child h hgood.1 ho, children_tokens _ _ _⟩

/-- A traversal that does not consume only reads. -/
theorem visitWord_false {ℓ : Loc σ IndexSet} (L index : ℕ) :
    (visitWord ℓ false L index : Prog σ ι Word) = atomicRead (word ℓ L (wordId L index)) := bind_ret _

/-- A leaf that the traversal has to reach is an element. -/
theorem alive_leaf {i : ℕ} (hgood : Alive n S 0 i) : i ∈ S := by simpa [Alive] using hgood.2

/-- `for_each` with calls that keep the protocol. -/
theorem forEach_removing (h : Represents n s S) {f : ℕ → Prog σ ι Unit}
    (hcall : ∀ i ∈ S, ∀ st, Ensures (removing V n s S S) env (fun _ _ a => a = 0) (f i) st ({(0, i)}, 0, 0))
    (st : σ) :
    Ensures (removing V n s S S) env (fun _ _ a => a = 0) (forEach V.set f) st ({(numLayers n, 0)}, 0, 0) := by
  have hpos := numLayers_pos n
  refine nonempty_removing V h (fun hne st' => ?_) st
  have htraverse : Ensures (removing V n s S S) env (fun _ _ a => a = 0)
      (forEachAt V.set false f (numLayers n - 1) (0 * 64 ^ (numLayers n - 1 + 1))) st'
      ({(numLayers n - 1 + 1, 0)}, 0, 0) := by
    refine forEachAt_ensures (fun K v => ({(K, v)}, 0, 0)) (Alive n S) (fun L w st hgood => ?_)
      (fun i st hgood => hcall i (alive_leaf hgood) st) _ _ _ ?_
    · rw [visitWord_false, wordId_node]
      exact visit_removing V h hgood st
    · rw [Nat.sub_add_cancel hpos]
      exact alive_root h hne
  rwa [zero_mul, Nat.sub_add_cancel hpos] at htraverse

/-- `reduce` with calls that keep the protocol. -/
theorem reduce_removing (h : Represents n s S) {combine : α → α → α} {identity : α}
    {f : ℕ → Prog σ ι α}
    (hcall : ∀ i ∈ S, ∀ st, Ensures (removing V n s S S) env (fun _ _ a => a = 0) (f i) st ({(0, i)}, 0, 0))
    (st : σ) :
    Ensures (removing V n s S S) env (fun _ _ a => a = 0) (reduce V.set combine identity f) st
      ({(numLayers n, 0)}, 0, 0) := by
  have hpos := numLayers_pos n
  refine nonempty_removing V h (fun hne st' => ?_) st
  have htraverse : Ensures (removing V n s S S) env (fun _ _ a => a = 0)
      (reduceAt V.set combine identity f (numLayers n - 1) (0 * 64 ^ (numLayers n - 1 + 1))) st'
      ({(numLayers n - 1 + 1, 0)}, 0, 0) := by
    refine reduceAt_visits (fun K v => ({(K, v)}, 0, 0)) (Alive n S)
      (fun L w st hgood => visit_removing V h hgood st)
      (fun i st hgood => hcall i (alive_leaf hgood) st) _ _ _ ?_
    rw [Nat.sub_add_cancel hpos]
    exact alive_root h hne
  rwa [zero_mul, Nat.sub_add_cancel hpos] at htraverse

end Whole

namespace Traversal

/-- The words of a traversal as a location. -/
def words : Loc (Traversal υ) IndexSet := ⟨set, fun x st => { st with set := x }⟩

/-- What is to go: everything called if the traversal consumes, otherwise what is removed. -/
def logs (υ : Type) (consume : Bool) : Logs (Traversal υ) where
  set := words
  calls := calls
  gone st := if consume then st.calls else st.removed
  get_put _ _ := rfl
  calls_put _ _ := rfl
  gone_put _ _ := rfl

variable {env : ι → Prog (Traversal υ) ι Unit} {α β γ : Type}

/-- Remove an index and note that it was removed. -/
def removeSelf (i : ℕ) : Prog (Traversal υ) ι Bool := do
  modify fun st => { st with removed := st.removed ++ [i] }
  remove words i

/-- The steps of a program called on `i` leave the index set alone except for removals of `i`. -/
inductive SelfRemoving (i : ℕ) : {α : Type} → Prog (Traversal υ) ι α → Prop
  | ret {α : Type} (a : α) : SelfRemoving i (ret a)
  | atom {α β : Type} (act : Traversal υ → β × Traversal υ) (next : β → Prog (Traversal υ) ι α)
      (alone : ∀ st, ∃ u, (act st).2 = { st with user := u }) (rest : ∀ b, SelfRemoving i (next b)) :
      SelfRemoving i (atom act next)
  | pick {α β : Type} (dflt : β) (next : β → Prog (Traversal υ) ι α)
      (rest : ∀ b, SelfRemoving i (next b)) : SelfRemoving i (pick dflt next)
  | remove {α : Type} (next : Bool → Prog (Traversal υ) ι α) (rest : ∀ b, SelfRemoving i (next b)) :
      SelfRemoving i (removeSelf i >>= next)
  | fork {α β γ : Type} (left : Prog (Traversal υ) ι β) (right : Prog (Traversal υ) ι γ)
      (next : β → γ → Prog (Traversal υ) ι α) (hleft : SelfRemoving i left)
      (hright : SelfRemoving i right) (rest : ∀ b c, SelfRemoving i (next b c)) :
      SelfRemoving i (fork left right next)

/-- Note a call of the function and make it. -/
def visitor (f : ℕ → Prog (Traversal υ) ι α) (i : ℕ) : Prog (Traversal υ) ι α := do
  modify fun st => { st with calls := st.calls ++ [i] }
  f i

section Calls

variable {consume : Bool}

/-- Removing the index of a call, whether or not it has been removed since. -/
theorem removeSelf_removing {i : ℕ} {st : Traversal υ} (hi : i ∈ st.calls) :
    Ensures (removing (logs υ consume) n s S T) env (fun _ _ a => a = 0) (removeSelf i) st 0 := by
  refine Ensures.modify fun st' o hrel hinv => ⟨(0, {i}, 0), ?_, ?_, ?_⟩
  · refine ⟨List.Subset.refl _, ?_⟩
    cases consume
    · exact List.subset_append_left _ _
    · exact List.Subset.refl _
  · have hcalled : i ∈ st'.calls := hrel.1 hi
    change RemovalInv n s S T st'.set st'.calls _ (0 + o.1, 0 + o.2.1, 0 + o.2.2) at hinv
    rw [zero_add o.2.1] at hinv
    cases consume
    · exact hinv.decide hcalled
    · exact hinv.pend
  · refine remove_removing (logs υ consume) ?_
    have hcalled : i ∈ st'.calls := hrel.1 hi
    cases consume
    · exact List.mem_append_right _ (List.mem_singleton.mpr rfl)
    · exact hcalled

/-- A program called on `i` keeps the protocol and hands nothing on. -/
theorem SelfRemoving.ensures {i : ℕ} {p : Prog (Traversal υ) ι α} (hp : SelfRemoving i p)
    {st : Traversal υ} (hi : i ∈ st.calls) :
    Ensures (removing (logs υ consume) n s S T) env (fun _ _ a => a = 0) p st 0 := by
  induction hp generalizing st with
  | ret a => exact Ensures.ret fun _ _ _ hinv => ⟨0, hinv, rfl⟩
  | atom act next alone _ ih =>
    refine Ensures.atom fun st' o hrel hinv => ?_
    obtain ⟨u, hu⟩ := alone st'
    rw [hu]
    refine ⟨0, (removing (logs υ consume) n s S T).refl st', hinv, ?_⟩
    exact ih _ (hrel.1 hi)
  | pick d next _ ih => exact Ensures.pick fun b => ih b hi
  | remove next _ ih =>
    have hboth : Ensures (removing (logs υ consume) n s S T) env (fun _ st' a => a = 0 ∧ i ∈ st'.calls)
        (removeSelf i) st 0 := (removeSelf_removing hi).withStable (fun _ _ hrel h => hrel.1 h) hi
    refine hboth.bind ?_
    rintro b st' _ ⟨rfl, hi'⟩
    exact ih b hi'
  | fork l r next _ _ _ ihl ihr ih =>
    have hkept : Ensures (removing (logs υ consume) n s S T) env (fun _ st' a => a = 0 ∧ i ∈ st'.calls)
        l st 0 := (ihl hi).withStable (fun _ _ hrel h => hrel.1 h) hi
    have hfork : Ensures (removing (logs υ consume) n s S T) env (fun _ _ a => a = 0)
        (Prog.fork l r next) st (0 + 0) := by
      refine Ensures.fork hkept (ihr hi) ?_
      rintro b c st' _ _ ⟨rfl, hi'⟩ rfl
      rw [add_zero]
      exact ih b c hi'
    rwa [add_zero] at hfork

/-- What a branch holds once the function has been called on `i`: a traversal that consumes is
still to remove the index. -/
def duty (consume : Bool) (i : ℕ) : RangeTokens := (0, if consume then {i} else 0, 0)

/-- One call of the function. -/
theorem visitor_removing {f : ℕ → Prog (Traversal υ) ι α} {i : ℕ} (hf : SelfRemoving i (f i))
    (hi : i ∈ T) (st : Traversal υ) :
    Ensures (removing (logs υ consume) n s S T) env
      (fun _ st' a => a = duty consume i ∧ i ∈ st'.calls) (visitor f i) st ({(0, i)}, 0, 0) := by
  refine Ensures.modify fun st' o _ hinv => ⟨duty consume i, ?_, ?_, ?_⟩
  · refine ⟨List.subset_append_left _ _, ?_⟩
    cases consume
    · exact List.Subset.refl _
    · exact List.subset_append_left _ _
  · have hcalled : RemovalInv n s S T st'.set (st'.calls ++ [i]) ((logs υ consume).gone st')
        (o.1, 0 + o.2.1, 0 + o.2.2) := RemovalInv.call hinv hi
    rw [zero_add o.2.1] at hcalled
    cases consume
    · change RemovalInv n s S T st'.set (st'.calls ++ [i]) st'.removed (0 + o.1, 0 + o.2.1, 0 + o.2.2)
      rwa [zero_add o.1, zero_add o.2.1]
    · change RemovalInv n s S T st'.set (st'.calls ++ [i]) (st'.calls ++ [i])
        (0 + o.1, {i} + o.2.1, 0 + o.2.2)
      rw [zero_add o.1]
      exact hcalled.decide (by simp)
  · have hlogged : i ∈ (st'.calls ++ [i]) := by simp
    have hcall : Ensures (removing (logs υ consume) n s S T) env (fun _ _ a => a = 0) (f i)
        { st' with calls := st'.calls ++ [i] } 0 := hf.ensures hlogged
    have hkept : Ensures (removing (logs υ consume) n s S T) env (fun _ st'' a => a = 0 ∧ i ∈ st''.calls)
        (f i) { st' with calls := st'.calls ++ [i] } 0 :=
      hcall.withStable (fun _ _ hrel h => hrel.1 h) hlogged
    have hframe := hkept.frame (duty consume i)
    rw [zero_add] at hframe
    refine hframe.mono ?_
    rintro _ st'' _ ⟨_, ⟨rfl, hi'⟩, rfl⟩
    exact ⟨zero_add _, hi'⟩

/-- One call of the function of a traversal that does not consume. -/
theorem visitor_kept {f : ℕ → Prog (Traversal υ) ι α} {i : ℕ} (hf : SelfRemoving i (f i)) (hi : i ∈ T)
    (st : Traversal υ) :
    Ensures (removing (logs υ false) n s S T) env (fun _ _ a => a = 0) (visitor f i) st ({(0, i)}, 0, 0) :=
  (visitor_removing hf hi st).mono fun _ _ _ h => h.1

end Calls

section Runs

variable (h : Represents n s S)
include h

/-- `for_each` keeps the protocol of the removals. -/
theorem forEach_keeps {f : ℕ → Prog (Traversal υ) ι Unit} (hf : ∀ i ∈ S, SelfRemoving i (f i))
    (st : Traversal υ) :
    Ensures (removing (logs υ false) n s S S) env (fun _ _ a => a = 0) (forEach words (visitor f)) st
      ({(numLayers n, 0)}, 0, 0) :=
  forEach_removing (logs υ false) h (fun i hi st => visitor_kept (hf i hi) hi st) st

/-- `reduce` keeps the protocol of the removals. -/
theorem reduce_keeps {g : ℕ → Prog (Traversal υ) ι α} (hg : ∀ i ∈ S, SelfRemoving i (g i)) (combine : α → α → α)
    (identity : α) (st : Traversal υ) :
    Ensures (removing (logs υ false) n s S S) env (fun _ _ a => a = 0)
      (reduce words combine identity (visitor g)) st ({(numLayers n, 0)}, 0, 0) :=
  reduce_removing (logs υ false) h (fun i hi st => visitor_kept (hg i hi) hi st) st

/-- `for_range` keeps the protocol of the removals. -/
theorem forRange_keeps {f : ℕ → Prog (Traversal υ) ι Unit} (hf : ∀ i ∈ S, SelfRemoving i (f i)) (hl : l < n)
    (st : Traversal υ) :
    Ensures (removing (logs υ false) n s S (inRange S l r)) env (fun _ _ a => a = 0)
      (forRange words l r (visitor f)) st ({(numLayers n, 0)}, 0, 0) := by
  refine forRangeAt_removing (logs υ false) h hl (fun i hi st => ?_) st
  exact (visitor_kept (hf i (mem_inRange.mp hi).1) hi st).bind fun _ _ _ ha =>
    Ensures.ret fun _ _ _ hinv => ⟨0, by rwa [ha] at hinv, rfl⟩

/-- `consume_range` keeps the protocol of the removals. -/
theorem consumeRange_keeps {f : ℕ → Prog (Traversal υ) ι Unit} (hf : ∀ i ∈ S, SelfRemoving i (f i)) (hl : l < n)
    (st : Traversal υ) :
    Ensures (removing (logs υ true) n s S (inRange S l r)) env (fun _ _ a => a = 0)
      (consumeRange words l r (visitor f)) st ({(numLayers n, 0)}, 0, 0) := by
  refine forRangeAt_removing (logs υ true) h hl (fun i hi st => ?_) st
  refine (visitor_removing (hf i (mem_inRange.mp hi).1) hi st).bind ?_
  rintro _ st' _ ⟨rfl, hi'⟩
  exact (remove_removing (logs υ true) hi').bind fun _ _ _ ha =>
    Ensures.ret fun _ _ _ hinv => ⟨0, by rwa [ha] at hinv, rfl⟩

end Runs

/-- Every traversal whose function removes nothing but the index it is called on calls it once for
each element it is to visit, in every schedule, and ends with a set in which exactly the removed
elements are missing; `consume_range` leaves the elements outside its range. -/
theorem traversals_tolerate_removal (h : Represents n s S) {f : ℕ → Prog (Traversal υ) ι Unit}
    (hf : ∀ i, SelfRemoving i (f i)) {g : ℕ → Prog (Traversal υ) ι α} (hg : ∀ i, SelfRemoving i (g i))
    (combine : α → α → α) (identity : α) (u : υ) :
    Total env (fun _ st => st.calls.Perm (S.sort (· ≤ ·)) ∧ Represents n st.set (S \ st.removed.toFinset))
      (forEach words (visitor f)) ⟨s, [], [], u⟩ ∧
    Total env (fun _ st => st.calls.Perm (S.sort (· ≤ ·)) ∧ Represents n st.set (S \ st.removed.toFinset))
      (reduce words combine identity (visitor g)) ⟨s, [], [], u⟩ ∧
    ∀ l r, l < n →
      Total env (fun _ st => st.calls.Perm ((inRange S l r).sort (· ≤ ·)) ∧
        Represents n st.set (S \ st.removed.toFinset)) (forRange words l r (visitor f)) ⟨s, [], [], u⟩ ∧
      Total env (fun _ st => st.calls.Perm ((inRange S l r).sort (· ≤ ·)) ∧
        Represents n st.set (S \ inRange S l r)) (consumeRange words l r (visitor f)) ⟨s, [], [], u⟩ := by
  have hrange {l r : ℕ} (i : ℕ) (hi : i ∈ inRange S l r) : i ∈ S := (mem_inRange.mp hi).1
  refine ⟨?_, ?_, fun l r hl => ⟨?_, ?_⟩⟩
  · refine (total_removing (logs υ false) h (fun _ => id)
      (forEach_keeps h (fun i _ => hf i) _) rfl rfl rfl).mono ?_
    exact fun _ st hst => hst.symm
  · refine (total_removing (logs υ false) h (fun _ => id)
      (reduce_keeps h (fun i _ => hg i) combine identity _) rfl rfl rfl).mono ?_
    exact fun _ st hst => hst.symm
  · refine (total_removing (logs υ false) h hrange (forRange_keeps h (fun i _ => hf i) hl _) rfl rfl rfl).mono ?_
    exact fun _ st hst => hst.symm
  · refine (total_removing (logs υ true) h hrange
      (consumeRange_keeps h (fun i _ => hf i) hl _) rfl rfl rfl).mono ?_
    rintro _ st ⟨hset, hcalls⟩
    have hgone : ((logs υ true).gone st).toFinset = inRange S l r := toFinset_of_perm_sort hcalls
    exact ⟨hcalls, by rwa [hgone] at hset⟩

/-- A function that removes its index or leaves it, in no particular way. -/
def mayRemove (i : ℕ) : Prog (Traversal Unit) Empty Unit :=
  pick false fun chosen => if chosen then removeSelf i >>= fun _ => ret () else ret ()

/-- The function of the example removes its own index. -/
theorem mayRemove_selfRemoving (i : ℕ) : SelfRemoving i (mayRemove i) := by
  refine SelfRemoving.pick _ _ fun chosen => ?_
  cases chosen
  · exact SelfRemoving.ret ()
  · exact SelfRemoving.remove _ fun _ => SelfRemoving.ret ()

/-- A range of a set of 100 elements with a function that may remove its own index. -/
theorem traversals_tolerate_removal_hundred :
    Total (fun e : Empty => e.elim) (fun _ st => st.calls.Perm ((inRange (Finset.range 100) 10 70).sort (· ≤ ·)) ∧
      Represents 100 st.set (Finset.range 100 \ st.removed.toFinset))
      (forRange words 10 70 (visitor mayRemove)) ⟨create 100 true, [], [], ()⟩ :=
  ((traversals_tolerate_removal (represents_create 100 true) mayRemove_selfRemoving mayRemove_selfRemoving
    (fun _ b => b) () ()).2.2 10 70 (by norm_num)).1

end Traversal

end IndexSet

end ToggleTree
