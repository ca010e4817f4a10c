import ToggleTree.ForkJoin.Program

/-!
# Parallel loops in a given order

The iterations of a parallel loop may run one after the other in any order. What they do is a
relation between states for every iteration, a chain of these relations is what they do in an
order, and the loop has a run that does it.

Nothing here refers to a particular program.
-/

namespace ForkJoin

open Prog

variable {σ ι α β γ : Type} {env : ι → Prog σ ι Unit} {work : ℕ → σ → σ → Prop}

/-- The entries of a list are worked on one after the other. -/
inductive Chain (work : ℕ → σ → σ → Prop) : List ℕ → σ → σ → Prop
  | nil (s : σ) : Chain work [] s s
  | cons {i : ℕ} {xs : List ℕ} {s s' s'' : σ} (first : work i s s') (rest : Chain work xs s' s'') :
      Chain work (i :: xs) s s''

/-- The image of a chain. -/
theorem Chain.map {τ : Type} {work' : ℕ → τ → τ → Prop} (φ : σ → τ) {xs : List ℕ} {s s' : σ}
    (h : Chain work xs s s')
    (hwork : ∀ i s s', work i s s' → work' i (φ s) (φ s')) : Chain work' xs (φ s) (φ s') := by
  induction h with
  | nil s => exact Chain.nil (φ s)
  | cons first _ ih => exact Chain.cons (hwork _ _ _ first) ih

/-- A fold is a chain of its steps. -/
theorem chain_foldl (step : ℕ → σ → σ) (xs : List ℕ) (s : σ) :
    Chain (fun i s s' => s' = step i s) xs s (xs.foldl (fun s i => step i s) s) := by
  induction xs generalizing s with
  | nil => exact Chain.nil s
  | cons i xs ih => exact Chain.cons rfl (ih (step i s))

/-- A fold that stores what every step returns, and the chain of its steps with what is stored in the end. -/
theorem chain_foldl_update {S : Type} {result : S → ℕ → β} {state : S → σ} {body : ℕ → σ → β × σ}
    {step : S → ℕ → S}
    (hresult : ∀ r i, result (step r i) = Function.update (result r) i (body i (state r)).1)
    (hstate : ∀ r i, state (step r i) = (body i (state r)).2) {xs : List ℕ} (hnodup : xs.Nodup) (r : S) :
    Chain (fun i s s' => body i s = (result (xs.foldl step r) i, s')) xs (state r) (state (xs.foldl step r)) ∧
      ∀ j ∉ xs, result (xs.foldl step r) j = result r j := by
  induction xs generalizing r with
  | nil => exact ⟨Chain.nil _, fun _ _ => rfl⟩
  | cons i xs ih =>
    obtain ⟨hnot, hnodup'⟩ := List.nodup_cons.mp hnodup
    obtain ⟨hchain, hother⟩ := ih hnodup' (step r i)
    rw [List.foldl_cons]
    refine ⟨Chain.cons (Prod.ext ?_ (hstate r i).symm) hchain, ?_⟩
    · rw [hother i hnot, hresult, Function.update_self]
    · intro j hj
      have hne : j ≠ i := by
        rintro rfl
        exact hj List.mem_cons_self
      rw [hother j fun h => hj (List.mem_cons_of_mem i h), hresult, Function.update_of_ne hne]

/-- The program can work on the entries of a list in their order, and has become another one then. -/
inductive Driven (env : ι → Prog σ ι Unit) (work : ℕ → σ → σ → Prop) : Prog σ ι α → List ℕ → Prog σ ι α → Prop
  | refl (p : Prog σ ι α) : Driven env work p [] p
  | cons {p q r : Prog σ ι α} {i : ℕ} {xs : List ℕ} (first : ∀ s s', work i s s' → Steps env p s q s')
      (rest : Driven env work q xs r) : Driven env work p (i :: xs) r

namespace Driven

/-- A driven program makes the steps of the chain. -/
theorem steps {p q : Prog σ ι α} {xs : List ℕ} {s s' : σ} (h : Driven env work p xs q)
    (hchain : Chain work xs s s') :
    Steps env p s q s' := by
  induction h generalizing s with
  | refl p =>
    cases hchain
    exact Steps.refl _ _
  | cons first _ ih =>
    cases hchain with
    | cons hfirst hrest => exact (first _ _ hfirst).trans (ih hrest)

/-- The branches of a fork share the work. -/
theorem fork {l l' : Prog σ ι β} {r r' : Prog σ ι γ} {next : β → γ → Prog σ ι α} (left : ℕ → Bool) {xs : List ℕ}
    (hl : Driven env work l (xs.filter left) l') (hr : Driven env work r (xs.filter fun i => !left i) r') :
    Driven env work (Prog.fork l r next) xs (Prog.fork l' r' next) := by
  induction xs generalizing l r with
  | nil =>
    cases hl
    cases hr
    exact Driven.refl _
  | cons i xs ih =>
    cases hi : left i with
    | true =>
      rw [List.filter_cons_of_pos hi] at hl
      rw [List.filter_cons_of_neg (by rw [hi]; decide)] at hr
      cases hl with
      | cons first rest => exact Driven.cons (fun s s' h => (first s s' h).fork_left) (ih rest hr)
    | false =>
      rw [List.filter_cons_of_neg (by rw [hi]; decide)] at hl
      rw [List.filter_cons_of_pos (by rw [hi]; rfl)] at hr
      cases hr with
      | cons first rest => exact Driven.cons (fun s s' h => (first s s' h).fork_right) (ih hl rest)

end Driven

/-- Both branches of a fork return, and it goes on. -/
theorem steps_join {l : Prog σ ι β} {r : Prog σ ι γ} {next : β → γ → Prog σ ι α} {b : β} {c : γ} {s : σ}
    (hl : Steps env l s (ret b) s) (hr : Steps env r s (ret c) s) :
    Steps env (Prog.fork l r next) s (next b c) s :=
  hl.fork_left.trans
    (hr.fork_right.trans (Steps.head (Or.inr (Or.inr ⟨b, c, rfl, rfl, rfl, rfl⟩)) (Steps.refl _ _)))

/-- The part of a range before a number in it. -/
theorem filter_range'_lt {start mid stop : ℕ} (h : start ≤ mid) (h' : mid ≤ stop) :
    (List.range' start (stop - start)).filter (fun i => decide (i < mid)) = List.range' start (mid - start) ∧
      (List.range' start (stop - start)).filter (fun i => !decide (i < mid)) = List.range' mid (stop - mid) := by
  have hsplit : List.range' start (stop - start) =
    List.range' start (mid - start) ++ List.range' mid (stop - mid) := by
    have happend := List.range'_append_1 (s := start) (m := mid - start) (n := stop - mid)
    rw [show start + (mid - start) = mid by omega,
      show mid - start + (stop - mid) = stop - start by omega] at happend
    exact happend.symm
  have hlow : ∀ i ∈ List.range' start (mid - start), decide (i < mid) = true := by
    intro i hi
    rw [List.mem_range'_1] at hi
    exact decide_eq_true (by omega)
  have hhigh : ∀ i ∈ List.range' mid (stop - mid), decide (i < mid) = false := by
    intro i hi
    rw [List.mem_range'_1] at hi
    exact decide_eq_false (by omega)
  rw [hsplit, List.filter_append, List.filter_append, List.filter_eq_self.mpr hlow,
    List.filter_eq_nil_iff.mpr fun i hi => by rw [hhigh i hi]; decide,
    List.filter_eq_nil_iff.mpr fun i hi => by rw [hlow i hi]; decide,
    List.filter_eq_self.mpr fun i hi => by rw [hhigh i hi]; rfl]
  exact ⟨List.append_nil _, rfl⟩

/-- An order of a range is an order of each of its halves. -/
theorem perm_halves {start mid stop : ℕ} {xs : List ℕ} (h : start ≤ mid) (h' : mid ≤ stop)
    (hperm : xs.Perm (List.range' start (stop - start))) :
    (xs.filter fun i => decide (i < mid)).Perm (List.range' start (mid - start)) ∧
      (xs.filter fun i => !decide (i < mid)).Perm (List.range' mid (stop - mid)) := by
  obtain ⟨hlow, hhigh⟩ := filter_range'_lt h h'
  constructor
  · rw [← hlow]
    exact hperm.filter _
  · rw [← hhigh]
    exact hperm.filter _

/-- The branches of a loop that collects results run one after the other, in any order. -/
theorem steps_parallelCollect {f : ℕ → Prog σ ι β} {result : ℕ → β} {start stop : ℕ} {xs : List ℕ} {s s' : σ}
    (hf : ∀ i s s', start ≤ i → i < stop → work i s s' → Steps env (f i) s (ret (result i)) s')
    (hperm : xs.Perm (List.range' start (stop - start))) (hchain : Chain work xs s s') :
    Steps env (parallelCollect start stop f) s (ret ((List.range' start (stop - start)).map result)) s' := by
  suffices hdriven : ∃ q, Driven env work (parallelCollect start stop f) xs q ∧
      ∀ s, Steps env q s (ret ((List.range' start (stop - start)).map result)) s by
    obtain ⟨q, hq, hend⟩ := hdriven
    exact (hq.steps hchain).trans (hend s')
  clear hchain
  induction hn : stop - start using Nat.strong_induction_on generalizing start stop xs with
  | _ n ih =>
    subst hn
    unfold parallelCollect
    by_cases hshort : stop - start ≤ 1
    · rw [if_pos hshort]
      by_cases hone : start < stop
      · have hlength : stop - start = 1 := by omega
        rw [if_pos hone]
        rw [hlength] at hperm ⊢
        rw [List.perm_singleton.mp hperm]
        refine ⟨_, Driven.cons (fun s s' h => (hf start s s' le_rfl hone h).bind_left _) (Driven.refl _), ?_⟩
        intro s
        exact Steps.refl _ _
      · have hlength : stop - start = 0 := by omega
        rw [if_neg hone]
        rw [hlength] at hperm ⊢
        rw [hperm.eq_nil]
        exact ⟨_, Driven.refl _, fun s => Steps.refl _ _⟩
    · rw [if_neg hshort]
      have hmid : start ≤ start + (stop - start) / 2 := by omega
      have hmid' : start + (stop - start) / 2 ≤ stop := by omega
      obtain ⟨hleft, hright⟩ := perm_halves hmid hmid' hperm
      obtain ⟨l, hl, hlend⟩ := ih _ (by omega) (fun i s s' hi hi' => hf i s s' hi (by omega)) hleft rfl
      obtain ⟨r, hr, hrend⟩ := ih _ (by omega) (fun i s s' hi hi' => hf i s s' (by omega) hi') hright rfl
      refine ⟨_, Driven.fork _ hl hr, fun s => ?_⟩
      have happend := List.range'_append_1 (s := start) (m := start + (stop - start) / 2 - start)
        (n := stop - (start + (stop - start) / 2))
      rw [show start + (start + (stop - start) / 2 - start) = start + (stop - start) / 2 by omega,
        show start + (stop - start) / 2 - start + (stop - (start + (stop - start) / 2)) =
          stop - start by omega] at happend
      rw [← happend, List.map_append]
      exact steps_join (hlend s) (hrend s)

/-- The iterations of a parallel loop run one after the other, in any order. -/
theorem steps_parallelFor {f : ℕ → Prog σ ι Unit} {start stop : ℕ} {xs : List ℕ} {s s' : σ}
    (hf : ∀ i s s', start ≤ i → i < stop → work i s s' → Steps env (f i) s (ret ()) s')
    (hperm : xs.Perm (List.range' start (stop - start))) (hchain : Chain work xs s s') :
    Steps env (parallelFor start stop f) s (ret ()) s' := by
  suffices hdriven : ∃ q, Driven env work (parallelFor start stop f) xs q ∧ ∀ s, Steps env q s (ret ()) s by
    obtain ⟨q, hq, hend⟩ := hdriven
    exact (hq.steps hchain).trans (hend s')
  clear hchain
  induction hn : stop - start using Nat.strong_induction_on generalizing start stop xs with
  | _ n ih =>
    subst hn
    unfold parallelFor
    by_cases hshort : stop - start ≤ 1
    · rw [if_pos hshort]
      by_cases hone : start < stop
      · have hlength : stop - start = 1 := by omega
        rw [if_pos hone]
        rw [hlength] at hperm
        rw [List.perm_singleton.mp hperm]
        exact ⟨_, Driven.cons (fun s s' h => hf start s s' le_rfl hone h) (Driven.refl _),
          fun s => Steps.refl _ _⟩
      · have hlength : stop - start = 0 := by omega
        rw [if_neg hone]
        rw [hlength] at hperm
        rw [hperm.eq_nil]
        exact ⟨_, Driven.refl _, fun s => Steps.refl _ _⟩
    · rw [if_neg hshort]
      have hmid : start ≤ start + (stop - start) / 2 := by omega
      have hmid' : start + (stop - start) / 2 ≤ stop := by omega
      obtain ⟨hleft, hright⟩ := perm_halves hmid hmid' hperm
      obtain ⟨l, hl, hlend⟩ := ih _ (by omega) (fun i s s' hi hi' => hf i s s' hi (by omega)) hleft rfl
      obtain ⟨r, hr, hrend⟩ := ih _ (by omega) (fun i s s' hi hi' => hf i s s' (by omega) hi') hright rfl
      exact ⟨_, Driven.fork _ hl hr, fun s => steps_join (hlend s) (hrend s)⟩

/-- The branches for the entries of a list run one after the other, in any order. -/
theorem steps_parallelEach {f : ℕ → Prog σ ι Unit} {vs xs : List ℕ} {s s' : σ} (hnodup : vs.Nodup)
    (hf : ∀ i ∈ vs, ∀ s s', work i s s' → Steps env (f i) s (ret ()) s') (hperm : xs.Perm vs)
    (hchain : Chain work xs s s') : Steps env (parallelEach vs f) s (ret ()) s' := by
  suffices hdriven : ∃ q, Driven env work (parallelEach vs f) xs q ∧ ∀ s, Steps env q s (ret ()) s by
    obtain ⟨q, hq, hend⟩ := hdriven
    exact (hq.steps hchain).trans (hend s')
  clear hchain
  induction vs generalizing xs with
  | nil =>
    rw [hperm.eq_nil]
    exact ⟨_, Driven.refl _, fun s => Steps.refl _ _⟩
  | cons v vs ih =>
    obtain ⟨hnot, hnodup'⟩ := List.nodup_cons.mp hnodup
    have hne : ∀ i ∈ vs, decide (i = v) = false := by
      intro i hi
      exact decide_eq_false fun h => hnot (h ▸ hi)
    have hfirst : vs.filter (fun i => decide (i = v)) = [] :=
      List.filter_eq_nil_iff.mpr fun i hi => by rw [hne i hi]; decide
    have hothers : vs.filter (fun i => !decide (i = v)) = vs :=
      List.filter_eq_self.mpr fun i hi => by rw [hne i hi]; rfl
    have hleft := hperm.filter fun i => decide (i = v)
    have hright := hperm.filter fun i => !decide (i = v)
    rw [List.filter_cons_of_pos (by simp), hfirst] at hleft
    rw [List.filter_cons_of_neg (by simp), hothers] at hright
    obtain ⟨r, hr, hrend⟩ := ih hnodup' (fun i hi => hf i (List.mem_cons_of_mem v hi)) hright
    refine ⟨_, Driven.fork (fun i => decide (i = v)) ?_ hr, fun s => steps_join (Steps.refl (ret ()) s) (hrend s)⟩
    rw [List.perm_singleton.mp hleft]
    exact Driven.cons (hf v List.mem_cons_self) (Driven.refl _)

/-- A sequential loop keeps a relation between what it carries and the state. -/
theorem steps_foldFor {f : ℕ → β → Prog σ ι β} {I : ℕ → β → σ → Prop} {start stop : ℕ} {b : β} {s : σ}
    (hle : start ≤ stop) (h : I start b s)
    (hf : ∀ i b s, start ≤ i → i < stop → I i b s → ∃ b' s', Steps env (f i b) s (ret b') s' ∧ I (i + 1) b' s') :
    ∃ b' s', Steps env (foldFor start stop b f) s (ret b') s' ∧ I stop b' s' := by
  induction hn : stop - start generalizing start b s with
  | zero =>
    obtain rfl : start = stop := by omega
    unfold foldFor
    rw [if_neg (lt_irrefl start)]
    exact ⟨b, s, Steps.refl _ _, h⟩
  | succ n ih =>
    have hlt : start < stop := by omega
    obtain ⟨b₁, s₁, hsteps, h₁⟩ := hf start b s le_rfl hlt h
    obtain ⟨b₂, s₂, hsteps', h₂⟩ := ih hlt h₁ (fun i b s hi hi' => hf i b s (by omega) hi') (by omega)
    unfold foldFor
    rw [if_pos hlt]
    exact ⟨b₂, s₂, (hsteps.bind_left _).trans hsteps', h₂⟩

end ForkJoin
