import ToggleTree.ForkJoin.Logic

/-!
# Parallel reductions

A reduction splits its range in halves, folds each piece of at most `granularity` iterations
sequentially and combines the results of the halves. What it returns is described by a predicate
on ranges that is closed under joining neighbouring ranges.
-/

namespace ForkJoin

open Prog

variable {σ ι M β : Type} [AddCommMonoid M]

namespace Prog

/-- A parallel reduction over `[start, stop)`. -/
def reduce (combine : β → β → β) (identity : β) (granularity start stop : ℕ) (f : ℕ → Prog σ ι β) :
    Prog σ ι β :=
  if stop - start ≤ max granularity 1 then
    foldFor start stop identity fun i aggregate => do
      let value ← f i
      ret (combine aggregate value)
  else
    let mid := start + (stop - start) / 2
    fork (reduce combine identity granularity start mid f) (reduce combine identity granularity mid stop f)
      fun left right => ret (combine left right)
termination_by stop - start

end Prog

namespace Ensures

variable {P : Protocol σ M} {env : ι → Prog σ ι Unit}

/-- A fold whose iterations exchange their resources keeps an invariant of the iterations done. -/
theorem foldFor_exchange {I : ℕ → β → σ → Prop} {f : ℕ → β → Prog σ ι β} {start stop : ℕ} {init : β} {s : σ}
    (a b : ℕ → M) (hle : start ≤ stop) (hstable : ∀ i v, Stable P fun s _ => I i v s) (h0 : I start init s)
    (hf : ∀ i v s, start ≤ i → i < stop → I i v s →
      Ensures P env (fun v' s' c => I (i + 1) v' s' ∧ c = b i) (f i v) s (a i)) :
    Ensures P env (fun v' s' c => I stop v' s' ∧ c = ∑ i ∈ Finset.Ico start stop, b i)
      (Prog.foldFor start stop init f) s (∑ i ∈ Finset.Ico start stop, a i) := by
  have hloop : Ensures P env
      (fun v s c => I stop v s ∧ c = ∑ j ∈ Finset.Ico start stop, b j + ∑ j ∈ Finset.Ico stop stop, a j)
      (Prog.foldFor start stop init f) s (∑ i ∈ Finset.Ico start stop, a i) := by
    refine foldFor (I := fun i v s c => I i v s ∧
      c = ∑ j ∈ Finset.Ico start i, b j + ∑ j ∈ Finset.Ico i stop, a j)
      hle (fun v s s' c hrel h => ⟨hstable stop v s s' c hrel h.1, h.2⟩) ⟨h0, ?_⟩ ?_
    · rw [Finset.Ico_self, Finset.sum_empty, zero_add]
    · rintro i v s _ h₁ h₂ ⟨hI, rfl⟩
      rw [Finset.sum_eq_sum_Ico_succ_bot h₂, add_left_comm]
      refine ((hf i v s h₁ h₂ hI).frame _).mono ?_
      rintro v' s' _ ⟨_, ⟨hI', rfl⟩, rfl⟩
      refine ⟨hI', ?_⟩
      rw [Finset.sum_Ico_succ_top h₁, ← add_assoc, add_comm (b i)]
  refine hloop.mono fun v s c h => ⟨h.1, ?_⟩
  rw [h.2, Finset.Ico_self, Finset.sum_empty, add_zero]

/-- A fold whose iterations give up their resources. -/
theorem foldFor_sum {I : ℕ → β → σ → Prop} {f : ℕ → β → Prog σ ι β} {start stop : ℕ} {init : β} {s : σ}
    (a : ℕ → M) (hle : start ≤ stop) (hstable : ∀ i v, Stable P fun s _ => I i v s) (h0 : I start init s)
    (hf : ∀ i v s, start ≤ i → i < stop → I i v s →
      Ensures P env (fun v' s' c => I (i + 1) v' s' ∧ c = 0) (f i v) s (a i)) :
    Ensures P env (fun v' s' c => I stop v' s' ∧ c = 0) (Prog.foldFor start stop init f) s
      (∑ i ∈ Finset.Ico start stop, a i) := by
  have h := foldFor_exchange a (fun _ => 0) hle hstable h0 hf
  rwa [Finset.sum_const_zero] at h

/-- A reduction satisfies every predicate on ranges that holds of the identity on empty ranges, of
each iteration, and of a combination if it holds of both parts. -/
theorem reduce_exchange {I : ℕ → ℕ → β → σ → Prop} {combine : β → β → β} {identity : β} {granularity : ℕ}
    {f : ℕ → Prog σ ι β} {start stop : ℕ} {s : σ} (a b : ℕ → M) (hle : start ≤ stop)
    (hstable : ∀ i j v, Stable P fun s _ => I i j v s) (hidentity : ∀ i s, I i i identity s)
    (hcombine : ∀ i j k v w s, i ≤ j → j ≤ k → I i j v s → I j k w s → I i k (combine v w) s)
    (hf : ∀ i s', start ≤ i → i < stop → P.rel s s' →
      Ensures P env (fun v s'' c => I i (i + 1) v s'' ∧ c = b i) (f i) s' (a i)) :
    Ensures P env (fun v s' c => I start stop v s' ∧ c = ∑ i ∈ Finset.Ico start stop, b i)
      (Prog.reduce combine identity granularity start stop f) s (∑ i ∈ Finset.Ico start stop, a i) := by
  induction hn : stop - start using Nat.strong_induction_on generalizing start stop with
  | _ n ih =>
    unfold Prog.reduce
    split
    · refine (foldFor_exchange (I := fun i v s' => I start i v s' ∧ P.rel s s') a b hle
        (fun i v s₁ s₂ c hrel h => ⟨hstable start i v s₁ s₂ c hrel h.1, P.trans h.2 hrel⟩)
        ⟨hidentity start s, P.refl s⟩ fun i v s' h₁ h₂ hI => ?_).mono fun v s' c h => ⟨h.1.1, h.2⟩
      have hkeep : ∀ s₁ s₂, P.rel s₁ s₂ → (I start i v s₁ ∧ P.rel s s₁) → I start i v s₂ ∧ P.rel s s₂ :=
        fun s₁ s₂ hrel h => ⟨hstable start i v s₁ s₂ 0 hrel h.1, P.trans h.2 hrel⟩
      refine ((hf i s' h₁ h₂ hI.2).withStable hkeep hI).bind ?_
      rintro value s'' _ ⟨⟨hvalue, rfl⟩, hI'⟩
      refine Ensures.ret fun s₃ o hrel hinv => ⟨_, hinv, ⟨?_, P.trans hI'.2 hrel⟩, rfl⟩
      exact hstable start (i + 1) _ s'' s₃ 0 hrel
        (hcombine start i (i + 1) v value s'' h₁ (Nat.le_succ i) hI'.1 hvalue)
    · have hmid : start ≤ start + (stop - start) / 2 := Nat.le_add_right _ _
      have hmid' : start + (stop - start) / 2 ≤ stop := by omega
      rw [← Finset.sum_Ico_consecutive a hmid hmid', ← Finset.sum_Ico_consecutive b hmid hmid']
      have hgap : start < start + (stop - start) / 2 := by omega
      refine fork (ih (start + (stop - start) / 2 - start) (by omega) hmid
          (fun i s' h₁ h₂ => hf i s' h₁ (by omega)) rfl)
        (ih (stop - (start + (stop - start) / 2)) (by omega) hmid'
          (fun i s' h₁ h₂ => hf i s' (by omega) h₂) rfl) ?_
      rintro v w s' _ _ ⟨hv, rfl⟩ ⟨hw, rfl⟩
      refine Ensures.ret fun s'' o hrel hinv => ⟨_, hinv, ?_, rfl⟩
      exact hstable start stop _ s' s'' 0 hrel (hcombine start _ stop v w s' hmid hmid' hv hw)

/-- Iterations that give up their resources. -/
theorem reduce {I : ℕ → ℕ → β → σ → Prop} {combine : β → β → β} {identity : β} {granularity : ℕ}
    {f : ℕ → Prog σ ι β} {start stop : ℕ} {s : σ} (a : ℕ → M) (hle : start ≤ stop)
    (hstable : ∀ i j v, Stable P fun s _ => I i j v s) (hidentity : ∀ i s, I i i identity s)
    (hcombine : ∀ i j k v w s, i ≤ j → j ≤ k → I i j v s → I j k w s → I i k (combine v w) s)
    (hf : ∀ i s', start ≤ i → i < stop → P.rel s s' →
      Ensures P env (fun v s'' c => I i (i + 1) v s'' ∧ c = 0) (f i) s' (a i)) :
    Ensures P env (fun v s' c => I start stop v s' ∧ c = 0)
      (Prog.reduce combine identity granularity start stop f) s (∑ i ∈ Finset.Ico start stop, a i) := by
  have h : Ensures P env (fun v s' c => I start stop v s' ∧ c = ∑ _i ∈ Finset.Ico start stop, (0 : M))
      (Prog.reduce combine identity granularity start stop f) s (∑ i ∈ Finset.Ico start stop, a i) :=
    reduce_exchange a (fun _ => 0) hle hstable hidentity hcombine hf
  rwa [Finset.sum_const_zero] at h

end Ensures

end ForkJoin
