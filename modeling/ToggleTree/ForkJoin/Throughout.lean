import ToggleTree.ForkJoin.Logic

/-!
# What holds throughout a run

A run satisfies a predicate throughout if every state that it passes through does. The judgement also
says that all runs return, and what holds then, so that programs can be put together from their parts.
-/

namespace ForkJoin

open Prog

variable {σ ι α β M : Type} [AddCommMonoid M]

/-- All runs of `p` from `s` stay in `J`, return, and end in `Q`. -/
inductive Throughout (env : ι → Prog σ ι Unit) (J : σ → Prop) (Q : α → σ → Prop) : Prog σ ι α → σ → Prop
  | intro {p : Prog σ ι α} {s : σ} (here : J s) (post : ∀ v, p = ret v → Q v s)
      (step : ∀ p' s', Step env p s p' s' → Throughout env J Q p' s') : Throughout env J Q p s

namespace Throughout

variable {env : ι → Prog σ ι Unit} {J J' : σ → Prop} {Q Q' : α → σ → Prop} {R : β → σ → Prop} {p p' : Prog σ ι α}
  {s s' : σ}

/-- The property holds now. -/
theorem here (h : Throughout env J Q p s) : J s := by
  cases h with
  | intro here _ _ => exact here

/-- What holds throughout comes to an end. -/
theorem total (h : Throughout env J Q p s) : Total env Q p s := by
  induction h with
  | intro _ post _ ih => exact Total.intro post ih

/-- The judgement holds of every configuration that a run passes through. -/
theorem steps (h : Throughout env J Q p s) (run : Steps env p s p' s') : Throughout env J Q p' s' := by
  induction run with
  | refl => exact h
  | tail _ hstep ih =>
    cases ih h with
    | intro _ _ step => exact step _ _ hstep

/-- The property of a result. -/
theorem result {v : α} (h : Throughout env J Q p s) (run : Steps env p s (Prog.ret v) s') : Q v s' :=
  h.total.result run

/-- Weaker properties. -/
theorem mono (h : Throughout env J Q p s) (hJ : ∀ s, J s → J' s) (hQ : ∀ v s, Q v s → Q' v s) :
    Throughout env J' Q' p s := by
  induction h with
  | intro here post _ ih => exact intro (hJ _ here) (fun v hv => hQ v _ (post v hv)) ih

/-- A program that has returned. -/
theorem ret {v : α} (hJ : J s) (hQ : Q v s) : Throughout env J Q (Prog.ret v) s :=
  intro hJ (fun _ hv => by cases hv; exact hQ) fun _ _ hstep => hstep.elim

/-- An atomic step in a sequence. -/
theorem act {δ : Type} {f : σ → δ × σ} {next : δ → Prog σ ι α} (hJ : J s)
    (h : Throughout env J Q (next (f s).1) (f s).2) : Throughout env J Q (Prog.act f >>= next) s :=
  intro hJ (fun _ hv => by cases hv) fun _ _ hstep => by
    obtain ⟨rfl, rfl⟩ := hstep
    exact h

/-- Sequential composition. -/
theorem bind {f : α → Prog σ ι β} (h : Throughout env J Q p s)
    (hf : ∀ v s', Q v s' → Throughout env J R (f v) s') :
    Throughout env J R (p >>= f) s := by
  induction h with
  | @intro p s here post step ih =>
    rcases step_progress env p s with ⟨v, rfl⟩ | ⟨p', s', hstep⟩
    · exact hf v s (post v rfl)
    · have hne : ∀ v, p ≠ Prog.ret v := by
        rintro v rfl
        exact hstep
      refine intro here ?_ ?_
      · intro w hw
        cases p with
        | ret v => exact (hne v rfl).elim
        | _ => cases hw
      · intro q s'' hq
        rcases step_bind hq with ⟨v, hv, _⟩ | ⟨p'', hp'', rfl⟩
        · exact (hne v hv).elim
        · exact ih p'' s'' hp''

/-- What the invariant of a protocol says holds throughout. -/
theorem of_ensures {P : Protocol σ M} {Q : α → σ → M → Prop} {a : M} (h : Ensures P env Q p s a)
    (hinv : P.inv s a)
    (hJ : ∀ s a, P.inv s a → J s) : Throughout env J (fun v s' => ∃ a', P.inv s' a' ∧ Q v s' a') p s := by
  induction h with
  | @intro p s a post own safe step ih =>
    have hinv₀ : P.inv s (a + 0) := by rwa [add_zero]
    refine Throughout.intro (hJ s a hinv) ?_ ?_
    · rintro v rfl
      obtain ⟨a', ha', hq⟩ := post v rfl s 0 (P.refl s) hinv₀
      exact ⟨a', by rwa [add_zero] at ha', hq⟩
    · intro p' s' hstep
      obtain ⟨_, hinv'⟩ := safe s 0 p' s' (P.refl s) hinv₀ hstep
      rw [add_zero] at hinv'
      exact ih s 0 p' s' (P.refl s) hinv₀ hstep hinv'

end Throughout

end ForkJoin
