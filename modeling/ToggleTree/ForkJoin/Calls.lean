import ToggleTree.ForkJoin.Logic

/-!
# Programs that call a function

A program whose own steps stay within a relation on the states, and which calls a function in
between. A protocol that these steps and the calls keep is kept by the program, wherever the
calls are made.
-/

namespace ForkJoin

open Prog

variable {σ ι α β κ : Type}

/-- The steps of a program stay within `own`, but for its calls of `f`. -/
inductive Calls (own : σ → σ → Prop) (f : κ → Prog σ ι Unit) : {α : Type} → Prog σ ι α → Prop
  | ret {α : Type} (a : α) : Calls own f (ret a)
  | atom {α β : Type} (act : σ → β × σ) (next : β → Prog σ ι α) (step : ∀ s, own s (act s).2)
      (rest : ∀ b, Calls own f (next b)) : Calls own f (atom act next)
  | pick {α β : Type} (dflt : β) (next : β → Prog σ ι α) (rest : ∀ b, Calls own f (next b)) :
    Calls own f (pick dflt next)
  | visit {α : Type} (k : κ) (next : Unit → Prog σ ι α) (rest : ∀ u, Calls own f (next u)) :
    Calls own f (f k >>= next)
  | fork {α β γ : Type} (left : Prog σ ι β) (right : Prog σ ι γ) (next : β → γ → Prog σ ι α)
      (hleft : Calls own f left) (hright : Calls own f right) (rest : ∀ b c, Calls own f (next b c)) :
      Calls own f (fork left right next)

namespace Calls

variable {own : σ → σ → Prop} {f : κ → Prog σ ι Unit}

/-- One program after the other. -/
theorem bind {p : Prog σ ι α} {next : α → Prog σ ι β} (hp : Calls own f p) (hnext : ∀ a, Calls own f (next a)) :
    Calls own f (p >>= next) := by
  induction hp with
  | ret a => exact hnext a
  | atom act _ step _ ih => exact atom act _ step fun b => ih b hnext
  | pick d _ _ ih => exact pick d _ fun b => ih b hnext
  | visit k _ _ ih =>
    rw [bind_assoc]
    exact visit k _ fun u => ih u hnext
  | fork l r _ hl hr _ _ _ ih => exact fork l r _ hl hr fun b c => ih b c hnext

/-- One step of its own. -/
theorem act {f' : σ → β × σ} (step : ∀ s, own s (f' s).2) : Calls own f (Prog.act f') :=
  atom f' _ step fun b => ret b

/-- A sequential loop. -/
theorem foldFor {start stop : ℕ} {init : β} {g : ℕ → β → Prog σ ι β} (hg : ∀ i b, Calls own f (g i b)) :
    Calls own f (Prog.foldFor start stop init g) := by
  induction hn : stop - start generalizing start init with
  | zero =>
    unfold Prog.foldFor
    rw [if_neg (by omega)]
    exact ret init
  | succ n ih =>
    unfold Prog.foldFor
    rw [if_pos (by omega)]
    exact (hg start init).bind fun b => ih (by omega)

/-- A loop that collects results. -/
theorem parallelCollect {start stop : ℕ} {g : ℕ → Prog σ ι β} (hg : ∀ i, Calls own f (g i)) :
    Calls own f (Prog.parallelCollect start stop g) := by
  induction hn : stop - start using Nat.strong_induction_on generalizing start stop with
  | _ n ih =>
    unfold Prog.parallelCollect
    split
    · split
      · exact (hg start).bind fun b => ret [b]
      · exact ret []
    · exact fork _ _ _ (ih _ (by omega) rfl) (ih _ (by omega) rfl) fun bs cs => ret (bs ++ cs)

/-- What the calls and the steps between them keep, the program keeps. -/
theorem ensures {M : Type} [AddCommMonoid M] {P : Protocol σ M} {env : ι → Prog σ ι Unit} {p : Prog σ ι α}
    (h : Calls own f p) (hrel : ∀ s s', own s s' → P.rel s s')
    (hinv : ∀ s s' a, own s s' → P.inv s a → P.inv s' a)
    (hf : ∀ k s, Ensures P env (fun _ _ a => a = 0) (f k) s 0) (s : σ) :
    Ensures P env (fun _ _ a => a = 0) p s 0 := by
  induction h generalizing s with
  | ret a => exact Ensures.ret fun _ _ _ hinv' => ⟨0, hinv', rfl⟩
  | atom act _ step _ ih =>
    exact Ensures.atom fun s' _ _ hinv' => ⟨0, hrel _ _ (step s'), hinv _ _ _ (step s') hinv', ih _ _⟩
  | pick d _ _ ih => exact Ensures.pick fun b => ih b s
  | visit k _ _ ih =>
    refine (hf k s).bind ?_
    rintro u s' _ rfl
    exact ih u s'
  | fork l r _ _ _ _ ihl ihr ih =>
    rw [← add_zero (0 : M)]
    refine Ensures.fork (ihl s) (ihr s) ?_
    rintro b c s' _ _ rfl rfl
    rw [add_zero]
    exact ih b c s'

end Calls

end ForkJoin
