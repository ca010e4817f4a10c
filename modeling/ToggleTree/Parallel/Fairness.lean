import Mathlib.Data.Nat.Find
import Mathlib.Order.WellFounded

/-!
# Fair runs

Threads take turns, and a thread that could always take a step takes one at some time. A run reaches
its goal if no step raises a well-founded measure and if, short of the goal, there is always a thread
that is only some steps of its own away from a step that lowers the measure.

Nothing here refers to a particular system.
-/

namespace Fairness

/-- A run, with the thread that moves at each time. Nothing happens at the times without a mover, so a
run that ends goes on for ever with nothing happening. -/
structure Run {K S : Type*} (step : K → S → S → Prop) where
  state : ℕ → S
  mover : ℕ → Option K
  moves : ∀ k w, mover k = some w → step w (state k) (state (k + 1))
  rests : ∀ k, mover k = none → state (k + 1) = state k

namespace Run

variable {K S A : Type*} {step : K → S → S → Prop} (r : Run step)

/-- A thread that can take a step from some time on takes one. -/
def Fair : Prop := ∀ w k, (∀ m ≥ k, ∃ s, step w (r.state m) s) → ∃ m ≥ k, r.mover m = some w

variable {r} {I : S → Prop}

/-- What holds at the start and is kept by every step holds throughout a run. -/
theorem invariant (hinit : I (r.state 0)) (hstep : ∀ w s s', I s → step w s s' → I s') (k : ℕ) :
    I (r.state k) := by
  induction k with
  | zero => exact hinit
  | succ k ih =>
    cases hmove : r.mover k with
    | none =>
      rw [r.rests k hmove]
      exact ih
    | some w => exact hstep w _ _ ih (r.moves k w hmove)

/-- What enables a thread, and holds until the thread moves, holds when it moves. -/
theorem Fair.exists_move (hfair : r.Fair) {w : K} {P : S → Prop}
    (henabled : ∀ k, P (r.state k) → ∃ s, step w (r.state k) s)
    (hother : ∀ k u, P (r.state k) → u ≠ w → step u (r.state k) (r.state (k + 1)) → P (r.state (k + 1))) {k : ℕ}
    (h : P (r.state k)) : ∃ m ≥ k, r.mover m = some w ∧ P (r.state m) := by
  classical
  have hkeep (m : ℕ) (hm : P (r.state m)) (hne : r.mover m ≠ some w) : P (r.state (m + 1)) := by
    cases hmove : r.mover m with
    | none =>
      rw [r.rests m hmove]
      exact hm
    | some u =>
      refine hother m u hm ?_ (r.moves m u hmove)
      rintro rfl
      exact hne hmove
  by_cases hmoves : ∃ m, k ≤ m ∧ r.mover m = some w
  · obtain ⟨hle, hmove⟩ := Nat.find_spec hmoves
    have huntil (m : ℕ) (hkm : k ≤ m) (hm : m ≤ Nat.find hmoves) : P (r.state m) := by
      induction m, hkm using Nat.le_induction with
      | base => exact h
      | succ m hkm ih => exact hkeep m (ih (Nat.le_of_succ_le hm)) fun heq => Nat.find_min hmoves hm ⟨hkm, heq⟩
    exact ⟨_, hle, hmove, huntil _ hle le_rfl⟩
  · have hnever (m : ℕ) (hkm : k ≤ m) : P (r.state m) := by
      induction m, hkm using Nat.le_induction with
      | base => exact h
      | succ m hkm ih => exact hkeep m ih fun heq => hmoves ⟨m, hkm, heq⟩
    obtain ⟨m, hkm, heq⟩ := hfair w k fun m hkm => henabled m (hnever m hkm)
    exact absurd ⟨m, hkm, heq⟩ hmoves

/-- A fair run reaches its goal. `near w n` says that thread `w` lowers the measure after at most `n`
other steps of its own, whatever the other threads do. -/
theorem Fair.eventually (hfair : r.Fair) {lt : A → A → Prop} (hwf : WellFounded lt) (measure : S → A)
    (goal : S → Prop)
    (near : K → ℕ → S → Prop) (hinit : I (r.state 0)) (hinv : ∀ w s s', I s → step w s s' → I s')
    (hstep : ∀ w s s', I s → step w s s' → measure s' = measure s ∨ lt (measure s') (measure s))
    (hnear : ∀ s, I s → ¬goal s → ∃ w n, near w n s) (henabled : ∀ w n s, I s → near w n s → ∃ s', step w s s')
    (hother : ∀ u w n s s', I s → near w n s → u ≠ w → step u s s' → near w n s')
    (hown : ∀ w n s s', I s → near w n s → step w s s' → lt (measure s') (measure s) ∨ ∃ m < n, near w m s') :
    ∃ k, goal (r.state k) := by
  by_contra hgoal
  rw [not_exists] at hgoal
  have hI (k : ℕ) : I (r.state k) := invariant hinit hinv k
  -- Some measure is the least of the run, and from there on it does not change.
  obtain ⟨_, ⟨k, rfl⟩, hleast⟩ := hwf.has_min (Set.range fun k => measure (r.state k)) (Set.range_nonempty _)
  have hconstant (m : ℕ) (hkm : k ≤ m) : measure (r.state m) = measure (r.state k) := by
    induction m, hkm using Nat.le_induction with
    | base => rfl
    | succ m hkm ih =>
      cases hmove : r.mover m with
      | none => rw [r.rests m hmove, ih]
      | some w =>
        rcases hstep w _ _ (hI m) (r.moves m w hmove) with heq | hlt
        · rw [heq, ih]
        · rw [ih] at hlt
          exact absurd hlt (hleast _ ⟨m + 1, rfl⟩)
  have hnever (w : K) (n m : ℕ) (hkm : k ≤ m) : ¬near w n (r.state m) := by
    induction n using Nat.strong_induction_on generalizing m with
    | _ n ih =>
      intro hw
      obtain ⟨i, hmi, hmove, hw⟩ := hfair.exists_move (P := near w n) (fun i => henabled w n _ (hI i))
        (fun i u => hother u w n _ _ (hI i)) hw
      have hki := hkm.trans hmi
      rcases hown w n _ _ (hI i) hw (r.moves i w hmove) with hlt | ⟨n', hn, hw'⟩
      · rw [hconstant i hki] at hlt
        exact hleast _ ⟨i + 1, rfl⟩ hlt
      · exact ih n' hn (i + 1) (Nat.le_succ_of_le hki) hw'
  obtain ⟨w, n, hw⟩ := hnear _ (hI k) (hgoal k)
  exact hnever w n k le_rfl hw

section Follow

variable {X : Type*} {turn : X → S → Option S} {who : X → K}

/-- Follow a list of turns, leaving out those that cannot be taken. -/
def follow (turn : X → S → Option S) (turns : List X) (s : S) : S := turns.foldl (fun s x => (turn x s).getD s) s

/-- One more turn is followed. -/
theorem follow_take_succ (turns : List X) (s : S) (k : ℕ) : follow turn (turns.take (k + 1)) s =
    match turns[k]? with
    | some x => (turn x (follow turn (turns.take k) s)).getD (follow turn (turns.take k) s)
    | none => follow turn (turns.take k) s := by
  rw [List.take_add_one, follow, List.foldl_append]
  cases turns[k]? <;> rfl

/-- The run that takes these turns and then rests for ever. -/
def ofTurns (hturn : ∀ x s s', turn x s = some s' → step (who x) s s') (turns : List X) (s : S) : Run step where
  state k := follow turn (turns.take k) s
  mover k := turns[k]?.bind fun x => if (turn x (follow turn (turns.take k) s)).isSome then some (who x) else none
  moves k w hw := by
    obtain ⟨x, hx, hmove⟩ := Option.bind_eq_some_iff.mp hw
    split at hmove
    · next hsome =>
      obtain rfl := Option.some.inj hmove
      obtain ⟨s', hs'⟩ := Option.isSome_iff_exists.mp hsome
      rw [follow_take_succ, hx]
      dsimp only
      rw [hs', Option.getD_some]
      exact hturn x _ s' hs'
    · cases hmove
  rests k hk := by
    rw [follow_take_succ]
    cases hx : turns[k]? with
    | none => rfl
    | some x =>
      rw [hx, Option.bind_some] at hk
      split at hk
      · cases hk
      · next hnone =>
        dsimp only
        rw [Option.not_isSome_iff_eq_none.mp hnone, Option.getD_none]

/-- A run of finitely many turns is fair if no thread can move at its end. -/
theorem fair_ofTurns {hturn : ∀ x s s', turn x s = some s' → step (who x) s s'} {turns : List X} {s : S}
    (hend : ∀ w s', ¬step w (follow turn turns s) s') : (ofTurns hturn turns s).Fair := by
  intro w k henabled
  obtain ⟨s', hstep⟩ := henabled (max k turns.length) (le_max_left _ _)
  have hall : (ofTurns hturn turns s).state (max k turns.length) = follow turn turns s := by
    change follow turn (turns.take (max k turns.length)) s = _
    rw [List.take_of_length_le (le_max_right _ _)]
  rw [hall] at hstep
  exact absurd hstep (hend w s')

end Follow

end Run

end Fairness
