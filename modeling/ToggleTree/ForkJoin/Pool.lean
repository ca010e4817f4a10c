import ToggleTree.ForkJoin.Program

/-!
# Pools of threads

A pool runs one program for each thread of a type `C`, one step of one thread at a time.
Nothing is assumed about the order in which the threads are scheduled.
-/

namespace ForkJoin

variable {σ ι α C : Type} [DecidableEq C]

/-- Finitely many steps of a pool of threads. -/
inductive PoolSteps (env : ι → Prog σ ι Unit) :
    (C → Prog σ ι α) → σ → (C → Prog σ ι α) → σ → Prop
  | refl (threads : C → Prog σ ι α) (s : σ) : PoolSteps env threads s threads s
  | tail {threads threads' : C → Prog σ ι α} {s s' s'' : σ} {c : C} {p : Prog σ ι α}
      (run : PoolSteps env threads s threads' s') (step : Step env (threads' c) s' p s'') :
      PoolSteps env threads s (Function.update threads' c p) s''

/-- A property of pools that every step of every thread preserves holds along every run. -/
theorem PoolSteps.invariant {env : ι → Prog σ ι Unit} {I : (C → Prog σ ι α) → σ → Prop}
    (hstep : ∀ threads s c p s', I threads s → Step env (threads c) s p s' →
      I (Function.update threads c p) s')
    {threads threads' : C → Prog σ ι α} {s s' : σ} (run : PoolSteps env threads s threads' s')
    (h : I threads s) : I threads' s' := by
  induction run with
  | refl => exact h
  | tail _ step ih => exact hstep _ _ _ _ _ (ih h) step

/-- The next step of a thread that stands at an atomic step. -/
def Prog.next? : Prog σ ι α → σ → Option (Prog σ ι α × σ)
  | .atom act next, s => some (next (act s).1, (act s).2)
  | _, _ => none

/-- The next step of a thread is a step. -/
theorem Prog.step_of_next? {env : ι → Prog σ ι Unit} {p : Prog σ ι α} {q : Prog σ ι α × σ} {s : σ}
    (h : p.next? s = some q) : Step env p s q.1 q.2 := by
  cases p with
  | atom act next =>
    obtain rfl := Option.some.inj h
    exact ⟨rfl, rfl⟩
  | _ => cases h

/-- The result of a thread that has returned. -/
def Prog.result? : Prog σ ι α → Option α
  | .ret v => some v
  | _ => none

/-- A program with a result has returned it. -/
theorem Prog.eq_ret_of_result? {p : Prog σ ι α} {v : α} (h : p.result? = some v) : p = .ret v := by
  cases p with
  | ret w => rw [Option.some.inj h]
  | _ => cases h

/-- One atomic step of each thread that a schedule names, in the order of the schedule. -/
def runSchedule : List C → (C → Prog σ ι α) → σ → Option ((C → Prog σ ι α) × σ)
  | [], threads, s => some (threads, s)
  | c :: schedule, threads, s =>
      ((threads c).next? s).bind fun q => runSchedule schedule (Function.update threads c q.1) q.2

/-- What a schedule does is a run of the pool. -/
theorem PoolSteps.schedule {env : ι → Prog σ ι Unit} {start threads threads' : C → Prog σ ι α} {s₀ s s' : σ}
    {schedule : List C} (run : PoolSteps env start s₀ threads s)
    (h : runSchedule schedule threads s = some (threads', s')) : PoolSteps env start s₀ threads' s' := by
  induction schedule generalizing threads s with
  | nil =>
    obtain ⟨rfl, rfl⟩ := Prod.mk.inj (Option.some.inj h)
    exact run
  | cons c schedule ih =>
    obtain ⟨q, hq, hrest⟩ := Option.bind_eq_some_iff.mp h
    exact ih (PoolSteps.tail run (Prog.step_of_next? hq)) hrest

/-- A thread that runs alone returns if all its runs do. -/
theorem PoolSteps.alone {env : ι → Prog σ ι Unit} {Q : α → σ → Prop} {start : Unit → Prog σ ι α} {p : Prog σ ι α}
    {s₀ s : σ} (htotal : Total env Q p s) (run : PoolSteps env start s₀ (fun _ => p) s) :
    ∃ v s', PoolSteps env start s₀ (fun _ => Prog.ret v) s' ∧ Q v s' := by
  induction htotal with
  | @intro p s post _ ih =>
    rcases step_progress env p s with ⟨v, rfl⟩ | ⟨p', s', hstep⟩
    · exact ⟨v, s, run, post v rfl⟩
    · exact ih p' s' hstep (PoolSteps.tail (c := ()) run hstep)

end ForkJoin
