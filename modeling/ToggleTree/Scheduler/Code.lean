import ToggleTree.ForkJoin.Program

/-!
# The code that the scheduler runs

User code makes atomic steps on a shared state and calls `parallel_do`; `parallel_for` is
written in terms of `parallel_do`. The meaning of such code is a fork–join program, which
knows nothing of workers, deques and jobs.
-/

namespace ToggleTree

open ForkJoin ForkJoin.Prog

variable {σ : Type}

/-- Code over the shared state `σ`. What follows an atomic step may depend on the state that
the step has seen. -/
inductive Code (σ : Type)
  | done
  | atom (act : σ → σ) (next : σ → Code σ)
  | parallelDo (lf rf next : Code σ)

namespace Code

/-- One piece of code after the other. -/
def seq : Code σ → Code σ → Code σ
  | done, k => k
  | atom act next, k => atom act fun s => (next s).seq k
  | parallelDo lf rf next, k => parallelDo lf rf (next.seq k)

/-- One atomic step. -/
def step (act : σ → σ) : Code σ := atom act fun _ => done

/-- The loop `for (uint64_t i = start; i < end; i++) { f(i); }`. -/
def seqFor (start stop : ℕ) (f : ℕ → Code σ) : Code σ :=
  if start < stop then (f start).seq (seqFor (start + 1) stop f) else done
termination_by stop - start

/-- `parallel_for`. -/
def parallelFor (start stop : ℕ) (f : ℕ → Code σ) (granularity : ℕ) (h : 1 ≤ granularity) : Code σ :=
  if stop - start ≤ granularity then seqFor start stop f
  else
    let mid := start + (stop - start) / 2
    parallelDo (parallelFor start mid f granularity h) (parallelFor mid stop f granularity h) done
termination_by stop - start

/-- The fork–join program of a piece of code. -/
def prog : Code σ → Prog σ Empty Unit
  | done => ret ()
  | atom act next => Prog.atom (fun s => (s, act s)) fun s => (next s).prog
  | parallelDo lf rf next => fork lf.prog rf.prog fun _ _ => next.prog

/-- A code without jobs does nothing. -/
@[simp] theorem prog_done : (done : Code σ).prog = ret () := rfl

/-- Code in sequence is sequential composition. -/
theorem prog_seq (c k : Code σ) : (c.seq k).prog = (c.prog >>= fun _ => k.prog) := by
  induction c with
  | done => rfl
  | atom act next ih => simp only [seq, prog, atom_bind, ih]
  | parallelDo lf rf next _ _ ih => simp only [seq, prog, fork_bind, ih]

end Code

end ToggleTree
